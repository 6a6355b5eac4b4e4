import IncrementalSat.Proofs.Representation
import IncrementalSat.Proofs.Requests
import IncrementalSat.Random.Pcg

/-!
# A clause enters a solver as a set of literals

The order in which the literals of a clause are added and how often each is repeated leave no trace:
the room made for their atoms depends only on the largest of them, and the clause in order, without
repetitions, only on its members.  In order the two literals of an atom stand side by side, so the
test of neighbours finds every complement.  A clause closed at level zero then changes a solver by
its open literals alone.
-/

set_option autoImplicit false

namespace IncrementalSat

/-! ## Ordered clauses with the same members -/

namespace Literal

/-- Lists in increasing order with the same members are the same. -/
theorem eq_of_pairwise_of_mem_iff {xs ys : List Literal}
    (hxs : xs.Pairwise fun m k => m.code < k.code) (hys : ys.Pairwise fun m k => m.code < k.code)
    (h : ∀ l, l ∈ xs ↔ l ∈ ys) : xs = ys := by
  have hirrefl : Std.Irrefl fun m k : Literal => m.code < k.code := ⟨fun _ => Nat.lt_irrefl _⟩
  have hantisymm : Std.Antisymm fun m k : Literal => m.code < k.code :=
    ⟨fun _ _ hmk hkm => absurd hkm (Nat.lt_asymm hmk)⟩
  exact hxs.eq_of_mem_iff hys h

/-- The ordered list depends only on the members. -/
theorem ordered_congr {xs ys : List Literal} (h : ∀ l, l ∈ xs ↔ l ∈ ys) :
    ordered xs = ordered ys :=
  eq_of_pairwise_of_mem_iff (pairwise_ordered xs) (pairwise_ordered ys) fun l => by
    rw [mem_ordered, mem_ordered, h]

/-- In an ordered list, comparing neighbours finds every literal that is there with its
negation. -/
theorem hasComplement_ordered_iff {ls : List Literal} :
    hasComplement (ordered ls) = true ↔ ∃ l ∈ ls, l.negate ∈ ls := by
  constructor
  · intro h
    obtain ⟨l, hl, hn⟩ := exists_of_hasComplement h
    exact ⟨l, mem_ordered.1 hl, mem_ordered.1 hn⟩
  · rintro ⟨l, hl, hn⟩
    by_contra hfalse
    have hnodup := nodup_atoms_of_pairwise (pairwise_ordered ls) (Bool.not_eq_true _ ▸ hfalse)
    have hsame : l = l.negate :=
      List.inj_on_of_nodup_map hnodup (mem_ordered.2 hl) (mem_ordered.2 hn) rfl
    simpa using congrArg Literal.positive hsame

/-- The number of atoms that some literals need. -/
def room (ls : List Literal) : Nat :=
  ls.foldr (fun l n => max (l.atom + 1) n) 0

/-- Enough room for some literals is room for each of their atoms. -/
theorem room_le_iff {ls : List Literal} {n : Nat} : room ls ≤ n ↔ ∀ l ∈ ls, l.atom < n := by
  induction ls with
  | nil => simp [room]
  | cons l rest ih =>
    show max (l.atom + 1) (room rest) ≤ n ↔ _
    rw [max_le_iff, ih, List.forall_mem_cons]
    exact Iff.rfl

/-- The room needed depends only on the members. -/
theorem room_congr {xs ys : List Literal} (h : ∀ l, l ∈ xs ↔ l ∈ ys) : room xs = room ys := by
  refine le_antisymm (room_le_iff.2 fun l hl => ?_) (room_le_iff.2 fun l hl => ?_)
  · exact room_le_iff.1 le_rfl l ((h l).1 hl)
  · exact room_le_iff.1 le_rfl l ((h l).2 hl)

end Literal

namespace Cdcl

/-! ## Room for the atoms of a clause -/

/-- Extending a table to no entries changes nothing. -/
theorem Table.extend_zero {α : Type} (xs : Array α) (value : α) : extend xs 0 value = xs := by
  simp [extend]

/-- Extending a table twice is extending it to the greater size. -/
theorem Table.extend_extend {α : Type} (xs : Array α) (m n : Nat) (value : α) :
    extend (extend xs m value) n value = extend xs (max m n) value := by
  have hcount : m - xs.size + (n - max xs.size m) = max m n - xs.size := by omega
  show extend xs m value ++ Array.replicate (n - (extend xs m value).size) value = _
  rw [size_extend, extend, Array.append_assoc, Array.replicate_append_replicate, hcount, extend]

/-- Storing a clause adds its key to the lists of the literals watched, and to no other. -/
theorem ClauseStore.watchers_attach {s : ClauseStore} {first second : Literal}
    (hne : second ≠ first) (hfirst : first.code < s.watches.size)
    (hsecond : second.code < s.watches.size) (others : List Literal) (learnt : Bool)
    (l : Literal) :
    (s.attach first second others learnt).watchers l =
      if l = first ∨ l = second then (s.watchers l).push s.nextKey else s.watchers l := by
  show ((s.watch first s.nextKey).watch second s.nextKey).watchers l = _
  by_cases hlf : l = first
  · subst hlf
    rw [watchers_watch_ne hne.symm, watchers_watch_self hfirst, if_pos (.inl rfl)]
  by_cases hls : l = second
  · subst hls
    rw [watchers_watch_self (by rwa [size_watches_watch]), watchers_watch_ne hne,
      if_pos (.inr rfl)]
  · rw [watchers_watch_ne hls, watchers_watch_ne hlf, if_neg (by simp [hlf, hls])]

namespace Solver

open Engine (Request)

variable {R : Type} {s : Solver R} {literals : List Literal}

/-- The solver with room for a number of atoms, if it has less. -/
def withRoom (s : Solver R) (n : Nat) : Solver R :=
  { s with
    trail := { s.trail with slots := Table.extend s.trail.slots n {} }
    store := { s.store with watches := Table.extend s.store.watches (2 * n) #[] }
    activity := { s.activity with scores := Table.extend s.activity.scores n 0 }
    seen := Table.extend s.seen n false }

/-- Room for no atoms changes nothing. -/
theorem withRoom_zero (s : Solver R) : s.withRoom 0 = s := by
  simp only [withRoom, Nat.mul_zero, Table.extend_zero]

/-- Making room twice is making it for the greater number of atoms. -/
theorem withRoom_withRoom (s : Solver R) (m n : Nat) :
    (s.withRoom m).withRoom n = s.withRoom (max m n) := by
  simp only [withRoom, Table.extend_extend, Nat.mul_max_mul_left]

/-- Room changes nothing of what is known of an atom. -/
@[simp] theorem slot_withRoom (s : Solver R) (n a : Nat) :
    (s.withRoom n).trail.slot a = s.trail.slot a :=
  Table.getD_extend ..

/-- Room changes nothing of the value of a literal. -/
@[simp] theorem valueOf_withRoom (s : Solver R) (n : Nat) (l : Literal) :
    (s.withRoom n).trail.valueOf l = s.trail.valueOf l := by
  simp only [Trail.valueOf, Trail.value, slot_withRoom]

/-- With room for a number of atoms there are at least as many atoms. -/
theorem atoms_withRoom (s : Solver R) (n : Nat) :
    (s.withRoom n).trail.atoms = max s.trail.atoms n :=
  Table.size_extend ..

/-! ## Closing a clause -/

/-- Closing a clause depends only on its members. -/
theorem addClause_congr (s : Solver R) {xs ys : List Literal} (h : ∀ l, l ∈ xs ↔ l ∈ ys) :
    s.addClause xs = s.addClause ys := by
  unfold addClause
  rw [Literal.ordered_congr h]

/-- A clause that a solver at level zero need not keep: it has a literal with its negation, or one
that is true there. -/
def Superfluous (s : Solver R) (clause : List Literal) : Prop :=
  (∃ l ∈ clause, l.negate ∈ clause) ∨
    ∃ l ∈ clause, s.trail.valueOf l = some true ∧ s.trail.levelOf l.atom = 0

/-- Whether a clause is superfluous depends only on the values and levels of its atoms. -/
theorem superfluous_congr {s s' : Solver R} (h : ∀ a, s'.trail.slot a = s.trail.slot a)
    (clause : List Literal) : s'.Superfluous clause ↔ s.Superfluous clause := by
  simp only [Superfluous, Trail.valueOf, Trail.value, Trail.levelOf, h]

/-- The solver with a clause entered by its open literals. -/
def enter (s : Solver R) : List Literal → Solver R
  | [] => { s with consistent := false }
  | [l] => { s with trail := s.trail.assign l none }
  | first :: second :: others => { s with store := s.store.attach first second others false }

/-- What the open literals of a clause, in order, change in a solver at level zero. -/
structure Takes (s : Solver R) (opened : List Literal) (after : Solver R) : Prop where
  refuted : opened = [] → after = { s with consistent := false }
  assigned : ∀ l, opened = [l] →
    after = { s with trail := s.trail.assign l none } ∧
    after.trail.literals = s.trail.literals.push l ∧
    (after.trail.slot l.atom).current = some ⟨l.positive, 0, none⟩ ∧
    ∀ a ≠ l.atom, after.trail.slot a = s.trail.slot a
  stored : ∀ first second others, opened = first :: second :: others →
    after = { s with store := s.store.attach first second others false } ∧
    after.store.clauses = s.store.clauses.push ⟨first, second, others.toArray, false⟩ ∧
    ∀ l, after.store.watchers l =
      if l = first ∨ l = second then (s.store.watchers l).push s.store.nextKey
      else s.store.watchers l

/-- Literals in order, with room, enter as they should. -/
theorem Resting.takes (h : s.Resting) {opened : List Literal}
    (hordered : opened.Pairwise fun m k => m.code < k.code)
    (hroom : ∀ l ∈ opened, l.atom < s.trail.atoms) : Takes s opened (s.enter opened) := by
  match opened, hordered, hroom with
  | [], _, _ => exact ⟨fun _ => rfl, fun _ hl => by simp at hl, fun _ _ _ hl => by simp at hl⟩
  | [l], _, hroom =>
    have hl := hroom l List.mem_cons_self
    refine ⟨fun hl => by simp at hl, fun m hm => ?_, fun _ _ _ hl => by simp at hl⟩
    obtain rfl := List.singleton_inj.1 hm
    exact ⟨rfl, Trail.literals_assign none hl, h.level ▸ Trail.current_assign_self none hl,
      fun a ha => Trail.slot_assign_ne none ha⟩
  | first :: second :: others, hordered, hroom =>
    refine ⟨fun hl => by simp at hl, fun _ hm => by simp at hm, fun f k o hl => ?_⟩
    obtain ⟨rfl, rfl, rfl⟩ : first = f ∧ second = k ∧ others = o := by simpa using hl
    have hcode : ∀ l ∈ first :: second :: others, l.code < s.store.watches.size :=
      fun l hl => h.coherent.store.code_lt (hroom l hl)
    have hne : second ≠ first := by
      rintro rfl
      exact Nat.lt_irrefl _ ((List.pairwise_cons.1 hordered).1 _ List.mem_cons_self)
    exact ⟨rfl, by simp [enter, ClauseStore.attach, ClauseStore.watch],
      ClauseStore.watchers_attach hne (hcode _ (by simp)) (hcode _ (by simp)) others false⟩

/-- A clause always changes a consistent solver when it enters by its open literals. -/
theorem Takes.ne {opened : List Literal} {after : Solver R} (h : Takes s opened after)
    (hconsistent : s.consistent = true) : after ≠ s := by
  rintro rfl
  match opened, h with
  | [], h =>
    have hsame := congrArg Solver.consistent (h.refuted rfl)
    rw [hconsistent] at hsame
    cases hsame
  | [l], h =>
    have hsize := congrArg Array.size (h.assigned l rfl).2.1
    simp at hsize
  | first :: second :: others, h =>
    have hsize := congrArg Array.size (h.stored first second others rfl).2.1
    simp at hsize

/-- A superfluous clause is dropped. -/
theorem addClause_of_superfluous (h : s.Superfluous literals) : (s.addClause literals).1 = s := by
  unfold addClause
  dsimp only
  rcases h with hcomplement | ⟨l, hl, htrue, -⟩
  · rw [if_pos (Literal.hasComplement_ordered_iff.2 hcomplement)]
    split
    · rfl
    · rfl
  · have hany : ((Literal.ordered literals).any fun l => s.trail.valueOf l == some true) = true :=
      List.any_eq_true.2 ⟨l, Literal.mem_ordered.2 hl, by simp [htrue]⟩
    rw [if_pos hany]
    split
    · rfl
    split
    · rfl
    · rfl

/-- Any other clause enters by its open literals. -/
theorem Resting.addClause_eq_enter (h : s.Resting) (hconsistent : s.consistent = true)
    (hneeded : ¬ s.Superfluous literals) :
    (s.addClause literals).1 =
      s.enter ((Literal.ordered literals).filter fun l => s.trail.valueOf l == none) := by
  have hcomplement : Literal.hasComplement (Literal.ordered literals) ≠ true :=
    fun hc => hneeded (.inl (Literal.hasComplement_ordered_iff.1 hc))
  have htrue :
      ((Literal.ordered literals).any fun l => s.trail.valueOf l == some true) ≠ true := by
    intro hany
    obtain ⟨l, hl, hvalue⟩ := List.any_eq_true.1 hany
    have hmem := h.coherent.trail.valueOf_eq_true_iff.1 (eq_of_beq hvalue)
    have hle := h.coherent.trail.levelOf_le_level hmem
    rw [h.level] at hle
    exact hneeded (.inr ⟨l, Literal.mem_ordered.1 hl, eq_of_beq hvalue, Nat.le_zero.1 hle⟩)
  unfold Solver.addClause
  dsimp only
  rw [if_neg (by simp [hconsistent]), if_neg hcomplement, if_neg htrue]
  unfold enter
  split <;> simp only [*]

/-! ## Streams of literals -/

/-- The requests that add the literals of a clause and close it. -/
def closing (clause : List Int32) : List Request :=
  clause.map Request.add ++ [.add 0]

variable [Random.Source R]

/-- Adding literals makes room for their atoms and leaves the clause open. -/
theorem serveAll_add (s : Solver R) {clause : List Int32} (hclause : ∀ lit ∈ clause, lit ≠ 0) :
    Engine.serveAll s (clause.map Request.add) =
      { s.withRoom (Literal.room (clause.map Literal.ofInteger)) with
        openClause := s.openClause ++ (clause.map Literal.ofInteger).toArray } := by
  induction clause generalizing s with
  | nil => simp [Engine.serveAll, Literal.room, withRoom_zero]
  | cons lit rest ih =>
    obtain ⟨hlit, hrest⟩ := List.forall_mem_cons.1 hclause
    have hadd : Engine.serve s (.add lit) =
        { s.withRoom ((Literal.ofInteger lit).atom + 1) with
          openClause := s.openClause.push (Literal.ofInteger lit) } := by
      show (s.add lit).1 = _
      rw [add, if_neg hlit]
      rfl
    show Engine.serveAll (Engine.serve s (.add lit)) (rest.map Request.add) = _
    have hroom : ∀ (s : Solver R) (pushed : Array Literal) (n : Nat),
        ({ s with openClause := pushed } : Solver R).withRoom n =
          { s.withRoom n with openClause := pushed } := fun _ _ _ => rfl
    rw [hadd, ih _ hrest, hroom, withRoom_withRoom]
    simp [Literal.room]

/-- Closing a clause over a solver that has none open closes it over the solver with room. -/
theorem serveAll_closing {requests : List Request} (hclosed : (given R requests).openClause = #[])
    {clause : List Int32} (hclause : ∀ lit ∈ clause, lit ≠ 0) :
    let roomy := (given R requests).withRoom (Literal.room (clause.map Literal.ofInteger))
    Engine.serveAll (given R requests) (closing clause) =
      (roomy.addClause (clause.map Literal.ofInteger)).1 ∧ roomy.Resting := by
  intro roomy
  have hadded : Engine.serveAll (given R requests) (clause.map Request.add) =
      { roomy with openClause := (clause.map Literal.ofInteger).toArray } := by
    rw [serveAll_add _ hclause, hclosed, Array.empty_append]
  have hready := ready_given (R := R) (requests ++ clause.map Request.add)
  rw [given, Engine.serveAll_append, ← given, hadded] at hready
  have hresting : roomy.Resting := hready.resting.congr rfl rfl rfl rfl
  refine ⟨?_, hresting⟩
  have hsame : ({ roomy with openClause := #[] } : Solver R) = roomy :=
    congrArg (fun pushed => { roomy with openClause := pushed }) hclosed.symm
  have hback : roomy.trail.backjump 0 = roomy.trail := hresting.backjump
  rw [closing, Engine.serveAll_append, hadded]
  show (addClause { roomy with trail := roomy.trail.backjump 0, openClause := #[] } _).1 = _
  rw [hback, hsame]

/-- A clause added to a solver between calls, with none open, leaves the same solver behind for any
order and any repetitions of its literals.  But for room, that is the solver before exactly if the
clause has a literal with its negation or one that is true at level zero; and otherwise the solver
before with no more than the open literals of the clause, in order: without any it is inconsistent,
a single one is assigned without a reason, and several are stored as a clause watched at the first
two. -/
theorem clause_enters_as_set {requests : List Request} {xs ys : List Int32}
    (hconsistent : (given R requests).consistent = true)
    (hclosed : (given R requests).openClause = #[])
    (hproper : ∀ lit ∈ xs, isMalformed lit = false) (hsame : ∀ lit, lit ∈ xs ↔ lit ∈ ys) :
    let before := given R requests
    let clause := xs.map Literal.ofInteger
    let roomy := before.withRoom (Literal.room clause)
    let after := Engine.serveAll before (closing xs)
    after = Engine.serveAll before (closing ys) ∧
    (after = roomy ↔ before.Superfluous clause) ∧
    (¬ before.Superfluous clause →
      ∃ opened : List Literal, opened.Pairwise (fun l m => l.code < m.code) ∧
        (∀ l, l ∈ opened ↔ l ∈ clause ∧ before.trail.valueOf l = none) ∧
        Takes roomy opened after) := by
  intro before clause roomy after
  have hne : ∀ lit ∈ xs, lit ≠ 0 := fun lit hlit => (ne_zero_of_isMalformed (hproper lit hlit)).1
  have hmembers : ∀ l, l ∈ clause ↔ l ∈ ys.map Literal.ofInteger := fun l => by
    simp only [clause, List.mem_map, hsame]
  obtain ⟨hafter, hresting⟩ := serveAll_closing hclosed hne
  obtain ⟨hother, -⟩ := serveAll_closing hclosed fun lit hlit => hne lit ((hsame lit).2 hlit)
  have hsuperfluous : roomy.Superfluous clause ↔ before.Superfluous clause :=
    superfluous_congr (slot_withRoom before _) clause
  have hneeded : ¬ before.Superfluous clause →
      ∃ opened : List Literal, opened.Pairwise (fun l m => l.code < m.code) ∧
        (∀ l, l ∈ opened ↔ l ∈ clause ∧ before.trail.valueOf l = none) ∧
        Takes roomy opened after := by
    intro hneeded
    have hmem : ∀ l,
        l ∈ ((Literal.ordered clause).filter fun l => roomy.trail.valueOf l == none) ↔
          l ∈ clause ∧ before.trail.valueOf l = none := fun l => by
      rw [List.mem_filter, Literal.mem_ordered, beq_iff_eq, valueOf_withRoom]
    have hordered :=
      (Literal.pairwise_ordered clause).filter fun l => roomy.trail.valueOf l == none
    refine ⟨_, hordered, hmem, ?_⟩
    have henter := hresting.addClause_eq_enter hconsistent (mt hsuperfluous.1 hneeded)
    show Takes roomy _ (Engine.serveAll (given R requests) (closing xs))
    rw [hafter, henter]
    refine hresting.takes hordered fun l hl => ?_
    rw [atoms_withRoom]
    exact lt_max_of_lt_right (Literal.room_le_iff.1 le_rfl l ((hmem l).1 hl).1)
  refine ⟨?_, ⟨fun hsame => ?_, fun hsuper => ?_⟩, hneeded⟩
  · show Engine.serveAll (given R requests) (closing xs) = _
    rw [hafter, hother, ← Literal.room_congr hmembers]
    exact congrArg Prod.fst (addClause_congr _ hmembers)
  · by_contra hneed
    obtain ⟨opened, -, -, htakes⟩ := hneeded hneed
    exact htakes.ne hconsistent hsame
  · exact hafter.trans (addClause_of_superfluous (hsuperfluous.2 hsuper))

/-- Such a clause: one of its literals is false already, and the two others are stored, however
often and in whatever order they are added. -/
theorem clause_enters_as_set_of_repetition :
    let before := given Random.Pcg [.add 1, .add 0]
    let clause := [4, -1, 3, 4].map Literal.ofInteger
    let after := Engine.serveAll before (closing [4, -1, 3, 4])
    before.consistent = true ∧ before.openClause = #[] ∧ ¬ before.Superfluous clause ∧
    after = Engine.serveAll before (closing [3, -1, 4]) ∧
    Takes (before.withRoom (Literal.room clause)) [⟨2, true⟩, ⟨3, true⟩] after := by
  intro before clause after
  have hconsistent : before.consistent = true := by decide +kernel
  have hclosed : before.openClause = #[] := by decide +kernel
  have hproper : ∀ lit ∈ ([4, -1, 3, 4] : List Int32), isMalformed lit = false := by
    simp only [List.forall_mem_cons, List.not_mem_nil, false_imp_iff, implies_true, and_true]
    decide +kernel
  have hrepeats : ∀ lit : Int32, lit ∈ [4, -1, 3, 4] ↔ lit ∈ [3, -1, 4] := fun lit => by
    simp only [List.mem_cons, List.not_mem_nil, or_false]
    grind
  have hneeded : ¬ before.Superfluous clause := by
    unfold Superfluous
    decide +kernel
  obtain ⟨hsame, -, htakes⟩ := clause_enters_as_set hconsistent hclosed hproper hrepeats
  obtain ⟨opened, hordered, hmem, hopened⟩ := htakes hneeded
  have hliterals : opened = [⟨2, true⟩, ⟨3, true⟩] := by
    have hopen : ∀ l ∈ clause,
        before.trail.valueOf l = none ↔ l ∈ ([⟨2, true⟩, ⟨3, true⟩] : List Literal) := by
      decide +kernel
    have hclause : ∀ l ∈ ([⟨2, true⟩, ⟨3, true⟩] : List Literal), l ∈ clause := by decide +kernel
    refine Literal.eq_of_pairwise_of_mem_iff hordered (by decide) fun l => (hmem l).trans ?_
    exact ⟨fun h => (hopen l h.1).1 h.2, fun h => ⟨hclause l h, (hopen l (hclause l h)).2 h⟩⟩
  exact ⟨hconsistent, hclosed, hneeded, hsame, hliterals ▸ hopened⟩

end Solver

end Cdcl

end IncrementalSat
