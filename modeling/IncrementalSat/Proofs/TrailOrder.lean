import IncrementalSat.Proofs.Visits

/-!
# Trails, place by place

The literals of a trail, the table of atoms, the limits of the levels, the reasons and the
assumptions are kept apart from each other; here is how they fit together at each place.  It is so
between two requests and between any two turns of a search.
-/

set_option autoImplicit false

namespace IncrementalSat.Cdcl

namespace Trail

/-- A level begins at a place: its first literal is there, and is the only one of the level that has
no reason. -/
structure OpensAt (t : Trail) (level place : Nat) (l : Literal) : Prop where
  getElem? : t.literals[place]? = some l
  level_eq : t.levelOf l.atom = level
  reason_eq : t.reasonOf l.atom = none
  least : ∀ (i : Nat) (m : Literal), t.literals[i]? = some m → t.levelOf m.atom = level → place ≤ i
  only : ∀ (i : Nat) (m : Literal), t.literals[i]? = some m → t.levelOf m.atom = level →
    t.reasonOf m.atom = none → i = place

/-- What is known of the atoms fits the literals, place by place, with clauses of a store as
reasons, and the first levels belong to the assumptions. -/
structure InOrder (t : Trail) (s : ClauseStore) (assumptions : List Literal) : Prop where
  distinct : (t.literals.toList.map Literal.atom).Nodup
  value_iff : ∀ atom b, t.value atom = some b ↔ ⟨atom, b⟩ ∈ t.literals
  /-- The level of a literal is the number of levels opened at or before its place. -/
  level_eq : ∀ (i : Nat) (l : Literal), t.literals[i]? = some l →
    t.levelOf l.atom = t.limits.toList.countP (· ≤ i)
  ascending : t.limits.toList.Pairwise (· ≤ ·)
  limits_le : ∀ n ∈ t.limits, n ≤ t.literals.size
  /-- A reason holds its literal, and its other literals are false by earlier ones. -/
  reason : ∀ (i : Nat) (l : Literal) (key : Nat), t.literals[i]? = some l →
    t.reasonOf l.atom = some key →
    key < s.clauses.size ∧ l ∈ (s.clause key).literals ∧
      ∀ m ∈ (s.clause key).literals, m ≠ l →
        t.valueOf m = some false ∧ ∃ j < i, t.literals[j]? = some m.negate
  /-- Every level above zero that is not empty is opened by a literal. -/
  opening : ∀ level > 0, (∃ l ∈ t.literals, t.levelOf l.atom = level) →
    ∃ place l, t.OpensAt level place l
  /-- An assumption whose level is open is true by then. -/
  honoured : ∀ i a, i < t.level → assumptions[i]? = some a →
    t.valueOf a = some true ∧ t.levelOf a.atom ≤ i + 1
  /-- Only its assumption opens the level of an assumption. -/
  opened : ∀ i < assumptions.length, ∀ l ∈ t.literals, t.levelOf l.atom = i + 1 →
    t.reasonOf l.atom = none → assumptions[i]? = some l
  head_le : t.head ≤ t.literals.size

variable {t : Trail} {l : Literal}

/-! ## Places -/

/-- The literal at a place comes after the literals below it. -/
theorem suffix_of_getElem? {i : Nat} (h : t.literals[i]? = some l) :
    l :: (t.before i).reverse <:+ t.backwards := by
  obtain ⟨earlier, hsuffix, rfl⟩ := exists_suffix_of_getElem? h
  rwa [← (suffix_backwards_iff.1 hsuffix).1]

/-- The literals below a position are those at lower places. -/
theorem mem_before_iff_getElem? {p : Nat} :
    l ∈ t.before p ↔ ∃ i < p, t.literals[i]? = some l := by
  rw [mem_before_iff]
  constructor
  · rintro ⟨earlier, hsuffix, hlt⟩
    exact ⟨_, hlt, (suffix_backwards_iff.1 hsuffix).2⟩
  · rintro ⟨i, hlt, hi⟩
    obtain ⟨earlier, hsuffix, rfl⟩ := exists_suffix_of_getElem? hi
    exact ⟨earlier, hsuffix, hlt⟩

end Trail

/-! ## Levels -/

namespace Coherent

variable {t : Trail} {s : ClauseStore}

/-- The first literal of a level above zero opens it: had it a reason, the literals of the clause
that are false before it would include one of the same level. -/
theorem exists_opensAt (h : Coherent t s) {level : Nat} (hpos : 0 < level)
    (hexists : ∃ l ∈ t.literals, t.levelOf l.atom = level) :
    ∃ place l, t.OpensAt level place l := by
  classical
  have hplaces : ∃ (i : Nat) (l : Literal), t.literals[i]? = some l ∧ t.levelOf l.atom = level := by
    obtain ⟨l, hl, hlevel⟩ := hexists
    obtain ⟨i, hi⟩ := Array.mem_iff_getElem?.1 hl
    exact ⟨i, l, hi, hlevel⟩
  obtain ⟨l, hplace, hlevel⟩ := Nat.find_spec hplaces
  have hleast : ∀ (i : Nat) (m : Literal), t.literals[i]? = some m → t.levelOf m.atom = level →
      Nat.find hplaces ≤ i := fun i m hi hm => Nat.find_min' hplaces ⟨m, hi, hm⟩
  have hreason : t.reasonOf l.atom = none := by
    cases hreason : t.reasonOf l.atom with
    | none => rfl
    | some key =>
      have hforces := h.forced (Trail.suffix_of_getElem? hplace) hreason
      obtain ⟨m, hm, hne, hsame⟩ := hforces.level
      obtain ⟨i, hlt, hi⟩ := Trail.mem_before_iff_getElem?.1
        (List.mem_reverse.1 (hforces.others m hm hne))
      have hle := hleast i m.negate hi (hsame.trans hlevel)
      omega
  refine ⟨_, l, hplace, hlevel, hreason, hleast, fun i m hi hm hnone => ?_⟩
  by_contra hne
  have hlt : Nat.find hplaces < i := lt_of_le_of_ne (hleast i m hi hm) (Ne.symm hne)
  have hearlier : l ∈ (t.before i).reverse :=
    List.mem_reverse.2 (Trail.mem_before_iff_getElem?.2 ⟨_, hlt, hplace⟩)
  rcases h.opening (Trail.suffix_of_getElem? hi) hnone with hzero | hlow
  · omega
  · have hless := hlow l hearlier
    omega

/-- Trails that are coherent with a store and uphold assumptions are in order. -/
theorem inOrder (h : Coherent t s) {assumptions : List Literal} (hu : Upholds assumptions t) :
    t.InOrder s assumptions where
  distinct := by
    have hdistinct := h.trail.distinct
    rwa [Trail.backwards, List.map_reverse, List.nodup_reverse] at hdistinct
  value_iff := h.trail.value_iff
  level_eq i l hi := by
    obtain ⟨earlier, hsuffix, rfl⟩ := Trail.exists_suffix_of_getElem? hi
    exact h.trail.level_eq hsuffix
  ascending := h.trail.ascending
  limits_le n hn := (h.trail.limits_le_head n hn).trans h.trail.head_le_size
  reason i l key hi hreason := by
    have hforces := h.forced (Trail.suffix_of_getElem? hi) hreason
    refine ⟨hforces.key_lt, hforces.mem, fun m hm hne => ?_⟩
    have hearlier := List.mem_reverse.1 (hforces.others m hm hne)
    exact ⟨h.trail.valueOf_eq_false_iff.2 (Trail.mem_of_mem_before hearlier),
      Trail.mem_before_iff_getElem?.1 hearlier⟩
  opening level hpos hexists := h.exists_opensAt hpos hexists
  honoured i a hi ha := by
    obtain ⟨hmem, hle⟩ := hu.honoured ha hi
    exact ⟨h.trail.valueOf_eq_true_iff.2 hmem, hle⟩
  opened i hi l hl hlevel hreason := by
    have hopened := hu.opened l hl hreason (by omega) (by omega)
    rwa [hlevel, Nat.add_sub_cancel] at hopened
  head_le := h.trail.head_le_size

end Coherent

/-- Where no atom is marked, every mark is clear. -/
theorem Unmarked.eq_false_of_mem {seen : Array Bool} {atoms : Nat} (h : Unmarked seen atoms) :
    ∀ mark ∈ seen, mark = false := by
  intro mark hmark
  obtain ⟨atom, hlt, rfl⟩ := Array.mem_iff_getElem.1 hmark
  simpa [hlt] using h.getD_eq atom

namespace Solver

variable {R : Type} [Random.Source R]

/-- The trail of a solver is in order between two requests, when it is at level zero and no atom is
marked, and between any two turns of a search. -/
theorem trails_are_in_order (settings : Settings) (requests : List Engine.Request) :
    let s := Engine.serveAll (ofSettings settings : Solver R) requests
    (s.trail.InOrder s.store s.assumptions.toList ∧ s.trail.level = 0 ∧
        ∀ mark ∈ s.seen, mark = false) ∧
      ∀ s', s.Visits s' → s'.trail.InOrder s'.store s.assumptions.toList := by
  intro s
  have hready : Ready s := ready_serveAll settings requests
  have hresting := hready.resting
  refine ⟨⟨?_, hresting.level, hresting.unmarked.eq_false_of_mem⟩, fun s' hvisits => ?_⟩
  · exact hresting.coherent.inOrder
      (.of_level_zero hresting.coherent.trail hresting.level hready.assumptions)
  · have hsearching := hready.searching_of_visits hvisits
    exact hsearching.coherent.inOrder hsearching.upholds

/-- Such a state: of three assumptions the second is forced by the first, so its level is empty; the
third has opened the level after it. -/
theorem trails_are_in_order_of_empty_level :
    let s := Engine.serveAll (ofSettings {} : Solver Random.Pcg)
      [.add 1, .add 2, .add 0, .assume (-1), .assume 2, .assume 3]
    ∃ s', s.Visits s' ∧ s'.trail.literals = #[⟨0, false⟩, ⟨1, true⟩, ⟨2, true⟩] ∧
      s'.trail.limits = #[0, 2, 2] ∧ s'.trail.levelOf 2 = 3 ∧ s'.trail.OpensAt 3 2 ⟨2, true⟩ ∧
      s'.trail.valueOf ⟨1, true⟩ = some true ∧ s'.trail.levelOf 1 ≤ 2 := by
  intro s
  have hconsistent : s.consistent = true := by decide +kernel
  let t₁ := (s.beginSolve.turn s.assumptions.toList).get (by decide +kernel)
  let t₂ := (t₁.solver.turn s.assumptions.toList).get (by decide +kernel)
  have hvisits : s.Visits t₂.solver :=
    ((visits_beginSolve hconsistent).turn_get _ (by decide +kernel)).turn_get _ (by decide +kernel)
  have hliterals : t₂.solver.trail.literals = #[⟨0, false⟩, ⟨1, true⟩, ⟨2, true⟩] := by
    decide +kernel
  have hlimits : t₂.solver.trail.limits = #[0, 2, 2] := by decide +kernel
  have horder := (trails_are_in_order (R := Random.Pcg) {}
    [.add 1, .add 2, .add 0, .assume (-1), .assume 2, .assume 3]).2 t₂.solver hvisits
  have hplace : t₂.solver.trail.literals[2]? = some ⟨2, true⟩ := by
    rw [hliterals]
    rfl
  have hlevel : t₂.solver.trail.levelOf 2 = 3 := by
    rw [horder.level_eq 2 _ hplace, hlimits]
    rfl
  obtain ⟨place, l, hopens⟩ := horder.opening 3 (by decide)
    ⟨_, Array.mem_of_getElem? hplace, hlevel⟩
  obtain rfl : 2 = place := hopens.only 2 _ hplace hlevel (by decide +kernel)
  obtain rfl := Option.some.inj (hopens.getElem?.symm.trans hplace)
  obtain ⟨htrue, hlow⟩ := horder.honoured 1 ⟨1, true⟩ (by rw [Trail.level, hlimits]; decide) rfl
  exact ⟨_, hvisits, hliterals, hlimits, hlevel, hopens, htrue, hlow⟩

end Solver

end IncrementalSat.Cdcl
