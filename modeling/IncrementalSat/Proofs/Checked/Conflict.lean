import IncrementalSat.Cdcl.Checked.Conflict
import IncrementalSat.Proofs.Checked.Propagation
import IncrementalSat.Proofs.Explanation

/-!
# The analysis of conflicts does not fail

There is a mark and a score for each atom.  The literals of a false clause and of reasons have room,
so that a resolvent can take them in.  The walk back along the trail always has a pending literal
before it, so that it comes to none at the start of the trail, and the count of those literals is
positive at each marked one.  The collection of failed assumptions reads what is there for the same
reasons.
-/

set_option autoImplicit false

namespace IncrementalSat.Cdcl

/-- There is a score for each atom. -/
def Activity.Covers (a : Activity) (atoms : Nat) : Prop :=
  a.scores.size = atoms

/-- There is a mark and a score for each atom. -/
structure Resolvent.Covers (r : Resolvent) (atoms : Nat) : Prop where
  marks : r.seen.size = atoms
  scores : r.activity.Covers atoms

/-- Bumping an atom leaves a score for each atom. -/
theorem Activity.Covers.bump {a : Activity} {atoms : Nat} (h : a.Covers atoms) (atom : Nat) :
    (a.bump atom).Covers atoms := by
  unfold Activity.Covers at h ⊢
  unfold Activity.bump Activity.rescale
  dsimp only
  split <;> simpa using h

/-- Absorbing a literal leaves a mark and a score for each atom. -/
theorem Resolvent.Covers.absorb {r : Resolvent} {atoms : Nat} (h : r.Covers atoms) (t : Trail)
    (l : Literal) : (r.absorb t l).Covers atoms := by
  have hmarked : (r.seen.setIfInBounds l.atom true).size = atoms := by simpa using h.marks
  have hbumped := h.scores.bump l.atom
  unfold Resolvent.absorb
  split
  · exact h
  dsimp only
  generalize r.activity.bump l.atom = bumped at hbumped ⊢
  split
  · exact ⟨hmarked, hbumped⟩
  · exact ⟨hmarked, hbumped⟩

/-- Of a list only the ranks of its members matter to which of them is raised. -/
theorem raiseGreatest_congr {f g : Literal → Nat} {ls : List Literal}
    (h : ∀ m ∈ ls, f m = g m) : raiseGreatest f ls = raiseGreatest g ls := by
  cases ls with
  | nil => rfl
  | cons l rest =>
    have hrest : ∀ m ∈ rest, f m = g m := fun m hm => h m (List.mem_cons_of_mem _ hm)
    have hgreatest : ∀ n, rest.foldl (fun top m => max top (f m)) n =
        rest.foldl (fun top m => max top (g m)) n := fun n =>
      List.foldl_ext _ _ n fun top m hm => by rw [hrest m hm]
    have hexchange : ∀ (greatest : Nat) (ms : List Literal), (∀ m ∈ ms, f m = g m) →
        exchangeFirst (fun m => f m == greatest) l ms =
          exchangeFirst (fun m => g m == greatest) l ms := by
      intro greatest ms hms
      induction ms with
      | nil => rfl
      | cons m more ih =>
        simp only [exchangeFirst, hms m List.mem_cons_self,
          ih fun k hk => hms k (List.mem_cons_of_mem _ hk)]
    simp only [raiseGreatest, h l List.mem_cons_self, hgreatest, hexchange _ rest hrest]

namespace Checked

/-! ## Resolution -/

/-- Bumping an atom with a score does not fail. -/
theorem bump_eq {a : Activity} {atom : Nat} (h : atom < a.scores.size) :
    bump a atom = .ok (a.bump atom) := by
  have hraised : atom < (a.scores.modify atom (· + a.increment)).size := by
    rwa [Array.size_modify]
  rw [bump, alter_eq h, ok_bind]
  dsimp only
  rw [score, fetch_eq_getD hraised 0, ok_bind]
  rfl

section Resolution

variable {t : Trail} {s : ClauseStore} {r : Resolvent}

/-- A literal that has room can be taken in. -/
theorem absorb_eq {l : Literal} (h : r.Covers t.atoms) (hroom : l.atom < t.atoms) :
    absorb t r l = .ok (r.absorb t l) := by
  have hmark : l.atom < r.seen.size := h.marks ▸ hroom
  have hscore : l.atom < r.activity.scores.size := h.scores ▸ hroom
  rw [absorb, fetch_eq_getD hmark false, ok_bind, levelOf_eq hroom, put_eq hmark, bump_eq hscore,
    Resolvent.absorb]
  by_cases hseen : r.seen.getD l.atom false = true
  · rw [if_pos hseen, if_pos (by simp [hseen])]
    rfl
  rw [if_neg hseen, ok_bind]
  by_cases hzero : t.levelOf l.atom = 0
  · rw [if_pos hzero, if_pos (by simp [hzero])]
    rfl
  rw [if_neg hzero, if_neg (by simp [hseen, hzero]), ok_bind, ok_bind]
  dsimp only
  split <;> rfl

/-- The literals of a clause that has room can be taken in. -/
theorem resolve_eq {c : Clause} (h : r.Covers t.atoms) (hroom : ∀ l ∈ c.literals, l.atom < t.atoms)
    (pivot : Option Nat) :
    resolve t c pivot r = .ok (r.resolve t c pivot) ∧ (r.resolve t c pivot).Covers t.atoms :=
  foldlM_eq (g := fun (r : Resolvent) (l : Literal) =>
      if pivot = some l.atom then r else r.absorb t l)
    (P := fun r => r.Covers t.atoms) h
    fun r hr l hl => by
      by_cases hpivot : pivot = some l.atom
      · rw [if_pos hpivot, if_pos hpivot]
        exact ⟨rfl, hr⟩
      · rw [if_neg hpivot, if_neg hpivot]
        exact ⟨absorb_eq hr (hroom l hl), hr.absorb t l⟩

/-- The reason of a literal of the trail is a stored clause, whose literals have room. -/
theorem reason_room (hc : Coherent t s) {l : Literal} (hl : l ∈ t.literals) {key : Nat}
    (hreason : t.reasonOf l.atom = some key) :
    clause s key = .ok (s.clause key) ∧ ∀ m ∈ (s.clause key).literals, m.atom < t.atoms := by
  obtain ⟨earlier, hplace⟩ := Trail.exists_suffix_of_mem hl
  have hkey := (hc.forced hplace hreason).key_lt
  exact ⟨clause_eq hkey, hc.store.atom_lt key hkey⟩

/-! ## The walk -/

/-- The walk at an index reads the literal there and its mark. -/
theorem walk_succ {l : Literal} {earlier : List Literal} (hrest : l :: earlier <:+ t.backwards)
    (hwf : t.WellFormed) (h : r.Covers t.atoms) :
    fetch t.literals earlier.length = .ok l ∧
      fetch r.seen l.atom = .ok (r.seen.getD l.atom false) ∧
      put r.seen l.atom false = .ok (r.seen.setIfInBounds l.atom false) := by
  obtain ⟨hlt, hget⟩ := Array.getElem?_eq_some_iff.1 (Trail.suffix_backwards_iff.1 hrest).2
  have hmark : l.atom < r.seen.size := h.marks ▸ hwf.atom_lt (Trail.mem_of_suffix hrest)
  refine ⟨?_, fetch_eq_getD hmark false, put_eq hmark false⟩
  rw [fetch_eq hlt, hget]

/-- A literal that is not marked is passed by. -/
theorem walk_pass {l : Literal} {earlier : List Literal} (hrest : l :: earlier <:+ t.backwards)
    (hwf : t.WellFormed) (h : r.Covers t.atoms) (hseen : r.seen.getD l.atom false = false) :
    walk t s (earlier.length + 1) r = walk t s earlier.length r := by
  obtain ⟨hliteral, hmark, -⟩ := walk_succ hrest hwf h
  rw [walk, hliteral, ok_bind, hmark, ok_bind, hseen]
  rfl

/-- The walk goes on from a marked literal with others pending to the resolvent with its reason. -/
theorem walk_resolve {l : Literal} {earlier : List Literal} (hrest : l :: earlier <:+ t.backwards)
    (hc : Coherent t s) (h : r.Covers t.atoms) (hseen : r.seen.getD l.atom false = true)
    {pending : Nat} (hpending : pending + 1 = r.pending) (hpos : 0 < pending) {key : Nat}
    (hreason : t.reasonOf l.atom = some key) :
    let resolved := Resolvent.resolve t (s.clause key) (some l.atom)
      { r with seen := r.seen.setIfInBounds l.atom false, pending := pending }
    walk t s (earlier.length + 1) r = walk t s earlier.length resolved ∧
      resolved.Covers t.atoms := by
  have hl : l ∈ t.literals := Trail.mem_of_suffix hrest
  obtain ⟨hliteral, hmark, hunmark⟩ := walk_succ hrest hc.trail h
  obtain ⟨hclause, hroom⟩ := reason_room hc hl hreason
  have hunmarked : ({ r with
      seen := r.seen.setIfInBounds l.atom false, pending := pending } : Resolvent).Covers t.atoms :=
    ⟨by simpa using h.marks, h.scores⟩
  obtain ⟨hresolve, hcovers⟩ := resolve_eq hunmarked hroom (some l.atom)
  refine ⟨?_, hcovers⟩
  rw [walk, hliteral, ok_bind, hmark, ok_bind, hseen, if_pos rfl, hunmark, ok_bind, ← hpending,
    predecessor, ok_bind]
  dsimp only
  rw [if_neg hpos.ne', reasonOf_eq (hc.trail.atom_lt hl), ok_bind, hreason]
  dsimp only
  rw [hclause, ok_bind, hresolve, ok_bind]

/-- The walk ends at the last pending literal. -/
theorem walk_last {l : Literal} {earlier : List Literal} (hrest : l :: earlier <:+ t.backwards)
    (hwf : t.WellFormed) (h : r.Covers t.atoms) (hseen : r.seen.getD l.atom false = true)
    (hpending : r.pending = 1) :
    walk t s (earlier.length + 1) r =
      .ok (l, { r with seen := r.seen.setIfInBounds l.atom false, pending := 0 }) := by
  obtain ⟨hliteral, hmark, hunmark⟩ := walk_succ hrest hwf h
  rw [walk, hliteral, ok_bind, hmark, ok_bind, hseen, if_pos rfl, hunmark, ok_bind, hpending]
  rfl

/-- The walk from a resolvent with pending literals comes to the last of them before it comes to the
start of the trail. -/
theorem walk_eq {rest present : List Literal} (h : Resolving t s rest [] present r)
    (hc : Coherent t s) (hrest : rest <:+ t.backwards) (hlevel : 0 < t.level) (hne : present ≠ [])
    (hcovers : r.Covers t.atoms) :
    ∃ m r', Resolvent.walk t s rest r = some (m, r') ∧ walk t s rest.length r = .ok (m, r') ∧
      r'.Covers t.atoms ∧ ∀ k ∈ r'.lower, k.atom < t.atoms := by
  -- the walk under way is the rest of the walk from the start
  obtain ⟨m, earlier, r', hwalk, hplace, -, hlast, hcovers', hsame⟩ :=
    Resolving.walk_induction
      (P := fun rest' r' => r'.Covers t.atoms ∧
        walk t s rest.length r = walk t s rest'.length r')
      (fun _ hrest' _ hseen ⟨hcovers, hsame⟩ =>
        ⟨hcovers, hsame.trans (walk_pass hrest' hc.trail hcovers hseen)⟩)
      (fun {l earlier present r' key pending} hr hrest' hmem hne' hreason hpending
          ⟨hcovers, hsame⟩ => by
        have hseen := (hr.seen_iff l.atom).2 ⟨_, List.mem_append_left _ hmem, rfl⟩
        have hlength := List.length_pos_of_ne_nil hne'
        rw [List.length_erase_of_mem hmem, ← hr.pending_eq] at hlength
        obtain ⟨hstep, hcovers'⟩ :=
          walk_resolve hrest' hc hcovers hseen hpending (by omega) hreason
        exact ⟨hcovers', hsame.trans hstep⟩)
      h hc hrest hlevel hne ⟨hcovers, rfl⟩
  have hseen := (hlast.seen_iff m.atom).2 ⟨_, List.mem_append_left _ List.mem_cons_self, rfl⟩
  refine ⟨m, _, hwalk, hsame.trans (walk_last hplace hc.trail hcovers' hseen hlast.pending_eq),
    ⟨by simpa using hcovers'.marks, hcovers'.scores⟩, ?_⟩
  intro k hk
  exact hc.trail.atom_lt_of_negate (hlast.beneath k (Array.mem_toList_iff.2 hk)).1

end Resolution

/-! ## The learnt clause -/

/-- Marks of atoms that have room can be taken back. -/
theorem unmark_eq {seen : Array Bool} {atoms : Nat} (hsize : seen.size = atoms)
    {literals : Array Literal} (hroom : ∀ m ∈ literals, m.atom < atoms) :
    unmark seen literals =
      .ok (literals.foldl (fun seen m => seen.setIfInBounds m.atom false) seen) := by
  rw [← Array.foldl_toList]
  exact (foldlM_eq
    (g := fun (seen : Array Bool) (m : Literal) => seen.setIfInBounds m.atom false)
    (P := fun seen => seen.size = atoms) hsize fun seen hsize m hm =>
      ⟨put_eq (hsize ▸ hroom m (Array.mem_toList_iff.1 hm)) false, by simpa using hsize⟩).1

/-- A function looked up in the table of its values is the function. -/
theorem lookup_map {f : Literal → Nat} {ls : List Literal} {m : Literal} (hm : m ∈ ls) :
    ((ls.map fun m => (m, f m)).lookup m).getD 0 = f m := by
  induction ls with
  | nil => simp at hm
  | cons l rest ih =>
    rw [List.map_cons, List.lookup_cons]
    by_cases he : m = l
    · simp [he]
    · rw [beq_false_of_ne he]
      exact ih ((List.mem_cons.1 hm).resolve_left he)

/-- The analysis of a clause false above level zero does not fail, and learns what the analysis
learns. -/
theorem analyze_eq {t : Trail} {s : ClauseStore} {key : Nat} {seen : Array Bool}
    {activity : Activity} (hc : Coherent t s) (hseen : Unmarked seen t.atoms)
    (hlevel : 0 < t.level) (hkey : Falsified t s key) (hscores : activity.Covers t.atoms) :
    ∃ analysis, analyze? t s seen activity key = some analysis ∧
      analyze t s seen activity key = .ok analysis ∧ analysis.activity.Covers t.atoms := by
  have hcovers : (⟨seen, activity, #[], 0⟩ : Resolvent).Covers t.atoms := ⟨hseen.size_eq, hscores⟩
  obtain ⟨hresolve, hcovers⟩ :=
    resolve_eq hcovers (hc.store.atom_lt key hkey.key_lt) none
  obtain ⟨present, hne, hstart⟩ := Resolving.start hc hseen hlevel hkey activity
  obtain ⟨m, r, hwalk, hchecked, hcovers', hlower⟩ :=
    walk_eq hstart hc (List.suffix_refl _) hlevel hne hcovers
  have hlevels := mapM_eq (f := fun m => do return (m, ← levelOf t m.atom))
    (g := fun m => (m, t.levelOf m.atom)) (l := r.lower.toList) fun k hk => by
      rw [levelOf_eq (hlower k (Array.mem_toList_iff.1 hk))]
      rfl
  have hraised := raiseGreatest_congr (g := fun m => t.levelOf m.atom)
    fun k (hk : k ∈ r.lower.toList) => lookup_map (f := fun m => t.levelOf m.atom) hk
  rw [Trail.length_backwards] at hchecked
  rw [analyze?, hwalk]
  refine ⟨_, rfl, ?_, hcovers'.scores⟩
  rw [analyze, clause_eq hkey.key_lt, ok_bind, hresolve, ok_bind, hchecked, ok_bind]
  dsimp only
  rw [unmark_eq hcovers'.marks hlower, ok_bind, hlevels, ok_bind, hraised]
  cases hothers : raiseGreatest (fun m => t.levelOf m.atom) r.lower.toList with
  | nil => rfl
  | cons first others =>
    have hmem : first ∈ r.lower.toList :=
      (perm_raiseGreatest _ _).mem_iff.1 (hothers ▸ List.mem_cons_self)
    dsimp only
    rw [levelOf_eq (hlower first (Array.mem_toList_iff.1 hmem))]
    rfl

/-! ## Failed assumptions -/

section Explanation

variable {t : Trail} {s : ClauseStore} {x : Explanation} {l : Literal}

/-- The atoms of a clause that has room can be marked. -/
theorem markReason_eq {c : Clause} {seen : Array Bool} (hsize : seen.size = t.atoms)
    (hroom : ∀ m ∈ c.literals, m.atom < t.atoms) (forced : Nat) :
    markReason t c forced seen = .ok (Explanation.markReason t c forced seen) ∧
      (Explanation.markReason t c forced seen).size = t.atoms :=
  foldlM_eq (g := fun (seen : Array Bool) (m : Literal) =>
      if m.atom ≠ forced ∧ 0 < t.levelOf m.atom then seen.setIfInBounds m.atom true else seen)
    (P := fun seen => seen.size = t.atoms) hsize fun seen hsize m hm => by
      have hm := hroom m hm
      by_cases hforced : m.atom = forced
      · rw [if_pos hforced, if_neg (by simp [hforced])]
        exact ⟨rfl, hsize⟩
      rw [if_neg hforced, levelOf_eq hm, ok_bind]
      by_cases hpos : 0 < t.levelOf m.atom
      · rw [if_pos hpos, if_pos ⟨hforced, hpos⟩]
        exact ⟨put_eq (hsize ▸ hm) true, by simpa using hsize⟩
      · rw [if_neg hpos, if_neg (by simp [hpos])]
        exact ⟨rfl, hsize⟩

/-- A literal of the trail can be explained. -/
theorem visit_eq (hc : Coherent t s) (hl : l ∈ t.literals) (hsize : x.seen.size = t.atoms) :
    visit t s x l = .ok (x.visit t s l) ∧ (x.visit t s l).seen.size = t.atoms := by
  have hroom := hc.trail.atom_lt hl
  have hmark : l.atom < x.seen.size := hsize ▸ hroom
  rw [visit, fetch_eq_getD hmark false, ok_bind, Explanation.visit]
  cases x.seen.getD l.atom false with
  | false => exact ⟨rfl, hsize⟩
  | true =>
    rw [if_pos rfl, if_pos rfl, reasonOf_eq hroom, ok_bind]
    cases hreason : t.reasonOf l.atom with
    | none =>
      dsimp only
      rw [put_eq hmark]
      exact ⟨rfl, by simpa using hsize⟩
    | some key =>
      obtain ⟨hclause, hliterals⟩ := reason_room hc hl hreason
      obtain ⟨hmarked, hsize'⟩ := markReason_eq hsize hliterals l.atom
      dsimp only
      rw [hclause, ok_bind, hmarked, ok_bind, put_eq (hsize' ▸ hroom)]
      exact ⟨rfl, by simpa using hsize'⟩

/-- The visits from an index back are those of the literals before it above the start. -/
theorem visitBack_eq (hc : Coherent t s) (start : Nat) {index : Nat}
    (hindex : index ≤ t.literals.size) (hsize : x.seen.size = t.atoms) :
    visitBack t s start index x =
      .ok (((t.before index).drop start).reverse.foldl (Explanation.visit t s) x) := by
  induction index generalizing x with
  | zero => simp [visitBack, Trail.before, pure, Except.pure]
  | succ n ih =>
    have hbefore : t.before (n + 1) = t.before n ++ [t.literals[n]] := by
      rw [Trail.before, List.take_succ_eq_append_getElem (by simpa using hindex)]
      rfl
    have hlength : (t.before n).length = n := by
      rw [Trail.before, List.length_take, Array.length_toList]
      omega
    unfold visitBack
    by_cases hstart : start ≤ n
    · obtain ⟨hvisit, hsize'⟩ := visit_eq hc (Array.getElem_mem (i := n) hindex) hsize
      rw [if_pos hstart, fetch_eq hindex, ok_bind, hvisit, ok_bind, ih (by omega) hsize', hbefore,
        List.drop_append_of_le_length (by omega), List.reverse_append]
      rfl
    · rw [if_neg hstart, List.drop_eq_nil_of_le (by simp [hbefore, hlength]; omega)]
      rfl

/-- The collection of the assumptions behind a false one does not fail. -/
theorem explain_eq {seen : Array Bool} {assumption : Literal} (hc : Coherent t s)
    (hseen : Unmarked seen t.atoms) (hfalse : assumption.negate ∈ t.literals) :
    explain t s seen assumption = .ok (Cdcl.explain t s seen assumption) := by
  have hroom := hc.trail.atom_lt_of_negate hfalse
  unfold explain Cdcl.explain Trail.backwardsAboveZero
  cases hlimit : t.limits[0]? with
  | none =>
    have hlevel : t.level = 0 := Nat.le_zero.1 (Array.getElem?_eq_none_iff.1 hlimit)
    rw [if_pos (.inl hlevel)]
    rfl
  | some start =>
    obtain ⟨hpos, -⟩ := Array.getElem?_eq_some_iff.1 hlimit
    have hlevel : t.level ≠ 0 := Nat.ne_of_gt hpos
    dsimp only
    rw [levelOf_eq hroom, ok_bind]
    by_cases hzero : t.levelOf assumption.atom = 0
    · rw [if_pos hzero, if_pos (.inr hzero)]
      rfl
    · have hmarked : (seen.setIfInBounds assumption.atom true).size = t.atoms := by
        simpa using hseen.size_eq
      rw [if_neg hzero, if_neg (by simp [hlevel, hzero]), put_eq (hseen.size_eq ▸ hroom), ok_bind,
        visitBack_eq hc start le_rfl hmarked, ok_bind, Trail.before, ← Array.length_toList,
        List.take_length]
      rfl

end Explanation

end Checked

end IncrementalSat.Cdcl
