import IncrementalSat.Proofs.Visits

/-!
# The failed assumptions are those involved

A literal of the trail draws on the negations of the other literals of its reason, those of level
zero apart, and every literal drawn on stands before it.  So when the walk back along the trail
comes to a literal, it has passed whatever draws on it, and the literal is marked exactly if it can
be reached from the negation of the false assumption.  Of the literals reached, those without a
reason have failed, and each of them is an assumption.
-/

set_option autoImplicit false

namespace IncrementalSat

namespace Cdcl

/-- A forced literal of the trail draws on the negations of the other literals of its reason that
are above level zero. -/
def DrawsOn (t : Trail) (s : ClauseStore) (l m : Literal) : Prop :=
  l ∈ t.literals ∧ ∃ key, t.reasonOf l.atom = some key ∧
    ∃ k ∈ (s.clause key).literals, k ≠ l ∧ 0 < t.levelOf k.atom ∧ m = k.negate

/-- A literal is involved in the falsity of an assumption if it is reached from the negation of the
assumption by drawing on one literal after another. -/
def Involved (t : Trail) (s : ClauseStore) (assumption l : Literal) : Prop :=
  Relation.ReflTransGen (DrawsOn t s) assumption.negate l

/-- The walk has come past some literals: of those to come, the marked ones are those on which a
passed literal that is involved draws, and the failed literals are those passed that are involved
without a reason. -/
structure Tracing (t : Trail) (s : ClauseStore) (assumption : Literal) (passed rest : List Literal)
    (x : Explanation) : Prop where
  size_eq : x.seen.size = t.atoms
  marked : ∀ m ∈ rest, x.seen.getD m.atom false = true ↔
    m = assumption.negate ∨ ∃ k ∈ passed, Involved t s assumption k ∧ DrawsOn t s k m
  failed : ∀ l, l ∈ x.failed ↔ l = assumption ∨
    l ∈ passed ∧ t.reasonOf l.atom = none ∧ Involved t s assumption l

variable {t : Trail} {s : ClauseStore} {assumption k l m : Literal}
  {passed rest zero earlier : List Literal} {x : Explanation}

/-- A literal draws only on literals before it. -/
theorem DrawsOn.mem_earlier (h : DrawsOn t s l m) (hc : Coherent t s)
    (hplace : l :: earlier <:+ t.backwards) : m ∈ earlier := by
  obtain ⟨-, key, hreason, k, hk, hne, -, rfl⟩ := h
  exact (hc.forced hplace hreason).others k hk hne

/-- Whatever draws on a literal has been passed when the walk comes to it. -/
theorem DrawsOn.mem_passed (h : DrawsOn t s k l) (hc : Coherent t s)
    (hsplit : t.backwards = passed ++ l :: rest) : k ∈ passed := by
  obtain ⟨earlier, later, hplace⟩ := Trail.exists_suffix_of_mem h.1
  obtain ⟨between, before, hearlier⟩ :=
    List.append_of_mem (h.mem_earlier hc ⟨later, hplace⟩)
  have hsame : passed ++ l :: rest = (later ++ k :: between) ++ l :: before := by
    rw [← hsplit, ← hplace, hearlier, List.append_assoc, List.cons_append]
  have hnodup : (passed ++ l :: rest).Nodup := hsplit ▸ hc.trail.distinct.of_map
  have hnot : l ∉ passed ++ rest := (List.nodup_cons.1 (List.nodup_middle.1 hnodup)).1
  -- the literal has one place only, so what stands after it is the same in both divisions
  obtain ⟨rfl, -⟩ := (List.append_cons_inj_of_notMem
    (fun hl => hnot (List.mem_append_left _ hl)) fun hl => hnot (List.mem_append_right _ hl)).1
    hsame
  exact List.mem_append_right _ List.mem_cons_self

/-- At the next literal of the walk, being marked and being involved are the same. -/
theorem Tracing.marked_iff_involved (h : Tracing t s assumption passed (l :: rest) x)
    (hc : Coherent t s) (hsplit : t.backwards = passed ++ l :: (rest ++ zero)) :
    x.seen.getD l.atom false = true ↔ Involved t s assumption l := by
  rw [h.marked l List.mem_cons_self, Involved, Relation.ReflTransGen.cases_tail_iff]
  refine or_congr Iff.rfl ⟨?_, ?_⟩
  · rintro ⟨k, -, hk⟩
    exact ⟨k, hk⟩
  · rintro ⟨k, hk⟩
    exact ⟨k, hk.2.mem_passed hc hsplit, hk⟩

/-- The marks after the reason of a literal has been marked: the literals to come on which it draws
are marked as well. -/
theorem getD_markReason_iff (hc : Coherent t s) (hplace : l :: earlier <:+ t.backwards) {key : Nat}
    (hreason : t.reasonOf l.atom = some key) {seen : Array Bool} (hsize : seen.size = t.atoms)
    (hm : m ∈ earlier) :
    (Explanation.markReason t (s.clause key) l.atom seen).getD m.atom false = true ↔
      seen.getD m.atom false = true ∨ DrawsOn t s l m := by
  have hforces := hc.forced hplace hreason
  obtain ⟨-, hiff⟩ := markReason_spec t (s.clause key) l.atom
    fun m hm => hsize ▸ hc.store.atom_lt key hforces.key_lt m hm
  rw [hiff]
  refine or_congr Iff.rfl ⟨?_, ?_⟩
  · rintro ⟨k, hk, hatom, hne, hpos⟩
    have hkl : k ≠ l := fun he => hne (he ▸ rfl)
    have hneg := Trail.mem_of_mem_earlier hplace (hforces.others k hk hkl)
    have hsame : m = k.negate :=
      hc.trail.eq_of_atom_eq (Trail.mem_of_mem_earlier hplace hm) hneg hatom.symm
    exact ⟨Trail.mem_of_suffix hplace, key, hreason, k, hk, hkl, hpos, hsame⟩
  · rintro ⟨-, key', hreason', k, hk, hkl, hpos, rfl⟩
    obtain rfl := Option.some.inj (hreason.symm.trans hreason')
    exact ⟨k, hk, rfl, fun he => hkl
      ((hc.store.apart key hforces.key_lt).eq_of_atom_eq hk hforces.mem he), hpos⟩

namespace Tracing

/-- A literal that is not involved is passed by. -/
theorem pass (h : Tracing t s assumption passed (l :: rest) x)
    (hnot : ¬ Involved t s assumption l) : Tracing t s assumption (passed ++ [l]) rest x where
  size_eq := h.size_eq
  marked m hm := by
    rw [h.marked m (List.mem_cons_of_mem _ hm)]
    simp [hnot]
  failed m := by
    have hm : m = l → ¬ Involved t s assumption m := fun he => he ▸ hnot
    rw [h.failed, List.mem_append, List.mem_singleton]
    tauto

/-- A literal without a reason draws on nothing, and has failed if it is involved. -/
theorem blame (h : Tracing t s assumption passed (l :: rest) x)
    (hinvolved : Involved t s assumption l) (hreason : t.reasonOf l.atom = none)
    (hroom : l.atom < t.atoms) (hdistinct : ∀ m ∈ rest, l.atom ≠ m.atom) :
    Tracing t s assumption (passed ++ [l]) rest
      { seen := x.seen.setIfInBounds l.atom false, failed := l :: x.failed } where
  size_eq := by simpa using h.size_eq
  marked m hm := by
    have hnone : ¬ DrawsOn t s l m := by
      rintro ⟨-, key, hkey, -⟩
      rw [hreason] at hkey
      cases hkey
    rw [getD_setMark (h.size_eq ▸ hroom), if_neg (hdistinct m hm),
      h.marked m (List.mem_cons_of_mem _ hm)]
    simp [hnone]
  failed m := by
    rw [List.mem_cons, h.failed, List.mem_append, List.mem_singleton]
    constructor
    · rintro (rfl | rfl | ⟨hm, hrest⟩)
      · exact .inr ⟨.inr rfl, hreason, hinvolved⟩
      · exact .inl rfl
      · exact .inr ⟨.inl hm, hrest⟩
    · rintro (rfl | ⟨hm | rfl, hrest⟩)
      · exact .inr (.inl rfl)
      · exact .inr (.inr ⟨hm, hrest⟩)
      · exact .inl rfl

/-- A forced literal that is involved has the literals marked on which it draws. -/
theorem passOn (h : Tracing t s assumption passed (l :: rest) x) (hc : Coherent t s)
    (hplace : l :: (rest ++ zero) <:+ t.backwards) (hinvolved : Involved t s assumption l)
    {key : Nat} (hreason : t.reasonOf l.atom = some key)
    (hdistinct : ∀ m ∈ rest, l.atom ≠ m.atom) :
    Tracing t s assumption (passed ++ [l]) rest
      { x with
        seen := (Explanation.markReason t (s.clause key) l.atom x.seen).setIfInBounds
          l.atom false } := by
  have hforces := hc.forced hplace hreason
  obtain ⟨hsize, -⟩ := markReason_spec t (s.clause key) l.atom
    fun m hm => h.size_eq ▸ hc.store.atom_lt key hforces.key_lt m hm
  have hroom : l.atom < (Explanation.markReason t (s.clause key) l.atom x.seen).size := by
    rw [hsize, h.size_eq]
    exact hc.trail.atom_lt (Trail.mem_of_suffix hplace)
  refine ⟨by simpa [hsize] using h.size_eq, fun m hm => ?_, fun m => ?_⟩
  · rw [getD_setMark hroom, if_neg (hdistinct m hm),
      getD_markReason_iff hc hplace hreason h.size_eq (List.mem_append_left zero hm),
      h.marked m (List.mem_cons_of_mem _ hm), or_assoc]
    refine or_congr Iff.rfl ?_
    simp [or_and_right, exists_or, hinvolved]
  · have hm : m = l → t.reasonOf m.atom ≠ none := by
      rintro rfl
      simp [hreason]
    rw [h.failed, List.mem_append, List.mem_singleton]
    tauto

/-- A visit takes the walk past one more literal. -/
theorem visit (h : Tracing t s assumption passed (l :: rest) x) (hc : Coherent t s)
    (hsplit : t.backwards = passed ++ l :: (rest ++ zero)) :
    Tracing t s assumption (passed ++ [l]) rest (x.visit t s l) := by
  have hplace : l :: (rest ++ zero) <:+ t.backwards := ⟨passed, hsplit.symm⟩
  have hl : l ∈ t.literals := Trail.mem_of_suffix hplace
  have hdistinct : ∀ m ∈ rest, l.atom ≠ m.atom := by
    intro m hm ha
    have hnodup : (l :: (rest ++ zero)).Nodup := hc.trail.distinct.of_map.sublist hplace.sublist
    have hmem := Trail.mem_of_mem_earlier hplace (List.mem_append_left zero hm)
    obtain rfl := hc.trail.eq_of_atom_eq hl hmem ha
    exact (List.nodup_cons.1 hnodup).1 (List.mem_append_left _ hm)
  unfold Explanation.visit
  split
  · rename_i hseen
    have hinvolved := (h.marked_iff_involved hc hsplit).1 hseen
    cases hreason : t.reasonOf l.atom with
    | none => exact h.blame hinvolved hreason (hc.trail.atom_lt hl) hdistinct
    | some key => exact h.passOn hc hplace hinvolved hreason hdistinct
  · rename_i hseen
    exact h.pass fun hinvolved => hseen ((h.marked_iff_involved hc hsplit).2 hinvolved)

/-- The walk comes past all literals above level zero. -/
theorem walk (h : Tracing t s assumption passed rest x) (hc : Coherent t s)
    (hsplit : t.backwards = passed ++ (rest ++ zero)) :
    Tracing t s assumption (passed ++ rest) [] (rest.foldl (Explanation.visit t s) x) := by
  induction rest generalizing passed x with
  | nil => simpa using h
  | cons l rest ih =>
    have hrest := ih (h.visit hc hsplit) (by simpa using hsplit)
    simpa using hrest

end Tracing

/-- The literals collected for an assumption that is false above level zero are the assumption and
the involved literals without a reason. -/
theorem mem_failed_explain_iff {seen : Array Bool} (hc : Coherent t s)
    (hseen : Unmarked seen t.atoms) (hfalse : assumption.negate ∈ t.literals)
    (hpos : 0 < t.levelOf assumption.atom) :
    l ∈ (explain t s seen assumption).1.failed ↔ l = assumption ∨
      (l ∈ t.literals ∧ t.reasonOf l.atom = none ∧ 0 < t.levelOf l.atom ∧
        Involved t s assumption l) := by
  have hroom : assumption.atom < seen.size := hseen.size_eq ▸ hc.trail.atom_lt_of_negate hfalse
  have hle := hc.trail.levelOf_le_level_of_negate hfalse
  obtain ⟨hsplit, habove, hzero⟩ := hc.trail.backwards_eq (by omega)
  have hstart : Tracing t s assumption [] t.backwardsAboveZero
      ⟨seen.setIfInBounds assumption.atom true, [assumption]⟩ := by
    refine ⟨by simpa using hseen.size_eq, fun m hm => ?_, fun m => by simp⟩
    have hmem := Trail.mem_backwards.1 (hsplit ▸ List.mem_append_left _ hm)
    rw [getD_setMark hroom, hseen.getD_eq]
    simp only [List.not_mem_nil, false_and, exists_false, or_false]
    constructor
    · intro hm
      split at hm
      · rename_i ha
        exact hc.trail.eq_of_atom_eq hmem hfalse ha.symm
      · cases hm
    · rintro rfl
      simp
  have hsplit' : t.backwards = [] ++ (t.backwardsAboveZero ++ (t.before (t.keep 0)).reverse) :=
    hsplit
  have hend := (hstart.walk hc hsplit').failed l
  unfold explain
  rw [if_neg (by omega), hend, List.nil_append]
  refine or_congr Iff.rfl ⟨?_, ?_⟩
  · rintro ⟨hl, hreason, hinvolved⟩
    exact ⟨Trail.mem_backwards.1 (hsplit ▸ List.mem_append_left _ hl), hreason, habove l hl,
      hinvolved⟩
  · rintro ⟨hl, hreason, hlevel, hinvolved⟩
    refine ⟨?_, hreason, hinvolved⟩
    refine (List.mem_append.1 (hsplit ▸ Trail.mem_backwards.2 hl)).resolve_right fun hmem => ?_
    have hnone := hzero l hmem
    omega

/-- There is nothing to collect for an assumption that is false at level zero. -/
theorem failed_explain_of_level_zero {seen : Array Bool} (h : t.levelOf assumption.atom = 0) :
    (explain t s seen assumption).1.failed = [assumption] := by
  unfold explain
  rw [if_pos (.inr h)]

namespace Solver

variable {R : Type} [Random.Source R] {assumptions : List Literal} {s s' : Solver R}

omit [Random.Source R] in
/-- A turn comes to a solver where an assumption is false: nothing stops it, propagation ends
without a conflict, and the assumptions before have their levels. -/
def ComesToFalse (assumptions : List Literal) (s s' : Solver R) (a : Literal) : Prop :=
  s.poll.2 ≠ some true ∧ ∃ u store t, propagate s.trail s.store = (u, store, none) ∧
    skipHolding u (assumptions.drop u.level) = (t, .refuted a) ∧
    s' = { s.poll.1 with trail := t, store := store }

/-- Such a turn ends the search with the assumptions behind the false one. -/
theorem ComesToFalse.turn {a : Literal} (h : ComesToFalse assumptions s s' a) :
    ∃ turn, s.turn assumptions = some turn ∧ turn.solver = (s'.refute a).solver ∧
      turn.verdict = some .unsatisfiable := by
  obtain ⟨hgo, u, store, t, hpropagate, hskip, rfl⟩ := h
  obtain ⟨callback, hpolled, -, -⟩ := s.poll_spec
  have hadvance : s.poll.1.advance assumptions =
      some (refute { s.poll.1 with trail := t, store := store } a) := by
    rw [hpolled]
    unfold advance onFixpoint
    dsimp only
    rw [hpropagate]
    dsimp only
    rw [hskip]
  unfold Solver.turn
  cases hpoll : s.poll with
  | mk polled stop =>
    rw [hpoll] at hadvance hgo
    match stop, hgo with
    | none, _ => exact ⟨_, hadvance, rfl, rfl⟩
    | some false, _ =>
      refine ⟨_, congrArg (Option.map _) hadvance, rfl, rfl⟩
    | some true, hgo => exact absurd rfl hgo

omit [Random.Source R] in
/-- The search is still between two turns there, and the assumption is the next one. -/
theorem Searching.comesToFalse (h : Searching assumptions s) {a : Literal}
    (hfalse : ComesToFalse assumptions s s' a) :
    Running assumptions s' ∧ assumptions[s'.trail.level]? = some a ∧
      a.negate ∈ s'.trail.literals := by
  obtain ⟨-, u, store, t, hpropagate, hskip, rfl⟩ := hfalse
  obtain ⟨callback, hpolled, -, -⟩ := s.poll_spec
  obtain ⟨-, -, hhead, hrunning, hsettled, -⟩ := h.propagated hpropagate
  have hpassed := passed_skipHolding rfl hrunning.coherent (hsettled rfl) hhead hrunning.upholds
  dsimp only at hpassed
  rw [hskip] at hpassed
  obtain ⟨⟨limits, hsame⟩, hcoherent, -, hupholds, hnext, hmem⟩ := hpassed
  have hatoms : t.atoms = u.atoms := by
    rw [show t = _ from hsame]
    rfl
  rw [hpolled]
  exact ⟨⟨hcoherent, hatoms ▸ hrunning.unmarked, hupholds, hrunning.consistent, hrunning.failed_eq⟩,
    hnext, hmem⟩

end Solver

end Cdcl

namespace Session

open Cdcl

variable {R : Type} [Random.Source R]

/-- Where a solve collects failed assumptions, which ends it, the literals above level zero without
a reason are assumptions of this solve.  An assumption that is false at level zero has failed alone;
with one that is false above, exactly those of them have failed that are involved.  No atom is
marked before or after. -/
theorem failed_assumptions_are_involved {calls : List Call} {s s' : Solver R} {a : Literal}
    (hvisits : (after R calls).engine.Visits s)
    (hfalse : s.ComesToFalse (after R calls).engine.assumptions.toList s' a) :
    let assumptions := (after R calls).engine.assumptions.toList
    let solved := (after R calls).engine.solve
    let t := s'.trail
    let refuted := (s'.refute a).solver
    (solved.verdict = .unsatisfiable ∧ solved.engine.failed = refuted.failed) ∧
    (a ∈ assumptions ∧ a.negate ∈ t.literals) ∧
    (∀ l ∈ t.literals, t.reasonOf l.atom = none → 0 < t.levelOf l.atom → l ∈ assumptions) ∧
    (t.levelOf a.atom = 0 → refuted.failed = [a]) ∧
    (0 < t.levelOf a.atom → ∀ l, l ∈ refuted.failed ↔ l = a ∨
      (l ∈ t.literals ∧ t.reasonOf l.atom = none ∧ 0 < t.levelOf l.atom ∧
        Involved t s'.store a l)) ∧
    (∀ atom, s'.seen.getD atom false = false) ∧
    ∀ atom, refuted.seen.getD atom false = false := by
  intro assumptions solved t refuted
  obtain ⟨turn, hturn, hsolver, hverdict⟩ := hfalse.turn
  obtain ⟨hunsat, hengine⟩ := solve_of_visits hvisits hturn hverdict
  obtain ⟨hrunning, hnext, hmem⟩ := (searching_of_visits hvisits).comesToFalse hfalse
  obtain ⟨hlevel, -⟩ := List.getElem?_eq_some_iff.1 hnext
  obtain ⟨hunmarked, -⟩ := explain_spec hrunning.coherent hrunning.unmarked hmem
  refine ⟨⟨hunsat, ?_⟩, ⟨List.mem_of_getElem? hnext, hmem⟩, ?_, failed_explain_of_level_zero,
    fun hpos l => mem_failed_explain_iff hrunning.coherent hrunning.unmarked hmem hpos,
    hrunning.unmarked.getD_eq, hunmarked.getD_eq⟩
  · show (after R calls).engine.solve.engine.failed = _
    rw [hengine, hsolver]
  · intro l hl hreason hpos
    have hle := hrunning.coherent.trail.levelOf_le_level hl
    exact List.mem_of_getElem? (hrunning.upholds.opened l hl hreason hpos (by omega))

/-- Such a place: the first assumption has its level, but the second alone makes the third false,
and so the first is not involved. -/
theorem failed_assumptions_are_involved_of_clause :
    let engine := (after Random.Pcg [.addClause [-1, -2], .assume 3, .assume 1, .assume 2]).engine
    ∃ s s' : Solver Random.Pcg, engine.Visits s ∧
      s.ComesToFalse engine.assumptions.toList s' ⟨1, true⟩ ∧
      (⟨2, true⟩ ∈ engine.assumptions.toList ∧ ⟨2, true⟩ ∈ s'.trail.literals) ∧
      ¬ Involved s'.trail s'.store ⟨1, true⟩ ⟨2, true⟩ ∧
      engine.solve.engine.failed = [⟨0, true⟩, ⟨1, true⟩] := by
  intro engine
  have hvisits : engine.Visits engine.beginSolve := Solver.visits_beginSolve (by decide +kernel)
  obtain ⟨turn, hturn, hnext⟩ := exists_turn_of_visits hvisits
  let places (s : Solver Random.Pcg) : Trail × Standing :=
    let u := (propagate s.trail s.store).1
    skipHolding u (engine.assumptions.toList.drop u.level)
  have hfacts : ((engine.beginSolve.turn engine.assumptions.toList).bind fun turn =>
      (turn.solver.turn engine.assumptions.toList).map fun turn' =>
        (turn.verdict, turn'.verdict, turn'.solver.poll.2,
          (propagate turn'.solver.trail turn'.solver.store).2.2, (places turn'.solver).2)) =
      some (none, none, none, none, .refuted ⟨1, true⟩) := by decide +kernel
  have hplace : ((engine.beginSolve.turn engine.assumptions.toList).bind fun turn =>
      (turn.solver.turn engine.assumptions.toList).map fun turn' =>
        let t := (places turn'.solver).1
        (t.reasonOf 2, t.levelOf 2, t.levelOf 1, decide (⟨2, true⟩ ∈ t.literals))) =
      some (none, 1, 2, true) := by decide +kernel
  rw [hturn, Option.bind_some] at hfacts hplace
  obtain ⟨turn', hturn', hfacts⟩ := Option.map_eq_some_iff.1 hfacts
  rw [hturn', Option.map_some] at hplace
  simp only [Prod.mk.injEq, Option.some.injEq, decide_eq_true_eq] at hfacts hplace
  obtain ⟨hverdict, hverdict', hpoll, hconflict, hrefuted⟩ := hfacts
  obtain ⟨hreason, hlevel, hfalse, hmem⟩ := hplace
  have hvisits' := (hnext hverdict).turn hturn' hverdict'
  let s' : Solver Random.Pcg :=
    { turn'.solver.poll.1 with
      trail := (places turn'.solver).1
      store := (propagate turn'.solver.trail turn'.solver.store).2.1 }
  have hcomes : turn'.solver.ComesToFalse engine.assumptions.toList s' ⟨1, true⟩ := by
    refine ⟨by simp [hpoll], _, _, _, Prod.ext rfl (Prod.ext rfl hconflict), ?_, rfl⟩
    exact Prod.ext rfl hrefuted
  obtain ⟨⟨-, hfailed⟩, -, -, -, hiff, -⟩ := failed_assumptions_are_involved hvisits' hcomes
  have hfailures : engine.solve.engine.failed = [⟨0, true⟩, ⟨1, true⟩] := by decide +kernel
  have hassumed : (⟨2, true⟩ : Literal) ∈ engine.assumptions.toList := by decide +kernel
  refine ⟨_, s', hvisits', hcomes, ⟨hassumed, hmem⟩, fun hinvolved => ?_, hfailures⟩
  have hin := (hiff (by rw [hfalse]; decide) ⟨2, true⟩).2
    (.inr ⟨hmem, hreason, by rw [hlevel]; decide, hinvolved⟩)
  rw [← hfailed, hfailures] at hin
  simp at hin

end Session

end IncrementalSat
