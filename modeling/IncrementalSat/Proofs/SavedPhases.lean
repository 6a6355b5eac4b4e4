import IncrementalSat.Proofs.Lockstep

/-!
# Searches that keep to a valuation

A trail and a store keep to a partial valuation if every stored clause has a literal that is true in
it, no literal of the trail is false in it, and each atom to which it gives a value has that value
saved as long as it is open.  Propagation does not leave such a valuation and finds no clause false,
and while phases are saved no decision leaves it.  So a search that keeps to the valuation meets no
conflict, and once every atom has a value it has found the valuation again.
-/

set_option autoImplicit false

namespace IncrementalSat

/-- A value for some atoms. -/
abbrev PartialValuation : Type :=
  Nat → Option Bool

/-- A literal is true in a partial valuation if its atom is given the value it asserts. -/
def Literal.TrueIn (m : PartialValuation) (l : Literal) : Prop :=
  m l.atom = some l.positive

instance (m : PartialValuation) (l : Literal) : Decidable (l.TrueIn m) :=
  inferInstanceAs (Decidable (m l.atom = some l.positive))

/-- A literal and its negation are not both true. -/
theorem Literal.TrueIn.not_negate {m : PartialValuation} {l : Literal} (h : l.TrueIn m) :
    ¬ l.negate.TrueIn m := by
  intro hn
  have hsame : l.positive = !l.positive := Option.some.inj (h.symm.trans hn)
  simp at hsame

/-- A clause is backed by a partial valuation in which one of its literals is true. -/
def Backed (m : PartialValuation) (clause : List Literal) : Prop :=
  ∃ l ∈ clause, l.TrueIn m

instance (m : PartialValuation) (clause : List Literal) : Decidable (Backed m clause) :=
  inferInstanceAs (Decidable (∃ l ∈ clause, l.TrueIn m))

namespace Cdcl

/-! ## Saved polarities -/

namespace Trail

variable {t : Trail} {a : Nat} {b : Bool}

/-- Room for another atom saves no polarity. -/
@[simp] theorem saved_ensure (t : Trail) (atom a : Nat) : (t.ensure atom).saved a = t.saved a := by
  simp only [saved, slot_ensure]

/-- Room for another atom gives no atom a value. -/
@[simp] theorem value_ensure (t : Trail) (atom a : Nat) : (t.ensure atom).value a = t.value a := by
  simp only [value, slot_ensure]

/-- An assignment saves no polarity. -/
@[simp] theorem saved_assign (t : Trail) (l : Literal) (reason : Option Nat) (a : Nat) :
    (t.assign l reason).saved a = t.saved a := by
  by_cases ha : a = l.atom
  · subst ha
    unfold assign
    split
    · rename_i hroom
      simp [saved, slot, hroom, Array.getElem_modify_self]
    · rfl
  · rw [saved, slot_assign_ne reason ha, saved]

/-- Taking the value of an atom back saves it. -/
theorem saved_foldl_release {ls : List Literal} {slots : Array Slot} (hroom : a < slots.size)
    (hmem : ∃ l ∈ ls, l.atom = a) (hall : ∀ l ∈ ls, l.atom = a → l.positive = b) :
    ((ls.foldl release slots).getD a {}).saved = some b := by
  induction ls generalizing slots with
  | nil => simp at hmem
  | cons l rest ih =>
    rw [List.foldl_cons]
    by_cases hrest : ∃ m ∈ rest, m.atom = a
    · refine ih ?_ hrest fun m hm => hall m (List.mem_cons_of_mem _ hm)
      rwa [release, Array.size_modify]
    · have hne : ∀ m ∈ rest, m.atom ≠ a := fun m hm he => hrest ⟨m, hm, he⟩
      obtain ⟨m, hm, rfl⟩ := hmem
      obtain rfl : m = l := (List.mem_cons.1 hm).resolve_right fun hm => hne m hm rfl
      rw [getD_foldl_release_of_ne hne, ← hall m List.mem_cons_self rfl]
      simp [release, hroom, Array.getElem_modify_self]

/-- An atom that loses its value in a backjump has it saved. -/
theorem WellFormed.saved_backjump (h : t.WellFormed) {target : Nat} (hvalue : t.value a = some b)
    (hlost : (t.backjump target).value a = none) : (t.backjump target).saved a = some b := by
  by_cases hlt : target < t.level
  swap
  · rw [backjump_of_le (by omega), hvalue] at hlost
    exact absurd hlost (Option.some_ne_none b)
  have hmem : (⟨a, b⟩ : Literal) ∈ t.literals := (h.value_iff a b).1 hvalue
  -- the literal of the atom is among those that are taken back
  have hdropped : (⟨a, b⟩ : Literal) ∈ t.literals.toList.drop (t.keep target) := by
    have hsplit := Array.mem_toList_iff.2 hmem
    rw [← List.take_append_drop (t.keep target) t.literals.toList, List.mem_append] at hsplit
    refine hsplit.resolve_left fun hkept => ?_
    have hbefore : (⟨a, b⟩ : Literal) ∈ (t.backjump target).literals := by
      rwa [← Array.mem_toList_iff, literals_backjump hlt]
    rw [(h.value_backjump_iff hlt a b).2 hbefore] at hlost
    exact absurd hlost (Option.some_ne_none b)
  have hsaved := saved_foldl_release (b := b) (h.atom_lt hmem) ⟨_, hdropped, rfl⟩ fun m hm ha =>
    congrArg Literal.positive
      (h.eq_of_atom_eq (Array.mem_toList_iff.1 (List.mem_of_mem_drop hm)) hmem ha)
  rw [Trail.backjump, if_neg (by omega)]
  exact hsaved

/-- A backjump adds no literal. -/
theorem WellFormed.mem_of_mem_backjump (h : t.WellFormed) {target : Nat} {l : Literal}
    (hl : l ∈ (t.backjump target).literals) : l ∈ t.literals := by
  by_cases hlt : target < t.level
  · exact ((h.mem_backjump_iff hlt).1 hl).1
  · rwa [backjump_of_le (by omega)] at hl

end Trail

/-- The inspection of a watch list saves no polarity. -/
theorem saved_inspect (falsified : Literal) (t : Trail) (s : ClauseStore) (watchers : Array Nat)
    (index a : Nat) :
    (inspect falsified t s watchers index).trail.saved a = t.saved a := by
  fun_induction inspect falsified t s watchers index with
  | case1 _ _ _ _ _ _ _ _ ih => exact ih
  | case2 _ _ _ _ _ _ _ _ _ _ ih => exact ih
  | case3 _ _ _ _ _ _ _ _ ih => exact ih.trans (Trail.saved_assign ..)
  | case4 => rfl
  | case5 => rfl

/-- Propagation saves nothing. -/
theorem saved_propagate (t : Trail) (s : ClauseStore) (a : Nat) :
    (propagate t s).1.saved a = t.saved a := by
  fun_induction propagate t s with
  | case1 => exact saved_inspect ..
  | case2 _ _ _ _ _ _ _ ih => exact ih.trans (saved_inspect ..)
  | case3 => rfl

/-! ## Keeping to a valuation -/

/-- Trail and store keep to a partial valuation of their atoms: no literal of the trail is false in
it, every stored clause is backed by it, and what it gives to an open atom is what is saved. -/
structure Keeps (m : PartialValuation) (t : Trail) (r : ClauseStore) : Prop where
  room : ∀ a, m a ≠ none → a < t.atoms
  backed : ∀ key < r.clauses.size, Backed m (r.clause key).literals
  agrees : ∀ l ∈ t.literals, ¬ l.negate.TrueIn m
  saved : ∀ a b, m a = some b → t.value a = none → t.saved a = some b

namespace Keeps

variable {m : PartialValuation} {t u : Trail} {r q : ClauseStore} {l : Literal}

/-- A literal that is true in the valuation is not falsified. -/
theorem negate_not_mem (h : Keeps m t r) (hl : l.TrueIn m) : l.negate ∉ t.literals := by
  intro hmem
  have hnot := h.agrees l.negate hmem
  rw [Literal.negate_negate] at hnot
  exact hnot hl

/-- Only the literals and the atoms of a trail matter. -/
theorem congr (h : Keeps m t r) (hslots : u.slots = t.slots) (hliterals : u.literals = t.literals) :
    Keeps m u r where
  room a ha := (h.room a ha).trans_eq (congrArg Array.size hslots.symm)
  backed := h.backed
  agrees l hl := h.agrees l (hliterals ▸ hl)
  saved a b hab hopen := by
    simp only [Trail.value, Trail.saved, Trail.slot, hslots] at hopen ⊢
    exact h.saved a b hab hopen

/-- An assignment that is not false in the valuation keeps to it. -/
theorem assign (h : Keeps m t r) {reason : Option Nat} (hroom : l.atom < t.atoms)
    (hl : ¬ l.negate.TrueIn m) : Keeps m (t.assign l reason) r where
  room a ha := (h.room a ha).trans_eq (Trail.atoms_assign ..).symm
  backed := h.backed
  agrees k hk := by
    rcases (Trail.mem_assign_iff reason hroom).1 hk with hk | rfl
    · exact h.agrees k hk
    · exact hl
  saved a b hab hopen := by
    have hne : a ≠ l.atom := by
      rintro rfl
      rw [Trail.value, Trail.current_assign_self reason hroom] at hopen
      simp at hopen
    rw [Trail.value, Trail.slot_assign_ne reason hne] at hopen
    rw [Trail.saved_assign]
    exact h.saved a b hab hopen

/-- A level may be opened by a literal that is not false in the valuation. -/
theorem openLevel (h : Keeps m t r) (hroom : l.atom < t.atoms) (hl : ¬ l.negate.TrueIn m) :
    Keeps m (t.pushLevel.assign l none) r :=
  (h.congr (u := t.pushLevel) rfl rfl).assign hroom hl

/-- Room for another atom does not matter to a valuation that is kept. -/
theorem ensure (h : Keeps m t r) (atom : Nat) : Keeps m (t.ensure atom) (r.ensure atom) where
  room a ha := by
    rw [Trail.atoms_ensure]
    exact lt_max_of_lt_left (h.room a ha)
  backed := h.backed
  agrees := h.agrees
  saved a b hab hopen := by
    rw [Trail.value_ensure] at hopen
    rw [Trail.saved_ensure]
    exact h.saved a b hab hopen

/-- A clause with a true literal may be stored. -/
theorem attach (h : Keeps m t r) {first second : Literal} {others : List Literal} {learnt : Bool}
    (hclause : Backed m (first :: second :: others)) :
    Keeps m t (r.attach first second others learnt) where
  room := h.room
  backed := (ClauseStore.forall_attach_iff fun c => Backed m c.literals).2 ⟨h.backed, hclause⟩
  agrees := h.agrees
  saved := h.saved

/-- What propagation derives is not false in the valuation, as the clause that forces a literal has
a true one, and its other literals are false by then. -/
theorem agrees_of_derives (h : Keeps m t r) (hderives : Derives t r u q) (hc : Coherent u q) :
    ∀ l ∈ u.literals, ¬ l.negate.TrueIn m := by
  refine hderives.forall_mem hc h.agrees fun key hkey l _ hothers => ?_
  obtain ⟨k, hk, htrue⟩ := h.backed key hkey
  have hkl : k = l := by
    by_contra hne
    have hnot := hothers k hk hne
    rw [Literal.negate_negate] at hnot
    exact hnot htrue
  exact hkl ▸ htrue.not_negate

/-- Propagation keeps to the valuation and finds no clause false. -/
theorem propagate (h : Keeps m t r) (hc : Coherent t r) (hs : Settled t r t.head) :
    Keeps m (propagate t r).1 (propagate t r).2.1 ∧ (Cdcl.propagate t r).2.2 = none := by
  have hp := propagated_propagate hc hs
  have hsaved := saved_propagate t r
  generalize Cdcl.propagate t r = result at hp hsaved ⊢
  have hext := hp.derives.trail
  have hkept : Keeps m result.1 result.2.1 :=
    { room := fun a ha => (h.room a ha).trans_eq hext.atoms.symm
      backed := by
        intro key hkey
        rw [hp.derives.size_eq] at hkey
        obtain ⟨l, hl, htrue⟩ := h.backed key hkey
        exact ⟨l, (hp.derives.store.mem_iff hkey).2 hl, htrue⟩
      agrees := h.agrees_of_derives hp.derives hp.coherent
      saved := by
        intro a b hab hopen
        rw [hsaved]
        refine h.saved a b hab (Option.eq_none_iff_forall_ne_some.2 fun c hvalue => ?_)
        have hmem := hext.mem ((hc.trail.value_iff a c).1 hvalue)
        rw [(hp.coherent.trail.value_iff a c).2 hmem] at hopen
        exact absurd hopen (Option.some_ne_none c) }
  refine ⟨hkept, Option.eq_none_iff_forall_ne_some.2 fun key hkey => ?_⟩
  obtain ⟨hfalse, -⟩ := hp.conflict key hkey
  obtain ⟨l, hl, htrue⟩ := hkept.backed key hfalse.key_lt
  exact hkept.negate_not_mem htrue (hfalse.negate_mem l hl)

/-- Once every atom has a value, the trail gives the valuation back. -/
theorem value_eq (h : Keeps m t r) (hwf : t.WellFormed) (hall : ∀ a < t.atoms, t.value a ≠ none)
    {a : Nat} {b : Bool} (hab : m a = some b) : t.value a = some b := by
  obtain ⟨c, hc⟩ := Option.ne_none_iff_exists'.1
    (hall a (h.room a (hab ▸ Option.some_ne_none b)))
  have hnot := h.agrees ⟨a, c⟩ ((hwf.value_iff a c).1 hc)
  rw [hc]
  by_contra hne
  apply hnot
  show m a = some !c
  rw [hab]
  cases b <;> cases c <;> simp at hne ⊢

/-- A trail that has gone back keeps to the values that it had. -/
theorem backjump (hwf : t.WellFormed)
    (hbacked : ∀ key < r.clauses.size, Backed t.value (r.clause key).literals) (target : Nat) :
    Keeps t.value (t.backjump target) r where
  room a ha := by
    obtain ⟨b, hb⟩ := Option.ne_none_iff_exists'.1 ha
    exact (hwf.atom_lt ((hwf.value_iff a b).1 hb)).trans_eq (Trail.atoms_backjump ..).symm
  backed := hbacked
  agrees l hl := by
    have htrue : l.TrueIn t.value := (hwf.value_iff _ _).2 (hwf.mem_of_mem_backjump hl)
    exact htrue.not_negate
  saved _ _ hab hopen := hwf.saved_backjump hab hopen

end Keeps

namespace Solver

variable {R : Type} {m : PartialValuation} {assumptions : List Literal} {s : Solver R}

/-! ## Valuations found -/

/-- The valuation found by the last solve. -/
def found (s : Solver R) : PartialValuation :=
  fun a => s.model.getD a none

/-- A turn that finds the clauses satisfiable records the values on its trail. -/
def Records (turn : Turn R) : Prop :=
  turn.verdict = some .satisfiable → turn.solver.found = turn.solver.trail.value

/-- What a turn records does not depend on its events. -/
theorem Records.withEvents {turn : Turn R} (h : Records turn) (events : Array Event) :
    Records { turn with events := events } :=
  h

/-- The turn that ends with a valuation records it. -/
theorem records_foundModel (s : Solver R) : Records s.foundModel :=
  fun _ => funext fun a => Trail.getD_model s.trail a

/-- What is done about a conflict finds no valuation. -/
theorem records_onConflict {key : Nat} {turn : Turn R} (h : s.onConflict key = some turn) :
    Records turn := by
  unfold onConflict at h
  intro hverdict
  split at h
  · obtain rfl := Option.some.inj h
    simp at hverdict
  split at h
  · obtain rfl := Option.some.inj h
    simp at hverdict
  · obtain ⟨learnt, -, rfl⟩ := Option.map_eq_some_iff.1 h
    simp at hverdict

/-- A valuation that a solver finds, false where there is none, is allowed. -/
theorem Right.allows_found {allowed : Valuation → Prop}
    (h : Right assumptions allowed s .satisfiable) :
    allowed fun a => (s.found a).getD false := by
  refine (h.2 _ fun a b hab => ?_).1
  have hfound : s.found a = some b := hab
  rw [hfound, Option.getD_some]

/-- After a solve that finds a valuation, every stored clause is backed by it. -/
theorem Solves.backed {result : Solved (Solver R)} (h : Solves s result)
    (hverdict : result.verdict = .satisfiable) {key : Nat}
    (hkey : key < result.engine.store.clauses.size) :
    Backed result.engine.found (result.engine.store.clause key).literals := by
  have hright := h.right
  rw [hverdict] at hright
  obtain ⟨-, hrespects⟩ := (h.allows_iff _).2 hright.allows_found
  obtain ⟨l, hl, hholds⟩ := hrespects.clauses key hkey
  obtain ⟨b, hb⟩ := Option.ne_none_iff_exists'.1
    (hright.1 _ (h.resting.coherent.store.atom_lt key hkey l hl))
  have hfound : result.engine.found l.atom = some b := hb
  rw [Literal.Holds, hfound, Option.getD_some] at hholds
  exact ⟨l, hl, hfound.trans (congrArg some hholds)⟩

/-! ## Decisions -/

/-- While phases are saved, an atom is decided as it was saved. -/
theorem polarity_of_saved {a : Nat} {b : Bool} (hphase : s.settings.phaseSaving.val = 1)
    (hsaved : s.trail.saved a = some b) : s.polarity a = ⟨a, b⟩ := by
  simp [polarity, hphase, hsaved]

/-- A chosen atom gets its polarity. -/
theorem eq_polarity_of_choose [Random.Source R] {l : Literal} (h : s.choose.2.1 = some l) :
    l = s.polarity l.atom := by
  unfold choose at h
  split at h
  · simp at h
  split at h
  · rename_i atom _
    obtain rfl := Option.some.inj h
    rfl
  · obtain ⟨atom, -, rfl⟩ := Option.map_eq_some_iff.1 h
    rfl

/-- While phases are saved, no literal is chosen that is false in the valuation. -/
theorem choose_agrees [Random.Source R] (h : Keeps m s.trail s.store)
    (hwf : s.trail.WellFormed) (hphase : s.settings.phaseSaving.val = 1) {l : Literal}
    (hl : s.choose.2.1 = some l) : ¬ l.negate.TrueIn m := by
  have hspec := choose_spec hwf
  rw [hl] at hspec
  intro hfalse
  have hsaved : s.trail.saved l.atom = some (!l.positive) := h.saved _ _ hfalse hspec.2
  have hpolarity := eq_polarity_of_choose hl
  rw [polarity_of_saved hphase hsaved] at hpolarity
  have hsame : l.positive = !l.positive := congrArg Literal.positive hpolarity
  simp at hsame

/-! ## Turns -/

/-- A turn meets no conflict, and either keeps to the valuation or ends the search with a valuation
that extends it. -/
structure Confirms (m : PartialValuation) (s : Solver R) (turn : Turn R) : Prop where
  conflicts : turn.solver.counters.conflicts = s.counters.conflicts
  outcome : match turn.verdict with
    | none => Keeps m turn.solver.trail turn.solver.store
    | some verdict =>
      verdict = .satisfiable ∧ ∀ a b, m a = some b → turn.solver.model.getD a none = some b

/-- A search under assumptions that are true in a valuation keeps to the valuation, while phases are
saved and decisions are not limited. -/
structure Following (m : PartialValuation) (assumptions : List Literal) (s : Solver R) : Prop where
  searching : Searching assumptions s
  keeps : Keeps m s.trail s.store
  assumed : ∀ a ∈ assumptions, a.TrueIn m
  phaseSaving : s.settings.phaseSaving.val = 1
  unlimited : s.limits.decisions = none

/-- With a value for every atom the valuation is found. -/
theorem confirms_foundModel (h : Keeps m s.trail s.store) (hwf : s.trail.WellFormed)
    (hall : ∀ a < s.trail.atoms, s.trail.value a ≠ none) : Confirms m s s.foundModel :=
  ⟨rfl, rfl, fun a _ hab => (Trail.getD_model s.trail a).trans (h.value_eq hwf hall hab)⟩

variable [Random.Source R]

/-- A decision follows the valuation. -/
theorem confirms_makeDecision (h : Keeps m s.trail s.store) (hwf : s.trail.WellFormed)
    (hphase : s.settings.phaseSaving.val = 1) (hlimit : s.limits.decisions = none) :
    Confirms m s s.makeDecision := by
  have hspec := choose_spec hwf
  have hsame := s.choose_eq
  have hagrees := fun l => choose_agrees h hwf hphase (l := l)
  rw [makeDecision_eq]
  cases hchosen : s.choose with
  | mk s₁ rest =>
    obtain ⟨chosen, events⟩ := rest
    rw [hchosen] at hspec hsame hagrees
    obtain ⟨random, rfl⟩ : ∃ random, s₁ = { s with random := random } := ⟨_, hsame⟩
    cases chosen with
    | none => exact { confirms_foundModel (s := { s with random := random }) h hwf hspec with }
    | some l =>
      have hgoes : ¬ exhausted s.limits.decisions s.counters.decisions = true := by
        simp [exhausted, hlimit]
      unfold decideOn
      dsimp only
      rw [if_neg hgoes]
      exact ⟨rfl, h.openLevel hspec.1 (hagrees l rfl)⟩

/-- At a fixpoint no assumption is false. -/
theorem Following.onFixpoint (h : Following m assumptions s)
    (hhead : s.trail.head = s.trail.literals.size) :
    Confirms m s (s.onFixpoint assumptions) := by
  have hsearching := h.searching
  have hpassed := passed_skipHolding rfl hsearching.coherent hsearching.settled hhead
    hsearching.upholds
  unfold Solver.onFixpoint
  cases hskip : Cdcl.skipHolding s.trail (assumptions.drop s.trail.level) with
  | mk u standing =>
    rw [hskip] at hpassed
    obtain ⟨⟨limits, hsame⟩, hcoherent, -, hupholds, hstanding⟩ := hpassed
    dsimp only at hsame hcoherent hupholds hstanding
    have hkeeps : Keeps m u s.store := by
      rw [hsame]
      exact h.keeps.congr rfl rfl
    cases standing with
    | settled =>
      exact { confirms_makeDecision (s := { s with trail := u }) hkeeps hcoherent.trail
        h.phaseSaving h.unlimited with }
    | undecided a =>
      have hmem := List.mem_of_getElem? hstanding.1
      exact ⟨rfl, hkeeps.openLevel (hupholds.room a hmem) (h.assumed a hmem).not_negate⟩
    | refuted a =>
      have hmem := List.mem_of_getElem? hstanding.1
      exact absurd hstanding.2 (hkeeps.negate_not_mem (h.assumed a hmem))

/-- Propagation finds no clause false. -/
theorem Following.advance (h : Following m assumptions s) :
    ∃ turn, s.advance assumptions = some turn ∧ Confirms m s turn := by
  obtain ⟨hkeeps, hnone⟩ := h.keeps.propagate h.searching.coherent h.searching.settled
  unfold Solver.advance
  cases hpropagate : propagate s.trail s.store with
  | mk u rest =>
    obtain ⟨r, conflict⟩ := rest
    rw [hpropagate] at hkeeps hnone
    obtain rfl : conflict = none := hnone
    obtain ⟨-, -, hhead, hrunning, hsettled, -⟩ := h.searching.propagated hpropagate
    have hfollowing : Following m assumptions { s with trail := u, store := r } :=
      { h with
        searching := { hrunning with settled := hsettled rfl }
        keeps := hkeeps }
    exact ⟨_, rfl, { hfollowing.onFixpoint hhead with }⟩

/-- A turn of a search that keeps to a valuation meets no conflict, unless its poll is answered by a
request to stop. -/
theorem Following.turn (h : Following m assumptions s) :
    ∃ turn, s.turn assumptions = some turn ∧
      (Event.terminated ∈ turn.events ∨ Confirms m s turn) := by
  obtain ⟨turn, hturn, -⟩ := h.searching.turn
  refine ⟨turn, hturn, ?_⟩
  rcases turn_cases hturn with rfl | ⟨advanced, hadvance, rfl⟩
  · exact .inl (by simp)
  · have hpolled : Following m assumptions { s with terminate := polled s.terminate } :=
      { h with searching := { h.searching with } }
    obtain ⟨turn, hturn, hconfirms⟩ := hpolled.advance
    obtain rfl := Option.some.inj (hturn.symm.trans hadvance)
    exact .inr { hconfirms with }

/-- A turn without a verdict that keeps to the valuation leaves a search that does. -/
theorem Following.of_confirms (h : Following m assumptions s) {turn : Turn R}
    (hturn : s.turn assumptions = some turn) (hverdict : turn.verdict = none)
    (hconfirms : Confirms m s turn) : Following m assumptions turn.solver := by
  have hanswer := (h.searching.answers_of_turn hturn).outcome
  have hkeeps := hconfirms.outcome
  rw [hverdict] at hanswer hkeeps
  obtain ⟨hpreserves, hsearching, -⟩ := hanswer
  exact ⟨hsearching, hkeeps, h.assumed, hpreserves.settings ▸ h.phaseSaving,
    hpreserves.limits ▸ h.unlimited⟩

/-- A search that keeps to a valuation ends without a conflict, with a valuation that extends it,
unless a poll is answered by a request to stop. -/
theorem Following.turns (h : Following m assumptions s) {fuel : Nat} {xs : Array Event}
    {result : Solved (Solver R)} (hresult : Solver.turns assumptions fuel xs s = some result)
    (hpatient : Event.terminated ∉ result.events) :
    result.verdict = .satisfiable ∧
      result.engine.counters.conflicts = s.counters.conflicts ∧
      ∀ a b, m a = some b → result.engine.model.getD a none = some b := by
  induction fuel generalizing s xs with
  | zero => simp [Solver.turns] at hresult
  | succ fuel ih =>
    obtain ⟨turn, hturn, houtcome⟩ := h.turn
    cases hverdict : turn.verdict with
    | none =>
      rw [turns_of_none hturn hverdict] at hresult
      obtain ⟨events, hevents, -⟩ := tallies_turns hresult
      have hconfirms := houtcome.resolve_left fun hstop => hpatient (by simp [hevents, hstop])
      obtain ⟨hsatisfiable, hconflicts, hmodel⟩ :=
        ih (h.of_confirms hturn hverdict hconfirms) hresult
      exact ⟨hsatisfiable, hconflicts.trans hconfirms.conflicts, hmodel⟩
    | some verdict =>
      rw [turns_of_verdict hturn hverdict] at hresult
      obtain rfl := Option.some.inj hresult
      have hconfirms := houtcome.resolve_left fun hstop => hpatient (by simp [hstop])
      have hended := hconfirms.outcome
      rw [hverdict] at hended
      exact ⟨hended.1, hconfirms.conflicts, hended.2⟩

/-! ## Searches that find a valuation -/

/-- A decision that finds every atom with a value records the values. -/
theorem records_makeDecision (s : Solver R) : Records s.makeDecision := by
  rw [makeDecision_eq]
  split
  · exact records_foundModel _
  · intro hverdict
    unfold decideOn at hverdict
    split at hverdict <;> simp at hverdict

/-- A turn at a fixpoint finds a valuation only where no literal is left to decide on, and records
it. -/
theorem records_onFixpoint (s : Solver R) (assumptions : List Literal) :
    Records (s.onFixpoint assumptions) := by
  unfold Solver.onFixpoint
  split
  · exact records_makeDecision _
  · intro hverdict
    simp at hverdict
  · intro hverdict
    simp [refute] at hverdict

/-- Every turn that finds the clauses satisfiable records the values. -/
theorem records_turn {turn : Turn R} (h : s.turn assumptions = some turn) : Records turn := by
  rcases turn_cases h with rfl | ⟨advanced, hadvance, rfl⟩
  · intro hverdict
    simp at hverdict
  · unfold Solver.advance at hadvance
    dsimp only at hadvance
    split at hadvance
    · exact (records_onConflict hadvance).withEvents _
    · obtain rfl := Option.some.inj hadvance
      exact (records_onFixpoint _ assumptions).withEvents _

/-- A search that finds the clauses satisfiable records the values on its trail. -/
theorem found_turns {fuel : Nat} {xs : Array Event} {result : Solved (Solver R)}
    (h : Solver.turns assumptions fuel xs s = some result)
    (hverdict : result.verdict = .satisfiable) :
    result.engine.found = result.engine.trail.value := by
  obtain ⟨n, before, s', turn, -, hturn, hended, hengine, -⟩ := exists_leads_of_turns h
  rw [hengine]
  exact records_turn hturn (hended.trans (congrArg some hverdict))

/-! ## Solves -/

/-- After a solve that finds a valuation, trail and store keep to it. -/
theorem Resting.keeps_solve (h : Resting s)
    (hroom : ∀ a ∈ s.assumptions.toList, a.atom < s.trail.atoms)
    (hverdict : s.solve.verdict = .satisfiable) :
    s.solve.engine.consistent = true ∧
      Keeps s.solve.engine.found s.solve.engine.trail s.solve.engine.store := by
  have hsolves := h.solve hroom
  have hright := hsolves.right
  rw [hverdict] at hright
  have hallowed := hright.allows_found
  have hbacked : ∀ key < s.solve.engine.store.clauses.size,
      Backed s.solve.engine.found (s.solve.engine.store.clause key).literals :=
    fun _ => hsolves.backed hverdict
  refine ⟨((hsolves.allows_iff _).2 hallowed).1, ?_⟩
  obtain ⟨result, hturns, hsolve⟩ := h.turns_end hallowed.1 hroom
  rw [hsolve] at hverdict hbacked ⊢
  obtain ⟨hconcludes, -⟩ := (h.searching hallowed.1 hroom).turns .empty hturns
  have hfound : (concluded result).engine.found = result.engine.trail.value :=
    found_turns hturns hverdict
  rw [hfound] at hbacked ⊢
  exact .backjump hconcludes.coherent.trail hbacked 0

/-- A solve that keeps to a valuation ends without a conflict, with a valuation that extends it. -/
theorem Resting.solve_of_keeps (h : Resting s)
    (hroom : ∀ a ∈ s.assumptions.toList, a.atom < s.trail.atoms) (hconsistent : s.consistent = true)
    (hkeeps : Keeps m s.trail s.store) (hassumed : ∀ a ∈ s.assumptions.toList, a.TrueIn m)
    (hphase : s.settings.phaseSaving.val = 1) (hunlimited : s.limits.decisions = none)
    (hpatient : Event.terminated ∉ s.solve.events) :
    s.solve.verdict = .satisfiable ∧ s.solve.engine.counters.conflicts = 0 ∧
      ∀ a b, m a = some b → s.solve.engine.found a = some b := by
  have hfollowing : Following m s.assumptions.toList s.beginSolve :=
    { searching := h.searching hconsistent hroom
      keeps := h.beginSolve_trail.symm ▸ hkeeps
      assumed := hassumed
      phaseSaving := hphase
      unlimited := hunlimited }
  obtain ⟨result, hturns, hsolve⟩ := h.turns_end hconsistent hroom
  rw [hsolve] at hpatient ⊢
  obtain ⟨hverdict, hconflicts, hfound⟩ :=
    hfollowing.turns hturns fun hstop => hpatient (Array.mem_push_of_mem _ hstop)
  exact ⟨hverdict, hconflicts, hfound⟩

end Solver

end Cdcl

end IncrementalSat
