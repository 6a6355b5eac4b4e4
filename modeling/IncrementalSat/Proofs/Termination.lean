import IncrementalSat.Proofs.Solve

/-!
# Every search ends

A turn that goes on makes a clause known or the trail longer.  Over a number of atoms there are as
many clauses without a repeated atom as there are choices of absent, positive and negative for each
atom, and what is known is never forgotten; so the number of clauses that are not known, and the
number of atoms without a value, bound the number of turns.  A propagation inspects the list of each
literal at most once, and each key of a list at most once.  So a solve is what its search leaves
behind, at level zero again and with its end told.
-/

set_option autoImplicit false

namespace IncrementalSat.Cdcl

/-! ## Counting what is not known -/

/-- Whether a clause is known depends only on its set of literals, and more literals do no harm. -/
theorem Known.mono {t : Trail} {s : ClauseStore} {c d : List Literal} (h : Known t s c)
    (hsub : c ⊆ d) : Known t s d := by
  rcases h with ⟨key, hkey, hall⟩ | ⟨l, hl, hfixed⟩
  · exact .inl ⟨key, hkey, fun l hl => hsub (hall l hl)⟩
  · exact .inr ⟨l, hsub hl, hfixed⟩

/-- The clause over the first atoms in which each is absent, positive or negative as chosen. -/
def chosenClause {n : Nat} (f : Fin n → Option Bool) : List Literal :=
  (List.finRange n).filterMap fun i => (f i).map (Literal.mk i)

/-- A chosen clause has the literals over the first atoms that were chosen. -/
theorem mem_chosenClause {n : Nat} {f : Fin n → Option Bool} {l : Literal} :
    l ∈ chosenClause f ↔ ∃ h : l.atom < n, f ⟨l.atom, h⟩ = some l.positive := by
  simp only [chosenClause, List.mem_filterMap, List.mem_finRange, true_and,
    Option.map_eq_some_iff]
  constructor
  · rintro ⟨i, b, hf, rfl⟩
    exact ⟨i.isLt, hf⟩
  · rintro ⟨h, hf⟩
    exact ⟨⟨l.atom, h⟩, l.positive, hf, rfl⟩

/-- A clause without a repeated atom is one of the chosen ones. -/
theorem exists_chosenClause {n : Nat} {c : List Literal} (hdistinct : (c.map Literal.atom).Nodup)
    (hroom : ∀ l ∈ c, l.atom < n) :
    ∃ f : Fin n → Option Bool, ∀ l, l ∈ chosenClause f ↔ l ∈ c := by
  refine ⟨fun i => (c.find? fun l => l.atom = i.val).map Literal.positive, fun l => ?_⟩
  rw [mem_chosenClause]
  simp only [Option.map_eq_some_iff]
  constructor
  · rintro ⟨_, m, hfind, hpositive⟩
    have hatom : m.atom = l.atom := by simpa using List.find?_some hfind
    have hml : m = l := by
      obtain ⟨a, p⟩ := m
      obtain ⟨b, q⟩ := l
      exact congrArg₂ Literal.mk hatom hpositive
    exact hml ▸ List.mem_of_find?_eq_some hfind
  · intro hl
    refine ⟨hroom l hl, l, ?_, rfl⟩
    cases hfind : c.find? fun m => m.atom = l.atom with
    | none => simpa using List.find?_eq_none.1 hfind l hl
    | some m =>
      have hatom : m.atom = l.atom := by simpa using List.find?_some hfind
      rw [List.inj_on_of_nodup_map hdistinct (List.mem_of_find?_eq_some hfind) hl hatom]

/-- The number of ways to choose a clause over the first atoms. -/
theorem card_choices (n : Nat) : Fintype.card (Fin n → Option Bool) = 3 ^ n := by
  rw [Fintype.card_fun, Fintype.card_option, Fintype.card_bool, Fintype.card_fin]

namespace Solver

variable {R : Type} {assumptions : List Literal} {s s' : Solver R}

open Classical in
/-- The choices of clauses over the first atoms that are not known. -/
noncomputable def unknownClauses (n : Nat) (s : Solver R) : Finset (Fin n → Option Bool) :=
  Finset.univ.filter fun f => ¬ Known s.trail s.store (chosenClause f)

/-- A measure of the turns that the search may still take. -/
noncomputable def turnsLeft (s : Solver R) : Nat :=
  (unknownClauses s.trail.atoms s).card * (s.trail.atoms + 1) +
    (s.trail.atoms - s.trail.literals.size)

/-- A choice is counted if its clause is not known. -/
theorem mem_unknownClauses {n : Nat} {f : Fin n → Option Bool} :
    f ∈ unknownClauses n s ↔ ¬ Known s.trail s.store (chosenClause f) := by
  simp [unknownClauses]

/-- A step of the search makes no known clause unknown. -/
theorem Preserves.unknownClauses_subset (h : s.Preserves s') (n : Nat) :
    unknownClauses n s' ⊆ unknownClauses n s := by
  intro f hf
  rw [mem_unknownClauses] at hf ⊢
  exact fun hk => hf (h.known _ hk)

/-- A clause that comes to be known is one less. -/
theorem Preserves.card_unknownClauses_lt (h : s.Preserves s') {n : Nat} {c : List Literal}
    (hdistinct : (c.map Literal.atom).Nodup) (hroom : ∀ l ∈ c, l.atom < n)
    (hold : ¬ Known s.trail s.store c) (hnew : Known s'.trail s'.store c) :
    (unknownClauses n s').card < (unknownClauses n s).card := by
  obtain ⟨f, hf⟩ := exists_chosenClause hdistinct hroom
  refine Finset.card_lt_card ⟨h.unknownClauses_subset n, ?_⟩
  intro hsub
  have hmem : f ∈ unknownClauses n s :=
    mem_unknownClauses.2 fun hk => hold (hk.mono fun l hl => (hf l).1 hl)
  exact mem_unknownClauses.1 (hsub hmem) (hnew.mono fun l hl => (hf l).2 hl)

/-- Progress leaves fewer turns. -/
theorem Progress.turnsLeft_lt (hp : s.Progress s') (h : s.Preserves s')
    (hwf : s'.trail.WellFormed) : s'.turnsLeft < s.turnsLeft := by
  have hsize := hwf.size_le_atoms
  unfold turnsLeft
  rw [h.atoms] at hsize ⊢
  rcases hp with ⟨c, hdistinct, hroom, hold, hnew⟩ | hlonger
  · have hcard := h.card_unknownClauses_lt hdistinct hroom hold hnew
    have hmul := Nat.mul_le_mul_right (s.trail.atoms + 1) hcard
    rw [Nat.succ_mul] at hmul
    omega
  · have hcard := Finset.card_le_card (h.unknownClauses_subset s.trail.atoms)
    have hmul := Nat.mul_le_mul_right (s.trail.atoms + 1) hcard
    omega

/-- The bound on the turns of a search leaves room for all that it may take. -/
theorem turnsLeft_lt_turnBound (s : Solver R) : s.turnsLeft < turnBound s.atoms := by
  have hcard : (unknownClauses s.trail.atoms s).card ≤ 3 ^ s.trail.atoms :=
    (Finset.card_le_univ _).trans_eq (card_choices _)
  unfold turnsLeft turnBound
  calc (unknownClauses s.trail.atoms s).card * (s.trail.atoms + 1) +
        (s.trail.atoms - s.trail.literals.size)
      ≤ 3 ^ s.trail.atoms * (s.trail.atoms + 1) + s.trail.atoms :=
        Nat.add_le_add (Nat.mul_le_mul_right _ hcard) (Nat.sub_le _ _)
    _ < (3 ^ s.trail.atoms + 1) * (s.trail.atoms + 2) := by
        rw [Nat.add_mul, Nat.mul_add, Nat.mul_add]
        omega

/-! ## Searches -/

variable [Random.Source R]

/-- With more fuel than there are turns left, the turns end. -/
theorem Searching.turns_ne_none (h : Searching assumptions s) {fuel : Nat}
    (hfuel : s.turnsLeft < fuel) (events : Array Event) :
    Solver.turns assumptions fuel events s ≠ none := by
  induction fuel generalizing s events with
  | zero => omega
  | succ fuel ih =>
    obtain ⟨⟨s', verdict, more⟩, hturn, hanswers⟩ := h.turn
    have hout := hanswers.outcome
    rw [Solver.turns, hturn]
    cases verdict with
    | none =>
      obtain ⟨hpreserves, hsearching, hprogress⟩ := hout
      have hless := hprogress.turnsLeft_lt hpreserves hsearching.coherent.trail
      exact ih hsearching (by omega) _
    | some verdict => exact Option.some_ne_none _

/-- A search from rest ends, and with an answer unless something makes it stop. -/
theorem Resting.search_ends (h : Resting s) (hroom : ∀ a ∈ assumptions, a.atom < s.trail.atoms) :
    ∃ result, s.beginSolve.search? assumptions = some result ∧
      (s.Unhindered → result.verdict ≠ .unknown) := by
  unfold search?
  by_cases hconsistent : s.consistent = true
  · rw [if_pos (show s.beginSolve.consistent = true from hconsistent)]
    have hsearching := h.searching hconsistent hroom
    obtain ⟨result, hresult⟩ := Option.ne_none_iff_exists'.1
      (hsearching.turns_ne_none (turnsLeft_lt_turnBound s.beginSolve) #[])
    obtain ⟨hconcludes, -⟩ := hsearching.turns .empty hresult
    refine ⟨result, hresult, fun hu hunknown => hconcludes.unknown hunknown ?_⟩
    exact { hu with }
  · rw [if_neg (show ¬ s.beginSolve.consistent = true from hconsistent)]
    exact ⟨_, rfl, by simp⟩

omit [Random.Source R] in
/-- What a solve makes of what its search leaves behind. -/
def concluded (result : Solved (Solver R)) : Solved (Solver R) :=
  let s := { result.engine with trail := result.engine.trail.backjump 0 }
  ⟨s, result.verdict,
    result.events.push
      (.solved s.counters.solves result.verdict s.counters.decisions s.counters.conflicts)⟩

/-- A solve is its search with the level zero restored and the end told. -/
theorem solve_eq_concluded {result : Solved (Solver R)}
    (h : s.beginSolve.search? s.assumptions.toList = some result) : s.solve = concluded result := by
  unfold Solver.solve
  dsimp only
  rw [h]
  rfl

/-- A solve of an inconsistent solver is over before it begins to search. -/
theorem solve_of_inconsistent (h : s.consistent = false) :
    s.solve =
      ⟨{ s.beginSolve with trail := s.beginSolve.trail.backjump 0 }, .unsatisfiable,
        #[.solved (s.counters.solves + 1) .unsatisfiable 0 0]⟩ := by
  have hsearch : s.beginSolve.search? s.assumptions.toList =
      some ⟨s.beginSolve, .unsatisfiable, #[]⟩ :=
    if_neg (show ¬ s.beginSolve.consistent = true by simp [beginSolve, h])
  exact solve_eq_concluded hsearch

/-- A solve takes turns until they end, unless the clauses are known to have no model. -/
theorem Resting.turns_end (h : Resting s) (hconsistent : s.consistent = true)
    (hroom : ∀ a ∈ s.assumptions.toList, a.atom < s.trail.atoms) :
    ∃ result, turns s.assumptions.toList (turnBound s.beginSolve.atoms) #[] s.beginSolve =
      some result ∧ s.solve = concluded result := by
  obtain ⟨result, hresult, -⟩ := h.search_ends hroom
  have hturns := (if_pos (show s.beginSolve.consistent = true from hconsistent)).symm.trans hresult
  exact ⟨result, hturns, solve_eq_concluded hresult⟩

end Solver

/-! ## Propagations -/

/-- The inspection of a watch list, cut off after a number of keys. -/
def inspectWithin (falsified : Literal) :
    Nat → Trail → ClauseStore → Array Nat → Nat → Option Inspection
  | 0, _, _, _, _ => none
  | steps + 1, trail, store, watchers, index =>
    if h : index < watchers.size then
      let key := watchers[index]
      let clause := (store.clause key).demote falsified
      match clause.duty trail with
      | .rest => inspectWithin falsified steps trail (store.replace key clause) watchers (index + 1)
      | .move position =>
        let moved := clause.rewatch position
        inspectWithin falsified steps trail ((store.replace key moved).watch moved.second key)
          (Table.removeSwapping watchers index h) index
      | .force =>
        inspectWithin falsified steps (trail.assign clause.first (some key))
          (store.replace key clause) watchers (index + 1)
      | .clash => some ⟨trail, store.replace key clause, watchers, some key⟩
    else some ⟨trail, store, watchers, none⟩

/-- Propagation, cut off after a number of literals. -/
def propagateWithin : Nat → Trail → ClauseStore → Option (Trail × ClauseStore × Option Nat)
  | 0, _, _ => none
  | steps + 1, trail, store =>
    if h : trail.head < trail.literals.size then
      let falsified := trail.literals[trail.head].negate
      match inspectWithin falsified ((store.watchers falsified).size + 1)
          { trail with head := trail.head + 1 } (store.setWatchers falsified #[])
          (store.watchers falsified) 0 with
      | none => none
      | some result =>
        let settled := result.store.setWatchers falsified result.watchers
        match result.conflict with
        | some key =>
          some ({ result.trail with head := result.trail.literals.size }, settled, some key)
        | none => propagateWithin steps result.trail settled
    else some (trail, store, none)

/-- An inspection takes a step for each key that is left, at most. -/
theorem inspectWithin_eq (falsified : Literal) (t : Trail) (s : ClauseStore)
    (watchers : Array Nat) (index : Nat) {steps : Nat} (h : watchers.size - index < steps) :
    inspectWithin falsified steps t s watchers index =
      some (inspect falsified t s watchers index) := by
  induction steps generalizing t s watchers index with
  | zero => omega
  | succ steps ih =>
    rw [inspectWithin, inspect]
    split
    · rename_i hindex
      dsimp only
      cases ((s.clause watchers[index]).demote falsified).duty t with
      | rest =>
        refine ih _ _ _ _ ?_
        omega
      | move position =>
        refine ih _ _ _ _ ?_
        rw [Table.size_removeSwapping]
        omega
      | force =>
        refine ih _ _ _ _ ?_
        omega
      | clash => rfl
    · rfl

/-- A propagation takes a step for each literal that there may be on the trail, at most. -/
theorem propagateWithin_eq (t : Trail) (s : ClauseStore) {steps : Nat}
    (h : t.potential + 1 - t.head < steps) :
    propagateWithin steps t s = some (propagate t s) := by
  induction steps generalizing t s with
  | zero => omega
  | succ steps ih =>
    rw [propagateWithin, propagate]
    split
    · rename_i hhead
      dsimp only
      rw [inspectWithin_eq _ _ _ _ _ (by omega)]
      obtain ⟨hpotential, hhead'⟩ := inspect_trail t.literals[t.head].negate
        { t with head := t.head + 1 } (s.setWatchers t.literals[t.head].negate #[])
        (s.watchers t.literals[t.head].negate) 0
      change _ ≤ t.potential at hpotential
      change _ = t.head + 1 at hhead'
      have hsize : t.literals.size ≤ t.potential := Nat.le_add_left ..
      generalize inspect t.literals[t.head].negate { t with head := t.head + 1 }
        (s.setWatchers t.literals[t.head].negate #[]) (s.watchers t.literals[t.head].negate) 0 =
          result at hpotential hhead' ⊢
      cases hconflict : result.conflict with
      | some key => simp only [hconflict]
      | none =>
        simp only [hconflict]
        refine ih _ _ ?_
        omega
    · rfl

end IncrementalSat.Cdcl
