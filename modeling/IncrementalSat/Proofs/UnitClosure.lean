import IncrementalSat.Proofs.Visits

/-!
# Propagation computes the closure under the unit rule

The unit rule says that if all literals of a clause but one are false, the remaining one is true.
Propagation with watched literals gives the closure of the valuation under this rule.  Every literal
it makes true is in the closure, as the reason of a literal derives it from earlier ones; and once
every clause is settled, the rule gives nothing more.  If it finds a clause false instead, the
closure holds a literal with its negation.  The rule knows nothing of watch lists, so their order
and that of the literals within clauses decide neither whether there is a conflict nor what is true
without one.
-/

set_option autoImplicit false

namespace IncrementalSat.Cdcl

open scoped List

/-! ## The unit rule -/

/-- The literals that follow by the unit rule from given ones: if all literals of a clause but one
are false, that one is true. -/
inductive UnitClosure (clauses : List (List Literal)) (given : Literal → Prop) : Literal → Prop
  | given {l : Literal} (hl : given l) : UnitClosure clauses given l
  | unit {c : List Literal} {l : Literal} (hc : c ∈ clauses) (hl : l ∈ c)
      (hothers : ∀ m ∈ c, m ≠ l → UnitClosure clauses given m.negate) :
      UnitClosure clauses given l

/-- Every clause of one formula is in another, up to the order of its literals. -/
def CoveredBy (f g : List (List Literal)) : Prop :=
  ∀ c ∈ f, ∃ d ∈ g, d ~ c

/-- The unit rule does not depend on the order of clauses or of the literals in them. -/
theorem UnitClosure.mono {f g : List (List Literal)} {given given' : Literal → Prop}
    (hf : CoveredBy f g) (hgiven : ∀ l, given l → given' l) {l : Literal}
    (h : UnitClosure f given l) : UnitClosure g given' l := by
  induction h with
  | given hl => exact .given (hgiven _ hl)
  | unit hc hl _ ih =>
    obtain ⟨d, hd, hperm⟩ := hf _ hc
    exact .unit hd (hperm.mem_iff.2 hl) fun m hm hne => ih m (hperm.mem_iff.1 hm) hne

/-- If all literals of a clause are false, the unit rule gives a literal with its negation. -/
theorem UnitClosure.contradiction {clauses : List (List Literal)} {given : Literal → Prop}
    {c : List Literal} (hc : c ∈ clauses) (hne : c ≠ [])
    (hfalse : ∀ m ∈ c, UnitClosure clauses given m.negate) :
    ∃ l, UnitClosure clauses given l ∧ UnitClosure clauses given l.negate := by
  obtain ⟨l, hl⟩ := List.exists_mem_of_ne_nil c hne
  exact ⟨l, .unit hc hl fun m hm _ => hfalse m hm, hfalse l hl⟩

/-- The stored clauses, without regard to what they watch. -/
def ClauseStore.formula (s : ClauseStore) : List (List Literal) :=
  s.clauses.toList.map Clause.literals

/-- The stored clauses are those that have a key. -/
theorem ClauseStore.mem_formula_iff {s : ClauseStore} {c : List Literal} :
    c ∈ s.formula ↔ ∃ key < s.clauses.size, (s.clause key).literals = c := by
  unfold formula
  rw [List.mem_map]
  constructor
  · rintro ⟨clause, hclause, rfl⟩
    obtain ⟨key, hkey, rfl⟩ := Array.mem_iff_getElem.1 (Array.mem_toList_iff.1 hclause)
    exact ⟨key, hkey, by simp [clause, hkey]⟩
  · rintro ⟨key, hkey, rfl⟩
    exact ⟨s.clauses[key], Array.mem_toList_iff.2 (Array.getElem_mem hkey), by simp [clause, hkey]⟩

/-- A clause with a key is stored. -/
theorem ClauseStore.literals_mem_formula {s : ClauseStore} {key : Nat}
    (hkey : key < s.clauses.size) : (s.clause key).literals ∈ s.formula :=
  mem_formula_iff.2 ⟨key, hkey, rfl⟩

/-- A store that only rearranges the clauses of another has the same clauses. -/
theorem ClauseStore.Extends.coveredBy {s r : ClauseStore} (h : s.Extends r)
    (hsize : r.clauses.size = s.clauses.size) :
    CoveredBy s.formula r.formula ∧ CoveredBy r.formula s.formula := by
  constructor
  · intro c hc
    obtain ⟨key, hkey, rfl⟩ := mem_formula_iff.1 hc
    exact ⟨_, literals_mem_formula (hsize ▸ hkey), h.perm key hkey⟩
  · intro c hc
    obtain ⟨key, hkey, rfl⟩ := mem_formula_iff.1 hc
    rw [hsize] at hkey
    exact ⟨_, literals_mem_formula hkey, (h.perm key hkey).symm⟩

/-! ## What propagation derives -/

/-- The closure of the valuation of a trail under the unit rule for the clauses of a store. -/
def Closure (t : Trail) (s : ClauseStore) : Literal → Prop :=
  UnitClosure s.formula fun l => t.valueOf l = some true

section Propagated

variable {t u : Trail} {s r : ClauseStore}

/-- Whatever propagation makes true is in the closure. -/
theorem Derives.closure_of_mem (h : Derives t s u r) (ht : t.WellFormed) (hu : Coherent u r)
    {l : Literal} (hl : l ∈ u.literals) : Closure t s l := by
  refine h.forall_mem hu (fun l hl => ?_) (fun key hkey l hl hothers => ?_) l hl
  · exact .given (ht.valueOf_eq_true_iff.2 hl)
  · exact .unit (ClauseStore.literals_mem_formula hkey) hl hothers

/-- In a clause that is settled up to the end of the trail, a literal is true if all others are
false. -/
theorem Settled.mem_of_others {key : Nat} (hs : Settled t s t.literals.size) (hc : Coherent t s)
    (hkey : key < s.clauses.size) {l : Literal}
    (hothers : ∀ m ∈ (s.clause key).literals, m ≠ l → m.negate ∈ t.literals) :
    l ∈ t.literals := by
  -- a false watched literal has a true partner, which can only be the literal itself
  have hpartner : ∀ {w o : Literal}, w ∈ (s.clause key).literals → o ∈ (s.clause key).literals →
      Guarded t t.literals.size w o → w ≠ l → l ∈ t.literals := by
    intro w o hw ho hguard hne
    have htrue := (hguard (Trail.mem_before_size.2 (hothers w hw hne))).1
    by_cases he : o = l
    · exact he ▸ htrue
    · exact absurd (hothers o ho he) (hc.trail.negate_not_mem htrue)
  have hfirst : (s.clause key).first ∈ (s.clause key).literals :=
    Clause.mem_literals_of_watches (.inl rfl)
  have hsecond : (s.clause key).second ∈ (s.clause key).literals :=
    Clause.mem_literals_of_watches (.inr rfl)
  by_cases hne : (s.clause key).first = l
  · refine hpartner hsecond hfirst (hs.clauses key hkey).2 fun he => ?_
    exact (hc.store.apart key hkey).first_ne_second (hne.trans he.symm)
  · exact hpartner hfirst hsecond (hs.clauses key hkey).1 hne

/-- What propagation without a conflict makes true is the closure. -/
theorem Propagated.mem_iff_closure (h : Propagated t s (u, r, none)) (ht : t.WellFormed)
    {l : Literal} : l ∈ u.literals ↔ Closure t s l := by
  refine ⟨h.derives.closure_of_mem ht h.coherent, fun hl => ?_⟩
  have hsettled : Settled u r u.literals.size := by
    have hhead : u.head = u.literals.size := h.head
    rw [← hhead]
    exact h.settled rfl
  induction hl with
  | given hl => exact h.derives.trail.mem (ht.valueOf_eq_true_iff.1 hl)
  | unit hc _ _ ih =>
    obtain ⟨key, hkey, rfl⟩ := ClauseStore.mem_formula_iff.1 hc
    refine hsettled.mem_of_others h.coherent (h.derives.size_eq ▸ hkey) fun m hm hne => ?_
    exact ih m ((h.derives.store.mem_iff hkey).1 hm) hne

/-- After propagation without a conflict the unit rule gives nothing more, as every clause whose
other literals are all false has a true literal. -/
theorem Propagated.valueOf_of_others (h : Propagated t s (u, r, none)) (ht : t.WellFormed)
    {c : List Literal} (hc : c ∈ s.formula) {l : Literal} (hl : l ∈ c)
    (hothers : ∀ m ∈ c, m ≠ l → u.valueOf m = some false) : u.valueOf l = some true := by
  have hu : u.WellFormed := h.coherent.trail
  rw [hu.valueOf_eq_true_iff, h.mem_iff_closure ht]
  refine .unit hc hl fun m hm hne => (h.mem_iff_closure ht).1 ?_
  exact hu.valueOf_eq_false_iff.1 (hothers m hm hne)

/-- A conflict shows a contradiction in the closure. -/
theorem Propagated.contradiction {key : Nat} (h : Propagated t s (u, r, some key))
    (ht : t.WellFormed) : ∃ l, Closure t s l ∧ Closure t s l.negate := by
  obtain ⟨hfalse, -⟩ := h.conflict key rfl
  have hkey : key < s.clauses.size := h.derives.size_eq ▸ hfalse.key_lt
  refine UnitClosure.contradiction (ClauseStore.literals_mem_formula hkey)
    (by simp [Clause.literals]) fun m hm => ?_
  have hm' := hfalse.negate_mem m ((h.derives.store.mem_iff hkey).2 hm)
  exact h.derives.closure_of_mem ht h.coherent hm'

/-- There is a conflict if and only if the closure has a contradiction. -/
theorem Propagated.conflict_iff {conflict : Option Nat} (h : Propagated t s (u, r, conflict))
    (ht : t.WellFormed) :
    conflict ≠ none ↔ ∃ l, Closure t s l ∧ Closure t s l.negate := by
  cases conflict with
  | some key => exact ⟨fun _ => h.contradiction ht, fun _ => Option.some_ne_none key⟩
  | none =>
    refine ⟨fun hne => absurd rfl hne, ?_⟩
    rintro ⟨l, hl, hneg⟩
    rw [← h.mem_iff_closure ht] at hl hneg
    exact absurd hneg (h.coherent.trail.negate_not_mem hl)

end Propagated

/-! ## Order does not matter -/

/-- Two results of propagation agree on whether there is a conflict and, without one, on the value
of every literal. -/
def SameOutcome (x y : Trail × ClauseStore × Option Nat) : Prop :=
  (x.2.2 = none ↔ y.2.2 = none) ∧ (x.2.2 = none → ∀ l, x.1.valueOf l = y.1.valueOf l)

/-- A store rearranges another if it has the same clauses with the same watched literals, but for
the order of the literals in a clause and of the keys in a watch list. -/
structure Rearranges (s r : ClauseStore) : Prop extends s.Extends r where
  size_eq : r.clauses.size = s.clauses.size
  watches_iff : ∀ key < s.clauses.size, ∀ l, (r.clause key).Watches l ↔ (s.clause key).Watches l
  size_watches : r.watches.size = s.watches.size
  watchers : ∀ l, (r.watchers l).toList ~ (s.watchers l).toList

namespace Rearranges

variable {t : Trail} {s r : ClauseStore}

/-- A rearranged store belongs to the same trail. -/
theorem coherent (h : Rearranges s r) (hc : Coherent t s) : Coherent t r := by
  refine hc.extendStore h.toExtends
    { size_watches := h.size_watches.trans hc.store.size_watches
      apart := ?_, atom_lt := ?_, nodup_watchers := ?_, mem_watchers_iff := ?_ }
  · intro key hkey
    rw [h.size_eq] at hkey
    rw [Clause.Apart, ((h.perm key hkey).map Literal.atom).nodup_iff]
    exact hc.store.apart key hkey
  · intro key hkey l hl
    rw [h.size_eq] at hkey
    exact hc.store.atom_lt key hkey l ((h.mem_iff hkey).1 hl)
  · intro l
    rw [(h.watchers l).nodup_iff]
    exact hc.store.nodup_watchers l
  · intro l key
    rw [← Array.mem_toList_iff, (h.watchers l).mem_iff, Array.mem_toList_iff,
      hc.store.mem_watchers_iff, h.size_eq]
    exact and_congr_right fun hkey => (h.watches_iff key hkey l).symm

/-- A rearranged store is as settled. -/
theorem settled (h : Rearranges s r) (hc : Coherent t s) {p : Nat} (hs : Settled t s p) :
    Settled t r p where
  limits_le := hs.limits_le
  clauses key hkey := by
    rw [h.size_eq] at hkey
    have hsettled := hs.clauses key hkey
    have hne : (r.clause key).first ≠ (r.clause key).second :=
      ((h.coherent hc).store.apart key (h.size_eq ▸ hkey)).first_ne_second
    have hfirst := (h.watches_iff key hkey _).1 (.inl rfl)
    have hsecond := (h.watches_iff key hkey _).1 (.inr rfl)
    -- the watched literals are the same, in the same order or exchanged
    rcases hfirst with hfirst | hfirst
    · have hsecond' := hsecond.resolve_left fun he => hne (hfirst.trans he.symm)
      rw [Clause.SettledAt, hfirst, hsecond']
      exact hsettled
    · have hsecond' := hsecond.resolve_right fun he => hne (hfirst.trans he.symm)
      rw [Clause.SettledAt, hfirst, hsecond']
      exact hsettled.symm

end Rearranges

/-- Propagation from the same valuation with the same clauses has the same outcome. -/
theorem sameOutcome_of_coveredBy {t t' : Trail} {s s' : ClauseStore} (hc : Coherent t s)
    (hs : Settled t s t.head) (hc' : Coherent t' s') (hs' : Settled t' s' t'.head)
    (hvalue : ∀ l, t'.valueOf l = t.valueOf l) (hcovered : CoveredBy s.formula s'.formula)
    (hcovered' : CoveredBy s'.formula s.formula) :
    SameOutcome (propagate t' s') (propagate t s) := by
  have hclosure : ∀ l, Closure t' s' l ↔ Closure t s l := fun l =>
    ⟨UnitClosure.mono hcovered' fun l hl => hvalue l ▸ hl,
      UnitClosure.mono hcovered fun l hl => (hvalue l).trans hl⟩
  have hp := propagated_propagate hc hs
  have hp' := propagated_propagate hc' hs'
  generalize propagate t s = x at hp ⊢
  generalize propagate t' s' = y at hp' ⊢
  obtain ⟨u, r, conflict⟩ := x
  obtain ⟨u', r', conflict'⟩ := y
  have hconflict : conflict' = none ↔ conflict = none := by
    rw [← not_iff_not, ← ne_eq, ← ne_eq, hp.conflict_iff hc.trail, hp'.conflict_iff hc'.trail]
    exact exists_congr fun l => and_congr (hclosure l) (hclosure l.negate)
  refine ⟨hconflict, fun hnone l => ?_⟩
  obtain rfl : conflict' = none := hnone
  obtain rfl : conflict = none := hconflict.1 rfl
  have htrue : ∀ m, m ∈ u'.literals ↔ m ∈ u.literals := fun m => by
    rw [hp.mem_iff_closure hc.trail, hp'.mem_iff_closure hc'.trail, hclosure]
  have hu : u.WellFormed := hp.coherent.trail
  have hu' : u'.WellFormed := hp'.coherent.trail
  show u'.valueOf l = u.valueOf l
  cases hv : u.valueOf l with
  | none =>
    rw [hu.valueOf_eq_none_iff, ← htrue, ← htrue] at hv
    exact hu'.valueOf_eq_none_iff.2 hv
  | some b =>
    cases b with
    | true => rwa [hu'.valueOf_eq_true_iff, htrue, ← hu.valueOf_eq_true_iff]
    | false => rwa [hu'.valueOf_eq_false_iff, htrue, ← hu.valueOf_eq_false_iff]

end IncrementalSat.Cdcl

namespace IncrementalSat.Session

open Cdcl

open scoped List

variable {R : Type} [Random.Source R]

/-- Wherever a search propagates, it computes the closure of the valuation under the unit rule for
the stored clauses.  Without a conflict, exactly the literals of the closure are true, no clause is
false, no clause has one open literal and otherwise false ones, and everything is propagated.  With
a conflict, the clause with the key found is false and the closure holds a literal with its
negation.  The clauses keep their literals.  A rearranged store has the same outcome, and so does
any other place where a search propagates from the same valuation with the same clauses. -/
theorem propagate_eq_unit_closure (calls : List Call) (s : Solver R)
    (h : (after R calls).engine.Visits s) :
    let closure := UnitClosure s.store.formula fun l => s.trail.valueOf l = some true
    let result := propagate s.trail s.store
    (result.2.2 = none →
        (∀ l, result.1.valueOf l = some true ↔ closure l) ∧
        (∀ c ∈ s.store.formula, ∃ l ∈ c, result.1.valueOf l ≠ some false) ∧
        (∀ c ∈ s.store.formula, ∀ l ∈ c, result.1.valueOf l = none →
          ∃ m ∈ c, m ≠ l ∧ result.1.valueOf m ≠ some false) ∧
        result.1.head = result.1.literals.size) ∧
      (∀ key, result.2.2 = some key →
        key < result.2.1.clauses.size ∧
        (∀ l ∈ (result.2.1.clause key).literals, result.1.valueOf l = some false) ∧
        ∃ l, closure l ∧ closure l.negate) ∧
      (result.2.1.clauses.size = s.store.clauses.size ∧
        ∀ key < s.store.clauses.size,
          (result.2.1.clause key).literals ~ (s.store.clause key).literals) ∧
      (∀ store, Rearranges s.store store → SameOutcome (propagate s.trail store) result) ∧
      ∀ (calls' : List Call) (s' : Solver R), (after R calls').engine.Visits s' →
        (∀ l, s'.trail.valueOf l = s.trail.valueOf l) →
        CoveredBy s.store.formula s'.store.formula → CoveredBy s'.store.formula s.store.formula →
        SameOutcome (propagate s'.trail s'.store) result := by
  intro closure result
  have hsearching := searching_of_visits h
  have hc := hsearching.coherent
  have hs := hsearching.settled
  have hp : Propagated s.trail s.store result := propagated_propagate hc hs
  refine ⟨?_, ?_, ⟨hp.derives.size_eq, hp.derives.store.perm⟩, ?_, ?_⟩
  · intro hnone
    have hresult : result = (result.1, result.2.1, none) := by rw [← hnone]
    rw [hresult] at hp
    have hu : result.1.WellFormed := hp.coherent.trail
    refine ⟨fun l => ?_, fun c hclause => ?_, fun c hclause l hl hopen => ?_, hp.head⟩
    · rw [hu.valueOf_eq_true_iff, hp.mem_iff_closure hc.trail]
      exact Iff.rfl
    · by_contra hfalse
      obtain ⟨key, hkey, rfl⟩ := ClauseStore.mem_formula_iff.1 hclause
      have hall : ∀ m ∈ (s.store.clause key).literals, result.1.valueOf m = some false := by
        simpa using hfalse
      have hmem : (s.store.clause key).first ∈ (s.store.clause key).literals :=
        Clause.mem_literals_of_watches (.inl rfl)
      have htrue := hp.valueOf_of_others hc.trail hclause hmem fun m hm _ => hall m hm
      rw [hall _ hmem] at htrue
      cases htrue
    · by_contra hfalse
      have hothers : ∀ m ∈ c, m ≠ l → result.1.valueOf m = some false := by
        simpa using hfalse
      have htrue := hp.valueOf_of_others hc.trail hclause hl hothers
      rw [hopen] at htrue
      cases htrue
  · intro key hkey
    obtain ⟨hfalse, -⟩ := hp.conflict key hkey
    have hresult : result = (result.1, result.2.1, some key) := by rw [← hkey]
    refine ⟨hfalse.key_lt, fun l hl => ?_, ?_⟩
    · exact hp.coherent.trail.valueOf_eq_false_iff.2 (hfalse.negate_mem l hl)
    · rw [hresult] at hp
      exact hp.contradiction hc.trail
  · intro store hrearranges
    obtain ⟨hcovered, hcovered'⟩ := hrearranges.toExtends.coveredBy hrearranges.size_eq
    exact sameOutcome_of_coveredBy hc hs (hrearranges.coherent hc) (hrearranges.settled hc hs)
      (fun _ => rfl) hcovered hcovered'
  · intro calls' s' h' hvalue hcovered hcovered'
    have hsearching' := searching_of_visits h'
    exact sameOutcome_of_coveredBy hc hs hsearching'.coherent hsearching'.settled hvalue hcovered
      hcovered'

/-- Such a place: once the assumption is made, the two clauses give a literal each. -/
theorem propagate_eq_unit_closure_of_assumption :
    let engine := (after Random.Pcg [.addClause [-1, 2], .addClause [-2, 3], .assume 1]).engine
    ∃ s : Solver Random.Pcg, engine.Visits s ∧
      s.trail.valueOf ⟨0, true⟩ = some true ∧ s.trail.valueOf ⟨2, true⟩ = none ∧
      UnitClosure s.store.formula (fun l => s.trail.valueOf l = some true) ⟨2, true⟩ := by
  intro engine
  have hvisits : engine.Visits engine.beginSolve := Solver.visits_beginSolve (by decide +kernel)
  obtain ⟨turn, hturn, hnext⟩ := exists_turn_of_visits hvisits
  have hfacts : ((engine.beginSolve.turn engine.assumptions.toList).map fun turn =>
      (turn.verdict, turn.solver.trail.valueOf ⟨0, true⟩, turn.solver.trail.valueOf ⟨2, true⟩,
        (propagate turn.solver.trail turn.solver.store).2.2,
        (propagate turn.solver.trail turn.solver.store).1.valueOf ⟨2, true⟩)) =
      some (none, some true, none, none, some true) := by decide +kernel
  rw [hturn] at hfacts
  simp only [Option.map_some, Option.some.injEq, Prod.mk.injEq] at hfacts
  obtain ⟨hverdict, hfirst, hopen, hnone, htrue⟩ := hfacts
  have hclosure := propagate_eq_unit_closure _ turn.solver (hnext hverdict)
  exact ⟨turn.solver, hnext hverdict, hfirst, hopen, ((hclosure.1 hnone).1 _).1 htrue⟩

end IncrementalSat.Session
