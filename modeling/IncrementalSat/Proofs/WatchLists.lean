import IncrementalSat.Proofs.Visits

/-!
# Watch lists

The key of a clause is in the watch lists of its first two literals, once in each, and in no other
list.  Once one of the two is false and propagation has come past it, the other one is true, at a
level that is not higher, so that no backjump takes its value away and leaves the first one false.
The lists are so between two requests and, within a search, before and after each propagation; the
partners are true there unless the clauses are known to have no model or one of them has just been
found false.  A propagation only reorders the literals within clauses.
-/

set_option autoImplicit false

namespace IncrementalSat.Cdcl

open scoped List

/-- The clauses have at least two literals, all over different atoms, and the watch lists hold the
keys of the clauses that begin with a literal or have it second, each once, and nothing else. -/
structure ClauseStore.WatchesExactly (s : ClauseStore) : Prop where
  two_le : ∀ key < s.clauses.size, 2 ≤ (s.clause key).literals.length
  distinct : ∀ key < s.clauses.size, ((s.clause key).literals.map Literal.atom).Nodup
  count_watched : ∀ key < s.clauses.size, ∀ l ∈ (s.clause key).literals.take 2,
    (s.watchers l).count key = 1
  not_mem_unwatched : ∀ key < s.clauses.size, ∀ l ∉ (s.clause key).literals.take 2,
    key ∉ s.watchers l
  key_lt : ∀ keys ∈ s.watches, ∀ key ∈ keys, key < s.clauses.size

/-- Wherever one of the first two literals of a clause is false by a literal that has been
propagated, the other one is true, at a level that is not higher. -/
def PartnersTrue (t : Trail) (s : ClauseStore) : Prop :=
  ∀ key < s.clauses.size, ∀ watched partner,
    (s.clause key).literals.take 2 ~ [watched, partner] → watched.negate ∈ t.before t.head →
      t.valueOf watched = some false ∧ t.valueOf partner = some true ∧
        t.levelOf partner.atom ≤ t.levelOf watched.atom

/-- A clause watches its first two literals. -/
theorem Clause.mem_take_two_iff {c : Clause} {l : Literal} :
    l ∈ c.literals.take 2 ↔ c.Watches l := by
  simp [literals, Watches]

/-- Every place in a table with an entry for each literal is that of a literal. -/
theorem exists_literal_of_code (code : Nat) : ∃ l : Literal, l.code = code := by
  refine ⟨⟨code / 2, code % 2 == 0⟩, ?_⟩
  rcases Nat.mod_two_eq_zero_or_one code with h | h
  · simp only [Literal.code, h, beq_self_eq_true, if_true]
    omega
  · simp only [Literal.code, h, Nat.reduceBEq, Bool.false_eq_true, if_false]
    omega

/-- The watch lists of a well-formed store are exact. -/
theorem ClauseStore.WellFormed.watchesExactly {s : ClauseStore} {atoms : Nat}
    (h : s.WellFormed atoms) : s.WatchesExactly where
  two_le key _ := by simp [Clause.literals]
  distinct := h.apart
  count_watched key hkey l hl := by
    have hmem : key ∈ s.watchers l :=
      (h.mem_watchers_iff l key).2 ⟨hkey, Clause.mem_take_two_iff.1 hl⟩
    rw [← Array.count_toList]
    exact List.count_eq_one_of_mem (h.nodup_watchers l) (Array.mem_toList_iff.2 hmem)
  not_mem_unwatched key _ l hl hmem :=
    hl (Clause.mem_take_two_iff.2 ((h.mem_watchers_iff l key).1 hmem).2)
  key_lt keys hkeys key hmem := by
    obtain ⟨code, hcode, rfl⟩ := Array.mem_iff_getElem.1 hkeys
    obtain ⟨l, rfl⟩ := exists_literal_of_code code
    have hlist : s.watchers l = s.watches[l.code] := by simp [watchers, hcode]
    exact ((h.mem_watchers_iff l key).1 (hlist ▸ hmem)).1

/-- Once the clauses are settled up to where propagation goes on, partners of false literals are
true. -/
theorem Settled.partnersTrue {t : Trail} {s : ClauseStore} (h : Settled t s t.head)
    (hwf : t.WellFormed) : PartnersTrue t s := by
  intro key hkey watched partner hpair hpropagated
  have hguarded : Guarded t t.head watched partner := by
    rcases List.perm_pair.1 hpair with hpair | hpair <;> cases hpair
    · exact (h.clauses key hkey).1
    · exact (h.clauses key hkey).2
  obtain ⟨hpartner, hlevel⟩ := hguarded hpropagated
  exact ⟨hwf.valueOf_eq_false_iff.2 (Trail.mem_of_mem_before hpropagated),
    hwf.valueOf_eq_true_iff.2 hpartner, hlevel⟩

namespace Solver

variable {R : Type} [Random.Source R]

/-- The watch lists are exact between two requests, and before and after each propagation of a
search.  In all these states in which the clauses are not known to have no model and no conflict has
just been found, the partners of false literals are true.  A propagation stores no clause, gives no
key to another clause, and only reorders the literals within clauses. -/
theorem watch_lists_are_exact (settings : Settings) (requests : List Engine.Request) :
    let s := Engine.serveAll (ofSettings settings : Solver R) requests
    s.store.WatchesExactly ∧
      (s.consistent = true → PartnersTrue s.trail s.store) ∧
      ∀ s', s.Visits s' →
        s'.consistent = true ∧ s'.store.WatchesExactly ∧ PartnersTrue s'.trail s'.store ∧
        let result := propagate s'.trail s'.store
        result.2.1.WatchesExactly ∧
          (result.2.2 = none → PartnersTrue result.1 result.2.1) ∧
          result.2.1.clauses.size = s'.store.clauses.size ∧
          ∀ key < s'.store.clauses.size,
            (result.2.1.clause key).literals ~ (s'.store.clause key).literals ∧
              (result.2.1.clause key).learnt = (s'.store.clause key).learnt := by
  intro s
  have hready : Ready s := ready_serveAll settings requests
  have hcoherent := hready.resting.coherent
  refine ⟨hcoherent.store.watchesExactly, fun hconsistent => ?_, fun s' hvisits => ?_⟩
  · exact (hready.resting.settled hconsistent).partnersTrue hcoherent.trail
  · have hsearching := hready.searching_of_visits hvisits
    have hp := propagated_propagate hsearching.coherent hsearching.settled
    refine ⟨hsearching.consistent, hsearching.coherent.store.watchesExactly,
      hsearching.settled.partnersTrue hsearching.coherent.trail, hp.coherent.store.watchesExactly,
      fun hnone => (hp.settled hnone).partnersTrue hp.coherent.trail, hp.derives.size_eq,
      fun key hkey => ⟨hp.derives.store.perm key hkey, hp.derives.store.learnt key hkey⟩⟩

/-- Such a state: once the assumption -1 and what it forces are propagated, and the next assumption
has its level, the clause of 1 and 2 watches a false literal, and its partner is true. -/
theorem watch_lists_are_exact_of_assumptions :
    let s := Engine.serveAll (ofSettings {} : Solver Random.Pcg)
      [.add 1, .add 2, .add 0, .assume (-1), .assume 3]
    ∃ s', s.Visits s' ∧ (s'.store.clause 0).literals = [⟨1, true⟩, ⟨0, true⟩] ∧
      (s'.store.watchers ⟨0, true⟩).count 0 = 1 ∧
      s'.trail.valueOf ⟨0, true⟩ = some false ∧ s'.trail.valueOf ⟨1, true⟩ = some true ∧
      s'.trail.levelOf 1 ≤ s'.trail.levelOf 0 ∧ s'.trail.levelOf 2 = 2 := by
  intro s
  have hconsistent : s.consistent = true := by decide +kernel
  let t₁ := (s.beginSolve.turn s.assumptions.toList).get (by decide +kernel)
  let t₂ := (t₁.solver.turn s.assumptions.toList).get (by decide +kernel)
  have hvisits : s.Visits t₂.solver :=
    ((visits_beginSolve hconsistent).turn_get _ (by decide +kernel)).turn_get _ (by decide +kernel)
  have hliterals : (t₂.solver.store.clause 0).literals = [⟨1, true⟩, ⟨0, true⟩] := by
    decide +kernel
  have hpair : (t₂.solver.store.clause 0).literals.take 2 ~ [⟨0, true⟩, ⟨1, true⟩] := by
    rw [hliterals]
    exact .swap ..
  have hstored : 0 < t₂.solver.store.clauses.size := by decide +kernel
  have hpropagated : Literal.negate ⟨0, true⟩ ∈ t₂.solver.trail.before t₂.solver.trail.head := by
    decide +kernel
  obtain ⟨-, -, hsearch⟩ := watch_lists_are_exact (R := Random.Pcg) {}
    [.add 1, .add 2, .add 0, .assume (-1), .assume 3]
  obtain ⟨-, hexact, hpartners, -⟩ := hsearch t₂.solver hvisits
  obtain ⟨hfalse, htrue, hlevel⟩ := hpartners 0 hstored _ _ hpair hpropagated
  exact ⟨_, hvisits, hliterals, hexact.count_watched 0 hstored _ (hpair.mem_iff.2 (by simp)),
    hfalse, htrue, hlevel, by decide +kernel⟩

end Solver

end IncrementalSat.Cdcl
