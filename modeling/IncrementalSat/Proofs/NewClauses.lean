import IncrementalSat.Proofs.Exports
import IncrementalSat.Proofs.Permanence
import IncrementalSat.Proofs.Restarts
import IncrementalSat.Proofs.Visits

/-!
# Every conflict teaches a new clause

A clause learnt in a search has no stored clause as a part of it, and none of its literals has a
value at level zero; from then on it is known.  What is known is never forgotten, neither by the
search nor by requests, so over the whole life of a solver each conflict that is counted adds a
clause to those known.  They are sets of literals none of which stands beside its negation, of which
there are three to the power of the number of atoms.
-/

set_option autoImplicit false

namespace IncrementalSat

/-- An atom has two literals, each the negation of the other. -/
theorem Literal.eq_or_eq_negate {l m : Literal} (h : l.atom = m.atom) : l = m ∨ l = m.negate := by
  obtain ⟨a, p⟩ := l
  obtain ⟨b, q⟩ := m
  obtain rfl : a = b := h
  by_cases hpq : p = q
  · exact .inl (congrArg _ hpq)
  · exact .inr (congrArg _ (Bool.eq_not.2 hpq))

namespace Cdcl

/-! ## New clauses -/

/-- A clause is new to a trail and a store: it is over different atoms, no stored clause is part of
it, and none of its literals has a value at level zero. -/
structure New (t : Trail) (s : ClauseStore) (c : List Literal) : Prop where
  distinct : (c.map Literal.atom).Nodup
  room : ∀ l ∈ c, l.atom < t.atoms
  not_stored : ∀ key < s.clauses.size, ¬ (s.clause key).literals ⊆ c
  undecided : ∀ l ∈ c, (t.backjump 0).valueOf l = none

section New

variable {t : Trail} {s : ClauseStore}

/-- A new clause is not known: none of its literals is true at level zero, and no part of it is
stored. -/
theorem New.not_known {c : List Literal} (h : New t s c) (hwf : t.WellFormed) :
    ¬ Known t s c := by
  intro hknown
  rcases hknown.backjump hwf 0 with ⟨key, hkey, hsub⟩ | ⟨l, hl, hmem, -⟩
  · exact h.not_stored key hkey hsub
  · have hopen := h.undecided l hl
    rw [(hwf.backjump 0).valueOf_eq_true_iff.2 hmem] at hopen
    exact absurd hopen (Option.some_ne_none _)

/-- The clause learnt from a conflict is new. -/
theorem Learns.new {c : Lemma} {p : Nat} (h : Learns t s c) (hc : Coherent t s)
    (hs : Settled t s p) : New t s c.literals where
  distinct := h.distinct
  room _ hl := hc.trail.atom_lt_of_negate (h.negate_mem hl)
  not_stored key hkey hsub := h.not_known hc hs (.inl ⟨key, hkey, hsub⟩)
  undecided l hl := by
    have hlevel : 0 < t.level := Nat.zero_lt_of_lt h.level_lt
    have habove : 0 < t.levelOf l.atom := by
      rcases List.mem_cons.1 hl with rfl | hl
      · rw [h.asserted.2]
        exact hlevel
      · exact (h.others l hl).2.1
    rw [(hc.trail.backjump 0).valueOf_eq_none_iff, hc.trail.mem_backjump_iff hlevel,
      hc.trail.mem_backjump_iff hlevel, Literal.atom_negate]
    exact ⟨fun hkept => by omega, fun hkept => by omega⟩

/-- What is known stays known when there is room for another atom. -/
theorem Known.ensure {c : List Literal} (h : Known t s c) (atom : Nat) :
    Known (t.ensure atom) (s.ensure atom) c := by
  rcases h with hstored | ⟨l, hl, hmem, hzero⟩
  · exact .inl hstored
  · refine .inr ⟨l, hl, hmem, ?_⟩
    rw [Trail.levelOf, Trail.slot_ensure]
    exact hzero

/-- A clause without literals is never known. -/
theorem not_known_nil : ¬ Known t s [] := by
  rintro (⟨key, -, hsub⟩ | ⟨l, hl, -⟩)
  · exact List.not_mem_nil (hsub _ (Clause.mem_literals_of_watches (.inl rfl)))
  · exact List.not_mem_nil hl

end New

/-! ## Clauses without complementary literals -/

/-- The literals over the first atoms. -/
def literalsBelow (n : Nat) : Finset Literal :=
  (Finset.range n ×ˢ Finset.univ).image fun p => Literal.mk p.1 p.2

/-- The clauses over the first atoms, as sets, in which no literal stands beside its negation. -/
def plainClauses (n : Nat) : Finset (Finset Literal) :=
  (literalsBelow n).powerset.filter fun c => ∀ l ∈ c, l.negate ∉ c

/-- The literals over the first atoms are those whose atom is one of them. -/
theorem mem_literalsBelow {n : Nat} {l : Literal} : l ∈ literalsBelow n ↔ l.atom < n := by
  simp only [literalsBelow, Finset.mem_image, Finset.mem_product, Finset.mem_range,
    Finset.mem_univ, and_true]
  constructor
  · rintro ⟨p, hp, rfl⟩
    exact hp
  · intro hl
    exact ⟨(l.atom, l.positive), hl, rfl⟩

/-- Such a clause is over the first atoms and has no literal beside its negation. -/
theorem mem_plainClauses {n : Nat} {c : Finset Literal} :
    c ∈ plainClauses n ↔ (∀ l ∈ c, l.atom < n) ∧ ∀ l ∈ c, l.negate ∉ c := by
  rw [plainClauses, Finset.mem_filter, Finset.mem_powerset]
  exact and_congr_left' (forall₂_congr fun _ _ => mem_literalsBelow)

/-- Over more atoms there are no fewer such clauses. -/
theorem plainClauses_mono {m n : Nat} (h : m ≤ n) : plainClauses m ⊆ plainClauses n := by
  intro c hc
  rw [mem_plainClauses] at hc ⊢
  exact ⟨fun l hl => (hc.1 l hl).trans_le h, hc.2⟩

/-- A new clause has no complementary literals, for its atoms are distinct. -/
theorem New.toFinset_mem {t : Trail} {s : ClauseStore} {c : List Literal} (h : New t s c) :
    c.toFinset ∈ plainClauses t.atoms := by
  rw [mem_plainClauses]
  refine ⟨fun l hl => h.room l (List.mem_toFinset.1 hl), fun l hl hneg => ?_⟩
  have hsame := List.inj_on_of_nodup_map h.distinct (List.mem_toFinset.1 hneg)
    (List.mem_toFinset.1 hl) l.atom_negate
  exact absurd (congrArg Literal.positive hsame) (by simp [Literal.negate])

/-- A clause without complementary literals leaves out each atom or takes one of its two
literals. -/
theorem card_plainClauses (n : Nat) : (plainClauses n).card = 3 ^ n := by
  rw [← card_choices, ← Finset.card_univ]
  symm
  refine Finset.card_bij (fun f _ => (chosenClause f).toFinset) ?_ ?_ ?_
  · intro f _
    simp only [mem_plainClauses, List.mem_toFinset, mem_chosenClause]
    refine ⟨fun l ⟨hl, _⟩ => hl, fun l ⟨hl, hf⟩ ⟨hl', hf'⟩ => ?_⟩
    have hpositive := Option.some.inj (hf.symm.trans hf')
    simp [Literal.negate] at hpositive
  · intro f _ g _ hfg
    funext i
    apply Option.ext
    intro b
    have hmem := Finset.ext_iff.1 hfg ⟨i, b⟩
    simpa [mem_chosenClause] using hmem
  · intro c hc
    obtain ⟨hroom, hplain⟩ := mem_plainClauses.1 hc
    have hdistinct : (c.toList.map Literal.atom).Nodup := by
      refine List.Nodup.map_on (fun l hl m hm hatom => ?_) c.nodup_toList
      apply (Literal.eq_or_eq_negate hatom).resolve_right
      rintro rfl
      exact hplain m (Finset.mem_toList.1 hm) (Finset.mem_toList.1 hl)
    obtain ⟨f, hf⟩ := exists_chosenClause hdistinct fun l hl => hroom l (Finset.mem_toList.1 hl)
    refine ⟨f, Finset.mem_univ _, ?_⟩
    ext l
    rw [List.mem_toFinset, hf, Finset.mem_toList]

namespace Solver

variable {R : Type} {assumptions : List Literal} {s s' : Solver R}

/-! ## What a turn teaches -/

/-- A step counts a conflict for each clause that its events say was learnt, which is one at most;
it is new to a trail and a store, and known after the step. -/
structure Teaches (t : Trail) (r : ClauseStore) (s s' : Solver R) (events : Array Event) :
    Prop where
  counts : s'.counters.totalConflicts =
    s.counters.totalConflicts + (learntClauses events).length
  length_le : (learntClauses events).length ≤ 1
  new : ∀ c ∈ learntClauses events, New t r c
  known : ∀ c ∈ learntClauses events, Known s'.trail s'.store c

section Teaches

variable {t : Trail} {r : ClauseStore} {events : Array Event}

/-- A step that counts no conflict and tells of no learnt clause teaches none. -/
theorem Teaches.of_learntClauses_eq_nil
    (hcounters : s'.counters.totalConflicts = s.counters.totalConflicts)
    (hnone : learntClauses events = []) : Teaches t r s s' events where
  counts := by rw [hcounters, hnone, List.length_nil, Nat.add_zero]
  length_le := by simp [hnone]
  new := by simp [hnone]
  known := by simp [hnone]

/-- Events that tell of no clause may come first. -/
theorem Teaches.prepend (h : Teaches t r s s' events) {before : Array Event}
    (hnone : learntClauses before = []) : Teaches t r s s' (before ++ events) := by
  have hsame : learntClauses (before ++ events) = learntClauses events := by
    rw [learntClauses_append, hnone, List.nil_append]
  refine ⟨?_, ?_, ?_, ?_⟩ <;> rw [hsame]
  · exact h.counts
  · exact h.length_le
  · exact h.new
  · exact h.known

/-- A conflict above level zero teaches a new clause. -/
theorem Running.teaches_learnFrom (h : Running assumptions s) {key p : Nat}
    (hs : Settled s.trail s.store p) (hkey : Falsified s.trail s.store key)
    (hlevel : 0 < s.trail.level) (hlearn : s.learnFrom key = some (s', events)) :
    Teaches s.trail s.store s s' events := by
  obtain ⟨analysis, hanalysis, hlearns, hseen⟩ :=
    analyze?_spec h.coherent h.unmarked hlevel hkey s.activity
  have hlearnt : learntClauses events = [analysis.learnt.literals] := by
    obtain ⟨analysis', hanalysis', hlearnt⟩ := learntClauses_learnFrom hlearn
    obtain rfl := Option.some.inj (hanalysis.symm.trans hanalysis')
    exact hlearnt
  rw [learnFrom_eq, hanalysis] at hlearn
  obtain ⟨rfl, -⟩ := Prod.mk.inj (Option.some.inj hlearn)
  obtain ⟨-, hcounters⟩ := s.counters_restartIfDue analysis
  obtain ⟨s₁, hs₁, -, hsearching, hknown⟩ := h.assertLearnt hs hlearns hseen
    { s.counters with
      conflicts := s.counters.conflicts + 1
      totalConflicts := s.counters.totalConflicts + 1
      freshConflicts := s.counters.freshConflicts + 1 }
    analysis.activity
  obtain rfl : s.afterAnalysis analysis = s₁ := hs₁
  refine ⟨?_, hlearnt ▸ le_rfl, ?_, ?_⟩
  · rw [hcounters, hlearnt]
    unfold Counters.afterConflict
    split <;> rfl
  · rw [hlearnt, List.forall_mem_singleton]
    exact hlearns.new h.coherent hs
  · rw [hlearnt, List.forall_mem_singleton]
    exact hsearching.restartIfDue.1.known _ hknown

/-- A conflict ends the search, by inconsistency or at a limit, or teaches a new clause. -/
theorem Running.teaches_onConflict (h : Running assumptions s) {key p : Nat}
    (hs : Settled s.trail s.store p) (hkey : Falsified s.trail s.store key) {turn : Turn R}
    (hturn : s.onConflict key = some turn) :
    Teaches s.trail s.store s turn.solver turn.events := by
  unfold Solver.onConflict at hturn
  split at hturn
  · obtain rfl := Option.some.inj hturn
    exact .of_learntClauses_eq_nil rfl rfl
  rename_i hlevel
  split at hturn
  · obtain rfl := Option.some.inj hturn
    exact .of_learntClauses_eq_nil rfl rfl
  · obtain ⟨⟨s', more⟩, hlearn, rfl⟩ := Option.map_eq_some_iff.1 hturn
    exact (h.teaches_learnFrom hs hkey (Nat.pos_of_ne_zero hlevel) hlearn).prepend rfl

end Teaches

section Turns

variable [Random.Source R]

/-- The clause that a turn teaches is new to what its propagation leaves behind. -/
theorem Searching.teaches_advance (h : Searching assumptions s) {turn : Turn R}
    (hturn : s.advance assumptions = some turn) :
    Teaches (propagate s.trail s.store).1 (propagate s.trail s.store).2.1 s turn.solver
      turn.events := by
  unfold Solver.advance at hturn
  cases hpropagate : propagate s.trail s.store with
  | mk u rest =>
    obtain ⟨r, conflict⟩ := rest
    obtain ⟨-, -, -, hrunning, -, hconflict⟩ := h.propagated hpropagate
    rw [hpropagate] at hturn
    dsimp only at hturn
    cases conflict with
    | some key =>
      obtain ⟨hkey, p, hp⟩ := hconflict key rfl
      exact { hrunning.teaches_onConflict hp hkey hturn with }
    | none =>
      obtain rfl := Option.some.inj hturn
      exact .of_learntClauses_eq_nil (samePace_onFixpoint _ _).2.total (learntClauses_onFixpoint ..)

/-- A turn teaches what its propagation and what follows it teach; the callback that it asks first
teaches nothing. -/
theorem Searching.teaches_turn (h : Searching assumptions s) {turn : Turn R}
    (hturn : s.turn assumptions = some turn) :
    Teaches (propagate s.trail s.store).1 (propagate s.trail s.store).2.1 s turn.solver
      turn.events := by
  rcases turn_cases hturn with rfl | ⟨advanced, hadvance, rfl⟩
  · exact .of_learntClauses_eq_nil rfl rfl
  · have hsearching : Searching assumptions { s with terminate := polled s.terminate } := { h with }
    exact { (hsearching.teaches_advance hadvance).prepend (pollEvents_spec s.terminate).1 with }

end Turns

/-! ## What is remembered -/

/-- A step forgets no atom and no clause that is known. -/
structure Remembers (s s' : Solver R) : Prop where
  atoms_le : s.trail.atoms ≤ s'.trail.atoms
  known : ∀ c, Known s.trail s.store c → Known s'.trail s'.store c

/-- A step of the search forgets nothing. -/
theorem Preserves.remembers (h : s.Preserves s') : Remembers s s' :=
  ⟨h.atoms.ge, h.known⟩

/-- A step that leaves the trail and the store alone forgets nothing. -/
theorem Remembers.of_trail_store (htrail : s'.trail = s.trail) (hstore : s'.store = s.store) :
    Remembers s s' where
  atoms_le := by rw [htrail]
  known c hc := by rwa [htrail, hstore]

/-- Room for another atom costs nothing that is known. -/
theorem remembers_ensure (s : Solver R) (atom : Nat) : Remembers s (s.ensure atom) where
  atoms_le := by
    rw [atoms_ensure]
    exact le_max_left _ _
  known _ hc := hc.ensure atom

/-- Closing a clause leaves the trail and the store alone, assigns a literal, or stores a clause. -/
theorem Resting.remembers_addClause (h : Resting s) {clause : List Literal}
    (hroom : ∀ l ∈ clause, l.atom < s.trail.atoms) : Remembers s (s.addClause clause).1 := by
  unfold Solver.addClause
  dsimp only
  split
  · exact .of_trail_store rfl rfl
  split
  · exact .of_trail_store rfl rfl
  split
  · exact .of_trail_store rfl rfl
  split
  · exact .of_trail_store rfl rfl
  · rename_i l hsingle
    obtain ⟨hl, hopen⟩ := mem_open hroom (hsingle ▸ List.mem_cons_self)
    have hext := Trail.Extends.assign h.coherent.trail none hl hopen
    exact ⟨hext.atoms.ge, fun c hc => hc.extendTrail hext⟩
  · exact ⟨le_rfl, fun c hc => hc.extendStore (.attach ..)⟩

/-- An integer added forgets nothing, whether it closes a clause or goes on with one. -/
theorem Ready.remembers_add (h : Ready s) (lit : Int32) : Remembers s (s.add lit).1 := by
  unfold Solver.add
  split
  · have htrail : s.trail.backjump 0 = s.trail := h.resting.backjump
    rw [htrail]
    have hresting : ({ s with openClause := #[] } : Solver R).Resting :=
      h.resting.congr rfl rfl rfl rfl
    exact { hresting.remembers_addClause h.openClause with }
  · exact { s.remembers_ensure _ with }

/-! ## The conflicts of a whole life -/

open Classical in
/-- The clauses without complementary literals that are known. -/
noncomputable def knownClauses (s : Solver R) : Finset (Finset Literal) :=
  (plainClauses s.trail.atoms).filter fun c => Known s.trail s.store c.toList

/-- The conflicts counted so far are not more than the clauses known. -/
def Accounted (s : Solver R) : Prop :=
  s.counters.totalConflicts ≤ (knownClauses s).card

/-- The clauses counted are those without complementary literals that are known. -/
theorem mem_knownClauses {c : Finset Literal} :
    c ∈ knownClauses s ↔ c ∈ plainClauses s.trail.atoms ∧ Known s.trail s.store c.toList := by
  simp [knownClauses]

/-- It does not matter how often and in which order a known clause has its literals. -/
theorem toFinset_mem_knownClauses {c : List Literal} :
    c.toFinset ∈ knownClauses s ↔
      c.toFinset ∈ plainClauses s.trail.atoms ∧ Known s.trail s.store c := by
  rw [mem_knownClauses]
  refine and_congr_right fun _ => ⟨fun h => h.mono fun l hl => ?_, fun h => h.mono fun l hl => ?_⟩
  · exact List.mem_toFinset.1 (Finset.mem_toList.1 hl)
  · exact Finset.mem_toList.2 (List.mem_toFinset.2 hl)

/-- A step that forgets nothing leaves at least the clauses that were known. -/
theorem Remembers.knownClauses_subset (h : Remembers s s') : knownClauses s ⊆ knownClauses s' := by
  intro c hc
  rw [mem_knownClauses] at hc ⊢
  exact ⟨plainClauses_mono h.atoms_le hc.1, h.known _ hc.2⟩

/-- The clause without literals is never known, so there are more clauses than conflicts. -/
theorem Accounted.totalConflicts_lt (h : Accounted s) :
    s.counters.totalConflicts < (plainClauses s.atoms).card := by
  refine lt_of_le_of_lt h (Finset.card_lt_card ?_)
  have hsub : knownClauses s ⊆ plainClauses s.atoms := fun c hc => (mem_knownClauses.1 hc).1
  refine (Finset.ssubset_iff_of_subset hsub).2 ⟨∅, ?_, fun hmem => ?_⟩
  · simp [mem_plainClauses]
  · have hknown := (mem_knownClauses.1 hmem).2
    rw [Finset.toList_empty] at hknown
    exact not_known_nil hknown

/-- A step that forgets nothing and counts no conflict keeps the account. -/
theorem Accounted.of_remembers (h : Accounted s) (hr : Remembers s s')
    (hcounters : s'.counters.totalConflicts = s.counters.totalConflicts) : Accounted s' :=
  hcounters.le.trans (h.trans (Finset.card_le_card hr.knownClauses_subset))

/-- A step that learns a clause from each conflict that it counts keeps the account. -/
theorem Teaches.accounted {t : Trail} {r : ClauseStore} {events : Array Event}
    (h : Teaches t r s s' events) (hs : Accounted s) (hr : Remembers s s')
    (hatoms : t.atoms = s.trail.atoms) (hwf : t.WellFormed)
    (hknown : ∀ c, Known s.trail s.store c → Known t r c) : Accounted s' := by
  cases hlearnt : learntClauses events with
  | nil =>
    refine hs.of_remembers hr ?_
    rw [h.counts, hlearnt, List.length_nil, Nat.add_zero]
  | cons c rest =>
    have hc : c ∈ learntClauses events := hlearnt ▸ List.mem_cons_self
    have hnew := h.new c hc
    have hplain : c.toFinset ∈ plainClauses s'.trail.atoms :=
      plainClauses_mono hr.atoms_le (hatoms ▸ hnew.toFinset_mem)
    have hmem : c.toFinset ∈ knownClauses s' :=
      toFinset_mem_knownClauses.2 ⟨hplain, h.known c hc⟩
    have hold : c.toFinset ∉ knownClauses s := fun hold =>
      hnew.not_known hwf (hknown c (toFinset_mem_knownClauses.1 hold).2)
    have hless : (knownClauses s).card < (knownClauses s').card :=
      Finset.card_lt_card ((Finset.ssubset_iff_of_subset hr.knownClauses_subset).2 ⟨_, hmem, hold⟩)
    have hone := h.length_le
    have hcounts := h.counts
    unfold Accounted at hs ⊢
    omega

variable [Random.Source R]

/-- A turn keeps the account and makes no room for new atoms. -/
theorem Searching.accounted_turn (h : Searching assumptions s) (hs : Accounted s) {turn : Turn R}
    (hturn : s.turn assumptions = some turn) :
    Accounted turn.solver ∧ turn.solver.trail.atoms = s.trail.atoms := by
  have hpreserves := (h.answers_of_turn hturn).preserves
  have hp := propagated_propagate h.coherent h.settled
  refine ⟨(h.teaches_turn hturn).accounted hs hpreserves.remembers hp.derives.trail.atoms
    hp.coherent.trail fun c hc => ?_, hpreserves.atoms⟩
  exact (hc.extendTrail hp.derives.trail).extendStore hp.derives.store

/-- Every turn of a search keeps the account, by induction on the turns. -/
theorem Leads.accounted {n : Nat} {events : Array Event} (h : Leads assumptions n s events s')
    (hsearching : Searching assumptions s) (hs : Accounted s) :
    Accounted s' ∧ s'.trail.atoms = s.trail.atoms := by
  refine (h.invariant (P := fun u => Searching assumptions u ∧ Accounted u ∧
    u.trail.atoms = s.trail.atoms) ?_ ⟨hsearching, hs, rfl⟩).2
  rintro u turn hturn hverdict ⟨hunder, haccounted, hatoms⟩
  obtain ⟨hlater, hsame⟩ := hunder.accounted_turn haccounted hturn
  exact ⟨(Leads.turn hturn hverdict (.start _)).searching hunder, hlater, hsame.trans hatoms⟩

omit [Random.Source R] in
/-- The start of a solve keeps the account. -/
theorem Resting.accounted_beginSolve (h : Resting s) (hs : Accounted s) :
    Accounted s.beginSolve :=
  hs.of_remembers (.of_trail_store h.beginSolve_trail rfl) rfl

/-- A solve keeps the account, over every turn up to its answer. -/
theorem Ready.accounted_solve (h : Ready s) (hs : Accounted s) : Accounted s.solve.engine := by
  have hbegun := h.resting.accounted_beginSolve hs
  cases hconsistent : s.consistent with
  | false =>
    rw [solve_of_inconsistent hconsistent]
    exact hbegun.of_remembers (.of_trail_store (Trail.backjump_of_le
      (h.resting.beginSolve_trail ▸ h.resting.level.le)) rfl) rfl
  | true =>
    have hsearching := h.resting.searching hconsistent h.assumptions
    obtain ⟨result, hresult, hsolve⟩ := h.resting.turns_end hconsistent h.assumptions
    obtain ⟨n, events, s', turn, hleads, hturn, -, hengine, -⟩ :=
      exists_leads_of_turns hresult
    have hended : Accounted result.engine := by
      rw [hengine]
      exact ((hleads.searching hsearching).accounted_turn
        (hleads.accounted hsearching hbegun).1 hturn).1
    have hcoherent := (hsearching.turns .empty hresult).1.coherent
    rw [hsolve]
    exact hended.of_remembers
      ⟨(Trail.atoms_backjump _ 0).ge, fun c hc => hc.backjump hcoherent.trail 0⟩ rfl

/-- Every request keeps the account. -/
theorem Ready.accounted_serve (h : Ready s) (hs : Accounted s) (request : Engine.Request) :
    Accounted (Engine.serve s request) := by
  cases request with
  | solve => exact h.accounted_solve hs
  | add lit =>
    exact hs.of_remembers (h.remembers_add lit) (congrArg _ (s.counters_add lit))
  | assume lit => exact hs.of_remembers { s.remembers_ensure _ with } rfl
  | setOption name value =>
    obtain ⟨settings, random, hsame⟩ := s.setOption_eq name value
    show Accounted (s.setOption name value).1
    rw [hsame]
    exact hs.of_remembers (.of_trail_store rfl rfl) rfl
  | limit kind value =>
    obtain ⟨limits, hsame⟩ := s.setLimit_eq kind value
    show Accounted (s.setLimit kind value).1
    rw [hsame]
    exact hs.of_remembers (.of_trail_store rfl rfl) rfl
  | setTerminate callback => exact hs.of_remembers (.of_trail_store rfl rfl) rfl
  | setLearn bound given => exact hs.of_remembers (.of_trail_store rfl rfl) rfl
  | setImport offers => exact hs
  | setNotify given => exact hs

/-- The account is kept by every solver that has been given requests since it was made. -/
theorem accounted_serveAll (settings : Settings) (requests : List Engine.Request) :
    Accounted (Engine.serveAll (ofSettings settings : Solver R) requests) := by
  induction requests using List.reverseRecOn with
  | nil => exact Nat.zero_le _
  | append_singleton requests request ih =>
    rw [Engine.serveAll_append]
    exact (ready_serveAll settings requests).accounted_serve ih request

/-- Every learnt clause is new.  A turn of a search learns a clause from each conflict that it
counts: no clause stored by then, in this solve or before, is part of it, and none of its literals
has a value at level zero; it is known from then on.  So over the whole life of a solver, between
requests and within solves, the conflicts counted are fewer than the clauses over its atoms without
complementary literals, of which there are three to the power of the number of atoms. -/
theorem learnt_clauses_are_new (settings : Settings) (requests : List Engine.Request) :
    let s := Engine.serveAll (ofSettings settings : Solver R) requests
    s.counters.totalConflicts < (plainClauses s.atoms).card ∧
      (plainClauses s.atoms).card = 3 ^ s.atoms ∧
      ∀ s' turn, s.Visits s' → s'.turn s.assumptions.toList = some turn →
        let propagated := propagate s'.trail s'.store
        turn.solver.counters.totalConflicts =
            s'.counters.totalConflicts + (learntClauses turn.events).length ∧
          turn.solver.counters.totalConflicts < (plainClauses s.atoms).card ∧
          ∀ c ∈ learntClauses turn.events,
            New propagated.1 propagated.2.1 c ∧ Known turn.solver.trail turn.solver.store c := by
  intro s
  have hready : Ready s := ready_serveAll settings requests
  have haccounted : Accounted s := accounted_serveAll settings requests
  refine ⟨haccounted.totalConflicts_lt, card_plainClauses _, fun s' turn hvisits hturn => ?_⟩
  have hsearching := hready.searching_of_visits hvisits
  have hteaches := hsearching.teaches_turn hturn
  obtain ⟨hconsistent, n, events, hleads⟩ := hvisits
  obtain ⟨hvisited, hatoms⟩ := hleads.accounted
    (hready.resting.searching hconsistent hready.assumptions)
    (hready.resting.accounted_beginSolve haccounted)
  obtain ⟨hturned, hatoms'⟩ := hsearching.accounted_turn hvisited hturn
  refine ⟨hteaches.counts, ?_, fun c hc => ⟨hteaches.new c hc, hteaches.known c hc⟩⟩
  have hlt := hturned.totalConflicts_lt
  rwa [atoms, hatoms', hatoms, hready.resting.beginSolve_trail] at hlt

/-- Such a turn: at the interval one, the clause learnt from the first conflict is stored, and the
restart right after it takes back what it asserts. -/
theorem learnt_clauses_are_new_of_restart :
    let settings : Settings := { restartInterval := ⟨1, rfl⟩ }
    let clauses : List (List Int32) := [[-1, -2, 3], [-1, -2, -3]]
    let requests := clauses.flatMap (fun clause => clause.map Engine.Request.add ++ [.add 0]) ++
      [.assume 1, .assume 2]
    let s := Engine.serveAll (ofSettings settings : Solver Random.Pcg) requests
    ∃ s' turn, s.Visits s' ∧ s'.turn s.assumptions.toList = some turn ∧
      turn.solver.trail.literals = #[] ∧ learntClauses turn.events = [[⟨1, false⟩, ⟨0, false⟩]] ∧
      New (propagate s'.trail s'.store).1 (propagate s'.trail s'.store).2.1
        [⟨1, false⟩, ⟨0, false⟩] ∧
      Known turn.solver.trail turn.solver.store [⟨1, false⟩, ⟨0, false⟩] ∧
      turn.solver.counters.totalConflicts = 1 ∧ turn.solver.counters.totalConflicts < 3 ^ 3 := by
  intro settings clauses requests s
  have hconsistent : s.consistent = true := by decide +kernel
  let t₁ := (s.beginSolve.turn s.assumptions.toList).get (by decide +kernel)
  let t₂ := (t₁.solver.turn s.assumptions.toList).get (by decide +kernel)
  let t₃ := (t₂.solver.turn s.assumptions.toList).get (by decide +kernel)
  have hvisits : s.Visits t₂.solver :=
    ((visits_beginSolve hconsistent).turn_get _ (by decide +kernel)).turn_get _ (by decide +kernel)
  have hturn : t₂.solver.turn s.assumptions.toList = some t₃ := (Option.some_get _).symm
  have hlearnt : learntClauses t₃.events = [[⟨1, false⟩, ⟨0, false⟩]] := by decide +kernel
  have hnone : t₂.solver.counters.totalConflicts = 0 := by decide +kernel
  have hatoms : s.atoms = 3 := by decide +kernel
  obtain ⟨-, hcard, hsearch⟩ := learnt_clauses_are_new (R := Random.Pcg) settings requests
  obtain ⟨hcounts, hlt, hnew⟩ := hsearch _ _ hvisits hturn
  obtain ⟨hfresh, hknown⟩ := hnew _ (hlearnt ▸ List.mem_singleton_self _)
  rw [hnone, hlearnt] at hcounts
  refine ⟨_, _, hvisits, hturn, by decide +kernel, hlearnt, hfresh, hknown, hcounts, ?_⟩
  exact hlt.trans_eq (hcard.trans (congrArg _ hatoms))

end Solver

end Cdcl

end IncrementalSat
