import IncrementalSat.Cdcl.Search
import IncrementalSat.Proofs.Learning

/-!
# What a search keeps and what it leaves behind

Between two turns of a search, trail and store are coherent, all clauses are settled up to where
propagation goes on, no atom is marked and the assumptions are upheld.  Every step keeps what a
client has set and the valuations that respect trail and store.  A turn either goes on and makes a
clause known or the trail longer, or it ends the search with a verdict that is right for those
valuations.
-/

set_option autoImplicit false

namespace IncrementalSat

/-! ## Events -/

/-- No check of a valuation among the events has found a false clause. -/
def Unfailing (events : Array Event) : Prop :=
  ∀ e ∈ events, e ≠ .checked false

namespace Unfailing

variable {xs ys : Array Event} {e : Event}

/-- Where nothing is told, no check fails. -/
theorem empty : Unfailing #[] := by
  intro e he
  simp at he

/-- One more event that tells of no failed check may come last. -/
theorem push (h : Unfailing xs) (he : e ≠ .checked false) : Unfailing (xs.push e) := by
  intro d hd
  rcases Array.mem_push.1 hd with hd | rfl
  · exact h d hd
  · exact he

/-- A single event tells of no failed check unless it is one. -/
theorem singleton (he : e ≠ .checked false) : Unfailing #[e] :=
  empty.push he

/-- Events that tell of no failed check may follow one another. -/
theorem append (h : Unfailing xs) (h' : Unfailing ys) : Unfailing (xs ++ ys) := by
  intro e he
  exact (Array.mem_append.1 he).elim (h e) (h' e)

end Unfailing

namespace Cdcl

namespace Solver

variable {R : Type}

/-! ## What the search keeps -/

/-- A step of the search leaves alone what a client has set, keeps the valuations that respect trail
and store, and forgets no known clause. -/
structure Preserves (s s' : Solver R) : Prop where
  settings : s'.settings = s.settings
  limits : s'.limits = s.limits
  exportBound : s'.exportBound = s.exportBound
  openClause : s'.openClause = s.openClause
  assumptions : s'.assumptions = s.assumptions
  answer : s'.terminate.map Terminate.answer = s.terminate.map Terminate.answer
  atoms : s'.trail.atoms = s.trail.atoms
  respects_iff : ∀ v, Respects v s'.trail s'.store ↔ Respects v s.trail s.store
  known : ∀ c, Known s.trail s.store c → Known s'.trail s'.store c

namespace Preserves

variable {s s' s'' : Solver R}

/-- A step that does nothing keeps everything. -/
theorem refl (s : Solver R) : s.Preserves s :=
  ⟨rfl, rfl, rfl, rfl, rfl, rfl, rfl, fun _ => Iff.rfl, fun _ hc => hc⟩

/-- What each of two steps keeps, both keep. -/
theorem trans (h : s.Preserves s') (h' : s'.Preserves s'') : s.Preserves s'' where
  settings := h'.settings.trans h.settings
  limits := h'.limits.trans h.limits
  exportBound := h'.exportBound.trans h.exportBound
  openClause := h'.openClause.trans h.openClause
  assumptions := h'.assumptions.trans h.assumptions
  answer := h'.answer.trans h.answer
  atoms := h'.atoms.trans h.atoms
  respects_iff v := (h'.respects_iff v).trans (h.respects_iff v)
  known c hc := h'.known c (h.known c hc)

/-- The trail and the store of a solver may be exchanged for others that stand for the same. -/
theorem of_trail_store {u : Trail} {r : ClauseStore} (hatoms : u.atoms = s.trail.atoms)
    (hrespects : ∀ v, Respects v u r ↔ Respects v s.trail s.store)
    (hknown : ∀ c, Known s.trail s.store c → Known u r c) :
    s.Preserves { s with trail := u, store := r } :=
  ⟨rfl, rfl, rfl, rfl, rfl, rfl, hatoms, hrespects, hknown⟩

end Preserves

/-- Nothing makes a search stop before an answer. -/
structure Unhindered (s : Solver R) : Prop where
  conflicts : s.limits.conflicts = none
  decisions : s.limits.decisions = none
  /-- The terminate callback never asks to stop. -/
  patient : ∀ answer ∈ s.terminate.map Terminate.answer, ∀ polls, answer polls = false

/-- Limits and callback are kept, so a search that nothing stops goes on unhindered. -/
theorem Preserves.unhindered {s s' : Solver R} (h : s.Preserves s') (hs : s.Unhindered) :
    s'.Unhindered where
  conflicts := by rw [h.limits, hs.conflicts]
  decisions := by rw [h.limits, hs.decisions]
  patient := by rw [h.answer]; exact hs.patient

/-- Some clause over the atoms comes to be known, or the trail becomes longer. -/
def Progress (s s' : Solver R) : Prop :=
  (∃ c : List Literal, (c.map Literal.atom).Nodup ∧ (∀ l ∈ c, l.atom < s.trail.atoms) ∧
    ¬ Known s.trail s.store c ∧ Known s'.trail s'.store c) ∨
  s.trail.literals.size < s'.trail.literals.size

/-- The search is under way: what holds of the solver at every moment of it. -/
structure Running (assumptions : List Literal) (s : Solver R) : Prop where
  coherent : Coherent s.trail s.store
  unmarked : Unmarked s.seen s.trail.atoms
  upholds : Upholds assumptions s.trail
  consistent : s.consistent = true
  failed_eq : s.failed = []

/-- The search is between two turns: all clauses are settled up to where propagation goes on. -/
structure Searching (assumptions : List Literal) (s : Solver R) : Prop
    extends Running assumptions s where
  settled : Settled s.trail s.store s.trail.head

/-- The valuations that a solver allows are those that respect its trail and store, and none once
the clauses are known to have no model. -/
def Allows (s : Solver R) (v : Valuation) : Prop :=
  s.consistent = true ∧ Respects v s.trail s.store

/-- What a solver answers with a verdict is right for the valuations that are allowed: its valuation
is total and allowed, and its failed assumptions hold in no allowed one. -/
def Right (assumptions : List Literal) (allowed : Valuation → Prop) (s : Solver R) :
    Verdict → Prop
  | .satisfiable =>
    (∀ a < s.trail.atoms, s.model.getD a none ≠ none) ∧
      ∀ v : Valuation, (∀ a b, s.model.getD a none = some b → v a = b) →
        allowed v ∧ ∀ l ∈ assumptions, l.Holds v
  | .unsatisfiable =>
    (∀ l ∈ s.failed, l ∈ assumptions) ∧ ∀ v, allowed v → ¬ ∀ l ∈ s.failed, l.Holds v
  | .unknown => True

/-- What the search leaves behind with a verdict. -/
structure Concludes (assumptions : List Literal) (s s' : Solver R) (verdict : Verdict) :
    Prop where
  preserves : s.Preserves s'
  coherent : Coherent s'.trail s'.store
  unmarked : Unmarked s'.seen s'.trail.atoms
  settled : s'.consistent = true →
    Settled (s'.trail.backjump 0) s'.store (s'.trail.backjump 0).head
  refuted : s'.consistent = false → ∀ v, ¬ Respects v s.trail s.store
  right : Right assumptions (Respects · s.trail s.store) s' verdict
  unknown : verdict = .unknown → ¬ s.Unhindered

/-- A turn goes on with progress, or ends the search as it should; no check of a valuation
fails. -/
structure Answers (assumptions : List Literal) (s : Solver R) (turn : Turn R) : Prop where
  events : Unfailing turn.events
  outcome : match turn.verdict with
    | none => s.Preserves turn.solver ∧ Searching assumptions turn.solver ∧ s.Progress turn.solver
    | some verdict => Concludes assumptions s turn.solver verdict

section Transfer

variable {assumptions : List Literal} {s s' s'' : Solver R}

/-- Whether an answer is right depends only on which valuations are allowed. -/
theorem Right.congr {allowed allowed' : Valuation → Prop} (h : ∀ v, allowed v ↔ allowed' v)
    {verdict : Verdict} (hr : Right assumptions allowed s verdict) :
    Right assumptions allowed' s verdict := by
  cases verdict with
  | satisfiable => exact ⟨hr.1, fun v hv => ⟨(h v).1 (hr.2 v hv).1, (hr.2 v hv).2⟩⟩
  | unsatisfiable => exact ⟨hr.1, fun v hv => hr.2 v ((h v).2 hv)⟩
  | unknown => trivial

/-- What a step leaves behind with a verdict may be told of an earlier solver. -/
theorem Concludes.of_preserves (h : s.Preserves s') {verdict : Verdict}
    (hc : Concludes assumptions s' s'' verdict) : Concludes assumptions s s'' verdict :=
  { hc with
    preserves := h.trans hc.preserves
    refuted := fun hs v hv => hc.refuted hs v ((h.respects_iff v).2 hv)
    right := hc.right.congr h.respects_iff
    unknown := fun hv hs => hc.unknown hv (h.unhindered hs) }

/-- Progress may be told of an earlier solver, if its trail is not longer. -/
theorem Progress.of_preserves (h : s.Preserves s')
    (hsize : s.trail.literals.size ≤ s'.trail.literals.size) (hp : s'.Progress s'') :
    s.Progress s'' := by
  rcases hp with ⟨c, hdistinct, hroom, hold, hnew⟩ | hlt
  · exact .inl ⟨c, hdistinct, h.atoms ▸ hroom, fun hk => hold (h.known c hk), hnew⟩
  · exact .inr (lt_of_le_of_lt hsize hlt)

/-- A step that does not shorten the trail may come before a turn. -/
theorem Answers.of_preserves (h : s.Preserves s')
    (hsize : s.trail.literals.size ≤ s'.trail.literals.size) {turn : Turn R}
    (ht : Answers assumptions s' turn) : Answers assumptions s turn := by
  refine ⟨ht.events, ?_⟩
  have hout := ht.outcome
  cases hv : turn.verdict with
  | none =>
    rw [hv] at hout
    exact ⟨h.trans hout.1, hout.2.1, hout.2.2.of_preserves h hsize⟩
  | some verdict =>
    rw [hv] at hout
    exact hout.of_preserves h

/-- Whatever a turn answers, it leaves alone what a client has set and forgets no known clause. -/
theorem Answers.preserves {turn : Turn R} (h : Answers assumptions s turn) :
    s.Preserves turn.solver := by
  have hout := h.outcome
  cases hverdict : turn.verdict with
  | none =>
    rw [hverdict] at hout
    exact hout.1
  | some verdict =>
    rw [hverdict] at hout
    exact hout.preserves

/-- A search that is under way may end with what does not touch its trail and store. -/
theorem Running.concludes (h : Running assumptions s)
    (hs : Settled (s.trail.backjump 0) s.store (s.trail.backjump 0).head) {verdict : Verdict}
    (hpreserves : s.Preserves s') (htrail : s'.trail = s.trail)
    (hstore : s'.store = s.store) (hconsistent : s'.consistent = true)
    (hseen : Unmarked s'.seen s.trail.atoms)
    (hright : Right assumptions (Respects · s.trail s.store) s' verdict)
    (hunknown : verdict = .unknown → ¬ s.Unhindered) : Concludes assumptions s s' verdict where
  preserves := hpreserves
  coherent := by
    rw [htrail, hstore]
    exact h.coherent
  unmarked := by
    rw [htrail]
    exact hseen
  settled _ := by
    rw [htrail, hstore]
    exact hs
  refuted hc := absurd (hconsistent.symm.trans hc) Bool.true_eq_false.mp
  right := hright
  unknown := hunknown

end Transfer

end Solver

end Cdcl

end IncrementalSat
