import IncrementalSat.Proofs.LubyNumbers
import IncrementalSat.Proofs.Truncation
import IncrementalSat.Random.Pcg

/-!
# Restarts follow the Luby schedule

Of the counters, the schedule of restarts reads and writes four: the conflicts since the last
restart and in all, the restarts, and the generator.  None of them is reset by a solve.  A turn
leaves them alone or counts one conflict, and a restart that is due moves the generator on.  So with
restarts at a fixed interval the conflicts in all are those since the last restart and the interval
times the Luby numbers so far, over the whole life of a solver.
-/

set_option autoImplicit false

namespace IncrementalSat.Cdcl

/-- The sum of the first Luby numbers. -/
def lubySum (n : Nat) : Nat :=
  ∑ i ∈ Finset.range n, lubyNumber (i + 1)

/-- One Luby number more is added to the sum. -/
theorem lubySum_succ (n : Nat) : lubySum (n + 1) = lubySum n + lubyNumber (n + 1) :=
  Finset.sum_range_succ ..

/-- The sums of Luby numbers grow. -/
theorem lubySum_mono : Monotone lubySum :=
  monotone_nat_of_le_succ fun n => by
    rw [lubySum_succ]
    exact Nat.le_add_right _ _

/-- Restarts are made, at an interval. -/
def Settings.RestartsEvery (c : Settings) (interval : Nat) : Prop :=
  c.restart.val = 1 ∧ c.restartInterval.val = interval

/-- The product that decides on a restart fits in 64 bits. -/
theorem Settings.restartInterval_mul_lt (c : Settings) (element : UInt32) :
    element.toNat * c.restartInterval.val.toNat < 2 ^ 64 := by
  obtain ⟨value, hvalue⟩ := c.restartInterval
  have hle : value ≤ 1000000 := by
    have := (Bool.and_eq_true_iff.1 hvalue).2
    exact of_decide_eq_true this
  have helement := element.toNat_lt
  calc element.toNat * value.toNat ≤ 2 ^ 32 * 1000000 :=
        Nat.mul_le_mul helement.le (by omega)
    _ < 2 ^ 64 := by decide

/-- The counters with one more conflict, and with a restart if it is due. -/
def Counters.afterConflict (settings : Settings) (c : Counters) : Counters :=
  let counted :=
    { c with
      conflicts := c.conflicts + 1
      totalConflicts := c.totalConflicts + 1
      freshConflicts := c.freshConflicts + 1 }
  if settings.restart.val ≠ 0 ∧
      c.luby.element.toNat * settings.restartInterval.val.toNat ≤ c.freshConflicts + 1 then
    { counted with luby := c.luby.advance, freshConflicts := 0, restarts := c.restarts + 1 }
  else counted

/-- Counters agree in what concerns restarts. -/
structure Counters.SamePace (c d : Counters) : Prop where
  total : d.totalConflicts = c.totalConflicts
  fresh : d.freshConflicts = c.freshConflicts
  restarts : d.restarts = c.restarts
  luby : d.luby = c.luby

/-- The counters are on schedule: the conflicts are those since the last restart and, by the
interval, those of the Luby numbers so far; the next restart is still to come; and the generator is
at the Luby number for it. -/
structure OnSchedule (interval : Nat) (c : Counters) : Prop where
  total : c.totalConflicts = c.freshConflicts + interval * lubySum c.restarts
  fresh_lt : c.freshConflicts < interval * lubyNumber (c.restarts + 1)
  element : c.luby.element.toNat = lubyNumber (c.restarts + 1)

/-- The generator has made a move for each restart, and as long as it lasts the counters are on
schedule. -/
structure Paced (interval : Nat) (c : Counters) : Prop where
  luby : c.luby = Luby.advanceBy c.restarts Luby.start
  onSchedule : Luby.Lasts c.restarts → OnSchedule interval c

section Counters

variable {interval : Nat} {settings : Settings} {c d : Counters}

/-- Counters keep their own pace. -/
theorem Counters.SamePace.refl (c : Counters) : c.SamePace c :=
  ⟨rfl, rfl, rfl, rfl⟩

/-- Counters at the same pace are on schedule together. -/
theorem Counters.SamePace.paced (h : c.SamePace d) (hc : Paced interval c) : Paced interval d := by
  obtain ⟨htotal, hfresh, hrestarts, hluby⟩ := h
  refine ⟨by rw [hluby, hrestarts, hc.luby], fun hlasts => ?_⟩
  rw [hrestarts] at hlasts
  obtain ⟨ht, hf, he⟩ := hc.onSchedule hlasts
  exact ⟨by rw [htotal, hfresh, hrestarts, ht], by rw [hfresh, hrestarts]; exact hf,
    by rw [hluby, hrestarts, he]⟩

/-- A restart has been made exactly when the conflicts have reached the interval times the Luby
numbers up to it. -/
theorem OnSchedule.le_restarts_iff (h : OnSchedule interval c) (k : Nat) :
    k ≤ c.restarts ↔ interval * lubySum k ≤ c.totalConflicts := by
  constructor
  · intro hk
    rw [h.total]
    exact (Nat.mul_le_mul_left _ (lubySum_mono hk)).trans (Nat.le_add_left _ _)
  · intro hle
    by_contra hk
    have hnext : interval * lubySum (c.restarts + 1) ≤ interval * lubySum k :=
      Nat.mul_le_mul_left _ (lubySum_mono (Nat.lt_of_not_le hk))
    rw [lubySum_succ, Nat.mul_add] at hnext
    have htotal := h.total
    have hfresh := h.fresh_lt
    omega

/-- A fresh solver is on schedule. -/
theorem Paced.start (hpos : 0 < interval) : Paced interval {} where
  luby := rfl
  onSchedule _ :=
    { total := by simp [lubySum]
      fresh_lt := Nat.mul_pos hpos (lubyNumber_pos Nat.one_pos)
      element := Luby.element_advanceBy fun k hk => absurd hk (Nat.not_lt_zero k) }

/-- Another conflict keeps the counters on schedule. -/
theorem Paced.afterConflict (h : Paced interval c) (hsettings : settings.RestartsEvery interval) :
    Paced interval (c.afterConflict settings) := by
  obtain ⟨hrestart, hinterval⟩ := hsettings
  have hvalue : settings.restartInterval.val.toNat = interval := by
    rw [hinterval, Int.toNat_natCast]
  unfold Counters.afterConflict
  dsimp only
  rw [hvalue, hrestart]
  by_cases hdue : c.luby.element.toNat * interval ≤ c.freshConflicts + 1
  · rw [if_pos ⟨one_ne_zero, hdue⟩]
    have hluby : c.luby.advance = Luby.advanceBy (c.restarts + 1) Luby.start := by
      rw [Luby.advanceBy_succ, h.luby]
    refine ⟨hluby, fun hlasts => ?_⟩
    obtain ⟨htotal, hfresh, helement⟩ := h.onSchedule (hlasts.mono (Nat.le_succ _))
    rw [helement, Nat.mul_comm] at hdue
    refine ⟨?_, ?_, ?_⟩
    · show c.totalConflicts + 1 = 0 + interval * lubySum (c.restarts + 1)
      rw [lubySum_succ, Nat.mul_add, htotal]
      omega
    · have hpos : 0 < interval := Nat.pos_of_mul_pos_right (Nat.zero_lt_of_lt hfresh)
      exact Nat.mul_pos hpos (lubyNumber_pos (Nat.succ_pos _))
    · show c.luby.advance.element.toNat = lubyNumber (c.restarts + 1 + 1)
      rw [hluby, Luby.element_advanceBy hlasts]
  · rw [if_neg fun hd => hdue hd.2]
    refine ⟨h.luby, fun hlasts => ?_⟩
    obtain ⟨htotal, hfresh, helement⟩ := h.onSchedule hlasts
    rw [helement, Nat.mul_comm] at hdue
    refine ⟨?_, Nat.lt_of_not_le hdue, helement⟩
    show c.totalConflicts + 1 = c.freshConflicts + 1 + interval * lubySum c.restarts
    omega

end Counters

namespace Solver

open Engine (Request)

variable {R : Type} {s s' : Solver R} {interval : Nat}

/-! ## Turns -/

/-- A step of the search keeps the settings, and leaves the schedule of restarts alone or counts one
conflict. -/
structure Steps (s s' : Solver R) : Prop where
  settings : s'.settings = s.settings
  counters : s.counters.SamePace s'.counters ∨ s'.counters = s.counters.afterConflict s.settings

/-- A step may leave settings and counters alone. -/
theorem Steps.of_counters_eq (hsettings : s'.settings = s.settings)
    (hcounters : s'.counters = s.counters) : Steps s s' :=
  ⟨hsettings, .inl (hcounters ▸ .refl _)⟩

/-- A step of the search keeps the counters on schedule. -/
theorem Steps.paced (h : Steps s s') (hs : Paced interval s.counters)
    (hsettings : s.settings.RestartsEvery interval) : Paced interval s'.counters := by
  rcases h.counters with hsame | hconflict
  · exact hsame.paced hs
  · rw [hconflict]
    exact hs.afterConflict hsettings

/-- A step makes at most one restart, right after the conflict that it counts. -/
theorem Steps.restart (h : Steps s s') (hne : s'.counters.restarts ≠ s.counters.restarts) :
    s'.counters.restarts = s.counters.restarts + 1 ∧
      s'.counters.totalConflicts = s.counters.totalConflicts + 1 ∧
      s'.counters.freshConflicts = 0 := by
  rcases h.counters with hsame | hconflict
  · exact absurd hsame.restarts hne
  · rw [hconflict, Counters.afterConflict] at hne ⊢
    dsimp only at hne ⊢
    split at hne
    · rename_i hdue
      rw [if_pos hdue]
      exact ⟨rfl, rfl, rfl⟩
    · exact absurd rfl hne

/-- A restart counts, if it is due. -/
theorem counters_restartIfDue (s : Solver R) (analysis : Analysis) :
    (s.afterAnalysis analysis).restartIfDue.1.settings = s.settings ∧
      (s.afterAnalysis analysis).restartIfDue.1.counters =
        s.counters.afterConflict s.settings := by
  have hframe : (s.afterAnalysis analysis).settings = s.settings ∧
      (s.afterAnalysis analysis).counters =
        { s.counters with
          conflicts := s.counters.conflicts + 1
          totalConflicts := s.counters.totalConflicts + 1
          freshConflicts := s.counters.freshConflicts + 1 } := by
    unfold afterAnalysis assertLearnt
    dsimp only
    split
    · exact ⟨rfl, rfl⟩
    · exact ⟨rfl, rfl⟩
  obtain ⟨hsettings, hcounters⟩ := hframe
  unfold restartIfDue Counters.afterConflict
  by_cases hdue : (s.afterAnalysis analysis).restartDue = true
  · have hdue' := hdue
    rw [restartDue, hsettings, hcounters] at hdue'
    simp only [Bool.and_eq_true, bne_iff_ne, decide_eq_true_eq] at hdue'
    rw [if_pos hdue, if_pos hdue']
    exact ⟨hsettings, by rw [hcounters]⟩
  · have hdue' := hdue
    rw [restartDue, hsettings, hcounters] at hdue'
    simp only [Bool.and_eq_true, bne_iff_ne, decide_eq_true_eq] at hdue'
    rw [if_neg hdue, if_neg hdue']
    exact ⟨hsettings, hcounters⟩

/-- What is done about a conflict counts it, and a restart if that is due, unless the search ends.
-/
theorem steps_onConflict {key : Nat} {turn : Turn R} (h : s.onConflict key = some turn) :
    Steps s turn.solver := by
  unfold onConflict at h
  split at h
  · obtain rfl := Option.some.inj h
    exact .of_counters_eq rfl rfl
  split at h
  · obtain rfl := Option.some.inj h
    exact .of_counters_eq rfl rfl
  · obtain ⟨⟨learnt, events⟩, hlearn, rfl⟩ := Option.map_eq_some_iff.1 h
    rw [learnFrom_eq] at hlearn
    obtain ⟨analysis, -, hresult⟩ := Option.map_eq_some_iff.1 hlearn
    obtain ⟨rfl, rfl⟩ := Prod.mk.inj hresult
    obtain ⟨hsettings, hcounters⟩ := s.counters_restartIfDue analysis
    exact ⟨hsettings, .inr hcounters⟩

variable [Random.Source R] {assumptions : List Literal}

/-- A decision leaves the schedule of restarts alone. -/
theorem samePace_makeDecision (s : Solver R) :
    s.makeDecision.solver.settings = s.settings ∧
      s.counters.SamePace s.makeDecision.solver.counters := by
  have hsame := s.choose_eq
  rw [makeDecision_eq]
  cases hchosen : s.choose with
  | mk s₁ rest =>
    obtain ⟨chosen, events⟩ := rest
    rw [hchosen] at hsame
    obtain ⟨random, rfl⟩ : ∃ random, s₁ = { s with random := random } := ⟨_, hsame⟩
    cases chosen with
    | none => exact ⟨rfl, .refl _⟩
    | some l =>
      dsimp only
      unfold decideOn
      split
      · exact ⟨rfl, .refl _⟩
      · exact ⟨rfl, rfl, rfl, rfl, rfl⟩

/-- At a fixpoint the schedule of restarts is left alone. -/
theorem samePace_onFixpoint (s : Solver R) (assumptions : List Literal) :
    (s.onFixpoint assumptions).solver.settings = s.settings ∧
      s.counters.SamePace (s.onFixpoint assumptions).solver.counters := by
  unfold onFixpoint
  split
  · exact samePace_makeDecision _
  · exact ⟨rfl, .refl _⟩
  · exact ⟨rfl, .refl _⟩

/-- What is done at a fixpoint is a step of the search. -/
theorem steps_onFixpoint (s : Solver R) (assumptions : List Literal) :
    Steps s (s.onFixpoint assumptions).solver :=
  ⟨(s.samePace_onFixpoint assumptions).1, .inl (s.samePace_onFixpoint assumptions).2⟩

/-- A turn is a step of the search. -/
theorem steps_turn {turn : Turn R} (h : s.turn assumptions = some turn) : Steps s turn.solver := by
  rcases turn_cases h with rfl | ⟨advanced, hadvance, rfl⟩
  · exact .of_counters_eq rfl rfl
  unfold advance at hadvance
  dsimp only at hadvance
  split at hadvance
  · exact { steps_onConflict hadvance with }
  · obtain rfl := Option.some.inj hadvance
    exact { steps_onFixpoint _ _ with }

/-- Where restarts are made at an interval, turns keep the pace. -/
theorem Leads.paced {n : Nat} {events : Array Event} (h : Leads assumptions n s events s')
    (hs : Paced interval s.counters) (hsettings : s.settings.RestartsEvery interval) :
    Paced interval s'.counters ∧ s'.settings.RestartsEvery interval := by
  refine h.invariant
    (P := fun u => Paced interval u.counters ∧ u.settings.RestartsEvery interval) ?_ ⟨hs, hsettings⟩
  rintro u turn hturn - ⟨hpaced, hevery⟩
  have hsteps := steps_turn hturn
  exact ⟨hsteps.paced hpaced hevery, hsteps.settings ▸ hevery⟩

/-- A search that ends keeps the pace. -/
theorem paced_turns {fuel : Nat} {xs : Array Event} {result : Solved (Solver R)}
    (h : turns assumptions fuel xs s = some result) (hs : Paced interval s.counters)
    (hsettings : s.settings.RestartsEvery interval) : Paced interval result.engine.counters := by
  obtain ⟨n, events, s', turn, hleads, hturn, -, hengine, -⟩ := exists_leads_of_turns h
  obtain ⟨hpaced, hsettings'⟩ := hleads.paced hs hsettings
  rw [hengine]
  exact (steps_turn hturn).paced hpaced hsettings'

omit [Random.Source R] in
/-- The beginning of a solve does not concern the schedule of restarts. -/
theorem paced_beginSolve (h : Paced interval s.counters) :
    Paced interval s.beginSolve.counters := by
  have hsame : s.counters.SamePace s.beginSolve.counters := ⟨rfl, rfl, rfl, rfl⟩
  exact hsame.paced h

/-- A solve keeps the pace. -/
theorem paced_solve (h : Paced interval s.counters)
    (hsettings : s.settings.RestartsEvery interval) :
    Paced interval s.solve.engine.counters := by
  have hbegun := paced_beginSolve h
  unfold Solver.solve
  dsimp only
  cases hsearch : s.beginSolve.search? s.assumptions.toList with
  | none => exact hbegun
  | some result =>
    unfold search? at hsearch
    split at hsearch
    · exact paced_turns hsearch hbegun hsettings
    · obtain rfl := Option.some.inj hsearch
      exact hbegun

/-! ## Requests -/

omit [Random.Source R] in
/-- Adding counts nothing. -/
theorem counters_add (s : Solver R) (lit : Int32) : (s.add lit).1.counters = s.counters := by
  unfold Solver.add
  split
  · unfold addClause
    dsimp only
    split
    · rfl
    split
    · rfl
    split
    · rfl
    split
    · rfl
    · rfl
    · rfl
  · rfl

/-- Only a solve counts anything. -/
theorem counters_serve {request : Request} (h : request ≠ .solve) :
    (Engine.serve s request).counters = s.counters := by
  cases request with
  | setOption name value =>
    obtain ⟨settings, random, hsame⟩ := s.setOption_eq name value
    show (s.setOption name value).1.counters = _
    rw [hsame]
  | limit kind value =>
    obtain ⟨limits, hsame⟩ := s.setLimit_eq kind value
    show (s.setLimit kind value).1.counters = _
    rw [hsame]
  | add lit => exact s.counters_add lit
  | solve => exact absurd rfl h
  | _ => rfl

/-- A request keeps the pace, if a solve makes restarts at the interval. -/
theorem paced_serve (h : Paced interval s.counters) {request : Request}
    (hsettings : request = .solve → s.settings.RestartsEvery interval) :
    Paced interval (Engine.serve s request).counters := by
  by_cases hsolve : request = .solve
  · subst hsolve
    exact paced_solve h (hsettings rfl)
  · rw [counters_serve hsolve]
    exact h

/-- A solver made with settings keeps the pace under any requests, if each solve among them makes
restarts at the interval. -/
theorem paced_serveAll {settings : Settings} {requests : List Request} (hpos : 0 < interval)
    (hstays : ∀ before, before ++ [.solve] <+: requests →
      (Engine.serveAll (ofSettings settings : Solver R) before).settings.RestartsEvery interval) :
    Paced interval (Engine.serveAll (ofSettings settings : Solver R) requests).counters := by
  induction requests using List.reverseRecOn with
  | nil => exact Paced.start hpos
  | append_singleton requests request ih =>
    have hpaced := ih fun before hbefore => hstays before (hbefore.trans (List.prefix_append _ _))
    rw [Engine.serveAll_append]
    exact paced_serve hpaced fun hsolve => hstays requests (hsolve ▸ List.prefix_rfl)

/-- Over the life of a solver whose solves make restarts at an interval, and as long as the
generator lasts, the counters are on schedule between requests, and in every further solve with the
interval before and after each turn.  A restart has been made exactly when the conflicts have
reached the interval times the Luby numbers up to it, and comes right after the conflict by which
they do.  The product that decides on it fits in 64 bits. -/
theorem restarts_follow_luby {settings : Settings} {requests : List Request} (hpos : 0 < interval)
    (hstays : ∀ before, before ++ [.solve] <+: requests →
      (Engine.serveAll (ofSettings settings : Solver R) before).settings.RestartsEvery interval) :
    let s := Engine.serveAll (ofSettings settings : Solver R) requests
    (Luby.Lasts s.counters.restarts → OnSchedule interval s.counters) ∧
    (s.settings.RestartsEvery interval →
      ∀ n events s', Leads s.assumptions.toList n s.beginSolve events s' →
        (Luby.Lasts s'.counters.restarts → OnSchedule interval s'.counters) ∧
        s'.counters.luby.element.toNat * s'.settings.restartInterval.val.toNat < 2 ^ 64 ∧
        ∀ turn, s'.turn s.assumptions.toList = some turn →
          let c := turn.solver.counters
          Luby.Lasts c.restarts →
            OnSchedule interval c ∧
            (∀ k, k ≤ c.restarts ↔ interval * lubySum k ≤ c.totalConflicts) ∧
            (c.restarts ≠ s'.counters.restarts →
              c.restarts = s'.counters.restarts + 1 ∧
              c.totalConflicts = s'.counters.totalConflicts + 1 ∧
              c.totalConflicts = interval * lubySum c.restarts)) := by
  intro s
  have hpaced : Paced interval s.counters := paced_serveAll hpos hstays
  refine ⟨hpaced.onSchedule, fun hsettings n events s' hleads => ?_⟩
  obtain ⟨hpaced', hsettings'⟩ := hleads.paced (paced_beginSolve hpaced) hsettings
  refine ⟨hpaced'.onSchedule, s'.settings.restartInterval_mul_lt _, fun turn hturn => ?_⟩
  intro c hlasts
  have hsteps := steps_turn hturn
  have honSchedule := (hsteps.paced hpaced' hsettings').onSchedule hlasts
  refine ⟨honSchedule, honSchedule.le_restarts_iff, fun hne => ?_⟩
  obtain ⟨hrestarts, htotal, hfresh⟩ := hsteps.restart hne
  refine ⟨hrestarts, htotal, ?_⟩
  rw [honSchedule.total, hfresh, Nat.zero_add]

/-- Such a life: at the interval one, a solve whose two conflicts are each followed by a restart;
the first of them is found by the third turn, after one for each assumption. -/
theorem restarts_follow_luby_of_conflicts :
    let settings : Settings := { restartInterval := ⟨1, rfl⟩ }
    let clauses : List (List Int32) := [[-1, -2, 3], [-1, -2, -3], [-1, 2, 4], [-1, 2, -4]]
    let requests := clauses.flatMap (fun clause => clause.map Request.add ++ [.add 0]) ++
      [.assume 1, .assume 2]
    let s := Engine.serveAll (ofSettings settings : Solver Random.Pcg) requests
    let later := Engine.serveAll (ofSettings settings : Solver Random.Pcg) (requests ++ [.solve])
    (later.counters.totalConflicts = 2 ∧ later.counters.restarts = 2 ∧
      Luby.Lasts later.counters.restarts ∧ OnSchedule 1 later.counters) ∧
    ∃ events s' turn, Leads s.assumptions.toList 2 s.beginSolve events s' ∧
      s'.turn s.assumptions.toList = some turn ∧ s'.counters.restarts = 0 ∧
      turn.solver.counters.restarts = 1 ∧
      turn.solver.counters.totalConflicts = 1 * lubySum turn.solver.counters.restarts := by
  intro settings clauses requests s later
  have hsettings : ∀ n < 20,
      (Engine.serveAll (ofSettings settings : Solver Random.Pcg)
        ((requests ++ [Request.solve]).take n)).settings.restart.val = 1 ∧
      (Engine.serveAll (ofSettings settings : Solver Random.Pcg)
        ((requests ++ [Request.solve]).take n)).settings.restartInterval.val = 1 := by
    decide +kernel
  have hstays : ∀ before, before ++ [.solve] <+: requests ++ [.solve] →
      (Engine.serveAll (ofSettings settings : Solver Random.Pcg)
        before).settings.RestartsEvery 1 := by
    intro before hbefore
    have hprefix : before <+: requests ++ [.solve] := (List.prefix_append _ _).trans hbefore
    rw [List.prefix_iff_eq_take.1 hprefix]
    exact hsettings _ (Nat.lt_succ_of_le hprefix.length_le)
  have hlasts : ∀ n ≤ 2, Luby.Lasts n := by
    intro n hn
    refine Luby.Lasts.mono ?_ hn
    unfold Luby.Lasts
    decide +kernel
  have hrestarts : later.counters.restarts = 2 := by decide +kernel
  let t₁ := (s.beginSolve.turn s.assumptions.toList).get (by decide +kernel)
  let t₂ := (t₁.solver.turn s.assumptions.toList).get (by decide +kernel)
  let t₃ := (t₂.solver.turn s.assumptions.toList).get (by decide +kernel)
  have hleads : Leads s.assumptions.toList 2 s.beginSolve _ t₂.solver :=
    .turn (Option.some_get _).symm (by decide +kernel)
      (.turn (Option.some_get _).symm (by decide +kernel) (.start _))
  have hturn : t₂.solver.turn s.assumptions.toList = some t₃ := (Option.some_get _).symm
  have hnone : t₂.solver.counters.restarts = 0 := by decide +kernel
  have hone : t₃.solver.counters.restarts = 1 := by decide +kernel
  have hfirst := (restarts_follow_luby Nat.one_pos fun before hbefore =>
    hstays before (hbefore.trans (List.prefix_append _ _))).2
      (hstays requests List.prefix_rfl) 2 _ _ hleads
  have hright := (hfirst.2.2 t₃ hturn (hlasts _ (by omega))).2.2 (by omega)
  exact ⟨⟨by decide +kernel, hrestarts, hlasts _ hrestarts.le,
      (restarts_follow_luby Nat.one_pos hstays).1 (hlasts _ hrestarts.le)⟩,
    _, _, _, hleads, hturn, hnone, hone, hright.2.2⟩

end Solver

end IncrementalSat.Cdcl
