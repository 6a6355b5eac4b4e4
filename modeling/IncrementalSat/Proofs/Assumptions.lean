import IncrementalSat.Cdcl.Search
import IncrementalSat.Proofs.Coherence

/-!
# How the assumptions stand on the trail

The first levels of a trail belong to the assumptions, one each: an assumption whose level is open
is true at that level or below, and a literal that opens such a level is its assumption.  The search
keeps this as it propagates, goes back, opens levels for assumptions that hold, and decides.
-/

set_option autoImplicit false

namespace IncrementalSat.Cdcl

/-- The assumptions have room, those whose levels are open are true by then, and only they open
those levels. -/
structure Upholds (assumptions : List Literal) (t : Trail) : Prop where
  room : ∀ a ∈ assumptions, a.atom < t.atoms
  honoured : ∀ {i a}, assumptions[i]? = some a → i < t.level →
    a ∈ t.literals ∧ t.levelOf a.atom ≤ i + 1
  opened : ∀ l ∈ t.literals, t.reasonOf l.atom = none → 0 < t.levelOf l.atom →
    t.levelOf l.atom ≤ assumptions.length → assumptions[t.levelOf l.atom - 1]? = some l

namespace Upholds

variable {assumptions : List Literal} {t u : Trail} {l : Literal}

/-- At level zero there is nothing to uphold. -/
theorem of_level_zero (hwf : t.WellFormed) (hlevel : t.level = 0)
    (hroom : ∀ a ∈ assumptions, a.atom < t.atoms) : Upholds assumptions t where
  room := hroom
  honoured _ hi := by omega
  opened l hl _ hpos _ := by
    have := hwf.levelOf_le_level hl
    omega

/-- Forced literals do not concern the assumptions. -/
theorem extend (h : Upholds assumptions t) (hext : t.Extends u)
    (hforced : ∀ l ∈ u.literals, u.reasonOf l.atom = none → l ∈ t.literals) :
    Upholds assumptions u where
  room a ha := hext.atoms ▸ h.room a ha
  honoured ha hi := by
    obtain ⟨hmem, hle⟩ := h.honoured ha (hext.level_eq ▸ hi)
    rw [hext.levelOf_eq hmem]
    exact ⟨hext.mem hmem, hle⟩
  opened l hl hr hpos hle := by
    have hmem := hforced l hl hr
    rw [hext.levelOf_eq hmem] at hpos hle ⊢
    rw [Trail.reasonOf_congr (hext.current l hmem)] at hr
    exact h.opened l hmem hr hpos hle

/-- Going back to a level leaves the assumptions of the levels kept upheld. -/
theorem backjump (h : Upholds assumptions t) (hwf : t.WellFormed) (target : Nat) :
    Upholds assumptions (t.backjump target) := by
  by_cases hlt : target < t.level
  swap
  · rw [Trail.backjump_of_le (by omega)]
    exact h
  refine ⟨?_, ?_, ?_⟩
  · intro a ha
    rw [Trail.atoms_backjump]
    exact h.room a ha
  · intro i a ha hi
    rw [Trail.level_backjump] at hi
    obtain ⟨hmem, hle⟩ := h.honoured ha (by omega)
    have hkept := (hwf.mem_backjump_iff hlt).2 ⟨hmem, by omega⟩
    rw [hwf.levelOf_backjump hlt hkept]
    exact ⟨hkept, hle⟩
  · intro l hl hr hpos hle
    rw [hwf.levelOf_backjump hlt hl] at hpos hle ⊢
    rw [hwf.reasonOf_backjump hlt hl] at hr
    exact h.opened l ((hwf.mem_backjump_iff hlt).1 hl).1 hr hpos hle

/-- A level may be opened for an assumption that holds. -/
theorem pushLevel (h : Upholds assumptions t) (hwf : t.WellFormed)
    (hnext : ∀ a, assumptions[t.level]? = some a → a ∈ t.literals) :
    Upholds assumptions t.pushLevel where
  room := h.room
  honoured {i a} ha hi := by
    rw [Trail.level_pushLevel] at hi
    rcases Nat.lt_succ_iff_lt_or_eq.1 hi with hi | rfl
    · exact h.honoured ha hi
    · have hmem := hnext a ha
      exact ⟨hmem, (hwf.levelOf_le_level hmem).trans (Nat.le_succ _)⟩
  opened := h.opened

/-- A literal may be assigned with a reason, and at level zero. -/
theorem assign_forced (h : Upholds assumptions t) (hwf : t.WellFormed) {reason : Option Nat}
    (hroom : l.atom < t.atoms) (hopen : t.valueOf l = none)
    (hground : reason ≠ none ∨ t.level = 0) : Upholds assumptions (t.assign l reason) where
  room a ha := by
    rw [Trail.atoms_assign]
    exact h.room a ha
  honoured ha hi := by
    have hext := Trail.Extends.assign hwf reason hroom hopen
    obtain ⟨hmem, hle⟩ := h.honoured ha (hext.level_eq ▸ hi)
    rw [hext.levelOf_eq hmem]
    exact ⟨hext.mem hmem, hle⟩
  opened m hm hr hpos hle := by
    have hext := Trail.Extends.assign hwf reason hroom hopen
    rcases (Trail.mem_assign_iff reason hroom).1 hm with hm | rfl
    · rw [hext.levelOf_eq hm] at hpos hle ⊢
      rw [Trail.reasonOf_congr (hext.current m hm)] at hr
      exact h.opened m hm hr hpos hle
    · rw [Trail.reasonOf_assign_self reason hroom] at hr
      rw [Trail.levelOf_assign_self reason hroom] at hpos
      cases hground with
      | inl hne => exact absurd hr hne
      | inr hzero => omega

/-- A level may be opened by its assumption, or by any literal above the levels of the
assumptions. -/
theorem openLevel (h : Upholds assumptions t) (hc : t.pushLevel.WellFormed)
    (hroom : l.atom < t.pushLevel.atoms) (hopen : t.pushLevel.valueOf l = none)
    (hnext : t.level < assumptions.length → assumptions[t.level]? = some l) :
    Upholds assumptions (t.pushLevel.assign l none) := by
  have hext := Trail.Extends.assign hc none hroom hopen
  have hlevel := Trail.level_pushLevel t
  have hnew := Trail.levelOf_assign_self none hroom
  have hself := Trail.mem_assign_self none hroom
  refine ⟨?_, ?_, ?_⟩
  · intro a ha
    rw [Trail.atoms_assign]
    exact h.room a ha
  · intro i a ha hi
    rw [hext.level_eq, hlevel] at hi
    rcases Nat.lt_succ_iff_lt_or_eq.1 hi with hi | rfl
    · obtain ⟨hmem, hle⟩ := h.honoured ha hi
      rw [hext.levelOf_eq hmem]
      exact ⟨hext.mem hmem, hle⟩
    · obtain ⟨hi, -⟩ := List.getElem?_eq_some_iff.1 ha
      obtain rfl := Option.some.inj (ha.symm.trans (hnext hi))
      exact ⟨hself, (hnew.trans hlevel).le⟩
  · intro m hm hr hpos hle
    rcases (Trail.mem_assign_iff none hroom).1 hm with hm | rfl
    · rw [hext.levelOf_eq hm] at hpos hle ⊢
      rw [Trail.reasonOf_congr (hext.current m hm)] at hr
      exact h.opened m hm hr hpos hle
    · rw [hnew, hlevel] at hle ⊢
      exact hnext hle

end Upholds

/-! ## Levels for assumptions that hold -/

/-- Opening a level leaves all clauses settled if all literals have been propagated. -/
theorem Settled.pushLevel {t : Trail} {s : ClauseStore} (h : Settled t s t.head)
    (hhead : t.head = t.literals.size) : Settled t.pushLevel s t.pushLevel.head where
  limits_le n hn := by
    rcases Array.mem_push.1 hn with hn | rfl
    · exact h.limits_le n hn
    · exact hhead.ge
  clauses := h.clauses

/-- What the passing over of assumptions that hold ends with. -/
structure Passed (assumptions : List Literal) (t : Trail) (s : ClauseStore)
    (r : Trail × Standing) : Prop where
  /-- Only levels have been opened. -/
  same : ∃ limits, r.1 = { t with limits := limits }
  coherent : Coherent r.1 s
  settled : Settled r.1 s r.1.head
  upholds : Upholds assumptions r.1
  standing : match r.2 with
    | .settled => assumptions.length ≤ r.1.level
    | .undecided a => assumptions[r.1.level]? = some a ∧ r.1.valueOf a = none
    | .refuted a => assumptions[r.1.level]? = some a ∧ a.negate ∈ r.1.literals

/-- Levels are opened for the assumptions that hold, up to the first that does not. -/
theorem passed_skipHolding {assumptions rest : List Literal} {t : Trail} {s : ClauseStore}
    (hrest : rest = assumptions.drop t.level) (hc : Coherent t s) (hs : Settled t s t.head)
    (hhead : t.head = t.literals.size) (hu : Upholds assumptions t) :
    Passed assumptions t s (skipHolding t rest) := by
  induction rest generalizing t with
  | nil => exact ⟨⟨t.limits, rfl⟩, hc, hs, hu, List.drop_eq_nil_iff.1 hrest.symm⟩
  | cons a rest ih =>
    have hnext : assumptions[t.level]? = some a := by
      have := congrArg List.head? hrest
      rw [List.head?_drop] at this
      exact this.symm
    have htail : rest = assumptions.drop (t.level + 1) := by
      have := congrArg List.tail hrest
      rwa [List.tail_cons, List.tail_drop] at this
    unfold skipHolding
    split
    · rename_i hvalue
      have hmem := hc.trail.valueOf_eq_true_iff.1 hvalue
      have hpushed := ih (t := t.pushLevel) (by rwa [Trail.level_pushLevel])
        (hc.pushLevel hhead) (hs.pushLevel hhead) hhead (hu.pushLevel hc.trail fun b hb => by
          obtain rfl := Option.some.inj (hnext.symm.trans hb)
          exact hmem)
      obtain ⟨limits, hsame⟩ := hpushed.same
      exact { hpushed with same := ⟨limits, hsame⟩ }
    · rename_i hvalue
      exact ⟨⟨t.limits, rfl⟩, hc, hs, hu, hnext, hc.trail.valueOf_eq_false_iff.1 hvalue⟩
    · rename_i hvalue
      exact ⟨⟨t.limits, rfl⟩, hc, hs, hu, hnext, hvalue⟩

end IncrementalSat.Cdcl
