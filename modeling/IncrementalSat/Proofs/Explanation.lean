import IncrementalSat.Proofs.Conflict

/-!
# Why an assumption is false

The collection of failed assumptions walks back along the trail.  A marked literal without a reason
has failed, and any other marks the literals of its reason.  All along, where the failed literals
hold, some marked literal does not; so at the end, when nothing is marked, they cannot hold
together.
-/

set_option autoImplicit false

namespace IncrementalSat.Cdcl

/-- The walk back over the literals above level zero comes to each of them after what was assigned
later, and leaves those of level zero. -/
theorem Trail.WellFormed.backwards_eq {t : Trail} (h : t.WellFormed) (hlevel : 0 < t.level) :
    t.backwards = t.backwardsAboveZero ++ (t.before (t.keep 0)).reverse ∧
      (∀ m ∈ t.backwardsAboveZero, 0 < t.levelOf m.atom) ∧
      ∀ m ∈ (t.before (t.keep 0)).reverse, t.levelOf m.atom = 0 := by
  have hsize : 0 < t.limits.size := hlevel
  have habove : t.backwardsAboveZero = (t.literals.toList.drop (t.keep 0)).reverse := by
    simp [Trail.backwardsAboveZero, Trail.keep, hsize]
  have hsplit : t.backwards = t.backwardsAboveZero ++ (t.before (t.keep 0)).reverse := by
    rw [habove, ← List.reverse_append, Trail.before, List.take_append_drop, Trail.backwards]
  have hdisjoint : ∀ m ∈ t.backwardsAboveZero, m ∉ (t.before (t.keep 0)).reverse := by
    have hnodup := h.distinct.of_map
    rw [hsplit] at hnodup
    exact fun m hm hb => List.disjoint_of_nodup_append hnodup hm hb
  have hzero : ∀ m ∈ (t.before (t.keep 0)).reverse, t.levelOf m.atom = 0 := fun m hm =>
    Nat.le_zero.1 ((h.mem_before_keep_iff hlevel).1 (List.mem_reverse.1 hm)).2
  refine ⟨hsplit, fun m hm => Nat.pos_of_ne_zero fun h0 => hdisjoint m hm ?_, hzero⟩
  have hmem : m ∈ t.literals := Trail.mem_backwards.1 (hsplit ▸ List.mem_append_left _ hm)
  exact List.mem_reverse.2 ((h.mem_before_keep_iff hlevel).2 ⟨hmem, h0.le⟩)

/-- The failed literals explain why an assumption is false: they are the assumption and literals
without a reason above level zero, and do not hold together where trail and store are respected. -/
structure Explains (t : Trail) (s : ClauseStore) (assumption : Literal)
    (failed : List Literal) : Prop where
  origin : ∀ l ∈ failed, l = assumption ∨
    (l ∈ t.literals ∧ t.reasonOf l.atom = none ∧ 0 < t.levelOf l.atom)
  refuted : ∀ v, Respects v t s → ¬ ∀ l ∈ failed, l.Holds v

/-- A collection is under way: only literals that the walk has still to come to are marked, and
where the failed literals hold some marked one does not. -/
structure Explaining (t : Trail) (s : ClauseStore) (assumption : Literal) (rest : List Literal)
    (x : Explanation) : Prop where
  size_eq : x.seen.size = t.atoms
  marked : ∀ a, x.seen.getD a false = true → ∃ l ∈ rest, l.atom = a
  origin : ∀ l ∈ x.failed, l = assumption ∨
    (l ∈ t.literals ∧ t.reasonOf l.atom = none ∧ 0 < t.levelOf l.atom)
  broken : ∀ v, Respects v t s → (∀ l ∈ x.failed, l.Holds v) →
    ∃ l ∈ rest, x.seen.getD l.atom false = true ∧ ¬ l.Holds v

/-- What is marked once the atoms of a reason are. -/
theorem markReason_spec (t : Trail) (c : Clause) (forced : Nat) {seen : Array Bool}
    (hroom : ∀ m ∈ c.literals, m.atom < seen.size) :
    (Explanation.markReason t c forced seen).size = seen.size ∧
      ∀ a, (Explanation.markReason t c forced seen).getD a false = true ↔
        seen.getD a false = true ∨
          ∃ m ∈ c.literals, m.atom = a ∧ m.atom ≠ forced ∧ 0 < t.levelOf m.atom := by
  unfold Explanation.markReason
  generalize c.literals = ls at hroom ⊢
  induction ls generalizing seen with
  | nil => simp
  | cons l rest ih =>
    have hl := hroom l List.mem_cons_self
    rw [List.foldl_cons]
    by_cases hmark : l.atom ≠ forced ∧ 0 < t.levelOf l.atom
    · rw [if_pos hmark]
      have hroom' : ∀ m ∈ rest, m.atom < (seen.setIfInBounds l.atom true).size := fun m hm => by
        simpa using hroom m (List.mem_cons_of_mem _ hm)
      obtain ⟨hsize, hiff⟩ := ih hroom'
      refine ⟨by simpa using hsize, ?_⟩
      intro a
      rw [hiff, getD_setMark hl, List.exists_mem_cons_iff]
      split
      · rename_i he
        simp [he.symm, hmark]
      · rename_i hne
        simp [hne]
    · rw [if_neg hmark]
      obtain ⟨hsize, hiff⟩ := ih fun m hm => hroom m (List.mem_cons_of_mem _ hm)
      refine ⟨hsize, ?_⟩
      intro a
      rw [hiff, List.exists_mem_cons_iff]
      simp [hmark]

namespace Explaining

variable {t : Trail} {s : ClauseStore} {assumption l : Literal} {rest zero : List Literal}
  {x : Explanation}

/-- A literal that is not marked is passed by. -/
theorem pass (h : Explaining t s assumption (l :: rest) x)
    (hseen : x.seen.getD l.atom false = false) : Explaining t s assumption rest x where
  size_eq := h.size_eq
  marked a ha := by
    obtain ⟨m, hm, rfl⟩ := h.marked a ha
    rcases List.mem_cons.1 hm with rfl | hm
    · simp [hseen] at ha
    · exact ⟨m, hm, rfl⟩
  origin := h.origin
  broken v hv hfailed := by
    obtain ⟨m, hm, hseenm, hmv⟩ := h.broken v hv hfailed
    rcases List.mem_cons.1 hm with rfl | hm
    · simp [hseen] at hseenm
    · exact ⟨m, hm, hseenm, hmv⟩

/-- A literal without a reason has failed. -/
theorem blame (h : Explaining t s assumption (l :: rest) x) (hwf : t.WellFormed)
    (hrest : l :: (rest ++ zero) <:+ t.backwards) (hreason : t.reasonOf l.atom = none)
    (hpos : 0 < t.levelOf l.atom) :
    Explaining t s assumption rest
      { seen := x.seen.setIfInBounds l.atom false, failed := l :: x.failed } := by
  have hl : l ∈ t.literals := Trail.mem_of_suffix hrest
  have hroom : l.atom < x.seen.size := h.size_eq ▸ hwf.atom_lt hl
  refine ⟨by simpa using h.size_eq, ?_, ?_, ?_⟩
  · intro a ha
    simp only [getD_setMark hroom] at ha
    split at ha
    · simp at ha
    · rename_i hne
      obtain ⟨m, hm, rfl⟩ := h.marked a ha
      exact ⟨m, (List.mem_cons.1 hm).resolve_left fun he => hne (he ▸ rfl), rfl⟩
  · intro m hm
    rcases List.mem_cons.1 hm with rfl | hm
    · exact .inr ⟨hl, hreason, hpos⟩
    · exact h.origin m hm
  · intro v hv hfailed
    obtain ⟨m, hm, hseenm, hmv⟩ :=
      h.broken v hv fun k hk => hfailed k (List.mem_cons_of_mem _ hk)
    have hne : m ≠ l := fun he => hmv (he ▸ hfailed l List.mem_cons_self)
    have hmrest := (List.mem_cons.1 hm).resolve_left hne
    have hmt := Trail.mem_of_mem_earlier hrest (List.mem_append_left _ hmrest)
    refine ⟨m, hmrest, ?_, hmv⟩
    simp only [getD_setMark hroom]
    rw [if_neg fun ha => hne (hwf.eq_of_atom_eq hmt hl ha.symm), hseenm]

/-- The other literals of a reason, those of level zero apart, are false by literals that the walk
has still to come to. -/
theorem negate_mem_rest {key : Nat} (hzero : ∀ m ∈ zero, t.levelOf m.atom = 0)
    (hforces : Forces t s key l (rest ++ zero)) {m : Literal}
    (hm : m ∈ (s.clause key).literals) (hne : m ≠ l) (hpos : 0 < t.levelOf m.atom) :
    m.negate ∈ rest := by
  apply (List.mem_append.1 (hforces.others m hm hne)).resolve_right
  intro hmz
  have := hzero _ hmz
  rw [Literal.atom_negate] at this
  omega

/-- Where a forced literal does not hold, another literal of its reason does. -/
theorem exists_holds_of_not_holds {key : Nat} {v : Valuation} (hc : Coherent t s)
    (hrest : l :: (rest ++ zero) <:+ t.backwards) (hforces : Forces t s key l (rest ++ zero))
    (hv : Respects v t s) (hlv : ¬ l.Holds v) :
    ∃ k ∈ (s.clause key).literals,
      k ≠ l ∧ k.atom ≠ l.atom ∧ 0 < t.levelOf k.atom ∧ k.Holds v := by
  obtain ⟨k, hk, hkv⟩ := hv.clauses key hforces.key_lt
  have hne : k ≠ l := fun he => hlv (he ▸ hkv)
  have hneg := Trail.mem_of_mem_earlier hrest (hforces.others k hk hne)
  refine ⟨k, hk, hne, ?_, ?_, hkv⟩
  · intro ha
    exact hne ((hc.store.apart key hforces.key_lt).eq_of_atom_eq hk hforces.mem ha)
  · apply Nat.pos_of_ne_zero
    intro h0
    exact hv.not_holds hneg h0 hkv

/-- A forced literal passes the question on to the literals of its reason. -/
theorem passOn {key : Nat} (h : Explaining t s assumption (l :: rest) x) (hc : Coherent t s)
    (hrest : l :: (rest ++ zero) <:+ t.backwards) (hzero : ∀ m ∈ zero, t.levelOf m.atom = 0)
    (hforces : Forces t s key l (rest ++ zero)) :
    Explaining t s assumption rest
      { x with
        seen := (Explanation.markReason t (s.clause key) l.atom x.seen).setIfInBounds
          l.atom false } := by
  have hwf := hc.trail
  have hl : l ∈ t.literals := Trail.mem_of_suffix hrest
  obtain ⟨hsize, hiff⟩ := markReason_spec t (s.clause key) l.atom
    fun m hm => h.size_eq ▸ hc.store.atom_lt key hforces.key_lt m hm
  have hroom : l.atom < (Explanation.markReason t (s.clause key) l.atom x.seen).size := by
    rw [hsize, h.size_eq]
    exact hwf.atom_lt hl
  refine ⟨by simpa [hsize] using h.size_eq, ?_, h.origin, ?_⟩
  · intro a ha
    simp only [getD_setMark hroom] at ha
    split at ha
    · simp at ha
    · rename_i hne
      rcases (hiff a).1 ha with ha | ⟨m, hm, rfl, hma, hpos⟩
      · obtain ⟨m, hm, rfl⟩ := h.marked a ha
        exact ⟨m, (List.mem_cons.1 hm).resolve_left fun he => hne (he ▸ rfl), rfl⟩
      · have hml : m ≠ l := fun he => hma (he ▸ rfl)
        exact ⟨m.negate, negate_mem_rest hzero hforces hm hml hpos, rfl⟩
  · intro v hv hfailed
    have hmarked : ∀ m ∈ rest, m ≠ l →
        (Explanation.markReason t (s.clause key) l.atom x.seen).getD m.atom false = true →
        ((Explanation.markReason t (s.clause key) l.atom x.seen).setIfInBounds
          l.atom false).getD m.atom false = true := by
      intro m hm hne hseenm
      have hmt := Trail.mem_of_mem_earlier hrest (List.mem_append_left zero hm)
      rw [getD_setMark hroom, if_neg fun ha => hne (hwf.eq_of_atom_eq hmt hl ha.symm), hseenm]
    obtain ⟨m, hm, hseenm, hmv⟩ := h.broken v hv hfailed
    by_cases he : m = l
    · -- the literal does not hold, so another literal of its reason does
      obtain ⟨k, hk, hne, hatom, hpos, hkv⟩ :=
        exists_holds_of_not_holds hc hrest hforces hv (he ▸ hmv)
      have hkrest := negate_mem_rest hzero hforces hk hne hpos
      refine ⟨k.negate, hkrest, ?_, fun hn => Literal.holds_negate.1 hn hkv⟩
      apply hmarked _ hkrest fun hl => hatom (hl ▸ rfl)
      exact (hiff _).2 (.inr ⟨k, hk, rfl, hatom, hpos⟩)
    · have hmrest := (List.mem_cons.1 hm).resolve_left he
      exact ⟨m, hmrest, hmarked m hmrest he ((hiff _).2 (.inl hseenm)), hmv⟩

/-- A visit keeps a collection under way. -/
theorem visit (h : Explaining t s assumption (l :: rest) x) (hc : Coherent t s)
    (hrest : l :: (rest ++ zero) <:+ t.backwards) (hzero : ∀ m ∈ zero, t.levelOf m.atom = 0)
    (hpos : 0 < t.levelOf l.atom) : Explaining t s assumption rest (x.visit t s l) := by
  unfold Explanation.visit
  cases hseen : x.seen.getD l.atom false with
  | false =>
    rw [if_neg (by simp)]
    exact h.pass hseen
  | true =>
    rw [if_pos rfl]
    cases hreason : t.reasonOf l.atom with
    | none => exact h.blame hc.trail hrest hreason hpos
    | some key => exact h.passOn hc hrest hzero (hc.forced hrest hreason)

/-- At the end of the walk nothing is marked, and the failed literals explain the assumption. -/
theorem walk (h : Explaining t s assumption rest x) (hc : Coherent t s)
    (hrest : rest ++ zero <:+ t.backwards) (hzero : ∀ m ∈ zero, t.levelOf m.atom = 0)
    (hpos : ∀ m ∈ rest, 0 < t.levelOf m.atom) :
    Unmarked (rest.foldl (Explanation.visit t s) x).seen t.atoms ∧
      Explains t s assumption (rest.foldl (Explanation.visit t s) x).failed := by
  induction rest generalizing x with
  | nil =>
    refine ⟨⟨h.size_eq, ?_⟩, h.origin, ?_⟩
    · intro a
      by_contra ha
      obtain ⟨l, hl, -⟩ := h.marked a (by simpa using ha)
      simp at hl
    · intro v hv hfailed
      obtain ⟨l, hl, -⟩ := h.broken v hv hfailed
      simp at hl
  | cons l rest ih =>
    rw [List.foldl_cons]
    exact ih (h.visit hc hrest hzero (hpos l List.mem_cons_self))
      ((List.suffix_cons l _).trans hrest) fun m hm => hpos m (List.mem_cons_of_mem _ hm)

end Explaining

/-- The failed literals collected for a false assumption explain it. -/
theorem explain_spec {t : Trail} {s : ClauseStore} {seen : Array Bool} {assumption : Literal}
    (hc : Coherent t s) (hseen : Unmarked seen t.atoms) (hfalse : assumption.negate ∈ t.literals) :
    Unmarked (explain t s seen assumption).1.seen t.atoms ∧
      Explains t s assumption (explain t s seen assumption).1.failed := by
  have hroom : assumption.atom < seen.size := hseen.size_eq ▸ hc.trail.atom_lt_of_negate hfalse
  have hle := hc.trail.levelOf_le_level_of_negate hfalse
  unfold explain
  split
  · rename_i hzero
    refine ⟨hseen, by simp, ?_⟩
    intro v hv hfailed
    exact hv.not_holds hfalse (by omega) (hfailed assumption List.mem_cons_self)
  · rename_i hpos
    obtain ⟨hsplit, habove, hzero⟩ := hc.trail.backwards_eq (by omega)
    have hplace : assumption.negate ∈ t.backwardsAboveZero := by
      apply (List.mem_append.1 (hsplit ▸ Trail.mem_backwards.2 hfalse)).resolve_right
      intro hm
      have := hzero _ hm
      rw [Literal.atom_negate] at this
      omega
    refine Explaining.walk ⟨by simpa using hseen.size_eq, ?_, by simp,
      ?_⟩ hc (hsplit ▸ List.suffix_refl _) hzero habove
    · intro a ha
      simp only [getD_setMark hroom] at ha
      split at ha
      · exact ⟨_, hplace, by assumption⟩
      · simp [hseen.getD_eq] at ha
    · intro v hv hfailed
      refine ⟨_, hplace, ?_, fun hn => Literal.holds_negate.1 hn (hfailed _ List.mem_cons_self)⟩
      simp only [getD_setMark hroom, Literal.atom_negate, if_true]

end IncrementalSat.Cdcl
