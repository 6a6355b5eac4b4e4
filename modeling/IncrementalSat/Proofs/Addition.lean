import IncrementalSat.Proofs.Solve

/-!
# How clauses and assumptions enter a solver

A clause put in order has increasing codes, so that if no literal is followed by its negation, its
atoms are different.  Closing a clause at level zero adds exactly the demand that the clause holds:
what is dropped holds anyway, and the literals taken out are false already.  Making room for an atom
changes nothing that matters to a valuation.
-/

set_option autoImplicit false

namespace IncrementalSat

/-! ## Ordered clauses -/

namespace Literal

/-- Inserting a literal keeps the codes of a list in strictly ascending order. -/
theorem pairwise_insertOrdered {ls : List Literal} (l : Literal)
    (h : ls.Pairwise fun m k => m.code < k.code) :
    (insertOrdered l ls).Pairwise fun m k => m.code < k.code := by
  induction ls with
  | nil => simp [insertOrdered]
  | cons m rest ih =>
    obtain ⟨hm, hrest⟩ := List.pairwise_cons.1 h
    unfold insertOrdered
    split
    · rename_i hlt
      refine List.pairwise_cons.2 ⟨fun k hk => ?_, h⟩
      rcases List.mem_cons.1 hk with rfl | hk
      · exact hlt
      · exact hlt.trans (hm k hk)
    · split
      · exact h
      · refine List.pairwise_cons.2 ⟨fun k hk => ?_, ih hrest⟩
        rcases mem_insertOrdered.1 hk with rfl | hk
        · omega
        · exact hm k hk

/-- The codes of an ordered clause increase. -/
theorem pairwise_ordered (ls : List Literal) :
    (ordered ls).Pairwise fun m k => m.code < k.code := by
  induction ls with
  | nil => exact List.Pairwise.nil
  | cons l rest ih => exact pairwise_insertOrdered l ih

/-- Where a literal is followed by its negation, both are there. -/
theorem exists_of_hasComplement {ls : List Literal} (h : hasComplement ls = true) :
    ∃ l ∈ ls, l.negate ∈ ls := by
  induction ls with
  | nil => simp [hasComplement] at h
  | cons l rest ih =>
    cases rest with
    | nil => simp [hasComplement] at h
    | cons m rest =>
      cases Bool.or_eq_true_iff.1 h with
      | inl heq =>
        obtain rfl := eq_of_beq heq
        exact ⟨m, by simp, List.mem_cons_self⟩
      | inr hrest =>
        obtain ⟨k, hk, hn⟩ := ih hrest
        exact ⟨k, List.mem_cons_of_mem _ hk, List.mem_cons_of_mem _ hn⟩

/-- The two literals of an atom have neighbouring codes. -/
theorem code_negate_of_lt {l m : Literal} (hatom : m.atom = l.atom) (hlt : l.code < m.code) :
    m = l.negate ∧ m.code = l.code + 1 := by
  obtain ⟨a, p⟩ := l
  obtain ⟨b, q⟩ := m
  obtain rfl : b = a := hatom
  cases p <;> cases q <;> simp [code, negate] at hlt ⊢

/-- In increasing order, without a literal followed by its negation, the atoms are different. -/
theorem nodup_atoms_of_pairwise {ls : List Literal}
    (h : ls.Pairwise fun m k => m.code < k.code) (hcomplement : hasComplement ls = false) :
    (ls.map Literal.atom).Nodup := by
  induction ls with
  | nil => exact List.nodup_nil
  | cons l rest ih =>
    obtain ⟨hl, hrest⟩ := List.pairwise_cons.1 h
    cases rest with
    | nil => simp
    | cons m rest =>
      obtain ⟨hne, hlater⟩ := Bool.or_eq_false_iff.1 hcomplement
      refine List.nodup_cons.2 ⟨fun hmem => ?_, ih hrest hlater⟩
      obtain ⟨k, hk, hatom⟩ := List.mem_map.1 hmem
      obtain ⟨hneg, hcode⟩ := code_negate_of_lt hatom (hl k hk)
      -- nothing fits between neighbouring codes, so the negation is next
      have hmk : m = k := by
        rcases List.mem_cons.1 hk with rfl | hk'
        · rfl
        · have hmk := (List.pairwise_cons.1 hrest).1 k hk'
          have hlm := hl m List.mem_cons_self
          omega
      rw [hmk, hneg, negate_negate] at hne
      simp at hne

end Literal

namespace Cdcl

/-! ## Room for an atom -/

/-- Room for a further atom leaves all clauses settled, as no clause has the atom. -/
theorem Settled.ensure {t : Trail} {s : ClauseStore} (h : Settled t s t.head) (atom : Nat) :
    Settled (t.ensure atom) (s.ensure atom) (t.ensure atom).head where
  limits_le := h.limits_le
  clauses key hkey := by
    have hguard : ∀ {w o}, Guarded t t.head w o → Guarded (t.ensure atom) t.head w o := by
      intro w o hg hw
      simp only [Trail.levelOf, Trail.slot_ensure]
      exact hg hw
    exact ⟨hguard (h.clauses key hkey).1, hguard (h.clauses key hkey).2⟩

namespace Solver

variable {R : Type} {s : Solver R} {clause : List Literal}

/-- Room for an atom makes the number of atoms at least one more than the atom. -/
theorem atoms_ensure (s : Solver R) (atom : Nat) :
    (s.ensure atom).trail.atoms = max s.trail.atoms (atom + 1) :=
  s.trail.atoms_ensure atom

/-- A solver at rest stays at rest when it makes room for an atom. -/
theorem Resting.ensure (h : s.Resting) (atom : Nat) : (s.ensure atom).Resting where
  level := h.level
  coherent := h.coherent.ensure atom
  unmarked := by
    rw [atoms_ensure]
    exact h.unmarked.extend atom
  settled hc := (h.settled hc).ensure atom

/-- Room for an atom changes nothing about which valuations are allowed. -/
theorem allows_ensure (s : Solver R) (atom : Nat) (v : Valuation) :
    (s.ensure atom).Allows v ↔ s.Allows v :=
  and_congr_right' (Respects.ensure_iff atom)

/-! ## Clauses -/

/-- What closing a clause leaves behind: a solver at rest that also demands the clause. -/
structure Closes (s : Solver R) (clause : List Literal) (r : Solver R × Array Event) : Prop where
  resting : r.1.Resting
  allows_iff : ∀ v, r.1.Allows v ↔ s.Allows v ∧ Satisfies v clause
  openClause : r.1.openClause = s.openClause
  assumptions : r.1.assumptions = s.assumptions
  atoms : r.1.trail.atoms = s.trail.atoms
  events : Unfailing r.2

/-- A clause that holds in every valuation allowed may be dropped. -/
theorem Closes.of_satisfied (h : s.Resting) {events : Array Event}
    (hevents : Unfailing events)
    (hclause : ∀ v, s.Allows v → Satisfies v clause) : Closes s clause (s, events) :=
  ⟨h, fun v => (and_iff_left_of_imp (hclause v)).symm, rfl, rfl, rfl, hevents⟩

/-- Whether a clause holds where the solver allows is told by its open literals, unless one is
true. -/
theorem Resting.satisfies_iff (h : s.Resting) {v : Valuation}
    (hv : Respects v s.trail s.store)
    (htrue : ∀ l ∈ clause, s.trail.valueOf l ≠ some true) :
    Satisfies v (clause.filter fun l => s.trail.valueOf l == none) ↔ Satisfies v clause := by
  constructor
  · rintro ⟨l, hl, hlv⟩
    exact ⟨l, List.mem_of_mem_filter hl, hlv⟩
  · rintro ⟨l, hl, hlv⟩
    refine ⟨l, List.mem_filter.2 ⟨hl, ?_⟩, hlv⟩
    cases hvalue : s.trail.valueOf l with
    | none => rfl
    | some b =>
      cases b with
      | true => exact absurd hvalue (htrue l hl)
      | false =>
        have hneg := h.coherent.trail.valueOf_eq_false_iff.1 hvalue
        have hle := h.coherent.trail.levelOf_le_level_of_negate hneg
        rw [h.level] at hle
        exact absurd hlv (hv.not_holds hneg (Nat.le_zero.1 hle))

/-- A literal of the trail of a solver at rest holds in every valuation allowed. -/
theorem Resting.holds (h : s.Resting) {v : Valuation} (hv : Respects v s.trail s.store)
    {l : Literal} (hl : l ∈ s.trail.literals) : l.Holds v := by
  have hle := h.coherent.trail.levelOf_le_level hl
  rw [h.level] at hle
  exact hv.fixed l hl (Nat.le_zero.1 hle)

/-- A clause left with one open literal assigns it. -/
theorem Resting.assign (h : s.Resting) {l : Literal}
    (hroom : l.atom < s.trail.atoms) (hopen : s.trail.valueOf l = none)
    (hclause : ∀ v, Respects v s.trail s.store → (Satisfies v [l] ↔ Satisfies v clause)) :
    Closes s clause ({ s with trail := s.trail.assign l none }, #[]) := by
  have hwf := h.coherent.trail
  have hext := Trail.Extends.assign hwf none hroom hopen
  refine
    { resting :=
        { level := hext.level_eq.trans h.level
          coherent := h.coherent.assign_opening hroom hopen (.inl h.level)
          unmarked := hext.atoms ▸ h.unmarked
          settled := ?_ }
      allows_iff := ?_
      openClause := rfl
      assumptions := rfl
      atoms := hext.atoms
      events := .empty }
  · intro hc
    show Settled (s.trail.assign l none) s.store (s.trail.assign l none).head
    rw [Trail.head_assign]
    exact (h.settled hc).extend hext hwf.head_le_size
  · intro v
    have hsingle : Satisfies v [l] ↔ l.Holds v := by simp [Satisfies]
    unfold Allows
    rw [Respects.assign_iff hwf hroom hopen, and_assoc]
    refine and_congr_right fun _ => and_congr_right fun hv => ?_
    rw [← hclause v hv, hsingle]
    exact ⟨fun hl => hl h.level, fun hl _ => hl⟩

/-- A clause left with several open literals is stored. -/
theorem Resting.attach (h : s.Resting) {first second : Literal}
    {others : List Literal} (hdistinct : ((first :: second :: others).map Literal.atom).Nodup)
    (hroom : ∀ l ∈ first :: second :: others, l.atom < s.trail.atoms)
    (hopen : ∀ l ∈ first :: second :: others, s.trail.valueOf l = none)
    (hclause : ∀ v, Respects v s.trail s.store →
      (Satisfies v (first :: second :: others) ↔ Satisfies v clause)) :
    Closes s clause ({ s with store := s.store.attach first second others false }, #[]) := by
  have hwf := h.coherent.trail
  have hext := ClauseStore.Extends.attach s.store first second others false
  have hguard : ∀ {w o}, w ∈ first :: second :: others → Guarded s.trail s.trail.head w o :=
    fun hw => Guarded.of_not_mem (hwf.valueOf_eq_none_iff.1 (hopen _ hw)).2
  refine
    { resting :=
        { level := h.level
          coherent := h.coherent.extendStore hext (h.coherent.store.attach hdistinct hroom)
          unmarked := h.unmarked
          settled := fun hc => ⟨(h.settled hc).limits_le, ?_⟩ }
      allows_iff := ?_
      openClause := rfl
      assumptions := rfl
      atoms := rfl
      events := .empty }
  · exact (ClauseStore.forall_attach_iff fun c => c.SettledAt s.trail s.trail.head).2
      ⟨(h.settled hc).clauses, hguard (by simp), hguard (by simp)⟩
  · intro v
    unfold Allows
    rw [Respects.attach_iff, and_assoc]
    exact and_congr_right fun _ => and_congr_right fun hv => hclause v hv

/-- A clause without an open or true literal leaves nothing to allow. -/
theorem Closes.of_unsatisfied (h : s.Resting)
    (hclause : ∀ v, Respects v s.trail s.store → ¬ Satisfies v clause) :
    Closes s clause ({ s with consistent := false }, #[.emptyClause]) where
  resting := ⟨h.level, h.coherent, h.unmarked, fun hc => absurd hc Bool.false_ne_true⟩
  allows_iff v :=
    ⟨fun hv => absurd hv.1 Bool.false_ne_true, fun hv => absurd hv.2 (hclause v hv.1.2)⟩
  openClause := rfl
  assumptions := rfl
  atoms := rfl
  events := .singleton (by simp)

/-- The open literals of a clause in order, without a complement, are over different atoms. -/
theorem nodup_atoms_open (t : Trail) {clause : List Literal}
    (hcomplement : Literal.hasComplement (Literal.ordered clause) = false) :
    (((Literal.ordered clause).filter fun l => t.valueOf l == none).map Literal.atom).Nodup :=
  (List.filter_sublist.map Literal.atom).nodup
    (Literal.nodup_atoms_of_pairwise (Literal.pairwise_ordered clause) hcomplement)

/-- What is left of a clause are literals with room that are without a value. -/
theorem mem_open {t : Trail} (hroom : ∀ l ∈ clause, l.atom < t.atoms) {l : Literal}
    (hl : l ∈ (Literal.ordered clause).filter fun l => t.valueOf l == none) :
    l.atom < t.atoms ∧ t.valueOf l = none := by
  obtain ⟨hmem, hvalue⟩ := List.mem_filter.1 hl
  exact ⟨hroom l (Literal.mem_ordered.1 hmem), eq_of_beq hvalue⟩

/-- Closing a clause adds exactly the demand that it holds. -/
theorem Resting.addClause (h : s.Resting) (hroom : ∀ l ∈ clause, l.atom < s.trail.atoms) :
    Closes s clause (s.addClause clause) := by
  unfold Solver.addClause
  dsimp only
  split
  · rename_i hinconsistent
    apply Closes.of_satisfied h .empty
    intro v hv
    simp [hv.1] at hinconsistent
  split
  · rename_i hcomplement
    apply Closes.of_satisfied h (.singleton (by simp))
    intro v _
    obtain ⟨l, hl, hn⟩ := Literal.exists_of_hasComplement hcomplement
    exact satisfies_ordered.1 (satisfies_of_complement hl hn)
  split
  · rename_i htrue
    apply Closes.of_satisfied h .empty
    intro v hv
    obtain ⟨l, hl, hvalue⟩ := List.any_eq_true.1 htrue
    have hmem := h.coherent.trail.valueOf_eq_true_iff.1 (eq_of_beq hvalue)
    exact satisfies_ordered.1 ⟨l, hl, h.holds hv.2 hmem⟩
  rename_i _ hcomplement htrue
  have hclause : ∀ v, Respects v s.trail s.store →
      (Satisfies v ((Literal.ordered clause).filter fun l => s.trail.valueOf l == none) ↔
        Satisfies v clause) := by
    intro v hv
    refine (h.satisfies_iff hv fun l hl hvalue => htrue ?_).trans satisfies_ordered
    exact List.any_eq_true.2 ⟨l, hl, by simp [hvalue]⟩
  have hdistinct := nodup_atoms_open s.trail (Bool.not_eq_true _ ▸ hcomplement)
  have hopen := fun l => mem_open hroom (l := l)
  split
  · rename_i hnil
    rw [hnil] at hclause
    apply Closes.of_unsatisfied h
    intro v hv hsat
    obtain ⟨l, hl, -⟩ := (hclause v hv).2 hsat
    simp at hl
  · rename_i l hsingle
    rw [hsingle] at hclause hopen
    obtain ⟨hl, hvalue⟩ := hopen l List.mem_cons_self
    exact h.assign hl hvalue hclause
  · rename_i first second others hcons
    rw [hcons] at hclause hopen hdistinct
    exact h.attach hdistinct (fun l hl => (hopen l hl).1) (fun l hl => (hopen l hl).2) hclause

end Solver

end Cdcl

end IncrementalSat
