import IncrementalSat.Cdcl.Branching
import IncrementalSat.Proofs.Trail

/-!
# Decisions find an open atom

A number drawn below a bound is below it, so that the search for an open atom from a drawn place
goes round all atoms, and the choice by activity passes over none.  A well-formed trail is complete
once every atom has a value; until then a decision is chosen, and it is open.
-/

set_option autoImplicit false

namespace IncrementalSat

/-! ## Draws -/

namespace Random

variable {R : Type}

/-- A product with a word has its high half below the other factor, and the low half close to a
carry only further below. -/
theorem scaled_lt {width bound : Nat} {draw : R → R × Nat} (hpos : 0 < bound)
    (hdraw : ∀ r, (draw r).2 < 2 ^ width) (r : R) : (scaled width draw bound r).2 < bound := by
  have hword := hdraw r
  have hpow : 0 < 2 ^ width := Nat.two_pow_pos width
  have hsplit := Nat.div_add_mod ((draw r).2 * bound) (2 ^ width)
  have hhigh : (draw r).2 * bound / 2 ^ width < bound := by
    rw [Nat.div_lt_iff_lt_mul hpow, Nat.mul_comm bound]
    exact Nat.mul_lt_mul_of_pos_right hword hpos
  have hcarry : 2 ^ width - bound < (draw r).2 * bound % 2 ^ width →
      (draw r).2 * bound / 2 ^ width + 1 < bound := by
    intro hlow
    by_contra hge
    have hlast : (draw r).2 * bound / 2 ^ width = bound - 1 := by omega
    have hle : (draw r).2 * bound ≤ (2 ^ width - 1) * bound :=
      Nat.mul_le_mul_right bound (by omega)
    have hfull : 2 ^ width ≤ 2 ^ width * bound := Nat.le_mul_of_pos_right _ hpos
    rw [Nat.sub_one_mul] at hle
    rw [hlast, Nat.mul_sub_one] at hsplit
    omega
  simp only [scaled, Nat.pow_eq]
  split
  · rename_i hlow
    split
    · exact hcarry hlow
    · exact hhigh
  · exact hhigh

/-- An index drawn below a count is below it. -/
theorem index_lt [Source R] {count : Nat} (hpos : 0 < count) (r : R) :
    (index count r).2 < count := by
  unfold index
  split
  · exact scaled_lt hpos (fun r => (Source.next32 r).2.toNat_lt) r
  · exact scaled_lt hpos (fun r => (next64 r).2.toNat_lt) r

end Random

namespace Cdcl

/-! ## Complete trails -/

namespace Trail.WellFormed

variable {t : Trail}

/-- A trail is no longer than there are atoms. -/
theorem size_le_atoms (h : t.WellFormed) : t.literals.size ≤ t.atoms := by
  have hsub : t.backwards.map Literal.atom ⊆ List.range t.atoms := by
    intro a ha
    obtain ⟨l, hl, rfl⟩ := List.mem_map.1 ha
    exact List.mem_range.2 (h.atom_lt (mem_backwards.1 hl))
  simpa using h.distinct.length_le_of_subset hsub

/-- A trail is complete if every atom has a value. -/
theorem isComplete_iff (h : t.WellFormed) :
    t.isComplete = true ↔ ∀ a < t.atoms, t.value a ≠ none := by
  have hvalue : ∀ a, t.value a ≠ none ↔ a ∈ t.backwards.map Literal.atom := by
    intro a
    rw [List.mem_map]
    constructor
    · intro ha
      obtain ⟨b, hb⟩ := Option.ne_none_iff_exists'.1 ha
      exact ⟨⟨a, b⟩, mem_backwards.2 ((h.value_iff a b).1 hb), rfl⟩
    · rintro ⟨l, hl, rfl⟩
      rw [(h.value_iff l.atom l.positive).2 (mem_backwards.1 hl)]
      exact Option.some_ne_none _
  have hcomplete : t.isComplete = true ↔ t.literals.size = t.atoms := by
    simp [isComplete, atoms]
  rw [hcomplete]
  constructor
  · intro hsize a ha
    rw [hvalue]
    by_contra hnot
    -- an atom without a value would leave fewer atoms than there are literals
    have hsub : a :: t.backwards.map Literal.atom ⊆ List.range t.atoms := by
      intro b hb
      rcases List.mem_cons.1 hb with rfl | hb
      · exact List.mem_range.2 ha
      · obtain ⟨l, hl, rfl⟩ := List.mem_map.1 hb
        exact List.mem_range.2 (h.atom_lt (mem_backwards.1 hl))
    have hlen := (List.nodup_cons.2 ⟨hnot, h.distinct⟩).length_le_of_subset hsub
    simp only [List.length_cons, List.length_map, length_backwards, List.length_range] at hlen
    omega
  · intro hall
    have hsub : List.range t.atoms ⊆ t.backwards.map Literal.atom := fun a ha =>
      (hvalue a).1 (hall a (List.mem_range.1 ha))
    have hlen := List.nodup_range.length_le_of_subset hsub
    simp only [List.length_map, length_backwards, List.length_range] at hlen
    exact le_antisymm h.size_le_atoms hlen

end Trail.WellFormed

/-! ## The choice of an atom -/

/-- An open atom is found from every place. -/
theorem openFrom_eq_some {t : Trail} {start atom : Nat} (hstart : start < t.atoms)
    (h : openFrom t start = some atom) : atom < t.atoms ∧ t.value atom = none := by
  have hmem := List.mem_of_find?_eq_some h
  have hopen := List.find?_some h
  simp only [List.mem_append, List.mem_range'_1, List.mem_range] at hmem
  exact ⟨by omega, by simpa using hopen⟩

/-- A choice among the first atoms is open, and it is made unless all of them have a value. -/
structure Leads (t : Trail) (count : Nat) (choice : Option Nat) : Prop where
  chosen : ∀ atom, choice = some atom → atom < count ∧ t.value atom = none
  assigned : choice = none → ∀ atom < count, t.value atom ≠ none

namespace Leads

variable {t : Trail} {count leader : Nat} {choice : Option Nat}

/-- Before any atom is looked at none is chosen. -/
theorem zero (t : Trail) : Leads t 0 none where
  chosen atom h := by simp at h
  assigned _ atom h := by omega

/-- The choice stands when an atom that has a value is looked at. -/
theorem succ_of_assigned (h : Leads t count choice) (hvalue : t.value count ≠ none) :
    Leads t (count + 1) choice where
  chosen atom hchoice := by
    have hbefore := h.chosen atom hchoice
    exact ⟨by omega, hbefore.2⟩
  assigned hchoice atom ha := by
    rcases Nat.lt_succ_iff_lt_or_eq.1 ha with ha | rfl
    · exact h.assigned hchoice atom ha
    · exact hvalue

/-- A choice that is made may stand when one more atom is looked at. -/
theorem succ_of_some (h : Leads t count (some leader)) : Leads t (count + 1) (some leader) where
  chosen atom hchoice := by
    have hbefore := h.chosen atom hchoice
    exact ⟨by omega, hbefore.2⟩
  assigned hchoice := absurd hchoice (Option.some_ne_none _)

/-- An open atom may be chosen when it is looked at. -/
theorem succ_self (hvalue : t.value count = none) : Leads t (count + 1) (some count) where
  chosen atom hchoice := by
    obtain rfl := Option.some.inj hchoice
    exact ⟨Nat.lt_succ_self _, hvalue⟩
  assigned hchoice := absurd hchoice (Option.some_ne_none _)

end Leads

/-- The most active of the open atoms is open, and there is one if any atom is. -/
theorem leads_mostActive (t : Trail) (a : Activity) : Leads t t.atoms (mostActive t a) := by
  unfold mostActive
  generalize t.atoms = count
  induction count with
  | zero => exact .zero t
  | succ n ih =>
    rw [Nat.fold_succ]
    by_cases hv : (t.value n).isSome
    · simp only [if_pos hv]
      exact ih.succ_of_assigned (Option.isSome_iff_ne_none.1 hv)
    simp only [if_neg hv]
    have hopen : t.value n = none := by simpa using hv
    split
    · rename_i leader hbest
      rw [hbest] at ih ⊢
      split
      · exact ih.succ_of_some
      · exact .succ_self hopen
    · exact .succ_self hopen

namespace Solver

variable {R : Type} [Random.Source R]

/-- A drawn atom is open. -/
theorem drawAtom_spec {s : Solver R} (hpos : 0 < s.atoms) {atom : Nat}
    (h : s.drawAtom.2 = some atom) : atom < s.atoms ∧ s.trail.value atom = none := by
  unfold drawAtom at h
  split at h
  · dsimp only at h
    split at h
    · exact openFrom_eq_some (Random.index_lt hpos _) h
    · simp at h
  · simp at h

/-- A choice changes the source of randomness only. -/
theorem choose_eq (s : Solver R) : s.choose.1 = { s with random := s.choose.1.random } := by
  unfold choose
  split
  · rfl
  · split <;> rfl

/-- The choice of a decision notes at most the draw of an atom. -/
theorem choose_events (s : Solver R) : ∀ e ∈ s.choose.2.2, ∃ atom, e = .drawn atom := by
  unfold choose
  split
  · simp
  · split
    · rename_i atom _
      intro e he
      exact ⟨atom, by simpa using he⟩
    · simp

/-- A literal is chosen unless every atom has a value, and it is open. -/
theorem choose_spec {s : Solver R} (h : s.trail.WellFormed) :
    match s.choose.2.1 with
    | none => ∀ a < s.atoms, s.trail.value a ≠ none
    | some l => l.atom < s.atoms ∧ s.trail.value l.atom = none := by
  unfold choose
  by_cases hcomplete : s.trail.isComplete = true
  · rw [if_pos hcomplete]
    exact h.isComplete_iff.1 hcomplete
  · rw [if_neg hcomplete]
    have hpos : 0 < s.atoms := by
      refine Nat.pos_of_ne_zero fun h0 => hcomplete (h.isComplete_iff.2 fun a ha => ?_)
      exact absurd (h0 ▸ ha) (Nat.not_lt_zero a)
    cases hdraw : s.drawAtom with
    | mk random drawn =>
      cases drawn with
      | some atom => exact drawAtom_spec hpos (by rw [hdraw]; rfl)
      | none =>
        have hbest := leads_mostActive s.trail s.activity
        cases hm : mostActive s.trail s.activity with
        | none => exact hbest.assigned hm
        | some atom => exact hbest.chosen atom hm

end Solver

end Cdcl

end IncrementalSat
