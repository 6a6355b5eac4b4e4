import IncrementalSat.Cdcl.Trail
import Mathlib

/-!
# Well-formed trails

A trail is well formed if no atom occurs twice on it, the values of the atoms are those that the
literals on it give them, the level of a literal is the number of levels opened before its place,
and the limits of the levels are in order and not beyond the literals that have been propagated.
Every operation keeps a trail well formed.  Most statements walk back along the trail: a literal
with the literals before it is a suffix of the reversed trail.
-/

set_option autoImplicit false

namespace IncrementalSat

/-- Literals with the same negation are the same. -/
theorem Literal.negate_inj {l m : Literal} : l.negate = m.negate ↔ l = m := by
  constructor
  · intro h
    rw [← Literal.negate_negate l, h, Literal.negate_negate]
  · rintro rfl
    rfl

namespace Cdcl

/-- In an ascending list the number of entries up to a bound tells which entries are above it. -/
theorem countP_le_iff_of_ascending {ns : List Nat} (h : ns.Pairwise (· ≤ ·)) {k : Nat}
    (hk : k < ns.length) (i : Nat) : ns.countP (· ≤ i) ≤ k ↔ i < ns[k] := by
  induction ns generalizing k with
  | nil => simp at hk
  | cons n rest ih =>
    obtain ⟨hn, hrest⟩ := List.pairwise_cons.1 h
    by_cases hi : n ≤ i
    · rw [List.countP_cons_of_pos (by simpa using hi)]
      cases k with
      | zero => simpa using hi
      | succ k =>
        have := ih hrest (k := k) (by simpa using hk)
        simpa using this
    · have hzero : rest.countP (· ≤ i) = 0 := by
        rw [List.countP_eq_zero]
        intro m hm
        have := hn m hm
        simp only [decide_eq_true_eq]
        omega
      rw [List.countP_cons_of_neg (by simpa using hi), hzero]
      have hle : n ≤ (n :: rest)[k] := by
        cases k with
        | zero => exact le_rfl
        | succ k => exact hn _ (List.getElem_mem _)
      simp only [Nat.zero_le, true_iff]
      omega

/-- A table extended with the default reads the same everywhere. -/
theorem Table.getD_extend {α : Type} (xs : Array α) (size : Nat) (value : α) (i : Nat) :
    (Table.extend xs size value).getD i value = xs.getD i value := by
  by_cases h : i < xs.size
  · simp [Table.extend, Array.getElem?_append, h]
  · simp only [Table.extend, Array.getD_eq_getD_getElem?, Array.getElem?_append, h, if_false,
      Array.getElem?_replicate]
    split <;> simp [h]

/-- A table is extended to a size unless it is already larger. -/
theorem Table.size_extend {α : Type} (xs : Array α) (size : Nat) (value : α) :
    (Table.extend xs size value).size = max xs.size size := by
  simp only [Table.extend, Array.size_append, Array.size_replicate]
  omega

namespace Trail

/-! ## What the operations change -/

/-- The literals of a trail below a position. -/
def before (t : Trail) (position : Nat) : List Literal :=
  t.literals.toList.take position

/-- The reversed trail has the literals of the trail. -/
@[simp] theorem mem_backwards {t : Trail} {l : Literal} : l ∈ t.backwards ↔ l ∈ t.literals := by
  simp [backwards]

/-- The reversed trail is as long as the trail. -/
@[simp] theorem length_backwards (t : Trail) : t.backwards.length = t.literals.size := by
  simp [backwards]

/-- All literals lie below the end of the trail. -/
theorem mem_before_size {t : Trail} {l : Literal} :
    l ∈ t.before t.literals.size ↔ l ∈ t.literals := by
  rw [before, ← Array.length_toList, List.take_length, Array.mem_toList_iff]

/-- A literal below a position is on the trail. -/
theorem mem_of_mem_before {t : Trail} {l : Literal} {p : Nat} (h : l ∈ t.before p) :
    l ∈ t.literals :=
  Array.mem_toList_iff.1 (List.mem_of_mem_take h)

/-- A literal with the literals before it is a suffix of the reversed trail. -/
theorem suffix_backwards_iff {t : Trail} {l : Literal} {earlier : List Literal} :
    l :: earlier <:+ t.backwards ↔
      earlier = (t.before earlier.length).reverse ∧ t.literals[earlier.length]? = some l := by
  constructor
  · rintro ⟨later, h⟩
    have hl : t.literals.toList = earlier.reverse ++ l :: later.reverse := by
      have := congrArg List.reverse h
      simpa [backwards] using this.symm
    have hn : earlier.length = earlier.reverse.length := by simp
    constructor
    · rw [before, hl, hn, List.take_left, List.reverse_reverse]
    · rw [← Array.getElem?_toList, hl, hn, List.getElem?_append_right le_rfl]
      simp
  · rintro ⟨he, hl⟩
    rw [← Array.getElem?_toList] at hl
    obtain ⟨hlt, hget⟩ := List.getElem?_eq_some_iff.1 hl
    refine ⟨(t.literals.toList.drop (earlier.length + 1)).reverse, ?_⟩
    have hsplit : t.literals.toList =
        t.before earlier.length ++ l :: t.literals.toList.drop (earlier.length + 1) := by
      rw [← hget, before, ← List.drop_eq_getElem_cons hlt, List.take_append_drop]
    have hback : t.backwards = (t.literals.toList.drop (earlier.length + 1)).reverse ++
        l :: (t.before earlier.length).reverse := by
      conv_lhs => rw [backwards, hsplit]
      simp
    rw [hback, ← he]

/-- The literal at a position has as many literals before it. -/
theorem exists_suffix_of_getElem? {t : Trail} {l : Literal} {i : Nat}
    (h : t.literals[i]? = some l) :
    ∃ earlier, l :: earlier <:+ t.backwards ∧ earlier.length = i := by
  obtain ⟨hi, -⟩ := Array.getElem?_eq_some_iff.1 h
  have hlen : (t.before i).reverse.length = i := by
    rw [List.length_reverse, before, List.length_take, Array.length_toList]
    omega
  exact ⟨(t.before i).reverse, suffix_backwards_iff.2 (by rw [hlen]; exact ⟨rfl, h⟩), hlen⟩

/-- A literal below a position has fewer literals before it. -/
theorem mem_before_iff {t : Trail} {l : Literal} {p : Nat} :
    l ∈ t.before p ↔ ∃ earlier, l :: earlier <:+ t.backwards ∧ earlier.length < p := by
  rw [before, List.mem_take_iff_getElem]
  constructor
  · rintro ⟨i, hi, hget⟩
    have hlt : i < t.literals.toList.length := by omega
    have hl : t.literals[i]? = some l := by
      rw [← Array.getElem?_toList, List.getElem?_eq_getElem hlt, hget]
    obtain ⟨earlier, he, hlen⟩ := exists_suffix_of_getElem? hl
    exact ⟨earlier, he, by omega⟩
  · rintro ⟨earlier, h, hlt⟩
    obtain ⟨-, hl⟩ := suffix_backwards_iff.1 h
    rw [← Array.getElem?_toList] at hl
    obtain ⟨hi, hget⟩ := List.getElem?_eq_some_iff.1 hl
    exact ⟨earlier.length, by omega, hget⟩

/-- Every literal of the trail has a place on it. -/
theorem exists_suffix_of_mem {t : Trail} {l : Literal} (h : l ∈ t.literals) :
    ∃ earlier, l :: earlier <:+ t.backwards := by
  obtain ⟨later, earlier, he⟩ := List.append_of_mem (mem_backwards.2 h)
  exact ⟨earlier, later, he.symm⟩

/-- A literal with a place on the trail is on it. -/
theorem mem_of_suffix {t : Trail} {l : Literal} {earlier : List Literal}
    (h : l :: earlier <:+ t.backwards) : l ∈ t.literals :=
  mem_backwards.1 (h.subset List.mem_cons_self)

/-- The literals before one of the trail are on it. -/
theorem mem_of_mem_earlier {t : Trail} {l m : Literal} {earlier : List Literal}
    (h : l :: earlier <:+ t.backwards) (hm : m ∈ earlier) : m ∈ t.literals :=
  mem_backwards.1 (h.subset (List.mem_cons_of_mem _ hm))

/-- A literal lies below every position above its own. -/
theorem before_mono {t : Trail} {p q : Nat} (h : p ≤ q) : t.before p ⊆ t.before q :=
  fun _ hl => (List.take_subset_take_left _ h) hl

/-- The literals below the next position are those below this one and the one here. -/
theorem mem_before_succ {t : Trail} {p : Nat} (h : p < t.literals.size) {l : Literal} :
    l ∈ t.before (p + 1) ↔ l ∈ t.before p ∨ l = t.literals[p] := by
  rw [before, List.take_succ_eq_append_getElem (by simpa using h), List.mem_append,
    List.mem_singleton]
  rfl

/-! ### Assignment -/

/-- An assignment opens no level. -/
@[simp] theorem limits_assign (t : Trail) (l : Literal) (reason : Option Nat) :
    (t.assign l reason).limits = t.limits := by
  unfold assign
  split <;> rfl

/-- An assignment makes no room for atoms. -/
@[simp] theorem atoms_assign (t : Trail) (l : Literal) (reason : Option Nat) :
    (t.assign l reason).atoms = t.atoms := by
  unfold assign atoms
  split <;> simp

/-- An assignment puts its literal at the end of the trail. -/
theorem literals_assign {t : Trail} {l : Literal} (reason : Option Nat) (h : l.atom < t.atoms) :
    (t.assign l reason).literals = t.literals.push l := by
  have h' : l.atom < t.slots.size := h
  rw [assign, if_pos h']

/-- After an assignment the trail has one more literal. -/
theorem mem_assign_iff {t : Trail} {l m : Literal} (reason : Option Nat) (h : l.atom < t.atoms) :
    m ∈ (t.assign l reason).literals ↔ m ∈ t.literals ∨ m = l := by
  rw [literals_assign reason h, Array.mem_push]

/-- The literal that is assigned is on the trail. -/
theorem mem_assign_self {t : Trail} {l : Literal} (reason : Option Nat) (h : l.atom < t.atoms) :
    l ∈ (t.assign l reason).literals :=
  (mem_assign_iff reason h).2 (.inr rfl)

/-- The literal that is assigned is first on the reversed trail. -/
theorem backwards_assign {t : Trail} {l : Literal} (reason : Option Nat) (h : l.atom < t.atoms) :
    (t.assign l reason).backwards = l :: t.backwards := by
  simp [backwards, literals_assign reason h]

/-- An assignment does not touch other atoms. -/
theorem slot_assign_ne {t : Trail} {l : Literal} (reason : Option Nat) {atom : Nat}
    (h : atom ≠ l.atom) : (t.assign l reason).slot atom = t.slot atom := by
  unfold assign slot
  split
  · simp [Array.getElem?_modify, h.symm]
  · rfl

/-- The atom that is assigned has the value, the present level and the reason it is given. -/
theorem current_assign_self {t : Trail} {l : Literal} (reason : Option Nat)
    (h : l.atom < t.atoms) :
    ((t.assign l reason).slot l.atom).current = some ⟨l.positive, t.level, reason⟩ := by
  have h' : l.atom < t.slots.size := h
  rw [assign, if_pos h']
  simp [slot, h', level, Array.getElem_modify_self]

/-- A literal that is assigned is of the present level. -/
theorem levelOf_assign_self {t : Trail} {l : Literal} (reason : Option Nat)
    (h : l.atom < t.atoms) : (t.assign l reason).levelOf l.atom = t.level := by
  simp [levelOf, current_assign_self reason h]

/-- A literal that is assigned has the reason it is given. -/
theorem reasonOf_assign_self {t : Trail} {l : Literal} (reason : Option Nat)
    (h : l.atom < t.atoms) : (t.assign l reason).reasonOf l.atom = reason := by
  simp [reasonOf, current_assign_self reason h]

/-- Opening a level raises the present level by one. -/
@[simp] theorem level_pushLevel (t : Trail) : t.pushLevel.level = t.level + 1 := by
  simp [level, pushLevel]

/-- What a trail knows of an atom is told by the present assignment of the atom. -/
theorem value_congr {t u : Trail} {a : Nat} (h : (t.slot a).current = (u.slot a).current) :
    t.value a = u.value a := by
  simp only [value, h]

/-- The level of an atom is told by its present assignment. -/
theorem levelOf_congr {t u : Trail} {a : Nat} (h : (t.slot a).current = (u.slot a).current) :
    t.levelOf a = u.levelOf a := by
  simp only [levelOf, h]

/-- The reason of an atom is told by its present assignment. -/
theorem reasonOf_congr {t u : Trail} {a : Nat} (h : (t.slot a).current = (u.slot a).current) :
    t.reasonOf a = u.reasonOf a := by
  simp only [reasonOf, h]

/-- Room for another atom does not touch what is known of any. -/
@[simp] theorem slot_ensure (t : Trail) (atom a : Nat) : (t.ensure atom).slot a = t.slot a := by
  simp only [ensure, slot, Table.getD_extend]

/-- Room is made for an atom and those below it, and none is taken away. -/
theorem atoms_ensure (t : Trail) (atom : Nat) : (t.ensure atom).atoms = max t.atoms (atom + 1) :=
  Table.size_extend ..

/-! ### Backjumps -/

/-- Taking values back leaves the room for atoms as it was. -/
@[simp] theorem atoms_foldl_release (ls : List Literal) (slots : Array Slot) :
    (ls.foldl release slots).size = slots.size := by
  induction ls generalizing slots with
  | nil => rfl
  | cons l rest ih => rw [List.foldl_cons, ih, release, Array.size_modify]

/-- Taking values back does not touch the other atoms. -/
theorem getD_foldl_release_of_ne {ls : List Literal} {slots : Array Slot} {a : Nat}
    (h : ∀ l ∈ ls, l.atom ≠ a) : (ls.foldl release slots).getD a {} = slots.getD a {} := by
  induction ls generalizing slots with
  | nil => rfl
  | cons l rest ih =>
    rw [List.foldl_cons, ih fun m hm => h m (List.mem_cons_of_mem _ hm)]
    simp [release, Array.getElem?_modify, h l List.mem_cons_self]

/-- Taking the value of an atom back leaves it open. -/
theorem current_foldl_release_of_mem {ls : List Literal} {slots : Array Slot} {a : Nat}
    (h : ∃ l ∈ ls, l.atom = a) : ((ls.foldl release slots).getD a {}).current = none := by
  induction ls generalizing slots with
  | nil => simp at h
  | cons l rest ih =>
    rw [List.foldl_cons]
    by_cases hrest : ∃ m ∈ rest, m.atom = a
    · exact ih hrest
    · have hne : ∀ m ∈ rest, m.atom ≠ a := fun m hm he => hrest ⟨m, hm, he⟩
      obtain ⟨m, hm, rfl⟩ := h
      obtain rfl : m = l := (List.mem_cons.1 hm).resolve_right fun hm => hne m hm rfl
      rw [getD_foldl_release_of_ne hne]
      by_cases hs : m.atom < slots.size
      · simp [release, hs, Array.getElem_modify_self]
      · simp [release, hs]

/-- A backjump to the present level or above does nothing. -/
theorem backjump_of_le {t : Trail} {target : Nat} (h : t.level ≤ target) :
    t.backjump target = t := by
  rw [backjump, if_pos h]

/-- The length of the trail after a backjump to a level. -/
def keep (t : Trail) (target : Nat) : Nat :=
  t.limits.getD target 0

/-- What a backjump keeps is told by the limit of the next level. -/
theorem keep_eq {t : Trail} {k : Nat} (h : k < t.limits.toList.length) :
    t.keep k = t.limits.toList[k] := by
  have hs : k < t.limits.size := h
  simp [keep, hs]

/-- The length that a backjump keeps is one of the limits. -/
theorem keep_mem_limits {t : Trail} {k : Nat} (h : k < t.level) : t.keep k ∈ t.limits := by
  rw [keep_eq h, ← Array.mem_toList_iff]
  exact List.getElem_mem _

/-- A backjump keeps the literals below the limit of the next level. -/
theorem literals_backjump {t : Trail} {target : Nat} (h : target < t.level) :
    (t.backjump target).literals.toList = t.before (t.keep target) := by
  rw [backjump, if_neg (by omega)]
  simp [before, keep]

/-- A backjump keeps the limits of the levels up to the one it goes to. -/
theorem limits_backjump {t : Trail} {target : Nat} (h : target < t.level) :
    (t.backjump target).limits.toList = t.limits.toList.take target := by
  rw [backjump, if_neg (by omega)]
  simp

/-- After a backjump propagation goes on from where it was, or from the end of what is kept. -/
theorem head_backjump {t : Trail} {target : Nat} (h : target < t.level) :
    (t.backjump target).head = min t.head (t.before (t.keep target)).length := by
  rw [backjump, if_neg (by omega)]
  simp [before, keep]

/-- A backjump leaves the room for atoms as it was. -/
@[simp] theorem atoms_backjump (t : Trail) (target : Nat) :
    (t.backjump target).atoms = t.atoms := by
  unfold backjump atoms
  split <;> simp

/-- A backjump goes to a level unless that is above the present one. -/
theorem level_backjump {t : Trail} {target : Nat} :
    (t.backjump target).level = min target t.level := by
  by_cases h : target < t.level
  · have := congrArg List.length (limits_backjump h)
    simpa [level] using this
  · rw [backjump_of_le (by omega)]
    omega

/-- A backjump does not touch the atoms that it takes no value from. -/
theorem slot_backjump_of_ne {t : Trail} {target : Nat} (h : target < t.level) {a : Nat}
    (ha : ∀ l ∈ t.literals.toList.drop (t.keep target), l.atom ≠ a) :
    (t.backjump target).slot a = t.slot a := by
  rw [backjump, if_neg (by omega)]
  exact getD_foldl_release_of_ne ha

/-- A backjump leaves open the atoms of the literals that it takes back. -/
theorem current_backjump_of_mem {t : Trail} {target : Nat} (h : target < t.level) {a : Nat}
    (ha : ∃ l ∈ t.literals.toList.drop (t.keep target), l.atom = a) :
    ((t.backjump target).slot a).current = none := by
  rw [backjump, if_neg (by omega)]
  exact current_foldl_release_of_mem ha

/-! ## Well-formedness -/

/-- The values, the levels and the limits of a trail fit the literals on it. -/
structure WellFormed (t : Trail) : Prop where
  /-- No atom is on the trail twice. -/
  distinct : (t.backwards.map Literal.atom).Nodup
  /-- An atom has the value that its literal on the trail asserts. -/
  value_iff : ∀ a b, t.value a = some b ↔ ⟨a, b⟩ ∈ t.literals
  /-- The level of a literal is the number of levels opened at or before its place. -/
  level_eq : ∀ {l earlier}, l :: earlier <:+ t.backwards →
    t.levelOf l.atom = t.limits.toList.countP (· ≤ earlier.length)
  ascending : t.limits.toList.Pairwise (· ≤ ·)
  /-- Every literal below the present level has been propagated. -/
  limits_le_head : ∀ n ∈ t.limits, n ≤ t.head
  head_le_size : t.head ≤ t.literals.size

namespace WellFormed

variable {t : Trail}

/-- The literals of the trail are those that are true. -/
theorem valueOf_eq_true_iff (h : t.WellFormed) {l : Literal} :
    t.valueOf l = some true ↔ l ∈ t.literals := by
  rw [show l = ⟨l.atom, l.positive⟩ from rfl, ← h.value_iff]
  simp [valueOf]

/-- The literals whose negation is on the trail are those that are false. -/
theorem valueOf_eq_false_iff (h : t.WellFormed) {l : Literal} :
    t.valueOf l = some false ↔ l.negate ∈ t.literals := by
  rw [show l.negate = ⟨l.atom, !l.positive⟩ from rfl, ← h.value_iff]
  cases hv : t.value l.atom with
  | none => simp [valueOf, hv]
  | some b => cases b <;> cases hp : l.positive <;> simp [valueOf, hv, hp]

/-- A literal and its negation are not both on the trail. -/
theorem negate_not_mem (h : t.WellFormed) {l : Literal} (hl : l ∈ t.literals) :
    l.negate ∉ t.literals := by
  intro hn
  have h1 := h.valueOf_eq_true_iff.2 hl
  have h2 := h.valueOf_eq_false_iff.2 hn
  rw [h1] at h2
  simp at h2

/-- A literal is open if neither it nor its negation is on the trail. -/
theorem valueOf_eq_none_iff (h : t.WellFormed) {l : Literal} :
    t.valueOf l = none ↔ l ∉ t.literals ∧ l.negate ∉ t.literals := by
  rw [← h.valueOf_eq_true_iff, ← h.valueOf_eq_false_iff]
  cases t.valueOf l with
  | none => simp
  | some b => cases b <;> simp

/-- Two literals of the trail with the same atom are equal. -/
theorem eq_of_atom_eq (h : t.WellFormed) {l m : Literal} (hl : l ∈ t.literals)
    (hm : m ∈ t.literals) (ha : l.atom = m.atom) : l = m := by
  have h1 := (h.value_iff l.atom l.positive).2 hl
  have h2 := (h.value_iff m.atom m.positive).2 hm
  rw [ha, h2] at h1
  obtain ⟨a, p⟩ := l
  obtain ⟨b, q⟩ := m
  simp_all

/-- The literals of the trail have room. -/
theorem atom_lt (h : t.WellFormed) {l : Literal} (hl : l ∈ t.literals) : l.atom < t.atoms := by
  have hv := (h.value_iff l.atom l.positive).2 hl
  by_contra hlt
  have hs : t.slots[l.atom]? = none := Array.getElem?_eq_none (by simpa [atoms] using hlt)
  simp [value, slot, hs] at hv

/-- A false literal has room. -/
theorem atom_lt_of_negate (h : t.WellFormed) {l : Literal} (hl : l.negate ∈ t.literals) :
    l.atom < t.atoms :=
  h.atom_lt (l := l.negate) hl

/-- No literal is of a level above the present one. -/
theorem levelOf_le_level (h : t.WellFormed) {l : Literal} (hl : l ∈ t.literals) :
    t.levelOf l.atom ≤ t.level := by
  obtain ⟨earlier, he⟩ := exists_suffix_of_mem hl
  rw [h.level_eq he]
  exact List.countP_le_length

/-- No false literal is of a level above the present one. -/
theorem levelOf_le_level_of_negate (h : t.WellFormed) {l : Literal}
    (hl : l.negate ∈ t.literals) : t.levelOf l.atom ≤ t.level :=
  h.levelOf_le_level (l := l.negate) hl

/-- Levels do not decrease along the trail. -/
theorem levelOf_le_of_mem_earlier (h : t.WellFormed) {l m : Literal} {earlier : List Literal}
    (hl : l :: earlier <:+ t.backwards) (hm : m ∈ earlier) :
    t.levelOf m.atom ≤ t.levelOf l.atom := by
  obtain ⟨later, e, rfl⟩ := List.append_of_mem hm
  have hsuffix : m :: e <:+ t.backwards :=
    ((List.suffix_append later _).trans (List.suffix_cons l _)).trans hl
  rw [h.level_eq hl, h.level_eq hsuffix]
  apply List.countP_mono_left
  intro n _ hn
  simp only [decide_eq_true_eq, List.length_append, List.length_cons] at hn ⊢
  omega

/-- The literals kept by a backjump are those up to the level it goes to. -/
theorem levelOf_le_iff (h : t.WellFormed) {l : Literal} {earlier : List Literal}
    (hl : l :: earlier <:+ t.backwards) {k : Nat} (hk : k < t.level) :
    t.levelOf l.atom ≤ k ↔ earlier.length < t.keep k := by
  rw [h.level_eq hl, keep_eq hk]
  exact countP_le_iff_of_ascending h.ascending hk _

/-- What a backjump keeps are the literals of a level up to the one it goes to. -/
theorem mem_before_keep_iff (h : t.WellFormed) {l : Literal} {k : Nat} (hk : k < t.level) :
    l ∈ t.before (t.keep k) ↔ l ∈ t.literals ∧ t.levelOf l.atom ≤ k := by
  rw [mem_before_iff]
  constructor
  · rintro ⟨earlier, he, hlt⟩
    exact ⟨mem_of_suffix he, (h.levelOf_le_iff he hk).2 hlt⟩
  · rintro ⟨hl, hle⟩
    obtain ⟨earlier, he⟩ := exists_suffix_of_mem hl
    exact ⟨earlier, he, (h.levelOf_le_iff he hk).1 hle⟩

/-- A backjump keeps nothing that has not been propagated. -/
theorem keep_le_head (h : t.WellFormed) {k : Nat} (hk : k < t.level) : t.keep k ≤ t.head :=
  h.limits_le_head _ (keep_mem_limits hk)

/-- A backjump keeps no more than there is. -/
theorem keep_le_size (h : t.WellFormed) {k : Nat} (hk : k < t.level) :
    t.keep k ≤ t.literals.size :=
  (h.keep_le_head hk).trans h.head_le_size

/-! ## The operations keep trails well formed -/

/-- The trail without atoms is well formed. -/
theorem empty : ({} : Trail).WellFormed where
  distinct := List.nodup_nil
  value_iff a b := by simp [value, slot]
  level_eq hl := by simp [backwards] at hl
  ascending := List.Pairwise.nil
  limits_le_head n hn := by simp at hn
  head_le_size := le_rfl

section Assign

variable {l : Literal} (reason : Option Nat)

/-- No literal of the trail has the atom of an open literal. -/
theorem atom_ne_of_open (h : t.WellFormed) (hopen : t.valueOf l = none) {m : Literal}
    (hm : m ∈ t.literals) : m.atom ≠ l.atom := by
  intro ha
  have hv := (h.value_iff m.atom m.positive).2 hm
  rw [valueOf, ← ha, hv] at hopen
  simp at hopen

/-- An assignment to an open literal leaves the literals of the trail as they were. -/
theorem current_assign (h : t.WellFormed) (hopen : t.valueOf l = none) {m : Literal}
    (hm : m ∈ t.literals) :
    ((t.assign l reason).slot m.atom).current = (t.slot m.atom).current := by
  rw [slot_assign_ne]
  exact h.atom_ne_of_open hopen hm

/-- Every limit is at most the place of the next literal. -/
theorem countP_limits_backwards (h : t.WellFormed) :
    t.limits.toList.countP (· ≤ t.backwards.length) = t.level := by
  rw [level, ← Array.length_toList, List.countP_eq_length]
  intro n hn
  have := h.limits_le_head n (Array.mem_toList_iff.1 hn)
  have := h.head_le_size
  simp only [length_backwards, decide_eq_true_eq]
  omega

/-- An assignment to an open literal keeps the trail well formed. -/
theorem assign (h : t.WellFormed) (hroom : l.atom < t.atoms) (hopen : t.valueOf l = none) :
    (t.assign l reason).WellFormed where
  distinct := by
    rw [backwards_assign reason hroom, List.map_cons, List.nodup_cons]
    refine ⟨?_, h.distinct⟩
    intro ha
    obtain ⟨m, hm, hma⟩ := List.mem_map.1 ha
    exact h.atom_ne_of_open hopen (mem_backwards.1 hm) hma
  value_iff a b := by
    rw [literals_assign reason hroom, Array.mem_push]
    by_cases ha : a = l.atom
    · subst ha
      have hnot : (⟨l.atom, b⟩ : Literal) ∉ t.literals := fun hb =>
        h.atom_ne_of_open hopen hb rfl
      rw [value, current_assign_self reason hroom]
      obtain ⟨a, p⟩ := l
      simp only [Option.map_some, Option.some.injEq, Literal.mk.injEq, true_and]
      exact ⟨fun hb => .inr hb.symm, fun hb => (hb.resolve_left hnot).symm⟩
    · have hne : (⟨a, b⟩ : Literal) ≠ l := fun he => ha (by rw [← he])
      rw [value_congr (congrArg Slot.current (slot_assign_ne reason ha)), h.value_iff]
      simp [hne]
  level_eq {m earlier} hm := by
    rw [backwards_assign reason hroom] at hm
    rw [limits_assign]
    cases List.suffix_cons_iff.1 hm with
    | inl heq =>
      obtain ⟨rfl, rfl⟩ := List.cons.inj heq
      rw [levelOf_assign_self reason hroom, h.countP_limits_backwards]
    | inr hold =>
      rw [levelOf_congr (h.current_assign reason hopen (mem_of_suffix hold))]
      exact h.level_eq hold
  ascending := by
    rw [limits_assign]
    exact h.ascending
  limits_le_head n hn := by
    rw [limits_assign] at hn
    rw [head_assign]
    exact h.limits_le_head n hn
  head_le_size := by
    have := h.head_le_size
    rw [head_assign, literals_assign reason hroom, Array.size_push]
    omega

end Assign

/-- Opening a level after everything has been propagated keeps the trail well formed. -/
theorem pushLevel (h : t.WellFormed) (hhead : t.head = t.literals.size) :
    t.pushLevel.WellFormed where
  distinct := h.distinct
  value_iff := h.value_iff
  level_eq {l earlier} hl := by
    have hlt : earlier.length < t.literals.size := by
      obtain ⟨hs, -⟩ := Array.getElem?_eq_some_iff.1 (suffix_backwards_iff.1 hl).2
      exact hs
    have hold := h.level_eq hl
    have hnew : decide (t.literals.size ≤ earlier.length) = false := by
      simpa using hlt
    show t.levelOf l.atom = (t.limits.push t.literals.size).toList.countP (· ≤ earlier.length)
    rw [hold, Array.toList_push, List.countP_append, List.countP_singleton, hnew]
    simp
  ascending := by
    show (t.limits.push t.literals.size).toList.Pairwise (· ≤ ·)
    rw [Array.toList_push, List.pairwise_append]
    refine ⟨h.ascending, List.pairwise_singleton _ _, ?_⟩
    intro n hn m hm
    have := h.limits_le_head n (Array.mem_toList_iff.1 hn)
    obtain rfl := List.mem_singleton.1 hm
    omega
  limits_le_head n hn := by
    rcases Array.mem_push.1 hn with hn | rfl
    · exact h.limits_le_head n hn
    · exact hhead.ge
  head_le_size := h.head_le_size

/-- Moving the position of propagation, not below the limits, keeps the trail well formed. -/
theorem withHead (h : t.WellFormed) {n : Nat} (hlow : t.head ≤ n) (hhigh : n ≤ t.literals.size) :
    WellFormed { t with head := n } where
  distinct := h.distinct
  value_iff := h.value_iff
  level_eq := h.level_eq
  ascending := h.ascending
  limits_le_head m hm := (h.limits_le_head m hm).trans hlow
  head_le_size := hhigh

/-- Room for more atoms keeps the trail well formed. -/
theorem ensure (h : t.WellFormed) (atom : Nat) : (t.ensure atom).WellFormed where
  distinct := h.distinct
  value_iff a b := by
    rw [← show t.literals = (t.ensure atom).literals from rfl, ← h.value_iff, value,
      slot_ensure, value]
  level_eq {l earlier} hl := by
    rw [levelOf, slot_ensure]
    exact h.level_eq hl
  ascending := h.ascending
  limits_le_head := h.limits_le_head
  head_le_size := h.head_le_size

section Backjump

variable {target : Nat}

/-- A backjump keeps the literals up to the level it goes to. -/
theorem mem_backjump_iff (h : t.WellFormed) (hlt : target < t.level) {l : Literal} :
    l ∈ (t.backjump target).literals ↔ l ∈ t.literals ∧ t.levelOf l.atom ≤ target := by
  rw [← Array.mem_toList_iff, literals_backjump hlt, h.mem_before_keep_iff hlt]

/-- What a backjump keeps is the beginning of the trail. -/
theorem backwards_backjump_suffix (t : Trail) (hlt : target < t.level) :
    (t.backjump target).backwards <:+ t.backwards := by
  rw [backwards, backwards, literals_backjump hlt, List.reverse_suffix]
  exact List.take_prefix _ _

/-- A backjump does not touch what is known of the literals that it keeps. -/
theorem slot_backjump (h : t.WellFormed) (hlt : target < t.level) {l : Literal}
    (hl : l ∈ (t.backjump target).literals) :
    (t.backjump target).slot l.atom = t.slot l.atom := by
  apply slot_backjump_of_ne hlt
  intro m hm ha
  have hbefore : l ∈ t.before (t.keep target) := by
    rwa [← literals_backjump hlt, Array.mem_toList_iff]
  have hmem : m ∈ t.literals := Array.mem_toList_iff.1 (List.mem_of_mem_drop hm)
  obtain rfl := h.eq_of_atom_eq hmem (mem_of_mem_before hbefore) ha
  have hnodup : t.literals.toList.Nodup := by
    have := h.distinct.of_map
    rwa [backwards, List.nodup_reverse] at this
  rw [← List.take_append_drop (t.keep target) t.literals.toList, List.nodup_append] at hnodup
  exact hnodup.2.2 m hbefore m hm rfl

/-- A literal that a backjump keeps is of the level it was. -/
theorem levelOf_backjump (h : t.WellFormed) (hlt : target < t.level) {l : Literal}
    (hl : l ∈ (t.backjump target).literals) :
    (t.backjump target).levelOf l.atom = t.levelOf l.atom :=
  levelOf_congr (congrArg Slot.current (h.slot_backjump hlt hl))

/-- A literal that a backjump keeps has the reason it had. -/
theorem reasonOf_backjump (h : t.WellFormed) (hlt : target < t.level) {l : Literal}
    (hl : l ∈ (t.backjump target).literals) :
    (t.backjump target).reasonOf l.atom = t.reasonOf l.atom :=
  reasonOf_congr (congrArg Slot.current (h.slot_backjump hlt hl))

/-- After a backjump everything that is kept has been propagated. -/
theorem head_backjump_eq (h : t.WellFormed) (hlt : target < t.level) :
    (t.backjump target).head = t.keep target := by
  have hhead := h.keep_le_head hlt
  have hsize := h.keep_le_size hlt
  rw [head_backjump hlt, before, List.length_take, Array.length_toList]
  omega

/-- After a backjump an atom has a value exactly if its literal has been kept. -/
theorem value_backjump_iff (h : t.WellFormed) (hlt : target < t.level) (a : Nat) (b : Bool) :
    (t.backjump target).value a = some b ↔ ⟨a, b⟩ ∈ (t.backjump target).literals := by
  by_cases hl : (⟨a, b⟩ : Literal) ∈ (t.backjump target).literals
  · rw [value_congr (congrArg Slot.current (h.slot_backjump hlt hl)), h.value_iff]
    exact iff_of_true ((h.mem_backjump_iff hlt).1 hl).1 hl
  refine iff_of_false ?_ hl
  intro hv
  by_cases hdrop : ∃ m ∈ t.literals.toList.drop (t.keep target), m.atom = a
  · rw [value, current_backjump_of_mem hlt hdrop] at hv
    simp at hv
  · have hne : ∀ m ∈ t.literals.toList.drop (t.keep target), m.atom ≠ a := by
      intro m hm ha
      exact hdrop ⟨m, hm, ha⟩
    rw [value, slot_backjump_of_ne hlt hne] at hv
    have hmem := Array.mem_toList_iff.2 ((h.value_iff a b).1 hv)
    rw [← List.take_append_drop (t.keep target) t.literals.toList, List.mem_append] at hmem
    cases hmem with
    | inl hkept =>
      apply hl
      rwa [← Array.mem_toList_iff, literals_backjump hlt]
    | inr hdropped => exact hne _ hdropped rfl

/-- The limits of higher levels are not lower. -/
theorem limits_mono (h : t.WellFormed) {i j : Nat} (hij : i ≤ j) (hj : j < t.limits.toList.length) :
    t.limits.toList[i] ≤ t.limits.toList[j] := by
  rcases Nat.lt_or_eq_of_le hij with hlt | rfl
  · exact List.pairwise_iff_getElem.1 h.ascending i j _ hj hlt
  · exact le_rfl

/-- No limit that a backjump drops counts at a place that it keeps. -/
theorem countP_limits_backjump (h : t.WellFormed) (hlt : target < t.level) {n : Nat}
    (hn : n < t.keep target) :
    (t.backjump target).limits.toList.countP (· ≤ n) = t.limits.toList.countP (· ≤ n) := by
  have hzero : (t.limits.toList.drop target).countP (· ≤ n) = 0 := by
    rw [List.countP_eq_zero]
    intro m hm
    obtain ⟨i, hi, rfl⟩ := List.mem_drop_iff_getElem.1 hm
    have hle := h.limits_mono (Nat.le_add_right target i) (by omega)
    rw [keep_eq hlt] at hn
    simp only [decide_eq_true_eq]
    omega
  rw [limits_backjump hlt]
  conv_rhs => rw [← List.take_append_drop target t.limits.toList, List.countP_append, hzero]
  rfl

/-- A backjump keeps the trail well formed. -/
theorem backjump (h : t.WellFormed) (target : Nat) : (t.backjump target).WellFormed := by
  by_cases hlt : target < t.level
  swap
  · rw [backjump_of_le (by omega)]
    exact h
  have hsuffix := backwards_backjump_suffix t hlt
  refine
    { distinct := (hsuffix.sublist.map _).nodup h.distinct
      value_iff := h.value_backjump_iff hlt, level_eq := ?_, ascending := ?_
      limits_le_head := ?_, head_le_size := ?_ }
  · intro l earlier hl
    have hmem := mem_of_suffix hl
    have hle := ((h.mem_backjump_iff hlt).1 hmem).2
    rw [h.levelOf_backjump hlt hmem, h.level_eq (hl.trans hsuffix),
      h.countP_limits_backjump hlt ((h.levelOf_le_iff (hl.trans hsuffix) hlt).1 hle)]
  · rw [limits_backjump hlt]
    exact h.ascending.sublist (List.take_sublist _ _)
  · intro n hn
    rw [← Array.mem_toList_iff, limits_backjump hlt] at hn
    obtain ⟨i, hi, rfl⟩ := List.mem_take_iff_getElem.1 hn
    rw [h.head_backjump_eq hlt, keep_eq hlt]
    exact h.limits_mono (by omega) hlt
  · have hsize := h.keep_le_size hlt
    rw [h.head_backjump_eq hlt, ← Array.length_toList, literals_backjump hlt, before,
      List.length_take, Array.length_toList]
    omega

end Backjump

end WellFormed

end Trail

end Cdcl

end IncrementalSat
