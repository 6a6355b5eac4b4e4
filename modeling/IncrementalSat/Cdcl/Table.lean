/-!
# Tables

Arrays indexed by atoms, literals or keys.  They grow when an atom is met, and entries are changed
in place.
-/

set_option autoImplicit false

namespace IncrementalSat.Cdcl.Table

/-- A table extended with a default value to at least a size. -/
def extend {α : Type} (xs : Array α) (size : Nat) (value : α) : Array α :=
  xs ++ Array.replicate (size - xs.size) value

/-- A table without the entry at an index, whose place is taken by the last entry. -/
def removeSwapping {α : Type} (xs : Array α) (i : Nat) (h : i < xs.size) : Array α :=
  (xs.set i (xs.back (Nat.zero_lt_of_lt h)) h).pop

/-- A table from which an entry is removed has one entry less. -/
theorem size_removeSwapping {α : Type} (xs : Array α) (i : Nat) (h : i < xs.size) :
    (removeSwapping xs i h).size = xs.size - 1 := by
  simp [removeSwapping]

/-- Changing one counted entry of a list into one that is not counted takes one from the count. -/
theorem countP_modify_of_lost_list {α : Type} {p : α → Bool} {f : α → α} (xs : List α) (i : Nat)
    (h : i < xs.length) (hp : p xs[i] = true) (hf : p (f xs[i]) = false) :
    (xs.modify i f).countP p + 1 = xs.countP p := by
  induction xs generalizing i with
  | nil => simp at h
  | cons a rest ih =>
    cases i with
    | zero =>
      simp only [List.getElem_cons_zero] at hp hf
      simp [hp, hf]
    | succ n =>
      simp only [List.getElem_cons_succ, List.length_cons] at hp hf h
      have := ih n (by omega) hp hf
      simp only [List.modify_succ_cons, List.countP_cons]
      omega

/-- Changing one counted entry of a table into one that is not counted takes one from the
count. -/
theorem countP_modify_of_lost {α : Type} {p : α → Bool} {f : α → α} (xs : Array α) {i : Nat}
    (h : i < xs.size) (hp : p xs[i] = true) (hf : p (f xs[i]) = false) :
    (xs.modify i f).countP p + 1 = xs.countP p := by
  rw [← Array.countP_toList, ← Array.countP_toList, Array.toList_modify]
  exact countP_modify_of_lost_list xs.toList i (by simpa using h) (by simpa using hp)
    (by simpa using hf)

end IncrementalSat.Cdcl.Table
