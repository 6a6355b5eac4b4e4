/-!
# Ranges of code points

A property of characters is given by the closed ranges of the code points that have it.  Such a
table is sound to read by eye when its ranges ascend and stay apart, and its size is the number of
code points in it.
-/

set_option autoImplicit false

namespace IncrementalSat.Text

/-- Whether the code point of a character lies in one of the ranges. -/
def inRanges (ranges : List (Nat × Nat)) (c : Char) : Bool :=
  ranges.any fun range => decide (range.1 ≤ c.toNat) && decide (c.toNat ≤ range.2)

/-- Whether each range ends where it begins or later, and leaves a gap before the next one. -/
def apart : List (Nat × Nat) → Bool
  | [] => true
  | [range] => decide (range.1 ≤ range.2)
  | range :: next :: rest =>
    decide (range.1 ≤ range.2) && decide (range.2 + 1 < next.1) && apart (next :: rest)

/-- The number of code points in the ranges. -/
def codePointCount (ranges : List (Nat × Nat)) : Nat :=
  ranges.foldr (fun range count => range.2 + 1 - range.1 + count) 0

/-- A character is in the ranges exactly if one of them holds its code point. -/
theorem inRanges_eq_true_iff {ranges : List (Nat × Nat)} {c : Char} :
    inRanges ranges c = true ↔ ∃ range ∈ ranges, range.1 ≤ c.toNat ∧ c.toNat ≤ range.2 := by
  simp [inRanges]

end IncrementalSat.Text
