import IncrementalSat.Text.Ranges

/-!
# Blank characters

The characters with the Unicode property of white space, and how they divide a text into fields.
-/

set_option autoImplicit false

namespace IncrementalSat.Text

/-- The ranges of the code points of white space. -/
def blankRanges : List (Nat × Nat) :=
  [(0x0009, 0x000D), (0x0020, 0x0020), (0x0085, 0x0085), (0x00A0, 0x00A0), (0x1680, 0x1680),
    (0x2000, 0x200A), (0x2028, 0x2029), (0x202F, 0x202F), (0x205F, 0x205F), (0x3000, 0x3000)]

/-- Whether a character is white space. -/
def isBlank (c : Char) : Bool :=
  inRanges blankRanges c

/-- The first character of a text that is not blank. -/
def firstVisible? (text : List Char) : Option Char :=
  text.find? fun c => !isBlank c

/-- The fields of a text, given the field under way in reverse. -/
def fieldsFrom (field : List Char) : List Char → List (List Char)
  | [] => if field.isEmpty then [] else [field.reverse]
  | c :: rest =>
    if isBlank c then
      if field.isEmpty then fieldsFrom [] rest else field.reverse :: fieldsFrom [] rest
    else fieldsFrom (c :: field) rest

/-- The longest parts of a text without blanks, in order. -/
def fields (text : List Char) : List (List Char) :=
  fieldsFrom [] text

/-- The ranges of white space ascend and stay apart. -/
theorem apart_blankRanges : apart blankRanges = true := by decide

/-- White space has 25 characters. -/
theorem codePointCount_blankRanges : codePointCount blankRanges = 25 := by decide

/-- A character that the standard class takes for white space is blank. -/
theorem isBlank_of_isWhitespace {c : Char} (h : c.isWhitespace = true) : isBlank c = true := by
  simp only [Char.isWhitespace, Bool.or_eq_true, decide_eq_true_eq] at h
  rcases h with ((h | h) | h) | h <;> subst h <;> decide

end IncrementalSat.Text
