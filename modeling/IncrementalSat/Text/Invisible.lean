import IncrementalSat.Text.Ranges

/-!
# Invisible characters

The characters that leave no mark of their own, as of Unicode 17.0: controls, marks of format,
separators other than the plain space, private use, and all that a display may ignore, such as
fillers and variation selectors.
-/

set_option autoImplicit false

namespace IncrementalSat.Text

/-- The ranges of the code points of invisible characters. -/
def invisibleRanges : List (Nat × Nat) :=
  [(0x0000, 0x001F), (0x007F, 0x00A0), (0x00AD, 0x00AD), (0x034F, 0x034F), (0x0600, 0x0605),
    (0x061C, 0x061C), (0x06DD, 0x06DD), (0x070F, 0x070F), (0x0890, 0x0891), (0x08E2, 0x08E2),
    (0x115F, 0x1160), (0x1680, 0x1680), (0x17B4, 0x17B5), (0x180B, 0x180F), (0x2000, 0x200F),
    (0x2028, 0x202F), (0x205F, 0x206F), (0x3000, 0x3000), (0x3164, 0x3164), (0xE000, 0xF8FF),
    (0xFE00, 0xFE0F), (0xFEFF, 0xFEFF), (0xFFA0, 0xFFA0), (0xFFF0, 0xFFFB), (0x110BD, 0x110BD),
    (0x110CD, 0x110CD), (0x13430, 0x1343F), (0x1BCA0, 0x1BCA3), (0x1D173, 0x1D17A),
    (0xE0000, 0xE0FFF), (0xF0000, 0xFFFFD), (0x100000, 0x10FFFD)]

/-- Whether a character leaves no mark of its own. -/
def isInvisible (c : Char) : Bool :=
  inRanges invisibleRanges c

/-- The ranges of the invisible characters ascend and stay apart. -/
theorem apart_invisibleRanges : apart invisibleRanges = true := by decide +kernel

/-- There are 141757 invisible characters, most of them for private use. -/
theorem codePointCount_invisibleRanges : codePointCount invisibleRanges = 141757 := by
  decide +kernel

end IncrementalSat.Text
