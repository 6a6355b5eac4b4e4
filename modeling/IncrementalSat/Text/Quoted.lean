import IncrementalSat.Text.Extending
import IncrementalSat.Text.Invisible
import IncrementalSat.Text.Unassigned

/-!
# Quoted paths

A path is shown between double quotes, on one line and with nothing in it that the eye cannot tell
apart.  Double quotes and backslashes in it are preceded by a backslash, and characters without a
form of their own are written by a letter or by their code point.
-/

set_option autoImplicit false

namespace IncrementalSat.Text

/-- Whether a character is written by its code point when it is shown. -/
def isHidden (c : Char) : Bool :=
  isInvisible c || isExtending c || isUnassigned c

/-- The shown form of a character. -/
def shownChar (c : Char) : List Char :=
  match c with
  | '\t' => ['\\', 't']
  | '\r' => ['\\', 'r']
  | '\n' => ['\\', 'n']
  | '"' => ['\\', '"']
  | '\\' => ['\\', '\\']
  | c =>
    if c.toNat = 0 then ['\\', '0']
    else if isHidden c then
      ['\\', 'u', Char.ofNat 0x7B] ++ Nat.toDigits 16 c.toNat ++ [Char.ofNat 0x7D]
    else [c]

/-- The shown form of a text. -/
def shown (text : String) : String :=
  String.ofList ('"' :: text.toList.flatMap shownChar ++ ['"'])

end IncrementalSat.Text
