import Mathlib
import IncrementalSat.CommandLine.Program
import IncrementalSat.Proofs.Catalog
import IncrementalSat.Proofs.Tokens

/-!
# Lines that are printed

What a run prints is read line by line, and a line by its first character and its words.  So a text
that goes into a line must not bring a line feed with it; names and causes of failures have none,
and a path is shown without any.  The integers that a line lists are read back from its words.
-/

set_option autoImplicit false

namespace IncrementalSat

namespace Text

/-! ## Numerals -/

/-- The number that digits write is the one the standard library reads from them. -/
theorem decimal_eq_ofDigitChars (digits : List Char) :
    decimal digits = Nat.ofDigitChars 10 digits 0 := by
  induction digits with
  | nil => rfl
  | cons c rest ih =>
    rw [decimal_cons, ih, Nat.ofDigitChars_cons, Nat.mul_zero, Nat.zero_add, Nat.mul_comm]
    exact Nat.ofDigitChars_eq_ofDigitChars_zero.symm

/-- The digits of a number write it. -/
theorem decimal_toDigits (n : Nat) : decimal (Nat.toDigits 10 n) = n := by
  rw [decimal_eq_ofDigitChars, Nat.ofDigitChars_ten_toDigits]

/-- An integer is written by its printed form. -/
theorem writesInteger_toString (n : Int) : WritesInteger (toString n).toList n := by
  have hdigits : ∀ (m : Nat), ∀ c ∈ Nat.toDigits 10 m, c.isDigit = true := fun m c hc =>
    Nat.isDigit_of_mem_toDigits (by decide) le_rfl hc
  cases n with
  | ofNat m =>
    show WritesInteger (Nat.repr m).toList (m : Int)
    rw [Nat.toList_repr]
    conv => rhs; rw [← decimal_toDigits m]
    exact .natural (.plain Nat.toDigits_ne_nil (hdigits m))
  | negSucc m =>
    show WritesInteger ("-" ++ Nat.repr (m + 1)).toList (Int.negSucc m)
    rw [String.toList_append, Nat.toList_repr, Int.negSucc_eq, ← Nat.cast_succ]
    conv => rhs; rw [← decimal_toDigits m.succ]
    exact .minus Nat.toDigits_ne_nil (hdigits m.succ)

/-- A digit is no blank. -/
theorem isBlank_of_isDigit {c : Char} (h : c.isDigit = true) : isBlank c = false := by
  have hrange : 48 ≤ c.toNat ∧ c.toNat ≤ 57 := by
    simpa [Char.isDigit, UInt32.le_iff_toNat_le] using h
  rw [isBlank, ← Bool.not_eq_true, inRanges_eq_true_iff]
  rintro ⟨range, hmem, hlow, hhigh⟩
  have hapart : ∀ range ∈ blankRanges, range.2 < 48 ∨ 57 < range.1 := by decide
  have := hapart range hmem
  omega

/-- A numeral is a word. -/
theorem WritesInteger.visible {text : List Char} {n : Int} (h : WritesInteger text n) :
    text ≠ [] ∧ ∀ c ∈ text, isBlank c = false := by
  have hsigned : ∀ {sign : Char} {digits : List Char}, isBlank sign = false →
      (∀ c ∈ digits, c.isDigit = true) → ∀ c ∈ sign :: digits, isBlank c = false := by
    intro sign digits hsign hdigits
    exact List.forall_mem_cons.2 ⟨hsign, fun c hc => isBlank_of_isDigit (hdigits c hc)⟩
  cases h with
  | natural h =>
    cases h with
    | plain hne hdigits => exact ⟨hne, fun c hc => isBlank_of_isDigit (hdigits c hc)⟩
    | plus _ hdigits => exact ⟨List.cons_ne_nil _ _, hsigned (by decide) hdigits⟩
  | minus _ hdigits => exact ⟨List.cons_ne_nil _ _, hsigned (by decide) hdigits⟩

/-! ## Words -/

/-- A blank divides the words of a text. -/
theorem words_append_cons {c : Char} (hc : isBlank c = true) (text rest : List Char) :
    words (text ++ c :: rest) = words text ++ words rest := by
  rw [words, List.splitOnP_append_cons _ _ hc, List.filter_append]
  rfl

/-- A text without blanks is one word. -/
theorem words_of_visible {word : List Char} (hne : word ≠ [])
    (hvisible : ∀ c ∈ word, isBlank c = false) : words word = [word] := by
  rw [words, List.splitOnP_eq_singleton hvisible]
  simpa using hne

/-- The words of parts set apart by a space are the words of the parts. -/
theorem words_intercalate (parts : List (List Char)) :
    words ([' '].intercalate parts) = parts.flatMap words := by
  induction parts with
  | nil => rfl
  | cons part rest ih =>
    cases rest with
    | nil => simp
    | cons next rest =>
      have hjoined : [' '].intercalate (part :: next :: rest) =
          part ++ ' ' :: [' '].intercalate (next :: rest) := by
        simp [List.intercalate]
      rw [hjoined, words_append_cons (by decide), ih]
      rfl

end Text

namespace CommandLine

/-! ## Texts without a line feed -/

/-- A text that brings no line feed with it. -/
def OneLine (text : String) : Prop :=
  '\n' ∉ text.toList

instance (text : String) : Decidable (OneLine text) :=
  inferInstanceAs (Decidable ('\n' ∉ text.toList))

/-- A text in two parts brings no line feed if neither part does. -/
@[simp] theorem oneLine_append {text rest : String} :
    OneLine (text ++ rest) ↔ OneLine text ∧ OneLine rest := by
  simp [OneLine]

/-- A text without blanks brings no line feed. -/
theorem OneLine.of_visible {text : String} (h : ∀ c ∈ text.toList, Text.isBlank c = false) :
    OneLine text := by
  intro hmem
  have hblank : Text.isBlank '\n' = true := by decide
  exact Bool.noConfusion (hblank.symm.trans (h _ hmem))

/-- A printed integer brings no line feed. -/
@[simp] theorem oneLine_toString_int (n : Int) : OneLine (toString n) :=
  .of_visible (Text.writesInteger_toString n).visible.2

/-- A printed number brings no line feed. -/
@[simp] theorem oneLine_toString_nat (n : Nat) : OneLine (toString n) :=
  oneLine_toString_int n

/-- A printed literal brings no line feed. -/
@[simp] theorem oneLine_literalText (lit : Int32) : OneLine (literalText lit) :=
  oneLine_toString_int lit.toInt

/-- Texts set apart by a space bring no line feed if none of them does. -/
theorem oneLine_intercalate {texts : List String} (h : ∀ text ∈ texts, OneLine text) :
    OneLine (" ".intercalate texts) := by
  induction texts with
  | nil => decide
  | cons text rest ih =>
    rw [List.forall_mem_cons] at h
    cases rest with
    | nil => simpa using h.1
    | cons next rest =>
      rw [String.intercalate_cons_cons, oneLine_append, oneLine_append]
      exact ⟨⟨h.1, by decide⟩, ih h.2⟩

/-- A number in hexadecimal digits has no line feed. -/
theorem newline_not_mem_toDigits (n : Nat) : '\n' ∉ Nat.toDigits 16 n := by
  have hdigit : ∀ k < 16, '\n' ∉ [Nat.digitChar k] := by decide
  induction n using Nat.strong_induction_on with
  | _ n ih =>
    by_cases hn : n < 16
    · rw [Nat.toDigits_of_lt_base hn]
      exact hdigit n hn
    · rw [Nat.toDigits_of_base_le (by decide) (not_lt.1 hn), List.mem_append, not_or]
      exact ⟨ih (n / 16) (by omega), hdigit (n % 16) (by omega)⟩

/-- The shown form of a character has no line feed, whatever the character. -/
theorem newline_not_mem_shownChar (c : Char) : '\n' ∉ Text.shownChar c := by
  unfold Text.shownChar
  split
  · decide
  · decide
  · decide
  · decide
  · decide
  · rename_i hnewline _ _
    split
    · decide
    split
    · rw [List.mem_append, List.mem_append, not_or, not_or]
      refine ⟨⟨by decide, fun hmem => ?_⟩, by decide⟩
      exact newline_not_mem_toDigits _ hmem
    · simpa using fun h => hnewline h.symm

/-- A text as it is shown brings no line feed, whatever the text. -/
theorem oneLine_shown (text : String) : OneLine (Text.shown text) := by
  simp [OneLine, Text.shown, newline_not_mem_shownChar]

/-- The text of a refusal brings no line feed. -/
@[simp] theorem oneLine_refusal (refusal : Refusal) : OneLine refusal.text := by
  cases refusal <;> decide

/-- The message of an error in reading brings no line feed. -/
theorem oneLine_message (cause : ReadError) : OneLine cause.message := by
  cases cause with
  | problemSpecification => decide +kernel
  | line number => exact oneLine_append.2 ⟨by decide +kernel, oneLine_toString_nat number⟩
  | unterminatedClause => decide +kernel
  | source failure =>
    exact oneLine_append.2 ⟨by decide +kernel, by cases failure <;> decide +kernel⟩
  | rejected refusal =>
    exact oneLine_append.2 ⟨by decide +kernel, oneLine_refusal refusal⟩

/-! ## Lines by their first character -/

/-- The lines of an outcome that begin with a character. -/
def Outcome.marked (outcome : Outcome) (mark : Char) : List String :=
  outcome.lines.filter fun line => line.toList.head? == some mark

/-- A comment, and not that a solve was refused. -/
structure IsRemark (line : String) : Prop where
  oneLine : OneLine line
  comment : line.toList.head? = some 'c'
  noSolveError : ¬ "c Solve error".toList <+: line.toList

/-- A comment is told from that on a refused solve by its first letter. -/
theorem isRemark_comment {text : String} (h : OneLine text)
    (hfirst : text.toList.head? ≠ some 'S') :
    IsRemark (comment text) where
  oneLine := oneLine_append.2 ⟨by decide, h⟩
  comment := by simp [CommandLine.comment]
  noSolveError := by
    rw [CommandLine.comment, String.toList_append]
    cases htext : text.toList with
    | nil => simp
    | cons c rest =>
      rw [htext, List.head?_cons, ne_eq, Option.some_inj] at hfirst
      simpa using fun he => absurd he.symm hfirst

/-- Comments in front add no line that begins with another character. -/
theorem marked_after {comments : List String} (h : ∀ line ∈ comments, IsRemark line)
    (outcome : Outcome) (mark : Char) (hmark : mark ≠ 'c') :
    (outcome.after comments).marked mark = outcome.marked mark := by
  have hnone : (comments.filter fun line => line.toList.head? == some mark) = [] := by
    rw [List.filter_eq_nil_iff]
    intro line hline
    rw [(h line hline).comment]
    simpa using hmark.symm
  rw [Outcome.marked, Outcome.after, List.filter_append, hnone, List.nil_append]
  rfl

/-! ## Lines that list literals -/

/-- A line lists literals: its words are a mark, the numerals of the literals and a zero. -/
def Lists (mark : Char) (literals : List Int32) (line : String) : Prop :=
  ∃ numerals, Text.words line.toList = [mark] :: numerals ++ [['0']] ∧
    List.Forall₂ (fun numeral lit => Text.WritesInteger numeral lit.toInt) numerals literals

/-- A mark, the printed literals and a zero, set apart by spaces, list the literals. -/
theorem lists_intercalate {start : String} {mark : Char} (hstart : start.toList = [mark, ' '])
    (hmark : Text.isBlank mark = false) (literals : List Int32) :
    Lists mark literals (start ++ " ".intercalate (literals.map literalText) ++ " 0") := by
  have hnumeral := fun lit : Int32 => Text.writesInteger_toString lit.toInt
  have hwords : ∀ lit : Int32, Text.words (literalText lit).toList = [(literalText lit).toList] :=
    fun lit => Text.words_of_visible (hnumeral lit).visible.1 (hnumeral lit).visible.2
  have hline : (start ++ " ".intercalate (literals.map literalText) ++ " 0").toList =
      [mark] ++ ' ' :: ([' '].intercalate (literals.map fun lit => (literalText lit).toList) ++
        ' ' :: ['0']) := by
    simp [hstart, String.toList_intercalate, Function.comp_def]
  refine ⟨literals.map fun lit => (literalText lit).toList, ?_, ?_⟩
  · rw [hline, Text.words_append_cons (by decide), Text.words_append_cons (by decide),
      Text.words_intercalate, List.flatMap_map, List.flatMap_congr fun lit _ => hwords lit,
      ← List.map_eq_flatMap, Text.words_of_visible (by simp) (by simpa using hmark),
      Text.words_of_visible (List.cons_ne_nil _ _) (List.forall_mem_singleton.2 (by decide))]
    simp
  · rw [List.forall₂_map_left_iff]
    exact List.forall₂_same.2 fun lit _ => hnumeral lit

end CommandLine

end IncrementalSat
