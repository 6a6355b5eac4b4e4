import Mathlib
import IncrementalSat.Proofs.Inputs
import IncrementalSat.Proofs.Refusals
import IncrementalSat.Proofs.Tokens

/-!
# The language of formulas

A formula is a sequence of items, read one after another: lines that cannot be read, announcements,
and words that write integers.  Said without the reader, a sequence of items has a meaning if none
of its items offends, which is then the integers written and the counts announced.  The reader
accepts a source if its items have a meaning that ends with a clause, and gives the integers to the
engine in order; otherwise it stops at the first item that offends, or within the last clause.
-/

set_option autoImplicit false

namespace IncrementalSat

open Text (WritesInteger WritesNatural words)

namespace Dimacs

/-! ## Items -/

/-- What a formula is made of. -/
inductive Item
  /-- A line that cannot be read. -/
  | unreadable (failure : ReadFailure)
  /-- The words of a line that announces counts. -/
  | announcement (words : List (List Char))
  /-- A word in the line of a number. -/
  | integer (line : Nat) (word : List Char)

/-- Whether a line ends a formula: after any blanks it begins with a percent sign. -/
def endsFormula : Except ReadFailure String → Bool
  | .error _ => false
  | .ok text => (text.toList.dropWhile Text.isBlank).head? == some '%'

/-- The items of the line of a number, told by what the line begins with after any blanks. -/
def itemsOfLine (number : Nat) : Except ReadFailure String → List Item
  | .error failure => [.unreadable failure]
  | .ok text =>
    match text.toList.dropWhile Text.isBlank with
    | [] => []
    | 'c' :: _ => []
    | 'p' :: _ => [.announcement (words text.toList)]
    | _ :: _ => (words text.toList).map (.integer number)

/-- The items of lines up to the end of the formula, the lines being numbered from a number on. -/
def itemsFrom (number : Nat) (lines : List (Except ReadFailure String)) : List Item :=
  ((lines.takeWhile fun line => !endsFormula line).zipIdx number).flatMap fun (line, number) =>
    itemsOfLine number line

/-- The items of a source. -/
def items (source : Text.Source) : List Item :=
  itemsFrom 1 source.division

/-- The third word of a line announces the number of atoms, and the fourth that of clauses. -/
def Announces (words : List (List Char)) (counts : Nat × Nat) : Prop :=
  (∃ word, words[2]? = some word ∧ WritesNatural word counts.1 ∧ counts.1 < 2 ^ 64) ∧
    ∃ word, words[3]? = some word ∧ WritesNatural word counts.2 ∧ counts.2 < 2 ^ 64

/-- An item makes a formula unreadable, for a cause. -/
inductive Item.Offends : Item → ReadError → Prop
  | unreadable (failure : ReadFailure) : Offends (.unreadable failure) (.source failure)
  | announcement {words : List (List Char)} (h : ∀ counts, ¬ Announces words counts) :
      Offends (.announcement words) .problemSpecification
  | word {line : Nat} {word : List Char} (h : ∀ lit : Int32, ¬ WritesInteger word lit.toInt) :
      Offends (.integer line word) (.line line)
  /-- The least integer has no negation, and stands for no literal. -/
  | least {line : Nat} {word : List Char} (h : WritesInteger word Int32.minValue.toInt) :
      Offends (.integer line word) (.rejected .invalidArgument)

/-- The integers that items write, and the counts that they announce. -/
inductive Denotes : List Item → List Int32 → List (Nat × Nat) → Prop
  | nil : Denotes [] [] []
  | announcement {words : List (List Char)} {counts : Nat × Nat} {items : List Item}
      {integers : List Int32} {announced : List (Nat × Nat)} (h : Announces words counts)
      (hitems : Denotes items integers announced) :
      Denotes (.announcement words :: items) integers (counts :: announced)
  | integer {line : Nat} {word : List Char} {lit : Int32} {items : List Item}
      {integers : List Int32} {announced : List (Nat × Nat)} (h : WritesInteger word lit.toInt)
      (hlit : lit ≠ Int32.minValue) (hitems : Denotes items integers announced) :
      Denotes (.integer line word :: items) (lit :: integers) announced

/-- The integers that are read from items, and what comes of the reading. -/
inductive Reads : List Item → List Int32 → Except ReadError Summary → Prop
  /-- The items have a meaning, and the last integer, if any, closes a clause. -/
  | complete {items : List Item} {integers : List Int32} {announced : List (Nat × Nat)}
      (h : Denotes items integers announced) (hlast : ∀ lit ∈ integers.getLast?, lit = 0) :
      Reads items integers
        (.ok { expected := announced.getLast?, clauses := integers.count 0 })
  /-- The items have a meaning, but the last clause is not closed. -/
  | unterminated {items : List Item} {integers : List Int32} {announced : List (Nat × Nat)}
      (h : Denotes items integers announced) (hlast : ∃ lit ∈ integers.getLast?, lit ≠ 0) :
      Reads items integers (.error .unterminatedClause)
  /-- An item offends, and those before have a meaning. -/
  | offended {before after : List Item} {item : Item} {integers : List Int32}
      {announced : List (Nat × Nat)} {cause : ReadError} (h : Denotes before integers announced)
      (hoffends : item.Offends cause) :
      Reads (before ++ item :: after) integers (.error cause)

/-! ## Items have one meaning -/

/-- A problem line is read as the counts that it announces. -/
theorem counts?_eq_some_iff {words : List (List Char)} {counts : Nat × Nat} :
    counts? words = some counts ↔ Announces words counts := by
  obtain ⟨atoms, clauses⟩ := counts
  unfold counts? Announces
  rcases words with _ | ⟨first, _ | ⟨second, _ | ⟨third, _ | ⟨fourth, rest⟩⟩⟩⟩
  · simp
  · simp
  · simp
  · simp
  · have hthird : (first :: second :: third :: fourth :: rest)[2]? = some third := rfl
    have hfourth : (first :: second :: third :: fourth :: rest)[3]? = some fourth := rfl
    simp only [hthird, hfourth, Option.some.injEq, exists_eq_left',
      ← Text.unsigned?_eq_some_iff, List.drop_succ_cons, List.drop_zero]
    cases Text.unsigned? 64 third with
    | none => simp
    | some m => cases Text.unsigned? 64 fourth <;> simp

/-- Words announce one pair of counts at most. -/
theorem Announces.unique {words : List (List Char)} {counts counts' : Nat × Nat}
    (h : Announces words counts) (h' : Announces words counts') : counts = counts' :=
  Option.some_inj.1 ((counts?_eq_some_iff.2 h).symm.trans (counts?_eq_some_iff.2 h'))

/-- A word writes one integer at most. -/
theorem lit_unique {word : List Char} {lit lit' : Int32} (h : WritesInteger word lit.toInt)
    (h' : WritesInteger word lit'.toInt) : lit = lit' :=
  Option.some_inj.1 ((Text.int32?_eq_some_iff.2 h).symm.trans (Text.int32?_eq_some_iff.2 h'))

variable {items rest before after : List Item} {item : Item} {integers integers' : List Int32}
  {announced announced' : List (Nat × Nat)} {cause cause' : ReadError}

/-- An item offends for one cause only. -/
theorem Item.Offends.unique (h : item.Offends cause) (h' : item.Offends cause') :
    cause = cause' := by
  cases h with
  | unreadable => cases h'; rfl
  | announcement => cases h'; rfl
  | word h =>
    cases h' with
    | word => rfl
    | least hleast => exact absurd hleast (h _)
  | least h =>
    cases h' with
    | word hword => exact absurd h (hword _)
    | least => rfl

namespace Denotes

/-- Items denote one sequence of integers and announce one sequence of counts. -/
theorem unique (h : Denotes items integers announced) (h' : Denotes items integers' announced') :
    integers = integers' ∧ announced = announced' := by
  induction h generalizing integers' announced' with
  | nil =>
    cases h'
    exact ⟨rfl, rfl⟩
  | announcement h _ ih =>
    cases h' with
    | announcement h' hitems' =>
      obtain ⟨rfl, rfl⟩ := ih hitems'
      exact ⟨rfl, congrArg (· :: _) (h.unique h')⟩
  | integer h _ _ ih =>
    cases h' with
    | integer h' _ hitems' =>
      obtain ⟨rfl, rfl⟩ := ih hitems'
      exact ⟨congrArg (· :: _) (lit_unique h h'), rfl⟩

/-- Items in two parts denote the integers of one part and then those of the other. -/
theorem append (h : Denotes items integers announced) (h' : Denotes rest integers' announced') :
    Denotes (items ++ rest) (integers ++ integers') (announced ++ announced') := by
  induction h with
  | nil => exact h'
  | announcement h _ ih => exact .announcement h ih
  | integer h hlit _ ih => exact .integer h hlit ih

/-- No item that has a meaning offends. -/
theorem not_offends (h : Denotes (before ++ item :: after) integers announced) :
    ¬ item.Offends cause := by
  induction before generalizing integers announced with
  | nil =>
    intro hoffends
    cases hoffends with
    | unreadable => cases h
    | announcement hnone => cases h with | announcement h => exact hnone _ h
    | word hnone => cases h with | integer h => exact hnone _ h
    | least hleast => cases h with | integer h hlit => exact hlit (lit_unique h hleast)
  | cons first before ih =>
    cases h with
    | announcement _ h => exact ih h
    | integer _ _ h => exact ih h

/-- The items before the first that offends are given by all items. -/
theorem offending_unique {before' after' : List Item} {item' : Item}
    (h : Denotes before integers announced) (hoffends : item.Offends cause)
    (h' : Denotes before' integers' announced') (hoffends' : item'.Offends cause')
    (heq : before ++ item :: after = before' ++ item' :: after') :
    before = before' ∧ item = item' := by
  rcases List.append_eq_append_iff.1 heq with ⟨between, rfl, hbetween⟩ | ⟨between, rfl, hbetween⟩
  · cases between with
    | nil => exact ⟨by simp, (List.cons.inj hbetween).1⟩
    | cons first between =>
      obtain ⟨rfl, -⟩ := List.cons.inj hbetween
      exact absurd hoffends h'.not_offends
  · cases between with
    | nil => exact ⟨by simp, (List.cons.inj hbetween).1.symm⟩
    | cons first between =>
      obtain ⟨rfl, -⟩ := List.cons.inj hbetween
      exact absurd hoffends' h.not_offends

end Denotes

/-- A sequence of items is read in one way only. -/
theorem Reads.unique {result result' : Except ReadError Summary} (h : Reads items integers result)
    (h' : Reads items integers' result') : integers = integers' ∧ result = result' := by
  cases h with
  | complete h hlast =>
    cases h' with
    | complete h' =>
      obtain ⟨rfl, rfl⟩ := h.unique h'
      exact ⟨rfl, rfl⟩
    | unterminated h' hlast' =>
      obtain ⟨rfl, rfl⟩ := h.unique h'
      obtain ⟨lit, hlit, hne⟩ := hlast'
      exact absurd (hlast lit hlit) hne
    | offended _ hoffends => exact absurd hoffends h.not_offends
  | unterminated h hlast =>
    cases h' with
    | complete h' hlast' =>
      obtain ⟨rfl, rfl⟩ := h.unique h'
      obtain ⟨lit, hlit, hne⟩ := hlast
      exact absurd (hlast' lit hlit) hne
    | unterminated h' =>
      obtain ⟨rfl, rfl⟩ := h.unique h'
      exact ⟨rfl, rfl⟩
    | offended _ hoffends => exact absurd hoffends h.not_offends
  | offended h hoffends =>
    generalize hitems : _ ++ _ :: _ = items at h'
    cases h' with
    | complete h' =>
      subst hitems
      exact absurd hoffends h'.not_offends
    | unterminated h' =>
      subst hitems
      exact absurd hoffends h'.not_offends
    | offended h' hoffends' =>
      obtain ⟨rfl, rfl⟩ := h.offending_unique hoffends h' hoffends' hitems
      obtain ⟨rfl, -⟩ := h.unique h'
      exact ⟨rfl, congrArg Except.error (hoffends.unique hoffends')⟩

/-- A text is accepted only if its items have a meaning that ends with a clause. -/
theorem Reads.of_ok {summary : Summary} (h : Reads items integers (.ok summary)) :
    ∃ announced, Denotes items integers announced ∧ (∀ lit ∈ integers.getLast?, lit = 0) ∧
      summary = { expected := announced.getLast?, clauses := integers.count 0 } := by
  cases h with
  | complete h hlast => exact ⟨_, h, hlast, rfl⟩

/-! ## Readings under way -/

section Readings

variable {E : Type}

/-- A reading goes on past items, whose integers the engine receives. -/
structure Passes (r r' : Reading (Recorded E)) (items : List Item) (integers : List Int32) :
    Prop where
  received : r'.session.requests = r.session.requests ++ integers.map .add
  denotes : ∃ announced, Denotes items integers announced ∧
    r'.summary.expected = announced.getLast?.or r.summary.expected
  clauses : r'.summary.clauses = r.summary.clauses + integers.count 0
  clauseOpen : r'.clauseOpen = (integers.getLast?.map fun lit => lit != 0).getD r.clauseOpen

/-- A reading stops with a session at the first of the items that offends, once the engine has
received the integers of the items before. -/
structure Stops (r : Reading (Recorded E)) (s : Session (Recorded E)) (items : List Item)
    (integers : List Int32) (cause : ReadError) : Prop where
  received : s.requests = r.session.requests ++ integers.map .add
  offends : ∃ before item after announced, items = before ++ item :: after ∧
    Denotes before integers announced ∧ item.Offends cause

variable {r r' r'' : Reading (Recorded E)} {s : Session (Recorded E)}

/-- A reading may change in nothing but what it does not tell. -/
theorem Passes.nil (hreceived : r'.session.requests = r.session.requests)
    (hsummary : r'.summary = r.summary) (hopen : r'.clauseOpen = r.clauseOpen) :
    Passes r r' [] [] where
  received := by simpa using hreceived
  denotes := ⟨[], .nil, by simp [hsummary]⟩
  clauses := by simp [hsummary]
  clauseOpen := by simpa using hopen

/-- A reading that goes on past items and then past others goes on past all of them. -/
theorem Passes.append (h : Passes r r' items integers) (h' : Passes r' r'' rest integers') :
    Passes r r'' (items ++ rest) (integers ++ integers') where
  received := by rw [h'.received, h.received, List.map_append, List.append_assoc]
  denotes := by
    obtain ⟨announced, hdenotes, hexpected⟩ := h.denotes
    obtain ⟨announced', hdenotes', hexpected'⟩ := h'.denotes
    refine ⟨announced ++ announced', hdenotes.append hdenotes', ?_⟩
    rw [hexpected', hexpected, List.getLast?_append, Option.or_assoc]
  clauses := by rw [h'.clauses, h.clauses, List.count_append, Nat.add_assoc]
  clauseOpen := by
    rw [h'.clauseOpen, h.clauseOpen, List.getLast?_append]
    cases integers'.getLast? <;> rfl

/-- A reading that has stopped does not look at the items that follow. -/
theorem Stops.append (h : Stops r s items integers cause) (rest : List Item) :
    Stops r s (items ++ rest) integers cause where
  received := h.received
  offends := by
    obtain ⟨before, item, after, announced, rfl, hdenotes, hoffends⟩ := h.offends
    exact ⟨before, item, after ++ rest, announced, by simp, hdenotes, hoffends⟩

/-- A reading that goes on past items and then stops has stopped within all of them. -/
theorem Passes.stops (h : Passes r r' items integers) (h' : Stops r' s rest integers' cause) :
    Stops r s (items ++ rest) (integers ++ integers') cause where
  received := by rw [h'.received, h.received, List.map_append, List.append_assoc]
  offends := by
    obtain ⟨announced, hdenotes, -⟩ := h.denotes
    obtain ⟨before, item, after, announced', rfl, hdenotes', hoffends⟩ := h'.offends
    exact ⟨items ++ before, item, after, announced ++ announced', by simp,
      hdenotes.append hdenotes', hoffends⟩

/-- A reading that stops at once has given the engine nothing. -/
theorem Stops.first (hreceived : s.requests = r.session.requests) (hoffends : item.Offends cause) :
    Stops r s (item :: rest) [] cause where
  received := by simpa using hreceived
  offends := ⟨[], item, rest, [], rfl, .nil, hoffends⟩

end Readings

/-! ## Reading fields and lines -/

variable {E : Type} [Engine E]

/-- A field is passed if it writes a literal or zero. -/
theorem passes_readField {r : Reading (Recorded E)} {field : List Char} {lit : Int32}
    (h : Text.int32? field = some lit) (hlit : lit ≠ Int32.minValue) :
    (readField r field).2 = .ok () ∧ (readField r field).1.lines = r.lines ∧
      Passes r (readField r field).1 [.integer r.lines field] [lit] := by
  have hadd : r.session.add lit = (r.session.push lit, .ok ()) := if_neg hlit
  unfold readField
  rw [h]
  dsimp only
  rw [hadd]
  refine ⟨rfl, rfl, ⟨Session.requests_push lit,
    ⟨[], .integer (Text.int32?_eq_some_iff.1 h) hlit .nil, ?_⟩, ?_, ?_⟩⟩
  · dsimp only
    split <;> rfl
  · dsimp only
    split
    · rename_i hzero
      simp [hzero]
    · rename_i hzero
      simp [hzero]
  · rfl

/-- A reading stops at any other field. -/
theorem stops_readField {r : Reading (Recorded E)} {field : List Char}
    (h : ∀ lit, Text.int32? field = some lit → lit = Int32.minValue) :
    ∃ cause, (readField r field).2 = .error cause ∧
      ∀ rest, Stops r (readField r field).1.session (.integer r.lines field :: rest) [] cause := by
  unfold readField
  cases hfield : Text.int32? field with
  | none =>
    refine ⟨_, rfl, fun rest => .first rfl (.word fun lit hlit => ?_)⟩
    rw [Text.int32?_eq_some_iff.2 hlit] at hfield
    cases hfield
  | some lit =>
    obtain rfl := h lit hfield
    exact ⟨_, rfl, fun rest => .first rfl (.least (Text.int32?_eq_some_iff.1 hfield))⟩

/-- The fields of a line are passed, or the reading stops at the first that offends. -/
theorem readFields_spec (r : Reading (Recorded E)) (fields : List (List Char)) :
    ((readFields r fields).2 = .ok () ∧ (addedFields fields).2 = true ∧
        (readFields r fields).1.lines = r.lines ∧
        Passes r (readFields r fields).1 (fields.map (.integer r.lines)) (addedFields fields).1) ∨
      ∃ cause, (readFields r fields).2 = .error cause ∧ (addedFields fields).2 = false ∧
        Stops r (readFields r fields).1.session (fields.map (.integer r.lines))
          (addedFields fields).1 cause := by
  induction fields generalizing r with
  | nil => exact .inl ⟨rfl, rfl, rfl, .nil rfl rfl rfl⟩
  | cons field rest ih =>
    by_cases hfield : ∃ lit, Text.int32? field = some lit ∧ lit ≠ Int32.minValue
    · obtain ⟨lit, hlit, hne⟩ := hfield
      obtain ⟨hresult, hlines, hpasses⟩ := passes_readField (r := r) hlit hne
      have hread : readFields r (field :: rest) = readFields (readField r field).1 rest := by
        rw [readFields]
        split
        · rename_i herror
          rw [herror] at hresult
          cases hresult
        · rename_i hok
          rw [hok]
      have hadded : addedFields (field :: rest) =
          (lit :: (addedFields rest).1, (addedFields rest).2) := by
        rw [addedFields, hlit]
        exact if_neg hne
      rw [hread, hadded, List.map_cons]
      have hrest := ih (readField r field).1
      rw [hlines] at hrest
      rcases hrest with ⟨hok, hall, hlines', hpasses'⟩ | ⟨cause, herror, hall, hstops⟩
      · exact .inl ⟨hok, hall, hlines', hpasses.append hpasses'⟩
      · exact .inr ⟨cause, herror, hall, hpasses.stops hstops⟩
    · have hnone : ∀ lit, Text.int32? field = some lit → lit = Int32.minValue := by
        intro lit hlit
        by_contra hne
        exact hfield ⟨lit, hlit, hne⟩
      obtain ⟨cause, herror, hstops⟩ := stops_readField (r := r) hnone
      have hread : readFields r (field :: rest) = ((readField r field).1, .error cause) := by
        rw [readFields]
        split
        · rename_i herror'
          rw [herror'] at herror ⊢
          cases herror
          rfl
        · rename_i hok
          rw [hok] at herror
          cases herror
      have hadded : addedFields (field :: rest) = ([], false) := by
        rw [addedFields]
        cases hlit : Text.int32? field with
        | none => rfl
        | some lit => exact if_pos (hnone lit hlit)
      rw [hread, hadded, List.map_cons]
      exact .inr ⟨cause, rfl, rfl, hstops _⟩

/-- How a reading of lines ends: past all items, or at the first that offends. -/
def Ends (r : Reading (Recorded E)) (read : Session (Recorded E) × Except ReadError Summary)
    (items : List Item) (integers : List Int32) : Prop :=
  (∃ r', Passes r r' items integers ∧ read.1.requests = r'.session.requests ∧
      read.2 = if r'.clauseOpen then .error .unterminatedClause else .ok r'.summary) ∨
    ∃ cause, read.2 = .error cause ∧ Stops r read.1 items integers cause

section Ends

variable {r r' : Reading (Recorded E)}
  {read : Session (Recorded E) × Except ReadError Summary}

omit [Engine E]

/-- A reading that has gone on past all items ends with whether a clause is open. -/
theorem ends_finish (h : Passes r r' items integers) : Ends r (finish r') items integers := by
  refine .inl ⟨r', h, ?_⟩
  unfold finish
  split
  · exact ⟨rfl, rfl⟩
  · exact ⟨rfl, rfl⟩

/-- How a reading ends may be told from before the items that it has gone on past. -/
theorem Passes.ends (h : Passes r r' items integers) (h' : Ends r' read rest integers') :
    Ends r read (items ++ rest) (integers ++ integers') := by
  rcases h' with ⟨r'', hpasses, hend⟩ | ⟨cause, herror, hstops⟩
  · exact .inl ⟨r'', h.append hpasses, hend⟩
  · exact .inr ⟨cause, herror, h.stops hstops⟩

end Ends

/-- The items of lines are those of the first line, unless it ends the formula, and then of the
others. -/
theorem itemsFrom_cons {number : Nat} {line : Except ReadFailure String}
    {rest : List (Except ReadFailure String)} (h : endsFormula line = false) :
    itemsFrom number (line :: rest) = itemsOfLine number line ++ itemsFrom (number + 1) rest := by
  simp [itemsFrom, h]

/-- A line that ends the formula has no items, and neither have those that follow. -/
theorem itemsFrom_stop {number : Nat} {line : Except ReadFailure String}
    {rest : List (Except ReadFailure String)} (h : endsFormula line = true) :
    itemsFrom number (line :: rest) = [] := by
  simp [itemsFrom, h]

/-- The kinds of lines, by their items. -/
theorem line_cases (text : String) :
    (Line.ofText text.toList = .skipped ∧ endsFormula (.ok text) = false ∧
        ∀ number, itemsOfLine number (.ok text) = []) ∨
      (Line.ofText text.toList = .stop ∧ endsFormula (.ok text) = true) ∨
      (Line.ofText text.toList = .problem (counts? (words text.toList)) ∧
        endsFormula (.ok text) = false ∧
        ∀ number, itemsOfLine number (.ok text) = [.announcement (words text.toList)]) ∨
      (Line.ofText text.toList = .literals (words text.toList) ∧ endsFormula (.ok text) = false ∧
        ∀ number, itemsOfLine number (.ok text) = (words text.toList).map (.integer number)) := by
  unfold Line.ofText endsFormula itemsOfLine
  dsimp only
  rw [Text.fields_eq_words, Text.firstVisible?_eq_head?]
  cases text.toList.dropWhile Text.isBlank with
  | nil => exact .inl ⟨rfl, rfl, fun _ => rfl⟩
  | cons c rest =>
    by_cases hcomment : c = 'c'
    · subst hcomment
      exact .inl ⟨rfl, rfl, fun _ => rfl⟩
    by_cases hstop : c = '%'
    · subst hstop
      exact .inr (.inl ⟨rfl, rfl⟩)
    by_cases hproblem : c = 'p'
    · subst hproblem
      exact .inr (.inr (.inl ⟨rfl, rfl, fun _ => rfl⟩))
    · refine .inr (.inr (.inr ⟨?_, by simpa using hstop, fun number => ?_⟩))
      · split <;> simp_all
      · split <;> simp_all

/-- Lines are read item by item. -/
theorem readLines_ends (r : Reading (Recorded E)) (lines : List (Except ReadFailure String)) :
    Ends r (readLines r lines) (itemsFrom (r.lines + 1) lines) (added lines) := by
  induction lines generalizing r with
  | nil => exact ends_finish (.nil rfl rfl rfl)
  | cons line rest ih =>
    cases line with
    | error failure =>
      rw [itemsFrom_cons rfl]
      exact .inr ⟨_, rfl, .first rfl (.unreadable failure)⟩
    | ok text =>
      -- the reading once the line is counted
      let counted : Reading (Recorded E) := { r with lines := r.lines + 1 }
      have hcounted : Passes r counted [] [] := .nil rfl rfl rfl
      unfold readLines added
      dsimp only
      rcases line_cases text with ⟨hline, hends, hitems⟩ | ⟨hline, hends⟩ |
        ⟨hline, hends, hitems⟩ | ⟨hline, hends, hitems⟩
      · rw [hline, itemsFrom_cons hends, hitems]
        exact hcounted.ends (ih counted)
      · rw [hline, itemsFrom_stop hends]
        exact ends_finish hcounted
      · rw [hline, itemsFrom_cons hends, hitems]
        cases hcounts : counts? (words text.toList) with
        | none =>
          refine .inr ⟨_, rfl, .first rfl (.announcement fun counts hcounts' => ?_)⟩
          rw [counts?_eq_some_iff.2 hcounts'] at hcounts
          cases hcounts
        | some counts =>
          have hpasses : Passes r
              { counted with
                session := counted.session.note #[.expecting counts.1 counts.2]
                summary := { counted.summary with expected := some counts } }
              [.announcement (words text.toList)] [] :=
            { received := by simp [counted]
              denotes := ⟨[counts], .announcement (counts?_eq_some_iff.1 hcounts) .nil, rfl⟩
              clauses := rfl
              clauseOpen := rfl }
          exact hpasses.ends (ih _)
      · rw [hline, itemsFrom_cons hends, hitems]
        dsimp only
        rcases readFields_spec counted (words text.toList) with
          ⟨hok, hall, hnumber, hpasses⟩ | ⟨cause, herror, hall, hstops⟩
        · have hrest := ih (readFields counted (words text.toList)).1
          rw [hnumber] at hrest
          rw [← Prod.mk.eta (p := readFields counted (words text.toList)), hok,
            ← Prod.mk.eta (p := addedFields (words text.toList)), hall]
          exact (hcounted.append hpasses).ends hrest
        · rw [← Prod.mk.eta (p := readFields counted (words text.toList)), herror,
            ← Prod.mk.eta (p := addedFields (words text.toList)), hall]
          exact .inr ⟨cause, rfl, (hcounted.stops hstops).append _⟩

/-- What a source holds is read, and the engine receives the integers that are read. -/
theorem reads_read (s : Session (Recorded E)) (source : Text.Source) :
    Reads (Dimacs.items source) (added source.lines) (read s source).2 ∧
      (read s source).1.requests = s.requests ++ (added source.lines).map .add := by
  have hends := readLines_ends
    { session := s, summary := {}, lines := 0, clauseOpen := false } source.lines
  have hitems : Dimacs.items source = itemsFrom 1 source.lines := by
    rw [Dimacs.items, Text.Source.lines_eq_division]
  rw [hitems]
  rcases hends with ⟨r', hpasses, hrequests, hresult⟩ | ⟨cause, hresult, hstops⟩
  · refine ⟨?_, hrequests.trans hpasses.received⟩
    obtain ⟨announced, hdenotes, hexpected⟩ := hpasses.denotes
    have hsummary : r'.summary =
        { expected := announced.getLast?, clauses := (added source.lines).count 0 } := by
      have hclauses := hpasses.clauses
      cases hr : r'.summary
      simp_all
    have hopen := hpasses.clauseOpen
    show Reads _ _ (readLines _ _).2
    rw [hresult, hsummary, hopen]
    cases hlast : (added source.lines).getLast? with
    | none => exact .complete hdenotes (by simp [hlast])
    | some lit =>
      by_cases hlit : lit = 0
      · subst hlit
        exact .complete hdenotes (by simp [hlast])
      · have hne : (lit != 0) = true := by simpa using hlit
        simp only [Option.map_some, Option.getD_some, hne, if_true]
        exact .unterminated hdenotes ⟨lit, hlast, hlit⟩
  · obtain ⟨before, item, after, announced, hsplit, hdenotes, hoffends⟩ := hstops.offends
    refine ⟨?_, hstops.received⟩
    show Reads _ _ (readLines _ _).2
    rw [hsplit, hresult]
    exact .offended hdenotes hoffends

end Dimacs

namespace Session

/-- The reader accepts the language of formulas and streams its integers.  For any session for any
engine, with the engine recorded, which makes no difference, and for any source, the integers that
the engine receives and the result are those of reading the items of the source: if the items have a
meaning that ends with a clause, all integers and their summary, and otherwise the integers before
the first item that offends and its cause, or all integers of a text that ends within a clause. -/
theorem read_iff_reads (E : Type) [Engine E] (s : Session E) (source : Text.Source) :
    let recorded := Dimacs.read s.record source
    (recorded.1.forget = (Dimacs.read s source).1 ∧ recorded.2 = (Dimacs.read s source).2) ∧
      ∀ (integers : List Int32) (result : Except ReadError Dimacs.Summary),
        recorded.1.requests = integers.map .add ∧ (Dimacs.read s source).2 = result ↔
          Dimacs.Reads (Dimacs.items source) integers result := by
  intro recorded
  have hforget : recorded.1.forget = (Dimacs.read s source).1 ∧
      recorded.2 = (Dimacs.read s source).2 := forget_read (s := s.record) source
  obtain ⟨hreads, hrequests⟩ := Dimacs.reads_read s.record source
  refine ⟨hforget, fun integers result => ⟨?_, fun h => ?_⟩⟩
  · rintro ⟨hintegers, rfl⟩
    have hadd : Function.Injective Engine.Request.add := fun _ _ h => Engine.Request.add.inj h
    obtain rfl := List.map_injective_iff.2 hadd (hintegers.symm.trans hrequests)
    rwa [← hforget.2]
  · obtain ⟨rfl, rfl⟩ := hreads.unique h
    exact ⟨hrequests, hforget.2.symm⟩

end Session

end IncrementalSat
