/-!
# Lines and fields

A text is read line by line (`lines`): a line ends at a line feed, and the end of the text ends the
last line if anything stands on it. A carriage return in front of a line feed stays on the line; it
is white space, and every line is trimmed before it is looked at. No other character ends a line.

A separator cuts a text into one more field than it occurs (`fields`). Every character that is no
separator is in exactly one field, in order (`intercalate_fields`).
-/

set_option autoImplicit false

namespace LiveSpec.Text

/-- Puts a character in front of the lines of what follows it: a line feed opens a line of its own,
any other character joins the first line. -/
def prependToLines (c : Char) (following : List (List Char)) : List (List Char) :=
  if c = '\n' then [] :: following
  else
    match following with
    | [] => [[c]]
    | line :: rest => (c :: line) :: rest

/-- The lines of a text, without their line feeds. -/
def lines (text : List Char) : List (List Char) := text.foldr prependToLines []

/-- The text without a given start, if it has it. -/
def withoutStart? (start text : List Char) : Option (List Char) :=
  if start.isPrefixOf text then some (text.drop start.length) else none

/-- A line without the carriage return at its end. -/
def withoutReturn (line : List Char) : List Char :=
  match line.reverse with
  | '\r' :: front => front.reverse
  | _ => line

/-- Puts a character in front of the fields of what follows it. -/
def prependToFields (separator c : Char) (following : List (List Char)) : List (List Char) :=
  if c = separator then [] :: following
  else
    match following with
    | [] => [[c]]
    | field :: rest => (c :: field) :: rest

/-- The fields between the separators of a text: one more than there are separators. -/
def fields (separator : Char) (text : List Char) : List (List Char) :=
  text.foldr (prependToFields separator) [[]]

/-- The lines of a string. -/
def linesOfString (text : String) : List String := (lines text.toList).map String.ofList

theorem lines_nil : lines [] = [] := rfl

theorem lines_cons (c : Char) (text : List Char) :
    lines (c :: text) = prependToLines c (lines text) := rfl

theorem fields_cons (separator c : Char) (text : List Char) :
    fields separator (c :: text) = prependToFields separator c (fields separator text) := rfl

/-- There is always a field, if only an empty one. -/
theorem fields_ne_nil (separator : Char) (text : List Char) : fields separator text ≠ [] := by
  induction text with
  | nil => simp [fields]
  | cons c text ih =>
    rw [fields_cons]
    unfold prependToFields
    split
    · simp
    · split <;> simp_all

/-- Joined by the separator, the fields are the text again. -/
theorem intercalate_fields (separator : Char) (text : List Char) :
    [separator].intercalate (fields separator text) = text := by
  induction text with
  | nil => rfl
  | cons c text ih =>
    rw [fields_cons]
    unfold prependToFields
    split
    · rename_i hseparator
      subst hseparator
      cases hfields : fields c text with
      | nil => exact absurd hfields (fields_ne_nil c text)
      | cons field rest =>
        rw [hfields] at ih
        simpa [List.intercalate, List.intersperse] using ih
    · cases hfields : fields separator text with
      | nil => exact absurd hfields (fields_ne_nil separator text)
      | cons field rest =>
        rw [hfields] at ih
        cases rest <;> simp_all [List.intercalate, List.intersperse]

end LiveSpec.Text
