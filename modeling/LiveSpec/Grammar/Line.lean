import LiveSpec.Text.Blank
import LiveSpec.Text.Split

/-!
# Kinds of lines

Documents are read line by line, and what a line is can be told from the line alone
(`Line.classify`). White space at its ends is dropped first. Then a line that starts with number
signs is a heading whose level is their number; a star that stands alone or is followed by white
space opens a step; a vertical bar opens a table row; `tags:`, in any mixture of cases, opens a list
of tags; three or more underscores and nothing else mark the teardown; and whatever is left is a
comment, unless it is blank.
-/

set_option autoImplicit false

namespace LiveSpec

/-- A line of a document by its kind. -/
inductive Line where
  | heading (level : Nat) (text : String)
  | step (text : String)
  | tableRow (cells : List String)
  | tags (values : List String)
  | tearDown
  | comment (text : String)
  | blank
  deriving DecidableEq, Repr, Inhabited

namespace Line

/-- What is written on a piece of a line, without the white space around it. -/
def content (piece : List Char) : String := String.ofList (Text.trim piece)

/-- The cells of a table row, given what follows its first bar. A bar at the end closes the last
cell and opens no other. -/
def cellsOf (row : List Char) : List String :=
  let inner := if row.getLast? = some '|' then row.dropLast else row
  (Text.fields '|' inner).map content

/-- The tags of a tags line, given what follows the colon: they are separated by commas, and empty
ones are left out. -/
def tagsOf (list : List Char) : List String :=
  ((Text.fields ',' list).map content).filter fun tag ↦ tag ≠ ""

/-- What a tags line starts with, in lower case. -/
def tagsKeyword : List Char := ['t', 'a', 'g', 's', ':']

/-- The kind of a trimmed line that starts with none of the marks for headings, steps and rows. -/
def classifyUnmarked (line : List Char) : Line :=
  if (line.take tagsKeyword.length).map Char.toLower = tagsKeyword then
    .tags (tagsOf (line.drop tagsKeyword.length))
  else if 3 ≤ line.length ∧ line.all (· == '_') then .tearDown
  else .comment (String.ofList line)

/-- Whether what follows a star makes it the mark of a step. -/
def opensStep (rest : List Char) : Bool :=
  match rest with
  | [] => true
  | c :: _ => Text.isBlank c

/-- The kind of a trimmed line. -/
def classifyTrimmed (line : List Char) : Line :=
  match line with
  | [] => .blank
  | '#' :: _ =>
    .heading (line.takeWhile (· == '#')).length (content (line.dropWhile (· == '#')))
  | '|' :: row => .tableRow (cellsOf row)
  | '*' :: rest => if opensStep rest then .step (content rest) else classifyUnmarked line
  | _ => classifyUnmarked line

/-- The kind of a line. -/
def classify (line : String) : Line := classifyTrimmed (Text.trim line.toList)

/-- The kinds of the lines of a text, in order. -/
def classifyAll (text : String) : List Line := (Text.linesOfString text).map classify

end Line

end LiveSpec
