import LiveSpec.Grammar.Fault
import LiveSpec.Grammar.Line

/-!
# The text of a step

The text of a step is a sequence of pieces: plain characters, literals in double quotes and
references in angle brackets (`StepText.Piece`). Inside a literal a backslash makes the next
character part of the literal, whatever it is. A reference ends at the first closing bracket, and
white space around its name does not count.

Reading (`StepText.read`) goes through the characters once, in one of three modes: outside, inside a
literal or inside a reference. It fails at the first literal or reference that is not closed and at
the first reference without a name. The signature of a step has the placeholder for every literal
and reference, and its arguments are these in order (`StepText.parse`).
-/

set_option autoImplicit false

namespace LiveSpec.StepText

/-- A piece of the text of a step. -/
inductive Piece where
  /-- A character that stands for itself. -/
  | plain (character : Char)
  /-- A literal, as it is meant and not as it is quoted. -/
  | literal (text : List Char)
  /-- A reference to a parameter. -/
  | reference (name : List Char)
  deriving DecidableEq, Repr, Inhabited

/-- Where in a text the reader is. What has been read of a literal or a name is kept backwards. -/
inductive Mode where
  | outside
  | inLiteral (read : List Char)
  | inReference (read : List Char)
  deriving DecidableEq, Repr, Inhabited

/-- Splits the rest of a text into pieces. -/
def read : Mode → List Char → Except Fault (List Piece)
  | .outside, [] => .ok []
  | .outside, c :: rest =>
    if c = '"' then read (.inLiteral []) rest
    else if c = '<' then read (.inReference []) rest
    else (read .outside rest).map (.plain c :: ·)
  | .inLiteral _, [] => .error .literalNotClosed
  | .inLiteral _, ['\\'] => .error .literalNotClosed
  | .inLiteral done, '\\' :: escaped :: rest => read (.inLiteral (escaped :: done)) rest
  | .inLiteral done, c :: rest =>
    if c = '"' then (read .outside rest).map (.literal done.reverse :: ·)
    else read (.inLiteral (c :: done)) rest
  | .inReference _, [] => .error .referenceNotClosed
  | .inReference done, c :: rest =>
    if c = '>' then
      match Text.trim done.reverse with
      | [] => .error .referenceWithoutName
      | name => (read .outside rest).map (.reference name :: ·)
    else read (.inReference (c :: done)) rest

/-- What a piece contributes to the signature. -/
def Piece.signature : Piece → List Char
  | plain character => [character]
  | literal _ => placeholder.toList
  | reference _ => placeholder.toList

/-- The argument that a piece is, if it is one. -/
def Piece.argument? : Piece → Option Argument
  | plain _ => none
  | literal text => some (.static (String.ofList text))
  | reference name => some (.dynamic (String.ofList name))

/-- A literal as it is quoted: quotes and backslashes have a backslash in front. -/
def quote : List Char → List Char
  | [] => []
  | c :: rest => if c = '"' ∨ c = '\\' then '\\' :: c :: quote rest else c :: quote rest

/-- A piece as it is written. -/
def Piece.written : Piece → List Char
  | plain character => [character]
  | literal text => '"' :: quote text ++ ['"']
  | reference name => '<' :: name ++ ['>']

/-- The step with the given pieces, written as `text`. -/
def stepOfPieces (pieces : List Piece) (text : List Char) (line : Nat) : Step :=
  .written (Line.content (pieces.flatMap Piece.signature)) (String.ofList text) line
    (pieces.filterMap Piece.argument?)

/-- Reads the text of a step. -/
def parse (text : String) (line : Nat) : Except Fault Step :=
  match Text.trim text.toList with
  | [] => .error .blankStep
  | trimmed => (read .outside trimmed).map fun pieces ↦ stepOfPieces pieces trimmed line

end LiveSpec.StepText
