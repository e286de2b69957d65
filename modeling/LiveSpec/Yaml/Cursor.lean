import LiveSpec.Yaml.Character

/-!
# The place of a reader in a YAML text

A `Cursor` is the rest of a text with the line and the column of its first character. It also knows
whether nothing but white space has been passed on the current line (`Cursor.isIndenting`), because
tabs may not indent what stands in a block.

Between two tokens there can be white space, remarks and line breaks (`Cursor.skipGap`). Behind some
tokens the rest of the line has to be looked at on its own (`Cursor.skipSpace`): there a remark needs
white space in front of it.
-/

set_option autoImplicit false

namespace LiveSpec.Yaml

/-- A place in a text. -/
structure Cursor where
  rest : List Char
  line : Nat
  column : Nat
  isIndenting : Bool
  deriving Inhabited

namespace Cursor

/-- The start of a text. -/
def start (text : List Char) : Cursor := ⟨text, 0, 0, true⟩

/-- The place behind some characters of the line that are no white space. -/
def pass (cursor : Cursor) (count : Nat) : Cursor :=
  ⟨cursor.rest.drop count, cursor.line, cursor.column + count, false⟩

/-- The place behind some white space of the line. -/
def passSpace (cursor : Cursor) (count : Nat) : Cursor :=
  { cursor with rest := cursor.rest.drop count, column := cursor.column + count }

/-- The place at the end of the line. -/
def passLine (cursor : Cursor) : Cursor :=
  cursor.passSpace (cursor.rest.takeWhile (· ≠ '\n')).length

/-- The place at the start of the next line, for a place at the end of a line. -/
def passBreak (cursor : Cursor) : Cursor := ⟨cursor.rest.drop 1, cursor.line + 1, 0, true⟩

/-- White space behind a token. -/
structure Space where
  cursor : Cursor
  /-- Whether there is a space in it. -/
  hasSpace : Bool
  /-- Whether there is a tab in it. -/
  hasTab : Bool

/-- Passes over white space, and over a remark if one follows it. A remark right behind the token is
refused. -/
def skipSpace (cursor : Cursor) : Option Space :=
  let space := cursor.rest.takeWhile isSpace
  let next := cursor.passSpace space.length
  match next.rest with
  | '#' :: _ => if space.isEmpty then none else some ⟨next.passLine, space.contains ' ', space.contains '\t'⟩
  | _ => some ⟨next, space.contains ' ', space.contains '\t'⟩

/-- Whether nothing but white space and a remark is left of a line. -/
def isBlankLine (rest : List Char) : Bool :=
  match rest.dropWhile isSpace with
  | [] => true
  | c :: _ => c = '\n' || c = '#'

/-- Passes over everything up to the next token. `indentation` is that of the block around the
cursor, if there is one: up to there a line with something on it may not be indented by tabs. -/
def skipGapFrom (indentation : Option Int) (inRemark : Bool) (line column : Nat)
    (isIndenting : Bool) : List Char → Option Cursor
  | [] => some ⟨[], line, column, isIndenting⟩
  | c :: rest =>
    if c = '\n' then skipGapFrom indentation false (line + 1) 0 true rest
    else if inRemark then skipGapFrom indentation true line (column + 1) isIndenting rest
    else if isSpace c then
      let isTooFarOut := indentation.any fun indentation ↦ (column : Int) < indentation
      if c = '\t' && isIndenting && isTooFarOut && !isBlankLine rest then none
      else skipGapFrom indentation false line (column + 1) isIndenting rest
    else if c = '#' then skipGapFrom indentation true line (column + 1) isIndenting rest
    else some ⟨c :: rest, line, column, isIndenting⟩

/-- Passes over everything up to the next token. -/
def skipGap (cursor : Cursor) (indentation : Option Int) : Option Cursor :=
  skipGapFrom indentation false cursor.line cursor.column cursor.isIndenting cursor.rest

/-- Passes over spaces, remarks and line breaks. -/
def passSpacesAndLinesFrom (inRemark : Bool) (line column : Nat) (isIndenting : Bool) :
    List Char → Cursor
  | [] => ⟨[], line, column, isIndenting⟩
  | c :: rest =>
    if c = '\n' then passSpacesAndLinesFrom false (line + 1) 0 true rest
    else if inRemark || c = '#' then passSpacesAndLinesFrom true line (column + 1) isIndenting rest
    else if c = ' ' then passSpacesAndLinesFrom false line (column + 1) isIndenting rest
    else ⟨c :: rest, line, column, isIndenting⟩

/-- Passes over spaces, remarks and line breaks. A tab ends them. -/
def passSpacesAndLines (cursor : Cursor) : Cursor :=
  passSpacesAndLinesFrom false cursor.line cursor.column cursor.isIndenting cursor.rest

end Cursor

end LiveSpec.Yaml
