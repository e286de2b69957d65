import LiveSpec.Yaml.Quoted

/-!
# Scalars without quotes

A plain scalar is a run of words. It ends before a colon with a gap behind it, before a remark, and,
inside brackets, before a mark of flow collections. In a block it goes on over the lines that are
indented further than the block; the gaps between its words are folded as in quotes, and the gap
behind its last word does not belong to it.

`Cursor.readPlain` also says whether the scalar was ended by a new line, where a key may start.
-/

set_option autoImplicit false

namespace LiveSpec.Yaml

/-- Whether a character can be part of a plain scalar, by what follows it. -/
def isPlainCharacter (inFlow : Bool) (c : Char) (rest : List Char) : Bool :=
  if c = ':' then !(startsWithGap rest || (inFlow && startsWithFlowMark rest))
  else !(inFlow && isFlowMark c)

/-- A plain scalar of which some words have been read. -/
structure PlainDraft where
  /-- The words so far, backwards. -/
  text : List Char
  gap : PendingGap
  /-- Whether the last character belongs to a word. -/
  inWord : Bool
  /-- Whether the rest of the line is a remark behind a tab. -/
  inRemark : Bool

/-- What has been read, and where it ends. -/
structure PlainScalar where
  text : String
  cursor : Cursor
  /-- Whether the scalar was ended by a new line. -/
  endsWithLine : Bool

namespace PlainDraft

/-- The scalar that ends at a place. An empty one is refused. -/
def finish (draft : PlainDraft) (isIndenting : Bool) (line column : Nat) (rest : List Char) :
    Option PlainScalar :=
  if draft.text.isEmpty then none
  else some ⟨String.ofList draft.text.reverse, ⟨rest, line, column, isIndenting⟩, isIndenting⟩

/-- Whether a word may start with a character that follows a gap. -/
inductive WordStart where
  | word
  | stop
  | refused

/-- What a character at the start of a word means. `indentation` is the least column of a line that
continues the scalar. -/
def wordStart (draft : PlainDraft) (inFlow : Bool) (indentation : Int) (isIndenting : Bool)
    (column : Nat) (c : Char) (rest : List Char) : WordStart :=
  if draft.gap ≠ .none && !inFlow && (column : Int) < indentation then .stop
  else if c = '#' || (isIndenting && startsWithDocumentMark (c :: rest)) then .stop
  else if inFlow && c = '-' && startsWithFlowMark rest then .refused
  else .word

/-- Reads a plain scalar from a place on. -/
def read (inFlow : Bool) (indentation : Int) (draft : PlainDraft) (isIndenting : Bool)
    (line column : Nat) : List Char → Option PlainScalar
  | [] => draft.finish isIndenting line column []
  | c :: rest =>
    if c = '\n' then
      read inFlow indentation
        { draft with gap := draft.gap.addBreak, inWord := false, inRemark := false } true (line + 1) 0
        rest
    else if draft.inRemark then read inFlow indentation draft isIndenting line (column + 1) rest
    else if isSpace c then
      if isIndenting then
        if c = '\t' && (column : Int) < indentation then
          if Cursor.isBlankLine rest then
            read inFlow indentation
              { draft with inRemark := (rest.dropWhile isSpace).head? = some '#' } isIndenting line
              (column + 1) rest
          else none
        else read inFlow indentation { draft with inWord := false } isIndenting line (column + 1) rest
      else
        let passed := match draft.gap with
          | .space passed => passed
          | _ => []
        read inFlow indentation { draft with gap := .space (c :: passed), inWord := false } isIndenting
          line (column + 1) rest
    else
      let start := if draft.inWord then .word
        else draft.wordStart inFlow indentation isIndenting column c rest
      match start with
      | .refused => none
      | .stop => draft.finish isIndenting line column (c :: rest)
      | .word =>
        if isPlainCharacter inFlow c rest then
          read inFlow indentation ⟨c :: draft.gap.close draft.text, .none, true, false⟩ false line
            (column + 1) rest
        else draft.finish isIndenting line column (c :: rest)

end PlainDraft

/-- Reads a plain scalar. `indentation` is the least column of a line that continues it; inside
brackets its first line has to be indented as far. -/
def Cursor.readPlain (cursor : Cursor) (indentation : Int) (inFlow : Bool) : Option PlainScalar :=
  if inFlow && (cursor.column : Int) < indentation then none
  else
    PlainDraft.read inFlow indentation ⟨[], .none, false, false⟩ cursor.isIndenting cursor.line
      cursor.column cursor.rest

end LiveSpec.Yaml
