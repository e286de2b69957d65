import LiveSpec.Yaml.Cursor

/-!
# Scalars in quotes

A scalar in single quotes stands for its characters, a quote being written twice. In double quotes a
backslash starts an escape. White space around a line break is dropped; one break stands for a space,
further ones for line feeds. A backslash in front of a break joins the lines without a space.

The lines of a scalar that stands in a block have to be indented like the block
(`Cursor.readQuoted`), and no line of it may look like the mark of a document.
-/

set_option autoImplicit false

namespace LiveSpec.Yaml

/-- What has been passed since the last character of a scalar that is no white space. -/
inductive PendingGap where
  | none
  /-- White space on one line, backwards. -/
  | space (passed : List Char)
  /-- A line break, whether it was escaped, and how many breaks followed it. -/
  | fold (isEscaped : Bool) (further : Nat)
  deriving DecidableEq, Inhabited

/-- Puts behind a text, which is kept backwards, what a gap in it stands for. -/
def PendingGap.close (text : List Char) : PendingGap → List Char
  | none => text
  | space passed => passed ++ text
  | fold true further => List.replicate further '\n' ++ text
  | fold false 0 => ' ' :: text
  | fold false further => List.replicate further '\n' ++ text

/-- The gap with one more line break. -/
def PendingGap.addBreak : PendingGap → PendingGap
  | fold isEscaped further => fold isEscaped (further + 1)
  | _ => fold false 0

/-- What the reader of a scalar in double quotes is in. -/
inductive QuotedMode where
  | text
  | escape
  /-- The code of a character, with the number of digits that are missing. -/
  | code (missing value : Nat)
  deriving DecidableEq, Inhabited

/-- What an escape with a letter stands for. -/
def escaped? : Char → Option QuotedMode × Option Char
  | '0' => (none, some '\x00')
  | 'a' => (none, some '\x07')
  | 'b' => (none, some '\x08')
  | 't' => (none, some '\t')
  | '\t' => (none, some '\t')
  | 'n' => (none, some '\n')
  | 'v' => (none, some '\x0b')
  | 'f' => (none, some '\x0c')
  | 'r' => (none, some '\r')
  | 'e' => (none, some '\x1b')
  | ' ' => (none, some ' ')
  | '"' => (none, some '"')
  | '/' => (none, some '/')
  | '\\' => (none, some '\\')
  | 'N' => (none, some '\u0085')
  | '_' => (none, some '\u00a0')
  | 'L' => (none, some '\u2028')
  | 'P' => (none, some '\u2029')
  | 'x' => (some (.code 2 0), none)
  | 'u' => (some (.code 4 0), none)
  | 'U' => (some (.code 8 0), none)
  | _ => (none, none)

/-- Whether a line of a quoted scalar may go on with some characters at a column. -/
def isQuotedLine (indentation : Int) (column : Nat) (rest : List Char) : Bool :=
  indentation ≤ column && !(column = 0 && startsWithDocumentMark rest)

/-- Reads the inside of a scalar in quotes up to the closing one. `text` is kept backwards. -/
def readQuotedFrom (quote : Char) (indentation : Int) (line column : Nat) (isIndenting : Bool)
    (mode : QuotedMode) (gap : PendingGap) (text : List Char) :
    List Char → Option (String × Cursor)
  | [] => none
  | c :: rest =>
    match mode with
    | .escape =>
      if c = '\n' then
        readQuotedFrom quote indentation (line + 1) 0 true .text (.fold true 0) text rest
      else
        match escaped? c with
        | (some mode, _) =>
          readQuotedFrom quote indentation line (column + 1) false mode .none text rest
        | (none, some meant) =>
          readQuotedFrom quote indentation line (column + 1) false .text .none (meant :: text) rest
        | (none, none) => none
    | .code missing value =>
      match hexValue? c with
      | none => none
      | some digit =>
        let value := 16 * value + digit
        if 1 < missing then
          readQuotedFrom quote indentation line (column + 1) false (.code (missing - 1) value) .none
            text rest
        else
          match characterOf? value with
          | none => none
          | some meant =>
            readQuotedFrom quote indentation line (column + 1) false .text .none (meant :: text) rest
    | .text =>
      if c = '\n' then
        readQuotedFrom quote indentation (line + 1) 0 true .text gap.addBreak text rest
      else if isSpace c then
        match gap with
        | .fold .. =>
          if c = '\t' && (column : Int) < indentation then none
          else readQuotedFrom quote indentation line (column + 1) isIndenting .text gap text rest
        | .space passed =>
          readQuotedFrom quote indentation line (column + 1) isIndenting .text (.space (c :: passed))
            text rest
        | .none =>
          readQuotedFrom quote indentation line (column + 1) isIndenting .text (.space [c]) text rest
      else if c = quote && gap = .fold true 0 && column = 0 then
        some (String.ofList text.reverse, ⟨rest, line, column + 1, false⟩)
      else if gap ≠ .none && !isQuotedLine indentation column (c :: rest) then none
      else
        let text := gap.close text
        if c ≠ quote then
          if c = '\\' && quote = '"' then
            readQuotedFrom quote indentation line (column + 1) false .escape .none text rest
          else readQuotedFrom quote indentation line (column + 1) false .text .none (c :: text) rest
        else
          match rest with
          | '\'' :: rest' =>
            if quote = '\'' then
              readQuotedFrom quote indentation line (column + 2) false .text .none ('\'' :: text) rest'
            else some (String.ofList text.reverse, ⟨rest, line, column + 1, false⟩)
          | _ => some (String.ofList text.reverse, ⟨rest, line, column + 1, false⟩)

/-- Whether a scalar in quotes that ends at a place may be followed by some text. In a block, a colon
makes it a key, which stands on one line. -/
def mayFollowQuoted (inFlow isOneLine : Bool) : List Char → Bool
  | [] => true
  | c :: _ =>
    c = '\n' || (inFlow && (c = ',' || c = ']' || c = '\x7d')) || (c = ':' && (inFlow || isOneLine))

/-- Reads a scalar in quotes from its opening quote on. -/
def Cursor.readQuoted (cursor : Cursor) (indentation : Int) (inFlow : Bool) :
    Option (String × Cursor) :=
  match cursor.rest with
  | [] => none
  | quote :: rest => do
    let (text, behind) ←
      readQuotedFrom quote indentation cursor.line (cursor.column + 1) false .text .none [] rest
    let space ← behind.skipSpace
    if mayFollowQuoted inFlow (cursor.line = behind.line) space.cursor.rest then
      return (text, space.cursor)
    else none

end LiveSpec.Yaml
