import LiveSpec.Yaml.Block
import LiveSpec.Yaml.Plain
import LiveSpec.Yaml.Token

/-!
# Reading tokens

A `TokenReader` is a place in a text with the tokens that have been read and not taken. A token can be
taken when it is known that it is not the first of a key, for then the mark of the key, and perhaps
the start of a mapping, go before it (`TokenReader.isReady`).

A key may start at the beginning of a line and behind a mark that opens a node. In a block it has to
end on its line (`KeyMark.isStale`). The levels of indentation decide where blocks start
(`TokenReader.indent`) and end (`TokenReader.unindent`); inside brackets they do not matter.

`tokens` are the tokens of a text.
-/

set_option autoImplicit false

namespace LiveSpec.Yaml

/-- A reader of tokens. -/
structure TokenReader where
  cursor : Cursor
  queue : List PlacedToken := []
  /-- How many tokens have been taken. -/
  taken : Nat := 0
  /-- The levels of indentation around the cursor, the innermost first. -/
  levels : List Level := []
  /-- Where a key may have started. -/
  key : KeyMark := .none
  /-- The same for the brackets around the cursor, the innermost first. -/
  outerKeys : List KeyMark := []
  /-- Whether a key may start here. -/
  allowsKey : Bool := true
  /-- The line and the column at which a colon needs no gap behind it. -/
  adjacentAt : Option (Nat × Nat) := none
  /-- For each pair of square brackets around the cursor, the innermost first: how many brackets are
  open around the pair of a key and a value that stands in it without brackets of its own. -/
  pairs : List (Option Nat) := []
  /-- Whether the keys at the cursor belong to a mapping that has been opened. -/
  isMappingOpened : Bool := false
  deriving Inhabited

namespace TokenReader

/-- How many brackets are open. -/
def flowLevel (reader : TokenReader) : Nat := reader.outerKeys.length

/-- Whether there are brackets around the cursor. -/
def inFlow (reader : TokenReader) : Bool := !reader.outerKeys.isEmpty

/-- The column of the innermost level of indentation, and -1 outside of all. -/
def indentation (reader : TokenReader) : Int :=
  match reader.levels with
  | [] => -1
  | level :: _ => level.column

/-- The number that the next token will have. -/
def nextNumber (reader : TokenReader) : Nat := reader.taken + reader.queue.length

/-- Puts a token behind the others. -/
def push (reader : TokenReader) (token : Token) : TokenReader :=
  { reader with queue := reader.queue ++ [⟨token, reader.cursor.column⟩] }

/-- Puts a token, which starts at a column, before the one with a number. -/
def insert (reader : TokenReader) (number column : Nat) (token : Token) : TokenReader :=
  { reader with queue := reader.queue.insertIdx (number - reader.taken) ⟨token, column⟩ }

/-- The reader at another place. -/
def moveTo (reader : TokenReader) (cursor : Cursor) : TokenReader := { reader with cursor }

/-- Passes over some characters. -/
def pass (reader : TokenReader) (count : Nat) : TokenReader :=
  reader.moveTo (reader.cursor.pass count)

/-- Passes over the gap up to the next token. In a block a key may start on a new line. -/
def skipGap (reader : TokenReader) : Option TokenReader := do
  let cursor ← reader.cursor.skipGap (if reader.levels.isEmpty then none else reader.indentation)
  return { reader with
    cursor
    allowsKey := reader.allowsKey || (!reader.inFlow && cursor.line ≠ reader.cursor.line) }

/-- Passes over the gap behind a token on its line. -/
def skipSpace (reader : TokenReader) : Option TokenReader := do
  let space ← reader.cursor.skipSpace
  return reader.moveTo space.cursor

/-! ### Keys -/

/-- Remembers that a key may start here, if that is so. -/
def saveKey (reader : TokenReader) : TokenReader :=
  if reader.allowsKey then
    { reader with
      key :=
        { isPossible := true
          isRequired := !reader.inFlow && reader.indentation = reader.cursor.column &&
            reader.levels.head?.any Level.isBlock
          number := reader.nextNumber
          line := reader.cursor.line
          column := reader.cursor.column } }
  else reader

/-- Forgets that a key may have started, unless nothing but a key may stand there. -/
def removeKey (reader : TokenReader) : Option TokenReader :=
  if reader.key.isPossible && reader.key.isRequired then none
  else some { reader with key := { reader.key with isPossible := false } }

/-- Says whether a key may start here. -/
def setAllowsKey (reader : TokenReader) (allowsKey : Bool) : TokenReader := { reader with allowsKey }

/-- Forgets the key that may have started when it is too long by now. -/
def dropStaleKey (reader : TokenReader) : Option TokenReader :=
  if !reader.inFlow && reader.key.isStale reader.cursor then reader.removeKey else some reader

/-- The reader at the start of a node that may be a key. Behind the start of the node no key may
start. -/
def startNode (reader : TokenReader) : TokenReader := reader.saveKey.setAllowsKey false

/-! ### Indentation -/

/-- Ends the levels that are indented further than a column. -/
def unindent (reader : TokenReader) (column : Int) : TokenReader :=
  if reader.inFlow then reader
  else
    let isInner (level : Level) : Bool := column < level.column
    let blocks := (reader.levels.takeWhile isInner).filter Level.isBlock
    { reader with
      levels := reader.levels.dropWhile isInner
      queue := reader.queue ++ blocks.map fun _ ↦ ⟨.blockEnd, reader.cursor.column⟩ }

/-- Leaves the levels that belong to no block. -/
def leaveLines (reader : TokenReader) : TokenReader :=
  { reader with levels := reader.levels.dropWhile fun level ↦ !level.isBlock }

/-- Starts a block at a column, if it is indented further. The token goes before the one with a
number. -/
def indent (reader : TokenReader) (column number : Nat) (token : Token) : TokenReader :=
  if reader.inFlow then reader
  else
    let levels := match reader.levels with
      | level :: outer => if level.column ≤ column && !level.isBlock then outer else level :: outer
      | [] => []
    let reader := { reader with levels }
    if reader.indentation < (column : Int) then
      { reader.insert number column token with levels := ⟨column, true⟩ :: levels }
    else reader

/-- Keeps what follows on the line apart from the block around it. -/
def enterLine (reader : TokenReader) : TokenReader :=
  match reader.levels with
  | level :: _ =>
    if !reader.inFlow && level.isBlock then
      { reader with levels := ⟨level.column + 1, false⟩ :: reader.levels }
    else reader
  | [] => reader

/-! ### Brackets -/

/-- The greatest number of brackets that may be open. -/
def maxFlowLevel : Nat := 255

/-- Ends the pair that stands in square brackets without brackets of its own. -/
def closePair (reader : TokenReader) : TokenReader :=
  match reader.pairs with
  | some level :: outer =>
    if level = reader.flowLevel then
      { reader.push .flowMappingEnd with pairs := none :: outer, isMappingOpened := false }
    else reader
  | _ => reader

/-- Reads an opening bracket. -/
def readOpening (reader : TokenReader) (isSequence : Bool) : Option TokenReader := do
  let reader := reader.saveKey.enterLine
  if maxFlowLevel ≤ reader.flowLevel then none
  let column := reader.cursor.column
  let opened ←
    ({ reader with
        key := .none
        outerKeys := reader.key :: reader.outerKeys
        allowsKey := true
        isMappingOpened := !isSequence || reader.isMappingOpened
        pairs := if isSequence then none :: reader.pairs else reader.pairs }.pass 1).skipSpace
  let token : Token := if isSequence then .flowSequenceStart else .flowMappingStart
  return { opened with queue := opened.queue ++ [⟨token, column⟩] }

/-- Reads a closing bracket. -/
def readClosing (reader : TokenReader) (isSequence : Bool) : Option TokenReader := do
  match reader.outerKeys with
  | [] => none
  | outerKey :: outerKeys =>
    let reader ← reader.removeKey
    let reader :=
      if isSequence then
        let reader := reader.closePair
        { reader with pairs := reader.pairs.drop 1 }
      else reader
    let reader ←
      ({ reader with key := outerKey, outerKeys, allowsKey := false }.pass 1).skipSpace
    let reader :=
      if reader.inFlow then
        { reader with adjacentAt := some (reader.cursor.line, reader.cursor.column) }
      else reader
    return reader.push (if isSequence then .flowSequenceEnd else .flowMappingEnd)

/-- Reads a comma between brackets. -/
def readFlowEntry (reader : TokenReader) : Option TokenReader := do
  let reader ← reader.removeKey
  let reader ← ((reader.setAllowsKey true).closePair.pass 1).skipSpace
  return reader.push .flowEntry

/-! ### Marks of nodes -/

/-- Reads the hyphen of an item in a block. -/
def readBlockEntry (reader : TokenReader) : Option TokenReader := do
  if reader.inFlow || !reader.allowsKey then none
  let column := reader.cursor.column
  if column = 0 && 0 ≤ reader.indentation &&
      reader.queue.getLast?.any (fun last ↦ last.token.isProperty && last.column = 0) then none
  let reader := (reader.pass 1).indent column reader.nextNumber .blockSequenceStart
  let space ← reader.cursor.skipSpace
  let rest := space.cursor.rest
  if space.hasTab && rest.head? = some '-' && startsWithGap (rest.drop 1) then none
  let reader := reader.moveTo space.cursor
  let isLineOfItem := rest.head? = some '\n' || startsWithFlowMark rest
  let reader ← (if isLineOfItem then reader.enterLine else reader).removeKey
  return (reader.setAllowsKey true).push .blockEntry

/-- Reads the question mark in front of a key. It needs a space or a new line behind it. -/
def readKeyMark (reader : TokenReader) : Option TokenReader := do
  if !reader.inFlow && !reader.allowsKey then none
  let reader :=
    if reader.inFlow then { reader with isMappingOpened := true }
    else reader.indent reader.cursor.column reader.nextNumber .blockMappingStart
  let reader ← reader.removeKey
  let behindMark := reader.cursor.pass 1
  let next := behindMark.passSpacesAndLines
  if next.rest.length = behindMark.rest.length || next.rest.head? = some '\t' then none
  return ((reader.moveTo next).setAllowsKey !reader.inFlow).push .key

/-- Reads the colon in front of a value. What may be a key becomes one. -/
def readValueMark (reader : TokenReader) : Option TokenReader := do
  let mark := reader.key
  let line := reader.cursor.line
  let column := reader.cursor.column
  let isPair := !reader.pairs.isEmpty && !reader.isMappingOpened
  let reader :=
    if isPair then { reader with pairs := some reader.flowLevel :: reader.pairs.drop 1 } else reader
  let behindMark := reader.cursor.pass 1
  let behind ←
    if behindMark.rest.head? = some '\t' then do
      let space ← behindMark.skipSpace
      if !space.hasSpace && space.cursor.rest.head?.any isNameCharacter then none
      some space.cursor
    else some behindMark
  let reader := reader.moveTo behind
  if mark.isPossible then
    if isPair && mark.line < line then none
    let reader := reader.insert mark.number mark.column .key
    let reader := if isPair then reader.insert mark.number mark.column .flowMappingStart else reader
    let reader := (reader.indent mark.column mark.number .blockMappingStart).enterLine
    return { reader with key := { mark with isPossible := false }, allowsKey := false }.push .value
  else
    let reader := if isPair then reader.push .flowMappingStart else reader
    if !reader.inFlow && !reader.allowsKey then none
    let reader := (reader.indent column reader.nextNumber .blockMappingStart).enterLine
    return (reader.setAllowsKey !reader.inFlow).push .value

/-- Reads a colon without a gap behind it in brackets. -/
def readFlowValueMark (reader : TokenReader) : Option TokenReader :=
  let isAdjacent := reader.adjacentAt = some (reader.cursor.line, reader.cursor.column)
  let next := (reader.cursor.rest.drop 1).head?
  if !isAdjacent && (next = some '[' || next = some '\x7b') then none else reader.readValueMark

/-! ### Nodes without parts -/

/-- Reads something that starts at the cursor and becomes one token. -/
def readToken (reader : TokenReader) (read : Cursor → Option (Token × Cursor)) :
    Option TokenReader := do
  let column := reader.cursor.column
  let (token, behind) ← read reader.cursor
  return { reader.moveTo behind with queue := reader.queue ++ [⟨token, column⟩] }

/-- Reads an alias. -/
def readAlias (reader : TokenReader) : Option TokenReader :=
  reader.startNode.readToken fun cursor ↦
    cursor.readName.map fun (name, behind) ↦ (.alias name, behind)

/-- Reads an anchor. -/
def readAnchor (reader : TokenReader) : Option TokenReader :=
  reader.startNode.readToken fun cursor ↦
    cursor.readName.map fun (name, behind) ↦ (.anchor name, behind)

/-- Reads a tag. -/
def readTag (reader : TokenReader) : Option TokenReader :=
  reader.startNode.readToken fun cursor ↦
    (cursor.readTag reader.inFlow).map fun (handle, behind) ↦ (.tag handle, behind)

/-- Reads a block scalar. -/
def readBlock (reader : TokenReader) (isLiteral : Bool) : Option TokenReader :=
  let reader := (reader.saveKey.setAllowsKey true).leaveLines
  reader.readToken fun cursor ↦
    (cursor.readBlock isLiteral reader.indentation).map fun (text, behind) ↦
      (.scalar text false, behind)

/-- Reads a scalar in quotes. A colon may follow it without a gap behind it. -/
def readQuoted (reader : TokenReader) : Option TokenReader := do
  let read ← reader.startNode.readToken fun cursor ↦
    (cursor.readQuoted reader.indentation reader.inFlow).map fun (text, behind) ↦
      (.scalar text true, behind)
  let read ← read.skipGap
  return { read with adjacentAt := some (read.cursor.line, read.cursor.column) }

/-- Reads a plain scalar. -/
def readPlain (reader : TokenReader) : Option TokenReader := do
  let reader := reader.startNode.leaveLines
  let scalar ← reader.cursor.readPlain (reader.indentation + 1) reader.inFlow
  let column := reader.cursor.column
  return { reader.moveTo scalar.cursor with
    queue := reader.queue ++ [⟨.scalar scalar.text false, column⟩]
    allowsKey := scalar.endsWithLine }

/-! ### Texts -/

/-- The reader between two documents. -/
def leaveDocument (reader : TokenReader) : Option TokenReader := do
  let reader ← (reader.unindent (-1)).removeKey
  return reader.setAllowsKey false

/-- Reads a directive. -/
def readDirective (reader : TokenReader) : Option TokenReader := do
  let reader ← reader.leaveDocument
  reader.readToken fun cursor ↦
    cursor.readDirective.map fun (directive, behind) ↦ (.directive directive, behind)

/-- Reads the mark that begins a document. -/
def readDocumentStart (reader : TokenReader) : Option TokenReader := do
  let reader ← reader.leaveDocument
  return (reader.pass 3).push .documentStart

/-- Reads the mark that ends a document. Nothing may follow it on its line. -/
def readDocumentEnd (reader : TokenReader) : Option TokenReader := do
  let reader ← reader.leaveDocument
  let reader ← ((reader.pass 3).push .documentEnd).skipSpace
  if isAtLineEnd reader.cursor.rest then return reader else none

/-- Reads the end of a text. No key that is required may be missing its colon. -/
def readTextEnd (reader : TokenReader) : Option TokenReader := do
  let reader ← reader.removeKey
  if reader.outerKeys.any fun mark ↦ mark.isPossible && mark.isRequired then none
  let forget (mark : KeyMark) : KeyMark := { mark with isPossible := false }
  let reader := { reader with outerKeys := reader.outerKeys.map forget }
  return ((reader.unindent (-1)).setAllowsKey false).push .textEnd

/-- Reads what starts with a character that `rest` follows. -/
def readNode (reader : TokenReader) (first : Char) (rest : List Char) : Option TokenReader :=
  let isMark := startsWithGap rest
  let isAdjacent := reader.adjacentAt = some (reader.cursor.line, reader.cursor.column)
  match first with
  | '[' => reader.readOpening true
  | '\x7b' => reader.readOpening false
  | ']' => reader.readClosing true
  | '\x7d' => reader.readClosing false
  | ',' => reader.readFlowEntry
  | '-' => if isMark then reader.readBlockEntry else reader.readPlain
  | '?' => if isMark then reader.readKeyMark else reader.readPlain
  | ':' =>
    if isMark then reader.readValueMark
    else if reader.inFlow && (startsWithFlowMark rest || isAdjacent) then reader.readFlowValueMark
    else reader.readPlain
  | '*' => reader.readAlias
  | '&' => reader.readAnchor
  | '!' => reader.readTag
  | '|' => if reader.inFlow then reader.readPlain else reader.readBlock true
  | '>' => if reader.inFlow then reader.readPlain else reader.readBlock false
  | '\'' => reader.readQuoted
  | '"' => reader.readQuoted
  | '%' => none
  | '@' => none
  | '\x60' => none
  | _ => reader.readPlain

/-- Reads the next tokens. -/
def read (reader : TokenReader) : Option TokenReader := do
  let reader ← reader.skipGap
  let reader ← reader.dropStaleKey
  let reader := reader.unindent reader.cursor.column
  match reader.cursor.rest with
  | [] => reader.readTextEnd
  | first :: rest =>
    let isAtMargin := reader.cursor.column = 0
    if isAtMargin && first = '%' then reader.readDirective
    else if isAtMargin && startsWithTriple '-' (first :: rest) then reader.readDocumentStart
    else if isAtMargin && startsWithTriple '.' (first :: rest) then reader.readDocumentEnd
    else if (reader.cursor.column : Int) < reader.indentation then none
    else reader.readNode first rest

/-- Whether the next token can be taken: nothing may have to go before it. -/
def isReady (reader : TokenReader) : Bool :=
  (reader.key :: reader.outerKeys).all fun mark ↦ !(mark.isPossible && mark.number = reader.taken)

/-- Takes the tokens that can be taken. -/
def takeFrom (reader : TokenReader) : List PlacedToken → List Token × TokenReader
  | [] => ([], { reader with queue := [] })
  | next :: queue =>
    if reader.isReady then
      let (tokens, reader) := takeFrom { reader with taken := reader.taken + 1 } queue
      (next.token :: tokens, reader)
    else ([], { reader with queue := next :: queue })

/-- The tokens that the reader gives when it reads at most `bound` times. -/
def tokensUpTo : Nat → TokenReader → List Token
  | 0, _ => [.fault]
  | bound + 1, reader =>
    match reader.dropStaleKey with
    | none => [.fault]
    | some reader =>
      let (tokens, reader) := reader.takeFrom reader.queue
      if tokens.getLast? = some .textEnd then tokens
      else
        tokens ++
          match reader.read with
          | none => [.fault]
          | some reader => tokensUpTo bound reader

end TokenReader

/-- The tokens of a text. Each time at least one character is read, and then the end. -/
def tokens (text : List Char) : List Token :=
  let text := unified text
  TokenReader.tokensUpTo (text.length + 2) { cursor := .start text }

end LiveSpec.Yaml
