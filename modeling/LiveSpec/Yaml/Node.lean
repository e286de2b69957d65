import LiveSpec.Yaml.TokenReader

/-!
# Documents of YAML

A document is a node: a scalar, a sequence, a mapping or an alias for a node with an anchor. Where
something is missing, as the value behind a colon at the end of a line, there is an empty scalar.

`Node.ofText?` reads the first document of a text. What follows it is not looked at, apart from the
one token behind it.
-/

set_option autoImplicit false

namespace LiveSpec.Yaml

/-- A node of a document. -/
inductive Node where
  | scalar (text : String) (isQuoted : Bool)
  | alias (name : String)
  | sequence (items : List Node)
  | mapping (entries : List (Node × Node))
  deriving Repr, Inhabited

/-- The node that stands where nothing is written. -/
def Node.missing : Node := .scalar "" false

/-- The rest of the tokens of a document, and what has been declared in front of them. -/
structure NodeReader where
  tokens : List Token
  /-- The handles of tags. -/
  handles : List String := []
  /-- The names of the nodes so far. -/
  anchors : List String := []
  deriving Inhabited

namespace NodeReader

/-- The next token. -/
def next (reader : NodeReader) : Token := reader.tokens.headD .fault

/-- Passes over the next token. -/
def skip (reader : NodeReader) : NodeReader := { reader with tokens := reader.tokens.drop 1 }

/-- Whether a tag with a handle may be used. -/
def isDeclared (reader : NodeReader) (handle : String) : Bool :=
  handle = "" || handle = "!!" || reader.handles.contains handle

/-- Passes over a tag or an anchor. -/
def passProperty (reader : NodeReader) : Option NodeReader :=
  match reader.next with
  | .anchor name => some { reader.skip with anchors := name :: reader.anchors }
  | .tag handle => if reader.isDeclared handle then some reader.skip else none
  | _ => some reader

/-- Passes over an anchor, a tag, or one of each. The result also says whether there was one. -/
def passProperties (reader : NodeReader) : Option (NodeReader × Bool) := do
  let behind ← reader.passProperty
  let isSecond := match reader.next, behind.next with
    | .anchor _, .tag _ => true
    | .tag _, .anchor _ => true
    | _, _ => false
  let behind ← if isSecond then behind.passProperty else some behind
  return (behind, reader.next.isProperty)

/-- Where a node stands. -/
inductive Position where
  /-- Inside brackets. -/
  | flow
  /-- In a document or as an item of a sequence in a block. -/
  | item
  /-- As a key or a value of a mapping in a block, where a sequence need not be indented. -/
  | entry
  deriving DecidableEq, Repr, Inhabited

/-- Whether nothing stands behind a mark in a block: the next token is the mark of something else.
In a mapping, and in a sequence that is not indented, marks of keys and values count. -/
def isMissing (reader : NodeReader) (beforeEntry beforePair : Bool) : Bool :=
  match reader.next with
  | .blockEnd => true
  | .blockEntry => beforeEntry
  | .key => beforePair
  | .value => beforePair
  | _ => false

/-- Whether nothing stands behind a mark in brackets. -/
def isMissingInFlow (reader : NodeReader) (closing : Token) : Bool :=
  reader.next = .flowEntry || reader.next = closing

/-- Passes over the comma between the items of a collection in brackets. There need be none in front
of the first item and in front of the closing bracket. -/
def passFlowEntry (reader : NodeReader) (isFirst : Bool) (closing : Token) : Option NodeReader :=
  if isFirst || reader.next = closing then some reader
  else if reader.next = .flowEntry then some reader.skip
  else none

mutual

/-- Reads a node. `bound` limits the number of steps. -/
def readNode : (bound : Nat) → Position → NodeReader → Option (Node × NodeReader)
  | 0, _, _ => none
  | bound + 1, position, reader =>
    match reader.next with
    | .alias name =>
      if reader.anchors.contains name then some (.alias name, reader.skip) else none
    | _ => do
      let (reader, hasProperty) ← reader.passProperties
      let missing := if hasProperty then some (Node.missing, reader) else none
      match reader.next with
      | .scalar text isQuoted => return (.scalar text isQuoted, reader.skip)
      | .flowSequenceStart =>
        let (items, reader) ← readFlowItems bound true reader.skip
        return (.sequence items, reader)
      | .flowMappingStart =>
        let (entries, reader) ← readFlowEntries bound true reader.skip
        return (.mapping entries, reader)
      | .blockEntry =>
        if position = .entry then
          let (items, reader) ← readLooseItems bound reader
          return (.sequence items, reader)
        else missing
      | .blockSequenceStart =>
        if position ≠ .flow then
          let (items, reader) ← readBlockItems bound reader.skip
          return (.sequence items, reader)
        else missing
      | .blockMappingStart =>
        if position ≠ .flow then
          let (entries, reader) ← readBlockEntries bound reader.skip
          return (.mapping entries, reader)
        else missing
      | .fault => none
      | _ => missing

/-- Reads the items of a sequence in a block and its end. -/
def readBlockItems : (bound : Nat) → NodeReader → Option (List Node × NodeReader)
  | 0, _ => none
  | bound + 1, reader =>
    match reader.next with
    | .blockEnd => some ([], reader.skip)
    | .blockEntry => do
      let reader := reader.skip
      let (item, reader) ←
        if reader.isMissing true false then some (Node.missing, reader)
        else readNode bound .item reader
      let (items, reader) ← readBlockItems bound reader
      return (item :: items, reader)
    | _ => none

/-- Reads the items of a sequence that is indented like the mapping around it. -/
def readLooseItems : (bound : Nat) → NodeReader → Option (List Node × NodeReader)
  | 0, _ => none
  | bound + 1, reader =>
    match reader.next with
    | .blockEntry => do
      let reader := reader.skip
      let (item, reader) ←
        if reader.isMissing true true then some (Node.missing, reader)
        else readNode bound .item reader
      let (items, reader) ← readLooseItems bound reader
      return (item :: items, reader)
    | .fault => none
    | _ => some ([], reader)

/-- Reads the keys and values of a mapping in a block and its end. -/
def readBlockEntries : (bound : Nat) → NodeReader → Option (List (Node × Node) × NodeReader)
  | 0, _ => none
  | bound + 1, reader =>
    if reader.next = .blockEnd then some ([], reader.skip)
    else if reader.next ≠ .key && reader.next ≠ .value then none
    else do
      let (key, reader) ← readBlockPart bound .key reader
      let (value, reader) ← readBlockPart bound .value reader
      let (entries, reader) ← readBlockEntries bound reader
      return ((key, value) :: entries, reader)

/-- Reads what stands behind the mark of a key or a value in a block. Without the mark it is
missing. -/
def readBlockPart : (bound : Nat) → Token → NodeReader → Option (Node × NodeReader)
  | 0, _, _ => none
  | bound + 1, mark, reader =>
    if reader.next = .fault then none
    else if reader.next ≠ mark then some (Node.missing, reader)
    else
      let reader := reader.skip
      if reader.isMissing false true then some (Node.missing, reader)
      else readNode bound .entry reader

/-- Reads the items of a sequence in brackets and the closing bracket. -/
def readFlowItems : (bound : Nat) → (isFirst : Bool) → NodeReader → Option (List Node × NodeReader)
  | 0, _, _ => none
  | bound + 1, isFirst, reader => do
    let reader ← reader.passFlowEntry isFirst .flowSequenceEnd
    if reader.next = .flowSequenceEnd then return ([], reader.skip)
    let (item, reader) ←
      if reader.next = .key then readFlowPair bound reader.skip
      else readNode bound .flow reader
    let (items, reader) ← readFlowItems bound false reader
    return (item :: items, reader)

/-- Reads the only entry of a mapping without brackets of its own in a sequence, behind the mark of
its key. A mark that stands in the place of the key is passed over. -/
def readFlowPair : (bound : Nat) → NodeReader → Option (Node × NodeReader)
  | 0, _ => none
  | bound + 1, reader => do
    let (key, reader) ←
      if reader.next = .value || reader.isMissingInFlow .flowSequenceEnd then
        some (Node.missing, reader.skip)
      else readNode bound .flow reader
    let (value, reader) ← readFlowValue bound .flowSequenceEnd reader
    return (.mapping [(key, value)], reader)

/-- Reads the mark of a value in brackets and what stands behind it. Without the mark it is
missing. -/
def readFlowValue : (bound : Nat) → (closing : Token) → NodeReader → Option (Node × NodeReader)
  | 0, _, _ => none
  | bound + 1, closing, reader =>
    if reader.next = .fault then none
    else if reader.next ≠ .value then some (Node.missing, reader)
    else if reader.skip.isMissingInFlow closing then some (Node.missing, reader.skip)
    else readNode bound .flow reader.skip

/-- Reads the keys and values of a mapping in brackets and the closing bracket. -/
def readFlowEntries : (bound : Nat) → (isFirst : Bool) → NodeReader →
    Option (List (Node × Node) × NodeReader)
  | 0, _, _ => none
  | bound + 1, isFirst, reader => do
    let reader ← reader.passFlowEntry isFirst .flowMappingEnd
    if reader.next = .flowMappingEnd then return ([], reader.skip)
    let (entry, reader) ← readFlowEntry bound reader
    let (entries, reader) ← readFlowEntries bound false reader
    return (entry :: entries, reader)

/-- Reads a key and its value in brackets. A node without the mark of a key has no value. -/
def readFlowEntry : (bound : Nat) → NodeReader → Option ((Node × Node) × NodeReader)
  | 0, _ => none
  | bound + 1, reader => do
    match reader.next with
    | .key =>
      let reader := reader.skip
      let (key, reader) ←
        if reader.next = .value || reader.isMissingInFlow .flowMappingEnd then
          some (Node.missing, reader)
        else readNode bound .flow reader
      let (value, reader) ← readFlowValue bound .flowMappingEnd reader
      return ((key, value), reader)
    | .value =>
      let (value, reader) ← readFlowValue bound .flowMappingEnd reader
      return ((Node.missing, value), reader)
    | _ =>
      let (key, reader) ← readNode bound .flow reader
      return ((key, Node.missing), reader)

end

/-- Passes over the directives in front of a document. The version may be given once; a declaration
of a handle takes back the one before it. -/
def passDirectives (hasVersion : Bool) (handles : List String) :
    List Token → Option NodeReader
  | .directive .version :: rest => if hasVersion then none else passDirectives true [] rest
  | .directive (.handle handle) :: rest => passDirectives hasVersion [handle] rest
  | .directive .unknown :: rest => passDirectives hasVersion [] rest
  | tokens => some { tokens, handles }

/-- Reads a node that is a whole document. At most four steps are taken from one token to the next. -/
def readRoot (reader : NodeReader) : Option (Node × NodeReader) :=
  readNode (4 * reader.tokens.length + 4) .item reader

/-- Reads a document behind its mark. -/
def readContent (reader : NodeReader) : Option (Node × NodeReader) :=
  match reader.next with
  | .directive _ => some (Node.missing, reader)
  | .documentStart => some (Node.missing, reader)
  | .documentEnd => some (Node.missing, reader)
  | .textEnd => some (Node.missing, reader)
  | _ => reader.readRoot

/-- Reads the first document. There need be none. -/
def readDocument (tokens : List Token) : Option (Node × NodeReader) :=
  let tokens := tokens.dropWhile (· = .documentEnd)
  match tokens with
  | [] => none
  | .textEnd :: _ => some (Node.missing, { tokens })
  | first :: _ => do
    let reader ← passDirectives false [] tokens
    if reader.next = .documentStart then reader.skip.readContent
    else match first with
      | .directive _ => none
      | _ => reader.readRoot

end NodeReader

/-- Reads the first document of a text. An empty text holds an empty document. -/
def Node.ofText? (text : List Char) : Option Node := do
  let (node, reader) ← NodeReader.readDocument (tokens text)
  match reader.next with
  | .fault => none
  | .directive _ => none
  | _ => return node

end LiveSpec.Yaml
