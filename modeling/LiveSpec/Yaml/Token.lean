import LiveSpec.Yaml.Tag

/-!
# Tokens of YAML

The words and marks of a text in order. Where a block begins or ends there is a token too, although
nothing is written there. A text that breaks a rule has the tokens up to that place and the token
`fault` behind them, so that the first document of a text can be read whatever comes later.
-/

set_option autoImplicit false

namespace LiveSpec.Yaml

/-- A token. -/
inductive Token where
  | directive (directive : Directive)
  | documentStart
  | documentEnd
  | blockSequenceStart
  | blockMappingStart
  | blockEnd
  | flowSequenceStart
  | flowSequenceEnd
  | flowMappingStart
  | flowMappingEnd
  /-- The hyphen of an item in a block. -/
  | blockEntry
  /-- The comma between items in brackets. -/
  | flowEntry
  /-- What follows is a key. -/
  | key
  /-- What follows is the value of a key. -/
  | value
  | alias (name : String)
  | anchor (name : String)
  /-- A tag, with its handle if that has to be declared. -/
  | tag (handle : String)
  | scalar (text : String) (isQuoted : Bool)
  | textEnd
  /-- A rule is broken here. -/
  | fault
  deriving DecidableEq, Repr, Inhabited

/-- Whether a token says something about the node behind it. -/
def Token.isProperty : Token → Bool
  | anchor _ => true
  | tag _ => true
  | _ => false

/-- A token and the column at which it starts. -/
structure PlacedToken where
  token : Token
  column : Nat
  deriving DecidableEq, Repr, Inhabited

/-- A place at which a key may have started: what it was only shows at the colon behind it. -/
structure KeyMark where
  isPossible : Bool
  /-- Whether nothing but a key may stand there. -/
  isRequired : Bool
  /-- The number of the token that would follow the mark of the key. -/
  number : Nat
  line : Nat
  column : Nat
  deriving DecidableEq, Repr, Inhabited

/-- The mark of a place where there is no key. -/
def KeyMark.none : KeyMark := ⟨false, false, 0, 0, 0⟩

/-- Whether a key that started at a mark would go over several lines, or over more than 1024
characters, at a place. -/
def KeyMark.isStale (mark : KeyMark) (cursor : Cursor) : Bool :=
  mark.isPossible && (mark.line < cursor.line || mark.column + 1024 < cursor.column)

/-- An indentation. The one of a block has a token at its start and one at its end; another one only
keeps apart what stands on the line of a mark. -/
structure Level where
  column : Nat
  isBlock : Bool
  deriving DecidableEq, Repr, Inhabited

end LiveSpec.Yaml
