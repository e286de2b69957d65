/-!
# Characters of YAML

Which characters separate words, mark brackets, and may stand in the names of anchors and tags. Line
breaks are unified before anything else is looked at (`Yaml.unified`): a carriage return, alone or
with a line feed behind it, is a line feed. The null character ends a text.
-/

set_option autoImplicit false

namespace LiveSpec.Yaml

/-- A text whose line breaks are line feeds, up to the first null character. -/
def unified : List Char → List Char
  | [] => []
  | '\r' :: '\n' :: rest => '\n' :: unified rest
  | '\r' :: rest => '\n' :: unified rest
  | c :: rest => if c.toNat = 0 then [] else c :: unified rest

/-- The white space inside a line: spaces and tabs, and no other. -/
def isSpace (c : Char) : Bool := c = ' ' || c = '\t'

/-- What separates words: white space inside a line and the end of a line. -/
def isGap (c : Char) : Bool := isSpace c || c = '\n'

/-- Whether a text starts with a gap or is at its end. -/
def startsWithGap : List Char → Bool
  | [] => true
  | c :: _ => isGap c

/-- Whether a text is at the end of a line. -/
def isAtLineEnd : List Char → Bool
  | [] => true
  | c :: _ => c = '\n'

/-- The marks of flow collections. -/
def isFlowMark (c : Char) : Bool :=
  c = ',' || c = '[' || c = ']' || c = '\x7b' || c = '\x7d'

/-- Whether a text starts with a mark of flow collections. -/
def startsWithFlowMark : List Char → Bool
  | [] => false
  | c :: _ => isFlowMark c

/-- The characters of names: ASCII letters and digits, the hyphen and the underscore. -/
def isNameCharacter (c : Char) : Bool := c.isAlphanum || c = '_' || c = '-'

/-- The characters of the address that a tag stands for. -/
def isAddressCharacter (c : Char) : Bool :=
  isNameCharacter c || "#;/?:@&=+$,.!~*'()[]%".toList.contains c

/-- The characters of a tag behind its handle. -/
def isTagCharacter (c : Char) : Bool := isAddressCharacter c && !isFlowMark c && c ≠ '!'

/-- The characters of anchors: everything but gaps, the marks of flow collections and the byte order
mark. -/
def isAnchorCharacter (c : Char) : Bool := !isGap c && !isFlowMark c && c ≠ '\ufeff'

/-- The value of a hexadecimal digit. -/
def hexValue? (c : Char) : Option Nat :=
  if c.isDigit then some (c.toNat - '0'.toNat)
  else if 'a' ≤ c && c ≤ 'f' then some (c.toNat - 'a'.toNat + 10)
  else if 'A' ≤ c && c ≤ 'F' then some (c.toNat - 'A'.toNat + 10)
  else none

/-- The character with a code, if there is one. -/
def characterOf? (code : Nat) : Option Char :=
  if code.isValidChar then some (Char.ofNat code) else none

/-- Whether a text starts with three characters of one kind and a gap. -/
def startsWithTriple (mark : Char) : List Char → Bool
  | a :: b :: c :: rest => a = mark && b = mark && c = mark && startsWithGap rest
  | _ => false

/-- Whether a text starts with the mark that begins or ends a document. -/
def startsWithDocumentMark (text : List Char) : Bool :=
  startsWithTriple '-' text || startsWithTriple '.' text

end LiveSpec.Yaml
