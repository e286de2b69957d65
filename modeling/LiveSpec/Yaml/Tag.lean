import LiveSpec.Yaml.Cursor

/-!
# Names, tags and directives

An anchor gives a node a name, and an alias stands for the node with a name. A tag says what a node
is: `!<address>`, `!suffix`, `!!suffix` or `!handle!suffix`, where the handle has to be declared by a
directive at the start of the document. The meaning of tags is not looked at here, only whether they
are well-formed and their handles are declared.
-/

set_option autoImplicit false

namespace LiveSpec.Yaml

/-- Reads the name of an anchor or alias behind its mark. It may not be empty. -/
def Cursor.readName (cursor : Cursor) : Option (String × Cursor) :=
  let behindMark := cursor.pass 1
  let name := behindMark.rest.takeWhile isAnchorCharacter
  if name.isEmpty then none else some (String.ofList name, behindMark.pass name.length)

/-- The two digits of an escaped byte of an address, at the front of a text. -/
def escapedByte? : List Char → Option (Nat × List Char)
  | '%' :: high :: low :: rest => do
    let high ← hexValue? high
    let low ← hexValue? low
    return (16 * high + low, rest)
  | _ => none

/-- How many further bytes belong to a character whose first byte is given. -/
def furtherBytes? (byte : Nat) : Option Nat :=
  if byte < 0x80 then some 0
  else if byte < 0xC0 then none
  else if byte < 0xE0 then some 1
  else if byte < 0xF0 then some 2
  else if byte < 0xF8 then some 3
  else none

/-- Passes over escaped bytes that continue a character. `code` is the number that the bytes so far
form, and it has to be the code of a character in the end. -/
def passContinuation : Nat → Nat → List Char → Option (List Char)
  | 0, code, rest => if code.isValidChar then some rest else none
  | further + 1, code, rest => do
    let (byte, rest) ← escapedByte? rest
    if 0x80 ≤ byte && byte < 0xC0 then passContinuation further (256 * code + byte) rest else none

/-- Passes over an escaped character of an address. -/
def passEscape (rest : List Char) : Option (List Char) := do
  let (byte, rest) ← escapedByte? rest
  let further ← furtherBytes? byte
  passContinuation further byte rest

/-- Passes over the characters of an address, of which there are at most `bound`. -/
def passAddress (isAllowed : Char → Bool) : Nat → List Char → Option (List Char)
  | 0, rest => some rest
  | bound + 1, rest =>
    match rest with
    | [] => some []
    | c :: behind =>
      if !isAllowed c then some rest
      else if c = '%' then do
        let behind ← passEscape rest
        passAddress isAllowed bound behind
      else passAddress isAllowed bound behind

/-- Passes over the characters of an address. -/
def Cursor.passAddress (cursor : Cursor) (isAllowed : Char → Bool) : Option Cursor := do
  let rest ← Yaml.passAddress isAllowed cursor.rest.length cursor.rest
  return cursor.pass (cursor.rest.length - rest.length)

/-- The handle at the front of a text that starts with an exclamation mark: the mark, a name and, if
one follows, another mark. -/
def handleOf (rest : List Char) : List Char :=
  match rest with
  | '!' :: behind =>
    let name := behind.takeWhile isNameCharacter
    match behind.drop name.length with
    | '!' :: _ => '!' :: name ++ ['!']
    | _ => '!' :: name
  | _ => []

/-- Whether a handle has a mark at either end. -/
def isClosedHandle (handle : List Char) : Bool := 2 ≤ handle.length && handle.getLast? = some '!'

/-- Passes over a tag. The result also has its handle, which is empty when there is none to be
declared. -/
def Cursor.passTag (cursor : Cursor) : Option (List Char × Cursor) :=
  match cursor.rest with
  | '!' :: '<' :: _ => do
    let behind ← (cursor.pass 2).passAddress isAddressCharacter
    if behind.rest.head? = some '>' then some ([], behind.pass 1) else none
  | rest => do
    let handle := handleOf rest
    let behind ← (cursor.pass handle.length).passAddress isTagCharacter
    return (if isClosedHandle handle then handle else [], behind)

/-- Reads a tag, which has to be followed by a gap. -/
def Cursor.readTag (cursor : Cursor) (inFlow : Bool) : Option (String × Cursor) := do
  let (handle, behind) ← cursor.passTag
  if startsWithGap behind.rest || (inFlow && startsWithFlowMark behind.rest) then
    return (String.ofList handle, behind)
  else none

/-- What a directive is about. -/
inductive Directive where
  | version
  /-- The declaration of a handle. -/
  | handle (handle : String)
  | unknown
  deriving DecidableEq, Repr, Inhabited

namespace Cursor

/-- Passes over white space. -/
def passSpaces (cursor : Cursor) : Cursor :=
  cursor.passSpace (cursor.rest.takeWhile isSpace).length

/-- Passes over a number of at most nine digits. -/
def passVersionNumber (cursor : Cursor) : Option Cursor :=
  let digits := cursor.rest.takeWhile Char.isDigit
  if digits.isEmpty || 9 < digits.length then none else some (cursor.pass digits.length)

/-- Passes over the version in a directive. -/
def passVersion (cursor : Cursor) : Option Cursor := do
  let behindMajor ← cursor.passSpaces.passVersionNumber
  if behindMajor.rest.head? = some '.' then (behindMajor.pass 1).passVersionNumber else none

/-- Reads the declaration of a handle behind the name of the directive. -/
def readHandle (cursor : Cursor) : Option (String × Cursor) := do
  let cursor := cursor.passSpaces
  let handle := handleOf cursor.rest
  if handle.isEmpty || (handle ≠ ['!'] && !isClosedHandle handle) then none
  let target := (cursor.pass handle.length).passSpaces
  let behind ←
    match target.rest with
    | [] => none
    | '!' :: _ => (target.pass 1).passAddress isAddressCharacter
    | c :: _ => if isTagCharacter c then target.passAddress isAddressCharacter else none
  if startsWithGap behind.rest then return (String.ofList handle, behind) else none

/-- Reads a directive up to the start of the next line. -/
def readDirective (cursor : Cursor) : Option (Directive × Cursor) := do
  let behindMark := cursor.pass 1
  let name := behindMark.rest.takeWhile isNameCharacter
  let behindName := behindMark.pass name.length
  if name.isEmpty || !startsWithGap behindName.rest then none
  let (directive, behind) ←
    if name = ['Y', 'A', 'M', 'L'] then do return (Directive.version, ← behindName.passVersion)
    else if name = ['T', 'A', 'G'] then do
      let (handle, behind) ← behindName.readHandle
      return (Directive.handle handle, behind)
    else some (Directive.unknown, behindName.passLine)
  let space ← behind.skipSpace
  if space.cursor.rest.isEmpty then return (directive, space.cursor)
  else if isAtLineEnd space.cursor.rest then return (directive, space.cursor.passBreak)
  else none

end Cursor

end LiveSpec.Yaml
