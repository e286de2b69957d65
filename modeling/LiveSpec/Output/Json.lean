/-!
# JSON documents

Listings can be written as JSON, indented by two spaces, with every member and element on a line of
its own and nothing between the brackets of an empty one. In a string the quote, the backslash and
the control characters up to U+001F are escaped: five of them with a letter, the others with four
hexadecimal digits in lower case. Every other character stands for itself, but U+007F does so only in
a stretch of sixteen characters that can be copied as a whole (`JsonValue.escapeFrom`).
-/

set_option autoImplicit false

namespace LiveSpec

/-- A JSON value as far as listings need it. -/
inductive JsonValue where
  | string (text : String)
  | number (value : Nat)
  | array (elements : List JsonValue)
  | object (members : List (String × JsonValue))
  deriving Repr, Inhabited

namespace JsonValue

/-- A hexadecimal digit in lower case. -/
def hexDigit (digit : Nat) : Char :=
  if digit < 10 then Char.ofNat ('0'.toNat + digit) else Char.ofNat ('a'.toNat + (digit - 10))

/-- A character as it is written in a string. -/
def escape (c : Char) : List Char :=
  if c = '"' then ['\\', '"']
  else if c = '\\' then ['\\', '\\']
  else if c = '\n' then ['\\', 'n']
  else if c = '\t' then ['\\', 't']
  else if c = '\r' then ['\\', 'r']
  else if c.toNat = 0x08 then ['\\', 'b']
  else if c.toNat = 0x0C then ['\\', 'f']
  else if c.toNat < 0x20 ∨ c.toNat = 0x7F then
    ['\\', 'u', '0', '0', hexDigit (c.toNat / 16), hexDigit (c.toNat % 16)]
  else [c]

/-- How many bytes of a string are looked at together. -/
def stretch : Nat := 16

/-- Whether a character can be copied: it is in ASCII and no quote, backslash or character up to
U+001F. -/
def isCopied (c : Char) : Bool := 0x20 ≤ c.toNat && c.toNat < 0x80 && c ≠ '"' && c ≠ '\\'

/-- Whether a text starts with a stretch that can be copied. -/
def startsCopied (text : List Char) : Bool :=
  (text.take stretch).length = stretch && (text.take stretch).all isCopied

/-- The inside of a string. `copied` characters belong to a stretch that is copied; or else `escaped`
bytes, if not fewer, are written character by character. Then the next stretch is looked at. -/
def escapeFrom (copied escaped : Nat) : List Char → List Char
  | [] => []
  | c :: rest =>
    if 0 < copied then c :: escapeFrom (copied - 1) 0 rest
    else if 0 < escaped then escape c ++ escapeFrom 0 (escaped - c.utf8Size) rest
    else if startsCopied (c :: rest) then c :: escapeFrom (stretch - 1) 0 rest
    else escape c ++ escapeFrom 0 (stretch - c.utf8Size) rest

/-- A string in quotes. -/
def quoted (text : String) : String :=
  "\"" ++ String.ofList (escapeFrom 0 0 text.toList) ++ "\""

/-- A new line at a depth of nesting. -/
def newLine (depth : Nat) : String := "\n" ++ String.ofList (List.replicate (2 * depth) ' ')

/-- Entries between brackets, each on a line of its own at the next depth. -/
def bracket (opening closing : String) (depth : Nat) : List String → String
  | [] => opening ++ closing
  | entries =>
    opening ++ ",".intercalate (entries.map fun entry ↦ newLine (depth + 1) ++ entry) ++
      newLine depth ++ closing

mutual

/-- A value at a depth of nesting. -/
def renderAt (depth : Nat) : JsonValue → String
  | string text => quoted text
  | number value => toString value
  | array elements => bracket "[" "]" depth (renderElements (depth + 1) elements)
  | object members => bracket "\x7b" "\x7d" depth (renderMembers (depth + 1) members)

/-- The elements of an array at a depth of nesting. -/
def renderElements (depth : Nat) : List JsonValue → List String
  | [] => []
  | value :: rest => renderAt depth value :: renderElements depth rest

/-- The members of an object at a depth of nesting. -/
def renderMembers (depth : Nat) : List (String × JsonValue) → List String
  | [] => []
  | (name, value) :: rest =>
    (quoted name ++ ": " ++ renderAt depth value) :: renderMembers depth rest

end

/-- A value as a document. -/
def render (value : JsonValue) : String := value.renderAt 0

end JsonValue

end LiveSpec
