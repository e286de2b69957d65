/-!
# Glob patterns

A glob describes relative paths. `?` stands for one byte and `*` for any run of bytes, neither of
which contains a slash; `[…]` stands for one byte of a class and `[!…]` or `[^…]` for one that is not
in it; `{…,…}` stands for any of its branches; a backslash takes the special meaning from the
character after it. `**` as a whole part of a path stands for any number of directories, at the
start, between two parts or at the end. A bracket that is never closed stands for itself. Unbalanced
braces, a backslash at the end and a range of characters in the wrong order make a glob invalid.

`Glob.parse?` reads a glob in one pass over its characters, and `Glob.accepts` says whether it
describes a path. A `Glob.Frontier` marks the places of a path that some tokens can lead to, and each
token moves it on (`GlobToken.advance`), so that the time taken grows with the length of the path and
not with the number of ways to divide it.

A glob that ends in a dot describes paths that end in one. There are none of those for it, unless it
is a path itself, or `**/` with a path of several parts behind it (`Glob.isBarren`).
-/

set_option autoImplicit false

namespace LiveSpec

/-- A part of a glob. -/
inductive GlobToken where
  | literal (c : Char)
  /-- One byte other than a slash. -/
  | anyByte
  /-- A run of bytes other than a slash. -/
  | run
  /-- Any number of leading directories. -/
  | anyStart
  /-- A slash with directories around which there may be more. -/
  | anyMiddle
  /-- A slash and whatever follows it. -/
  | anyEnd
  /-- One byte that is in one of the ranges, or in none of them. -/
  | bracket (negated : Bool) (ranges : List (Char × Char))
  | choice (branches : List (List GlobToken))
  deriving Repr, Inhabited

/-- A pattern of relative paths. -/
structure Glob where
  tokens : List GlobToken
  deriving Repr, Inhabited

namespace Glob

/-! ### Reading -/

/-- What stands between the brackets of a class: the ranges in reverse, whether the last character
was a dash that may open a range, and how many characters have been read. -/
structure BracketDraft where
  ranges : List (Char × Char)
  dash : Bool
  length : Nat

/-- Reads the inside of a class up to its closing bracket, which may not stand first. The result is
`none` when the class is never closed, and no ranges when one of them is in the wrong order. -/
def readBracket (draft : BracketDraft) : List Char → Option (Option (List (Char × Char)) × Nat)
  | [] => none
  | c :: rest =>
    let length := draft.length + 1
    if draft.ranges = [] then readBracket ⟨[(c, c)], false, length⟩ rest
    else if c = ']' then
      some (some (if draft.dash then ('-', '-') :: draft.ranges else draft.ranges), length)
    else if draft.dash then
      match draft.ranges with
      | (low, _) :: earlier =>
        if c < low then some (none, length) else readBracket ⟨(low, c) :: earlier, false, length⟩ rest
      | [] => none
    else if c = '-' then readBracket ⟨draft.ranges, true, length⟩ rest
    else readBracket ⟨(c, c) :: draft.ranges, false, length⟩ rest

/-- The branches of a choice that is still open: those that are finished, in reverse, and the tokens
before the choice, in reverse. -/
structure OpenChoice where
  finished : List (List GlobToken)
  before : List GlobToken

/-- A glob of which a part has been read. -/
structure Draft where
  /-- The tokens of the branch that is being read, in reverse. -/
  tokens : List GlobToken
  /-- The choices around it, the innermost first. -/
  choices : List OpenChoice
  /-- The last character that was read. -/
  last : Option Char

namespace Draft

/-- Adds a token. -/
def push (draft : Draft) (token : GlobToken) : Draft :=
  { draft with tokens := token :: draft.tokens }

/-- Opens a choice. -/
def openChoice (draft : Draft) : Draft := ⟨[], ⟨[], draft.tokens⟩ :: draft.choices, draft.last⟩

/-- Starts the next branch of the innermost choice. Outside a choice a comma stands for itself. -/
def nextBranch (draft : Draft) : Draft :=
  match draft.choices with
  | [] => draft.push (.literal ',')
  | ⟨finished, before⟩ :: outer =>
    ⟨[], ⟨draft.tokens.reverse :: finished, before⟩ :: outer, draft.last⟩

/-- Closes the innermost choice, if there is one. -/
def closeChoice? (draft : Draft) : Option Draft :=
  match draft.choices with
  | [] => none
  | ⟨finished, before⟩ :: outer =>
    some ⟨.choice (draft.tokens.reverse :: finished).reverse :: before, outer, draft.last⟩

/-- Whether a slash or the end of the glob follows. -/
def isPartEnd : List Char → Bool
  | [] => true
  | c :: _ => c = '/'

/-- Two stars that are no part of a path of their own. -/
def pushTwoRuns (draft : Draft) : Draft × Nat := ((draft.push .run).push .run, 1)

/-- Puts a token for `**` in the place of the slash before it, unless there is such a token. -/
def pushAcross (draft : Draft) (token : GlobToken) (taken : Nat) : Draft × Nat :=
  match draft.tokens with
  | .anyStart :: _ => (draft, taken)
  | .anyEnd :: _ => (draft, taken)
  | _ :: before => ({ draft with tokens := token :: before }, taken)
  | [] => (draft, taken)

/-- Reads a star, given what follows it. The second part is the number of characters that it takes
from there. -/
def readStar (draft : Draft) : List Char → Draft × Nat
  | '*' :: rest =>
    if draft.tokens.isEmpty then
      if isPartEnd rest then (draft.push .anyStart, 2) else draft.pushTwoRuns
    else if draft.last ≠ some '/' then draft.pushTwoRuns
    else
      match rest with
      | [] => draft.pushAcross .anyEnd 1
      | '/' :: _ => draft.pushAcross .anyMiddle 2
      | c :: _ =>
        if (c = ',' ∨ c = '\x7d') ∧ !draft.choices.isEmpty then draft.pushAcross .anyEnd 1
        else draft.pushTwoRuns
  | _ => (draft.push .run, 0)

/-- Reads an opening bracket, given what follows it. -/
def readOpenBracket (draft : Draft) (rest : List Char) : Option (Draft × Nat) :=
  let (negated, inside) := match rest with
    | '!' :: inside => (true, inside)
    | '^' :: inside => (true, inside)
    | _ => (false, rest)
  match readBracket ⟨[], false, 0⟩ inside with
  | none => some (draft.push (.literal '['), 0)
  | some (none, _) => none
  | some (some ranges, length) =>
    some (draft.push (.bracket negated ranges.reverse), (if negated then 1 else 0) + length)

/-- Reads one character, given what follows it. -/
def readChar (draft : Draft) (rest : List Char) : Char → Option (Draft × Nat)
  | '?' => some (draft.push .anyByte, 0)
  | '*' => some (draft.readStar rest)
  | '[' => draft.readOpenBracket rest
  | '\x7b' => some (draft.openChoice, 0)
  | '\x7d' => draft.closeChoice?.map (·, 0)
  | ',' => some (draft.nextBranch, 0)
  | '\\' => rest.head?.map fun c ↦ (draft.push (.literal c), 1)
  | c => some (draft.push (.literal c), 0)

/-- Reads the characters of a glob, of which the first `skipped` have been taken already. -/
def readAll : Nat → Draft → List Char → Option Draft
  | _, draft, [] => some draft
  | skipped + 1, draft, c :: rest => readAll skipped { draft with last := some c } rest
  | 0, draft, c :: rest =>
    match draft.readChar rest c with
    | none => none
    | some (next, skipped) => readAll skipped { next with last := some c } rest

end Draft

/-- Reads a glob. -/
def parse? (text : List Char) : Option Glob :=
  match Draft.readAll 0 ⟨[], [], none⟩ text with
  | some ⟨tokens, [], _⟩ => some ⟨tokens.reverse⟩
  | _ => none

/-! ### Matching -/

/-- The byte of a slash. -/
def slash : UInt8 := 47

/-- The bytes of a text. -/
def bytesOf (text : List Char) : List UInt8 := text.flatMap String.utf8EncodeChar

/-- Marks for the places in front of the bytes of a path and for its end. -/
abbrev Frontier := List Bool

namespace Frontier

/-- The frontier at the start of a path. -/
def start (path : List UInt8) : Frontier := true :: path.map fun _ ↦ false

/-- Whether the end of the path is marked. -/
def isAtEnd (frontier : Frontier) : Bool := frontier.getLast? == some true

/-- The places behind one byte that fits. -/
def step (fits : UInt8 → Bool) (path : List UInt8) (frontier : Frontier) : Frontier :=
  false :: List.zipWith (fun b mark ↦ mark && fits b) path frontier

/-- The places behind any number of bytes that fit. `isReached` says whether bytes that fit lead to
the first place. -/
def spread (fits : UInt8 → Bool) (isReached : Bool) : List UInt8 → Frontier → Frontier
  | b :: path, mark :: marks =>
    (mark || isReached) :: spread fits ((mark || isReached) && fits b) path marks
  | _, marks => marks.map (· || isReached)

/-- The places of two frontiers together. -/
def union (frontier other : Frontier) : Frontier := List.zipWith (· || ·) frontier other

/-- The places behind a slash. -/
def passSlash (path : List UInt8) (frontier : Frontier) : Frontier :=
  step (· = slash) path frontier

/-- The places behind any number of bytes. -/
def passAll (path : List UInt8) (frontier : Frontier) : Frontier :=
  spread (fun _ ↦ true) false path frontier

/-- The places where nothing, or any number of directories, has been passed. -/
def passDirectories (path : List UInt8) (frontier : Frontier) : Frontier :=
  union frontier (passSlash path (passAll path frontier))

end Frontier

/-- Whether a byte is in a range. A range whose bounds take more than one byte stands for the bytes
of both, and for those from the last byte of the first to the first byte of the second. -/
def inRange (b : UInt8) (range : Char × Char) : Bool :=
  let low := String.utf8EncodeChar range.1
  let high := String.utf8EncodeChar range.2
  low.contains b || high.contains b ||
    (range.1 != range.2 && low.getLast?.any (· ≤ b) && high.head?.any (b ≤ ·))

end Glob

mutual

/-- The places of a path that a token leads to from those of a frontier. -/
def GlobToken.advance (path : List UInt8) (frontier : Glob.Frontier) : GlobToken → Glob.Frontier
  | .literal c =>
    (String.utf8EncodeChar c).foldl (fun frontier byte ↦ Glob.Frontier.step (· = byte) path frontier) frontier
  | .anyByte => frontier.step (· ≠ Glob.slash) path
  | .run => Glob.Frontier.spread (· ≠ Glob.slash) false path frontier
  | .anyStart => frontier.passDirectories path
  | .anyMiddle => (frontier.passSlash path).passDirectories path
  | .anyEnd => (frontier.passSlash path).passAll path
  | .bracket negated ranges =>
    frontier.step (fun b ↦ ranges.any (Glob.inRange b) != negated) path
  | .choice branches =>
    if Glob.allBlank branches then frontier
    else Glob.advanceBranches path frontier (path.map (fun _ ↦ false) ++ [false]) branches

/-- The places that one of several sequences of tokens that are not empty leads to, together with
`reached`. -/
def Glob.advanceBranches (path : List UInt8) (frontier reached : Glob.Frontier) :
    List (List GlobToken) → Glob.Frontier
  | [] => reached
  | branch :: others =>
    let reached :=
      if Glob.isBlank branch then reached
      else reached.union (Glob.advanceAll path frontier branch)
    Glob.advanceBranches path frontier reached others

/-- The places that a sequence of tokens leads to. -/
def Glob.advanceAll (path : List UInt8) (frontier : Glob.Frontier) :
    List GlobToken → Glob.Frontier
  | [] => frontier
  | token :: others => Glob.advanceAll path (GlobToken.advance path frontier token) others

/-- Whether a sequence of tokens takes nothing off any text. -/
def Glob.isBlank : List GlobToken → Bool
  | [] => true
  | .choice branches :: others => Glob.allBlank branches && Glob.isBlank others
  | _ :: _ => false

/-- Whether there is nothing in any of several sequences of tokens. -/
def Glob.allBlank : List (List GlobToken) → Bool
  | [] => true
  | branch :: others => Glob.isBlank branch && Glob.allBlank others

end

namespace Glob

/-- The character that a token stands for, if it can only be one. -/
def literal? : GlobToken → Option Char
  | .literal c => some c
  | _ => none

/-- Whether a glob that ends in a dot is of a kind that describes nothing. -/
def isBarren (glob : Glob) : Bool :=
  if glob.tokens.getLast?.bind literal? ≠ some '.' then false
  else
    match glob.tokens with
    | .anyStart :: behind =>
      !behind.all (fun token ↦ (literal? token).isSome) ||
        !behind.any (fun token ↦ literal? token = some '/')
    | tokens => !tokens.all fun token ↦ (literal? token).isSome

/-- Whether a glob describes a relative path. A glob of two stars alone describes every path. -/
def accepts (glob : Glob) (path : List Char) : Bool :=
  match glob.tokens with
  | [.anyStart] => true
  | tokens =>
    let bytes := bytesOf path
    !glob.isBarren && (advanceAll bytes (.start bytes) tokens).isAtEnd

end Glob

end LiveSpec
