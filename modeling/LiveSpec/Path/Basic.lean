import LiveSpec.Text.Split

/-!
# Paths

A path is kept as it was spelled and compared by its components (`Path.location`): repeated
slashes, a trailing slash and inner `.` components do not matter, while a leading `.` and every
`..` do. Two spellings of one location are the same key of every store in this library.

Locations are ordered component by component: the root first, then a leading `.`, then `..`, then
names by their code points. So `a/b` comes before `a-b`, which as texts would stand the other way
round. A directory is a prefix of what lies beneath it by whole components (`Path.isBeneath`): `old`
is not a prefix of `older/a.spec`.

Joining (`Path.join`) writes a slash between the two parts only where none stands yet, and lets an
absolute second part replace the first.
-/

set_option autoImplicit false

namespace LiveSpec

/-- One component of a path. -/
inductive Component where
  /-- The slash that an absolute path starts with. -/
  | root
  /-- The `.` that a relative path starts with. -/
  | current
  /-- A `..` anywhere in a path. -/
  | parent
  /-- A proper name. -/
  | name (text : String)
  deriving DecidableEq, Repr, Inhabited

namespace Component

/-- The place of each kind of component in the order. -/
def rank : Component → Nat
  | root => 0
  | current => 1
  | parent => 2
  | name _ => 3

/-- The text of a name; the other kinds are told apart by their rank alone. -/
def text : Component → String
  | name text => text
  | _ => ""

/-- The order of components: by kind, then by name. -/
instance : Ord Component where
  compare a b := compareLex (compareOn rank) (compareOn text) a b

instance : Std.TransOrd Component :=
  inferInstanceAs (Std.TransCmp (compareLex (compareOn rank) (compareOn text)))

instance : Std.LawfulEqOrd Component where
  eq_of_compare {a b} h := by
    have hlex : (compare a.rank b.rank).then (compare a.text b.text) = .eq := h
    have hboth := Ordering.then_eq_eq.mp hlex
    have hrank := Std.LawfulEqOrd.eq_of_compare hboth.1
    have htext := Std.LawfulEqOrd.eq_of_compare hboth.2
    cases a <;> cases b <;> simp_all [rank, text]

/-- The component that a segment between two slashes stands for. -/
def ofSegment (segment : List Char) : Component :=
  if segment = ['.', '.'] then parent else name (String.ofList segment)

end Component

/-- What a path means for comparison: its components in order. -/
abbrev Location := List Component

/-- A path as it was spelled. -/
structure Path where
  spelling : String
  deriving DecidableEq, Repr, Inhabited

namespace Path

/-- Whether a spelling starts at the root. -/
def isAbsolute (path : Path) : Bool := path.spelling.toList.head? == some '/'

/-- The components of a spelling. Empty segments are dropped, and so is every `.` but one that
stands at the very start. -/
def locationOf (spelling : List Char) : Location :=
  let segments := (Text.fields '/' spelling).filter fun segment ↦ segment ≠ []
  let proper := (segments.filter fun segment ↦ segment ≠ ['.']).map Component.ofSegment
  if spelling.head? = some '/' then .root :: proper
  else if segments.head? = some ['.'] then .current :: proper
  else proper

/-- The components of a path, by which it is compared. -/
def location (path : Path) : Location := locationOf path.spelling.toList

/-- Whether `path` is `directory` or lies beneath it, by whole components. -/
def isBeneath (path directory : Path) : Bool := directory.location.isPrefixOf path.location

/-- The path that `relative` names when it is read from `base`. -/
def join (base relative : Path) : Path :=
  if relative.isAbsolute then relative
  else if base.spelling = "" ∨ base.spelling.toList.getLast? = some '/' then
    ⟨base.spelling ++ relative.spelling⟩
  else ⟨base.spelling ++ "/" ++ relative.spelling⟩

/-- The path of an entry called `entry` in the directory `path`. -/
def child (path : Path) (entry : String) : Path := path.join ⟨entry⟩

/-- The last component, when it is a name. -/
def fileName? (path : Path) : Option String :=
  match path.location.getLast? with
  | some (.name text) => some text
  | _ => none

/-- What follows the last dot of a file name. A dot that the name starts with opens no extension. -/
def extensionOf (fileName : List Char) : Option (List Char) :=
  let backwards := fileName.reverse
  match backwards.dropWhile (· ≠ '.') with
  | [] => none
  | [_] => none
  | _ :: _ :: _ => some (backwards.takeWhile (· ≠ '.')).reverse

/-- The extension of a path, if its last component has one. -/
def extension? (path : Path) : Option String :=
  path.fileName?.bind fun text ↦ (extensionOf text.toList).map String.ofList

end Path

end LiveSpec
