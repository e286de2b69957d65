import LiveSpec.Grammar.Fault
import Std.Data.ExtTreeMap

/-!
# Trees of files

A `Disk` is what a file system holds at one moment: files with text in them, files with bytes that
are no text (`DiskEntry.ofBytes`), directories, and links that name another path. An entry stands at
a place, the list of names that lead to it from the root; the root itself is always there.

A path is followed step by step (`Disk.follow`). Every step needs a directory to start from. A link
is replaced by the path that it names, read from the directory that holds the link, and at most
`Disk.linkLimit` links are followed on one way (`Disk.locate`). A path that ends in a slash or in a
`.` can only be a directory. The place that a path leads to, written from the root, is its canonical
form (`Disk.canonical`).
-/

set_option autoImplicit false

namespace LiveSpec

/-- The names that lead from the root to an entry. -/
abbrev Place := List String

/-- The path that spells a place from the root. -/
def Path.ofPlace (place : Place) : Path := ⟨"/" ++ "/".intercalate place⟩

/-- The steps by which a path is followed: its components, and at the end one that only a directory
can take when the spelling ends in a slash or in a `.`. -/
def Path.steps (path : Path) : List Component :=
  match path.spelling.toList.reverse with
  | '/' :: _ => path.location ++ [.current]
  | '.' :: '/' :: _ => path.location ++ [.current]
  | _ => path.location

/-- What stands at a place. -/
inductive DiskEntry where
  /-- A file that holds text. -/
  | text (content : String)
  /-- A file whose bytes are no text, with the lines in front of the first one that is none. -/
  | binary (readable : String)
  | directory
  /-- A link to another path. -/
  | link (target : Path)
  deriving DecidableEq, Repr, Inhabited

namespace DiskEntry

/-- The lines at the start of some bytes that are text and have an end, one after the other. `line`
is what has been passed of the current one, backwards. -/
def readableLines (line : List UInt8) : List UInt8 → String
  | [] => ""
  | byte :: rest =>
    if byte = 10 then
      match String.fromUTF8? ⟨(byte :: line).reverse.toArray⟩ with
      | some passed => passed ++ readableLines [] rest
      | none => ""
    else readableLines (byte :: line) rest

/-- A file with some bytes. -/
def ofBytes (bytes : ByteArray) : DiskEntry :=
  match String.fromUTF8? bytes with
  | some content => text content
  | none => binary (readableLines [] bytes.toList)

/-- What can be read of a file line by line. There is nothing to be read of anything else. -/
def readable? : DiskEntry → Option String
  | text content => some content
  | binary readable => some readable
  | _ => none

end DiskEntry

/-- The entries of a file system by place, and the directory that relative paths start from. -/
structure Disk where
  entries : Std.ExtTreeMap Place DiskEntry
  workingDirectory : Place

namespace Disk

/-- A disk that holds nothing but its working directory and the directories on the way to it. -/
def bare (workingDirectory : Place) : Disk :=
  let way := (List.range (workingDirectory.length + 1)).map workingDirectory.take
  ⟨way.foldl (fun entries place ↦ entries.insert place .directory) ∅, workingDirectory⟩

/-- The entry at a place. -/
def entryAt? (disk : Disk) (place : Place) : Option DiskEntry :=
  if place = [] then some .directory else disk.entries[place]?

/-- The names of the entries directly in a directory, in order. -/
def namesIn (disk : Disk) (place : Place) : List String :=
  disk.entries.keys.filterMap fun entry ↦
    if entry.dropLast = place then entry.getLast? else none

/-- Whether a name is longer than a file system allows. -/
def isNameTooLong (text : String) : Bool := 255 < text.utf8ByteSize

/-- Whether the system refuses a path by its spelling alone. -/
def spellingFault? (path : Path) : Option ReadFault :=
  if path.spelling.toList.contains '\x00' then some .nullInPath
  else if path.spelling = "" then some .notFound
  else if 4096 ≤ path.spelling.utf8ByteSize then some .nameTooLong
  else none

/-- Follows steps from a place up to the end or up to the first link. `onLink` says where a link
leads to: it is given the directory of the link, its target and the steps that are left. -/
def follow (disk : Disk) (onLink : Place → Path → List Component → Except ReadFault Place) :
    Place → List Component → Except ReadFault Place
  | here, [] => .ok here
  | here, component :: rest =>
    if disk.entryAt? here ≠ some .directory then .error .notDirectory
    else
      match component with
      | .root => disk.follow onLink [] rest
      | .current => disk.follow onLink here rest
      | .parent => disk.follow onLink here.dropLast rest
      | .name text =>
        if isNameTooLong text then .error .nameTooLong
        else
          match disk.entryAt? (here ++ [text]) with
          | none => .error .notFound
          | some (.link target) => onLink here target rest
          | some _ => disk.follow onLink (here ++ [text]) rest

/-- Follows steps from a place through at most a given number of links. -/
def followLinks (disk : Disk) : Nat → Place → List Component → Except ReadFault Place
  | 0, here, steps => disk.follow (fun _ _ _ ↦ .error .linkLoop) here steps
  | budget + 1, here, steps =>
    disk.follow
      (fun directory target rest ↦ disk.followLinks budget directory (target.steps ++ rest))
      here steps

/-- How many links are followed on one way. -/
def linkLimit : Nat := 40

/-- The place that steps lead to from a directory. -/
def locateFrom (disk : Disk) (here : Place) (steps : List Component) : Except ReadFault Place :=
  disk.followLinks linkLimit here steps

/-- The place that a path leads to. -/
def locate (disk : Disk) (path : Path) : Except ReadFault Place :=
  match spellingFault? path with
  | some fault => .error fault
  | none => disk.locateFrom disk.workingDirectory path.steps

/-- The entry that a path leads to. It is no link. -/
def entry (disk : Disk) (path : Path) : Except ReadFault DiskEntry := do
  let place ← disk.locate path
  match disk.entryAt? place with
  | some found => .ok found
  | none => .error .notFound

/-- Whether a path leads to something. -/
def isPresent (disk : Disk) (path : Path) : Bool := (disk.entry path).toOption.isSome

/-- Whether a path leads to a directory. -/
def isDirectory (disk : Disk) (path : Path) : Bool :=
  (disk.entry path).toOption == some .directory

/-- The text of the file that a path leads to. -/
def read (disk : Disk) (path : Path) : Except ReadFault String := do
  match ← disk.entry path with
  | .text content => .ok content
  | .binary _ => .error .notText
  | .directory => .error .isDirectory
  | .link _ => .error .linkLoop

/-- What can be read line by line of the file that a path leads to. -/
def readable? (disk : Disk) (path : Path) : Option String :=
  (disk.entry path).toOption.bind DiskEntry.readable?

/-- The place that a path leads to, if there is something at it. -/
def canonicalPlace? (disk : Disk) (path : Path) : Option Place :=
  (disk.locate path).toOption.filter fun place ↦ (disk.entryAt? place).isSome

/-- The place that a path leads to, spelled from the root. -/
def canonical (disk : Disk) (path : Path) : Except ReadFault Path := do
  let place ← disk.locate path
  if (disk.entryAt? place).isSome then .ok (.ofPlace place) else .error .notFound

/-- The canonical form of a path that leads to something, and any other path as it is. -/
def canonicalOrSame (disk : Disk) (path : Path) : Path := (disk.canonical path).toOption.getD path

end Disk

end LiveSpec
