import LiveSpec.Disk.Tree

/-!
# Trees under version control

A directory that holds `.git` or `.jj` is the top of a tree under version control
(`Disk.isRepository`). The records in `.git` have rules of their own for files that are ignored
(`Disk.excludeFile?`). When `.git` is a file, it names the directory of the records, in which another
file names the records that are shared with other trees; the rules are among those.
-/

set_option autoImplicit false

namespace LiveSpec

namespace Disk

/-- Whether a directory holds the records of a tree under version control. -/
def isRepository (disk : Disk) (directory : Place) : Bool :=
  [".git", ".jj"].any fun name ↦ (disk.locateFrom directory [.name name]).toOption.isSome

/-- The first line of what can be read of a file. -/
def firstLine? (disk : Disk) (file : Path) : Option (List Char) :=
  (disk.readable? file).bind fun content ↦
    ((Text.lines content.toList).map Text.withoutReturn).head?

/-- The directory that `.git` names when it is a file. -/
def recordsElsewhere? (disk : Disk) (directory : Place) : Option Path := do
  let line ← disk.firstLine? ((Path.ofPlace directory).child ".git")
  let named ← Text.withoutStart? "gitdir: ".toList line
  return ⟨String.ofList named⟩

/-- The file in which the records say where those are that they share with other trees. -/
def sharingFile (records : Path) : Path := records.child "commondir"

/-- The directory of the records that are shared. A path that starts with a dot is read from the
records. -/
def sharedRecords? (disk : Disk) (records : Path) : Option Path := do
  let line ← disk.firstLine? (sharingFile records)
  let named : Path := ⟨String.ofList line⟩
  return if line.head? = some '.' then records.join named else named

/-- The file with the rules that belong to the records of a directory. -/
def excludeFile? (disk : Disk) (directory : Place) : Option Path := do
  let own := (Path.ofPlace directory).child ".git"
  let records ←
    match (disk.entry own).toOption with
    | some (.text _) | some (.binary _) =>
      (disk.recordsElsewhere? directory).bind disk.sharedRecords?
    | _ => some own
  return records.join ⟨"info/exclude"⟩

end Disk

end LiveSpec
