import LiveSpec.Disk.Tree
import LiveSpec.Grammar.ConceptText
import LiveSpec.Grammar.SpecificationText
import LiveSpec.Index.Report

/-!
# Reading sources

The index reads files as whole texts, each at one moment. `Contents` is what reading gives at such a
moment, for every path; a disk is one source of contents (`Disk.contents`). A file that cannot be
read is a parse error at line zero.
-/

set_option autoImplicit false

namespace LiveSpec

/-- What reading a path gives. -/
abbrev Contents := Path → Except ReadFault String

/-- What reading a path of a disk gives. -/
def Disk.contents (disk : Disk) : Contents := disk.read

namespace Contents

/-- The text of a file that is to be parsed. -/
def source (contents : Contents) (path : Path) : Except ParseError String :=
  (contents path).mapError fun fault ↦ ⟨path, 0, .unreadable fault⟩

/-- The specification in a file, with its invocations as they stand. -/
def specification (contents : Contents) (path : Path) : Except ParseError Specification := do
  let text ← contents.source path
  Specification.parse path text

/-- The concepts in a file. -/
def concepts (contents : Contents) (path : Path) : Except ParseError (List Concept) := do
  let text ← contents.source path
  Concept.parseAll path text

/-- The specification in a file, expanded. -/
def expanded (contents : Contents) (dictionary : Dictionary) (path : Path) :
    Except IndexError Specification := do
  let spec ← (contents.specification path).mapError .parse
  match spec.expand dictionary with
  | (expanded, none) => .ok expanded
  | (_, some mismatch) => .error (.expand path mismatch)

end Contents

end LiveSpec
