import LiveSpec.Document.Summary

/-!
# Faults of documents

What can be wrong with a specification or a concept file (`Fault`), how it is put into words
(`Fault.message`), and the error that names the file and line of a fault (`ParseError`). Lines count
from one; line zero stands for the file as a whole.
-/

set_option autoImplicit false

namespace LiveSpec

/-- Why a file could not be read. -/
inductive ReadFault where
  | notFound
  | isDirectory
  | notDirectory
  | linkLoop
  | nameTooLong
  | nullInPath
  | notText
  deriving DecidableEq, Repr, Inhabited

/-- Why a file cannot be read, in words. A fault that the operating system reports has its number. -/
def ReadFault.message : ReadFault → String
  | notFound => "No such file or directory (os error 2)"
  | isDirectory => "Is a directory (os error 21)"
  | notDirectory => "Not a directory (os error 20)"
  | linkLoop => "Too many levels of symbolic links (os error 40)"
  | nameTooLong => "File name too long (os error 36)"
  | nullInPath => "file name contained an unexpected NUL byte"
  | notText => "stream did not contain valid UTF-8"

/-- What is wrong with a document. -/
inductive Fault where
  /-- The file could not be read at all. -/
  | unreadable (cause : ReadFault)
  /-- A step or concept heading without text. -/
  | blankStep
  /-- A literal whose closing quote is missing. -/
  | literalNotClosed
  /-- A reference whose closing bracket is missing. -/
  | referenceNotClosed
  /-- A reference with nothing but white space between its brackets. -/
  | referenceWithoutName
  /-- A concept heading with a literal among its parameters. -/
  | literalParameter
  /-- A concept heading that declares a parameter twice. -/
  | repeatedParameter (name : String)
  /-- A concept without steps. -/
  | conceptWithoutSteps (text : String)
  /-- A step before the first concept heading. -/
  | stepOutsideConcept
  /-- A table row that follows neither a step nor a row, where none may stand alone. -/
  | tableWithoutStep
  /-- A table row that is not as wide as the header. -/
  | rowWidth (found expected : Nat)
  /-- A line that needs the heading of the specification before it. -/
  | headingNotYetFound
  /-- A text that ends without a heading. -/
  | headingNotFound
  /-- A second heading of the specification. -/
  | severalHeadings
  /-- A scenario after the start of the teardown. -/
  | scenarioAfterTearDown
  /-- Tags after the start of the teardown. -/
  | tagsInTearDown
  /-- A second data table. -/
  | severalDataTables
  /-- A fault that a reader for another kind of document puts into its own words. -/
  | described (words : String)
  deriving DecidableEq, Repr, Inhabited

/-- The fault in words. -/
def Fault.message : Fault → String
  | unreadable cause => "Failed to read file: " ++ cause.message
  | blankStep => "Step should not be blank"
  | literalNotClosed => "String parameter not closed"
  | referenceNotClosed => "Dynamic parameter not closed"
  | referenceWithoutName => "Dynamic parameter has no name"
  | literalParameter => "Concept heading can have only dynamic parameters"
  | repeatedParameter name => "Duplicate concept parameter <" ++ name ++ ">"
  | conceptWithoutSteps text => "Concept '" ++ text ++ "' should have at least one step"
  | stepOutsideConcept => "Step is not part of a concept; add a '#' concept heading first"
  | tableWithoutStep => "Table must follow a step"
  | rowWidth found expected =>
    "Table row has " ++ toString found ++ " cells, expected " ++ toString expected
  | headingNotYetFound => "Spec heading not found; add a '#' heading first"
  | headingNotFound => "Spec heading not found"
  | severalHeadings => "Multiple spec headings found"
  | scenarioAfterTearDown => "Scenario found after teardown steps"
  | tagsInTearDown => "Tags are not allowed in teardown"
  | severalDataTables => "Multiple data tables found"
  | described words => words

/-- A fault and the line that it was found at. -/
structure Refusal where
  line : Nat
  fault : Fault
  deriving DecidableEq, Repr, Inhabited

/-- A fault, the line and the file. -/
structure ParseError where
  file : Path
  line : Nat
  fault : Fault
  deriving DecidableEq, Repr, Inhabited

/-- The error that a refusal is for a file. -/
def Refusal.inFile (refusal : Refusal) (file : Path) : ParseError :=
  ⟨file, refusal.line, refusal.fault⟩

/-- The error in words: place and fault. -/
def ParseError.message (error : ParseError) : String :=
  error.file.atLine error.line ++ ": " ++ error.fault.message

end LiveSpec
