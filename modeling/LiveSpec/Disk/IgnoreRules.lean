import LiveSpec.Disk.Glob
import LiveSpec.Text.Blank
import LiveSpec.Text.Split

/-!
# Ignore rules

Files can be left out of a walk by rules that stand in ignore files, one rule on a line. A rule is a
glob for paths relative to the directory of its file. `#` at the start makes a line a remark, `!`
makes an exception that keeps what it describes, a slash at the end restricts a rule to directories. A
glob without a slash describes names at any depth. The last rule of a file that describes a path
decides (`IgnoreRule.verdict?`).
-/

set_option autoImplicit false

namespace LiveSpec

/-- A rule of an ignore file. -/
structure IgnoreRule where
  glob : Glob
  /-- Whether what the rule describes is kept. -/
  isException : Bool
  directoriesOnly : Bool
  deriving Repr, Inhabited

namespace IgnoreRule

/-- A line without the white space at its end, unless a backslash protects a space there. -/
def trimLine (line : List Char) : List Char :=
  match line.reverse with
  | ' ' :: '\\' :: _ => line
  | _ => Text.trimEnd line

/-- The slash at the end of a rule, with a backslash before it, taken off. The second part says
whether there was one. -/
def cutDirectoryMark (text : List Char) : List Char × Bool :=
  match text.reverse with
  | '/' :: '\\' :: front => (front.reverse, true)
  | '/' :: front => (front.reverse, true)
  | _ => (text, false)

/-- A glob that describes names at any depth when it has no slash of its own. -/
def deepen (text : List Char) : List Char :=
  if text.contains '/' ∨ text = ['*', '*'] then text else ['*', '*', '/'] ++ text

/-- A glob for everything in a directory describes what is beneath it, and not the directory. -/
def beneath (text : List Char) : List Char :=
  match text.reverse with
  | '*' :: '*' :: '/' :: _ => text ++ ['/', '*']
  | _ => text

/-- The rule with a given glob text. -/
def ofGlob? (isException isAnchored : Bool) (text : List Char) : Option IgnoreRule :=
  let (text, directoriesOnly) := cutDirectoryMark text
  let text := beneath (if isAnchored then text else deepen text)
  (Glob.parse? text).map fun glob ↦ ⟨glob, isException, directoriesOnly⟩

/-- The rule after the exclamation mark of an exception. -/
def ofPattern? (isException : Bool) : List Char → Option IgnoreRule
  | '/' :: text => ofGlob? isException true text
  | text => ofGlob? isException false text

/-- The rule on a line. Remarks, empty lines and invalid globs are no rules. -/
def ofLine? (line : List Char) : Option IgnoreRule :=
  match line with
  | '#' :: _ => none
  | _ =>
    match trimLine line with
    | [] => none
    | '\\' :: '!' :: text => ofGlob? false false ('!' :: text)
    | '\\' :: '#' :: text => ofGlob? false false ('#' :: text)
    | '!' :: text => ofPattern? true text
    | text => ofPattern? false text

/-- The rules of an ignore file. A byte order mark in front of them is skipped. -/
def ofText (text : String) : List IgnoreRule :=
  let marked := text.toList.dropWhile (· = '\ufeff')
  ((Text.lines marked).map Text.withoutReturn).filterMap ofLine?

/-- Whether a rule describes a path. -/
def describes (rule : IgnoreRule) (path : List Char) (isDirectory : Bool) : Bool :=
  (!rule.directoriesOnly || isDirectory) && rule.glob.accepts path

/-- What some rules say about a path: whether it is ignored, if they say anything. -/
def verdict? (rules : List IgnoreRule) (path : List Char) (isDirectory : Bool) : Option Bool :=
  (rules.reverse.find? fun rule ↦ rule.describes path isDirectory).map fun rule ↦
    !rule.isException

end IgnoreRule

end LiveSpec
