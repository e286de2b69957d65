import LiveSpec.Path.Basic

/-!
# Arguments of the command line

A command line names a command and options. Options for the project as a whole may stand anywhere,
those of a command only behind it, and none may be given twice. The value of an option follows behind
an equals sign, or behind a letter, or else it is the next argument, whatever that looks like. Behind
`--` every other argument is taken as it is.

`Invocation.parse?` reads a command line word by word and refuses it as a whole when a word does not
fit, a number is no number, or something that a command needs is missing.
-/

set_option autoImplicit false

namespace LiveSpec

/-- What is asked for. -/
inductive Command where
  | steps
  | specifications
  | concepts
  /-- The scenario at a line of a file. -/
  | scenario (file : Path) (line : Nat)
  /-- Follow the files, and look at the health of the watcher every so many seconds. -/
  | watch (healthInterval : Option Nat)
  deriving DecidableEq, Repr, Inhabited

/-- A command line that has been read. -/
structure Invocation where
  command : Option Command
  settingsFile : Option Path
  root : Option Path
  format : Option String
  deriving DecidableEq, Repr, Inhabited

/-- The commands by name. -/
inductive CommandName where
  | steps
  | specifications
  | concepts
  | scenario
  | watch
  deriving DecidableEq, Repr, Inhabited

/-- The command with a given name. -/
def CommandName.ofWord? : String → Option CommandName
  | "steps" => some steps
  | "specs" => some specifications
  | "concepts" => some concepts
  | "scenario" => some scenario
  | "watch" => some watch
  | _ => none

/-- The options. -/
inductive OptionName where
  | settingsFile
  | root
  | format
  | line
  | healthInterval
  deriving DecidableEq, Repr, Inhabited

namespace OptionName

/-- The option that a word stands for, without its dashes. -/
def ofLong? : String → Option OptionName
  | "config" => some settingsFile
  | "root" => some root
  | "format" => some format
  | "line" => some line
  | "health-interval" => some healthInterval
  | _ => none

/-- The option that a letter stands for. -/
def ofShort? : Char → Option OptionName
  | 'c' => some settingsFile
  | 'r' => some root
  | 'f' => some format
  | 'l' => some line
  | _ => none

/-- Whether an option may stand behind a command. -/
def isFor (command : Option CommandName) : OptionName → Bool
  | line => command == some .scenario
  | healthInterval => command == some .watch
  | _ => true

end OptionName

/-- What a word of the command line is. -/
inductive ArgumentWord where
  | plain (text : String)
  /-- An option, with its value if the same word holds it. -/
  | option (name : OptionName) (value : Option String)
  | endOfOptions
  | unknown
  deriving DecidableEq, Repr, Inhabited

namespace ArgumentWord

/-- A name and what follows the first equals sign, if there is one. -/
def splitAtEquals (text : List Char) : List Char × Option String :=
  let name := text.takeWhile (· ≠ '=')
  match text.dropWhile (· ≠ '=') with
  | [] => (name, none)
  | _ :: value => (name, some (String.ofList value))

/-- The value that is attached to the letter of an option. -/
def attached? : List Char → Option String
  | [] => none
  | '=' :: value => some (String.ofList value)
  | value => some (String.ofList value)

/-- What a word is by its dashes. -/
def ofText (text : String) : ArgumentWord :=
  match text.toList with
  | ['-', '-'] => endOfOptions
  | '-' :: '-' :: rest =>
    let (name, value) := splitAtEquals rest
    match OptionName.ofLong? (String.ofList name) with
    | some name => option name value
    | none => unknown
  | '-' :: letter :: rest =>
    match OptionName.ofShort? letter with
    | some name => option name (attached? rest)
    | none => unknown
  | _ => plain text

end ArgumentWord

/-- A command line of which some words have been read. -/
structure InvocationDraft where
  command : Option CommandName
  file : Option String
  settingsFile : Option String
  root : Option String
  format : Option String
  line : Option Nat
  healthInterval : Option Nat
  /-- The option whose value comes next. -/
  awaiting : Option OptionName
  /-- Whether the words that follow are taken as they are. -/
  verbatim : Bool
  deriving Repr, Inhabited

namespace InvocationDraft

/-- No word has been read. -/
def empty : InvocationDraft := ⟨none, none, none, none, none, none, none, none, false⟩

/-- The first number that does not fit into sixty-four bits. -/
def numberLimit : Nat := 18446744073709551616

/-- The number that a text stands for: decimal digits, with a plus sign in front if need be. -/
def number? (text : String) : Option Nat :=
  let digits := match text.toList with
    | '+' :: digits => digits
    | digits => digits
  if digits.isEmpty || !digits.all Char.isDigit then none
  else
    let value := digits.foldl (fun value c ↦ 10 * value + (c.toNat - '0'.toNat)) 0
    if value < numberLimit then some value else none

/-- Gives an option a value, unless it has one. -/
def setOption? (draft : InvocationDraft) (value : String) : OptionName → Option InvocationDraft
  | .settingsFile => setOnce draft.settingsFile (some value) fun value ↦
      { draft with settingsFile := value, awaiting := none }
  | .root => setOnce draft.root (some value) fun value ↦
      { draft with root := value, awaiting := none }
  | .format => setOnce draft.format (some value) fun value ↦
      { draft with format := value, awaiting := none }
  | .line => setOnce draft.line (number? value) fun value ↦
      { draft with line := value, awaiting := none }
  | .healthInterval => setOnce draft.healthInterval (number? value) fun value ↦
      { draft with healthInterval := value, awaiting := none }
where
  /-- Puts a value, if there is one, in a place that is empty. -/
  setOnce {α : Type} (old new : Option α) (put : Option α → InvocationDraft) :
      Option InvocationDraft :=
    if old.isSome || new.isNone then none else some (put new)

/-- Reads a word that is no option: the command, or the file that a command is about. -/
def readPlain? (draft : InvocationDraft) (text : String) : Option InvocationDraft :=
  match draft.command, draft.file with
  | none, _ => (CommandName.ofWord? text).map fun command ↦ { draft with command := some command }
  | some .scenario, none => some { draft with file := some text }
  | some _, _ => none

/-- Reads a word. -/
def read? (draft : InvocationDraft) (text : String) : Option InvocationDraft :=
  match draft.awaiting with
  | some name => draft.setOption? text name
  | none =>
    if draft.verbatim then draft.readPlain? text
    else
      match ArgumentWord.ofText text with
      | .plain text => draft.readPlain? text
      | .option name value =>
        if !name.isFor draft.command then none
        else
          match value with
          | some value => draft.setOption? value name
          | none => some { draft with awaiting := some name }
      | .endOfOptions => some { draft with verbatim := true }
      | .unknown => none

/-- The command that has been read, if nothing that it needs is missing. -/
def command? (draft : InvocationDraft) : CommandName → Option Command
  | .steps => some .steps
  | .specifications => some .specifications
  | .concepts => some .concepts
  | .scenario =>
    match draft.file, draft.line with
    | some file, some line => some (.scenario ⟨file⟩ line)
    | _, _ => none
  | .watch => some (.watch draft.healthInterval)

/-- The command line that has been read, if it is complete. -/
def finish? (draft : InvocationDraft) : Option Invocation := do
  if draft.awaiting.isSome then none
  let command ← match draft.command with
    | none => pure none
    | some name => (draft.command? name).map some
  return ⟨command, draft.settingsFile.map .mk, draft.root.map .mk, draft.format⟩

end InvocationDraft

/-- Reads a command line. -/
def Invocation.parse? (words : List String) : Option Invocation := do
  let draft ← words.foldlM InvocationDraft.read? .empty
  draft.finish?

end LiveSpec
