import PagedNets.CommandLine.Word

/-!
What a command line asks for. An option whose value stands in the next word is settled only when
something else that is known follows it, so an unknown word is reported before a bad value that
stands in front of it. What is missing is reported last.
-/

set_option autoImplicit false

namespace PagedNets.CommandLine

inductive ReportFormat where
  | json
  | text
  deriving DecidableEq, Repr

def ReportFormat.name : ReportFormat → String
  | json => "json"
  | text => "text"

inductive Command where
  | convert (input output : String)
  /-- Draws a net or a page; without a scope, the first net. -/
  | dot (input output : String) (scope : Option String)
  | layout (input output : String)
  /-- Reports counts and connectivity; without an output, to the screen. -/
  | stats (input : String) (output : Option String) (format : ReportFormat)
  deriving DecidableEq, Repr

structure Options where
  settings : String
  command : Command
  deriving DecidableEq, Repr

/-- Why there is nothing to do: a wish for information, or a mistake. -/
inductive Refusal where
  | displayHelp
  | displayVersion
  | invalidValue
  | argumentConflict
  | tooManyValues
  | unknownArgument
  | missingRequiredArgument
  | invalidSubcommand
  | missingSubcommand
  deriving DecidableEq, Repr

def Switch.wish : Switch → Refusal
  | help => .displayHelp
  | version => .displayVersion

def isTopic (text : String) : Bool := text == "help" || (Verb.ofName? text).isSome

/-- What has been read on one side of the verb. -/
structure Scan where
  given : List (Key × String) := []
  /-- The last option, with its value if it has come. -/
  pending : Option (Key × Option String) := none
  input : Option String := none
  /-- Two dashes have been passed. -/
  trailing : Bool := false
  deriving Repr

namespace Scan

/-- Takes note of an option, which may be given once on a side. -/
def give (s : Scan) (k : Key) (value : String) : Except Refusal Scan :=
  if (s.given.lookup k).isSome then .error .argumentConflict
  else if k.accepts value then .ok { s with given := s.given ++ [(k, value)] }
  else .error .invalidValue

def settle (s : Scan) : Except Refusal Scan :=
  match s.pending with
  | none => .ok s
  | some (_, none) => .error .invalidValue
  | some (k, some value) => give { s with pending := none } k value

def isAwaiting (s : Scan) : Bool :=
  match s.pending with
  | some (_, none) => !s.trailing
  | _ => false

/-- An ordinary word that is no value. Behind the verb one is taken, as the input. In front of it
there is no place for one, nor for a verb behind two dashes. -/
def takeInput (s : Scan) (position : Position) (text : String) : Except Refusal Scan :=
  match position with
  | .top => .error (if s.trailing && isTopic text then .unknownArgument else .invalidSubcommand)
  | .after _ =>
    if s.input.isSome then .error .unknownArgument
    else s.settle.map fun s => { s with input := some text }

def takePlain (s : Scan) (position : Position) (text : String) : Except Refusal Scan :=
  match s.pending with
  | some (k, none) =>
    if s.trailing then s.takeInput position text
    else .ok { s with pending := some (k, some text) }
  | _ => s.takeInput position text

def take (s : Scan) (position : Position) (text : String) : Except Refusal Scan :=
  if s.trailing then s.takePlain position text
  else
    match Word.ofText position text with
    | .plain => s.takePlain position text
    | .separator => .ok { s with trailing := true }
    | .option k (some value) => s.settle.bind fun s => s.give k value
    | .option k none => s.settle.map fun s => { s with pending := some (k, none) }
    | .switch switch => s.settle.bind fun _ => .error switch.wish
    | .overloaded _ => .error .tooManyValues
    | .unknown => .error .unknownArgument

def takeAll (s : Scan) (position : Position) (texts : List String) : Except Refusal Scan :=
  (texts.foldlM (fun (s : Scan) text => s.take position text) s).bind settle

def value? (s : Scan) (k : Key) : Option String := s.given.lookup k

def command? (s : Scan) : Verb → Option Command
  | .convert => do some (.convert (← s.input) (← s.value? .output))
  | .dot => do some (.dot (← s.input) ((s.value? .output).getD "net.dot") (s.value? .scope))
  | .layout => do some (.layout (← s.input) (← s.value? .output))
  | .stats => do
    let format : ReportFormat := if s.value? .format = some "text" then .text else .json
    some (.stats (← s.input) (s.value? .output) format)

end Scan

/-- The answer to a wish for help; the words after it name what the help is about. -/
def helpOn : List String → Refusal
  | [] => .displayHelp
  | [topic] => if isTopic topic then .displayHelp else .invalidSubcommand
  | _ => .invalidSubcommand

/-- The settings are those named behind the verb, else those named in front of it. -/
def settingsPath (top behind : Scan) : String :=
  ((behind.value? .settings).or (top.value? .settings)).getD "pnd.toml"

/-- Reads what stands behind a verb. The option in front of the verb is settled after that. -/
def finish (top : Scan) (verb : Verb) (texts : List String) : Except Refusal Options := do
  let behind ← Scan.takeAll {} (.after verb) texts
  match behind.command? verb with
  | none => throw .missingRequiredArgument
  | some command =>
    let top ← top.settle
    return { settings := settingsPath top behind, command := command }

def parseFrom (s : Scan) : List String → Except Refusal Options
  | [] => s.settle.bind fun _ => .error .missingSubcommand
  | text :: texts =>
    let go := (s.take .top text).bind fun s => parseFrom s texts
    if s.isAwaiting || s.trailing then go
    else if text = "help" then .error (helpOn texts)
    else
      match Verb.ofName? text with
      | some verb => finish s verb texts
      | none => go

def Options.parse (texts : List String) : Except Refusal Options := parseFrom {} texts

end PagedNets.CommandLine
