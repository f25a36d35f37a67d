set_option autoImplicit false

namespace PagedNets.CommandLine

inductive Verb where
  | convert
  | dot
  | layout
  | stats
  deriving DecidableEq, Repr

def Verb.name : Verb → String
  | .convert => "convert"
  | .dot => "dot"
  | .layout => "layout"
  | .stats => "stats"

def Verb.all : List Verb := [.convert, .dot, .layout, .stats]

def Verb.ofName? (s : String) : Option Verb := Verb.all.find? fun v => v.name == s

inductive Key where
  | settings
  | output
  | scope
  | format
  deriving DecidableEq, Repr

namespace Key

def name : Key → String
  | settings => "config"
  | output => "output"
  | scope => "scope"
  | format => "format"

def letter : Key → Char
  | settings => 'c'
  | output => 'o'
  | scope => 's'
  | format => 'f'

/-- The values that an option takes; all but one take any. -/
def accepts (k : Key) (value : String) : Bool :=
  k != format || value == "json" || value == "text"

end Key

/-- Where a word stands: in front of the verb, or behind it. -/
inductive Position where
  | top
  | after (verb : Verb)
  deriving DecidableEq, Repr

/-- The options that a word may name. The settings may be named on both sides. -/
def Position.keys : Position → List Key
  | top => [.settings]
  | after .convert => [.settings, .output]
  | after .dot => [.settings, .output, .scope]
  | after .layout => [.settings, .output]
  | after .stats => [.settings, .output, .format]

inductive Switch where
  | help
  | version
  deriving DecidableEq, Repr

namespace Switch

def name : Switch → String
  | help => "help"
  | version => "version"

def letter : Switch → Char
  | help => 'h'
  | version => 'V'

end Switch

def Position.switches : Position → List Switch
  | top => [.help, .version]
  | after _ => [.help]

inductive Word where
  | plain
  /-- Two dashes: every later word is an ordinary one. -/
  | separator
  | option (key : Key) (attached : Option String)
  | switch (s : Switch)
  /-- A switch with a value, which it does not take. -/
  | overloaded (s : Switch)
  | unknown
  deriving DecidableEq, Repr

namespace Word

def ofName (position : Position) (cs : List Char) : Word :=
  let name := String.ofList (cs.takeWhile (· != '='))
  let attached := match cs.dropWhile (· != '=') with
    | [] => none
    | _ :: value => some (String.ofList value)
  match position.keys.find? fun k => k.name == name with
  | some k => option k attached
  | none =>
    match position.switches.find? fun s => s.name == name with
    | some s => if attached.isSome then overloaded s else switch s
    | none => unknown

/-- A letter behind one dash, with a value right behind it or behind an equals sign. -/
def ofLetter (position : Position) (c : Char) (cs : List Char) : Word :=
  let attached := match cs with
    | [] => none
    | '=' :: value => some (String.ofList value)
    | value => some (String.ofList value)
  match position.keys.find? fun k => k.letter == c with
  | some k => option k attached
  | none =>
    match position.switches.find? fun s => s.letter == c with
    | some s => switch s
    | none => unknown

def ofText (position : Position) (text : String) : Word :=
  match text.toList with
  | ['-', '-'] => separator
  | '-' :: '-' :: cs => ofName position cs
  | '-' :: c :: cs => ofLetter position c cs
  | _ => plain

end Word

end PagedNets.CommandLine
