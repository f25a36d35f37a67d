import PagedNets.CommandLine.FileSystem

set_option autoImplicit false

namespace PagedNets.CommandLine

inductive Status where
  | success
  | failure
  | misuse
  deriving DecidableEq, Repr

def Status.code : Status → UInt8
  | success => 0
  | failure => 1
  | misuse => 2

def version : String := "0.1.0"

def usage : String :=
  "Hierarchical Petri net documents: PNML, DOT and automatic layout\n\n" ++
  "Usage: pnd [OPTIONS] <COMMAND>\n\n" ++
  "Commands:\n" ++
  "  convert  Read a PNML document and write it back out\n" ++
  "  dot      Render a net or page as Graphviz DOT\n" ++
  "  layout   Lay out every page and write the result as PNML\n" ++
  "  stats    Print object counts and connectivity diagnostics\n" ++
  "  help     Print this message or the help of the given subcommand(s)\n\n" ++
  "Options:\n" ++
  "  -c, --config <FILE>  TOML configuration file [default: pnd.toml]\n" ++
  "  -h, --help           Print help\n" ++
  "  -V, --version        Print version\n"

namespace Refusal

def message : Refusal → String
  | displayHelp => ""
  | displayVersion => ""
  | invalidValue => "an option lacks its value or has one that it does not take"
  | argumentConflict => "an option cannot be used multiple times"
  | tooManyValues => "a value was given to a switch that takes none"
  | unknownArgument => "unexpected argument found"
  | missingRequiredArgument => "a required argument was not provided"
  | invalidSubcommand => "unrecognized subcommand"
  | missingSubcommand => "a subcommand is required but was not provided"

end Refusal

/-- What a run prints, on the screen and as a complaint, and how it ends. -/
structure Ending where
  status : Status
  screen : String := ""
  complaint : String := ""
  deriving DecidableEq, Repr

def Refusal.ending : Refusal → Ending
  | .displayHelp => { status := .success, screen := usage }
  | .displayVersion => { status := .success, screen := "pnd " ++ version ++ "\n" }
  | r => { status := .misuse, complaint := "error: " ++ r.message ++ "\n\n" ++ usage }

def Failure.ending (f : Failure) : Ending :=
  { status := .failure, complaint := "Error: " ++ f.message ++ "\n" }

namespace FileSystem

def deliver (s : FileSystem) : Delivery → Ending × FileSystem
  | .screen text => ({ status := .success, screen := text }, s)
  | .file path text refused =>
    match s.write? path text with
    | some w => ({ status := .success, screen := w.shown }, w.system)
    | none => (refused.ending, s)

def run (s : FileSystem) (words : List String) : Ending × FileSystem :=
  match Options.parse words with
  | .error r => (r.ending, s)
  | .ok o =>
    match o.run (s.read o.settings) (s.read o.command.input) with
    | .ok delivery => s.deliver delivery
    | .error f => (f.ending, s)

end FileSystem

end PagedNets.CommandLine
