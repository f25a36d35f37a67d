import PagedNets.CommandLine.Options
import PagedNets.Json.Printer
import PagedNets.Layout.Page
import PagedNets.Pnml.Reader
import PagedNets.Pnml.Writer
import PagedNets.Report.Diagnosis
import PagedNets.Report.Stats
import PagedNets.Settings

set_option autoImplicit false

namespace PagedNets.CommandLine

inductive Content where
  | absent
  | unreadable
  | text (content : String)
  deriving DecidableEq, Repr

inductive Failure where
  | settings (path : String) (cause : Settings.LoadError)
  /-- Without a cause, there is no such text. -/
  | input (path : String) (cause : Option Pnml.ReadError)
  | output (path : String)
  | drawing (scope : ObjectId) (path : String) (cause : Option NetError)
  | layout (net : ObjectId) (cause : NetError)
  | diagnosis (cause : NetError)
  deriving DecidableEq, Repr

namespace Failure

def context : Failure → String
  | settings path .unreadable => "Failed to read config file: " ++ Text.quoted path
  | settings path .malformed => "Failed to parse config file: " ++ Text.quoted path
  | input path _ => "Failed to read PNML document " ++ Text.quoted path
  | output path => "Failed to write " ++ Text.quoted path
  | drawing scope path _ => s!"Failed to render {scope} to " ++ Text.quoted path
  | layout net _ => s!"Failed to lay out net {net}"
  | diagnosis cause => cause.message

def cause? : Failure → Option String
  | input _ cause => cause.map Pnml.ReadError.message
  | drawing _ _ cause => cause.map NetError.message
  | layout _ cause => some cause.message
  | settings .. | output _ | diagnosis _ => none

def message (f : Failure) : String :=
  match f.cause? with
  | none => f.context
  | some cause => f.context ++ "\n\nCaused by:\n    " ++ cause

end Failure

inductive Delivery where
  /-- Into a file; `refused` is the report if it cannot be written. -/
  | file (path text : String) (refused : Failure)
  | screen (text : String)
  deriving DecidableEq, Repr

def settingsOf (path : String) : Content → Except Failure Settings
  | .absent => .ok {}
  | .unreadable => .error (.settings path .unreadable)
  | .text content => (Settings.ofText content).mapError (Failure.settings path)

def documentOf (path : String) : Content → Except Failure (Document × List ObjectId)
  | .text content =>
    let reading := Pnml.read {} content
    match reading.result with
    | .ok nets => .ok (reading.document, nets)
    | .error cause => .error (.input path (some cause))
  | .absent | .unreadable => .error (.input path none)

def toFile (path text : String) : Delivery :=
  .file path text (.output path)

def picture (settings : Dot.Settings) (d : Document) (nets : List ObjectId)
    (scope : Option String) (output : String) : Except Failure Delivery :=
  let scope := (scope.map ObjectId.mk).getD (nets.headD ⟨""⟩)
  match Dot.render d scope settings with
  | .ok text =>
    .ok (.file output text (.drawing scope output none))
  | .error cause => .error (.drawing scope output (some cause))

def layoutAll (settings : Layout.Settings) (d : Document) (nets : List ObjectId) :
    Except Failure Document :=
  nets.foldlM
    (fun d net =>
      let outcome := Layout.layoutNet d net settings
      match outcome.result with
      | .ok _ => .ok outcome.document
      | .error cause => .error (.layout net cause))
    d

def diagnoses (d : Document) : Except Failure (List Report.Diagnosis) :=
  (d.toList.filterMap Object.page?).mapM fun page =>
    (Report.Diagnosis.ofPage d page.id).mapError Failure.diagnosis

/-- Counts and the diagnoses of all pages; as a text, they are set apart by blank lines. -/
def report (d : Document) (format : ReportFormat) : Except Failure String := do
  let stats := Report.Stats.collect d
  let diagnoses ← diagnoses d
  match format with
  | .json =>
    return (Json.object [("stats", stats.json),
      ("diagnostics", .array (diagnoses.map Report.Diagnosis.json))]).text
  | .text =>
    return stats.text ++ String.join (diagnoses.map fun r => "\n\n" ++ Text.trimEnd r.text)

def Command.input : Command → String
  | convert input _ => input
  | dot input _ _ => input
  | layout input _ => input
  | stats input _ _ => input

def Command.run (settings : Settings) (d : Document) (nets : List ObjectId) :
    Command → Except Failure Delivery
  | convert _ output => .ok (toFile output (Pnml.write d))
  | dot _ output scope => picture settings.dot d nets scope output
  | layout _ output => (layoutAll settings.layout d nets).map fun d => toFile output (Pnml.write d)
  | stats _ output format =>
    (report d format).map fun text =>
      match output with
      | some path => toFile path text
      | none => .screen (text ++ "\n")

def Options.run (o : Options) (settings input : Content) : Except Failure Delivery := do
  let settings ← settingsOf o.settings settings
  let (d, nets) ← documentOf o.command.input input
  o.command.run settings d nets

end PagedNets.CommandLine
