import PagedNets.Pnml.Script
import PagedNets.Xml.Tree

set_option autoImplicit false

namespace PagedNets.Pnml

/-- What reading leaves behind, reports and answers: the nets read, or why it ended. -/
structure Reading where
  document : Document
  events : List Event := []
  result : Except ReadError (List ObjectId)

def perform (d : Document) : List Step → Reading
  | [] => { document := d, result := .ok [] }
  | .edit change :: rest =>
    match d.edit change with
    | .error cause =>
      { document := d, events := d.events change, result := .error (.refused cause) }
    | .ok next =>
      let reading := perform next rest
      { reading with events := d.events change ++ reading.events }
  | .finished net format :: rest =>
    let reading := perform d rest
    { reading with
      events := .readNet net format :: reading.events
      result := reading.result.map (net :: ·) }
  | .fail fault :: _ => { document := d, result := .error fault }

def read (d : Document) (text : String) : Reading :=
  match Xml.parse? text with
  | none => { document := d, result := .error .malformed }
  | some root => perform d (script root)

end PagedNets.Pnml
