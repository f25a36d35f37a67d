import PagedNets.Document.Change

set_option autoImplicit false

namespace PagedNets

inductive Level where
  | debug
  | info
  | warn
  deriving DecidableEq, Repr

def Level.name : Level → String
  | .debug => "debug"
  | .info => "info"
  | .warn => "warn"

structure LogLine where
  level : Level
  text : String
  deriving DecidableEq, Repr

def LogLine.render (l : LogLine) : String := l.level.name ++ " " ++ l.text

inductive Event where
  | admittedNet (net : ObjectId)
  | admitted (kind : Kind) (object parent : ObjectId)
  | rejected (kind : Kind) (object : ObjectId) (cause : NetError)
  | readNet (net : ObjectId) (format : NetFormat)
  | laidOut (page : ObjectId) (nodes arcs layers crossings : Nat)
  deriving DecidableEq, Repr

def Event.line : Event → LogLine
  | .admittedNet net => ⟨.debug, s!"admitted net {net}"⟩
  | .admitted kind object parent => ⟨.debug, s!"admitted {kind} {object} into {parent}"⟩
  | .rejected kind object cause =>
    ⟨.debug, "rejected " ++ kind.name ++ " " ++ object.text ++ ": " ++ cause.message⟩
  | .readNet net format =>
    ⟨.debug, "read net " ++ net.text ++ " (" ++ format.label ++ ")"⟩
  | .laidOut page nodes arcs layers crossings =>
    ⟨.info, s!"laid out page {page}: {nodes} nodes, {arcs} arcs, "
      ++ s!"{layers} layers, {crossings} crossings"⟩

inductive Edit where
  | addNet (net : Net)
  | add (parent : ObjectId) (object : Object)
  | setName (object : ObjectId) (name : Option String)
  | setReference (node : ObjectId) (reference : Option ObjectId)
  | setGeometry (node : ObjectId) (position size : Point)
  | setFormat (net : ObjectId) (format : NetFormat)
  | setTokens (place : ObjectId) (tokens : UInt64)
  | setMarkingOffset (place : ObjectId) (offset : Point)
  | setArcKind (arc : ObjectId) (kind : ArcKind)
  | setCurve (arc : ObjectId) (curve : List Point)

namespace Document

def edit (d : Document) : Edit → Except NetError Document
  | .addNet net => d.addNet net
  | .add parent object => d.add parent object
  | .setName object name => d.setName object name
  | .setReference node reference => d.setReference node reference
  | .setGeometry node position size => d.setGeometry node position size
  | .setFormat net format => .ok (d.setFormat net format)
  | .setTokens place tokens => .ok (d.setTokens place tokens)
  | .setMarkingOffset place offset => .ok (d.setMarkingOffset place offset)
  | .setArcKind arc kind => .ok (d.setArcKind arc kind)
  | .setCurve arc curve => .ok (d.setCurve arc curve)

def events (d : Document) : Edit → List Event
  | .addNet net =>
    match d.addNet net with
    | .ok _ => [.admittedNet net.id]
    | .error _ => []
  | .add parent object =>
    match d.check parent object with
    | .error cause => [.rejected object.kind object.id cause]
    | .ok () =>
      match d.commit parent object with
      | .ok _ => [.admitted object.kind object.id parent]
      | .error _ => []
  | _ => []

end Document

end PagedNets
