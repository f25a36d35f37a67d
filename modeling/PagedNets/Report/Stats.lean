import PagedNets.Document.Basic
import PagedNets.Json.Value

set_option autoImplicit false

namespace PagedNets.Report

structure Stats where
  nets : Nat := 0
  pages : Nat := 0
  places : Nat := 0
  transitions : Nat := 0
  arcs : Nat := 0
  referenceNodes : Nat := 0
  initialTokens : UInt64 := 0
  deriving DecidableEq, Repr

def addSaturating (a b : UInt64) : UInt64 := if a ≤ a + b then a + b else 0xFFFFFFFFFFFFFFFF

namespace Stats

def countKind (s : Stats) : Kind → Stats
  | .net => { s with nets := s.nets + 1 }
  | .page => { s with pages := s.pages + 1 }
  | .place => { s with places := s.places + 1 }
  | .transition => { s with transitions := s.transitions + 1 }
  | .arc => { s with arcs := s.arcs + 1 }

def isAlias (o : Object) : Bool := (o.node?.bind (·.reference)).isSome

def countNode (s : Stats) (o : Object) : Stats :=
  if isAlias o then { s with referenceNodes := s.referenceNodes + 1 }
  else
    match o with
    | .place p => { s with initialTokens := addSaturating s.initialTokens p.tokens }
    | _ => s

def collect (d : Document) : Stats :=
  d.toList.foldl (fun s o => (s.countKind o.kind).countNode o) {}

def json (s : Stats) : Json :=
  .object [("nets", .natural s.nets), ("pages", .natural s.pages), ("places", .natural s.places),
    ("transitions", .natural s.transitions), ("arcs", .natural s.arcs),
    ("reference_nodes", .natural s.referenceNodes),
    ("initial_tokens", .natural s.initialTokens.toNat)]

def text (s : Stats) : String :=
  s!"nets:            {s.nets}\npages:           {s.pages}\nplaces:          {s.places}\n" ++
  s!"transitions:     {s.transitions}\narcs:            {s.arcs}\n" ++
  s!"reference nodes: {s.referenceNodes}\ninitial tokens:  {s.initialTokens}"

end Stats

end PagedNets.Report
