import PagedNets.Dot
import PagedNets.Json.Value
import PagedNets.Layout.Settings
import PagedNets.Toml.Field
import PagedNets.Toml.Reader

set_option autoImplicit false

namespace PagedNets

open Toml (Value)

def Layered.Ranker.ofValue? (v : Value) : Option Layered.Ranker := v.tag?.bind ofName?

def Layout.Settings.ofValue? (v : Value) : Option Layout.Settings :=
  match v.fields? ["node_size", "iterations", "ranker", "remove_cycles"] with
  | some [nodeSize, iterations, ranker, removeCycles] => do
    let usual : Layout.Settings := {}
    let nodeSize ← Value.orDefault? Value.float? usual.nodeSize nodeSize
    let iterations ← Value.orDefault? Value.count? usual.iterations iterations
    let ranker ← Value.orDefault? Layered.Ranker.ofValue? usual.ranker ranker
    let removeCycles ← Value.orDefault? Value.boolean? usual.removeCycles removeCycles
    some { nodeSize, iterations, ranker, removeCycles }
  | _ => none

def Layout.Settings.json (s : Layout.Settings) : Json :=
  .object [("node_size", .real s.nodeSize), ("iterations", .natural s.iterations),
    ("ranker", .string s.ranker.name), ("remove_cycles", .bool s.removeCycles)]

def Dot.Settings.ofValue? (v : Value) : Option Dot.Settings :=
  match v.fields? ["rankdir", "show_ids"] with
  | some [rankdir, showIds] => do
    let usual : Dot.Settings := {}
    let rankdir ← Value.orDefault? Value.string? usual.rankdir rankdir
    let showIds ← Value.orDefault? Value.boolean? usual.showIds showIds
    some { rankdir, showIds }
  | _ => none

def Dot.Settings.json (s : Dot.Settings) : Json :=
  .object [("rankdir", .string s.rankdir), ("show_ids", .bool s.showIds)]

structure Settings where
  layout : Layout.Settings := {}
  dot : Dot.Settings := {}
  deriving Repr

namespace Settings

inductive LoadError where
  | unreadable
  /-- The text is no settings text, or a value is of the wrong type. -/
  | malformed
  deriving DecidableEq, Repr

def ofValue? (v : Value) : Option Settings :=
  match v.fields? ["layout", "dot"] with
  | some [layout, dot] => do
    let layout ← Value.orDefault? Layout.Settings.ofValue? {} layout
    let dot ← Value.orDefault? Dot.Settings.ofValue? {} dot
    some { layout, dot }
  | _ => none

def ofText (text : String) : Except LoadError Settings :=
  match (Toml.parse? text).bind fun es => ofValue? (.table .header es) with
  | some settings => .ok settings
  | none => .error .malformed

def ofBytes (bytes : ByteArray) : Except LoadError Settings :=
  match String.fromUTF8? bytes with
  | some text => ofText text
  | none => .error .unreadable

def json (s : Settings) : Json := .object [("layout", s.layout.json), ("dot", s.dot.json)]

end Settings

end PagedNets
