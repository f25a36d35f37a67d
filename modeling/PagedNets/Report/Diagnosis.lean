import PagedNets.Document.Event
import PagedNets.Json.Value

/-!
A node and all its aliases, on whatever pages, count as one: if one of them has an arc on its page,
none of them is isolated.
-/

set_option autoImplicit false

namespace PagedNets.Report

structure Diagnosis where
  page : ObjectId
  isolatedPlaces : List ObjectId := []
  isolatedTransitions : List ObjectId := []
  warnings : List String := []
  totalPlaces : Nat := 0
  totalTransitions : Nat := 0
  deriving DecidableEq, Repr

def referentOf (d : Document) (i : ObjectId) : ObjectId := (d.referents i).getLastD i

def aliasesOf (d : Document) (i : ObjectId) : IdSet :=
  match d.node? i with
  | none => []
  | some n => n.referencedBy

/-- Adds to `seen` the pending nodes and all aliases of theirs, over at most `fuel` of them. -/
def spread (d : Document) : Nat → List ObjectId → List ObjectId → List ObjectId
  | 0, _, seen => seen
  | _, [], seen => seen
  | fuel + 1, i :: pending, seen =>
    if seen.contains i then spread d fuel pending seen
    else spread d fuel (aliasesOf d i ++ pending) (i :: seen)

/-- A bound on the number of links from referents to aliases. -/
def linkCount (d : Document) : Nat :=
  d.objects.keys.foldl (fun n i => n + (aliasesOf d i).length) 0

def aliasClass (d : Document) (i : ObjectId) : List ObjectId :=
  spread d (linkCount d + 1) [referentOf d i] []

def pageOf? (d : Document) (i : ObjectId) : Option Page :=
  match (d.object? i).bind Object.owner with
  | some (.page p) => d.page? p
  | _ => none

def hasInput (d : Document) (i : ObjectId) : Bool :=
  (aliasClass d i).any fun m => ((pageOf? d m).map fun p => !(p.predecessors m).isEmpty).getD false

def hasOutput (d : Document) (i : ObjectId) : Bool :=
  (aliasClass d i).any fun m => ((pageOf? d m).map fun p => !(p.successors m).isEmpty).getD false

def referentPlace (d : Document) : Nat → Place → Place
  | 0, p => p
  | fuel + 1, p =>
    match p.node.reference.bind d.place? with
    | none => p
    | some next => referentPlace d fuel next

/-- An alias has the tokens of its referent. -/
def initialTokens (d : Document) (p : Place) : UInt64 := (referentPlace d d.size p).tokens

namespace Diagnosis

def warn (r : Diagnosis) (text : String) : Diagnosis := { r with warnings := r.warnings ++ [text] }

def addPlace (d : Document) (r : Diagnosis) (id : ObjectId) (p : Place) : Diagnosis :=
  let r := { r with totalPlaces := r.totalPlaces + 1 }
  if !hasInput d id && !hasOutput d id then
    { r with isolatedPlaces := r.isolatedPlaces ++ [id] }
  else if !hasInput d id && initialTokens d p == 0 then
    r.warn s!"库所 {id} 无输入弧且初始标记为 0，永远不会被激活"
  else r

def addTransition (d : Document) (r : Diagnosis) (id : ObjectId) : Diagnosis :=
  let r := { r with totalTransitions := r.totalTransitions + 1 }
  if !hasInput d id && !hasOutput d id then
    { r with isolatedTransitions := r.isolatedTransitions ++ [id] }
  else if !hasInput d id then r.warn s!"变迁 {id} 无前置库所，永远无法触发"
  else if !hasOutput d id then r.warn s!"变迁 {id} 无后置库所，检查是否为预期行为"
  else r

def addNode (d : Document) (r : Diagnosis) (id : ObjectId) : Diagnosis :=
  match d.object? id with
  | some (.place p) => r.addPlace d id p
  | some (.transition _) => r.addTransition d id
  | _ => r

/-- Examines the nodes that stand directly on a page. -/
def ofPage (d : Document) (key : ObjectId) : Except NetError Diagnosis :=
  match d.object? key with
  | some (.page p) => .ok (p.nodes.keys.foldl (addNode d) { page := p.id })
  | some other => .error (.notAContainer other.id)
  | none => .error (.unknownObject key)

def hasIssues (r : Diagnosis) : Bool :=
  !r.isolatedPlaces.isEmpty || !r.isolatedTransitions.isEmpty || !r.warnings.isEmpty

def json (r : Diagnosis) : Json :=
  .object [("page", .string r.page.text),
    ("isolated_places", .strings (r.isolatedPlaces.map (·.text))),
    ("isolated_transitions", .strings (r.isolatedTransitions.map (·.text))),
    ("warnings", .strings r.warnings),
    ("total_places", .natural r.totalPlaces),
    ("total_transitions", .natural r.totalTransitions)]

def heading (r : Diagnosis) : String := s!"=== 页面 {r.page} 连通性诊断 ==="

def totals (r : Diagnosis) : String :=
  s!"总计: {r.totalPlaces} 个库所, {r.totalTransitions} 个变迁"

def item (text : String) : String := "  - " ++ text

def group (heading : String) (items : List String) : List String :=
  if items.isEmpty then [] else heading :: items.map item

def lines (r : Diagnosis) : List String :=
  [r.heading, r.totals]
    ++ group s!"孤立库所 ({r.isolatedPlaces.length}):" (r.isolatedPlaces.map (·.text))
    ++ group s!"孤立变迁 ({r.isolatedTransitions.length}):" (r.isolatedTransitions.map (·.text))
    ++ group s!"警告 ({r.warnings.length}):" r.warnings

def text (r : Diagnosis) : String := String.join (r.lines.map (· ++ "\n"))

def warning (text : String) : LogLine := ⟨.warn, text⟩

def logLines (r : Diagnosis) : List LogLine :=
  if r.hasIssues then
    ([r.heading, r.totals]
      ++ group s!"发现 {r.isolatedPlaces.length} 个孤立库所:" (r.isolatedPlaces.map (·.text))
      ++ group s!"发现 {r.isolatedTransitions.length} 个孤立变迁:"
        (r.isolatedTransitions.map (·.text))
      ++ r.warnings.map item).map warning
  else [⟨.info, s!"页面 {r.page} 连通性检查通过，无孤立节点"⟩]

end Diagnosis

end PagedNets.Report
