import PagedNets.Document.Event
import PagedNets.Decimal.Reading
import PagedNets.Xml.Node

/-!
What an exchange document asks for. The tree of a document is turned into a list of steps without
looking at any net that is already there: objects to admit, in the order net, page, nodes, arcs,
nested pages; then the alias links of the net, since a reference may name a node further on. A fault
of the document is the step at which reading ends.
-/

set_option autoImplicit false

namespace PagedNets.Pnml

inductive ReadError where
  | malformed
  | unknownFormat (raw : String)
  | missingAttribute (element name : String)
  | invalidNumber (context value : String)
  | noNet
  | refused (cause : NetError)
  deriving DecidableEq, Repr

def ReadError.message : ReadError → String
  | .malformed => "malformed markup"
  | .unknownFormat raw => NetFormat.unknownMessage raw
  | .missingAttribute element name =>
    s!"<{element}> is missing required attribute '{name}'"
  | .invalidNumber context value => s!"invalid number '{value}' in {context}"
  | .noNet => "document contains no <net> element"
  | .refused cause => cause.message

inductive Step where
  | edit (change : Edit)
  | finished (net : ObjectId) (format : NetFormat)
  | fail (fault : ReadError)

open Xml (Node)

def required (n : Node) (name : String) : Except ReadError String :=
  match n.attribute? name with
  | some value => .ok value
  | none => .error (.missingAttribute n.tag name)

def requiredId (n : Node) (name : String) : Except ReadError ObjectId :=
  (required n name).map ObjectId.mk

/-- The name of an element: the text of its `name`, empty if there is a text without content. -/
def nameOf (n : Node) : Option String :=
  ((n.child? "name").bind (·.child? "text")).map fun text => text.text?.getD ""

def coordinate (n : Node) (axis : String) : Except ReadError Float :=
  match n.attribute? axis with
  | none => .ok 0
  | some raw =>
    match Decimal.float? (Text.trim raw) with
    | some x => .ok x
    | none => .error (.invalidNumber ("<" ++ n.tag ++ "> attribute " ++ axis) raw)

def pointOf (n : Node) : Except ReadError Point := do
  let x ← coordinate n "x"
  let y ← coordinate n "y"
  .ok { x := x, y := y }

def pointOrOrigin : Option Node → Except ReadError Point
  | none => .ok {}
  | some n => pointOf n

def nodeDataOf (n : Node) : Except ReadError NodeData := do
  let graphics := n.child? "graphics"
  let position ← pointOrOrigin (graphics.bind (·.child? "position"))
  let size ← pointOrOrigin (graphics.bind (·.child? "dimension"))
  .ok { position := position, size := size }

def tokensOf (id : ObjectId) (marking : Node) : Except ReadError UInt64 :=
  match (marking.child? "text").bind (·.text?) with
  | none => .ok 0
  | some text =>
    match Decimal.count? (Text.trim text) with
    | some tokens => .ok tokens
    | none => .error (.invalidNumber ("initial marking of " ++ id.text) (Text.trim text))

def placeOf (n : Node) : Except ReadError Place := do
  let id ← requiredId n "id"
  let data ← nodeDataOf n
  let place : Place := { id := id, name := nameOf n, node := data }
  match n.child? "initialMarking" with
  | none => .ok place
  | some marking =>
    let tokens ← tokensOf id marking
    let offset ← pointOrOrigin ((marking.child? "graphics").bind (·.child? "offset"))
    .ok { place with tokens := tokens, markingOffset := offset }

def transitionOf (n : Node) : Except ReadError Transition := do
  let id ← requiredId n "id"
  let data ← nodeDataOf n
  .ok { id := id, name := nameOf n, node := data }

/-- An arc is a read arc if its type says so, by its value or else by its text. -/
def arcKindOf (n : Node) : ArcKind :=
  match n.child? "type" with
  | none => .normal
  | some kind =>
    let value := (kind.attribute? "value").or ((kind.child? "text").bind (·.text?))
    if Text.foldCase (Text.trim (value.getD "")) = "read" then .read else .normal

def arcOf (n : Node) : Except ReadError Arc := do
  let id ← requiredId n "id"
  let source ← requiredId n "source"
  let target ← requiredId n "target"
  let positions := match n.child? "graphics" with
    | none => []
    | some graphics => graphics.childrenTagged "position"
  let curve ← positions.mapM pointOf
  .ok { id := id, name := nameOf n, source := source, target := target, kind := arcKindOf n,
        curve := curve }

def isReference (n : Node) : Bool := n.tag = "referencePlace" || n.tag = "referenceTransition"

/-- The place or transition that an element describes; other elements describe none. An alias must
name its referent, though it is linked only later. -/
def nodeOf? (n : Node) : Option (Except ReadError Object) :=
  let object? : Option (Except ReadError Object) :=
    if n.tag = "place" || n.tag = "referencePlace" then some ((placeOf n).map .place)
    else if n.tag = "transition" || n.tag = "referenceTransition" then
      some ((transitionOf n).map .transition)
    else none
  object?.map fun object => do
    let o ← object
    if isReference n then
      let _ ← required n "ref"
      .ok o
    else .ok o

def admission (parent : ObjectId) : Except ReadError Object → Step
  | .ok o => .edit (.add parent o)
  | .error fault => .fail fault

def nodeSteps (page : ObjectId) (n : Node) : List Step :=
  n.children.filterMap fun child => (nodeOf? child).map (admission page)

def arcSteps (page : ObjectId) (n : Node) : List Step :=
  (n.childrenTagged "arc").map fun child => admission page ((arcOf child).map .arc)

mutual

def pageSteps (parent : ObjectId) : Node → List Step
  | .element tag attributes children =>
    let n := Node.element tag attributes children
    match requiredId n "id" with
    | .error fault => [.fail fault]
    | .ok id =>
      .edit (.add parent (.page { id := id, name := nameOf n }))
        :: nodeSteps id n ++ arcSteps id n ++ nestedSteps id children
  | _ => []

def nestedSteps (parent : ObjectId) : List Node → List Step
  | [] => []
  | child :: rest =>
    (if child.isTagged "page" then pageSteps parent child else []) ++ nestedSteps parent rest

end

def linkOf? (n : Node) : Option Step :=
  if isReference n then
    match n.attribute? "id", n.attribute? "ref" with
    | some id, some referent => some (.edit (.setReference ⟨id⟩ (some ⟨referent⟩)))
    | _, _ => none
  else none

mutual

def pageLinks : Node → List Step
  | .element _ _ children => children.filterMap linkOf? ++ nestedLinks children
  | _ => []

def nestedLinks : List Node → List Step
  | [] => []
  | child :: rest => (if child.isTagged "page" then pageLinks child else []) ++ nestedLinks rest

end

def netOf (n : Node) : Except ReadError Net := do
  let id ← requiredId n "id"
  let raw ← required n "type"
  match NetFormat.ofUri? raw with
  | none => .error (.unknownFormat raw)
  | some format => .ok { id := id, name := nameOf n, format := format }

def netSteps (n : Node) : List Step :=
  match netOf n with
  | .error fault => [.fail fault]
  | .ok net =>
    .edit (.addNet net) :: nestedSteps net.id n.children ++ nestedLinks n.children
      ++ [.finished net.id net.format]

/-- The nets of a document: its root, or else the children of its root. -/
def netElements (root : Node) : List Node :=
  if root.isTagged "net" then [root] else root.childrenTagged "net"

def script (root : Node) : List Step :=
  match netElements root with
  | [] => [.fail .noNet]
  | nets => nets.flatMap netSteps

end PagedNets.Pnml
