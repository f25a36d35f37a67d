import PagedNets.Document.Basic

/-!
Admission of objects. `check` decides whether an object may enter a container and names the first
rule that it breaks; `commit` enters it into the registry, the tables of its container and the
inverse links of the node it refers to. `add` writes nothing unless `check` is passed.
-/

set_option autoImplicit false

namespace PagedNets

namespace Object

/-- The scope of names that a child of the given kind enters: nets hold pages, pages hold
everything but nets, and a page must itself stand in a container. -/
def scopeFor (container : Object) (child : Kind) : Except NetError (Table String ObjectId) :=
  match container with
  | .net n =>
    if child = .page then .ok n.names else .error (.invalidChild n.id .net child)
  | .page p =>
    if child = .net then .error (.invalidChild p.id .page child)
    else if p.owner.isNone then .error (.orphan p.id)
    else .ok p.names
  | other => .error (.invalidChild other.id other.kind child)

/-- Enters a child into the tables of its container. An arc whose ends are not on the page is
not entered. -/
def adopt (child : Object) : Object → Object
  | .net n => .net (n.insertPage child.id child.scopedName)
  | .page p =>
    match child with
    | .place _ => .page (p.insertNode child.id child.scopedName)
    | .transition _ => .page (p.insertNode child.id child.scopedName)
    | .arc a =>
      match p.vertex? a.source, p.vertex? a.target with
      | some source, some target => .page (p.insertArc a.id child.scopedName source target)
      | _, _ => .page p
    | _ => .page (p.insertPage child.id child.scopedName)
  | other => other

def admitted (o : Object) (owner : Owner) : Object :=
  (o.setOwner owner).mapNode fun n => { n with referencedBy := [] }

def reference? (o : Object) : Option ObjectId := o.node?.bind (·.reference)

end Object

namespace Document

def checkReference (d : Document) (node : ObjectId) (kind : Kind) (reference : ObjectId) :
    Except NetError Unit :=
  match d.object? reference with
  | none => .error (.unresolvedReference node reference)
  | some referent =>
    if referent.kind = kind then .ok ()
    else .error (.referenceKindMismatch node kind reference referent.kind)

def checkNode (d : Document) (id : ObjectId) (kind : Kind) (node : NodeData) :
    Except NetError Unit :=
  if node.isFinite then
    match node.reference with
    | none => .ok ()
    | some reference => d.checkReference id kind reference
  else .error (.nonFiniteGeometry id)

def checkPlace (d : Document) (p : Place) : Except NetError Unit := do
  d.checkNode p.id .place p.node
  if p.markingOffset.isFinite then .ok () else .error (.nonFiniteGeometry p.id)

def endpoint (d : Document) (page : Page) (arc : Arc) (node : ObjectId) : Except NetError Nat :=
  if (d.node? node).isNone then .error (.unresolvedEndpoint arc.id node)
  else
    match page.vertex? node with
    | none => .error (.endpointOutsidePage arc.id node page.id)
    | some v => .ok v

/-- Between two nodes there is at most one arc in each direction. -/
def checkArc (d : Document) (page : Page) (arc : Arc) : Except NetError Unit := do
  if arc.curve.all Point.isFinite then .ok () else .error (.nonFiniteGeometry arc.id)
  let source ← d.endpoint page arc arc.source
  let target ← d.endpoint page arc arc.target
  if (page.graph.findEdge? source target).isSome then
    .error (.duplicateArc arc.source arc.target)
  else .ok ()

def checkContent (d : Document) (container : Object) (o : Object) : Except NetError Unit :=
  match o, container with
  | .place p, _ => d.checkPlace p
  | .transition t, _ => d.checkNode t.id .transition t.node
  | .arc a, .page p => d.checkArc p a
  | _, _ => .ok ()

def checkName (scope : ObjectId) (names : Table String ObjectId) (o : Object) :
    Except NetError Unit :=
  match o.scopedName with
  | none => .ok ()
  | some name => if names.contains name then .error (.duplicateName scope name) else .ok ()

/-- May the object enter the container with the given key? The first broken rule is the error. -/
def check (d : Document) (parent : ObjectId) (o : Object) : Except NetError Unit := do
  if o.id.isEmpty then .error .emptyId else .ok ()
  match d.object? parent with
  | none => .error (.detached parent)
  | some container =>
    let names ← container.scopeFor o.kind
    if d.contains o.id then .error (.duplicateId o.id) else .ok ()
    checkName container.id names o
    d.checkContent container o

def register (d : Document) (o : Object) : Except NetError Document :=
  if d.contains o.id then .error (.duplicateId o.id) else .ok ⟨d.objects.insert o.id o⟩

def updateAliases (d : Document) (referent : ObjectId) (f : IdSet → IdSet) : Document :=
  d.modify referent (·.mapNode fun n => { n with referencedBy := f n.referencedBy })

def commit (d : Document) (parent : ObjectId) (o : Object) : Except NetError Document :=
  match (d.object? parent).bind Object.asOwner? with
  | none => .error (.detached parent)
  | some owner => do
    let child := o.admitted owner
    let registered ← d.register child
    let entered := registered.modify parent child.adopt
    .ok <| match child.reference? with
      | none => entered
      | some referent => entered.updateAliases referent (IdSet.insert · child.id)

def add (d : Document) (parent : ObjectId) (o : Object) : Except NetError Document := do
  d.check parent o
  d.commit parent o

/-- Admits a net. Its own tables are kept as they are. -/
def addNet (d : Document) (n : Net) : Except NetError Document :=
  if n.id.isEmpty then .error .emptyId else d.register (.net n)

end Document

end PagedNets
