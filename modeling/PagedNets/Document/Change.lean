import PagedNets.Document.Admission

set_option autoImplicit false

namespace PagedNets.Document

def nameTaken (d : Document) (scope : ObjectId) (name : String) (holder : ObjectId) : Bool :=
  match (d.names? scope).bind (·.find? name) with
  | none => false
  | some other => !decide (other = holder)

def renameEntry (names : Table String ObjectId) (old new : Option String) (i : ObjectId) :
    Table String ObjectId :=
  enterName (match old with | none => names | some o => names.erase o) new i

/-- Renames an object and its entry in the scope of its owner. The empty name is no name. -/
def setName (d : Document) (i : ObjectId) (name : Option String) : Except NetError Document :=
  match d.object? i with
  | none => .error (.unknownObject i)
  | some o =>
    let new := name.filter (!·.isEmpty)
    match o.owner with
    | none => .ok (d.modify i (·.setName new))
    | some owner =>
      match new with
      | none =>
        .ok ((d.modify owner.id (·.mapNames (renameEntry · o.scopedName none o.id))).modify i
          (·.setName none))
      | some n =>
        if d.nameTaken owner.id n o.id then .error (.duplicateName owner.id n)
        else .ok ((d.modify owner.id (·.mapNames (renameEntry · o.scopedName (some n) o.id))).modify
          i (·.setName (some n)))

/-- Is the reference one that the node may have: to a node of its kind from which no chain of
references leads back? -/
def checkLink (d : Document) (node : ObjectId) (kind : Kind) :
    Option ObjectId → Except NetError Unit
  | none => .ok ()
  | some target => do
    d.checkReference node kind target
    if (d.referents target).contains node then .error (.referenceCycle node target) else .ok ()

def relink (d : Document) (node : ObjectId) (old new : Option ObjectId) : Document :=
  let left := match old with
    | none => d
    | some previous => d.updateAliases previous (IdSet.erase · node)
  match new with
  | none => left
  | some target => left.updateAliases target (IdSet.insert · node)

def setReference (d : Document) (i : ObjectId) (reference : Option ObjectId) :
    Except NetError Document :=
  match d.object? i with
  | none => .error (.unknownObject i)
  | some o =>
    match o.node? with
    | none => .error (.notANode o.id)
    | some node => do
      d.checkLink o.id o.kind reference
      .ok <|
        if node.reference = reference then d
        else (d.relink o.id node.reference reference).modify i
          (·.mapNode fun n => { n with reference := reference })

def setGeometry (d : Document) (i : ObjectId) (position size : Point) :
    Except NetError Document :=
  match d.object? i with
  | none => .error (.unknownObject i)
  | some o =>
    if o.node?.isNone then .error (.notANode i)
    else if position.isFinite && size.isFinite then
      .ok (d.modify i (·.mapNode fun n => { n with position := position, size := size }))
    else .error (.nonFiniteGeometry i)

def setFormat (d : Document) (i : ObjectId) (format : NetFormat) : Document :=
  d.modify i fun
    | .net n => .net { n with format := format }
    | o => o

def setTokens (d : Document) (i : ObjectId) (tokens : UInt64) : Document :=
  d.modify i fun
    | .place p => .place { p with tokens := tokens }
    | o => o

def setMarkingOffset (d : Document) (i : ObjectId) (offset : Point) : Document :=
  d.modify i fun
    | .place p => .place { p with markingOffset := offset }
    | o => o

def setArcKind (d : Document) (i : ObjectId) (kind : ArcKind) : Document :=
  d.modify i fun
    | .arc a => .arc { a with kind := kind }
    | o => o

def setCurve (d : Document) (i : ObjectId) (curve : List Point) : Document :=
  d.modify i fun
    | .arc a => .arc { a with curve := curve }
    | o => o

/-- Overwrites the object under a key by another one of the same kind and changes nothing else.
Nothing is checked, so a document may lose its invariants by it. -/
def overwrite? (d : Document) (key : ObjectId) (o : Object) : Option Document :=
  match d.object? key with
  | none => none
  | some present => if present.kind = o.kind then some (d.modify key fun _ => o) else none

end PagedNets.Document
