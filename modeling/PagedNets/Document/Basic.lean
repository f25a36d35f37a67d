import PagedNets.Net.Object
import PagedNets.Net.Error

/-!
A document owns every object of its nets and keeps them under their identifiers in the order of
arrival. All other relations, from ends of arcs to nesting of pages, are kept as identifiers.
Objects are never removed.
-/

set_option autoImplicit false

namespace PagedNets

structure Document where
  objects : Table ObjectId Object := .empty
  deriving Repr, Inhabited

namespace Document

def size (d : Document) : Nat := d.objects.size

def isEmpty (d : Document) : Bool := d.objects.isEmpty

def contains (d : Document) (i : ObjectId) : Bool := d.objects.contains i

def object? (d : Document) (i : ObjectId) : Option Object := d.objects.find? i

def net? (d : Document) (i : ObjectId) : Option Net := (d.object? i).bind Object.net?

def page? (d : Document) (i : ObjectId) : Option Page := (d.object? i).bind Object.page?

def place? (d : Document) (i : ObjectId) : Option Place := (d.object? i).bind Object.place?

def transition? (d : Document) (i : ObjectId) : Option Transition :=
  (d.object? i).bind Object.transition?

def arc? (d : Document) (i : ObjectId) : Option Arc := (d.object? i).bind Object.arc?

def node? (d : Document) (i : ObjectId) : Option NodeData := (d.object? i).bind Object.node?

def toList (d : Document) : List Object := d.objects.values

def nets (d : Document) : List Net := d.toList.filterMap Object.net?

def modify (d : Document) (i : ObjectId) (f : Object → Object) : Document :=
  ⟨d.objects.modify i f⟩

def names? (d : Document) (scope : ObjectId) : Option (Table String ObjectId) :=
  (d.object? scope).bind Object.names?

def findByName? (d : Document) (scope : ObjectId) (name : String) : Option Object :=
  ((d.names? scope).bind (·.find? name)).bind d.object?

/-- Follows owners from an object up to a net, over at most `fuel` containers. -/
def netAbove (d : Document) : Nat → Object → Option ObjectId
  | _, .net n => some n.id
  | 0, _ => none
  | fuel + 1, o => (o.owner.bind fun w => d.object? w.id).bind (d.netAbove fuel)

/-- The net that holds an object, on pages of any depth. Owners were registered before what they
own, so as many steps as there are objects lead to the top. -/
def netOf? (d : Document) (i : ObjectId) : Option ObjectId :=
  (d.object? i).bind (d.netAbove d.size)

def referenceChain (d : Document) : Nat → ObjectId → List ObjectId
  | 0, i => [i]
  | fuel + 1, i =>
    match (d.node? i).bind (·.reference) with
    | none => [i]
    | some next => i :: d.referenceChain fuel next

def referents (d : Document) (i : ObjectId) : List ObjectId := d.referenceChain d.size i

end Document

end PagedNets
