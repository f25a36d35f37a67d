set_option autoImplicit false

namespace PagedNets

structure ObjectId where
  text : String
  deriving DecidableEq, Repr, Inhabited

namespace ObjectId

def isEmpty (i : ObjectId) : Bool := i.text.isEmpty

instance : LT ObjectId := ⟨fun a b => a.text < b.text⟩

instance (a b : ObjectId) : Decidable (a < b) := inferInstanceAs (Decidable (a.text < b.text))

instance : ToString ObjectId := ⟨text⟩

end ObjectId

inductive Kind where
  | net
  | page
  | place
  | transition
  | arc
  deriving DecidableEq, Repr

namespace Kind

def isNode : Kind → Bool
  | .place => true
  | .transition => true
  | _ => false

def name : Kind → String
  | .net => "net"
  | .page => "page"
  | .place => "place"
  | .transition => "transition"
  | .arc => "arc"

instance : ToString Kind := ⟨name⟩

end Kind

inductive Owner where
  | net (id : ObjectId)
  | page (id : ObjectId)
  deriving DecidableEq, Repr

def Owner.id : Owner → ObjectId
  | .net i => i
  | .page i => i

end PagedNets
