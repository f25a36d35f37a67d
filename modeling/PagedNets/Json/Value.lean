set_option autoImplicit false

namespace PagedNets

inductive Json where
  | null
  | bool (b : Bool)
  | natural (n : Nat)
  | real (x : Float)
  | string (s : String)
  | array (items : List Json)
  | object (members : List (String × Json))

namespace Json

def ofOption {α : Type} (f : α → Json) : Option α → Json
  | none => null
  | some a => f a

def strings (ss : List String) : Json := array (ss.map string)

end Json

end PagedNets
