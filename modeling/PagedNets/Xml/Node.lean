/-!
Documents as trees. Elements are known by the local part of their names, and of their attributes
only those without a qualifier are kept: the namespaces have done their work when a tree is built.
-/

set_option autoImplicit false

namespace PagedNets.Xml

inductive Node where
  | element (tag : String) (attributes : List (String × String)) (children : List Node)
  | text (content : String)
  /-- A comment or a processing instruction. -/
  | aside
  deriving Repr, Inhabited

namespace Node

def isElement : Node → Bool
  | element .. => true
  | _ => false

def tag : Node → String
  | element tag _ _ => tag
  | _ => ""

def attribute? (name : String) : Node → Option String
  | element _ attributes _ => (attributes.find? fun a => a.1 == name).map (·.2)
  | _ => none

def children : Node → List Node
  | element _ _ children => children
  | _ => []

def isTagged (tag : String) : Node → Bool
  | element t _ _ => t == tag
  | _ => false

def childrenTagged (tag : String) (n : Node) : List Node := n.children.filter (isTagged tag)

def child? (tag : String) (n : Node) : Option Node := n.children.find? (isTagged tag)

/-- The text with which an element begins; a comment in front of it hides it. -/
def text? (n : Node) : Option String :=
  match n.children with
  | text content :: _ => some content
  | _ => none

end Node

end PagedNets.Xml
