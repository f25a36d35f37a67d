import PagedNets.Xml.Token
import PagedNets.Xml.Node

/-!
The tree of a document. `parse?` is in the place of the reader of an XML library, of which is
assumed that it takes just the well-formed documents of XML 1.0 with namespaces that have no
document type declaration, resolves references, and normalises line ends and the white space of
attribute values. Adjacent stretches of text are joined; comments and instructions stay as nodes.
-/

set_option autoImplicit false

namespace PagedNets.Xml

def xmlNamespace : String := "http://www.w3.org/XML/1998/namespace"

def declarationNamespace : String := "http://www.w3.org/2000/xmlns/"

/-- The declared qualifiers with their namespaces, the innermost declaration first. -/
abbrev Scope := List (String × String)

def Scope.find? (s : Scope) (qualifier : String) : Option String :=
  (List.find? (fun d => d.1 == qualifier) s).map (·.2)

structure Declared where
  scope : Scope := []
  attributes : List (QName × String) := []

/-- May the qualifier be bound to the namespace? The one for `xml` is fixed, and that for
declarations is bound to nothing. -/
def mayDeclare (own : Scope) (qualifier uri : String) : Bool :=
  uri != declarationNamespace && (qualifier == "xml") == (uri == xmlNamespace)
    && (own.find? qualifier).isNone

def declare? (d : Declared) (a : QName × List Char) : Option Declared :=
  (attributeValue? a.2).bind fun value =>
    if a.1.qualifier = "xmlns" then
      if mayDeclare d.scope a.1.label value then
        some (if value = xmlNamespace then d
          else { d with scope := d.scope ++ [(a.1.label, value)] })
      else none
    else if a.1.label = "xmlns" then
      if value = xmlNamespace || value = declarationNamespace then none else some d
    else some { d with attributes := d.attributes ++ [(a.1, value)] }

def attributeNamespace? (scope : Scope) (name : QName) : Option (Option String) :=
  if name.qualifier = "" then some none
  else if name.qualifier = "xml" then some (some xmlNamespace)
  else (scope.find? name.qualifier).map some

def distinctNames : List (Option String × String) → Bool
  | [] => true
  | n :: ns => !ns.contains n && distinctNames ns

/-- An element whose end tag has not come yet. Its children are kept latest first. -/
structure Frame where
  name : QName
  scope : Scope
  attributes : List (String × String)
  children : List Node := []

def Frame.node (f : Frame) : Node := .element f.name.label f.attributes f.children.reverse

def openFrame? (outer : Scope) (name : QName) (attributes : List (QName × List Char)) :
    Option Frame :=
  if name.qualifier = "xmlns" then none
  else (attributes.foldlM declare? {}).bind fun declared =>
    let scope : Scope := declared.scope ++ outer
    let known := name.qualifier = "" || (scope.find? name.qualifier).isSome
    (declared.attributes.mapM fun a =>
        (attributeNamespace? scope a.1).map fun uri => (uri, a.1.label)).bind fun names =>
      if known && distinctNames names then
        some {
          name := name
          scope := scope
          attributes := (declared.attributes.filter (fun a => a.1.qualifier == "")).map
            fun a => (a.1.label, a.2) }
      else none

/-- A document under construction: its root element once it is closed, and the open elements,
the innermost first. -/
structure Builder where
  root : Option Node := none
  stack : List Frame := []

namespace Builder

/-- Adds a node to the innermost open element; outside of all of them an element is the root. -/
def attach? (b : Builder) (n : Node) : Option Builder :=
  match b.stack with
  | f :: fs => some { b with stack := { f with children := n :: f.children } :: fs }
  | [] =>
    match n with
    | .aside => some b
    | n => if b.root.isNone then some { b with root := some n } else none

def attachText? (b : Builder) (s : String) : Option Builder :=
  match b.stack with
  | [] => none
  | f :: fs =>
    let children := match f.children with
      | .text t :: rest => .text (t ++ s) :: rest
      | rest => .text s :: rest
    some { b with stack := { f with children := children } :: fs }

def step? (b : Builder) : Token → Option Builder
  | .openTag name attributes selfClosed =>
    let outer := match b.stack with
      | [] => []
      | f :: _ => f.scope
    (openFrame? outer name attributes).bind fun f =>
      if selfClosed then b.attach? f.node
      else if b.stack.isEmpty && b.root.isSome then none
      else some { b with stack := f :: b.stack }
  | .closeTag name =>
    match b.stack with
    | [] => none
    | f :: fs => if f.name = name then attach? { b with stack := fs } f.node else none
  | .text raw =>
    if b.stack.isEmpty then if raw.all isSpace then some b else none
    else (characterData? raw).bind b.attachText?
  | .cdata raw => b.attachText? (verbatim raw)
  | .aside => b.attach? .aside

end Builder

def ofTokens? (tokens : List Token) : Option Node :=
  (tokens.foldlM Builder.step? {}).bind fun b => if b.stack.isEmpty then b.root else none

/-- Stands for the reader of a library; none for a text that is malformed. -/
def parse? (s : String) : Option Node := (tokens? s.toList).bind ofTokens?

end PagedNets.Xml
