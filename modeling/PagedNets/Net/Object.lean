import PagedNets.Net.Format
import PagedNets.Net.Page

set_option autoImplicit false

namespace PagedNets

/-- A net stands at the top of a document and holds pages only. -/
structure Net where
  id : ObjectId
  name : Option String := none
  format : NetFormat
  names : Table String ObjectId := .empty
  pages : List ObjectId := []
  deriving Repr

def Net.insertPage (n : Net) (i : ObjectId) (name : Option String) : Net :=
  { n with names := enterName n.names name i, pages := insertKey n.pages i }

inductive Object where
  | net (n : Net)
  | page (p : Page)
  | place (p : Place)
  | transition (t : Transition)
  | arc (a : Arc)
  deriving Repr

namespace Object

def kind : Object → Kind
  | .net _ => .net
  | .page _ => .page
  | .place _ => .place
  | .transition _ => .transition
  | .arc _ => .arc

def id : Object → ObjectId
  | .net n => n.id
  | .page p => p.id
  | .place p => p.id
  | .transition t => t.id
  | .arc a => a.id

def name : Object → Option String
  | .net n => n.name
  | .page p => p.name
  | .place p => p.name
  | .transition t => t.name
  | .arc a => a.name

/-- The name under which an object is entered into a scope: the empty name is entered nowhere. -/
def scopedName (o : Object) : Option String := o.name.filter (!·.isEmpty)

/-- A net belongs to the document itself and has no owner. -/
def owner : Object → Option Owner
  | .net _ => none
  | .page p => p.owner
  | .place p => p.owner
  | .transition t => t.owner
  | .arc a => a.owner

def node? : Object → Option NodeData
  | .place p => some p.node
  | .transition t => some t.node
  | _ => none

def net? : Object → Option Net
  | .net n => some n
  | _ => none

def page? : Object → Option Page
  | .page p => some p
  | _ => none

def place? : Object → Option Place
  | .place p => some p
  | _ => none

def transition? : Object → Option Transition
  | .transition t => some t
  | _ => none

def arc? : Object → Option Arc
  | .arc a => some a
  | _ => none

def mapNode (f : NodeData → NodeData) : Object → Object
  | .place p => .place { p with node := f p.node }
  | .transition t => .transition { t with node := f t.node }
  | o => o

def setName (name : Option String) : Object → Object
  | .net n => .net { n with name := name }
  | .page p => .page { p with name := name }
  | .place p => .place { p with name := name }
  | .transition t => .transition { t with name := name }
  | .arc a => .arc { a with name := name }

def setOwner (owner : Owner) : Object → Object
  | .net n => .net n
  | .page p => .page { p with owner := some owner }
  | .place p => .place { p with owner := some owner }
  | .transition t => .transition { t with owner := some owner }
  | .arc a => .arc { a with owner := some owner }

def asOwner? : Object → Option Owner
  | .net n => some (.net n.id)
  | .page p => some (.page p.id)
  | _ => none

def names? : Object → Option (Table String ObjectId)
  | .net n => some n.names
  | .page p => some p.names
  | _ => none

def mapNames (f : Table String ObjectId → Table String ObjectId) : Object → Object
  | .net n => .net { n with names := f n.names }
  | .page p => .page { p with names := f p.names }
  | o => o

def pages : Object → List ObjectId
  | .net n => n.pages
  | .page p => p.pages
  | _ => []

end Object

end PagedNets
