import PagedNets.Net.Id
import PagedNets.Layered.Error

set_option autoImplicit false

namespace PagedNets

inductive NetError where
  | emptyId
  | duplicateId (id : ObjectId)
  | duplicateName (scope : ObjectId) (name : String)
  | unresolvedEndpoint (arc endpoint : ObjectId)
  | endpointOutsidePage (arc endpoint page : ObjectId)
  | duplicateArc (source target : ObjectId)
  | unresolvedReference (node reference : ObjectId)
  | referenceKindMismatch (node : ObjectId) (nodeKind : Kind) (reference : ObjectId)
      (referenceKind : Kind)
  | referenceCycle (node reference : ObjectId)
  | unknownObject (id : ObjectId)
  | detached (id : ObjectId)
  | orphan (page : ObjectId)
  | invalidChild (parent : ObjectId) (parentKind childKind : Kind)
  | notAContainer (id : ObjectId)
  | notANode (id : ObjectId)
  | nonFiniteGeometry (id : ObjectId)
  | layout (page : ObjectId) (cause : Layered.LayeringError)
  deriving DecidableEq, Repr

def NetError.message : NetError → String
  | .emptyId => "object identifier must not be empty"
  | .duplicateId id => s!"identifier {id} is already registered in the document"
  | .duplicateName scope name => s!"name '{name}' is already used inside {scope}"
  | .unresolvedEndpoint arc endpoint => s!"arc {arc} references unknown node {endpoint}"
  | .endpointOutsidePage arc endpoint page =>
    s!"arc {arc} endpoint {endpoint} does not live on page {page}"
  | .duplicateArc source target => s!"an arc from {source} to {target} already exists"
  | .unresolvedReference node reference => s!"node {node} references unknown node {reference}"
  | .referenceKindMismatch node nodeKind reference referenceKind =>
    s!"{nodeKind} {node} cannot reference {referenceKind} {reference}"
  | .referenceCycle node reference =>
    s!"referencing {reference} from {node} would close a reference cycle"
  | .unknownObject id => s!"no object with identifier {id}"
  | .detached id => s!"{id} is not attached to the document"
  | .orphan page => s!"page {page} has no owning net or page"
  | .invalidChild parent parentKind childKind =>
    s!"a {parentKind} cannot contain a {childKind} (parent {parent})"
  | .notAContainer id => s!"{id} is neither a net nor a page"
  | .notANode id => s!"{id} is not a place or transition"
  | .nonFiniteGeometry id => s!"{id} carries a non-finite coordinate"
  | .layout page cause => "layout of page " ++ page.text ++ " failed: " ++ cause.message

end PagedNets
