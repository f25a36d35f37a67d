import PagedNets.Document.Basic

set_option autoImplicit false

namespace PagedNets

/-- A key of a page with the page found under it and what is nested in it, or with nothing. -/
inductive PageTree where
  | page (key : ObjectId) (content : Page) (nested : List PageTree)
  | missing (key : ObjectId)

namespace PageTree

mutual

def keys : PageTree → List ObjectId
  | .page key _ nested => key :: keysOf nested
  | .missing key => [key]

def keysOf : List PageTree → List ObjectId
  | [] => []
  | tree :: trees => keys tree ++ keysOf trees

end

end PageTree

namespace Document

def unfold (d : Document) : Nat → List ObjectId → List PageTree
  | 0, keys => keys.map .missing
  | fuel + 1, keys => keys.map fun key =>
    match d.page? key with
    | none => .missing key
    | some page => .page key page (d.unfold fuel page.pages)

/-- The pages under the given keys. No page is nested deeper than there are objects. -/
def forest (d : Document) (keys : List ObjectId) : List PageTree := d.unfold (d.size + 1) keys

end Document

end PagedNets
