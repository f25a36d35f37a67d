import PagedNets.Text.Blank

/-!
The exchange format names its grammars of nets by addresses. An address is recognised with blanks
around it and in any case of its ASCII letters.
-/

set_option autoImplicit false

namespace PagedNets

inductive NetFormat where
  | highLevel
  | symmetric
  | placeTransition
  deriving DecidableEq, Repr

namespace NetFormat

def all : List NetFormat := [highLevel, symmetric, placeTransition]

def uri : NetFormat → String
  | highLevel => "http://www.pnml.org/version-2009/grammar/highlevelnet"
  | symmetric => "http://www.pnml.org/version-2009/grammar/symmetricnet"
  | placeTransition => "http://www.pnml.org/version-2009/grammar/ptnet"

def label : NetFormat → String
  | highLevel => "HighLevel"
  | symmetric => "Symmetric"
  | placeTransition => "PlaceTransition"

def ofUri? (s : String) : Option NetFormat :=
  let wanted := Text.foldCase (Text.trim s)
  all.find? fun f => Text.foldCase f.uri = wanted

/-- What is reported for a text that names no format; the text is shown as it was given. -/
def unknownMessage (s : String) : String := s!"unknown net type '{s}'"

end NetFormat

end PagedNets
