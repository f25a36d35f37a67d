import PagedNets.Xml.Reference
import PagedNets.Xml.Node

/-!
Markup with its layout, for writing. A `block` stands on lines of its own, with its parts between
its tags, two blanks deeper; what is `inline` stands on one line. `render` gives the text and
`node` the tree that the text stands for.
-/

set_option autoImplicit false

namespace PagedNets.Xml

/-- Markup inside one line. -/
inductive Inline where
  | text (content : String)
  | empty (tag : String) (attributes : List (String × String))
  | element (tag : String) (attributes : List (String × String)) (content : List Inline)

inductive Markup where
  | line (content : Inline)
  | block (tag : String) (attributes : List (String × String)) (parts : List Markup)

def attributeText (a : String × String) : String :=
  " " ++ a.1 ++ "=\"" ++ escape a.2 ++ "\""

def attributesText (attributes : List (String × String)) : String :=
  String.join (attributes.map attributeText)

def indent (depth : Nat) : String := String.ofList (List.replicate (2 * depth) ' ')

mutual

def Inline.render : Inline → String
  | .text content => escape content
  | .empty tag attributes => "<" ++ tag ++ attributesText attributes ++ "/>"
  | .element tag attributes content =>
    "<" ++ tag ++ attributesText attributes ++ ">" ++ Inline.renderAll content
      ++ "</" ++ tag ++ ">"

def Inline.renderAll : List Inline → String
  | [] => ""
  | i :: is => Inline.render i ++ Inline.renderAll is

end

mutual

def Markup.render (depth : Nat) : Markup → String
  | .line content => indent depth ++ content.render ++ "\n"
  | .block tag attributes parts =>
    indent depth ++ "<" ++ tag ++ attributesText attributes ++ ">\n"
      ++ Markup.renderAll (depth + 1) parts ++ indent depth ++ "</" ++ tag ++ ">\n"

def Markup.renderAll (depth : Nat) : List Markup → String
  | [] => ""
  | m :: ms => Markup.render depth m ++ Markup.renderAll depth ms

end

def renderDocument (root : Markup) : String :=
  "<?xml version=\"1.0\" encoding=\"UTF-8\"?>\n" ++ root.render 0

end PagedNets.Xml
