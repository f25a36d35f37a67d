import PagedNets.Xml.Markup
import PagedNets.Proofs.Xml.Building

/-!
The tree that markup stands for. Its text is read back into this tree, in which the layout remains
as text between the elements.
-/

set_option autoImplicit false

namespace PagedNets.Xml

namespace Inline

def isText : Inline → Bool
  | text _ => true
  | _ => false

mutual

def node : Inline → Node
  | text content => .text content
  | empty tag attributes => .element tag (keptAttributes attributes) []
  | element tag attributes content => .element tag (keptAttributes attributes) (nodes content)

def nodes : List Inline → List Node
  | [] => []
  | i :: is => node i :: nodes is

end

mutual

/-- Markup that is read back: its tags can be written as they are, its texts are legal, not empty
and apart from each other. -/
def IsSound : Inline → Prop
  | text content => content.toList ≠ [] ∧ ∀ c ∈ content.toList, isXmlChar c = true
  | empty tag attributes => IsTag tag attributes
  | element tag attributes content => IsTag tag attributes ∧ AreSound content

def AreSound : List Inline → Prop
  | [] => True
  | i :: is => IsSound i ∧ AreSound is ∧ (i.isText = true → ∀ j ∈ is.head?, j.isText = false)

end

theorem isElement_node {i : Inline} (h : i.isText = false) : i.node.isElement = true := by
  cases i with
  | text content => cases h
  | empty tag attributes => rfl
  | element tag attributes content => rfl

end Inline

namespace Markup

mutual

def node (depth : Nat) : Markup → Node
  | line content => content.node
  | block tag attributes parts =>
    .element tag (keptAttributes attributes)
      (nodes (depth + 1) parts ++ [.text (String.ofList (gap depth))])

def nodes (depth : Nat) : List Markup → List Node
  | [] => []
  | m :: ms => .text (String.ofList (gap depth)) :: node depth m :: nodes depth ms

end

mutual

def IsSound : Markup → Prop
  | line content => content.IsSound ∧ content.isText = false
  | block tag attributes parts => IsTag tag attributes ∧ AreSound parts

def AreSound : List Markup → Prop
  | [] => True
  | m :: ms => IsSound m ∧ AreSound ms

end

theorem areSound_iff {ms : List Markup} : AreSound ms ↔ ∀ m ∈ ms, m.IsSound := by
  induction ms with
  | nil => simp [AreSound]
  | cons m ms ih => simp [AreSound, ih]

theorem isElement_node {m : Markup} (h : m.IsSound) (depth : Nat) :
    (m.node depth).isElement = true := by
  cases m with
  | line content =>
    rw [IsSound] at h
    rw [node]
    exact Inline.isElement_node h.2
  | block tag attributes parts =>
    rw [node]
    rfl

/-- Apart from its layout, an element has its parts as children. -/
theorem filter_isElement_nodes {ms : List Markup} (h : AreSound ms) (depth : Nat) (s : String) :
    (nodes depth ms ++ [Node.text s]).filter Node.isElement = ms.map (node depth) := by
  induction ms with
  | nil => rfl
  | cons m ms ih =>
    rw [AreSound] at h
    rw [nodes, List.cons_append, List.cons_append,
      List.filter_cons_of_neg (by simp [Node.isElement]),
      List.filter_cons_of_pos (isElement_node h.1 depth), ih h.2, List.map_cons]

end Markup

variable {tag : String} {attributes : List (String × String)}

theorem toList_attributesText (attributes : List (String × String)) :
    (attributesText attributes).toList = attributesChars attributes := by
  rw [attributesText, String.toList_join, attributesChars, List.flatMap_map]
  refine congrArg (List.flatMap · attributes) (funext fun a => ?_)
  simp [attributeText, attributeChars, escape]

theorem toList_indent (depth : Nat) : (indent depth).toList = List.replicate (2 * depth) ' ' := by
  simp [indent]

theorem toList_openTag (tag : String) (attributes : List (String × String)) :
    ("<" ++ tag ++ attributesText attributes ++ ">").toList = openChars tag attributes false := by
  simp [openChars, tagEnd, toList_attributesText]

theorem toList_emptyTag (tag : String) (attributes : List (String × String)) :
    ("<" ++ tag ++ attributesText attributes ++ "/>").toList = openChars tag attributes true := by
  simp [openChars, tagEnd, toList_attributesText]

theorem toList_closeTag (tag : String) : ("</" ++ tag ++ ">").toList = closeChars tag := by
  simp [closeChars]

mutual

theorem Inline.spells (i : Inline) (h : i.IsSound) {cs : List Char} {ts : List Token}
    {ns : List Node} (hs : Spells cs ts ns)
    (hn : i.isText = true → ∀ n ∈ ns.head?, n.isElement = true) :
    ∃ all, Spells (i.render.toList ++ cs) all (i.node :: ns) := by
  cases i with
  | text content =>
    rw [IsSound] at h
    have hne : escapeChars content.toList ≠ [] := by
      obtain ⟨c, hc⟩ := List.exists_mem_of_ne_nil _ h.1
      intro he
      exact escapeChar_ne_nil c (List.flatMap_eq_nil_iff.mp he c hc)
    have htext := Spells.text hne (not_mem_escapeChars (by decide) (by decide))
      (not_mem_escapeChars (by decide) (by decide)) (isXmlChar_of_mem_escapeChars h.2)
      (characterData?_escapeChars content) (hn rfl) hs
    rw [render, escape, String.toList_ofList, node]
    exact ⟨_, htext⟩
  | empty tag attributes =>
    rw [IsSound] at h
    rw [render, toList_emptyTag, node]
    exact ⟨_, .empty h hs⟩
  | element tag attributes content =>
    rw [IsSound] at h
    obtain ⟨inner, hinner⟩ := Inline.spells_all content h.2 Spells.nil (fun n hn => by cases hn)
    rw [List.append_nil, List.append_nil] at hinner
    have hrender : (render (.element tag attributes content)).toList ++ cs =
        openChars tag attributes false ++
          ((renderAll content).toList ++ (closeChars tag ++ cs)) := by
      rw [render, ← toList_openTag, ← toList_closeTag]
      simp
    rw [hrender, node]
    exact ⟨_, .element h.1 hinner hs⟩

theorem Inline.spells_all (is : List Inline) (h : Inline.AreSound is) {cs : List Char}
    {ts : List Token} {ns : List Node} (hs : Spells cs ts ns)
    (hn : ∀ n ∈ ns.head?, n.isElement = true) :
    ∃ all, Spells ((Inline.renderAll is).toList ++ cs) all (Inline.nodes is ++ ns) := by
  cases is with
  | nil => exact ⟨ts, by simpa [renderAll, nodes] using hs⟩
  | cons i is =>
    rw [AreSound] at h
    obtain ⟨hi, his, hapart⟩ := h
    obtain ⟨all, hrest⟩ := Inline.spells_all is his hs hn
    rw [renderAll, nodes, String.toList_append, List.append_assoc, List.cons_append]
    refine Inline.spells i hi hrest fun htext n hm => ?_
    cases is with
    | nil => exact hn n hm
    | cons j is =>
      cases hm
      exact Inline.isElement_node (hapart htext j rfl)

end

theorem gap_eq (depth : Nat) : gap depth = '\n' :: (indent depth).toList := by
  rw [toList_indent, gap]

mutual

theorem Markup.spells (m : Markup) (h : m.IsSound) (depth : Nat) :
    ∃ core, (m.render depth).toList = (indent depth).toList ++ (core ++ ['\n']) ∧
      ∀ {cs : List Char} {ts : List Token} {ns : List Node}, Spells cs ts ns →
        ∃ all, Spells (core ++ cs) all (m.node depth :: ns) := by
  cases m with
  | line content =>
    rw [IsSound] at h
    refine ⟨content.render.toList, ?_, fun hs => ?_⟩
    · rw [render]
      simp
    · rw [node]
      exact Inline.spells content h.1 hs fun ht => by rw [h.2] at ht; cases ht
  | block tag attributes parts =>
    rw [IsSound] at h
    obtain ⟨inner, hinner⟩ := Markup.spells_all parts h.2 (depth + 1) depth
    refine ⟨openChars tag attributes false ++ (('\n' :: ((renderAll (depth + 1) parts).toList ++
      (indent depth).toList)) ++ closeChars tag), ?_, fun {cs ts ns} hs => ?_⟩
    · rw [render, ← toList_openTag, ← toList_closeTag]
      simp
    · rw [node, List.append_assoc, List.append_assoc]
      exact ⟨_, .element h.1 hinner hs⟩

theorem Markup.spells_all (ms : List Markup) (h : Markup.AreSound ms) (depth outer : Nat) :
    ∃ all, Spells ('\n' :: ((Markup.renderAll depth ms).toList ++ (indent outer).toList)) all
      (Markup.nodes depth ms ++ [Node.text (String.ofList (gap outer))]) := by
  cases ms with
  | nil =>
    have hgap := Spells.gap outer (fun n hn => by cases hn) Spells.nil
    rw [List.append_nil, gap_eq outer] at hgap
    rw [renderAll, nodes, gap_eq outer]
    exact ⟨_, hgap⟩
  | cons m ms =>
    rw [AreSound] at h
    obtain ⟨core, hcore, hspells⟩ := Markup.spells m h.1 depth
    obtain ⟨rest, hrest⟩ := Markup.spells_all ms h.2 depth outer
    obtain ⟨all, hall⟩ := hspells hrest
    have hgap := Spells.gap depth
      (fun n hn => by cases hn; exact isElement_node h.1 depth) hall
    have hrender : '\n' :: ((renderAll depth (m :: ms)).toList ++ (indent outer).toList) =
        gap depth ++ (core ++ '\n' :: ((renderAll depth ms).toList ++ (indent outer).toList)) := by
      rw [renderAll, String.toList_append, hcore, gap_eq]
      simp
    rw [hrender, nodes]
    exact ⟨_, hgap⟩

end

theorem toList_declaration : ("<?xml version=\"1.0\" encoding=\"UTF-8\"?>\n" : String).toList =
    declarationChars ++ ['\n'] := by decide

theorem toList_renderDocument (tag : String) (attributes : List (String × String))
    (parts : List Markup) : (renderDocument (.block tag attributes parts)).toList =
      declarationChars ++ (gap 0 ++ (openChars tag attributes false ++
        (('\n' :: ((Markup.renderAll 1 parts).toList ++ (indent 0).toList)) ++
          (closeChars tag ++ gap 0)))) := by
  have hroot : ((Markup.block tag attributes parts).render 0).toList =
      openChars tag attributes false ++ (('\n' :: ((Markup.renderAll 1 parts).toList ++
        (indent 0).toList)) ++ (closeChars tag ++ gap 0)) := by
    rw [Markup.render, ← toList_openTag, ← toList_closeTag, gap_eq 0]
    simp [indent]
  have hgap : ['\n'] = gap 0 := rfl
  unfold renderDocument
  rw [String.toList_append, toList_declaration, hroot, List.append_assoc, hgap]

theorem parse?_renderDocument {parts : List Markup}
    (h : (Markup.block tag attributes parts).IsSound) :
    parse? (renderDocument (.block tag attributes parts)) =
      some ((Markup.block tag attributes parts).node 0) := by
  rw [Markup.IsSound] at h
  obtain ⟨inner, hinner⟩ := Markup.spells_all parts h.2 1 0
  have htext : renderDocument (.block tag attributes parts) = String.ofList
      (renderDocument (.block tag attributes parts)).toList := String.ofList_toList.symm
  rw [htext, toList_renderDocument, parse?_document h.1 hinner, Markup.node]

end PagedNets.Xml
