import PagedNets.Pnml.Script
import PagedNets.Pnml.Writer
import PagedNets.Proofs.Decimal.RoundTrip
import PagedNets.Proofs.Document.Copy
import PagedNets.Proofs.Xml.Markup

set_option autoImplicit false

namespace PagedNets

theorem Text.trim_eq_self {s : String} (h : ∀ c ∈ s.toList, Text.isBlank c = false) :
    Text.trim s = s := by
  have hkeep : ∀ cs : List Char, (∀ c ∈ cs, Text.isBlank c = false) →
      cs.dropWhile Text.isBlank = cs := by
    intro cs hcs
    cases cs with
    | nil => rfl
    | cons c cs => exact List.dropWhile_cons_of_neg (by simp [hcs c List.mem_cons_self])
  rw [Text.trim, Text.trimLeft, Text.trimRight, hkeep _ h,
    hkeep _ fun c hc => h c (List.mem_reverse.mp hc), List.reverse_reverse, String.ofList_toList]

namespace Pnml

open Xml (Node Markup Inline)

section Children

variable {n : Node} {t : String} {depth : Nat} {parts others : List Markup}

def elements (n : Node) : List Node := n.children.filter Node.isElement

theorem child?_eq (t : String) (n : Node) : n.child? t = (elements n).find? (Node.isTagged t) := by
  rw [Node.child?, elements, List.find?_filter]
  refine congrArg (List.find? · n.children) (funext fun m => Bool.eq_iff_iff.mpr ?_)
  cases m <;> simp [Node.isElement, Node.isTagged]

theorem childrenTagged_eq (t : String) (n : Node) :
    n.childrenTagged t = (elements n).filter (Node.isTagged t) := by
  rw [Node.childrenTagged, elements, List.filter_filter]
  refine List.filter_congr fun m _ => ?_
  cases m <;> simp [Node.isElement, Node.isTagged]

theorem elements_block {tag : String} {attributes : List (String × String)}
    (h : Markup.AreSound parts) (depth : Nat) :
    elements ((Markup.block tag attributes parts).node depth) =
      parts.map (Markup.node (depth + 1)) := by
  rw [Markup.node]
  exact Markup.filter_isElement_nodes h _ _

theorem child?_block {tag : String} {attributes : List (String × String)}
    (h : Markup.AreSound parts) (t : String) (depth : Nat) :
    ((Markup.block tag attributes parts).node depth).child? t =
      (parts.map (Markup.node (depth + 1))).find? (Node.isTagged t) := by
  rw [child?_eq, elements_block h]

@[simp] theorem isTagged_block (tag : String) (attributes : List (String × String))
    (parts : List Markup) (t : String) :
    ((Markup.block tag attributes parts).node depth).isTagged t = (tag == t) := by
  rw [Markup.node, Node.isTagged]

@[simp] theorem isTagged_element (tag : String) (attributes : List (String × String))
    (content : List Inline) (t : String) :
    ((Markup.line (.element tag attributes content)).node depth).isTagged t = (tag == t) := by
  rw [Markup.node, Inline.node, Node.isTagged]

@[simp] theorem isTagged_empty (tag : String) (attributes : List (String × String)) (t : String) :
    ((Markup.line (.empty tag attributes)).node depth).isTagged t = (tag == t) := by
  rw [Markup.node, Inline.node, Node.isTagged]

theorem nameMarkup_cases (name : Option String) :
    name.filter (!·.isEmpty) = none ∧ nameMarkup name = [] ∨
      ∃ text, text.isEmpty = false ∧ name.filter (!·.isEmpty) = some text ∧
        nameMarkup name = [.line (.element "name" [] [.element "text" [] [.text text]])] := by
  unfold nameMarkup
  cases h : name.filter (!·.isEmpty) with
  | none => exact .inl ⟨rfl, rfl⟩
  | some text =>
    refine .inr ⟨text, ?_, rfl, rfl⟩
    simpa using (Option.filter_eq_some_iff.mp h).2

theorem find?_nameMarkup (ht : "name" ≠ t) (name : Option String) :
    ((nameMarkup name ++ others).map (Markup.node depth)).find? (Node.isTagged t) =
      (others.map (Markup.node depth)).find? (Node.isTagged t) := by
  rcases nameMarkup_cases name with ⟨_, hm⟩ | ⟨text, _, _, hm⟩
  · rw [hm, List.nil_append]
  · rw [hm, List.singleton_append, List.map_cons, List.find?_cons_of_neg]
    simp [ht]

theorem nameOf_block {tag : String} {attributes : List (String × String)} {name : Option String}
    (h : Markup.AreSound (nameMarkup name ++ others))
    (ho : ∀ m ∈ others, (m.node (depth + 1)).isTagged "name" = false) :
    nameOf ((Markup.block tag attributes (nameMarkup name ++ others)).node depth) =
      name.filter (!·.isEmpty) := by
  rw [nameOf, child?_block h]
  rcases nameMarkup_cases name with ⟨hn, hm⟩ | ⟨text, _, hn, hm⟩
  · have hnone : (others.map (Markup.node (depth + 1))).find? (Node.isTagged "name") = none := by
      rw [List.find?_eq_none]
      intro n hn
      obtain ⟨m, hm, rfl⟩ := List.mem_map.mp hn
      simp [ho m hm]
    rw [hm, hn, List.nil_append, hnone]
    rfl
  · rw [hm, hn, List.singleton_append, List.map_cons, List.find?_cons_of_pos (by simp)]
    simp [Markup.node, Inline.node, Inline.nodes, Node.child?, Node.children, Node.isTagged,
      Node.text?]

end Children

section Numbers

variable {p : Point}

theorem isBlank_of_isDigit {c : Char} (h : Decimal.isDigit c = true) : Text.isBlank c = false := by
  have hn := Decimal.toNat_of_isDigit h
  simp only [Text.isBlank, Bool.or_eq_false_iff, Bool.and_eq_false_iff, decide_eq_false_iff_not,
    beq_eq_false_iff_ne]
  omega

theorem coordinateText_spec {x : Float} (h : x.isFinite = true) :
    Decimal.float? (Text.trim (coordinateText x)) = some x := by
  have htrim : Text.trim (coordinateText x) = coordinateText x := by
    refine Text.trim_eq_self fun c hc => ?_
    rcases Decimal.mem_toList_text h hc with rfl | hc | rfl
    · decide
    · exact isBlank_of_isDigit hc
    · decide
  rw [htrim]
  exact Decimal.float?_text h

theorem natText_spec (n : UInt64) :
    Decimal.count? (Text.trim (Decimal.natText n.toNat)) = some n := by
  rw [Text.trim_eq_self fun c hc => isBlank_of_isDigit (Decimal.isDigit_of_mem_natText hc)]
  exact Decimal.count?_natText n

theorem pointOf_pointElement (tag : String) (h : p.isFinite = true) :
    pointOf (pointElement tag p).node = .ok p := by
  simp only [Point.isFinite, Bool.and_eq_true] at h
  have hnode : (pointElement tag p).node =
      .element tag [("x", coordinateText p.x), ("y", coordinateText p.y)] [] := by
    simp [pointElement, Inline.node, Xml.keptAttributes]
  have hx : coordinate (pointElement tag p).node "x" = .ok p.x := by
    simp [coordinate, hnode, Node.attribute?, coordinateText_spec h.1]
  have hy : coordinate (pointElement tag p).node "y" = .ok p.y := by
    simp [coordinate, hnode, Node.attribute?, coordinateText_spec h.2]
  rw [pointOf, hx, hy]
  rfl

end Numbers

section Parts

variable {depth : Nat} {name : Option String} {more : List Markup}

theorem nodeDataOf_block {tag : String} {attributes : List (String × String)} {data : NodeData}
    (h : Markup.AreSound (nameMarkup name ++ graphicsMarkup data :: more))
    (hf : data.isFinite = true) :
    nodeDataOf ((Markup.block tag attributes
      (nameMarkup name ++ graphicsMarkup data :: more)).node depth) =
        .ok { position := data.position, size := data.size } := by
  simp only [NodeData.isFinite, Bool.and_eq_true] at hf
  have hgraphics : ((Markup.block tag attributes
      (nameMarkup name ++ graphicsMarkup data :: more)).node depth).child? "graphics" =
        some ((graphicsMarkup data).node (depth + 1)) := by
    rw [child?_block h, find?_nameMarkup (by decide), List.map_cons, List.find?_cons_of_pos]
    simp [graphicsMarkup]
  have hsound : Markup.AreSound [.line (pointElement "position" data.position),
      .line (pointElement "dimension" data.size)] := by
    rw [Markup.areSound_iff] at h
    have hg := h (graphicsMarkup data) (by simp)
    rw [graphicsMarkup, Markup.IsSound] at hg
    exact hg.2
  have hposition : ((graphicsMarkup data).node (depth + 1)).child? "position" =
      some (pointElement "position" data.position).node := by
    rw [graphicsMarkup, child?_block hsound, List.map_cons, List.find?_cons_of_pos]
    · rw [Markup.node]
    · simp [pointElement]
  have hdimension : ((graphicsMarkup data).node (depth + 1)).child? "dimension" =
      some (pointElement "dimension" data.size).node := by
    rw [graphicsMarkup, child?_block hsound, List.map_cons, List.find?_cons_of_neg,
      List.map_cons, List.find?_cons_of_pos]
    · rw [Markup.node]
    · simp [pointElement]
    · simp [pointElement]
  simp only [nodeDataOf, hgraphics, Option.bind_some, hposition, hdimension, pointOrOrigin,
    pointOf_pointElement _ hf.1, pointOf_pointElement _ hf.2]
  rfl

theorem nodeMarkup_eq (tag aliasTag : String) (id : ObjectId) (data : NodeData)
    (parts : List Markup) : nodeMarkup tag aliasTag id data parts =
      .block (if data.reference.isSome then aliasTag else tag)
        (("id", id.text) :: (data.reference.map fun r => ("ref", r.text)).toList) parts := by
  unfold nodeMarkup
  cases data.reference <;> rfl

theorem requiredId_block {tag : String} {value : String} {rest : List (String × String)}
    (parts : List Markup) :
    requiredId ((Markup.block tag (("id", value) :: rest) parts).node depth) "id" =
      .ok ⟨value⟩ := by
  simp [requiredId, required, Markup.node, Node.attribute?, Xml.keptAttributes, Except.map]

def markingBlock (p : Place) : Markup :=
  .block "initialMarking" []
    [.line (.element "text" [] [.text (Decimal.natText p.tokens.toNat)]),
      .line (.element "graphics" [] [pointElement "offset" p.markingOffset])]

theorem tokensOf_markingBlock {p : Place} (h : (markingBlock p).IsSound) (id : ObjectId) :
    tokensOf id ((markingBlock p).node depth) = .ok p.tokens := by
  rw [markingBlock, Markup.IsSound] at h
  have htext : ((markingBlock p).node depth).child? "text" =
      some (.element "text" [] [.text (Decimal.natText p.tokens.toNat)]) := by
    rw [markingBlock, child?_block h.2, List.map_cons, List.find?_cons_of_pos (by simp)]
    simp [Markup.node, Inline.node, Inline.nodes, Xml.keptAttributes]
  have hcontent : Node.text? (.element "text" [] [.text (Decimal.natText p.tokens.toNat)]) =
      some (Decimal.natText p.tokens.toNat) := rfl
  simp only [tokensOf, htext, Option.bind_some, hcontent, natText_spec]

theorem offset_markingBlock {p : Place} (h : (markingBlock p).IsSound)
    (hf : p.markingOffset.isFinite = true) :
    pointOrOrigin ((((markingBlock p).node depth).child? "graphics").bind (·.child? "offset")) =
      .ok p.markingOffset := by
  rw [markingBlock, Markup.IsSound] at h
  have hgraphics : ((markingBlock p).node depth).child? "graphics" =
      some (.element "graphics" [] [(pointElement "offset" p.markingOffset).node]) := by
    rw [markingBlock, child?_block h.2, List.map_cons, List.find?_cons_of_neg (by simp),
      List.map_cons, List.find?_cons_of_pos (by simp)]
    simp [Markup.node, Inline.node, Inline.nodes, Xml.keptAttributes]
  have hoffset : Node.child? "offset"
      (.element "graphics" [] [(pointElement "offset" p.markingOffset).node]) =
        some (pointElement "offset" p.markingOffset).node := by
    simp [Node.child?, Node.children, pointElement, Inline.node, Node.isTagged]
  rw [hgraphics, Option.bind_some, hoffset]
  exact pointOf_pointElement _ hf

theorem placeOf_placeMarkup {p : Place} (h : (placeMarkup p).IsSound)
    (hf : (Object.place p).IsFinite) : placeOf ((placeMarkup p).node depth) = .ok {
      id := p.id
      name := p.name.filter (!·.isEmpty)
      node := { position := p.node.position, size := p.node.size }
      tokens := p.tokens
      markingOffset := if p.tokens = 0 then {} else p.markingOffset } := by
  have hmarkings : markingMarkup p = if p.tokens = 0 then [] else [markingBlock p] := rfl
  rw [placeMarkup, nodeMarkup_eq] at h ⊢
  rw [Markup.IsSound] at h
  obtain ⟨_, hsound⟩ := h
  have hname : ∀ m ∈ graphicsMarkup p.node :: markingMarkup p,
      (m.node (depth + 1)).isTagged "name" = false := by
    intro m hm
    rw [hmarkings] at hm
    rcases List.mem_cons.mp hm with rfl | hm
    · simp [graphicsMarkup]
    · split at hm
      · cases hm
      · rw [List.mem_singleton.mp hm]
        simp [markingBlock]
  have hmarking : ((Markup.block (if p.node.reference.isSome then "referencePlace" else "place")
      (("id", p.id.text) :: (p.node.reference.map fun r => ("ref", r.text)).toList)
      (nameMarkup p.name ++ graphicsMarkup p.node :: markingMarkup p)).node depth).child?
        "initialMarking" = ((markingMarkup p).map (Markup.node (depth + 1))).find?
          (Node.isTagged "initialMarking") := by
    rw [child?_block hsound, find?_nameMarkup (by decide), List.map_cons,
      List.find?_cons_of_neg (by simp [graphicsMarkup])]
  rw [placeOf, requiredId_block, nodeDataOf_block hsound hf.1, nameOf_block hsound hname, hmarking,
    hmarkings]
  by_cases htokens : p.tokens = 0
  · rw [if_pos htokens, if_pos htokens, htokens]
    rfl
  · have hblock : (markingBlock p).IsSound := by
      rw [Markup.areSound_iff] at hsound
      exact hsound _ (by simp [hmarkings, htokens])
    rw [if_neg htokens, if_neg htokens, List.map_singleton,
      List.find?_cons_of_pos (by simp [markingBlock])]
    simp only [bind, Except.bind, tokensOf_markingBlock hblock, offset_markingBlock hblock hf.2]

theorem transitionOf_transitionMarkup {x : Transition} (h : (transitionMarkup x).IsSound)
    (hf : (Object.transition x).IsFinite) : transitionOf ((transitionMarkup x).node depth) = .ok {
      id := x.id
      name := x.name.filter (!·.isEmpty)
      node := { position := x.node.position, size := x.node.size } } := by
  rw [transitionMarkup, nodeMarkup_eq] at h ⊢
  rw [Markup.IsSound] at h
  obtain ⟨_, hsound⟩ := h
  have hname : ∀ m ∈ [graphicsMarkup x.node], (m.node (depth + 1)).isTagged "name" = false := by
    intro m hm
    rw [List.mem_singleton.mp hm]
    simp [graphicsMarkup]
  rw [transitionOf, requiredId_block, nodeDataOf_block hsound hf, nameOf_block hsound hname]
  rfl

theorem mapM_pointOf {curve : List Point} (h : curve.all Point.isFinite = true) :
    (curve.map fun p => (pointElement "position" p).node).mapM pointOf = .ok curve := by
  induction curve with
  | nil => rfl
  | cons p curve ih =>
    rw [List.all_cons, Bool.and_eq_true] at h
    rw [List.map_cons, List.mapM_cons, pointOf_pointElement _ h.1, ih h.2]
    rfl

def curveBlock (curve : List Point) : Markup :=
  .block "graphics" [] (curve.map fun p => .line (pointElement "position" p))

theorem childrenTagged_curveBlock {curve : List Point} (h : (curveBlock curve).IsSound) :
    ((curveBlock curve).node depth).childrenTagged "position" =
      curve.map fun p => (pointElement "position" p).node := by
  rw [curveBlock, Markup.IsSound] at h
  rw [childrenTagged_eq, curveBlock, elements_block h.2, List.map_map]
  refine (List.filter_eq_self.mpr fun n hn => ?_).trans (List.map_congr_left fun p _ => ?_)
  · obtain ⟨p, _, rfl⟩ := List.mem_map.mp hn
    simp [pointElement]
  · simp [Markup.node]

theorem isTagged_kindMarkup {k : ArcKind} {m : Markup} (hm : m ∈ kindMarkup k) (t : String) :
    (m.node depth).isTagged t = ("type" == t) := by
  cases k with
  | normal => cases hm
  | read =>
    rw [List.mem_singleton.mp hm]
    exact isTagged_empty _ _ t

theorem eq_curveBlock {curve : List Point} {m : Markup} (hm : m ∈ curveMarkup curve) :
    m = curveBlock curve := by
  unfold curveMarkup at hm
  split at hm
  · cases hm
  · exact List.mem_singleton.mp hm

theorem isTagged_curveMarkup {curve : List Point} {m : Markup} (hm : m ∈ curveMarkup curve)
    (t : String) : (m.node depth).isTagged t = ("graphics" == t) := by
  rw [eq_curveBlock hm]
  exact isTagged_block _ _ _ t

theorem find?_eq_none_of_isTagged {ms : List Markup} {t : String}
    (h : ∀ m ∈ ms, (m.node depth).isTagged t = false) :
    (ms.map (Markup.node depth)).find? (Node.isTagged t) = none := by
  rw [List.find?_eq_none]
  intro n hn
  obtain ⟨m, hm, rfl⟩ := List.mem_map.mp hn
  simp [h m hm]

section Arc

variable {a : Arc} (h : (arcMarkup a).IsSound)
include h

theorem nameOf_arcMarkup : nameOf ((arcMarkup a).node depth) = a.name.filter (!·.isEmpty) := by
  rw [arcMarkup, Markup.IsSound, List.append_assoc] at h
  rw [arcMarkup, List.append_assoc]
  refine nameOf_block h.2 fun m hm => ?_
  rcases List.mem_append.mp hm with hm | hm
  · exact isTagged_curveMarkup hm "name"
  · exact isTagged_kindMarkup hm "name"

theorem child?_arcMarkup {t : String} (ht : "name" ≠ t) : ((arcMarkup a).node depth).child? t =
    ((curveMarkup a.curve ++ kindMarkup a.kind).map (Markup.node (depth + 1))).find?
      (Node.isTagged t) := by
  rw [arcMarkup, Markup.IsSound, List.append_assoc] at h
  rw [arcMarkup, List.append_assoc, child?_block h.2, find?_nameMarkup ht]

theorem arcKindOf_arcMarkup : arcKindOf ((arcMarkup a).node depth) = a.kind := by
  have hcurve : ((curveMarkup a.curve).map (Markup.node (depth + 1))).find?
      (Node.isTagged "type") = none :=
    find?_eq_none_of_isTagged fun m hm => isTagged_curveMarkup hm "type"
  rw [arcKindOf, child?_arcMarkup h (by decide), List.map_append, List.find?_append, hcurve,
    Option.none_or]
  cases a.kind with
  | normal => rfl
  | read =>
    have hchild : ((kindMarkup .read).map (Markup.node (depth + 1))).find? (Node.isTagged "type") =
        some (.element "type" [("value", "read")] []) := rfl
    rw [hchild]
    decide

theorem graphics_arcMarkup (depth : Nat) :
    a.curve = [] ∧ ((arcMarkup a).node depth).child? "graphics" = none ∨
      (curveBlock a.curve).IsSound ∧ ((arcMarkup a).node depth).child? "graphics" =
        some ((curveBlock a.curve).node (depth + 1)) := by
  have hkind : ((kindMarkup a.kind).map (Markup.node (depth + 1))).find?
      (Node.isTagged "graphics") = none :=
    find?_eq_none_of_isTagged fun m hm => isTagged_kindMarkup hm "graphics"
  rw [child?_arcMarkup h (by decide), List.map_append, List.find?_append, hkind, Option.or_none]
  by_cases hc : a.curve.isEmpty
  · refine .inl ⟨List.isEmpty_iff.mp hc, ?_⟩
    rw [curveMarkup, if_pos hc]
    rfl
  · have hm : curveMarkup a.curve = [curveBlock a.curve] := if_neg hc
    rw [arcMarkup, Markup.IsSound, Markup.areSound_iff] at h
    refine .inr ⟨h.2 _ (by simp [hm]), ?_⟩
    rw [hm, List.map_singleton, List.find?_cons_of_pos (by simp [curveBlock])]

theorem arcOf_arcMarkup (hf : (Object.arc a).IsFinite) :
    arcOf ((arcMarkup a).node depth) = .ok {
      id := a.id, name := a.name.filter (!·.isEmpty), source := a.source, target := a.target,
      kind := a.kind, curve := a.curve } := by
  have hid : requiredId ((arcMarkup a).node depth) "id" = .ok a.id := requiredId_block _
  have hsource : requiredId ((arcMarkup a).node depth) "source" = .ok a.source := by
    simp [arcMarkup, requiredId, required, Markup.node, Node.attribute?, Xml.keptAttributes,
      Except.map]
  have htarget : requiredId ((arcMarkup a).node depth) "target" = .ok a.target := by
    simp [arcMarkup, requiredId, required, Markup.node, Node.attribute?, Xml.keptAttributes,
      Except.map]
  rcases graphics_arcMarkup h depth with ⟨hcurve, hchild⟩ | ⟨hblock, hchild⟩
  · rw [hcurve]
    simp only [arcOf, hid, hsource, htarget, hchild, nameOf_arcMarkup h, arcKindOf_arcMarkup h]
    rfl
  · simp only [arcOf, hid, hsource, htarget, hchild, nameOf_arcMarkup h, arcKindOf_arcMarkup h,
      childrenTagged_curveBlock hblock, bind, Except.bind]
    rw [mapM_pointOf hf]

end Arc

section Nodes

variable {tag aliasTag : String} {id : ObjectId} {data : NodeData} {parts : List Markup}

theorem tag_nodeMarkup : ((nodeMarkup tag aliasTag id data parts).node depth).tag =
    if data.reference.isSome then aliasTag else tag := by
  rw [nodeMarkup_eq, Markup.node, Node.tag]

theorem isReference_nodeMarkup
    (ht : (tag, aliasTag) ∈ [("place", "referencePlace"), ("transition", "referenceTransition")]) :
    isReference ((nodeMarkup tag aliasTag id data parts).node depth) = data.reference.isSome := by
  rw [isReference, tag_nodeMarkup]
  simp only [List.mem_cons, List.not_mem_nil, or_false, Prod.mk.injEq] at ht
  rcases ht with ⟨rfl, rfl⟩ | ⟨rfl, rfl⟩ <;> cases data.reference <;> rfl

theorem attributes_nodeMarkup (tag aliasTag : String) (id : ObjectId) (data : NodeData)
    (parts : List Markup) (depth : Nat) :
    ((nodeMarkup tag aliasTag id data parts).node depth).attribute? "id" = some id.text ∧
      ((nodeMarkup tag aliasTag id data parts).node depth).attribute? "ref" =
        data.reference.map (·.text) := by
  rw [nodeMarkup_eq, Markup.node]
  cases data.reference <;> simp [Node.attribute?, Xml.keptAttributes]

theorem linkOf?_nodeMarkup
    (ht : (tag, aliasTag) ∈ [("place", "referencePlace"), ("transition", "referenceTransition")]) :
    linkOf? ((nodeMarkup tag aliasTag id data parts).node depth) =
      data.reference.map fun r => .edit (.setReference id (some r)) := by
  obtain ⟨hid, href⟩ := attributes_nodeMarkup tag aliasTag id data parts depth
  rw [linkOf?, isReference_nodeMarkup ht, hid, href]
  cases data.reference <;> rfl

/-- An alias names its referent, so it is taken as it is. -/
theorem admit_nodeMarkup {o : Object}
    (ht : (tag, aliasTag) ∈ [("place", "referencePlace"), ("transition", "referenceTransition")]) :
    (if isReference ((nodeMarkup tag aliasTag id data parts).node depth) = true then
      (required ((nodeMarkup tag aliasTag id data parts).node depth) "ref").bind fun _ => .ok o
    else (.ok o : Except ReadError Object)) = .ok o := by
  rw [isReference_nodeMarkup ht, required,
    (attributes_nodeMarkup tag aliasTag id data parts depth).2]
  cases data.reference <;> rfl

end Nodes

theorem nodeOf?_placeMarkup {p : Place} (h : (placeMarkup p).IsSound)
    (hf : (Object.place p).IsFinite) :
    nodeOf? ((placeMarkup p).node depth) = some (.ok (Object.place p).fresh) := by
  have htag : ((placeMarkup p).node depth).tag = "place" ∨
      ((placeMarkup p).node depth).tag = "referencePlace" := by
    rw [placeMarkup, tag_nodeMarkup]
    cases p.node.reference <;> simp
  simp only [nodeOf?, Bool.or_eq_true, decide_eq_true_eq, htag, if_true,
    placeOf_placeMarkup h hf, Except.map, Option.map_some, bind, Except.bind]
  exact congrArg some (admit_nodeMarkup (by simp))

theorem nodeOf?_transitionMarkup {x : Transition} (h : (transitionMarkup x).IsSound)
    (hf : (Object.transition x).IsFinite) :
    nodeOf? ((transitionMarkup x).node depth) = some (.ok (Object.transition x).fresh) := by
  have htag : ((transitionMarkup x).node depth).tag =
      if x.node.reference.isSome then "referenceTransition" else "transition" := tag_nodeMarkup
  have hplace : ¬(((transitionMarkup x).node depth).tag = "place" ∨
      ((transitionMarkup x).node depth).tag = "referencePlace") := by
    rw [htag]
    cases x.node.reference <;> simp
  have htransition : ((transitionMarkup x).node depth).tag = "transition" ∨
      ((transitionMarkup x).node depth).tag = "referenceTransition" := by
    rw [htag]
    cases x.node.reference <;> simp
  simp only [nodeOf?, Bool.or_eq_true, decide_eq_true_eq, hplace, htransition, if_true, if_false,
    transitionOf_transitionMarkup h hf, Except.map, Option.map_some, bind, Except.bind]
  exact congrArg some (admit_nodeMarkup (by simp))

theorem node_nodeElement? {o : Object} {m : Markup} (hm : nodeElement? o = some m)
    (h : m.IsSound) (hf : o.IsFinite) (depth : Nat) :
    nodeOf? (m.node depth) = some (.ok o.fresh) ∧
      linkOf? (m.node depth) = o.reference?.map fun r => .edit (.setReference o.id (some r)) := by
  cases o with
  | place p =>
    cases hm
    exact ⟨nodeOf?_placeMarkup h hf, linkOf?_nodeMarkup (by simp)⟩
  | transition x =>
    cases hm
    exact ⟨nodeOf?_transitionMarkup h hf, linkOf?_nodeMarkup (by simp)⟩
  | _ => cases hm

theorem nodeOf?_eq_none {n : Node} (h : n.tag ∈ ["", "name", "arc", "page"]) :
    nodeOf? n = none ∧ linkOf? n = none := by
  simp only [List.mem_cons, List.not_mem_nil, or_false] at h
  rcases h with h | h | h | h <;> simp [nodeOf?, linkOf?, isReference, h]

end Parts

end Pnml

end PagedNets
