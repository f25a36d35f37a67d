import PagedNets.Proofs.Xml.Lexing

set_option autoImplicit false

namespace PagedNets.Xml

variable {tag : String} {attributes : List (String × String)}

section Folding

variable {α β : Type} {f : β → α → Option β} {b next : β}

theorem foldlM_cons_of_some {a : α} (l : List α) (h : f b a = some next) :
    (a :: l).foldlM f b = l.foldlM f next := by
  rw [List.foldlM_cons, h]
  rfl

theorem foldlM_append_of_some {l : List α} (m : List α) (h : l.foldlM f b = some next) :
    (l ++ m).foldlM f b = m.foldlM f next := by
  rw [List.foldlM_append, h]
  rfl

end Folding

theorem declare?_attributeToken {a : String × String} (d : Declared)
    (h : a.1 = "xmlns" → a.2 ≠ xmlNamespace ∧ a.2 ≠ declarationNamespace) :
    declare? d (attributeToken a) = some (if a.1 = "xmlns" then d
      else { d with attributes := d.attributes ++ [(⟨"", a.1⟩, a.2)] }) := by
  have hvalue : attributeValue? (attributeToken a).2 = some a.2 := attributeValue?_escapeChars a.2
  have hqualifier : ¬ (attributeToken a).1.qualifier = "xmlns" :=
    show ¬ ("" : String) = "xmlns" by decide
  rw [declare?, hvalue, Option.bind_some, if_neg hqualifier]
  by_cases hx : a.1 = "xmlns"
  · obtain ⟨hxml, hdeclaration⟩ := h hx
    rw [if_pos hx, if_pos (show (attributeToken a).1.label = "xmlns" from hx)]
    simp [hxml, hdeclaration]
  · rw [if_neg hx, if_neg (show ¬ (attributeToken a).1.label = "xmlns" from hx)]
    rfl

theorem foldlM_declare?
    (h : ∀ a ∈ attributes, a.1 = "xmlns" → a.2 ≠ xmlNamespace ∧ a.2 ≠ declarationNamespace)
    (d : Declared) : (attributes.map attributeToken).foldlM declare? d = some { d with
      attributes :=
        d.attributes ++ (keptAttributes attributes).map fun a => (⟨"", a.1⟩, a.2) } := by
  induction attributes generalizing d with
  | nil => simp [keptAttributes]
  | cons a attributes ih =>
    have hrest := ih fun b hb => h b (List.mem_cons_of_mem _ hb)
    rw [List.map_cons, List.foldlM_cons, declare?_attributeToken d (h a List.mem_cons_self)]
    simp only [Option.bind_eq_bind, Option.bind_some, hrest]
    by_cases hx : a.1 = "xmlns" <;> simp [keptAttributes, hx]

theorem mapM_attributeNamespace? (scope : Scope) (attributes : List (String × String)) :
    (attributes.map fun a => ((⟨"", a.1⟩ : QName), a.2)).mapM (fun a =>
      (attributeNamespace? scope a.1).map fun uri => (uri, a.1.label)) =
        some (attributes.map fun a => (none, a.1)) := by
  induction attributes with
  | nil => rfl
  | cons a attributes ih =>
    rw [List.map_cons, List.mapM_cons, ih]
    rfl

theorem distinctNames_of_nodup (h : (attributes.map (·.1)).Nodup) :
    distinctNames (attributes.map fun a => (none, a.1)) = true := by
  induction attributes with
  | nil => rfl
  | cons a attributes ih =>
    rw [List.map_cons, List.nodup_cons] at h
    rw [List.map_cons, distinctNames, ih h.2, Bool.and_true, Bool.not_eq_true',
      ← Bool.not_eq_true, List.contains_iff_mem]
    intro hm
    obtain ⟨b, hb, he⟩ := List.mem_map.mp hm
    exact h.1 (List.mem_map.mpr ⟨b, hb, congrArg Prod.snd he⟩)

theorem openFrame?_openToken (ht : IsTag tag attributes) (outer : Scope) :
    openFrame? outer ⟨"", tag⟩ (attributes.map attributeToken) = some {
      name := ⟨"", tag⟩, scope := outer, attributes := keptAttributes attributes } := by
  have hqualifier : ¬ ("" : String) = "xmlns" := by decide
  have hdistinct : ((keptAttributes attributes).map (·.1)).Nodup :=
    (List.filter_sublist.map _).nodup ht.distinct
  rw [openFrame?, if_neg hqualifier, foldlM_declare? ht.declares, Option.bind_some]
  simp only [List.nil_append, mapM_attributeNamespace?, Option.bind_some,
    distinctNames_of_nodup hdistinct]
  simp [List.filter_map, Function.comp_def]

def Frame.extend (f : Frame) (ns : List Node) : Frame :=
  { f with children := ns.reverse ++ f.children }

theorem Frame.extend_extend (f : Frame) (ms ns : List Node) :
    (f.extend ms).extend ns = f.extend (ms ++ ns) := by
  simp [extend]

namespace Builder

def inside (b : Builder) (f : Frame) : Builder := { b with stack := f :: b.stack }

variable (b : Builder) (f : Frame)

theorem attach?_inside (n : Node) : (b.inside f).attach? n = some (b.inside (f.extend [n])) := rfl

theorem step?_text {raw : List Char} {s : String} (hdata : characterData? raw = some s)
    (hf : ∀ n ∈ f.children.head?, n.isElement = true) :
    (b.inside f).step? (.text raw) = some (b.inside (f.extend [.text s])) := by
  obtain ⟨name, scope, attributes, children⟩ := f
  simp only [step?, hdata, Option.bind_some, attachText?, inside]
  rw [if_neg (by simp)]
  cases children with
  | nil => rfl
  | cons n rest =>
    cases n with
    | text t => exact absurd (hf _ rfl) (by simp [Node.isElement])
    | element => rfl
    | aside => rfl

theorem step?_empty (ht : IsTag tag attributes) :
    (b.inside f).step? (openToken tag attributes true) =
      some (b.inside (f.extend [.element tag (keptAttributes attributes) []])) := by
  have hopen := openFrame?_openToken ht f.scope
  simp only [step?, openToken, inside, hopen, Option.bind_some]
  rfl

theorem step?_open (ht : IsTag tag attributes) :
    (b.inside f).step? (openToken tag attributes false) = some ((b.inside f).inside {
      name := ⟨"", tag⟩, scope := f.scope, attributes := keptAttributes attributes }) := by
  have hopen := openFrame?_openToken ht f.scope
  simp only [step?, openToken, inside, hopen, Option.bind_some]
  rfl

theorem step?_open_root (ht : IsTag tag attributes) :
    ({} : Builder).step? (openToken tag attributes false) = some (({} : Builder).inside {
      name := ⟨"", tag⟩, scope := [], attributes := keptAttributes attributes }) := by
  have hopen := openFrame?_openToken ht []
  simp only [step?, openToken, inside, hopen, Option.bind_some]
  rfl

theorem step?_close {scope : Scope} {kept : List (String × String)} {children : List Node} :
    (b.inside (Frame.extend { name := ⟨"", tag⟩, scope := scope, attributes := kept }
      children)).step? (closeToken tag) = b.attach? (.element tag kept children) := by
  simp [step?, closeToken, inside, Frame.extend, Frame.node]

end Builder

theorem Spells.builds {cs : List Char} {ts : List Token} {ns : List Node} (h : Spells cs ts ns)
    (b : Builder) (f : Frame)
    (hf : (∀ n ∈ ns.head?, n.isElement = true) ∨ ∀ n ∈ f.children.head?, n.isElement = true) :
    ts.foldlM Builder.step? (b.inside f) = some (b.inside (f.extend ns)) := by
  induction h generalizing b f with
  | nil => rfl
  | text _ _ _ _ hdata hnext _ ih =>
    have hchildren : ∀ n ∈ f.children.head?, n.isElement = true :=
      hf.resolve_left fun hn => absurd (hn _ rfl) (by simp [Node.isElement])
    rw [foldlM_cons_of_some _ (Builder.step?_text b f hdata hchildren), ih b _ (.inl hnext),
      Frame.extend_extend]
    rfl
  | empty ht _ ih =>
    rw [foldlM_cons_of_some _ (Builder.step?_empty b f ht),
      ih b _ (.inr fun n hn => by cases hn; rfl), Frame.extend_extend]
    rfl
  | element ht _ _ ihInner ih =>
    rw [foldlM_cons_of_some _ (Builder.step?_open b f ht),
      foldlM_append_of_some _ (ihInner (b.inside f) _ (.inr fun n hn => by cases hn)),
      foldlM_cons_of_some _ ((Builder.step?_close _).trans (Builder.attach?_inside b f _)),
      ih b _ (.inr fun n hn => by cases hn; rfl), Frame.extend_extend]
    rfl

def declarationChars : List Char := "<?xml version=\"1.0\" encoding=\"UTF-8\"?>".toList

theorem skipProlog?_declarationChars (rest : List Char) :
    skipProlog? (declarationChars ++ rest) = some rest := rfl

/-- A written document is parsed into its root element. -/
theorem parse?_document {inner : List Char} {its : List Token} {children : List Node}
    (ht : IsTag tag attributes) (h : Spells inner its children) :
    parse? (String.ofList (declarationChars ++ (gap 0 ++ (openChars tag attributes false ++
      (inner ++ (closeChars tag ++ gap 0)))))) =
        some (.element tag (keptAttributes attributes) children) := by
  -- The line ends around the root are text without significance.
  have hend := Spells.gap 0 (fun n hn => by cases hn) Spells.nil
  have hbody := Spells.gap 0 (fun n hn => by cases hn; rfl) (Spells.element ht h hend)
  have hlexes := hbody.lexes (fun c hc => by cases hc) lexes_nil
  have hlegal : (declarationChars ++ (gap 0 ++ (openChars tag attributes false ++
      (inner ++ (closeChars tag ++ gap 0))))).all isXmlChar = true := by
    rw [List.all_append, Bool.and_eq_true]
    exact ⟨by decide, List.all_eq_true.mpr (by simpa using hbody.legal)⟩
  rw [parse?, tokens?, String.toList_ofList, if_pos hlegal, skipProlog?_declarationChars,
    Option.bind_some]
  rw [List.append_nil, List.append_nil] at hlexes
  have hgap : ∀ root : Option Node, Builder.step? { root := root } (.text (gap 0)) =
      some { root := root } := fun _ => rfl
  have hinside := h.builds {}
    { name := ⟨"", tag⟩, scope := [], attributes := keptAttributes attributes }
    (.inr fun n hn => by cases hn)
  have hroot : Builder.attach? {} (.element tag (keptAttributes attributes) children) =
      some { root := some (.element tag (keptAttributes attributes) children) } := rfl
  rw [List.append_nil] at hlexes
  rw [hlexes _ (Nat.le_refl _), Option.bind_some, ofTokens?, foldlM_cons_of_some _ (hgap none),
    foldlM_cons_of_some _ (Builder.step?_open_root ht), foldlM_append_of_some _ hinside,
    foldlM_cons_of_some _ ((Builder.step?_close _).trans hroot), foldlM_cons_of_some _ (hgap _)]
  rfl

end PagedNets.Xml
