import PagedNets.Proofs.Xml.Characters
import PagedNets.Proofs.Xml.Markup

set_option autoImplicit false

namespace PagedNets.Xml

theorem legal_escapeChars {cs : List Char} : Legal (escapeChars cs) ↔ Legal cs := by
  refine ⟨fun h c hc => ?_, fun h => isXmlChar_of_mem_escapeChars h⟩
  by_cases hs : c ∈ specials
  · have hspecials : specials.all isXmlChar = true := by decide
    exact List.all_eq_true.mp hspecials c hs
  · refine h c (List.mem_flatMap.mpr ⟨c, hc, ?_⟩)
    rw [escapeChar_of_not_mem hs]
    exact List.mem_singleton_self c

def attributeStrings (attributes : List (String × String)) : List String := attributes.map (·.2)

theorem legal_attributeStrings {attributes : List (String × String)}
    (h : Legal (attributesText attributes).toList) :
    ∀ s ∈ attributeStrings attributes, Legal s.toList := by
  rw [toList_attributesText] at h
  intro s hs
  obtain ⟨a, ha, rfl⟩ := List.mem_map.mp hs
  refine legal_escapeChars.mp fun c hc => h c (List.mem_flatMap.mpr ⟨a, ha, ?_⟩)
  simp [attributeChars, hc]

mutual

def Inline.strings : Inline → List String
  | .text content => [content]
  | .empty _ attributes => attributeStrings attributes
  | .element _ attributes content => attributeStrings attributes ++ Inline.allStrings content

def Inline.allStrings : List Inline → List String
  | [] => []
  | i :: is => Inline.strings i ++ Inline.allStrings is

end

mutual

def Markup.strings : Markup → List String
  | .line content => content.strings
  | .block _ attributes parts => attributeStrings attributes ++ Markup.allStrings parts

def Markup.allStrings : List Markup → List String
  | [] => []
  | m :: ms => Markup.strings m ++ Markup.allStrings ms

end

theorem Markup.allStrings_eq_flatMap (ms : List Markup) :
    allStrings ms = ms.flatMap strings := by
  induction ms with
  | nil => rfl
  | cons m ms ih => rw [allStrings, ih, List.flatMap_cons]

mutual

theorem Inline.legal_strings (i : Inline) (h : Legal i.render.toList) :
    ∀ s ∈ i.strings, Legal s.toList := by
  cases i with
  | text content =>
    intro s hs
    rw [Inline.strings, List.mem_singleton] at hs
    rw [Inline.render, escape, String.toList_ofList] at h
    rw [hs]
    exact legal_escapeChars.mp h
  | empty tag attributes =>
    simp only [Inline.render, String.toList_append, legal_append] at h
    exact legal_attributeStrings h.1.2
  | element tag attributes content =>
    simp only [Inline.render, String.toList_append, legal_append] at h
    obtain ⟨⟨⟨⟨⟨⟨-, hattributes⟩, -⟩, hcontent⟩, -⟩, -⟩, -⟩ := h
    intro s hs
    rw [Inline.strings, List.mem_append] at hs
    exact hs.elim (legal_attributeStrings hattributes s)
      (Inline.legal_allStrings content hcontent s)

theorem Inline.legal_allStrings (is : List Inline) (h : Legal (Inline.renderAll is).toList) :
    ∀ s ∈ Inline.allStrings is, Legal s.toList := by
  cases is with
  | nil => exact fun s hs => by cases hs
  | cons i is =>
    rw [Inline.renderAll, String.toList_append, legal_append] at h
    intro s hs
    rw [Inline.allStrings, List.mem_append] at hs
    exact hs.elim (Inline.legal_strings i h.1 s) (Inline.legal_allStrings is h.2 s)

end

mutual

/-- The strings in a legal text are legal. -/
theorem Markup.legal_strings (depth : Nat) (m : Markup) (h : Legal (m.render depth).toList) :
    ∀ s ∈ m.strings, Legal s.toList := by
  cases m with
  | line content =>
    simp only [Markup.render, String.toList_append, legal_append] at h
    exact content.legal_strings h.1.2
  | block tag attributes parts =>
    simp only [Markup.render, String.toList_append, legal_append] at h
    obtain ⟨⟨⟨⟨⟨⟨⟨-, hattributes⟩, -⟩, hparts⟩, -⟩, -⟩, -⟩, -⟩ := h
    intro s hs
    rw [Markup.strings, List.mem_append] at hs
    exact hs.elim (legal_attributeStrings hattributes s)
      (Markup.legal_allStrings (depth + 1) parts hparts s)

theorem Markup.legal_allStrings (depth : Nat) (ms : List Markup)
    (h : Legal (Markup.renderAll depth ms).toList) :
    ∀ s ∈ Markup.allStrings ms, Legal s.toList := by
  cases ms with
  | nil => exact fun s hs => by cases hs
  | cons m ms =>
    rw [Markup.renderAll, String.toList_append, legal_append] at h
    intro s hs
    rw [Markup.allStrings, List.mem_append] at hs
    exact hs.elim (Markup.legal_strings depth m h.1 s) (Markup.legal_allStrings depth ms h.2 s)

end

theorem Markup.legal_strings_document {root : Markup} (h : Legal (renderDocument root).toList) :
    ∀ s ∈ root.strings, Legal s.toList := by
  unfold renderDocument at h
  rw [String.toList_append, legal_append] at h
  exact root.legal_strings 0 h.2

theorem legal_of_parse? {s : String} (h : (parse? s).isSome = true) : Legal s.toList := by
  rw [parse?, tokens?] at h
  split at h
  · next hall => exact List.all_eq_true.mp hall
  · cases h

end PagedNets.Xml
