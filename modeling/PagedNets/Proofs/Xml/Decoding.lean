import PagedNets.Proofs.Xml.Strings

/-!
An escaped text is decoded by the reader and by the rules of XML 1.0, which settle the line ends of
a document before any reference in it.
-/

set_option autoImplicit false

namespace PagedNets.Xml

section Writing

def push (written : String) (c : Char) : String := written ++ String.ofList (escapeChar c)

/-- Escapes a text only if there is something to escape in it. -/
def escapeOrKeep (s : String) : String :=
  if s.toList.any specials.contains then s.toList.foldl push "" else s

theorem foldl_push (written : String) (cs : List Char) :
    cs.foldl push written = written ++ String.ofList (escapeChars cs) := by
  induction cs generalizing written with
  | nil => simp [escapeChars]
  | cons c cs ih => simp [ih, push, escapeChars, String.append_assoc]

theorem escapeOrKeep_eq (s : String) : escapeOrKeep s = escape s := by
  rw [escapeOrKeep]
  split
  · rw [foldl_push, String.empty_append, escape]
  · next h =>
    have hplain : ∀ c ∈ s.toList, c ∉ specials := by simpa using h
    rw [escape_eq_self hplain]

end Writing

section References

theorem eq_nil_of_escapeChar {c : Char} {before after : List Char}
    (h : escapeChar c = before ++ '&' :: after) : before = [] ∧ c ∈ specials := by
  have htails : specials.all (fun c => !(escapeChar c).tail.contains '&') = true := by decide
  by_cases hc : c ∈ specials
  · refine ⟨?_, hc⟩
    cases before with
    | nil => rfl
    | cons x before =>
      have htail := List.all_eq_true.mp htails c hc
      simp [h] at htail
  · rw [escapeChar_of_not_mem hc] at h
    have hamp : '&' ∈ [c] := h ▸ by simp
    exact absurd (List.mem_singleton.mp hamp ▸ by decide) hc

/-- Every `&` in an escaped text begins one of the references that are written. -/
theorem escapeChar_prefix_of_escapeChars {cs before after : List Char}
    (h : escapeChars cs = before ++ '&' :: after) :
    ∃ c ∈ specials, escapeChar c <+: '&' :: after := by
  induction cs generalizing before with
  | nil => simp [escapeChars] at h
  | cons c cs ih =>
    have hsplit : escapeChar c ++ escapeChars cs = before ++ '&' :: after := h
    rcases List.append_eq_append_iff.mp hsplit with ⟨inner, -, hrest⟩ | ⟨inner, hfront, hrest⟩
    · exact ih hrest
    · cases inner with
      | nil =>
        have hfirst : escapeChars cs = [] ++ '&' :: after := hrest.symm
        exact ih hfirst
      | cons x inner =>
        -- The `&` stands in what is written for the first character.
        obtain ⟨hx, hafter⟩ := List.cons.inj hrest
        obtain ⟨hbefore, hc⟩ := eq_nil_of_escapeChar (hx ▸ hfront)
        refine ⟨c, hc, escapeChars cs, ?_⟩
        rw [hfront, hbefore, List.nil_append, hrest]

end References

section Standard

/-- The line ends of a document, before anything else in it is looked at. -/
def unifyLines : List Char → List Char
  | [] => []
  | '\r' :: '\n' :: cs => '\n' :: unifyLines cs
  | '\r' :: cs => '\n' :: unifyLines cs
  | c :: cs => c :: unifyLines cs

def Piece.inAttribute : Piece → Char
  | .raw c => if isSpace c then ' ' else c
  | .reference c => c

/-- The value of an attribute as XML 1.0 defines it. -/
def normalizedValue? (cs : List Char) : Option (List Char) :=
  (pieces? (unifyLines cs)).map (·.map Piece.inAttribute)

def normalizedContent? (cs : List Char) : Option (List Char) :=
  (pieces? (unifyLines cs)).map (·.map Piece.char)

theorem unifyLines_of_not_mem {cs : List Char} (h : '\r' ∉ cs) : unifyLines cs = cs := by
  induction cs with
  | nil => rfl
  | cons c cs ih =>
    obtain ⟨hc, hcs⟩ := not_or.mp fun hm => h (List.mem_cons.mpr hm)
    rw [unifyLines, ih hcs]
    · exact fun _ he _ => hc he.symm
    · exact fun he => hc he.symm

theorem unifyLines_escapeChars (cs : List Char) : unifyLines (escapeChars cs) = escapeChars cs :=
  unifyLines_of_not_mem (not_mem_escapeChars (by decide) (by decide))

theorem inAttribute_comp_of : Piece.inAttribute ∘ Piece.of = id := by
  funext c
  rw [Function.comp_apply, Piece.of]
  split
  · rfl
  · next h =>
    simp only [specials, List.mem_cons, List.not_mem_nil, or_false, not_or] at h
    rw [Piece.inAttribute]
    split
    · next hspace =>
      simp only [isSpace, h, Bool.or_eq_true, beq_iff_eq, or_false] at hspace
      exact hspace.symm
    · rfl

theorem char_comp_of : Piece.char ∘ Piece.of = id := by
  funext c
  rw [Function.comp_apply, Piece.of]
  split <;> rfl

theorem normalizedValue?_escapeChars (cs : List Char) :
    normalizedValue? (escapeChars cs) = some cs := by
  rw [normalizedValue?, unifyLines_escapeChars, pieces?_escapeChars, Option.map_some, List.map_map,
    inAttribute_comp_of, List.map_id]

theorem normalizedContent?_escapeChars (cs : List Char) :
    normalizedContent? (escapeChars cs) = some cs := by
  rw [normalizedContent?, unifyLines_escapeChars, pieces?_escapeChars, Option.map_some,
    List.map_map, char_comp_of, List.map_id]

end Standard

section Documents

variable {tag : String} {attributes : List (String × String)}

theorem skipProlog?_openChars (ht : IsTag tag attributes) (selfClosed : Bool) (rest : List Char) :
    skipProlog? (openChars tag attributes selfClosed ++ rest) =
      some (openChars tag attributes selfClosed ++ rest) := by
  cases hs : tag.toList with
  | nil => exact absurd hs ht.word.1
  | cons c cs =>
    have hc : c ≠ '?' := ht.word.ne (hs ▸ List.mem_cons_self) (by decide)
    simp [skipProlog?, openChars, hs, List.isPrefixOf, hc.symm]

/-- A text that stands for one element is a document with this element as its root. -/
theorem parse?_of_spells {cs : List Char} {ts : List Token} {kept : List (String × String)}
    {children : List Node} (h : Spells cs ts [.element tag kept children]) :
    parse? (String.ofList cs) = some (.element tag kept children) := by
  have hlexes := h.lexes (fun c hc => by cases hc) lexes_nil
  rw [List.append_nil, List.append_nil] at hlexes
  have hlegal : cs.all isXmlChar = true := List.all_eq_true.mpr h.legal
  have hbody : skipProlog? cs = some cs ∧ ofTokens? ts = some (.element tag kept children) := by
    cases h with
    | empty ht hnil =>
      cases hnil
      have hopen := openFrame?_openToken ht []
      refine ⟨skipProlog?_openChars ht true [], ?_⟩
      simp [ofTokens?, Builder.step?, openToken, hopen, Builder.attach?, Frame.node]
    | element ht hinner hnil =>
      cases hnil
      rename_i attributes _ _
      have hinside := hinner.builds {}
        { name := ⟨"", tag⟩, scope := [], attributes := keptAttributes attributes }
        (.inr fun n hn => by cases hn)
      refine ⟨skipProlog?_openChars ht false _, ?_⟩
      rw [ofTokens?, foldlM_cons_of_some _ (Builder.step?_open_root ht),
        foldlM_append_of_some _ hinside, foldlM_cons_of_some _ (Builder.step?_close _)]
      rfl
  rw [parse?, tokens?, String.toList_ofList, if_pos hlegal, hbody.1, Option.bind_some,
    hlexes _ (Nat.le_refl _), Option.bind_some, hbody.2]

theorem isTag_of_attribute {name value : String} (ht : IsWord tag) (hn : IsWord name)
    (hx : name ≠ "xmlns") (hv : Legal value.toList) : IsTag tag [(name, value)] where
  word := ht
  words := List.forall_mem_singleton.mpr hn
  legal := List.forall_mem_singleton.mpr hv
  distinct := by simp
  declares := List.forall_mem_singleton.mpr fun he => absurd he hx

theorem isTag_nil (ht : IsWord tag) : IsTag tag [] where
  word := ht
  words := List.forall_mem_nil _
  legal := List.forall_mem_nil _
  distinct := List.nodup_nil
  declares := List.forall_mem_nil _

variable {s : String}

theorem escapeChars_ne_nil (h : s ≠ "") : escapeChars s.toList ≠ [] := by
  intro he
  refine h (String.toList_eq_nil_iff.mp (List.eq_nil_iff_forall_not_mem.mpr fun c hc => ?_))
  exact escapeChar_ne_nil c (List.flatMap_eq_nil_iff.mp he c hc)

theorem parse?_escape_attribute {name : String} (hs : Legal s.toList) (ht : IsWord tag)
    (hn : IsWord name) (hx : name ≠ "xmlns") :
    parse? ("<" ++ tag ++ " " ++ name ++ "=\"" ++ escape s ++ "\"/>") =
      some (.element tag [(name, s)] []) := by
  have hspells := Spells.empty (isTag_of_attribute ht hn hx hs) Spells.nil
  have hkept : keptAttributes [(name, s)] = [(name, s)] := by simp [keptAttributes, hx]
  rw [hkept] at hspells
  refine Eq.trans (congrArg parse? (String.toList_injective ?_)) (parse?_of_spells hspells)
  simp [openChars, attributesChars, attributeChars, tagEnd, escape]

theorem parse?_escape_content (hs : Legal s.toList) (hne : s ≠ "") (ht : IsWord tag) :
    parse? ("<" ++ tag ++ ">" ++ escape s ++ "</" ++ tag ++ ">") =
      some (.element tag [] [.text s]) := by
  have hlt : '<' ∉ escapeChars s.toList := not_mem_escapeChars (by decide) (by decide)
  have hgt : '>' ∉ escapeChars s.toList := not_mem_escapeChars (by decide) (by decide)
  have htext := Spells.text (escapeChars_ne_nil hne) hlt hgt (legal_escapeChars.mpr hs)
    (characterData?_escapeChars s) (fun n hn => by cases hn) Spells.nil
  have hparse := parse?_of_spells (.element (isTag_nil ht) htext .nil)
  refine Eq.trans (congrArg parse? (String.toList_injective ?_)) hparse
  simp [openChars, closeChars, attributesChars, tagEnd, escape]

end Documents

/-- A text is found again where it was written, in both of its places. -/
structure Survives (s : String) : Prop where
  /-- As the value of an attribute it ends with its closing quote. -/
  quoted : ∀ rest, takeQuoted? ('"' :: ((escape s).toList ++ '"' :: rest)) =
    some ((escape s).toList, rest)
  value : attributeValue? (escape s).toList = some s
  normalizedValue : normalizedValue? (escape s).toList = some s.toList
  tagged : ∀ tag name, IsWord tag → IsWord name → name ≠ "xmlns" →
    parse? ("<" ++ tag ++ " " ++ name ++ "=\"" ++ escape s ++ "\"/>") =
      some (.element tag [(name, s)] [])
  /-- As the content of an element it ends with the next tag. -/
  between : s ≠ "" → ∀ rest, takeToken? ((escape s).toList ++ '<' :: rest) =
    some (.text (escape s).toList, '<' :: rest)
  data : characterData? (escape s).toList = some s
  normalizedContent : normalizedContent? (escape s).toList = some s.toList
  content : s ≠ "" → ∀ tag, IsWord tag →
    parse? ("<" ++ tag ++ ">" ++ escape s ++ "</" ++ tag ++ ">") = some (.element tag [] [.text s])
  /-- No character stands in it that markup or normalisation would take for its own. -/
  plain : ∀ c ∈ specials, c ≠ '&' → c ∉ (escape s).toList
  references : ∀ before after, (escape s).toList = before ++ '&' :: after →
    ∃ c ∈ specials, escapeChar c <+: '&' :: after
  legal : Legal (escape s).toList
  kept : escapeOrKeep s = escape s
  injective : ∀ t, escape t = escape s → t = s

theorem injective_escape : Function.Injective escape := by
  intro s t h
  have hdecoded := attributeValue?_escapeChars s
  rw [show escapeChars s.toList = escapeChars t.toList from String.ofList_inj.mp h,
    attributeValue?_escapeChars t] at hdecoded
  exact (Option.some.inj hdecoded).symm

/-- An escaped text is decoded to the text itself, as a value and as content. -/
theorem survives_escape (s : String) (h : Legal s.toList) : Survives s := by
  have hescape : (escape s).toList = escapeChars s.toList := String.toList_ofList
  have hlt : '<' ∉ escapeChars s.toList := not_mem_escapeChars (by decide) (by decide)
  have hgt : '>' ∉ escapeChars s.toList := not_mem_escapeChars (by decide) (by decide)
  constructor
  case quoted =>
    intro rest
    rw [hescape, takeQuoted?_escapeChars]
  case value => rw [hescape, attributeValue?_escapeChars]
  case normalizedValue => rw [hescape, normalizedValue?_escapeChars]
  case tagged => exact fun _ _ ht hn hx => parse?_escape_attribute h ht hn hx
  case between =>
    intro hne rest
    rw [hescape]
    exact takeToken?_text (escapeChars_ne_nil hne) hlt hgt fun c hc => (Option.some.inj hc).symm
  case data => rw [hescape, characterData?_escapeChars]
  case normalizedContent => rw [hescape, normalizedContent?_escapeChars]
  case content => exact fun hne _ ht => parse?_escape_content h hne ht
  case plain =>
    intro c hc hne
    rw [hescape]
    exact not_mem_escapeChars hc hne
  case references =>
    intro before after hsplit
    rw [hescape] at hsplit
    exact escapeChar_prefix_of_escapeChars hsplit
  case legal => exact hescape ▸ legal_escapeChars.mpr h
  case kept => exact escapeOrKeep_eq s
  case injective => exact fun t ht => injective_escape ht

theorem survives_escape_lookalikes :
    Survives "&#10;&amp;lt; <a b='c' d=\"e\">\r\n\t\n\r]]>" :=
  survives_escape _ (List.all_eq_true.mp (by decide))

end PagedNets.Xml
