import PagedNets.Xml.Tree
import PagedNets.Proofs.Span
import PagedNets.Proofs.Xml.Escape

set_option autoImplicit false

namespace PagedNets.Xml

def isLetter (c : Char) : Bool := ('A' ≤ c && c ≤ 'Z') || ('a' ≤ c && c ≤ 'z')

def IsWord (s : String) : Prop := s.toList ≠ [] ∧ ∀ c ∈ s.toList, isLetter c = true

structure IsTag (tag : String) (attributes : List (String × String)) : Prop where
  word : IsWord tag
  words : ∀ a ∈ attributes, IsWord a.1
  legal : ∀ a ∈ attributes, ∀ c ∈ a.2.toList, isXmlChar c = true
  distinct : (attributes.map (·.1)).Nodup
  declares : ∀ a ∈ attributes, a.1 = "xmlns" → a.2 ≠ xmlNamespace ∧ a.2 ≠ declarationNamespace

def attributeChars (a : String × String) : List Char :=
  ' ' :: (a.1.toList ++ '=' :: '"' :: (escapeChars a.2.toList ++ ['"']))

def attributesChars (attributes : List (String × String)) : List Char :=
  attributes.flatMap attributeChars

def tagEnd (selfClosed : Bool) : List Char := if selfClosed then ['/', '>'] else ['>']

def openChars (tag : String) (attributes : List (String × String)) (selfClosed : Bool) :
    List Char :=
  '<' :: (tag.toList ++ (attributesChars attributes ++ tagEnd selfClosed))

def closeChars (tag : String) : List Char := '<' :: '/' :: (tag.toList ++ ['>'])

def attributeToken (a : String × String) : QName × List Char :=
  (⟨"", a.1⟩, escapeChars a.2.toList)

def openToken (tag : String) (attributes : List (String × String)) (selfClosed : Bool) : Token :=
  .openTag ⟨"", tag⟩ (attributes.map attributeToken) selfClosed

def closeToken (tag : String) : Token := .closeTag ⟨"", tag⟩

def keptAttributes (attributes : List (String × String)) : List (String × String) :=
  attributes.filter (·.1 ≠ "xmlns")

/-- A text with its tokens and the nodes that it stands for. -/
inductive Spells : List Char → List Token → List Node → Prop
  | nil : Spells [] [] []
  | text {raw cs : List Char} {s : String} {ts : List Token} {ns : List Node} (hne : raw ≠ [])
      (hlt : '<' ∉ raw) (hgt : '>' ∉ raw) (hlegal : ∀ c ∈ raw, isXmlChar c = true)
      (hdata : characterData? raw = some s) (hnext : ∀ n ∈ ns.head?, n.isElement = true) :
      Spells cs ts ns → Spells (raw ++ cs) (.text raw :: ts) (.text s :: ns)
  | empty {tag : String} {attributes : List (String × String)} {cs : List Char} {ts : List Token}
      {ns : List Node} (ht : IsTag tag attributes) :
      Spells cs ts ns → Spells (openChars tag attributes true ++ cs)
        (openToken tag attributes true :: ts) (.element tag (keptAttributes attributes) [] :: ns)
  | element {tag : String} {attributes : List (String × String)} {inner cs : List Char}
      {its ts : List Token} {children ns : List Node} (ht : IsTag tag attributes) :
      Spells inner its children → Spells cs ts ns →
      Spells (openChars tag attributes false ++ (inner ++ (closeChars tag ++ cs)))
        (openToken tag attributes false :: (its ++ closeToken tag :: ts))
        (.element tag (keptAttributes attributes) children :: ns)

variable {cs rest : List Char} {ts : List Token} {ns : List Node} {tag : String}
  {attributes : List (String × String)}

section Words

theorem isNameStart_of_isLetter {c : Char} (h : isLetter c = true) : isNameStart c = true := by
  simp only [isLetter, Bool.or_eq_true] at h
  rcases h with h | h <;> simp [isNameStart, h]

theorem isNameChar_of_isLetter {c : Char} (h : isLetter c = true) : isNameChar c = true := by
  simp [isNameChar, isNameStart_of_isLetter h]

theorem isXmlChar_of_isLetter {c : Char} (h : isLetter c = true) : isXmlChar c = true := by
  simp only [isLetter, Bool.or_eq_true, Bool.and_eq_true, decide_eq_true_eq, Char.le_def,
    UInt32.le_iff_toNat_le, Char.reduceVal, UInt32.reduceToNat] at h
  have hn : 65 ≤ c.toNat ∧ c.toNat ≤ 122 := by
    unfold Char.toNat
    omega
  simp only [isXmlChar]
  split
  · omega
  · simp only [Bool.and_eq_true, bne_iff_ne]
    omega

theorem IsWord.ne {s : String} (h : IsWord s) {c x : Char} (hc : c ∈ s.toList)
    (hx : isLetter x = false) : c ≠ x := by
  rintro rfl
  rw [h.2 c hc] at hx
  cases hx

theorem takeQName?_word {s : String} (h : IsWord s) (hr : ∀ c ∈ rest.head?, isNameChar c = false) :
    takeQName? (s.toList ++ rest) = some (⟨"", s⟩, rest) := by
  obtain ⟨htake, hdrop⟩ := takeWhile_append_stop
    (fun c hc => isNameChar_of_isLetter (h.2 c hc)) hr
  have hcolon : ∀ c ∈ s.toList, (c != ':') = true := by
    intro c hc
    simpa using h.ne hc (x := ':') (by decide)
  obtain ⟨hhead, hlabel⟩ := takeWhile_self hcolon
  have hstart : startsName s.toList = true := by
    cases hs : s.toList with
    | nil => exact absurd hs h.1
    | cons c cs => exact isNameStart_of_isLetter (h.2 c (by rw [hs]; exact List.mem_cons_self))
  simp [takeQName?, htake, hdrop, hhead, hlabel, hstart]

end Words

section Tags

theorem takeQuoted?_escapeChars (value : List Char) :
    takeQuoted? ('"' :: (escapeChars value ++ '"' :: rest)) = some (escapeChars value, rest) := by
  have hquote : '"' ∉ escapeChars value := not_mem_escapeChars (by decide) (by decide)
  have hlt : '<' ∉ escapeChars value := not_mem_escapeChars (by decide) (by decide)
  have hplain : ∀ c ∈ escapeChars value, (c != '"' && c != '<') = true := by
    intro c hc
    simp only [Bool.and_eq_true, bne_iff_ne]
    exact ⟨fun he => hquote (he ▸ hc), fun he => hlt (he ▸ hc)⟩
  have hstop : ∀ c ∈ ('"' :: rest).head?, (c != '"' && c != '<') = false := by simp
  obtain ⟨htake, hdrop⟩ := takeWhile_append_stop hplain hstop
  simp [takeQuoted?, htake, hdrop]

theorem takeAttribute?_attributeChars {a : String × String} (h : IsWord a.1) (rest : List Char) :
    takeAttribute? (a.1.toList ++ '=' :: '"' :: (escapeChars a.2.toList ++ '"' :: rest)) =
      some (attributeToken a, rest) := by
  rw [takeAttribute?, takeQName?_word h (fun c hc => by cases hc; decide), Option.bind_some]
  have hequals : skipSpaces ('=' :: '"' :: (escapeChars a.2.toList ++ '"' :: rest)) =
      '=' :: '"' :: (escapeChars a.2.toList ++ '"' :: rest) := rfl
  have hquote : skipSpaces ('"' :: (escapeChars a.2.toList ++ '"' :: rest)) =
      '"' :: (escapeChars a.2.toList ++ '"' :: rest) := rfl
  simp only [hequals, hquote, takeQuoted?_escapeChars]
  rfl

theorem length_le_attributesChars (attributes : List (String × String)) :
    attributes.length ≤ (attributesChars attributes).length := by
  induction attributes with
  | nil => exact Nat.zero_le _
  | cons a attributes ih =>
    have hsplit : attributesChars (a :: attributes) =
        attributeChars a ++ attributesChars attributes := rfl
    rw [hsplit, List.length_append, List.length_cons]
    simp only [attributeChars, List.length_cons]
    omega

theorem takeAttributes?_attributesChars (h : ∀ a ∈ attributes, IsWord a.1) (selfClosed : Bool)
    (rest : List Char) : ∀ fuel, attributes.length < fuel →
      takeAttributes? fuel (attributesChars attributes ++ (tagEnd selfClosed ++ rest)) =
        some (attributes.map attributeToken, selfClosed, rest) := by
  induction attributes with
  | nil =>
    intro fuel hf
    obtain ⟨fuel, rfl⟩ : ∃ n, fuel = n + 1 := ⟨fuel - 1, by omega⟩
    cases selfClosed <;> rfl
  | cons a attributes ih =>
    intro fuel hf
    obtain ⟨fuel, rfl⟩ : ∃ n, fuel = n + 1 := ⟨fuel - 1, by omega⟩
    have hword := h a List.mem_cons_self
    have hrest := ih (fun b hb => h b (List.mem_cons_of_mem _ hb)) fuel (by simpa using hf)
    have hsplit : attributesChars (a :: attributes) ++ (tagEnd selfClosed ++ rest) =
        ' ' :: (a.1.toList ++ '=' :: '"' :: (escapeChars a.2.toList ++
          '"' :: (attributesChars attributes ++ (tagEnd selfClosed ++ rest)))) := by
      simp [attributesChars, attributeChars]
    rw [hsplit]
    have htake := takeAttribute?_attributeChars hword
      (attributesChars attributes ++ (tagEnd selfClosed ++ rest))
    -- The name begins with a letter, so the tag does not end here.
    cases hs : a.1.toList with
    | nil => exact absurd hs hword.1
    | cons c cs =>
      have hc : c ∈ a.1.toList := by
        rw [hs]
        exact List.mem_cons_self
      have hslash : c ≠ '/' := hword.ne hc (by decide)
      have hend : c ≠ '>' := hword.ne hc (by decide)
      have hspace : isSpace c = false := by
        simp [isSpace, hword.ne hc (x := ' ') (by decide), hword.ne hc (x := '\t') (by decide),
          hword.ne hc (x := '\n') (by decide), hword.ne hc (x := '\r') (by decide)]
      rw [hs] at htake
      simp only [takeAttributes?, skipSpaces, List.cons_append]
      rw [List.dropWhile_cons_of_pos (by decide), List.dropWhile_cons_of_neg (by simp [hspace])]
      split
      · next heq => exact absurd (List.cons.inj heq).1 hslash
      · next heq => exact absurd (List.cons.inj heq).1 hend
      · rw [List.cons_append] at htake
        simp only [List.head?_cons, Option.map_some, Option.getD_some, htake, Option.bind_some]
        rw [if_pos (by decide), hrest]
        rfl

end Tags

section Tokens

theorem takeToken?_open (ht : IsTag tag attributes) (selfClosed : Bool) :
    takeToken? (openChars tag attributes selfClosed ++ rest) =
      some (openToken tag attributes selfClosed, rest) := by
  have hhead : ∀ c ∈ (attributesChars attributes ++ (tagEnd selfClosed ++ rest)).head?,
      isNameChar c = false := by
    intro c hc
    cases attributes with
    | nil => cases selfClosed <;> (cases hc; decide)
    | cons a attributes =>
      cases hc
      decide
  have hname := takeQName?_word ht.word hhead
  have hattributes := takeAttributes?_attributesChars ht.words selfClosed rest
    ((attributesChars attributes ++ (tagEnd selfClosed ++ rest)).length + 1) (by
      have hlength := length_le_attributesChars attributes
      rw [List.length_append]
      omega)
  have hsplit : openChars tag attributes selfClosed ++ rest =
      '<' :: (tag.toList ++ (attributesChars attributes ++ (tagEnd selfClosed ++ rest))) := by
    simp [openChars]
  rw [hsplit]
  cases hs : tag.toList with
  | nil => exact absurd hs ht.word.1
  | cons c cs =>
    have hc : c ∈ tag.toList := by
      rw [hs]
      exact List.mem_cons_self
    rw [hs, List.cons_append] at hname
    have hbang : c ≠ '!' := ht.word.ne hc (by decide)
    have hquery : c ≠ '?' := ht.word.ne hc (by decide)
    have hslash : c ≠ '/' := ht.word.ne hc (by decide)
    rw [List.cons_append, takeToken?]
    · simp only [hname, Option.bind_some, hattributes]
      rfl
    all_goals simp [hbang, hquery, hslash]

theorem takeToken?_close (ht : IsWord tag) :
    takeToken? (closeChars tag ++ rest) = some (closeToken tag, rest) := by
  have hend : ∀ c ∈ ('>' :: rest).head?, isNameChar c = false := by
    intro c hc
    cases hc
    decide
  have hname := takeQName?_word ht hend
  have hsplit : closeChars tag ++ rest = '<' :: '/' :: (tag.toList ++ '>' :: rest) := by
    simp [closeChars]
  rw [hsplit, takeToken?, hname]
  rfl

theorem occurs_eq_false {mark cs : List Char} {c : Char} (hm : c ∈ mark) (hc : c ∉ cs) :
    occurs mark cs = false := by
  have hnone : breakOn? mark cs = none := by
    induction cs with
    | nil => rfl
    | cons x cs ih =>
      have hfront : mark.isPrefixOf (x :: cs) = false := by
        rw [← Bool.not_eq_true, List.isPrefixOf_iff_prefix]
        exact fun h => hc (h.subset hm)
      rw [breakOn?, if_neg (by simp [hfront]), ih fun h => hc (List.mem_cons_of_mem _ h)]
      rfl
  rw [occurs, hnone]
  rfl

theorem takeToken?_text {raw : List Char} (hne : raw ≠ []) (hlt : '<' ∉ raw) (hgt : '>' ∉ raw)
    (hr : ∀ c ∈ rest.head?, c = '<') : takeToken? (raw ++ rest) = some (.text raw, rest) := by
  have hplain : ∀ c ∈ raw, (c != '<') = true := by
    intro c hc
    simpa using fun he : c = '<' => hlt (he ▸ hc)
  have hstop : ∀ c ∈ rest.head?, (c != '<') = false := by
    intro c hc
    simp [hr c hc]
  obtain ⟨htake, hdrop⟩ := takeWhile_append_stop hplain hstop
  have hmark : occurs "]]>".toList raw = false := occurs_eq_false (c := '>') (by decide) hgt
  cases raw with
  | nil => exact absurd rfl hne
  | cons c raw =>
    have hc : c ≠ '<' := fun he => hlt (he ▸ List.mem_cons_self)
    rw [List.cons_append, takeToken?]
    · rw [List.cons_append] at htake hdrop
      simp only [htake, hdrop, hmark]
      rfl
    all_goals simp [hc]

end Tokens

def Lexes (cs : List Char) (ts : List Token) : Prop :=
  ∀ fuel, cs.length ≤ fuel → tokensWithin fuel cs = some ts

theorem lexes_nil : Lexes [] [] := by
  intro fuel _
  cases fuel <;> rfl

theorem Lexes.cons {t : Token} {word : List Char} (hw : word ≠ [])
    (ht : takeToken? (word ++ rest) = some (t, rest)) (h : Lexes rest ts) :
    Lexes (word ++ rest) (t :: ts) := by
  intro fuel hf
  have hpos := List.length_pos_iff.mpr hw
  rw [List.length_append] at hf
  obtain ⟨fuel, rfl⟩ : ∃ n, fuel = n + 1 := ⟨fuel - 1, by omega⟩
  cases word with
  | nil => exact absurd rfl hw
  | cons c word =>
    rw [List.cons_append] at ht ⊢
    have hfuel : tokensWithin fuel rest = some ts := by
      rw [List.length_cons] at hf
      exact h fuel (by omega)
    rw [tokensWithin, ht]
    · simp [hfuel]
    · simp

theorem Spells.head (h : Spells cs ts ns) (hn : ∀ n ∈ ns.head?, n.isElement = true)
    (hr : ∀ c ∈ rest.head?, c = '<') : ∀ c ∈ (cs ++ rest).head?, c = '<' := by
  intro c hc
  cases h with
  | nil => exact hr c hc
  | text => exact absurd (hn _ rfl) (by simp [Node.isElement])
  | empty => exact (Option.some.inj hc).symm
  | element => exact (Option.some.inj hc).symm

theorem Spells.lexes (h : Spells cs ts ns) {more : List Token} (hr : ∀ c ∈ rest.head?, c = '<')
    (hm : Lexes rest more) : Lexes (cs ++ rest) (ts ++ more) := by
  induction h generalizing rest more with
  | nil => exact hm
  | text hne hlt hgt _ _ hnext hrest ih =>
    rw [List.append_assoc]
    exact (ih hr hm).cons hne (takeToken?_text hne hlt hgt (hrest.head hnext hr))
  | empty ht _ ih =>
    rw [List.append_assoc]
    exact (ih hr hm).cons (List.cons_ne_nil _ _) (takeToken?_open ht true)
  | element ht _ _ ihInner ih =>
    rename_i tag attributes inner cs its ts children ns hinner hrest
    have hclose : Lexes (closeChars tag ++ (cs ++ rest)) (closeToken tag :: (ts ++ more)) :=
      (ih hr hm).cons (List.cons_ne_nil _ _) (takeToken?_close ht.word)
    have hslash : ∀ c ∈ (closeChars tag ++ (cs ++ rest)).head?, c = '<' :=
      fun c hc => (Option.some.inj hc).symm
    have hinside := ihInner hslash hclose
    have hwhole := hinside.cons (List.cons_ne_nil _ _) (takeToken?_open ht false)
    rw [List.append_assoc, List.append_assoc, List.append_assoc, List.cons_append,
      List.append_assoc]
    exact hwhole

theorem isXmlChar_of_isWord {s : String} (h : IsWord s) : ∀ c ∈ s.toList, isXmlChar c = true :=
  fun c hc => isXmlChar_of_isLetter (h.2 c hc)

theorem IsTag.legal_open (ht : IsTag tag attributes) (selfClosed : Bool) :
    ∀ c ∈ openChars tag attributes selfClosed, isXmlChar c = true := by
  intro c hc
  simp only [openChars, attributesChars, List.mem_cons, List.mem_append, List.mem_flatMap] at hc
  rcases hc with rfl | hc | ⟨a, ha, hc⟩ | hc
  · decide
  · exact isXmlChar_of_isWord ht.word c hc
  · simp only [attributeChars, List.mem_cons, List.mem_append, List.not_mem_nil, or_false] at hc
    rcases hc with rfl | hc | rfl | rfl | hc | rfl
    · decide
    · exact isXmlChar_of_isWord (ht.words a ha) c hc
    · decide
    · decide
    · exact isXmlChar_of_mem_escapeChars (ht.legal a ha) c hc
    · decide
  · have hend : (tagEnd selfClosed).all isXmlChar = true := by cases selfClosed <;> decide
    exact List.all_eq_true.mp hend c hc

/-- White space between the parts of an element: a line end, then the next indentation. -/
def gap (depth : Nat) : List Char := '\n' :: List.replicate (2 * depth) ' '

theorem eq_of_mem_gap {depth : Nat} {c : Char} (h : c ∈ gap depth) : c = '\n' ∨ c = ' ' := by
  rcases List.mem_cons.mp h with h | h
  · exact .inl h
  · exact .inr (List.eq_of_mem_replicate h)

theorem not_mem_gap {depth : Nat} {c : Char} (hn : c ≠ '\n') (hs : c ≠ ' ') : c ∉ gap depth :=
  fun h => (eq_of_mem_gap h).elim hn hs

theorem Spells.gap (depth : Nat) (hnext : ∀ n ∈ ns.head?, n.isElement = true)
    (h : Spells cs ts ns) : Spells (gap depth ++ cs) (.text (gap depth) :: ts)
      (.text (String.ofList (gap depth)) :: ns) := by
  refine .text (List.cons_ne_nil _ _) (not_mem_gap (by decide) (by decide))
    (not_mem_gap (by decide) (by decide)) (fun c hc => ?_) ?_ hnext h
  · rcases eq_of_mem_gap hc with rfl | rfl <;> decide
  · exact characterData?_of_not_mem (not_mem_gap (by decide) (by decide))
      (not_mem_gap (by decide) (by decide))

theorem Spells.legal (h : Spells cs ts ns) : ∀ c ∈ cs, isXmlChar c = true := by
  induction h with
  | nil => exact fun c hc => (by cases hc)
  | text _ _ _ hlegal _ _ _ ih =>
    intro c hc
    exact (List.mem_append.mp hc).elim (hlegal c) (ih c)
  | empty ht _ ih =>
    intro c hc
    exact (List.mem_append.mp hc).elim (ht.legal_open true c) (ih c)
  | element ht _ _ ihInner ih =>
    intro c hc
    simp only [List.mem_append, closeChars, List.mem_cons, List.not_mem_nil, or_false] at hc
    rcases hc with hc | hc | (rfl | rfl | hc | rfl) | hc
    · exact ht.legal_open false c hc
    · exact ihInner c hc
    · decide
    · decide
    · exact isXmlChar_of_isWord ht.word c hc
    · decide
    · exact ih c hc

end PagedNets.Xml
