import PagedNets.Proofs.Pnml.Elements

set_option autoImplicit false

namespace PagedNets

def IsLegal (s : String) : Prop := ∀ c ∈ s.toList, Xml.isXmlChar c = true

instance (s : String) : Decidable (IsLegal s) :=
  decidable_of_iff (s.toList.all Xml.isXmlChar = true) List.all_eq_true

instance (s : String) : Decidable (Xml.IsWord s) :=
  decidable_of_iff (s.toList ≠ [] ∧ s.toList.all Xml.isLetter = true)
    (and_congr_right fun _ => List.all_eq_true)

def Document.IsLegal (d : Document) : Prop :=
  ∀ o ∈ d.toList, PagedNets.IsLegal o.id.text ∧ ∀ s ∈ o.name, PagedNets.IsLegal s

instance (d : Document) : Decidable d.IsLegal :=
  inferInstanceAs (Decidable (∀ o ∈ d.toList, IsLegal o.id.text ∧ ∀ s ∈ o.name, IsLegal s))

namespace Pnml

open Xml (Markup Inline IsTag IsWord)

section Leaves

theorem isTag_of_names {tag : String} {attributes : List (String × String)} (names : List String)
    (hn : attributes.map (·.1) = names)
    (hw : IsWord tag ∧ (∀ a ∈ names, IsWord a ∧ a ≠ "xmlns") ∧ names.Nodup)
    (hl : ∀ a ∈ attributes, IsLegal a.2) : IsTag tag attributes := by
  obtain ⟨htag, hwords, hdistinct⟩ := hw
  subst hn
  constructor
  · exact htag
  · exact fun a ha => (hwords a.1 (List.mem_map_of_mem ha)).1
  · exact hl
  · exact hdistinct
  · exact fun a ha he => absurd he (hwords a.1 (List.mem_map_of_mem ha)).2

theorem isTag_plain {tag : String} (h : IsWord tag) : IsTag tag [] :=
  isTag_of_names [] rfl ⟨h, fun _ ha => (by cases ha), .nil⟩ fun _ ha => by cases ha

theorem isXmlChar_of_isDigit {c : Char} (h : Decimal.isDigit c = true) :
    Xml.isXmlChar c = true := by
  have hn := Decimal.toNat_of_isDigit h
  simp only [Xml.isXmlChar]
  split
  · omega
  · simp only [Bool.and_eq_true, bne_iff_ne]
    omega

theorem isLegal_coordinateText {x : Float} (h : x.isFinite = true) :
    IsLegal (coordinateText x) := by
  intro c hc
  rcases Decimal.mem_toList_text h hc with rfl | hc | rfl
  · decide
  · exact isXmlChar_of_isDigit hc
  · decide

theorem toList_natText_ne_nil (n : Nat) : (Decimal.natText n).toList ≠ [] := by
  rw [Decimal.natText, String.toList_ofList]
  exact Decimal.digits_ne_nil n

theorem isLegal_natText (n : Nat) : IsLegal (Decimal.natText n) :=
  fun _ hc => isXmlChar_of_isDigit (Decimal.isDigit_of_mem_natText hc)

theorem isSound_pointElement {tag : String} {p : Point} (ht : IsWord tag)
    (hf : p.isFinite = true) : (pointElement tag p).IsSound := by
  simp only [Point.isFinite, Bool.and_eq_true] at hf
  rw [pointElement, Inline.IsSound]
  refine isTag_of_names ["x", "y"] rfl ⟨ht, by decide, by decide⟩ fun a ha => ?_
  simp only [List.mem_cons, List.not_mem_nil, or_false] at ha
  rcases ha with rfl | rfl
  · exact isLegal_coordinateText hf.1
  · exact isLegal_coordinateText hf.2

theorem isSound_pointLine {tag : String} {p : Point} (ht : IsWord tag) (hf : p.isFinite = true) :
    (Markup.line (pointElement tag p)).IsSound := by
  rw [Markup.IsSound]
  exact ⟨isSound_pointElement ht hf, rfl⟩

theorem isSound_text {text : String} (hne : text.toList ≠ []) (hl : IsLegal text) :
    Inline.AreSound [.text text] := by
  simp only [Inline.AreSound, Inline.IsSound, List.head?_nil]
  exact ⟨⟨hne, hl⟩, trivial, fun _ j hj => by cases hj⟩

theorem isSound_wrap {tag : String} {i : Inline} (ht : IsWord tag) (hi : i.IsSound)
    (_ : i.isText = false) : (Inline.element tag [] [i]).IsSound := by
  simp only [Inline.IsSound, Inline.AreSound, List.head?_nil]
  exact ⟨isTag_plain ht, hi, trivial, fun _ j hj => by cases hj⟩

theorem isSound_textElement {text : String} (hne : text.toList ≠ []) (hl : IsLegal text) :
    (Inline.element "text" [] [.text text]).IsSound := by
  rw [Inline.IsSound]
  exact ⟨isTag_plain (by decide), isSound_text hne hl⟩

theorem isSound_line {tag : String} {attributes : List (String × String)} {content : List Inline}
    (h : (Inline.element tag attributes content).IsSound) :
    (Markup.line (.element tag attributes content)).IsSound := by
  rw [Markup.IsSound]
  exact ⟨h, rfl⟩

theorem isSound_nameMarkup {name : Option String} (h : ∀ s ∈ name, IsLegal s) {m : Markup}
    (hm : m ∈ nameMarkup name) : m.IsSound := by
  rcases nameMarkup_cases name with ⟨_, hnone⟩ | ⟨text, hne, htext, hsome⟩
  · rw [hnone] at hm
    cases hm
  · rw [hsome] at hm
    rw [List.mem_singleton.mp hm]
    have htext := (Option.filter_eq_some_iff.mp htext).1
    have hnonempty : text.toList ≠ [] := by
      intro he
      rw [String.toList_eq_nil_iff.mp he] at hne
      cases hne
    exact isSound_line (isSound_wrap (by decide)
      (isSound_textElement hnonempty (h text htext)) rfl)

theorem isSound_graphicsMarkup {data : NodeData} (hf : data.isFinite = true) :
    (graphicsMarkup data).IsSound := by
  simp only [NodeData.isFinite, Bool.and_eq_true] at hf
  rw [graphicsMarkup, Markup.IsSound, Markup.AreSound, Markup.AreSound, Markup.AreSound]
  exact ⟨isTag_plain (by decide), isSound_pointLine (by decide) hf.1,
    isSound_pointLine (by decide) hf.2, trivial⟩

theorem isSound_markingMarkup {p : Place} (hf : p.markingOffset.isFinite = true) {m : Markup}
    (hm : m ∈ markingMarkup p) : m.IsSound := by
  unfold markingMarkup at hm
  split at hm
  · cases hm
  · rw [List.mem_singleton.mp hm, Markup.IsSound, Markup.AreSound, Markup.AreSound,
      Markup.AreSound]
    have htokens := isSound_textElement (toList_natText_ne_nil p.tokens.toNat)
      (isLegal_natText p.tokens.toNat)
    exact ⟨isTag_plain (by decide), isSound_line htokens,
      isSound_line (isSound_wrap (by decide)
        (isSound_pointElement (by decide) hf) rfl), trivial⟩

end Leaves

theorem isSound_block {tag : String} {attributes : List (String × String)} {parts : List Markup}
    (h : IsTag tag attributes) (hparts : ∀ m ∈ parts, m.IsSound) :
    (Markup.block tag attributes parts).IsSound := by
  rw [Markup.IsSound]
  exact ⟨h, Markup.areSound_iff.mpr hparts⟩

section Objects

theorem isSound_nodeMarkup {tag aliasTag : String} {id : ObjectId} {data : NodeData}
    {parts : List Markup} (ht : IsWord tag ∧ IsWord aliasTag) (hid : IsLegal id.text)
    (href : ∀ r, data.reference = some r → IsLegal r.text) (hparts : ∀ m ∈ parts, m.IsSound) :
    (nodeMarkup tag aliasTag id data parts).IsSound := by
  unfold nodeMarkup
  split
  · refine isSound_block (isTag_of_names ["id"] rfl ⟨ht.1, by decide, by decide⟩ ?_) hparts
    intro a ha
    rw [List.mem_singleton.mp ha]
    exact hid
  · next r hr =>
    refine isSound_block (isTag_of_names ["id", "ref"] rfl ⟨ht.2, by decide, by decide⟩ ?_) hparts
    intro a ha
    simp only [List.mem_cons, List.not_mem_nil, or_false] at ha
    rcases ha with rfl | rfl
    · exact hid
    · exact href r hr

theorem isSound_nodeElement? {o : Object} {m : Markup} (hm : nodeElement? o = some m)
    (hid : IsLegal o.id.text) (hname : ∀ s ∈ o.name, IsLegal s)
    (href : ∀ r, o.reference? = some r → IsLegal r.text) (hf : o.IsFinite) : m.IsSound := by
  cases o with
  | place p =>
    cases hm
    refine isSound_nodeMarkup ⟨by decide, by decide⟩ hid href fun m hm => ?_
    rcases List.mem_append.mp hm with hm | hm
    · exact isSound_nameMarkup hname hm
    · rcases List.mem_cons.mp hm with rfl | hm
      · exact isSound_graphicsMarkup hf.1
      · exact isSound_markingMarkup hf.2 hm
  | transition t =>
    cases hm
    refine isSound_nodeMarkup ⟨by decide, by decide⟩ hid href fun m hm => ?_
    rcases List.mem_append.mp hm with hm | hm
    · exact isSound_nameMarkup hname hm
    · rw [List.mem_singleton.mp hm]
      exact isSound_graphicsMarkup hf
  | _ => cases hm

theorem isSound_curveMarkup {curve : List Point} (hf : curve.all Point.isFinite = true)
    {m : Markup} (hm : m ∈ curveMarkup curve) : m.IsSound := by
  rw [eq_curveBlock hm]
  refine isSound_block (isTag_plain (by decide)) fun m hm => ?_
  obtain ⟨p, hp, rfl⟩ := List.mem_map.mp hm
  exact isSound_pointLine (by decide) (List.all_eq_true.mp hf p hp)

theorem isSound_kindMarkup {k : ArcKind} {m : Markup} (hm : m ∈ kindMarkup k) : m.IsSound := by
  cases k with
  | normal => cases hm
  | read =>
    rw [List.mem_singleton.mp hm, Markup.IsSound, Inline.IsSound]
    refine ⟨isTag_of_names ["value"] rfl ⟨by decide, by decide, by decide⟩ fun a ha => ?_, rfl⟩
    rw [List.mem_singleton.mp ha]
    decide

theorem isSound_arcMarkup {a : Arc} (hid : IsLegal a.id.text) (hname : ∀ s ∈ a.name, IsLegal s)
    (hsource : IsLegal a.source.text) (htarget : IsLegal a.target.text)
    (hf : (Object.arc a).IsFinite) : (arcMarkup a).IsSound := by
  refine isSound_block (isTag_of_names ["id", "source", "target"] rfl
    ⟨by decide, by decide, by decide⟩ fun x hx => ?_) fun m hm => ?_
  · simp only [List.mem_cons, List.not_mem_nil, or_false] at hx
    rcases hx with rfl | rfl | rfl
    · exact hid
    · exact hsource
    · exact htarget
  · simp only [List.mem_append] at hm
    rcases hm with (hm | hm) | hm
    · exact isSound_nameMarkup hname hm
    · exact isSound_curveMarkup hf hm
    · exact isSound_kindMarkup hm

end Objects

section Documents

variable {d : Document} {i : ObjectId}

theorem legal_of_object? (hr : d.Registered) (hl : d.IsLegal) {o : Object}
    (ho : d.object? i = some o) : IsLegal i.text ∧ ∀ s ∈ o.name, IsLegal s := by
  have hid := hr.id_of_object? ho
  subst hid
  exact hl o (hr.mem_toList.mpr ho)

variable (hd : d.Reachable Edit.IsPlain) (hfin : d.Finite) (hl : d.IsLegal)
include hd hl

theorem legal_of_refersTo {r : ObjectId} (h : d.RefersTo i r) : IsLegal r.text := by
  obtain ⟨k, _, hk⟩ := hd.aliased.sameKind i r h
  obtain ⟨o, ho, _⟩ := Option.map_eq_some_iff.mp hk
  exact (legal_of_object? hd.registered hl ho).1

include hfin

theorem isSound_nodesMarkup {p : Page} {m : Markup} (hm : m ∈ nodesMarkup d p) : m.IsSound := by
  have hr := hd.registered
  obtain ⟨i, _, hi⟩ := List.mem_filterMap.mp hm
  obtain ⟨o, ho, hm⟩ := Option.bind_eq_some_iff.mp hi
  obtain ⟨hid, hname⟩ := legal_of_object? hr hl ho
  rw [← hr.id_of_object? ho] at hid
  refine isSound_nodeElement? hm hid hname (fun r href => ?_) (hfin i o ho)
  have hrefers : d.RefersTo i r := by
    rw [Document.RefersTo, Document.refersTo?, ho]
    exact href
  exact legal_of_refersTo hd hl hrefers

theorem isSound_arcsMarkup {c : ObjectId} {p : Page} (hp : d.page? c = some p) {m : Markup}
    (hm : m ∈ arcsMarkup d p) : m.IsSound := by
  have hr := hd.registered
  obtain ⟨i, hi, hm⟩ := List.mem_filterMap.mp hm
  obtain ⟨a, ha, rfl⟩ := Option.map_eq_some_iff.mp hm
  have ho := Document.arc?_eq_some_iff.mp ha
  obtain ⟨hid, hname⟩ := legal_of_object? hr hl ho
  rw [← hr.id_of_object? ho] at hid
  obtain ⟨b, hb, _, hs, ht⟩ := hd.ends_on_page hp hi
  rw [ho] at hb
  cases hb
  have hends : ∀ j ∈ p.nodes.keys, IsLegal j.text := by
    intro j hj
    have hc := Document.contained_of_tabled hr hd.tabled
    obtain ⟨x, hx, _⟩ := ((hc.nodes c p hp).2 j).mp hj
    exact (legal_of_object? hr hl hx).1
  exact isSound_arcMarkup hid hname (hends _ hs) (hends _ ht) (hfin i _ ho)

theorem isSound_pagesMarkup (fuel : Nat) (keys : List ObjectId) :
    ∀ m ∈ pagesMarkup d (d.unfold fuel keys), m.IsSound := by
  induction fuel generalizing keys with
  | zero =>
    induction keys with
    | nil => exact fun m hm => by cases hm
    | cons k keys ihk => exact ihk
  | succ fuel ih =>
    induction keys with
    | nil => exact fun m hm => by cases hm
    | cons k keys ihk =>
      intro m hm
      rw [Document.unfold, List.map_cons, ← Document.unfold, pagesMarkup, List.mem_append] at hm
      rcases hm with hm | hm
      · cases hp : d.page? k with
        | none =>
          rw [hp] at hm
          cases hm
        | some p =>
          rw [hp, pageMarkup, List.mem_singleton] at hm
          have ho := Document.page?_eq_some_iff.mp hp
          obtain ⟨hid, hname⟩ := legal_of_object? hd.registered hl ho
          rw [← hd.registered.id_of_object? ho] at hid
          rw [hm]
          refine isSound_block (isTag_of_names ["id"] rfl ⟨by decide, by decide, by decide⟩
            fun a ha => ?_) fun m hm => ?_
          · rw [List.mem_singleton.mp ha]
            exact hid
          · simp only [List.mem_append] at hm
            rcases hm with ((hm | hm) | hm) | hm
            · exact isSound_nameMarkup hname hm
            · exact isSound_nodesMarkup hd hfin hl hm
            · exact isSound_arcsMarkup hd hfin hl hp hm
            · exact ih p.pages m hm
      · exact ihk m hm

theorem isSound_markup : (markup d).IsSound := by
  have hr := hd.registered
  refine isSound_block ?_ fun m hm => ?_
  · constructor
    · decide
    · exact fun a ha => by rw [List.mem_singleton.mp ha]; decide
    · exact fun a ha => by rw [List.mem_singleton.mp ha]; exact (by decide : IsLegal pnmlNamespace)
    · simp
    · exact fun a ha _ => by rw [List.mem_singleton.mp ha]; decide
  · obtain ⟨n, hn, rfl⟩ := List.mem_map.mp hm
    obtain ⟨hid, hname⟩ := legal_of_object? hr hl
      (Document.net?_eq_some_iff.mp ((Document.mem_nets hr).mp hn))
    refine isSound_block (isTag_of_names ["id", "type"] rfl ⟨by decide, by decide, by decide⟩
      fun a ha => ?_) fun m hm => ?_
    · simp only [List.mem_cons, List.not_mem_nil, or_false] at ha
      rcases ha with rfl | rfl
      · exact hid
      · cases n.format <;> decide
    · rcases List.mem_append.mp hm with hm | hm
      · exact isSound_nameMarkup hname hm
      · exact isSound_pagesMarkup hd hfin hl _ _ m hm

end Documents

end Pnml

end PagedNets
