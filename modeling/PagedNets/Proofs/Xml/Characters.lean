import PagedNets.Xml.Tree

/-!
The characters of a tree. Whatever a document consists of, the values of attributes and the texts in
its tree are made of characters that XML allows: the lexer only cuts the text into pieces, the
normalisation of white space puts in blanks and line ends, and no reference stands for a character
that could not stand there itself.
-/

set_option autoImplicit false

namespace PagedNets.Xml

def Legal (cs : List Char) : Prop := ∀ c ∈ cs, isXmlChar c = true

theorem Legal.mono {cs ds : List Char} (h : Legal cs) (hd : ds ⊆ cs) : Legal ds :=
  fun c hc => h c (hd hc)

theorem legal_nil : Legal [] := fun c hc => by cases hc

theorem legal_cons {c : Char} {cs : List Char} :
    Legal (c :: cs) ↔ isXmlChar c = true ∧ Legal cs := List.forall_mem_cons

theorem legal_append {cs ds : List Char} : Legal (cs ++ ds) ↔ Legal cs ∧ Legal ds :=
  List.forall_mem_append

section Lexing

variable {cs rest : List Char}

theorem dropWhile_subset (p : Char → Bool) (cs : List Char) : cs.dropWhile p ⊆ cs :=
  (List.dropWhile_sublist p).subset

theorem subset_of_dropWhile {p : Char → Bool} {c : Char} {cs rest : List Char}
    (h : cs.dropWhile p = c :: rest) : rest ⊆ cs :=
  List.subset_of_cons_subset (h ▸ dropWhile_subset p cs)

theorem takeWhile_subset (p : Char → Bool) (cs : List Char) : cs.takeWhile p ⊆ cs :=
  (List.takeWhile_sublist p).subset

theorem skipSpaces_subset (cs : List Char) : skipSpaces cs ⊆ cs := dropWhile_subset isSpace cs

theorem breakOn?_subset {mark before : List Char} (h : breakOn? mark cs = some (before, rest)) :
    before ⊆ cs ∧ rest ⊆ cs := by
  induction cs generalizing before with
  | nil => cases h
  | cons c cs ih =>
    rw [breakOn?] at h
    split at h
    · cases h
      exact ⟨List.nil_subset _, (List.drop_sublist _ _).subset⟩
    · obtain ⟨⟨b, r⟩, hbreak, heq⟩ := Option.map_eq_some_iff.mp h
      cases heq
      obtain ⟨hb, hr⟩ := ih hbreak
      exact ⟨List.cons_subset_cons c hb, List.subset_cons_of_subset c hr⟩

theorem takeName?_subset {name : List Char} (h : takeName? cs = some (name, rest)) : rest ⊆ cs := by
  unfold takeName? at h
  split at h
  · cases h
  · split at h
    · cases h
      exact dropWhile_subset _ _
    · cases h

theorem takeQName?_subset {name : QName} (h : takeQName? cs = some (name, rest)) : rest ⊆ cs := by
  unfold takeQName? at h
  dsimp only at h
  split at h <;> split at h
  · cases h
    exact dropWhile_subset _ cs
  · cases h
  · cases h
    exact dropWhile_subset _ cs
  · cases h

theorem takeQuoted?_subset {value : List Char} (h : takeQuoted? cs = some (value, rest)) :
    value ⊆ cs ∧ rest ⊆ cs := by
  cases cs with
  | nil => cases h
  | cons quote cs =>
    rw [takeQuoted?] at h
    split at h
    · split at h
      · next c tail hdrop =>
        split at h
        · cases h
          exact ⟨List.subset_cons_of_subset _ (takeWhile_subset _ cs),
            List.subset_cons_of_subset _ (subset_of_dropWhile hdrop)⟩
        · cases h
      · cases h
    · cases h

theorem takeAttribute?_subset {a : QName × List Char} (h : takeAttribute? cs = some (a, rest)) :
    a.2 ⊆ cs ∧ rest ⊆ cs := by
  obtain ⟨⟨name, r⟩, hname, h⟩ := Option.bind_eq_some_iff.mp h
  have hr : skipSpaces r ⊆ cs :=
    List.Subset.trans (skipSpaces_subset r) (takeQName?_subset hname)
  dsimp only at h
  split at h
  · next tail hspaces =>
    obtain ⟨⟨value, after⟩, hquoted, heq⟩ := Option.map_eq_some_iff.mp h
    cases heq
    obtain ⟨hvalue, hafter⟩ := takeQuoted?_subset hquoted
    have htail : skipSpaces tail ⊆ cs :=
      List.Subset.trans (skipSpaces_subset tail) (List.subset_of_cons_subset (hspaces ▸ hr))
    exact ⟨List.Subset.trans hvalue htail, List.Subset.trans hafter htail⟩
  · cases h

theorem takeAttributes?_subset {fuel : Nat} {attributes : List (QName × List Char)}
    {selfClosed : Bool} (h : takeAttributes? fuel cs = some (attributes, selfClosed, rest)) :
    (∀ a ∈ attributes, a.2 ⊆ cs) ∧ rest ⊆ cs := by
  induction fuel generalizing cs attributes with
  | zero => cases h
  | succ fuel ih =>
    rw [takeAttributes?.eq_def] at h
    have hspaces := skipSpaces_subset cs
    dsimp only at h
    split at h
    · next r hr =>
      cases h
      rw [hr] at hspaces
      exact ⟨fun a ha => (by cases ha), (List.subset_of_cons_subset
        (List.subset_of_cons_subset hspaces))⟩
    · next r hr =>
      cases h
      rw [hr] at hspaces
      exact ⟨fun a ha => (by cases ha), List.subset_of_cons_subset hspaces⟩
    · split at h
      · obtain ⟨⟨first, r⟩, hfirst, h⟩ := Option.bind_eq_some_iff.mp h
        obtain ⟨⟨others, closed, after⟩, hothers, heq⟩ := Option.map_eq_some_iff.mp h
        cases heq
        obtain ⟨hvalue, hr⟩ := takeAttribute?_subset hfirst
        obtain ⟨hvalues, hafter⟩ := ih hothers
        have hrest : r ⊆ cs := List.Subset.trans hr hspaces
        refine ⟨List.forall_mem_cons.mpr ⟨List.Subset.trans hvalue hspaces, fun a ha => ?_⟩,
          List.Subset.trans hafter hrest⟩
        exact List.Subset.trans (hvalues a ha) hrest
      · cases h

def Token.chars : Token → List Char
  | .openTag _ attributes _ => attributes.flatMap (·.2)
  | .text raw => raw
  | .cdata raw => raw
  | _ => []

theorem takeToken?_subset {t : Token} (h : takeToken? cs = some (t, rest)) :
    t.chars ⊆ cs ∧ rest ⊆ cs := by
  unfold takeToken? at h
  split at h
  · next r =>
    obtain ⟨⟨comment, after⟩, hbreak, h⟩ := Option.bind_eq_some_iff.mp h
    dsimp only at h
    split at h
    · cases h
      exact ⟨List.nil_subset _, List.Subset.trans (breakOn?_subset hbreak).2
        (List.subset_append_right ['<', '!', '-', '-'] r)⟩
    · cases h
  · next r _ =>
    split at h
    · obtain ⟨⟨raw, after⟩, hbreak, heq⟩ := Option.map_eq_some_iff.mp h
      cases heq
      obtain ⟨hraw, hafter⟩ := breakOn?_subset hbreak
      have hr : r.drop 7 ⊆ '<' :: '!' :: r :=
        List.Subset.trans (List.drop_sublist 7 r).subset (List.subset_append_right ['<', '!'] r)
      exact ⟨List.Subset.trans hraw hr, List.Subset.trans hafter hr⟩
    · cases h
  · next r =>
    split at h
    · cases h
    · obtain ⟨⟨target, r'⟩, hname, h⟩ := Option.bind_eq_some_iff.mp h
      obtain ⟨⟨content, after⟩, hbreak, heq⟩ := Option.map_eq_some_iff.mp h
      cases heq
      have hr : skipSpaces r' ⊆ r :=
        List.Subset.trans (skipSpaces_subset r') (takeName?_subset hname)
      exact ⟨List.nil_subset _, List.Subset.trans (breakOn?_subset hbreak).2
        (List.Subset.trans hr (List.subset_append_right ['<', '?'] r))⟩
  · next r =>
    obtain ⟨⟨name, r'⟩, hname, h⟩ := Option.bind_eq_some_iff.mp h
    dsimp only at h
    split at h
    · next after hspaces =>
      cases h
      have hr : skipSpaces r' ⊆ r :=
        List.Subset.trans (skipSpaces_subset r') (takeQName?_subset hname)
      rw [hspaces] at hr
      exact ⟨List.nil_subset _, List.Subset.trans (List.subset_of_cons_subset hr)
        (List.subset_append_right ['<', '/'] r)⟩
    · cases h
  · next r _ _ _ _ =>
    obtain ⟨⟨name, r'⟩, hname, h⟩ := Option.bind_eq_some_iff.mp h
    obtain ⟨⟨attributes, selfClosed, after⟩, hattributes, heq⟩ := Option.map_eq_some_iff.mp h
    cases heq
    obtain ⟨hvalues, hafter⟩ := takeAttributes?_subset hattributes
    have hr : r' ⊆ '<' :: r :=
      List.Subset.trans (takeQName?_subset hname) (List.subset_cons_self _ r)
    refine ⟨fun c hc => ?_, List.Subset.trans hafter hr⟩
    obtain ⟨a, ha, hca⟩ := List.mem_flatMap.mp hc
    exact hr (hvalues a ha hca)
  · dsimp only at h
    split at h
    · cases h
    · cases h
      exact ⟨takeWhile_subset _ cs, dropWhile_subset _ cs⟩

theorem tokensWithin_subset {fuel : Nat} {ts : List Token} (h : tokensWithin fuel cs = some ts) :
    ∀ t ∈ ts, t.chars ⊆ cs := by
  induction fuel generalizing cs ts with
  | zero =>
    cases cs with
    | nil =>
      cases h
      exact fun t ht => by cases ht
    | cons c cs => cases h
  | succ fuel ih =>
    cases cs with
    | nil =>
      cases h
      exact fun t ht => by cases ht
    | cons c cs =>
      obtain ⟨⟨token, rest⟩, htoken, h⟩ := Option.bind_eq_some_iff.mp h
      obtain ⟨others, hothers, rfl⟩ := Option.map_eq_some_iff.mp h
      obtain ⟨hchars, hrest⟩ := takeToken?_subset htoken
      exact List.forall_mem_cons.mpr ⟨hchars, fun t ht =>
        List.Subset.trans (ih hothers t ht) hrest⟩

theorem skipPseudoAttribute?_subset {name : String}
    (h : skipPseudoAttribute? name cs = some rest) : rest ⊆ cs := by
  unfold skipPseudoAttribute? at h
  split at h
  · obtain ⟨⟨a, r⟩, ha, rfl⟩ := Option.map_eq_some_iff.mp h
    exact (takeAttribute?_subset ha).2
  · cases h
    exact List.Subset.refl _

theorem skipSeparator?_subset (h : skipSeparator? cs = some rest) : rest ⊆ cs := by
  unfold skipSeparator? at h
  split at h
  · cases h
    exact skipSpaces_subset cs
  · cases h

theorem skipDeclaration?_subset (h : skipDeclaration? cs = some rest) : rest ⊆ cs := by
  unfold skipDeclaration? at h
  dsimp only at h
  split at h
  · obtain ⟨r₁, h₁, h⟩ := Option.bind_eq_some_iff.mp h
    obtain ⟨r₂, h₂, h⟩ := Option.bind_eq_some_iff.mp h
    have hversion : r₁ ⊆ cs :=
      List.Subset.trans (skipPseudoAttribute?_subset h₁) (skipSpaces_subset cs)
    have hseparated : r₂ ⊆ cs := List.Subset.trans (skipSeparator?_subset h₂) hversion
    obtain ⟨r₃, hencoded, h⟩ : ∃ r₃, r₃ ⊆ r₂ ∧
        ((skipPseudoAttribute? "standalone" r₃).bind fun r =>
          if "?>".toList.isPrefixOf (skipSpaces r) then some ((skipSpaces r).drop 2) else none) =
            some rest := by
      split at h
      · obtain ⟨r₃, h₃, h⟩ := Option.bind_eq_some_iff.mp h
        obtain ⟨r, hr, hseparator⟩ := Option.bind_eq_some_iff.mp h₃
        exact ⟨r₃, List.Subset.trans (skipSeparator?_subset hseparator)
          (skipPseudoAttribute?_subset hr), h⟩
      · exact ⟨r₂, List.Subset.refl _, h⟩
    obtain ⟨r₄, h₄, h⟩ := Option.bind_eq_some_iff.mp h
    have hall : r₄ ⊆ cs := List.Subset.trans (skipPseudoAttribute?_subset h₄)
      (List.Subset.trans hencoded hseparated)
    split at h
    · cases h
      exact List.Subset.trans (List.drop_sublist 2 _).subset
        (List.Subset.trans (skipSpaces_subset r₄) hall)
    · cases h
  · cases h

theorem skipProlog?_subset (h : skipProlog? cs = some rest) : rest ⊆ cs := by
  have hbody : ∀ r, r ⊆ cs → (if "<?xml ".toList.isPrefixOf r then skipDeclaration? (r.drop 6)
      else some r) = some rest → rest ⊆ cs := by
    intro r hr h
    split at h
    · exact List.Subset.trans (skipDeclaration?_subset h)
        (List.Subset.trans (List.drop_sublist 6 r).subset hr)
    · exact Option.some.inj h ▸ hr
  unfold skipProlog? at h
  dsimp only at h
  split at h
  · exact hbody _ (List.subset_cons_self _ _) h
  · exact hbody _ (List.Subset.refl _) h

theorem legal_tokens? {ts : List Token} (h : tokens? cs = some ts) : ∀ t ∈ ts, Legal t.chars := by
  unfold tokens? at h
  split at h
  · next hlegal =>
    obtain ⟨body, hbody, hts⟩ := Option.bind_eq_some_iff.mp h
    have hcs : Legal cs := List.all_eq_true.mp hlegal
    exact fun t ht =>
      hcs.mono (List.Subset.trans (tokensWithin_subset hts t ht) (skipProlog?_subset hbody))
  · cases h

end Lexing

section References

variable {cs rest : List Char}

theorem isXmlChar_numbered? {n : Nat} {c : Char} (h : numbered? n = some c) :
    isXmlChar c = true := by
  rw [numbered?] at h
  split at h
  · cases h
  · obtain ⟨hc, heq⟩ := Option.ite_none_right_eq_some.mp h
    exact Option.some.inj heq ▸ hc

theorem isXmlChar_namedEntity? {name : List Char} {c : Char} (h : namedEntity? name = some c) :
    isXmlChar c = true := by
  unfold namedEntity? at h
  repeat' split at h
  all_goals cases h
  all_goals decide

theorem takeReference?_spec {c : Char} (h : takeReference? cs = some (c, rest)) :
    isXmlChar c = true ∧ rest ⊆ cs := by
  have hdigits : ∀ (ds : List Char) (n : Nat),
      (if ds.isEmpty then none else numbered? n) = some c → isXmlChar c = true := by
    intro ds n h
    split at h
    · cases h
    · exact isXmlChar_numbered? h
  unfold takeReference? at h
  dsimp only at h
  split at h
  · next c' r hfound hrest =>
    cases h
    revert hfound hrest
    split
    · next r' =>
      intro hfound hrest
      exact ⟨hdigits _ _ hfound,
        List.Subset.trans (subset_of_dropWhile hrest) (List.subset_append_right ['#', 'x'] r')⟩
    · next r' _ =>
      intro hfound hrest
      exact ⟨hdigits _ _ hfound,
        List.Subset.trans (subset_of_dropWhile hrest) (List.subset_cons_self '#' r')⟩
    · intro hfound hrest
      exact ⟨isXmlChar_namedEntity? hfound, subset_of_dropWhile hrest⟩
  · cases h

def Piece.char : Piece → Char
  | .raw c => c
  | .reference c => c

theorem legal_piecesWithin {fuel : Nat} {ps : List Piece} (hcs : Legal cs)
    (h : piecesWithin fuel cs = some ps) : Legal (ps.map Piece.char) := by
  induction fuel generalizing cs ps with
  | zero =>
    cases cs with
    | nil =>
      cases h
      exact legal_nil
    | cons c cs => cases h
  | succ fuel ih =>
    cases cs with
    | nil =>
      cases h
      exact legal_nil
    | cons c cs =>
      obtain ⟨hc, htail⟩ := legal_cons.mp hcs
      by_cases hamp : c = '&'
      · subst hamp
        obtain ⟨⟨x, r⟩, hx, h⟩ := Option.bind_eq_some_iff.mp h
        obtain ⟨qs, hqs, rfl⟩ := Option.map_eq_some_iff.mp h
        obtain ⟨hlegal, hr⟩ := takeReference?_spec hx
        exact legal_cons.mpr ⟨hlegal, ih (htail.mono hr) hqs⟩
      · rw [piecesWithin] at h
        · obtain ⟨qs, hqs, rfl⟩ := Option.map_eq_some_iff.mp h
          exact legal_cons.mpr ⟨hc, ih htail hqs⟩
        · exact hamp

theorem legal_flatten {ps : List Piece} (h : Legal (ps.map Piece.char)) : Legal (flatten ps) := by
  induction ps using flatten.induct with
  | case1 => exact legal_nil
  | case2 c ps ih =>
    rw [flatten, legal_cons]
    exact ⟨(legal_cons.mp h).1, ih (legal_cons.mp h).2⟩
  | case3 ps ih =>
    rw [flatten, legal_cons]
    exact ⟨by decide, ih (legal_cons.mp (legal_cons.mp h).2).2⟩
  | case4 c ps hc ih =>
    rw [flatten, legal_cons]
    · refine ⟨?_, ih (legal_cons.mp h).2⟩
      split
      · decide
      · exact (legal_cons.mp h).1
    · exact hc

theorem legal_joinLines {ps : List Piece} (h : Legal (ps.map Piece.char)) (pending exact : Bool) :
    Legal (joinLines pending exact ps) := by
  -- A line end that waits comes out as one of two characters, both of them legal.
  have hwaiting : ∀ (pending : Bool) (c : Char), isXmlChar c = true →
      Legal (if pending then [c] else []) := by
    intro pending c hc
    cases pending with
    | false => exact legal_nil
    | true => exact legal_cons.mpr ⟨hc, legal_nil⟩
  induction ps generalizing pending exact with
  | nil => exact hwaiting pending '\r' (by decide)
  | cons p ps ih =>
    obtain ⟨hp, hps⟩ := legal_cons.mp h
    have hrest := ih hps
    have hreturn := hwaiting pending '\r' (by decide)
    have hfeed := hwaiting pending '\n' (by decide)
    cases p with
    | reference c =>
      rw [joinLines]
      split
      · exact legal_append.mpr ⟨hreturn, hrest true true⟩
      · exact legal_append.mpr ⟨hreturn, legal_cons.mpr ⟨hp, hrest false true⟩⟩
    | raw c =>
      rw [joinLines]
      split
      · dsimp only
        split
        · exact legal_append.mpr ⟨hreturn, hrest true false⟩
        · exact legal_append.mpr ⟨hreturn, legal_cons.mpr ⟨hp, hrest false false⟩⟩
      · dsimp only
        split
        · split
          · exact legal_append.mpr ⟨hfeed, hwaiting true '\n' (by decide)⟩
          · exact legal_append.mpr ⟨hfeed, hrest true false⟩
        · split
          · exact legal_append.mpr ⟨hfeed, hrest false false⟩
          · exact legal_append.mpr ⟨hfeed, legal_cons.mpr ⟨hp, hrest false false⟩⟩

theorem legal_attributeValue? {s : String} (hcs : Legal cs) (h : attributeValue? cs = some s) :
    Legal s.toList := by
  obtain ⟨ps, hps, rfl⟩ := Option.map_eq_some_iff.mp h
  rw [String.toList_ofList]
  exact legal_flatten (legal_piecesWithin hcs hps)

theorem legal_characterData? {s : String} (hcs : Legal cs) (h : characterData? cs = some s) :
    Legal s.toList := by
  obtain ⟨ps, hps, rfl⟩ := Option.map_eq_some_iff.mp h
  rw [String.toList_ofList]
  exact legal_joinLines (legal_piecesWithin hcs hps) false false

theorem legal_verbatim (hcs : Legal cs) : Legal (verbatim cs).toList := by
  rw [verbatim, String.toList_ofList]
  refine legal_joinLines ?_ false false
  rw [List.map_map]
  exact (List.map_id cs).symm ▸ hcs

end References

mutual

def Node.IsLegal : Node → Prop
  | .element _ attributes children =>
    (∀ a ∈ attributes, Legal a.2.toList) ∧ Node.AreLegal children
  | .text content => Legal content.toList
  | .aside => True

def Node.AreLegal : List Node → Prop
  | [] => True
  | n :: ns => n.IsLegal ∧ Node.AreLegal ns

end

theorem Node.areLegal_iff {ns : List Node} : Node.AreLegal ns ↔ ∀ n ∈ ns, n.IsLegal := by
  induction ns with
  | nil => simp [Node.AreLegal]
  | cons n ns ih => rw [Node.AreLegal, ih, List.forall_mem_cons]

namespace Node

variable {n : Node}

theorem IsLegal.attribute? (h : n.IsLegal) {name value : String}
    (hv : n.attribute? name = some value) : Legal value.toList := by
  cases n with
  | element tag attributes children =>
    rw [Node.IsLegal] at h
    obtain ⟨a, ha, rfl⟩ := Option.map_eq_some_iff.mp hv
    exact h.1 a (List.mem_of_find?_eq_some ha)
  | text content => cases hv
  | aside => cases hv

theorem IsLegal.children (h : n.IsLegal) : ∀ m ∈ n.children, m.IsLegal := by
  cases n with
  | element tag attributes children =>
    rw [Node.IsLegal, Node.areLegal_iff] at h
    exact h.2
  | text content => exact fun m hm => by cases hm
  | aside => exact fun m hm => by cases hm

theorem IsLegal.child? (h : n.IsLegal) {tag : String} {m : Node} (hm : n.child? tag = some m) :
    m.IsLegal :=
  h.children m (List.mem_of_find?_eq_some hm)

theorem IsLegal.text? (h : n.IsLegal) {content : String} (ht : n.text? = some content) :
    Legal content.toList := by
  unfold Node.text? at ht
  split at ht
  · next rest hchildren =>
    cases ht
    have hm := h.children (.text content) (hchildren ▸ List.mem_cons_self)
    rwa [Node.IsLegal] at hm
  · cases ht

end Node

section Building

theorem legal_declare? {d next : Declared} {a : QName × List Char} (ha : Legal a.2)
    (hd : ∀ b ∈ d.attributes, Legal b.2.toList) (h : declare? d a = some next) :
    ∀ b ∈ next.attributes, Legal b.2.toList := by
  obtain ⟨value, hvalue, h⟩ := Option.bind_eq_some_iff.mp h
  have hlegal := legal_attributeValue? ha hvalue
  split at h
  · obtain ⟨-, heq⟩ := Option.ite_none_right_eq_some.mp h
    cases heq
    split <;> exact hd
  · split at h
    · obtain ⟨-, heq⟩ := Option.ite_none_left_eq_some.mp h
      cases heq
      exact hd
    · cases h
      exact List.forall_mem_append.mpr ⟨hd, List.forall_mem_singleton.mpr hlegal⟩

theorem legal_foldlM_declare? {attributes : List (QName × List Char)} {d next : Declared}
    (ha : ∀ a ∈ attributes, Legal a.2) (hd : ∀ b ∈ d.attributes, Legal b.2.toList)
    (h : attributes.foldlM declare? d = some next) : ∀ b ∈ next.attributes, Legal b.2.toList := by
  induction attributes generalizing d with
  | nil =>
    cases h
    exact hd
  | cons a attributes ih =>
    obtain ⟨hhead, htail⟩ := List.forall_mem_cons.mp ha
    rw [List.foldlM_cons] at h
    obtain ⟨mid, hmid, h⟩ := Option.bind_eq_some_iff.mp h
    exact ih htail (legal_declare? hhead hd hmid) h

def Frame.IsLegal (f : Frame) : Prop :=
  (∀ a ∈ f.attributes, Legal a.2.toList) ∧ ∀ n ∈ f.children, n.IsLegal

theorem Frame.IsLegal.node {f : Frame} (h : f.IsLegal) : f.node.IsLegal := by
  rw [Frame.node, Node.IsLegal, Node.areLegal_iff]
  exact ⟨h.1, fun n hn => h.2 n (List.mem_reverse.mp hn)⟩

theorem isLegal_openFrame? {outer : Scope} {name : QName} {attributes : List (QName × List Char)}
    {f : Frame} (ha : ∀ a ∈ attributes, Legal a.2) (h : openFrame? outer name attributes = some f) :
    f.IsLegal := by
  obtain ⟨-, h⟩ := Option.ite_none_left_eq_some.mp h
  obtain ⟨declared, hdeclared, h⟩ := Option.bind_eq_some_iff.mp h
  obtain ⟨names, -, h⟩ := Option.bind_eq_some_iff.mp h
  obtain ⟨-, heq⟩ := Option.ite_none_right_eq_some.mp h
  cases heq
  have hlegal := legal_foldlM_declare? ha (fun b hb => by cases hb) hdeclared
  refine ⟨fun a hmem => ?_, fun n hn => by cases hn⟩
  obtain ⟨b, hb, rfl⟩ := List.mem_map.mp hmem
  exact hlegal b (List.mem_filter.mp hb).1

namespace Builder

structure IsLegal (b : Builder) : Prop where
  root : ∀ n ∈ b.root, n.IsLegal
  stack : ∀ f ∈ b.stack, f.IsLegal

variable {b next : Builder} (h : b.IsLegal)
include h

theorem IsLegal.attach? {n : Node} (hn : n.IsLegal) (hb : b.attach? n = some next) :
    next.IsLegal := by
  unfold Builder.attach? at hb
  split at hb
  · next f fs hstack =>
    cases hb
    obtain ⟨hf, hfs⟩ := List.forall_mem_cons.mp (hstack ▸ h.stack)
    exact ⟨h.root, List.forall_mem_cons.mpr
      ⟨⟨hf.1, List.forall_mem_cons.mpr ⟨hn, hf.2⟩⟩, hfs⟩⟩
  · split at hb
    · cases hb
      exact h
    · obtain ⟨-, heq⟩ := Option.ite_none_right_eq_some.mp hb
      cases heq
      exact ⟨fun m hm => Option.some.inj hm ▸ hn, h.stack⟩

theorem IsLegal.attachText? {s : String} (hs : Legal s.toList) (hb : b.attachText? s = some next) :
    next.IsLegal := by
  unfold Builder.attachText? at hb
  split at hb
  · cases hb
  · next f fs hstack =>
    cases hb
    obtain ⟨⟨hattributes, hchildren⟩, hfs⟩ := List.forall_mem_cons.mp (hstack ▸ h.stack)
    refine ⟨h.root, List.forall_mem_cons.mpr ⟨⟨hattributes, ?_⟩, hfs⟩⟩
    dsimp only
    split
    · next t rest heq =>
      obtain ⟨ht, hrest⟩ := List.forall_mem_cons.mp (heq ▸ hchildren)
      rw [Node.IsLegal] at ht
      refine List.forall_mem_cons.mpr ⟨?_, hrest⟩
      rw [Node.IsLegal, String.toList_append]
      exact legal_append.mpr ⟨ht, hs⟩
    · refine List.forall_mem_cons.mpr ⟨?_, hchildren⟩
      rwa [Node.IsLegal]

theorem IsLegal.step? {t : Token} (ht : Legal t.chars) (hb : b.step? t = some next) :
    next.IsLegal := by
  cases t with
  | openTag name attributes selfClosed =>
    obtain ⟨f, hf, hb⟩ := Option.bind_eq_some_iff.mp hb
    have hvalues : ∀ a ∈ attributes, Legal a.2 := fun a ha c hc =>
      ht c (List.mem_flatMap.mpr ⟨a, ha, hc⟩)
    have hlegal := isLegal_openFrame? hvalues hf
    split at hb
    · exact h.attach? hlegal.node hb
    · obtain ⟨-, heq⟩ := Option.ite_none_left_eq_some.mp hb
      cases heq
      exact ⟨h.root, List.forall_mem_cons.mpr ⟨hlegal, h.stack⟩⟩
  | closeTag name =>
    rw [Builder.step?] at hb
    split at hb
    · cases hb
    · next f fs hstack =>
      obtain ⟨hf, hfs⟩ := List.forall_mem_cons.mp (hstack ▸ h.stack)
      obtain ⟨-, hb⟩ := Option.ite_none_right_eq_some.mp hb
      exact IsLegal.attach? (b := { b with stack := fs }) ⟨h.root, hfs⟩ hf.node hb
  | text raw =>
    rw [Builder.step?] at hb
    split at hb
    · obtain ⟨-, heq⟩ := Option.ite_none_right_eq_some.mp hb
      cases heq
      exact h
    · obtain ⟨s, hs, hb⟩ := Option.bind_eq_some_iff.mp hb
      exact h.attachText? (legal_characterData? ht hs) hb
  | cdata raw => exact h.attachText? (legal_verbatim ht) hb
  | aside => exact h.attach? (by rw [Node.IsLegal]; trivial) hb

theorem IsLegal.foldlM {ts : List Token} (ht : ∀ t ∈ ts, Legal t.chars)
    (hb : ts.foldlM Builder.step? b = some next) : next.IsLegal := by
  induction ts generalizing b with
  | nil =>
    cases hb
    exact h
  | cons t ts ih =>
    obtain ⟨hhead, htail⟩ := List.forall_mem_cons.mp ht
    rw [List.foldlM_cons] at hb
    obtain ⟨mid, hmid, hb⟩ := Option.bind_eq_some_iff.mp hb
    exact ih (h.step? hhead hmid) htail hb

end Builder

/-- The tree of a document is made of legal characters. -/
theorem isLegal_parse? {s : String} {root : Node} (h : parse? s = some root) : root.IsLegal := by
  obtain ⟨ts, hts, h⟩ := Option.bind_eq_some_iff.mp h
  obtain ⟨b, hb, h⟩ := Option.bind_eq_some_iff.mp h
  obtain ⟨-, hroot⟩ := Option.ite_none_right_eq_some.mp h
  have hempty : ({} : Builder).IsLegal :=
    ⟨fun n hn => (by cases hn), fun f hf => (by cases hf)⟩
  exact (hempty.foldlM (legal_tokens? hts) hb).root root hroot

end Building

end PagedNets.Xml
