import Mathlib.Data.List.Forall2
import PagedNets.Pnml.Reader
import PagedNets.Proofs.Pnml.Writing

/-!
How the children of nets and pages are interleaved. The reader takes the name of a net or a page,
the nodes on it, its arcs and its pages each in their order, wherever they stand between each other,
and passes over everything else. So trees that agree in these four respects, at every depth, are
read alike, up to the same fault.
-/

set_option autoImplicit false

namespace PagedNets

namespace Xml

/-- Induction over a tree: a property of an element may rest on that of its children. -/
@[elab_as_elim]
theorem Node.induction {P : Node → Prop}
    (element : ∀ tag attributes children, (∀ c ∈ children, P c) →
      P (.element tag attributes children))
    (text : ∀ content, P (.text content)) (aside : P .aside) (n : Node) : P n :=
  @Node.rec P (fun cs => ∀ c ∈ cs, P c) element text aside
    (fun _ hc => by cases hc) (fun _ _ hn hns => List.forall_mem_cons.mpr ⟨hn, hns⟩) n

end Xml

namespace Pnml

open Xml (Node)

section Relation

/-- The groups of children of a net or a page, in each of which the order counts. -/
inductive Group where
  | names
  | nodes
  | arcs
  | pages

def Group.tags : Group → List String
  | names => ["name"]
  | nodes => ["place", "transition", "referencePlace", "referenceTransition"]
  | arcs => ["arc"]
  | pages => ["page"]

def Group.has (g : Group) (n : Node) : Bool := g.tags.any fun t => n.isTagged t

def Group.within (g : Group) (ns : List Node) : List Node := ns.filter g.has

/-- Two trees that differ only in how the children of nets and pages, at any depth, are interleaved
and in what stands between them and is in no group. -/
inductive Rearranged : Node → Node → Prop
  | text (content : String) : Rearranged (.text content) (.text content)
  | aside : Rearranged .aside .aside
  | alike {tag : String} {attributes : List (String × String)} {ms ns : List Node} :
      List.Forall₂ Rearranged ms ns →
      Rearranged (.element tag attributes ms) (.element tag attributes ns)
  | mixed {tag : String} {attributes : List (String × String)} {ms ns : List Node} :
      tag = "net" ∨ tag = "page" →
      (∀ g : Group, List.Forall₂ Rearranged (g.within ms) (g.within ns)) →
      Rearranged (.element tag attributes ms) (.element tag attributes ns)

variable {m n : Node} {ms ns : List Node}

@[refl]
theorem Rearranged.refl (n : Node) : Rearranged n n := by
  induction n using Node.induction with
  | element tag attributes children ih => exact .alike (List.forall₂_same.mpr ih)
  | text content => exact .text content
  | aside => exact .aside

theorem Rearranged.of_within {tag : String} {attributes : List (String × String)}
    (ht : tag = "net" ∨ tag = "page") (h : ∀ g : Group, g.within ms = g.within ns) :
    Rearranged (.element tag attributes ms) (.element tag attributes ns) :=
  .mixed ht fun g => h g ▸ List.forall₂_same.mpr fun c _ => Rearranged.refl c

theorem Rearranged.insert {tag : String} {attributes : List (String × String)}
    (ht : tag = "net" ∨ tag = "page") {c : Node} (hc : ∀ g : Group, g.has c = false) :
    Rearranged (.element tag attributes (ms ++ ns)) (.element tag attributes (ms ++ c :: ns)) :=
  .of_within ht fun g => by simp [Group.within, hc g]

theorem Rearranged.swap {tag : String} {attributes : List (String × String)}
    (ht : tag = "net" ∨ tag = "page") {b c : Node}
    (hbc : ∀ g : Group, g.has b = false ∨ g.has c = false) :
    Rearranged (.element tag attributes (ms ++ b :: c :: ns))
      (.element tag attributes (ms ++ c :: b :: ns)) :=
  .of_within ht fun g => by
    rcases hbc g with h | h <;> simp [Group.within, List.filter_cons, h]

theorem Rearranged.tag_eq (h : Rearranged m n) : m.tag = n.tag := by cases h <;> rfl

theorem Rearranged.isTagged_eq (h : Rearranged m n) (t : String) :
    m.isTagged t = n.isTagged t := by cases h <;> rfl

theorem Rearranged.attribute?_eq (h : Rearranged m n) (name : String) :
    m.attribute? name = n.attribute? name := by cases h <;> rfl

end Relation

section Children

variable {m n : Node} {t : String}

theorem forall₂_filter {p : Node → Bool} (hp : ∀ {a b}, Rearranged a b → p a = p b)
    {ms ns : List Node} (h : List.Forall₂ Rearranged ms ns) :
    List.Forall₂ Rearranged (ms.filter p) (ns.filter p) :=
  List.rel_filter (fun _ _ hab => iff_of_eq (congrArg (· = true) (hp hab))) h

theorem Rearranged.has_eq (h : Rearranged m n) (g : Group) : g.has m = g.has n := by
  simp only [Group.has, h.isTagged_eq]

theorem Rearranged.within_children (h : Rearranged m n) (g : Group) :
    List.Forall₂ Rearranged (g.within m.children) (g.within n.children) := by
  cases h with
  | text content => exact .nil
  | aside => exact .nil
  | alike h => exact forall₂_filter (fun hab => hab.has_eq g) h
  | mixed _ h => exact h g

/-- Is it none of the elements whose children may be rearranged? -/
def Steady (n : Node) : Prop := n.tag ≠ "net" ∧ n.tag ≠ "page"

theorem Rearranged.children (h : Rearranged m n) (hm : Steady m) :
    List.Forall₂ Rearranged m.children n.children := by
  cases h with
  | text content => exact .nil
  | aside => exact .nil
  | alike h => exact h
  | mixed ht _ => exact (ht.elim hm.1 hm.2).elim

theorem childrenTagged_eq_filter_within {g : Group} (ht : t ∈ g.tags) (n : Node) :
    n.childrenTagged t = (g.within n.children).filter (Node.isTagged t) := by
  rw [Group.within, List.filter_filter, Node.childrenTagged]
  refine List.filter_congr fun c _ => ?_
  cases hc : c.isTagged t with
  | false => rfl
  | true => exact (List.any_eq_true.mpr ⟨t, ht, hc⟩).symm

theorem Rearranged.childrenTagged (h : Rearranged m n) (ht : Steady m ∨ ∃ g : Group, t ∈ g.tags) :
    List.Forall₂ Rearranged (m.childrenTagged t) (n.childrenTagged t) := by
  rcases ht with hm | ⟨g, ht⟩
  · exact forall₂_filter (fun hab => hab.isTagged_eq t) (h.children hm)
  · rw [childrenTagged_eq_filter_within ht, childrenTagged_eq_filter_within ht]
    exact forall₂_filter (fun hab => hab.isTagged_eq t) (h.within_children g)

theorem Rearranged.child? (h : Rearranged m n) (ht : Steady m ∨ ∃ g : Group, t ∈ g.tags) :
    (m.child? t = none ∧ n.child? t = none) ∨
      ∃ a b, m.child? t = some a ∧ n.child? t = some b ∧ Rearranged a b ∧ a.tag = t := by
  have hhead : ∀ k : Node, k.child? t = (k.childrenTagged t).head? :=
    fun k => List.head?_filter.symm
  have hall := h.childrenTagged ht
  cases hm : m.childrenTagged t with
  | nil =>
    rw [hm, List.forall₂_nil_left_iff] at hall
    exact .inl ⟨by rw [hhead, hm]; rfl, by rw [hhead, hall]; rfl⟩
  | cons a as =>
    rw [hm] at hall
    obtain ⟨b, bs, hab, -, hn⟩ := List.forall₂_cons_left_iff.mp hall
    have ha : a ∈ m.childrenTagged t := hm ▸ List.mem_cons_self
    exact .inr ⟨a, b, by rw [hhead, hm]; rfl, by rw [hhead, hn]; rfl, hab,
      (isTagged_eq_true_iff.mp (List.mem_filter.mp ha).2).2⟩

theorem Rearranged.text?_eq (h : Rearranged m n) (hm : Steady m) : m.text? = n.text? := by
  cases h with
  | text content => rfl
  | aside => rfl
  | alike h =>
    cases h with
    | nil => rfl
    | cons hab _ => cases hab <;> rfl
  | mixed ht _ => exact (ht.elim hm.1 hm.2).elim

theorem Rearranged.bind_text?_eq (h : Rearranged m n) (hm : Steady m) :
    (m.child? "text").bind (·.text?) = (n.child? "text").bind (·.text?) := by
  rcases h.child? (t := "text") (.inl hm) with ⟨hm', hn'⟩ | ⟨a, b, hm', hn', hab, ha⟩
  · rw [hm', hn']
  · rw [hm', hn', Option.bind_some, Option.bind_some, hab.text?_eq (by simp [Steady, ha])]

end Children

section Objects

variable {m n : Node}

theorem Rearranged.required_eq (h : Rearranged m n) (name : String) :
    required m name = required n name := by
  rw [required, required, h.attribute?_eq, h.tag_eq]

theorem Rearranged.requiredId_eq (h : Rearranged m n) (name : String) :
    requiredId m name = requiredId n name := by
  rw [requiredId, requiredId, h.required_eq]

theorem Rearranged.nameOf_eq (h : Rearranged m n) : nameOf m = nameOf n := by
  rw [nameOf, nameOf]
  rcases h.child? (t := "name") (.inr ⟨.names, by decide⟩) with ⟨hm, hn⟩ | ⟨a, b, hm, hn, hab, ha⟩
  · rw [hm, hn]
  · rw [hm, hn, Option.bind_some, Option.bind_some]
    have hsteady : Steady a := by simp [Steady, ha]
    rcases hab.child? (t := "text") (.inl hsteady) with ⟨ha', hb'⟩ | ⟨x, y, ha', hb', hxy, hx⟩
    · rw [ha', hb']
    · rw [ha', hb', Option.map_some, Option.map_some, hxy.text?_eq (by simp [Steady, hx])]

theorem Rearranged.pointOf_eq (h : Rearranged m n) : pointOf m = pointOf n := by
  simp only [pointOf, coordinate, h.attribute?_eq, h.tag_eq]

theorem Rearranged.pointOrOrigin_eq (h : Rearranged m n) (hm : Steady m) (t : String) :
    pointOrOrigin ((m.child? "graphics").bind (·.child? t)) =
      pointOrOrigin ((n.child? "graphics").bind (·.child? t)) := by
  rcases h.child? (t := "graphics") (.inl hm) with ⟨hm', hn'⟩ | ⟨a, b, hm', hn', hab, ha⟩
  · rw [hm', hn']
  · rw [hm', hn', Option.bind_some, Option.bind_some]
    have hsteady : Steady a := by simp [Steady, ha]
    rcases hab.child? (t := t) (.inl hsteady) with ⟨ha', hb'⟩ | ⟨x, y, ha', hb', hxy, -⟩
    · rw [ha', hb']
    · rw [ha', hb']
      exact hxy.pointOf_eq

theorem Rearranged.nodeDataOf_eq (h : Rearranged m n) (hm : Steady m) :
    nodeDataOf m = nodeDataOf n := by
  simp only [nodeDataOf, h.pointOrOrigin_eq hm]

theorem Rearranged.placeOf_eq (h : Rearranged m n) (hm : Steady m) : placeOf m = placeOf n := by
  simp only [placeOf, h.requiredId_eq, h.nodeDataOf_eq hm, h.nameOf_eq]
  rcases h.child? (t := "initialMarking") (.inl hm) with ⟨hm', hn'⟩ | ⟨a, b, hm', hn', hab, ha⟩
  · simp only [hm', hn']
  · have hsteady : Steady a := by simp [Steady, ha]
    simp only [hm', hn', tokensOf, hab.bind_text?_eq hsteady, hab.pointOrOrigin_eq hsteady]

theorem Rearranged.transitionOf_eq (h : Rearranged m n) (hm : Steady m) :
    transitionOf m = transitionOf n := by
  simp only [transitionOf, h.requiredId_eq, h.nodeDataOf_eq hm, h.nameOf_eq]

theorem Rearranged.arcKindOf_eq (h : Rearranged m n) (hm : Steady m) :
    arcKindOf m = arcKindOf n := by
  rw [arcKindOf, arcKindOf]
  rcases h.child? (t := "type") (.inl hm) with ⟨hm', hn'⟩ | ⟨a, b, hm', hn', hab, ha⟩
  · rw [hm', hn']
  · simp only [hm', hn', hab.attribute?_eq, hab.bind_text?_eq (by simp [Steady, ha])]

theorem mapM_pointOf_eq {ms ns : List Node} (h : List.Forall₂ Rearranged ms ns) :
    ms.mapM pointOf = ns.mapM pointOf := by
  induction h with
  | nil => rfl
  | cons hab _ ih => rw [List.mapM_cons, List.mapM_cons, hab.pointOf_eq, ih]

theorem Rearranged.arcOf_eq (h : Rearranged m n) (hm : Steady m) : arcOf m = arcOf n := by
  simp only [arcOf, h.requiredId_eq, h.arcKindOf_eq hm, h.nameOf_eq]
  rcases h.child? (t := "graphics") (.inl hm) with ⟨hm', hn'⟩ | ⟨a, b, hm', hn', hab, ha⟩
  · simp only [hm', hn']
  · have hpoints := hab.childrenTagged (t := "position") (.inl (by simp [Steady, ha]))
    simp only [hm', hn', mapM_pointOf_eq hpoints]

theorem Rearranged.isReference_eq (h : Rearranged m n) : isReference m = isReference n := by
  rw [isReference, isReference, h.tag_eq]

theorem Rearranged.nodeOf?_eq (h : Rearranged m n) : nodeOf? m = nodeOf? n := by
  by_cases hm : Steady m
  · simp only [nodeOf?, h.tag_eq, h.placeOf_eq hm, h.transitionOf_eq hm, h.isReference_eq,
      h.required_eq]
  · -- Nets and pages are no nodes.
    have htag : m.tag = "net" ∨ m.tag = "page" := by
      by_contra hne
      exact hm (not_or.mp hne)
    have hnone : ∀ k : Node, k.tag = m.tag → nodeOf? k = none := by
      intro k hk
      rcases htag with ht | ht <;> simp [nodeOf?, hk, ht]
    rw [hnone m rfl, hnone n h.tag_eq.symm]

theorem Rearranged.linkOf?_eq (h : Rearranged m n) : linkOf? m = linkOf? n := by
  simp only [linkOf?, h.isReference_eq, h.attribute?_eq]

end Objects

section Steps

variable {m n : Node}

theorem Rearranged.filterMap_eq {f : Node → Option Step}
    (hf : ∀ c, Group.nodes.has c = false → f c = none)
    (heq : ∀ {a b}, Rearranged a b → f a = f b) (h : Rearranged m n) :
    m.children.filterMap f = n.children.filterMap f := by
  have hwithin : ∀ cs : List Node, (Group.nodes.within cs).filterMap f = cs.filterMap f := by
    intro cs
    rw [Group.within, List.filterMap_filter]
    refine List.filterMap_congr fun c _ => ?_
    cases hc : Group.nodes.has c with
    | false => simp [hf c hc]
    | true => simp
  have hall : ∀ {as bs : List Node}, List.Forall₂ Rearranged as bs →
      as.filterMap f = bs.filterMap f := by
    intro as bs hab
    induction hab with
    | nil => rfl
    | cons hab _ ih => rw [List.filterMap_cons, List.filterMap_cons, heq hab, ih]
  rw [← hwithin, hall (h.within_children .nodes), hwithin]

theorem nodeOf?_eq_none_of_has {c : Node} (hc : Group.nodes.has c = false) :
    nodeOf? c = none ∧ linkOf? c = none := by
  cases c with
  | element tag attributes children =>
    simp only [Group.has, Group.tags, List.any_cons, List.any_nil, Bool.or_false,
      Bool.or_eq_false_iff, Node.isTagged, beq_eq_false_iff_ne] at hc
    obtain ⟨hplace, htransition, hplaceAlias, htransitionAlias⟩ := hc
    simp [nodeOf?, linkOf?, isReference, Node.tag, hplace, htransition, hplaceAlias,
      htransitionAlias]
  | text content => exact ⟨rfl, rfl⟩
  | aside => exact ⟨rfl, rfl⟩

theorem Rearranged.nodeSteps_eq (h : Rearranged m n) (page : ObjectId) :
    nodeSteps page m = nodeSteps page n :=
  h.filterMap_eq (fun c hc => by rw [(nodeOf?_eq_none_of_has hc).1]; rfl)
    fun hab => by rw [hab.nodeOf?_eq]

theorem flatMap_eq {f : Node → List Step} {as bs : List Node}
    (h : List.Forall₂ Rearranged as bs) (hf : ∀ a ∈ as, ∀ b, Rearranged a b → f a = f b) :
    as.flatMap f = bs.flatMap f := by
  induction h with
  | nil => rfl
  | cons hab _ ih =>
    obtain ⟨hhead, htail⟩ := List.forall_mem_cons.mp hf
    rw [List.flatMap_cons, List.flatMap_cons, hhead _ hab, ih htail]

theorem Rearranged.arcSteps_eq (h : Rearranged m n) (page : ObjectId) :
    arcSteps page m = arcSteps page n := by
  have harcs := h.childrenTagged (t := "arc") (.inr ⟨.arcs, by decide⟩)
  rw [arcSteps, arcSteps, List.map_eq_flatMap, List.map_eq_flatMap]
  refine flatMap_eq harcs fun a ha b hab => ?_
  have htag := (isTagged_eq_true_iff.mp (List.mem_filter.mp ha).2).2
  rw [hab.arcOf_eq (by simp [Steady, htag])]

theorem Rearranged.pages (h : Rearranged m n) :
    List.Forall₂ Rearranged (m.childrenTagged "page") (n.childrenTagged "page") :=
  h.childrenTagged (.inr ⟨.pages, by decide⟩)

theorem Rearranged.exists_eq_element {tag : String} {attributes : List (String × String)}
    {ms : List Node} (h : Rearranged (.element tag attributes ms) n) :
    ∃ ns, n = .element tag attributes ns := by
  cases h <;> exact ⟨_, rfl⟩

theorem Rearranged.pageSteps_eq (h : Rearranged m n) (parent : ObjectId) :
    pageSteps parent m = pageSteps parent n := by
  induction m using Node.induction generalizing n parent with
  | text content => cases h; rfl
  | aside => cases h; rfl
  | element tag attributes children ih =>
    obtain ⟨ns, rfl⟩ := h.exists_eq_element
    have hnested : ∀ id, nestedSteps id (Node.element tag attributes children).children =
        nestedSteps id (Node.element tag attributes ns).children := by
      intro id
      rw [nestedSteps_children, nestedSteps_children]
      exact flatMap_eq h.pages fun a ha b hab => ih a (List.mem_filter.mp ha).1 hab id
    simp only [Node.children] at hnested
    rw [pageSteps, pageSteps, h.requiredId_eq]
    simp only [h.nameOf_eq, h.nodeSteps_eq, h.arcSteps_eq, hnested]

theorem Rearranged.nestedSteps_eq (h : Rearranged m n) (parent : ObjectId) :
    nestedSteps parent m.children = nestedSteps parent n.children := by
  rw [nestedSteps_children, nestedSteps_children]
  exact flatMap_eq h.pages fun _ _ _ hab => hab.pageSteps_eq parent

theorem Rearranged.pageLinks_eq (h : Rearranged m n) : pageLinks m = pageLinks n := by
  induction m using Node.induction generalizing n with
  | text content => cases h; rfl
  | aside => cases h; rfl
  | element tag attributes children ih =>
    obtain ⟨ns, rfl⟩ := h.exists_eq_element
    have hlinks := h.filterMap_eq (fun c hc => (nodeOf?_eq_none_of_has hc).2)
      fun hab => hab.linkOf?_eq
    have hnested : nestedLinks (Node.element tag attributes children).children =
        nestedLinks (Node.element tag attributes ns).children := by
      rw [nestedLinks_children, nestedLinks_children]
      exact flatMap_eq h.pages fun a ha b hab => ih a (List.mem_filter.mp ha).1 hab
    simp only [Node.children] at hlinks hnested
    rw [pageLinks, pageLinks, hlinks, hnested]

theorem Rearranged.nestedLinks_eq (h : Rearranged m n) :
    nestedLinks m.children = nestedLinks n.children := by
  rw [nestedLinks_children, nestedLinks_children]
  exact flatMap_eq h.pages fun _ _ _ hab => hab.pageLinks_eq

theorem Rearranged.netSteps_eq (h : Rearranged m n) : netSteps m = netSteps n := by
  have hnet : netOf m = netOf n := by
    simp only [netOf, h.requiredId_eq, h.required_eq, h.nameOf_eq]
  rw [netSteps, netSteps, hnet]
  cases netOf n with
  | error fault => rfl
  | ok net => simp only [h.nestedSteps_eq, h.nestedLinks_eq]

end Steps

section Reading

variable {m n : Node}

theorem steady_of_isTagged_eq_false (hnet : m.isTagged "net" = false)
    (hpage : m.isTagged "page" = false) : Steady m := by
  cases m with
  | element tag attributes children =>
    exact ⟨beq_eq_false_iff_ne.mp hnet, beq_eq_false_iff_ne.mp hpage⟩
  | text content => exact ⟨by simp [Node.tag], by simp [Node.tag]⟩
  | aside => exact ⟨by simp [Node.tag], by simp [Node.tag]⟩

/-- The nets of a document stand in its root, and are children of a page only if that is the
root. -/
theorem Rearranged.netElements (h : Rearranged m n) (hroot : m.isTagged "page" = true →
    List.Forall₂ Rearranged (m.childrenTagged "net") (n.childrenTagged "net")) :
    List.Forall₂ Rearranged (netElements m) (netElements n) := by
  rw [Pnml.netElements, Pnml.netElements, h.isTagged_eq "net"]
  split
  · exact .cons h .nil
  · next hnet =>
    cases hpage : m.isTagged "page" with
    | true => exact hroot hpage
    | false =>
      have hm : m.isTagged "net" = false :=
        (h.isTagged_eq "net").trans (Bool.eq_false_of_not_eq_true hnet)
      exact h.childrenTagged (.inl (steady_of_isTagged_eq_false hm hpage))

theorem script_eq_of_forall₂ (h : List.Forall₂ Rearranged (netElements m) (netElements n)) :
    script m = script n := by
  have hsteps := flatMap_eq h fun _ _ _ hab => hab.netSteps_eq
  rw [script, script]
  cases hm : netElements m with
  | nil =>
    rw [hm, List.forall₂_nil_left_iff] at h
    rw [h]
  | cons a as =>
    rw [hm] at h hsteps
    obtain ⟨b, bs, -, -, hn⟩ := List.forall₂_cons_left_iff.mp h
    rw [hn] at hsteps
    rw [hn]
    exact hsteps

/-- Trees that differ only in how the children of nets and pages are interleaved are read alike
into every document: with the same nets or the same fault, and to the same document. In a root that
is a page the nets must be kept. -/
theorem read_rearranged (h : Rearranged m n) (hroot : m.isTagged "page" = true →
    List.Forall₂ Rearranged (m.childrenTagged "net") (n.childrenTagged "net")) (d : Document) :
    perform d (script m) = perform d (script n) ∧
      ∀ text text', Xml.parse? text = some m → Xml.parse? text' = some n →
        read d text = read d text' := by
  have hscript := script_eq_of_forall₂ (h.netElements hroot)
  refine ⟨by rw [hscript], fun text text' hm hn => ?_⟩
  simp only [read, hm, hn, hscript]

def mixedText : String :=
  "<net id='n' type='http://www.pnml.org/version-2009/grammar/ptnet'><page id='p'><!-- -->" ++
    "<arc id='a' source='x' target='t'/><page id='q'/><place id='x'/><transition id='t'/>" ++
    "</page></net>"

def tidyText : String :=
  "<net id='n' type='http://www.pnml.org/version-2009/grammar/ptnet'><page id='p'>" ++
    "<place id='x'/><transition id='t'/><arc id='a' source='x' target='t'/><page id='q'/>" ++
    "</page></net>"

def netRoot (onPage : List Node) : Node :=
  .element "net" [("id", "n"), ("type", "http://www.pnml.org/version-2009/grammar/ptnet")]
    [.element "page" [("id", "p")] onPage]

def placeOnPage : Node := .element "place" [("id", "x")] []

def transitionOnPage : Node := .element "transition" [("id", "t")] []

def arcOnPage : Node := .element "arc" [("id", "a"), ("source", "x"), ("target", "t")] []

def pageOnPage : Node := .element "page" [("id", "q")] []

theorem parse?_mixedText : Xml.parse? mixedText =
    some (netRoot [.aside, arcOnPage, pageOnPage, placeOnPage, transitionOnPage]) := by cbv

theorem parse?_tidyText : Xml.parse? tidyText =
    some (netRoot [placeOnPage, transitionOnPage, arcOnPage, pageOnPage]) := by cbv

theorem read_rearranged_mixedText :
    Rearranged (netRoot [.aside, arcOnPage, pageOnPage, placeOnPage, transitionOnPage])
      (netRoot [placeOnPage, transitionOnPage, arcOnPage, pageOnPage]) ∧
    read {} mixedText = read {} tidyText ∧ (read {} tidyText).result = .ok [⟨"n"⟩] := by
  have hsame : Rearranged
      (netRoot [.aside, arcOnPage, pageOnPage, placeOnPage, transitionOnPage])
      (netRoot [placeOnPage, transitionOnPage, arcOnPage, pageOnPage]) :=
    .alike (.cons (.of_within (.inr rfl) fun g => by cases g <;> rfl) .nil)
  have hread := (read_rearranged hsame (fun h => by cases h) {}).2 _ _ parse?_mixedText
    parse?_tidyText
  refine ⟨hsame, hread, ?_⟩
  rw [read, parse?_tidyText]
  decide +kernel

/-- A page that is the root of a document, with a net in it. -/
def pageRoot (nets : List Node) : Node := .element "page" [] nets

def inPage : Node :=
  .element "net" [("id", "n"), ("type", "http://www.pnml.org/version-2009/grammar/ptnet")] []

/-- In a page that is the root of a document a net is no element like others: left out, it is not
read. -/
theorem read_rearranged_fails : ¬ ∀ (m n : Node), Rearranged m n → ∀ (d : Document) text text',
    Xml.parse? text = some m → Xml.parse? text' = some n → read d text = read d text' := by
  intro hall
  have hwith : Xml.parse? ("<page><net id=\"n\" " ++
      "type=\"http://www.pnml.org/version-2009/grammar/ptnet\"/></page>") =
        some (pageRoot [inPage]) := rfl
  have hwithout : Xml.parse? "<page/>" = some (pageRoot []) := rfl
  have hsame : Rearranged (pageRoot [inPage]) (pageRoot []) :=
    .of_within (.inr rfl) fun g => by cases g <;> rfl
  have hresult := congrArg Reading.result (hall _ _ hsame {} _ _ hwith hwithout)
  simp only [read, hwith, hwithout] at hresult
  exact absurd hresult (by decide +kernel)

end Reading

end Pnml

end PagedNets
