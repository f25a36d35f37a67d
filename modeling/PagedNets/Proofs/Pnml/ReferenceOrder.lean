import Mathlib
import PagedNets.Proofs.Pnml.Acceptance
import PagedNets.Proofs.Pnml.LateLinks

set_option autoImplicit false

namespace PagedNets

namespace Plate

variable {ps ps' qs qs' : List Plate}

theorem along_forall_perm {S : Plate → Plate → Prop} (hS : ∀ p q, S p q → S q p)
    (hps : ps'.Perm ps) (hqs : qs'.Perm qs) (h : Along (fun ps q => ∀ p ∈ ps, S p q) ps qs) :
    Along (fun ps q => ∀ p ∈ ps, S p q) ps' qs' := by
  obtain ⟨hall, hpairs⟩ := along_forall.mp h
  refine along_forall.mpr ⟨fun p hp q hq => hall p (hps.subset hp) q (hqs.subset hq), ?_⟩
  exact (hqs.pairwise_iff fun {p q} => hS p q).mpr hpairs

/-- Whether objects fit in with those that are there does not depend on the order, as long as nodes
come before arcs. -/
theorem along_fits_perm (hps : ps'.Perm ps) (hqs : qs'.Perm qs)
    (hfirst : (qs.map (·.id)).Nodup → NodesFirst qs)
    (hfirst' : (qs'.map (·.id)).Nodup → NodesFirst qs') (h : Along Fits ps qs) :
    Along Fits ps' qs' := by
  have hdistinct : (qs.map (·.id)).Nodup :=
    List.pairwise_map.mpr (along_forall.mp (h.mono fun _ _ => Fits.fresh)).2
  have hdistinct' : (qs'.map (·.id)).Nodup := (hqs.map _).nodup_iff.mpr hdistinct
  have hnonempty : Along (fun _ q => q.id.isEmpty = false) ps' qs' :=
    along_const.mpr fun q hq =>
      along_const.mp (h.mono fun _ _ => Fits.nonempty) q (hqs.subset hq)
  have hfresh := along_forall_perm (fun _ _ hne he => hne he.symm) hps hqs
    (h.mono fun _ _ => Fits.fresh)
  have hnamed := along_forall_perm
    (S := fun p q => ∀ w, p.owner = some w → q.owner = some w →
      ∀ n, p.name = some n → q.name ≠ some n)
    (fun _ _ hname w hq hp n hqn hpn => hname w hp hq n hpn hqn) hps hqs
    (h.mono fun _ _ => Fits.named)
  have hsingle := along_forall_perm
    (S := fun p q => ∀ w, p.owner = some w → q.owner = some w →
      ∀ x, p.ends = some x → q.ends ≠ some x)
    (fun _ _ hends w hq hp x hqx hpx => hends w hp hq x hpx hqx) hps hqs
    (h.mono fun _ _ => Fits.single)
  have hjoined : Along (fun ps q => ∀ w, q.owner = some w → ∀ x, q.ends = some x →
      Stands ps w x.1 ∧ Stands ps w x.2) ps' qs' := by
    have hall := (along_joined_iff (hfirst hdistinct)).mp (h.mono fun _ _ => Fits.joined)
    refine (along_joined_iff (hfirst' hdistinct')).mpr fun q hq w hw x hx => ?_
    obtain ⟨hs, ht⟩ := hall q (hqs.subset hq) w hw x hx
    have hsub : ps ++ qs ⊆ ps' ++ qs' := (hps.append hqs).symm.subset
    exact ⟨hs.mono hsub, ht.mono hsub⟩
  have hall := along_and.mpr ⟨hnonempty, along_and.mpr ⟨hfresh, along_and.mpr ⟨hnamed,
    along_and.mpr ⟨hsingle, hjoined⟩⟩⟩⟩
  exact hall.mono fun ps q ⟨hn, hf, hname, hone, hends⟩ => ⟨hn, hf, hname, hone, hends⟩

end Plate

namespace Pnml

open Plate (Along Fits along_fits_perm)
open Xml (Node)

section Shuffle

/-- Two elements are the same but for one page, on which the references stand elsewhere among the
other elements. -/
inductive Shuffled : Node → Node → Prop
  | page {attributes : List (String × String)} {children others : List Node} :
      others.Perm children →
      others.filter (!isReference ·) = children.filter (!isReference ·) →
      Shuffled (.element "page" attributes children) (.element "page" attributes others)
  | inside {tag : String} {attributes : List (String × String)} (before after : List Node)
      {n m : Node} : tag = "net" ∨ tag = "page" → Shuffled n m →
      Shuffled (.element tag attributes (before ++ n :: after))
        (.element tag attributes (before ++ m :: after))

/-- All that matters about a visit when a net is read. -/
def Visit.gist (v : Visit) : Plate × Option ObjectId × Prop :=
  (v.plate, v.referent?, IsReadable v.kind v.element)

variable {n m : Node} {vs us : List Visit}

theorem plates_of_gists (h : (us.map Visit.gist).Perm (vs.map Visit.gist)) :
    (us.map Visit.plate).Perm (vs.map Visit.plate) := by
  have hplates := h.map (·.1)
  rwa [List.map_map, List.map_map] at hplates

theorem links_of_gists (h : (us.map Visit.gist).Perm (vs.map Visit.gist)) :
    (linksOf us).Perm (linksOf vs) := by
  have hlinks := h.filterMap fun g => g.2.1.map (g.1.id, ·)
  rwa [List.filterMap_map, List.filterMap_map] at hlinks

theorem readable_of_gists (h : (us.map Visit.gist).Perm (vs.map Visit.gist))
    (hread : ∀ v ∈ vs, IsReadable v.kind v.element) : ∀ u ∈ us, IsReadable u.kind u.element := by
  intro u hu
  obtain ⟨v, hv, hvu⟩ := List.mem_map.mp (h.subset (List.mem_map_of_mem hu))
  have hsame : IsReadable v.kind v.element = IsReadable u.kind u.element :=
    congrArg (·.2.2) hvu
  exact hsame ▸ hread v hv

theorem Shuffled.tag_eq (h : Shuffled n m) :
    m.tag = n.tag ∧ (n.tag = "net" ∨ n.tag = "page") := by
  cases h with
  | page _ _ => exact ⟨rfl, .inr rfl⟩
  | inside _ _ htag _ => exact ⟨rfl, htag⟩

theorem nestedVisits_eq_flatMap (w : Owner) (children : List Node) : nestedVisits w children =
    children.flatMap fun c => if c.isTagged "page" then pageVisits w c else [] := by
  induction children with
  | nil => rfl
  | cons c children ih => rw [nestedVisits, ih, List.flatMap_cons]

theorem Shuffled.isTagged_eq (h : Shuffled n m) (tag : String) :
    m.isTagged tag = n.isTagged tag := by
  cases h <;> rfl

theorem Shuffled.isTagged_eq_false (h : Shuffled n m) (tag : String) (ht : tag ≠ "net")
    (hp : tag ≠ "page") : n.isTagged tag = false := by
  cases h with
  | page _ _ => simpa [Node.isTagged] using hp.symm
  | inside _ _ htag _ => rcases htag with rfl | rfl <;> simp [Node.isTagged, ht.symm, hp.symm]

theorem Shuffled.nodeKind?_eq_none (h : Shuffled n m) : nodeKind? n = none := by
  obtain ⟨-, htag | htag⟩ := h.tag_eq <;> simp [nodeKind?, htag]

theorem isReference_of_isTagged_name (h : n.isTagged "name" = true) : isReference n = false := by
  cases n with
  | element tag attributes children =>
    have htag : tag = "name" := by simpa [Node.isTagged] using h
    subst htag
    rfl
  | text content => cases h
  | aside => cases h

theorem Shuffled.nameOf_eq (h : Shuffled n m) : nameOf m = nameOf n := by
  have hchild : m.child? "name" = n.child? "name" := by
    cases h with
    | @page attributes children others _ hothers =>
      have hskip : ∀ cs : List Node, (cs.filter (!isReference ·)).find? (Node.isTagged "name") =
          cs.find? (Node.isTagged "name") := by
        intro cs
        rw [List.find?_filter]
        refine congrArg (List.find? · cs) (funext fun c => ?_)
        cases hc : c.isTagged "name" with
        | false => simp
        | true => simp [isReference_of_isTagged_name hc]
      change others.find? _ = children.find? _
      rw [← hskip, hothers, hskip]
    | @inside tag attributes before after n m _ hinner =>
      have hn := hinner.isTagged_eq_false "name" (by decide) (by decide)
      have hm := (hinner.isTagged_eq "name").trans hn
      change (before ++ m :: after).find? _ = (before ++ n :: after).find? _
      rw [List.find?_append, List.find?_append, List.find?_cons, List.find?_cons, hn, hm]
  rw [nameOf, nameOf, hchild]

theorem isReadable_of_attributes {k : Kind} (hk : k = .net ∨ k = .page)
    (hattributes : ∀ name, m.attribute? name = n.attribute? name) (h : IsReadable k n) :
    IsReadable k m := by
  have hnode : k.isNode = false := by rcases hk with rfl | rfl <;> rfl
  have hpoints : pointsOf k m = [] := by rcases hk with rfl | rfl <;> rfl
  refine ⟨hattributes "id" ▸ h.id, fun hnet => hattributes "type" ▸ h.format hnet, ?_, ?_, ?_, ?_⟩
  · rintro rfl
    rcases hk with hk | hk <;> cases hk
  · intro hk'
    rw [hnode] at hk'
    cases hk'
  · rintro rfl
    rcases hk with hk | hk <;> cases hk
  · intro p hp
    rw [hpoints] at hp
    cases hp

theorem Shuffled.attribute?_eq (h : Shuffled n m) (name : String) :
    m.attribute? name = n.attribute? name := by
  cases h <;> rfl

theorem Shuffled.gist_eq (h : Shuffled n m) {k : Kind} (hk : k = .net ∨ k = .page)
    (w : Option Owner) : Visit.gist { owner := w, kind := k, element := m } =
      Visit.gist { owner := w, kind := k, element := n } := by
  have hid : idOf m = idOf n := by rw [idOf, idOf, h.attribute?_eq]
  have hends : k ≠ .arc := by rcases hk with rfl | rfl <;> decide
  have hreference : isReference m = isReference n := by rw [isReference, isReference, h.tag_eq.1]
  have hread : IsReadable k m = IsReadable k n := propext
    ⟨isReadable_of_attributes hk fun name => (h.attribute?_eq name).symm,
      isReadable_of_attributes hk h.attribute?_eq⟩
  simp only [Visit.gist, Visit.plate, Visit.id, Visit.name, Visit.ends, Visit.referent?, hid,
    h.nameOf_eq, if_neg hends, hreference, h.attribute?_eq, hread]

theorem Shuffled.perm_direct (h : Shuffled n m) (page : ObjectId) :
    (nodeVisits page m).Perm (nodeVisits page n) ∧ (arcVisits page m).Perm (arcVisits page n) := by
  cases h with
  | page hperm _ => exact ⟨hperm.filterMap _, (hperm.filter _).map _⟩
  | @inside tag attributes before after n m _ hinner =>
    have hn := hinner.nodeKind?_eq_none
    have hm : nodeKind? m = none := by rw [nodeKind?, hinner.tag_eq.1, ← nodeKind?, hn]
    have harc := hinner.isTagged_eq_false "arc" (by decide) (by decide)
    constructor
    · simp [nodeVisits, Node.children, List.filterMap_append, hn, hm]
    · simp [arcVisits, Node.childrenTagged, Node.children, List.filter_append, hinner.isTagged_eq,
        harc]

theorem Shuffled.gists_pageVisits (h : Shuffled n m)
    (hnested : ∀ w, ((nestedVisits w m.children).map Visit.gist).Perm
      ((nestedVisits w n.children).map Visit.gist)) (w : Owner) :
    ((pageVisits w m).map Visit.gist).Perm ((pageVisits w n).map Visit.gist) := by
  have hid : idOf m = idOf n := by rw [idOf, idOf, h.attribute?_eq]
  have hsplit : ∀ {k : Node}, k.isElement = true → pageVisits w k =
      { owner := some w, kind := .page, element := k } :: nodeVisits (idOf k) k ++
        arcVisits (idOf k) k ++ nestedVisits (.page (idOf k)) k.children := by
    intro k hk
    cases k with
    | element tag attributes children => rfl
    | text content => cases hk
    | aside => cases hk
  obtain ⟨hnodes, harcs⟩ := h.perm_direct (idOf n)
  rw [hsplit (by cases h <;> rfl), hsplit (by cases h <;> rfl), hid]
  simp only [List.map_append, List.map_cons, List.cons_append, h.gist_eq (.inr rfl)]
  exact (((hnodes.map _).append (harcs.map _)).append (hnested _)).cons _

theorem Shuffled.gists_nestedVisits (h : Shuffled n m) : ∀ w,
    ((nestedVisits w m.children).map Visit.gist).Perm
      ((nestedVisits w n.children).map Visit.gist) := by
  induction h with
  | page hperm _ =>
    intro w
    rw [nestedVisits_eq_flatMap, nestedVisits_eq_flatMap]
    exact (hperm.flatMap_right _).map _
  | @inside tag attributes before after n m _ hinner ih =>
    intro w
    have hpage := hinner.gists_pageVisits ih w
    simp only [Node.children, nestedVisits_eq_flatMap, List.flatMap_append, List.flatMap_cons,
      List.map_append, hinner.isTagged_eq]
    refine .append .rfl (.append ?_ .rfl)
    split
    · exact hpage
    · exact .rfl

theorem gists_netVisits (h : Relation.ReflTransGen Shuffled n m) :
    ((netVisits m).map Visit.gist).Perm ((netVisits n).map Visit.gist) := by
  induction h with
  | refl => exact .rfl
  | tail _ hstep ih =>
    refine List.Perm.trans ?_ ih
    have hid := hstep.attribute?_eq "id"
    rw [netVisits, netVisits, List.map_cons, List.map_cons, hstep.gist_eq (.inl rfl), idOf, idOf,
      hid]
    exact (hstep.gists_nestedVisits _).cons _

end Shuffle

section Reading

variable {d e : Document} {n m : Node}

theorem nodesFirst_netVisits (n : Node) :
    (((netVisits n).map Visit.plate).map (·.id)).Nodup →
      Plate.NodesFirst ((netVisits n).map Visit.plate) := by
  intro hnodup
  rw [List.map_map] at hnodup
  exact (whole_netVisits n).nodesFirst hnodup

/-- Two documents with the same objects, as far as the others look at them, in any order, and with
the same alias links. -/
structure Matches (d e : Document) : Prop where
  left : d.Reachable Edit.IsPlain
  right : e.Reachable Edit.IsPlain
  plates : e.plates.Perm d.plates
  refers : ∀ i, e.refersTo? i = d.refersTo? i

theorem Matches.symm (h : Matches d e) : Matches e d :=
  ⟨h.right, h.left, h.plates.symm, fun i => (h.refers i).symm⟩

theorem Matches.mem_links (h : Matches d e)
    (hg : ((netVisits m).map Visit.gist).Perm ((netVisits n).map Visit.gist)) (i j : ObjectId) :
    (i, j) ∈ e.referrals ++ linksOf (netVisits m) ↔
      (i, j) ∈ d.referrals ++ linksOf (netVisits n) := by
  rw [List.mem_append, List.mem_append, (links_of_gists hg).mem_iff, ← e.linked_referrals i j,
    ← d.linked_referrals i j, Document.RefersTo, Document.RefersTo, h.refers]

section Net

variable (h : Matches d e) (hn : n.isTagged "net" = true) (hm : m.isTagged "net" = true)
  (hg : ((netVisits m).map Visit.gist).Perm ((netVisits n).map Visit.gist))
include h hn hm hg

theorem Matches.exists_advance (hd : ∃ f, advance d (netSteps n) = some f) :
    ∃ f, advance e (netSteps m) = some f := by
  obtain ⟨hread, hfits, hkinds, hacyclic⟩ :=
    (exists_advance_net_iff h.left d.linked_referrals d.sources_referrals hn).mp hd
  have hplates := plates_of_gists hg
  refine (exists_advance_net_iff h.right e.linked_referrals e.sources_referrals hm).mpr
    ⟨readable_of_gists hg hread, ?_, fun l hl => ?_, fun i hi => ?_⟩
  · exact along_fits_perm h.plates hplates (nodesFirst_netVisits n) (nodesFirst_netVisits m)
      hfits
  · have hsame := hkinds l ((links_of_gists hg).subset hl)
    exact hsame.mono (h.plates.append hplates).symm.subset
  · exact hacyclic i (Relation.TransGen.mono (fun a b => (h.mem_links hg a b).mp) _ _ hi)

theorem Matches.read_net {f g : Document} (hf : advance d (netSteps n) = some f)
    (hg' : advance e (netSteps m) = some g) : Matches f g := by
  obtain ⟨hfreach, hfplates, hflinked⟩ :=
    of_advance_net h.left d.linked_referrals d.sources_referrals hn hf
  obtain ⟨hgreach, hgplates, hglinked⟩ :=
    of_advance_net h.right e.linked_referrals e.sources_referrals hm hg'
  refine ⟨hfreach, hgreach, ?_, fun i => Option.ext fun j => ?_⟩
  · rw [hfplates, hgplates]
    exact h.plates.append (plates_of_gists hg)
  · exact (hglinked i j).trans ((h.mem_links hg i j).trans (hflinked i j).symm)

end Net

abbrev SameButReferences : List Node → List Node → Prop :=
  List.Forall₂ (Relation.ReflTransGen Shuffled)

theorem Matches.advance_nets {nets others : List Node} (h : Matches d e)
    (hnets : ∀ n ∈ nets, n.isTagged "net" = true) (hothers : ∀ n ∈ others, n.isTagged "net" = true)
    (hsame : SameButReferences nets others) :
    ((∃ f, advance d (nets.flatMap netSteps) = some f) ↔
      ∃ g, advance e (others.flatMap netSteps) = some g) ∧
    ∀ f g, advance d (nets.flatMap netSteps) = some f →
      advance e (others.flatMap netSteps) = some g → Matches f g := by
  induction hsame generalizing d e with
  | nil =>
    simp only [List.flatMap_nil, advance_nil, Option.some.injEq, exists_eq', true_and]
    rintro f g rfl rfl
    exact h
  | @cons n m nets others hnm _ ih =>
    obtain ⟨hn, hnets⟩ := List.forall_mem_cons.mp hnets
    obtain ⟨hm, hothers⟩ := List.forall_mem_cons.mp hothers
    have hgists := gists_netVisits hnm
    rw [List.flatMap_cons, List.flatMap_cons, exists_advance_append, exists_advance_append]
    refine ⟨⟨?_, ?_⟩, ?_⟩
    · rintro ⟨f, hf, hrest⟩
      obtain ⟨g, hg⟩ := h.exists_advance hn hm hgists ⟨f, hf⟩
      exact ⟨g, hg, (ih (h.read_net hn hm hgists hf hg) hnets hothers).1.mp hrest⟩
    · rintro ⟨g, hg, hrest⟩
      obtain ⟨f, hf⟩ := h.symm.exists_advance hm hn hgists.symm ⟨g, hg⟩
      exact ⟨f, hf, (ih (h.read_net hn hm hgists hf hg) hnets hothers).1.mpr hrest⟩
    · intro f g hf hg
      rw [advance_append] at hf hg
      obtain ⟨f', hf', hf⟩ := Option.bind_eq_some_iff.mp hf
      obtain ⟨g', hg', hg⟩ := Option.bind_eq_some_iff.mp hg
      exact (ih (h.read_net hn hm hgists hf' hg') hnets hothers).2 f g hf hg

theorem advance_script (d : Document) (root : Node) : advance d (script root) =
    if netElements root = [] then none else advance d ((netElements root).flatMap netSteps) := by
  split
  · next h =>
    rw [script, h]
    rfl
  · next h => rw [script_eq h]

theorem matches_perform {root other : Node} (hd : d.Reachable Edit.IsPlain)
    (h : SameButReferences (netElements root) (netElements other)) :
    ((∃ nets, (perform d (script other)).result = .ok nets) ↔
      ∃ nets, (perform d (script root)).result = .ok nets) ∧
    ∀ nets nets', (perform d (script root)).result = .ok nets →
      (perform d (script other)).result = .ok nets' →
        Matches (perform d (script root)).document (perform d (script other)).document := by
  have hself : Matches d d := ⟨hd, hd, .rfl, fun _ => rfl⟩
  obtain ⟨hiff, hmatches⟩ := hself.advance_nets isTagged_netElements isTagged_netElements h
  have hnil : netElements root = [] ↔ netElements other = [] := by
    rw [← List.length_eq_zero_iff, ← List.length_eq_zero_iff, h.length_eq]
  constructor
  · rw [exists_result_iff, exists_result_iff, advance_script, advance_script]
    by_cases hne : netElements root = []
    · simp [hne, hnil.mp hne]
    · rw [if_neg hne, if_neg (mt hnil.mpr hne), hiff]
  · intro nets nets' hresult hresult'
    obtain ⟨f, hf⟩ := advance_of_result hresult
    obtain ⟨g, hg⟩ := advance_of_result hresult'
    rw [(performs_of_advance hf).perform_eq.1, (performs_of_advance hg).perform_eq.1]
    rw [advance_script] at hf hg
    split at hf
    · cases hf
    · next hne =>
      rw [if_neg (mt hnil.mpr hne)] at hg
      exact hmatches f g hf hg

open Document (Due Closes) in
/-- The order of late links does not matter. Those of nodes that have no referent yet are all made
in every order, and lead to the same document, if they close no cycle; otherwise every order comes
to a link that is refused because of one. So the places of the references in a net decide neither
whether it is read nor which aliases there are then. -/
theorem links_in_any_order (hd : d.Reachable Edit.IsPlain) :
    (∀ links, d.Due links →
      (¬ d.Closes links → ∃ e, ∀ order, order.Perm links → d.linkAll order = .ok e) ∧
      (d.Closes links → ∀ order, order.Perm links →
        ∃ l ∈ links, d.linkAll order = .error (.referenceCycle l.1 l.2))) ∧
    ∀ text text' root root', Xml.parse? text = some root → Xml.parse? text' = some root' →
      SameButReferences (netElements root) (netElements root') →
      ((∃ nets, (read d text').result = .ok nets) ↔ ∃ nets, (read d text).result = .ok nets) ∧
      ∀ nets nets', (read d text).result = .ok nets → (read d text').result = .ok nets' →
        ∀ i, (read d text').document.refersTo? i = (read d text).document.refersTo? i ∧
          Report.aliasesOf (read d text').document i =
            Report.aliasesOf (read d text).document i := by
  refine ⟨fun links hdue => Document.linkAll_order hd hdue, ?_⟩
  intro text text' root root' hroot hroot' hsame
  obtain ⟨hiff, hmatches⟩ := matches_perform hd hsame
  have hread : read d text = perform d (script root) := by rw [read, hroot]
  have hread' : read d text' = perform d (script root') := by rw [read, hroot']
  rw [hread, hread']
  refine ⟨hiff, fun nets nets' hresult hresult' i => ?_⟩
  have h := hmatches nets nets' hresult hresult'
  exact ⟨h.refers i, Document.aliasesOf_congr h.left.aliased h.right.aliased h.refers i⟩

def unlinkedRun : List Action :=
  [.edit (.addNet { id := ⟨"n"⟩, format := .placeTransition }),
    .edit (.add ⟨"n"⟩ (.page { id := ⟨"p"⟩ })),
    .edit (.add ⟨"p"⟩ (.place { id := ⟨"a"⟩ })),
    .edit (.add ⟨"p"⟩ (.place { id := ⟨"b"⟩ })),
    .edit (.add ⟨"p"⟩ (.place { id := ⟨"c"⟩ }))]

theorem uses_unlinkedRun : ∀ a ∈ unlinkedRun, a.Uses Edit.IsPlain := by
  intro a ha
  simp only [unlinkedRun, List.mem_cons, List.not_mem_nil, or_false] at ha
  rcases ha with rfl | rfl | rfl | rfl | rfl
  · exact ⟨rfl, rfl⟩
  · exact ⟨rfl, rfl, rfl, rfl, rfl⟩
  all_goals trivial

/-- A net with an alias behind its referent, and the same net with the alias in front of it. -/
def aliasLast : String :=
  "<net id='m' type='http://www.pnml.org/version-2009/grammar/ptnet'><page id='q'>" ++
    "<place id='x'/><referencePlace id='y' ref='x'/></page></net>"

def aliasFirst : String :=
  "<net id='m' type='http://www.pnml.org/version-2009/grammar/ptnet'><page id='q'>" ++
    "<referencePlace id='y' ref='x'/><place id='x'/></page></net>"

def pageTree (elements : List Node) : Node :=
  .element "net" [("id", "m"), ("type", "http://www.pnml.org/version-2009/grammar/ptnet")]
    [.element "page" [("id", "q")] elements]

def placeElement : Node := .element "place" [("id", "x")] []

def aliasElement : Node := .element "referencePlace" [("id", "y"), ("ref", "x")] []

theorem parse?_aliasLast :
    Xml.parse? aliasLast = some (pageTree [placeElement, aliasElement]) := by cbv

theorem parse?_aliasFirst :
    Xml.parse? aliasFirst = some (pageTree [aliasElement, placeElement]) := by cbv

theorem links_in_any_order_unlinkedRun : (Document.run unlinkedRun).Reachable Edit.IsPlain ∧
    (∃ e, (Document.run unlinkedRun).linkAll [(⟨"a"⟩, ⟨"b"⟩), (⟨"b"⟩, ⟨"c"⟩)] = .ok e ∧
      (Document.run unlinkedRun).linkAll [(⟨"b"⟩, ⟨"c"⟩), (⟨"a"⟩, ⟨"b"⟩)] = .ok e) ∧
    (∃ l ∈ [((⟨"a"⟩ : ObjectId), (⟨"b"⟩ : ObjectId)), (⟨"b"⟩, ⟨"a"⟩)],
      (Document.run unlinkedRun).linkAll [(⟨"b"⟩, ⟨"a"⟩), (⟨"a"⟩, ⟨"b"⟩)] =
        .error (.referenceCycle l.1 l.2)) ∧
    (read (Document.run unlinkedRun) aliasLast).document.refersTo? ⟨"y"⟩ = some ⟨"x"⟩ ∧
      ∀ i, (read (Document.run unlinkedRun) aliasFirst).document.refersTo? i =
        (read (Document.run unlinkedRun) aliasLast).document.refersTo? i := by
  have hd : (Document.run unlinkedRun).Reachable Edit.IsPlain :=
    ⟨unlinkedRun, uses_unlinkedRun, rfl⟩
  obtain ⟨hlinks, hread⟩ := links_in_any_order hd
  have hchain : (Document.run unlinkedRun).Due [(⟨"a"⟩, ⟨"b"⟩), (⟨"b"⟩, ⟨"c"⟩)] := by
    refine ⟨by decide, by decide, ?_⟩
    simp only [List.forall_mem_cons, List.not_mem_nil, false_implies, implies_true, and_true]
    exact ⟨⟨.place, rfl, rfl, rfl⟩, ⟨.place, rfl, rfl, rfl⟩⟩
  have hloop : (Document.run unlinkedRun).Due [(⟨"a"⟩, ⟨"b"⟩), (⟨"b"⟩, ⟨"a"⟩)] := by
    refine ⟨by decide, by decide, ?_⟩
    simp only [List.forall_mem_cons, List.not_mem_nil, false_implies, implies_true, and_true]
    exact ⟨⟨.place, rfl, rfl, rfl⟩, ⟨.place, rfl, rfl, rfl⟩⟩
  have hfree : ¬ (Document.run unlinkedRun).Closes [(⟨"a"⟩, ⟨"b"⟩), (⟨"b"⟩, ⟨"c"⟩)] :=
    (Document.exists_linkAll_iff hd hchain).mp ⟨_, rfl⟩
  have hcloses : (Document.run unlinkedRun).Closes [(⟨"a"⟩, ⟨"b"⟩), (⟨"b"⟩, ⟨"a"⟩)] :=
    ⟨⟨"a"⟩, .tail (.single (.inr (by decide) : _ ∨ (_, (⟨"b"⟩ : ObjectId)) ∈ _)) (.inr (by decide))⟩
  have hsame : SameButReferences (netElements (pageTree [placeElement, aliasElement]))
      (netElements (pageTree [aliasElement, placeElement])) :=
    .cons (.single (.inside [] [] (.inl rfl) (.page (.swap _ _ _) rfl))) .nil
  have hlast : (read (Document.run unlinkedRun) aliasLast).result = .ok [⟨"m"⟩] := by
    decide +kernel
  have hfirst : (read (Document.run unlinkedRun) aliasFirst).result = .ok [⟨"m"⟩] := by
    decide +kernel
  obtain ⟨e, he⟩ := (hlinks _ hchain).1 hfree
  obtain ⟨-, hrefers⟩ := hread _ _ _ _ parse?_aliasLast parse?_aliasFirst hsame
  exact ⟨hd, ⟨e, he _ .rfl, he _ (.swap _ _ _)⟩, (hlinks _ hloop).2 hcloses _ (.swap _ _ _),
    by decide +kernel, fun i => (hrefers _ _ hlast hfirst i).1⟩

end Reading

end Pnml

end PagedNets
