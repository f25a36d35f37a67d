import PagedNets.Proofs.Document.Geometry
import PagedNets.Proofs.Document.Naming
import PagedNets.Proofs.Document.Preorder

/-!
Copying a document object by object. A partial copy holds some of the objects of a document, bare of
all that the document derives by itself; the next one in order is always admitted, and so is every
alias link between objects that are there.
-/

set_option autoImplicit false

namespace PagedNets

namespace Object

/-- The object with the empty name taken for none, and a marking without tokens in its usual
place. -/
def reread : Object → Object
  | .net n => .net { n with name := n.name.filter (!·.isEmpty) }
  | .page p => .page { p with name := p.name.filter (!·.isEmpty) }
  | .place p => .place { p with
      name := p.name.filter (!·.isEmpty)
      markingOffset := if p.tokens = 0 then {} else p.markingOffset }
  | .transition t => .transition { t with name := t.name.filter (!·.isEmpty) }
  | .arc a => .arc { a with name := a.name.filter (!·.isEmpty) }

/-- What an object says for itself, without the tables, the scope of names and the alias links. -/
def core : Object → Object
  | .net n => .net { n with names := .empty, pages := [] }
  | .page p => .page { id := p.id, name := p.name, owner := p.owner }
  | .place p => .place { p with node := { p.node with reference := none, referencedBy := [] } }
  | .transition t =>
    .transition { t with node := { t.node with reference := none, referencedBy := [] } }
  | .arc a => .arc a

def fresh : Object → Object
  | .net n => .net { id := n.id, name := n.name.filter (!·.isEmpty), format := n.format }
  | .page p => .page { id := p.id, name := p.name.filter (!·.isEmpty) }
  | .place p => .place {
      id := p.id
      name := p.name.filter (!·.isEmpty)
      node := { position := p.node.position, size := p.node.size }
      tokens := p.tokens
      markingOffset := if p.tokens = 0 then {} else p.markingOffset }
  | .transition t => .transition {
      id := t.id
      name := t.name.filter (!·.isEmpty)
      node := { position := t.node.position, size := t.node.size } }
  | .arc a => .arc {
      id := a.id, name := a.name.filter (!·.isEmpty), source := a.source, target := a.target,
      kind := a.kind, curve := a.curve }

@[simp] theorem label_core (o : Object) : o.core.label = o.label := by cases o <;> rfl

@[simp] theorem label_reread (o : Object) : o.reread.label = o.label := by cases o <;> rfl

@[simp] theorem scopedName_core (o : Object) : o.core.scopedName = o.scopedName := by
  cases o <;> rfl

@[simp] theorem scopedName_reread (o : Object) : o.reread.scopedName = o.scopedName := by
  cases o <;> exact Document.filter_nonempty_filter _

@[simp] theorem id_fresh (o : Object) : o.fresh.id = o.id := by cases o <;> rfl

@[simp] theorem kind_fresh (o : Object) : o.fresh.kind = o.kind := by cases o <;> rfl

@[simp] theorem scopedName_fresh (o : Object) : o.fresh.scopedName = o.scopedName := by
  cases o <;> exact Document.filter_nonempty_filter _

@[simp] theorem reference?_fresh (o : Object) : o.fresh.reference? = none := by cases o <;> rfl

theorem isBare_fresh (o : Object) : o.fresh.IsBare := by
  cases o with
  | net n => exact ⟨rfl, rfl⟩
  | page p => exact ⟨rfl, rfl, rfl, rfl, rfl⟩
  | _ => trivial

theorem core_admitted_fresh {o : Object} {w : Owner} (h : o.owner = some w) :
    (o.fresh.admitted w).core = o.reread.core := by
  cases o with
  | net n => cases h
  | page p =>
    obtain ⟨i, name, owner, _⟩ := p
    cases h
    rfl
  | place p =>
    obtain ⟨i, name, owner, _⟩ := p
    cases h
    rfl
  | transition t =>
    obtain ⟨i, name, owner, _⟩ := t
    cases h
    rfl
  | arc a =>
    obtain ⟨i, name, owner, _⟩ := a
    cases h
    rfl

theorem core_mapAliases (g : IdSet → IdSet) (o : Object) : (o.mapAliases g).core = o.core := by
  cases o <;> rfl

theorem core_adopt (child o : Object) : (child.adopt o).core = o.core := by
  cases o with
  | page p =>
    cases child with
    | arc a =>
      simp only [adopt]
      split <;> rfl
    | _ => rfl
  | _ => rfl

theorem label_of_core {o x : Object} (h : x.core = o.reread.core) : x.label = o.label := by
  rw [← label_core x, h, label_core, label_reread]

theorem scopedName_of_core {o x : Object} (h : x.core = o.reread.core) :
    x.scopedName = o.scopedName := by
  rw [← scopedName_core x, h, scopedName_core, scopedName_reread]

end Object

namespace Document

def arrival (o : Object) : Edit :=
  match o, o.owner with
  | .net n, _ => .addNet { id := n.id, name := n.name.filter (!·.isEmpty), format := n.format }
  | _, some w => .add w.id o.fresh
  | _, none => .add default o.fresh

/-- The document `e` holds those objects of `d` whose keys are given, and of its alias links some
between them. -/
structure Copies (d e : Document) (present : List ObjectId) : Prop where
  reachable : e.Reachable Edit.IsPlain
  keys : e.keys = present
  same : ∀ i x, e.object? i = some x → ∃ o, d.object? i = some o ∧ x.core = o.reread.core
  refers : ∀ i j, e.RefersTo i j → d.RefersTo i j

variable {d e : Document} {present : List ObjectId} {i j : ObjectId}

theorem Reachable.scopeFor_copy (hd : d.Reachable Edit.IsPlain) {o c x : Object} {w : Owner}
    (ho : d.object? i = some o) (hw : o.owner = some w)
    (hc : d.object? w.id = some c) (hcw : c.asOwner? = some w) (hxc : x.core = c.reread.core) :
    ∃ names, x.scopeFor o.kind = .ok names ∧ x.names? = some names := by
  obtain ⟨hr, ht⟩ := hd.registered_and_tabled
  have hlabel := Object.label_of_core hxc
  have hkind := Object.kind_of_label hlabel
  have hnet := Object.kind_ne_net_of_owner hw
  cases c with
  | net n =>
    obtain ⟨m, rfl⟩ := Object.eq_net_of_kind hkind
    cases hcw
    have hpage := kind_of_owner_net hr ht ho hw
    exact ⟨m.names, by rw [hpage]; rfl, rfl⟩
  | page p =>
    obtain ⟨q, rfl⟩ := Object.eq_page_of_kind hkind
    obtain ⟨v, _, hv, _⟩ := hr.owner_spec hc (by simp [Object.kind])
    have howner : q.owner = some v := (Object.owner_of_label hlabel).trans hv
    refine ⟨q.names, ?_, rfl⟩
    simp [Object.scopeFor, hnet, howner]
  | place p => cases hcw
  | transition t => cases hcw
  | arc a => cases hcw

namespace Copies

theorem object? (h : d.Copies e present) (hi : i ∈ present) :
    ∃ o x, d.object? i = some o ∧ e.object? i = some x ∧ x.core = o.reread.core := by
  rw [← h.keys] at hi
  obtain ⟨x, hx⟩ := (e.mem_keys_iff i).mp hi
  obtain ⟨o, ho, hox⟩ := h.same i x hx
  exact ⟨o, x, ho, hx, hox⟩

theorem object?_eq_none (h : d.Copies e present) (hi : i ∉ present) : e.object? i = none := by
  cases hx : e.object? i with
  | none => rfl
  | some x => exact absurd (h.keys ▸ mem_keys_of_object? hx) hi

theorem calls (h : d.Copies e present) {w : Owner} {n : String} (hc : e.Calls w n i) :
    d.Calls w n i := by
  obtain ⟨x, hx, hxw, hxn⟩ := hc
  obtain ⟨o, ho, hox⟩ := h.same i x hx
  refine ⟨o, ho, ?_, ?_⟩
  · rw [← Object.owner_of_label (Object.label_of_core hox), hxw]
  · rw [← Object.scopedName_of_core hox, hxn]

section

variable (hd : d.Reachable Edit.IsPlain) (h : d.Copies e present)
include hd h

theorem container {o : Object} {w : Owner} (ho : d.object? i = some o) (hw : o.owner = some w)
    (hneeds : d.Needs present i) : ∃ c x, d.object? w.id = some c ∧ c.asOwner? = some w ∧
      e.object? w.id = some x ∧ x.asOwner? = some w ∧ x.core = c.reread.core := by
  obtain ⟨w', c, hw', hc, hcw, _⟩ :=
    hd.registered.owner_spec ho (Object.kind_ne_net_of_owner hw)
  rw [hw] at hw'
  cases hw'
  obtain ⟨c', x, hc', hx, hxc⟩ := h.object? ((hneeds o ho).1 w hw)
  rw [hc] at hc'
  cases hc'
  refine ⟨c, x, hc, hcw, hx, ?_, hxc⟩
  rw [Object.asOwner?_of_label (Object.label_of_core hxc), hcw]

/-- Nobody in the copy has the name, since in the document only the object itself has it. -/
theorem checkName {o c x : Object} {w : Owner} {names : Table String ObjectId}
    (hi : i ∉ present) (ho : d.object? i = some o) (hw : o.owner = some w)
    (hc : d.object? w.id = some c) (hcw : c.asOwner? = some w) (hx : e.object? w.id = some x)
    (hxw : x.asOwner? = some w) (hnames : x.names? = some names) :
    Document.checkName x.id names o.fresh = .ok () := by
  rw [checkName_eq_ok_iff, Object.scopedName_fresh]
  intro n hn
  cases hf : names.find? n with
  | none => rfl
  | some j =>
    have hcalls := (h.reachable.named w.id x w names hx hxw hnames n j).mp hf
    have hj : j ∈ present := by
      obtain ⟨y, hy, _⟩ := hcalls
      rw [← h.keys]
      exact mem_keys_of_object? hy
    obtain ⟨scope, hscope⟩ : ∃ scope, c.names? = some scope := by
      cases c <;> first | exact ⟨_, rfl⟩ | cases hcw
    have hnamed := hd.named w.id c w scope hc hcw hscope n
    have hself := (hnamed i).mpr ⟨o, ho, hw, hn⟩
    rw [(hnamed j).mpr (h.calls hcalls)] at hself
    cases hself
    exact absurd hj hi

theorem node_on_page {p q : Page} (hp : d.page? j = some p) (hq : e.page? j = some q)
    (hi : i ∈ present) (hn : i ∈ p.nodes.keys) : ∃ v, (∃ n, e.node? i = some n) ∧
      q.vertex? i = some v := by
  obtain ⟨o, x, ho, hx, hox⟩ := h.object? hi
  have hc := contained_of_tabled hd.registered hd.tabled
  have hce := contained_of_tabled h.reachable.registered h.reachable.tabled
  obtain ⟨o', ho', hok, how⟩ := ((hc.nodes j p hp).2 i).mp hn
  rw [ho] at ho'
  cases ho'
  have hlabel := Object.label_of_core hox
  have hxk : x.kind.isNode = true := by
    rw [Object.kind_of_label hlabel]
    exact hok
  have hmem : i ∈ q.nodes.keys :=
    ((hce.nodes j q hq).2 i).mpr ⟨x, hx, hxk, (Object.owner_of_label hlabel).trans how⟩
  obtain ⟨v, hv⟩ := Table.mem_keys_iff.mp hmem
  refine ⟨v, ?_, hv⟩
  rw [node?, hx]
  exact Option.isSome_iff_exists.mp ((x.isSome_node?_iff).trans hxk)

theorem checkArc {a : Arc} {p q : Page} (hi : i ∉ present) (ho : d.object? i = some (.arc a))
    (hf : a.curve.all Point.isFinite = true) (hw : a.owner = some (.page j))
    (hp : d.page? j = some p) (hq : e.page? j = some q) (hneeds : d.Needs present i)
    {b : Arc} (hb : b.source = a.source ∧ b.target = a.target ∧ b.curve = a.curve) :
    e.checkArc q b = .ok () := by
  have hc := contained_of_tabled hd.registered hd.tabled
  have hm : i ∈ p.arcs.keys := ((hc.arcs j p hp).2 i).mpr ⟨a, arc?_eq_some_iff.mpr ho, hw⟩
  obtain ⟨a', ha', _, hs, ht⟩ := hd.ends_on_page hp hm
  rw [ho] at ha'
  cases ha'
  obtain ⟨hsk, htk⟩ := (hneeds _ ho).2 a.source a.target rfl
  obtain ⟨v, hvn, hv⟩ := h.node_on_page hd hp hq hsk hs
  obtain ⟨t, htn, htv⟩ := h.node_on_page hd hp hq htk ht
  obtain ⟨hbs, hbt, hbc⟩ := hb
  rw [checkArc_eq_ok_iff, hbs, hbt, hbc]
  refine ⟨hf, v, t, endpoint_eq_ok_iff.mpr ⟨hvn, hv⟩, endpoint_eq_ok_iff.mpr ⟨htn, htv⟩, ?_⟩
  cases hfind : q.graph.findEdge? v t with
  | none => rfl
  | some f =>
    have hbetween : q.arcBetween? a.source a.target = some f.arc := by
      simp only [Page.arcBetween?, bind, hv, htv, Option.bind_some, hfind, Option.map_some]
    obtain ⟨y, hy, hyw, hys, hyt⟩ := (h.reachable.arcBetween?_iff hq).mp hbetween
    obtain ⟨o, ho', hyo⟩ := h.same f.arc _ (arc?_eq_some_iff.mp hy)
    have hlabel := Object.label_of_core hyo
    obtain ⟨z, rfl⟩ := Object.eq_arc_of_kind (Object.kind_of_label hlabel).symm
    have hends : some (y.source, y.target) = some (z.source, z.target) :=
      congrArg Label.ends hlabel
    have hzw : z.owner = some (.page j) := (Object.owner_of_label hlabel).symm.trans hyw
    simp only [Option.some.injEq, Prod.mk.injEq] at hends
    have hzs : z.source = a.source := hends.1.symm.trans hys
    have hzt : z.target = a.target := hends.2.symm.trans hyt
    have hdz := (hd.arcBetween?_iff hp).mpr ⟨z, arc?_eq_some_iff.mpr ho', hzw, hzs, hzt⟩
    have hda := (hd.arcBetween?_iff hp).mpr ⟨a, arc?_eq_some_iff.mpr ho, hw, rfl, rfl⟩
    rw [hdz] at hda
    cases hda
    exact absurd (h.keys ▸ mem_keys_of_object? (arc?_eq_some_iff.mp hy)) hi

theorem checkContent (hfin : d.Finite) {o c x : Object} {w : Owner} (hi : i ∉ present)
    (ho : d.object? i = some o) (hw : o.owner = some w) (hc : d.object? w.id = some c)
    (hx : e.object? w.id = some x) (hxc : x.core = c.reread.core) (hneeds : d.Needs present i) :
    e.checkContent x o.fresh = .ok () := by
  have hofin := hfin i o ho
  cases o with
  | net n => rfl
  | page p => rfl
  | place p =>
    refine checkPlace_eq_ok_iff.mpr
      ⟨checkNode_eq_ok_iff.mpr ⟨hofin.1, fun r hr => by cases hr⟩, ?_⟩
    dsimp only
    split
    · decide
    · exact hofin.2
  | transition t =>
    have hnode : e.checkNode t.id .transition
        { position := t.node.position, size := t.node.size } = .ok () :=
      checkNode_eq_ok_iff.mpr ⟨hofin, fun r hr => by cases hr⟩
    exact hnode
  | arc a =>
    obtain ⟨hr, ht⟩ := hd.registered_and_tabled
    obtain ⟨p, how, hp⟩ := standing_of_kind hr ht ho (.inr rfl)
    rw [hw] at how
    cases how
    have hcp : c = .page p := by
      have hfound : d.object? (Owner.page p.id).id = some (.page p) := page?_eq_some_iff.mp hp
      rw [hc] at hfound
      exact Option.some.inj hfound
    subst hcp
    obtain ⟨q, rfl⟩ := Object.eq_page_of_kind (Object.kind_of_label (Object.label_of_core hxc))
    exact h.checkArc hd hi ho hofin hw hp (page?_eq_some_iff.mpr hx) hneeds ⟨rfl, rfl, rfl⟩

theorem add (hfin : d.Finite) {o : Object} (hi : i ∉ present) (ho : d.object? i = some o)
    {w : Owner} (hw : o.owner = some w) (hneeds : d.Needs present i) :
    ∃ f, e.add w.id o.fresh = .ok f ∧ d.Copies f (present ++ [i]) ∧
      ∀ k, k ≠ i → f.refersTo? k = e.refersTo? k := by
  obtain ⟨hr, ht⟩ := hd.registered_and_tabled
  have hid : o.id = i := hr.id_of_object? ho
  obtain ⟨c, x, hc, hcw, hx, hxw, hxc⟩ := h.container hd ho hw hneeds
  obtain ⟨names, hscope, hnames⟩ := hd.scopeFor_copy ho hw hc hcw hxc
  have hfresh : e.object? o.fresh.id = none := by
    rw [Object.id_fresh, hid]
    exact h.object?_eq_none hi
  have hadmissible : e.Admissible w.id o.fresh x w := by
    refine ⟨hx, hxw, ?_, hfresh, ⟨names, ?_, ?_⟩, h.checkContent hd hfin hi ho hw hc hx hxc hneeds⟩
    · rw [Object.id_fresh, hid]
      exact hr.nonempty i (mem_keys_of_object? ho)
    · rw [Object.kind_fresh]
      exact hscope
    · exact h.checkName hd hi ho hw hc hcw hx hxw hnames
  have hadd := add_eq_ok_iff.mpr ⟨x, w, hadmissible, rfl⟩
  have hcid : (o.fresh.admitted w).id = i := by rw [Object.id_admitted, Object.id_fresh, hid]
  have hcfresh : e.object? (o.fresh.admitted w).id = none := by
    rw [hcid]
    exact h.object?_eq_none hi
  refine ⟨_, hadd, ⟨?_, ?_, ?_, ?_⟩, ?_⟩
  · exact h.reachable.edit (show (Edit.add w.id o.fresh).IsPlain from o.isBare_fresh) hadd
  · rw [keys_enter, h.keys, hcid]
  · intro k y hy
    obtain ⟨z, hz, hyz⟩ := object?_enter Object.core_mapAliases hcfresh hy
    have hcore : y.core = z.core := by
      rw [hyz]
      split
      · exact Object.core_adopt _ _
      · rfl
    rw [hcore]
    by_cases hk : k = (o.fresh.admitted w).id
    · rw [if_pos hk] at hz
      cases hz
      rw [hk, hcid]
      exact ⟨o, ho, Object.core_admitted_fresh hw⟩
    · rw [if_neg hk] at hz
      exact h.same k z hz
  · intro a b hab
    rw [RefersTo, refersTo?_enter hcfresh] at hab
    split at hab
    · rw [Object.reference?_admitted, Object.reference?_fresh] at hab
      cases hab
    · exact h.refers a b hab
  · intro k hk
    rw [refersTo?_enter hcfresh, hcid, if_neg hk]

theorem addNet {n : Net} (hi : n.id ∉ present) (hn : d.net? n.id = some n) :
    ∃ f, e.addNet { id := n.id, name := n.name.filter (!·.isEmpty), format := n.format } = .ok f ∧
      d.Copies f (present ++ [n.id]) ∧ ∀ k, k ≠ n.id → f.refersTo? k = e.refersTo? k := by
  have ho := net?_eq_some_iff.mp hn
  have hfresh := h.object?_eq_none hi
  have hne := hd.registered.nonempty n.id (mem_keys_of_object? ho)
  have hadd := (addNet_eq_ok_iff (d := e)
    (n := { id := n.id, name := n.name.filter (!·.isEmpty), format := n.format })).mpr
    ⟨hne, hfresh, rfl⟩
  have hrefers : ∀ k, (e.append (Object.net n).fresh).refersTo? k =
      if k = n.id then none else e.refersTo? k :=
    refersTo?_append (o := (Object.net n).fresh) hfresh
  have hobject : ∀ k, (e.append (Object.net n).fresh).object? k =
      if k = n.id then some (Object.net n).fresh else e.object? k :=
    object?_append_of_fresh (o := (Object.net n).fresh) hfresh
  refine ⟨_, hadd, ⟨?_, ?_, ?_, ?_⟩, ?_⟩
  · exact h.reachable.edit (show (Edit.addNet _).IsPlain from ⟨rfl, rfl⟩) hadd
  · rw [keys_append, h.keys]
    rfl
  · intro k y hy
    have hy : (e.append (Object.net n).fresh).object? k = some y := hy
    rw [hobject] at hy
    split at hy
    · next hk =>
      cases hy
      exact ⟨.net n, hk ▸ ho, rfl⟩
    · exact h.same k y hy
  · intro a b hab
    have hab : (e.append (Object.net n).fresh).refersTo? a = some b := hab
    rw [hrefers] at hab
    split at hab
    · cases hab
    · exact h.refers a b hab
  · intro k hk
    exact (hrefers k).trans (if_neg hk)

/-- Every object that is due can be brought in. -/
theorem arrive (hfin : d.Finite) {o : Object} (hi : i ∉ present) (ho : d.object? i = some o)
    (hneeds : d.Needs present i) :
    ∃ f, e.edit (arrival o) = .ok f ∧ d.Copies f (present ++ [i]) ∧
      ∀ k, k ≠ i → f.refersTo? k = e.refersTo? k := by
  have hid : o.id = i := hd.registered.id_of_object? ho
  cases hw : o.owner with
  | none =>
    have hnet : o.kind = .net := by
      by_contra hk
      obtain ⟨w, _, hw', _⟩ := hd.registered.owner_spec ho hk
      rw [hw] at hw'
      cases hw'
    obtain ⟨n, rfl⟩ := Object.eq_net_of_kind hnet
    subst hid
    exact h.addNet hd hi (net?_eq_some_iff.mpr ho)
  | some w =>
    have harrival : arrival o = .add w.id o.fresh := by
      cases o with
      | net n => cases hw
      | _ => simp only [arrival, hw]
    rw [harrival]
    exact h.add hd hfin hi ho hw hneeds

end

end Copies

end Document

end PagedNets
