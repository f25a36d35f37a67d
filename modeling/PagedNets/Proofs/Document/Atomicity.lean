import PagedNets.Proofs.Document.Linking
import PagedNets.Proofs.Document.Scope

set_option autoImplicit false

namespace PagedNets

def Table.push {κ α : Type} (t : Table κ α) (k : κ) (a : α) : Table κ α := ⟨t.entries ++ [(k, a)]⟩

def Object.joinScope (child : Object) (names : Table String ObjectId) : Table String ObjectId :=
  match child.scopedName with
  | none => names
  | some n => names.push n child.id

/-- A container before and after it takes in a child: one entry in the table that fits the kind of
the child, a vertex for a node, an edge for an arc, and the name. -/
inductive Object.Takes (child : Object) : Object → Object → Prop
  | net (n : Net) (kind : child.kind = .page) :
    Takes child (.net n) (.net
      { n with names := child.joinScope n.names, pages := n.pages ++ [child.id] })
  | page (p : Page) (kind : child.kind = .page) :
    Takes child (.page p) (.page
      { p with names := child.joinScope p.names, pages := p.pages ++ [child.id] })
  | node (p : Page) (kind : child.kind.isNode = true) :
    Takes child (.page p) (.page
      { p with
        names := child.joinScope p.names
        nodes := p.nodes.push child.id p.graph.vertices.length
        graph := { p.graph with vertices := p.graph.vertices ++ [child.id] } })
  | arc (p : Page) (a b : ObjectId) (v w : Nat) (ends : child.ends = some (a, b))
    (source : p.graph.vertices[v]? = some a) (target : p.graph.vertices[w]? = some b) :
    Takes child (.page p) (.page
      { p with
        names := child.joinScope p.names
        arcs := p.arcs.push child.id p.graph.edges.length
        graph := { p.graph with
          edges := p.graph.edges ++ [{ arc := child.id, source := v, target := w }] } })

namespace Document

open Report (aliasesOf)

/-- All that sets the document `e` apart from `d` once `o` was admitted into `parent`. -/
structure Gains (d : Document) (parent : ObjectId) (o : Object) (e : Document) : Prop where
  last : e.keys = d.keys ++ [o.id]
  entered : ∃ c w, d.object? parent = some c ∧ c.asOwner? = some w ∧ w.id = parent ∧
    e.object? o.id = some (o.admitted w)
  taken : ∃ c x, d.object? parent = some c ∧ e.object? parent = some x ∧ o.Takes c x
  linked : ∀ r, o.reference? = some r → o.id ∉ aliasesOf d r ∧ ∃ x, d.object? r = some x ∧
    e.object? r = some (x.mapAliases (IdSet.insert · o.id))
  kept : ∀ i, i ≠ o.id → i ≠ parent → o.reference? ≠ some i → e.object? i = d.object? i

/-- Admission is decided by `check` alone and never stops halfway. -/
structure Atomic (d : Document) (parent : ObjectId) (o : Object) : Prop where
  accepts : (∃ e, d.add parent o = .ok e) ↔ d.check parent o = .ok ()
  refuses : ∀ cause, d.add parent o = .error cause ↔ d.check parent o = .error cause
  unchanged : ∀ cause, d.add parent o = .error cause → d.act (.edit (.add parent o)) = d
  committed : d.check parent o = .ok () → ∃ w registered e,
    (d.object? parent).bind Object.asOwner? = some w ∧
      d.register (o.admitted w) = .ok registered ∧ d.commit parent o = .ok e ∧
      e.object? o.id = some (o.admitted w) ∧ e.Holds parent o.id
  exact : d.Reachable Edit.IsPlain → ∀ e, d.add parent o = .ok e → d.Gains parent o e

variable {d e : Document} {parent i : ObjectId} {o container : Object} {w : Owner}

namespace Admissible

theorem reference_found (h : d.Admissible parent o container w) {r : ObjectId}
    (hr : o.reference? = some r) : ∃ x, d.object? r = some x ∧ x.kind = o.kind :=
  Option.map_eq_some_iff.mp (kindOf?_of_content h.content hr)

theorem reference_ne_parent (h : d.Admissible parent o container w) :
    o.reference? ≠ some parent := by
  intro hr
  obtain ⟨x, hx, hk⟩ := h.reference_found hr
  have hnode := isNode_of_reference? hr
  obtain ⟨names, hscope, -⟩ := h.scope
  rw [h.found] at hx
  cases hx
  rw [← hk] at hnode
  rcases (Object.scopeFor_eq_ok hscope).2 with ⟨n, rfl, -⟩ | ⟨p, rfl, -⟩ <;> cases hnode

theorem reference_ne_id (h : d.Admissible parent o container w) : o.reference? ≠ some o.id := by
  intro hr
  obtain ⟨x, hx, -⟩ := h.reference_found hr
  rw [h.fresh] at hx
  cases hx

theorem object?_enter (h : d.Admissible parent o container w) (i : ObjectId) :
    (d.enter parent (o.admitted w)).object? i =
      if i = o.id then some (o.admitted w)
      else if i = parent then some ((o.admitted w).adopt container)
      else if o.reference? = some i then (d.object? i).map (·.mapAliases (IdSet.insert · o.id))
      else d.object? i := by
  have hfresh : d.object? (o.admitted w).id = none := Object.id_admitted o w ▸ h.fresh
  have hentered : ((d.append (o.admitted w)).modify parent (o.admitted w).adopt).object? i =
      if i = o.id then some (o.admitted w)
      else if i = parent then some ((o.admitted w).adopt container) else d.object? i := by
    rw [object?_modify, object?_append_of_fresh hfresh, Object.id_admitted]
    by_cases hp : i = parent
    · rw [if_pos hp, hp, if_neg h.parent_ne, if_neg h.parent_ne, if_pos rfl, h.found]
      rfl
    · simp only [if_neg hp]
  unfold enter
  rw [Object.reference?_admitted]
  cases hr : o.reference? with
  | none => simp [hentered]
  | some r =>
    have hid : r ≠ o.id := fun he => h.reference_ne_id (he ▸ hr)
    have hparent : r ≠ parent := fun he => h.reference_ne_parent (he ▸ hr)
    simp only [updateAliases]
    rw [object?_modify, hentered, Object.id_admitted]
    by_cases hi : i = r
    · subst hi
      rw [if_pos rfl, if_neg hid, if_neg hparent, if_neg hid, if_neg hparent, if_pos rfl]
      rfl
    · have hne : ¬ (some r = some i) := fun he => hi (Option.some.inj he).symm
      simp only [if_neg hi, if_neg hne]

end Admissible

end Document

theorem Table.insert_eq_push {t : Table ObjectId Nat} {keys : List ObjectId} {i : ObjectId}
    {v : Nat} (ht : t.keys = keys) (hi : i ∉ keys) : t.insert i v = t.push i v := by
  have hc : t.contains i = false := by
    rw [← Bool.not_eq_true, t.contains_iff_mem_keys, ht]
    exact hi
  exact insert_of_contains_eq_false hc v

theorem Object.enterName_eq_joinScope {child : Object} {names : Table String ObjectId}
    (h : ∀ n, child.scopedName = some n → names.find? n = none) :
    enterName names child.scopedName child.id = child.joinScope names := by
  unfold joinScope
  cases hn : child.scopedName with
  | none => rfl
  | some n => exact Table.insert_of_contains_eq_false ((Table.contains_eq_false _ _).mpr (h n hn)) _

theorem Object.takes_adopt {container child : Object} {children : List Label}
    {names : Table String ObjectId} (h : container.tables.Lists children)
    (hscope : container.scopeFor child.kind = .ok names)
    (hfree : ∀ n, child.scopedName = some n → names.find? n = none)
    (hi : ∀ l ∈ children, l.id ≠ child.id) (hd : (children.map (·.id)).Nodup)
    (harc : ∀ a p, child = .arc a → container = .page p →
      ∃ v w, p.vertex? a.source = some v ∧ p.vertex? a.target = some w) :
    child.Takes container (child.adopt container) := by
  have hnew : ∀ p : Kind → Bool, child.id ∉ idsOf p children := by
    intro p hm
    obtain ⟨l, hl, -, he⟩ := mem_idsOf.mp hm
    exact hi l hl he
  have hname := enterName_eq_joinScope hfree
  rcases scopeFor_eq_ok hscope with ⟨hnames, ⟨n, rfl, hk⟩ | ⟨p, rfl, hk, -⟩⟩ <;> cases hnames
  · have hp : child.id ∉ n.pages := by
      rw [show n.pages = idsOf (· == .page) children from h.pages]
      exact hnew _
    simp only [adopt, Net.insertPage, hname, insertKey_of_not_mem hp]
    exact .net n hk
  · have hpages : child.id ∉ p.pages := by
      rw [show p.pages = idsOf (· == .page) children from h.pages]
      exact hnew _
    have hnodes : p.nodes.insert child.id p.graph.vertices.length =
        p.nodes.push child.id p.graph.vertices.length := Table.insert_eq_push h.keys_nodes (hnew _)
    have harcs : p.arcs.insert child.id p.graph.edges.length =
        p.arcs.push child.id p.graph.edges.length := Table.insert_eq_push h.keys_arcs (hnew _)
    cases child with
    | net n => exact absurd rfl hk
    | page q =>
      simp only [adopt, Page.insertPage, hname, insertKey_of_not_mem hpages]
      exact .page p rfl
    | place q =>
      simp only [adopt, Page.insertNode, hname, hnodes]
      exact .node p rfl
    | transition q =>
      simp only [adopt, Page.insertNode, hname, hnodes]
      exact .node p rfl
    | arc a =>
      obtain ⟨v, w, hv, hw⟩ := harc a p rfl rfl
      have hsource := (h.vertex_iff hd).mp hv
      have htarget := (h.vertex_iff hd).mp hw
      change p.arcs.insert a.id _ = _ at harcs
      change enterName p.names _ a.id = _ at hname
      simp only [adopt, hv, hw, Page.insertArc, hname, harcs]
      exact .arc p a.source a.target v w rfl hsource htarget

theorem Object.listed_of_adopt {child container : Object} {names : Table String ObjectId}
    (hscope : container.scopeFor child.kind = .ok names)
    (harc : ∀ a p, child = .arc a → container = .page p →
      ∃ v w, p.vertex? a.source = some v ∧ p.vertex? a.target = some w) :
    child.id ∈ (child.adopt container).tables.pages ∨
      child.id ∈ (child.adopt container).tables.nodes.keys ∨
      child.id ∈ (child.adopt container).tables.arcs.keys := by
  have hpages : ∀ keys, child.id ∈ insertKey keys child.id := by
    intro keys
    unfold insertKey
    split
    · next hc => simpa using hc
    · simp
  have htable : ∀ (t : Table ObjectId Nat) v, child.id ∈ (t.insert child.id v).keys := by
    intro t v
    rw [Table.mem_keys_iff]
    exact ⟨v, by rw [Table.find?_insert, if_pos rfl]⟩
  rcases (scopeFor_eq_ok hscope).2 with ⟨n, rfl, -⟩ | ⟨p, rfl, hk, -⟩
  · exact .inl (hpages _)
  · cases child with
    | net n => exact absurd rfl hk
    | page q => exact .inl (hpages _)
    | place q => exact .inr (.inl (htable _ _))
    | transition q => exact .inr (.inl (htable _ _))
    | arc a =>
      obtain ⟨v, w, hv, hw⟩ := harc a p rfl rfl
      simp only [adopt, hv, hw]
      exact .inr (.inr (htable _ _))

theorem Object.takes_of_admitted {o c x : Object} {w : Owner} (h : (o.admitted w).Takes c x) :
    o.Takes c x := by
  have hid := o.id_admitted w
  have hkind := o.kind_admitted w
  have hends : (o.admitted w).ends = o.ends := by cases o <;> rfl
  have hscope : (o.admitted w).joinScope = o.joinScope := by
    funext names
    rw [joinScope, joinScope, scopedName_admitted, hid]
  cases h with
  | net n hk =>
    rw [hid, hscope]
    exact .net n (hkind ▸ hk)
  | page p hk =>
    rw [hid, hscope]
    exact .page p (hkind ▸ hk)
  | node p hk =>
    rw [hid, hscope]
    exact .node p (hkind ▸ hk)
  | arc p a b v w he hv hw =>
    rw [hid, hscope]
    exact .arc p a b v w (hends ▸ he) hv hw

namespace Document

open Report (aliasesOf)

variable {d e : Document} {parent : ObjectId} {o container : Object} {w : Owner}

theorem Admissible.joins_of_arc (h : d.Admissible parent o container w) (a : Arc) (p : Page)
    (ha : o.admitted w = .arc a) (hp : container = .page p) :
    ∃ s t, p.vertex? a.source = some s ∧ p.vertex? a.target = some t := by
  obtain ⟨s, t, hs, ht, -⟩ := h.joins ha hp
  exact ⟨s, t, hs, ht⟩

/-- In any state, what is admitted is listed by its container. -/
theorem Admissible.holds (h : d.Admissible parent o container w) :
    (d.enter parent (o.admitted w)).Holds parent o.id := by
  refine ⟨(o.admitted w).adopt container, ?_, ?_⟩
  · rw [h.object?_enter, if_neg h.parent_ne, if_pos rfl]
  · obtain ⟨names, hscope, -⟩ := h.scope
    rw [← Object.id_admitted o w]
    exact Object.listed_of_adopt (Object.kind_admitted o w ▸ hscope) h.joins_of_arc

theorem check_cases (d : Document) (parent : ObjectId) (o : Object) :
    (∃ container w, d.Admissible parent o container w ∧ d.check parent o = .ok () ∧
      d.add parent o = .ok (d.enter parent (o.admitted w))) ∨
    ∃ cause, d.check parent o = .error cause ∧ d.add parent o = .error cause := by
  cases hc : d.check parent o with
  | error cause => exact .inr ⟨cause, rfl, by rw [add, hc]; rfl⟩
  | ok u =>
    obtain ⟨container, w, h⟩ := check_eq_ok_iff.mp hc
    exact .inl ⟨container, w, h, rfl, add_eq_ok_iff.mpr ⟨container, w, h, rfl⟩⟩

theorem Reachable.gains (hd : d.Reachable Edit.IsPlain) (h : d.Admissible parent o container w) :
    d.Gains parent o (d.enter parent (o.admitted w)) := by
  obtain ⟨names, hscope, hcheck⟩ := h.scope
  have hr := hd.registered
  have hid : w.id = parent := by rw [Object.id_of_asOwner? h.owner, hr.id_of_object? h.found]
  have hnew : ∀ l ∈ d.children w, l.id ≠ (o.admitted w).id := by
    intro l hl he
    rw [Object.id_admitted] at he
    have hm : l.id ∈ d.keys := hr.stored ▸ List.mem_map_of_mem (mem_children.mp hl).1
    exact Registered.not_mem_keys h.fresh (he ▸ hm)
  constructor
  case last => rw [keys_enter, Object.id_admitted]
  case entered =>
    exact ⟨container, w, h.found, h.owner, hid, by rw [h.object?_enter, if_pos rfl]⟩
  case taken =>
    refine ⟨container, (o.admitted w).adopt container, h.found, ?_, ?_⟩
    · rw [h.object?_enter, if_neg h.parent_ne, if_pos rfl]
    · have htakes := Object.takes_adopt (hd.tabled parent container w h.found h.owner)
        (Object.kind_admitted o w ▸ hscope)
        (fun n hn => checkName_eq_ok_iff.mp hcheck n (Object.scopedName_admitted o w ▸ hn))
        hnew (hr.nodup_children w) h.joins_of_arc
      exact Object.takes_of_admitted htakes
  case linked =>
    intro r href
    obtain ⟨x, hx, -⟩ := h.reference_found href
    refine ⟨fun hm => ?_, x, hx, ?_⟩
    · have hrefers := (hd.aliased.inverse o.id r).mp hm
      rw [RefersTo, refersTo?_of_isNone h.fresh] at hrefers
      cases hrefers
    · have hid : r ≠ o.id := fun he => h.reference_ne_id (he ▸ href)
      have hparent : r ≠ parent := fun he => h.reference_ne_parent (he ▸ href)
      rw [h.object?_enter, if_neg hid, if_neg hparent, if_pos href, hx]
      rfl
  case kept =>
    intro i hi hp hne
    rw [h.object?_enter, if_neg hi, if_neg hp, if_neg hne]

/-- Admission is one step: `check` decides, what it accepts is entered completely, what it refuses
changes nothing. -/
theorem atomic_add (d : Document) (parent : ObjectId) (o : Object) : d.Atomic parent o := by
  rcases d.check_cases parent o with ⟨container, w, h, hcheck, hadd⟩ | ⟨cause, hcheck, hadd⟩
  · constructor
    case accepts => simp [hadd, hcheck]
    case refuses => simp [hadd, hcheck]
    case unchanged => simp [hadd]
    case committed =>
      intro _
      have hregister : d.register (o.admitted w) = .ok (d.append (o.admitted w)) :=
        register_eq_ok_iff.mpr ⟨Object.id_admitted o w ▸ h.fresh, rfl⟩
      refine ⟨w, _, _, ?_, hregister, commit_of_admissible h, ?_, h.holds⟩
      · rw [h.found, Option.bind_some, h.owner]
      · rw [h.object?_enter, if_pos rfl]
    case exact =>
      intro hd e he
      rw [hadd] at he
      cases he
      exact hd.gains h
  · constructor
    case accepts => simp [hadd, hcheck]
    case refuses => simp [hadd, hcheck]
    case unchanged =>
      intro _ _
      have hedit : d.edit (.add parent o) = .error cause := hadd
      rw [act, hedit]
    case committed => simp [hcheck]
    case exact => simp [hadd]

def backArc : Object :=
  .arc { id := ⟨"ba"⟩, name := some "back", source := ⟨"b"⟩, target := ⟨"a"⟩ }

theorem atomic_add_backArc :
    (run nestedRun).Reachable Edit.IsPlain ∧
      (run nestedRun).add ⟨"p"⟩ backArc =
        .error (.endpointOutsidePage ⟨"ba"⟩ ⟨"b"⟩ ⟨"p"⟩) ∧
      (run nestedRun).act (.edit (.add ⟨"p"⟩ backArc)) = run nestedRun ∧
      ∃ e, (run nestedRun).add ⟨"q"⟩ backArc = .ok e ∧ (run nestedRun).Gains ⟨"q"⟩ backArc e := by
  have hd : (run nestedRun).Reachable Edit.IsPlain := ⟨nestedRun, uses_nestedRun, rfl⟩
  have houter := atomic_add (run nestedRun) ⟨"p"⟩ backArc
  have hinner := atomic_add (run nestedRun) ⟨"q"⟩ backArc
  have hrefused : (run nestedRun).add ⟨"p"⟩ backArc =
      .error (.endpointOutsidePage ⟨"ba"⟩ ⟨"b"⟩ ⟨"p"⟩) := (houter.refuses _).mpr (by decide)
  obtain ⟨e, he⟩ := hinner.accepts.mpr (by decide)
  exact ⟨hd, hrefused, houter.unchanged _ hrefused, e, he, hinner.exact hd e he⟩

end Document

end PagedNets
