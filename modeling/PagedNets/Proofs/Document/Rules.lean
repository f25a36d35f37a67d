import PagedNets.Proofs.Document.Alias
import PagedNets.Proofs.Document.Geometry
import PagedNets.Proofs.Document.NameLookup

set_option autoImplicit false

namespace PagedNets

namespace Document

/-- What is looked at when an object is to be admitted, in this order. -/
inductive Rule where
  | identified | attached | housed | fresh | named
  | finite | reference | marked | source | target | single
  deriving DecidableEq, Repr

def Rule.common : List Rule := [.identified, .attached, .housed, .fresh, .named]

def Rule.content : List Rule := [.finite, .reference, .marked, .source, .target, .single]

def Houses (container : Object) (k : Kind) : Prop :=
  container.kind = .net ∧ k = .page ∨ container.kind = .page ∧ k ≠ .net

/-- An end of an arc that is no node, or a node that does not stand on the page. -/
inductive Astray (d : Document) (page arc i : ObjectId) : NetError → Prop
  | unknown : d.node? i = none → Astray d page arc i (.unresolvedEndpoint arc i)
  | elsewhere {x : Object} : d.object? i = some x → x.kind.isNode = true →
      x.owner ≠ some (.page page) → Astray d page arc i (.endpointOutsidePage arc i page)

/-- An object breaks a rule. All this is about the objects of the document and their owners. -/
inductive Breaks (d : Document) (parent : ObjectId) (o : Object) : Rule → NetError → Prop
  | identified : o.id.isEmpty = true → Breaks d parent o .identified .emptyId
  | attached : d.object? parent = none → Breaks d parent o .attached (.detached parent)
  | housed {c : Object} : d.object? parent = some c → ¬ Houses c o.kind →
      Breaks d parent o .housed (.invalidChild parent c.kind o.kind)
  | fresh {x : Object} : d.object? o.id = some x → Breaks d parent o .fresh (.duplicateId o.id)
  | named {i : ObjectId} {x : Object} {n : String} : d.object? i = some x → x.Bears parent n →
      o.scopedName = some n → Breaks d parent o .named (.duplicateName parent n)
  | extent : o.isPlaced = false → Breaks d parent o .finite (.nonFiniteGeometry o.id)
  | curve {a : Arc} : o = .arc a → a.curve.all Point.isFinite = false →
      Breaks d parent o .finite (.nonFiniteGeometry o.id)
  | unresolved {r : ObjectId} : o.reference? = some r → d.object? r = none →
      Breaks d parent o .reference (.unresolvedReference o.id r)
  | unlike {r : ObjectId} {x : Object} : o.reference? = some r → d.object? r = some x →
      x.kind ≠ o.kind →
      Breaks d parent o .reference (.referenceKindMismatch o.id o.kind r x.kind)
  | offset {p : Place} : o = .place p → p.markingOffset.isFinite = false →
      Breaks d parent o .marked (.nonFiniteGeometry o.id)
  | source {a : Arc} {e : NetError} : o = .arc a → Astray d parent a.id a.source e →
      Breaks d parent o .source e
  | target {a : Arc} {e : NetError} : o = .arc a → Astray d parent a.id a.target e →
      Breaks d parent o .target e
  | single {a b : Arc} {i : ObjectId} : o = .arc a → d.arc? i = some b →
      b.owner = some (.page parent) → b.source = a.source → b.target = a.target →
      Breaks d parent o .single (.duplicateArc a.source a.target)

structure Accepts (d : Document) (parent : ObjectId) (o : Object) : Prop where
  identified : o.id.isEmpty = false
  housed : (∃ n, d.net? parent = some n) ∧ o.kind = .page ∨
    (∃ p, d.page? parent = some p) ∧ o.kind ≠ .net
  fresh : d.object? o.id = none
  named : ∀ i x n, d.object? i = some x → x.Bears parent n → o.scopedName ≠ some n
  finite : o.IsFinite
  linked : ∀ r, o.reference? = some r → ∃ x, d.object? r = some x ∧ x.kind = o.kind
  joined : ∀ a, o = .arc a →
    (∃ x, d.object? a.source = some x ∧ x.kind.isNode = true ∧ x.owner = some (.page parent)) ∧
    (∃ x, d.object? a.target = some x ∧ x.kind.isNode = true ∧ x.owner = some (.page parent)) ∧
    ∀ i b, d.arc? i = some b → b.owner = some (.page parent) → b.source = a.source →
      b.target ≠ a.target

variable {d : Document} {parent : ObjectId} {o : Object}

theorem node?_ne_none {i : ObjectId} {x : Object} (hx : d.object? i = some x)
    (hk : x.kind.isNode = true) : d.node? i ≠ none := by
  rw [node?, hx, Option.bind_some, ← Option.isSome_iff_ne_none, Object.isSome_node?_iff, hk]

theorem Astray.unique {page arc i : ObjectId} {e f : NetError} (he : d.Astray page arc i e)
    (hf : d.Astray page arc i f) : e = f := by
  cases he with
  | unknown hi =>
    cases hf with
    | unknown _ => rfl
    | elsewhere hx hk _ => exact absurd hi (node?_ne_none hx hk)
  | elsewhere hx hk _ =>
    cases hf with
    | unknown hi => exact absurd hi (node?_ne_none hx hk)
    | elsewhere _ _ _ => rfl

theorem Breaks.unique {r : Rule} {e f : NetError} (he : d.Breaks parent o r e)
    (hf : d.Breaks parent o r f) : e = f := by
  cases he with
  | identified _ | attached _ | fresh _ | offset _ _ => cases hf; rfl
  | extent _ | curve _ _ => cases hf <;> rfl
  | housed hc _ =>
    cases hf with
    | housed hc' _ => rw [Option.some.inj (hc.symm.trans hc')]
  | named _ _ hn =>
    cases hf with
    | named _ _ hn' => rw [Option.some.inj (hn.symm.trans hn')]
  | unresolved hr hx =>
    cases hf with
    | unresolved hr' _ => rw [Option.some.inj (hr.symm.trans hr')]
    | unlike hr' hx' _ =>
      obtain rfl := Option.some.inj (hr.symm.trans hr')
      cases hx.symm.trans hx'
  | unlike hr hx _ =>
    cases hf with
    | unresolved hr' hx' =>
      obtain rfl := Option.some.inj (hr.symm.trans hr')
      cases hx.symm.trans hx'
    | unlike hr' hx' _ =>
      obtain rfl := Option.some.inj (hr.symm.trans hr')
      rw [Option.some.inj (hx.symm.trans hx')]
  | source ho he =>
    cases hf with
    | source ho' hf =>
      obtain rfl := Object.arc.inj (ho.symm.trans ho')
      exact he.unique hf
  | target ho he =>
    cases hf with
    | target ho' hf =>
      obtain rfl := Object.arc.inj (ho.symm.trans ho')
      exact he.unique hf
  | single ho _ _ _ _ =>
    cases hf with
    | single ho' _ _ _ _ => rw [Object.arc.inj (ho.symm.trans ho')]

theorem Breaks.ne_orphan {r : Rule} {e : NetError} (h : d.Breaks parent o r e) (p : ObjectId) :
    e ≠ .orphan p := by
  cases h with
  | source _ he | target _ he => cases he <;> simp
  | _ => simp

theorem not_astray_iff {page arc i : ObjectId} : (∀ e, ¬ d.Astray page arc i e) ↔
    ∃ x, d.object? i = some x ∧ x.kind.isNode = true ∧ x.owner = some (.page page) := by
  constructor
  · intro h
    cases hi : d.node? i with
    | none => exact absurd (.unknown hi) (h _)
    | some n =>
      obtain ⟨x, hx, hxn⟩ := node?_eq_some_iff.mp hi
      have hk : x.kind.isNode = true := by
        rw [← Object.isSome_node?_iff, hxn]
        rfl
      by_cases hw : x.owner = some (.page page)
      · exact ⟨x, hx, hk, hw⟩
      · exact absurd (.elsewhere hx hk hw) (h _)
  · rintro ⟨x, hx, hk, hw⟩ e he
    cases he with
    | unknown hi => exact node?_ne_none hx hk hi
    | elsewhere hx' _ hw' =>
      rw [hx] at hx'
      cases hx'
      exact hw' hw

theorem Accepts.not_breaks (h : d.Accepts parent o) (r : Rule) (e : NetError) :
    ¬ d.Breaks parent o r e := by
  intro hb
  cases hb with
  | identified hid => simp [h.identified] at hid
  | attached hnone =>
    rcases h.housed with ⟨⟨n, hn⟩, -⟩ | ⟨⟨p, hp⟩, -⟩
    · simp [net?, hnone] at hn
    · simp [page?, hnone] at hp
  | housed hc hk =>
    rcases h.housed with ⟨⟨n, hn⟩, hpage⟩ | ⟨⟨p, hp⟩, hnet⟩
    · rw [net?_eq_some_iff, hc] at hn
      cases hn
      exact hk (.inl ⟨rfl, hpage⟩)
    · rw [page?_eq_some_iff, hc] at hp
      cases hp
      exact hk (.inr ⟨rfl, hnet⟩)
  | fresh hx =>
    rw [h.fresh] at hx
    cases hx
  | named hx hb hn => exact h.named _ _ _ hx hb hn
  | extent hf => simp [h.finite.isPlaced] at hf
  | curve ho hf =>
    subst ho
    have hfinite := h.finite
    simp [Object.IsFinite, hf] at hfinite
  | unresolved hr hx =>
    obtain ⟨x, hx', -⟩ := h.linked _ hr
    rw [hx] at hx'
    cases hx'
  | unlike hr hx hk =>
    obtain ⟨x, hx', hk'⟩ := h.linked _ hr
    rw [hx] at hx'
    cases hx'
    exact hk hk'
  | offset ho hf =>
    subst ho
    have hfinite := h.finite
    simp [Object.IsFinite, hf] at hfinite
  | source ho he => exact not_astray_iff.mpr (h.joined _ ho).1 _ he
  | target ho he => exact not_astray_iff.mpr (h.joined _ ho).2.1 _ he
  | single ho hb howner hsource htarget => exact (h.joined _ ho).2.2 _ _ hb howner hsource htarget

theorem accepts_of_not_breaks (h : ∀ r e, ¬ d.Breaks parent o r e) : d.Accepts parent o := by
  constructor
  case identified =>
    rw [← Bool.not_eq_true]
    exact fun hid => h _ _ (.identified hid)
  case housed =>
    cases hc : d.object? parent with
    | none => exact absurd (.attached hc) (h _ _)
    | some c =>
      have hk : Houses c o.kind := by
        by_contra hk
        exact h _ _ (.housed hc hk)
      rcases hk with ⟨hnet, hpage⟩ | ⟨hpage, hnet⟩
      · obtain ⟨n, rfl⟩ := Object.eq_net_of_kind hnet
        exact .inl ⟨⟨n, net?_eq_some_iff.mpr hc⟩, hpage⟩
      · obtain ⟨p, rfl⟩ := Object.eq_page_of_kind hpage
        exact .inr ⟨⟨p, page?_eq_some_iff.mpr hc⟩, hnet⟩
  case fresh =>
    rw [Option.eq_none_iff_forall_ne_some]
    exact fun x hx => h _ _ (.fresh hx)
  case named => exact fun i x n hx hb hn => h _ _ (.named hx hb hn)
  case finite =>
    have hplaced : o.isPlaced = true := by
      rw [← Bool.not_eq_false]
      exact fun hf => h _ _ (.extent hf)
    cases o with
    | net n => trivial
    | page p => trivial
    | place p =>
      refine ⟨hplaced, ?_⟩
      rw [← Bool.not_eq_false]
      exact fun hf => h _ _ (.offset rfl hf)
    | transition t => exact hplaced
    | arc a =>
      change a.curve.all Point.isFinite = true
      rw [← Bool.not_eq_false]
      exact fun hf => h _ _ (.curve rfl hf)
  case linked =>
    intro r hr
    cases hx : d.object? r with
    | none => exact absurd (.unresolved hr hx) (h _ _)
    | some x =>
      refine ⟨x, rfl, ?_⟩
      by_contra hk
      exact h _ _ (.unlike hr hx hk)
  case joined =>
    intro a ho
    refine ⟨not_astray_iff.mp fun e he => h _ _ (.source ho he),
      not_astray_iff.mp fun e he => h _ _ (.target ho he), ?_⟩
    exact fun i b hb howner hsource htarget => h _ _ (.single ho hb howner hsource htarget)

end Document

end PagedNets
