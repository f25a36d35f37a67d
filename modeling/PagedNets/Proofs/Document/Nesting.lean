import PagedNets.Proofs.Document.Containment

set_option autoImplicit false

namespace PagedNets

namespace Document

/-- The object under the first key lists the second key in one of its tables. -/
def Holds (d : Document) (c i : ObjectId) : Prop :=
  ∃ o, d.object? c = some o ∧
    (i ∈ o.tables.pages ∨ i ∈ o.tables.nodes.keys ∨ i ∈ o.tables.arcs.keys)

structure Contained (d : Document) : Prop where
  stored : ∀ i o, d.object? i = some o → o.id = i
  once : d.keys.Nodup
  owned : ∀ i o, d.object? i = some o → o.kind ≠ .net →
    ∃ w c, o.owner = some w ∧ d.object? w.id = some c ∧ c.asOwner? = some w ∧
      d.keys.idxOf w.id < d.keys.idxOf i
  standing : ∀ i o, d.object? i = some o → o.kind.isNode = true ∨ o.kind = .arc →
    ∃ p, o.owner = some (.page p.id) ∧ d.page? p.id = some p
  netPages : ∀ c n, d.net? c = some n → n.pages.Nodup ∧
    ∀ i, i ∈ n.pages ↔ ∃ p, d.page? i = some p ∧ p.owner = some (.net c)
  pages : ∀ c q, d.page? c = some q → q.pages.Nodup ∧
    ∀ i, i ∈ q.pages ↔ ∃ p, d.page? i = some p ∧ p.owner = some (.page c)
  nodes : ∀ c q, d.page? c = some q → q.nodes.keys.Nodup ∧
    ∀ i, i ∈ q.nodes.keys ↔
      ∃ o, d.object? i = some o ∧ o.kind.isNode = true ∧ o.owner = some (.page c)
  arcs : ∀ c q, d.page? c = some q → q.arcs.keys.Nodup ∧
    ∀ i, i ∈ q.arcs.keys ↔ ∃ a, d.arc? i = some a ∧ a.owner = some (.page c)
  oneHolder : ∀ b c i, d.Holds b i → d.Holds c i → b = c
  acyclic : ∀ i, ¬ Relation.TransGen d.Holds i i
  rooted : ∀ i o, d.object? i = some o →
    ∃ n, d.netOf? i = some n ∧ (∃ net, d.net? n = some net) ∧
      Relation.ReflTransGen d.Holds n i ∧
      (∀ m net, d.net? m = some net → Relation.ReflTransGen d.Holds m i → m = n) ∧
      ∀ fuel, d.keys.idxOf i ≤ fuel → d.netAbove fuel o = some n

variable {d : Document} {c i : ObjectId}

theorem net?_eq_some_iff {n : Net} : d.net? i = some n ↔ d.object? i = some (.net n) := by
  unfold net?
  cases d.object? i with
  | none => simp
  | some o => cases o <;> simp [Object.net?]

theorem page?_eq_some_iff {p : Page} : d.page? i = some p ↔ d.object? i = some (.page p) := by
  unfold page?
  cases d.object? i with
  | none => simp
  | some o => cases o <;> simp [Object.page?]

theorem place?_eq_some_iff {p : Place} : d.place? i = some p ↔ d.object? i = some (.place p) := by
  unfold place?
  cases d.object? i with
  | none => simp
  | some o => cases o <;> simp [Object.place?]

theorem arc?_eq_some_iff {a : Arc} : d.arc? i = some a ↔ d.object? i = some (.arc a) := by
  unfold arc?
  cases d.object? i with
  | none => simp
  | some o => cases o <;> simp [Object.arc?]

theorem node?_eq_some_iff {n : NodeData} :
    d.node? i = some n ↔ ∃ o, d.object? i = some o ∧ o.node? = some n := by
  simp [node?, Option.bind_eq_some_iff]

end Document

namespace Object

theorem eq_net_of_kind {o : Object} (h : o.kind = .net) : ∃ n, o = .net n := by
  cases o <;> first | exact ⟨_, rfl⟩ | cases h

theorem eq_page_of_kind {o : Object} (h : o.kind = .page) : ∃ p, o = .page p := by
  cases o <;> first | exact ⟨_, rfl⟩ | cases h

theorem eq_place_of_kind {o : Object} (h : o.kind = .place) : ∃ p, o = .place p := by
  cases o <;> first | exact ⟨_, rfl⟩ | cases h

theorem eq_arc_of_kind {o : Object} (h : o.kind = .arc) : ∃ a, o = .arc a := by
  cases o <;> first | exact ⟨_, rfl⟩ | cases h

theorem kind_ne_net_of_owner {o : Object} {w : Owner} (h : o.owner = some w) : o.kind ≠ .net := by
  intro hk
  obtain ⟨n, rfl⟩ := eq_net_of_kind hk
  cases h

end Object

namespace Document

variable {d : Document} {c i : ObjectId}

namespace Registered

variable (h : d.Registered)
include h

theorem owner_spec {o : Object} (ho : d.object? i = some o) (hk : o.kind ≠ .net) :
    ∃ w c, o.owner = some w ∧ d.object? w.id = some c ∧ c.asOwner? = some w ∧
      d.keys.idxOf w.id < d.keys.idxOf i := by
  obtain ⟨w, hw, l, hl, hlw, hlt⟩ := h.owned o.label (mem_labels_of_object? ho) hk
  obtain ⟨c, hc, rfl⟩ := h.object?_of_mem_labels hl
  have hid : w.id = c.id := Label.id_of_asOwner? hlw
  refine ⟨w, c, hw, ?_, by simpa using hlw, ?_⟩
  · rw [hid]
    exact hc
  · rw [hid, ← h.id_of_object? ho]
    exact hlt

theorem mem_idsOf_children {p : Kind → Bool} {w : Owner} :
    i ∈ idsOf p (d.children w) ↔
      ∃ o, d.object? i = some o ∧ p o.kind = true ∧ o.owner = some w := by
  rw [mem_idsOf]
  constructor
  · rintro ⟨l, hl, hp, rfl⟩
    obtain ⟨hl, hw⟩ := mem_children.mp hl
    obtain ⟨o, ho, rfl⟩ := h.object?_of_mem_labels hl
    exact ⟨o, ho, hp, hw⟩
  · rintro ⟨o, ho, hp, hw⟩
    refine ⟨o.label, mem_children.mpr ⟨mem_labels_of_object? ho, hw⟩, hp, ?_⟩
    exact h.id_of_object? ho

theorem mem_pages_of_children {w : Owner} :
    i ∈ idsOf (· == .page) (d.children w) ↔ ∃ p, d.page? i = some p ∧ p.owner = some w := by
  rw [h.mem_idsOf_children]
  constructor
  · rintro ⟨o, ho, hk, hw⟩
    obtain ⟨p, rfl⟩ := Object.eq_page_of_kind (by simpa using hk)
    exact ⟨p, page?_eq_some_iff.mpr ho, hw⟩
  · rintro ⟨p, hp, hw⟩
    exact ⟨.page p, page?_eq_some_iff.mp hp, rfl, hw⟩

theorem mem_arcs_of_children {w : Owner} :
    i ∈ idsOf (· == .arc) (d.children w) ↔ ∃ a, d.arc? i = some a ∧ a.owner = some w := by
  rw [h.mem_idsOf_children]
  constructor
  · rintro ⟨o, ho, hk, hw⟩
    obtain ⟨a, rfl⟩ := Object.eq_arc_of_kind (by simpa using hk)
    exact ⟨a, arc?_eq_some_iff.mpr ho, hw⟩
  · rintro ⟨a, ha, hw⟩
    exact ⟨.arc a, arc?_eq_some_iff.mp ha, rfl, hw⟩

theorem asOwner?_eq_some_iff {o : Object} (ho : d.object? c = some o) {w : Owner} :
    o.asOwner? = some w ↔ (o.kind = .net ∧ w = .net c) ∨ (o.kind = .page ∧ w = .page c) := by
  have hid := h.id_of_object? ho
  cases o <;> simp_all [Object.asOwner?, Object.kind, Object.id, eq_comm]

end Registered

section

variable (h : d.Registered) (ht : d.Tabled)
include h ht

theorem kind_of_owner_net {o : Object} {n : ObjectId} (ho : d.object? i = some o)
    (hw : o.owner = some (.net n)) : o.kind = .page := by
  have hk := Object.kind_ne_net_of_owner hw
  obtain ⟨w, c, hw', hc, hcw, _⟩ := h.owner_spec ho hk
  rw [hw] at hw'
  cases hw'
  obtain ⟨m, rfl⟩ : ∃ m, c = .net m := by
    cases c <;> first | exact ⟨_, rfl⟩ | cases hcw
  have hl := ht n (.net m) (.net n) hc hcw
  -- A net has no table of nodes and none of arcs.
  have hnodes : i ∉ idsOf Kind.isNode (d.children (.net n)) := by
    rw [← hl.keys_nodes]
    intro hi
    cases hi
  have harcs : i ∉ idsOf (· == .arc) (d.children (.net n)) := by
    rw [← hl.keys_arcs]
    intro hi
    cases hi
  cases hkind : o.kind with
  | net => exact absurd hkind hk
  | page => rfl
  | place => exact absurd (h.mem_idsOf_children.mpr ⟨o, ho, by rw [hkind]; rfl, hw⟩) hnodes
  | transition => exact absurd (h.mem_idsOf_children.mpr ⟨o, ho, by rw [hkind]; rfl, hw⟩) hnodes
  | arc => exact absurd (h.mem_idsOf_children.mpr ⟨o, ho, by rw [hkind]; rfl, hw⟩) harcs

theorem standing_of_kind {o : Object} (ho : d.object? i = some o)
    (hk : o.kind.isNode = true ∨ o.kind = .arc) :
    ∃ p, o.owner = some (.page p.id) ∧ d.page? p.id = some p := by
  have hnet : o.kind ≠ .net := by
    intro he
    rw [he] at hk
    cases hk <;> contradiction
  have hpage : o.kind ≠ .page := by
    intro he
    rw [he] at hk
    cases hk <;> contradiction
  obtain ⟨w, c, hw, hc, hcw, _⟩ := h.owner_spec ho hnet
  cases c with
  | net n =>
    cases hcw
    exact absurd (kind_of_owner_net h ht ho hw) hpage
  | page p =>
    cases hcw
    exact ⟨p, hw, page?_eq_some_iff.mpr hc⟩
  | place p => cases hcw
  | transition t => cases hcw
  | arc a => cases hcw

/-- The tables of containers and the owners of objects are the same relation. -/
theorem holds_iff : d.Holds c i ↔
    ∃ o w x, d.object? c = some o ∧ o.asOwner? = some w ∧ d.object? i = some x ∧
      x.owner = some w := by
  constructor
  · rintro ⟨o, ho, hi⟩
    cases hw : o.asOwner? with
    | none =>
      rw [Object.tables_of_asOwner?_eq_none hw] at hi
      rcases hi with hi | hi | hi <;> cases hi
    | some w =>
      have hl := ht c o w ho hw
      rw [hl.pages, hl.keys_nodes, hl.keys_arcs] at hi
      rcases hi with hi | hi | hi <;>
      · obtain ⟨x, hx, _, hxw⟩ := h.mem_idsOf_children.mp hi
        exact ⟨o, w, x, ho, hw, hx, hxw⟩
  · rintro ⟨o, w, x, ho, hw, hx, hxw⟩
    have hl := ht c o w ho hw
    refine ⟨o, ho, ?_⟩
    rw [hl.pages, hl.keys_nodes, hl.keys_arcs]
    cases hk : x.kind with
    | net => exact absurd hk (Object.kind_ne_net_of_owner hxw)
    | page => exact .inl (h.mem_idsOf_children.mpr ⟨x, hx, by rw [hk]; rfl, hxw⟩)
    | place => exact .inr (.inl (h.mem_idsOf_children.mpr ⟨x, hx, by rw [hk]; rfl, hxw⟩))
    | transition => exact .inr (.inl (h.mem_idsOf_children.mpr ⟨x, hx, by rw [hk]; rfl, hxw⟩))
    | arc => exact .inr (.inr (h.mem_idsOf_children.mpr ⟨x, hx, by rw [hk]; rfl, hxw⟩))

theorem holds_unique {b : ObjectId} (hb : d.Holds b i) (hc : d.Holds c i) : b = c := by
  obtain ⟨o, w, x, ho, hw, hx, hxw⟩ := (holds_iff h ht).mp hb
  obtain ⟨o', w', x', ho', hw', hx', hxw'⟩ := (holds_iff h ht).mp hc
  rw [hx] at hx'
  cases hx'
  rw [hxw] at hxw'
  cases hxw'
  rw [← h.id_of_object? ho, ← h.id_of_object? ho', ← Object.id_of_asOwner? hw,
    ← Object.id_of_asOwner? hw']

theorem lt_of_holds (hc : d.Holds c i) : d.keys.idxOf c < d.keys.idxOf i := by
  obtain ⟨o, w, x, ho, hw, hx, hxw⟩ := (holds_iff h ht).mp hc
  have hk := Object.kind_ne_net_of_owner hxw
  obtain ⟨w', c', hw', hc', hcw', hlt⟩ := h.owner_spec hx hk
  rw [hxw] at hw'
  cases hw'
  rwa [Object.id_of_asOwner? hw, h.id_of_object? ho] at hlt

theorem acyclic_holds (i : ObjectId) : ¬ Relation.TransGen d.Holds i i := by
  have hlt : ∀ {j k}, Relation.TransGen d.Holds j k → d.keys.idxOf j < d.keys.idxOf k := by
    intro j k hjk
    induction hjk with
    | single hs => exact lt_of_holds h ht hs
    | tail _ hs ih => exact Nat.lt_trans ih (lt_of_holds h ht hs)
  exact fun hi => Nat.lt_irrefl _ (hlt hi)

theorem not_holds_net {n : Net} (hn : d.net? i = some n) : ¬ d.Holds c i := by
  intro hc
  obtain ⟨o, w, x, ho, hw, hx, hxw⟩ := (holds_iff h ht).mp hc
  rw [net?_eq_some_iff, hx] at hn
  cases hn
  cases hxw

theorem root_unique {m n : ObjectId} {a b : Net} (hm : d.net? m = some a) (hn : d.net? n = some b)
    (hmi : Relation.ReflTransGen d.Holds m i) (hni : Relation.ReflTransGen d.Holds n i) :
    m = n := by
  induction hmi with
  | refl =>
    rcases Relation.ReflTransGen.cases_tail hni with rfl | ⟨k, _, hk⟩
    · rfl
    · exact absurd hk (not_holds_net h ht hm)
  | @tail j k hmj hjk ih =>
    rcases Relation.ReflTransGen.cases_tail hni with rfl | ⟨l, hnl, hlk⟩
    · exact absurd hjk (not_holds_net h ht hn)
    · have hj : l = j := holds_unique h ht hlk hjk
      exact ih (hj ▸ hnl)

/-- The walk along owners ends at a net after at most as many steps as there are objects before
the one it starts from. -/
theorem exists_netAbove (k : Nat) {i : ObjectId} (hi : d.keys.idxOf i ≤ k) {o : Object}
    (ho : d.object? i = some o) :
    ∃ n, (∃ net, d.net? n = some net) ∧ Relation.ReflTransGen d.Holds n i ∧
      ∀ fuel, d.keys.idxOf i ≤ fuel → d.netAbove fuel o = some n := by
  induction k generalizing i o with
  | zero =>
    have hnet : o.kind = .net := by
      by_contra hk
      obtain ⟨w, c, _, _, _, hlt⟩ := h.owner_spec ho hk
      omega
    obtain ⟨net, rfl⟩ := Object.eq_net_of_kind hnet
    have hid : net.id = i := h.id_of_object? ho
    refine ⟨i, ⟨net, net?_eq_some_iff.mpr ho⟩, .refl, fun fuel _ => ?_⟩
    rw [netAbove, hid]
  | succ k ih =>
    by_cases hk : o.kind = .net
    · obtain ⟨net, rfl⟩ := Object.eq_net_of_kind hk
      have hid : net.id = i := h.id_of_object? ho
      refine ⟨i, ⟨net, net?_eq_some_iff.mpr ho⟩, .refl, fun fuel _ => ?_⟩
      rw [netAbove, hid]
    · obtain ⟨w, c, hw, hc, hcw, hlt⟩ := h.owner_spec ho hk
      obtain ⟨n, hn, hup, hfuel⟩ := ih (by omega) hc
      have hhold : d.Holds w.id i := (holds_iff h ht).mpr ⟨c, w, o, hc, hcw, ho, hw⟩
      refine ⟨n, hn, hup.tail hhold, fun fuel hf => ?_⟩
      obtain ⟨rest, rfl⟩ : ∃ rest, fuel = rest + 1 := ⟨fuel - 1, by omega⟩
      have hstep : d.netAbove (rest + 1) o =
          (o.owner.bind fun w => d.object? w.id).bind (d.netAbove rest) := by
        cases o <;> first | rfl | exact absurd rfl hk
      rw [hstep, hw, Option.bind_some, hc, Option.bind_some]
      exact hfuel rest (by omega)

theorem contained_of_tabled : d.Contained := by
  constructor
  case stored => exact fun i o ho => h.id_of_object? ho
  case once => exact h.distinct
  case owned => exact fun i o ho hk => h.owner_spec ho hk
  case standing => exact fun i o ho hk => standing_of_kind h ht ho hk
  case netPages =>
    intro c n hn
    have hc := net?_eq_some_iff.mp hn
    have hl := ht c (.net n) (.net c) hc ((h.asOwner?_eq_some_iff hc).mpr (.inl ⟨rfl, rfl⟩))
    have hp : n.pages = idsOf (· == .page) (d.children (.net c)) := hl.pages
    refine ⟨hp ▸ nodup_idsOf (h.nodup_children _), fun i => ?_⟩
    rw [hp, h.mem_pages_of_children]
  case pages =>
    intro c q hq
    have hc := page?_eq_some_iff.mp hq
    have hl := ht c (.page q) (.page c) hc ((h.asOwner?_eq_some_iff hc).mpr (.inr ⟨rfl, rfl⟩))
    have hp : q.pages = idsOf (· == .page) (d.children (.page c)) := hl.pages
    refine ⟨hp ▸ nodup_idsOf (h.nodup_children _), fun i => ?_⟩
    rw [hp, h.mem_pages_of_children]
  case nodes =>
    intro c q hq
    have hc := page?_eq_some_iff.mp hq
    have hl := ht c (.page q) (.page c) hc ((h.asOwner?_eq_some_iff hc).mpr (.inr ⟨rfl, rfl⟩))
    have hk : q.nodes.keys = idsOf Kind.isNode (d.children (.page c)) := hl.keys_nodes
    refine ⟨hk ▸ nodup_idsOf (h.nodup_children _), fun i => ?_⟩
    rw [hk, h.mem_idsOf_children]
  case arcs =>
    intro c q hq
    have hc := page?_eq_some_iff.mp hq
    have hl := ht c (.page q) (.page c) hc ((h.asOwner?_eq_some_iff hc).mpr (.inr ⟨rfl, rfl⟩))
    have hk : q.arcs.keys = idsOf (· == .arc) (d.children (.page c)) := hl.keys_arcs
    refine ⟨hk ▸ nodup_idsOf (h.nodup_children _), fun i => ?_⟩
    rw [hk, h.mem_arcs_of_children]
  case oneHolder => exact fun b c i hb hc => holds_unique h ht hb hc
  case acyclic => exact acyclic_holds h ht
  case rooted =>
    intro i o ho
    obtain ⟨n, ⟨net, hn⟩, hup, hfuel⟩ := exists_netAbove h ht _ (Nat.le_refl _) ho
    have hsize : d.keys.idxOf i ≤ d.size := by
      rw [← length_keys]
      exact List.idxOf_le_length
    refine ⟨n, ?_, ⟨net, hn⟩, hup, fun m net' hm hmi => root_unique h ht hm hn hmi hup, hfuel⟩
    unfold netOf?
    rw [ho, Option.bind_some]
    exact hfuel d.size hsize

end

/-- Every run keeps objects and containers in step: each object is registered once under its own
identifier and after its owner, tables list what is owned and nothing else, and the walk along
owners ends at the one net that holds the object. -/
theorem Reachable.contained (hd : d.Reachable Edit.IsPlain) : d.Contained :=
  contained_of_tabled hd.registered hd.tabled

/-- A net with a page in a page, and on the inner page a place, a transition and an arc. -/
def nestedRun : List Action :=
  [.edit (.addNet { id := ⟨"n"⟩, format := .placeTransition }),
    .edit (.add ⟨"n"⟩ (.page { id := ⟨"p"⟩ })),
    .edit (.add ⟨"p"⟩ (.page { id := ⟨"q"⟩ })),
    .edit (.add ⟨"q"⟩ (.place { id := ⟨"a"⟩ })),
    .edit (.add ⟨"q"⟩ (.transition { id := ⟨"b"⟩ })),
    .edit (.add ⟨"q"⟩ (.arc { id := ⟨"ab"⟩, source := ⟨"a"⟩, target := ⟨"b"⟩ }))]

theorem uses_nestedRun : ∀ a ∈ nestedRun, a.Uses Edit.IsPlain := by
  intro a ha
  simp only [nestedRun, List.mem_cons, List.not_mem_nil, or_false] at ha
  rcases ha with rfl | rfl | rfl | rfl | rfl | rfl
  · exact ⟨rfl, rfl⟩
  · exact ⟨rfl, rfl, rfl, rfl, rfl⟩
  · exact ⟨rfl, rfl, rfl, rfl, rfl⟩
  · trivial
  · trivial
  · trivial

theorem contained_nestedRun :
    (run nestedRun).Reachable Edit.IsPlain ∧ (run nestedRun).Contained ∧
      (run nestedRun).netOf? ⟨"ab"⟩ = some ⟨"n"⟩ :=
  ⟨⟨nestedRun, uses_nestedRun, rfl⟩, Reachable.contained ⟨nestedRun, uses_nestedRun, rfl⟩,
    by decide⟩

end Document

end PagedNets
