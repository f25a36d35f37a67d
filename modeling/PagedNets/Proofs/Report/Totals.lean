import Mathlib
import PagedNets.Proofs.Listwise
import PagedNets.Proofs.Report.Connectivity
import PagedNets.Report.Stats

/-!
Statistics against the tables. Every object but a net has one owner, and the tables of that owner
list it; so what is counted object by object is also the sum of the tables, page by page. Tokens are
added up to the greatest count that there is, which gives the same total in every order.
-/

set_option autoImplicit false

namespace PagedNets

namespace Tables.Lists

variable {t : Tables} {children : List Label}

theorem length_idsOf (p : Kind → Bool) (ls : List Label) :
    (idsOf p ls).length = ls.countP fun l => p l.kind := by
  rw [idsOf, List.length_map, List.countP_eq_length_filter]

theorem size_nodes (h : t.Lists children) :
    t.nodes.size = children.countP fun l => l.kind.isNode := by
  rw [← length_idsOf, ← h.keys_nodes]
  simp [Table.size, Table.keys]

theorem size_arcs (h : t.Lists children) :
    t.arcs.size = children.countP fun l => l.kind == .arc := by
  rw [← length_idsOf (· == .arc), ← h.keys_arcs]
  simp [Table.size, Table.keys]

theorem length_pages (h : t.Lists children) :
    t.pages.length = children.countP fun l => l.kind == .page := by
  rw [← length_idsOf (· == .page), ← h.pages]

end Tables.Lists

namespace Document

def pages (d : Document) : List Page := d.toList.filterMap Object.page?

def places (d : Document) : List Place := d.toList.filterMap Object.place?

variable {d : Document}

theorem length_labels (d : Document) : d.labels.length = d.size := by
  simp [labels, toList, Table.values, size, Table.size]

theorem Registered.mem_pages (h : d.Registered) {p : Page} :
    p ∈ d.pages ↔ d.page? p.id = some p := by
  rw [page?_eq_some_iff, ← Object.id, ← h.mem_toList, pages, List.mem_filterMap]
  constructor
  · rintro ⟨o, ho, hp⟩
    cases o <;> cases hp
    exact ho
  · exact fun ho => ⟨_, ho, rfl⟩

theorem Registered.mem_nets (h : d.Registered) {n : Net} :
    n ∈ d.nets ↔ d.net? n.id = some n := by
  rw [net?_eq_some_iff, ← Object.id, ← h.mem_toList, nets, List.mem_filterMap]
  constructor
  · rintro ⟨o, ho, hn⟩
    cases o <;> cases hn
    exact ho
  · exact fun ho => ⟨_, ho, rfl⟩

theorem Registered.nodup_filterMap (h : d.Registered) {β : Type} {f : Object → Option β}
    {g : β → ObjectId} (hf : ∀ o b, f o = some b → g b = o.id) :
    ((d.toList.filterMap f).map g).Nodup := by
  have hids : (d.toList.map Object.id).Nodup := by
    have hstored := h.stored ▸ h.distinct
    rwa [labels, List.map_map] at hstored
  refine List.pairwise_map.mpr (List.pairwise_filterMap.mpr ?_)
  refine (List.pairwise_map.mp hids).imp fun {a b} hab x hx y hy => ?_
  rw [hf a x hx, hf b y hy]
  exact hab

def pageOwners (d : Document) : List Owner := d.pages.map fun p => .page p.id

def owners (d : Document) : List Owner := d.nets.map (fun n => .net n.id) ++ d.pageOwners

theorem Registered.nodup_pageOwners (h : d.Registered) : d.pageOwners.Nodup := by
  have hids := h.nodup_filterMap (f := Object.page?) (g := Page.id) fun o p hp => by
    cases o <;> cases hp
    rfl
  refine List.Nodup.of_map Owner.id ?_
  rw [pageOwners, List.map_map]
  exact hids

theorem Registered.nodup_owners (h : d.Registered) : d.owners.Nodup := by
  have hids := h.nodup_filterMap (f := Object.net?) (g := Net.id) fun o n hn => by
    cases o <;> cases hn
    rfl
  have hnets : (d.nets.map fun n => Owner.net n.id).Nodup := by
    refine List.Nodup.of_map Owner.id ?_
    rw [List.map_map]
    exact hids
  refine List.nodup_append.mpr ⟨hnets, h.nodup_pageOwners, fun v hv w hw hvw => ?_⟩
  obtain ⟨n, -, rfl⟩ := List.mem_map.mp hv
  obtain ⟨p, -, rfl⟩ := List.mem_map.mp hw
  cases hvw

/-- What is owned is counted owner by owner. -/
theorem Registered.countP_labels (h : d.Registered) {owners : List Owner} (hn : owners.Nodup)
    {p : Label → Bool} (hp : ∀ l ∈ d.labels, p l = true → ∃ w ∈ owners, l.owner = some w) :
    d.labels.countP p = (owners.map fun w => (d.children w).countP p).sum := by
  have hlabels : d.labels.Nodup := List.Nodup.of_map _ (h.stored ▸ h.distinct)
  have howned : (owners.flatMap d.children).Nodup := by
    refine List.nodup_flatMap.mpr ⟨fun w _ => hlabels.filter _, hn.imp fun {v w} hvw l hv hw => ?_⟩
    have howner := (mem_children.mp hv).2
    rw [(mem_children.mp hw).2] at howner
    exact hvw (Option.some.inj howner).symm
  have hperm : (d.labels.filter p).Perm ((owners.flatMap d.children).filter p) := by
    refine (List.perm_ext_iff_of_nodup (hlabels.filter p) (howned.filter p)).mpr fun l => ?_
    simp only [List.mem_filter, List.mem_flatMap, mem_children]
    constructor
    · rintro ⟨hl, hpl⟩
      obtain ⟨w, hw, howner⟩ := hp l hl hpl
      exact ⟨⟨w, hw, hl, howner⟩, hpl⟩
    · rintro ⟨⟨w, -, hl, -⟩, hpl⟩
      exact ⟨hl, hpl⟩
  calc d.labels.countP p
    _ = (owners.flatMap d.children).countP p := by
      rw [List.countP_eq_length_filter, List.countP_eq_length_filter, hperm.length_eq]
    _ = (owners.map fun w => (d.children w).countP p).sum := List.countP_flatMap

section Tabled

variable (h : d.Registered) (ht : d.Tabled)
include h ht

theorem countP_onPages {p : Kind → Bool} (hp : ∀ k, p k = true → k.isNode = true ∨ k = .arc) :
    (d.labels.countP fun l => p l.kind) =
      (d.pages.map fun q => (d.children (.page q.id)).countP fun l => p l.kind).sum := by
  rw [h.countP_labels h.nodup_pageOwners, pageOwners, List.map_map]
  · rfl
  · intro l hl hpl
    obtain ⟨o, ho, rfl⟩ := h.object?_of_mem_labels hl
    obtain ⟨q, howner, hq⟩ := standing_of_kind h ht ho (hp _ hpl)
    exact ⟨.page q.id, List.mem_map_of_mem (h.mem_pages.mpr hq), howner⟩

theorem lists_page {q : Page} (hq : q ∈ d.pages) :
    (Object.page q).tables.Lists (d.children (.page q.id)) :=
  ht q.id (.page q) (.page q.id) (page?_eq_some_iff.mp (h.mem_pages.mp hq)) rfl

theorem lists_net {n : Net} (hn : n ∈ d.nets) :
    (Object.net n).tables.Lists (d.children (.net n.id)) :=
  ht n.id (.net n) (.net n.id) (net?_eq_some_iff.mp (h.mem_nets.mp hn)) rfl

theorem countP_nodes : (d.labels.countP fun l => l.kind.isNode) =
    (d.pages.map (·.nodes.size)).sum := by
  rw [countP_onPages h ht fun k hk => .inl hk]
  exact congrArg List.sum (List.map_congr_left fun q hq => (lists_page h ht hq).size_nodes.symm)

theorem countP_arcs : (d.labels.countP fun l => l.kind == .arc) =
    (d.pages.map (·.arcs.size)).sum := by
  rw [countP_onPages h ht (p := (· == .arc)) fun k hk => .inr (beq_iff_eq.mp hk)]
  exact congrArg List.sum (List.map_congr_left fun q hq => (lists_page h ht hq).size_arcs.symm)

theorem countP_pages : (d.labels.countP fun l => l.kind == .page) =
    (d.nets.map (·.pages.length)).sum + (d.pages.map (·.pages.length)).sum := by
  rw [h.countP_labels h.nodup_owners, owners, pageOwners, List.map_append, List.sum_append,
    List.map_map, List.map_map]
  · congr 1
    · exact congrArg List.sum
        (List.map_congr_left fun n hn => (lists_net h ht hn).length_pages.symm)
    · exact congrArg List.sum
        (List.map_congr_left fun q hq => (lists_page h ht hq).length_pages.symm)
  · intro l hl hpl
    obtain ⟨o, ho, rfl⟩ := h.object?_of_mem_labels hl
    have hnet : o.kind ≠ .net := by
      intro hk
      rw [show o.label.kind = o.kind from rfl, hk] at hpl
      cases hpl
    obtain ⟨w, c, hw, hc, hcw, -⟩ := h.owner_spec ho hnet
    refine ⟨w, ?_, hw⟩
    cases c with
    | net n =>
      cases hcw
      exact List.mem_append_left _
        (List.mem_map_of_mem (f := fun n : Net => Owner.net n.id)
          (h.mem_nets.mpr (net?_eq_some_iff.mpr hc)))
    | page q =>
      cases hcw
      exact List.mem_append_right _
        (List.mem_map_of_mem (f := fun p : Page => Owner.page p.id)
          (h.mem_pages.mpr (page?_eq_some_iff.mpr hc)))
    | place _ | transition _ | arc _ => cases hcw

end Tabled

end Document

namespace Report

variable {d e : Document}

section Diagnosed

namespace Diagnosis

theorem totals_addNode (r : Diagnosis) (i : ObjectId) :
    (r.addNode d i).totalPlaces =
        r.totalPlaces + (if d.kindOf? i = some .place then 1 else 0) ∧
      (r.addNode d i).totalTransitions =
        r.totalTransitions + if d.kindOf? i = some .transition then 1 else 0 := by
  cases ho : d.object? i with
  | none => simp [addNode, Document.kindOf?, ho]
  | some o =>
    cases o with
    | place p => simp [addNode_place ho, Document.kindOf?, ho, Object.kind]
    | transition t => simp [addNode_transition ho, Document.kindOf?, ho, Object.kind]
    | _ => simp [addNode, Document.kindOf?, ho, Object.kind]

theorem totals_foldl (nodes : List ObjectId) (r : Diagnosis) :
    (nodes.foldl (addNode d) r).totalPlaces =
        r.totalPlaces + nodes.countP (fun i => d.kindOf? i == some .place) ∧
      (nodes.foldl (addNode d) r).totalTransitions =
        r.totalTransitions + nodes.countP fun i => d.kindOf? i == some .transition := by
  induction nodes generalizing r with
  | nil => simp
  | cons i nodes ih =>
    obtain ⟨hplaces, htransitions⟩ := ih (r.addNode d i)
    obtain ⟨hplace, htransition⟩ := totals_addNode (d := d) r i
    simp only [List.foldl_cons, hplaces, htransitions, hplace, htransition, List.countP_cons,
      beq_iff_eq]
    omega

end Diagnosis

theorem countP_idsOf (h : d.Registered) {w : Owner} {k : Kind} (hk : k.isNode = true) :
    (idsOf Kind.isNode (d.children w)).countP (fun i => d.kindOf? i == some k) =
      (d.children w).countP fun l => l.kind == k := by
  rw [idsOf, List.countP_map, List.countP_filter]
  refine List.countP_congr fun l hl => ?_
  obtain ⟨o, ho, rfl⟩ := h.object?_of_mem_labels (Document.mem_children.mp hl).1
  have hkind : d.kindOf? o.label.id = some o.label.kind := by
    rw [Document.kindOf?, ho]
    rfl
  simp only [Function.comp, hkind, Bool.and_eq_true, beq_iff_eq, Option.some.injEq]
  exact ⟨fun h => h.1, fun h => ⟨h, h ▸ hk⟩⟩

theorem totals_ofPage (h : d.Registered) (ht : d.Tabled) {q : Page} (hq : q ∈ d.pages) :
    ∃ r, Diagnosis.ofPage d q.id = .ok r ∧
      r.totalPlaces = ((d.children (.page q.id)).countP fun l => l.kind == .place) ∧
      r.totalTransitions = (d.children (.page q.id)).countP fun l => l.kind == .transition := by
  refine ⟨_, by
    rw [Diagnosis.ofPage, Document.page?_eq_some_iff.mp (h.mem_pages.mp hq)], ?_⟩
  obtain ⟨hplaces, htransitions⟩ := Diagnosis.totals_foldl (d := d) q.nodes.keys { page := q.id }
  have hkeys : q.nodes.keys = idsOf Kind.isNode (d.children (.page q.id)) :=
    (Document.lists_page h ht hq).keys_nodes
  rw [hplaces, htransitions, hkeys, countP_idsOf h rfl, countP_idsOf h rfl]
  simp

end Diagnosed

section Counting

def ownTokens : Object → Nat
  | .place p => if p.node.reference.isNone then p.tokens.toNat else 0
  | _ => 0

def tally (o : Object) : Kind × Bool × Nat := (o.kind, Stats.isAlias o, ownTokens o)

theorem toNat_addSaturating (a b : UInt64) :
    (addSaturating a b).toNat = min (a.toNat + b.toNat) (2 ^ 64 - 1) := by
  have ha := a.toNat_lt
  have hb := b.toNat_lt
  unfold addSaturating
  split
  · next h =>
    rw [UInt64.le_iff_toNat_le, UInt64.toNat_add] at h
    rw [UInt64.toNat_add]
    omega
  · next h =>
    rw [UInt64.le_iff_toNat_le, UInt64.toNat_add] at h
    rw [show (0xFFFFFFFFFFFFFFFF : UInt64).toNat = 2 ^ 64 - 1 from rfl]
    omega

namespace Stats

def ofKind (s : Stats) : Kind → Nat
  | .net => s.nets
  | .page => s.pages
  | .place => s.places
  | .transition => s.transitions
  | .arc => s.arcs

theorem ofKind_countKind (s : Stats) (j k : Kind) :
    (s.countKind j).ofKind k = s.ofKind k + if j = k then 1 else 0 := by
  cases j <;> cases k <;> rfl

theorem ofKind_countNode (s : Stats) (o : Object) (k : Kind) :
    (s.countNode o).ofKind k = s.ofKind k := by
  unfold countNode
  split
  · cases k <;> rfl
  · cases o <;> cases k <;> rfl

theorem referenceNodes_count (s : Stats) (o : Object) :
    ((s.countKind o.kind).countNode o).referenceNodes =
      s.referenceNodes + if isAlias o then 1 else 0 := by
  unfold countNode
  split
  · cases o <;> rfl
  · cases o <;> rfl

theorem initialTokens_count (s : Stats) (o : Object) :
    ((s.countKind o.kind).countNode o).initialTokens.toNat =
      min (s.initialTokens.toNat + ownTokens o) (2 ^ 64 - 1) := by
  have hmax : s.initialTokens.toNat ≤ 2 ^ 64 - 1 := Nat.le_sub_one_of_lt s.initialTokens.toNat_lt
  cases o with
  | place p =>
    cases hr : p.node.reference with
    | none =>
      have hown : ownTokens (.place p) = p.tokens.toNat := by simp [ownTokens, hr]
      simp only [countNode, isAlias, Object.node?, Option.bind_some, hr, Option.isSome_none,
        Bool.false_eq_true, if_false, toNat_addSaturating, hown]
      rfl
    | some r =>
      have hown : ownTokens (.place p) = 0 := by simp [ownTokens, hr]
      simp only [countNode, isAlias, Object.node?, Option.bind_some, hr, Option.isSome_some,
        if_true, hown, Nat.add_zero]
      exact (Nat.min_eq_left hmax).symm
  | transition t =>
    unfold countNode
    split <;> exact (Nat.min_eq_left hmax).symm
  | _ => exact (Nat.min_eq_left hmax).symm

theorem counts_foldl (os : List Object) (s : Stats) :
    (∀ k, (os.foldl (fun s o => (s.countKind o.kind).countNode o) s).ofKind k =
        s.ofKind k + os.countP fun o => o.kind == k) ∧
      (os.foldl (fun s o => (s.countKind o.kind).countNode o) s).referenceNodes =
        s.referenceNodes + os.countP isAlias ∧
      (os.foldl (fun s o => (s.countKind o.kind).countNode o) s).initialTokens.toNat =
        min (s.initialTokens.toNat + (os.map ownTokens).sum) (2 ^ 64 - 1) := by
  induction os generalizing s with
  | nil =>
    have hmax := s.initialTokens.toNat_lt
    simp only [List.foldl_nil, List.countP_nil, Nat.add_zero, List.map_nil, List.sum_nil,
      implies_true, true_and]
    omega
  | cons o os ih =>
    obtain ⟨hkind, haliases, htokens⟩ := ih ((s.countKind o.kind).countNode o)
    refine ⟨fun k => ?_, ?_, ?_⟩
    · rw [List.foldl_cons, hkind, ofKind_countNode, ofKind_countKind, List.countP_cons]
      simp only [beq_iff_eq]
      omega
    · rw [List.foldl_cons, haliases, referenceNodes_count, List.countP_cons]
      omega
    · rw [List.foldl_cons, htokens, initialTokens_count, List.map_cons, List.sum_cons]
      omega

theorem ofKind_collect (d : Document) (k : Kind) :
    (collect d).ofKind k = d.toList.countP fun o => o.kind == k := by
  have h := (counts_foldl d.toList {}).1 k
  have hstart : ({} : Stats).ofKind k = 0 := by cases k <;> rfl
  rwa [hstart, Nat.zero_add] at h

theorem referenceNodes_collect (d : Document) :
    (collect d).referenceNodes = d.toList.countP isAlias := by
  have h := (counts_foldl d.toList {}).2.1
  rwa [Nat.zero_add] at h

theorem initialTokens_collect (d : Document) : (collect d).initialTokens.toNat =
    min ((d.toList.map ownTokens).sum) (2 ^ 64 - 1) := by
  have h := (counts_foldl d.toList {}).2.2
  rwa [show (({} : Stats).initialTokens.toNat) = 0 from rfl, Nat.zero_add] at h

theorem eq_of_counts {s t : Stats} (hkinds : ∀ k, s.ofKind k = t.ofKind k)
    (haliases : s.referenceNodes = t.referenceNodes)
    (htokens : s.initialTokens.toNat = t.initialTokens.toNat) : s = t := by
  cases s
  cases t
  rw [mk.injEq]
  exact ⟨hkinds .net, hkinds .page, hkinds .place, hkinds .transition, hkinds .arc, haliases,
    UInt64.toNat_inj.mp htokens⟩

theorem collect_eq_of_perm (h : (e.toList.map tally).Perm (d.toList.map tally)) :
    collect e = collect d := by
  have hcount : ∀ p : Kind × Bool × Nat → Bool,
      e.toList.countP (fun o => p (tally o)) = d.toList.countP fun o => p (tally o) := by
    intro p
    have hp := h.countP_eq p
    rwa [List.countP_map, List.countP_map] at hp
  refine eq_of_counts (fun k => ?_) ?_ ?_
  · rw [ofKind_collect, ofKind_collect]
    exact hcount fun t => t.1 == k
  · rw [referenceNodes_collect, referenceNodes_collect]
    exact hcount fun t => t.2.1
  · have hsum := (h.map (·.2.2)).sum_eq
    rw [List.map_map, List.map_map] at hsum
    rw [initialTokens_collect, initialTokens_collect]
    exact congrArg (min · (2 ^ 64 - 1)) hsum

end Stats

end Counting

section Balance

theorem countP_kinds (ls : List Label) :
    (ls.countP fun l => l.kind == .net) + (ls.countP fun l => l.kind == .page) +
      (ls.countP fun l => l.kind == .place) + (ls.countP fun l => l.kind == .transition) +
      (ls.countP fun l => l.kind == .arc) = ls.length := by
  induction ls with
  | nil => rfl
  | cons l ls ih =>
    simp only [List.countP_cons, List.length_cons]
    cases l.kind <;> simp <;> omega

theorem countP_isNode (ls : List Label) : (ls.countP fun l => l.kind.isNode) =
    (ls.countP fun l => l.kind == .place) + ls.countP fun l => l.kind == .transition := by
  have hkind : ∀ k : Kind, (if k.isNode then 1 else 0) =
      (if k == .place then 1 else 0) + if k == .transition then 1 else 0 := by
    intro k
    cases k <;> rfl
  induction ls with
  | nil => rfl
  | cons l ls ih =>
    rw [List.countP_cons, List.countP_cons, List.countP_cons, ih, hkind]
    omega

theorem countP_isAlias (h : d.Registered) :
    d.toList.countP Stats.isAlias = (d.keys.filter fun i => (d.refersTo? i).isSome).length := by
  have hkeys : d.keys = d.toList.map Object.id := by
    rw [h.stored, Document.labels, List.map_map]
    rfl
  rw [hkeys, ← List.countP_eq_length_filter, List.countP_map]
  refine List.countP_congr fun o ho => ?_
  rw [Function.comp, Document.refersTo?, h.mem_toList.mp ho]
  rfl

theorem sum_ownTokens (d : Document) : (d.toList.map ownTokens).sum =
    ((d.places.filter fun p => p.node.reference.isNone).map (·.tokens.toNat)).sum := by
  rw [Document.places]
  induction d.toList with
  | nil => rfl
  | cons o os ih =>
    rw [List.map_cons, List.sum_cons, ih, List.filterMap_cons]
    cases o with
    | place p =>
      cases hr : p.node.reference with
      | none => simp [Object.place?, ownTokens, hr]
      | some r => simp [Object.place?, ownTokens, hr]
    | _ => simp [Object.place?, ownTokens]

/-- The statistics agree with the tables of the document: every object is counted once, and what
stands on pages is counted as the tables of the pages and their reports have it. -/
structure Stats.Balances (d : Document) (s : Stats) : Prop where
  objects : s.nets + s.pages + s.places + s.transitions + s.arcs = d.size
  nodes : s.places + s.transitions = (d.pages.map (·.nodes.size)).sum
  arcs : s.arcs = (d.pages.map (·.arcs.size)).sum
  pages : s.pages = (d.nets.map (·.pages.length)).sum + (d.pages.map (·.pages.length)).sum
  reports : ∃ reports, List.Forall₂ (fun p r => Diagnosis.ofPage d p.id = .ok r) d.pages reports ∧
    s.places = (reports.map (·.totalPlaces)).sum ∧
    s.transitions = (reports.map (·.totalTransitions)).sum
  aliases : s.referenceNodes = (d.keys.filter fun i => (d.refersTo? i).isSome).length
  tokens : s.initialTokens.toNat =
    min ((d.places.filter fun p => p.node.reference.isNone).map (·.tokens.toNat)).sum (2 ^ 64 - 1)

theorem countP_labels_eq (d : Document) (k : Kind) :
    (Stats.collect d).ofKind k = d.labels.countP fun l => l.kind == k := by
  rw [Stats.ofKind_collect, Document.labels, List.countP_map]
  rfl

theorem exists_totals (h : d.Registered) (ht : d.Tabled) :
    ∃ reports, List.Forall₂ (fun p r => Diagnosis.ofPage d p.id = .ok r) d.pages reports ∧
      (d.labels.countP fun l => l.kind == .place) = (reports.map (·.totalPlaces)).sum ∧
      (d.labels.countP fun l => l.kind == .transition) =
        (reports.map (·.totalTransitions)).sum := by
  obtain ⟨reports, hall⟩ := exists_forall₂ fun q hq => totals_ofPage (q := q) h ht hq
  refine ⟨reports, hall.imp fun _ _ hr => hr.1, ?_, ?_⟩
  · rw [Document.countP_onPages h ht (p := (· == .place)) fun k hk => by
      rw [beq_iff_eq.mp hk]
      exact .inl rfl]
    exact congrArg List.sum (map_eq_map_of_forall₂ (hall.imp fun _ _ hr => hr.2.1))
  · rw [Document.countP_onPages h ht (p := (· == .transition)) fun k hk => by
      rw [beq_iff_eq.mp hk]
      exact .inl rfl]
    exact congrArg List.sum (map_eq_map_of_forall₂ (hall.imp fun _ _ hr => hr.2.2))

theorem balances_collect (h : d.Registered) (ht : d.Tabled) : (Stats.collect d).Balances d := by
  have hkind := countP_labels_eq d
  obtain ⟨reports, hall, hplaces, htransitions⟩ := exists_totals h ht
  exact
    { objects := by
        have htotal := countP_kinds d.labels
        rw [← hkind, ← hkind, ← hkind, ← hkind, ← hkind, Document.length_labels] at htotal
        exact htotal
      nodes := by
        rw [← Document.countP_nodes h ht, countP_isNode, ← hkind, ← hkind]
        rfl
      arcs := (hkind .arc).trans (Document.countP_arcs h ht)
      pages := (hkind .page).trans (Document.countP_pages h ht)
      reports := ⟨reports, hall, (hkind .place).trans hplaces,
        (hkind .transition).trans htransitions⟩
      aliases := (Stats.referenceNodes_collect d).trans (countP_isAlias h)
      tokens := by rw [Stats.initialTokens_collect, sum_ownTokens] }

/-- The statistics of a document agree with its tables, and are those of every other document with
the same objects to count, in whatever order these were added. -/
theorem balances_of_reachable (hd : d.Reachable Edit.IsPlain) :
    (Stats.collect d).Balances d ∧
      ∀ e, (e.toList.map tally).Perm (d.toList.map tally) → Stats.collect e = Stats.collect d :=
  ⟨balances_collect hd.registered hd.tabled, fun _ => Stats.collect_eq_of_perm⟩

/-- Two places whose tokens are too many to add up, and an alias whose own tokens do not count. -/
def brimmingRun (first second : Place) : List Action :=
  [.edit (.addNet { id := ⟨"n"⟩, format := .placeTransition }),
    .edit (.add ⟨"n"⟩ (.page { id := ⟨"p"⟩ })),
    .edit (.add ⟨"p"⟩ (.place first)),
    .edit (.add ⟨"p"⟩ (.place second)),
    .edit (.add ⟨"p"⟩ (.place { id := ⟨"c"⟩, tokens := 7, node := { reference := some ⟨"a"⟩ } })),
    .edit (.add ⟨"p"⟩ (.transition { id := ⟨"t"⟩ })),
    .edit (.add ⟨"p"⟩ (.arc { id := ⟨"at"⟩, source := ⟨"a"⟩, target := ⟨"t"⟩ }))]

theorem uses_brimmingRun (first second : Place) :
    ∀ a ∈ brimmingRun first second, a.Uses Edit.IsPlain := by
  intro a ha
  simp only [brimmingRun, List.mem_cons, List.not_mem_nil, or_false] at ha
  rcases ha with rfl | rfl | rfl | rfl | rfl | rfl | rfl
  · exact ⟨rfl, rfl⟩
  · exact ⟨rfl, rfl, rfl, rfl, rfl⟩
  all_goals trivial

def fullPlace : Place := { id := ⟨"a"⟩, tokens := 0xFFFFFFFFFFFFFFFF }

def secondPlace : Place := { id := ⟨"b"⟩, tokens := 2 }

theorem balances_brimmingRun :
    (Document.run (brimmingRun fullPlace secondPlace)).Reachable Edit.IsPlain ∧
      (Stats.collect (Document.run (brimmingRun fullPlace secondPlace))).Balances
        (Document.run (brimmingRun fullPlace secondPlace)) ∧
      Stats.collect (Document.run (brimmingRun secondPlace fullPlace)) =
        Stats.collect (Document.run (brimmingRun fullPlace secondPlace)) ∧
      (Stats.collect (Document.run (brimmingRun fullPlace secondPlace))).initialTokens =
        0xFFFFFFFFFFFFFFFF := by
  have hd : (Document.run (brimmingRun fullPlace secondPlace)).Reachable Edit.IsPlain :=
    ⟨_, uses_brimmingRun _ _, rfl⟩
  obtain ⟨hbalances, hany⟩ := balances_of_reachable hd
  exact ⟨hd, hbalances, hany _ (by decide), by decide⟩

end Balance

end Report

end PagedNets
