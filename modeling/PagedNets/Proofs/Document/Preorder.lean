import PagedNets.Proofs.Document.Adjacency
import PagedNets.Proofs.Document.Linking

/-!
The order in which a document is written: each net in turn, each page before what is on it, its
nodes before its arcs, and then the pages in it. Every object comes once in this order, after its
owner and after the nodes that it joins.
-/

set_option autoImplicit false

namespace PagedNets.Document

def walk (d : Document) : Nat → List ObjectId → List ObjectId
  | 0, _ => []
  | fuel + 1, keys => keys.flatMap fun key =>
    match d.page? key with
    | none => []
    | some p => key :: (p.nodes.keys ++ p.arcs.keys ++ d.walk fuel p.pages)

def netWalk (d : Document) (n : Net) : List ObjectId := n.id :: d.walk (d.size + 1) n.pages

def preorder (d : Document) : List ObjectId := d.nets.flatMap d.netWalk

/-- The keys are pages, and the fuel is enough for all that is nested in them. -/
def Adequate (d : Document) (fuel : Nat) (keys : List ObjectId) : Prop :=
  ∀ k ∈ keys, (∃ p, d.page? k = some p) ∧ d.size ≤ fuel + d.keys.idxOf k

variable {d : Document} {c i k : ObjectId} {fuel : Nat} {keys : List ObjectId}

theorem idxOf_lt_size {o : Object} (h : d.object? i = some o) : d.keys.idxOf i < d.size := by
  rw [← length_keys]
  exact List.idxOf_lt_length_of_mem (mem_keys_of_object? h)

theorem Adequate.eq_nil (h : d.Adequate 0 keys) : keys = [] := by
  cases keys with
  | nil => rfl
  | cons k keys =>
    obtain ⟨⟨p, hp⟩, hf⟩ := h k List.mem_cons_self
    have hlt := idxOf_lt_size (page?_eq_some_iff.mp hp)
    omega

theorem walk_succ (fuel : Nat) (keys : List ObjectId) : d.walk (fuel + 1) keys =
    keys.flatMap fun key => match d.page? key with
      | none => []
      | some p => key :: (p.nodes.keys ++ p.arcs.keys ++ d.walk fuel p.pages) := rfl

theorem mem_walk_succ : i ∈ d.walk (fuel + 1) keys ↔ ∃ k ∈ keys, ∃ p, d.page? k = some p ∧
    (i = k ∨ i ∈ p.nodes.keys ∨ i ∈ p.arcs.keys ∨ i ∈ d.walk fuel p.pages) := by
  rw [walk_succ, List.mem_flatMap]
  refine exists_congr fun k => and_congr_right fun _ => ?_
  cases d.page? k with
  | none => simp
  | some p => simp

theorem sublist_walk_succ (hk : k ∈ keys) {p : Page} (hp : d.page? k = some p) :
    (k :: (p.nodes.keys ++ p.arcs.keys ++ d.walk fuel p.pages)).Sublist
      (d.walk (fuel + 1) keys) := by
  obtain ⟨before, after, rfl⟩ := List.append_of_mem hk
  rw [walk_succ, List.flatMap_append, List.flatMap_cons, hp]
  exact (List.sublist_append_left _ _).trans (List.sublist_append_right _ _)

theorem holds_page_iff {p : Page} (hp : d.page? k = some p) :
    d.Holds k i ↔ i ∈ p.pages ∨ i ∈ p.nodes.keys ∨ i ∈ p.arcs.keys := by
  unfold Holds
  rw [page?_eq_some_iff.mp hp]
  simp [Object.tables]

theorem holds_net_iff {n : Net} (hn : d.net? k = some n) : d.Holds k i ↔ i ∈ n.pages := by
  unfold Holds
  rw [net?_eq_some_iff.mp hn]
  simp [Object.tables, Table.keys, Table.empty]

theorem eq_of_reaches {o : Object} (ho : d.object? k = some o)
    (hk : o.kind.isNode = true ∨ o.kind = .arc) (hki : Relation.ReflTransGen d.Holds k i) :
    i = k := by
  rcases Relation.ReflTransGen.cases_head hki with he | ⟨j, hj, _⟩
  · exact he.symm
  · obtain ⟨x, hx, hlists⟩ := hj
    rw [ho] at hx
    cases hx
    have hnone : o.asOwner? = none := by
      cases o with
      | net n => rcases hk with hk | hk <;> cases hk
      | page p => rcases hk with hk | hk <;> cases hk
      | _ => rfl
    rw [Object.tables_of_asOwner?_eq_none hnone] at hlists
    rcases hlists with hj | hj | hj <;> cases hj

theorem sublist_walk (hf : d.Adequate fuel keys) : keys.Sublist (d.walk fuel keys) := by
  cases fuel with
  | zero =>
    rw [hf.eq_nil]
    exact .slnil
  | succ fuel =>
    rw [walk_succ]
    induction keys with
    | nil => exact .slnil
    | cons k keys ih =>
      obtain ⟨⟨p, hp⟩, _⟩ := hf k List.mem_cons_self
      rw [List.flatMap_cons, hp]
      have hrest := ih fun j hj => hf j (List.mem_cons_of_mem _ hj)
      exact .cons_cons k (hrest.trans (List.sublist_append_right _ _))

section

variable (h : d.Contained)
include h

theorem Contained.adequate_page {p : Page} (hp : d.page? k = some p)
    (hf : d.size ≤ fuel + 1 + d.keys.idxOf k) : d.Adequate fuel p.pages := by
  intro j hj
  obtain ⟨q, hq, how⟩ := ((h.pages k p hp).2 j).mp hj
  obtain ⟨w, _, hw, _, _, hlt⟩ := h.owned j _ (page?_eq_some_iff.mp hq) (by simp [Object.kind])
  have hwk : w = .page k := by
    have hq : q.owner = some w := hw
    rw [how] at hq
    exact (Option.some.inj hq).symm
  subst hwk
  refine ⟨⟨q, hq⟩, ?_⟩
  have hk : d.keys.idxOf k < d.keys.idxOf j := hlt
  omega

theorem Contained.adequate_net {n : Net} (hn : d.net? k = some n) :
    d.Adequate (d.size + 1) n.pages := by
  intro j hj
  obtain ⟨q, hq, _⟩ := ((h.netPages k n hn).2 j).mp hj
  exact ⟨⟨q, hq⟩, by omega⟩

theorem Contained.mem_walk (hf : d.Adequate fuel keys) :
    i ∈ d.walk fuel keys ↔ ∃ k ∈ keys, Relation.ReflTransGen d.Holds k i := by
  induction fuel generalizing keys with
  | zero => simp [hf.eq_nil, walk]
  | succ fuel ih =>
    rw [mem_walk_succ]
    refine exists_congr fun k => and_congr_right fun hk => ?_
    obtain ⟨⟨p, hp⟩, hle⟩ := hf k hk
    have hnested := ih (h.adequate_page hp (by omega))
    constructor
    · intro hi
      obtain ⟨q, hq, hi⟩ := hi
      rw [hp] at hq
      cases hq
      rcases hi with rfl | hi | hi | hi
      · exact .refl
      · exact .single ((holds_page_iff hp).mpr (.inr (.inl hi)))
      · exact .single ((holds_page_iff hp).mpr (.inr (.inr hi)))
      · obtain ⟨j, hj, hji⟩ := hnested.mp hi
        exact hji.head ((holds_page_iff hp).mpr (.inl hj))
    · intro hki
      refine ⟨p, hp, ?_⟩
      rcases Relation.ReflTransGen.cases_head hki with he | ⟨j, hkj, hji⟩
      · exact .inl he.symm
      rcases (holds_page_iff hp).mp hkj with hj | hj | hj
      · exact .inr (.inr (.inr (hnested.mpr ⟨j, hj, hji⟩)))
      · obtain ⟨o, ho, hok, _⟩ := ((h.nodes k p hp).2 j).mp hj
        rw [eq_of_reaches ho (.inl hok) hji]
        exact .inr (.inl hj)
      · obtain ⟨a, ha, _⟩ := ((h.arcs k p hp).2 j).mp hj
        rw [eq_of_reaches (arc?_eq_some_iff.mp ha) (.inr rfl) hji]
        exact .inr (.inr (.inl hj))

theorem Contained.not_reaches_sibling {a b : ObjectId} (ha : d.Holds c a) (hb : d.Holds c b)
    (hne : a ≠ b) : ¬ Relation.ReflTransGen d.Holds a b := by
  intro hab
  rcases Relation.ReflTransGen.cases_tail hab with he | ⟨j, haj, hjb⟩
  · exact hne he.symm
  · rw [h.oneHolder j c b hjb hb] at haj
    exact h.acyclic a (Relation.TransGen.tail' haj ha)

theorem Contained.disjoint_siblings {a b : ObjectId} (ha : d.Holds c a) (hb : d.Holds c b)
    (hne : a ≠ b) (hai : Relation.ReflTransGen d.Holds a i) :
    ¬ Relation.ReflTransGen d.Holds b i := by
  intro hbi
  have hunique : Relator.RightUnique (Function.swap d.Holds) :=
    fun i a b hai hbi => h.oneHolder a b i hai hbi
  -- Both lie on the one way up from the common member.
  rcases Relation.ReflTransGen.total_of_right_unique hunique
    (Relation.reflTransGen_swap.mpr hai) (Relation.reflTransGen_swap.mpr hbi) with hup | hup
  · exact h.not_reaches_sibling hb ha (Ne.symm hne) (Relation.reflTransGen_swap.mp hup)
  · exact h.not_reaches_sibling ha hb hne (Relation.reflTransGen_swap.mp hup)

theorem Contained.not_mem_walk_nested {p : Page} (hp : d.page? k = some p)
    (hf : d.Adequate fuel p.pages) {o : Object} (ho : d.object? i = some o) (hok : o.kind ≠ .page)
    (hki : d.Holds k i) : i ∉ d.walk fuel p.pages := by
  intro hi
  obtain ⟨j, hj, hji⟩ := (h.mem_walk hf).mp hi
  refine h.not_reaches_sibling ((holds_page_iff hp).mpr (.inl hj)) hki (fun he => hok ?_) hji
  obtain ⟨q, hq, _⟩ := ((h.pages k p hp).2 j).mp hj
  rw [he, page?_eq_some_iff, ho] at hq
  cases hq
  rfl

theorem Contained.not_mem_inside {p : Page} (hp : d.page? k = some p)
    (hf : d.Adequate fuel p.pages) :
    k ∉ p.nodes.keys ++ p.arcs.keys ++ d.walk fuel p.pages := by
  intro hm
  have hdown : ∃ j, d.Holds k j ∧ Relation.ReflTransGen d.Holds j k := by
    simp only [List.mem_append, or_assoc] at hm
    rcases hm with hm | hm | hm
    · exact ⟨k, (holds_page_iff hp).mpr (.inr (.inl hm)), .refl⟩
    · exact ⟨k, (holds_page_iff hp).mpr (.inr (.inr hm)), .refl⟩
    · obtain ⟨j, hj, hjk⟩ := (h.mem_walk hf).mp hm
      exact ⟨j, (holds_page_iff hp).mpr (.inl hj), hjk⟩
  obtain ⟨j, hkj, hjk⟩ := hdown
  exact h.acyclic k (Relation.TransGen.head' hkj hjk)

theorem Contained.nodup_page {p : Page} (hp : d.page? k = some p)
    (hf : d.Adequate fuel p.pages) (hw : (d.walk fuel p.pages).Nodup) :
    (k :: (p.nodes.keys ++ p.arcs.keys ++ d.walk fuel p.pages)).Nodup := by
  have hnodes : ∀ i ∈ p.nodes.keys, ∃ o, d.object? i = some o ∧ o.kind.isNode = true := by
    intro i hi
    obtain ⟨o, ho, hok, _⟩ := ((h.nodes k p hp).2 i).mp hi
    exact ⟨o, ho, hok⟩
  have harcs : ∀ i ∈ p.arcs.keys, ∃ a, d.object? i = some (.arc a) := by
    intro i hi
    obtain ⟨a, ha, _⟩ := ((h.arcs k p hp).2 i).mp hi
    exact ⟨a, arc?_eq_some_iff.mp ha⟩
  refine List.nodup_cons.mpr ⟨h.not_mem_inside hp hf, List.nodup_append.mpr
    ⟨List.nodup_append.mpr ⟨(h.nodes k p hp).1, (h.arcs k p hp).1, ?_⟩, hw, ?_⟩⟩
  · intro i hi j hj he
    subst he
    obtain ⟨o, ho, hok⟩ := hnodes i hi
    obtain ⟨a, ha⟩ := harcs i hj
    rw [ho] at ha
    cases ha
    cases hok
  · intro i hi j hj he
    subst he
    rcases List.mem_append.mp hi with hi | hi
    · obtain ⟨o, ho, hok⟩ := hnodes i hi
      refine h.not_mem_walk_nested hp hf ho (fun hpage => ?_)
        ((holds_page_iff hp).mpr (.inr (.inl hi))) hj
      rw [hpage] at hok
      cases hok
    · obtain ⟨a, ha⟩ := harcs i hi
      exact h.not_mem_walk_nested hp hf ha (by simp [Object.kind])
        ((holds_page_iff hp).mpr (.inr (.inr hi))) hj

theorem Contained.nodup_walk (hf : d.Adequate fuel keys) (hk : keys.Nodup)
    (hc : ∀ k ∈ keys, d.Holds c k) : (d.walk fuel keys).Nodup := by
  induction fuel generalizing keys c with
  | zero => exact List.nodup_nil
  | succ fuel ih =>
    rw [walk_succ, List.nodup_flatMap]
    constructor
    · intro k hkk
      obtain ⟨⟨p, hp⟩, hle⟩ := hf k hkk
      have hnested : d.Adequate fuel p.pages := h.adequate_page hp (by omega)
      have hw := ih hnested (h.pages k p hp).1 fun j hj => (holds_page_iff hp).mpr (.inl hj)
      rw [hp]
      exact h.nodup_page hp hnested hw
    · have hbelow : ∀ k ∈ keys, ∀ i ∈ (match d.page? k with
          | none => []
          | some p => k :: (p.nodes.keys ++ p.arcs.keys ++ d.walk fuel p.pages)),
          Relation.ReflTransGen d.Holds k i := by
        intro k hk i hi
        have hone : d.Adequate (fuel + 1) [k] := fun j hj => by
          rw [List.mem_singleton.mp hj]
          exact hf k hk
        have hmem : i ∈ d.walk (fuel + 1) [k] := by
          rw [walk_succ, List.flatMap_singleton]
          exact hi
        obtain ⟨j, hj, hji⟩ := (h.mem_walk hone).mp hmem
        rwa [List.mem_singleton.mp hj] at hji
      refine hk.imp_of_mem fun {a b} ha hb hne => ?_
      intro i hia hib
      exact h.disjoint_siblings (hc a ha) (hc b hb) hne (hbelow a ha i hia) (hbelow b hb i hib)

/-- The tables of every page that the walk comes to are met in their order. -/
theorem Contained.sublist_of_reaches (hf : d.Adequate fuel keys) (hk : k ∈ keys) {p : Page}
    (hp : d.page? c = some p) (hkc : Relation.ReflTransGen d.Holds k c) :
    p.nodes.keys.Sublist (d.walk fuel keys) ∧ p.arcs.keys.Sublist (d.walk fuel keys) ∧
      p.pages.Sublist (d.walk fuel keys) := by
  induction fuel generalizing keys k with
  | zero =>
    rw [hf.eq_nil] at hk
    cases hk
  | succ fuel ih =>
    obtain ⟨⟨q, hq⟩, hle⟩ := hf k hk
    have hnested : d.Adequate fuel q.pages := h.adequate_page hq (by omega)
    have hwhole : (k :: (q.nodes.keys ++ q.arcs.keys ++ d.walk fuel q.pages)).Sublist
        (d.walk (fuel + 1) keys) := sublist_walk_succ hk hq
    rcases Relation.ReflTransGen.cases_head hkc with rfl | ⟨j, hkj, hjc⟩
    · rw [hp] at hq
      cases hq
      refine ⟨?_, ?_, ?_⟩ <;> refine List.Sublist.trans (.cons k ?_) hwhole
      · exact (List.sublist_append_left _ _).trans (List.sublist_append_left _ _)
      · exact (List.sublist_append_right _ _).trans (List.sublist_append_left _ _)
      · exact (sublist_walk hnested).trans (List.sublist_append_right _ _)
    · have hj : j ∈ q.pages := by
        have hpage : ∀ o, d.object? j = some o → ¬ (o.kind.isNode = true ∨ o.kind = .arc) := by
          intro o ho hok
          have hcj := eq_of_reaches ho hok hjc
          rw [← hcj, page?_eq_some_iff.mp hp] at ho
          cases ho
          rcases hok with hok | hok <;> cases hok
        rcases (holds_page_iff hq).mp hkj with hj | hj | hj
        · exact hj
        · obtain ⟨o, ho, hok, _⟩ := ((h.nodes k q hq).2 j).mp hj
          exact absurd (.inl hok) (hpage o ho)
        · obtain ⟨a, ha, _⟩ := ((h.arcs k q hq).2 j).mp hj
          exact absurd (.inr rfl) (hpage _ (arc?_eq_some_iff.mp ha))
      have hinner : (d.walk fuel q.pages).Sublist (d.walk (fuel + 1) keys) :=
        (List.Sublist.cons k (List.sublist_append_right _ _)).trans hwhole
      obtain ⟨hn, ha, hpp⟩ := ih hnested hj hjc
      exact ⟨hn.trans hinner, ha.trans hinner, hpp.trans hinner⟩

theorem Contained.mem_netWalk {n : Net} (hn : d.net? n.id = some n) :
    i ∈ d.netWalk n ↔ Relation.ReflTransGen d.Holds n.id i := by
  rw [netWalk, List.mem_cons, h.mem_walk (h.adequate_net hn)]
  constructor
  · intro hi
    rcases hi with rfl | ⟨k, hk, hki⟩
    · exact .refl
    · exact hki.head ((holds_net_iff hn).mpr hk)
  · intro hi
    rcases Relation.ReflTransGen.cases_head hi with he | ⟨k, hk, hki⟩
    · exact .inl he.symm
    · exact .inr ⟨k, (holds_net_iff hn).mp hk, hki⟩

theorem Contained.nodup_netWalk {n : Net} (hn : d.net? n.id = some n) : (d.netWalk n).Nodup := by
  have hf := h.adequate_net hn
  have hc : ∀ k ∈ n.pages, d.Holds n.id k := fun k hk => (holds_net_iff hn).mpr hk
  refine List.nodup_cons.mpr ⟨fun hm => ?_, h.nodup_walk hf (h.netPages n.id n hn).1 hc⟩
  obtain ⟨k, hk, hkn⟩ := (h.mem_walk hf).mp hm
  exact h.acyclic n.id (Relation.TransGen.head' (hc k hk) hkn)

end

theorem mem_nets (h : d.Registered) {n : Net} : n ∈ d.nets ↔ d.net? n.id = some n := by
  unfold nets
  rw [List.mem_filterMap, net?_eq_some_iff]
  constructor
  · intro hn
    obtain ⟨o, ho, hon⟩ := hn
    have hon : o = .net n := by cases o <;> cases hon; rfl
    subst hon
    exact h.mem_toList.mp ho
  · exact fun hn => ⟨.net n, h.mem_toList.mpr hn, rfl⟩

theorem nodup_nets (h : d.Registered) : (d.nets.map (·.id)).Nodup := by
  have hs : (d.nets.map (·.id)).Sublist (d.toList.map Object.id) := by
    unfold nets
    induction d.toList with
    | nil => exact .slnil
    | cons o os ih =>
      cases o with
      | net n => exact .cons_cons n.id ih
      | _ => exact .cons _ ih
  have hkeys : d.toList.map Object.id = d.keys := by
    rw [h.stored, labels, List.map_map]
    rfl
  rw [hkeys] at hs
  exact hs.nodup h.distinct

theorem sublist_preorder {n : Net} (hn : n ∈ d.nets) : (d.netWalk n).Sublist d.preorder := by
  obtain ⟨before, after, hsplit⟩ := List.append_of_mem hn
  rw [preorder, hsplit, List.flatMap_append, List.flatMap_cons]
  exact (List.sublist_append_left _ _).trans (List.sublist_append_right _ _)

section

variable (hd : d.Reachable Edit.IsPlain)
include hd

theorem Reachable.mem_preorder : i ∈ d.preorder ↔ i ∈ d.keys := by
  have hr := hd.registered
  have h := contained_of_tabled hr hd.tabled
  rw [preorder, List.mem_flatMap]
  constructor
  · intro hi
    obtain ⟨n, hn, hni⟩ := hi
    have hn := (mem_nets hr).mp hn
    have hni := (h.mem_netWalk hn).mp hni
    rcases Relation.ReflTransGen.cases_tail hni with rfl | ⟨k, _, hki⟩
    · exact mem_keys_of_object? (net?_eq_some_iff.mp hn)
    · obtain ⟨o, w, x, _, _, hx, _⟩ :=
        (holds_iff hr hd.tabled).mp hki
      exact mem_keys_of_object? hx
  · intro hi
    obtain ⟨o, ho⟩ := (d.mem_keys_iff i).mp hi
    obtain ⟨n, _, ⟨net, hnet⟩, hni, _⟩ := h.rooted i o ho
    have hid : net.id = n := hr.id_of_object? (net?_eq_some_iff.mp hnet)
    subst hid
    exact ⟨net, (mem_nets hr).mpr hnet, (h.mem_netWalk hnet).mpr hni⟩

theorem Reachable.nodup_preorder : d.preorder.Nodup := by
  obtain ⟨hr, ht⟩ := hd.registered_and_tabled
  have h := contained_of_tabled hr ht
  rw [preorder, List.nodup_flatMap]
  refine ⟨fun n hn => h.nodup_netWalk ((mem_nets hr).mp hn), ?_⟩
  have hn := nodup_nets hr
  rw [List.Nodup, List.pairwise_map] at hn
  refine hn.imp_of_mem fun {m n} hm hn hne => ?_
  intro i him hin
  have hm := (mem_nets hr).mp hm
  have hn := (mem_nets hr).mp hn
  exact hne (root_unique hr ht hm hn ((h.mem_netWalk hm).mp him) ((h.mem_netWalk hn).mp hin))

theorem Reachable.sublist_preorder_net {n : Net} (hn : d.net? c = some n) :
    n.pages.Sublist d.preorder := by
  have hr := hd.registered
  have h := contained_of_tabled hr hd.tabled
  have hid : n.id = c := hr.id_of_object? (net?_eq_some_iff.mp hn)
  subst hid
  have hs := sublist_walk (h.adequate_net hn)
  exact (List.Sublist.cons n.id hs).trans (sublist_preorder ((mem_nets hr).mpr hn))

theorem Reachable.sublist_preorder_page {p : Page} (hp : d.page? c = some p) :
    p.nodes.keys.Sublist d.preorder ∧ p.arcs.keys.Sublist d.preorder ∧
      p.pages.Sublist d.preorder := by
  have hr := hd.registered
  have h := contained_of_tabled hr hd.tabled
  obtain ⟨n, _, ⟨net, hnet⟩, hnc, _⟩ := h.rooted c _ (page?_eq_some_iff.mp hp)
  have hid : net.id = n := hr.id_of_object? (net?_eq_some_iff.mp hnet)
  subst hid
  have hwhole : (d.walk (d.size + 1) net.pages).Sublist d.preorder :=
    (List.Sublist.cons net.id (List.Sublist.refl _)).trans
      (sublist_preorder ((mem_nets hr).mpr hnet))
  rcases Relation.ReflTransGen.cases_head hnc with rfl | ⟨k, hk, hkc⟩
  · rw [page?_eq_some_iff, net?_eq_some_iff.mp hnet] at hp
    cases hp
  · obtain ⟨hnodes, harcs, hpages⟩ := h.sublist_of_reaches (h.adequate_net hnet)
      ((holds_net_iff hnet).mp hk) hp hkc
    exact ⟨hnodes.trans hwhole, harcs.trans hwhole, hpages.trans hwhole⟩

end

/-- What an object names is already there: its owner, and the nodes that it joins. -/
def Needs (d : Document) (present : List ObjectId) (i : ObjectId) : Prop :=
  ∀ o, d.object? i = some o → (∀ w, o.owner = some w → w.id ∈ present) ∧
    ∀ s t, o.ends = some (s, t) → s ∈ present ∧ t ∈ present

def Ready (d : Document) : List ObjectId → List ObjectId → Prop
  | _, [] => True
  | present, i :: rest => d.Needs present i ∧ Ready d (present ++ [i]) rest

theorem Needs.mono {present more : List ObjectId} (h : d.Needs present i)
    (hm : ∀ k ∈ present, k ∈ more) : d.Needs more i := by
  intro o ho
  obtain ⟨howner, hends⟩ := h o ho
  refine ⟨fun w hw => hm _ (howner w hw), fun s t he => ?_⟩
  obtain ⟨hs, ht⟩ := hends s t he
  exact ⟨hm s hs, hm t ht⟩

theorem ready_append {present first second : List ObjectId} :
    d.Ready present (first ++ second) ↔
      d.Ready present first ∧ d.Ready (present ++ first) second := by
  induction first generalizing present with
  | nil => simp [Ready]
  | cons i first ih => simp [Ready, ih, and_assoc]

theorem ready_of_needs {present rest : List ObjectId} (h : ∀ i ∈ rest, d.Needs present i) :
    d.Ready present rest := by
  induction rest generalizing present with
  | nil => trivial
  | cons i rest ih =>
    refine ⟨h i List.mem_cons_self, ih fun j hj => ?_⟩
    exact (h j (List.mem_cons_of_mem _ hj)).mono fun k hk => List.mem_append_left _ hk

section

variable (hd : d.Reachable Edit.IsPlain)
include hd

theorem Reachable.ends_on_page {p : Page} (hp : d.page? c = some p) (hi : i ∈ p.arcs.keys) :
    ∃ a, d.object? i = some (.arc a) ∧ a.owner = some (.page c) ∧ a.source ∈ p.nodes.keys ∧
      a.target ∈ p.nodes.keys := by
  have hr := hd.registered
  have hstep := hd.inStep hp
  obtain ⟨a, ha, how⟩ := (((contained_of_tabled hr hd.tabled).arcs c p hp).2 i).mp hi
  have hid : a.id = i := hr.id_of_object? (arc?_eq_some_iff.mp ha)
  have hm : a ∈ d.arcsOn c := (mem_arcsOn hr).mpr ⟨hid ▸ ha, how⟩
  obtain ⟨e, _, hea⟩ := exists_left_of_forall₂ hstep.edges hm
  obtain ⟨hs, ht⟩ := hstep.vertex_of_runs hea
  exact ⟨a, arc?_eq_some_iff.mp ha, how, Table.mem_keys_iff.mpr ⟨_, hs⟩,
    Table.mem_keys_iff.mpr ⟨_, ht⟩⟩

theorem Reachable.needs_node {p : Page} (hp : d.page? c = some p) (hi : i ∈ p.nodes.keys)
    {present : List ObjectId} (hc : c ∈ present) : d.Needs present i := by
  have h := contained_of_tabled hd.registered hd.tabled
  obtain ⟨x, hx, hxk, how⟩ := ((h.nodes c p hp).2 i).mp hi
  intro o ho
  rw [hx] at ho
  cases ho
  refine ⟨fun w hw => ?_, fun s t he => ?_⟩
  · rw [how] at hw
    cases hw
    exact hc
  · cases x with
    | arc a => cases hxk
    | _ => cases he

theorem Reachable.needs_arc {p : Page} (hp : d.page? c = some p) (hi : i ∈ p.arcs.keys)
    {present : List ObjectId} (hc : c ∈ present) (hn : ∀ j ∈ p.nodes.keys, j ∈ present) :
    d.Needs present i := by
  obtain ⟨a, ha, how, hs, ht⟩ := hd.ends_on_page hp hi
  intro o ho
  rw [ha] at ho
  cases ho
  refine ⟨fun w hw => ?_, fun s t he => ?_⟩
  · have hw : a.owner = some w := hw
    rw [how] at hw
    cases hw
    exact hc
  · cases he
    exact ⟨hn _ hs, hn _ ht⟩

theorem Reachable.ready_walk (hf : d.Adequate fuel keys) {present : List ObjectId}
    (hp : ∀ k ∈ keys, ∀ p w, d.page? k = some p → p.owner = some w → w.id ∈ present) :
    d.Ready present (d.walk fuel keys) := by
  have h := contained_of_tabled hd.registered hd.tabled
  induction fuel generalizing keys present with
  | zero =>
    rw [hf.eq_nil]
    trivial
  | succ fuel ih =>
    induction keys generalizing present with
    | nil => trivial
    | cons k keys ihk =>
      obtain ⟨⟨p, hpage⟩, hle⟩ := hf k List.mem_cons_self
      have ho := page?_eq_some_iff.mp hpage
      rw [walk_succ, List.flatMap_cons, hpage, ← walk_succ]
      refine ready_append.mpr ⟨⟨?_, ready_append.mpr ⟨ready_append.mpr ⟨?_, ?_⟩, ?_⟩⟩, ?_⟩
      · intro o hko
        rw [ho] at hko
        cases hko
        exact ⟨fun w hw => hp k List.mem_cons_self p w hpage hw, fun s t he => by cases he⟩
      · exact ready_of_needs fun i hi => hd.needs_node hpage hi (by simp)
      · exact ready_of_needs fun i hi => hd.needs_arc hpage hi (by simp) fun j hj => by simp [hj]
      · refine ih (h.adequate_page hpage (by omega)) fun j hj q w hq hw => ?_
        obtain ⟨q', hq', how⟩ := ((h.pages k p hpage).2 j).mp hj
        rw [hq] at hq'
        cases hq'
        rw [hw] at how
        cases how
        simp [Owner.id]
      · refine ihk (fun j hj => hf j (List.mem_cons_of_mem _ hj)) fun j hj q w hq hw => ?_
        exact List.mem_append_left _ (hp j (List.mem_cons_of_mem _ hj) q w hq hw)

theorem Reachable.ready_netWalk {n : Net} (hn : d.net? n.id = some n) (present : List ObjectId) :
    d.Ready present (d.netWalk n) := by
  have h := contained_of_tabled hd.registered hd.tabled
  have ho := net?_eq_some_iff.mp hn
  refine ⟨fun o hno => ?_, hd.ready_walk (h.adequate_net hn) fun k hk p w hp hw => ?_⟩
  · rw [ho] at hno
    cases hno
    exact ⟨fun w hw => (by cases hw), fun s t he => by cases he⟩
  · obtain ⟨q, hq, how⟩ := ((h.netPages n.id n hn).2 k).mp hk
    rw [hp] at hq
    cases hq
    rw [hw] at how
    cases how
    simp [Owner.id]

end

end PagedNets.Document
