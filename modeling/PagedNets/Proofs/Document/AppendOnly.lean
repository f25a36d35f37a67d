import PagedNets.Proofs.Document.Clone

/-!
Registries only grow. What an identifier is numbered with stands from the time on at which it is
registered. Where containers come in without contents, no other identifier is numbered, so that
whole tables stand; a container that comes in with contents may list an identifier before it is
registered, and that one is numbered anew.
-/

set_option autoImplicit false

namespace PagedNets

section Keys

variable {κ α : Type} [DecidableEq κ]

theorem Table.keys_before_insert (t : Table κ α) (k : κ) (a : α) :
    t.keys <+: (t.insert k a).keys := by
  rw [Table.keys_insert]
  split
  · exact List.prefix_rfl
  · exact List.prefix_append _ _

theorem before_insertKey (keys : List ObjectId) (i : ObjectId) : keys <+: insertKey keys i := by
  unfold insertKey
  split
  · exact List.prefix_rfl
  · exact List.prefix_append _ _

theorem Table.entries_before {t u : Table κ α} (hu : u.keys.Nodup) (hk : t.keys <+: u.keys)
    (hsame : ∀ k a, t.find? k = some a → u.find? k = some a) : t.entries <+: u.entries := by
  have ht : t.keys.Nodup := hu.sublist hk.sublist
  obtain ⟨more, hmore⟩ := hk
  have hold : t.entries = t.keys.filterMap fun k => (u.find? k).map (k, ·) := by
    rw [Table.entries_eq_filterMap ht]
    refine List.filterMap_congr fun k hmem => ?_
    obtain ⟨a, ha⟩ := Table.mem_keys_iff.mp hmem
    rw [ha, hsame k a ha]
  rw [Table.entries_eq_filterMap hu, ← hmore, List.filterMap_append, ← hold]
  exact List.prefix_append _ _

end Keys

namespace Tables

/-- The tables of a container at two times. What was listed is listed in the same order, in front of
what came in, and the numbers of the known identifiers stand. -/
structure Grows (known : List ObjectId) (t u : Tables) : Prop where
  pages : t.pages <+: u.pages
  nodes : t.nodes.keys <+: u.nodes.keys
  arcs : t.arcs.keys <+: u.arcs.keys
  vertices : t.graph.vertices <+: u.graph.vertices
  edges : t.graph.edges <+: u.graph.edges
  vertex : ∀ i ∈ known, ∀ v, t.nodes.find? i = some v → u.nodes.find? i = some v
  edge : ∀ i ∈ known, ∀ k, t.arcs.find? i = some k → u.arcs.find? i = some k

structure Extends (t u : Tables) : Prop where
  pages : t.pages <+: u.pages
  nodes : t.nodes.entries <+: u.nodes.entries
  arcs : t.arcs.entries <+: u.arcs.entries
  vertices : t.graph.vertices <+: u.graph.vertices
  edges : t.graph.edges <+: u.graph.edges

variable {known wider : List ObjectId} {t u v : Tables}

theorem Grows.refl (known : List ObjectId) (t : Tables) : Grows known t t where
  pages := List.prefix_rfl
  nodes := List.prefix_rfl
  arcs := List.prefix_rfl
  vertices := List.prefix_rfl
  edges := List.prefix_rfl
  vertex := fun _ _ _ h => h
  edge := fun _ _ _ h => h

theorem Grows.trans (hk : known ⊆ wider) (h : Grows known t u) (h' : Grows wider u v) :
    Grows known t v where
  pages := h.pages.trans h'.pages
  nodes := h.nodes.trans h'.nodes
  arcs := h.arcs.trans h'.arcs
  vertices := h.vertices.trans h'.vertices
  edges := h.edges.trans h'.edges
  vertex := fun i hi n hn => h'.vertex i (hk hi) n (h.vertex i hi n hn)
  edge := fun i hi n hn => h'.edge i (hk hi) n (h.edge i hi n hn)

theorem Extends.empty (u : Tables) : Extends {} u where
  pages := List.nil_prefix
  nodes := List.nil_prefix
  arcs := List.nil_prefix
  vertices := List.nil_prefix
  edges := List.nil_prefix

theorem Grows.extends (h : Grows known t u) (hn : t.nodes.keys ⊆ known) (ha : t.arcs.keys ⊆ known)
    (hnodes : u.nodes.keys.Nodup) (harcs : u.arcs.keys.Nodup) : Extends t u where
  pages := h.pages
  nodes := Table.entries_before hnodes h.nodes fun i v hi =>
    h.vertex i (hn (Table.mem_keys_iff.mpr ⟨v, hi⟩)) v hi
  arcs := Table.entries_before harcs h.arcs fun i k hi =>
    h.edge i (ha (Table.mem_keys_iff.mpr ⟨k, hi⟩)) k hi
  vertices := h.vertices
  edges := h.edges

end Tables

theorem Table.find?_insert_of_known {t : Table ObjectId Nat} {known : List ObjectId}
    {i j : ObjectId} {k m : Nat} (hi : i ∉ known) (hj : j ∈ known) (h : t.find? j = some m) :
    (t.insert i k).find? j = some m := by
  have hne : j ≠ i := fun he => hi (he ▸ hj)
  rw [Table.find?_insert, if_neg hne, h]

namespace Page

variable {known : List ObjectId} {i : ObjectId}

theorem grows_insertNode (hi : i ∉ known) (p : Page) (name : Option String) :
    (Object.page p).tables.Grows known (Object.page (p.insertNode i name)).tables :=
  { Tables.Grows.refl known (Object.page p).tables with
    nodes := Table.keys_before_insert _ _ _
    vertices := List.prefix_append _ _
    vertex := fun _ hj _ hv => Table.find?_insert_of_known hi hj hv }

theorem grows_insertArc (hi : i ∉ known) (p : Page) (name : Option String) (s t : Nat) :
    (Object.page p).tables.Grows known (Object.page (p.insertArc i name s t)).tables :=
  { Tables.Grows.refl known (Object.page p).tables with
    arcs := Table.keys_before_insert _ _ _
    edges := List.prefix_append _ _
    edge := fun _ hj _ hk => Table.find?_insert_of_known hi hj hk }

theorem grows_insertPage (p : Page) (name : Option String) :
    (Object.page p).tables.Grows known (Object.page (p.insertPage i name)).tables :=
  { Tables.Grows.refl known (Object.page p).tables with
    pages := before_insertKey _ _ }

end Page

theorem Object.grows_adopt {known : List ObjectId} {child : Object} (hi : child.id ∉ known)
    (o : Object) : o.tables.Grows known (child.adopt o).tables := by
  cases o with
  | net n =>
    exact { Tables.Grows.refl known (Object.net n).tables with pages := before_insertKey _ _ }
  | page p =>
    cases child with
    | place c => exact p.grows_insertNode hi _
    | transition c => exact p.grows_insertNode hi _
    | arc a =>
      simp only [adopt]
      split
      · exact p.grows_insertArc hi _ _ _
      · exact .refl known _
    | net c => exact p.grows_insertPage _
    | page c => exact p.grows_insertPage _
  | place p => exact .refl known _
  | transition t => exact .refl known _
  | arc a => exact .refl known _

namespace Document

/-- A document at two times: identifiers stay in their places, and no object loses what it is or
what it lists. -/
structure Grows (d e : Document) : Prop where
  keys : d.keys <+: e.keys
  kept : ∀ i o, d.object? i = some o →
    ∃ x, e.object? i = some x ∧ x.label = o.label ∧ o.tables.Grows d.keys x.tables

structure Extends (d e : Document) : Prop where
  keys : d.keys <+: e.keys
  kept : ∀ i o, d.object? i = some o →
    ∃ x, e.object? i = some x ∧ x.label = o.label ∧ o.tables.Extends x.tables

variable {d e f : Document}

theorem Grows.refl (d : Document) : d.Grows d :=
  ⟨List.prefix_rfl, fun _ o ho => ⟨o, ho, rfl, .refl _ _⟩⟩

theorem Grows.trans (h : d.Grows e) (h' : e.Grows f) : d.Grows f := by
  refine ⟨h.keys.trans h'.keys, fun i o ho => ?_⟩
  obtain ⟨x, hx, hlabel, htables⟩ := h.kept i o ho
  obtain ⟨y, hy, hlabel', htables'⟩ := h'.kept i x hx
  exact ⟨y, hy, hlabel'.trans hlabel, htables.trans h.keys.subset htables'⟩

theorem Grows.of_view (hv : e.view Object.shape = d.view Object.shape) : d.Grows e := by
  refine ⟨keys_of_view hv ▸ List.prefix_rfl, fun i o ho => ?_⟩
  obtain ⟨x, hx, hshape⟩ := exists_of_view hv.symm ho
  have hlabel : x.label = o.label := congrArg Prod.fst hshape
  have htables : x.tables = o.tables := congrArg Prod.snd hshape
  exact ⟨x, hx, hlabel, htables ▸ .refl _ _⟩

theorem grows_append {o : Object} : d.Grows (d.append o) := by
  refine ⟨?_, fun i x hx => ⟨x, ?_, rfl, .refl _ _⟩⟩
  · rw [keys_append]
    exact List.prefix_append _ _
  · rw [object?_append, hx, Option.some_or]

theorem grows_enter {parent : ObjectId} {child : Object} (hfresh : d.object? child.id = none) :
    d.Grows (d.enter parent child) := by
  refine ⟨?_, fun i o ho => ?_⟩
  · rw [keys_enter]
    exact List.prefix_append _ _
  have hold : i ≠ child.id := by
    rintro rfl
    rw [hfresh] at ho
    cases ho
  have hobject := map_object?_enter (f := Object.shape) (fun _ => Object.shape_mapNode _) hfresh
    parent i
  rw [if_neg hold, ho, Option.map_some] at hobject
  obtain ⟨x, hx, hshape⟩ := Option.map_eq_some_iff.mp hobject
  have hlabel : x.label = (if i = parent then child.adopt o else o).label :=
    congrArg Prod.fst hshape
  have htables : x.tables = (if i = parent then child.adopt o else o).tables :=
    congrArg Prod.snd hshape
  refine ⟨x, hx, ?_, ?_⟩
  · rw [hlabel]
    split
    · exact Object.label_adopt child o
    · rfl
  · rw [htables]
    split
    · exact Object.grows_adopt (Registered.not_mem_keys hfresh) o
    · exact .refl _ _

theorem grows_edit {change : Edit} (h : d.edit change = .ok e) : d.Grows e := by
  rcases view_shape_edit h with ⟨n, -, hn⟩ | ⟨parent, o, -, ho⟩ | hv
  · obtain ⟨-, -, rfl⟩ := addNet_eq_ok_iff.mp hn
    exact grows_append
  · obtain ⟨container, w, ha, rfl⟩ := add_eq_ok_iff.mp ho
    exact grows_enter (Object.id_admitted o w ▸ ha.fresh)
  · exact .of_view hv

theorem Leads.grows {allowed : Edit → Prop} (h : Leads allowed d e) : d.Grows e := by
  induction h with
  | refl => exact .refl d
  | tail _ hstep ih =>
    obtain ⟨change, -, he⟩ := hstep
    exact ih.trans (grows_edit he)

theorem grows_foldl_act (actions : List Action) (d : Document) : d.Grows (actions.foldl act d) := by
  have hall : ∀ a ∈ actions, a.Uses fun _ => True := by
    intro a _
    cases a <;> trivial
  have hleads : Leads (fun _ => True) d (actions.foldl act d) :=
    leads_foldl_act hall (fun _ => id) fun _ _ => trivial
  exact hleads.grows

theorem Grows.extends (h : d.Grows e) (hd : d.Registered ∧ d.Tabled)
    (he : e.Registered ∧ e.Tabled) : d.Extends e := by
  refine ⟨h.keys, fun i o ho => ?_⟩
  obtain ⟨x, hx, hlabel, htables⟩ := h.kept i o ho
  refine ⟨x, hx, hlabel, ?_⟩
  cases hw : o.asOwner? with
  | none =>
    rw [Object.tables_of_asOwner?_eq_none hw]
    exact .empty _
  | some w =>
    have hlists := hd.2 i o w ho hw
    have hlists' := he.2 i x w hx (Object.asOwner?_of_label hlabel ▸ hw)
    have hknown : ∀ p, idsOf p (d.children w) ⊆ d.keys := by
      intro p j hj
      obtain ⟨l, hl, -, rfl⟩ := mem_idsOf.mp hj
      rw [hd.1.stored]
      exact List.mem_map_of_mem (mem_children.mp hl).1
    have hdistinct : ∀ p, (idsOf p (e.children w)).Nodup := fun p =>
      nodup_idsOf (he.1.nodup_children w)
    refine htables.extends ?_ ?_ ?_ ?_
    · rw [hlists.keys_nodes]
      exact hknown _
    · rw [hlists.keys_arcs]
      exact hknown _
    · rw [hlists'.keys_nodes]
      exact hdistinct _
    · rw [hlists'.keys_arcs]
      exact hdistinct _

/-- Between any two points of a run the registry only grows, whatever is admitted, read or laid out
and whether it succeeds or not. If nets and pages come in without contents, all tables of the
earlier point stand at the beginning of the later ones. -/
theorem grows_run (before after : List Action) :
    (run before).Grows (run (before ++ after)) ∧
      ((∀ a ∈ before ++ after, a.Uses Edit.IsPlain) →
        (run before).Extends (run (before ++ after))) := by
  have hgrows : (run before).Grows (run (before ++ after)) := by
    rw [run, run, List.foldl_append]
    exact grows_foldl_act after _
  refine ⟨hgrows, fun hplain => ?_⟩
  have hbefore : (run before).Reachable Edit.IsPlain :=
    ⟨before, fun a ha => hplain a (List.mem_append_left _ ha), rfl⟩
  have hafter : (run (before ++ after)).Reachable Edit.IsPlain := ⟨_, hplain, rfl⟩
  exact hgrows.extends hbefore.registered_and_tabled hafter.registered_and_tabled

/-- After the first five steps of `nestedRun` there are two nodes on the inner page; then an arc
joins them, the page is laid out and something is read that is no markup. -/
def grownRun : List Action :=
  [.edit (.add ⟨"q"⟩ (.arc { id := ⟨"ab"⟩, source := ⟨"a"⟩, target := ⟨"b"⟩ })),
    .layoutPage ⟨"q"⟩ {},
    .read "<"]

theorem extends_grownRun :
    (∀ a ∈ nestedRun.take 5 ++ grownRun, a.Uses Edit.IsPlain) ∧
      ((run (nestedRun.take 5)).page? ⟨"q"⟩).map (·.nodes.entries) =
        some [(⟨"a"⟩, 0), (⟨"b"⟩, 1)] ∧
      (run (nestedRun.take 5)).Extends (run (nestedRun.take 5 ++ grownRun)) := by
  have hplain : ∀ a ∈ nestedRun.take 5 ++ grownRun, a.Uses Edit.IsPlain := by
    intro a ha
    rcases List.mem_append.mp ha with ha | ha
    · exact uses_nestedRun a (List.mem_of_mem_take ha)
    · simp only [grownRun, List.mem_cons, List.not_mem_nil, or_false] at ha
      rcases ha with rfl | rfl | rfl <;> trivial
  exact ⟨hplain, by decide, (grows_run _ _).2 hplain⟩

end Document

namespace Deed

theorem grows_run_clones (before after : List Deed) (k : Nat) :
    (run before k).Grows (run (before ++ after) k) := by
  induction after using List.reverseRecOn with
  | nil =>
    rw [List.append_nil]
    exact .refl _
  | append_singleton after deed ih =>
    rw [← List.append_assoc]
    rcases run_concat_cases (before ++ after) deed k with hsame | ⟨change, -, he⟩
    · rw [hsame]
      exact ih
    · exact ih.trans (Document.grows_edit he)

/-- A page with a place is cloned into another document, and there a place with the identifier of
the first one is admitted to it. -/
def renumberedRun : List Deed :=
  [.edit 0 (.addNet { id := ⟨"n"⟩, format := .placeTransition }),
    .edit 0 (.add ⟨"n"⟩ (.page { id := ⟨"pg"⟩ })),
    .edit 0 (.add ⟨"pg"⟩ (.place { id := ⟨"a"⟩ })),
    .edit 1 (.addNet { id := ⟨"m"⟩, format := .placeTransition }),
    .clone 0 ⟨"pg"⟩ 1 (some ⟨"m"⟩),
    .edit 1 (.add ⟨"pg"⟩ (.place { id := ⟨"a"⟩ }))]

/-- A clone may list an identifier that is registered later; then its number changes. -/
theorem clone_renumbered :
    ((run (renumberedRun.take 5) 1).page? ⟨"pg"⟩).map (·.nodes.entries) = some [(⟨"a"⟩, 0)] ∧
      ((run renumberedRun 1).page? ⟨"pg"⟩).map (·.nodes.entries) = some [(⟨"a"⟩, 1)] ∧
      ¬ (run (renumberedRun.take 5) 1).Extends (run renumberedRun 1) := by
  have hbefore : ((run (renumberedRun.take 5) 1).page? ⟨"pg"⟩).map (·.nodes.entries) =
      some [(⟨"a"⟩, 0)] := by decide
  have hafter : ((run renumberedRun 1).page? ⟨"pg"⟩).map (·.nodes.entries) =
      some [(⟨"a"⟩, 1)] := by decide
  refine ⟨hbefore, hafter, fun h => ?_⟩
  obtain ⟨p, hp, hentries⟩ := Option.map_eq_some_iff.mp hbefore
  obtain ⟨q, hq, hentries'⟩ := Option.map_eq_some_iff.mp hafter
  obtain ⟨x, hx, -, htables⟩ := h.kept _ _ (Document.page?_eq_some_iff.mp hp)
  rw [Document.page?_eq_some_iff.mp hq] at hx
  cases hx
  have hnodes : p.nodes.entries <+: q.nodes.entries := htables.nodes
  rw [hentries, hentries'] at hnodes
  exact absurd hnodes (by decide)

end Deed

end PagedNets
