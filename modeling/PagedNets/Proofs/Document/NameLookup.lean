import PagedNets.Proofs.Document.Naming

set_option autoImplicit false

namespace PagedNets

namespace Table

variable {κ α : Type} [DecidableEq κ] {t : Table κ α}

theorem nodup_keys_insert (h : t.keys.Nodup) (k : κ) (a : α) : (t.insert k a).keys.Nodup := by
  rw [keys_insert]
  split
  · exact h
  · next hk =>
    rw [contains_iff_mem_keys] at hk
    exact List.nodup_append.mpr ⟨h, List.nodup_singleton k, fun i hi j hj he =>
      hk (List.mem_singleton.mp hj ▸ he ▸ hi)⟩

theorem nodup_keys_erase (h : t.keys.Nodup) (k : κ) : (t.erase k).keys.Nodup :=
  h.sublist (List.filter_sublist.map _)

end Table

variable {names : Table String ObjectId}

theorem nodup_enterName (h : names.keys.Nodup) (name : Option String) (i : ObjectId) :
    (enterName names name i).keys.Nodup := by
  cases name with
  | none => exact h
  | some n => exact Table.nodup_keys_insert h n i

theorem nodup_renameEntry (h : names.keys.Nodup) (old new : Option String) (i : ObjectId) :
    (Document.renameEntry names old new i).keys.Nodup := by
  cases old with
  | none => exact nodup_enterName h new i
  | some o => exact nodup_enterName (Table.nodup_keys_erase h o) new i

namespace Object

theorem scopedName_eq_some_iff {o : Object} {n : String} :
    o.scopedName = some n ↔ o.name = some n ∧ n.isEmpty = false := by
  unfold scopedName
  cases o.name with
  | none => simp
  | some m =>
    rw [Option.filter_some]
    cases hm : m.isEmpty with
    | true =>
      have hne : ¬ (m = n ∧ n.isEmpty = false) := fun h => by simp [← h.1, hm] at h
      simpa using hne
    | false =>
      have heq : m = n → n.isEmpty = false := fun h => h ▸ hm
      simpa using heq

theorem names?_adopt_cases (child o : Object) : (child.adopt o).names? = o.names? ∨
    (child.adopt o).names? = o.names?.map (enterName · child.scopedName child.id) := by
  cases o with
  | page p =>
    cases child with
    | arc a =>
      simp only [adopt]
      split
      · exact .inr rfl
      · exact .inl rfl
    | _ => exact .inr rfl
  | net n => exact .inr rfl
  | _ => exact .inl rfl

/-- The object stands directly in the container `c` under the name `n`. -/
def Bears (o : Object) (c : ObjectId) (n : String) : Prop :=
  o.owner.map Owner.id = some c ∧ o.name = some n ∧ n.isEmpty = false

end Object

namespace Document

def Distinct (d : Document) : Prop :=
  ∀ c o names, d.object? c = some o → o.names? = some names → names.keys.Nodup

/-- Names and objects are in step: a scope has one entry for each child with a name and no other,
children of one container that share a name are one object, and a name finds the child that bears
it. -/
structure Indexed (d : Document) : Prop where
  distinct : ∀ c names, d.names? c = some names → names.keys.Nodup
  entries : ∀ c names, d.names? c = some names → ∀ n i,
    (n, i) ∈ names.entries ↔ ∃ o, d.object? i = some o ∧ o.Bears c n
  siblings : ∀ c n i j o x, d.object? i = some o → d.object? j = some x →
    o.Bears c n → x.Bears c n → i = j
  found : ∀ c n o, d.findByName? c n = some o ↔ d.object? o.id = some o ∧ o.Bears c n
  unnamed : ∀ c, d.findByName? c "" = none

variable {d e : Document} {c i : ObjectId} {n : String}

theorem Distinct.of_view (h : d.Distinct) (hv : e.view Object.names? = d.view Object.names?) :
    e.Distinct := by
  intro c x names hx hnames
  obtain ⟨o, ho, hs⟩ := exists_of_view hv hx
  exact h c o names ho (hs.trans hnames)

theorem Distinct.modify (h : d.Distinct) {f : Object → Object}
    (hf : ∀ o names, (f o).names? = some names →
      ∃ old, o.names? = some old ∧ (old.keys.Nodup → names.keys.Nodup)) (i : ObjectId) :
    (d.modify i f).Distinct := by
  intro c x names hx hnames
  rw [object?_modify] at hx
  split at hx
  · obtain ⟨o, ho, rfl⟩ := Option.map_eq_some_iff.mp hx
    obtain ⟨old, hold, hkeep⟩ := hf o names hnames
    exact hkeep (h c o old ho hold)
  · exact h c x names hx hnames

theorem Distinct.append (h : d.Distinct) {o : Object} (hb : o.IsBare)
    (hfresh : d.object? o.id = none) : (d.append o).Distinct := by
  intro c x names hx hnames
  rw [object?_append_of_fresh hfresh] at hx
  split at hx
  · cases hx
    rw [Object.names?_of_bare hb hnames]
    exact List.nodup_nil
  · exact h c x names hx hnames

theorem Distinct.enter (h : d.Distinct) {child : Object} (hb : child.IsBare)
    (hfresh : d.object? child.id = none) (parent : ObjectId) : (d.enter parent child).Distinct := by
  refine Distinct.of_view ?_ (view_enter (fun g o => by cases o <;> rfl) parent child)
  refine (h.append hb hfresh).modify (fun o names hnames => ?_) parent
  rcases Object.names?_adopt_cases child o with hs | hs
  · exact ⟨names, hs ▸ hnames, id⟩
  · rw [hs] at hnames
    obtain ⟨old, hold, rfl⟩ := Option.map_eq_some_iff.mp hnames
    exact ⟨old, hold, fun hd => nodup_enterName hd _ _⟩

theorem Distinct.rename (h : d.Distinct) (i scope : ObjectId) (old new : Option String) :
    (d.rename i scope old new).Distinct := by
  refine (h.modify (fun o names hnames => ?_) scope).modify (fun o names hnames => ?_) i
  · rw [Object.names?_mapNames] at hnames
    obtain ⟨before, hbefore, rfl⟩ := Option.map_eq_some_iff.mp hnames
    exact ⟨before, hbefore, fun hd => nodup_renameEntry hd old new i⟩
  · exact ⟨names, by rwa [Object.names?_setName] at hnames, id⟩

theorem isBare_admitted {o : Object} (h : o.IsBare) (w : Owner) : (o.admitted w).IsBare := by
  cases o <;> exact h

theorem distinct_edit (hr : d.Registered) (h : d.Distinct) {change : Edit} (hc : change.IsPlain)
    (he : d.edit change = .ok e) : e.Distinct := by
  rcases view_nameplate_edit he with
    ⟨n, rfl, hn⟩ | ⟨parent, o, rfl, ho⟩ | ⟨i, name, rfl, hi⟩ | hv
  · obtain ⟨_, hfresh, rfl⟩ := addNet_eq_ok_iff.mp hn
    exact h.append (o := .net n) hc hfresh
  · obtain ⟨container, w, ha, rfl⟩ := add_eq_ok_iff.mp ho
    exact h.enter (isBare_admitted hc w) (Object.id_admitted o w ▸ ha.fresh) parent
  · obtain ⟨o, -, ⟨-, rfl⟩ | ⟨w, -, -, rfl⟩⟩ := (setName_eq_ok_iff hr).mp hi
    · exact h.modify (fun x names hx => ⟨names, by rwa [Object.names?_setName] at hx, id⟩) i
    · exact h.rename i w.id _ _
  · have hnames : e.view Object.names? = d.view Object.names? := by
      have hm : (e.view Object.nameplate).map (fun p => (p.1, p.2.2.2)) =
          (d.view Object.nameplate).map (fun p => (p.1, p.2.2.2)) := by rw [hv]
      simpa [view, Function.comp_def, Object.nameplate] using hm
    exact h.of_view hnames

theorem Reachable.distinct (h : d.Reachable Edit.IsPlain) : d.Distinct :=
  h.induction_registered (fun c o names ho => by cases ho)
    fun hr hd hc he => distinct_edit hr hd hc he

theorem container_of_bears (hr : d.Registered) {o : Object} (ho : d.object? i = some o)
    (hb : o.Bears c n) : ∃ container w, d.object? c = some container ∧
      container.asOwner? = some w ∧ o.owner = some w := by
  obtain ⟨w, hw, hwc⟩ := Option.map_eq_some_iff.mp hb.1
  obtain ⟨v, container, hv, hc, hcv, _⟩ := hr.owner_spec ho (Object.kind_ne_net_of_owner hw)
  rw [hw] at hv
  cases hv
  exact ⟨container, w, hwc ▸ hc, hcv, hw⟩

theorem exists_bears_iff (hr : d.Registered) {container : Object} {w : Owner}
    (hc : d.object? c = some container) (hw : container.asOwner? = some w) :
    (∃ o, d.object? i = some o ∧ o.Bears c n) ↔ d.Calls w n i := by
  constructor
  · rintro ⟨o, ho, hb⟩
    obtain ⟨k, v, hk, hkv, hv⟩ := container_of_bears hr ho hb
    rw [hc] at hk
    cases hk
    rw [hw] at hkv
    cases hkv
    exact ⟨o, ho, hv, Object.scopedName_eq_some_iff.mpr hb.2⟩
  · rintro ⟨o, ho, howner, hname⟩
    have hid : w.id = c := by rw [Object.id_of_asOwner? hw, hr.id_of_object? hc]
    exact ⟨o, ho, by rw [howner, Option.map_some, hid], Object.scopedName_eq_some_iff.mp hname⟩

theorem find?_iff_bears (hr : d.Registered) (hn : d.Named) {names : Table String ObjectId}
    (hs : d.names? c = some names) :
    names.find? n = some i ↔ ∃ o, d.object? i = some o ∧ o.Bears c n := by
  obtain ⟨container, hc, hnames⟩ := Option.bind_eq_some_iff.mp hs
  cases hw : container.asOwner? with
  | none =>
    rw [Object.names?_of_asOwner?_eq_none hw] at hnames
    cases hnames
  | some w => rw [hn c container w names hc hw hnames n i, exists_bears_iff hr hc hw]

theorem exists_scope_of_bears (hr : d.Registered) {o : Object} (ho : d.object? i = some o)
    (hb : o.Bears c n) : ∃ names, d.names? c = some names := by
  obtain ⟨container, w, hc, hw, -⟩ := container_of_bears hr ho hb
  obtain ⟨names, hnames⟩ := Object.exists_names? hw
  exact ⟨names, by rw [names?, hc, Option.bind_some, hnames]⟩

theorem findByName?_eq_some_iff (hr : d.Registered) (hn : d.Named) {o : Object} :
    d.findByName? c n = some o ↔ d.object? o.id = some o ∧ o.Bears c n := by
  simp only [findByName?, Option.bind_eq_some_iff]
  constructor
  · rintro ⟨i, ⟨names, hs, hfind⟩, ho⟩
    obtain ⟨x, hx, hb⟩ := (find?_iff_bears hr hn hs).mp hfind
    rw [ho] at hx
    cases hx
    exact ⟨hr.id_of_object? ho ▸ ho, hb⟩
  · rintro ⟨ho, hb⟩
    obtain ⟨names, hs⟩ := exists_scope_of_bears hr ho hb
    exact ⟨o.id, ⟨names, hs, (find?_iff_bears hr hn hs).mpr ⟨o, ho, hb⟩⟩, ho⟩

/-- Every run keeps the scopes of names and the names of objects in step, so that looking up by name
finds the one child that bears the name. -/
theorem Reachable.indexed (h : d.Reachable Edit.IsPlain) : d.Indexed := by
  have hr := h.registered
  have hn := h.named
  have hdistinct : ∀ c names, d.names? c = some names → names.keys.Nodup := by
    intro c names hs
    obtain ⟨container, hc, hnames⟩ := Option.bind_eq_some_iff.mp hs
    exact h.distinct c container names hc hnames
  constructor
  case distinct => exact hdistinct
  case entries =>
    intro c names hs n i
    rw [← Table.find?_eq_some_iff (hdistinct c names hs), find?_iff_bears hr hn hs]
  case siblings =>
    intro c n i j o x ho hx hob hxb
    obtain ⟨names, hs⟩ := exists_scope_of_bears hr ho hob
    have hi := (find?_iff_bears hr hn hs).mpr ⟨o, ho, hob⟩
    have hj := (find?_iff_bears hr hn hs).mpr ⟨x, hx, hxb⟩
    rw [hi] at hj
    exact Option.some.inj hj
  case found => exact fun c n o => findByName?_eq_some_iff hr hn
  case unnamed =>
    intro c
    rw [Option.eq_none_iff_forall_ne_some]
    intro o ho
    obtain ⟨-, -, -, hempty⟩ := (findByName?_eq_some_iff hr hn).mp ho
    simp at hempty

/-- Places that take over a name in turn: `b` is refused while `a` is called `s`, comes in once `a`
has lost the name, and keeps it when `c`, which came without one, asks for it. -/
def renamingRun : List Action :=
  [.edit (.addNet { id := ⟨"n"⟩, format := .placeTransition }),
    .edit (.add ⟨"n"⟩ (.page { id := ⟨"p"⟩, name := some "s" })),
    .edit (.add ⟨"p"⟩ (.place { id := ⟨"a"⟩, name := some "s" })),
    .edit (.add ⟨"p"⟩ (.place { id := ⟨"b"⟩, name := some "s" })),
    .edit (.setName ⟨"a"⟩ (some "")),
    .edit (.add ⟨"p"⟩ (.place { id := ⟨"b"⟩, name := some "s" })),
    .edit (.add ⟨"p"⟩ (.place { id := ⟨"c"⟩, name := some "" })),
    .edit (.setName ⟨"c"⟩ (some "s"))]

theorem uses_renamingRun : ∀ a ∈ renamingRun, a.Uses Edit.IsPlain := by
  intro a ha
  simp only [renamingRun, List.mem_cons, List.not_mem_nil, or_false] at ha
  rcases ha with rfl | rfl | rfl | rfl | rfl | rfl | rfl | rfl
  · exact ⟨rfl, rfl⟩
  · exact ⟨rfl, rfl, rfl, rfl, rfl⟩
  all_goals trivial

theorem indexed_renamingRun :
    (run renamingRun).Reachable Edit.IsPlain ∧ (run renamingRun).Indexed ∧
      ((run renamingRun).names? ⟨"p"⟩).map (·.entries) = some [("s", ⟨"b"⟩)] ∧
      ((run renamingRun).findByName? ⟨"p"⟩ "s").map Object.id = some ⟨"b"⟩ :=
  ⟨⟨renamingRun, uses_renamingRun, rfl⟩, Reachable.indexed ⟨renamingRun, uses_renamingRun, rfl⟩,
    by decide, by decide⟩

end Document

end PagedNets
