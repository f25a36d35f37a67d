import PagedNets.Proofs.Document.Nesting

set_option autoImplicit false

namespace PagedNets

namespace Object

def nameplate (o : Object) : Label × Option String × Option (Table String ObjectId) :=
  (o.label, o.scopedName, o.names?)

@[simp] theorem nameplate_mapNode (f : NodeData → NodeData) (o : Object) :
    (o.mapNode f).nameplate = o.nameplate := by cases o <;> rfl

theorem names?_of_asOwner?_eq_none {o : Object} (h : o.asOwner? = none) : o.names? = none := by
  cases o <;> first | rfl | cases h

theorem exists_names? {o : Object} {w : Owner} (h : o.asOwner? = some w) :
    ∃ names, o.names? = some names := by
  cases o <;> first | exact ⟨_, rfl⟩ | cases h

theorem names?_of_bare {o : Object} (h : o.IsBare) {names : Table String ObjectId}
    (hn : o.names? = some names) : names = .empty := by
  cases o with
  | net n =>
    cases hn
    exact h.1
  | page p =>
    cases hn
    exact h.1
  | _ => cases hn

@[simp] theorem scopedName_adopt (child o : Object) :
    (child.adopt o).scopedName = o.scopedName := by
  cases o with
  | page p =>
    cases child with
    | arc a =>
      simp only [adopt]
      split <;> rfl
    | _ => rfl
  | _ => rfl

/-- Adopting enters the name of the child, unless it is an arc that is not entered at all. -/
theorem names?_adopt {child o : Object}
    (h : ∀ a p, child = .arc a → o = .page p →
      ∃ v w, p.vertex? a.source = some v ∧ p.vertex? a.target = some w) :
    (child.adopt o).names? = o.names?.map (enterName · child.scopedName child.id) := by
  cases o with
  | page p =>
    cases child with
    | arc a =>
      obtain ⟨v, w, hv, hw⟩ := h a p rfl rfl
      simp only [adopt, hv, hw]
      rfl
    | _ => rfl
  | _ => rfl

@[simp] theorem scopedName_mapNames (o : Object)
    (f : Table String ObjectId → Table String ObjectId) :
    (o.mapNames f).scopedName = o.scopedName := by cases o <;> rfl

theorem names?_mapNames (o : Object) (f : Table String ObjectId → Table String ObjectId) :
    (o.mapNames f).names? = o.names?.map f := by cases o <;> rfl

@[simp] theorem names?_setName (o : Object) (n : Option String) :
    (o.setName n).names? = o.names? := by cases o <;> rfl

theorem scopedName_setName (o : Object) (n : Option String) :
    (o.setName n).scopedName = n.filter (!·.isEmpty) := by cases o <;> rfl

end Object

theorem find?_enterName (names : Table String ObjectId) (name : Option String) (i : ObjectId)
    (m : String) :
    (enterName names name i).find? m = if name = some m then some i else names.find? m := by
  cases name with
  | none => simp [enterName]
  | some n =>
    simp only [enterName, Table.find?_insert, Option.some.injEq, eq_comm]

namespace Document

def Calls (d : Document) (w : Owner) (n : String) (i : ObjectId) : Prop :=
  ∃ x, d.object? i = some x ∧ x.owner = some w ∧ x.scopedName = some n

/-- Each container finds under a name exactly the object that it owns with that name. -/
def Named (d : Document) : Prop :=
  ∀ c o w names, d.object? c = some o → o.asOwner? = some w → o.names? = some names →
    ∀ n i, names.find? n = some i ↔ d.Calls w n i

variable {d e : Document} {c i : ObjectId} {w : Owner} {n : String}

theorem calls_of_view (hv : e.view Object.nameplate = d.view Object.nameplate)
    (h : e.Calls w n i) : d.Calls w n i := by
  obtain ⟨x, hx, hxw, hxn⟩ := h
  obtain ⟨y, hy, hs⟩ := exists_of_view hv hx
  have hlabel : y.label = x.label := congrArg Prod.fst hs
  have hname : y.scopedName = x.scopedName := congrArg (·.2.1) hs
  exact ⟨y, hy, (Object.owner_of_label hlabel).trans hxw, hname.trans hxn⟩

theorem Named.of_view (h : d.Named) (hv : e.view Object.nameplate = d.view Object.nameplate) :
    e.Named := by
  intro c x w names hx hw hnames n i
  obtain ⟨o, ho, hs⟩ := exists_of_view hv hx
  have hl : o.label = x.label := congrArg Prod.fst hs
  have hscope : o.names? = x.names? := congrArg (·.2.2) hs
  rw [h c o w names ho ((Object.asOwner?_of_label hl).trans hw) (hscope.trans hnames) n i]
  exact ⟨calls_of_view hv.symm, calls_of_view hv⟩

theorem not_calls_of_isNone (h : d.Registered) (hw : d.object? w.id = none) : ¬ d.Calls w n i := by
  intro hc
  obtain ⟨x, hx, hxw, _⟩ := hc
  have hnil := h.children_eq_nil (Registered.not_mem_keys hw)
  have hm : x.label ∈ d.children w := mem_children.mpr ⟨mem_labels_of_object? hx, hxw⟩
  rw [hnil] at hm
  cases hm

theorem calls_enter {parent : ObjectId} {child : Object} (hfresh : d.object? child.id = none) :
    (d.enter parent child).Calls w n i ↔
      if i = child.id then child.owner = some w ∧ child.scopedName = some n
      else d.Calls w n i := by
  have hm := map_object?_enter (f := fun o => (o.owner, o.scopedName))
    (fun g o => by cases o <;> rfl) hfresh parent i
  have hadopt : ∀ y : Object, ((if i = parent then child.adopt y else y).owner,
      (if i = parent then child.adopt y else y).scopedName) = (y.owner, y.scopedName) := by
    intro y
    split
    · rw [Object.owner_of_label (Object.label_adopt child y), Object.scopedName_adopt]
    · rfl
  simp only [hadopt] at hm
  have hcalls : ∀ o? : Option Object,
      (∃ x, o? = some x ∧ x.owner = some w ∧ x.scopedName = some n) ↔
        o?.map (fun o => (o.owner, o.scopedName)) = some (some w, some n) := by
    intro o?
    simp [Option.map_eq_some_iff]
  unfold Calls
  rw [hcalls, hm, ← hcalls]
  by_cases hi : i = child.id <;> simp [hi]

theorem not_calls_of_fresh (hi : d.object? i = none) : ¬ d.Calls w n i := by
  intro hc
  obtain ⟨x, hx, _⟩ := hc
  rw [hi] at hx
  cases hx

theorem Named.find?_entered (h : d.Named) {parent : ObjectId} {o container : Object}
    (ha : d.Admissible parent o container w) {names : Table String ObjectId}
    (hnames : container.names? = some names) (hcheck : checkName container.id names o = .ok ())
    (n : String) (i : ObjectId) : (enterName names o.scopedName o.id).find? n = some i ↔
      if i = o.id then o.scopedName = some n else d.Calls w n i := by
  have hold := h parent container w names ha.found ha.owner hnames n i
  rw [find?_enterName]
  by_cases hname : o.scopedName = some n
  · -- The check of the name has seen that nobody has it.
    have hnobody : ¬ d.Calls w n i := by
      rw [← hold, checkName_eq_ok_iff.mp hcheck n hname]
      simp
    rw [if_pos hname]
    by_cases hi : i = o.id
    · simp [hi, hname]
    · simp [hi, hnobody, Ne.symm hi]
  · rw [if_neg hname, hold]
    by_cases hi : i = o.id
    · subst hi
      simp [hname, not_calls_of_fresh ha.fresh]
    · simp [hi]

theorem named_enter (hr : d.Registered) (h : d.Named) {parent : ObjectId} {o container : Object}
    {w : Owner} (hb : o.IsBare) (ha : d.Admissible parent o container w) :
    (d.enter parent (o.admitted w)).Named := by
  obtain ⟨names₀, hscope, hcheck⟩ := ha.scope
  obtain ⟨hnames₀, _⟩ := Object.scopeFor_eq_ok hscope
  have hchild : (o.admitted w).owner = some w :=
    Object.owner_admitted w (Object.kind_ne_net_of_scopeFor hscope)
  have hfresh : d.object? (o.admitted w).id = none := Object.id_admitted o w ▸ ha.fresh
  have hscopes : ∀ g o, (Object.mapAliases g o).names? = o.names? := fun g o => by cases o <;> rfl
  intro c x v names hx hv hnames n i
  rw [calls_enter hfresh, hchild, Object.id_admitted, Object.scopedName_admitted]
  rcases container_cases_enter hscopes hr ha hx hv with
    ⟨rfl, he⟩ | ⟨hne, ⟨hnone, he⟩ | ⟨y, hy, hyv, he⟩⟩
  · have hjoins : ∀ a p, o.admitted v = .arc a → container = .page p →
        ∃ s t, p.vertex? a.source = some s ∧ p.vertex? a.target = some t := by
      intro a p harc hpage
      obtain ⟨s, t, hs, ht, _⟩ := ha.joins harc hpage
      exact ⟨s, t, hs, ht⟩
    rw [hnames, Object.names?_adopt hjoins, hnames₀] at he
    cases he
    rw [Object.scopedName_admitted, Object.id_admitted, h.find?_entered ha hnames₀ hcheck]
    simp
  · have hempty := Object.names?_of_bare hb ((Object.names?_admitted o w) ▸ he.symm.trans hnames)
    subst hempty
    by_cases hi : i = o.id
    · simp [hi, Ne.symm hne]
    · simp [hi, not_calls_of_isNone hr hnone]
  · rw [h c y v names hy hyv (he.symm.trans hnames) n i]
    by_cases hi : i = o.id
    · subst hi
      simp [Ne.symm hne, not_calls_of_fresh ha.fresh]
    · simp [hi]

theorem named_append_net (hr : d.Registered) (h : d.Named) {n : Net} (hb : n.IsBare)
    (hfresh : d.object? n.id = none) : (d.append (.net n)).Named := by
  intro c x w names hx hw hnames m i
  have hobject : ∀ j, (d.append (.net n)).object? j =
      if j = n.id then some (.net n) else d.object? j :=
    object?_append_of_fresh (o := .net n) hfresh
  have hcalls : (d.append (.net n)).Calls w m i ↔ d.Calls w m i := by
    unfold Calls
    rw [hobject]
    by_cases hi : i = n.id
    · simp [hi, hfresh, Object.owner]
    · simp [hi]
  rw [hcalls]
  rw [hobject] at hx
  by_cases hc : c = n.id
  · rw [if_pos hc] at hx
    cases hx
    have hempty := Object.names?_of_bare (o := .net n) hb hnames
    have hnone : d.object? w.id = none := by
      rw [Object.id_of_asOwner? hw]
      exact hfresh
    subst hempty
    simp [not_calls_of_isNone hr hnone]
  · rw [if_neg hc] at hx
    exact h c x w names hx hw hnames m i

theorem find?_renameEntry (names : Table String ObjectId) (old new : Option String)
    (i : ObjectId) (m : String) : (renameEntry names old new i).find? m =
      if new = some m then some i else if old = some m then none else names.find? m := by
  unfold renameEntry
  rw [find?_enterName]
  cases old with
  | none => simp
  | some o =>
    simp only [Table.find?_erase, Option.some.injEq, eq_comm]

def rename (d : Document) (i scope : ObjectId) (old new : Option String) : Document :=
  (d.modify scope (·.mapNames (renameEntry · old new i))).modify i (·.setName new)

/-- A net is renamed by itself; any other object together with its entry in the scope of its owner,
where nobody else has the name. -/
theorem setName_eq_ok_iff (h : d.Registered) {name : Option String} :
    d.setName i name = .ok e ↔ ∃ o, d.object? i = some o ∧
      ((o.owner = none ∧ e = d.modify i (·.setName (name.filter (!·.isEmpty)))) ∨
        ∃ w, o.owner = some w ∧
          (∀ n, name.filter (!·.isEmpty) = some n → d.nameTaken w.id n i = false) ∧
          e = d.rename i w.id o.scopedName (name.filter (!·.isEmpty))) := by
  unfold setName
  cases ho : d.object? i with
  | none => simp
  | some o =>
    have hid : o.id = i := h.id_of_object? ho
    cases hw : o.owner with
    | none =>
      simp only [hw, Except.ok.injEq, Option.some.injEq, exists_eq_left', true_and, reduceCtorEq,
        false_and, exists_false, or_false]
      exact eq_comm
    | some w =>
      cases hn : name.filter (!·.isEmpty) with
      | none =>
        simp only [hw, hid, Except.ok.injEq, Option.some.injEq, reduceCtorEq, IsEmpty.forall_iff,
          implies_true, rename, true_and, exists_eq_left', false_and, false_or]
        exact eq_comm
      | some n =>
        cases ht : d.nameTaken w.id n i with
        | true => simp [hw, hid, ht]
        | false =>
          simp only [hw, hid, ht, Bool.false_eq_true, if_false, Except.ok.injEq, Option.some.injEq,
            forall_eq', rename, exists_eq_left', reduceCtorEq, false_and, true_and, false_or]
          exact eq_comm

theorem object?_rename (i scope : ObjectId) (old new : Option String) (j : ObjectId) :
    (d.rename i scope old new).object? j = (d.object? j).map fun o =>
      let entered := if j = scope then o.mapNames (renameEntry · old new i) else o
      if j = i then entered.setName new else entered := by
  unfold rename
  rw [object?_modify, object?_modify]
  by_cases hs : j = scope <;> by_cases hi : j = i
  · simp only [if_pos hs, if_pos hi, Option.map_map]
    rfl
  · simp only [if_pos hs, if_neg hi]
  · simp only [if_neg hs, if_pos hi]
  · simp only [if_neg hs, if_neg hi, Option.map_id']

theorem calls_modify_setName (hi : ∀ o, d.object? i = some o → o.owner = none)
    (new : Option String) (j : ObjectId) :
    (d.modify i (·.setName new)).Calls w n j ↔ d.Calls w n j := by
  unfold Calls
  rw [object?_modify]
  by_cases hj : j = i
  · subst hj
    cases ho : d.object? j with
    | none => simp
    | some o =>
      have hw := hi o ho
      have hw' : (o.setName new).owner = none := by
        rw [Object.owner_of_label (o.label_setName new)]
        exact hw
      simp [hw, hw']
  · simp [hj]

theorem named_modify_net (h : d.Named) (hi : ∀ o, d.object? i = some o → o.owner = none)
    (new : Option String) : (d.modify i (·.setName new)).Named := by
  intro c x w names hx hw hnames n j
  rw [calls_modify_setName hi]
  rw [object?_modify] at hx
  split at hx
  · obtain ⟨o, ho, rfl⟩ := Option.map_eq_some_iff.mp hx
    rw [Object.names?_setName] at hnames
    rw [Object.asOwner?_of_label (o.label_setName new)] at hw
    exact h c o w names ho hw hnames n j
  · exact h c x w names hx hw hnames n j

theorem filter_nonempty_eq {name : Option String} {n : String}
    (h : name.filter (!·.isEmpty) = some n) :
    (some n).filter (!·.isEmpty) = some n := by
  cases name with
  | none => cases h
  | some m =>
    rw [Option.filter_some] at h
    split at h
    · cases h
      rwa [Option.filter_some, if_pos]
    · cases h

theorem calls_rename {new : Option String} (hnew : new.filter (!·.isEmpty) = new)
    {o : Object} (ho : d.object? i = some o) (scope : ObjectId) (old : Option String)
    (j : ObjectId) : (d.rename i scope old new).Calls w n j ↔
      if j = i then o.owner = some w ∧ new = some n else d.Calls w n j := by
  unfold Calls
  rw [object?_rename]
  have hentered : ∀ x : Object,
      ((if j = scope then x.mapNames (renameEntry · old new i) else x).owner = x.owner ∧
        (if j = scope then x.mapNames (renameEntry · old new i) else x).scopedName =
          x.scopedName) := by
    intro x
    split
    · exact ⟨Object.owner_of_label (x.label_mapNames _), x.scopedName_mapNames _⟩
    · exact ⟨rfl, rfl⟩
  by_cases hj : j = i
  · subst hj
    simp only [ho, Option.map_some, if_pos, Option.some.injEq, exists_eq_left',
      Object.scopedName_setName, hnew, Object.owner_of_label (Object.label_setName _ _),
      hentered]
  · simp only [if_neg hj]
    cases d.object? j with
    | none => simp
    | some x => simp [hentered]

theorem Named.find?_renamed (h : d.Named) {o c : Object} (ho : d.object? i = some o)
    (how : o.owner = some w) (hc : d.object? w.id = some c) (hcw : c.asOwner? = some w)
    {names : Table String ObjectId} (hnames : c.names? = some names) {new : Option String}
    (hfree : ∀ n, new = some n → d.nameTaken w.id n i = false) (n : String) (j : ObjectId) :
    (renameEntry names o.scopedName new i).find? n = some j ↔
      if j = i then new = some n else d.Calls w n j := by
  have hold := h w.id c w names hc hcw hnames n
  rw [find?_renameEntry]
  by_cases hn : new = some n
  · rw [if_pos hn]
    by_cases hj : j = i
    · simp [hj, hn]
    · -- The name was free, or held by the object itself.
      have hfree := hfree n hn
      have hscope : d.names? w.id = some names := by
        rw [names?, hc]
        exact hnames
      have hother : ¬ d.Calls w n j := by
        rw [← hold j]
        intro hf
        simp only [nameTaken, hscope, Option.bind_some, hf] at hfree
        simp [hj] at hfree
      simp [hj, Ne.symm hj, hother]
  · rw [if_neg hn]
    by_cases hl : o.scopedName = some n
    · have hi := (hold i).mpr ⟨o, ho, how, hl⟩
      rw [if_pos hl]
      by_cases hj : j = i
      · simp [hj, hn]
      · have hother : ¬ d.Calls w n j := by
          rw [← hold j, hi]
          intro he
          exact hj (Option.some.inj he).symm
        simp [hj, hother]
    · rw [if_neg hl, hold j]
      by_cases hj : j = i
      · subst hj
        simp [Calls, ho, hn, hl]
      · simp [hj]

theorem named_rename (hr : d.Registered) (h : d.Named) {o : Object} (ho : d.object? i = some o)
    {scope : Owner} (how : o.owner = some scope) {new : Option String}
    (hnew : new.filter (!·.isEmpty) = new)
    (hfree : ∀ n, new = some n → d.nameTaken scope.id n i = false) :
    (d.rename i scope.id o.scopedName new).Named := by
  intro c x w names hx hw hnames n j
  rw [calls_rename hnew ho]
  rw [object?_rename] at hx
  obtain ⟨y, hy, hxy⟩ := Option.map_eq_some_iff.mp hx
  dsimp only at hxy
  have hyw : y.asOwner? = some w := by
    rw [← hw, ← hxy]
    apply Object.asOwner?_of_label
    split <;> split <;> simp
  have hyn : x.names? = if c = scope.id then
      y.names?.map (renameEntry · o.scopedName new i) else y.names? := by
    rw [← hxy]
    split <;> split <;> simp [Object.names?_mapNames]
  have hwc : w.id = c := by rw [Object.id_of_asOwner? hyw, hr.id_of_object? hy]
  rw [hnames] at hyn
  by_cases hc : c = scope.id
  · obtain ⟨w', k, hw', hk, hkw, _⟩ := hr.owner_spec ho (Object.kind_ne_net_of_owner how)
    rw [how] at hw'
    cases hw'
    subst hc
    rw [hk] at hy
    cases hy
    rw [hyw] at hkw
    cases hkw
    rw [if_pos rfl] at hyn
    obtain ⟨names₀, hnames₀, hrename⟩ := Option.map_eq_some_iff.mp hyn.symm
    rw [← hrename, h.find?_renamed ho how hk hyw hnames₀ hfree]
    simp [how]
  · rw [if_neg hc] at hyn
    have hne : scope ≠ w := by
      rintro rfl
      exact hc hwc.symm
    rw [h c y w names hy hyw hyn.symm n j]
    by_cases hj : j = i
    · subst hj
      simp [Calls, ho, how, hne]
    · simp [hj]

theorem view_nameplate_edit {change : Edit} (h : d.edit change = .ok e) :
    (∃ n, change = .addNet n ∧ d.addNet n = .ok e) ∨
      (∃ parent o, change = .add parent o ∧ d.add parent o = .ok e) ∨
      (∃ i name, change = .setName i name ∧ d.setName i name = .ok e) ∨
      e.view Object.nameplate = d.view Object.nameplate := by
  rcases view_frame_edit h with hn | ho | hs | ⟨i, r, _, hr⟩ | hv
  · exact .inl hn
  · exact .inr (.inl ho)
  · exact .inr (.inr (.inl hs))
  · exact .inr (.inr (.inr (view_setReference (fun _ => Object.nameplate_mapNode _)
      (Object.nameplate_mapNode _) hr)))
  · exact .inr (.inr (.inr (view_of_frame
      (g := fun w => (w.label, w.scopedName, w.names?)) (fun _ => rfl) hv)))

theorem filter_nonempty_filter (name : Option String) :
    (name.filter (!·.isEmpty)).filter (!·.isEmpty) = name.filter (!·.isEmpty) := by
  cases hn : name.filter (!·.isEmpty) with
  | none => rfl
  | some n => exact filter_nonempty_eq hn

theorem named_edit (hr : d.Registered) (h : d.Named) {change : Edit} (hc : change.IsPlain)
    (he : d.edit change = .ok e) : e.Named := by
  rcases view_nameplate_edit he with
    ⟨n, rfl, hn⟩ | ⟨parent, o, rfl, ho⟩ | ⟨i, name, rfl, hi⟩ | hv
  · obtain ⟨_, hfresh, rfl⟩ := addNet_eq_ok_iff.mp hn
    exact named_append_net hr h hc hfresh
  · obtain ⟨container, w, ha, rfl⟩ := add_eq_ok_iff.mp ho
    exact named_enter hr h hc ha
  · obtain ⟨o, ho, ⟨hnet, rfl⟩ | ⟨w, hw, hfree, rfl⟩⟩ := (setName_eq_ok_iff hr).mp hi
    · refine named_modify_net h (fun x hx => ?_) _
      rw [ho] at hx
      cases hx
      exact hnet
    · exact named_rename hr h ho hw (filter_nonempty_filter name) hfree
  · exact h.of_view hv

theorem Reachable.named (h : d.Reachable Edit.IsPlain) : d.Named :=
  h.induction_registered (fun c o w names ho => by cases ho)
    fun hr hn hc he => named_edit hr hn hc he

end Document

end PagedNets
