import PagedNets.Proofs.Document.Fitting

set_option autoImplicit false

namespace PagedNets

def namesIn (w : Owner) (ps : List Plate) : List (String × ObjectId) :=
  (ps.filter fun p => decide (p.owner = some w)).filterMap fun p => p.name.map (·, p.id)

theorem namesIn_append (w : Owner) (ps qs : List Plate) :
    namesIn w (ps ++ qs) = namesIn w ps ++ namesIn w qs := by
  simp [namesIn]

theorem namesIn_singleton {w : Owner} {p : Plate} (h : p.owner = some w) :
    namesIn w [p] = (p.name.map (·, p.id)).toList := by
  simp only [namesIn, List.filter_cons, h, decide_true, if_true, List.filter_nil,
    List.filterMap_cons, List.filterMap_nil]
  cases p.name <;> rfl

theorem namesIn_other {w : Owner} {p : Plate} (h : p.owner ≠ some w) : namesIn w [p] = [] := by
  simp [namesIn, h]

theorem entries_enterName {names : Table String ObjectId} {name : Option String} {i : ObjectId}
    (h : ∀ n, name = some n → names.find? n = none) :
    (enterName names name i).entries = names.entries ++ (name.map (·, i)).toList := by
  cases name with
  | none => exact (List.append_nil _).symm
  | some n =>
    have hfree : names.contains n = false := by
      rw [← Table.find?_isSome, h n rfl]
      rfl
    rw [enterName, Table.insert_of_contains_eq_false hfree]
    rfl

namespace Document

/-- Every scope lists the names of what its container owns, in the order of arrival. -/
def Scoped (d : Document) : Prop :=
  ∀ c o w names, d.object? c = some o → o.asOwner? = some w → o.names? = some names →
    names.entries = namesIn w d.plates

variable {d e : Document} {w : Owner}

theorem scoped_empty : ({} : Document).Scoped := by
  intro c o w names ho
  cases ho

theorem namesIn_of_isNone (h : d.Registered) (hw : d.object? w.id = none) :
    namesIn w d.plates = [] := by
  have hnil : (d.plates.filter fun p => decide (p.owner = some w)) = [] := by
    rw [List.filter_eq_nil_iff]
    intro p hp hpw
    have hm : p.toLabel ∈ d.children w := by
      rw [mem_children, labels_eq_plates]
      exact ⟨List.mem_map_of_mem hp, of_decide_eq_true hpw⟩
    rw [h.children_eq_nil (Registered.not_mem_keys hw)] at hm
    cases hm
  rw [namesIn, hnil]
  rfl

theorem scoped_enter (hr : d.Registered) (h : d.Scoped) {parent : ObjectId} {o container : Object}
    (hb : o.IsBare) (ha : d.Admissible parent o container w) :
    (d.enter parent (o.admitted w)).Scoped := by
  obtain ⟨names₀, hscope, hcheck⟩ := ha.scope
  obtain ⟨hnames₀, -⟩ := Object.scopeFor_eq_ok hscope
  have hchild : (o.admitted w).plate.owner = some w :=
    Object.owner_admitted w (Object.kind_ne_net_of_scopeFor hscope)
  have hscopes : ∀ g o, (Object.mapAliases g o).names? = o.names? := fun g o => by cases o <;> rfl
  intro c x v names hx hv hnames
  rw [plates_enter, namesIn_append]
  rcases container_cases_enter hscopes hr ha hx hv with
    ⟨rfl, he⟩ | ⟨hne, ⟨hnone, he⟩ | ⟨y, hy, hyv, he⟩⟩
  · have hjoins : ∀ a p, o.admitted v = .arc a → container = .page p →
        ∃ s t, p.vertex? a.source = some s ∧ p.vertex? a.target = some t := by
      intro a p harc hpage
      obtain ⟨s, t, hs, ht, -⟩ := ha.joins harc hpage
      exact ⟨s, t, hs, ht⟩
    rw [hnames, Object.names?_adopt hjoins, hnames₀, Object.scopedName_admitted] at he
    cases he
    rw [entries_enterName (checkName_eq_ok_iff.mp hcheck), namesIn_singleton hchild,
      h parent container v names₀ ha.found ha.owner hnames₀]
    rw [Object.plate, Object.scopedName_admitted]
    rfl
  · have hempty := Object.names?_of_bare hb ((Object.names?_admitted o w) ▸ he.symm.trans hnames)
    rw [hempty, namesIn_of_isNone hr hnone, namesIn_other fun how => ?_]
    · rfl
    · rw [hchild] at how
      exact hne (Option.some.inj how).symm
  · rw [h c y v names hy hyv (he.symm.trans hnames), namesIn_other fun how => ?_, List.append_nil]
    rw [hchild] at how
    exact hne (Option.some.inj how).symm

theorem scoped_append_net (hr : d.Registered) (h : d.Scoped) {n : Net} (hb : n.IsBare)
    (hfresh : d.object? n.id = none) : (d.append (.net n)).Scoped := by
  intro c x w names hx hw hnames
  have hnet : (Object.net n).plate.owner ≠ some w := fun ho => by cases ho
  rw [plates_append, namesIn_append, namesIn_other hnet, List.append_nil]
  rw [object?_append_of_fresh (o := .net n) hfresh] at hx
  split at hx
  · next hc =>
    cases hx
    have hempty := Object.names?_of_bare (o := .net n) hb hnames
    have hnone : d.object? w.id = none := by
      rw [Object.id_of_asOwner? hw]
      exact hfresh
    rw [hempty, namesIn_of_isNone hr hnone]
    rfl
  · exact h c x w names hx hw hnames

theorem Scoped.of_view (h : d.Scoped) (hv : e.view Object.nameplate = d.view Object.nameplate) :
    e.Scoped := by
  have hplates : e.plates = d.plates := by
    have hm : (e.view Object.nameplate).map (fun p => Plate.mk p.2.1 p.2.2.1) =
        (d.view Object.nameplate).map fun p => Plate.mk p.2.1 p.2.2.1 := by rw [hv]
    simpa [plates, toList, Table.values, view, Function.comp_def, Object.nameplate,
      Object.plate] using hm
  intro c x w names hx hw hnames
  obtain ⟨o, ho, hs⟩ := exists_of_view hv hx
  have hlabel : o.label = x.label := congrArg Prod.fst hs
  have hscope : o.names? = x.names? := congrArg (·.2.2) hs
  rw [hplates]
  exact h c o w names ho ((Object.asOwner?_of_label hlabel).trans hw) (hscope.trans hnames)

theorem scoped_edit (hr : d.Registered) (h : d.Scoped) {change : Edit} (hc : change.IsEntry)
    (he : d.edit change = .ok e) : e.Scoped := by
  cases change with
  | addNet n =>
    obtain ⟨-, hfresh, rfl⟩ := addNet_eq_ok_iff.mp he
    exact scoped_append_net hr h hc hfresh
  | add parent o =>
    obtain ⟨container, w, ha, rfl⟩ := add_eq_ok_iff.mp he
    exact scoped_enter hr h hc ha
  | setReference i r =>
    exact h.of_view (view_setReference (fun _ => Object.nameplate_mapNode _)
      (Object.nameplate_mapNode _) he)
  | _ => exact False.elim hc

theorem scoped_read (text : String) : (Pnml.read {} text).document.Scoped := by
  have hleads : Leads Edit.IsEntry {} (Pnml.read {} text).document :=
    Pnml.leads_read fun _ hc => hc
  have hall : ∀ f, Leads Edit.IsEntry {} f → (f.Registered ∧ f.Tabled) ∧ f.Scoped := by
    intro f hf
    induction hf with
    | refl => exact ⟨contained_empty, scoped_empty⟩
    | tail _ hstep ih =>
      obtain ⟨change, hc, he⟩ := hstep
      exact ⟨contained_edit ih.1 hc.isFinite.isPlain he, scoped_edit ih.1.1 ih.2 hc he⟩
  exact (hall _ hleads).2

end Document

end PagedNets
