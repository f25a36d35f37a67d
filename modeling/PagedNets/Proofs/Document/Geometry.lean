import PagedNets.Proofs.Document.Containment

set_option autoImplicit false

namespace PagedNets

def Object.IsFinite : Object → Prop
  | .place p => p.node.isFinite = true ∧ p.markingOffset.isFinite = true
  | .transition t => t.node.isFinite = true
  | .arc a => a.curve.all Point.isFinite = true
  | _ => True

def Object.isPlaced (o : Object) : Bool := o.node?.all NodeData.isFinite

/-- The edits that write no coordinate directly unless it is finite. Everything else may be asked
for, with any coordinates, and nets and pages may come in with contents of their own. -/
def Edit.StoresFinite : Edit → Prop
  | .setMarkingOffset _ offset => offset.isFinite = true
  | .setCurve _ curve => curve.all Point.isFinite = true
  | _ => True

theorem Edit.IsFinite.storesFinite {change : Edit} (h : change.IsFinite) : change.StoresFinite := by
  cases change <;> first | exact h | trivial

namespace Object

theorem isFinite_mapAliases (g : IdSet → IdSet) (o : Object) :
    (o.mapAliases g).IsFinite = o.IsFinite := by cases o <;> rfl

theorem isFinite_admitted (o : Object) (w : Owner) : (o.admitted w).IsFinite = o.IsFinite := by
  cases o <;> rfl

theorem isFinite_adopt (child o : Object) : (child.adopt o).IsFinite = o.IsFinite := by
  cases o with
  | page p =>
    cases child with
    | arc a =>
      simp only [adopt]
      split <;> rfl
    | _ => rfl
  | _ => rfl

theorem isPlaced_mapAliases (g : IdSet → IdSet) (o : Object) :
    (o.mapAliases g).isPlaced = o.isPlaced := by cases o <;> rfl

theorem isPlaced_admitted (o : Object) (w : Owner) : (o.admitted w).isPlaced = o.isPlaced := by
  cases o <;> rfl

theorem isPlaced_adopt (child o : Object) : (child.adopt o).isPlaced = o.isPlaced := by
  cases o with
  | page p =>
    cases child with
    | arc a =>
      simp only [adopt]
      split <;> rfl
    | _ => rfl
  | _ => rfl

theorem IsFinite.isPlaced {o : Object} (h : o.IsFinite) : o.isPlaced = true := by
  cases o with
  | place p => exact h.1
  | transition t => exact h
  | _ => rfl

end Object

namespace Document

def Finite (d : Document) : Prop := ∀ i o, d.object? i = some o → o.IsFinite

variable {d e : Document} {i : ObjectId}

theorem isFinite_of_content {container o : Object} {names : Table String ObjectId}
    (hs : container.scopeFor o.kind = .ok names) (h : d.checkContent container o = .ok ()) :
    o.IsFinite := by
  cases o with
  | place p =>
    obtain ⟨hn, hm⟩ := checkPlace_eq_ok_iff.mp h
    exact ⟨(checkNode_eq_ok_iff.mp hn).1, hm⟩
  | transition t => exact (checkNode_eq_ok_iff.mp h).1
  | arc a =>
    rcases (Object.scopeFor_eq_ok hs).2 with ⟨n, _, hk⟩ | ⟨p, rfl, _⟩
    · cases hk
    · exact (checkArc_eq_ok_iff.mp h).1
  | net n => trivial
  | page p => trivial

theorem finite_enter (h : d.Finite) {parent : ObjectId} {o container : Object} {w : Owner}
    (ha : d.Admissible parent o container w) : (d.enter parent (o.admitted w)).Finite := by
  obtain ⟨names, hscope, _⟩ := ha.scope
  have hfresh : d.object? (o.admitted w).id = none := by
    rw [Object.id_admitted]
    exact ha.fresh
  intro i x hx
  obtain ⟨y, hy, hxy⟩ := object?_enter Object.isFinite_mapAliases hfresh hx
  have hfinite : y.IsFinite := by
    split at hy
    · cases hy
      rw [Object.isFinite_admitted]
      exact isFinite_of_content hscope ha.content
    · exact h i y hy
  rw [hxy]
  split
  · rw [Object.isFinite_adopt]
    exact hfinite
  · exact hfinite

theorem Finite.of_view (h : d.Finite) (hv : e.view Object.IsFinite = d.view Object.IsFinite) :
    e.Finite := by
  intro i x hx
  obtain ⟨o, ho, hox⟩ := exists_of_view hv hx
  rw [← hox]
  exact h i o ho

theorem Finite.modify (h : d.Finite) {f : Object → Object} (hf : ∀ o, o.IsFinite → (f o).IsFinite)
    (i : ObjectId) : (d.modify i f).Finite := by
  intro j x hx
  rw [object?_modify] at hx
  split at hx
  · obtain ⟨o, ho, rfl⟩ := Option.map_eq_some_iff.mp hx
    exact hf o (h j o ho)
  · exact h j x hx

theorem finite_setGeometry (h : d.Finite) {position size : Point}
    (he : d.setGeometry i position size = .ok e) : e.Finite := by
  unfold setGeometry at he
  split at he
  · cases he
  split at he
  · cases he
  split at he
  · next hboth =>
    cases he
    refine h.modify (fun o ho => ?_) i
    cases o with
    | place p => exact ⟨hboth, ho.2⟩
    | transition t => exact hboth
    | net n => trivial
    | page p => trivial
    | arc a => exact ho
  · cases he

theorem finite_edit (h : d.Finite) {change : Edit} (hc : change.StoresFinite)
    (he : d.edit change = .ok e) : e.Finite := by
  cases change with
  | addNet n =>
    obtain ⟨_, hfresh, rfl⟩ := addNet_eq_ok_iff.mp he
    intro i x hx
    have ho := object?_append_of_fresh (o := .net n) hfresh i
    rw [hx] at ho
    split at ho
    · cases ho
      trivial
    · exact h i x ho.symm
  | add parent o =>
    obtain ⟨container, w, ha, rfl⟩ := add_eq_ok_iff.mp he
    exact finite_enter h ha
  | setName i name =>
    exact h.of_view
      (view_setName (fun _ o => by cases o <;> rfl) (fun _ o => by cases o <;> rfl) he)
  | setReference i reference =>
    exact h.of_view
      (view_setReference Object.isFinite_mapAliases (fun o => by cases o <;> rfl) he)
  | setGeometry i position size => exact finite_setGeometry h he
  | setFormat i format =>
    cases he
    exact h.modify (fun o ho => by cases o <;> exact ho) i
  | setTokens i tokens =>
    cases he
    exact h.modify (fun o ho => by cases o <;> exact ho) i
  | setMarkingOffset i offset =>
    cases he
    refine h.modify (fun o ho => ?_) i
    cases o with
    | place p => exact ⟨ho.1, hc⟩
    | _ => exact ho
  | setArcKind i kind =>
    cases he
    exact h.modify (fun o ho => by cases o <;> exact ho) i
  | setCurve i curve =>
    cases he
    refine h.modify (fun o ho => ?_) i
    cases o with
    | arc a => exact hc
    | _ => exact ho

theorem Leads.finite (h : Leads Edit.StoresFinite {} d) : d.Finite := by
  induction h with
  | refl =>
    intro i o ho
    cases ho
  | tail _ hstep ih =>
    obtain ⟨change, hc, he⟩ := hstep
    exact finite_edit ih hc he

/-- Without direct writes to fields, every run keeps all coordinates finite. -/
theorem Reachable.finite (h : d.Reachable Edit.IsChecked) : d.Finite :=
  Leads.finite (h.leads (fun _ hc => hc.isFinite.storesFinite) fun _ hc => hc.storesFinite)

def Placed (d : Document) : Prop := ∀ i o, d.object? i = some o → o.isPlaced = true

theorem Placed.of_view (h : d.Placed) (hv : e.view Object.isPlaced = d.view Object.isPlaced) :
    e.Placed := by
  intro i x hx
  obtain ⟨o, ho, hox⟩ := exists_of_view hv hx
  rw [← hox]
  exact h i o ho

theorem placed_enter (h : d.Placed) {parent : ObjectId} {o container : Object} {w : Owner}
    (ha : d.Admissible parent o container w) : (d.enter parent (o.admitted w)).Placed := by
  obtain ⟨names, hscope, _⟩ := ha.scope
  have hfresh : d.object? (o.admitted w).id = none := by
    rw [Object.id_admitted]
    exact ha.fresh
  intro i x hx
  obtain ⟨y, hy, hxy⟩ := object?_enter Object.isPlaced_mapAliases hfresh hx
  have hplaced : y.isPlaced = true := by
    split at hy
    · cases hy
      rw [Object.isPlaced_admitted]
      exact (isFinite_of_content hscope ha.content).isPlaced
    · exact h i y hy
  rw [hxy]
  split
  · rw [Object.isPlaced_adopt, hplaced]
  · exact hplaced

theorem placed_setGeometry (h : d.Placed) {position size : Point}
    (he : d.setGeometry i position size = .ok e) : e.Placed := by
  unfold setGeometry at he
  split at he
  · cases he
  split at he
  · cases he
  split at he
  · next hboth =>
    cases he
    intro j x hx
    rw [object?_modify] at hx
    split at hx
    · obtain ⟨o, -, rfl⟩ := Option.map_eq_some_iff.mp hx
      cases o <;> first | exact hboth | rfl
    · exact h j x hx
  · cases he

theorem placed_edit (h : d.Placed) {change : Edit} (he : d.edit change = .ok e) : e.Placed := by
  cases change with
  | addNet n =>
    obtain ⟨_, hfresh, rfl⟩ := addNet_eq_ok_iff.mp he
    intro i x hx
    have ho := object?_append_of_fresh (o := .net n) hfresh i
    rw [hx] at ho
    split at ho
    · cases ho
      rfl
    · exact h i x ho.symm
  | add parent o =>
    obtain ⟨container, w, ha, rfl⟩ := add_eq_ok_iff.mp he
    exact placed_enter h ha
  | setName i name =>
    exact h.of_view
      (view_setName (fun _ o => by cases o <;> rfl) (fun _ o => by cases o <;> rfl) he)
  | setReference i reference =>
    exact h.of_view
      (view_setReference Object.isPlaced_mapAliases (fun o => by cases o <;> rfl) he)
  | setGeometry i position size =>
    exact placed_setGeometry h he
  | setFormat i _ | setTokens i _ | setMarkingOffset i _ | setArcKind i _ | setCurve i _ =>
    cases he
    exact h.of_view (view_modify (fun o => by cases o <;> rfl) d i)

/-- Direct writes to the free fields of objects do not reach the place or the size of a node. -/
theorem Reachable.placed (h : d.Reachable Edit.IsPlain) : d.Placed :=
  h.induction (P := Placed) (fun i o ho => by cases ho) fun hd _ he => placed_edit hd he

theorem Reachable.isFinite_node (h : d.Reachable Edit.IsPlain) {n : NodeData}
    (hn : d.node? i = some n) : n.isFinite = true := by
  obtain ⟨o, ho, hon⟩ := Option.bind_eq_some_iff.mp hn
  have hplaced := h.placed i o ho
  rwa [Object.isPlaced, hon] at hplaced

end Document

end PagedNets
