import PagedNets.Proofs.Document.Geometry
import PagedNets.Proofs.Layered.Refusal
import PagedNets.Proofs.Layout.Export
import PagedNets.Proofs.Layout.WriteBack

set_option autoImplicit false

namespace PagedNets.Layout

open Layered (Box Link Method)
open Relation (TransGen)

variable {d : Document} {key i : ObjectId} {page : Page} {settings : Settings}

def HasSize (node : NodeData) : Prop := 0 < node.size.x ∧ 0 < node.size.y

def Settings.BadSize (s : Settings) : Prop := s.nodeSize < 0 ∨ s.nodeSize.isFinite = false

theorem boxSize_eq_square {node : NodeData} (h : ¬ HasSize node) :
    boxSize settings node = ⟨settings.nodeSize, settings.nodeSize⟩ := by
  rw [boxSize, if_neg]
  simpa [HasSize] using h

theorem malformed_boxOf_iff {node : NodeData} (h : node.isFinite = true) :
    (boxOf settings i node).IsMalformed ↔ settings.BadSize ∧ ¬ HasSize node := by
  by_cases hsize : HasSize node
  · have hbox : boxSize settings node = node.size := by
      rw [boxSize, if_pos]
      simpa [HasSize] using hsize
    have hfinite := (Bool.and_eq_true_iff.mp h).2
    obtain ⟨hx, hy⟩ := Bool.and_eq_true_iff.mp hfinite
    simp [Box.IsMalformed, boxOf, hbox, hsize, Layered.isLength_of_pos hsize.1 hx,
      Layered.isLength_of_pos hsize.2 hy]
  · simp only [Box.IsMalformed, boxOf, boxSize_eq_square hsize, and_self, Bool.not_eq_true,
      Layered.isLength_eq_false_iff, hsize, not_false_eq_true, and_true]
    rfl

def Joined (d : Document) (key s t : ObjectId) : Prop :=
  s ≠ t ∧ ∃ a ∈ d.arcsOn key, a.source = s ∧ a.target = t

theorem step_exportPage (h : Complete d page) {v w : Nat} :
    (exportPage d page settings).graph.Step v w ↔
      v ≠ w ∧ ∃ e ∈ page.graph.edges, e.source = v ∧ e.target = w := by
  rw [h.exportPage_eq, Layered.Graph.Step]
  simp only [List.mem_map, linkAlong, exists_exists_and_eq_and]

/-- The graph has a cycle just where the page has one. -/
theorem onCycle_exportPage_iff (hd : d.Reachable Edit.IsPlain) (hp : d.page? key = some page)
    (settings : Settings) :
    (∃ v, (exportPage d page settings).graph.OnCycle v) ↔ ∃ i, TransGen (Joined d key) i i := by
  have h := complete_of_reachable hd hp
  have hs := hd.inStep hp
  constructor
  · rintro ⟨v, hv⟩
    refine ⟨_, TransGen.lift (fun v => (page.graph.vertices[v]?).getD key) ?_ v v hv⟩
    intro v w hstep
    obtain ⟨hne, e, he, rfl, rfl⟩ := (step_exportPage h).mp hstep
    obtain ⟨a, ha, hea⟩ := exists_right_of_forall₂ hs.edges he
    obtain ⟨hv, hw⟩ := hs.vertex_of_runs hea
    have hends : a.source ≠ a.target := by
      intro hends
      rw [hends, hw] at hv
      exact hne (Option.some.inj hv).symm
    simp only [Function.onFun, hea.source, hea.target, Option.getD_some]
    exact ⟨hends, a, ha, rfl, rfl⟩
  · rintro ⟨i, hi⟩
    refine ⟨_, TransGen.lift (fun i => (page.vertex? i).getD 0) ?_ i i hi⟩
    rintro s t ⟨hne, a, ha, rfl, rfl⟩
    obtain ⟨e, he, hea⟩ := exists_left_of_forall₂ hs.edges ha
    obtain ⟨hv, hw⟩ := hs.vertex_of_runs hea
    have hends : e.source ≠ e.target := by
      intro hends
      have hsource := hea.source
      rw [hends, hea.target] at hsource
      exact hne (Option.some.inj hsource).symm
    simp only [Function.onFun, hv, hw, Option.getD_some]
    exact (step_exportPage h).mpr ⟨hends, e, he, rfl, rfl⟩

theorem anchored_exportPage (h : Complete d page) (settings : Settings) :
    (exportPage d page settings).graph.Anchored := by
  have hlength : (nodesOn d page).length = page.graph.vertices.length := by
    rw [← h.keys_nodes, ← h.ids_nodesOn, List.length_map]
  rw [h.exportPage_eq]
  intro link hlink
  obtain ⟨e, he, rfl⟩ := List.mem_map.mp hlink
  rw [List.length_map, hlength]
  exact h.anchored e he

theorem malformed_exportPage_iff (hd : d.Reachable Edit.IsPlain) (hp : d.page? key = some page)
    (settings : Settings) :
    (∃ n ∈ (exportPage d page settings).graph.nodes, n.IsMalformed) ↔
      settings.BadSize ∧ ∃ i ∈ page.nodes.keys, ∃ node, d.node? i = some node ∧ ¬ HasSize node := by
  have hboxes := (depicts_exportPage hd hp settings).boxes
  rw [(depicts_exportPage hd hp settings).nodes] at hboxes
  constructor
  · rintro ⟨n, hn, hbad⟩
    obtain ⟨i, hi, node, hnode, rfl⟩ := exists_left_of_forall₂ hboxes hn
    obtain ⟨hsettings, hsize⟩ := (malformed_boxOf_iff (hd.isFinite_node hnode)).mp hbad
    exact ⟨hsettings, i, hi, node, hnode, hsize⟩
  · rintro ⟨hsettings, i, hi, node, hnode, hsize⟩
    obtain ⟨n, hn, node', hnode', rfl⟩ := exists_right_of_forall₂ hboxes hi
    rw [hnode] at hnode'
    cases hnode'
    exact ⟨_, hn, (malformed_boxOf_iff (hd.isFinite_node hnode)).mpr ⟨hsettings, hsize⟩⟩

/-- The reasons for which a page is refused, and that there are no others. -/
structure Answered (d : Document) (key : ObjectId) (page : Page) (settings : Settings)
    (answer : Except NetError LaidOut) : Prop where
  ends : ∀ p edge index count, answer ≠ .error (.layout p (.unknownEndpoint edge index count))
  size : (∃ box, answer = .error (.layout key (.invalidSize box))) ↔
    settings.BadSize ∧ ∃ i ∈ page.nodes.keys, ∃ node, d.node? i = some node ∧ ¬ HasSize node
  cycle : (∀ box, answer ≠ .error (.layout key (.invalidSize box))) →
    ((∃ node, answer = .error (.layout key (.cyclic node))) ↔
      settings.removeCycles = false ∧ ∃ i, TransGen (Joined d key) i i)
  rest : (∀ box, answer ≠ .error (.layout key (.invalidSize box))) →
    (∀ node, answer ≠ .error (.layout key (.cyclic node))) →
      (∃ done, answer = .ok done) ∨ ∃ k, answer = .error (.layout key (.nonFinite k))

theorem layoutPage_of_draw (hr : d.Registered) (hp : d.page? key = some page) :
    layoutPage d key settings =
      match settings.method.draw (exportPage d page settings).graph with
      | .error cause => .error (.layout key cause)
      | .ok r => .ok (laidOut d page settings r.1 r.2) := by
  have hid : page.id = key := hr.id_of_object? (Document.page?_eq_some_iff.mp hp)
  rw [layoutPage_eq, pageAt_eq_ok_iff.mpr hp, Except.bind, drawExported, hid]
  cases settings.method.draw (exportPage d page settings).graph <;> rfl

/-- A page is exported as it stands, and it is refused for the stated reasons only. -/
theorem page_answered (hd : d.Reachable Edit.IsPlain) (hp : d.page? key = some page)
    (settings : Settings) :
    Depicts d key page settings (exportPage d page settings) ∧
      Answered d key page settings (layoutPage d key settings) := by
  refine ⟨depicts_exportPage hd hp settings, ?_⟩
  have hmalformed := malformed_exportPage_iff hd hp settings
  have hcycle := onCycle_exportPage_iff hd hp settings
  have hacyclic : (settings.removeCycles = true ∨
      ∀ v, ¬ (exportPage d page settings).graph.OnCycle v) →
        ¬ (settings.removeCycles = false ∧ ∃ i, TransGen (Joined d key) i i) := by
    rintro hno ⟨hkept, hcyclic⟩
    obtain ⟨v, hv⟩ := hcycle.mpr hcyclic
    rcases hno with hremoved | hno
    · simp [hkept] at hremoved
    · exact hno v hv
  have hfate := Method.fate_draw settings.method
    (anchored_exportPage (complete_of_reachable hd hp) settings)
  rw [layoutPage_of_draw hd.registered hp]
  generalize settings.method.draw (exportPage d page settings).graph = answer at hfate ⊢
  cases hfate with
  | malformed box n hn hbad =>
    have hsize := hmalformed.mp ⟨n, hn, hbad⟩
    exact ⟨by simp, by simp [hsize], fun h => absurd rfl (h box), fun h => absurd rfl (h box)⟩
  | cyclic node v hsizes hkept hv =>
    have hsize := mt hmalformed.mpr fun ⟨n, hn, hbad⟩ => hsizes n hn hbad
    have hremove : settings.removeCycles = false := hkept
    exact ⟨by simp, by simp [hsize], by simp [hremove, hcycle.mp ⟨v, hv⟩],
      fun _ h => absurd rfl (h node)⟩
  | infinite k hsizes hno =>
    have hsize := mt hmalformed.mpr fun ⟨n, hn, hbad⟩ => hsizes n hn hbad
    exact ⟨by simp, by simp [hsize], by simp [hacyclic hno], fun _ _ => .inr ⟨k, rfl⟩⟩
  | drawn r hsizes hno =>
    have hsize := mt hmalformed.mpr fun ⟨n, hn, hbad⟩ => hsizes n hn hbad
    exact ⟨by simp, by simp [hsize], by simp [hacyclic hno], fun _ _ => .inl ⟨_, rfl⟩⟩

theorem error_of_map_summary {answer : Except NetError LaidOut} {cause : NetError}
    (h : answer.map (·.summary) = .error cause) : answer = .error cause := by
  cases answer with
  | error cause' =>
    cases h
    rfl
  | ok done => cases h

theorem page_answered_loopRun : (Document.run Document.loopRun).Reachable Edit.IsPlain ∧
    ∃ page, (Document.run Document.loopRun).page? ⟨"p"⟩ = some page ∧
      Depicts (Document.run Document.loopRun) ⟨"p"⟩ page {}
        (exportPage (Document.run Document.loopRun) page {}) ∧
      (∃ i, TransGen (Joined (Document.run Document.loopRun) ⟨"p"⟩) i i) ∧
      ∃ i ∈ page.nodes.keys, ∃ node,
        (Document.run Document.loopRun).node? i = some node ∧ ¬ HasSize node := by
  have hd : (Document.run Document.loopRun).Reachable Edit.IsPlain :=
    ⟨Document.loopRun, Document.uses_loopRun, rfl⟩
  obtain ⟨page, hp⟩ : ∃ page, (Document.run Document.loopRun).page? ⟨"p"⟩ = some page := ⟨_, rfl⟩
  obtain ⟨hdepicts, -⟩ := page_answered hd hp {}
  obtain ⟨-, hkept⟩ := page_answered hd hp { removeCycles := false }
  obtain ⟨-, hsmall⟩ := page_answered hd hp { nodeSize := -1 }
  have hcyclic : layoutPage (Document.run Document.loopRun) ⟨"p"⟩ { removeCycles := false } =
      .error (.layout ⟨"p"⟩ (.cyclic "a")) := error_of_map_summary (by decide +kernel)
  have hsize : layoutPage (Document.run Document.loopRun) ⟨"p"⟩ { nodeSize := -1 } =
      .error (.layout ⟨"p"⟩ (.invalidSize "a")) := error_of_map_summary (by decide +kernel)
  exact ⟨hd, page, hp, hdepicts,
    ((hkept.cycle (by simp [hcyclic])).mp ⟨"a", hcyclic⟩).2, (hsmall.size.mp ⟨"a", hsize⟩).2⟩

end PagedNets.Layout
