import PagedNets.CommandLine.Run
import PagedNets.Proofs.Layout.Relayout
import PagedNets.Proofs.Pnml.NormalForm

set_option autoImplicit false

namespace PagedNets

open Layout (Drawing Lookalike Parallel Outcome)

theorem Layout.Drawing.redraw_reread (g : Drawing) (i : ObjectId) (o : Object) :
    g.redraw i o.reread = (g.redraw i o).reread := by
  unfold redraw
  cases lastOf g.boxes i <;> cases lastOf g.links i <;> cases o <;> rfl

namespace Document

variable {d e : Document} {g : Drawing}

theorem netAbove_eq (d : Document) (fuel : Nat) (o : Object) : d.netAbove fuel o =
    if o.kind = .net then some o.id else
      match fuel with
      | 0 => none
      | fuel + 1 => (o.owner.bind fun w => d.object? w.id).bind (d.netAbove fuel) := by
  cases o <;> cases fuel <;> rfl

theorem netAbove_of_view (h : e.view Object.label = d.view Object.label) (fuel : Nat)
    {o x : Object} (hl : x.label = o.label) : e.netAbove fuel x = d.netAbove fuel o := by
  induction fuel generalizing o x with
  | zero => rw [netAbove_eq, netAbove_eq, Object.kind_of_label hl, Object.id_of_label hl]
  | succ fuel ih =>
    rw [netAbove_eq, netAbove_eq, Object.kind_of_label hl, Object.id_of_label hl,
      Object.owner_of_label hl]
    refine if_congr Iff.rfl rfl ?_
    cases o.owner with
    | none => rfl
    | some w =>
      have hw := object?_of_view h w.id
      rw [Option.bind_some, Option.bind_some]
      cases hy : e.object? w.id with
      | none =>
        rw [hy] at hw
        rw [Option.map_eq_none_iff.mp hw.symm]
        rfl
      | some y =>
        rw [hy] at hw
        obtain ⟨z, hz, hzy⟩ := Option.map_eq_some_iff.mp hw.symm
        rw [hz]
        exact ih hzy.symm

theorem netOf?_of_view (h : e.view Object.label = d.view Object.label) (i : ObjectId) :
    e.netOf? i = d.netOf? i := by
  have hsize : e.size = d.size := by rw [← length_keys, keys_of_view h, length_keys]
  rw [netOf?, netOf?, hsize]
  cases hx : e.object? i with
  | none =>
    have ho := object?_of_view h i
    rw [hx] at ho
    rw [Option.map_eq_none_iff.mp ho.symm]
    rfl
  | some x =>
    obtain ⟨o, ho, hox⟩ := exists_of_view h hx
    rw [ho]
    exact netAbove_of_view h d.size hox.symm

section Redraw

theorem view_redraw {β : Type} {f : Object → β} (hmove : ∀ box o, f (o.moveTo box) = f o)
    (hbend : ∀ link o, f (o.bend link) = f o) (d : Document) (g : Drawing) :
    (d.redraw g).view f = d.view f := by
  simp only [view, redraw, mapObjects, List.map_map]
  exact List.map_congr_left fun e _ =>
    congrArg (Prod.mk e.1) (Drawing.eq_redraw hmove hbend g e.1 e.2)

theorem view_frame_redraw (d : Document) (g : Drawing) :
    (d.redraw g).view Object.frame = d.view Object.frame :=
  view_redraw (fun _ o => by cases o <;> rfl) (fun _ o => by cases o <;> rfl) d g

theorem size_redraw (d : Document) (g : Drawing) : (d.redraw g).size = d.size := by
  rw [← length_keys, keys_redraw, length_keys]

theorem nets_redraw (d : Document) (g : Drawing) : (d.redraw g).nets = d.nets := by
  have hview : (d.redraw g).view Object.net? = d.view Object.net? :=
    view_redraw (fun _ o => by cases o <;> rfl) (fun _ o => by cases o <;> rfl) d g
  have hvalues := congrArg (List.filterMap id) (values_of_view hview)
  rwa [List.filterMap_map, List.filterMap_map] at hvalues

theorem page?_redraw (d : Document) (g : Drawing) (i : ObjectId) :
    (d.redraw g).page? i = d.page? i := by
  rw [page?, page?, object?_redraw, Option.bind_map]
  exact Option.bind_congr fun o _ => g.page?_redraw i o

theorem walk_redraw (d : Document) (g : Drawing) (fuel : Nat) (keys : List ObjectId) :
    (d.redraw g).walk fuel keys = d.walk fuel keys := by
  induction fuel generalizing keys with
  | zero => rfl
  | succ fuel ih => simp only [walk_succ, page?_redraw, ih]

theorem preorder_redraw (d : Document) (g : Drawing) : (d.redraw g).preorder = d.preorder := by
  rw [preorder, preorder, nets_redraw]
  refine List.flatMap_congr fun n _ => ?_
  rw [netWalk, netWalk, size_redraw, walk_redraw]

theorem Backward.redraw (h : d.Backward) (g : Drawing) : (d.redraw g).Backward := by
  have hframe := view_frame_redraw d g
  have hnet := netOf?_of_view (view_of_frame (g := Frame.label) (fun _ => rfl) hframe)
  have hrefers := refersTo?_of_view (view_of_frame (g := fun x => (x.label.kind, x.links))
    (fun _ => rfl) hframe)
  intro i r hir m n hm hn
  rw [nets_redraw]
  exact h i r ((hrefers i).symm.trans hir) m n ((hnet i).symm.trans hm) ((hnet r).symm.trans hn)

theorem IsLegal.redraw (h : d.IsLegal) (g : Drawing) : (d.redraw g).IsLegal := by
  have hview : (d.redraw g).view (fun o => (o.id, o.name)) = d.view fun o => (o.id, o.name) :=
    view_redraw (fun _ o => by cases o <;> rfl) (fun _ o => by cases o <;> rfl) d g
  have hvalues := values_of_view hview
  intro x hx
  obtain ⟨o, ho, hox⟩ := List.mem_map.mp (hvalues ▸ List.mem_map_of_mem hx)
  obtain ⟨hid, hname⟩ := Prod.mk.inj hox
  rw [← hid, ← hname]
  exact h o ho

theorem Scoped.redraw (h : d.Scoped) (g : Drawing) : (d.redraw g).Scoped :=
  h.of_view (view_of_frame (g := fun x => (x.label, x.scopedName, x.names?)) (fun _ => rfl)
    (view_frame_redraw d g))

/-- A drawing that a document shows already is shown as well by what is read back. -/
theorem Reproduces.redraw_eq (h : e.Reproduces d) (hg : d.redraw g = d) : e.redraw g = e := by
  have hentries : d.objects.entries.map (fun x => (x.1, g.redraw x.1 x.2)) =
      d.objects.entries.map id := by
    rw [List.map_id]
    exact congrArg (·.objects.entries) hg
  have hreread : e.objects.entries = d.objects.entries.map fun x => (x.1, x.2.reread) := by
    simpa [Reproduces, view] using h
  refine mapObjects_self fun x hx => ?_
  rw [hreread] at hx
  obtain ⟨y, hy, rfl⟩ := List.mem_map.mp hx
  have hkept : g.redraw y.1 y.2 = y.2 := congrArg Prod.snd (List.map_inj_left.mp hentries y hy)
  exact (g.redraw_reread y.1 y.2).trans (congrArg Object.reread hkept)

end Redraw

end Document

namespace Layout

def layoutNets (d : Document) (settings : Settings) : List ObjectId → Outcome
  | [] => { document := d, result := .ok [] }
  | net :: rest => (layoutNet d net settings).andThen (layoutNets · settings rest)

variable {d e : Document} {settings : Settings}

theorem Lookalike.layoutNets (h : Lookalike settings d e) (nets : List ObjectId) :
    Parallel settings d e (layoutNets d settings nets) (layoutNets e settings nets) := by
  induction nets generalizing d e with
  | nil => exact parallel_of_kept rfl rfl
  | cons net nets ih => exact .andThen h (h.layoutNet net) fun _ _ hnext => ih hnext

/-- What is read back cannot be told apart by a layout. -/
theorem lookalike_of_reproduces (settings : Settings) (h : e.Reproduces d) :
    Lookalike settings d e := by
  refine ⟨h.keys, fun i => ?_⟩
  rw [h.object?, Option.map_map]
  refine Option.map_congr fun o _ => ?_
  cases o <;> rfl

theorem layoutNets_of_reproduces {nets : List ObjectId} {e : Document}
    (h : e.Reproduces (layoutNets d settings nets).document) :
    layoutNets e settings nets = { layoutNets d settings nets with document := e } := by
  have hagain := again_of_parallel (layoutNets · settings nets)
    (fun _ _ h => h.layoutNets nets) d
  obtain ⟨g, -, hdocument, houtcome⟩ := (lookalike_of_reproduces settings h).layoutNets nets
  rw [hagain] at hdocument houtcome
  rw [houtcome, h.redraw_eq hdocument.symm]

end Layout

namespace Document

open Layout (layoutNet layoutNets)

theorem Reachable.layoutNet {allowed : Edit → Prop} {d : Document} (h : d.Reachable allowed)
    (net : ObjectId) (settings : Layout.Settings) :
    (layoutNet d net settings).document.Reachable allowed := by
  obtain ⟨actions, hu, rfl⟩ := h
  refine ⟨actions ++ [.layoutNet net settings], fun a ha => ?_, ?_⟩
  · rcases List.mem_append.mp ha with ha | ha
    · exact hu a ha
    · rw [List.mem_singleton.mp ha]
      trivial
  · rw [run, List.foldl_append]
    rfl

theorem Reachable.layoutNets {allowed : Edit → Prop} {d : Document} (h : d.Reachable allowed)
    (settings : Layout.Settings) (nets : List ObjectId) :
    (layoutNets d settings nets).document.Reachable allowed := by
  induction nets generalizing d with
  | nil => exact h
  | cons net nets ih =>
    have hnet := h.layoutNet net settings
    rw [Layout.layoutNets, Layout.Outcome.andThen]
    split
    · exact hnet
    · exact ih hnet

end Document

namespace Pnml

open Layout (layoutNets)

theorem reproduces_read_write {d : Document} (hd : d.Reachable Edit.IsPlain) (hfin : d.Finite)
    (hne : d.nets ≠ []) (hl : d.IsLegal) (hb : d.Backward) (horder : d.preorder = d.keys)
    (hs : d.Scoped) : (read {} (write d)).result = .ok (d.nets.map (·.id)) ∧
      (read {} (write d)).document.Reproduces d := by
  obtain ⟨e, hperforms, hcopies, hlinks⟩ := replayed hd hfin hb
  obtain ⟨hdocument, hresult⟩ := hperforms.perform_eq
  rw [← read_write_eq hd hfin hne hl] at hdocument hresult
  have hscoped := Document.scoped_read (write d)
  rw [hdocument] at hscoped ⊢
  exact ⟨hresult, hcopies.reproduces hd horder hlinks hs hscoped⟩

variable {text : String} {nets : List ObjectId}

theorem reproduces_read_layout (h : (read {} text).result = .ok nets) (settings : Layout.Settings) :
    let d := (layoutNets (read {} text).document settings nets).document
    (read {} (write d)).result = .ok nets ∧ (read {} (write d)).document.Reproduces d := by
  intro d
  obtain ⟨root, hlegal, hne, hresolved, hnets, hrepresents⟩ := tree_of_result h
  obtain ⟨g, -, hdocument, -⟩ :=
    (Layout.Lookalike.refl settings (read {} text).document).layoutNets nets
  have hd : d = (read {} text).document.redraw g := hdocument
  have hids : d.nets.map (·.id) = nets := by
    rw [hd, Document.nets_redraw, hrepresents.ids_nets, hnets]
  have hnonempty : d.nets ≠ [] := by
    intro hnil
    rw [hnil] at hids
    exact hne (List.map_eq_nil_iff.mp (hnets.symm.trans hids.symm))
  have hreachable : d.Reachable Edit.IsChecked := (reachable_read text).layoutNets settings nets
  rw [← hids]
  refine reproduces_read_write hreachable.isPlain hreachable.finite hnonempty ?_ ?_ ?_ ?_ <;>
    rw [hd]
  · exact (hrepresents.isLegal hlegal).redraw g
  · exact (hrepresents.backward hresolved).redraw g
  · rw [Document.preorder_redraw, Document.keys_redraw, hrepresents.preorder_eq]
  · exact (Document.scoped_read text).redraw g

/-- Whatever text was read, laying out all of its nets and writing the document gives a text on
which the same has no effect any more: it is read as the same nets, these are laid out with the same
summaries, and the text that is written then is the one that was read. -/
theorem layout_written (h : (read {} text).result = .ok nets) (settings : Layout.Settings) :
    let first := layoutNets (read {} text).document settings nets
    let second := layoutNets (read {} (write first.document)).document settings nets
    (read {} (write first.document)).result = .ok nets ∧ second.result = first.result ∧
      write second.document = write first.document := by
  intro first second
  obtain ⟨hresult, hreproduces⟩ := reproduces_read_layout h settings
  have hsecond : second = { first with
      document := (read {} (write first.document)).document } :=
    Layout.layoutNets_of_reproduces hreproduces
  refine ⟨hresult, by rw [hsecond], ?_⟩
  rw [hsecond]
  exact write_of_reproduces hreproduces

/-- A page on which an arc comes before the two nodes that it joins, with no geometry at all. -/
def sketchedText : String :=
  "<net id='n' type='http://www.pnml.org/version-2009/grammar/ptnet'><page id='p'>" ++
    "<arc id='c' source='a' target='b'/><place id='a'/><transition id='b'/></page></net>"

theorem layout_written_sketchedText :
    (read {} sketchedText).result = .ok [⟨"n"⟩] ∧
      (layoutNets (read {} (write
        (layoutNets (read {} sketchedText).document {} [⟨"n"⟩]).document)).document {}
          [⟨"n"⟩]).result = .ok [(⟨"p"⟩, ⟨2, 0, 0⟩)] := by
  have hsketch : (read {} sketchedText).result = .ok [⟨"n"⟩] ∧
      (layoutNets (read {} sketchedText).document {} [⟨"n"⟩]).result =
        .ok [(⟨"p"⟩, ⟨2, 0, 0⟩)] := by decide +kernel
  obtain ⟨hread, hlayout⟩ := hsketch
  exact ⟨hread, (layout_written hread {}).2.1.trans hlayout⟩

end Pnml

namespace CommandLine

open Layout (layoutNets)

theorem layoutAll_eq_ok_iff {settings : Layout.Settings} {d e : Document} {nets : List ObjectId} :
    layoutAll settings d nets = .ok e ↔
      (∃ summaries, (layoutNets d settings nets).result = .ok summaries) ∧
        (layoutNets d settings nets).document = e := by
  induction nets generalizing d with
  | nil => simp [layoutAll, layoutNets, pure, Except.pure]
  | cons net nets ih =>
    cases hresult : (Layout.layoutNet d net settings).result with
    | error cause =>
      have hcons : layoutAll settings d (net :: nets) = .error (.layout net cause) := by
        rw [layoutAll, List.foldlM_cons]
        simp only [hresult]
        rfl
      simp [hcons, layoutNets, Layout.Outcome.andThen, hresult]
    | ok summaries =>
      have hcons : layoutAll settings d (net :: nets) =
          layoutAll settings (Layout.layoutNet d net settings).document nets := by
        rw [layoutAll, List.foldlM_cons]
        simp only [hresult]
        rfl
      rw [hcons, ih]
      simp only [layoutNets, Layout.Outcome.andThen, hresult]
      refine and_congr_left fun _ => ?_
      cases (layoutNets (Layout.layoutNet d net settings).document settings nets).result <;>
        simp [Except.map]

variable {o : Options} {input output text : String} {settings : Content}

theorem run_layout_eq_ok_iff (hcommand : o.command = .layout input output) {delivery : Delivery} :
    o.run settings (.text text) = .ok delivery ↔
      ∃ s nets laid, settingsOf o.settings settings = .ok s ∧
        (Pnml.read {} text).result = .ok nets ∧
        layoutAll s.layout (Pnml.read {} text).document nets = .ok laid ∧
        delivery = toFile output (Pnml.write laid) := by
  simp only [Options.run, hcommand, documentOf, bind, Except.bind]
  cases settingsOf o.settings settings with
  | error cause => simp
  | ok s =>
    cases hnets : (Pnml.read {} text).result with
    | error cause => simp
    | ok nets =>
      cases hlaid : layoutAll s.layout (Pnml.read {} text).document nets with
      | error cause => simp [Command.run, hlaid, Except.map]
      | ok laid => simp [Command.run, hlaid, Except.map, eq_comm]

theorem run_layout_again {path written : String} {refused : Failure}
    (hcommand : o.command = .layout input output)
    (h : o.run settings (.text text) = .ok (.file path written refused)) :
    o.run settings (.text written) = .ok (.file path written refused) := by
  obtain ⟨s, nets, laid, hs, hnets, hlaid, hdelivery⟩ := (run_layout_eq_ok_iff hcommand).mp h
  cases hdelivery
  obtain ⟨⟨summaries, hsummaries⟩, rfl⟩ := layoutAll_eq_ok_iff.mp hlaid
  obtain ⟨hresult, hreproduces⟩ := Pnml.reproduces_read_layout hnets s.layout
  have hagain := Layout.layoutNets_of_reproduces hreproduces
  refine (run_layout_eq_ok_iff hcommand).mpr ⟨s, nets, _, hs, hresult,
    layoutAll_eq_ok_iff.mpr ⟨⟨summaries, ?_⟩, rfl⟩, ?_⟩ <;> rw [hagain]
  · exact hsummaries
  · rw [Pnml.write_of_reproduces hreproduces]
    rfl

end CommandLine

end PagedNets
