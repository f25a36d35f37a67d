import PagedNets.Proofs.Pnml.RoundTrip
import PagedNets.Proofs.Pnml.Stopping

/-!
Alias links over several nets. A document may link a node to any other one of its kind, but a reader
links net by net: it gets to the first node in the written order that refers to a later net, does
not find the referent, and ends there.
-/

set_option autoImplicit false

namespace PagedNets

theorem exists_first {α : Type} {p : α → Prop} {l : List α} (h : ∃ a ∈ l, p a) :
    ∃ us a ws, l = us ++ a :: ws ∧ p a ∧ ∀ b ∈ us, ¬ p b := by
  classical
  have hfound : (l.find? fun a => decide (p a)).isSome := List.find?_isSome.mpr (by simpa using h)
  obtain ⟨a, ha⟩ := Option.isSome_iff_exists.mp hfound
  obtain ⟨hpa, us, ws, rfl, hus⟩ := List.find?_eq_some_iff_append.mp ha
  exact ⟨us, a, ws, rfl, by simpa using hpa, fun b hb => by simpa using hus b hb⟩

namespace Document

variable {d : Document} {i r : ObjectId}

/-- The node refers to one in a later net. -/
def LooksAhead (d : Document) (i : ObjectId) : Prop := ∃ r, d.RefersTo i r ∧ d.Ahead i r

theorem backward_iff_not_looksAhead : d.Backward ↔ ∀ i ∈ d.keys, ¬ d.LooksAhead i := by
  rw [backward_iff_not_ahead]
  constructor
  · rintro h i - ⟨r, hir, hahead⟩
    exact h i r hir hahead
  · exact fun h i r hir hahead => h i (mem_keys_of_refersTo hir) ⟨r, hir, hahead⟩

theorem setReference_unresolved (h : d.Registered) {k : Kind} (hk : d.kindOf? i = some k)
    (hnode : k.isNode = true) (hr : d.object? r = none) :
    d.setReference i (some r) = .error (.unresolvedReference i r) := by
  obtain ⟨n, hn⟩ := Option.isSome_iff_exists.mp (isSome_node?_of_kind hk hnode)
  obtain ⟨o, ho, hon⟩ := node?_eq_some_iff.mp hn
  have hid := h.id_of_object? ho
  simp only [setReference, ho, hon, checkLink, checkReference, hr, hid]
  rfl

end Document

namespace Pnml

open Document (run)

variable {d e : Document} {before after : List Net} {n : Net} {i r : ObjectId}

/-- The steps of a net around the link of one of its nodes. -/
theorem netScript_split {vs ws : List ObjectId} (hwalk : d.netWalk n = vs ++ i :: ws)
    (hir : d.RefersTo i r) : netScript d n = arrivals d (d.netWalk n) ++ (links d vs ++
      ([.edit (.setReference i (some r))] ++ (links d ws ++ [.finished n.id n.format]))) := by
  have hr : d.refersTo? i = some r := hir
  have hlink : links d (i :: ws) = .edit (.setReference i (some r)) :: links d ws :=
    List.filterMap_cons_some (by rw [hr, Option.map_some])
  rw [netScript, hwalk, links_append, hlink]
  simp

theorem stops_netScript (hd : d.Reachable Edit.IsPlain) (hfin : d.Finite)
    (hnets : d.nets = before ++ n :: after) (h : d.Copies e (before.flatMap d.netWalk))
    {vs ws : List ObjectId} (hwalk : d.netWalk n = vs ++ i :: ws)
    (hvs : ∀ k ∈ vs, ¬ d.LooksAhead k) (hir : d.RefersTo i r) (hahead : d.Ahead i r) :
    ∃ f, Stops e (netScript d n) f (.refused (.unresolvedReference i r)) := by
  have hi : i ∈ d.netWalk n := by simp [hwalk]
  have hpresent : ∀ k ∈ d.netWalk n, k ∈ (before ++ [n]).flatMap d.netWalk := by
    intro k hk
    simp [hk]
  obtain ⟨full, harrivals, hfull, -⟩ := exists_netArrivals hd hfin hnets h
  obtain ⟨f, hlinks, hf, -⟩ := exists_links hd hfull fun k (hk : k ∈ vs) s hks => by
    have hkn : k ∈ d.netWalk n := by simp [hwalk, hk]
    exact ⟨hpresent k hkn, (mem_iff_not_ahead hd hnets hkn hks).mpr fun ha => hvs k hk ⟨s, hks, ha⟩⟩
  obtain ⟨kind, hkind, hnode⟩ := Document.isNode_of_refersTo hir
  have hrefused : f.setReference i (some r) = .error (.unresolvedReference i r) :=
    Document.setReference_unresolved hf.reachable.registered
      ((hf.kindOf?_eq (hpresent i hi)).trans hkind) hnode
      (hf.object?_eq_none fun hm => (mem_iff_not_ahead hd hnets hi hir).mp hm hahead)
  have hstop : Stops f [.edit (.setReference i (some r))] f
      (.refused (.unresolvedReference i r)) := by
    refine stops_of_refusal ?_
    have hedit : f.edit (.setReference i (some r)) = .error (.unresolvedReference i r) := hrefused
    simp only [refusal, hedit]
  rw [netScript_split hwalk hir]
  exact ⟨f, ((hstop.append _).behind hlinks).behind harrivals⟩

theorem read_write_forward (hd : d.Reachable Edit.IsChecked) (hne : d.nets ≠ []) (hl : d.IsLegal)
    (hb : ¬ d.Backward) : ∃ us i ws r, d.preorder = us ++ i :: ws ∧
      (∀ k ∈ us, ¬ d.LooksAhead k) ∧ d.RefersTo i r ∧ d.Ahead i r ∧
      (read {} (write d)).result = .error (.refused (.unresolvedReference i r)) := by
  have hplain := hd.isPlain
  have hsome : ∃ n ∈ d.nets, ∃ i ∈ d.netWalk n, d.LooksAhead i := by
    rw [Document.backward_iff_not_looksAhead] at hb
    push Not at hb
    obtain ⟨i, hi, hlooks⟩ := hb
    rw [← hplain.mem_preorder] at hi
    obtain ⟨n, hn, hi⟩ := List.mem_flatMap.mp hi
    exact ⟨n, hn, i, hi, hlooks⟩
  obtain ⟨before, n, after, hnets, hhere, hbefore⟩ := exists_first hsome
  obtain ⟨vs, i, ws, hwalk, ⟨r, hir, hahead⟩, hvs⟩ := exists_first hhere
  have hclear : ∀ m ∈ before, ∀ k ∈ d.netWalk m, ¬ d.LooksAhead k :=
    fun m hm k hk hlooks => hbefore m hm ⟨k, hk, hlooks⟩
  have hfront : d.nets = [] ++ before ++ n :: after := hnets
  obtain ⟨e, hperforms, he, -⟩ := exists_netScripts hplain hd.finite hfront
    (fun m hm k hk s hks ha => hclear m hm k hk ⟨s, hks, ha⟩) (copies_empty d)
    (fun k hk => by cases hk)
  obtain ⟨f, hstops⟩ := stops_netScript hplain hd.finite hnets he hwalk hvs hir hahead
  have hsteps : d.nets.flatMap (netScript d) = before.flatMap (netScript d) ++
      (netScript d n ++ after.flatMap (netScript d)) := by simp [hnets]
  refine ⟨before.flatMap d.netWalk ++ vs, i, ws ++ after.flatMap d.netWalk, r, ?_, ?_, hir,
    hahead, ?_⟩
  · simp [Document.preorder, hnets, hwalk]
  · intro k hk
    rcases List.mem_append.mp hk with hk | hk
    · obtain ⟨m, hm, hk⟩ := List.mem_flatMap.mp hk
      exact hclear m hm k hk
    · exact hvs k hk
  · rw [read_write_eq hplain hd.finite hne hl, hsteps]
    exact ((hstops.append _).behind hperforms).perform_eq.2

theorem read_write_backward (hd : d.Reachable Edit.IsChecked) (hne : d.nets ≠ []) (hl : d.IsLegal)
    (hb : d.Backward) : (read {} (write d)).result = .ok (d.nets.map (·.id)) ∧
      ∀ i, (read {} (write d)).document.refersTo? i = d.refersTo? i := by
  obtain ⟨e, hperforms, -, hlinks⟩ := replayed hd.isPlain hd.finite hb
  obtain ⟨hdocument, hresult⟩ := hperforms.perform_eq
  rw [read_write_eq hd.isPlain hd.finite hne hl, hdocument, hresult]
  exact ⟨rfl, hlinks⟩

/-- What was written is read back, with every node referring to what it referred to, if no node
refers to a later net; otherwise reading ends at the first that does. -/
theorem read_write_links (hd : d.Reachable Edit.IsChecked) (hne : d.nets ≠ []) (hl : d.IsLegal) :
    (d.Backward → (read {} (write d)).result = .ok (d.nets.map (·.id)) ∧
        ∀ i, (read {} (write d)).document.refersTo? i = d.refersTo? i) ∧
      (¬ d.Backward → ∃ us i ws r, d.preorder = us ++ i :: ws ∧
        (∀ k ∈ us, ¬ d.LooksAhead k) ∧ d.RefersTo i r ∧ d.Ahead i r ∧
        (read {} (write d)).result = .error (.refused (.unresolvedReference i r))) :=
  ⟨read_write_backward hd hne hl, read_write_forward hd hne hl⟩

/-- Two nets with one place each; the place of the first net is an alias of the other one. -/
def forwardRun : List Action :=
  [.edit (.addNet { id := ⟨"n"⟩, format := .placeTransition }),
    .edit (.add ⟨"n"⟩ (.page { id := ⟨"p"⟩ })),
    .edit (.add ⟨"p"⟩ (.place { id := ⟨"a"⟩ })),
    .edit (.addNet { id := ⟨"m"⟩, format := .placeTransition }),
    .edit (.add ⟨"m"⟩ (.page { id := ⟨"q"⟩ })),
    .edit (.add ⟨"q"⟩ (.place { id := ⟨"b"⟩ })),
    .edit (.setReference ⟨"a"⟩ (some ⟨"b"⟩))]

theorem uses_forwardRun : ∀ a ∈ forwardRun, a.Uses Edit.IsChecked := by
  intro a ha
  simp only [forwardRun, List.mem_cons, List.not_mem_nil, or_false] at ha
  rcases ha with rfl | rfl | rfl | rfl | rfl | rfl | rfl
  · exact ⟨rfl, rfl⟩
  · exact ⟨rfl, rfl, rfl, rfl, rfl⟩
  · trivial
  · exact ⟨rfl, rfl⟩
  · exact ⟨rfl, rfl, rfl, rfl, rfl⟩
  · trivial
  · trivial

theorem read_write_links_forwardRun :
    (run forwardRun).Reachable Edit.IsChecked ∧ (run forwardRun).nets ≠ [] ∧
      (run forwardRun).IsLegal ∧ ¬ (run forwardRun).Backward ∧
      ∃ i r, (run forwardRun).RefersTo i r ∧ (run forwardRun).Ahead i r ∧
        (read {} (write (run forwardRun))).result =
          .error (.refused (.unresolvedReference i r)) := by
  have hd : (run forwardRun).Reachable Edit.IsChecked := ⟨forwardRun, uses_forwardRun, rfl⟩
  obtain ⟨-, hforward⟩ := read_write_links hd (by decide) (by decide)
  obtain ⟨us, i, ws, r, -, -, hir, hahead, hresult⟩ := hforward (by decide)
  exact ⟨hd, by decide, by decide, by decide, i, r, hir, hahead, hresult⟩

theorem forward_links_unread : ¬ ∀ d : Document, d.Reachable Edit.IsChecked → d.nets ≠ [] →
    d.IsLegal → (∃ nets, (read {} (write d)).result = .ok nets) ∧
      ∀ i, (read {} (write d)).document.refersTo? i = d.refersTo? i := by
  intro h
  have hd : (run forwardRun).Reachable Edit.IsChecked := ⟨forwardRun, uses_forwardRun, rfl⟩
  have hne : (run forwardRun).nets ≠ [] := by decide
  have hl : (run forwardRun).IsLegal := by decide
  obtain ⟨⟨nets, hread⟩, -⟩ := h (run forwardRun) hd hne hl
  obtain ⟨us, i, ws, r, -, -, -, -, hresult⟩ := read_write_forward hd hne hl (by decide)
  rw [hread] at hresult
  cases hresult

end Pnml

end PagedNets
