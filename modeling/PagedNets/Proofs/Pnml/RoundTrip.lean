import PagedNets.Proofs.Pnml.Legality
import PagedNets.Proofs.Pnml.Writing

set_option autoImplicit false

namespace PagedNets.Pnml

open Document (run)

variable {d : Document}

theorem read_write_eq (hd : d.Reachable Edit.IsPlain) (hfin : d.Finite) (hne : d.nets ≠ [])
    (hl : d.IsLegal) : read {} (write d) = perform {} (d.nets.flatMap (netScript d)) := by
  have hs := isSound_markup hd hfin hl
  have hnets : ∀ n ∈ d.nets, d.net? n.id = some n :=
    fun n hn => (Document.mem_nets hd.registered).mp hn
  have hparse : Xml.parse? (write d) = some ((markup d).node 0) := Xml.parse?_renderDocument hs
  have hc := Document.contained_of_tabled hd.registered hd.tabled
  rw [read, hparse]
  simp only [script_markup hc hfin hnets hne hs]

/-- A document that was written is read back into an empty one. The nets are named in order, and
every object is there again with all of its fields, tables, indices and names. -/
theorem read_write (hd : d.Reachable Edit.IsChecked) (hne : d.nets ≠ []) (hl : d.IsLegal)
    (hb : d.Backward) :
    (read {} (write d)).result = .ok (d.nets.map (·.id)) ∧
      (∀ i, (read {} (write d)).document.contains i = d.contains i) ∧
      ∀ i o, d.object? i = some o →
        ∃ x, (read {} (write d)).document.object? i = some x ∧ x.Agrees o.reread := by
  have hplain := hd.isPlain
  obtain ⟨e, hperforms, hcopies, hlinks⟩ := replayed hplain hd.finite hb
  obtain ⟨hdocument, hresult⟩ := hperforms.perform_eq
  rw [read_write_eq hplain hd.finite hne hl, hdocument, hresult]
  refine ⟨rfl, hcopies.contains_eq hplain, fun i o ho => ?_⟩
  exact hcopies.agrees hplain hlinks ho

/-- Two nets. On the first one a place is joined to a transition, and on the second one there is an
alias of that place. -/
def exchangeRun : List Action :=
  [.edit (.addNet { id := ⟨"n"⟩, name := some "a < b & c", format := .placeTransition }),
    .edit (.add ⟨"n"⟩ (.page { id := ⟨"p"⟩, name := some "" })),
    .edit (.add ⟨"p"⟩ (.place { id := ⟨"a"⟩, tokens := 3 })),
    .edit (.add ⟨"p"⟩ (.transition { id := ⟨"b"⟩ })),
    .edit (.add ⟨"p"⟩ (.arc { id := ⟨"ab"⟩, source := ⟨"a"⟩, target := ⟨"b"⟩, kind := .read })),
    .edit (.setGeometry ⟨"a"⟩ { x := 1.5, y := -0.1 } { x := 20, y := 10 }),
    .edit (.addNet { id := ⟨"m"⟩, format := .symmetric }),
    .edit (.add ⟨"m"⟩ (.page { id := ⟨"q"⟩ })),
    .edit (.add ⟨"q"⟩ (.place { id := ⟨"c"⟩ })),
    .edit (.setReference ⟨"c"⟩ (some ⟨"a"⟩))]

theorem uses_exchangeRun : ∀ a ∈ exchangeRun, a.Uses Edit.IsChecked := by
  intro a ha
  simp only [exchangeRun, List.mem_cons, List.not_mem_nil, or_false] at ha
  rcases ha with rfl | rfl | rfl | rfl | rfl | rfl | rfl | rfl | rfl | rfl
  · exact ⟨rfl, rfl⟩
  · exact ⟨rfl, rfl, rfl, rfl, rfl⟩
  · trivial
  · trivial
  · trivial
  · trivial
  · exact ⟨rfl, rfl⟩
  · exact ⟨rfl, rfl, rfl, rfl, rfl⟩
  · trivial
  · trivial

theorem read_write_exchangeRun :
    (run exchangeRun).Reachable Edit.IsChecked ∧ (run exchangeRun).nets ≠ [] ∧
      (run exchangeRun).IsLegal ∧ (run exchangeRun).Backward ∧
      (read {} (write (run exchangeRun))).result = .ok [⟨"n"⟩, ⟨"m"⟩] ∧
      ∃ o x, (run exchangeRun).object? ⟨"c"⟩ = some o ∧ o.reference? = some ⟨"a"⟩ ∧
        (read {} (write (run exchangeRun))).document.object? ⟨"c"⟩ = some x ∧
        x.Agrees o.reread := by
  have hd : (run exchangeRun).Reachable Edit.IsChecked := ⟨exchangeRun, uses_exchangeRun, rfl⟩
  have hnets : (run exchangeRun).nets.map (·.id) = [⟨"n"⟩, ⟨"m"⟩] := by decide
  obtain ⟨hresult, _, hobjects⟩ := read_write hd (by decide) (by decide) (by decide)
  have hlink : (run exchangeRun).refersTo? ⟨"c"⟩ = some ⟨"a"⟩ := by decide
  obtain ⟨o, ho, hr⟩ := Option.bind_eq_some_iff.mp hlink
  obtain ⟨x, hx, hagrees⟩ := hobjects ⟨"c"⟩ o ho
  rw [hnets] at hresult
  exact ⟨hd, by decide, by decide, by decide, hresult, o, x, ho, hr, hx, hagrees⟩

end PagedNets.Pnml
