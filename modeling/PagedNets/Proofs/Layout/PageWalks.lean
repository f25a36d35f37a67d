import PagedNets.Proofs.Dot.Clusters
import PagedNets.Proofs.Layout.PageLoop
import PagedNets.Proofs.Pnml.PageElements

/-!
Three walks over the pages of a net: the loop that lays them out, the elements in the text of the
document, and the clusters in the picture of the net. Each of them comes once to every page that the
net has, and all of them in the same order.
-/

set_option autoImplicit false

namespace PagedNets

open Layout (PageLoop LaidOn Summarizes Leaves layoutNet layoutPage)
open Text (linesAt)

namespace Document

def Untouched (d e : Document) (key : ObjectId) : Prop :=
  e.object? key = d.object? key ∧ ∀ i, d.StandsOn key i → e.object? i = d.object? i

structure Walks (d : Document) (n : Net) : Prop where
  order : ∀ order, d.PageOrder n.pages order ↔ order = d.pagesOf n
  once : (d.pagesOf n).Nodup
  complete : ∀ i, i ∈ d.pagesOf n ↔
    (∃ page, d.page? i = some page) ∧ d.netOf? i = some n.id
  ends : ∀ settings fuel, (d.pagesOf n).length < fuel →
    (PageLoop.start d n).run settings fuel = some (layoutNet d n.id settings)
  answered : ∀ settings summaries, (layoutNet d n.id settings).result = .ok summaries →
    summaries.map (·.1) = d.pagesOf n ∧ (∀ s ∈ summaries, Summarizes settings d s) ∧
      LaidOn settings d (d.pagesOf n) (layoutNet d n.id settings).document
  stopped : ∀ settings cause, (layoutNet d n.id settings).result = .error cause →
    ∃ laid key after, d.pagesOf n = laid ++ key :: after ∧
      layoutPage d key settings = .error cause ∧
      LaidOn settings d laid (layoutNet d n.id settings).document ∧
      ∀ other ∈ key :: after, d.Untouched (layoutNet d n.id settings).document other
  written : linesAt Pnml.pageWords (Pnml.write d) = d.nets.flatMap (Pnml.netLines d)
  drawn : ∀ settings, ∃ text, Dot.render d n.id settings = .ok text ∧
    linesAt Dot.clusterWords text =
      linesAt Dot.clusterWords (Dot.directionLine settings) ++
        (d.pagesOf n).map Dot.clusterLine ∧
    ('\n' ∉ settings.rankdir.toList →
      linesAt Dot.clusterWords text = (d.pagesOf n).map Dot.clusterLine)

variable {d e : Document} {n : Net} {settings : Layout.Settings}

theorem Contained.untouched (hd : d.Contained) {laid : List ObjectId} {key : ObjectId}
    {page : Page} (h : LaidOn settings d laid e) (hp : d.page? key = some page)
    (hkey : key ∉ laid) : d.Untouched e key := by
  refine ⟨h.kept key fun _ _ => hd.not_standsOn_page hp, fun i hi => ?_⟩
  exact h.kept i fun other hother ho => hkey (hd.standsOn_unique hi ho ▸ hother)

/-- In every document that a run led to, the loop over the pages of a net comes to its end; it
answers for all pages of the net in their order, or leaves the page that failed and those after it
as they were; and the pages stand in this order in the text of the document and in the picture of
the net. -/
theorem walks_of_reachable (h : d.Reachable Edit.IsPlain) (hn : n ∈ d.nets) : d.Walks n := by
  have hd := contained_of_tabled h.registered h.tabled
  have hnet := (mem_nets h.registered).mp hn
  have hnodup := hd.nodup_pagesOf hnet
  have hleaves := fun settings => (Layout.run_start hd hnet settings).2
  refine {
    order := fun _ =>
      ⟨(hd.pageOrder hnet).unique, fun he => he ▸ hd.pageOrder hnet⟩
    once := hnodup
    complete := fun _ => hd.mem_pagesOf hnet
    ends := fun settings => (Layout.run_start hd hnet settings).1
    answered := fun settings summaries hresult => ?_
    stopped := fun settings cause hresult => ?_
    written := Pnml.linesAt_write h.registered hd
    drawn := Dot.linesAt_render hd hnet }
  · have hall := hleaves settings
    rwa [Leaves, hresult] at hall
  · have hall := hleaves settings
    rw [Leaves, hresult] at hall
    obtain ⟨laid, key, after, hsplit, hcause, hlaid⟩ := hall
    refine ⟨laid, key, after, hsplit, hcause, hlaid, fun other hother => ?_⟩
    rw [hsplit] at hnodup
    have hmem : other ∈ d.pagesOf n := by
      rw [hsplit]
      exact List.mem_append_right _ hother
    obtain ⟨page, hp⟩ := ((hd.mem_pagesOf hnet).mp hmem).1
    exact hd.untouched hlaid hp fun hbefore =>
      (List.nodup_append.mp hnodup).2.2 other hbefore other hother rfl

/-- Two pages of a net and two more inside the first one, of which one has a cycle. -/
def branchedRun : List Action :=
  [.edit (.addNet { id := ⟨"n"⟩, format := .placeTransition }),
    .edit (.add ⟨"n"⟩ (.page { id := ⟨"p"⟩ })),
    .edit (.add ⟨"n"⟩ (.page { id := ⟨"q"⟩ })),
    .edit (.add ⟨"p"⟩ (.page { id := ⟨"r"⟩ })),
    .edit (.add ⟨"p"⟩ (.page { id := ⟨"s"⟩ })),
    .edit (.add ⟨"r"⟩ (.place { id := ⟨"a"⟩ })),
    .edit (.add ⟨"r"⟩ (.transition { id := ⟨"b"⟩ })),
    .edit (.add ⟨"r"⟩ (.arc { id := ⟨"ab"⟩, source := ⟨"a"⟩, target := ⟨"b"⟩ })),
    .edit (.add ⟨"r"⟩ (.arc { id := ⟨"ba"⟩, source := ⟨"b"⟩, target := ⟨"a"⟩ }))]

def branchedNet : Net :=
  { id := ⟨"n"⟩, format := .placeTransition, pages := [⟨"p"⟩, ⟨"q"⟩] }

theorem uses_branchedRun : ∀ a ∈ branchedRun, a.Uses Edit.IsPlain := by
  intro a ha
  simp only [branchedRun, List.mem_cons, List.not_mem_nil, or_false] at ha
  rcases ha with rfl | rfl | rfl | rfl | rfl | rfl | rfl | rfl | rfl
  · exact ⟨rfl, rfl⟩
  · exact ⟨rfl, rfl, rfl, rfl, rfl⟩
  · exact ⟨rfl, rfl, rfl, rfl, rfl⟩
  · exact ⟨rfl, rfl, rfl, rfl, rfl⟩
  · exact ⟨rfl, rfl, rfl, rfl, rfl⟩
  · trivial
  · trivial
  · trivial
  · trivial

theorem walks_branchedRun :
    (run branchedRun).Reachable Edit.IsPlain ∧ branchedNet ∈ (run branchedRun).nets ∧
      ((PageLoop.start (run branchedRun) branchedNet).run {} 5).map (·.result) =
        some (.ok [(⟨"p"⟩, ⟨0, 0, 0⟩), (⟨"r"⟩, ⟨2, 0, 1⟩), (⟨"s"⟩, ⟨0, 0, 0⟩),
          (⟨"q"⟩, ⟨0, 0, 0⟩)]) ∧
      ((PageLoop.start (run branchedRun) branchedNet).run { removeCycles := false } 5).map
        (·.result) = some (.error (.layout ⟨"r"⟩ (.cyclic "a"))) ∧
      linesAt Pnml.pageWords (Pnml.write (run branchedRun)) =
        ["<net id=\"n\" type=\"http://www.pnml.org/version-2009/grammar/ptnet\">",
          "<page id=\"p\">", "<page id=\"r\">", "<page id=\"s\">", "<page id=\"q\">",
          "</net>"] := by
  have hd : (run branchedRun).Reachable Edit.IsPlain := ⟨branchedRun, uses_branchedRun, rfl⟩
  have hnets : (run branchedRun).nets = [branchedNet] := rfl
  have hn : branchedNet ∈ (run branchedRun).nets := by
    rw [hnets]
    exact List.mem_singleton_self _
  have hpages : (run branchedRun).pagesOf branchedNet = [⟨"p"⟩, ⟨"r"⟩, ⟨"s"⟩, ⟨"q"⟩] := by
    decide +kernel
  have hwalks := walks_of_reachable hd hn
  refine ⟨hd, hn, ?_, ?_, ?_⟩
  · rw [hwalks.ends {} 5 (by rw [hpages]; decide)]
    decide +kernel
  · rw [hwalks.ends _ 5 (by rw [hpages]; decide)]
    decide +kernel
  · rw [hwalks.written, hnets, List.flatMap_singleton, Pnml.netLines, hpages]
    decide +kernel

end Document

end PagedNets
