import PagedNets.Proofs.Document.Preorder

set_option autoImplicit false

namespace PagedNets.Document

/-- The pages under some keys and the pages nested in them, depth first, as the tables list them. -/
inductive PageOrder (d : Document) : List ObjectId → List ObjectId → Prop
  | nil : PageOrder d [] []
  | page {key : ObjectId} {rest inner later : List ObjectId} {page : Page}
      (found : d.page? key = some page) (nested : PageOrder d page.pages inner)
      (after : PageOrder d rest later) : PageOrder d (key :: rest) (key :: (inner ++ later))

inductive Grown (d : Document) : List ObjectId → List PageTree → Prop
  | nil : Grown d [] []
  | page {key : ObjectId} {rest : List ObjectId} {nested trees : List PageTree} {page : Page}
      (found : d.page? key = some page) (inner : Grown d page.pages nested)
      (after : Grown d rest trees) : Grown d (key :: rest) (.page key page nested :: trees)

def pagesOf (d : Document) (n : Net) : List ObjectId := PageTree.keysOf (d.forest n.pages)

variable {d e : Document} {i key : ObjectId} {keys order : List ObjectId} {fuel : Nat}

namespace PageOrder

theorem append {first second before after : List ObjectId} (h : d.PageOrder first before)
    (hs : d.PageOrder second after) : d.PageOrder (first ++ second) (before ++ after) := by
  induction h with
  | nil => exact hs
  | page found nested _ _ ih =>
    rw [List.cons_append, List.cons_append, List.append_assoc]
    exact .page found nested ih

theorem eq_nil (h : d.PageOrder keys []) : keys = [] := by
  cases h
  rfl

theorem of_cons (h : d.PageOrder keys (key :: order)) : ∃ page rest, keys = key :: rest ∧
    d.page? key = some page ∧ d.PageOrder (page.pages ++ rest) order := by
  cases h with
  | page found nested after => exact ⟨_, _, rfl, found, nested.append after⟩

theorem congr (h : d.PageOrder keys order) (he : ∀ i, e.page? i = d.page? i) :
    e.PageOrder keys order := by
  induction h with
  | nil => exact .nil
  | page found _ _ inner after => exact .page ((he _).trans found) inner after

theorem unique {other : List ObjectId} (h : d.PageOrder keys order)
    (ho : d.PageOrder keys other) : other = order := by
  induction h generalizing other with
  | nil => cases ho; rfl
  | page found _ _ inner after =>
    cases ho with
    | page found' nested' after' =>
      obtain rfl := Option.some.inj (found.symm.trans found')
      rw [inner nested', after after']

end PageOrder

theorem Grown.pageOrder {trees : List PageTree} (h : d.Grown keys trees) :
    d.PageOrder keys (PageTree.keysOf trees) := by
  induction h with
  | nil => exact .nil
  | page found _ _ inner after =>
    rw [PageTree.keysOf, PageTree.keys, List.cons_append]
    exact .page found inner after

theorem unfold_cons {page : Page} (hp : d.page? key = some page) (fuel : Nat)
    (keys : List ObjectId) : d.unfold (fuel + 1) (key :: keys) =
      .page key page (d.unfold fuel page.pages) :: d.unfold (fuel + 1) keys := by
  rw [unfold, List.map_cons, hp]
  rfl

section

variable (h : d.Contained)
include h

theorem Contained.grown (hf : d.Adequate fuel keys) : d.Grown keys (d.unfold fuel keys) := by
  induction fuel generalizing keys with
  | zero =>
    rw [hf.eq_nil]
    exact .nil
  | succ fuel ih =>
    induction keys with
    | nil => exact .nil
    | cons key keys ihk =>
      obtain ⟨⟨page, hp⟩, hle⟩ := hf key List.mem_cons_self
      rw [unfold_cons hp]
      exact .page hp (ih (h.adequate_page hp (by omega)))
        (ihk fun k hk => hf k (List.mem_cons_of_mem _ hk))

theorem Contained.page?_of_listed {c : ObjectId} {p : Page} (hp : d.page? c = some p)
    (hi : i ∈ p.nodes.keys ∨ i ∈ p.arcs.keys) : d.page? i = none := by
  have hother : ∃ o, d.object? i = some o ∧ o.kind ≠ .page := by
    rcases hi with hi | hi
    · obtain ⟨o, ho, hk, _⟩ := ((h.nodes c p hp).2 i).mp hi
      exact ⟨o, ho, fun he => by rw [he] at hk; cases hk⟩
    · obtain ⟨a, ha, _⟩ := ((h.arcs c p hp).2 i).mp hi
      exact ⟨_, arc?_eq_some_iff.mp ha, by simp [Object.kind]⟩
  obtain ⟨o, ho, hk⟩ := hother
  rw [page?, ho]
  cases o with
  | page q => exact absurd rfl hk
  | _ => rfl

/-- The pages are what remains of the whole walk without nodes and arcs. -/
theorem Contained.keysOf_unfold (hf : d.Adequate fuel keys) :
    PageTree.keysOf (d.unfold fuel keys) =
      (d.walk fuel keys).filter fun i => (d.page? i).isSome := by
  induction fuel generalizing keys with
  | zero =>
    rw [hf.eq_nil]
    rfl
  | succ fuel ih =>
    induction keys with
    | nil => rfl
    | cons key keys ihk =>
      obtain ⟨⟨page, hp⟩, hle⟩ := hf key List.mem_cons_self
      have hrest := ihk fun k hk => hf k (List.mem_cons_of_mem _ hk)
      have hnodes : page.nodes.keys.filter (fun i => (d.page? i).isSome) = [] :=
        List.filter_eq_nil_iff.mpr fun i hi => by simp [h.page?_of_listed hp (.inl hi)]
      have harcs : page.arcs.keys.filter (fun i => (d.page? i).isSome) = [] :=
        List.filter_eq_nil_iff.mpr fun i hi => by simp [h.page?_of_listed hp (.inr hi)]
      rw [unfold_cons hp, PageTree.keysOf, PageTree.keys, hrest,
        ih (h.adequate_page hp (by omega)), walk_succ, walk_succ, List.flatMap_cons, hp,
        List.filter_append, List.filter_cons_of_pos (by simp [hp]), List.filter_append,
        List.filter_append, hnodes, harcs]
      rfl

theorem Contained.pageOrder {n : Net} (hn : d.net? n.id = some n) :
    d.PageOrder n.pages (d.pagesOf n) :=
  (h.grown (h.adequate_net hn)).pageOrder

theorem Contained.nodup_pagesOf {n : Net} (hn : d.net? n.id = some n) : (d.pagesOf n).Nodup := by
  rw [pagesOf, forest, h.keysOf_unfold (h.adequate_net hn)]
  exact (List.nodup_cons.mp (h.nodup_netWalk hn)).2.filter _

theorem Contained.mem_pagesOf {n : Net} (hn : d.net? n.id = some n) :
    i ∈ d.pagesOf n ↔ (∃ page, d.page? i = some page) ∧ d.netOf? i = some n.id := by
  rw [pagesOf, forest, h.keysOf_unfold (h.adequate_net hn), List.mem_filter,
    Option.isSome_iff_exists, and_comm]
  refine and_congr_right fun hi => ?_
  obtain ⟨page, hp⟩ := hi
  have ho := page?_eq_some_iff.mp hp
  obtain ⟨m, hm, -, hmi, hone, -⟩ := h.rooted i _ ho
  have hne : i ≠ n.id := by
    rintro rfl
    rw [net?_eq_some_iff.mp hn] at ho
    cases ho
  have hwalk : i ∈ d.walk (d.size + 1) n.pages ↔ Relation.ReflTransGen d.Holds n.id i := by
    rw [← h.mem_netWalk hn, netWalk, List.mem_cons, or_iff_right hne]
  rw [hwalk, hm, Option.some.injEq]
  constructor
  · exact fun hni => (hone n.id n hn hni).symm
  · rintro rfl
    exact hmi

end

end PagedNets.Document
