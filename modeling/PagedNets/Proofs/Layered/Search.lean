import Mathlib.Data.List.Nodup
import Mathlib.Logic.Relation
import PagedNets.Layered.Search

/-!
What a depth-first search finds. The open vertices, the outermost first, and behind them the
finished ones, the latest first, stand in one order, and a search only adds to it. A back edge leads
to a vertex further ahead, every other edge to one further behind. So the finished vertices are in
topological order once the back edges are turned round.
-/

set_option autoImplicit false

namespace PagedNets.Layered

def Ahead (order : List Nat) (v w : Nat) : Prop := [v, w].Sublist order

namespace Ahead

variable {order more : List Nat} {u v w : Nat}

theorem mono (h : Ahead order v w) (hm : order.Sublist more) : Ahead more v w := h.trans hm

theorem ne (hn : order.Nodup) (h : Ahead order v w) : v ≠ w := by
  have hpair := h.nodup hn
  simpa using hpair

theorem of_append {before after : List Nat} (hv : v ∈ before) (hw : w ∈ after) :
    Ahead (before ++ after) v w :=
  List.Sublist.append (List.singleton_sublist.mpr hv) (List.singleton_sublist.mpr hw)

theorem mem_right (h : Ahead order v w) : w ∈ order := h.subset (by simp)

theorem cons_iff {a : Nat} :
    Ahead (a :: order) v w ↔ Ahead order v w ∨ v = a ∧ w ∈ order := by
  rw [Ahead, List.sublist_cons_iff]
  refine or_congr_right ⟨?_, ?_⟩
  · rintro ⟨rest, heq, hrest⟩
    obtain ⟨rfl, rfl⟩ := List.cons.inj heq
    exact ⟨rfl, List.singleton_sublist.mp hrest⟩
  · rintro ⟨rfl, hw⟩
    exact ⟨[w], rfl, List.singleton_sublist.mpr hw⟩

theorem trans (hn : order.Nodup) (h : Ahead order u v) (hvw : Ahead order v w) :
    Ahead order u w := by
  induction order with
  | nil => cases h
  | cons a order ih =>
    obtain ⟨ha, hn⟩ := List.nodup_cons.mp hn
    rcases cons_iff.mp hvw with hbehind | ⟨hv, -⟩
    · rcases cons_iff.mp h with huv | ⟨hu, -⟩
      · exact cons_iff.mpr (.inl (ih hn huv hbehind))
      · exact cons_iff.mpr (.inr ⟨hu, hbehind.mem_right⟩)
    · -- The middle vertex is the first one, so nothing stands before it.
      rw [hv] at h
      rcases cons_iff.mp h with huv | ⟨-, hmem⟩
      · exact absurd huv.mem_right ha
      · exact absurd hmem ha

theorem acyclic (hn : order.Nodup) {R : Nat → Nat → Prop} (hR : ∀ v w, R v w → Ahead order v w)
    (v : Nat) : ¬ Relation.TransGen R v v := by
  have hahead : ∀ w, Relation.TransGen R v w → Ahead order v w := by
    intro w hw
    induction hw with
    | single h => exact hR _ _ h
    | tail _ h ih => exact ih.trans hn (hR _ _ h)
  exact fun hv => (hahead v hv).ne hn rfl

end Ahead

namespace Search

/-- The vertices that were discovered, those that finish later before the others. -/
def order (path : List Nat) (s : Search) : List Nat := path.reverse ++ s.finished

def Leads (next : Nat → List Nat) (v w : Nat) : Prop := w ∈ next v

/-- What holds of a search while the vertices of `path` are open. -/
structure Sound (next : Nat → List Nat) (path : List Nat) (s : Search) : Prop where
  distinct : (s.order path).Nodup
  forward : ∀ v ∈ s.finished, ∀ w ∈ next v, (v, w) ∈ s.back ∨ Ahead (s.order path) v w
  backward : ∀ e ∈ s.back, e.2 ∈ next e.1 ∧ Ahead (s.order path) e.2 e.1 ∧
    Relation.ReflTransGen (Leads next) e.2 e.1

structure Grows (s t : Search) : Prop where
  finished : s.finished ⊆ t.finished
  back : s.back ⊆ t.back

variable {next : Nat → List Nat} {path : List Nat} {s t u : Search} {v w n : Nat}

theorem Grows.refl (s : Search) : s.Grows s := ⟨fun _ h => h, fun _ h => h⟩

theorem Grows.trans (h : s.Grows t) (hu : t.Grows u) : s.Grows u :=
  ⟨List.Subset.trans h.finished hu.finished, List.Subset.trans h.back hu.back⟩

theorem Sound.empty : Sound next [] {} := by
  refine ⟨List.nodup_nil, fun v hv => ?_, fun e he => ?_⟩
  · cases hv
  · cases he

theorem order_cons (v : Nat) (path : List Nat) (s : Search) :
    s.order (v :: path) = path.reverse ++ v :: s.finished := by
  simp [order]

namespace Sound

theorem opened (h : s.Sound next path) (hv : v ∉ s.order path) : s.Sound next (v :: path) := by
  have hsub : (s.order path).Sublist (s.order (v :: path)) := by
    rw [order_cons, order]
    exact List.Sublist.append (.refl _) (.cons v (.refl _))
  constructor
  · rw [order_cons]
    exact List.nodup_middle.mpr (List.nodup_cons.mpr ⟨hv, h.distinct⟩)
  · intro a ha b hb
    exact (h.forward a ha b hb).imp_right (Ahead.mono · hsub)
  · intro e he
    obtain ⟨hedge, hahead, hreach⟩ := h.backward e he
    exact ⟨hedge, hahead.mono hsub, hreach⟩

/-- An edge leads from the innermost open vertex to one of those around it. -/
theorem met (h : s.Sound next (v :: path)) (hvw : w ∈ next v) (hw : w ∈ path)
    (hreach : Relation.ReflTransGen (Leads next) w v) :
    Sound next (v :: path) { s with back := (v, w) :: s.back } := by
  have horder : Search.order (v :: path) { s with back := (v, w) :: s.back } =
      s.order (v :: path) := rfl
  constructor
  · exact h.distinct
  · intro a ha b hb
    exact (h.forward a ha b hb).imp_left (List.mem_cons_of_mem _)
  · intro e he
    rcases List.mem_cons.mp he with rfl | he
    · refine ⟨hvw, ?_, hreach⟩
      rw [horder, order_cons]
      exact Ahead.of_append (List.mem_reverse.mpr hw) List.mem_cons_self
    · exact h.backward e he

/-- The innermost open vertex is finished: all its edges have been looked at. -/
theorem closed (h : s.Sound next (v :: path))
    (hv : ∀ w ∈ next v, (v, w) ∈ s.back ∨ w ∈ s.finished) :
    Sound next path { s with finished := v :: s.finished } := by
  have horder : Search.order path { s with finished := v :: s.finished } =
      s.order (v :: path) := (order_cons v path s).symm
  constructor
  · rw [horder]
    exact h.distinct
  · intro a ha b hb
    rw [horder]
    rcases List.mem_cons.mp ha with rfl | ha
    · refine (hv b hb).imp_right fun hb => ?_
      have hpair : Ahead ([a] ++ s.finished) a b :=
        Ahead.of_append (List.mem_singleton_self a) hb
      rw [order_cons]
      exact hpair.mono (List.sublist_append_right _ _)
    · exact h.forward a ha b hb
  · intro e he
    rw [horder]
    exact h.backward e he

end Sound

/-- The search `t` has looked at some edges of `v`, which it opened in the state `s`. -/
structure Visits (next : Nat → List Nat) (path : List Nat) (v : Nat) (s t : Search)
    (seen : List Nat) : Prop where
  sound : t.Sound next (v :: path)
  grows : s.Grows t
  seen : ∀ w ∈ seen, (v, w) ∈ t.back ∨ w ∈ t.finished

theorem Visits.snoc {seen : List Nat} (h : Visits next path v s t seen)
    (hu : u.Sound next (v :: path)) (hg : t.Grows u) (hw : (v, w) ∈ u.back ∨ w ∈ u.finished) :
    Visits next path v s u (seen ++ [w]) := by
  refine ⟨hu, h.grows.trans hg, fun x hx => ?_⟩
  rcases List.mem_append.mp hx with hx | hx
  · exact (h.seen x hx).imp (hg.back ·) (hg.finished ·)
  · rw [List.mem_singleton.mp hx]
    exact hw

/-- What a visit needs: the vertex is new, and the open vertices lead to it. -/
structure Enters (next : Nat → List Nat) (n : Nat) (path : List Nat) (v : Nat) (s : Search) :
    Prop where
  sound : s.Sound next path
  fresh : v ∉ s.order path
  bounded : ∀ u ∈ v :: path, u < n
  reaches : ∀ u ∈ path, Relation.ReflTransGen (Leads next) u v

/-- The open vertices are distinct, so there are at most as many as there are vertices. -/
theorem Enters.length_lt (h : Enters next n path v s) : path.length < n := by
  have hnodup := (h.sound.opened h.fresh).distinct
  rw [order_cons] at hnodup
  have hpath : (v :: path).Nodup := by
    have hfront := hnodup.sublist
      (List.Sublist.append (.refl path.reverse) (List.Sublist.cons_cons v (List.nil_sublist _)))
    rw [List.nodup_middle, List.append_nil, List.nodup_cons, List.nodup_reverse,
      List.mem_reverse] at hfront
    exact List.nodup_cons.mpr hfront
  have hle := hpath.length_le_of_subset fun u hu => List.mem_range.mpr (h.bounded u hu)
  rw [List.length_cons, List.length_range] at hle
  exact hle

theorem Enters.deeper (h : Enters next n path v s) (hvw : w ∈ next v) (hw : w < n)
    (ht : t.Sound next (v :: path)) (hf : w ∉ t.finished) (hp : w ∉ v :: path) :
    Enters next n (v :: path) w t := by
  refine ⟨ht, ?_, ?_, ?_⟩
  · rw [order, List.mem_append, List.mem_reverse]
    exact fun hm => hm.elim hp hf
  · intro u hu
    rcases List.mem_cons.mp hu with rfl | hu
    · exact hw
    · exact h.bounded u hu
  · intro u hu
    rcases List.mem_cons.mp hu with rfl | hu
    · exact .single hvw
    · exact (h.reaches u hu).tail hvw

section

variable (hloop : ∀ v, v ∉ next v) (hn : ∀ v, ∀ w ∈ next v, w < n)
include hloop hn

/-- A visit ends with its vertex finished, in a sound state that has lost nothing. -/
theorem visit_spec {fuel : Nat} (h : Enters next n path v s) (hf : n ≤ fuel + path.length) :
    (visit next fuel path v s).Sound next path ∧ s.Grows (visit next fuel path v s) ∧
      v ∈ (visit next fuel path v s).finished := by
  induction fuel generalizing path v s with
  | zero =>
    have hlt := h.length_lt
    omega
  | succ fuel ih =>
    let look : Search → Nat → Search := fun s w =>
      if s.finished.contains w then s
      else if (v :: path).contains w then { s with back := (v, w) :: s.back }
      else visit next fuel (v :: path) w s
    -- By induction on the edges of the vertex that are still to be looked at.
    have hall : ∀ (rest seen : List Nat) (t : Search), (∀ w ∈ rest, w ∈ next v) →
        Visits next path v s t seen →
        Visits next path v s (rest.foldl look t) (seen ++ rest) := by
      intro rest
      induction rest with
      | nil => exact fun seen t _ ht => by simpa using ht
      | cons w rest ihrest =>
        intro seen t hrest ht
        have hvw := hrest w List.mem_cons_self
        have hstep : Visits next path v s (look t w) (seen ++ [w]) := by
          by_cases hfin : w ∈ t.finished
          · have hlook : look t w = t := by simp [look, hfin]
            rw [hlook]
            exact ht.snoc ht.sound (.refl t) (.inr hfin)
          by_cases hpath : w ∈ v :: path
          · have hlook : look t w = { t with back := (v, w) :: t.back } := by
              simp only [look, List.contains_iff_mem, if_neg hfin, if_pos hpath]
            have hwp : w ∈ path := by
              rcases List.mem_cons.mp hpath with rfl | hwp
              · exact absurd hvw (hloop w)
              · exact hwp
            rw [hlook]
            exact ht.snoc (ht.sound.met hvw hwp (h.reaches w hwp))
              ⟨fun _ hx => hx, fun _ hx => List.mem_cons_of_mem _ hx⟩ (.inl List.mem_cons_self)
          · have hlook : look t w = visit next fuel (v :: path) w t := by
              simp only [look, List.contains_iff_mem, if_neg hfin, if_neg hpath]
            obtain ⟨hsound, hgrows, hdone⟩ := ih
              (h.deeper hvw (hn v w hvw) ht.sound hfin hpath) (by simp; omega)
            rw [hlook]
            exact ht.snoc hsound hgrows (.inr hdone)
        have hmore := ihrest (seen ++ [w]) (look t w)
          (fun x hx => hrest x (List.mem_cons_of_mem _ hx)) hstep
        simpa using hmore
    have hdone := hall (next v) [] s (fun _ hw => hw)
      ⟨h.sound.opened h.fresh, .refl s, fun w hw => (by cases hw)⟩
    rw [List.nil_append] at hdone
    have hvisit : visit next (fuel + 1) path v s =
        { (next v).foldl look s with finished := v :: ((next v).foldl look s).finished } := rfl
    rw [hvisit]
    refine ⟨hdone.sound.closed hdone.seen, ⟨?_, hdone.grows.back⟩, List.mem_cons_self⟩
    exact fun x hx => List.mem_cons_of_mem _ (hdone.grows.finished hx)

theorem search_spec : (search n next).Sound next [] ∧ ∀ v < n, v ∈ (search n next).finished := by
  let start : Search → Nat → Search := fun s v =>
    if s.finished.contains v then s else visit next n [] v s
  have hall : ∀ (rest : List Nat) (s : Search), (∀ v ∈ rest, v < n) → s.Sound next [] →
      (rest.foldl start s).Sound next [] ∧ s.Grows (rest.foldl start s) ∧
        ∀ v ∈ rest, v ∈ (rest.foldl start s).finished := by
    intro rest
    induction rest with
    | nil => exact fun s _ hs => ⟨hs, .refl s, fun v hv => (by cases hv)⟩
    | cons v rest ih =>
      intro s hrest hs
      have hstep : (start s v).Sound next [] ∧ s.Grows (start s v) ∧
          v ∈ (start s v).finished := by
        by_cases hv : v ∈ s.finished
        · have hstart : start s v = s := by simp [start, hv]
          rw [hstart]
          exact ⟨hs, .refl s, hv⟩
        · have hstart : start s v = visit next n [] v s := by simp [start, hv]
          rw [hstart]
          refine visit_spec hloop hn ⟨hs, ?_, ?_, fun u hu => (by cases hu)⟩ (by simp)
          · simpa [order] using hv
          · intro u hu
            rw [List.mem_singleton.mp hu]
            exact hrest v List.mem_cons_self
      obtain ⟨hsound, hgrows, hfin⟩ := hstep
      obtain ⟨hend, hmore, hothers⟩ := ih (start s v)
        (fun x hx => hrest x (List.mem_cons_of_mem _ hx)) hsound
      refine ⟨hend, hgrows.trans hmore, fun x hx => ?_⟩
      rcases List.mem_cons.mp hx with rfl | hx
      · exact hmore.finished hfin
      · exact hothers x hx
  obtain ⟨hsound, _, hfinished⟩ := hall (List.range n) {} (fun v hv => List.mem_range.mp hv) .empty
  exact ⟨hsound, fun v hv => hfinished v (List.mem_range.mpr hv)⟩

end

end Search

structure Searched (edges : List Pair) (s : Search) : Prop where
  distinct : s.finished.Nodup
  forward : ∀ e ∈ edges, e ∈ s.back ∨ Ahead s.finished e.1 e.2
  backward : ∀ e ∈ s.back, e ∈ edges ∧ Ahead s.finished e.2 e.1 ∧
    Relation.ReflTransGen (fun v w => (v, w) ∈ edges) e.2 e.1

variable {edges : List Pair} {n : Nat}

theorem mem_latestFirst {v w : Nat} : w ∈ latestFirst edges v ↔ (v, w) ∈ edges := by
  simp only [latestFirst, List.mem_map, List.mem_filter, List.mem_reverse, beq_iff_eq]
  constructor
  · rintro ⟨⟨a, b⟩, ⟨he, rfl⟩, rfl⟩
    exact he
  · exact fun he => ⟨(v, w), ⟨he, rfl⟩, rfl⟩

section

variable (h : ∀ e ∈ edges, e.1 < n ∧ e.2 < n ∧ e.1 ≠ e.2)
include h

theorem not_mem_latestFirst_self (v : Nat) : v ∉ latestFirst edges v :=
  fun hv => (h _ (mem_latestFirst.mp hv)).2.2 rfl

theorem lt_of_mem_latestFirst (v w : Nat) (hw : w ∈ latestFirst edges v) : w < n :=
  (h _ (mem_latestFirst.mp hw)).2.1

theorem mem_finished {v : Nat} (hv : v < n) : v ∈ (searchEdges n edges).finished :=
  (Search.search_spec (not_mem_latestFirst_self h) (lt_of_mem_latestFirst h)).2 v hv

theorem searched : Searched edges (searchEdges n edges) := by
  have hleads : Search.Leads (latestFirst edges) = fun v w => (v, w) ∈ edges := by
    funext v w
    exact propext mem_latestFirst
  obtain ⟨hsound, hall⟩ :=
    Search.search_spec (not_mem_latestFirst_self h) (lt_of_mem_latestFirst h)
  constructor
  · exact hsound.distinct
  · exact fun e he => hsound.forward e.1 (hall e.1 (h e he).1) e.2 (mem_latestFirst.mpr he)
  · intro e he
    obtain ⟨hedge, hahead, hreach⟩ := hsound.backward e he
    rw [hleads] at hreach
    exact ⟨mem_latestFirst.mp hedge, hahead, hreach⟩

end

theorem Searched.back_eq_nil_iff {s : Search} (h : Searched edges s) :
    s.back = [] ↔ ∀ v, ¬ Relation.TransGen (fun v w => (v, w) ∈ edges) v v := by
  constructor
  · intro hnil v
    refine Ahead.acyclic h.distinct (fun a b hab => ?_) v
    refine (h.forward (a, b) hab).resolve_left fun hback => ?_
    rw [hnil] at hback
    cases hback
  · intro hacyclic
    rw [List.eq_nil_iff_forall_not_mem]
    intro e he
    obtain ⟨hedge, _, hreach⟩ := h.backward e he
    exact hacyclic e.1 (Relation.TransGen.head' hedge hreach)

end PagedNets.Layered
