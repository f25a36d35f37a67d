import PagedNets.Pnml.Reader
import PagedNets.Proofs.Document.FullCopy

set_option autoImplicit false

namespace PagedNets

theorem idxOf_le_iff_of_split {α : Type} [DecidableEq α] {before after : List α} {a b : α}
    (hnodup : (before ++ a :: after).Nodup) :
    (before ++ a :: after).idxOf b ≤ (before ++ a :: after).idxOf a ↔ b ∈ before ++ [a] := by
  have ha : a ∉ before := fun hm =>
    (List.nodup_append.mp hnodup).2.2 a hm a List.mem_cons_self rfl
  have hhere : (before ++ a :: after).idxOf a = before.length := by
    rw [List.idxOf_append_of_notMem ha, List.idxOf_cons_self]
    rfl
  have hlength : (before ++ [a]).length = before.length + 1 := by simp
  rw [hhere, List.append_cons]
  by_cases hb : b ∈ before ++ [a]
  · have hlt := List.idxOf_lt_length_of_mem hb
    rw [List.idxOf_append_of_mem hb]
    simp only [hb, iff_true]
    omega
  · rw [List.idxOf_append_of_notMem hb]
    simp only [hb, iff_false]
    omega

/-- No node refers to a node of a later net. -/
def Document.Backward (d : Document) : Prop :=
  ∀ i r, d.RefersTo i r → ∀ m n, d.netOf? i = some m → d.netOf? r = some n →
    (d.nets.map (·.id)).idxOf n ≤ (d.nets.map (·.id)).idxOf m

theorem Document.backward_iff (d : Document) : d.Backward ↔
    ∀ i ∈ d.keys, ∀ r ∈ d.refersTo? i, ∀ m ∈ d.netOf? i, ∀ n ∈ d.netOf? r,
      (d.nets.map (·.id)).idxOf n ≤ (d.nets.map (·.id)).idxOf m := by
  constructor
  · exact fun h i _ r hr m hm n hn => h i r hr m n hm hn
  · intro h i r hr m n hm hn
    obtain ⟨o, ho, _⟩ := Option.bind_eq_some_iff.mp hr
    exact h i (mem_keys_of_object? ho) r hr m hm n hn

instance (d : Document) : Decidable d.Backward := decidable_of_iff _ d.backward_iff.symm

def Document.Ahead (d : Document) (i r : ObjectId) : Prop :=
  ∃ m n, d.netOf? i = some m ∧ d.netOf? r = some n ∧
    (d.nets.map (·.id)).idxOf m < (d.nets.map (·.id)).idxOf n

theorem Document.backward_iff_not_ahead (d : Document) :
    d.Backward ↔ ∀ i r, d.RefersTo i r → ¬ d.Ahead i r := by
  constructor
  · rintro h i r hir ⟨m, n, hm, hn, hlt⟩
    exact Nat.not_lt.mpr (h i r hir m n hm hn) hlt
  · intro h i r hir m n hm hn
    by_contra hle
    exact h i r hir ⟨m, n, hm, hn, Nat.lt_of_not_le hle⟩

namespace Pnml

open Document (arrival)

structure Performs (d : Document) (steps : List Step) (nets : List ObjectId) (e : Document) :
    Prop where
  document : ∀ rest, (perform d (steps ++ rest)).document = (perform e rest).document
  result : ∀ rest, (perform d (steps ++ rest)).result = (perform e rest).result.map (nets ++ ·)

namespace Performs

variable {d e f : Document} {first second : List Step} {nets more : List ObjectId}

theorem result_nil (r : Except ReadError (List ObjectId)) : r.map ([] ++ ·) = r := by
  cases r <;> rfl

theorem nil : Performs d [] [] d := ⟨fun _ => rfl, fun _ => (result_nil _).symm⟩

theorem edit {change : Edit} (h : d.edit change = .ok e) : Performs d [.edit change] [] e := by
  constructor <;> intro rest
  · simp only [List.singleton_append, perform, h]
  · simp only [List.singleton_append, perform, h, result_nil]

theorem finished {n : ObjectId} {format : NetFormat} :
    Performs d [.finished n format] [n] d :=
  ⟨fun _ => rfl, fun _ => rfl⟩

theorem append (h : Performs d first nets e) (hm : Performs e second more f) :
    Performs d (first ++ second) (nets ++ more) f := by
  constructor <;> intro rest
  · rw [List.append_assoc, h.document, hm.document]
  · rw [List.append_assoc, h.result, hm.result]
    cases (perform f rest).result with
    | error cause => rfl
    | ok ids => simp [Except.map]

theorem perform_eq (h : Performs d first nets e) :
    (perform d first).document = e ∧ (perform d first).result = .ok nets := by
  have hdocument := h.document []
  have hresult := h.result []
  rw [List.append_nil] at hdocument hresult
  rw [hdocument, hresult]
  exact ⟨rfl, congrArg Except.ok (List.append_nil nets)⟩

end Performs

def arrivals (d : Document) (keys : List ObjectId) : List Step :=
  keys.filterMap fun i => (d.object? i).map fun o => .edit (arrival o)

def links (d : Document) (keys : List ObjectId) : List Step :=
  keys.filterMap fun i => (d.refersTo? i).map fun r => .edit (.setReference i (some r))

def netScript (d : Document) (n : Net) : List Step :=
  arrivals d (d.netWalk n) ++ links d (d.netWalk n) ++ [.finished n.id n.format]

variable {d e : Document} {present keys : List ObjectId}

theorem exists_arrivals (hd : d.Reachable Edit.IsPlain) (hfin : d.Finite)
    (h : d.Copies e present) (hnodup : (present ++ keys).Nodup) (hkeys : ∀ i ∈ keys, i ∈ d.keys)
    (hready : d.Ready present keys) :
    ∃ f, Performs e (arrivals d keys) [] f ∧ d.Copies f (present ++ keys) ∧
      ∀ k ∉ keys, f.refersTo? k = e.refersTo? k := by
  induction keys generalizing e present with
  | nil => exact ⟨e, .nil, by rwa [List.append_nil], fun _ _ => rfl⟩
  | cons i keys ih =>
    obtain ⟨o, ho⟩ := (d.mem_keys_iff i).mp (hkeys i List.mem_cons_self)
    have hi : i ∉ present := by
      intro hi
      exact (List.nodup_append.mp hnodup).2.2 i hi i List.mem_cons_self rfl
    obtain ⟨next, hnext, hcopies, hrefers⟩ := h.arrive hd hfin hi ho hready.1
    have hsplit : present ++ i :: keys = present ++ [i] ++ keys := by simp
    rw [hsplit] at hnodup ⊢
    obtain ⟨f, hperforms, hf, hrest⟩ := ih hcopies hnodup
      (fun j hj => hkeys j (List.mem_cons_of_mem _ hj)) hready.2
    refine ⟨f, ?_, hf, fun k hk => ?_⟩
    · have hsteps : arrivals d (i :: keys) = [.edit (arrival o)] ++ arrivals d keys := by
        simp [arrivals, ho]
      rw [hsteps]
      exact (Performs.edit hnext).append hperforms
    · rw [hrest k fun hm => hk (List.mem_cons_of_mem _ hm),
        hrefers k fun he => hk (he ▸ List.mem_cons_self)]

theorem exists_links (hd : d.Reachable Edit.IsPlain) (h : d.Copies e present)
    (hkeys : ∀ i ∈ keys, ∀ r, d.RefersTo i r → i ∈ present ∧ r ∈ present) :
    ∃ f, Performs e (links d keys) [] f ∧ d.Copies f present ∧
      (∀ k ∈ keys, f.refersTo? k = d.refersTo? k) ∧
      ∀ k ∉ keys, f.refersTo? k = e.refersTo? k := by
  induction keys generalizing e with
  | nil => exact ⟨e, .nil, h, fun k hk => (by cases hk), fun _ _ => rfl⟩
  | cons i keys ih =>
    have hlater : ∀ j ∈ keys, ∀ r, d.RefersTo j r → j ∈ present ∧ r ∈ present :=
      fun j hj => hkeys j (List.mem_cons_of_mem _ hj)
    -- After the first step the link of `i` is the one of the document, and it stays.
    have hstep : ∃ next, Performs e (links d [i]) [] next ∧ d.Copies next present ∧
        next.refersTo? i = d.refersTo? i ∧ ∀ k, k ≠ i → next.refersTo? k = e.refersTo? k := by
      cases hr : d.refersTo? i with
      | none =>
        refine ⟨e, ?_, h, ?_, fun _ _ => rfl⟩
        · simp only [links, List.filterMap_cons, hr, Option.map_none, List.filterMap_nil]
          exact .nil
        · cases he : e.refersTo? i with
          | none => rfl
          | some r =>
            have hdr : d.refersTo? i = some r := h.refers i r he
            rw [hr] at hdr
            cases hdr
      | some r =>
        obtain ⟨hi, hrp⟩ := hkeys i List.mem_cons_self r hr
        obtain ⟨next, hnext, hcopies, hlink, hothers⟩ := h.link hd hr hi hrp
        refine ⟨next, ?_, hcopies, hlink, hothers⟩
        simp only [links, List.filterMap_cons, hr, Option.map_some, List.filterMap_nil]
        exact .edit hnext
    obtain ⟨next, hfirst, hcopies, hlink, hothers⟩ := hstep
    obtain ⟨f, hperforms, hf, hlinked, hrest⟩ := ih hcopies hlater
    refine ⟨f, ?_, hf, fun k hk => ?_, fun k hk => ?_⟩
    · have hsplit : links d (i :: keys) = links d [i] ++ links d keys := by
        rw [links, ← List.singleton_append, List.filterMap_append]
        rfl
      rw [hsplit]
      exact hfirst.append hperforms
    · by_cases hm : k ∈ keys
      · exact hlinked k hm
      · have hki : k = i := by simpa [hm] using hk
        rw [hrest k hm, hki, hlink]
    · rw [hrest k fun hm => hk (List.mem_cons_of_mem _ hm),
        hothers k fun he => hk (he ▸ List.mem_cons_self)]

section

variable (hd : d.Reachable Edit.IsPlain)
include hd

theorem netOf?_eq_of_mem {n : Net} {i : ObjectId} (hn : n ∈ d.nets) (hi : i ∈ d.netWalk n) :
    d.netOf? i = some n.id := by
  have hc := Document.contained_of_tabled hd.registered hd.tabled
  have hnet := (Document.mem_nets hd.registered).mp hn
  have hni := (hc.mem_netWalk hnet).mp hi
  have hkey : i ∈ d.keys := by
    rw [← hd.mem_preorder]
    exact (Document.sublist_preorder hn).subset hi
  obtain ⟨o, ho⟩ := (d.mem_keys_iff i).mp hkey
  obtain ⟨m, hm, _, _, hone, _⟩ := hc.rooted i o ho
  rw [hm, hone n.id n hnet hni]

/-- What a node refers to stands in its own net or in an earlier one, unless it is ahead. -/
theorem mem_iff_not_ahead {before after : List Net} {n : Net} {i r : ObjectId}
    (hnets : d.nets = before ++ n :: after) (hi : i ∈ d.netWalk n) (hir : d.RefersTo i r) :
    r ∈ (before ++ [n]).flatMap d.netWalk ↔ ¬ d.Ahead i r := by
  have hr := hd.registered
  have hc := Document.contained_of_tabled hr hd.tabled
  have hmem : ∀ other ∈ before ++ [n], other ∈ d.nets := by
    intro other hother
    rw [hnets, List.append_cons]
    exact List.mem_append_left _ hother
  obtain ⟨k, -, hkr⟩ := hd.aliased.sameKind i r hir
  obtain ⟨o, ho, -⟩ := Option.map_eq_some_iff.mp hkr
  obtain ⟨m, hm, ⟨net, hnet⟩, hmr, -⟩ := hc.rooted r o ho
  have hid : net.id = m := hr.id_of_object? (Document.net?_eq_some_iff.mp hnet)
  subst hid
  have hahead : d.Ahead i r ↔
      (d.nets.map (·.id)).idxOf n.id < (d.nets.map (·.id)).idxOf net.id := by
    simp [Document.Ahead, netOf?_eq_of_mem hd (hmem n (by simp)) hi, hm]
  have hwalk : r ∈ (before ++ [n]).flatMap d.netWalk ↔ net.id ∈ before.map (·.id) ++ [n.id] := by
    constructor
    · intro h
      obtain ⟨other, hother, hro⟩ := List.mem_flatMap.mp h
      have hsame : some net.id = some other.id :=
        hm.symm.trans (netOf?_eq_of_mem hd (hmem other hother) hro)
      rw [Option.some.inj hsame, ← List.map_singleton, ← List.map_append]
      exact List.mem_map_of_mem hother
    · intro h
      obtain ⟨other, hother, hid⟩ : ∃ other ∈ before ++ [n], other.id = net.id := by
        rw [← List.mem_map]
        simpa using h
      have hfound := (Document.mem_nets hr).mp (hmem other hother)
      rw [hid, hnet] at hfound
      cases hfound
      exact List.mem_flatMap.mpr ⟨net, hother, (hc.mem_netWalk hnet).mpr hmr⟩
  have hids := Document.nodup_nets hr
  rw [hnets, List.map_append, List.map_cons] at hids
  rw [hahead, hwalk, Nat.not_lt, hnets, List.map_append, List.map_cons,
    idxOf_le_iff_of_split hids]

theorem exists_netArrivals (hfin : d.Finite) {before after : List Net} {n : Net}
    (hnets : d.nets = before ++ n :: after) (h : d.Copies e (before.flatMap d.netWalk)) :
    ∃ f, Performs e (arrivals d (d.netWalk n)) [] f ∧
      d.Copies f ((before ++ [n]).flatMap d.netWalk) ∧
      ∀ k ∉ d.netWalk n, f.refersTo? k = e.refersTo? k := by
  have hn : n ∈ d.nets := by simp [hnets]
  have hnet := (Document.mem_nets hd.registered).mp hn
  have hwhole : (before ++ [n]).flatMap d.netWalk = before.flatMap d.netWalk ++ d.netWalk n := by
    simp
  have hnodup : (before.flatMap d.netWalk ++ d.netWalk n).Nodup := by
    refine List.Sublist.nodup ?_ hd.nodup_preorder
    have hsplit : d.preorder = (before ++ [n]).flatMap d.netWalk ++ after.flatMap d.netWalk := by
      simp [Document.preorder, hnets]
    rw [← hwhole, hsplit]
    exact List.sublist_append_left _ _
  have hkeys : ∀ i ∈ d.netWalk n, i ∈ d.keys := by
    intro i hi
    rw [← hd.mem_preorder]
    exact (Document.sublist_preorder hn).subset hi
  rw [hwhole]
  exact exists_arrivals hd hfin h hnodup hkeys (hd.ready_netWalk hnet _)

theorem exists_netScript (hfin : d.Finite) {before after : List Net} {n : Net}
    (hnets : d.nets = before ++ n :: after)
    (hb : ∀ i ∈ d.netWalk n, ∀ r, d.RefersTo i r → ¬ d.Ahead i r)
    (h : d.Copies e (before.flatMap d.netWalk))
    (hlinks : ∀ k ∈ before.flatMap d.netWalk, e.refersTo? k = d.refersTo? k) :
    ∃ f, Performs e (netScript d n) [n.id] f ∧ d.Copies f ((before ++ [n]).flatMap d.netWalk) ∧
      ∀ k ∈ (before ++ [n]).flatMap d.netWalk, f.refersTo? k = d.refersTo? k := by
  have hwhole : (before ++ [n]).flatMap d.netWalk = before.flatMap d.netWalk ++ d.netWalk n := by
    simp
  obtain ⟨full, harrivals, hfull, hsame⟩ := exists_netArrivals hd hfin hnets h
  obtain ⟨f, hperforms, hf, hlinked, hrest⟩ := exists_links hd hfull
    fun i (hi : i ∈ d.netWalk n) r hir => ⟨hwhole ▸ List.mem_append_right _ hi,
      (mem_iff_not_ahead hd hnets hi hir).mpr (hb i hi r hir)⟩
  refine ⟨f, (harrivals.append hperforms).append .finished, hf, fun k hk => ?_⟩
  by_cases hm : k ∈ d.netWalk n
  · exact hlinked k hm
  · rw [hwhole, List.mem_append] at hk
    rw [hrest k hm, hsame k hm, hlinks k (hk.resolve_right hm)]

/-- Nets one after the other are rebuilt as long as nothing refers to a later one. -/
theorem exists_netScripts (hfin : d.Finite) {before here after : List Net}
    (hnets : d.nets = before ++ here ++ after)
    (hb : ∀ n ∈ here, ∀ i ∈ d.netWalk n, ∀ r, d.RefersTo i r → ¬ d.Ahead i r)
    (h : d.Copies e (before.flatMap d.netWalk))
    (hlinks : ∀ k ∈ before.flatMap d.netWalk, e.refersTo? k = d.refersTo? k) :
    ∃ f, Performs e (here.flatMap (netScript d)) (here.map (·.id)) f ∧
      d.Copies f ((before ++ here).flatMap d.netWalk) ∧
      ∀ k ∈ (before ++ here).flatMap d.netWalk, f.refersTo? k = d.refersTo? k := by
  induction here generalizing e before with
  | nil => exact ⟨e, .nil, by rwa [List.append_nil], by rwa [List.append_nil]⟩
  | cons n here ih =>
    obtain ⟨hn, hrest⟩ := List.forall_mem_cons.mp hb
    have hsplit : before ++ n :: here = before ++ [n] ++ here := by simp
    rw [hsplit] at hnets ⊢
    have hfront : d.nets = before ++ n :: (here ++ after) := by simp [hnets]
    obtain ⟨next, hfirst, hnext, hnextLinks⟩ := exists_netScript hd hfin hfront hn h hlinks
    obtain ⟨f, hperforms, hf, hflinks⟩ := ih hnets hrest hnext hnextLinks
    exact ⟨f, hfirst.append hperforms, hf, hflinks⟩

end

theorem copies_empty (d : Document) : d.Copies {} [] := by
  refine ⟨⟨[], fun a ha => (by cases ha), rfl⟩, rfl, fun i x hx => ?_, fun i j hij => ?_⟩
  · cases hx
  · cases hij

theorem replayed (hd : d.Reachable Edit.IsPlain) (hfin : d.Finite) (hb : d.Backward) :
    ∃ f, Performs {} (d.nets.flatMap (netScript d)) (d.nets.map (·.id)) f ∧
      d.Copies f d.preorder ∧ ∀ i, f.refersTo? i = d.refersTo? i := by
  have hnets : d.nets = [] ++ d.nets ++ [] := by simp
  obtain ⟨f, hperforms, hf, hlinks⟩ := exists_netScripts hd hfin hnets
    (fun _ _ i _ r hir => d.backward_iff_not_ahead.mp hb i r hir) (copies_empty d)
    (fun k hk => (by cases hk))
  refine ⟨f, hperforms, hf, fun i => ?_⟩
  by_cases hi : i ∈ d.preorder
  · exact hlinks i hi
  · have hnone : d.object? i = none := by
      by_contra hne
      obtain ⟨o, ho⟩ := Option.ne_none_iff_exists'.mp hne
      exact hi (hd.mem_preorder.mpr (Document.mem_keys_of_object? ho))
    rw [Document.refersTo?, Document.refersTo?, hnone, hf.object?_eq_none hi]

end Pnml

end PagedNets
