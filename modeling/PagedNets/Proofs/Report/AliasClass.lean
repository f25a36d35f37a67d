import PagedNets.Proofs.Document.Linking

/-!
Walks along alias links. Down to the referent a walk follows references; up again it visits every
alias once, so that as many steps as there are links are enough for both.
-/

set_option autoImplicit false

namespace PagedNets.Report

open Document (RefersTo refersTo? Grounded Aliased)

variable {d : Document} {i j : ObjectId}

theorem foldl_add_length (f : ObjectId → List ObjectId) (l : List ObjectId) (n : Nat) :
    l.foldl (fun n i => n + (f i).length) n = n + (l.flatMap f).length := by
  induction l generalizing n with
  | nil => rfl
  | cons i l ih =>
    simp only [List.foldl_cons, ih, List.flatMap_cons, List.length_append]
    omega

theorem linkCount_eq (d : Document) : linkCount d = (d.keys.flatMap (aliasesOf d)).length := by
  unfold linkCount
  rw [foldl_add_length, Nat.zero_add]
  rfl

def linksLeft (d : Document) (seen : List ObjectId) : Nat :=
  ((d.keys.filter fun i => !seen.contains i).flatMap (aliasesOf d)).length

theorem linksLeft_nil (d : Document) : linksLeft d [] = linkCount d := by
  have hall : d.keys.filter (fun i => !([] : List ObjectId).contains i) = d.keys := by simp
  rw [linksLeft, hall, linkCount_eq]

theorem length_flatMap_filter (f : ObjectId → List ObjectId) {l seen : List ObjectId}
    (hl : l.Nodup) (hi : i ∉ seen) :
    ((l.filter fun k => !seen.contains k).flatMap f).length =
      (if i ∈ l then (f i).length else 0) +
        ((l.filter fun k => !(i :: seen).contains k).flatMap f).length := by
  induction l with
  | nil => simp
  | cons k l ih =>
    obtain ⟨hk, hl⟩ := List.nodup_cons.mp hl
    have ih := ih hl
    have hcons : ∀ s : List ObjectId,
        (((k :: l).filter fun x => !s.contains x).flatMap f).length =
          (if k ∈ s then 0 else (f k).length) +
            ((l.filter fun x => !s.contains x).flatMap f).length := by
      intro s
      by_cases hs : k ∈ s
      · rw [List.filter_cons_of_neg (by simp [hs]), if_pos hs, Nat.zero_add]
      · rw [List.filter_cons_of_pos (by simp [hs]), if_neg hs, List.flatMap_cons,
          List.length_append]
    rw [hcons, hcons, ih]
    by_cases hki : k = i
    · subst hki
      rw [if_neg hi, if_neg hk, if_pos List.mem_cons_self, if_pos List.mem_cons_self]
    · have hmem : i ∈ k :: l ↔ i ∈ l := by simp [Ne.symm hki]
      have hseen : k ∈ i :: seen ↔ k ∈ seen := by simp [hki]
      simp only [hmem, hseen]
      omega

theorem linksLeft_cons (hd : d.keys.Nodup) {seen : List ObjectId} (hi : i ∉ seen) :
    linksLeft d seen = (aliasesOf d i).length + linksLeft d (i :: seen) := by
  have h := length_flatMap_filter (aliasesOf d) hd hi
  by_cases hk : i ∈ d.keys
  · rw [if_pos hk] at h
    exact h
  · have hnone : d.object? i = none := by
      rw [← d.contains_eq_false, ← Bool.not_eq_true, Document.contains_iff]
      exact fun ho => hk ((d.mem_keys_iff i).mpr ho)
    rw [if_neg hk] at h
    rw [Document.aliasesOf_of_isNone hnone]
    exact h

structure Spreads (d : Document) (pending seen result : List ObjectId) : Prop where
  keeps : ∀ k ∈ seen, k ∈ result
  takes : ∀ k ∈ pending, k ∈ result
  reached : ∀ k ∈ result, k ∈ seen ∨ ∃ p ∈ pending, Relation.ReflTransGen d.RefersTo k p
  nodup : seen.Nodup → result.Nodup
  closed : (∀ k ∈ seen, ∀ a ∈ aliasesOf d k, a ∈ seen ∨ a ∈ pending) →
    ∀ k ∈ result, ∀ a ∈ aliasesOf d k, a ∈ result

theorem spreads_nil (d : Document) (seen : List ObjectId) : Spreads d [] seen seen where
  keeps := fun _ hk => hk
  takes := fun _ hk => nomatch hk
  reached := fun _ hk => .inl hk
  nodup := id
  closed := fun h k hk a ha => (h k hk a ha).elim id fun hn => nomatch hn

theorem Spreads.skip {pending seen result : List ObjectId} (h : Spreads d pending seen result)
    (hi : i ∈ seen) : Spreads d (i :: pending) seen result where
  keeps := h.keeps
  takes := by
    intro k hk
    rcases List.mem_cons.mp hk with rfl | hk
    · exact h.keeps k hi
    · exact h.takes k hk
  reached := by
    intro k hk
    rcases h.reached k hk with hk | ⟨p, hp, hkp⟩
    · exact .inl hk
    · exact .inr ⟨p, List.mem_cons_of_mem _ hp, hkp⟩
  nodup := h.nodup
  closed := by
    intro hc
    refine h.closed fun k hk a ha => ?_
    rcases hc k hk a ha with ha | ha
    · exact .inl ha
    · rcases List.mem_cons.mp ha with rfl | ha
      · exact .inl hi
      · exact .inr ha

theorem Spreads.visit {pending seen result : List ObjectId} (hd : d.Aliased)
    (h : Spreads d (aliasesOf d i ++ pending) (i :: seen) result) (hi : i ∉ seen) :
    Spreads d (i :: pending) seen result where
  keeps := fun k hk => h.keeps k (List.mem_cons_of_mem _ hk)
  takes := by
    intro k hk
    rcases List.mem_cons.mp hk with rfl | hk
    · exact h.keeps k List.mem_cons_self
    · exact h.takes k (List.mem_append_right _ hk)
  reached := by
    intro k hk
    rcases h.reached k hk with hk | ⟨p, hp, hkp⟩
    · rcases List.mem_cons.mp hk with rfl | hk
      · exact .inr ⟨k, List.mem_cons_self, .refl⟩
      · exact .inl hk
    · rcases List.mem_append.mp hp with hp | hp
      · exact .inr ⟨i, List.mem_cons_self, hkp.tail ((hd.inverse p i).mp hp)⟩
      · exact .inr ⟨p, List.mem_cons_of_mem _ hp, hkp⟩
  nodup := fun hs => h.nodup (List.nodup_cons.mpr ⟨hi, hs⟩)
  closed := by
    intro hc
    refine h.closed fun k hk a ha => ?_
    rcases List.mem_cons.mp hk with rfl | hk
    · exact .inr (List.mem_append_left _ ha)
    · rcases hc k hk a ha with ha | ha
      · exact .inl (List.mem_cons_of_mem _ ha)
      · rcases List.mem_cons.mp ha with rfl | ha
        · exact .inl List.mem_cons_self
        · exact .inr (List.mem_append_right _ ha)

/-- Each step takes one node off the pending ones, and a node is put there once for each link. -/
theorem spread_spec (hd : d.Aliased) (hn : d.keys.Nodup) {fuel : Nat}
    {pending seen : List ObjectId} (hf : pending.length + linksLeft d seen ≤ fuel) :
    Spreads d pending seen (spread d fuel pending seen) := by
  induction fuel generalizing pending seen with
  | zero =>
    have hp : pending = [] := List.length_eq_zero_iff.mp (by omega)
    subst hp
    exact spreads_nil d seen
  | succ fuel ih =>
    cases pending with
    | nil => exact spreads_nil d seen
    | cons i pending =>
      rw [List.length_cons] at hf
      unfold spread
      split
      · next hi => exact (ih (by omega)).skip (List.contains_iff_mem.mp hi)
      · next hi =>
        have hi : i ∉ seen := fun hm => hi (List.contains_iff_mem.mpr hm)
        have hleft := linksLeft_cons hn hi
        refine (ih ?_).visit hd hi
        rw [List.length_append]
        omega

theorem spread_of_le (hn : d.keys.Nodup) {fuel more : Nat} {pending seen : List ObjectId}
    (hf : pending.length + linksLeft d seen ≤ fuel) (hm : fuel ≤ more) :
    spread d more pending seen = spread d fuel pending seen := by
  induction fuel generalizing pending seen more with
  | zero =>
    have hp : pending = [] := List.length_eq_zero_iff.mp (by omega)
    subst hp
    cases more <;> rfl
  | succ fuel ih =>
    obtain ⟨rest, rfl⟩ : ∃ rest, more = rest + 1 := ⟨more - 1, by omega⟩
    cases pending with
    | nil => rfl
    | cons i pending =>
      rw [List.length_cons] at hf
      unfold spread
      split
      · exact ih (by omega) (by omega)
      · next hi =>
        have hi : i ∉ seen := fun hm => hi (List.contains_iff_mem.mpr hm)
        have hleft := linksLeft_cons hn hi
        refine ih ?_ (by omega)
        rw [List.length_append]
        omega

theorem refersTo?_referentOf (hg : d.Grounded) (i : ObjectId) :
    d.refersTo? (referentOf d i) = none :=
  Document.chainEnds hg (Nat.le_refl _) i

theorem reaches_referentOf (d : Document) (i : ObjectId) :
    Relation.ReflTransGen d.RefersTo i (referentOf d i) := by
  refine Document.reaches_of_mem_referenceChain (?_ : _ ∈ d.referenceChain d.size i)
  obtain ⟨rest, hr⟩ := d.referenceChain_eq_cons d.size i
  unfold referentOf Document.referents
  rw [hr, List.getLastD_cons]
  cases rest with
  | nil => exact List.mem_cons_self
  | cons k rest =>
    rw [List.getLastD_eq_getLast?, List.getLast?_eq_some_getLast (List.cons_ne_nil k rest)]
    exact List.mem_cons_of_mem _ (List.getLast_mem _)

theorem referentOf_of_none (hr : d.refersTo? i = none) : referentOf d i = i := by
  rw [referentOf, Document.referents, Document.referenceChain_of_none hr]
  rfl

theorem referentOf_of_refersTo (hg : d.Grounded) (hij : d.RefersTo i j) :
    referentOf d i = referentOf d j := by
  have hmore : d.referents i = d.referenceChain (d.size + 1) i :=
    (Document.referenceChain_of_chainEnds (Document.chainEnds hg (Nat.le_refl _) i)
      (Nat.le_succ _)).symm
  rw [referentOf, hmore, Document.referenceChain_of_some hij, Document.getLastD_referenceChain]
  rfl

theorem referentOf_eq_iff (hg : d.Grounded) {root : ObjectId} (hr : d.refersTo? root = none) :
    referentOf d j = root ↔ Relation.ReflTransGen d.RefersTo j root := by
  constructor
  · rintro rfl
    exact reaches_referentOf d j
  · intro hj
    induction hj using Relation.ReflTransGen.head_induction_on with
    | refl => exact referentOf_of_none hr
    | head hab _ ih => rw [referentOf_of_refersTo hg hab, ih]

theorem length_pending_singleton (d : Document) (i : ObjectId) :
    [i].length + linksLeft d [] ≤ linkCount d + 1 := by
  rw [linksLeft_nil, List.length_singleton]
  omega

/-- The class of a node is made of the nodes whose references lead to the same referent. -/
theorem mem_aliasClass (hd : d.Aliased) (hn : d.keys.Nodup) :
    j ∈ aliasClass d i ↔ referentOf d j = referentOf d i := by
  have hs := spread_spec hd hn (length_pending_singleton d (referentOf d i))
  rw [referentOf_eq_iff hd.grounded (refersTo?_referentOf hd.grounded i)]
  constructor
  · intro hj
    rcases hs.reached j hj with hj | ⟨p, hp, hjp⟩
    · cases hj
    · rwa [List.mem_singleton.mp hp] at hjp
  · intro hj
    have hclosed := hs.closed fun k hk => nomatch hk
    induction hj using Relation.ReflTransGen.head_induction_on with
    | refl => exact hs.takes _ List.mem_cons_self
    | @head a b hab _ ih => exact hclosed b ih a ((hd.inverse a b).mpr hab)

theorem nodup_aliasClass (hd : d.Aliased) (hn : d.keys.Nodup) (i : ObjectId) :
    (aliasClass d i).Nodup :=
  (spread_spec hd hn (length_pending_singleton d (referentOf d i))).nodup List.nodup_nil

theorem referentPlace_of_chainEnds (hd : d.Aliased) {fuel : Nat} {p : Place}
    (hp : d.place? i = some p) (he : d.ChainEnds fuel i) :
    d.place? ((d.referenceChain fuel i).getLastD i) = some (referentPlace d fuel p) := by
  induction fuel generalizing i p with
  | zero => exact hp
  | succ fuel ih =>
    have ho := Document.place?_eq_some_iff.mp hp
    have href : d.refersTo? i = p.node.reference := by
      rw [refersTo?, ho]
      rfl
    cases hr : p.node.reference with
    | none =>
      rw [hr] at href
      rw [Document.referenceChain_of_none href, referentPlace, hr]
      exact hp
    | some r =>
      rw [hr] at href
      obtain ⟨k, hki, hkr⟩ := hd.sameKind i r href
      have hplace : k = .place := by
        rw [Document.kindOf?, ho] at hki
        exact (Option.some.inj hki).symm
      obtain ⟨x, hx, hxk⟩ := Option.map_eq_some_iff.mp hkr
      obtain ⟨q, rfl⟩ := Object.eq_place_of_kind (hxk.trans hplace)
      have hq := Document.place?_eq_some_iff.mpr hx
      rw [Document.chainEnds_succ_iff href] at he
      rw [Document.referenceChain_of_some href, Document.getLastD_referenceChain, referentPlace,
        hr, Option.bind_some, hq]
      exact ih hq he

/-- What holds of the alias links of a document that came about by its own operations. The walks
that follow them, for the check of a new link, for the tokens of an alias and for the class of a
node, are over within their bounds. -/
structure Resolved (d : Document) : Prop where
  inverse : ∀ x y a b, d.node? x = some a → d.node? y = some b →
    (x ∈ b.referencedBy ↔ a.reference = some y)
  registered : ∀ x y b, d.node? y = some b → x ∈ b.referencedBy → ∃ a, d.node? x = some a
  sameKind : ∀ x y o, d.object? x = some o → o.reference? = some y →
    ∃ t, d.object? y = some t ∧ t.kind = o.kind
  noCycle : WellFounded fun b a => d.RefersTo a b
  chains : ∀ i, d.refersTo? (referentOf d i) = none ∧
    ∀ fuel, d.size ≤ fuel → d.referenceChain fuel i = d.referents i
  linkChecks : ∀ node target,
    (d.referents target).contains node = true ↔ Relation.ReflTransGen d.RefersTo target node
  classes : ∀ i, (aliasClass d i).Nodup ∧
    (∀ j, j ∈ aliasClass d i ↔ referentOf d j = referentOf d i) ∧
    ∀ fuel, linkCount d + 1 ≤ fuel → spread d fuel [referentOf d i] [] = aliasClass d i
  tokens : ∀ i p, d.place? i = some p → ∃ q, d.place? (referentOf d i) = some q ∧
    ∀ fuel, d.size ≤ fuel → referentPlace d fuel p = q

/-- In every run the aliases of a node are the inverse of the references, references join nodes of
one kind, and every walk along them comes to its end. -/
theorem resolved_of_reachable (h : d.Reachable Edit.IsPlain) : Resolved d := by
  have hd := h.aliased
  have hn := h.registered.distinct
  have hg := hd.grounded
  have hnode : ∀ {i n}, d.node? i = some n → d.refersTo? i = n.reference ∧
      aliasesOf d i = n.referencedBy := by
    intro i n hi
    rw [Document.refersTo?_eq, aliasesOf, hi]
    exact ⟨rfl, rfl⟩
  constructor
  case inverse =>
    intro x y a b hx hy
    rw [← (hnode hx).1, ← (hnode hy).2]
    exact hd.inverse x y
  case registered =>
    intro x y b hy hx
    rw [← (hnode hy).2] at hx
    obtain ⟨k, hk, hkn⟩ := Document.isNode_of_refersTo ((hd.inverse x y).mp hx)
    exact Option.isSome_iff_exists.mp (Document.isSome_node?_of_kind hk hkn)
  case sameKind =>
    intro x y o ho hr
    have hxy : d.RefersTo x y := by
      rw [RefersTo, refersTo?, ho]
      exact hr
    obtain ⟨k, hkx, hky⟩ := hd.sameKind x y hxy
    obtain ⟨t, ht, htk⟩ := Option.map_eq_some_iff.mp hky
    rw [Document.kindOf?, ho] at hkx
    exact ⟨t, ht, htk.trans (Option.some.inj hkx).symm⟩
  case noCycle => exact hg
  case chains =>
    refine fun i => ⟨refersTo?_referentOf hg i, fun fuel hf => ?_⟩
    exact Document.referenceChain_of_chainEnds (Document.chainEnds hg (Nat.le_refl _) i) hf
  case linkChecks =>
    intro node target
    rw [List.contains_iff_mem]
    exact Document.mem_referents hg
  case classes =>
    refine fun i => ⟨nodup_aliasClass hd hn i, fun j => mem_aliasClass hd hn, fun fuel hf => ?_⟩
    exact spread_of_le hn (length_pending_singleton d (referentOf d i)) hf
  case tokens =>
    intro i p hp
    have hend := Document.chainEnds hg (Nat.le_refl _) i
    refine ⟨referentPlace d d.size p, referentPlace_of_chainEnds hd hp hend, fun fuel hf => ?_⟩
    have hmore := referentPlace_of_chainEnds hd hp (Document.chainEnds hg hf i)
    rw [Document.referenceChain_of_chainEnds hend hf,
      referentPlace_of_chainEnds hd hp hend] at hmore
    exact (Option.some.inj hmore).symm

/-- An alias of an alias on two pages; the inner alias brings links of its own along, which are
dropped, and a link that would close a cycle is refused. -/
def aliasRun : List Action :=
  [.edit (.addNet { id := ⟨"n"⟩, format := .placeTransition }),
    .edit (.add ⟨"n"⟩ (.page { id := ⟨"p"⟩ })),
    .edit (.add ⟨"n"⟩ (.page { id := ⟨"q"⟩ })),
    .edit (.add ⟨"p"⟩ (.place { id := ⟨"a"⟩, tokens := 2 })),
    .edit (.add ⟨"q"⟩ (.place { id := ⟨"b"⟩, node := { referencedBy := [⟨"z"⟩] } })),
    .edit (.add ⟨"q"⟩ (.place { id := ⟨"c"⟩, node := { reference := some ⟨"b"⟩ } })),
    .edit (.setReference ⟨"b"⟩ (some ⟨"a"⟩)),
    .edit (.setReference ⟨"a"⟩ (some ⟨"c"⟩))]

theorem uses_aliasRun : ∀ a ∈ aliasRun, a.Uses Edit.IsPlain := by
  intro a ha
  simp only [aliasRun, List.mem_cons, List.not_mem_nil, or_false] at ha
  rcases ha with rfl | rfl | rfl | rfl | rfl | rfl | rfl | rfl
  · exact ⟨rfl, rfl⟩
  · exact ⟨rfl, rfl, rfl, rfl, rfl⟩
  · exact ⟨rfl, rfl, rfl, rfl, rfl⟩
  all_goals trivial

theorem resolved_aliasRun :
    (Document.run aliasRun).Reachable Edit.IsPlain ∧ Resolved (Document.run aliasRun) ∧
      aliasClass (Document.run aliasRun) ⟨"b"⟩ = [⟨"c"⟩, ⟨"b"⟩, ⟨"a"⟩] :=
  ⟨⟨aliasRun, uses_aliasRun, rfl⟩, resolved_of_reachable ⟨aliasRun, uses_aliasRun, rfl⟩,
    by decide⟩

end PagedNets.Report
