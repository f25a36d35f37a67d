import PagedNets.Proofs.Document.Linking
import PagedNets.Proofs.InPlace
import PagedNets.Proofs.Report.AliasClass

set_option autoImplicit false

namespace PagedNets.Document

open Relation (ReflTransGen)
open Report (aliasRun aliasesOf uses_aliasRun)

variable {d e : Document} {i j t : ObjectId} {new : Option ObjectId}

/-- The walk along the references, from a node on, that looks for a node and ends with whether it
was met. -/
inductive Walk (d : Document) (i : ObjectId) : Option ObjectId → Bool → Prop
  | ended : Walk d i none false
  | met : Walk d i (some i) true
  | on {j : ObjectId} {met : Bool} : j ≠ i → Walk d i (d.refersTo? j) met →
      Walk d i (some j) met

/-- Where following references ends, the walk ends, and it has met the node if it is on the
chain. -/
theorem exists_walk (h : d.Grounded) (i t : ObjectId) :
    ∃ met, d.Walk i (some t) met ∧ (met = true ↔ ReflTransGen d.RefersTo t i) := by
  induction t using h.induction with
  | _ t ih =>
    by_cases ht : t = i
    · subst ht
      exact ⟨true, .met, by simp [ReflTransGen.refl]⟩
    · cases hr : d.refersTo? t with
      | none =>
        refine ⟨false, .on ht (hr ▸ .ended), by simp, fun hti => ?_⟩
        rcases ReflTransGen.cases_head hti with rfl | ⟨k, htk, -⟩
        · exact absurd rfl ht
        · rw [RefersTo, hr] at htk
          cases htk
      | some k =>
        obtain ⟨met, hwalk, hmet⟩ := ih k hr
        refine ⟨met, .on ht (hr ▸ hwalk), ?_⟩
        rw [hmet]
        refine ⟨fun hki => hki.head hr, fun hti => ?_⟩
        rcases ReflTransGen.cases_head hti with rfl | ⟨l, htl, hli⟩
        · exact absurd rfl ht
        · rw [RefersTo, hr] at htl
          cases htl
          exact hli

theorem Walk.unique {cursor : Option ObjectId} {met met' : Bool} (h : d.Walk i cursor met)
    (h' : d.Walk i cursor met') : met = met' := by
  induction h with
  | ended => cases h'; rfl
  | met =>
    cases h' with
    | met => rfl
    | on hne _ => exact absurd rfl hne
  | on hne _ ih =>
    cases h' with
    | met => exact absurd rfl hne
    | on _ h' => exact ih h'

/-- Links a node anew on the document itself: the checks first, then one write after the other. -/
def setReferenceInPlace (i : ObjectId) (new : Option ObjectId) :
    InPlace NetError Document Unit := do
  let d ← get
  match d.object? i with
  | none => InPlace.answer (.error (.unknownObject i))
  | some o =>
    match o.node? with
    | none => InPlace.answer (.error (.notANode o.id))
    | some node =>
      InPlace.answer (d.checkLink o.id o.kind new)
      if node.reference = new then pure ()
      else
        InPlace.write (leave · o.id node.reference)
        match new with
        | none => pure ()
        | some t => InPlace.write (updateAliases · t (IdSet.insert · o.id))
        InPlace.write (modify · i (·.mapNode fun n => { n with reference := new }))

theorem on_setReferenceInPlace (d : Document) (i : ObjectId) (new : Option ObjectId) :
    (setReferenceInPlace i new).on d = match d.setReference i new with
      | .error cause => (.error cause, d)
      | .ok e => (.ok (), e) := by
  simp only [setReferenceInPlace, setReference, InPlace.on_bind, InPlace.on_get]
  cases d.object? i with
  | none => rfl
  | some o =>
    dsimp only
    cases o.node? with
    | none => rfl
    | some node =>
      simp only [InPlace.on_bind, InPlace.on_answer]
      cases d.checkLink o.id o.kind new with
      | error cause => rfl
      | ok u =>
        dsimp only
        by_cases hsame : node.reference = new
        · simp [hsame, bind, Except.bind]
        · simp only [if_neg hsame, relink_eq, InPlace.on_bind, InPlace.on_write]
          cases new <;> rfl

theorem object?_leave (i : ObjectId) (old : Option ObjectId) (j : ObjectId) :
    (d.leave i old).object? j = if old = some j then
      (d.object? j).map (·.mapAliases (IdSet.erase · i)) else d.object? j := by
  cases old with
  | none => rfl
  | some p =>
    rw [leave, updateAliases, object?_modify]
    simp only [Option.some.injEq, eq_comm (a := p)]
    rfl

theorem object?_relink (i : ObjectId) (old : Option ObjectId) (hne : old ≠ new) (j : ObjectId) :
    (d.relink i old new).object? j =
      if old = some j then (d.object? j).map (·.mapAliases (IdSet.erase · i))
      else if new = some j then (d.object? j).map (·.mapAliases (IdSet.insert · i))
      else d.object? j := by
  rw [relink_eq]
  cases new with
  | none => simpa using object?_leave i old j
  | some t =>
    dsimp only
    rw [updateAliases, object?_modify, object?_leave]
    by_cases hj : j = t
    · subst hj
      simp only [if_neg hne, if_pos]
      rfl
    · have ht : some t ≠ some j := fun h => hj (Option.some.inj h).symm
      simp only [if_neg hj, if_neg ht]

/-- What linking a node anew does to a document: the objects that it writes to, what it writes to
them, and that it writes to no others. -/
structure Relinks (d : Document) (i : ObjectId) (new : Option ObjectId) (e : Document) : Prop where
  keys : e.keys = d.keys
  same : d.refersTo? i = new → e = d
  node : d.refersTo? i ≠ new → ∃ o, d.object? i = some o ∧
    e.object? i = some (o.mapNode fun n => { n with reference := new })
  left : ∀ p, d.refersTo? i = some p → new ≠ some p → ∃ o, d.object? p = some o ∧
    e.object? p = some (o.mapNode fun n => { n with referencedBy := n.referencedBy.erase i })
  joined : ∀ t, new = some t → d.refersTo? i ≠ some t → ∃ o, d.object? t = some o ∧
    e.object? t = some (o.mapNode fun n => { n with referencedBy := n.referencedBy.insert i })
  others : ∀ j, j ≠ i → d.refersTo? i ≠ some j → new ≠ some j → e.object? j = d.object? j
  reference : e.refersTo? i = new
  aliases : ∀ x y, x ∈ aliasesOf e y ↔ if x = i then new = some y else x ∈ aliasesOf d y

theorem Aliased.ne_referent (h : d.Aliased) (hi : d.refersTo? i = some j) : j ≠ i := by
  rintro rfl
  exact h.grounded.not_reaches hi .refl

theorem keys_link (d : Document) (i : ObjectId) (old new : Option ObjectId) :
    (d.link i old new).keys = d.keys := by
  rw [link, keys_modify, relink_eq]
  cases old <;> cases new <;> simp [leave, updateAliases]

theorem relinks_setReference (hr : d.Registered) (h : d.Aliased)
    (he : d.setReference i new = .ok e) : d.Relinks i new e := by
  have hrefers := refersTo?_setReference hr he i
  obtain ⟨k, hk, hnode, htarget, rfl⟩ := (setReference_eq_ok_iff hr).mp he
  rw [if_pos rfl] at hrefers
  by_cases hsame : d.refersTo? i = new
  · rw [if_pos hsame] at hrefers ⊢
    refine ⟨rfl, fun _ => rfl, fun hne => absurd hsame hne, ?_, ?_, fun _ _ _ _ => rfl, hrefers, ?_⟩
    · exact fun p hp hne => absurd (hsame.symm.trans hp) hne
    · exact fun t ht hne => absurd (hsame.trans ht) hne
    · intro x y
      split
      · next hx => rw [hx, h.inverse, RefersTo, hsame]
      · rfl
  · rw [if_neg hsame] at hrefers ⊢
    obtain ⟨o, ho, -⟩ := Option.map_eq_some_iff.mp hk
    have hobject : ∀ j, (d.link i (d.refersTo? i) new).object? j =
        if j = i then
          ((d.relink i (d.refersTo? i) new).object? j).map
            (·.mapNode fun n => { n with reference := new })
        else (d.relink i (d.refersTo? i) new).object? j :=
      fun j => object?_modify _ i j _
    have hold : d.refersTo? i ≠ some i := fun hi => h.ne_referent hi rfl
    have hnew : new ≠ some i :=
      fun hi => (htarget i hi).2 ((mem_referents h.grounded).mpr .refl)
    constructor
    case keys => exact keys_link d i _ new
    case same => exact fun hno => absurd hno hsame
    case node =>
      intro _
      refine ⟨o, ho, ?_⟩
      rw [hobject, if_pos rfl, object?_relink i _ hsame, if_neg hold, if_neg hnew, ho]
      rfl
    case left =>
      intro p hp _
      obtain ⟨kind, -, hkp⟩ := h.sameKind i p hp
      obtain ⟨o, ho, -⟩ := Option.map_eq_some_iff.mp hkp
      refine ⟨o, ho, ?_⟩
      rw [hobject, if_neg (h.ne_referent hp), object?_relink i _ hsame, if_pos hp, ho]
      rfl
    case joined =>
      intro t ht hold
      obtain ⟨o, ho, -⟩ := Option.map_eq_some_iff.mp (htarget t ht).1
      have hti : t ≠ i := by
        rintro rfl
        exact hnew ht
      refine ⟨o, ho, ?_⟩
      rw [hobject, if_neg hti, object?_relink i _ hsame, if_neg hold, if_pos ht, ho]
      rfl
    case others =>
      intro j hj hold hnew
      rw [hobject, if_neg hj, object?_relink i _ hsame, if_neg hold, if_neg hnew]
    case reference => exact hrefers
    case aliases =>
      intro x y
      rw [aliasesOf_link, mem_aliasesOf_relink h fun t ht => ⟨k, (htarget t ht).1, hnode⟩]

/-- The links that are allowed: from a node, to nothing or to a node of its kind from which no chain
of references leads to it. -/
def MayRefer (d : Document) (i : ObjectId) (new : Option ObjectId) : Prop :=
  ∃ o, d.object? i = some o ∧ o.kind.isNode = true ∧ ∀ t, new = some t →
    (∃ x, d.object? t = some x ∧ x.kind = o.kind) ∧ ¬ ReflTransGen d.RefersTo t i

theorem exists_setReference_iff (hr : d.Registered) (h : d.Aliased) :
    (∃ e, d.setReference i new = .ok e) ↔ d.MayRefer i new := by
  have hkind : ∀ j k, d.kindOf? j = some k ↔ ∃ x, d.object? j = some x ∧ x.kind = k :=
    fun j k => Option.map_eq_some_iff
  simp only [setReference_eq_ok_iff hr, mem_referents h.grounded, hkind]
  constructor
  · rintro ⟨-, -, ⟨o, ho, rfl⟩, hnode, htarget, -⟩
    exact ⟨o, ho, hnode, htarget⟩
  · rintro ⟨o, ho, hnode, htarget⟩
    exact ⟨_, o.kind, ⟨o, ho, rfl⟩, hnode, htarget, rfl⟩

/-- In every run a node is linked anew if and only if the link is allowed, the walk along the
references that finds this out ends, a refusal changes nothing, and a success changes the links
alone. -/
theorem relinks_reachable (hd : d.Reachable Edit.IsPlain) (i : ObjectId) (new : Option ObjectId) :
    ((∃ e, (setReferenceInPlace i new).on d = (.ok (), e)) ↔ d.MayRefer i new) ∧
    (∀ t, (∃ met, d.Walk i (some t) met) ∧
      ∀ met, d.Walk i (some t) met → (met = true ↔ i ∈ d.referents t)) ∧
    (∀ cause e, (setReferenceInPlace i new).on d = (.error cause, e) → e = d) ∧
    ∀ e, (setReferenceInPlace i new).on d = (.ok (), e) → d.Relinks i new e := by
  have hr := hd.registered
  have ha := hd.aliased
  rw [on_setReferenceInPlace]
  refine ⟨?_, fun t => ?_, fun cause e he => ?_, fun e he => ?_⟩
  · rw [← exists_setReference_iff hr ha]
    cases d.setReference i new <;> simp
  · obtain ⟨met, hwalk, hmet⟩ := exists_walk ha.grounded i t
    refine ⟨⟨met, hwalk⟩, fun met' hwalk' => ?_⟩
    rw [hwalk'.unique hwalk, hmet, mem_referents ha.grounded]
  · cases hset : d.setReference i new with
    | error cause' => simp_all
    | ok e' => simp [hset] at he
  · cases hset : d.setReference i new with
    | error cause' => simp [hset] at he
    | ok e' =>
      simp only [hset, Prod.mk.injEq, true_and] at he
      exact relinks_setReference hr ha (he ▸ hset)

theorem relinks_aliasRun : (run aliasRun).Reachable Edit.IsPlain ∧
    (∃ e, (setReferenceInPlace ⟨"c"⟩ (some ⟨"a"⟩)).on (run aliasRun) = (.ok (), e) ∧
      (run aliasRun).Relinks ⟨"c"⟩ (some ⟨"a"⟩) e) ∧
    ¬ (run aliasRun).MayRefer ⟨"a"⟩ (some ⟨"c"⟩) := by
  have hd : (run aliasRun).Reachable Edit.IsPlain := ⟨aliasRun, uses_aliasRun, rfl⟩
  obtain ⟨e, he⟩ : ∃ e, (setReferenceInPlace ⟨"c"⟩ (some ⟨"a"⟩)).on (run aliasRun) = (.ok (), e) :=
    ⟨_, rfl⟩
  have hcycle : ((setReferenceInPlace ⟨"a"⟩ (some ⟨"c"⟩)).on (run aliasRun)).1 =
      .error (.referenceCycle ⟨"a"⟩ ⟨"c"⟩) := rfl
  obtain ⟨-, -, -, hrelinks⟩ := relinks_reachable hd ⟨"c"⟩ (some ⟨"a"⟩)
  obtain ⟨hmay, -, -, -⟩ := relinks_reachable hd ⟨"a"⟩ (some ⟨"c"⟩)
  refine ⟨hd, ⟨e, he, hrelinks e he⟩, fun h => ?_⟩
  obtain ⟨e, he⟩ := hmay.mpr h
  rw [he] at hcycle
  cases hcycle

end PagedNets.Document
