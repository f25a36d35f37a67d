import PagedNets.Proofs.Document.AppendOnly
import PagedNets.Proofs.Document.Copy
import PagedNets.Proofs.Document.Linking
import PagedNets.Proofs.Pnml.Appending

/-!
Reading beside unrelated content. Every check of a document asks for identifiers that the text
itself names, and what was read before answers. So objects with other identifiers in front of it
refuse nothing, are no end and no referent of what is read, and are not changed by it.
-/

set_option autoImplicit false

namespace PagedNets

theorem Table.modify_of_not_mem {κ α : Type} [DecidableEq κ] {t : Table κ α} {k : κ}
    (h : k ∉ t.keys) (f : α → α) : t.modify k f = t := by
  obtain ⟨entries⟩ := t
  have hsame : ∀ e ∈ entries, (if e.1 = k then (e.1, f e.2) else e) = e := by
    intro e he
    rw [if_neg]
    rintro rfl
    exact h (List.mem_map_of_mem he)
  rw [Table.modify, List.map_congr_left hsame, List.map_id']

namespace Document

def followedBy (d e : Document) : Document := ⟨⟨d.objects.entries ++ e.objects.entries⟩⟩

variable {d e f : Document} {i : ObjectId}

@[simp] theorem keys_followedBy (d e : Document) : (d.followedBy e).keys = d.keys ++ e.keys := by
  simp [followedBy, keys, Table.keys]

theorem size_followedBy (d e : Document) : (d.followedBy e).size = d.size + e.size := by
  simp [followedBy, size, Table.size]

theorem followedBy_empty (d : Document) : d.followedBy {} = d := by
  obtain ⟨⟨entries⟩⟩ := d
  simp [followedBy, Table.empty]

theorem object?_followedBy (d e : Document) (i : ObjectId) :
    (d.followedBy e).object? i = (d.object? i).or (e.object? i) :=
  Table.find?_append d.objects.entries e.objects.entries i

theorem append_followedBy (d e : Document) (o : Object) :
    (d.followedBy e).append o = d.followedBy (e.append o) := by
  simp [followedBy, append]

section Unheld

variable (hi : i ∉ d.keys)
include hi

theorem object?_followedBy_of_not_mem (e : Document) :
    (d.followedBy e).object? i = e.object? i := by
  have hnone : d.object? i = none := by
    cases ho : d.object? i with
    | none => rfl
    | some o => exact absurd (mem_keys_of_object? ho) hi
  rw [object?_followedBy, hnone, Option.none_or]

theorem kindOf?_followedBy_of_not_mem (e : Document) :
    (d.followedBy e).kindOf? i = e.kindOf? i := by
  rw [kindOf?, object?_followedBy_of_not_mem hi, kindOf?]

theorem refersTo?_followedBy_of_not_mem (e : Document) :
    (d.followedBy e).refersTo? i = e.refersTo? i := by
  rw [refersTo?, object?_followedBy_of_not_mem hi, refersTo?]

theorem modify_followedBy (e : Document) (g : Object → Object) :
    (d.followedBy e).modify i g = d.followedBy (e.modify i g) := by
  have hfront : (d.objects.modify i g).entries = d.objects.entries := by
    rw [Table.modify_of_not_mem hi]
  have hmap : ((d.followedBy e).modify i g).objects.entries =
      (d.objects.modify i g).entries ++ (e.objects.modify i g).entries := List.map_append
  rw [hfront] at hmap
  exact congrArg (fun entries => (⟨⟨entries⟩⟩ : Document)) hmap

theorem updateAliases_followedBy (e : Document) (g : IdSet → IdSet) :
    (d.followedBy e).updateAliases i g = d.followedBy (e.updateAliases i g) :=
  modify_followedBy hi e _

end Unheld

section Apart

variable (hd : d.keys.Disjoint e.keys)
include hd

theorem object?_followedBy_of_some {o : Object} (ho : e.object? i = some o) :
    (d.followedBy e).object? i = some o := by
  rw [object?_followedBy_of_not_mem fun hi => hd hi (mem_keys_of_object? ho), ho]

theorem checkNode_followedBy {k : Kind} {n : NodeData} (h : e.checkNode i k n = .ok ()) :
    (d.followedBy e).checkNode i k n = .ok () := by
  rw [checkNode_eq_ok_iff] at h ⊢
  refine ⟨h.1, fun r hr => ?_⟩
  obtain ⟨x, hx, hk⟩ := h.2 r hr
  exact ⟨x, object?_followedBy_of_some hd hx, hk⟩

theorem endpoint_followedBy {p : Page} {a : Arc} {v : Nat} (h : e.endpoint p a i = .ok v) :
    (d.followedBy e).endpoint p a i = .ok v := by
  rw [endpoint_eq_ok_iff] at h ⊢
  obtain ⟨⟨n, hn⟩, hv⟩ := h
  obtain ⟨o, ho, hon⟩ := node?_eq_some_iff.mp hn
  exact ⟨⟨n, node?_eq_some_iff.mpr ⟨o, object?_followedBy_of_some hd ho, hon⟩⟩, hv⟩

theorem checkContent_followedBy {container o : Object} (h : e.checkContent container o = .ok ()) :
    (d.followedBy e).checkContent container o = .ok () := by
  cases o with
  | net n => exact h
  | page p => exact h
  | place p =>
    obtain ⟨hnode, hoffset⟩ := checkPlace_eq_ok_iff.mp h
    exact checkPlace_eq_ok_iff.mpr ⟨checkNode_followedBy hd hnode, hoffset⟩
  | transition t => exact checkNode_followedBy hd h
  | arc a =>
    cases container with
    | page p =>
      obtain ⟨hcurve, v, w, hv, hw, hnone⟩ := checkArc_eq_ok_iff.mp h
      exact checkArc_eq_ok_iff.mpr
        ⟨hcurve, v, w, endpoint_followedBy hd hv, endpoint_followedBy hd hw, hnone⟩
    | _ => exact h

/-- What may enter a container may enter it beside other objects, under an identifier that none of
them has. -/
theorem Admissible.followedBy {parent : ObjectId} {o container : Object} {w : Owner}
    (h : e.Admissible parent o container w) (ho : o.id ∉ d.keys) :
    (d.followedBy e).Admissible parent o container w where
  found := object?_followedBy_of_some hd h.found
  owner := h.owner
  nonempty := h.nonempty
  fresh := (object?_followedBy_of_not_mem ho e).trans h.fresh
  scope := h.scope
  content := checkContent_followedBy hd h.content

end Apart

theorem enter_followedBy {parent : ObjectId} {child : Object} (hparent : parent ∉ d.keys)
    (hreferent : ∀ r, child.reference? = some r → r ∉ d.keys) :
    (d.followedBy e).enter parent child = d.followedBy (e.enter parent child) := by
  unfold enter
  rw [append_followedBy, modify_followedBy hparent]
  cases hr : child.reference? with
  | none => rfl
  | some r => exact updateAliases_followedBy (hreferent r hr) _ _

theorem mem_keys_of_kindOf? {k : Kind} (h : e.kindOf? i = some k) : i ∈ e.keys := by
  obtain ⟨o, ho, -⟩ := Option.map_eq_some_iff.mp h
  exact mem_keys_of_object? ho

theorem add_followedBy {parent : ObjectId} {o : Object} (h : e.add parent o = .ok f)
    (hd : d.keys.Disjoint f.keys) : (d.followedBy e).add parent o = .ok (d.followedBy f) := by
  obtain ⟨container, w, ha, rfl⟩ := add_eq_ok_iff.mp h
  rw [keys_enter, Object.id_admitted] at hd
  obtain ⟨hde, ho⟩ := List.disjoint_append_right.mp hd
  have hparent : parent ∉ d.keys := fun hp => hde hp (mem_keys_of_object? ha.found)
  have hreferent : ∀ r, (o.admitted w).reference? = some r → r ∉ d.keys := by
    intro r hr hm
    rw [Object.reference?_admitted] at hr
    exact hde hm (mem_keys_of_kindOf? (kindOf?_of_content ha.content hr))
  have hadmissible := ha.followedBy hde fun hm => ho hm (List.mem_singleton_self _)
  exact add_eq_ok_iff.mpr ⟨container, w, hadmissible, (enter_followedBy hparent hreferent).symm⟩

theorem addNet_followedBy {n : Net} (h : e.addNet n = .ok f) (hd : d.keys.Disjoint f.keys) :
    (d.followedBy e).addNet n = .ok (d.followedBy f) := by
  obtain ⟨hne, hfresh, rfl⟩ := addNet_eq_ok_iff.mp h
  rw [keys_append] at hd
  have hn : n.id ∉ d.keys :=
    fun hm => (List.disjoint_append_right.mp hd).2 hm (List.mem_singleton_self _)
  exact addNet_eq_ok_iff.mpr
    ⟨hne, (object?_followedBy_of_not_mem hn e).trans hfresh, (append_followedBy d e _).symm⟩

theorem leave_followedBy {old : Option ObjectId} (hold : ∀ r, old = some r → r ∉ d.keys) :
    (d.followedBy e).leave i old = d.followedBy (e.leave i old) := by
  cases old with
  | none => rfl
  | some r => exact updateAliases_followedBy (hold r rfl) e _

theorem relink_followedBy {old new : Option ObjectId} (hold : ∀ r, old = some r → r ∉ d.keys)
    (hnew : ∀ t, new = some t → t ∉ d.keys) :
    (d.followedBy e).relink i old new = d.followedBy (e.relink i old new) := by
  rw [relink_eq, relink_eq, leave_followedBy hold]
  cases new with
  | none => rfl
  | some t => exact updateAliases_followedBy (hnew t rfl) _ _

section Links

variable (ha : e.Aliased) (hd : d.keys.Disjoint e.keys)
include ha hd

theorem referenceChain_followedBy (fuel : Nat) (hi : i ∉ d.keys) :
    (d.followedBy e).referenceChain fuel i = e.referenceChain fuel i := by
  induction fuel generalizing i with
  | zero => rfl
  | succ fuel ih =>
    have hsame := refersTo?_followedBy_of_not_mem hi e
    cases hr : e.refersTo? i with
    | none => rw [referenceChain_of_none hr, referenceChain_of_none (hsame.trans hr)]
    | some j =>
      obtain ⟨k, -, hj⟩ := ha.sameKind i j hr
      rw [referenceChain_of_some hr, referenceChain_of_some (hsame.trans hr),
        ih fun hm => hd hm (mem_keys_of_kindOf? hj)]

/-- The chain is over before it has used as many links as there are objects behind. -/
theorem referents_followedBy (hi : i ∉ d.keys) : (d.followedBy e).referents i = e.referents i := by
  rw [referents, referenceChain_followedBy ha hd _ hi, size_followedBy, referents]
  exact referenceChain_of_chainEnds (chainEnds ha.grounded (Nat.le_refl _) i)
    (Nat.le_add_left _ _)

theorem checkLink_followedBy {k : Kind} {new : Option ObjectId} (h : e.checkLink i k new = .ok ()) :
    (d.followedBy e).checkLink i k new = .ok () := by
  rw [checkLink_eq_ok_iff] at h ⊢
  intro t ht
  obtain ⟨hk, hnot⟩ := h t ht
  have htd : t ∉ d.keys := fun hm => hd hm (mem_keys_of_kindOf? hk)
  rw [kindOf?_followedBy_of_not_mem htd, referents_followedBy ha hd htd]
  exact ⟨hk, hnot⟩

theorem setReference_followedBy {new : Option ObjectId} (h : e.setReference i new = .ok f) :
    (d.followedBy e).setReference i new = .ok (d.followedBy f) := by
  unfold setReference at h ⊢
  cases ho : e.object? i with
  | none => simp [ho] at h
  | some o =>
    have hi : i ∉ d.keys := fun hm => hd hm (mem_keys_of_object? ho)
    rw [object?_followedBy_of_some hd ho]
    rw [ho] at h
    cases hn : o.node? with
    | none => simp [hn] at h
    | some node =>
      simp only [hn, bind_unit_eq_ok, Except.ok.injEq] at h ⊢
      obtain ⟨hlink, hf⟩ := h
      refine ⟨checkLink_followedBy ha hd hlink, ?_⟩
      have hold : ∀ r, node.reference = some r → r ∉ d.keys := by
        intro r hr hm
        have hir : e.RefersTo i r := by
          rw [RefersTo, refersTo?, ho, Option.bind_some, Object.reference?, hn, Option.bind_some,
            hr]
        obtain ⟨k, -, hk⟩ := ha.sameKind i r hir
        exact hd hm (mem_keys_of_kindOf? hk)
      have hnew : ∀ t, new = some t → t ∉ d.keys := by
        intro t ht hm
        exact hd hm (mem_keys_of_kindOf? (checkLink_eq_ok_iff.mp hlink t ht).1)
      rw [← hf]
      split
      · rfl
      · rw [relink_followedBy hold hnew, modify_followedBy hi]

end Links

/-- An edit that reading is made of has the same effect beside unrelated objects. -/
theorem edit_followedBy {change : Edit} (he : e.Reachable Edit.IsPlain) (hc : change.IsEntry)
    (h : e.edit change = .ok f) (hd : d.keys.Disjoint f.keys) :
    (d.followedBy e).edit change = .ok (d.followedBy f) := by
  cases change with
  | addNet n => exact addNet_followedBy h hd
  | add parent o => exact add_followedBy h hd
  | setReference i new =>
    have hkeys : e.keys ⊆ f.keys := (grows_edit h).keys.subset
    exact setReference_followedBy he.aliased (List.disjoint_of_subset_right hkeys hd) h
  | _ => exact False.elim hc

theorem events_eq {c c' : Document} {change : Edit} (h : d.edit change = .ok c)
    (h' : e.edit change = .ok c') : d.events change = e.events change := by
  cases change with
  | addNet n =>
    have hn : d.addNet n = .ok c := h
    have hn' : e.addNet n = .ok c' := h'
    simp only [events, hn, hn']
  | add parent o =>
    obtain ⟨hcheck, hcommit⟩ := bind_unit_eq_ok.mp h
    obtain ⟨hcheck', hcommit'⟩ := bind_unit_eq_ok.mp h'
    simp only [events, hcheck, hcheck', hcommit, hcommit']
  | _ => rfl

end Document

namespace Pnml

variable {d e : Document} {nets : List ObjectId}

/-- The same reading into a document that has the objects of another one in front. -/
def Reading.behind (d : Document) (reading : Reading) : Reading :=
  { reading with document := d.followedBy reading.document }

theorem perform_followedBy {steps : List Step} (he : e.Reachable Edit.IsPlain)
    (hs : EditsAre Edit.IsEntry steps) (h : (perform e steps).result = .ok nets)
    (hd : d.keys.Disjoint (perform e steps).document.keys) :
    perform (d.followedBy e) steps = (perform e steps).behind d := by
  induction steps generalizing e nets with
  | nil => rfl
  | cons step steps ih =>
    have hrest : EditsAre Edit.IsEntry steps := fun c hc => hs c (List.mem_cons_of_mem _ hc)
    cases step with
    | edit change =>
      have hc : change.IsEntry := hs change List.mem_cons_self
      cases hedit : e.edit change with
      | error cause => simp [perform, hedit] at h
      | ok next =>
        simp only [perform, hedit] at h hd
        have hnext : next.Reachable Edit.IsPlain := he.edit hc.isFinite.isPlain hedit
        -- What comes in later does not take away what is there.
        have hkeys : next.keys ⊆ (perform next steps).document.keys :=
          (leads_perform hrest).grows.keys.subset
        have hbeside := Document.edit_followedBy he hc hedit
          (List.disjoint_of_subset_right hkeys hd)
        simp only [perform, hedit, hbeside, ih hnext hrest h hd,
          Document.events_eq hbeside hedit]
        rfl
    | finished net format =>
      simp only [perform] at h hd
      cases hresult : (perform e steps).result with
      | error cause => simp [hresult, Except.map] at h
      | ok more =>
        simp only [perform, ih he hrest hresult hd]
        rfl
    | fail fault => cases h

/-- A text that is accepted into the empty document is accepted beside any objects whose identifiers
are not in it, with the same answer and the same reports. Those objects stay as they are, and behind
them come the ones that the text alone makes. -/
theorem read_followedBy {text : String} (h : (read {} text).result = .ok nets)
    (hd : d.keys.Disjoint (read {} text).document.keys) :
    read d text = (read {} text).behind d := by
  have hempty : ({} : Document).Reachable Edit.IsPlain := ⟨[], fun a ha => (by cases ha), rfl⟩
  cases hroot : Xml.parse? text with
  | none =>
    simp only [read, hroot] at h
    cases h
  | some root =>
    simp only [read, hroot] at h hd ⊢
    have hbehind := perform_followedBy hempty (editsAre_script root) h hd
    rwa [Document.followedBy_empty] at hbehind

/-- A net with two places, the first of them an alias of the second, and an arc. -/
def aliasText : String :=
  "<net id='n' type='http://www.pnml.org/version-2009/grammar/ptnet'><page id='p'>" ++
    "<arc id='at' source='a' target='t'/><referencePlace id='a' ref='c'/>" ++
    "<place id='c'/><transition id='t'/></page></net>"

theorem read_followedBy_aliasText :
    (read {} aliasText).result = .ok [⟨"n"⟩] ∧
      (Document.run placeRun).keys.Disjoint (read {} aliasText).document.keys ∧
      read (Document.run placeRun) aliasText =
        (read {} aliasText).behind (Document.run placeRun) := by
  have hread : (read {} aliasText).result = .ok [⟨"n"⟩] ∧ (read {} aliasText).document.keys =
      [⟨"n"⟩, ⟨"p"⟩, ⟨"a"⟩, ⟨"c"⟩, ⟨"t"⟩, ⟨"at"⟩] := by decide +kernel
  have hdisjoint : (Document.run placeRun).keys.Disjoint (read {} aliasText).document.keys := by
    rw [hread.2, List.disjoint_left]
    decide
  exact ⟨hread.1, hdisjoint, read_followedBy hread.1 hdisjoint⟩

end Pnml

end PagedNets
