import PagedNets.Proofs.Document.Preorder
import PagedNets.Proofs.Report.AliasClass

/-!
Queries go page by page, but since an arc stands on the page of its ends they find all arcs of the
document at a node.
-/

set_option autoImplicit false

namespace PagedNets.Report

open Document (RefersTo Grounded Aliased page?_eq_some_iff arc?_eq_some_iff place?_eq_some_iff)

/-- The two are one node up to aliases: the equivalence that references generate. -/
def SameNode (d : Document) : ObjectId → ObjectId → Prop := Relation.EqvGen d.RefersTo

def Entered (d : Document) (i : ObjectId) : Prop :=
  ∃ k a, d.arc? k = some a ∧ SameNode d i a.target

def Left (d : Document) (i : ObjectId) : Prop :=
  ∃ k a, d.arc? k = some a ∧ SameNode d i a.source

/-- A place holds the tokens of that alias of it which refers to no other place. -/
def Holds (d : Document) (i : ObjectId) (tokens : UInt64) : Prop :=
  ∃ j p, SameNode d i j ∧ d.place? j = some p ∧ p.node.reference = none ∧ p.tokens = tokens

variable {d : Document} {c i j : ObjectId}

theorem transition?_eq_some_iff {t : Transition} :
    d.transition? i = some t ↔ d.object? i = some (.transition t) := by
  unfold Document.transition?
  cases d.object? i with
  | none => simp
  | some o => cases o <;> simp [Object.transition?]

theorem sameNode_referentOf (d : Document) (i : ObjectId) : SameNode d i (referentOf d i) :=
  Relation.EqvGen.reflTransGen_le_eqvGen d.RefersTo _ _ (reaches_referentOf d i)

theorem sameNode_iff (hg : d.Grounded) : SameNode d i j ↔ referentOf d i = referentOf d j := by
  constructor
  · intro h
    induction h with
    | rel a b hab => exact referentOf_of_refersTo hg hab
    | refl a => rfl
    | symm a b _ ih => exact ih.symm
    | trans a b c _ _ hab hbc => exact hab.trans hbc
  · intro h
    have hj := sameNode_referentOf d j
    rw [← h] at hj
    exact (sameNode_referentOf d i).trans _ _ _ (hj.symm _ _)

theorem existsUnique_referent (hg : d.Grounded) (i : ObjectId) :
    ∃! j, SameNode d i j ∧ d.refersTo? j = none := by
  refine ⟨referentOf d i, ⟨sameNode_referentOf d i, refersTo?_referentOf hg i⟩, ?_⟩
  rintro j ⟨hij, hj⟩
  rw [(sameNode_iff hg).mp hij, referentOf_of_none hj]

theorem mem_aliasClass_iff (hd : d.Aliased) (hn : d.keys.Nodup) :
    j ∈ aliasClass d i ↔ SameNode d i j := by
  rw [mem_aliasClass hd hn, sameNode_iff hd.grounded, eq_comm]

theorem aliasClass_congr (hg : d.Grounded) (h : SameNode d i j) :
    aliasClass d i = aliasClass d j := by
  rw [aliasClass, (sameNode_iff hg).mp h, aliasClass]

theorem referentPlace_of_le (hd : d.Aliased) {p : Place} (hp : d.place? i = some p) {fuel : Nat}
    (hf : d.size ≤ fuel) : referentPlace d fuel p = referentPlace d d.size p := by
  have hend := Document.chainEnds hd.grounded (Nat.le_refl _) i
  have hmore := referentPlace_of_chainEnds hd hp (Document.chainEnds hd.grounded hf i)
  rw [Document.referenceChain_of_chainEnds hend hf, referentPlace_of_chainEnds hd hp hend] at hmore
  exact (Option.some.inj hmore).symm

theorem holds_iff (hd : d.Aliased) {p : Place} (hp : d.place? i = some p) {n : UInt64} :
    Holds d i n ↔ initialTokens d p = n := by
  have hfound := referentPlace_of_chainEnds hd hp (Document.chainEnds hd.grounded (Nat.le_refl _) i)
  have href : ∀ {k q}, d.place? k = some q → d.refersTo? k = q.node.reference := by
    intro k q hk
    rw [Document.refersTo?, place?_eq_some_iff.mp hk]
    rfl
  constructor
  · rintro ⟨j, q, hij, hq, hnone, rfl⟩
    obtain ⟨r, -, hunique⟩ := existsUnique_referent hd.grounded i
    have hj : j = r := hunique j ⟨hij, (href hq).trans hnone⟩
    have hr : referentOf d i = r :=
      hunique _ ⟨sameNode_referentOf d i, refersTo?_referentOf hd.grounded i⟩
    have hsame : d.place? j = some (referentPlace d d.size p) := by
      rw [hj, ← hr]
      exact hfound
    rw [hq] at hsame
    rw [initialTokens, ← Option.some.inj hsame]
  · rintro rfl
    refine ⟨referentOf d i, _, sameNode_referentOf d i, hfound, ?_, rfl⟩
    rw [← href hfound]
    exact refersTo?_referentOf hd.grounded i

section Arcs

variable (hd : d.Reachable Edit.IsPlain)
include hd

theorem page_of_arc {k : ObjectId} {a : Arc} (ha : d.arc? k = some a) :
    ∃ c p, d.page? c = some p ∧ a ∈ d.arcsOn c ∧ pageOf? d a.source = some p ∧
      pageOf? d a.target = some p := by
  have hr := hd.registered
  have hc := Document.contained_of_tabled hr hd.tabled
  obtain ⟨p, howner, hp⟩ := hc.standing k (.arc a) (arc?_eq_some_iff.mp ha) (.inr rfl)
  have hid : a.id = k := hc.stored k (.arc a) (arc?_eq_some_iff.mp ha)
  obtain ⟨b, hb, -, hs, ht⟩ := hd.ends_on_page hp (((hc.arcs _ p hp).2 k).mpr ⟨a, ha, howner⟩)
  obtain rfl : a = b := Object.arc.inj (Option.some.inj ((arc?_eq_some_iff.mp ha).symm.trans hb))
  have hpage : ∀ i ∈ p.nodes.keys, pageOf? d i = some p := by
    intro i hi
    obtain ⟨o, ho, -, hw⟩ := ((hc.nodes _ p hp).2 i).mp hi
    simp only [pageOf?, ho, Option.bind_some, hw, hp]
  exact ⟨p.id, p, hp, (Document.mem_arcsOn hr).mpr ⟨hid ▸ ha, howner⟩, hpage _ hs, hpage _ ht⟩

/-- Asking page by page for the arcs at a node and its aliases finds all arcs of the document at
any of them. -/
theorem any_neighbour_iff {near far : Arc → ObjectId} {neighbours : Page → ObjectId → List ObjectId}
    (hpage : ∀ {k a}, d.arc? k = some a →
      ∃ c p, d.page? c = some p ∧ a ∈ d.arcsOn c ∧ pageOf? d (near a) = some p)
    (hnear : ∀ {c p}, d.page? c = some p → ∀ m, neighbours p m =
      ((d.arcsOn c).reverse.filter fun a => decide (near a = m)).map far) (i : ObjectId) :
    (aliasClass d i).any (fun m => ((pageOf? d m).map fun p =>
      !(neighbours p m).isEmpty).getD false) = true ↔
      ∃ k a, d.arc? k = some a ∧ SameNode d i (near a) := by
  have hr := hd.registered
  rw [List.any_eq_true]
  constructor
  · rintro ⟨m, hm, hjoined⟩
    rw [mem_aliasClass_iff hd.aliased hr.distinct] at hm
    cases hp : pageOf? d m with
    | none => simp [hp] at hjoined
    | some p =>
      obtain ⟨c, hc⟩ : ∃ c, d.page? c = some p := by
        unfold pageOf? at hp
        split at hp
        · exact ⟨_, hp⟩
        · cases hp
      have hsome : neighbours p m ≠ [] := by simpa [hp] using hjoined
      rw [hnear hc, Ne, List.map_eq_nil_iff, List.filter_eq_nil_iff] at hsome
      push Not at hsome
      obtain ⟨a, ha, hat⟩ := hsome
      obtain rfl := of_decide_eq_true hat
      exact ⟨a.id, a, ((Document.mem_arcsOn hr).mp (List.mem_reverse.mp ha)).1, hm⟩
  · rintro ⟨k, a, ha, hm⟩
    obtain ⟨c, p, hc, hon, hp⟩ := hpage ha
    refine ⟨near a, (mem_aliasClass_iff hd.aliased hr.distinct).mpr hm, ?_⟩
    have hsome : neighbours p (near a) ≠ [] := by
      rw [hnear hc, Ne, List.map_eq_nil_iff, List.filter_eq_nil_iff]
      exact fun h => h a (List.mem_reverse.mpr hon) (decide_eq_true rfl)
    simpa [hp] using hsome

theorem hasInput_iff (i : ObjectId) : hasInput d i = true ↔ Entered d i := by
  refine any_neighbour_iff hd (fun ha => ?_) (fun hp => (hd.inStep hp).predecessors_eq) i
  obtain ⟨c, p, hc, hon, -, ht⟩ := page_of_arc hd ha
  exact ⟨c, p, hc, hon, ht⟩

theorem hasOutput_iff (i : ObjectId) : hasOutput d i = true ↔ Left d i := by
  refine any_neighbour_iff hd (fun ha => ?_) (fun hp => (hd.inStep hp).successors_eq) i
  obtain ⟨c, p, hc, hon, hs, -⟩ := page_of_arc hd ha
  exact ⟨c, p, hc, hon, hs⟩

end Arcs

def Isolated (d : Document) (i : ObjectId) : Prop := ¬ Entered d i ∧ ¬ Left d i

/-- What a node is warned of. A node that is isolated gets no warning. -/
inductive Warned (d : Document) (i : ObjectId) : String → Prop
  | empty {p : Place} (place : d.place? i = some p) (input : ¬ Entered d i) (output : Left d i)
    (tokens : Holds d i 0) : Warned d i s!"库所 {i} 无输入弧且初始标记为 0，永远不会被激活"
  | noInput {t : Transition} (transition : d.transition? i = some t) (input : ¬ Entered d i)
    (output : Left d i) : Warned d i s!"变迁 {i} 无前置库所，永远无法触发"
  | noOutput {t : Transition} (transition : d.transition? i = some t) (input : Entered d i)
    (output : ¬ Left d i) : Warned d i s!"变迁 {i} 无后置库所，检查是否为预期行为"

/-- A report lists the isolated nodes of a page and the warnings of the others, in the order of the
table of nodes, and nothing else. -/
structure Reports (d : Document) (p : Page) (r : Diagnosis) : Prop where
  page : r.page = p.id
  distinct : p.nodes.keys.Nodup
  isolatedPlaces : r.isolatedPlaces.Sublist p.nodes.keys ∧ ∀ i, i ∈ r.isolatedPlaces ↔
    i ∈ p.nodes.keys ∧ (∃ q, d.place? i = some q) ∧ Isolated d i
  isolatedTransitions : r.isolatedTransitions.Sublist p.nodes.keys ∧
    ∀ i, i ∈ r.isolatedTransitions ↔
      i ∈ p.nodes.keys ∧ (∃ t, d.transition? i = some t) ∧ Isolated d i
  warnings : ∃ said : List (ObjectId × String), r.warnings = said.map (·.2) ∧
    (said.map (·.1)).Sublist p.nodes.keys ∧
    ∀ i text, (i, text) ∈ said ↔ i ∈ p.nodes.keys ∧ Warned d i text
  totals : r.totalPlaces + r.totalTransitions = p.nodes.size

namespace Diagnosis

def isLonelyPlace (d : Document) (i : ObjectId) : Bool :=
  (d.place? i).isSome && !hasInput d i && !hasOutput d i

def isLonelyTransition (d : Document) (i : ObjectId) : Bool :=
  (d.transition? i).isSome && !hasInput d i && !hasOutput d i

def warning? (d : Document) (i : ObjectId) : Option String :=
  match d.object? i with
  | some (.place p) =>
    if !hasInput d i && hasOutput d i && initialTokens d p == 0 then
      some s!"库所 {i} 无输入弧且初始标记为 0，永远不会被激活"
    else none
  | some (.transition _) =>
    if !hasInput d i && hasOutput d i then some s!"变迁 {i} 无前置库所，永远无法触发"
    else if hasInput d i && !hasOutput d i then some s!"变迁 {i} 无后置库所，检查是否为预期行为"
    else none
  | _ => none

theorem addNode_place {p : Place} (ho : d.object? i = some (.place p)) (r : Diagnosis) :
    r.addNode d i =
      { r with
        isolatedPlaces := r.isolatedPlaces ++ [i].filter (isLonelyPlace d)
        warnings := r.warnings ++ (warning? d i).toList
        totalPlaces := r.totalPlaces + 1 } := by
  have hlonely : isLonelyPlace d i = (!hasInput d i && !hasOutput d i) := by
    rw [isLonelyPlace, place?_eq_some_iff.mpr ho, Option.isSome_some, Bool.true_and]
  simp only [addNode, ho, addPlace, warn, warning?, List.filter_cons, List.filter_nil, hlonely]
  cases hasInput d i <;> cases hasOutput d i <;> cases initialTokens d p == 0 <;> simp

theorem addNode_transition {t : Transition} (ho : d.object? i = some (.transition t))
    (r : Diagnosis) :
    r.addNode d i =
      { r with
        isolatedTransitions := r.isolatedTransitions ++ [i].filter (isLonelyTransition d)
        warnings := r.warnings ++ (warning? d i).toList
        totalTransitions := r.totalTransitions + 1 } := by
  have hlonely : isLonelyTransition d i = (!hasInput d i && !hasOutput d i) := by
    rw [isLonelyTransition, transition?_eq_some_iff.mpr ho, Option.isSome_some, Bool.true_and]
  simp only [addNode, ho, addTransition, warn, warning?, List.filter_cons, List.filter_nil,
    hlonely]
  cases hasInput d i <;> cases hasOutput d i <;> simp

structure Extends (d : Document) (nodes : List ObjectId) (r s : Diagnosis) : Prop where
  page : s.page = r.page
  places : s.isolatedPlaces = r.isolatedPlaces ++ nodes.filter (isLonelyPlace d)
  transitions : s.isolatedTransitions = r.isolatedTransitions ++ nodes.filter (isLonelyTransition d)
  warnings : s.warnings = r.warnings ++ nodes.filterMap (warning? d)
  totals : s.totalPlaces + s.totalTransitions = r.totalPlaces + r.totalTransitions + nodes.length

theorem extends_addNode {o : Object} (ho : d.object? i = some o) (hk : o.kind.isNode = true)
    (r : Diagnosis) : Extends d [i] r (r.addNode d i) := by
  cases o with
  | place p =>
    have hno : isLonelyTransition d i = false := by
      simp [isLonelyTransition, Document.transition?, ho, Object.transition?]
    rw [addNode_place ho]
    constructor
    case page => rfl
    case places => rfl
    case transitions => simp [hno]
    case warnings => cases hw : warning? d i <;> simp [hw]
    case totals => simp only [List.length_singleton]; omega
  | transition t =>
    have hno : isLonelyPlace d i = false := by
      simp [isLonelyPlace, Document.place?, ho, Object.place?]
    rw [addNode_transition ho]
    constructor
    case page => rfl
    case places => simp [hno]
    case transitions => rfl
    case warnings => cases hw : warning? d i <;> simp [hw]
    case totals => simp only [List.length_singleton]; omega
  | net n => cases hk
  | page p => cases hk
  | arc a => cases hk

theorem Extends.append {nodes more : List ObjectId} {r s t : Diagnosis} (h : Extends d nodes r s)
    (h' : Extends d more s t) : Extends d (nodes ++ more) r t where
  page := h'.page.trans h.page
  places := by rw [h'.places, h.places, List.filter_append, List.append_assoc]
  transitions := by rw [h'.transitions, h.transitions, List.filter_append, List.append_assoc]
  warnings := by rw [h'.warnings, h.warnings, List.filterMap_append, List.append_assoc]
  totals := by rw [h'.totals, h.totals, List.length_append, Nat.add_assoc]

theorem extends_foldl {nodes : List ObjectId}
    (hn : ∀ i ∈ nodes, ∃ o, d.object? i = some o ∧ o.kind.isNode = true) (r : Diagnosis) :
    Extends d nodes r (nodes.foldl (addNode d) r) := by
  induction nodes generalizing r with
  | nil => exact ⟨rfl, by simp, by simp, by simp, rfl⟩
  | cons i nodes ih =>
    obtain ⟨o, ho, hk⟩ := hn i List.mem_cons_self
    exact (extends_addNode ho hk r).append (ih (fun j hj => hn j (List.mem_cons_of_mem _ hj)) _)

end Diagnosis

section Judged

variable (hd : d.Reachable Edit.IsPlain)
include hd

theorem isolated_iff (i : ObjectId) :
    Isolated d i ↔ hasInput d i = false ∧ hasOutput d i = false := by
  rw [Isolated, ← hasInput_iff hd, ← hasOutput_iff hd, Bool.not_eq_true, Bool.not_eq_true]

theorem isLonelyPlace_iff (i : ObjectId) :
    Diagnosis.isLonelyPlace d i = true ↔ (∃ q, d.place? i = some q) ∧ Isolated d i := by
  rw [isolated_iff hd, Diagnosis.isLonelyPlace, ← Option.isSome_iff_exists]
  simp [and_assoc]

theorem isLonelyTransition_iff (i : ObjectId) :
    Diagnosis.isLonelyTransition d i = true ↔ (∃ t, d.transition? i = some t) ∧ Isolated d i := by
  rw [isolated_iff hd, Diagnosis.isLonelyTransition, ← Option.isSome_iff_exists]
  simp [and_assoc]

theorem warned_iff (i : ObjectId) (text : String) :
    Diagnosis.warning? d i = some text ↔ Warned d i text := by
  have hin := hasInput_iff hd i
  have hout := hasOutput_iff hd i
  constructor
  · intro h
    unfold Diagnosis.warning? at h
    split at h
    · next p ho =>
      have hp := place?_eq_some_iff.mpr ho
      split at h
      · next hc =>
        simp only [Bool.and_eq_true, Bool.not_eq_true', beq_iff_eq] at hc
        cases h
        exact .empty hp (fun he => by simp [hin.mpr he] at hc) (hout.mp hc.1.2)
          ((holds_iff hd.aliased hp).mpr hc.2)
      · cases h
    · next t ho =>
      have ht := transition?_eq_some_iff.mpr ho
      split at h
      · next hc =>
        simp only [Bool.and_eq_true, Bool.not_eq_true'] at hc
        cases h
        exact .noInput ht (fun he => by simp [hin.mpr he] at hc) (hout.mp hc.2)
      · split at h
        · next hc =>
          simp only [Bool.and_eq_true, Bool.not_eq_true'] at hc
          cases h
          exact .noOutput ht (hin.mp hc.1) fun hl => by simp [hout.mpr hl] at hc
        · cases h
    · cases h
  · intro h
    cases h with
    | empty hp hi ho ht =>
      rw [← hin, Bool.not_eq_true] at hi
      simp [Diagnosis.warning?, place?_eq_some_iff.mp hp, hi, hout.mpr ho,
        (holds_iff hd.aliased hp).mp ht]
    | noInput ht hi ho =>
      rw [← hin, Bool.not_eq_true] at hi
      simp [Diagnosis.warning?, transition?_eq_some_iff.mp ht, hi, hout.mpr ho]
    | noOutput ht hi ho =>
      rw [← hout, Bool.not_eq_true] at ho
      simp [Diagnosis.warning?, transition?_eq_some_iff.mp ht, hin.mpr hi, ho]

theorem exists_reports {p : Page} (hp : d.page? c = some p) :
    ∃ r, Diagnosis.ofPage d c = .ok r ∧ Reports d p r := by
  have hc := Document.contained_of_tabled hd.registered hd.tabled
  obtain ⟨hdistinct, hnodes⟩ := hc.nodes c p hp
  have h := Diagnosis.extends_foldl (fun i hi => by
    obtain ⟨o, ho, hk, -⟩ := (hnodes i).mp hi
    exact ⟨o, ho, hk⟩) { page := p.id }
  refine ⟨_, by rw [Diagnosis.ofPage, page?_eq_some_iff.mp hp], ?_⟩
  constructor
  case page => exact h.page
  case distinct => exact hdistinct
  case isolatedPlaces =>
    rw [h.places, List.nil_append]
    exact ⟨List.filter_sublist, fun i => by rw [List.mem_filter, isLonelyPlace_iff hd]⟩
  case isolatedTransitions =>
    rw [h.transitions, List.nil_append]
    exact ⟨List.filter_sublist, fun i => by rw [List.mem_filter, isLonelyTransition_iff hd]⟩
  case warnings =>
    refine ⟨p.nodes.keys.filterMap fun i => (Diagnosis.warning? d i).map (i, ·), ?_, ?_, ?_⟩
    · rw [h.warnings, List.nil_append, List.map_filterMap]
      refine List.filterMap_congr fun i _ => ?_
      cases Diagnosis.warning? d i <;> rfl
    · exact Table.sublist_of_pairs _ _
    · intro i text
      rw [List.mem_filterMap, ← warned_iff hd]
      constructor
      · rintro ⟨j, hj, hsaid⟩
        obtain ⟨t, ht, heq⟩ := Option.map_eq_some_iff.mp hsaid
        cases heq
        exact ⟨hj, ht⟩
      · rintro ⟨hi, hsaid⟩
        exact ⟨i, hi, by rw [hsaid]; rfl⟩
  case totals =>
    rw [h.totals]
    simp [Table.size, Table.keys]

end Judged

structure Judged (d : Document) : Prop where
  referent : ∀ i, ∃! j, SameNode d i j ∧ d.refersTo? j = none
  ends : ∀ i, (∀ fuel, d.size ≤ fuel → d.referenceChain fuel i = d.referents i) ∧
    (∀ fuel, linkCount d + 1 ≤ fuel → spread d fuel [referentOf d i] [] = aliasClass d i) ∧
    ∀ p, d.place? i = some p → ∀ fuel, d.size ≤ fuel →
      referentPlace d fuel p = referentPlace d d.size p
  input : ∀ i, hasInput d i = true ↔ Entered d i
  output : ∀ i, hasOutput d i = true ↔ Left d i
  alike : ∀ i j, SameNode d i j → hasInput d i = hasInput d j ∧ hasOutput d i = hasOutput d j
  reports : ∀ c p, d.page? c = some p → ∃ r, Diagnosis.ofPage d c = .ok r ∧ Reports d p r

/-- Diagnoses judge a node together with all its aliases, by all arcs of the document. -/
theorem judged_of_reachable (hd : d.Reachable Edit.IsPlain) : Judged d where
  referent := existsUnique_referent hd.aliased.grounded
  ends := fun i => ⟨fun _ hf => Document.referenceChain_of_chainEnds
      (Document.chainEnds hd.aliased.grounded (Nat.le_refl _) i) hf,
    fun _ hf => spread_of_le hd.registered.distinct (length_pending_singleton d _) hf,
    fun _ hp _ hf => referentPlace_of_le hd.aliased hp hf⟩
  input := hasInput_iff hd
  output := hasOutput_iff hd
  alike := fun i j h => by
    rw [hasInput, hasOutput, aliasClass_congr hd.aliased.grounded h]
    exact ⟨rfl, rfl⟩
  reports := fun _ _ => exists_reports hd

/-- An empty place and a transition that takes from it; on another page an alias of the place, whose
own tokens do not count, and a place that nothing touches. -/
def sharedRun : List Action :=
  [.edit (.addNet { id := ⟨"n"⟩, format := .placeTransition }),
    .edit (.add ⟨"n"⟩ (.page { id := ⟨"p"⟩ })),
    .edit (.add ⟨"n"⟩ (.page { id := ⟨"q"⟩ })),
    .edit (.add ⟨"p"⟩ (.place { id := ⟨"a"⟩ })),
    .edit (.add ⟨"p"⟩ (.transition { id := ⟨"t"⟩ })),
    .edit (.add ⟨"p"⟩ (.arc { id := ⟨"at"⟩, source := ⟨"a"⟩, target := ⟨"t"⟩ })),
    .edit (.add ⟨"q"⟩ (.place { id := ⟨"b"⟩, tokens := 2, node := { reference := some ⟨"a"⟩ } })),
    .edit (.add ⟨"q"⟩ (.place { id := ⟨"c"⟩ }))]

theorem uses_sharedRun : ∀ a ∈ sharedRun, a.Uses Edit.IsPlain := by
  intro a ha
  simp only [sharedRun, List.mem_cons, List.not_mem_nil, or_false] at ha
  rcases ha with rfl | rfl | rfl | rfl | rfl | rfl | rfl | rfl
  · exact ⟨rfl, rfl⟩
  · exact ⟨rfl, rfl, rfl, rfl, rfl⟩
  · exact ⟨rfl, rfl, rfl, rfl, rfl⟩
  all_goals trivial

theorem judged_sharedRun :
    (Document.run sharedRun).Reachable Edit.IsPlain ∧ Judged (Document.run sharedRun) ∧
      Diagnosis.ofPage (Document.run sharedRun) ⟨"q"⟩ = .ok
        { page := ⟨"q"⟩
          isolatedPlaces := [⟨"c"⟩]
          warnings := ["库所 b 无输入弧且初始标记为 0，永远不会被激活"]
          totalPlaces := 2 } :=
  ⟨⟨sharedRun, uses_sharedRun, rfl⟩, judged_of_reachable ⟨sharedRun, uses_sharedRun, rfl⟩,
    by decide⟩

end PagedNets.Report
