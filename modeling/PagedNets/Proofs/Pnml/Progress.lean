import PagedNets.Proofs.Pnml.Readable
import PagedNets.Proofs.Pnml.Replay

/-!
Reading goes through the visits of a net one after the other, and then links its aliases. A visit
succeeds if its element can be read and its object fits in with those that are there.
-/

set_option autoImplicit false

namespace PagedNets.Pnml

open Plate (Along Fits Housed along_append)
open Xml (Node)

section Steps

variable {d e : Document} {first second steps : List Step}

/-- The document after a step that succeeds. -/
def take (d : Document) : Step → Option Document
  | .edit change => (d.edit change).toOption
  | .finished _ _ => some d
  | .fail _ => none

def advance (d : Document) (steps : List Step) : Option Document := steps.foldlM take d

theorem advance_nil : advance d [] = some d := rfl

theorem advance_cons (step : Step) :
    advance d (step :: steps) = (take d step).bind (advance · steps) := List.foldlM_cons

theorem advance_append :
    advance d (first ++ second) = (advance d first).bind (advance · second) := List.foldlM_append

theorem advance_fail (fault : ReadError) : advance d (.fail fault :: steps) = none := rfl

def finishedNets (steps : List Step) : List ObjectId :=
  steps.filterMap fun
    | .finished net _ => some net
    | _ => none

theorem finishedNets_append (first second : List Step) :
    finishedNets (first ++ second) = finishedNets first ++ finishedNets second :=
  List.filterMap_append

theorem performs_of_take {step : Step} (h : take d step = some e) :
    Performs d [step] (finishedNets [step]) e := by
  cases step with
  | edit change =>
    cases he : d.edit change with
    | error cause => simp [take, he, Except.toOption] at h
    | ok next =>
      simp only [take, he, Except.toOption, Option.some.injEq] at h
      subst h
      exact .edit he
  | finished net format =>
    cases h
    exact .finished
  | fail fault => cases h

theorem performs_of_advance (h : advance d steps = some e) :
    Performs d steps (finishedNets steps) e := by
  induction steps generalizing d with
  | nil =>
    cases h
    exact .nil
  | cons step steps ih =>
    rw [advance_cons] at h
    obtain ⟨next, hnext, hrest⟩ := Option.bind_eq_some_iff.mp h
    rw [← List.singleton_append, finishedNets_append]
    exact (performs_of_take hnext).append (ih hrest)

theorem advance_of_result {nets : List ObjectId} (h : (perform d steps).result = .ok nets) :
    ∃ e, advance d steps = some e := by
  induction steps generalizing d nets with
  | nil => exact ⟨d, rfl⟩
  | cons step steps ih =>
    rw [advance_cons]
    cases step with
    | edit change =>
      cases he : d.edit change with
      | error cause => simp [perform, he] at h
      | ok next =>
        simp only [perform, he] at h
        simp only [take, he, Except.toOption, Option.bind_some]
        exact ih h
    | finished net format =>
      obtain ⟨rest, hrest, -⟩ := map_eq_ok h
      exact ih hrest
    | fail fault => cases h

/-- Reading ends well if every step succeeds. -/
theorem exists_result_iff :
    (∃ nets, (perform d steps).result = .ok nets) ↔ ∃ e, advance d steps = some e := by
  constructor
  · exact fun ⟨nets, h⟩ => advance_of_result h
  · exact fun ⟨e, h⟩ => ⟨_, (performs_of_advance h).perform_eq.2⟩

theorem advance_congr {other : List Step} (h : perform d steps = perform d other) :
    advance d steps = advance d other := by
  rw [Option.ext_iff]
  have hone : ∀ {s t : List Step} {e : Document}, perform d s = perform d t →
      advance d s = some e → advance d t = some e := by
    intro s t e hst he
    obtain ⟨hdoc, hresult⟩ := (performs_of_advance he).perform_eq
    obtain ⟨f, hf⟩ := advance_of_result (hst ▸ hresult)
    rw [hf, ← (performs_of_advance hf).perform_eq.1, ← hst, hdoc]
  exact fun e => ⟨hone h, hone h.symm⟩

/-- Steps that do the same from every document on do the same behind any others. -/
theorem perform_append_congr (first : List Step) {other : List Step}
    (h : ∀ e, perform e second = perform e other) (d : Document) :
    perform d (first ++ second) = perform d (first ++ other) := by
  induction first generalizing d with
  | nil => exact h d
  | cons step first ih =>
    cases step with
    | edit change =>
      simp only [List.cons_append, perform]
      split
      · rfl
      · rw [ih]
    | finished net format => simp only [List.cons_append, perform, ih]
    | fail fault => rfl

theorem exists_advance_append : (∃ e, advance d (first ++ second) = some e) ↔
    ∃ next, advance d first = some next ∧ ∃ e, advance next second = some e := by
  simp only [advance_append, Option.bind_eq_some_iff]
  constructor
  · exact fun ⟨e, next, hnext, he⟩ => ⟨next, hnext, e, he⟩
  · exact fun ⟨next, hnext, e, he⟩ => ⟨e, next, hnext, he⟩

end Steps

def Visit.step (v : Visit) : Step :=
  match v.owner with
  | some w => admission w.id (objectOf v.kind v.element)
  | none =>
    match netOf v.element with
    | .ok net => .edit (.addNet net)
    | .error fault => .fail fault

section Script

theorem nodeSteps_eq (page : ObjectId) (n : Node) :
    nodeSteps page n = (nodeVisits page n).map Visit.step := by
  rw [nodeVisits, List.map_filterMap, nodeSteps]
  refine congrArg (List.filterMap · n.children) (funext fun child => ?_)
  rw [nodeOf?_eq]
  cases nodeKind? child <;> rfl

theorem arcSteps_eq (page : ObjectId) (n : Node) :
    arcSteps page n = (arcVisits page n).map Visit.step := by
  rw [arcVisits, List.map_map]
  rfl

mutual

theorem perform_pageSteps (w : Owner) (n : Node) (more : List Step) (d : Document) :
    perform d (pageSteps w.id n ++ more) =
      perform d ((pageVisits w n).map Visit.step ++ more) := by
  cases n with
  | element tag attributes children =>
    rw [pageSteps, pageVisits]
    cases h : requiredId (.element tag attributes children) "id" with
    | error fault =>
      have hstep : Visit.step
          { owner := some w, kind := .page, element := .element tag attributes children } =
            .fail fault := by
        simp [Visit.step, objectOf, h, Except.map, admission]
      simp only [List.cons_append, List.map_cons, hstep, perform]
    | ok i =>
      have hstep : Visit.step
          { owner := some w, kind := .page, element := .element tag attributes children } = .edit
            (.add w.id (.page { id := i, name := nameOf (.element tag attributes children) })) := by
        simp [Visit.step, objectOf, h, Except.map, admission]
      have hi := idOf_of_requiredId h
      simp only [List.map_append, List.map_cons, hstep, nodeSteps_eq, arcSteps_eq, ← hi,
        List.append_assoc]
      exact perform_append_congr (_ :: _)
        (perform_append_congr _ (perform_nestedSteps (.page i) children more)) d
  | text content => rfl
  | aside => rfl

theorem perform_nestedSteps (w : Owner) (children : List Node) (more : List Step) (d : Document) :
    perform d (nestedSteps w.id children ++ more) =
      perform d ((nestedVisits w children).map Visit.step ++ more) := by
  cases children with
  | nil => rfl
  | cons child rest =>
    rw [nestedSteps, nestedVisits, List.map_append, List.append_assoc, List.append_assoc,
      perform_append_congr _ (perform_nestedSteps w rest more)]
    split
    · exact perform_pageSteps w child _ d
    · rfl

end

/-- A net is read by its visits, its aliases are linked last, and then it is reported. -/
theorem perform_netSteps (n : Node) : ∃ format, ∀ more d, perform d (netSteps n ++ more) =
    perform d ((netVisits n).map Visit.step ++ (nestedLinks n.children ++
      .finished (idOf n) format :: more)) := by
  rw [netSteps, netVisits, List.map_cons]
  cases h : netOf n with
  | error fault =>
    have hstep : Visit.step { owner := none, kind := .net, element := n } = .fail fault := by
      simp [Visit.step, h]
    rw [hstep]
    exact ⟨.placeTransition, fun more d => rfl⟩
  | ok net =>
    have hstep : Visit.step { owner := none, kind := .net, element := n } =
        .edit (.addNet net) := by
      simp [Visit.step, h]
    refine ⟨net.format, fun more d => ?_⟩
    rw [hstep, ← (spec_netOf h).1]
    simp only [List.cons_append, List.append_assoc, List.nil_append]
    exact perform_append_congr [_] (perform_nestedSteps (.net net.id) n.children _) d

theorem advance_netSteps (n : Node) (d : Document) : advance d (netSteps n) =
    (advance d ((netVisits n).map Visit.step)).bind (advance · (nestedLinks n.children)) := by
  obtain ⟨format, h⟩ := perform_netSteps n
  have hn := advance_congr (h [] d)
  have hend : ∀ e, advance e [.finished (idOf n) format] = some e := fun _ => rfl
  rw [List.append_nil] at hn
  rw [hn, ← List.append_assoc, advance_append, advance_append]
  simp only [hend, Option.bind_fun_some]

theorem finishedNets_visits (vs : List Visit) : finishedNets (vs.map Visit.step) = [] := by
  rw [finishedNets, List.filterMap_map, List.filterMap_eq_nil_iff]
  intro v _
  rw [Function.comp_apply, Visit.step]
  cases v.owner with
  | some w => cases objectOf v.kind v.element <;> rfl
  | none => cases netOf v.element <;> rfl

mutual

theorem finishedNets_pageSteps (parent : ObjectId) (n : Node) :
    finishedNets (pageSteps parent n) = [] := by
  cases n with
  | element tag attributes children =>
    rw [pageSteps]
    cases requiredId (.element tag attributes children) "id" with
    | error fault => rfl
    | ok i =>
      dsimp only
      rw [finishedNets_append, finishedNets_nestedSteps i children, nodeSteps_eq, arcSteps_eq,
        ← List.singleton_append, finishedNets_append, finishedNets_append, finishedNets_visits,
        finishedNets_visits]
      rfl
  | text content => rfl
  | aside => rfl

theorem finishedNets_nestedSteps (parent : ObjectId) (children : List Node) :
    finishedNets (nestedSteps parent children) = [] := by
  cases children with
  | nil => rfl
  | cons child rest =>
    rw [nestedSteps, finishedNets_append, finishedNets_nestedSteps parent rest]
    split
    · rw [finishedNets_pageSteps parent child]
      rfl
    · rfl

end

end Script

section Visits

variable {d e : Document} {v : Visit} {o : Object} {w : Owner}

theorem Describes.plate_admitted (h : Describes v o) (hw : v.owner = some w) (hk : v.kind ≠ .net) :
    (o.admitted w).plate = v.plate := by
  have howner : (o.admitted w).owner = some w := Object.owner_admitted w (h.kind ▸ hk)
  have hends : (o.admitted w).ends = o.ends := by cases o <;> rfl
  simp only [Object.plate, Object.label, Visit.plate, Object.id_admitted, Object.kind_admitted,
    Object.scopedName_admitted, howner, hends, h.id, h.kind, h.ends, h.name, hw]

theorem Describes.plate_net {n : Net} (h : Describes v (.net n)) (hw : v.owner = none) :
    (Object.net n).plate = v.plate := by
  have howner : (Object.net n).owner = none := rfl
  simp only [Object.plate, Object.label, Visit.plate, howner, h.id, h.kind, h.ends, h.name, hw]

theorem exists_take_edit {change : Edit} :
    (∃ e, take d (.edit change) = some e) ↔ ∃ e, d.edit change = .ok e := by
  rw [take]
  cases d.edit change <;> simp [Except.toOption]

theorem edit_of_take {change : Edit} (h : take d (.edit change) = some e) :
    d.edit change = .ok e := by
  cases he : d.edit change with
  | error cause => simp [take, he, Except.toOption] at h
  | ok next => simpa [take, he, Except.toOption] using h

theorem housed_cases {ps : List Plate} (h : Housed ps v.plate) :
    v.owner = none ∧ v.kind = .net ∨ ∃ w, v.owner = some w ∧ v.kind ≠ .net := by
  rcases h with ⟨hk, ho⟩ | ⟨w, ho, -, hk, -⟩
  · exact .inl ⟨ho, hk⟩
  · exact .inr ⟨w, ho, hk⟩

section

variable (hd : d.Reachable Edit.IsPlain) (hv : Housed d.plates v.plate)
include hd hv

theorem exists_take_iff :
    (∃ e, take d v.step = some e) ↔ IsReadable v.kind v.element ∧ Fits d.plates v.plate := by
  rw [← gives_objectOf_iff]
  rcases housed_cases hv with ⟨howner, hkind⟩ | ⟨w, howner, hkind⟩
  · rw [Visit.step, howner, hkind, objectOf, gives_map]
    cases h : netOf v.element with
    | error fault => simp [take]
    | ok net =>
      have hdescribes : Describes v (.net net) :=
        describes_of_objectOf (by simp [hkind, objectOf, h, Except.map])
      rw [exists_take_edit, gives_ok, ← hdescribes.plate_net howner]
      simp only [Object.IsFinite, true_and]
      exact hd.registered.addNet_iff
  · simp only [Visit.step, howner]
    cases h : objectOf v.kind v.element with
    | error fault => simp [take, admission]
    | ok o =>
      have hdescribes := describes_of_objectOf h
      have hplate := hdescribes.plate_admitted howner hkind
      rw [admission, exists_take_edit, gives_ok, ← hplate]
      exact hd.add_iff (hplate ▸ hv) (hdescribes.kind ▸ hkind) hdescribes.reference

/-- What a visit brings: a net at the end, or an object that its container admits. -/
theorem entry_of_take (h : take d v.step = some e) : ∃ o, objectOf v.kind v.element = .ok o ∧
    ((∃ n, o = .net n ∧ v.owner = none ∧ d.addNet n = .ok e) ∨
      ∃ w c, v.owner = some w ∧ d.Admissible w.id o c w ∧ e = d.enter w.id (o.admitted w)) := by
  rcases housed_cases hv with ⟨howner, hkind⟩ | ⟨w, howner, hkind⟩
  · rw [Visit.step, howner] at h
    cases hn : netOf v.element with
    | error fault => simp [hn, take] at h
    | ok net =>
      simp only [hn] at h
      exact ⟨.net net, by simp [hkind, objectOf, hn, Except.map],
        .inl ⟨net, rfl, howner, edit_of_take h⟩⟩
  · simp only [Visit.step, howner] at h
    cases ho : objectOf v.kind v.element with
    | error fault => simp [ho, take, admission] at h
    | ok o =>
      rw [ho, admission] at h
      obtain ⟨c, -, hc, hcw, -⟩ := hd.container_of_housed hv howner
      obtain ⟨c', w', hadmissible, rfl⟩ := Document.add_eq_ok_iff.mp (edit_of_take h)
      have hsame : w' = w := by
        have hfound := hadmissible.found
        have how := hadmissible.owner
        rw [hc] at hfound
        cases hfound
        rw [hcw] at how
        exact (Option.some.inj how).symm
      subst hsame
      exact ⟨o, rfl, .inr ⟨w', c', howner, hadmissible, rfl⟩⟩

theorem of_take (h : take d v.step = some e) : e.Reachable Edit.IsPlain ∧
    e.plates = d.plates ++ [v.plate] ∧ ∀ i, e.refersTo? i = d.refersTo? i := by
  obtain ⟨o, ho, hentry⟩ := entry_of_take hd hv h
  have hdescribes := describes_of_objectOf ho
  rcases hentry with ⟨n, rfl, howner, hadd⟩ | ⟨w, c, howner, hadmissible, rfl⟩
  · have hplain : (Edit.addNet n).IsPlain := hdescribes.bare
    obtain ⟨-, hfresh, rfl⟩ := Document.addNet_eq_ok_iff.mp hadd
    refine ⟨hd.edit hplain hadd, ?_, fun i => ?_⟩
    · rw [Document.plates_append, hdescribes.plate_net howner]
    · rw [Document.refersTo?_append hfresh]
      split
      · next hi =>
        have hnone : d.refersTo? i = none := by
          rw [hi]
          exact Document.refersTo?_of_isNone hfresh
        exact hnone.symm
      · rfl
  · have hplain : (Edit.add w.id o).IsPlain := hdescribes.bare
    have hadd := Document.add_eq_ok_iff.mpr ⟨c, w, hadmissible, rfl⟩
    obtain ⟨names, hscope, -⟩ := hadmissible.scope
    have hkind : v.kind ≠ .net := hdescribes.kind ▸ Object.kind_ne_net_of_scopeFor hscope
    have hfresh : d.object? (o.admitted w).id = none := by
      rw [Object.id_admitted]
      exact hadmissible.fresh
    refine ⟨hd.edit hplain hadd, ?_, fun i => ?_⟩
    · rw [Document.plates_enter, hdescribes.plate_admitted howner hkind]
    · rw [Document.refersTo?_enter hfresh, Object.reference?_admitted, hdescribes.reference]
      split
      · next hi => rw [hi, Document.refersTo?_of_isNone hfresh]
      · rfl

end

theorem exists_advance_iff {vs : List Visit} (hd : d.Reachable Edit.IsPlain)
    (hvs : Along Housed d.plates (vs.map Visit.plate)) :
    (∃ e, advance d (vs.map Visit.step) = some e) ↔
      (∀ v ∈ vs, IsReadable v.kind v.element) ∧ Along Fits d.plates (vs.map Visit.plate) := by
  induction vs generalizing d with
  | nil => simp [advance_nil, Along]
  | cons v vs ih =>
    obtain ⟨hv, hrest⟩ := hvs
    have hstep := exists_take_iff hd hv
    simp only [List.map_cons, advance_cons, Option.bind_eq_some_iff, List.forall_mem_cons, Along]
    constructor
    · rintro ⟨e, next, hnext, he⟩
      obtain ⟨hread, hfits⟩ := hstep.mp ⟨next, hnext⟩
      obtain ⟨hreach, hplates, -⟩ := of_take hd hv hnext
      rw [← hplates] at hrest ⊢
      obtain ⟨hreads, hall⟩ := (ih hreach hrest).mp ⟨e, he⟩
      exact ⟨⟨hread, hreads⟩, hfits, hall⟩
    · rintro ⟨⟨hread, hreads⟩, hfits, hall⟩
      obtain ⟨next, hnext⟩ := hstep.mpr ⟨hread, hfits⟩
      obtain ⟨hreach, hplates, -⟩ := of_take hd hv hnext
      rw [← hplates] at hrest hall
      obtain ⟨e, he⟩ := (ih hreach hrest).mpr ⟨hreads, hall⟩
      exact ⟨e, next, hnext, he⟩

theorem of_advance {vs : List Visit} (hd : d.Reachable Edit.IsPlain)
    (hvs : Along Housed d.plates (vs.map Visit.plate))
    (h : advance d (vs.map Visit.step) = some e) : e.Reachable Edit.IsPlain ∧
      e.plates = d.plates ++ vs.map Visit.plate ∧ ∀ i, e.refersTo? i = d.refersTo? i := by
  induction vs generalizing d with
  | nil =>
    cases h
    exact ⟨hd, (List.append_nil _).symm, fun _ => rfl⟩
  | cons v vs ih =>
    obtain ⟨hv, hrest⟩ := hvs
    rw [List.map_cons, advance_cons] at h
    obtain ⟨next, hnext, he⟩ := Option.bind_eq_some_iff.mp h
    obtain ⟨hreach, hplates, hrefers⟩ := of_take hd hv hnext
    rw [← hplates] at hrest
    obtain ⟨hereach, heplates, herefers⟩ := ih hreach hrest he
    refine ⟨hereach, ?_, fun i => (herefers i).trans (hrefers i)⟩
    rw [heplates, hplates, List.append_assoc]
    rfl

end Visits

end PagedNets.Pnml
