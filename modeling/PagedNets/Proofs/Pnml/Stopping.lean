import PagedNets.Proofs.Pnml.Acceptance

set_option autoImplicit false

namespace PagedNets.Pnml

open Xml (Node)

def refusal (d : Document) : Step → Option ReadError
  | .edit change =>
    match d.edit change with
    | .ok _ => none
    | .error cause => some (.refused cause)
  | .finished _ _ => none
  | .fail fault => some fault

/-- The steps come to an end in this document for this cause, and nothing behind them is looked
at. -/
structure Stops (d : Document) (steps : List Step) (e : Document) (cause : ReadError) : Prop where
  document : ∀ rest, (perform d (steps ++ rest)).document = e
  result : ∀ rest, (perform d (steps ++ rest)).result = .error cause

section Steps

variable {d e f : Document} {step : Step} {steps first second : List Step} {cause : ReadError}
  {nets : List ObjectId}

theorem stops_of_refusal (h : refusal d step = some cause) : Stops d [step] d cause := by
  cases step with
  | edit change =>
    cases he : d.edit change with
    | ok next => simp [refusal, he] at h
    | error fault =>
      simp only [refusal, he, Option.some.injEq] at h
      subst h
      constructor <;> intro rest <;> simp only [List.singleton_append, perform, he]
  | finished net format => cases h
  | fail fault =>
    cases h
    exact ⟨fun _ => rfl, fun _ => rfl⟩

theorem Stops.append (h : Stops d first e cause) (second : List Step) :
    Stops d (first ++ second) e cause := by
  constructor <;> intro rest <;> rw [List.append_assoc]
  · exact h.document _
  · exact h.result _

theorem Stops.behind (hs : Stops e second f cause) (h : Performs d first nets e) :
    Stops d (first ++ second) f cause := by
  constructor <;> intro rest <;> rw [List.append_assoc]
  · rw [h.document, hs.document]
  · rw [h.result, hs.result]
    rfl

theorem Stops.perform_eq (h : Stops d steps e cause) :
    (perform d steps).document = e ∧ (perform d steps).result = .error cause := by
  have hdocument := h.document []
  have hresult := h.result []
  rw [List.append_nil] at hdocument hresult
  exact ⟨hdocument, hresult⟩

theorem take_cases (d : Document) (step : Step) :
    (∃ e, take d step = some e) ∨ ∃ cause, refusal d step = some cause := by
  cases step with
  | edit change =>
    cases he : d.edit change with
    | ok next => exact .inl ⟨next, by simp [take, he, Except.toOption]⟩
    | error cause => exact .inr ⟨.refused cause, by simp [refusal, he]⟩
  | finished net format => exact .inl ⟨d, rfl⟩
  | fail fault => exact .inr ⟨fault, rfl⟩

theorem advance_cases (d : Document) (steps : List Step) : (∃ e, advance d steps = some e) ∨
    ∃ first step last e cause, steps = first ++ step :: last ∧ advance d first = some e ∧
      refusal e step = some cause ∧ Stops d steps e cause := by
  induction steps generalizing d with
  | nil => exact .inl ⟨d, rfl⟩
  | cons step steps ih =>
    rcases take_cases d step with ⟨next, hnext⟩ | ⟨cause, hcause⟩
    · rcases ih next with ⟨e, he⟩ | ⟨first, last, rest, e, cause, rfl, he, hcause, hstops⟩
      · exact .inl ⟨e, by rw [advance_cons, hnext, Option.bind_some, he]⟩
      · refine .inr ⟨step :: first, last, rest, e, cause, rfl, ?_, hcause, ?_⟩
        · rw [advance_cons, hnext, Option.bind_some, he]
        · exact hstops.behind (performs_of_take hnext)
    · exact .inr ⟨[], step, steps, d, cause, rfl, rfl, hcause,
        (stops_of_refusal hcause).append steps⟩

end Steps

section Nets

variable {d e f : Document} {n : Node}

theorem performs_netSteps (hv : Performs d ((netVisits n).map Visit.step) [] e)
    (hl : Performs e (nestedLinks n.children) [] f) : Performs d (netSteps n) [idOf n] f := by
  obtain ⟨format, h⟩ := perform_netSteps n
  have hfinished : Performs f [.finished (idOf n) format] [idOf n] f := .finished
  have hall := (hv.append hl).append hfinished
  have hsteps : ∀ rest, (netVisits n).map Visit.step ++ (nestedLinks n.children ++
      .finished (idOf n) format :: rest) = (netVisits n).map Visit.step ++
        nestedLinks n.children ++ [.finished (idOf n) format] ++ rest := by simp
  constructor <;> intro rest <;> rw [h, hsteps]
  · exact hall.document rest
  · exact hall.result rest

theorem stops_netSteps {cause : ReadError}
    (hs : Stops d ((netVisits n).map Visit.step ++ nestedLinks n.children) e cause) :
    Stops d (netSteps n) e cause := by
  obtain ⟨format, h⟩ := perform_netSteps n
  constructor <;> intro rest <;> rw [h, ← List.append_assoc]
  · exact hs.document _
  · exact hs.result _

end Nets

def ReadError.OfPart : ReadError → Prop
  | .malformed | .noNet => False
  | _ => True

def Faults {α : Type} (r : Except ReadError α) : Prop := ∀ fault, r = .error fault → fault.OfPart

section Parts

variable {α β : Type} {n : Node}

theorem faults_ok (a : α) : Faults (.ok a) := fun _ h => by cases h

theorem Faults.bind {r : Except ReadError α} {f : α → Except ReadError β} (hr : Faults r)
    (hf : ∀ a, Faults (f a)) : Faults (r >>= f) := by
  intro fault h
  cases r with
  | error cause =>
    cases h
    exact hr _ rfl
  | ok a => exact hf a fault h

theorem Faults.map {r : Except ReadError α} (hr : Faults r) (f : α → β) : Faults (r.map f) := by
  intro fault h
  cases r with
  | error cause =>
    cases h
    exact hr _ rfl
  | ok a => cases h

theorem faults_required (n : Node) (name : String) : Faults (required n name) := by
  intro fault h
  unfold required at h
  split at h
  · cases h
  · cases h
    trivial

theorem faults_requiredId (n : Node) (name : String) : Faults (requiredId n name) :=
  (faults_required n name).map _

theorem faults_coordinate (n : Node) (axis : String) : Faults (coordinate n axis) := by
  intro fault h
  unfold coordinate at h
  split at h
  · cases h
  · split at h
    · cases h
    · cases h
      trivial

theorem faults_pointOf (n : Node) : Faults (pointOf n) :=
  (faults_coordinate n "x").bind fun _ => (faults_coordinate n "y").bind fun _ => faults_ok _

theorem faults_pointOrOrigin (n : Option Node) : Faults (pointOrOrigin n) := by
  cases n with
  | none => exact faults_ok _
  | some n => exact faults_pointOf n

theorem faults_nodeDataOf (n : Node) : Faults (nodeDataOf n) :=
  (faults_pointOrOrigin _).bind fun _ => (faults_pointOrOrigin _).bind fun _ => faults_ok _

theorem faults_tokensOf (i : ObjectId) (n : Node) : Faults (tokensOf i n) := by
  intro fault h
  unfold tokensOf at h
  split at h
  · cases h
  · split at h
    · cases h
    · cases h
      trivial

theorem faults_mapM_pointOf (points : List Node) : Faults (points.mapM pointOf) := by
  induction points with
  | nil => exact faults_ok _
  | cons p points ih =>
    rw [List.mapM_cons]
    exact (faults_pointOf p).bind fun _ => ih.bind fun _ => faults_ok _

theorem faults_placeOf (n : Node) : Faults (placeOf n) := by
  refine (faults_requiredId n "id").bind fun i => (faults_nodeDataOf n).bind fun data => ?_
  cases n.child? "initialMarking" with
  | none => exact faults_ok _
  | some marking =>
    exact (faults_tokensOf i marking).bind fun _ =>
      (faults_pointOrOrigin _).bind fun _ => faults_ok _

theorem faults_transitionOf (n : Node) : Faults (transitionOf n) :=
  (faults_requiredId n "id").bind fun _ => (faults_nodeDataOf n).bind fun _ => faults_ok _

theorem faults_arcOf (n : Node) : Faults (arcOf n) :=
  (faults_requiredId n "id").bind fun _ => (faults_requiredId n "source").bind fun _ =>
    (faults_requiredId n "target").bind fun _ => (faults_mapM_pointOf _).bind fun _ => faults_ok _

theorem faults_netOf (n : Node) : Faults (netOf n) := by
  refine (faults_requiredId n "id").bind fun _ => (faults_required n "type").bind fun raw => ?_
  intro fault h
  split at h
  · cases h
    trivial
  · cases h

theorem faults_withReferent {object : Except ReadError Object} (h : Faults object) (n : Node) :
    Faults (withReferent n object) := by
  refine h.bind fun o => ?_
  split
  · exact (faults_required n "ref").bind fun _ => faults_ok _
  · exact faults_ok _

theorem faults_objectOf (kind : Kind) (n : Node) : Faults (objectOf kind n) := by
  cases kind with
  | net => exact (faults_netOf n).map _
  | page => exact (faults_requiredId n "id").map _
  | place => exact faults_withReferent ((faults_placeOf n).map _) n
  | transition => exact faults_withReferent ((faults_transitionOf n).map _) n
  | arc => exact (faults_arcOf n).map _

/-- What an object of a net is refused for is its own fault or the document's objection. -/
theorem ofPart_of_refusal {d : Document} {v : Visit} {cause : ReadError}
    (h : refusal d v.step = some cause) : cause.OfPart := by
  have hedit : ∀ change, refusal d (.edit change) = some cause → cause.OfPart := by
    intro change h
    simp only [refusal] at h
    split at h
    · cases h
    · cases h
      trivial
  unfold Visit.step at h
  split at h
  · next w _ =>
    cases ho : objectOf v.kind v.element with
    | error fault =>
      rw [ho] at h
      cases h
      exact faults_objectOf v.kind v.element _ ho
    | ok o =>
      rw [ho] at h
      exact hedit _ h
  · cases hn : netOf v.element with
    | error fault =>
      rw [hn] at h
      cases h
      exact faults_netOf v.element _ hn
    | ok net =>
      rw [hn] at h
      exact hedit _ h

end Parts

end PagedNets.Pnml
