import PagedNets.Proofs.Document.Atomicity
import PagedNets.Proofs.InPlace

set_option autoImplicit false

namespace PagedNets

namespace Object

/-- The object without what only a document can know of it. -/
def unbooked : Object → Object
  | .net n => .net n
  | .page p => .page { p with owner := none }
  | .place p => .place { p with owner := none, node := { p.node with referencedBy := [] } }
  | .transition t =>
    .transition { t with owner := none, node := { t.node with referencedBy := [] } }
  | .arc a => .arc { a with owner := none }

@[simp] theorem id_unbooked (o : Object) : o.unbooked.id = o.id := by cases o <;> rfl

@[simp] theorem kind_unbooked (o : Object) : o.unbooked.kind = o.kind := by cases o <;> rfl

@[simp] theorem reference?_unbooked (o : Object) : o.unbooked.reference? = o.reference? := by
  cases o <;> rfl

@[simp] theorem admitted_unbooked (o : Object) (w : Owner) :
    o.unbooked.admitted w = o.admitted w := by cases o <;> rfl

@[simp] theorem unbooked_admitted (o : Object) (w : Owner) :
    (o.admitted w).unbooked = o.unbooked := by cases o <;> rfl

def aliases (o : Object) : IdSet := (o.node?.map (·.referencedBy)).getD []

theorem aliases_admitted (o : Object) (w : Owner) : (o.admitted w).aliases = [] := by
  cases o <;> rfl

end Object

namespace Document

variable {d e : Document} {parent : ObjectId} {x y o : Object}

section Steps

theorem checkName_unbooked (scope : ObjectId) (names : Table String ObjectId) (o : Object) :
    checkName scope names o.unbooked = checkName scope names o := by cases o <;> rfl

theorem checkContent_unbooked (d : Document) (container o : Object) :
    d.checkContent container o.unbooked = d.checkContent container o := by
  cases o <;> cases container <;> rfl

theorem check_unbooked (d : Document) (parent : ObjectId) (o : Object) :
    d.check parent o.unbooked = d.check parent o := by
  unfold check
  simp only [Object.id_unbooked, Object.kind_unbooked, checkName_unbooked, checkContent_unbooked]

theorem commit_unbooked (d : Document) (parent : ObjectId) (o : Object) :
    d.commit parent o.unbooked = d.commit parent o := by
  unfold commit
  simp only [Object.admitted_unbooked]

theorem add_unbooked (d : Document) (parent : ObjectId) (o : Object) :
    d.add parent o.unbooked = d.add parent o := by
  rw [add, add, check_unbooked, commit_unbooked]

theorem events_unbooked (d : Document) (parent : ObjectId) (o : Object) :
    d.events (.add parent o.unbooked) = d.events (.add parent o) := by
  simp only [events, check_unbooked, commit_unbooked, Object.kind_unbooked, Object.id_unbooked]

end Steps

section Writes

def registerInPlace (child : Object) : InPlace NetError Document Unit := do
  let d ← get
  if d.contains child.id then InPlace.answer (.error (.duplicateId child.id))
  else InPlace.write (append · child)

/-- Enters an object on the document itself: the registry, the tables of the container, the aliases
of the referent. Identifier and reference are those that the object came with. -/
def commitInPlace (parent : ObjectId) (o : Object) : InPlace NetError Document ObjectId := do
  let d ← get
  match (d.object? parent).bind Object.asOwner? with
  | none => InPlace.answer (.error (.detached parent))
  | some owner =>
    let child := o.admitted owner
    registerInPlace child
    InPlace.write (modify · parent child.adopt)
    match o.reference? with
    | none => pure ()
    | some referent => InPlace.write (updateAliases · referent (IdSet.insert · o.id))
    pure o.id

def addInPlace (parent : ObjectId) (o : Object) : InPlace NetError Document ObjectId := do
  let d ← get
  InPlace.answer (d.check parent o)
  commitInPlace parent o

theorem on_registerInPlace (h : d.object? o.id = none) :
    (registerInPlace o).on d = (.ok (), d.append o) := by
  simp only [registerInPlace, InPlace.on_bind, InPlace.on_get, (d.contains_eq_false _).mpr h]
  rfl

theorem on_commitInPlace {container : Object} {w : Owner}
    (h : d.Admissible parent o container w) :
    (commitInPlace parent o).on d = (.ok o.id, d.enter parent (o.admitted w)) := by
  have howner : (d.object? parent).bind Object.asOwner? = some w := by
    rw [h.found, Option.bind_some, h.owner]
  have hfresh : d.object? (o.admitted w).id = none := Object.id_admitted o w ▸ h.fresh
  simp only [commitInPlace, InPlace.on_bind, InPlace.on_get, howner, on_registerInPlace hfresh,
    InPlace.on_write, enter, Object.reference?_admitted, Object.id_admitted]
  cases o.reference? <;> rfl

/-- Whatever is refused is refused before the first write. -/
theorem on_addInPlace (d : Document) (parent : ObjectId) (o : Object) :
    (addInPlace parent o).on d = match d.add parent o with
      | .error cause => (.error cause, d)
      | .ok e => (.ok o.id, e) := by
  simp only [addInPlace, InPlace.on_bind, InPlace.on_get, InPlace.on_answer]
  cases hcheck : d.check parent o with
  | error cause =>
    have hadd : d.add parent o = .error cause := by
      rw [add, hcheck]
      rfl
    rw [hadd]
  | ok u =>
    obtain ⟨container, w, h⟩ := check_eq_ok_iff.mp hcheck
    have hadd : d.add parent o = .ok (d.enter parent (o.admitted w)) :=
      add_eq_ok_iff.mpr ⟨container, w, h, rfl⟩
    rw [hadd]
    exact on_commitInPlace h

end Writes

/-- Two objects are treated alike by the container that they are to enter: the same verdict, the
same answer, the same document afterwards and the same report. Of what is stored, the owner is that
container, and nobody refers to it yet. -/
structure TreatsAlike (d : Document) (parent : ObjectId) (x y : Object) : Prop where
  verdict : d.check parent x = d.check parent y
  outcome : d.add parent x = d.add parent y
  writes : (addInPlace parent x).on d = (addInPlace parent y).on d
  report : d.events (.add parent x) = d.events (.add parent y)
  stored : ∀ e, d.add parent x = .ok e → ∃ container w o, d.object? parent = some container ∧
    container.asOwner? = some w ∧ e.object? x.id = some o ∧ e.object? y.id = some o ∧
      o.unbooked = x.unbooked ∧ o.owner = some w ∧ o.aliases = []

/-- What an object brings along besides its own content has no effect on its admission, in whatever
state the document is. -/
theorem add_ignores_bookkeeping (h : x.unbooked = y.unbooked) (d : Document) (parent : ObjectId) :
    d.TreatsAlike parent x y := by
  have hid : x.id = y.id := by rw [← x.id_unbooked, h, y.id_unbooked]
  have hadd : d.add parent x = d.add parent y := by
    rw [← add_unbooked d parent x, h, add_unbooked]
  constructor
  case verdict => rw [← check_unbooked d parent x, h, check_unbooked]
  case outcome => exact hadd
  case writes => rw [on_addInPlace, on_addInPlace, hadd, hid]
  case report => rw [← events_unbooked d parent x, h, events_unbooked]
  case stored =>
    intro e he
    obtain ⟨container, w, ha, rfl⟩ := add_eq_ok_iff.mp he
    obtain ⟨names, hscope, -⟩ := ha.scope
    have hstored : (d.enter parent (x.admitted w)).object? x.id = some (x.admitted w) := by
      rw [ha.object?_enter, if_pos rfl]
    exact ⟨container, w, x.admitted w, ha.found, ha.owner, hstored, hid ▸ hstored,
      x.unbooked_admitted w, Object.owner_admitted w (Object.kind_ne_net_of_scopeFor hscope),
      x.aliases_admitted w⟩

def unbooked : Action → Action
  | .edit (.add parent o) => .edit (.add parent o.unbooked)
  | a => a

theorem act_unbooked (d : Document) (a : Action) : d.act (unbooked a) = d.act a := by
  cases a with
  | edit change =>
    cases change with
    | add parent o => simp only [unbooked, act, edit, add_unbooked]
    | _ => rfl
  | _ => rfl

/-- Runs in which the same objects are admitted with different bookkeeping end in one document. -/
theorem run_eq_of_unbooked {first second : List Action}
    (h : first.map unbooked = second.map unbooked) : run first = run second := by
  have hstripped : ∀ (actions : List Action) (d : Document),
      (actions.map unbooked).foldl act d = actions.foldl act d := by
    intro actions
    induction actions with
    | nil => exact fun _ => rfl
    | cons a actions ih =>
      intro d
      rw [List.map_cons, List.foldl_cons, List.foldl_cons, act_unbooked]
      exact ih _
  rw [run, run, ← hstripped first, h, hstripped]

def freshAlias : Object := .place { id := ⟨"c"⟩, node := { reference := some ⟨"a"⟩ } }

/-- The same place as a page of another document has it, where two nodes refer to it. -/
def foreignAlias : Object :=
  .place {
    id := ⟨"c"⟩
    owner := some (.page ⟨"elsewhere"⟩)
    node := { reference := some ⟨"a"⟩, referencedBy := [⟨"a"⟩, ⟨"z"⟩] } }

theorem add_ignores_bookkeeping_foreignAlias :
    freshAlias ≠ foreignAlias ∧ freshAlias.unbooked = foreignAlias.unbooked ∧
      (run nestedRun).TreatsAlike ⟨"q"⟩ freshAlias foreignAlias ∧
      ∃ e o, (run nestedRun).add ⟨"q"⟩ foreignAlias = .ok e ∧ e.object? ⟨"c"⟩ = some o ∧
        o.owner = some (.page ⟨"q"⟩) ∧ o.aliases = [] := by
  have hne : freshAlias ≠ foreignAlias := by
    intro h
    exact absurd (congrArg Object.owner h) (by decide)
  have hsame : freshAlias.unbooked = foreignAlias.unbooked := rfl
  have halike := add_ignores_bookkeeping hsame (run nestedRun) ⟨"q"⟩
  obtain ⟨e, he⟩ := (atomic_add (run nestedRun) ⟨"q"⟩ foreignAlias).accepts.mpr (by decide)
  obtain ⟨container, w, o, hfound, hw, -, ho, -, howner, haliases⟩ :=
    halike.stored e (halike.outcome.trans he)
  have hq : ((run nestedRun).object? ⟨"q"⟩).bind Object.asOwner? = some (.page ⟨"q"⟩) := by decide
  rw [hfound, Option.bind_some, hw, Option.some.injEq] at hq
  exact ⟨hne, hsame, halike, e, o, he, ho, hq ▸ howner, haliases⟩

end Document

end PagedNets
