import PagedNets.Proofs.Document.Atomicity
import PagedNets.Proofs.Document.Verdict
import PagedNets.Proofs.InPlace

set_option autoImplicit false

namespace PagedNets

namespace Object

@[simp] theorem id_setName (o : Object) (n : Option String) : (o.setName n).id = o.id := by
  cases o <;> rfl

@[simp] theorem kind_setName (o : Object) (n : Option String) : (o.setName n).kind = o.kind := by
  cases o <;> rfl

@[simp] theorem name_setName (o : Object) (n : Option String) : (o.setName n).name = n := by
  cases o <;> rfl

@[simp] theorem owner_setName (o : Object) (n : Option String) : (o.setName n).owner = o.owner :=
  owner_of_label (o.label_setName n)

end Object

namespace Document

variable {d e : Document} {i : ObjectId} {o : Object} {w : Owner} {n : String}
  {name : Option String}

section Lookup

theorem map_id_findByName?_eq_some_iff (hd : d.Reachable Edit.IsPlain) {c j : ObjectId} :
    (d.findByName? c n).map Object.id = some j ↔ ∃ x, d.object? j = some x ∧ x.Bears c n := by
  rw [Option.map_eq_some_iff]
  constructor
  · rintro ⟨x, hx, rfl⟩
    obtain ⟨ho, hb⟩ := (hd.indexed.found c n x).mp hx
    exact ⟨x, ho, hb⟩
  · rintro ⟨x, hx, hb⟩
    have hid := hd.registered.id_of_object? hx
    subst hid
    exact ⟨x, (hd.indexed.found c n x).mpr ⟨hx, hb⟩, rfl⟩

theorem findByName?_eq_none_iff (hd : d.Reachable Edit.IsPlain) {c : ObjectId} :
    d.findByName? c n = none ↔ ∀ j x, d.object? j = some x → ¬ x.Bears c n := by
  rw [← Option.map_eq_none_iff (f := Object.id), Option.eq_none_iff_forall_ne_some]
  constructor
  · exact fun h j x hx hb => h j ((map_id_findByName?_eq_some_iff hd).mpr ⟨x, hx, hb⟩)
  · intro h j hj
    obtain ⟨x, hx, hb⟩ := (map_id_findByName?_eq_some_iff hd).mp hj
    exact h j x hx hb

end Lookup

section Refusal

def TakenBy (d : Document) (w : Owner) (n : String) (i j : ObjectId) : Prop :=
  j ≠ i ∧ ∃ x, d.object? j = some x ∧ x.owner = some w ∧ x.name = some n

theorem nameTaken_iff (hr : d.Registered) (hn : d.Named) (ho : d.object? i = some o)
    (hw : o.owner = some w) (hne : n.isEmpty = false) :
    d.nameTaken w.id n i = true ↔ ∃ j, d.TakenBy w n i j := by
  obtain ⟨v, c, hv, hc, hcv, -⟩ := hr.owner_spec ho (Object.kind_ne_net_of_owner hw)
  obtain rfl : w = v := Option.some.inj (hw.symm.trans hv)
  obtain ⟨names, hnames⟩ := Object.exists_names? hcv
  have hscope : d.names? w.id = some names := by rw [names?, hc, Option.bind_some, hnames]
  have hfind : ∀ j, names.find? n = some j ↔
      ∃ x, d.object? j = some x ∧ x.owner = some w ∧ x.name = some n := by
    intro j
    rw [hn w.id c w names hc hcv hnames]
    refine exists_congr fun x => and_congr_right fun _ => and_congr_right fun _ => ?_
    rw [Object.scopedName_eq_some_iff]
    simp [hne]
  unfold nameTaken
  rw [hscope, Option.bind_some]
  cases hf : names.find? n with
  | none =>
    simp only [Bool.false_eq_true, false_iff, not_exists]
    rintro j ⟨-, hj⟩
    rw [← hfind, hf] at hj
    cases hj
  | some k =>
    simp only [Bool.not_eq_true', decide_eq_false_iff_not]
    refine ⟨fun hk => ⟨k, hk, (hfind k).mp hf⟩, ?_⟩
    rintro ⟨j, hj, hx⟩ rfl
    rw [← hfind, hf] at hx
    exact hj (Option.some.inj hx).symm

theorem filter_nonempty_eq_some_iff :
    name.filter (!·.isEmpty) = some n ↔ name = some n ∧ n.isEmpty = false := by
  rw [Option.filter_eq_some_iff]
  simp

theorem setName_eq_error_iff (ho : d.object? i = some o) (hid : o.id = i) {cause : NetError} :
    d.setName i name = .error cause ↔ ∃ w n, o.owner = some w ∧
      name.filter (!·.isEmpty) = some n ∧ d.nameTaken w.id n i = true ∧
      cause = .duplicateName w.id n := by
  subst hid
  unfold setName
  rw [ho]
  dsimp only
  cases hw : o.owner with
  | none => simp
  | some w =>
    cases hn : name.filter (!·.isEmpty) with
    | none => simp
    | some n =>
      cases ht : d.nameTaken w.id n o.id with
      | false => simp [ht]
      | true => simp [ht, eq_comm (a := cause)]

theorem setName_eq_error_iff_takenBy (hd : d.Reachable Edit.IsPlain) (ho : d.object? i = some o)
    {cause : NetError} : d.setName i name = .error cause ↔ ∃ w n, o.owner = some w ∧
      name = some n ∧ n.isEmpty = false ∧ (∃ j, d.TakenBy w n i j) ∧
      cause = .duplicateName w.id n := by
  rw [setName_eq_error_iff ho (hd.registered.id_of_object? ho)]
  refine exists_congr fun w => exists_congr fun n => and_congr_right fun hw => ?_
  rw [filter_nonempty_eq_some_iff, and_assoc]
  refine and_congr_right fun _ => and_congr_right fun hne => ?_
  rw [nameTaken_iff hd.registered hd.named ho hw hne]

def setNameInPlace (i : ObjectId) (name : Option String) : InPlace NetError Document Unit := do
  let d ← get
  match d.object? i with
  | none => InPlace.answer (.error (.unknownObject i))
  | some o =>
    let new := name.filter (!·.isEmpty)
    match o.owner with
    | none => pure ()
    | some w =>
      InPlace.answer (match new with
        | none => .ok ()
        | some n => if d.nameTaken w.id n o.id then .error (.duplicateName w.id n) else .ok ())
      match o.scopedName with
      | none => pure ()
      | some old => InPlace.write (modify · w.id (·.mapNames (·.erase old)))
      InPlace.write (modify · w.id (·.mapNames (enterName · new o.id)))
    InPlace.write (modify · i (·.setName new))

theorem on_setNameInPlace (d : Document) (i : ObjectId) (name : Option String) :
    (setNameInPlace i name).on d = match d.setName i name with
      | .error cause => (.error cause, d)
      | .ok e => (.ok (), e) := by
  have hscope : ∀ (d : Document) (w : Owner) (old : String) (new : Option String) (j : ObjectId),
      (d.modify w.id (·.mapNames (·.erase old))).modify w.id (·.mapNames (enterName · new j)) =
        d.modify w.id (·.mapNames (renameEntry · (some old) new j)) := by
    intro d w old new j
    rw [modify_modify]
    congr 1
    funext o
    cases o <;> rfl
  simp only [setNameInPlace, setName, InPlace.on_bind, InPlace.on_get]
  cases d.object? i with
  | none => rfl
  | some o =>
    dsimp only
    cases o.owner with
    | none => rfl
    | some w =>
      simp only [InPlace.on_bind, InPlace.on_answer]
      cases hnew : name.filter (!·.isEmpty) with
      | none => cases o.scopedName with
        | none => rfl
        | some old => simp [InPlace.on_bind, hscope]
      | some n =>
        dsimp only
        cases d.nameTaken w.id n o.id with
        | true => rfl
        | false =>
          cases o.scopedName with
          | none => rfl
          | some old => simp [InPlace.on_bind, hscope]

end Refusal

section Effect

theorem object?_setName (hr : d.Registered) (ho : d.object? i = some o)
    (he : d.setName i name = .ok e) (j : ObjectId) : e.object? j = (d.object? j).map fun x =>
      let entered := if o.owner.map Owner.id = some j then
        x.mapNames (renameEntry · o.scopedName (name.filter (!·.isEmpty)) i) else x
      if j = i then entered.setName (name.filter (!·.isEmpty)) else entered := by
  obtain ⟨x, hx, ⟨hw, rfl⟩ | ⟨w, hw, -, rfl⟩⟩ := (setName_eq_ok_iff hr).mp he
  · obtain rfl : o = x := Option.some.inj (ho.symm.trans hx)
    rw [object?_modify, hw]
    by_cases hj : j = i
    · simp [hj]
    · simp [hj]
  · obtain rfl : o = x := Option.some.inj (ho.symm.trans hx)
    rw [object?_rename, hw, Option.map_some]
    simp only [Option.some.injEq, eq_comm (a := w.id)]

theorem keys_setName (hr : d.Registered) (he : d.setName i name = .ok e) : e.keys = d.keys := by
  obtain ⟨x, hx, ⟨-, rfl⟩ | ⟨w, -, -, rfl⟩⟩ := (setName_eq_ok_iff hr).mp he
  · exact keys_modify d i _
  · rw [rename, keys_modify, keys_modify]

theorem Registered.owner_ne (h : d.Registered) (ho : d.object? i = some o)
    (hw : o.owner = some w) : w.id ≠ i := by
  obtain ⟨v, c, hv, -, -, hlt⟩ := h.owner_spec ho (Object.kind_ne_net_of_owner hw)
  obtain rfl : w = v := Option.some.inj (hw.symm.trans hv)
  intro hi
  rw [hi] at hlt
  exact Nat.lt_irrefl _ hlt

theorem exists_bears_setName_iff (hr : d.Registered) (ho : d.object? i = some o)
    (he : d.setName i name = .ok e) {c j : ObjectId} :
    (∃ x, e.object? j = some x ∧ x.Bears c n) ↔
      if j = i then o.owner.map Owner.id = some c ∧ name.filter (!·.isEmpty) = some n
      else ∃ x, d.object? j = some x ∧ x.Bears c n := by
  have hentered : ∀ x : Object, (if o.owner.map Owner.id = some j then
      x.mapNames (renameEntry · o.scopedName (name.filter (!·.isEmpty)) i) else x).Bears c n ↔
        x.Bears c n := by
    intro x
    split
    · cases x <;> rfl
    · rfl
  simp only [object?_setName hr ho he]
  by_cases hj : j = i
  · subst hj
    rw [ho]
    have hself : o.owner.map Owner.id ≠ some j := by
      intro hw
      obtain ⟨w, how, hwj⟩ := Option.map_eq_some_iff.mp hw
      exact hr.owner_ne ho how hwj
    simp only [if_neg hself, if_pos, Option.map_some, Option.some.injEq, exists_eq_left',
      Object.Bears, Object.owner_setName, Object.name_setName]
    refine and_congr_right fun _ => ⟨fun h => h.1, fun h => ⟨h, ?_⟩⟩
    exact (filter_nonempty_eq_some_iff.mp h).2
  · simp only [if_neg hj]
    cases d.object? j with
    | none => simp
    | some x => simp only [Option.map_some, Option.some.injEq, exists_eq_left', hentered]

end Effect

section Admission

/-- What the rules ask of an object with a name is what they ask of it without one, and that no
other child has the name. -/
theorem accepts_iff_setName_none {parent : ObjectId} {x : Object} :
    d.Accepts parent x ↔ d.Accepts parent (x.setName none) ∧
      ∀ i y n, d.object? i = some y → y.Bears parent n → x.scopedName ≠ some n := by
  have hfinite : (x.setName none).IsFinite ↔ x.IsFinite := by cases x <;> exact Iff.rfl
  have hreference : (x.setName none).reference? = x.reference? := by cases x <;> rfl
  constructor
  · intro h
    refine ⟨⟨?_, ?_, ?_, ?_, ?_, ?_, ?_⟩, h.named⟩
    · rw [Object.id_setName]
      exact h.identified
    · rw [Object.kind_setName]
      exact h.housed
    · rw [Object.id_setName]
      exact h.fresh
    · intro i y n _ _
      rw [Object.scopedName_setName]
      simp
    · exact hfinite.mpr h.finite
    · rw [hreference, Object.kind_setName]
      exact h.linked
    · intro a ha
      cases x with
      | arc b =>
        cases ha
        exact h.joined b rfl
      | _ => cases ha
  · rintro ⟨h, hnamed⟩
    refine ⟨?_, ?_, ?_, hnamed, hfinite.mp h.finite, ?_, ?_⟩
    · rw [← x.id_setName none]
      exact h.identified
    · rw [← x.kind_setName none]
      exact h.housed
    · rw [← x.id_setName none]
      exact h.fresh
    · rw [← hreference, ← x.kind_setName none]
      exact h.linked
    · rintro a rfl
      exact h.joined { a with name := none } rfl

theorem exists_add_iff_accepts (hd : d.Reachable Edit.IsPlain) {parent : ObjectId} {x : Object} :
    (∃ e, d.add parent x = .ok e) ↔ d.Accepts parent x :=
  (atomic_add d parent x).accepts.trans (check_reachable hd parent x).1

/-- Nobody in the scope has the name: it finds nothing, it keeps nobody out, and every child may be
given it. -/
structure Free (d : Document) (w : Owner) (n : String) : Prop where
  found : d.findByName? w.id n = none
  admits : ∀ x : Object, x.scopedName = some n →
    ((∃ e, d.add w.id x = .ok e) ↔ ∃ e, d.add w.id (x.setName none) = .ok e)
  renames : ∀ j y, d.object? j = some y → y.owner = some w → ∃ e, d.setName j (some n) = .ok e

/-- The object has the name in the scope: it is what the name finds, the name is refused for
whatever could enter without it, and no other child may be given it. -/
structure Held (d : Document) (w : Owner) (n : String) (o : Object) : Prop where
  found : d.findByName? w.id n = some o
  refuses : ∀ x : Object, x.scopedName = some n → ∀ e, d.add w.id x ≠ .ok e
  cause : ∀ x : Object, x.scopedName = some n → (∃ e, d.add w.id (x.setName none) = .ok e) →
    d.add w.id x = .error (.duplicateName w.id n)
  renames : ∀ j y, j ≠ o.id → d.object? j = some y → y.owner = some w →
    d.setName j (some n) = .error (.duplicateName w.id n)

theorem free_of_findByName?_eq_none (hd : d.Reachable Edit.IsPlain)
    (hn : d.findByName? w.id n = none) : d.Free w n := by
  have hnobody := (findByName?_eq_none_iff hd).mp hn
  constructor
  case found => exact hn
  case admits =>
    intro x hx
    rw [exists_add_iff_accepts hd, exists_add_iff_accepts hd, accepts_iff_setName_none]
    refine ⟨fun h => h.1, fun h => ⟨h, fun i y m hy hb hm => ?_⟩⟩
    obtain rfl : n = m := Option.some.inj (hx.symm.trans hm)
    exact hnobody i y hy hb
  case renames =>
    intro j y hy hw
    cases hset : d.setName j (some n) with
    | ok e => exact ⟨e, rfl⟩
    | error cause =>
      obtain ⟨v, m, hv, hm, hne, ⟨k, -, x, hx, hxv, hxm⟩, -⟩ :=
        (setName_eq_error_iff_takenBy hd hy).mp hset
      cases hm
      obtain rfl : w = v := Option.some.inj (hw.symm.trans hv)
      exact absurd ⟨by rw [hxv, Option.map_some], hxm, hne⟩ (hnobody k x hx)

theorem held_of_findByName?_eq_some (hd : d.Reachable Edit.IsPlain)
    (hw : o.owner = some w) (hn : d.findByName? w.id n = some o) : d.Held w n o := by
  obtain ⟨ho, hb⟩ := (hd.indexed.found _ _ _).mp hn
  constructor
  case found => exact hn
  case refuses =>
    intro x hx e he
    have haccepts := (exists_add_iff_accepts hd).mp ⟨e, he⟩
    exact haccepts.named _ o n ho hb hx
  case cause =>
    intro x hx hnameless
    have haccepts := (exists_add_iff_accepts hd).mp hnameless
    have hcheck : d.check w.id x = .error (.duplicateName w.id n) := by
      refine ((check_reachable hd w.id x).2.1 _).mpr ?_
      have hid := x.id_setName none
      have hkind := x.kind_setName none
      refine .later (fun e h => ?_) (.later (fun e h => ?_) (.later (fun e h => ?_)
        (.later (fun e h => ?_) (.here (.named ho hb hx)))))
      · cases h with
        | identified h => exact haccepts.not_breaks .identified _ (.identified (hid ▸ h))
      · cases h with
        | attached h => exact haccepts.not_breaks .attached _ (.attached h)
      · cases h with
        | housed hc hk => exact haccepts.not_breaks .housed _ (.housed hc (hkind ▸ hk))
      · cases h with
        | fresh hy => exact haccepts.not_breaks .fresh _ (.fresh (hid ▸ hy))
    exact ((atomic_add d w.id x).refuses _).mpr hcheck
  case renames =>
    intro j y hj hy hyw
    refine (setName_eq_error_iff_takenBy hd hy).mpr ⟨w, n, hyw, rfl, hb.2.2, ⟨o.id, ?_⟩, rfl⟩
    exact ⟨Ne.symm hj, o, ho, hw, hb.2.1⟩

end Admission

structure Renames (d : Document) (i : ObjectId) (o : Object) (new : Option String) (e : Document) :
    Prop where
  keys : e.keys = d.keys
  object : e.object? i = some (o.setName new)
  scope : ∀ w, o.owner = some w → ∃ c, d.object? w.id = some c ∧
    e.object? w.id = some (c.mapNames (renameEntry · o.scopedName new i))
  others : ∀ j, j ≠ i → o.owner.map Owner.id ≠ some j → e.object? j = d.object? j
  held : ∀ w n, o.owner = some w → new = some n → e.Held w n (o.setName new)
  lost : ∀ w n, o.owner = some w → o.name = some n → new ≠ some n → e.Free w n
  same : ∀ c n, (o.owner.map Owner.id = some c → new ≠ some n ∧ o.name ≠ some n) →
    (e.findByName? c n).map Object.id = (d.findByName? c n).map Object.id

theorem renames_setName (hd : d.Reachable Edit.IsPlain) (ho : d.object? i = some o)
    (he : d.setName i name = .ok e) : d.Renames i o (name.filter (!·.isEmpty)) e := by
  have hr := hd.registered
  have hplain : (Edit.setName i name).IsPlain := trivial
  have hed : e.Reachable Edit.IsPlain := hd.edit hplain he
  have hobject := object?_setName hr ho he
  have hbears {c j : ObjectId} {n : String} :=
    exists_bears_setName_iff (n := n) (c := c) (j := j) hr ho he
  have hself : o.owner.map Owner.id ≠ some i := by
    intro hw
    obtain ⟨w, how, hwi⟩ := Option.map_eq_some_iff.mp hw
    exact hr.owner_ne ho how hwi
  have hrenamed : e.object? i = some (o.setName (name.filter (!·.isEmpty))) := by
    rw [hobject, ho]
    simp [hself]
  constructor
  case keys => exact keys_setName hr he
  case object => exact hrenamed
  case scope =>
    intro w hw
    obtain ⟨v, c, hv, hc, -⟩ := hr.owner_spec ho (Object.kind_ne_net_of_owner hw)
    obtain rfl : w = v := Option.some.inj (hw.symm.trans hv)
    refine ⟨c, hc, ?_⟩
    rw [hobject, hc]
    simp [hw, hr.owner_ne ho hw]
  case others =>
    intro j hj hscope
    rw [hobject]
    simp [hj, hscope]
  case held =>
    intro w n hw hn
    refine held_of_findByName?_eq_some hed (by rw [Object.owner_setName, hw]) ?_
    refine (hed.indexed.found _ _ _).mpr ⟨?_, ?_⟩
    · rw [Object.id_setName, hr.id_of_object? ho, hrenamed]
    · exact ⟨by rw [Object.owner_setName, hw, Option.map_some], by rw [Object.name_setName, hn],
        (filter_nonempty_eq_some_iff.mp hn).2⟩
  case lost =>
    intro w n hw hn hne
    refine free_of_findByName?_eq_none hed ((findByName?_eq_none_iff hed).mpr fun j x hx hb => ?_)
    have hj := hbears.mp ⟨x, hx, hb⟩
    split at hj
    · exact hne hj.2
    · next hji =>
      -- Another child with the old name would have been a second one before.
      obtain ⟨y, hy, hyb⟩ := hj
      have hob : o.Bears w.id n := ⟨by rw [hw, Option.map_some], hn, hb.2.2⟩
      exact hji (hd.indexed.siblings w.id n j i y o hy ho hyb hob)
  case same =>
    intro c n hother
    refine Option.ext fun j => ?_
    rw [map_id_findByName?_eq_some_iff hed, map_id_findByName?_eq_some_iff hd, hbears]
    split
    · next hj =>
      subst hj
      constructor
      · rintro ⟨hc, hn⟩
        exact absurd hn (hother hc).1
      · rintro ⟨x, hx, hb⟩
        obtain rfl : o = x := Option.some.inj (ho.symm.trans hx)
        exact absurd hb.2.1 (hother hb.1).2
    · rfl

/-- In every run an object is refused a name if and only if another child of its owner has it, which
changes nothing; else the object alone is renamed, its old name is free and the new one is its
own. -/
theorem renames_reachable (hd : d.Reachable Edit.IsPlain) (ho : d.object? i = some o)
    (name : Option String) :
    (∀ cause e, (setNameInPlace i name).on d = (.error cause, e) ↔ e = d ∧
      ∃ w n, o.owner = some w ∧ name = some n ∧ n.isEmpty = false ∧ (∃ j, d.TakenBy w n i j) ∧
        cause = .duplicateName w.id n) ∧
    (o.kind = .net → ∃ e, (setNameInPlace i name).on d = (.ok (), e)) ∧
    ∀ e, (setNameInPlace i name).on d = (.ok (), e) →
      d.Renames i o (name.filter (!·.isEmpty)) e := by
  rw [on_setNameInPlace]
  have hrefused : ∀ cause, d.setName i name = .error cause ↔ _ :=
    fun _ => setName_eq_error_iff_takenBy hd ho
  refine ⟨fun cause e => ?_, fun hnet => ?_, fun e he => ?_⟩
  · rw [← hrefused]
    cases d.setName i name with
    | error cause' => simp [and_comm, eq_comm]
    | ok e' => simp
  · cases hset : d.setName i name with
    | ok e => exact ⟨e, rfl⟩
    | error cause =>
      obtain ⟨w, n, hw, -⟩ := (hrefused cause).mp hset
      exact absurd hnet (Object.kind_ne_net_of_owner hw)
  · cases hset : d.setName i name with
    | error cause => simp [hset] at he
    | ok e' =>
      simp only [hset, Prod.mk.injEq, true_and] at he
      exact renames_setName hd ho (he ▸ hset)

theorem renames_renamingRun : (run renamingRun).Reachable Edit.IsPlain ∧
    (∃ e, (setNameInPlace ⟨"a"⟩ (some "s")).on (run renamingRun) =
      (.error (.duplicateName ⟨"p"⟩ "s"), e) ∧ e = run renamingRun) ∧
    ∃ o e, (setNameInPlace ⟨"b"⟩ (some "t")).on (run renamingRun) = (.ok (), e) ∧
      (run renamingRun).Renames ⟨"b"⟩ o (some "t") e := by
  have hd : (run renamingRun).Reachable Edit.IsPlain := ⟨renamingRun, uses_renamingRun, rfl⟩
  obtain ⟨a, ha⟩ : ∃ o, (run renamingRun).object? ⟨"a"⟩ = some o := ⟨_, rfl⟩
  obtain ⟨b, hb⟩ : ∃ o, (run renamingRun).object? ⟨"b"⟩ = some o := ⟨_, rfl⟩
  obtain ⟨hrefused, -, -⟩ := renames_reachable hd ha (some "s")
  obtain ⟨-, -, hrenames⟩ := renames_reachable hd hb (some "t")
  obtain ⟨e, he⟩ : ∃ e, (setNameInPlace ⟨"b"⟩ (some "t")).on (run renamingRun) = (.ok (), e) :=
    ⟨_, rfl⟩
  have hkept : ((setNameInPlace ⟨"a"⟩ (some "s")).on (run renamingRun)) =
      (.error (.duplicateName ⟨"p"⟩ "s"), run renamingRun) := rfl
  exact ⟨hd, ⟨_, hkept, ((hrefused _ _).mp hkept).1⟩, b, e, he, hrenames e he⟩

end Document

end PagedNets
