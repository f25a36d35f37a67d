import PagedNets.Proofs.Decides
import PagedNets.Proofs.Document.Adjacency
import PagedNets.Proofs.Document.Rules

/-!
The check before an admission goes by the tables of the parent; in a document that came about by its
own operations they tell whether a rule is broken.
-/

set_option autoImplicit false

namespace PagedNets.Document

variable {d : Document} {parent : ObjectId} {o : Object}

def Finds (d : Document) (parent : ObjectId) (o : Object) (r : Rule) {α : Type}
    (x : Except NetError α) : Prop :=
  ∀ e, x = .error e ↔ d.Breaks parent o r e

theorem finds_identified : d.Finds parent o .identified
    (if o.id.isEmpty then .error .emptyId else .ok () : Except NetError Unit) := by
  intro e
  constructor
  · intro h
    split at h
    · next hid =>
      cases h
      exact .identified hid
    · cases h
  · rintro ⟨hid⟩
    rw [if_pos hid]

theorem finds_fresh : d.Finds parent o .fresh
    (if d.contains o.id then .error (.duplicateId o.id) else .ok () : Except NetError Unit) := by
  intro e
  constructor
  · intro h
    split at h
    · next hid =>
      cases h
      obtain ⟨x, hx⟩ := (d.contains_iff o.id).mp hid
      exact .fresh hx
    · cases h
  · intro h
    cases h with
    | fresh hx => rw [if_pos ((d.contains_iff o.id).mpr ⟨_, hx⟩)]

theorem finds_finite {c : Bool} (hc : ∀ e, d.Breaks parent o .finite e ↔
    c = false ∧ e = .nonFiniteGeometry o.id) : d.Finds parent o .finite
      (if c then .ok () else .error (.nonFiniteGeometry o.id) : Except NetError Unit) := by
  intro e
  rw [hc e]
  cases c <;> simp [eq_comm]

theorem finds_reference {n : NodeData} (hn : o.node? = some n) : d.Finds parent o .reference
    (match n.reference with
      | none => .ok ()
      | some r => d.checkReference o.id o.kind r) := by
  have hreference : o.reference? = n.reference := by
    rw [Object.reference?, hn, Option.bind_some]
  intro e
  constructor
  · intro h
    split at h
    · cases h
    · next r hr =>
      rw [← hreference] at hr
      rw [checkReference] at h
      split at h
      · next hx =>
        cases h
        exact .unresolved hr hx
      · next x hx =>
        split at h
        · cases h
        · next hk =>
          cases h
          exact .unlike hr hx hk
  · intro h
    cases h with
    | unresolved hr hx =>
      rw [← hreference, hr]
      simp only [checkReference, hx]
    | unlike hr hx hk =>
      rw [← hreference, hr]
      simp only [checkReference, hx, if_neg hk]

theorem finds_marked {p : Place} (hp : o = .place p) : d.Finds parent o .marked
    (if p.markingOffset.isFinite then .ok () else .error (.nonFiniteGeometry p.id) :
      Except NetError Unit) := by
  subst hp
  intro e
  constructor
  · intro h
    split at h
    · cases h
    · next hf =>
      cases h
      exact .offset rfl (by simpa using hf)
  · intro h
    cases h with
    | offset hp hf =>
      cases hp
      rw [hf]
      rfl

theorem scopeFor_eq_error_iff {c : Object} (howner : ∀ p, c = .page p → p.owner.isNone = false)
    {k : Kind} {e : NetError} :
    c.scopeFor k = .error e ↔ ¬ Houses c k ∧ e = .invalidChild c.id c.kind k := by
  cases c with
  | net n =>
    by_cases hk : k = .page <;>
      simp [Object.scopeFor, Houses, Object.kind, Object.id, hk, eq_comm]
  | page p =>
    by_cases hk : k = .net <;>
      simp [Object.scopeFor, Houses, Object.kind, Object.id, hk, howner p rfl, eq_comm]
  | place p => simp [Object.scopeFor, Houses, Object.kind, Object.id, eq_comm]
  | transition t => simp [Object.scopeFor, Houses, Object.kind, Object.id, eq_comm]
  | arc a => simp [Object.scopeFor, Houses, Object.kind, Object.id, eq_comm]

section Parent

variable (hr : d.Registered) {c : Object} (hc : d.object? parent = some c)
include hr hc

theorem finds_housed : d.Finds parent o .housed (c.scopeFor o.kind) := by
  have hid : c.id = parent := hr.id_of_object? hc
  have hbreaks : ∀ e, d.Breaks parent o .housed e ↔
      ¬ Houses c o.kind ∧ e = .invalidChild parent c.kind o.kind := by
    intro e
    constructor
    · intro h
      cases h with
      | housed hc' hk =>
        rw [hc] at hc'
        cases hc'
        exact ⟨hk, rfl⟩
    · rintro ⟨hk, rfl⟩
      exact .housed hc hk
  have howner : ∀ p, c = .page p → p.owner.isNone = false := by
    rintro p rfl
    obtain ⟨w, -, hw, -⟩ := hr.owner_spec hc (by simp [Object.kind])
    rw [show p.owner = some w from hw]
    rfl
  intro e
  rw [hbreaks, scopeFor_eq_error_iff howner, hid]

theorem finds_named (hn : d.Named) {names : Table String ObjectId}
    (hnames : c.names? = some names) : d.Finds parent o .named (checkName c.id names o) := by
  have hid : c.id = parent := hr.id_of_object? hc
  have hscope : d.names? parent = some names := by rw [names?, hc, Option.bind_some, hnames]
  have hcontains : ∀ n, names.contains n = true ↔
      ∃ i x, d.object? i = some x ∧ x.Bears parent n := by
    intro n
    rw [Table.contains_iff_exists]
    exact exists_congr fun i => find?_iff_bears hr hn hscope
  intro e
  constructor
  · intro h
    rw [checkName] at h
    split at h
    · cases h
    · next n hname =>
      split at h
      · next hn =>
        cases h
        obtain ⟨i, x, hx, hb⟩ := (hcontains n).mp hn
        rw [hid]
        exact .named hx hb hname
      · cases h
  · intro h
    cases h with
    | named hx hb hname =>
      rw [checkName, hname, hid]
      dsimp only
      rw [if_pos ((hcontains _).mpr ⟨_, _, hx, hb⟩)]

end Parent

section Arc

variable (hd : d.Reachable Edit.IsPlain) {p : Page} (hp : d.page? parent = some p) {a : Arc}
include hd hp

theorem vertex?_eq_none_iff {i : ObjectId} : p.vertex? i = none ↔
    ∀ x, d.object? i = some x → x.kind.isNode = true → x.owner ≠ some (.page parent) := by
  have hnodes := ((contained_of_tabled hd.registered hd.tabled).nodes parent p hp).2 i
  rw [Table.mem_keys_iff] at hnodes
  rw [Option.eq_none_iff_forall_ne_some]
  constructor
  · intro h x hx hk hw
    obtain ⟨v, hv⟩ := hnodes.mpr ⟨x, hx, hk, hw⟩
    exact h v hv
  · intro h v hv
    obtain ⟨x, hx, hk, hw⟩ := hnodes.mp ⟨v, hv⟩
    exact h x hx hk hw

theorem endpoint_eq_error_iff {i : ObjectId} {e : NetError} :
    d.endpoint p a i = .error e ↔ d.Astray parent a.id i e := by
  have hid : p.id = parent := hd.registered.id_of_object? (page?_eq_some_iff.mp hp)
  constructor
  · intro h
    cases hi : d.node? i with
    | none =>
      simp only [endpoint, hi, Option.isNone_none, if_pos, Except.error.injEq] at h
      exact h ▸ .unknown hi
    | some n =>
      obtain ⟨x, hx, hxn⟩ := Option.bind_eq_some_iff.mp hi
      have hk : x.kind.isNode = true := by
        rw [← Object.isSome_node?_iff, hxn]
        rfl
      cases hv : p.vertex? i with
      | none =>
        simp [endpoint, hi, hv, hid] at h
        exact h ▸ .elsewhere hx hk ((vertex?_eq_none_iff hd hp).mp hv x hx hk)
      | some v => simp [endpoint, hi, hv] at h
  · intro h
    cases h with
    | unknown hi => rw [endpoint, hi]; rfl
    | elsewhere hx hk hw =>
      have hi : (d.node? i).isNone = false := by
        rw [Option.isNone_eq_false_iff, Option.isSome_iff_ne_none]
        exact node?_ne_none hx hk
      have hv : p.vertex? i = none := by
        rw [vertex?_eq_none_iff hd hp]
        intro y hy _
        rw [hx] at hy
        cases hy
        exact hw
      rw [endpoint, hi, hv, hid]
      rfl

theorem finds_single {v w : Nat} (hv : p.vertex? a.source = some v)
    (hw : p.vertex? a.target = some w) : d.Finds parent (.arc a) .single
      (if (p.graph.findEdge? v w).isSome then .error (.duplicateArc a.source a.target)
        else .ok () : Except NetError Unit) := by
  have hbetween : (p.graph.findEdge? v w).isSome = true ↔
      ∃ i b, d.arc? i = some b ∧ b.owner = some (.page parent) ∧ b.source = a.source ∧
        b.target = a.target := by
    have hfound : (p.graph.findEdge? v w).map (·.arc) = p.arcBetween? a.source a.target := by
      simp only [Page.arcBetween?, hv, hw, bind, Option.bind_some]
    rw [← Option.isSome_map, hfound, Option.isSome_iff_exists]
    exact exists_congr fun i => hd.arcBetween?_iff hp
  intro e
  constructor
  · intro h
    split at h
    · next hf =>
      cases h
      obtain ⟨i, b, hb, howner, hsource, htarget⟩ := hbetween.mp hf
      exact .single rfl hb howner hsource htarget
    · cases h
  · intro h
    cases h with
    | single ha hb howner hsource htarget =>
      cases ha
      rw [if_pos (hbetween.mpr ⟨_, _, hb, howner, hsource, htarget⟩)]

end Arc

section Content

/-- The rules about contents that say nothing about an object of the given kind. -/
def Rule.vacuous : Kind → List Rule
  | .net | .page => [.finite, .reference, .marked, .source, .target, .single]
  | .place => [.source, .target, .single]
  | .transition => [.marked, .source, .target, .single]
  | .arc => [.reference, .marked]

theorem not_breaks_of_vacuous {k : Kind} (hk : o.kind = k) {r : Rule} (hr : r ∈ Rule.vacuous k)
    (e : NetError) : ¬ d.Breaks parent o r e := by
  subst hk
  intro h
  cases h <;> cases o <;> simp_all [Rule.vacuous, Object.kind, Object.isPlaced, Object.node?,
    Object.reference?]

theorem decides_checkNode {n : NodeData} (hn : o.node? = some n) :
    Decides (d.Breaks parent o) [.finite, .reference] (d.checkNode o.id o.kind n) := by
  have hsplit : d.checkNode o.id o.kind n =
      ((if n.isFinite then .ok () else .error (.nonFiniteGeometry o.id)) >>= fun _ =>
        match n.reference with
        | none => .ok ()
        | some r => d.checkReference o.id o.kind r) := by
    rw [checkNode]
    cases n.isFinite <;> rfl
  have hfinite : ∀ e, d.Breaks parent o .finite e ↔
      n.isFinite = false ∧ e = .nonFiniteGeometry o.id := by
    intro e
    constructor
    · intro h
      cases h with
      | extent hf =>
        rw [Object.isPlaced, hn, Option.all_some] at hf
        exact ⟨hf, rfl⟩
      | curve ha _ =>
        rw [ha] at hn
        cases hn
    · rintro ⟨hf, rfl⟩
      refine .extent ?_
      rw [Object.isPlaced, hn, Option.all_some, hf]
  rw [hsplit]
  exact .cons (finds_finite hfinite) fun _ _ => .one (finds_reference hn)

theorem decides_checkArc (hd : d.Reachable Edit.IsPlain) {p : Page} (hp : d.page? parent = some p)
    (a : Arc) : Decides (d.Breaks parent (.arc a)) Rule.content (d.checkArc p a) := by
  have hsplit : d.checkArc p a =
      ((if a.curve.all Point.isFinite then .ok () else .error (.nonFiniteGeometry a.id)) >>=
        fun _ => d.endpoint p a a.source >>= fun v => d.endpoint p a a.target >>= fun w =>
          if (p.graph.findEdge? v w).isSome then .error (.duplicateArc a.source a.target)
          else .ok ()) := by
    rw [checkArc]
    cases a.curve.all Point.isFinite <;> rfl
  have hfinite : ∀ e, d.Breaks parent (.arc a) .finite e ↔
      a.curve.all Point.isFinite = false ∧ e = .nonFiniteGeometry a.id := by
    intro e
    constructor
    · intro h
      cases h with
      | extent hf => cases hf
      | curve ha hf =>
        cases ha
        exact ⟨hf, rfl⟩
    · rintro ⟨hf, rfl⟩
      exact .curve rfl hf
  have hsource : d.Finds parent (.arc a) .source (d.endpoint p a a.source) := by
    intro e
    rw [endpoint_eq_error_iff hd hp]
    refine ⟨.source rfl, fun h => ?_⟩
    cases h with
    | source ha he =>
      cases ha
      exact he
  have htarget : d.Finds parent (.arc a) .target (d.endpoint p a a.target) := by
    intro e
    rw [endpoint_eq_error_iff hd hp]
    refine ⟨.target rfl, fun h => ?_⟩
    cases h with
    | target ha he =>
      cases ha
      exact he
  have hcurve : d.Finds parent (.arc a) .finite
      (if a.curve.all Point.isFinite then .ok () else .error (.nonFiniteGeometry a.id) :
        Except NetError Unit) := finds_finite hfinite
  rw [hsplit]
  have hvacuous : ∀ {r : Rule}, r ∈ Rule.vacuous .arc → ∀ e, ¬ d.Breaks parent (.arc a) r e :=
    fun hr => not_breaks_of_vacuous rfl hr
  refine .cons hcurve fun _ _ => .skip (hvacuous (by decide)) (.skip (hvacuous (by decide))
    (.cons hsource fun v hv => .cons htarget fun w hw => .one ?_))
  exact finds_single hd hp (endpoint_eq_ok_iff.mp hv).2 (endpoint_eq_ok_iff.mp hw).2

theorem decides_checkContent (hd : d.Reachable Edit.IsPlain) {c : Object}
    (hc : d.object? parent = some c) (hk : Houses c o.kind) :
    Decides (d.Breaks parent o) Rule.content (d.checkContent c o) := by
  have hvacuous : ∀ r ∈ Rule.vacuous o.kind, ∀ e, ¬ d.Breaks parent o r e :=
    fun r hr => not_breaks_of_vacuous rfl hr
  cases o with
  | net n => exact hvacuous
  | page p => exact hvacuous
  | place p =>
    have hnode : Decides (d.Breaks parent (.place p)) [.finite, .reference]
        (d.checkNode p.id .place p.node) := decides_checkNode rfl
    have hsplit : d.checkPlace p = (d.checkNode p.id .place p.node >>= fun _ =>
        if p.markingOffset.isFinite then .ok () else .error (.nonFiniteGeometry p.id)) := rfl
    have hplace : Decides (d.Breaks parent (.place p)) [.finite, .reference, .marked]
        (d.checkPlace p) := by
      rw [hsplit]
      exact hnode.bind fun _ _ => .one (finds_marked rfl)
    exact hplace.pad hvacuous
  | transition t =>
    have hnode : Decides (d.Breaks parent (.transition t)) [.finite, .reference]
        (d.checkNode t.id .transition t.node) := decides_checkNode rfl
    exact hnode.pad hvacuous
  | arc a =>
    cases c with
    | page p => exact decides_checkArc hd (page?_eq_some_iff.mpr hc) a
    | _ => simp [Houses, Object.kind] at hk

end Content

theorem check_eq (d : Document) (parent : ObjectId) (o : Object) : d.check parent o =
    ((if o.id.isEmpty then .error .emptyId else .ok ()) >>= fun _ =>
      match d.object? parent with
      | none => .error (.detached parent)
      | some c => c.scopeFor o.kind >>= fun names =>
        (if d.contains o.id then .error (.duplicateId o.id) else .ok ()) >>= fun _ =>
          checkName c.id names o >>= fun _ => d.checkContent c o) := by
  rw [check]
  cases o.id.isEmpty with
  | true => rfl
  | false =>
    cases d.object? parent with
    | none => rfl
    | some c =>
      dsimp only
      cases c.scopeFor o.kind with
      | error e => rfl
      | ok names => cases d.contains o.id <;> rfl

theorem decides_check (hd : d.Reachable Edit.IsPlain) (parent : ObjectId) (o : Object) :
    Decides (d.Breaks parent o) (Rule.common ++ Rule.content) (d.check parent o) := by
  have hr := hd.registered
  rw [check_eq]
  refine .cons finds_identified fun _ _ => ?_
  cases hc : d.object? parent with
  | none => exact .here (.attached hc)
  | some c =>
    have hattached : ∀ e, ¬ d.Breaks parent o .attached e := by
      intro e h
      cases h with
      | attached hnone =>
        rw [hc] at hnone
        cases hnone
    refine .skip hattached (.cons (finds_housed hr hc) fun names hnames => ?_)
    obtain ⟨hscope, hcontainer⟩ := Object.scopeFor_eq_ok hnames
    have hhouses : Houses c o.kind := by
      rcases hcontainer with ⟨n, rfl, hk⟩ | ⟨p, rfl, hk, -⟩
      · exact .inl ⟨rfl, hk⟩
      · exact .inr ⟨rfl, hk⟩
    exact .cons finds_fresh fun _ _ => .cons (finds_named hr hc hd.named hscope) fun _ _ =>
      decides_checkContent hd hc hhouses

theorem Rule.mem_all (r : Rule) : r ∈ Rule.common ++ Rule.content := by
  cases r <;> decide

/-- In every run the check accepts just the objects that keep all rules, and of those that are
broken it reports the first. No page is ever without an owner. -/
theorem check_reachable (hd : d.Reachable Edit.IsPlain) (parent : ObjectId) (o : Object) :
    (d.check parent o = .ok () ↔ d.Accepts parent o) ∧
    (∀ e, d.check parent o = .error e ↔
      First (d.Breaks parent o) (Rule.common ++ Rule.content) e) ∧
    ∀ p, d.check parent o ≠ .error (.orphan p) := by
  have hdecides := decides_check hd parent o
  have herror := hdecides.error_iff fun _ _ _ he hf => he.unique hf
  refine ⟨?_, herror, fun p hp => ?_⟩
  · rw [hdecides.ok_iff]
    exact ⟨fun h => accepts_of_not_breaks fun r => h r r.mem_all, fun h r _ => h.not_breaks r⟩
  · obtain ⟨r, -, hr⟩ := ((herror _).mp hp).exists_broken
    exact hr.ne_orphan p rfl

theorem check_reachable_loopRun : (run loopRun).Reachable Edit.IsPlain ∧
    (run loopRun).Accepts ⟨"p"⟩ (.arc { id := ⟨"bb"⟩, source := ⟨"b"⟩, target := ⟨"b"⟩ }) ∧
    First ((run loopRun).Breaks ⟨"p"⟩ (.arc { id := ⟨"ab2"⟩, source := ⟨"a"⟩, target := ⟨"b"⟩ }))
      (Rule.common ++ Rule.content) (.duplicateArc ⟨"a"⟩ ⟨"b"⟩) ∧
    First ((run loopRun).Breaks ⟨"n"⟩ (.place { id := ⟨"a"⟩ })) (Rule.common ++ Rule.content)
      (.invalidChild ⟨"n"⟩ .net .place) := by
  have hd : (run loopRun).Reachable Edit.IsPlain := ⟨loopRun, uses_loopRun, rfl⟩
  obtain ⟨hnew, -, -⟩ :=
    check_reachable hd ⟨"p"⟩ (.arc { id := ⟨"bb"⟩, source := ⟨"b"⟩, target := ⟨"b"⟩ })
  obtain ⟨-, htwice, -⟩ :=
    check_reachable hd ⟨"p"⟩ (.arc { id := ⟨"ab2"⟩, source := ⟨"a"⟩, target := ⟨"b"⟩ })
  obtain ⟨-, hplace, -⟩ := check_reachable hd ⟨"n"⟩ (.place { id := ⟨"a"⟩ })
  exact ⟨hd, hnew.mp (by decide +kernel), (htwice _).mp (by decide +kernel),
    (hplace _).mp (by decide +kernel)⟩

end PagedNets.Document
