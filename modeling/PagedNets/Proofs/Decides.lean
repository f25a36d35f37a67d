set_option autoImplicit false

namespace PagedNets

variable {ρ ε α β : Type} {broken : ρ → ε → Prop}

/-- The first of the rules that is broken at all is broken in this way. -/
inductive First (broken : ρ → ε → Prop) : List ρ → ε → Prop
  | here {r : ρ} {rs : List ρ} {e : ε} : broken r e → First broken (r :: rs) e
  | later {r : ρ} {rs : List ρ} {e : ε} : (∀ f, ¬ broken r f) → First broken rs e →
      First broken (r :: rs) e

/-- A check goes through the rules in order: it passes if none is broken, and else reports the
first that is. -/
def Decides (broken : ρ → ε → Prop) (rs : List ρ) : Except ε α → Prop
  | .ok _ => ∀ r ∈ rs, ∀ e, ¬ broken r e
  | .error e => First broken rs e

theorem First.append_right {rs : List ρ} {e : ε} (h : First broken rs e) (ss : List ρ) :
    First broken (rs ++ ss) e := by
  induction h with
  | here hr => exact .here hr
  | later hr _ ih => exact .later hr ih

theorem First.append_left {rs ss : List ρ} {e : ε} (h : First broken ss e)
    (hrs : ∀ r ∈ rs, ∀ e, ¬ broken r e) : First broken (rs ++ ss) e := by
  induction rs with
  | nil => exact h
  | cons r rs ih =>
    obtain ⟨hr, hrs⟩ := List.forall_mem_cons.mp hrs
    exact .later hr (ih hrs)

theorem First.unique {rs : List ρ} {e f : ε} (he : First broken rs e) (hf : First broken rs f)
    (hone : ∀ r e f, broken r e → broken r f → e = f) : e = f := by
  induction he with
  | here hr =>
    cases hf with
    | here hr' => exact hone _ _ _ hr hr'
    | later hno _ => exact absurd hr (hno _)
  | later hno _ ih =>
    cases hf with
    | here hr' => exact absurd hr' (hno _)
    | later _ hf => exact ih hf

theorem First.exists_broken {rs : List ρ} {e : ε} (h : First broken rs e) :
    ∃ r ∈ rs, broken r e := by
  induction h with
  | here hr => exact ⟨_, List.mem_cons_self, hr⟩
  | later _ _ ih =>
    obtain ⟨r, hr, he⟩ := ih
    exact ⟨r, List.mem_cons_of_mem _ hr, he⟩

namespace Decides

theorem one {r : ρ} {x : Except ε α} (h : ∀ e, x = .error e ↔ broken r e) :
    Decides broken [r] x := by
  cases x with
  | error e => exact .here ((h e).mp rfl)
  | ok a =>
    intro s hs e
    rw [List.mem_singleton.mp hs, ← h e]
    simp

theorem bind {rs ss : List ρ} {x : Except ε α} {next : α → Except ε β} (hx : Decides broken rs x)
    (hnext : ∀ a, x = .ok a → Decides broken ss (next a)) :
    Decides broken (rs ++ ss) (x >>= next) := by
  cases x with
  | error e => exact First.append_right hx ss
  | ok a =>
    have ha := hnext a rfl
    change Decides broken (rs ++ ss) (next a)
    cases hb : next a with
    | error e =>
      rw [hb] at ha
      exact First.append_left ha hx
    | ok b =>
      rw [hb] at ha
      intro r hr
      exact (List.mem_append.mp hr).elim (hx r) (ha r)

theorem cons {r : ρ} {rs : List ρ} {x : Except ε α} {next : α → Except ε β}
    (h : ∀ e, x = .error e ↔ broken r e) (hnext : ∀ a, x = .ok a → Decides broken rs (next a)) :
    Decides broken (r :: rs) (x >>= next) := bind (one h) hnext

theorem skip {r : ρ} {rs : List ρ} {x : Except ε α} (hr : ∀ e, ¬ broken r e)
    (hx : Decides broken rs x) : Decides broken (r :: rs) x := by
  cases x with
  | error e => exact .later hr hx
  | ok a => exact List.forall_mem_cons.mpr ⟨hr, hx⟩

theorem pad {rs ss : List ρ} {x : Except ε α} (hx : Decides broken rs x)
    (hss : ∀ r ∈ ss, ∀ e, ¬ broken r e) : Decides broken (rs ++ ss) x := by
  cases x with
  | error e => exact First.append_right hx ss
  | ok a => exact fun r hr => (List.mem_append.mp hr).elim (hx r) (hss r)

theorem error_iff {rs : List ρ} {x : Except ε α} (h : Decides broken rs x)
    (hone : ∀ r e f, broken r e → broken r f → e = f) (e : ε) :
    x = .error e ↔ First broken rs e := by
  cases x with
  | error f =>
    refine ⟨fun he => ?_, fun he => by rw [First.unique h he hone]⟩
    cases he
    exact h
  | ok a =>
    refine ⟨fun he => (by cases he), fun he => ?_⟩
    obtain ⟨r, hr, hbroken⟩ := he.exists_broken
    exact absurd hbroken (h r hr e)

theorem ok_iff {rs : List ρ} {x : Except ε Unit} (h : Decides broken rs x) :
    x = .ok () ↔ ∀ r ∈ rs, ∀ e, ¬ broken r e := by
  cases x with
  | ok a => exact ⟨fun _ => h, fun _ => rfl⟩
  | error e =>
    refine ⟨fun he => (by cases he), fun hall => ?_⟩
    obtain ⟨r, hr, hbroken⟩ := First.exists_broken h
    exact absurd hbroken (hall r hr e)

end Decides

end PagedNets
