/-!
Work on a state that is written to in place and may be given up halfway. What was written before a
refusal stays written.
-/

set_option autoImplicit false

namespace PagedNets

/-- Work on a state that may be refused. -/
abbrev InPlace (ε σ β : Type) := ExceptT ε (StateM σ) β

namespace InPlace

variable {ε σ β : Type}

def on (work : InPlace ε σ β) (s : σ) : Except ε β × σ := work.run.run s

def answer (a : Except ε β) : InPlace ε σ β := ExceptT.mk (pure a)

def write (f : σ → σ) : InPlace ε σ Unit := modify f

theorem on_bind {γ : Type} (work : InPlace ε σ β) (next : β → InPlace ε σ γ) (s : σ) :
    (work >>= next).on s = match work.on s with
      | (.error cause, after) => (.error cause, after)
      | (.ok b, after) => (next b).on after := by
  unfold on
  simp only [ExceptT.run_bind, StateT.run_bind]
  simp only [bind]
  cases work.run.run s with
  | mk result after => cases result <;> rfl

@[simp] theorem on_answer (a : Except ε β) (s : σ) : (answer a : InPlace ε σ β).on s = (a, s) := rfl

@[simp] theorem on_pure (b : β) (s : σ) : (pure b : InPlace ε σ β).on s = (.ok b, s) := rfl

@[simp] theorem on_get (s : σ) : (get : InPlace ε σ σ).on s = (.ok s, s) := rfl

@[simp] theorem on_write (f : σ → σ) (s : σ) :
    (write f : InPlace ε σ Unit).on s = (.ok (), f s) := rfl

theorem on_forM {γ : Type} (f : γ → σ → σ) (cs : List γ) (s : σ) :
    (cs.forM fun c => (write (f c) : InPlace ε σ Unit)).on s =
      (.ok (), cs.foldl (fun s c => f c s) s) := by
  induction cs generalizing s with
  | nil => rfl
  | cons c cs ih =>
    change ((write (f c) : InPlace ε σ Unit) >>= fun _ => cs.forM fun c => write (f c)).on s = _
    rw [on_bind, on_write]
    exact ih (f c s)

end InPlace

end PagedNets
