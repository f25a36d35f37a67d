import Mathlib
import PagedNets.Layered.Order

set_option autoImplicit false

namespace PagedNets.Layered

/-- One layer is sorted by the one next to it: the layer below a rank by that rank, or the layer of
a rank by the one below it. -/
inductive Turn where
  | down (rank : Nat)
  | up (rank : Nat)
  deriving DecidableEq, Repr

namespace Turn

def fixed : Turn → Nat
  | .down rank => rank
  | .up rank => rank + 1

def free : Turn → Nat
  | .down rank => rank + 1
  | .up rank => rank

def neighbours (above below : Array (List Nat)) : Turn → Array (List Nat)
  | .down _ => above
  | .up _ => below

variable (α : Type) [Scalar α] (above below : Array (List Nat))

def take (layers : List Layer) (t : Turn) : List Layer :=
  layers.set t.free (arrange α (t.neighbours above below) (layers.getD t.fixed [])
    (layers.getD t.free []))

end Turn

def turns (number count : Nat) : List Turn :=
  if number % 2 = 0 then (List.range (count - 1)).map .down
  else (List.range (count - 1)).reverse.map .up

section Loop

variable {α : Type} [Scalar α] {above below : Array (List Nat)}

theorem take_down (before rest : List Layer) (fixed free : Layer) :
    Turn.take α above below (before ++ fixed :: free :: rest) (.down before.length) =
      before ++ fixed :: arrange α above fixed free :: rest := by
  simp [Turn.take, Turn.fixed, Turn.free, Turn.neighbours, List.set_append_right]

theorem take_up (before rest : List Layer) (fixed free : Layer) :
    Turn.take α above below (before ++ free :: fixed :: rest) (.up before.length) =
      before ++ arrange α below fixed free :: fixed :: rest := by
  simp [Turn.take, Turn.fixed, Turn.free, Turn.neighbours, List.set_append_right]

theorem foldl_down (before layers : List Layer) (fixed : Layer) :
    ((List.range' before.length layers.length).map Turn.down).foldl (Turn.take α above below)
        (before ++ fixed :: layers) =
      before ++ fixed :: sweepFrom α above fixed layers := by
  induction layers generalizing before fixed with
  | nil => rfl
  | cons free layers ih =>
    have hrest := ih (before ++ [fixed]) (arrange α above fixed free)
    simp only [List.length_append, List.length_singleton, List.append_assoc,
      List.singleton_append] at hrest
    rw [List.length_cons, List.range'_succ, List.map_cons, List.foldl_cons, take_down, hrest,
      sweepFrom]

theorem foldl_up (layers after : List Layer) (fixed : Layer) :
    ((List.range layers.length).reverse.map Turn.up).foldl (Turn.take α above below)
        (layers ++ fixed :: after) =
      (sweepFrom α below fixed layers.reverse).reverse ++ fixed :: after := by
  -- The layers have their turns from the last to the first.
  induction layers using List.reverseRecOn generalizing after fixed with
  | nil => rfl
  | append_singleton layers free ih =>
    have hrest := ih (fixed :: after) (arrange α below fixed free)
    rw [List.length_append, List.length_singleton, List.range_succ, List.reverse_concat,
      List.map_cons, List.foldl_cons, List.append_assoc, List.singleton_append, take_up, hrest,
      List.reverse_concat, sweepFrom, List.reverse_cons, List.append_assoc, List.singleton_append]

variable (α above below)

/-- A sweep is made turn by turn. -/
theorem pass_eq_foldl (number : Nat) (layers : List Layer) :
    pass α above below number layers =
      (turns number layers.length).foldl (Turn.take α above below) layers := by
  unfold pass turns
  split
  · cases layers with
    | nil => rfl
    | cons first rest =>
      rw [List.length_cons, Nat.add_sub_cancel, List.range_eq_range']
      exact (foldl_down [] rest first).symm
  · cases layers using List.reverseRecOn with
    | nil => rfl
    | append_singleton rest last =>
      rw [List.length_append, List.length_singleton, Nat.add_sub_cancel, foldl_up rest [] last,
        List.reverse_concat, sweep, List.reverse_cons]

end Loop

abbrev Reordered : List Layer → List Layer → Prop := List.Forall₂ List.Perm

section Vertices

variable {α : Type} [Scalar α] {above below : Array (List Nat)} {now given : List Layer} {t : Turn}

variable (α) in
theorem arrange_perm (neighbours : Array (List Nat)) (fixed free : Layer) :
    (arrange α neighbours fixed free).Perm free := by
  have hsorted := (List.mergeSort_perm
    (free.zipIdx.map fun v => ((barycenter neighbours fixed v.1 v.2 : α), v.1))
    fun a b => Scalar.precedes a.1 b.1).map (·.2)
  rw [List.map_map] at hsorted
  exact hsorted.trans (.of_eq (List.zipIdx_map_fst 0 free))

theorem reordered_set {sorted free : Layer} {rank : Nat} (h : Reordered now given)
    (hfree : now[rank]? = some free) (hperm : sorted.Perm free) :
    Reordered (now.set rank sorted) given := by
  induction h generalizing rank with
  | nil => exact .nil
  | cons hlayer hrest ih =>
    cases rank with
    | zero =>
      cases hfree
      exact .cons (hperm.trans hlayer) hrest
    | succ rank => exact .cons hlayer (ih hfree)

theorem reordered_take (h : Reordered now given) (t : Turn) :
    Reordered (t.take α above below now) given := by
  rw [Turn.take]
  by_cases hlt : t.free < now.length
  · refine reordered_set h (List.getElem?_eq_getElem hlt) ?_
    rw [List.getD_eq_getElem _ _ hlt]
    exact arrange_perm α _ _ _
  · rwa [List.set_eq_of_length_le (Nat.le_of_not_lt hlt)]

theorem reordered_foldl (h : Reordered now given) (done : List Turn) :
    Reordered (done.foldl (Turn.take α above below) now) given := by
  induction done generalizing now with
  | nil => exact h
  | cons t done ih => exact ih (reordered_take h t)

variable (α above below) in
theorem reordered_pass (number : Nat) (h : Reordered now given) :
    Reordered (pass α above below number now) given := by
  rw [pass_eq_foldl]
  exact reordered_foldl h _

end Vertices

end PagedNets.Layered
