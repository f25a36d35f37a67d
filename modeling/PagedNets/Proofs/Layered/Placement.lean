import PagedNets.Proofs.Layered.Bends
import PagedNets.Proofs.Layered.Redrawing

set_option autoImplicit false

namespace PagedNets.Layered

section Exact

variable {a : Rat} {as : List Rat}

theorem larger_eq_max (a b : Rat) : Scalar.larger a b = max a b := (max_def a b).symm

theorem isGreatest_foldl_larger (a : Rat) (as : List Rat) :
    IsGreatest {b | b = a ∨ b ∈ as} (as.foldl Scalar.larger a) := by
  induction as generalizing a with
  | nil => exact ⟨.inl rfl, fun b hb => le_of_eq (hb.resolve_right List.not_mem_nil)⟩
  | cons c as ih =>
    rw [List.foldl_cons, larger_eq_max]
    obtain ⟨hmem, hle⟩ := ih (max a c)
    have hmax : max a c ≤ as.foldl Scalar.larger (max a c) := hle (.inl rfl)
    constructor
    · rcases hmem with hmem | hmem
      · rcases max_choice a c with ha | hc
        · exact .inl (hmem.trans ha)
        · exact .inr (List.mem_cons.mpr (.inl (hmem.trans hc)))
      · exact .inr (List.mem_cons_of_mem c hmem)
    · rintro b (rfl | hb)
      · exact (le_max_left _ _).trans hmax
      · rcases List.mem_cons.mp hb with rfl | hb
        · exact (le_max_right _ _).trans hmax
        · exact hle (.inr hb)

theorem isGreatest_largest (as : List Rat) :
    IsGreatest {b | b = 0 ∨ b ∈ as} (Scalar.largest as) := isGreatest_foldl_larger 0 as

theorem le_largest (h : a ∈ as) : a ≤ Scalar.largest as := (isGreatest_largest as).2 (.inr h)

theorem zero_le_largest (as : List Rat) : 0 ≤ Scalar.largest as :=
  (isGreatest_largest as).2 (.inl rfl)

theorem sum_eq (as : List Rat) : Scalar.sum as = as.sum := by
  cases as with
  | nil => rfl
  | cons a as =>
    rw [List.sum_eq_foldl, List.foldl_cons, zero_add]
    rfl

theorem zero_le_of_isLength (h : isLength a = true) : 0 ≤ a :=
  of_decide_eq_true (Bool.and_eq_true_iff.mp h).2

end Exact

section Rows

variable {vertices : Array (Vertex Rat)} {spacing : Spacing Rat} {y cursor : Rat}
  {layer : Layer} {p : Nat × Spot Rat}

def leftEdge (vertices : Array (Vertex Rat)) (p : Nat × Spot Rat) : Rat :=
  p.2.x - widthOf vertices p.1 / 2

def rightEdge (vertices : Array (Vertex Rat)) (p : Nat × Spot Rat) : Rat :=
  p.2.x + widthOf vertices p.1 / 2

theorem placeRow_cons (vertices : Array (Vertex Rat)) (spacing : Spacing Rat) (y cursor : Rat)
    (v : Nat) (layer : Layer) : placeRow vertices spacing y cursor (v :: layer) =
      (v, { x := cursor + widthOf vertices v / 2, y := y }) ::
        placeRow vertices spacing y (cursor + (widthOf vertices v + spacing.node)) layer := rfl

theorem layerWidth_eq (vertices : Array (Vertex Rat)) (spacing : Spacing Rat) (layer : Layer) :
    layerWidth vertices spacing layer =
      (layer.map (widthOf vertices)).sum + spacing.node * ((layer.length - 1 : Nat) : Rat) := by
  rw [← sum_eq]
  rfl

theorem layerWidth_singleton (v : Nat) :
    layerWidth vertices spacing [v] = widthOf vertices v := by
  simp [layerWidth_eq]

theorem layerWidth_cons_cons (v w : Nat) (layer : Layer) :
    layerWidth vertices spacing (v :: w :: layer) =
      widthOf vertices v + spacing.node + layerWidth vertices spacing (w :: layer) := by
  simp only [layerWidth_eq, List.map_cons, List.sum_cons, List.length_cons, Nat.add_sub_cancel,
    Nat.cast_add, Nat.cast_one]
  ring

section

variable (hwidth : ∀ v, 0 ≤ widthOf vertices v) (hnode : 0 ≤ spacing.node)
include hwidth hnode

theorem zero_le_layerWidth (layer : Layer) : 0 ≤ layerWidth vertices spacing layer := by
  rw [layerWidth_eq]
  have hsum : 0 ≤ (layer.map (widthOf vertices)).sum :=
    List.sum_nonneg (List.forall_mem_map.mpr fun v _ => hwidth v)
  positivity

theorem le_leftEdge (hp : p ∈ placeRow vertices spacing y cursor layer) :
    cursor ≤ leftEdge vertices p := by
  induction layer generalizing cursor with
  | nil => cases hp
  | cons v layer ih =>
    rw [placeRow_cons] at hp
    rcases List.mem_cons.mp hp with rfl | hp
    · simp [leftEdge]
    · have hle := ih hp
      have hv := hwidth v
      linarith

theorem rightEdge_le (hp : p ∈ placeRow vertices spacing y cursor layer) :
    rightEdge vertices p ≤ cursor + layerWidth vertices spacing layer := by
  induction layer generalizing cursor with
  | nil => cases hp
  | cons v layer ih =>
    rw [placeRow_cons] at hp
    cases layer with
    | nil =>
      obtain rfl := List.mem_singleton.mp hp
      rw [layerWidth_singleton, rightEdge]
      linarith
    | cons w layer =>
      rw [layerWidth_cons_cons]
      rcases List.mem_cons.mp hp with rfl | hp
      · have hrest := zero_le_layerWidth hwidth hnode (w :: layer)
        rw [rightEdge]
        linarith
      · have hle := ih hp
        linarith

/-- In a row each vertex begins where the ones before it and the gap after them have ended. -/
theorem pairwise_placeRow (y cursor : Rat) (layer : Layer) :
    (placeRow vertices spacing y cursor layer).Pairwise fun p q =>
      rightEdge vertices p + spacing.node ≤ leftEdge vertices q := by
  induction layer generalizing cursor with
  | nil => exact .nil
  | cons v layer ih =>
    rw [placeRow_cons]
    refine .cons (fun q hq => ?_) (ih _)
    have hle := le_leftEdge hwidth hnode hq
    rw [rightEdge]
    linarith

end

theorem ends_placeRow (vertices : Array (Vertex Rat)) (spacing : Spacing Rat) (y cursor : Rat)
    (h : layer ≠ []) :
    (∃ p ∈ placeRow vertices spacing y cursor layer, leftEdge vertices p = cursor) ∧
      ∃ q ∈ placeRow vertices spacing y cursor layer,
        rightEdge vertices q = cursor + layerWidth vertices spacing layer := by
  induction layer generalizing cursor with
  | nil => exact absurd rfl h
  | cons v layer ih =>
    rw [placeRow_cons]
    refine ⟨⟨_, List.mem_cons_self, by simp [leftEdge]⟩, ?_⟩
    cases layer with
    | nil =>
      refine ⟨_, List.mem_cons_self, ?_⟩
      rw [layerWidth_singleton, rightEdge]
      ring
    | cons w layer =>
      obtain ⟨-, q, hq, hright⟩ :=
        ih (cursor + (widthOf vertices v + spacing.node)) (List.cons_ne_nil w layer)
      refine ⟨q, List.mem_cons_of_mem _ hq, ?_⟩
      rw [hright, layerWidth_cons_cons]
      ring

end Rows

section Layers

variable {vertices : Array (Vertex Rat)} {spacing : Spacing Rat} {layers : List Layer}
  {upper lower : Layer} {top y z : Rat} {r s : Nat}

theorem rowsFrom_cons (vertices : Array (Vertex Rat)) (spacing : Spacing Rat) (top : Rat)
    (layer : Layer) (layers : List Layer) : rowsFrom vertices spacing top (layer :: layers) =
      (top + layerHeight vertices layer / 2) :: rowsFrom vertices spacing
        (top + (max (layerHeight vertices layer) spacing.node + spacing.layer)) layers := by
  rw [← larger_eq_max]
  rfl

theorem zero_le_layerHeight (vertices : Array (Vertex Rat)) (layer : Layer) :
    0 ≤ layerHeight vertices layer := zero_le_largest _

theorem le_layerHeight {v : Nat} {height : Rat} (hv : v ∈ upper)
    (h : heightOf? vertices v = some height) : height ≤ layerHeight vertices upper :=
  le_largest (List.mem_filterMap.mpr ⟨v, hv, h⟩)

section

variable (hlayer : 0 ≤ spacing.layer)
include hlayer

theorem le_row (hrow : (rowsFrom vertices spacing top layers)[s]? = some z)
    (hlower : layers[s]? = some lower) : top ≤ z - layerHeight vertices lower / 2 := by
  induction layers generalizing top s with
  | nil => cases hlower
  | cons layer layers ih =>
    rw [rowsFrom_cons] at hrow
    cases s with
    | zero =>
      cases hrow
      cases hlower
      linarith
    | succ s =>
      have hle := ih hrow hlower
      have hheight := (zero_le_layerHeight vertices layer).trans (le_max_left _ spacing.node)
      linarith

theorem row_below (hrs : r < s) (hupper : layers[r]? = some upper)
    (hy : (rowsFrom vertices spacing top layers)[r]? = some y)
    (hlower : layers[s]? = some lower)
    (hz : (rowsFrom vertices spacing top layers)[s]? = some z) :
    y + layerHeight vertices upper / 2 + spacing.layer ≤ z - layerHeight vertices lower / 2 := by
  induction layers generalizing top r s with
  | nil => cases hupper
  | cons layer layers ih =>
    obtain ⟨s, rfl⟩ := Nat.exists_eq_succ_of_ne_zero (Nat.ne_zero_of_lt hrs)
    rw [rowsFrom_cons] at hy hz
    cases r with
    | zero =>
      cases hy
      cases hupper
      -- A row is left room for at least its own height, even where the spacing is greater.
      have hle := le_row hlayer hz hlower
      have hheight := le_max_left (layerHeight vertices upper) spacing.node
      linarith
    | succ r => exact ih (Nat.lt_of_succ_lt_succ hrs) hupper hy hlower hz

end

end Layers

end PagedNets.Layered
