import PagedNets.Proofs.Decimal.Bits
import PagedNets.Proofs.Layered.Clearance
import PagedNets.Proofs.Layout.Refusal

set_option autoImplicit false

namespace PagedNets.Layout

open Layered (Graph Layering Method Summary)

section Doubling

open Float.Model (Format UnpackedFloat)
open Decimal (unpacked)

def IsNonnegative (f : UnpackedFloat) : Prop := (UnpackedFloat.zero .positive).le f = true

theorem isNonnegative_unpack_iff {x : Float} : IsNonnegative x.toModel.unpack ↔ 0 ≤ x := by
  rw [Layered.le_iff_unpack, Layered.unpack_zero]
  rfl

theorem isNonnegative_unpacked {e : BitVec 11} {m : BitVec 52} (h : e = -1#11 → m = 0#52) :
    IsNonnegative (unpacked .positive e m) := by
  unfold unpacked UnpackedFloat.unpack
  simp only [Decimal.unpackMantissa_bitsOf, Decimal.unpackExponent_bitsOf,
    Decimal.unpackSign_bitsOf]
  split
  · next he =>
    rw [if_pos (h he)]
    rfl
  · split
    · split <;> rfl
    · rfl

theorem ofNat_ne_neg_one {n : Nat} (h : n + 1 < 2 ^ 11) : BitVec.ofNat 11 n ≠ -1#11 := by
  intro heq
  have hnat := congrArg BitVec.toNat heq
  rw [BitVec.toNat_ofNat, Nat.mod_eq_of_lt (by omega)] at hnat
  have hmax : (-1#11 : BitVec 11).toNat = 2 ^ 11 - 1 := by decide
  omega

theorem IsNonnegative.unpack_pack {f : UnpackedFloat} (h : IsNonnegative f) : IsNonnegative
    (UnpackedFloat.unpack Format.binary64 (UnpackedFloat.pack Format.binary64 f)) := by
  cases f with
  | notANumber => cases h
  | infinity s =>
    cases s with
    | negative => cases h
    | positive => exact isNonnegative_unpacked (e := -1#11) (m := 0#52) fun _ => rfl
  | zero s => cases s <;> rfl
  | finite s n k hn =>
    cases s with
    | negative => cases h
    | positive =>
      unfold UnpackedFloat.pack
      dsimp only
      split
      · exact isNonnegative_unpacked (e := -1#11) (m := 0#52) fun _ => rfl
      · next hsmall =>
        split
        · refine isNonnegative_unpacked fun he => absurd he (ofNat_ne_neg_one ?_)
          exact Nat.lt_of_not_le hsmall
        · exact isNonnegative_unpacked fun he => absurd he (by decide)

theorem isNonnegative_roundWithAccuracy (spec : Format) (n : Nat) (k : Int)
    (accuracy : UnpackedFloat.Accuracy) :
    IsNonnegative (UnpackedFloat.roundWithAccuracy spec .positive n k accuracy) := by
  unfold UnpackedFloat.roundWithAccuracy
  dsimp only
  split <;> rfl

theorem zero_le_mul_two {x : Float} (h : 0 ≤ x) : 0 ≤ x * 2 := by
  obtain ⟨n, k, hn, htwo⟩ : ∃ n k hn, (2 : Float).toModel.unpack = .finite .positive n k hn :=
    ⟨4503599627370496, -51, by decide, rfl⟩
  have hproduct : (x * 2).toModel.unpack = UnpackedFloat.unpack Format.binary64
      (UnpackedFloat.pack Format.binary64
        (UnpackedFloat.mul Format.binary64 x.toModel.unpack (2 : Float).toModel.unpack)) := rfl
  rw [← isNonnegative_unpack_iff] at h ⊢
  rw [hproduct, htwo]
  refine IsNonnegative.unpack_pack ?_
  cases hx : x.toModel.unpack with
  | notANumber =>
    rw [hx] at h
    cases h
  | infinity s =>
    rw [hx] at h
    cases s with
    | negative => cases h
    | positive => rfl
  | zero s => cases s <;> rfl
  | finite s n' k' hn' =>
    rw [hx] at h
    cases s with
    | negative => cases h
    | positive => exact isNonnegative_roundWithAccuracy _ _ _ _

end Doubling

variable {d : Document} {key : ObjectId} {page : Page} {settings : Settings}

/-- A node without a size of its own is drawn only if the default square has one. -/
theorem isLength_nodeSize {done : LaidOut} (hp : d.page? key = some page)
    (hdone : layoutPage d key settings = .ok done) {n : ObjectId × Nat × NodeData}
    (hn : n ∈ nodesOn d page) (hsize : ¬ HasSize n.2.2) :
    Layered.isLength settings.nodeSize = true := by
  obtain ⟨page', drawn, summary, hp', hdraw, -⟩ := layoutPage_eq_ok_iff.mp hdone
  obtain rfl : page' = page := Option.some.inj (hp'.symm.trans hp)
  obtain ⟨back, ranks, hprepares, -, -, -⟩ := Method.draw_eq_ok_iff.mp hdraw
  have hbox : boxOf settings n.1 n.2.2 ∈ (exportPage d page' settings).graph.nodes :=
    List.mem_map_of_mem (f := fun n => boxOf settings n.1 n.2.2) hn
  have hwidth := (Layered.sizes_of_check hprepares.checked _ hbox).1
  rwa [boxOf, boxSize_eq_square hsize] at hwidth

theorem zero_le_spacing (h : Layered.isLength settings.nodeSize = true) :
    0 ≤ settings.method.spacing.node ∧ 0 ≤ settings.method.spacing.layer := by
  have hsize : 0 ≤ settings.nodeSize := of_decide_eq_true (Bool.and_eq_true_iff.mp h).2
  exact ⟨hsize, zero_le_mul_two hsize⟩

/-- With exact arithmetic and a spacing that is not negative, nothing overlaps in a drawing. On a
page with a node that is drawn as the default square, the spacing is not negative. -/
theorem nothing_overlaps :
    (∀ (m : Method Rat) (g drawn : Graph Rat) (summary : Summary),
      0 ≤ m.spacing.node → 0 ≤ m.spacing.layer → m.draw g = .ok (drawn, summary) →
        ∃ back ranks, m.Prepares g back ranks ∧ ∃ l : Layering Rat,
          l = Layered.layering g ranks (g.orient back) ∧
            drawn = Layered.redraw g l.chains (m.spots l) back ∧ m.Clear l back ranks drawn) ∧
    ∀ (d : Document) (key : ObjectId) (page : Page) (settings : Settings) (done : LaidOut),
      d.page? key = some page → layoutPage d key settings = .ok done →
        (∃ n ∈ nodesOn d page, ¬ HasSize n.2.2) →
          0 ≤ settings.method.spacing.node ∧ 0 ≤ settings.method.spacing.layer := by
  constructor
  · intro m g drawn summary hnode hlayer hdraw
    obtain ⟨back, ranks, hprepares, rfl, -, -⟩ := Method.draw_eq_ok_iff.mp hdraw
    exact ⟨back, ranks, hprepares, _, rfl, rfl, hprepares.clear hnode hlayer⟩
  · rintro d key page settings done hp hdone ⟨n, hn, hsize⟩
    exact zero_le_spacing (isLength_nodeSize hp hdone hn hsize)

theorem nothing_overlaps_shortcut :
    (0 ≤ (Method.plainMethod true).spacing.node ∧ 0 ≤ (Method.plainMethod true).spacing.layer ∧
      ∃ drawn, (Method.plainMethod true).draw Method.shortcut = .ok (drawn, ⟨3, 0, 1⟩) ∧
        ∃ l back ranks, (Method.plainMethod true).Clear l back ranks drawn) ∧
    ∃ page done, (Document.run Document.loopRun).page? ⟨"p"⟩ = some page ∧
      layoutPage (Document.run Document.loopRun) ⟨"p"⟩ {} = .ok done ∧
      (∃ n ∈ nodesOn (Document.run Document.loopRun) page, ¬ HasSize n.2.2) ∧
      0 ≤ ({} : Settings).method.spacing.node ∧ 0 ≤ ({} : Settings).method.spacing.layer := by
  obtain ⟨hclear, hspacing⟩ := nothing_overlaps
  have hnode : 0 ≤ (Method.plainMethod true).spacing.node := by decide +kernel
  have hlayer : 0 ≤ (Method.plainMethod true).spacing.layer := by decide +kernel
  obtain ⟨drawn, hdraw⟩ : ∃ drawn,
      (Method.plainMethod true).draw Method.shortcut = .ok (drawn, ⟨3, 0, 1⟩) :=
    Method.exists_draw (by decide +kernel)
  obtain ⟨back, ranks, -, l, -, -, hl⟩ :=
    hclear (Method.plainMethod true) Method.shortcut drawn _ hnode hlayer hdraw
  obtain ⟨page, hp⟩ : ∃ page, (Document.run Document.loopRun).page? ⟨"p"⟩ = some page := ⟨_, rfl⟩
  have hok : (layoutPage (Document.run Document.loopRun) ⟨"p"⟩ {}).toOption.isSome = true := by
    decide +kernel
  obtain ⟨done, hdone⟩ : ∃ done,
      layoutPage (Document.run Document.loopRun) ⟨"p"⟩ {} = .ok done := by
    cases hdone : layoutPage (Document.run Document.loopRun) ⟨"p"⟩ {} with
    | ok done => exact ⟨done, rfl⟩
    | error cause =>
      rw [hdone] at hok
      cases hok
  have hsquare : ∃ n ∈ nodesOn (Document.run Document.loopRun) page, ¬ HasSize n.2.2 := by
    cases hp
    refine ⟨_, List.mem_cons_self, ?_⟩
    rintro ⟨hx, -⟩
    revert hx
    decide +kernel
  exact ⟨⟨hnode, hlayer, drawn, hdraw, l, back, ranks, hl⟩, page, done, hp, hdone, hsquare,
    hspacing _ _ page _ done hp hdone hsquare⟩

end PagedNets.Layout
