import Mathlib.Algebra.Star.Basic
import Mathlib.Data.Matrix.ConjTranspose
import Mathlib.Data.List.Range

/-!
# Tile grids, sub-views and Hermitian operands

A distributed matrix is a grid of tiles; `M.sub(i1, i2, j1, j2)` selects a
block of tiles and `conjTranspose(M)` re-indexes without moving data.  Tiles
are elements of a star ring `T` (square tiles, `star` the conjugate
transpose), so block products are products in `T`.  A Hermitian operand stores
one triangle of tiles; its diagonal tiles are expanded by the single-tile
`hemm` kernel, which is an external collaborator and enters as a `HermTile`.
-/

namespace Slate
namespace Hemm

/-- Which triangle of a Hermitian matrix is stored. -/
inductive Uplo
  | lower
  | upper
  deriving DecidableEq, Repr

/-- The stored triangle seen through `conjTranspose`. -/
def Uplo.flip : Uplo -> Uplo
  | .lower => .upper
  | .upper => .lower

@[simp] theorem Uplo.flip_flip (u : Uplo) : u.flip.flip = u := by
  cases u <;> rfl

/-- The indices `a, a+1, ..., b-1` of the loop
`for (int64_t i = a; i < b; ++i)`. -/
def intRange (a b : Int) : List Int :=
  (List.range (b - a).toNat).map fun (i : Nat) => a + (i : Int)

@[simp] theorem mem_intRange {a b x : Int} :
    x ∈ intRange a b ↔ a ≤ x ∧ x < b := by
  simp only [intRange, List.mem_map, List.mem_range]
  constructor
  · rintro ⟨i, hi, rfl⟩; omega
  · intro h; exact ⟨(x - a).toNat, by omega, by omega⟩

theorem intRange_eq_nil {a b : Int} (h : b ≤ a) : intRange a b = [] := by
  simp [intRange, Int.toNat_eq_zero.mpr (by omega : b - a ≤ 0)]

theorem intRange_succ {a : Int} : intRange a (a + 1) = [a] := by
  simp [intRange, List.range_succ]

theorem intRange_zero_one : intRange 0 1 = [0] := intRange_succ

theorem intRange_append {a b c : Int} (hab : a ≤ b) (hbc : b ≤ c) :
    intRange a b ++ intRange b c = intRange a c := by
  obtain ⟨m, hm⟩ : ∃ m : Nat, b - a = m := ⟨(b - a).toNat, by omega⟩
  obtain ⟨k, hk⟩ : ∃ k : Nat, c - b = k := ⟨(c - b).toNat, by omega⟩
  rw [intRange, intRange, intRange, hm, hk, show c - a = ((m + k : Nat) : Int) by omega,
    Int.toNat_ofNat, Int.toNat_ofNat, Int.toNat_ofNat, List.range_add, List.map_append,
    List.map_map]
  congr 1
  refine List.map_congr_left fun i _ => ?_
  simp only [Function.comp_apply]; push_cast; omega

theorem map_intRange_shift {β : Type*} (f : Int -> β) (x n : Int) :
    (intRange 0 n).map (fun r => f (x + r)) = (intRange x (x + n)).map f := by
  simp only [intRange, List.map_map, sub_zero, add_sub_cancel_left]
  refine List.map_congr_left fun i _ => ?_
  simp

/-- The tile block `M.sub(i1, i2, j1, j2)`: rows `i1..i2`, columns `j1..j2`. -/
structure Region where
  i1 : Int
  i2 : Int
  j1 : Int
  j2 : Int
  deriving DecidableEq, Repr

/-- Tile `(i, j)` of the parent lies in the block. -/
def Region.Contains (r : Region) (i j : Int) : Prop :=
  r.i1 ≤ i ∧ i ≤ r.i2 ∧ r.j1 ≤ j ∧ j ≤ r.j2

instance (r : Region) (i j : Int) : Decidable (r.Contains i j) := by
  unfold Region.Contains; infer_instance

/-- The tile rows of the block. -/
def Region.rows (r : Region) : List Int := intRange r.i1 (r.i2 + 1)

/-- The tile columns of the block. -/
def Region.cols (r : Region) : List Int := intRange r.j1 (r.j2 + 1)

/-- A view of the Hermitian operand handed to a kernel: `A.sub(...)`, or
`conjTranspose(A.sub(...))` when `conjT` holds. -/
structure AView where
  region : Region
  conjT : Bool
  deriving DecidableEq, Repr

/-- The number of tile columns of the view. -/
def AView.width (v : AView) : Int :=
  if v.conjT then v.region.i2 - v.region.i1 + 1 else v.region.j2 - v.region.j1 + 1

/-- The operand coordinates of tile `(r, c)` of the view. -/
def AView.coord (v : AView) (r c : Int) : Int × Int :=
  if v.conjT then (v.region.i1 + c, v.region.j1 + r)
  else (v.region.i1 + r, v.region.j1 + c)

/-- A tile grid in the coordinates of one operand. -/
abbrev Grid (T : Type*) := Int -> Int -> T

variable {T : Type*}

/-- Tile `(r, c)` of a view of the operand `A`. -/
def AView.get [Star T] (v : AView) (A : Grid T) (r c : Int) : T :=
  if v.conjT then star (A (v.coord r c).1 (v.coord r c).2)
  else A (v.coord r c).1 (v.coord r c).2

/-- The grid of `conjTranspose(M)`. -/
def conjT [Star T] (M : Grid T) : Grid T := fun i j => star (M j i)

@[simp] theorem conjT_apply [Star T] (M : Grid T) (i j : Int) :
    conjT M i j = star (M j i) := rfl

@[simp] theorem conjT_conjT [InvolutiveStar T] (M : Grid T) : conjT (conjT M) = M := by
  funext i j; simp

/-- Modelled from the spec: the single-tile `hemm` kernel, not in src/, as
its reading of a diagonal tile whose `u` triangle is stored.  Reading a conjugate-transposed view of the tile, whose
stored triangle is the other one, gives the conjugate transpose. -/
structure HermTile (T : Type*) [Star T] where
  expand : Uplo -> T -> T
  expand_flip_star : forall u t, expand u.flip (star t) = star (expand u t)

/-- Tile `(i, k)` lies in the stored triangle `u`, off the diagonal. -/
def Stored (u : Uplo) (i k : Int) : Prop :=
  match u with
  | .lower => k < i
  | .upper => i < k

instance (u : Uplo) (i k : Int) : Decidable (Stored u i k) := by
  cases u <;> unfold Stored <;> infer_instance

/-- The full Hermitian matrix `Ahat` whose stored triangle is the `u`
triangle of the grid `A`. -/
def fullHerm [Star T] (H : HermTile T) (u : Uplo) (A : Grid T) (i k : Int) : T :=
  if i = k then H.expand u (A k k)
  else if Stored u i k then A i k else star (A k i)

theorem fullHerm_lt_lower [Star T] (H : HermTile T) (A : Grid T) {i k : Int} (h : i < k) :
    fullHerm H .lower A i k = star (A k i) := by
  simp [fullHerm, Stored, h.ne, not_lt.2 h.le]

theorem fullHerm_gt_lower [Star T] (H : HermTile T) (A : Grid T) {i k : Int} (h : k < i) :
    fullHerm H .lower A i k = A i k := by
  simp [fullHerm, Stored, h.ne', h]

theorem fullHerm_lt_upper [Star T] (H : HermTile T) (A : Grid T) {i k : Int} (h : i < k) :
    fullHerm H .upper A i k = A i k := by
  simp [fullHerm, Stored, h.ne, h]

theorem fullHerm_gt_upper [Star T] (H : HermTile T) (A : Grid T) {i k : Int} (h : k < i) :
    fullHerm H .upper A i k = star (A k i) := by
  simp [fullHerm, Stored, h.ne', not_lt.2 h.le]

@[simp] theorem fullHerm_self [Star T] (H : HermTile T) (u : Uplo) (A : Grid T) (k : Int) :
    fullHerm H u A k k = H.expand u (A k k) := by
  simp [fullHerm]

theorem stored_flip (u : Uplo) (i k : Int) : Stored u.flip i k ↔ Stored u k i := by
  cases u <;> rfl

theorem fullHerm_conjT [InvolutiveStar T] (H : HermTile T) (u : Uplo) (A : Grid T)
    (i k : Int) : fullHerm H u.flip (conjT A) i k = star (fullHerm H u A k i) := by
  unfold fullHerm
  by_cases hik : i = k
  · subst hik; simp [H.expand_flip_star]
  · have hki : k ≠ i := Ne.symm hik
    by_cases hs : Stored u k i <;> simp [hik, hki, hs, stored_flip]

/-- Tiles of size `1 × 1`: a diagonal tile is its own Hermitian expansion. -/
def scalarHermTile (K : Type*) [Star K] : HermTile K :=
  ⟨fun _ t => t, fun _ _ => rfl⟩

/-! ## Square tiles

The expansion of an `n × n` tile over a star ring: the stored triangle is kept
and the other one is the conjugate of its mirror image. -/

section Matrix

variable {K : Type*} [NonUnitalSemiring K] [StarRing K] {n : Nat}

/-- The Hermitian matrix a `hemm` kernel reads from an `n × n` tile. -/
def expandTile : Uplo -> Matrix (Fin n) (Fin n) K -> Matrix (Fin n) (Fin n) K
  | .lower, t => Matrix.of fun a b => if b ≤ a then t a b else star (t b a)
  | .upper, t => Matrix.of fun a b => if a ≤ b then t a b else star (t b a)

theorem expandTile_flip_star (u : Uplo) (t : Matrix (Fin n) (Fin n) K) :
    expandTile u.flip (star t) = star (expandTile u t) := by
  ext a b
  cases u <;> by_cases hab : a ≤ b <;> by_cases hba : b ≤ a <;>
    simp [expandTile, Uplo.flip, Matrix.star_apply, hab, hba]

/-- The tile kernel on square tiles. -/
def matrixHermTile : HermTile (Matrix (Fin n) (Fin n) K) :=
  ⟨expandTile, expandTile_flip_star⟩

end Matrix

end Hemm
end Slate
