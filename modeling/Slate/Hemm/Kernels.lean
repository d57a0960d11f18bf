import Mathlib.Algebra.Module.Defs
import Slate.Hemm.Tasks

/-!
# What the compute tasks of `hemmC` do to `C`

The tile kernels `internal::gemm` and `internal::hemm` are not among the
modelled sources; they are taken by their contract: on the sub-views they are
handed they compute `C := alpha op(A) B + coef C` exactly, `op(A)` being the
view of `A` (conjugate-transposed or not) for `gemm`, and the Hermitian
expansion of the diagonal tile for `hemm`.  Tiles are elements of a semiring
`T` with a conjugate transpose `star`, scalars those of a commutative semiring
`S` acting on tiles.

A compute task runs its calls in order.  Each call writes only the tiles of
its own `C` block, and the blocks of one stage split the block column: row
`i < k` is written by the first `gemm`, row `k` by `hemm`, rows `i > k` by the
last `gemm`, each adding `alpha Ahat(i, k) B(k, j)` to `coef C(i, j)`.
-/

namespace Slate
namespace Hemm

open Runtime

variable {S T : Type*} [CommSemiring S] [Semiring T] [Star T] [Module S T]

/-! ## The kernels -/

/-- The scalar a call scales the old `C` tiles by. -/
def Coef.val (beta : S) : Coef -> S
  | .beta => beta
  | .one => 1

/-- The block of `C` a call writes. -/
def Call.target : Call -> Region
  | .gemm _ _ _ C => C
  | .hemm _ _ _ C => C

/-- The coefficient of the old `C` in a call. -/
def Call.coef : Call -> Coef
  | .gemm _ _ c _ => c
  | .hemm _ _ c _ => c

/-- Tile `(i, j)` of `op(A) B` for a call writing `C(i, j)`: the sum over the
inner dimension of the view for `gemm`, the expanded diagonal tile times the
one tile of `B` for `hemm`. -/
def Call.prod (H : HermTile T) (u : Uplo) (A B : Grid T) : Call -> Int -> Int -> T
  | .gemm Av Bv _ Cv, i, j =>
      ((intRange 0 Av.width).map fun l =>
        Av.get A (i - Cv.i1) l * B (Bv.i1 + l) (Bv.j1 + (j - Cv.j1))).sum
  | .hemm k Bv _ Cv, _, j => H.expand u (A k k) * B Bv.i1 (Bv.j1 + (j - Cv.j1))

/-- Modelled from the spec: a call of `internal::hemm` or `internal::gemm`,
whose bodies are not in src/, as `C := alpha op(A) B + coef C` on its block
of `C`. -/
def Call.run (H : HermTile T) (u : Uplo) (alpha beta : S) (A B : Grid T) (c : Call)
    (C : Grid T) : Grid T := fun i j =>
  if c.target.Contains i j then alpha • c.prod H u A B i j + c.coef.val beta • C i j
  else C i j

/-- The compute task of stage `k`: its kernel calls, in order. -/
def computeRun (H : HermTile T) (u : Uplo) (alpha beta : S) (A B : Grid T) (mt nt k : Nat)
    (C : Grid T) : Grid T :=
  (computeCalls u mt nt k).foldl (fun C c => c.run H u alpha beta A B C) C

/-- What a task does to the values of `C`: a broadcast replicates tiles and
changes no value. -/
def taskEffect (H : HermTile T) (u : Uplo) (alpha beta : S) (A B : Grid T) (mt nt : Nat) :
    Label -> Grid T -> Grid T
  | .compute k => computeRun H u alpha beta A B mt nt k
  | _ => id

/-! ## Tile by tile -/

section Tile

variable (H : HermTile T) (u : Uplo) (alpha beta : S) (A B : Grid T)

theorem foldl_run_apply (calls : List Call) (C : Grid T) (i j : Int) :
    calls.foldl (fun C c => c.run H u alpha beta A B C) C i j =
      (calls.filter fun c => decide (c.target.Contains i j)).foldl
        (fun x c => alpha • c.prod H u A B i j + c.coef.val beta • x) (C i j) := by
  induction calls generalizing C with
  | nil => rfl
  | cons c cs ih =>
      rw [List.foldl_cons, ih, List.filter_cons]
      by_cases hc : c.target.Contains i j <;> simp [hc, Call.run]

theorem prod_gemm_col (a b j0 k i2 : Int) (c : Coef) (nt : Nat) (i j : Int) :
    (Call.gemm ⟨⟨a, b, j0, j0⟩, false⟩ (rowB nt k) c (rowsC nt a i2)).prod H u A B i j =
      A i j0 * B k j := by
  simp [Call.prod, AView.width, AView.get, AView.coord, rowB, rowsC, intRange_zero_one]

theorem prod_gemm_row (i0 a b k i2 : Int) (c : Coef) (nt : Nat) (i j : Int) :
    (Call.gemm ⟨⟨i0, i0, a, b⟩, true⟩ (rowB nt k) c (rowsC nt a i2)).prod H u A B i j =
      star (A i0 i) * B k j := by
  simp [Call.prod, AView.width, AView.get, AView.coord, rowB, rowsC, intRange_zero_one]

theorem prod_hemm (k : Int) (c : Coef) (nt : Nat) (i j : Int) :
    (Call.hemm k (rowB nt k) c (rowsC nt k k)).prod H u A B i j = H.expand u (A k k) * B k j := by
  simp [Call.prod, rowB, rowsC]

end Tile

/-! ## One stage -/

/-- The coefficient of stage `k`: `beta` in stage 0, `one` after. -/
def Coef.ofStage : Nat -> Coef
  | 0 => .beta
  | _ + 1 => .one

@[simp] theorem contains_rowsC (nt : Nat) (a b i j : Int) :
    (rowsC nt a b).Contains i j ↔ a ≤ i ∧ i ≤ b ∧ 0 ≤ j ∧ j ≤ (nt : Int) - 1 := Iff.rfl

section Stage

variable (H : HermTile T) (u : Uplo) (alpha beta : S) (A B : Grid T) {mt nt k : Nat}

theorem contains_of_mem_computeCalls {c : Call} (hk : k < mt) (hc : c ∈ computeCalls u mt nt k)
    {i j : Int} (h : c.target.Contains i j) : 0 ≤ i ∧ i < mt ∧ 0 ≤ j ∧ j < nt := by
  cases k <;> cases u <;> simp only [computeCalls] at hc <;> split_ifs at hc <;>
    simp only [List.cons_append, List.nil_append, List.mem_cons, List.mem_singleton,
      List.not_mem_nil, or_false] at hc <;>
    rcases hc with rfl | rfl | rfl <;>
    simp only [Call.target, contains_rowsC] at h <;> omega

theorem filter_computeCalls (hk : k < mt) {i j : Int} (hin : 0 ≤ i ∧ i < mt ∧ 0 ≤ j ∧ j < nt) :
    ∃ c, (computeCalls u mt nt k).filter (fun c => decide (c.target.Contains i j)) = [c] ∧
      c.prod H u A B i j = fullHerm H u A i k * B k j ∧ c.coef = Coef.ofStage k := by
  obtain ⟨hi0, himt, hj0, hjnt⟩ := hin
  have hj : j ≤ (nt : Int) - 1 := by omega
  cases k with
  | zero =>
    rcases (show i = 0 ∨ 1 ≤ i by omega) with rfl | hi
    · cases u <;> simp [computeCalls, List.filter_cons, apply_ite (List.filter _), Call.target,
        Call.coef, Coef.ofStage, prod_hemm, hj0, hj]
    · have h1 : (mt : Int) - 1 > 0 := by omega
      have h2 : i ≤ (mt : Int) - 1 := by omega
      cases u <;> simp [computeCalls, List.filter_cons, Call.target, h1, h2, hi, hj0, hj,
        Call.coef, Coef.ofStage, prod_gemm_col, prod_gemm_row, show ¬ i ≤ 0 by omega,
        fullHerm_gt_lower _ _ (show (0 : Int) < i by omega),
        fullHerm_gt_upper _ _ (show (0 : Int) < i by omega)]
  | succ k =>
    push_cast
    rcases (show i ≤ k ∨ i = k + 1 ∨ k + 2 ≤ i by omega) with hi | rfl | hi
    · cases u <;> simp [computeCalls, List.filter_cons, apply_ite (List.filter _), Call.target,
        Call.coef, Coef.ofStage, prod_gemm_col, prod_gemm_row, hi0, hi, hj0, hj,
        show ¬ (k : Int) + 1 ≤ i by omega, show ¬ (k : Int) + 2 ≤ i by omega,
        fullHerm_lt_lower _ _ (show i < (k : Int) + 1 by omega),
        fullHerm_lt_upper _ _ (show i < (k : Int) + 1 by omega)]
    · cases u <;> simp [computeCalls, List.filter_cons, apply_ite (List.filter _), Call.target,
        Call.coef, Coef.ofStage, prod_hemm, hj0, hj, show ¬ (k : Int) + 1 ≤ k by omega,
        show ¬ (k : Int) + 2 ≤ k + 1 by omega]
    · have h1 : (mt : Int) - 1 > k + 1 := by omega
      have h2 : i ≤ (mt : Int) - 1 := by omega
      cases u <;> simp [computeCalls, List.filter_cons, Call.target, h1, h2, hi, hj0, hj,
        Call.coef, Coef.ofStage, prod_gemm_col, prod_gemm_row, show ¬ i ≤ k by omega,
        show ¬ i ≤ (k : Int) + 1 by omega,
        fullHerm_gt_lower _ _ (show (k : Int) + 1 < i by omega),
        fullHerm_gt_upper _ _ (show (k : Int) + 1 < i by omega)]

theorem computeRun_apply (hk : k < mt) (C : Grid T) (i j : Int) :
    computeRun H u alpha beta A B mt nt k C i j =
      if 0 ≤ i ∧ i < mt ∧ 0 ≤ j ∧ j < nt then
        alpha • (fullHerm H u A i k * B k j) + (Coef.ofStage k).val beta • C i j
      else C i j := by
  rw [computeRun, foldl_run_apply]
  split_ifs with hin
  · obtain ⟨c, hc, hprod, hcoef⟩ := filter_computeCalls H u A B hk hin
    rw [hc, List.foldl_cons, List.foldl_nil, hprod, hcoef]
  · rw [List.filter_eq_nil_iff.2 fun c hc h =>
      hin (contains_of_mem_computeCalls u hk hc (of_decide_eq_true h)), List.foldl_nil]

end Stage

end Hemm
end Slate
