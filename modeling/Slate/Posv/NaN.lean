import Mathlib.Algebra.Order.Field.Rat
import Mathlib.Data.Rat.Defs
import Mathlib.Tactic.NormNum
import Slate.Posv.Controller

/-!
# `iterRefConverged` and NaN

`iterRefConverged` (src/src/posvMixed.cc) rejects only when some
`colnorms_R[i] > colnorms_X[i] * cte`.  With IEEE scalars an ordered
comparison involving NaN is false, so a NaN norm never rejects: the test
accepts a NaN residual.  The low-precision `potrf` is called without looking at
its status, and when it breaks down the solve produces NaN.  This module models
scalars with NaN, proves what the test guarantees (no `R > X cte`, which is
`R ≤ X cte` only away from NaN), and runs `posvMixed` on a `1 × 1` system whose
low-precision factorization breaks down.
-/

namespace Slate
namespace Posv

/-- A scalar: a finite value, a rational, or NaN.  Infinities are not
modelled; an operation with a NaN operand gives NaN. -/
inductive Flt
  | num (q : ℚ)
  | nan
  deriving DecidableEq

namespace Flt

/-- Addition. -/
def add : Flt -> Flt -> Flt
  | num a, num b => num (a + b)
  | _, _ => nan

/-- Subtraction. -/
def sub : Flt -> Flt -> Flt
  | num a, num b => num (a - b)
  | _, _ => nan

/-- Multiplication. -/
def mul : Flt -> Flt -> Flt
  | num a, num b => num (a * b)
  | _, _ => nan

/-- Division; `0 / 0` is NaN, and so is any quotient by zero here. -/
def div : Flt -> Flt -> Flt
  | num a, num b => if b = 0 then nan else num (a / b)
  | _, _ => nan

instance : Add Flt := ⟨add⟩
instance : Sub Flt := ⟨sub⟩
instance : Mul Flt := ⟨mul⟩
instance : Div Flt := ⟨div⟩

/-- Absolute value. -/
def abs : Flt -> Flt
  | num a => num |a|
  | nan => nan

/-- The IEEE comparison `a < b`: false when either operand is NaN. -/
def lt : Flt -> Flt -> Bool
  | num a, num b => decide (a < b)
  | _, _ => false

/-- The IEEE comparison `a <= b`: false when either operand is NaN. -/
def le : Flt -> Flt -> Bool
  | num a, num b => decide (a ≤ b)
  | _, _ => false

/-- A finite value. -/
def IsNum : Flt -> Prop
  | num _ => True
  | nan => False

theorem le_of_not_lt {a b : Flt} (ha : a.IsNum) (hb : b.IsNum) (h : lt b a = false) :
    le a b = true := by
  cases a <;> cases b <;> simp_all [lt, le, IsNum]

@[simp] theorem num_sub (a b : ℚ) : num a - num b = num (a - b) := rfl

@[simp] theorem num_mul (a b : ℚ) : num a * num b = num (a * b) := rfl

@[simp] theorem lt_num (a b : ℚ) : lt (num a) (num b) = decide (a < b) := rfl

@[simp] theorem lt_nan (a : Flt) : lt a nan = false := by cases a <;> rfl

@[simp] theorem le_nan (a : Flt) : le a nan = false := by cases a <;> rfl

@[simp] theorem mul_nan (a : Flt) : a * nan = nan := by cases a <;> rfl

@[simp] theorem nan_mul (a : Flt) : nan * a = nan := by cases a <;> rfl

@[simp] theorem sub_nan (a : Flt) : a - nan = nan := by cases a <;> rfl

@[simp] theorem div_zero (q : ℚ) : num q / num 0 = nan :=
  show (if (0 : ℚ) = 0 then nan else num (q / 0)) = nan from if_pos rfl

end Flt

/-- `iterRefConverged(colnorms_R, colnorms_X, cte)`: false at the first `i`
with `colnorms_R[i] > colnorms_X[i] * cte`, true if there is none. -/
def iterRefConverged : List Flt -> List Flt -> Flt -> Bool
  | r :: rs, x :: xs, cte => if Flt.lt (x * cte) r then false else iterRefConverged rs xs cte
  | _, _, _ => true

theorem iterRefConverged_iff (rs xs : List Flt) (cte : Flt) :
    iterRefConverged rs xs cte = true ↔ ∀ p ∈ rs.zip xs, Flt.lt (p.2 * cte) p.1 = false := by
  induction rs generalizing xs with
  | nil => simp [iterRefConverged]
  | cons r rs ih =>
      cases xs with
      | nil => simp [iterRefConverged]
      | cons x xs =>
          by_cases h : Flt.lt (x * cte) r = true <;> simp [iterRefConverged, h, ih]

theorem le_of_iterRefConverged {rs xs : List Flt} {cte : Flt} (h : iterRefConverged rs xs cte = true)
    {r x : Flt} (hp : (r, x) ∈ rs.zip xs) (hr : r.IsNum) (hx : (x * cte).IsNum) :
    Flt.le r (x * cte) = true :=
  Flt.le_of_not_lt hr hx ((iterRefConverged_iff rs xs cte).mp h _ hp)

/-- A column whose norms are NaN never rejects. -/
@[simp] theorem iterRefConverged_nan (rs xs : List Flt) (cte : Flt) :
    iterRefConverged (.nan :: rs) (.nan :: xs) cte = iterRefConverged rs xs cte := by
  simp [iterRefConverged]

/-! ## Every run -/

section Runs

variable {M Mlo : Type*} [Add M] [Sub M] [Mul M]

/-- What an exit with `iter ≥ 0` guarantees when the test is
`iterRefConverged`: no column of the final norms has `R > X cte`, and a
column whose norms are finite has `R <= X cte`; a column with a NaN norm
gets no guarantee. -/
theorem posvMixed_no_rejection (ops : Routines M Mlo (List Flt)) {cte : Flt}
    (hconv : ∀ r x, ops.converged r x = iterRefConverged r x cte) (A B : M)
    (h : 0 ≤ (posvMixed ops A B).1.iter) :
    ∀ p ∈ (ops.colNorms (posvMixed ops A B).1.R).zip (ops.colNorms (posvMixed ops A B).1.X),
      Flt.lt (p.2 * cte) p.1 = false ∧ (p.1.IsNum -> (p.2 * cte).IsNum -> Flt.le p.1 (p.2 * cte) = true) := by
  have hp := passes_of_nonneg ops A B h
  rw [passes, hconv] at hp
  exact fun q hq => ⟨(iterRefConverged_iff _ _ _).mp hp q hq, fun hr hx => le_of_iterRefConverged hp hq hr hx⟩

end Runs

/-! ## A breakdown of the low-precision factorization -/

/-- `std::numeric_limits<double>::epsilon()`. -/
def eps : Flt := .num ((1 / 2) ^ 52)

/-- `copy` from double to single precision: magnitudes up to `2^-150`
underflow to zero.  The rounding of other values is not modelled. -/
def Flt.toSingle : Flt -> Flt
  | num q => if |q| ≤ (1 / 2) ^ 150 then num 0 else num q
  | nan => nan

/-- The routines on a `1 × 1` system `a x = b`.  The Cholesky factor of
`[l]` is kept as its square `l`, so `potrs` divides by it, and a
zero pivot, where `potrf` breaks down, gives `0 / 0 = NaN`.  `colNorms` is
`|x|` and the test is `iterRefConverged` with `cte = ‖a‖∞ eps sqrt(1)`. -/
def scalarRoutines (a : Flt) : Routines Flt Flt (List Flt) where
  toLo := Flt.toSingle
  toHi x := x
  potrfLo l := l
  potrsLo l b := b / l
  potrf l := l
  potrs l b := b / l
  colNorms x := [x.abs]
  converged r x := iterRefConverged r x (a.abs * eps)

theorem posvMixed_no_rejection_one :
    0 ≤ (posvMixed (scalarRoutines (.num 1)) (.num 1) (.num 1)).1.iter ∧
      ∀ p ∈ ((scalarRoutines (.num 1)).colNorms (posvMixed (scalarRoutines (.num 1)) (.num 1) (.num 1)).1.R).zip
          ((scalarRoutines (.num 1)).colNorms (posvMixed (scalarRoutines (.num 1)) (.num 1) (.num 1)).1.X),
        Flt.lt (p.2 * ((Flt.num 1).abs * eps)) p.1 = false ∧
          (p.1.IsNum -> (p.2 * ((Flt.num 1).abs * eps)).IsNum ->
            Flt.le p.1 (p.2 * ((Flt.num 1).abs * eps)) = true) :=
  have hpass : passes (scalarRoutines (.num 1)) (lowSolve (scalarRoutines (.num 1)) (.num 1) (.num 1)) = true := by
    have hbig : ¬ |(1 : ℚ)| ≤ (1 / 2) ^ 150 := by rw [abs_of_nonneg zero_le_one]; norm_num
    simp only [passes, lowSolve, scalarRoutines, Flt.toSingle, if_neg hbig]
    norm_num [iterRefConverged, Flt.abs, eps, HDiv.hDiv, Div.div, Flt.div]
  have h : 0 ≤ (posvMixed (scalarRoutines (.num 1)) (.num 1) (.num 1)).1.iter := by
    rw [posvMixed, check_of_passes _ hpass, loop_of_converged _ _ rfl, fallback, if_pos rfl]
    exact Int.natCast_nonneg 0
  ⟨h, posvMixed_no_rejection (scalarRoutines (.num 1)) (fun _ _ => rfl) (.num 1) (.num 1) h⟩

/-- `A = [2^-200]`, positive definite and a normal double, underflows in
single precision; with `B = [0]` the low-precision solve is `0 / 0`.  Both
norms are NaN, the first check passes and `posvMixed` exits with
`iter = 0`, no fallback and `X = NaN`, although
`colnorms_R[0] <= colnorms_X[0] * cte` is false. -/
theorem posvMixed_accepts_nan :
    let a : Flt := .num ((1 / 2) ^ 200)
    let r := posvMixed (scalarRoutines a) a (.num 0)
    r.1.iter = 0 ∧ r.1.X = .nan ∧ r.1.R = .nan ∧ r.2.filter Op.IsFallback = [] ∧
      Flt.le r.1.R.abs (r.1.X.abs * (a.abs * eps)) = false := by
  intro a r
  have hlow : lowSolve (scalarRoutines a) a (.num 0) = ⟨a, .nan, .nan, .num 0, .nan, 0, false⟩ := by
    have htiny : |((1 : ℚ) / 2) ^ 200| ≤ (1 / 2) ^ 150 := by
      rw [abs_of_nonneg (by norm_num)]; norm_num
    simp only [lowSolve, scalarRoutines, a, Flt.toSingle, if_pos htiny, ite_self, Flt.div_zero,
      Flt.mul_nan, Flt.sub_nan]
  have hpass : passes (scalarRoutines a) (lowSolve (scalarRoutines a) a (.num 0)) = true := by
    rw [hlow]; rfl
  have hr : r = (⟨a, .nan, .nan, .num 0, .nan, 0, true⟩, [.lowSolve, .check .nan .nan true]) := by
    simp only [r, posvMixed]
    rw [check_of_passes _ hpass, loop_of_converged _ _ rfl, fallback, if_pos rfl, hpass, hlow]
    rfl
  rw [hr]
  exact ⟨rfl, rfl, rfl, rfl, rfl⟩

end Posv
end Slate
