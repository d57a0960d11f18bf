import Mathlib.Data.List.Basic
import Mathlib.Data.List.Range

/-!
# The refinement controller of `posvMixed`

`posvMixed` (src/src/posvMixed.cc) solves `A X = B` by a low-precision
Cholesky solve refined in high precision: after the first solve and after
each of at most `itermax = 30` refinement steps it computes `R = B - A X` and
asks `iterRefConverged` whether to stop; if no check passes it falls back to
a high-precision `potrf(A); X := B; potrs(A, X)`.

The numeric routines are taken by their contracts as fields of `Routines`;
`hemm(-1, A, X, 1, R)` after `copy(B, R)` is `R := B - A X`, and
`add(1, R, 1, X)` is `X := R + X`.  The steps run are recorded as data in a
log.  The model keeps the variables and the loop of the code: the flag
`converged`, the counter `iter` and the `for` loop on `iiter`.  Against it
stands the controller's purpose: the iterates `X_0, X_1, ...`, the first of the
31 checks that passes, and otherwise the fallback.
-/

namespace Slate
namespace Posv

/-- Modelled from the spec: the numeric routines, whose bodies are not in
src/, as parameters standing for their contracts; high-precision matrices `M`,
low-precision ones `Mlo`, column norms `N`. -/
structure Routines (M Mlo N : Type*) where
  /-- `copy` from high to low precision. -/
  toLo : M -> Mlo
  /-- `copy` from low to high precision. -/
  toHi : Mlo -> M
  /-- `potrf(A_lo)`: the factor left in `A_lo`. -/
  potrfLo : Mlo -> Mlo
  /-- `potrs(A_lo, X_lo)`. -/
  potrsLo : Mlo -> Mlo -> Mlo
  /-- `potrf(A)`: the factor left in `A`. -/
  potrf : M -> M
  /-- `potrs(A, X)`. -/
  potrs : M -> M -> M
  /-- `colNorms(Norm::Max, ...)`. -/
  colNorms : M -> N
  /-- `iterRefConverged(colnorms_R, colnorms_X, cte)`. -/
  converged : N -> N -> Bool

/-- The variables of `posvMixed` the steps read and write. -/
structure Vars (M Mlo : Type*) where
  A : M
  X : M
  R : M
  Alo : Mlo
  Xlo : Mlo
  iter : Int
  converged : Bool

/-- The steps of `posvMixed`, as recorded in its log. -/
inductive Op (M : Type*)
  /-- The low-precision factorization and first solve, and its residual. -/
  | lowSolve
  /-- One refinement step, and its residual. -/
  | refine
  /-- A convergence check on the iterate `X` with residual `R`. -/
  | check (X R : M) (pass : Bool)
  /-- The high-precision `potrf(A); copy(B, X); potrs(A, X)`. -/
  | fallback
  deriving DecidableEq

/-- A refinement step of the log. -/
def Op.IsRefine {M : Type*} : Op M -> Bool
  | .refine => true
  | _ => false

/-- A fallback of the log. -/
def Op.IsFallback {M : Type*} : Op M -> Bool
  | .fallback => true
  | _ => false

/-- `const int itermax = 30`. -/
def itermax : Nat := 30

section Model

variable {M Mlo N : Type*} [Add M] [Sub M] [Mul M] (ops : Routines M Mlo N) (A B : M)

/-- `copy(B, X_lo); copy(A, A_lo); potrf(A_lo); potrs(A_lo, X_lo); copy(X_lo, X)`,
then `copy(B, R); hemm(-1, A, X, 1, R)`. -/
def lowSolve : Vars M Mlo :=
  let Alo := ops.potrfLo (ops.toLo A)
  let Xlo := ops.potrsLo Alo (ops.toLo B)
  let X := ops.toHi Xlo
  ⟨A, X, B - A * X, Alo, Xlo, 0, false⟩

/-- `copy(R, X_lo); potrs(A_lo, X_lo); copy(X_lo, R); add(1, R, 1, X)`, then
`copy(B, R); hemm(-1, A, X, 1, R)`. -/
def refine (v : Vars M Mlo) : Vars M Mlo :=
  let Xlo := ops.potrsLo v.Alo (ops.toLo v.R)
  let X := ops.toHi Xlo + v.X
  { v with X := X, R := B - v.A * X, Xlo := Xlo }

/-- `colNorms` of `X` and `R`, then `iterRefConverged(colnorms_R, colnorms_X, cte)`. -/
def passes (v : Vars M Mlo) : Bool :=
  ops.converged (ops.colNorms v.R) (ops.colNorms v.X)

/-- A convergence check of the iterate in `v` as the `t`-th check:
`if (iterRefConverged(...)) { iter = t; converged = true; }`, with its log entry. -/
def check (t : Nat) (v : Vars M Mlo) : Vars M Mlo × Op M :=
  (if passes ops v then { v with iter := t, converged := true } else v,
    .check v.X v.R (passes ops v))

/-- The refinement loop `for (iiter = i; iiter < itermax && ! converged; iiter++)`,
`fuel = itermax - i` turns of the bound left. -/
def loop : Nat -> Nat -> Vars M Mlo × List (Op M) -> Vars M Mlo × List (Op M)
  | 0, _, st => st
  | fuel + 1, iiter, (v, log) =>
      if v.converged then (v, log)
      else
        let c := check ops (iiter + 1) (refine ops B v)
        loop fuel (iiter + 1) (c.1, log ++ [.refine, c.2])

/-- `if (! converged) { iter = -itermax - 1; potrf(A); copy(B, X); potrs(A, X); }` -/
def fallback (st : Vars M Mlo × List (Op M)) : Vars M Mlo × List (Op M) :=
  if st.1.converged then st
  else
    let A := ops.potrf st.1.A
    ({ st.1 with A := A, X := ops.potrs A B, iter := -(itermax : Int) - 1 }, st.2 ++ [.fallback])

/-- `posvMixed`: the first solve and check, the loop, and the fallback when no
check passed.  Returns the final variables and the log. -/
def posvMixed : Vars M Mlo × List (Op M) :=
  let c := check ops 0 (lowSolve ops A B)
  fallback ops B (loop ops B itermax 0 (c.1, [.lowSolve, c.2]))

/-! ## What the controller is for -/

/-- The iterates: `X_0` from the low-precision solve, `X_{t+1}` one refinement
of `X_t`. -/
def iterate : Nat -> Vars M Mlo
  | 0 => lowSolve ops A B
  | t + 1 => refine ops B (iterate t)

/-- The log after the check of `X_t`. -/
def logUpTo : Nat -> List (Op M)
  | 0 => [.lowSolve, .check (iterate ops A B 0).X (iterate ops A B 0).R
      (passes ops (iterate ops A B 0))]
  | t + 1 => logUpTo t ++ [.refine, .check (iterate ops A B (t + 1)).X
      (iterate ops A B (t + 1)).R (passes ops (iterate ops A B (t + 1)))]

/-- The first of the checks of `X_0, ..., X_itermax` that passes. -/
def firstPass : Option Nat :=
  (List.range (itermax + 1)).find? fun t => passes ops (iterate ops A B t)

/-- What `posvMixed` should return: the first iterate that passes its check,
with `iter` its index and `A` untouched, or else the high-precision solve with
`iter = -(1 + itermax)`. -/
def outcome : Vars M Mlo × List (Op M) :=
  match firstPass ops A B with
  | some t => ({ iterate ops A B t with iter := t, converged := true }, logUpTo ops A B t)
  | none =>
      ({ iterate ops A B itermax with
          A := ops.potrf A
          X := ops.potrs (ops.potrf A) B
          iter := -(itermax : Int) - 1 }, logUpTo ops A B itermax ++ [.fallback])

/-! ## The iterates -/

@[simp] theorem iterate_A (t : Nat) : (iterate ops A B t).A = A := by
  induction t with
  | zero => rfl
  | succ t ih => exact ih

@[simp] theorem iterate_converged (t : Nat) : (iterate ops A B t).converged = false := by
  induction t with
  | zero => rfl
  | succ t ih => exact ih

theorem iterate_R (t : Nat) : (iterate ops A B t).R = B - A * (iterate ops A B t).X := by
  cases t with
  | zero => rfl
  | succ t => show B - (iterate ops A B t).A * _ = _; rw [iterate_A]; rfl

/-! ## The loop -/

omit [Add M] [Sub M] [Mul M] in
theorem check_of_passes {t : Nat} {v : Vars M Mlo} (h : passes ops v = true) :
    check ops t v = ({ v with iter := t, converged := true }, .check v.X v.R (passes ops v)) := by
  rw [check, if_pos h]

omit [Add M] [Sub M] [Mul M] in
theorem check_of_fails {t : Nat} {v : Vars M Mlo} (h : passes ops v = false) :
    check ops t v = (v, .check v.X v.R (passes ops v)) := by
  rw [check, if_neg (by simp [h])]

theorem loop_of_converged {v : Vars M Mlo} (hv : v.converged = true) (fuel i : Nat)
    (log : List (Op M)) : loop ops B fuel i (v, log) = (v, log) := by
  cases fuel <;> simp [loop, hv]

/-- From the unconverged iterate `X_i`, the loop stops at the first later
iterate whose check passes, or runs out of turns at `X_(i+fuel)`. -/
theorem loop_iterate (fuel i : Nat) :
    loop ops B fuel i (iterate ops A B i, logUpTo ops A B i) =
      match (List.range' (i + 1) fuel).find? (fun t => passes ops (iterate ops A B t)) with
      | some t => ({ iterate ops A B t with iter := t, converged := true }, logUpTo ops A B t)
      | none => (iterate ops A B (i + fuel), logUpTo ops A B (i + fuel)) := by
  induction fuel generalizing i with
  | zero => rfl
  | succ fuel ih =>
      rw [List.range'_succ, List.find?_cons, loop, if_neg (by simp)]
      change loop ops B fuel (i + 1) ((check ops (i + 1) (iterate ops A B (i + 1))).1,
        logUpTo ops A B i ++ [.refine, (check ops (i + 1) (iterate ops A B (i + 1))).2]) = _
      by_cases hp : passes ops (iterate ops A B (i + 1)) = true
      · rw [check_of_passes ops hp, loop_of_converged ops B rfl]
        conv_rhs => rw [hp]
        rfl
      · have hf : passes ops (iterate ops A B (i + 1)) = false := by simpa using hp
        rw [check_of_fails ops hf, show i + (fuel + 1) = i + 1 + fuel by omega]
        conv_rhs => rw [hf]
        exact ih (i + 1)

/-- The code refines its purpose: `posvMixed` returns exactly `outcome`. -/
theorem posvMixed_eq_outcome : posvMixed ops A B = outcome ops A B := by
  have hrange : List.range (itermax + 1) = 0 :: List.range' 1 itermax := by
    rw [List.range_eq_range', List.range'_succ]
  rw [posvMixed, outcome, firstPass, hrange, List.find?_cons]
  by_cases h0 : passes ops (iterate ops A B 0) = true
  · rw [check_of_passes ops (show passes ops (lowSolve ops A B) = true from h0),
      loop_of_converged ops B rfl, fallback, if_pos rfl]
    conv_rhs => rw [h0]
    rfl
  · have hf : passes ops (iterate ops A B 0) = false := by simpa using h0
    rw [check_of_fails ops (show passes ops (lowSolve ops A B) = false from hf)]
    conv_rhs => rw [hf]
    have hloop := loop_iterate ops A B itermax 0
    rw [Nat.zero_add] at hloop
    change fallback ops B (loop ops B itermax 0 (iterate ops A B 0, logUpTo ops A B 0)) = _
    rw [hloop]
    cases List.find? (fun t => passes ops (iterate ops A B t)) (List.range' 1 itermax) with
    | some t => rfl
    | none => simp [fallback]

/-! ## The log and the first passing check -/

theorem firstPass_eq_some {t : Nat} : firstPass ops A B = some t ↔
    t ≤ itermax ∧ passes ops (iterate ops A B t) = true ∧
      ∀ s < t, passes ops (iterate ops A B s) = false := by
  rw [firstPass, List.find?_range_eq_some, List.mem_range]
  simp only [Bool.not_eq_true']
  constructor
  · rintro ⟨hp, ht, hs⟩; exact ⟨by omega, hp, hs⟩
  · rintro ⟨ht, hp, hs⟩; exact ⟨hp, by omega, hs⟩

theorem firstPass_eq_none : firstPass ops A B = none ↔
    ∀ t ≤ itermax, passes ops (iterate ops A B t) = false := by
  rw [firstPass, List.find?_eq_none]
  simp only [List.mem_range, Bool.not_eq_true]
  exact ⟨fun h t ht => h t (by omega), fun h t ht => h t (by omega)⟩

@[simp] theorem refines_logUpTo (t : Nat) : ((logUpTo ops A B t).filter Op.IsRefine).length = t := by
  induction t with
  | zero => rfl
  | succ t ih => simp [logUpTo, List.filter_append, ih, Op.IsRefine]

@[simp] theorem fallbacks_logUpTo (t : Nat) : (logUpTo ops A B t).filter Op.IsFallback = [] := by
  induction t with
  | zero => rfl
  | succ t ih => simp [logUpTo, List.filter_append, ih, Op.IsFallback]

theorem getLast_logUpTo (t : Nat) : (logUpTo ops A B t).getLast? =
    some (.check (iterate ops A B t).X (iterate ops A B t).R (passes ops (iterate ops A B t))) := by
  cases t <;> simp [logUpTo]

theorem residual_of_mem_logUpTo {t : Nat} {X R : M} {pass : Bool}
    (h : Op.check X R pass ∈ logUpTo ops A B t) : R = B - A * X := by
  induction t with
  | zero =>
      simp only [logUpTo, List.mem_cons, List.mem_singleton, reduceCtorEq, false_or,
        Op.check.injEq, List.not_mem_nil, or_false] at h
      obtain ⟨rfl, rfl, -⟩ := h; exact iterate_R ops A B 0
  | succ t ih =>
      simp only [logUpTo, List.mem_append, List.mem_cons, List.mem_singleton, reduceCtorEq,
        false_or, Op.check.injEq, List.not_mem_nil, or_false] at h
      rcases h with h | ⟨rfl, rfl, -⟩
      · exact ih h
      · exact iterate_R ops A B (t + 1)

theorem passes_of_nonneg (h : 0 ≤ (posvMixed ops A B).1.iter) :
    passes ops (posvMixed ops A B).1 = true := by
  rw [posvMixed_eq_outcome, outcome] at h ⊢
  cases hf : firstPass ops A B with
  | some t => exact ((firstPass_eq_some ops A B).mp hf).2.1
  | none => rw [hf] at h; exact absurd h (by simp [itermax])

end Model

/-! ## Every run of the controller -/

/-- On every run, with the routines taken by their contracts and the
convergence test arbitrary: at most `itermax = 30` refinement steps run; every
check is made on an iterate `X` with its residual `R = B - A X`; `iter = t ≥ 0`
exactly when the check after `t` refinement steps is the first that passes,
and then `A` is untouched, `X` is that iterate, the log ends with that check
and no fallback runs; otherwise all 31 checks failed, `iter = -31` and the
high-precision fallback ran once. -/
theorem posvMixed_controller {M Mlo N : Type*} [Add M] [Sub M] [Mul M]
    (ops : Routines M Mlo N) (A B : M) :
    let r := posvMixed ops A B
    (r.2.filter Op.IsRefine).length ≤ itermax ∧
      (∀ X R pass, Op.check X R pass ∈ r.2 -> R = B - A * X) ∧
      (∀ t : Nat, r.1.iter = t ↔ t ≤ itermax ∧ passes ops (iterate ops A B t) = true ∧
        ∀ s < t, passes ops (iterate ops A B s) = false) ∧
      (0 ≤ r.1.iter -> r.1.A = A ∧ r.1.X = (iterate ops A B r.1.iter.toNat).X ∧
        r.1.R = B - A * r.1.X ∧ r.2.filter Op.IsFallback = [] ∧
        r.2.getLast? = some (.check r.1.X r.1.R true)) ∧
      (r.1.iter < 0 -> (∀ t ≤ itermax, passes ops (iterate ops A B t) = false) ∧
        r.1.iter = -(itermax : Int) - 1 ∧ r.2.filter Op.IsFallback = [.fallback] ∧
        r.1.A = ops.potrf A ∧ r.1.X = ops.potrs (ops.potrf A) B) := by
  intro r
  have hr : r = outcome ops A B := posvMixed_eq_outcome ops A B
  rw [hr, outcome]
  cases h : firstPass ops A B with
  | some t =>
      obtain ⟨ht, hp, hs⟩ := (firstPass_eq_some ops A B).mp h
      refine ⟨by simpa using ht, fun X R pass hm => residual_of_mem_logUpTo ops A B hm,
        fun s => ?_, fun _ => ⟨iterate_A ops A B t, by simp, iterate_R ops A B t, by simp,
          by rw [getLast_logUpTo, hp]⟩, fun hneg => absurd (show (t : Int) < 0 from hneg) (by omega)⟩
      rw [← firstPass_eq_some ops A B, h]
      simp only [Option.some.injEq]
      omega
  | none =>
      have hall := (firstPass_eq_none ops A B).mp h
      refine ⟨by simp [List.filter_append, Op.IsRefine], fun X R pass hm => ?_, fun s => ?_,
        fun h0 => absurd h0 (by simp [itermax]), fun _ => ⟨hall, rfl, by simp [List.filter_append,
          Op.IsFallback], rfl, rfl⟩⟩
      · simp only [List.mem_append, List.mem_singleton, reduceCtorEq, or_false] at hm
        exact residual_of_mem_logUpTo ops A B hm
      · rw [← firstPass_eq_some ops A B, h]
        simp only [reduceCtorEq, iff_false, itermax]
        omega

end Posv
end Slate
