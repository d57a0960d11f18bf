import Mathlib.Data.List.Range
import Mathlib.Data.List.Perm.Basic
import Mathlib.Data.List.Sort

/-!
# The block-cyclic layout of `stedc_sort`

`stedc_sort` (src/src/stedc_sort.cc) takes `Q` and `Qout`, `m × n` matrices
with one distribution: tiles `mb × nb` (the last tile row and column may be
smaller) over a `nprow × npcol` process grid ordered by columns, tile `(i, j)`
on the process at grid position `(i % nprow, j % npcol)`.  A process holds, of
each column it owns, the entries of its local rows; `copy_col` visits them tile
row by tile row.  The loop over tile columns advances the first global column
`jg` by each tile's width.
-/

namespace Slate
namespace Stedc

/-- The distribution of `Q`, shared by `Qout`: `Q.m()`, `D.size() = Q.n()`,
the tile size and the grid. -/
structure Dist where
  m : Nat
  n : Nat
  mb : Nat
  nb : Nat
  nprow : Nat
  npcol : Nat
  mb_pos : 0 < mb
  nb_pos : 0 < nb
  /-- `slate_assert( nprow > 0 )`. -/
  nprow_pos : 0 < nprow
  npcol_pos : 0 < npcol

namespace Dist

variable (L : Dist)

/-- `Q.mt()`. -/
def mt : Nat := (L.m + L.mb - 1) / L.mb

/-- `Q.nt()`. -/
def nt : Nat := (L.n + L.nb - 1) / L.nb

/-- `Q.tileMb(i)`: `mb`, or what is left in the last tile row. -/
def tileMb (i : Nat) : Nat := min L.mb (L.m - i * L.mb)

/-- `Q.tileNb(j)`: `nb`, or what is left in the last tile column. -/
def tileNb (j : Nat) : Nat := min L.nb (L.n - j * L.nb)

/-- `jg` at tile column `j`: the loop starts it at `0` and adds `jb` after each
tile. -/
def jg : Nat -> Nat
  | 0 => 0
  | j + 1 => jg j + L.tileNb j

/-- `(g / nb) % npcol` (`indxg2p`): the process column owning global column `g`. -/
def colOwner (g : Nat) : Nat := g / L.nb % L.npcol

/-- `Q.tileRank(i, j)`, as a grid position. -/
def tileRank (i j : Nat) : Nat × Nat := (i % L.nprow, j % L.npcol)

/-- The local rows of process row `r` in the order `copy_col` visits them:
the tile rows `i` with `i % nprow = r`, each with its `tileMb i` rows.
`copy_col` is called only on columns its process owns, where
`tileIsLocal(i, j)` is `i % nprow = myrow`. -/
def localRows (r : Nat) : List Nat :=
  (List.range L.mt).flatMap fun i =>
    if i % L.nprow = r then (List.range (L.tileMb i)).map (i * L.mb + ·) else []

/-- Modelled from the spec: `mlocal = num_local_rows_cols(m, mb, myrow, 0,
nprow)`, a function not in src/, as the number of rows of process row
`myrow`, the count the commented-out `assert( ii == mlocal )` of `copy_col`
compares with. -/
def mlocal (r : Nat) : Nat := (L.localRows r).length

/-! ## The tile columns -/

theorem jg_succ (j : Nat) : L.jg (j + 1) = L.jg j + L.tileNb j := rfl

theorem jg_eq (j : Nat) : L.jg j = min (j * L.nb) L.n := by
  induction j with
  | zero => simp [jg]
  | succ j ih => rw [jg_succ, ih, tileNb, Nat.succ_mul]; omega

theorem n_le_nt_mul : L.n ≤ L.nt * L.nb := by
  have h := Nat.div_add_mod (L.n + L.nb - 1) L.nb
  have h' := Nat.mod_lt (L.n + L.nb - 1) L.nb_pos
  rw [nt, Nat.mul_comm]; omega

theorem lt_nt_mul {j : Nat} (hj : j < L.nt) : j * L.nb < L.n := by
  have h := Nat.div_add_mod (L.n + L.nb - 1) L.nb
  have h1 : (j + 1) * L.nb ≤ L.nt * L.nb := Nat.mul_le_mul_right _ hj
  have h2 := L.nb_pos
  rw [nt, Nat.add_mul, Nat.one_mul, Nat.mul_comm ((L.n + L.nb - 1) / L.nb)] at h1
  omega

theorem jg_of_lt {j : Nat} (hj : j < L.nt) : L.jg j = j * L.nb := by
  rw [jg_eq]; have := L.lt_nt_mul hj; omega

theorem jg_nt : L.jg L.nt = L.n := by
  rw [jg_eq]; have := L.n_le_nt_mul; omega

theorem flatMap_tiles (t : Nat) :
    (List.range t).flatMap (fun j => (List.range (L.tileNb j)).map (L.jg j + ·)) =
      List.range (L.jg t) := by
  induction t with
  | zero => simp [jg]
  | succ t ih => rw [List.range_succ, List.flatMap_append, ih, jg_succ, List.range_add]; simp

theorem flatMap_tiles_nt :
    (List.range L.nt).flatMap (fun j => (List.range (L.tileNb j)).map (L.jg j + ·)) =
      List.range L.n := by
  rw [flatMap_tiles, jg_nt]

/-! ## The local rows -/

theorem lt_mt_of_mlocal {r : Nat} (h : L.mlocal r ≠ 0) : r < L.mt := by
  by_contra hr
  apply h
  simp only [mlocal, localRows, List.length_eq_zero, List.flatMap_eq_nil_iff, List.mem_range]
  intro i hi
  have : i % L.nprow ≠ r := fun h' => hr (by have := Nat.mod_le i L.nprow; omega)
  simp [this]

end Dist

end Stedc
end Slate
