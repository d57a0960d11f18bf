import Slate.Runtime.TaskGraph
import Slate.Hemm.Views

/-!
# The tasks issued by `hemmC`

`hemmC` (src/src/hemmC.cc) multiplies `C = alpha A B + beta C` for a Hermitian
`A` of `mt × mt` tiles and `B`, `C` of `mt × nt` tiles, after reducing
`side = Right` to `side = Left` by conjugate transposition.  Inside its
`omp master` region it issues, in this order:

* the stage-0 broadcast task, `depend(out:bcast[0])`;
* the initial lookahead loop `for (k = 1; k < lookahead+1 && k < A.nt(); ++k)`,
  one broadcast task each, `depend(in:bcast[k-1]) depend(out:bcast[k])`;
* the stage-0 compute task, `depend(in:bcast[0]) depend(out:gemm[0])`;
* for `k = 1 .. A.nt()-1`: when `k+lookahead < A.nt()` the broadcast of stage
  `k+lookahead`, `depend(in:gemm[k-1]) depend(in:bcast[k+lookahead-1])
  depend(out:bcast[k+lookahead])`, then the compute task of stage `k`,
  `depend(in:bcast[k]) depend(in:gemm[k-1]) depend(out:gemm[k])`.

`lookahead` is the `int64_t` read from the options without any check, so the
sums `lookahead+1` and `k+lookahead` are taken modulo `2^64`.
-/

namespace Slate
namespace Hemm

open Runtime

/-- `int64_t` arithmetic: an integer wrapped into `[-2^63, 2^63)`. -/
def wrap64 (x : Int) : Int :=
  (x + 2 ^ 63) % 2 ^ 64 - 2 ^ 63

theorem wrap64_of_range {x : Int} (h1 : -2 ^ 63 ≤ x) (h2 : x < 2 ^ 63) :
    wrap64 x = x := by
  unfold wrap64
  rw [Int.emod_eq_of_lt (by omega) (by omega)]
  omega

/-- The tasks of `hemmC`, named by the code site that issues them. -/
inductive Label
  | bcastFirst
  | bcastAhead (k : Nat)
  | bcastLoop (k : Nat)
  | compute (k : Nat)
  deriving DecidableEq, Repr

/-- The index of the stage a task serves: its `bcast[.]` out-index for a
broadcast, its `gemm[.]` out-index for a compute. -/
def Label.stage (la : Int) : Label -> Int
  | .bcastFirst => 0
  | .bcastAhead k => k
  | .bcastLoop k => wrap64 (k + la)
  | .compute k => k

/-- The broadcast tasks. -/
def Label.IsBcast : Label -> Prop
  | .compute _ => False
  | _ => True

instance (l : Label) : Decidable l.IsBcast := by
  cases l <;> unfold Label.IsBcast <;> infer_instance

/-- The iterations of `for (k = 1; k < lookahead+1 && k < A.nt(); ++k)`. -/
def aheadIndices (mt : Nat) (la : Int) : List Nat :=
  (List.range' 1 (mt - 1)).takeWhile fun k => decide ((k : Int) < wrap64 (la + 1))

/-- Iteration `k` of the main loop. -/
def loopTasks (mt : Nat) (la : Int) (k : Nat) : List Label :=
  (if wrap64 (k + la) < mt then [.bcastLoop k] else []) ++ [.compute k]

/-- All tasks of `hemmC` for `A.nt() = mt`, in issue order. -/
def issueOrder (mt : Nat) (la : Int) : List Label :=
  .bcastFirst :: (aheadIndices mt la).map .bcastAhead ++
    .compute 0 :: (List.range' 1 (mt - 1)).flatMap (loopTasks mt la)

/-- The `depend` clauses of each task. -/
def depend (la : Int) : Label -> Depend
  | .bcastFirst => ⟨[], [.bcast 0]⟩
  | .bcastAhead k => ⟨[.bcast ((k : Int) - 1)], [.bcast k]⟩
  | .bcastLoop k =>
      ⟨[.gemm ((k : Int) - 1), .bcast (wrap64 (wrap64 (k + la) - 1))],
        [.bcast (wrap64 (k + la))]⟩
  | .compute 0 => ⟨[.bcast 0], [.gemm 0]⟩
  | .compute (k + 1) => ⟨[.bcast (k + 1), .gemm k], [.gemm (k + 1)]⟩

/-! ## Broadcast lists

Each broadcast task builds a `BcastListTag` for `A` and one for `B`: entries
`{i, j, {C.sub(...)}, tag}` sending tile `(i, j)` to the ranks that own a tile
of the destination block of `C`. -/

/-- One entry `{i, j, {dest}, tag}` of a broadcast list. -/
structure BcastEntry where
  i : Int
  j : Int
  dest : Region
  tag : Int
  deriving DecidableEq, Repr

/-- `{a, b, {C.sub(i, i, 0, C.nt()-1)}, i}`. -/
def rowEntry (nt : Nat) (a b i : Int) : BcastEntry :=
  ⟨a, b, ⟨i, i, 0, (nt : Int) - 1⟩, i⟩

/-- `{k, j, {C.sub(0, C.mt()-1, j, j)}, j}`. -/
def colEntry (mt : Nat) (k j : Int) : BcastEntry :=
  ⟨k, j, ⟨0, (mt : Int) - 1, j, j⟩, j⟩

/-- The `A` list of the stage-0 task. -/
def firstListA (mt nt : Nat) : Uplo -> List BcastEntry
  | .lower => (intRange 0 mt).map fun i => rowEntry nt i 0 i
  | .upper => (intRange 0 mt).map fun i => rowEntry nt 0 i i

/-- The `A` list of iteration `k` of the initial lookahead loop. -/
def aheadListA (mt nt : Nat) (k : Int) : Uplo -> List BcastEntry
  | .lower =>
      (intRange 0 (min k mt)).map (fun i => rowEntry nt k i i) ++
        (intRange k mt).map fun i => rowEntry nt i k i
  | .upper =>
      (intRange 0 (min k mt)).map (fun i => rowEntry nt i k i) ++
        (intRange k mt).map fun i => rowEntry nt k i i

/-- The `A` list of the in-loop broadcast, built from `s = k+lookahead`. -/
def loopListA (mt nt : Nat) (s : Int) : Uplo -> List BcastEntry
  | .lower =>
      (intRange 0 s).map (fun i => rowEntry nt s i i) ++
        (intRange s mt).map fun i => rowEntry nt i s i
  | .upper =>
      (intRange 0 s).map (fun i => rowEntry nt i s i) ++
        (intRange s mt).map fun i => rowEntry nt s i i

/-- The `B` list of the broadcast of stage `k`, the same at every site. -/
def listB (mt nt : Nat) (k : Int) : List BcastEntry :=
  (intRange 0 nt).map (colEntry mt k)

/-- The `A` list a task broadcasts. -/
def bcastListA (u : Uplo) (mt nt : Nat) (la : Int) : Label -> List BcastEntry
  | .bcastFirst => firstListA mt nt u
  | .bcastAhead k => aheadListA mt nt k u
  | .bcastLoop k => loopListA mt nt (wrap64 (k + la)) u
  | .compute _ => []

/-- The `B` list a task broadcasts. -/
def bcastListB (mt nt : Nat) (la : Int) : Label -> List BcastEntry
  | .bcastFirst => listB mt nt 0
  | .bcastAhead k => listB mt nt k
  | .bcastLoop k => listB mt nt (wrap64 (k + la))
  | .compute _ => []

/-! ## Compute tasks

The compute task of stage `k` multiplies block column `k` of `Ahat` by block
row `k` of `B` in three kernel calls on disjoint block rows of `C`. -/

/-- The scalar the old `C` tiles are scaled by: `beta` in stage 0, `one` after. -/
inductive Coef
  | beta
  | one
  deriving DecidableEq, Repr

/-- One tile-kernel call of a compute task. -/
inductive Call
  /-- `internal::gemm(alpha, A, B.sub(...), coef, C.sub(...))`. -/
  | gemm (A : AView) (B : Region) (coef : Coef) (C : Region)
  /-- `internal::hemm(Left, alpha, A.sub(k, k), B.sub(...), coef, C.sub(...))`. -/
  | hemm (k : Int) (B : Region) (coef : Coef) (C : Region)
  deriving DecidableEq, Repr

/-- `B.sub(k, k, 0, B.nt()-1)`. -/
def rowB (nt : Nat) (k : Int) : Region := ⟨k, k, 0, (nt : Int) - 1⟩

/-- `C.sub(i1, i2, 0, C.nt()-1)`. -/
def rowsC (nt : Nat) (i1 i2 : Int) : Region := ⟨i1, i2, 0, (nt : Int) - 1⟩

/-- The kernel calls of the compute task of stage `k`. -/
def computeCalls (u : Uplo) (mt nt : Nat) : Nat -> List Call
  | 0 =>
      .hemm 0 (rowB nt 0) .beta (rowsC nt 0 0) ::
        if (mt : Int) - 1 > 0 then
          [.gemm (match u with
                  | .lower => ⟨⟨1, (mt : Int) - 1, 0, 0⟩, false⟩
                  | .upper => ⟨⟨0, 0, 1, (mt : Int) - 1⟩, true⟩)
              (rowB nt 0) .beta (rowsC nt 1 ((mt : Int) - 1))]
        else []
  | k + 1 =>
      [.gemm (match u with
              | .lower => ⟨⟨k + 1, k + 1, 0, k⟩, true⟩
              | .upper => ⟨⟨0, k, k + 1, k + 1⟩, false⟩)
          (rowB nt (k + 1)) .one (rowsC nt 0 k),
        .hemm (k + 1) (rowB nt (k + 1)) .one (rowsC nt (k + 1) (k + 1))] ++
        if (mt : Int) - 1 > k + 1 then
          [.gemm (match u with
                  | .lower => ⟨⟨k + 2, (mt : Int) - 1, k + 1, k + 1⟩, false⟩
                  | .upper => ⟨⟨k + 1, k + 1, k + 2, (mt : Int) - 1⟩, true⟩)
              (rowB nt (k + 1)) .one (rowsC nt (k + 2) ((mt : Int) - 1))]
        else []

end Hemm
end Slate
