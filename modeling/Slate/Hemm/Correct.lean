import Mathlib
import Slate.Hemm.Kernels
import Slate.Hemm.Pipeline

/-!
# `hemmC` computes `alpha Ahat B + beta C`

Whatever the lookahead, the compute tasks form a chain through their
`gemm[k]` dependences and only they change `C`.  So every run that finishes
every task has applied the stages in order `0, 1, ..., mt-1`; stage 0 scales
`C` by `beta` and each stage `k` adds `alpha Ahat(:, k) B(k, :)`.  For
`side = Right` the code runs the same tasks on `A^H`, `B^H`, `C^H` with the
scalars conjugated, and `Ahat^H = Ahat` turns the result into
`alpha B Ahat + beta C`.  At every moment of a run, `C` holds the share of
the stages whose compute task has finished, a prefix of `0, ..., mt-1`.
-/

namespace Slate
namespace Hemm

open Runtime

/-- `blas::Side`. -/
inductive Side
  | left
  | right
  deriving DecidableEq, Repr

/-- The operands of `hemmC`: the stored triangle of `A`, the scalars and the
tile grids of `A`, `B` and `C`. -/
structure Operands (S T : Type*) where
  uplo : Uplo
  alpha : S
  beta : S
  A : Grid T
  B : Grid T
  C : Grid T

/-- Tile `(i, j)` lies in the first `m × n` tiles. -/
def InBlock (m n : Nat) (i j : Int) : Prop :=
  0 ≤ i ∧ i < m ∧ 0 ≤ j ∧ j < n

instance (m n : Nat) (i j : Int) : Decidable (InBlock m n i j) :=
  inferInstanceAs (Decidable (_ ∧ _ ∧ _ ∧ _))

section Left

variable {S T : Type*} [CommSemiring S] [Semiring T] [Star T] [Module S T]
  (H : HermTile T) (u : Uplo) (alpha beta : S) (A B : Grid T) {mt nt : Nat}

/-! ## The stages in order -/

theorem chainState_compute {c : Nat} (hc : 0 < c) (hcm : c ≤ mt) (C0 : Grid T) (i j : Int) :
    chainState (taskEffect H u alpha beta A B mt nt) Label.compute C0 c i j =
      if InBlock mt nt i j then
        alpha • ∑ k in Finset.range c, fullHerm H u A i k * B k j + beta • C0 i j
      else C0 i j := by
  induction c with
  | zero => omega
  | succ c ih =>
      rw [chainState_succ, taskEffect, computeRun_apply H u alpha beta A B (by omega)]
      unfold InBlock at ih ⊢
      rcases Nat.eq_zero_or_pos c with rfl | hc'
      · simp [chainState, Coef.ofStage, Coef.val]
      · obtain ⟨c, rfl⟩ : ∃ c', c = c' + 1 := ⟨c - 1, by omega⟩
        split_ifs with hin
        · rw [ih hc' (by omega), if_pos hin, Finset.sum_range_succ _ (c + 1), Coef.ofStage,
            Coef.val, one_smul, smul_add, add_left_comm, add_assoc]
        · rw [ih hc' (by omega), if_neg hin]

theorem issueOrder_nodup (mt : Nat) (la : Int) : (issueOrder mt la).Nodup :=
  (issueOrder_pairwise mt la).imp fun h he => by subst he; exact lt_irrefl _ h

/-- At every moment of a run the finished compute tasks are those of the
stages `0, ..., c-1` for some `c ≤ mt`, and `C` has had exactly those stages
applied, in order. -/
theorem replay_prefix {la : Int} {tr : List (Event Label)} (hmt : 1 ≤ mt)
    (hrun : Run (issueOrder mt la) (depend la) tr) (C0 : Grid T) :
    ∃ c ≤ mt, (∀ k, Event.finish (Label.compute k) ∈ tr ↔ k < c) ∧
      replay (taskEffect H u alpha beta A B mt nt) tr C0 =
        chainState (taskEffect H u alpha beta A B mt nt) Label.compute C0 c := by
  have hmem : ∀ k, Label.compute k ∈ issueOrder mt la -> k < mt := fun k hk => by
    simp only [compute_mem_issueOrder] at hk; omega
  have hidle : ∀ t, (∀ k, t ≠ Label.compute k) -> taskEffect H u alpha beta A B mt nt t = id := by
    intro t ht; cases t <;> first | rfl | exact (ht _ rfl).elim
  obtain ⟨c, hc, hs⟩ := hrun.replay_chain (fun _ _ h => Label.compute.inj h)
    (fun _ h => waits_compute_succ h) hmem hidle C0
  have hnext : ¬ mt < c := fun h =>
    absurd (hmem mt (hrun.mem_of_started (hrun.started_of_finished ((hc mt).mpr h)))) (lt_irrefl _)
  exact ⟨c, Nat.le_of_not_lt hnext, hc, hs⟩

theorem replay_of_complete {la : Int} {tr : List (Event Label)} (hmt : 1 ≤ mt)
    (hrun : Run (issueOrder mt la) (depend la) tr)
    (hdone : ∀ t ∈ issueOrder mt la, Event.finish t ∈ tr) (C0 : Grid T) :
    replay (taskEffect H u alpha beta A B mt nt) tr C0 =
      chainState (taskEffect H u alpha beta A B mt nt) Label.compute C0 mt := by
  obtain ⟨c, hcm, hc, hs⟩ := replay_prefix H u alpha beta A B hmt hrun C0
  have hlast : mt - 1 < c := (hc _).mp (hdone _ (by simp; omega))
  rwa [show c = mt by omega] at hs

end Left

section Sides

variable {S T : Type*} [CommSemiring S] [Semiring T] [Star T] [Module S T]

/-- `side = Right` is reduced to `side = Left`: `A`, `B` and `C` are
conjugate-transposed (the stored triangle of `A` flips with it), `alpha` and
`beta` conjugated. -/
def Operands.toLeft [Star S] : Side -> Operands S T -> Operands S T
  | .left, o => o
  | .right, o => ⟨o.uplo.flip, star o.alpha, star o.beta, conjT o.A, conjT o.B, conjT o.C⟩

/-- The caller's `C` seen through the transposition. -/
def Side.view : Side -> Grid T -> Grid T
  | .left, C => C
  | .right, C => conjT C

/-- The caller's `C` once the tasks of the trace `tr` have run: `mt = A.mt()`
and `nt` the tile columns of the `C` the tasks work on, `C.mt()` of the
caller's `C` for `side = Right`. -/
def hemmCResult [Star S] (H : HermTile T) (side : Side) (o : Operands S T) (mt nt : Nat)
    (tr : List (Event Label)) : Grid T :=
  let l := o.toLeft side
  side.view (replay (taskEffect H l.uplo l.alpha l.beta l.A l.B mt nt) tr l.C)

/-- What `hemmC` is for, on the caller's operands: `C := alpha Ahat B + beta C`
on the `mt × nt` tiles of `C` (Left), `C := alpha B Ahat + beta C` on its
`nt × mt` tiles (Right), every other tile unchanged. -/
def hemmSpec (H : HermTile T) : Side -> Operands S T -> Nat -> Nat -> Grid T
  | .left, o, mt, nt => fun i j =>
      if InBlock mt nt i j then
        o.alpha • ∑ k in Finset.range mt, fullHerm H o.uplo o.A i k * o.B k j + o.beta • o.C i j
      else o.C i j
  | .right, o, mt, nt => fun i j =>
      if InBlock nt mt i j then
        o.alpha • ∑ k in Finset.range mt, o.B i k * fullHerm H o.uplo o.A k j + o.beta • o.C i j
      else o.C i j

theorem inBlock_swap {m n : Nat} {i j : Int} : InBlock m n j i ↔ InBlock n m i j := by
  unfold InBlock; omega

theorem conjT_hemmSpec_toLeft {S T : Type*} [CommSemiring S] [StarRing S] [Semiring T]
    [StarRing T] [Module S T] [StarModule S T] (H : HermTile T) (o : Operands S T) (mt nt : Nat) :
    conjT (hemmSpec H .left (o.toLeft .right) mt nt) = hemmSpec H .right o mt nt := by
  funext i j
  simp only [hemmSpec, Operands.toLeft, conjT_apply]
  by_cases h : InBlock nt mt i j
  · rw [if_pos (inBlock_swap.mpr h), if_pos h, star_add, star_smul, star_smul, star_sum,
      star_star, star_star, star_star]
    congr 2
    refine Finset.sum_congr rfl fun k _ => ?_
    rw [star_mul, fullHerm_conjT, star_star, star_star]
  · rw [if_neg fun h' => h (inBlock_swap.mp h'), if_neg h, star_star]

end Sides

/-! ## Every complete run -/

/-- For both sides, both stored triangles, every `mt ≥ 1`, every `nt` and
every lookahead, some run finishes every task, and every run that finishes
every task, in whatever order the depend clauses allow, leaves
`C = alpha Ahat B + beta C0` (Left) or `C = alpha B Ahat + beta C0` (Right). -/
theorem hemmC_correct {S T : Type*} [CommSemiring S] [StarRing S] [Semiring T] [StarRing T]
    [Module S T] [StarModule S T] (H : HermTile T) (side : Side) (o : Operands S T) {mt : Nat}
    (nt : Nat) (la : Int) (hmt : 1 ≤ mt) :
    (∃ tr, Run (issueOrder mt la) (depend la) tr ∧ ∀ t ∈ issueOrder mt la, Event.finish t ∈ tr) ∧
      ∀ tr, Run (issueOrder mt la) (depend la) tr ->
        (∀ t ∈ issueOrder mt la, Event.finish t ∈ tr) ->
        hemmCResult H side o mt nt tr = hemmSpec H side o mt nt := by
  refine ⟨⟨serial _, Run.serial (issueOrder_nodup mt la)⟩, fun tr hrun hdone => ?_⟩
  have hleft : ∀ o' : Operands S T,
      replay (taskEffect H o'.uplo o'.alpha o'.beta o'.A o'.B mt nt) tr o'.C =
        hemmSpec H .left o' mt nt := fun o' => by
    funext i j
    rw [replay_of_complete H _ _ _ _ _ hmt hrun hdone,
      chainState_compute H _ _ _ _ _ (by omega) le_rfl]
    rfl
  cases side
  · exact hleft o
  · exact (congrArg conjT (hleft _)).trans (conjT_hemmSpec_toLeft H o mt nt)

theorem hemmC_correct_two_tiles :
    1 ≤ 2 ∧
      ((∃ tr, Run (issueOrder 2 1) (depend 1) tr ∧
          ∀ t ∈ issueOrder 2 1, Event.finish t ∈ tr) ∧
        ∀ tr, Run (issueOrder 2 1) (depend 1) tr ->
          (∀ t ∈ issueOrder 2 1, Event.finish t ∈ tr) ->
          hemmCResult (scalarHermTile Int) .right
              (⟨.lower, 2, 3, fun _ _ => 1, fun _ _ => 1, fun _ _ => 0⟩ :
                Operands Int Int) 2 3 tr =
            hemmSpec (scalarHermTile Int) .right
              (⟨.lower, 2, 3, fun _ _ => 1, fun _ _ => 1, fun _ _ => 0⟩ :
                Operands Int Int) 2 3) :=
  ⟨by decide, @hemmC_correct Int Int _ _ _ _ _ _ (scalarHermTile Int) .right
    ⟨.lower, 2, 3, fun _ _ => 1, fun _ _ => 1, fun _ _ => 0⟩ 2 3 1 (by decide)⟩

end Hemm
end Slate
