import Mathlib.Data.Finset.Card
import Mathlib.Order.Interval.Finset.Nat
import Slate.Hemm.Stages

/-!
# The lookahead pipeline of `hemmC`

Every run of the tasks of `hemmC` honours the stage ordering of the spec
(§4.3): the compute of stage `k` starts only after the broadcast of stage `k`
and the compute of stage `k-1` have finished, the broadcasts run in stage
order, and at any moment at most `lookahead + 1` stages hold broadcast tiles
whose compute has not finished.  The order facts come from the issue order
and the `depend` clauses; with `0 ≤ lookahead ≤ 2^63 - mt` the stage-`s`
broadcast is the unique task `bcastLabel lookahead s`.
-/

namespace Slate
namespace Hemm

open Runtime

/-! ## Issue positions -/

/-- A strictly increasing key of the issue order: the prologue broadcasts
first, then iteration `k` of the main loop at `mt + 2k` (its broadcast) and
`mt + 2k + 1` (its compute). -/
def issueRank (mt : Nat) : Label -> Nat
  | .bcastFirst => 0
  | .bcastAhead k => k
  | .bcastLoop k => mt + 2 * k
  | .compute k => mt + 2 * k + 1

theorem issuedBefore_of_pairwise {α : Type} {r : α -> Nat} {l : List α} {a b : α}
    (hl : l.Pairwise fun x y => r x < r y) (ha : a ∈ l) (hb : b ∈ l) (hab : r a < r b) :
    IssuedBefore l a b := by
  induction l with
  | nil => cases ha
  | cons x l ih =>
      rw [List.pairwise_cons] at hl
      rcases List.mem_cons.mp ha with rfl | ha'
      · rcases List.mem_cons.mp hb with rfl | hb
        · omega
        · exact (List.singleton_sublist.mpr hb).cons₂ a
      · rcases List.mem_cons.mp hb with rfl | hb
        · exact absurd (hl.1 a ha') (by omega)
        · exact (ih hl.2 ha' hb).cons x

theorem issueRank_loopTasks {mt k : Nat} {la : Int} {x : Label} (hx : x ∈ loopTasks mt la k) :
    mt + 2 * k ≤ issueRank mt x ∧ issueRank mt x ≤ mt + 2 * k + 1 := by
  rcases mem_loopTasks.mp hx with rfl | ⟨rfl, -⟩ <;> simp [issueRank]

theorem issueOrder_pairwise (mt : Nat) (la : Int) :
    (issueOrder mt la).Pairwise fun a b => issueRank mt a < issueRank mt b := by
  have hahead : ∀ k ∈ aheadIndices mt la, 1 ≤ k ∧ k < mt := fun k hk => by
    simp only [mem_aheadIndices] at hk; omega
  have hpro : ∀ x ∈ Label.bcastFirst :: (aheadIndices mt la).map .bcastAhead,
      issueRank mt x < mt + 1 := by
    intro x hx
    rcases List.mem_cons.mp hx with rfl | hx
    · simp [issueRank]
    · obtain ⟨k, hk, rfl⟩ := List.mem_map.mp hx
      have := hahead k hk; simp [issueRank]; omega
  have hmain : ∀ x ∈ Label.compute 0 :: (List.range' 1 (mt - 1)).flatMap (loopTasks mt la),
      mt + 1 ≤ issueRank mt x := by
    intro x hx
    rcases List.mem_cons.mp hx with rfl | hx
    · simp [issueRank]
    · obtain ⟨k, hk, hx⟩ := List.mem_flatMap.mp hx
      have := issueRank_loopTasks hx; simp only [List.mem_range'_1] at hk; omega
  rw [issueOrder, List.pairwise_append, List.pairwise_cons, List.pairwise_cons,
    List.pairwise_map, List.pairwise_flatMap]
  refine ⟨⟨fun x hx => ?_, ?_⟩, ⟨fun x hx => ?_, fun k _ => ?_, ?_⟩,
    fun a ha b hb => by have := hpro a ha; have := hmain b hb; omega⟩
  · obtain ⟨k, hk, rfl⟩ := List.mem_map.mp hx
    have := hahead k hk; simp [issueRank]; omega
  · exact ((List.pairwise_lt_range' 1 (mt - 1)).sublist (List.takeWhile_sublist _)).imp id
  · obtain ⟨k, hk, hx⟩ := List.mem_flatMap.mp hx
    have := issueRank_loopTasks hx; simp only [List.mem_range'_1] at hk
    show mt + 2 * 0 + 1 < issueRank mt x; omega
  · unfold loopTasks; split <;> simp [issueRank]
  · refine (List.pairwise_lt_range' 1 (mt - 1)).imp fun hjk x hx y hy => ?_
    have := issueRank_loopTasks hx; have := issueRank_loopTasks hy; omega

theorem issuedBefore_issueOrder {mt : Nat} {la : Int} {a b : Label}
    (ha : a ∈ issueOrder mt la) (hb : b ∈ issueOrder mt la)
    (hab : issueRank mt a < issueRank mt b) : IssuedBefore (issueOrder mt la) a b :=
  issuedBefore_of_pairwise (issueOrder_pairwise mt la) ha hb hab

/-! ## Depend clauses along the sweep -/

section Clauses

variable {la : Int} {k : Nat}

@[simp] theorem depend_compute_outs : (depend la (.compute k)).outs = [.gemm k] := by
  cases k <;> rfl

theorem bcast_mem_depend_compute : Token.bcast k ∈ (depend la (.compute k)).ins := by
  cases k <;> simp [depend]

theorem gemm_mem_depend_compute : Token.gemm k ∈ (depend la (.compute (k + 1))).ins := by
  simp [depend]

theorem waits_compute_succ {mt : Nat} (hk : k + 1 < mt) :
    Waits (issueOrder mt la) (depend la) (.compute k) (.compute (k + 1)) :=
  ⟨issuedBefore_issueOrder (by simp; omega) (by simp; omega) (by simp [issueRank]),
    Or.inl ⟨_, gemm_mem_depend_compute, by simp⟩⟩

end Clauses

/-! ## The broadcast of each stage -/

/-- The broadcast task of stage `s` when `0 ≤ lookahead = n` and nothing
overflows: the stage-0 task, an iteration of the initial lookahead loop, or the
in-loop broadcast of iteration `s - n`. -/
def bcastLabel (n s : Nat) : Label :=
  if s = 0 then .bcastFirst else if s ≤ n then .bcastAhead s else .bcastLoop (s - n)

section NoOverflow

variable {mt n s : Nat}

theorem wrap64_add_of_lt {k : Nat} (hov : n + mt ≤ 2 ^ 63) (hk : k < mt) :
    wrap64 (k + n) = k + n :=
  wrap64_of_range (by omega) (by omega)

theorem depend_bcastLoop_of_noOverflow {k : Nat} (hov : n + mt ≤ 2 ^ 63) (hk : k + n < mt) :
    depend n (.bcastLoop k) =
      ⟨[.gemm ((k : Int) - 1), .bcast ((k + n : Nat) - 1)], [.bcast (k + n : Nat)]⟩ := by
  have hw : wrap64 (k + n) = ((k + n : Nat) : Int) := by
    rw [wrap64_of_range (by omega) (by omega)]; push_cast; rfl
  have hw' : wrap64 (((k + n : Nat) : Int) - 1) = ((k + n : Nat) : Int) - 1 :=
    wrap64_of_range (by omega) (by omega)
  rw [depend, hw, hw']

theorem bcastLabel_spec (hov : n + mt ≤ 2 ^ 63) (hs : s < mt) :
    bcastLabel n s ∈ issueOrder mt n ∧ (bcastLabel n s).IsBcast ∧
      (bcastLabel n s).stage n = s ∧ (depend n (bcastLabel n s)).outs = [.bcast s] ∧
      (1 ≤ s -> Token.bcast ((s : Int) - 1) ∈ (depend n (bcastLabel n s)).ins) ∧
      (n + 1 ≤ s -> Token.gemm ((s - n - 1 : Nat) : Int) ∈ (depend n (bcastLabel n s)).ins) := by
  unfold bcastLabel
  split_ifs with h0 hn
  · subst h0; simp [Label.IsBcast, Label.stage, depend]
  · have hw : wrap64 (n + 1) = n + 1 := wrap64_of_range (by omega) (by omega)
    simp [Label.IsBcast, Label.stage, depend, hw]; omega
  · obtain ⟨d, rfl⟩ : exists d, s = n + 1 + d := ⟨s - n - 1, by omega⟩
    rw [show n + 1 + d - n = d + 1 by omega, Nat.add_sub_cancel]
    simp only [Label.IsBcast, Label.stage, depend_bcastLoop_of_noOverflow hov (by omega : d + 1 + n < mt),
      wrap64_add_of_lt hov (by omega : d + 1 < mt), bcastLoop_mem_issueOrder,
      List.mem_cons, List.mem_singleton, Token.bcast.injEq, Token.gemm.injEq, reduceCtorEq,
      List.cons.injEq, List.not_mem_nil, and_true, or_false, true_and]
    push_cast
    simp only [true_and, false_or]
    omega

theorem eq_bcastLabel (hmt : 1 ≤ mt) (hov : n + mt ≤ 2 ^ 63) {b : Label} (hb : b ∈ issueOrder mt n)
    (hbc : b.IsBcast) : ∃ s < mt, b = bcastLabel n s ∧ b.stage n = s := by
  cases b with
  | bcastFirst => exact ⟨0, hmt, rfl, rfl⟩
  | bcastAhead k =>
      simp only [bcastAhead_mem_issueOrder] at hb
      rw [wrap64_of_range (by omega) (by omega)] at hb
      refine ⟨k, hb.2.1, ?_, rfl⟩
      rw [bcastLabel, if_neg (by omega), if_pos (by omega)]
  | bcastLoop k =>
      simp only [bcastLoop_mem_issueOrder] at hb
      rw [wrap64_add_of_lt hov hb.2.1] at hb
      refine ⟨k + n, by omega, ?_, by simp [Label.stage, wrap64_add_of_lt hov hb.2.1]⟩
      rw [bcastLabel, if_neg (by omega), if_neg (by omega), Nat.add_sub_cancel]
  | compute k => exact absurd hbc id

theorem waits_bcast_compute (hov : n + mt ≤ 2 ^ 63) (hs : s < mt) :
    Waits (issueOrder mt n) (depend n) (bcastLabel n s) (.compute s) := by
  obtain ⟨hmem, -, -, hout, -, -⟩ := bcastLabel_spec hov hs
  refine ⟨issuedBefore_issueOrder hmem (by simp; omega) ?_,
    Or.inl ⟨_, bcast_mem_depend_compute, by simp [hout]⟩⟩
  unfold bcastLabel; split_ifs <;> simp [issueRank] <;> first | contradiction | omega

theorem waits_bcast_succ (hov : n + mt ≤ 2 ^ 63) (hs : s + 1 < mt) :
    Waits (issueOrder mt n) (depend n) (bcastLabel n s) (bcastLabel n (s + 1)) := by
  obtain ⟨hmem, -, -, hout, -, -⟩ := bcastLabel_spec hov (by omega : s < mt)
  obtain ⟨hmem', -, -, -, hin, -⟩ := bcastLabel_spec hov hs
  refine ⟨issuedBefore_issueOrder hmem hmem' ?_, Or.inl ⟨_, hin (by omega), by simp [hout]⟩⟩
  unfold bcastLabel; split_ifs <;> simp [issueRank] <;> first | contradiction | omega

theorem waits_compute_bcast (hov : n + mt ≤ 2 ^ 63) (hn : n + 1 ≤ s) (hs : s < mt) :
    Waits (issueOrder mt n) (depend n) (.compute (s - n - 1)) (bcastLabel n s) := by
  obtain ⟨hmem, -, -, -, -, hin⟩ := bcastLabel_spec hov hs
  refine ⟨issuedBefore_issueOrder (by simp; omega) hmem ?_, Or.inl ⟨_, hin hn, by simp⟩⟩
  unfold bcastLabel; split_ifs <;> simp [issueRank] <;> first | contradiction | omega

end NoOverflow

/-! ## Every run keeps the pipeline order -/

/-- A broadcast task of stage `s` has had the event `e` by the moment `tr`. -/
def BcastHas (mt : Nat) (la : Int) (tr : List (Event Label)) (e : Label -> Event Label)
    (s : Int) : Prop :=
  ∃ b ∈ issueOrder mt la, b.IsBcast ∧ b.stage la = s ∧ e b ∈ tr

instance (mt : Nat) (la : Int) (tr : List (Event Label)) (e : Label -> Event Label) (s : Int) :
    Decidable (BcastHas mt la tr e s) := by
  unfold BcastHas; infer_instance

/-- The stages `s < mt` whose broadcast has started and whose compute has not
finished at the moment `tr`: the stages whose tiles are replicated. -/
def liveStages (mt : Nat) (la : Int) (tr : List (Event Label)) : Finset Nat :=
  (Finset.range mt).filter fun s =>
    BcastHas mt la tr .start s ∧ Event.finish (Label.compute s) ∉ tr

/-- Each started compute found its stage's broadcast and the previous compute
finished. -/
def ComputesWait (mt : Nat) (la : Int) (tr : List (Event Label)) : Prop :=
  ∀ k < mt, Event.start (Label.compute k) ∈ tr ->
    BcastHas mt la tr .finish k ∧ (1 ≤ k -> Event.finish (Label.compute (k - 1)) ∈ tr)

/-- Each started broadcast found the broadcast of the stage before finished. -/
def BcastsInOrder (mt : Nat) (la : Int) (tr : List (Event Label)) : Prop :=
  ∀ b ∈ issueOrder mt la, ∀ b' ∈ issueOrder mt la, b.IsBcast -> b'.IsBcast ->
    b'.stage la = b.stage la + 1 -> Event.start b' ∈ tr -> Event.finish b ∈ tr

instance (mt : Nat) (la : Int) (tr : List (Event Label)) : Decidable (ComputesWait mt la tr) := by
  unfold ComputesWait; infer_instance

instance (mt : Nat) (la : Int) (tr : List (Event Label)) : Decidable (BcastsInOrder mt la tr) := by
  unfold BcastsInOrder; infer_instance

/-- The ordering the spec asks of the pipeline (§4.3) at the moment `tr`:
a compute starts after its stage's broadcast and the previous compute have
finished, broadcasts run in stage order, and at most `lookahead + 1` stages
are live. -/
def PipelineOrdered (mt : Nat) (la : Int) (tr : List (Event Label)) : Prop :=
  ComputesWait mt la tr ∧ BcastsInOrder mt la tr ∧ ((liveStages mt la tr).card : Int) ≤ la + 1

instance (mt : Nat) (la : Int) (tr : List (Event Label)) :
    Decidable (PipelineOrdered mt la tr) := by
  unfold PipelineOrdered; infer_instance

section Runs

variable {mt n : Nat} {tr : List (Event Label)}

theorem finished_compute_of_le (hrun : Run (issueOrder mt n) (depend n) tr) {j k : Nat}
    (hjk : j ≤ k) (hk : k < mt) (hf : Event.finish (Label.compute k) ∈ tr) :
    Event.finish (Label.compute j) ∈ tr :=
  have hchain : ∀ i, i + 1 < mt ->
      Waits (issueOrder mt n) (depend n) (Label.compute i) (Label.compute (i + 1)) :=
    fun _ h => waits_compute_succ h
  hrun.finished_chain hchain hjk hk hf

theorem liveStages_close (hmt : 1 ≤ mt) (hov : n + mt ≤ 2 ^ 63)
    (hrun : Run (issueOrder mt n) (depend n) tr) {s s' : Nat} (hs : s ∈ liveStages mt n tr)
    (hs' : s' ∈ liveStages mt n tr) : s' < s + n + 1 := by
  simp only [liveStages, BcastHas, Finset.mem_filter, Finset.mem_range] at hs hs'
  obtain ⟨hsm, -, hnot⟩ := hs
  obtain ⟨hsm', ⟨b, hb, hbc, hstage, hstart⟩, -⟩ := hs'
  obtain ⟨t, -, rfl, ht⟩ := eq_bcastLabel hmt hov hb hbc
  obtain rfl : s' = t := by omega
  by_contra hfar
  have hwait := waits_compute_bcast hov (by omega : n + 1 ≤ s') hsm'
  exact hnot (finished_compute_of_le hrun (by omega) (by omega)
    (hrun.finished_of_started hstart hwait))

theorem card_liveStages_le (hmt : 1 ≤ mt) (hov : n + mt ≤ 2 ^ 63)
    (hrun : Run (issueOrder mt n) (depend n) tr) : (liveStages mt n tr).card ≤ n + 1 := by
  rcases (liveStages mt n tr).eq_empty_or_nonempty with he | hne
  · simp [he]
  · set m := (liveStages mt n tr).min' hne
    calc (liveStages mt n tr).card ≤ (Finset.Ico m (m + n + 1)).card := by
          refine Finset.card_le_card fun s' hs' => Finset.mem_Ico.mpr ⟨?_, ?_⟩
          · exact Finset.min'_le _ _ hs'
          · exact liveStages_close hmt hov hrun (Finset.min'_mem _ hne) hs'
      _ = n + 1 := by simp only [Nat.card_Ico]; omega

/-- Every moment of every run of `hemmC`'s tasks, for `0 ≤ lookahead` short of
`int64_t` overflow, keeps the pipeline order of the spec. -/
theorem hemmC_pipeline {la : Int} (hmt : 1 ≤ mt) (h0 : 0 ≤ la) (hov : la + mt ≤ 2 ^ 63)
    (hrun : Run (issueOrder mt la) (depend la) tr) : PipelineOrdered mt la tr := by
  obtain ⟨n, rfl⟩ := Int.eq_ofNat_of_zero_le h0
  have hov' : n + mt ≤ 2 ^ 63 := by omega
  refine ⟨fun k hk hstart => ⟨?_, fun hk1 => ?_⟩, fun b hb b' hb' hbc hbc' hst hstart => ?_, ?_⟩
  · obtain ⟨hmem, hbc, hstage, -⟩ := bcastLabel_spec hov' hk
    exact ⟨_, hmem, hbc, hstage, hrun.finished_of_started hstart (waits_bcast_compute hov' hk)⟩
  · obtain ⟨j, rfl⟩ : exists j, k = j + 1 := ⟨k - 1, by omega⟩
    exact hrun.finished_of_started hstart (waits_compute_succ hk)
  · obtain ⟨s, hs, rfl, hst1⟩ := eq_bcastLabel hmt hov' hb hbc
    obtain ⟨s', hs', rfl, hst2⟩ := eq_bcastLabel hmt hov' hb' hbc'
    obtain rfl : s' = s + 1 := by omega
    exact hrun.finished_of_started hstart (waits_bcast_succ hov' hs')
  · exact_mod_cast card_liveStages_le hmt hov' hrun

end Runs

theorem hemmC_pipeline_serial :
    Run (issueOrder 3 1) (depend 1) (serial (issueOrder 3 1)) ∧
      PipelineOrdered 3 1 (serial (issueOrder 3 1)) :=
  have hrun : Run (issueOrder 3 1) (depend 1) (serial (issueOrder 3 1)) :=
    (Run.serial (by decide)).1
  ⟨hrun, hemmC_pipeline (by decide) (by decide) (by decide) hrun⟩

/-- With `lookahead = 2^63 - 1` the sum `k+lookahead` wraps: stage 1 of a
two-stage sweep is never broadcast, and its compute runs as soon as the
compute of stage 0 has finished. -/
theorem pipeline_overflow_unordered :
    Run (issueOrder 2 (2 ^ 63 - 1)) (depend (2 ^ 63 - 1))
        [.start (.compute 1), .finish (.compute 0), .start (.compute 0),
          .finish .bcastFirst, .start .bcastFirst] ∧
      ¬ PipelineOrdered 2 (2 ^ 63 - 1)
        [.start (.compute 1), .finish (.compute 0), .start (.compute 0),
          .finish .bcastFirst, .start .bcastFirst] := by
  refine ⟨Run.start' (Run.finish (Run.start' (Run.finish (Run.start' Run.nil ?_ ?_ ?_) ?_ ?_)
    ?_ ?_ ?_) ?_ ?_) ?_ ?_ ?_, ?_⟩
  all_goals decide

end Hemm
end Slate
