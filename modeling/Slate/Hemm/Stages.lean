import Mathlib.Data.List.Nodup
import Slate.Hemm.Tasks

/-!
# Which stages `hemmC` broadcasts

The spec (§4.3) promises one broadcast per stage of the sweep, with
`lookahead` clamped to `[0, K-1]`.  The code never clamps: the stages its
broadcast tasks serve are the stage-0 task, the iterations of the initial
lookahead loop and the in-loop broadcasts of stage `k+lookahead`, all computed
with `int64_t` sums.  For `0 ≤ lookahead` short of the overflow of those sums
(`lookahead ≤ 2^63 - mt`) the stages are exactly `0, 1, ..., mt-1`, in that
order, and a lookahead beyond `mt-1` issues the same tasks as `mt-1`; a
negative lookahead is not clamped.
-/

namespace Slate
namespace Hemm

open Runtime

/-! ## Loop bounds -/

theorem takeWhile_range'_lt (s n : Nat) (c : Int) :
    (List.range' s n).takeWhile (fun (k : Nat) => decide ((k : Int) < c)) =
      (List.range' s n).filter fun (k : Nat) => decide ((k : Int) < c) := by
  induction n generalizing s with
  | zero => rfl
  | succ n ih =>
      rw [List.range'_succ, List.takeWhile_cons, List.filter_cons]
      by_cases h : (s : Int) < c
      · simp [h, ih]
      · simp only [h, decide_False, Bool.false_eq_true, if_false]
        refine (List.filter_eq_nil_iff.mpr fun a ha => ?_).symm
        simp only [List.mem_range'_1] at ha
        simp only [decide_eq_true_eq]
        omega

theorem filter_range'_lt (s m b : Nat) :
    (List.range' s m).filter (fun k => decide (k < b)) = List.range' s (min m (b - s)) := by
  induction m generalizing s with
  | zero => simp
  | succ m ih =>
      rw [List.range'_succ, List.filter_cons]
      by_cases h : s < b
      · rw [if_pos (decide_eq_true h), ih, show min (m + 1) (b - s) = min m (b - (s + 1)) + 1 by omega,
          List.range'_succ]
      · rw [if_neg (by simpa using h), Nat.sub_eq_zero_of_le (by omega), Nat.min_zero,
          List.filter_eq_nil_iff.mpr fun a ha => ?_]
        · rfl
        simp only [List.mem_range'_1] at ha
        simpa using (by omega : ¬ a < b)

theorem flatMap_singleton_ite {β : Type} (l : List Nat) (p : Nat -> Bool) (f : Nat -> β) :
    l.flatMap (fun k => if p k then [f k] else []) = (l.filter p).map f := by
  induction l with
  | nil => rfl
  | cons k l ih => by_cases h : p k <;> simp [List.filter_cons, h, ih]

@[simp] theorem mem_aheadIndices {mt k : Nat} {la : Int} :
    k ∈ aheadIndices mt la ↔ 1 ≤ k ∧ k < mt ∧ (k : Int) < wrap64 (la + 1) := by
  simp only [aheadIndices, takeWhile_range'_lt, List.mem_filter, List.mem_range'_1,
    decide_eq_true_eq]
  omega

/-! ## Membership in the issue order -/

section Membership

variable {mt k : Nat} {la : Int}

@[simp] theorem bcastFirst_mem_issueOrder : Label.bcastFirst ∈ issueOrder mt la := by
  simp [issueOrder]

theorem mem_loopTasks {l : Label} {j : Nat} :
    l ∈ loopTasks mt la j ↔ l = .compute j ∨ (l = .bcastLoop j ∧ wrap64 (j + la) < mt) := by
  unfold loopTasks; split <;> simp [*, or_comm]

@[simp] theorem bcastAhead_mem_issueOrder :
    Label.bcastAhead k ∈ issueOrder mt la ↔ 1 ≤ k ∧ k < mt ∧ (k : Int) < wrap64 (la + 1) := by
  simp [issueOrder, mem_loopTasks, List.mem_flatMap]

@[simp] theorem bcastLoop_mem_issueOrder :
    Label.bcastLoop k ∈ issueOrder mt la ↔ 1 ≤ k ∧ k < mt ∧ wrap64 (k + la) < mt := by
  simp only [issueOrder, List.mem_append, List.mem_cons, List.mem_map, List.mem_flatMap,
    mem_loopTasks, List.mem_range'_1, reduceCtorEq, false_or, or_false, exists_false,
    and_false, false_and, Label.bcastLoop.injEq]
  constructor
  · rintro ⟨a, ha, rfl, h⟩; exact ⟨ha.1, by omega, h⟩
  · rintro ⟨h1, h2, h3⟩; exact ⟨k, ⟨h1, by omega⟩, rfl, h3⟩

@[simp] theorem compute_mem_issueOrder :
    Label.compute k ∈ issueOrder mt la ↔ k = 0 ∨ k < mt := by
  simp [issueOrder, mem_loopTasks, List.mem_flatMap]
  omega

end Membership

/-! ## Broadcast stages -/

/-- The stages of the broadcast tasks, in issue order. -/
def bcastStages (mt : Nat) (la : Int) : List Int :=
  ((issueOrder mt la).filter fun l => decide l.IsBcast).map (Label.stage la)

theorem bcastStages_eq (mt : Nat) (la : Int) :
    bcastStages mt la =
      0 :: (aheadIndices mt la).map (fun (k : Nat) => (k : Int)) ++
        ((List.range' 1 (mt - 1)).filter fun (k : Nat) => decide (wrap64 (k + la) < mt)).map
          fun (k : Nat) => wrap64 (k + la) := by
  have hloop : ((List.range' 1 (mt - 1)).flatMap (loopTasks mt la)).filter
      (fun l => decide l.IsBcast) =
      (List.range' 1 (mt - 1)).flatMap fun (k : Nat) =>
        if decide (wrap64 (k + la) < mt) then [Label.bcastLoop k] else [] := by
    rw [List.filter_flatMap]
    congr 1; funext k
    unfold loopTasks; split <;> simp [Label.IsBcast, *]
  simp only [bcastStages, issueOrder, List.filter_cons, List.filter_append, List.map_cons,
    List.map_append, hloop, flatMap_singleton_ite]
  simp [Label.IsBcast, Label.stage, List.filter_map, Function.comp_def]

/-- With `0 ≤ lookahead` and no overflow the broadcast stages are `0, ..., mt-1`. -/
theorem bcastStages_of_noOverflow {mt n : Nat} (hmt : 1 ≤ mt) (hov : n + mt ≤ 2 ^ 63) :
    bcastStages mt n = (List.range mt).map fun (k : Nat) => (k : Int) := by
  have hahead : aheadIndices mt n = List.range' 1 (min n (mt - 1)) := by
    rw [aheadIndices, takeWhile_range'_lt]
    rcases Nat.lt_or_ge (n + 1) (2 ^ 63) with h | h
    · rw [wrap64_of_range (by omega) (by omega),
        List.filter_congr (q := fun (k : Nat) => decide (k < n + 1)) (fun k _ => by simp; omega),
        filter_range'_lt]
      congr 1; omega
    · rw [show mt - 1 = 0 by omega]; simp
  have hloop : ((List.range' 1 (mt - 1)).filter fun (k : Nat) => decide (wrap64 (k + n) < mt)).map
      (fun (k : Nat) => wrap64 (k + n)) =
        (List.range' (n + 1) (mt - 1 - n)).map fun (k : Nat) => (k : Int) := by
    have hw : ∀ k ∈ List.range' 1 (mt - 1), wrap64 (k + n) = ((k + n : Nat) : Int) := by
      intro k hk
      simp only [List.mem_range'_1] at hk
      rw [wrap64_of_range (by omega) (by omega)]; push_cast; rfl
    rw [List.filter_congr (q := fun (k : Nat) => decide (k < mt - n)) (fun k hk => by
        rw [hw k hk]; simp; omega), filter_range'_lt, List.map_congr_left (fun k hk => hw k
          (List.mem_range'.mpr (by
            obtain ⟨i, hi, rfl⟩ := List.mem_range'.mp hk; exact ⟨i, by omega, rfl⟩)))]
    have hcomp : (fun k : Nat => ((k + n : Nat) : Int)) = (fun k : Nat => (k : Int)) ∘ (n + ·) := by
      funext k; simp [Nat.add_comm]
    rw [hcomp, ← List.map_map, List.map_add_range']
    congr 2; omega
  have hnat : 0 :: List.range' 1 (min n (mt - 1)) ++ List.range' (n + 1) (mt - 1 - n) =
      List.range mt := by
    obtain ⟨m, rfl⟩ : exists m, mt = m + 1 := ⟨mt - 1, by omega⟩
    rw [List.range_eq_range', List.range'_succ, List.cons_append, Nat.add_sub_cancel]
    congr 1
    rcases Nat.lt_or_ge n m with h | h
    · rw [Nat.min_eq_left h.le, show n + 1 = 1 + 1 * n by omega, List.range'_append,
        show m - n + n = m by omega]
    · rw [Nat.min_eq_right h, Nat.sub_eq_zero_of_le h, List.range'_zero, List.append_nil]
  rw [bcastStages_eq, hahead, hloop, ← hnat]
  simp

/-! ## Depend indices -/

theorem depend_index_of_noOverflow {mt n : Nat} (hmt : 1 ≤ mt) (hov : n + mt ≤ 2 ^ 63)
    {l : Label} (hl : l ∈ issueOrder mt n) {x : Runtime.Token}
    (hx : x ∈ (depend n l).ins ++ (depend n l).outs) : 0 ≤ x.index ∧ x.index < mt := by
  cases l with
  | bcastFirst => simp [depend] at hx; subst hx; simp [Token.index]; omega
  | bcastAhead k =>
      simp only [bcastAhead_mem_issueOrder] at hl
      simp [depend] at hx; rcases hx with rfl | rfl <;> simp [Token.index] <;> omega
  | bcastLoop k =>
      simp only [bcastLoop_mem_issueOrder] at hl
      have hw : wrap64 (k + n) = k + n := wrap64_of_range (by omega) (by omega)
      have hw' : wrap64 (k + n - 1) = k + n - 1 := wrap64_of_range (by omega) (by omega)
      rw [hw] at hl
      simp [depend, hw, hw'] at hx; rcases hx with rfl | rfl | rfl <;> simp [Token.index] <;> omega
  | compute k =>
      simp only [compute_mem_issueOrder] at hl
      cases k with
      | zero => simp [depend] at hx; rcases hx with rfl | rfl <;> simp [Token.index] <;> omega
      | succ k =>
          simp [depend] at hx; rcases hx with rfl | rfl | rfl <;> simp [Token.index] <;> omega

/-! ## The stage discipline -/

/-- What the spec asks of the broadcasts of a sweep (§4.3): every stage
`s < mt` has exactly one broadcast task, no broadcast task serves another
index, and every `depend` clause names an index in `[0, mt)`. -/
def StageDiscipline (mt : Nat) (la : Int) : Prop :=
  (∀ s < mt, (bcastStages mt la).count (s : Int) = 1) ∧
    (∀ s ∈ bcastStages mt la, 0 ≤ s ∧ s < mt) ∧
    ∀ l ∈ issueOrder mt la, ∀ x ∈ (depend la l).ins ++ (depend la l).outs,
      0 ≤ x.index ∧ x.index < mt

instance (mt : Nat) (la : Int) : Decidable (StageDiscipline mt la) := by
  unfold StageDiscipline; infer_instance

theorem stageDiscipline_of_noOverflow {mt n : Nat} (hmt : 1 ≤ mt) (hov : n + mt ≤ 2 ^ 63) :
    StageDiscipline mt n := by
  refine ⟨fun s hs => ?_, fun s hs => ?_, fun l hl x hx => depend_index_of_noOverflow hmt hov hl hx⟩
  · rw [bcastStages_of_noOverflow hmt hov]
    exact List.count_eq_one_of_mem ((List.nodup_range mt).map Nat.cast_injective)
      (List.mem_map.mpr ⟨s, List.mem_range.mpr hs, rfl⟩)
  · rw [bcastStages_of_noOverflow hmt hov] at hs
    obtain ⟨k, hk, rfl⟩ := List.mem_map.mp hs
    simp at hk; omega

/-- The issue order once every stage is broadcast up front. -/
def saturatedOrder (mt : Nat) : List Label :=
  .bcastFirst :: (List.range' 1 (mt - 1)).map .bcastAhead ++
    .compute 0 :: (List.range' 1 (mt - 1)).map .compute

theorem issueOrder_saturated {mt : Nat} {la : Int} (hla : (mt : Int) - 1 ≤ la)
    (hov : la + mt ≤ 2 ^ 63) : issueOrder mt la = saturatedOrder mt := by
  have hahead : aheadIndices mt la = List.range' 1 (mt - 1) := by
    rw [aheadIndices, List.takeWhile_eq_self_iff]
    intro k hk
    simp only [List.mem_range'_1] at hk
    rw [wrap64_of_range (by omega) (by omega)]
    simp; omega
  have hloop : ∀ k ∈ List.range' 1 (mt - 1), loopTasks mt la k = [.compute k] := by
    intro k hk
    simp only [List.mem_range'_1] at hk
    rw [loopTasks, if_neg (by rw [wrap64_of_range (by omega) (by omega)]; omega)]; rfl
  rw [issueOrder, hahead, List.flatMap_congr hloop, saturatedOrder, ← List.map_eq_flatMap]

/-- For `0 ≤ lookahead ≤ 2^63 - mt` the broadcast tasks serve the stages
`0, ..., mt-1` in issue order and follow the stage discipline, and a lookahead
of `mt-1` or more issues exactly the tasks of `lookahead = mt-1`: the clamping
of the spec. -/
theorem hemmC_stage_discipline {mt : Nat} {la : Int} (hmt : 1 ≤ mt) (h0 : 0 ≤ la)
    (hov : la + mt ≤ 2 ^ 63) :
    bcastStages mt la = (List.range mt).map (fun (k : Nat) => (k : Int)) ∧ StageDiscipline mt la ∧
      ((mt : Int) - 1 ≤ la ->
        issueOrder mt la = issueOrder mt ((mt : Int) - 1) ∧
          ∀ l ∈ issueOrder mt la, depend la l = depend ((mt : Int) - 1) l ∧
            ∀ u nt, bcastListA u mt nt la l = bcastListA u mt nt ((mt : Int) - 1) l ∧
              bcastListB mt nt la l = bcastListB mt nt ((mt : Int) - 1) l) := by
  obtain ⟨n, rfl⟩ := Int.eq_ofNat_of_zero_le h0
  refine ⟨bcastStages_of_noOverflow hmt (by omega), stageDiscipline_of_noOverflow hmt (by omega),
    fun hla => ?_⟩
  have hsat := issueOrder_saturated hla hov
  refine ⟨by rw [hsat, issueOrder_saturated le_rfl (by omega)], fun l hl => ?_⟩
  rw [hsat] at hl
  simp only [saturatedOrder, List.mem_append, List.mem_cons, List.mem_map] at hl
  rcases hl with (rfl | ⟨k, -, rfl⟩) | rfl | ⟨k, -, rfl⟩
  all_goals try cases k
  all_goals exact ⟨rfl, fun _ _ => ⟨rfl, rfl⟩⟩

theorem hemmC_stage_discipline_three_four :
    bcastStages 3 4 = (List.range 3).map (fun (k : Nat) => (k : Int)) ∧ StageDiscipline 3 4 ∧
      ((3 : Int) - 1 ≤ 4 ->
        issueOrder 3 4 = issueOrder 3 ((3 : Int) - 1) ∧
          ∀ l ∈ issueOrder 3 4, depend 4 l = depend ((3 : Int) - 1) l ∧
            ∀ u nt, bcastListA u 3 nt 4 l = bcastListA u 3 nt ((3 : Int) - 1) l ∧
              bcastListB 3 nt 4 l = bcastListB 3 nt ((3 : Int) - 1) l) :=
  hemmC_stage_discipline (by decide) (by decide) (by decide)

/-- A negative lookahead is not clamped to `0`: with `lookahead = -1` stage 0
is broadcast twice, stage 1 never, and `bcast[-1]` is named, where
`lookahead = 0` broadcasts stages `0, 1`. -/
theorem stageDiscipline_unclamped :
    ¬ StageDiscipline 2 (-1) ∧ bcastStages 2 (-1) = [0, 0] ∧ bcastStages 2 0 = [0, 1] := by
  decide

end Hemm
end Slate
