import Slate.Hemm.Pipeline

/-!
# Broadcast lists against the tiles each compute reads

Each broadcast task of `hemmC` lists the tiles of `A` and `B` it replicates
and the block of `C` whose owners receive them; each compute task reads tiles
of `A` and `B` through sub-views.  The lists are written out separately at
three code sites (the stage-0 task, the initial lookahead loop, the in-loop
broadcast) for each stored triangle.  This module checks them against the
reads: the `A` tiles broadcast for stage `s`, paired with their destination
block row of `C`, are exactly the `(tile, row)` pairs the stage-`s` compute
reads, in the same order, and likewise for `B` and block columns.
-/

namespace Slate
namespace Hemm

open Runtime

/-! ## Pairs sent and pairs read -/

/-- The `(A tile, C block row)` pairs an entry sends. -/
def BcastEntry.rowPairs (e : BcastEntry) : List (Int × Int × Int) :=
  e.dest.rows.map fun r => (e.i, e.j, r)

/-- The `(B tile, C block column)` pairs an entry sends. -/
def BcastEntry.colPairs (e : BcastEntry) : List (Int × Int × Int) :=
  e.dest.cols.map fun c => (e.i, e.j, c)

/-- The `(A tile, C block row)` pairs a kernel call reads: `C(r, c)` needs
`A(r, l)` for every `l` of the inner dimension. -/
def Call.readsA : Call -> List (Int × Int × Int)
  | .gemm A _ _ C => (intRange 0 (C.i2 - C.i1 + 1)).flatMap fun r =>
      (intRange 0 A.width).map fun l => ((A.coord r l).1, (A.coord r l).2, C.i1 + r)
  | .hemm k _ _ C => C.rows.map fun r => (k, k, r)

/-- The `(B tile, C block column)` pairs a kernel call reads: `C(r, c)` needs
`B(l, c)` for every `l` of the inner dimension. -/
def Call.readsB : Call -> List (Int × Int × Int)
  | .gemm A B _ C => (intRange 0 (C.j2 - C.j1 + 1)).flatMap fun c =>
      (intRange 0 A.width).map fun l => (B.i1 + l, B.j1 + c, C.j1 + c)
  | .hemm _ B _ C => (intRange 0 (C.j2 - C.j1 + 1)).map fun c => (B.i1, B.j1 + c, C.j1 + c)

/-- The stored tile holding `Ahat(i, s)`. -/
def storedTile (u : Uplo) (i s : Int) : Int × Int :=
  if i = s then (s, s) else if Stored u i s then (i, s) else (s, i)

/-- What stage `s` needs of `A`: for each block row `i` of `C`, the stored
tile of `Ahat(i, s)`. -/
def stagePairsA (u : Uplo) (mt : Nat) (s : Int) : List (Int × Int × Int) :=
  (intRange 0 mt).map fun i => ((storedTile u i s).1, (storedTile u i s).2, i)

/-- What stage `s` needs of `B`: tile `B(s, j)` for each block column `j`. -/
def stagePairsB (nt : Nat) (s : Int) : List (Int × Int × Int) :=
  (intRange 0 nt).map fun j => (s, j, j)

/-- The pair stage `s` needs for block row `i`. -/
def stagePair (u : Uplo) (s i : Int) : Int × Int × Int :=
  ((storedTile u i s).1, (storedTile u i s).2, i)

theorem stagePairsA_split (u : Uplo) (mt : Nat) (s : Int) {b : Int} (hb0 : 0 ≤ b)
    (hb : b ≤ mt) :
    stagePairsA u mt s = (intRange 0 b).map (stagePair u s) ++ (intRange b mt).map (stagePair u s) := by
  rw [stagePairsA, ← intRange_append hb0 hb, List.map_append]; rfl

theorem map_intRange_congr {β : Type} {f g : Int -> β} {a b : Int}
    (h : ∀ i, a ≤ i -> i < b -> f i = g i) : (intRange a b).map f = (intRange a b).map g :=
  List.map_congr_left fun i hi => by rw [mem_intRange] at hi; exact h i hi.1 hi.2

@[simp] theorem stagePair_self (u : Uplo) (s : Int) : stagePair u s s = (s, s, s) := by
  simp [stagePair, storedTile]

theorem stagePair_lt (u : Uplo) {s i : Int} (h : i < s) :
    stagePair u s i = match u with | .lower => (s, i, i) | .upper => (i, s, i) := by
  cases u <;> simp [stagePair, storedTile, Stored, h, h.ne, not_lt.2 h.le]

theorem stagePair_ge (u : Uplo) {s i : Int} (h : s ≤ i) :
    stagePair u s i = match u with | .lower => (i, s, i) | .upper => (s, i, i) := by
  rcases h.eq_or_lt with rfl | h
  · cases u <;> simp [stagePair, storedTile]
  · cases u <;> simp [stagePair, storedTile, Stored, h, h.ne', not_lt.2 h.le]

/-! ## The broadcast lists -/

theorem rowPairs_rowEntry (nt : Nat) (a b i : Int) : (rowEntry nt a b i).rowPairs = [(a, b, i)] := by
  simp [rowEntry, BcastEntry.rowPairs, Region.rows, intRange_succ]

theorem colPairs_colEntry (mt : Nat) (k j : Int) : (colEntry mt k j).colPairs = [(k, j, j)] := by
  simp [colEntry, BcastEntry.colPairs, Region.cols, intRange_succ]

theorem flatMap_rowPairs (nt : Nat) (l : List Int) (f g : Int -> Int) :
    (l.map fun i => rowEntry nt (f i) (g i) i).flatMap BcastEntry.rowPairs =
      l.map fun i => (f i, g i, i) := by
  rw [List.flatMap_map]; simp only [rowPairs_rowEntry]; exact (List.map_eq_flatMap _ _).symm

theorem loopListA_pairs (u : Uplo) {mt nt : Nat} {s : Int} (hs0 : 0 ≤ s) (hs : s ≤ mt) :
    (loopListA mt nt s u).flatMap BcastEntry.rowPairs = stagePairsA u mt s := by
  rw [stagePairsA_split u mt s hs0 hs]
  cases u <;> rw [loopListA, List.flatMap_append, flatMap_rowPairs, flatMap_rowPairs] <;>
    congr 1 <;> refine map_intRange_congr fun i h1 h2 => ?_
  all_goals first
    | rw [stagePair_lt _ h2]
    | rw [stagePair_ge _ h1]

theorem aheadListA_eq_loopListA (u : Uplo) {mt nt : Nat} {k : Int} (hk : k ≤ mt) :
    aheadListA mt nt k u = loopListA mt nt k u := by
  cases u <;> simp [aheadListA, loopListA, min_eq_left hk]

theorem firstListA_eq_loopListA (u : Uplo) (mt nt : Nat) :
    firstListA mt nt u = loopListA mt nt 0 u := by
  cases u <;> simp [firstListA, loopListA, intRange_eq_nil]

/-! ## The compute reads -/

theorem readsA_gemm_col (a b j i2 : Int) (B : Region) (c : Coef) (nt : Nat) :
    (Call.gemm ⟨⟨a, b, j, j⟩, false⟩ B c (rowsC nt a i2)).readsA =
      (intRange a (i2 + 1)).map fun i => (i, j, i) := by
  rw [← show a + (i2 - a + 1) = i2 + 1 by omega, ← map_intRange_shift]
  simp [Call.readsA, AView.width, AView.coord, rowsC, intRange_zero_one, List.map_eq_flatMap]

theorem readsA_gemm_row (i a b i2 : Int) (B : Region) (c : Coef) (nt : Nat) :
    (Call.gemm ⟨⟨i, i, a, b⟩, true⟩ B c (rowsC nt a i2)).readsA =
      (intRange a (i2 + 1)).map fun x => (i, x, x) := by
  rw [← show a + (i2 - a + 1) = i2 + 1 by omega, ← map_intRange_shift]
  simp [Call.readsA, AView.width, AView.coord, rowsC, intRange_zero_one, List.map_eq_flatMap]

theorem readsA_hemm (k : Int) (B : Region) (c : Coef) (nt : Nat) :
    (Call.hemm k B c (rowsC nt k k)).readsA = [(k, k, k)] := by
  simp [Call.readsA, rowsC, Region.rows, intRange_succ]

theorem ite_map_intRange {β : Type} (p : Prop) [Decidable p] {a b : Int} (hp : p ↔ a < b)
    (f : Int -> β) : (if p then (intRange a b).map f else []) = (intRange a b).map f := by
  split_ifs with h
  · rfl
  · rw [intRange_eq_nil (by rw [hp] at h; omega), List.map_nil]

theorem stagePairsA_three (u : Uplo) {mt : Nat} {s : Int} (hs0 : 0 ≤ s) (hs : s < mt) :
    stagePairsA u mt s = (intRange 0 s).map (stagePair u s) ++
      (s, s, s) :: (intRange (s + 1) mt).map (stagePair u s) := by
  rw [stagePairsA_split u mt s hs0 hs.le, ← intRange_append (by omega : s ≤ s + 1) hs,
    intRange_succ]
  simp

theorem computeCalls_readsA (u : Uplo) {mt nt s : Nat} (hs : s < mt) :
    (computeCalls u mt nt s).flatMap Call.readsA = stagePairsA u mt s := by
  rw [stagePairsA_three u (Int.ofNat_nonneg s) (by exact_mod_cast hs)]
  cases s with
  | zero =>
    cases u <;> simp only [computeCalls, List.flatMap_cons, List.flatMap_nil,
      apply_ite (List.flatMap · Call.readsA), readsA_gemm_col, readsA_gemm_row, readsA_hemm,
      List.append_nil, ite_map_intRange _ (by omega : (mt : Int) - 1 > 0 ↔ 1 < (mt : Int)),
      Nat.cast_zero, intRange_eq_nil le_rfl, sub_add_cancel, zero_add, List.map_nil,
      List.nil_append, List.singleton_append] <;>
      congr 1 <;> refine map_intRange_congr fun i h1 _ => ?_ <;> rw [stagePair_ge _ (by omega)]
  | succ k =>
    cases u <;> simp only [computeCalls, List.flatMap_cons, List.flatMap_nil, List.flatMap_append,
      apply_ite (List.flatMap · Call.readsA), readsA_gemm_col, readsA_gemm_row, readsA_hemm,
      List.append_nil, ite_map_intRange _ (by omega : (mt : Int) - 1 > k + 1 ↔ k + 2 < (mt : Int)),
      Nat.cast_succ, sub_add_cancel, List.append_assoc, List.singleton_append,
      show (k : Int) + 1 + 1 = k + 2 by omega] <;>
      refine congrArg₂ (· ++ ·) (map_intRange_congr fun i _ h2 => ?_)
        (congrArg (_ :: ·) (map_intRange_congr fun i h1 _ => ?_))
    all_goals first
      | rw [stagePair_lt _ h2]
      | rw [stagePair_ge _ (by omega)]

theorem readsB_gemm {A : AView} (hw : A.width = 1) (k : Int) (c : Coef) (nt : Nat) (a b : Int) :
    (Call.gemm A (rowB nt k) c (rowsC nt a b)).readsB = stagePairsB nt k := by
  simp [Call.readsB, hw, rowB, rowsC, stagePairsB, intRange_zero_one, List.map_eq_flatMap]

theorem readsB_hemm (k' k : Int) (c : Coef) (nt : Nat) (a b : Int) :
    (Call.hemm k' (rowB nt k) c (rowsC nt a b)).readsB = stagePairsB nt k := by
  simp [Call.readsB, rowB, rowsC, stagePairsB]

theorem readsB_of_mem_computeCalls {u : Uplo} {mt nt s : Nat} {c : Call}
    (hc : c ∈ computeCalls u mt nt s) : c.readsB = stagePairsB nt s := by
  cases s <;> cases u <;> simp only [computeCalls] at hc <;> split_ifs at hc <;>
    simp only [List.cons_append, List.nil_append, List.mem_cons, List.mem_singleton,
      List.not_mem_nil, or_false] at hc <;>
    rcases hc with rfl | rfl | rfl <;>
    simp [readsB_gemm, readsB_hemm, AView.width]

theorem computeCalls_readsB (u : Uplo) (mt nt s : Nat) (p : Int × Int × Int) :
    p ∈ (computeCalls u mt nt s).flatMap Call.readsB ↔ p ∈ stagePairsB nt s := by
  have hne : ∃ c, c ∈ computeCalls u mt nt s := by cases s <;> simp [computeCalls]
  simp only [List.mem_flatMap]
  constructor
  · rintro ⟨c, hc, hp⟩; rwa [readsB_of_mem_computeCalls hc] at hp
  · intro hp
    obtain ⟨c, hc⟩ := hne
    exact ⟨c, hc, by rwa [readsB_of_mem_computeCalls hc]⟩

theorem listB_pairs (mt nt : Nat) (k : Int) :
    (listB mt nt k).flatMap BcastEntry.colPairs = stagePairsB nt k := by
  rw [listB, List.flatMap_map]; simp only [colPairs_colEntry]
  exact (List.map_eq_flatMap _ _).symm

/-! ## The broadcast task of each stage -/

section NoOverflow

variable {mt n s : Nat}

theorem bcastListA_bcastLabel (u : Uplo) (nt : Nat) (hov : n + mt ≤ 2 ^ 63) (hs : s < mt) :
    bcastListA u mt nt n (bcastLabel n s) = loopListA mt nt s u := by
  unfold bcastLabel
  split_ifs with h0 hn
  · subst h0; exact firstListA_eq_loopListA u mt nt
  · exact aheadListA_eq_loopListA u (by omega)
  · rw [bcastListA, show ((s - n : Nat) : Int) + n = s by omega, wrap64_of_range (by omega) (by omega)]

theorem bcastListB_bcastLabel (nt : Nat) (hov : n + mt ≤ 2 ^ 63) (hs : s < mt) :
    bcastListB mt nt n (bcastLabel n s) = listB mt nt s := by
  unfold bcastLabel
  split_ifs with h0 hn
  · subst h0; rfl
  · rfl
  · rw [bcastListB, show ((s - n : Nat) : Int) + n = s by omega, wrap64_of_range (by omega) (by omega)]

end NoOverflow

/-- For `0 ≤ lookahead` short of overflow, every stage has a broadcast task,
and every broadcast task, whichever site issues it, sends for a stage in
range exactly the `A` pairs (in order) and the `B` pairs its compute reads. -/
theorem hemmC_broadcast_matches_reads (u : Uplo) {mt nt : Nat} {la : Int} (hmt : 1 ≤ mt)
    (h0 : 0 ≤ la) (hov : la + mt ≤ 2 ^ 63) :
    (∀ s < mt, ∃ b ∈ issueOrder mt la, b.IsBcast ∧ b.stage la = s) ∧
      ∀ b ∈ issueOrder mt la, b.IsBcast -> ∃ s < mt, b.stage la = s ∧
        (bcastListA u mt nt la b).flatMap BcastEntry.rowPairs =
          (computeCalls u mt nt s).flatMap Call.readsA ∧
        ∀ p, p ∈ (bcastListB mt nt la b).flatMap BcastEntry.colPairs ↔
          p ∈ (computeCalls u mt nt s).flatMap Call.readsB := by
  obtain ⟨n, rfl⟩ := Int.eq_ofNat_of_zero_le h0
  have hov' : n + mt ≤ 2 ^ 63 := by omega
  refine ⟨fun s hs => ?_, fun b hb hbc => ?_⟩
  · obtain ⟨hmem, hbc, hstage, -⟩ := bcastLabel_spec hov' hs
    exact ⟨_, hmem, hbc, hstage⟩
  · obtain ⟨s, hs, rfl, hst⟩ := eq_bcastLabel hmt hov' hb hbc
    refine ⟨s, hs, hst, ?_, fun p => ?_⟩
    · rw [bcastListA_bcastLabel u nt hov' hs, loopListA_pairs u (by omega) (by omega),
        computeCalls_readsA u hs]
    · rw [bcastListB_bcastLabel nt hov' hs, listB_pairs, computeCalls_readsB]

theorem hemmC_broadcast_matches_reads_three_one :
    (1 ≤ 3 ∧ (0 : Int) ≤ 1 ∧ (1 : Int) + 3 ≤ 2 ^ 63) ∧
      ((∀ s < (3 : Nat), ∃ b ∈ issueOrder 3 1, b.IsBcast ∧ b.stage 1 = s) ∧
        ∀ b ∈ issueOrder 3 1, b.IsBcast -> ∃ s < (3 : Nat), b.stage 1 = s ∧
          (bcastListA .lower 3 2 1 b).flatMap BcastEntry.rowPairs =
            (computeCalls .lower 3 2 s).flatMap Call.readsA ∧
          ∀ p, p ∈ (bcastListB 3 2 1 b).flatMap BcastEntry.colPairs ↔
            p ∈ (computeCalls .lower 3 2 s).flatMap Call.readsB) :=
  ⟨by decide, hemmC_broadcast_matches_reads .lower (by decide) (by decide) (by decide)⟩

/-- With `lookahead = 2^63 - 1` the sum `k+lookahead` wraps: stage 1 of a
two-stage sweep reads tiles of `A`, but no broadcast task is issued for it. -/
theorem broadcast_overflow_missing :
    (computeCalls .lower 2 1 1).flatMap Call.readsA ≠ [] ∧
      ∀ b ∈ issueOrder 2 (2 ^ 63 - 1), b.IsBcast -> b.stage (2 ^ 63 - 1) ≠ 1 := by
  decide

end Hemm
end Slate