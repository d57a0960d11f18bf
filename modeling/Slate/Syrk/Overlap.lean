import Slate.Syrk.Results

/-!
# Tasks of `syrk_impl` that overlap on a tile

The tile kernels update `C` in place: a task reads its tiles as it starts and
writes them as it finishes (`syrkResultSplit`).  Where the writers of a tile
never overlap this is the atomic semantics of `syrkResult`, so in every run of
`HostNest`, `HostBatch` and `Devices`, whose tiles have one writer each.  The `gemm` tasks
of one tile in `HostTask` have no depend clause between them.  Run one at a
time with `k = 0` first they give the specified tile.  Run at once they can
lose an update, even when `k = 0` finishes first.
-/

namespace Slate
namespace Syrk

open Runtime

variable {K : Type*} [CommRing K] {nb : Nat} {p : Problem K nb}

theorem syrkResultSplit_of_exclusive {order : List Task} {dep : Task -> Depend}
    {tr : List (Event Task)} (hrun : Run order dep tr) {m n : Nat}
    (hex : Exclusive (fun t => (m, n) ∈ t.writes p) tr) :
    syrkResultSplit p tr m n = syrkResult p tr m n :=
  hrun.replaySplit_eq (fun C => C m n) (fun t => (m, n) ∈ t.writes p) (fun _ _ _ h => if_neg h)
    (fun _ _ _ _ _ h h0 => by simp only [Task.runFrom, if_pos h, h0]) hex p.C

omit [CommRing K] in
theorem exclusive_of_single_writer {target : Target} (htask : target ≠ .hostTask ∨ p.kt = 1)
    {tr : List (Event Task)} (hrun : Run (issueOrder p target) noDepend tr) (m n : Nat) :
    Exclusive (fun t => (m, n) ∈ t.writes p) tr := by
  intro t t' hne hw hw' hs hs'
  obtain ⟨htg, k, k', rfl, rfl, hk, hk', -⟩ :=
    eq_gemm_of_shared_write (hrun.mem_of_started hs) (hrun.mem_of_started hs') hne hw hw'
  rcases htask with h | h
  · exact absurd htg h
  · exact absurd (by rw [show k = 0 by omega, show k' = 0 by omega]) hne

/-- With one writer per tile the in-place kernels act as atomic ones: in every
run, complete or not, of `HostNest`, `HostBatch` or `Devices`, or of `HostTask`
when `A` has one block column, `C` is the same in both semantics, so what
holds of these targets with atomic kernels holds of the code. -/
theorem syrk_inplace_eq_atomic {target : Target} (htask : target ≠ .hostTask ∨ p.kt = 1)
    {tr : List (Event Task)} (hrun : Run (issueOrder p target) noDepend tr) :
    syrkResultSplit p tr = syrkResult p tr :=
  funext fun m => funext fun n =>
    syrkResultSplit_of_exclusive hrun (exclusive_of_single_writer htask hrun m n)

theorem syrk_inplace_eq_atomic_hostNest :
    (Target.hostNest ≠ .hostTask ∨ failingProblem.kt = 1) ∧
      Run (issueOrder failingProblem .hostNest) noDepend (serial (issueOrder failingProblem .hostNest)) ∧
      syrkResultSplit failingProblem (serial (issueOrder failingProblem .hostNest)) =
        syrkResult failingProblem (serial (issueOrder failingProblem .hostNest)) :=
  have hrun := Run.serial_free noDepend_free (issueOrder_nodup failingProblem .hostNest) fun t ht => ht
  ⟨.inl (by decide), hrun, syrk_inplace_eq_atomic (.inl (by decide)) hrun⟩

/-- `HostTask` computes a local tile below the diagonal right in every complete
run in which the tile's `gemm` tasks run one at a time and its `k = 0` task,
the one that applies `beta`, finishes first; the order of the others does not
matter. -/
theorem hostTask_below_of_zero_first {tr : List (Event Task)}
    (hrun : Run (issueOrder p .hostTask) noDepend tr)
    (hdone : ∀ t ∈ issueOrder p .hostTask, Event.finish t ∈ tr) {m n : Nat} (hnm : n < m)
    (hm : m < p.mt) (hloc : p.isLocal m n = true) (hkt : 0 < p.kt)
    (hex : Exclusive (fun t => (m, n) ∈ t.writes p) tr)
    (hfirst : ∀ k, 0 < k -> k < p.kt -> [Task.gemm m n 0, Task.gemm m n k].Sublist (finishes tr)) :
    syrkResultSplit p tr m n = syrkSpec p m n := by
  rw [syrkResultSplit_of_exclusive hrun hex]
  exact syrkResult_hostTask_of_zero_first hrun hdone hnm hm hloc hkt hfirst

theorem hostTask_below_of_zero_first_serial :
    Run (issueOrder failingProblem .hostTask) noDepend (serial (issueOrder failingProblem .hostTask)) ∧
      (∀ t ∈ issueOrder failingProblem .hostTask,
        Event.finish t ∈ serial (issueOrder failingProblem .hostTask)) ∧
      0 < 1 ∧ 1 < failingProblem.mt ∧ failingProblem.isLocal 1 0 = true ∧ 0 < failingProblem.kt ∧
      Exclusive (fun t => (1, 0) ∈ t.writes failingProblem) (serial (issueOrder failingProblem .hostTask)) ∧
      (∀ k, 0 < k -> k < failingProblem.kt -> [Task.gemm 1 0 0, Task.gemm 1 0 k].Sublist
        (finishes (serial (issueOrder failingProblem .hostTask)))) ∧
      syrkResultSplit failingProblem (serial (issueOrder failingProblem .hostTask)) 1 0 =
        syrkSpec failingProblem 1 0 :=
  have hrun := Run.serial_free noDepend_free (issueOrder_nodup failingProblem .hostTask) fun t ht => ht
  have hdone : ∀ t ∈ issueOrder failingProblem .hostTask,
      Event.finish t ∈ serial (issueOrder failingProblem .hostTask) := by decide
  have hex := exclusive_serial (fun t => (1, 0) ∈ t.writes failingProblem) (issueOrder failingProblem .hostTask)
  have hfirst : ∀ k, 0 < k -> k < failingProblem.kt -> [Task.gemm 1 0 0, Task.gemm 1 0 k].Sublist
      (finishes (serial (issueOrder failingProblem .hostTask))) := fun k h1 h2 => by
    obtain rfl : k = 1 := by simp only [failingProblem] at h2; omega
    rw [finishes_serial]; decide
  ⟨hrun, hdone, by decide, by decide, rfl, by decide, hex, hfirst,
    hostTask_below_of_zero_first hrun hdone (by decide) (by decide) rfl (by decide) hex hfirst⟩

/-! ## A lost update -/

theorem foldl_gemm_one (p : Problem K nb) (m n : Nat) (s c : Nat) (x : Tile K nb) :
    (List.range' s c).foldl (fun x k => gemmTile p.alpha (p.A m k) (p.A n k) 1 x) x =
      p.alpha • ∑ k in Finset.Ico s (s + c), p.A m k * (p.A n k).transpose + x := by
  induction c generalizing s x with
  | zero => simp
  | succ c ih =>
      rw [List.range'_succ, List.foldl_cons, ih, gemmTile, one_smul,
        Finset.sum_eq_sum_Ico_succ_bot (by omega : s < s + (c + 1)),
        show s + 1 + c = s + (c + 1) by omega, smul_add]
      abel

/-- The tasks of `HostTask` other than the `k = 0` and `k = 1` tasks of tile
`(m, n)`. -/
def raceRest (p : Problem K nb) (m n : Nat) : List Task :=
  (issueOrder p .hostTask).filter fun t => decide (t ∉ [Task.gemm m n 0, .gemm m n 1])

/-- A schedule racing the `k = 0` and `k = 1` tasks of tile `(m, n)`: both
start, they finish in that order, and the other tasks run one at a time after
them. -/
def raceRun (p : Problem K nb) (m n : Nat) : List (Event Task) :=
  serial (raceRest p m n) ++
    [.finish (.gemm m n 1), .finish (.gemm m n 0), .start (.gemm m n 1), .start (.gemm m n 0)]

omit [CommRing K] in
theorem raceRun_complete {m n : Nat} (hnm : n < m) (hm : m < p.mt) (hkt : 2 ≤ p.kt) :
    Run (issueOrder p .hostTask) noDepend (raceRun p m n) ∧
      ∀ t ∈ issueOrder p .hostTask, Event.finish t ∈ raceRun p m n := by
  have hg0 : Task.gemm m n 0 ∈ issueOrder p .hostTask := gemm_mem_hostTask.mpr ⟨hnm, hm, by omega⟩
  have hg1 : Task.gemm m n 1 ∈ issueOrder p .hostTask := gemm_mem_hostTask.mpr ⟨hnm, hm, by omega⟩
  have h10 : Task.gemm m n 1 ≠ Task.gemm m n 0 := by simp
  have hbase : Run (issueOrder p .hostTask) noDepend
      [.finish (.gemm m n 1), .finish (.gemm m n 0), .start (.gemm m n 1), .start (.gemm m n 0)] :=
    .finish (.finish (.start (.start .nil hg0 (by simp) fun a hw => absurd hw.2 (noDepend_free a _)) hg1
      (by simp) fun a hw => absurd hw.2 (noDepend_free a _)) (by simp) (by simp [h10]))
      (by simp) (by simp [h10])
  refine ⟨Run.serial_free_append noDepend_free hbase ((issueOrder_nodup p _).filter _)
    (fun t ht => (List.mem_filter.mp ht).1) (fun t ht => ?_), fun t ht => ?_⟩
  · have := (List.mem_filter.mp ht).2
    simp only [List.mem_cons, List.mem_singleton, decide_eq_true_eq, not_or] at this
    simp [this.1, this.2]
  · by_cases h : t ∈ [Task.gemm m n 0, .gemm m n 1]
    · simp only [List.mem_cons, List.mem_singleton, List.not_mem_nil, or_false] at h
      rcases h with rfl | rfl <;> simp [raceRun]
    · exact List.mem_append_left _ (finish_mem_serial.mpr (List.mem_filter.mpr ⟨ht, by simpa using h⟩))

omit [CommRing K] in
theorem finishes_raceRun (p : Problem K nb) (m n : Nat) :
    finishes (raceRun p m n) = .gemm m n 0 :: .gemm m n 1 :: raceRest p m n := by
  simp [raceRun, finishes]

omit [CommRing K] in
theorem raceRest_writers {m n : Nat} (hnm : n < m) (hm : m < p.mt) (hloc : p.isLocal m n = true)
    (hkt : 2 ≤ p.kt) :
    ∃ ks : List Nat, ks.Perm (List.range' 1 (p.kt - 1)) ∧
      (Task.gemm m n 1 :: raceRest p m n).filter (fun t => decide ((m, n) ∈ t.writes p)) =
        ks.map (.gemm m n) := by
  have h1 : Task.gemm m n 1 ∉ raceRest p m n := fun h => by simpa using (List.mem_filter.mp h).2
  refine exists_perm_of_gemm ((List.nodup_cons.mpr ⟨h1, (issueOrder_nodup p _).filter _⟩).filter _)
    (List.nodup_range' _ _) fun t => ?_
  simp only [List.mem_filter, List.mem_cons, decide_eq_true_eq, raceRest, List.mem_range'_1]
  constructor
  · rintro ⟨rfl | ⟨ht, hnot⟩, hwt⟩
    · exact ⟨1, ⟨le_rfl, by omega⟩, rfl⟩
    · obtain ⟨k, hk, rfl⟩ := (writes_hostTask_below_iff hnm hm hloc t).mp ⟨ht, hwt⟩
      refine ⟨k, ⟨?_, by omega⟩, rfl⟩
      simp at hnot; omega
  · rintro ⟨k, ⟨hk1, hk⟩, rfl⟩
    refine ⟨?_, by simp [Task.writes, hloc]⟩
    rcases Nat.eq_or_lt_of_le hk1 with rfl | hk1
    · exact .inl rfl
    · exact .inr ⟨gemm_mem_hostTask.mpr ⟨hnm, hm, by omega⟩, by simp; omega⟩

/-- In the racing schedule tile `(m, n)` is the kernel of `k = 1` on its first
value, then the kernels of the other writers in finishing order: `k = 0`'s
write is overwritten. -/
theorem raceRun_tile {m n : Nat} (hloc : p.isLocal m n = true) :
    syrkResultSplit p (raceRun p m n) m n =
      ((Task.gemm m n 1 :: raceRest p m n).filter fun t => decide ((m, n) ∈ t.writes p)).foldl
        (fun c t => t.kernel p m n c) (p.C m n) := by
  have hw : ∀ k, (m, n) ∈ (Task.gemm m n k).writes p := fun k => by simp [Task.writes, hloc]
  have hB : (replaySplit (Task.runFrom p)
      [.finish (.gemm m n 1), .finish (.gemm m n 0), .start (.gemm m n 1), .start (.gemm m n 0)] p.C).1 m n =
        (Task.gemm m n 1).kernel p m n (p.C m n) := by
    simp [replaySplit, Task.runFrom, hw]
  rw [syrkResultSplit, raceRun, replaySplit_serial_append]
  simp only [Task.runFrom_self]
  rw [foldl_taskRun_apply, hB, List.filter_cons, if_pos (by simpa using hw 1), List.foldl_cons]

/-- The `gemm` tasks of one tile in `HostTask` can lose an update: for every
local tile below the diagonal with `kt ≥ 2`, in some complete run the `k = 0`
task finishes before every other task of the tile, yet the tile ends as
`alpha sum_{0<k<kt} A(m, k) A(n, k)^T + C0(m, n)`.  The `k = 1` task started
before `k = 0` finished and overwrote its update, and `beta` with it. -/
theorem hostTask_lost_update {m n : Nat} (hnm : n < m) (hm : m < p.mt)
    (hloc : p.isLocal m n = true) (hkt : 2 ≤ p.kt) :
    ∃ tr, Run (issueOrder p .hostTask) noDepend tr ∧
      (∀ t ∈ issueOrder p .hostTask, Event.finish t ∈ tr) ∧
      (∀ k, 0 < k -> k < p.kt -> [Task.gemm m n 0, Task.gemm m n k].Sublist (finishes tr)) ∧
      syrkResultSplit p tr m n =
        p.alpha • ∑ k in Finset.Ico 1 p.kt, p.A m k * (p.A n k).transpose + p.C m n := by
  obtain ⟨hrun, hdone⟩ := raceRun_complete hnm hm hkt
  refine ⟨raceRun p m n, hrun, hdone, fun k hk0 hk => ?_, ?_⟩
  · -- `k = 0` finishes first of all
    rw [finishes_raceRun]
    rcases Nat.eq_or_lt_of_le (Nat.succ_le_of_lt hk0) with rfl | hk1
    · exact ((List.Sublist.refl _).cons₂ _).trans (by simp)
    · refine ((List.singleton_sublist.mpr ?_).cons _).cons₂ _
      exact List.mem_filter.mpr ⟨gemm_mem_hostTask.mpr ⟨hnm, hm, hk⟩, by simp; omega⟩
  · -- the writers after `k = 0` are `k = 1, ..., kt-1`, each with `beta = 1`
    obtain ⟨ks, hperm, hks⟩ := raceRest_writers hnm hm hloc hkt
    have h0 : ∀ k ∈ ks, k ≠ 0 := fun k hk => by
      have := List.mem_range'_1.mp (hperm.subset hk); omega
    rw [raceRun_tile hloc, hks, List.foldl_map, foldl_gemm_perm p m n hperm h0,
      List.foldl_ext _ (fun x k => gemmTile p.alpha (p.A m k) (p.A n k) 1 x) _ fun x k hk => by
        rw [List.mem_range'_1] at hk; simp only [Task.kernel, if_neg (by omega : k ≠ 0)],
      foldl_gemm_one, show 1 + (p.kt - 1) = p.kt by omega]

theorem hostTask_lost_update_failingProblem :
    0 < 1 ∧ 1 < failingProblem.mt ∧ failingProblem.isLocal 1 0 = true ∧ 2 ≤ failingProblem.kt ∧
      ∃ tr, Run (issueOrder failingProblem .hostTask) noDepend tr ∧
        (∀ t ∈ issueOrder failingProblem .hostTask, Event.finish t ∈ tr) ∧
        (∀ k, 0 < k -> k < failingProblem.kt ->
          [Task.gemm 1 0 0, Task.gemm 1 0 k].Sublist (finishes tr)) ∧
        syrkResultSplit failingProblem tr 1 0 =
          failingProblem.alpha • ∑ k in Finset.Ico 1 failingProblem.kt,
            failingProblem.A 1 k * (failingProblem.A 0 k).transpose + failingProblem.C 1 0 :=
  ⟨by decide, by decide, rfl, by decide, hostTask_lost_update (by decide) (by decide) rfl (by decide)⟩

end Syrk
end Slate
