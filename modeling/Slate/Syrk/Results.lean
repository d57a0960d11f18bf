import Slate.Syrk.Targets

/-!
# What each target of `syrk_impl` leaves in `C`

With each kernel atomic, as it finishes, in every run that finishes all tasks:

* every target leaves the lower triangle of a local diagonal tile as
  `-A(n, 0) A(n, 0)^T + beta C0(n, n)`, the kernel's hardcoded `-1.0` in place of
  `alpha` and only the first block column of `A`;
* `HostNest`, `HostBatch` and `Devices` leave a local tile below the diagonal as
  `alpha A(m, 0) A(n, 0)^T + beta C0(m, n)`, only the first block column of `A`;
* `HostTask` leaves it as its `kt` kernels applied in the order they finished,
  which is `alpha sum_k A(m, k) A(n, k)^T + beta C0(m, n)` when `k = 0` comes
  first and not in general.

Two tasks of one target write one tile only in `HostTask`, as two `gemm`
tasks of one tile that no depend clause orders, so they may run at once;
`Overlap` treats such runs with kernels that update `C` in place.  The batched targets agree
with the nested loop in every run, and `Devices` skips a tile whose
`tileDevice` is not one of its devices.
-/

namespace Slate
namespace Syrk

open Runtime

variable {K : Type*} [CommRing K] {nb : Nat} {p : Problem K nb}

omit [CommRing K] in
@[simp] theorem mem_offDiag {m n : Nat} :
    (m, n) ∈ offDiag p ↔ n < m ∧ m < p.mt ∧ p.isLocal m n = true := by
  simp only [offDiag, List.mem_flatMap, List.mem_range, List.mem_map, List.mem_filter,
    List.mem_range'_1, Prod.mk.injEq]
  constructor
  · rintro ⟨n', -, m', ⟨hm', hloc⟩, rfl, rfl⟩; exact ⟨by omega, by omega, hloc⟩
  · rintro ⟨hnm, hm, hloc⟩
    exact ⟨n, by omega, m, ⟨by omega, hloc⟩, rfl, rfl⟩

/-! ## The writers of each tile -/

omit [CommRing K] in
theorem lt_of_gemm_mem {target : Target} {m n k : Nat} (h : Task.gemm m n k ∈ issueOrder p target) :
    n < m ∧ target = .hostTask := by
  cases target <;> simp [issueOrder] at h
  exact ⟨by omega, rfl⟩

omit [CommRing K] in
theorem writes_diag_iff (target : Target) {n : Nat} (hn : n < p.mt) (hloc : p.isLocal n n = true)
    (t : Task) : t ∈ issueOrder p target ∧ (n, n) ∈ t.writes p ↔ t = .diag n := by
  constructor
  · rintro ⟨ht, hw⟩
    cases t with
    | diag n' => simp only [Task.writes] at hw; split_ifs at hw <;> simp_all
    | gemm m n' k =>
        simp only [Task.writes] at hw; split_ifs at hw <;> simp at hw
        have := (lt_of_gemm_mem ht).1; omega
    | nest n' m => simp only [Task.writes] at hw; split_ifs at hw <;> simp at hw; omega
    | batch => simp [Task.writes] at hw
    | device d => simp [Task.writes] at hw
  · rintro rfl
    cases target <;> simp [issueOrder, Task.writes, hloc, hn]

/-- The one writer of a local tile below the diagonal, for the targets that
batch the off-diagonal updates. -/
def belowWriter (p : Problem K nb) : Target -> Nat -> Nat -> Task
  | .hostNest, m, n => .nest n m
  | .hostBatch, _, _ => .batch
  | .devices, m, n => .device (p.tileDevice m n)
  | .hostTask, m, n => .gemm m n 0

omit [CommRing K] in
theorem writes_below_iff {target : Target} (htask : target ≠ .hostTask) {m n : Nat} (hnm : n < m)
    (hm : m < p.mt) (hloc : p.isLocal m n = true)
    (hdev : target = .devices -> p.tileDevice m n < p.numDevices) (t : Task) :
    t ∈ issueOrder p target ∧ (m, n) ∈ t.writes p ↔ t = belowWriter p target m n := by
  constructor
  · rintro ⟨ht, hw⟩
    cases t with
    | diag n' => simp only [Task.writes] at hw; split_ifs at hw <;> simp at hw; omega
    | gemm => exact absurd (lt_of_gemm_mem ht).2 htask
    | nest n' m' =>
        simp only [Task.writes] at hw; split_ifs at hw <;> simp at hw
        obtain ⟨rfl, rfl⟩ := hw
        cases target <;> simp [issueOrder, belowWriter] at ht htask ⊢
    | batch => cases target <;> simp [issueOrder, belowWriter] at ht htask ⊢
    | device d =>
        simp [Task.writes] at hw
        cases target <;> simp [issueOrder, belowWriter] at ht htask ⊢
        exact hw.2.symm
  · rintro rfl
    have hm' : ∃ i < p.mt - (n + 1), m = n + 1 + i := ⟨m - (n + 1), by omega, by omega⟩
    cases target <;> simp at htask <;>
      simp [issueOrder, belowWriter, Task.writes, hloc, hm, hnm, Nat.succ_le_of_lt hnm, hdev]
    omega

omit [CommRing K] in
theorem gemm_mem_hostTask {m n k : Nat} :
    Task.gemm m n k ∈ issueOrder p .hostTask ↔ n < m ∧ m < p.mt ∧ k < p.kt := by
  simp only [issueOrder, List.mem_flatMap, List.mem_cons, List.mem_map, List.mem_range,
    List.mem_range'_1, Task.gemm.injEq, reduceCtorEq, false_or]
  constructor
  · rintro ⟨n', -, m', hm', k', hk', rfl, rfl, rfl⟩; omega
  · rintro ⟨hnm, hm, hk⟩; exact ⟨n, by omega, m, by omega, k, hk, rfl, rfl, rfl⟩

omit [CommRing K] in
theorem writes_hostTask_below_iff {m n : Nat} (hnm : n < m) (hm : m < p.mt)
    (hloc : p.isLocal m n = true) (t : Task) :
    t ∈ issueOrder p .hostTask ∧ (m, n) ∈ t.writes p ↔ ∃ k < p.kt, t = .gemm m n k := by
  constructor
  · rintro ⟨ht, hw⟩
    cases t with
    | gemm m' n' k =>
        simp only [Task.writes] at hw; split_ifs at hw <;> simp at hw
        obtain ⟨rfl, rfl⟩ := hw
        exact ⟨k, (gemm_mem_hostTask.mp ht).2.2, rfl⟩
    | diag n' => simp only [Task.writes] at hw; split_ifs at hw <;> simp at hw; omega
    | _ => simp [issueOrder] at ht
  · rintro ⟨k, hk, rfl⟩
    exact ⟨gemm_mem_hostTask.mpr ⟨hnm, hm, hk⟩, by simp [Task.writes, hloc]⟩

theorem exists_indices_of_gemm {m n : Nat} (l : List Task) (hl : ∀ t ∈ l, ∃ k, t = .gemm m n k) :
    ∃ ks : List Nat, l = ks.map (.gemm m n) := by
  induction l with
  | nil => exact ⟨[], rfl⟩
  | cons t l ih =>
      obtain ⟨k, rfl⟩ := hl t (List.mem_cons_self _ _)
      obtain ⟨ks, rfl⟩ := ih fun t ht => hl t (List.mem_cons_of_mem _ ht)
      exact ⟨k :: ks, rfl⟩

/-- A repeat-free list of `gemm` tasks of tile `(m, n)` whose indices are those
of `S` is `S` in some order. -/
theorem exists_perm_of_gemm {m n : Nat} {l : List Task} (hnd : l.Nodup) {S : List Nat}
    (hS : S.Nodup) (hmem : ∀ t, t ∈ l ↔ ∃ k ∈ S, t = .gemm m n k) :
    ∃ ks : List Nat, ks.Perm S ∧ l = ks.map (.gemm m n) := by
  obtain ⟨ks, rfl⟩ := exists_indices_of_gemm l fun t ht => by
    obtain ⟨k, -, rfl⟩ := (hmem t).mp ht; exact ⟨k, rfl⟩
  refine ⟨ks, (List.perm_ext_iff_of_nodup (hnd.of_map _) hS).mpr fun k => ?_, rfl⟩
  simpa using hmem (.gemm m n k)

/-! ## Every complete run -/

section Complete

variable {target : Target} {tr : List (Event Task)}
  (hrun : Run (issueOrder p target) noDepend tr)
  (hdone : ∀ t ∈ issueOrder p target, Event.finish t ∈ tr)
include hrun hdone

theorem diag_of_complete {n : Nat} (hn : n < p.mt) (hloc : p.isLocal n n = true) :
    syrkResult p tr n n = syrkTile (-1) (p.A n 0) p.beta (p.C n n) :=
  syrkResult_of_unique_writer hrun hdone (writes_diag_iff target hn hloc)

theorem below_of_complete (htask : target ≠ .hostTask) {m n : Nat} (hnm : n < m) (hm : m < p.mt)
    (hloc : p.isLocal m n = true) (hdev : target = .devices -> p.tileDevice m n < p.numDevices) :
    syrkResult p tr m n = gemmTile p.alpha (p.A m 0) (p.A n 0) p.beta (p.C m n) := by
  rw [syrkResult_of_unique_writer hrun hdone (writes_below_iff htask hnm hm hloc hdev)]
  cases target <;> first | exact absurd rfl htask | rfl

omit [CommRing K] in
theorem hostTask_finishes_below (htask : target = .hostTask) {m n : Nat} (hnm : n < m)
    (hm : m < p.mt) (hloc : p.isLocal m n = true) :
    ∃ ks : List Nat, ks.Perm (List.range p.kt) ∧
      (finishes tr).filter (fun t => decide ((m, n) ∈ t.writes p)) = ks.map (.gemm m n) := by
  subst htask
  refine exists_perm_of_gemm (hrun.nodup_finishes.filter _) (List.nodup_range _) fun t => ?_
  simp [hrun.mem_finishes_iff hdone, writes_hostTask_below_iff hnm hm hloc]

theorem hostTask_below_of_complete (htask : target = .hostTask) {m n : Nat} (hnm : n < m)
    (hm : m < p.mt) (hloc : p.isLocal m n = true) :
    ∃ ks : List Nat, ks.Perm (List.range p.kt) ∧
      syrkResult p tr m n = ks.foldl (fun c k =>
        gemmTile p.alpha (p.A m k) (p.A n k) (if k = 0 then p.beta else 1) c) (p.C m n) := by
  obtain ⟨ks, hperm, hks⟩ := hostTask_finishes_below hrun hdone htask hnm hm hloc
  exact ⟨ks, hperm, by rw [syrkResult_apply, hks, List.foldl_map]; rfl⟩

end Complete

theorem foldl_gemm_range (p : Problem K nb) (m n : Nat) {c : Nat} (hc : 0 < c) :
    (List.range c).foldl (fun x k =>
        gemmTile p.alpha (p.A m k) (p.A n k) (if k = 0 then p.beta else 1) x) (p.C m n) =
      p.alpha • ∑ k in Finset.range c, p.A m k * (p.A n k).transpose + p.beta • p.C m n := by
  induction c with
  | zero => omega
  | succ c ih =>
      rw [List.range_succ, List.foldl_append, List.foldl_cons, List.foldl_nil]
      rcases Nat.eq_zero_or_pos c with rfl | hc'
      · simp [gemmTile]
      · rw [ih hc', gemmTile, if_neg (by omega), one_smul, Finset.sum_range_succ, smul_add,
          add_left_comm, add_assoc]

/-! ## A failing input -/

/-- Two block rows of `1 × 1` tiles, `kt = 2`, `alpha = 1`, `beta = 0`, `A` all
ones, `C` zero, every tile local, one device. -/
def failingProblem : Problem Int 1 :=
  ⟨2, 2, 1, 0, fun _ _ => 1, fun _ _ => 0, fun _ _ => true, fun _ _ => 0, 1⟩

theorem syrkSpec_failingProblem (m n : Nat) : syrkSpec failingProblem m n 0 0 = 2 := by
  simp [syrkSpec, failingProblem, Finset.sum_range_succ]
  rfl

/-- At the failing input no target is correct in any complete run: every
target leaves `C(0, 0) = -1` where `alpha A A^T + beta C0` has `2`, the three
batched targets leave `C(1, 0) = 1`, and `HostTask` leaves `C(1, 0) = 2` or `1`
depending on which of its two `gemm` tasks on that tile finishes first. -/
theorem syrk_impl_diverges :
    (∀ target tr, Run (issueOrder failingProblem target) noDepend tr ->
        (∀ t ∈ issueOrder failingProblem target, Event.finish t ∈ tr) ->
        syrkResult failingProblem tr 0 0 0 0 = -1 ∧
          ¬ SyrkCorrect failingProblem (syrkResult failingProblem tr)) ∧
      (∀ target tr, target ≠ .hostTask -> Run (issueOrder failingProblem target) noDepend tr ->
        (∀ t ∈ issueOrder failingProblem target, Event.finish t ∈ tr) ->
        syrkResult failingProblem tr 1 0 0 0 = 1) ∧
      ∃ tr₁ tr₂, (Run (issueOrder failingProblem .hostTask) noDepend tr₁ ∧
          ∀ t ∈ issueOrder failingProblem .hostTask, Event.finish t ∈ tr₁) ∧
        (Run (issueOrder failingProblem .hostTask) noDepend tr₂ ∧
          ∀ t ∈ issueOrder failingProblem .hostTask, Event.finish t ∈ tr₂) ∧
        syrkResult failingProblem tr₁ 1 0 0 0 = 2 ∧ syrkResult failingProblem tr₂ 1 0 0 0 = 1 := by
  refine ⟨fun target tr hrun hdone => ?_, fun target tr htask hrun hdone => ?_, ?_⟩
  · have h00 : syrkResult failingProblem tr 0 0 0 0 = -1 := by
      rw [diag_of_complete hrun hdone (by decide) rfl]
      simp [syrkTile, gemmTile, failingProblem]
    refine ⟨h00, fun hc => ?_⟩
    have := hc 0 0 le_rfl (by decide) rfl 0 0 (Or.inr le_rfl)
    rw [h00, syrkSpec_failingProblem] at this
    exact absurd this (by decide)
  · rw [below_of_complete hrun hdone htask (by decide) (by decide) rfl
      fun h => by subst h; decide]
    simp [gemmTile, failingProblem]
  · refine ⟨serial (issueOrder failingProblem .hostTask),
      serial [.diag 0, .gemm 1 0 1, .gemm 1 0 0, .diag 1], ⟨?_, by decide⟩,
      ⟨Run.serial_free noDepend_free (by decide) (by decide), by decide⟩, ?_, ?_⟩
    · exact Run.serial_free noDepend_free (issueOrder_nodup _ _) fun t ht => ht
    · rw [syrkResult_apply, finishes_serial]; decide
    · rw [syrkResult_apply, finishes_serial]; decide

/-! ## Tasks that write one tile -/

omit [CommRing K] in
theorem lower_of_mem_writes {target : Target} {t : Task} (ht : t ∈ issueOrder p target)
    {m n : Nat} (hw : (m, n) ∈ t.writes p) : n ≤ m ∧ m < p.mt ∧ p.isLocal m n = true := by
  cases t with
  | diag n' =>
      simp only [Task.writes, List.mem_ite_nil_right, List.mem_singleton, Prod.mk.injEq] at hw
      obtain ⟨h, rfl, rfl⟩ := hw
      cases target <;> simp [issueOrder] at ht <;> exact ⟨le_rfl, by omega, h⟩
  | gemm m' n' k =>
      simp only [Task.writes, List.mem_ite_nil_right, List.mem_singleton, Prod.mk.injEq] at hw
      obtain ⟨h, rfl, rfl⟩ := hw
      have := gemm_mem_hostTask.mp ((lt_of_gemm_mem ht).2 ▸ ht)
      exact ⟨by omega, this.2.1, h⟩
  | nest n' m' =>
      simp only [Task.writes, List.mem_ite_nil_right, List.mem_singleton, Prod.mk.injEq] at hw
      obtain ⟨⟨hle, h⟩, rfl, rfl⟩ := hw
      cases target <;> simp [issueOrder] at ht
      exact ⟨by omega, ht.2, h⟩
  | batch =>
      obtain ⟨hnm, hm, hloc⟩ := mem_offDiag.mp hw
      exact ⟨le_of_lt hnm, hm, hloc⟩
  | device d =>
      obtain ⟨hnm, hm, hloc⟩ := mem_offDiag.mp (List.mem_of_mem_filter hw)
      exact ⟨le_of_lt hnm, hm, hloc⟩

omit [CommRing K] in
theorem tileDevice_lt_of_mem_writes {t : Task} (ht : t ∈ issueOrder p .devices) {m n : Nat}
    (hnm : n < m) (hw : (m, n) ∈ t.writes p) : p.tileDevice m n < p.numDevices := by
  cases t <;> simp [issueOrder] at ht
  · simp only [Task.writes, List.mem_ite_nil_right, List.mem_singleton, Prod.mk.injEq] at hw; omega
  · simp only [Task.writes, List.mem_filter, decide_eq_true_eq] at hw
    rw [hw.2]; exact ht

omit [CommRing K] in
theorem eq_gemm_of_shared_write {target : Target} {t t' : Task} (ht : t ∈ issueOrder p target)
    (ht' : t' ∈ issueOrder p target) (hne : t ≠ t') {m n : Nat} (hw : (m, n) ∈ t.writes p)
    (hw' : (m, n) ∈ t'.writes p) :
    target = .hostTask ∧ ∃ k k', t = .gemm m n k ∧ t' = .gemm m n k' ∧ k < p.kt ∧ k' < p.kt ∧
      p.isLocal m n = true := by
  obtain ⟨hnm, hm, hloc⟩ := lower_of_mem_writes ht hw
  rcases Nat.eq_or_lt_of_le hnm with rfl | hnm
  · -- a diagonal tile has one writer in every target
    exact absurd (((writes_diag_iff target hm hloc t).mp ⟨ht, hw⟩).trans
      ((writes_diag_iff target hm hloc t').mp ⟨ht', hw'⟩).symm) hne
  by_cases htask : target = .hostTask
  · subst htask
    obtain ⟨k, hk, rfl⟩ := (writes_hostTask_below_iff hnm hm hloc t).mp ⟨ht, hw⟩
    obtain ⟨k', hk', rfl⟩ := (writes_hostTask_below_iff hnm hm hloc t').mp ⟨ht', hw'⟩
    exact ⟨rfl, k, k', rfl, rfl, hk, hk', hloc⟩
  · -- below the diagonal the batched targets have one writer
    have hdev : target = .devices -> p.tileDevice m n < p.numDevices := fun h => by
      subst h; exact tileDevice_lt_of_mem_writes ht hnm hw
    exact absurd (((writes_below_iff htask hnm hm hloc hdev t).mp ⟨ht, hw⟩).trans
      ((writes_below_iff htask hnm hm hloc hdev t').mp ⟨ht', hw'⟩).symm) hne

omit [CommRing K] in
/-- Two tasks of one target write a common tile of `C` exactly when the target
is `HostTask` and they are two `gemm` tasks of one local tile below the
diagonal, for different `k`; and no depend clause orders them: some run has
started both and finished neither.  In `HostNest`, `HostBatch` and `Devices`
no two tasks write one tile. -/
theorem syrk_write_conflicts (target : Target) {t t' : Task} (ht : t ∈ issueOrder p target)
    (ht' : t' ∈ issueOrder p target) (hne : t ≠ t') :
    ((∃ w, w ∈ t.writes p ∧ w ∈ t'.writes p) ↔
      target = .hostTask ∧
        ∃ m n k k', t = .gemm m n k ∧ t' = .gemm m n k' ∧ p.isLocal m n = true) ∧
      ∃ tr, Run (issueOrder p target) noDepend tr ∧ Event.start t ∈ tr ∧ Event.start t' ∈ tr ∧
        Event.finish t ∉ tr ∧ Event.finish t' ∉ tr := by
  refine ⟨⟨?_, ?_⟩, [.start t', .start t], ?_, by simp, by simp, by simp, by simp⟩
  · rintro ⟨⟨m, n⟩, hw, hw'⟩
    obtain ⟨htask, k, k', rfl, rfl, -, -, hloc⟩ := eq_gemm_of_shared_write ht ht' hne hw hw'
    exact ⟨htask, m, n, k, k', rfl, rfl, hloc⟩
  · rintro ⟨rfl, m, n, k, k', rfl, rfl, hloc⟩
    exact ⟨(m, n), by simp [Task.writes, hloc], by simp [Task.writes, hloc]⟩
  · -- with no depend clauses, nothing waits
    refine .start (.start .nil ht (by simp) fun a hw => absurd hw.2 (noDepend_free a t)) ht'
      (by simpa using hne.symm) fun a hw => absurd hw.2 (noDepend_free a t')

theorem syrk_write_conflicts_failingProblem :
    Task.gemm 1 0 0 ∈ issueOrder failingProblem .hostTask ∧
      Task.gemm 1 0 1 ∈ issueOrder failingProblem .hostTask ∧ Task.gemm 1 0 0 ≠ Task.gemm 1 0 1 ∧
      (((∃ w, w ∈ (Task.gemm 1 0 0).writes failingProblem ∧ w ∈ (Task.gemm 1 0 1).writes failingProblem) ↔
        Target.hostTask = .hostTask ∧ ∃ m n k k', Task.gemm 1 0 0 = .gemm m n k ∧
          Task.gemm 1 0 1 = .gemm m n k' ∧ failingProblem.isLocal m n = true) ∧
        ∃ tr, Run (issueOrder failingProblem .hostTask) noDepend tr ∧ Event.start (Task.gemm 1 0 0) ∈ tr ∧
          Event.start (Task.gemm 1 0 1) ∈ tr ∧ Event.finish (Task.gemm 1 0 0) ∉ tr ∧
          Event.finish (Task.gemm 1 0 1) ∉ tr) :=
  have h0 : Task.gemm 1 0 0 ∈ issueOrder failingProblem .hostTask := by decide
  have h1 : Task.gemm 1 0 1 ∈ issueOrder failingProblem .hostTask := by decide
  ⟨h0, h1, by decide, syrk_write_conflicts .hostTask h0 h1 (by decide)⟩

/-! ## Schedules of `HostTask` -/

theorem gemmTile_one_right_comm (alpha : K) (a b a' b' c : Tile K nb) :
    gemmTile alpha a' b' 1 (gemmTile alpha a b 1 c) = gemmTile alpha a b 1 (gemmTile alpha a' b' 1 c) := by
  simp only [gemmTile, one_smul]
  exact add_left_comm _ _ _

theorem foldl_gemm_perm (p : Problem K nb) (m n : Nat) {ks ks' : List Nat} (hperm : ks.Perm ks')
    (h0 : ∀ k ∈ ks, k ≠ 0) (c : Tile K nb) :
    ks.foldl (fun c k => (Task.gemm m n k).kernel p m n c) c =
      ks'.foldl (fun c k => (Task.gemm m n k).kernel p m n c) c :=
  hperm.foldl_eq' (fun k hk k' hk' c => by
    simp only [Task.kernel, if_neg (h0 k hk), if_neg (h0 k' hk')]
    exact gemmTile_one_right_comm _ _ _ _ _ _) c

/-- With atomic kernels, `HostTask` computes a local tile below the diagonal
right in every complete run in which the tile's `k = 0` task, the one that
applies `beta`, finishes before each of its other `gemm` tasks; the order of
those does not matter. -/
theorem syrkResult_hostTask_of_zero_first {tr : List (Event Task)}
    (hrun : Run (issueOrder p .hostTask) noDepend tr)
    (hdone : ∀ t ∈ issueOrder p .hostTask, Event.finish t ∈ tr) {m n : Nat} (hnm : n < m)
    (hm : m < p.mt) (hloc : p.isLocal m n = true) (hkt : 0 < p.kt)
    (hfirst : ∀ k, 0 < k -> k < p.kt -> [Task.gemm m n 0, Task.gemm m n k].Sublist (finishes tr)) :
    syrkResult p tr m n = syrkSpec p m n := by
  obtain ⟨ks, hperm, hks⟩ := hostTask_finishes_below hrun hdone rfl hnm hm hloc
  have hnd : ks.Nodup := hperm.nodup_iff.mpr (List.nodup_range _)
  -- the finished writers start with `k = 0`
  obtain ⟨rest, rfl⟩ : ∃ rest, ks = 0 :: rest := by
    rcases ks with _ | ⟨k0, rest⟩
    · exact absurd (hperm.mem_iff.mpr (List.mem_range.mpr hkt)) (List.not_mem_nil _)
    refine ⟨rest, congrArg (· :: rest) (by_contra fun hk0 => ?_)⟩
    have hk0lt : k0 < p.kt := List.mem_range.mp (hperm.subset (List.mem_cons_self _ _))
    have hsub := (hfirst k0 (Nat.pos_of_ne_zero hk0) hk0lt).filter
      fun t => decide ((m, n) ∈ t.writes p)
    have hpair : [Task.gemm m n 0, Task.gemm m n k0].filter
        (fun t => decide ((m, n) ∈ t.writes p)) = [Task.gemm m n 0, Task.gemm m n k0] := by
      simp [Task.writes, hloc]
    rw [hks, hpair, List.map_cons] at hsub
    rcases List.sublist_cons_iff.mp hsub with h | ⟨r, hr, -⟩
    · exact (List.nodup_cons.mp hnd).1 (by simpa using h.subset (by simp : Task.gemm m n k0 ∈ _))
    · cases hr
      exact hk0 rfl
  have hrange : List.range p.kt = 0 :: List.range' 1 (p.kt - 1) := by
    rw [List.range_eq_range', show p.kt = p.kt - 1 + 1 by omega, List.range'_succ]
    rfl
  have hrest : rest.Perm (List.range' 1 (p.kt - 1)) := (hrange ▸ hperm).cons_inv
  have h0 : ∀ k ∈ rest, k ≠ 0 := fun k hk h => (List.nodup_cons.mp hnd).1 (h ▸ hk)
  rw [syrkResult_apply, hks, List.foldl_map, List.foldl_cons]
  calc rest.foldl (fun c k => (Task.gemm m n k).kernel p m n c) ((Task.gemm m n 0).kernel p m n (p.C m n))
      = (List.range' 1 (p.kt - 1)).foldl (fun c k => (Task.gemm m n k).kernel p m n c)
          ((Task.gemm m n 0).kernel p m n (p.C m n)) := foldl_gemm_perm p m n hrest h0 _
    _ = (List.range p.kt).foldl (fun x k =>
          gemmTile p.alpha (p.A m k) (p.A n k) (if k = 0 then p.beta else 1) x) (p.C m n) := by
        rw [hrange]; rfl
    _ = syrkSpec p m n := foldl_gemm_range p m n hkt

/-! ## Tiles `Devices` skips -/

theorem syrkResult_of_no_writer {order : List Task} {tr : List (Event Task)}
    (hrun : Run order noDepend tr) {m n : Nat} (h : ∀ t ∈ order, (m, n) ∉ t.writes p) :
    syrkResult p tr m n = p.C m n := by
  rw [syrkResult_apply, List.filter_eq_nil_iff.mpr fun t ht => ?_, List.foldl_nil]
  simpa using h t (hrun.mem_of_started (hrun.started_of_finished (mem_finishes.mp ht)))

theorem devices_skips_tile {tr : List (Event Task)} (hrun : Run (issueOrder p .devices) noDepend tr)
    {m n : Nat} (hnm : n < m) (hdev : p.numDevices ≤ p.tileDevice m n) :
    syrkResult p tr m n = p.C m n :=
  syrkResult_of_no_writer hrun fun t ht hw => absurd (tileDevice_lt_of_mem_writes ht hnm hw) (by omega)

/-! ## The batched targets against the nested loop -/

/-- In every complete run of `HostNest`, `HostBatch` or `Devices` (every local
tile below the diagonal on a device), or of `HostTask` when `A` has one block
column, a local diagonal tile ends as `syrk(-1.0, A(n, 0), beta)`, a local
tile below the diagonal as `gemm(alpha, A(m, 0), A(n, 0), beta)`, and every
other tile as it was. -/
theorem syrkResult_batched {target : Target} (htask : target ≠ .hostTask ∨ p.kt = 1)
    (hdev : ∀ m n, n < m -> m < p.mt -> p.isLocal m n = true -> p.tileDevice m n < p.numDevices)
    {tr : List (Event Task)} (hrun : Run (issueOrder p target) noDepend tr)
    (hdone : ∀ t ∈ issueOrder p target, Event.finish t ∈ tr) (m n : Nat) :
    syrkResult p tr m n =
      if n ≤ m ∧ m < p.mt ∧ p.isLocal m n = true then
        if n = m then syrkTile (-1) (p.A n 0) p.beta (p.C n n)
        else gemmTile p.alpha (p.A m 0) (p.A n 0) p.beta (p.C m n)
      else p.C m n := by
  split_ifs with hlow heq
  · subst heq; exact diag_of_complete hrun hdone hlow.2.1 hlow.2.2
  · obtain ⟨hnm, hm, hloc⟩ := hlow
    have hnm : n < m := by omega
    by_cases ht : target = .hostTask
    · -- one block column: the one `gemm` task of the tile is that of `k = 0`
      obtain ⟨ks, hperm, hks⟩ := hostTask_below_of_complete hrun hdone ht hnm hm hloc
      rw [htask.resolve_left (not_not.mpr ht)] at hperm
      rw [hks, List.perm_singleton.mp (hperm : ks.Perm [0])]
      rfl
    · exact below_of_complete hrun hdone ht hnm hm hloc fun _ => hdev m n hnm hm hloc
  · exact syrkResult_of_no_writer hrun fun t ht hw => hlow (lower_of_mem_writes ht hw)

/-- The batched targets agree with the nested loop and with each other, and
none depends on the order its tasks run in: any two complete runs of
`HostNest`, `HostBatch` or `Devices`, with every local tile below the diagonal
on a device, leave the same `C`; so does `HostTask` when `A` has one block
column. -/
theorem syrk_targets_agree {target target' : Target} (htask : target ≠ .hostTask ∨ p.kt = 1)
    (htask' : target' ≠ .hostTask ∨ p.kt = 1)
    (hdev : ∀ m n, n < m -> m < p.mt -> p.isLocal m n = true -> p.tileDevice m n < p.numDevices)
    {tr tr' : List (Event Task)} (hrun : Run (issueOrder p target) noDepend tr)
    (hdone : ∀ t ∈ issueOrder p target, Event.finish t ∈ tr)
    (hrun' : Run (issueOrder p target') noDepend tr')
    (hdone' : ∀ t ∈ issueOrder p target', Event.finish t ∈ tr') :
    syrkResult p tr = syrkResult p tr' :=
  funext fun m => funext fun n => by
    rw [syrkResult_batched htask hdev hrun hdone, syrkResult_batched htask' hdev hrun' hdone']

theorem syrk_targets_agree_failingProblem :
    (Target.hostNest ≠ .hostTask ∨ failingProblem.kt = 1) ∧ (Target.devices ≠ .hostTask ∨ failingProblem.kt = 1) ∧
      (∀ m n, n < m -> m < failingProblem.mt -> failingProblem.isLocal m n = true ->
        failingProblem.tileDevice m n < failingProblem.numDevices) ∧
      Run (issueOrder failingProblem .hostNest) noDepend (serial (issueOrder failingProblem .hostNest)) ∧
      (∀ t ∈ issueOrder failingProblem .hostNest,
        Event.finish t ∈ serial (issueOrder failingProblem .hostNest)) ∧
      Run (issueOrder failingProblem .devices) noDepend (serial (issueOrder failingProblem .devices)) ∧
      (∀ t ∈ issueOrder failingProblem .devices,
        Event.finish t ∈ serial (issueOrder failingProblem .devices)) ∧
      syrkResult failingProblem (serial (issueOrder failingProblem .hostNest)) =
        syrkResult failingProblem (serial (issueOrder failingProblem .devices)) :=
  have hdev : ∀ m n, n < m -> m < failingProblem.mt -> failingProblem.isLocal m n = true ->
      failingProblem.tileDevice m n < failingProblem.numDevices := fun _ _ _ _ _ => Nat.one_pos
  have hrun := Run.serial_free noDepend_free (issueOrder_nodup failingProblem .hostNest) fun t ht => ht
  have hrun' := Run.serial_free noDepend_free (issueOrder_nodup failingProblem .devices) fun t ht => ht
  have hdone : ∀ t ∈ issueOrder failingProblem .hostNest,
      Event.finish t ∈ serial (issueOrder failingProblem .hostNest) := by decide
  have hdone' : ∀ t ∈ issueOrder failingProblem .devices,
      Event.finish t ∈ serial (issueOrder failingProblem .devices) := by decide
  ⟨.inl (by decide), .inl (by decide), hdev, hrun, hdone, hrun', hdone',
    syrk_targets_agree (.inl (by decide)) (.inl (by decide)) hdev hrun hdone hrun' hdone'⟩

end Syrk
end Slate
