import Mathlib
import Slate.Runtime.TaskGraph

/-!
# The four targets of `Matrix::syrk_impl`

`Matrix::syrk_impl` (src/slate_Matrix_syrk.cc) implements the case
`uplo = Lower`, `trans = NoTrans` of `C := alpha A A^T + beta C` for `A` of
`mt × kt` tiles and `C` of `mt × mt` tiles, once per target:

* `HostTask`: per block column `n` a task running `syrk(-1.0, a(n, 0), beta)` on
  `C(n, n)`, and per `m > n` and `k < kt` a task running
  `gemm(alpha, a(m, k), a(n, k), k == 0 ? beta : 1.0)` on `C(m, n)`;
* `HostNest`: the same diagonal tasks, then a `parallel for collapse(2)` over
  `(n, m)` running `gemm(alpha, a(m, 0), a(n, 0), beta)` on `C(m, n)` for
  `m ≥ n+1`;
* `HostBatch`: the same diagonal tasks and one `cblas_dgemm_batch` over every
  local `C(m, n)`, `m > n`, with `a(m, 0)`, `a(n, 0)`, `alpha` and `beta`,
  whose `group_size` and pointer arrays two loops count and fill;
* `Devices`: per device a task batching the same `gemm` over the local tiles
  it owns, whose pointer arrays the same kind of loop fills, then the
  diagonal tasks of the local diagonal tiles.

No task has a depend clause.  A task's kernels act on distinct tiles, so a
task is modelled as the tiles it writes and the kernel it applies to each.
-/

namespace Slate
namespace Syrk

open Runtime

/-- The targets `syrk_impl` is specialised for. -/
inductive Target
  | hostTask
  | hostNest
  | hostBatch
  | devices
  deriving DecidableEq, Repr

/-- An `nb × nb` tile. -/
abbrev Tile (K : Type*) (nb : Nat) := Matrix (Fin nb) (Fin nb) K

section Kernels

variable {K : Type*} [CommRing K] {nb : Nat}

/-- Modelled from the spec: `Tile::gemm(NoTrans, Trans, alpha, a, b, beta)`,
not in src/, as `c := alpha a b^T + beta c`. -/
def gemmTile (alpha : K) (a b : Tile K nb) (beta : K) (c : Tile K nb) : Tile K nb :=
  alpha • (a * b.transpose) + beta • c

/-- Modelled from the spec: `Tile::syrk(Lower, NoTrans, alpha, a, beta)`, not
in src/, as the lower triangle of `c := alpha a a^T + beta c`; the strict
upper triangle is left alone. -/
def syrkTile (alpha : K) (a : Tile K nb) (beta : K) (c : Tile K nb) : Tile K nb :=
  Matrix.of fun i j => if j ≤ i then gemmTile alpha a a beta c i j else c i j

end Kernels

/-- The operands of `syrk_impl`: `A` of `mt × kt` tiles (`a.nt_ = kt`), `C` of
`mt × mt` tiles, the scalars, `c.tileIsLocal`, `tileDevice` and the number of
devices. -/
structure Problem (K : Type*) (nb : Nat) where
  mt : Nat
  kt : Nat
  alpha : K
  beta : K
  A : Nat -> Nat -> Tile K nb
  C : Nat -> Nat -> Tile K nb
  isLocal : Nat -> Nat -> Bool
  tileDevice : Nat -> Nat -> Nat
  numDevices : Nat

/-- The tasks the targets create. -/
inductive Task
  /-- The `syrk` task of diagonal tile `n`. -/
  | diag (n : Nat)
  /-- `HostTask`: the `k`-th `gemm` task of tile `(m, n)`. -/
  | gemm (m n k : Nat)
  /-- `HostNest`: iteration `(n, m)` of the parallel loop. -/
  | nest (n m : Nat)
  /-- `HostBatch`: the `cblas_dgemm_batch` call. -/
  | batch
  /-- `Devices`: the task of device `d`. -/
  | device (d : Nat)
  deriving DecidableEq, Repr

variable {K : Type*} [CommRing K] {nb : Nat}

/-- The off-diagonal tiles a batch updates: local `(m, n)` with `m > n`, in the
order of the loops `n`, `m`. -/
def offDiag (p : Problem K nb) : List (Nat × Nat) :=
  (List.range p.mt).flatMap fun n =>
    ((List.range' (n + 1) (p.mt - (n + 1))).filter fun m => p.isLocal m n).map fun m => (m, n)

/-- `HostBatch`'s `group_size`: `++group_size` for each local `c(m, n)` in the
loops `n < c.nt_`, `n+1 <= m < c.mt_`. -/
def groupSize (p : Problem K nb) : Nat :=
  (List.range p.mt).foldl (fun g n =>
    (List.range' (n + 1) (p.mt - (n + 1))).foldl (fun g m => if p.isLocal m n then g + 1 else g) g) 0

/-- The loop filling the pointer arrays of a batch: for `n < c.nt_`,
`n+1 <= m < c.mt_`, when the tile `(m, n)` is kept, entry `i` of the arrays
gets the data of `a(m, 0)`, `a(n, 0)`, `c(m, n)`, then `++i`.  The three
arrays are one array of the tiles `(m, n)` they point into, unset entries
`none`; the result is the arrays and the final `i`. -/
def fillLoop (p : Problem K nb) (keep : Nat -> Nat -> Bool) : (Nat -> Option (Nat × Nat)) × Nat :=
  (List.range p.mt).foldl (fun acc n =>
    (List.range' (n + 1) (p.mt - (n + 1))).foldl (fun acc m =>
      if keep m n then (Function.update acc.1 acc.2 (some (m, n)), acc.2 + 1) else acc) acc)
    (fun _ => none, 0)

/-- `HostBatch`'s fill of `a_array`, `b_array`, `c_array`:
`if (c.tileIsLocal(m, n))`. -/
def fillBatch (p : Problem K nb) : (Nat -> Option (Nat × Nat)) × Nat :=
  fillLoop p fun m n => p.isLocal m n

/-- The fill of `a_array_h_[device]`, `b_array_h_[device]`,
`c_array_h_[device]` in the task of `device` of `Devices`:
`if (c.tileIsLocal(m, n)) if (device == tileDevice(m, n))`; the final `i` is
`batch_count`. -/
def fillDevice (p : Problem K nb) (d : Nat) : (Nat -> Option (Nat × Nat)) × Nat :=
  fillLoop p fun m n => p.isLocal m n && decide (d = p.tileDevice m n)

/-- The tasks a target creates, in the order the code creates them. -/
def issueOrder (p : Problem K nb) : Target -> List Task
  | .hostTask => (List.range p.mt).flatMap fun n =>
      .diag n :: (List.range' (n + 1) (p.mt - (n + 1))).flatMap fun m =>
        (List.range p.kt).map (.gemm m n)
  | .hostNest => (List.range p.mt).map .diag ++
      (List.range p.mt).flatMap fun n => (List.range p.mt).map (.nest n)
  | .hostBatch => (List.range p.mt).map .diag ++ [.batch]
  | .devices => (List.range p.numDevices).map .device ++
      ((List.range p.mt).filter fun n => p.isLocal n n).map .diag

/-- The tiles of `C` a task writes. -/
def Task.writes (p : Problem K nb) : Task -> List (Nat × Nat)
  | .diag n => if p.isLocal n n then [(n, n)] else []
  | .gemm m n _ => if p.isLocal m n then [(m, n)] else []
  | .nest n m => if n + 1 ≤ m ∧ p.isLocal m n then [(m, n)] else []
  | .batch => offDiag p
  | .device d => (offDiag p).filter fun t => p.tileDevice t.1 t.2 = d

/-- The kernel a task applies to tile `(m, n)` of `C`. -/
def Task.kernel (p : Problem K nb) : Task -> Nat -> Nat -> Tile K nb -> Tile K nb
  | .diag n, _, _ => syrkTile (-1) (p.A n 0) p.beta
  | .gemm m n k, _, _ => gemmTile p.alpha (p.A m k) (p.A n k) (if k = 0 then p.beta else 1)
  | .nest n m, _, _ => gemmTile p.alpha (p.A m 0) (p.A n 0) p.beta
  | .batch, m, n => gemmTile p.alpha (p.A m 0) (p.A n 0) p.beta
  | .device _, m, n => gemmTile p.alpha (p.A m 0) (p.A n 0) p.beta

/-- A task run atomically: its kernel on each tile it writes. -/
def Task.run (p : Problem K nb) (t : Task) (C : Nat -> Nat -> Tile K nb) :
    Nat -> Nat -> Tile K nb := fun m n =>
  if (m, n) ∈ t.writes p then t.kernel p m n (C m n) else C m n

/-- The tasks have no depend clauses. -/
def noDepend : Task -> Depend := fun _ => ⟨[], []⟩

/-- A task that read `C0` as it started, as it finishes: its kernel on each
tile it writes, applied to the value it read. -/
def Task.runFrom (p : Problem K nb) (t : Task) (C0 C : Nat -> Nat -> Tile K nb) :
    Nat -> Nat -> Tile K nb := fun m n =>
  if (m, n) ∈ t.writes p then t.kernel p m n (C0 m n) else C m n

@[simp] theorem Task.runFrom_self (p : Problem K nb) (t : Task) (C : Nat -> Nat -> Tile K nb) :
    t.runFrom p C C = t.run p C := rfl

/-- `C` once the tasks of the trace `tr` have run, each kernel atomic, acting
as its task finishes. -/
def syrkResult (p : Problem K nb) (tr : List (Event Task)) : Nat -> Nat -> Tile K nb :=
  replay (Task.run p) tr p.C

/-- `C` once the tasks of the trace `tr` have run, each task reading its tiles
of `C` as it starts and writing them as it finishes, as the in-place kernels
do: of two tasks on one tile that overlap, the later to finish overwrites the
other's update with one computed from what it read. -/
def syrkResultSplit (p : Problem K nb) (tr : List (Event Task)) : Nat -> Nat -> Tile K nb :=
  (replaySplit (Task.runFrom p) tr p.C).1

/-- What `syrk` is for: `alpha sum_k A(m, k) A(n, k)^T + beta C0(m, n)`. -/
def syrkSpec (p : Problem K nb) (m n : Nat) : Tile K nb :=
  p.alpha • ∑ k in Finset.range p.kt, p.A m k * (p.A n k).transpose + p.beta • p.C m n

/-- The lower triangle of `C` is that of `alpha A A^T + beta C0` on every local
tile: the whole tile below the diagonal, the lower triangle of a diagonal tile. -/
def SyrkCorrect (p : Problem K nb) (C : Nat -> Nat -> Tile K nb) : Prop :=
  ∀ m n, n ≤ m -> m < p.mt -> p.isLocal m n = true ->
    ∀ i j : Fin nb, (n < m ∨ j ≤ i) -> C m n i j = syrkSpec p m n i j

/-! ## Tile by tile -/

theorem noDepend_free (a b : Task) : ¬ (noDepend a).Conflicts (noDepend b) := by
  simp [noDepend, Depend.Conflicts]

theorem foldl_taskRun_apply (p : Problem K nb) (l : List Task) (C : Nat -> Nat -> Tile K nb)
    (m n : Nat) :
    l.foldl (fun C t => t.run p C) C m n =
      (l.filter fun t => decide ((m, n) ∈ t.writes p)).foldl (fun c t => t.kernel p m n c) (C m n) := by
  induction l generalizing C with
  | nil => rfl
  | cons t ts ih =>
      rw [List.foldl_cons, ih, List.filter_cons]
      by_cases h : (m, n) ∈ t.writes p <;> simp [h, Task.run]

theorem syrkResult_apply (p : Problem K nb) (tr : List (Event Task)) (m n : Nat) :
    syrkResult p tr m n =
      ((finishes tr).filter fun t => decide ((m, n) ∈ t.writes p)).foldl
        (fun c t => t.kernel p m n c) (p.C m n) := by
  rw [syrkResult, replay_eq_foldl, foldl_taskRun_apply]

/-- A tile with one writer `w` among the tasks of the order ends, in every
complete run, as `w`'s kernel applied once to its first value. -/
theorem syrkResult_of_unique_writer {p : Problem K nb} {order : List Task}
    {tr : List (Event Task)} (hrun : Run order noDepend tr)
    (hdone : ∀ t ∈ order, Event.finish t ∈ tr) {m n : Nat} {w : Task}
    (hw : ∀ t, t ∈ order ∧ (m, n) ∈ t.writes p ↔ t = w) :
    syrkResult p tr m n = w.kernel p m n (p.C m n) := by
  have hperm : ((finishes tr).filter fun t => decide ((m, n) ∈ t.writes p)).Perm [w] :=
    (List.perm_ext_iff_of_nodup (hrun.nodup_finishes.filter _) (List.nodup_singleton w)).mpr
      fun t => by simp [hrun.mem_finishes_iff hdone, hw]
  rw [syrkResult_apply, List.perm_singleton.mp hperm]
  rfl

theorem nodup_flatMap_of_key {α β : Type} {l : List α} {f : α -> List β} (key : β -> α)
    (hl : l.Nodup) (hf : ∀ a ∈ l, (f a).Nodup) (hkey : ∀ a ∈ l, ∀ b ∈ f a, key b = a) :
    (l.flatMap f).Nodup :=
  List.nodup_flatMap.mpr ⟨hf, hl.imp_of_mem fun ha hb hab x hxa hxb =>
    hab ((hkey _ ha x hxa).symm.trans (hkey _ hb x hxb))⟩

omit [CommRing K] in
theorem issueOrder_nodup (p : Problem K nb) (target : Target) : (issueOrder p target).Nodup := by
  have hmap : ∀ {f : Nat -> Task} (l : List Nat), l.Nodup -> (∀ a b, f a = f b -> a = b) ->
      (l.map f).Nodup := fun l hl hf => hl.map fun a b h => hf a b h
  cases target with
  | hostTask =>
      refine nodup_flatMap_of_key (fun | .gemm _ n _ => n | .diag n => n | _ => 0)
        (List.nodup_range _) (fun n _ => ?_) (fun n _ t ht => ?_)
      · refine List.nodup_cons.mpr ⟨by simp, nodup_flatMap_of_key
          (fun | .gemm m _ _ => m | _ => 0) (List.nodup_range' _ _) (fun m _ => ?_) ?_⟩
        · exact hmap _ (List.nodup_range _) fun a b h => by cases h; rfl
        · intro m _ t ht; obtain ⟨k, -, rfl⟩ := List.mem_map.mp ht; rfl
      · simp only [List.mem_cons, List.mem_flatMap, List.mem_map] at ht
        rcases ht with rfl | ⟨m, -, k, -, rfl⟩ <;> rfl
  | hostNest =>
      refine List.nodup_append.mpr ⟨hmap _ (List.nodup_range _) fun a b h => by cases h; rfl,
        nodup_flatMap_of_key (fun | .nest n _ => n | _ => 0) (List.nodup_range _)
          (fun n _ => hmap _ (List.nodup_range _) fun a b h => by cases h; rfl)
          (fun n _ t ht => by obtain ⟨m, -, rfl⟩ := List.mem_map.mp ht; rfl), ?_⟩
      intro t ht ht'
      obtain ⟨n, -, rfl⟩ := List.mem_map.mp ht
      simp at ht'
  | hostBatch =>
      exact List.nodup_append.mpr ⟨hmap _ (List.nodup_range _) fun a b h => by cases h; rfl,
        List.nodup_singleton _, by simp [List.Disjoint]⟩
  | devices =>
      refine List.nodup_append.mpr ⟨hmap _ (List.nodup_range _) fun a b h => by cases h; rfl,
        hmap _ ((List.nodup_range _).filter _) fun a b h => by cases h; rfl, ?_⟩
      intro t ht ht'
      obtain ⟨d, -, rfl⟩ := List.mem_map.mp ht
      simp at ht'

/-! ## The batches of `HostBatch` and `Devices` -/

section Batch

omit [CommRing K]

theorem update_getElem?_concat {β : Type*} (l : List β) (e : β) :
    Function.update (fun i => l[i]?) l.length (some e) = fun i => (l ++ [e])[i]? := by
  funext i
  rcases lt_trichotomy i l.length with h | rfl | h
  · rw [Function.update_noteq (Nat.ne_of_lt h), List.getElem?_append_left h]
  · simp
  · rw [Function.update_noteq (Nat.ne_of_gt h), List.getElem?_eq_none (Nat.le_of_lt h),
      List.getElem?_eq_none (by simp; omega)]

theorem foldl_count (p : Problem K nb) (n : Nat) (ms : List Nat) (g : Nat) :
    ms.foldl (fun g m => if p.isLocal m n then g + 1 else g) g =
      g + ((ms.filter fun m => p.isLocal m n).map fun m => (m, n)).length := by
  induction ms generalizing g with
  | nil => rfl
  | cons m ms ih => by_cases h : p.isLocal m n <;> simp [List.filter_cons, h, ih]; omega

theorem foldl_fill (keep : Nat -> Nat -> Bool) (n : Nat) (ms : List Nat) (pre : List (Nat × Nat)) :
    ms.foldl (fun (acc : (Nat -> Option (Nat × Nat)) × Nat) m =>
        if keep m n then (Function.update acc.1 acc.2 (some (m, n)), acc.2 + 1) else acc)
      ((fun i => pre[i]?), pre.length) =
      let l := pre ++ (ms.filter fun m => keep m n).map fun m => (m, n)
      ((fun i => l[i]?), l.length) := by
  induction ms generalizing pre with
  | nil => simp
  | cons m ms ih =>
      by_cases h : keep m n
      · rw [List.foldl_cons, if_pos h, update_getElem?_concat,
          show pre.length + 1 = (pre ++ [(m, n)]).length by simp, ih]
        simp [List.filter_cons, h]
      · rw [List.foldl_cons, if_neg h, ih]
        simp [List.filter_cons, h]

theorem foldl_count_blocks (p : Problem K nb) (ns : List Nat) (g : Nat) :
    ns.foldl (fun g n =>
        (List.range' (n + 1) (p.mt - (n + 1))).foldl (fun g m => if p.isLocal m n then g + 1 else g) g) g =
      g + (ns.flatMap fun n => ((List.range' (n + 1) (p.mt - (n + 1))).filter
        fun m => p.isLocal m n).map fun m => (m, n)).length := by
  induction ns generalizing g with
  | nil => rfl
  | cons n ns ih => rw [List.foldl_cons, foldl_count, ih]; simp; omega

theorem foldl_fill_blocks (p : Problem K nb) (keep : Nat -> Nat -> Bool) (ns : List Nat)
    (pre : List (Nat × Nat)) :
    ns.foldl (fun (acc : (Nat -> Option (Nat × Nat)) × Nat) n =>
        (List.range' (n + 1) (p.mt - (n + 1))).foldl (fun acc m =>
          if keep m n then (Function.update acc.1 acc.2 (some (m, n)), acc.2 + 1) else acc) acc)
      ((fun i => pre[i]?), pre.length) =
      let l := pre ++ ns.flatMap fun n => ((List.range' (n + 1) (p.mt - (n + 1))).filter
        fun m => keep m n).map fun m => (m, n)
      ((fun i => l[i]?), l.length) := by
  induction ns generalizing pre with
  | nil => simp
  | cons n ns ih => rw [List.foldl_cons, foldl_fill, ih]; simp

theorem fillLoop_eq (p : Problem K nb) (keep : Nat -> Nat -> Bool) :
    fillLoop p keep =
      let l := (List.range p.mt).flatMap fun n => ((List.range' (n + 1) (p.mt - (n + 1))).filter
        fun m => keep m n).map fun m => (m, n)
      ((fun i => l[i]?), l.length) :=
  (foldl_fill_blocks p keep (List.range p.mt) []).trans (by simp)

/-- The batches that `HostBatch` and each device's task of `Devices` hand to
`cblas_dgemm_batch` and `cublasDgemmBatched`: `HostBatch` counts as many tiles
as it batches and fills its pointer arrays at `0, ..., group_size - 1` with
the local tiles below the diagonal in the order of its loops, leaving every
entry at or beyond `group_size` unset, so the fill never writes past the
arrays of `group_size` entries; the task of device `d` fills entries
`0, ..., batch_count - 1` with the local tiles below the diagonal on `d`.  Each
batch is the tiles its task writes. -/
theorem batch_arrays (p : Problem K nb) :
    (groupSize p = (offDiag p).length ∧
        fillBatch p = ((fun i => ((Task.batch).writes p)[i]?), groupSize p)) ∧
      ∀ d, fillDevice p d = ((fun i => ((Task.device d).writes p)[i]?), ((Task.device d).writes p).length) := by
  have hg : groupSize p = (offDiag p).length := (foldl_count_blocks p _ 0).trans (Nat.zero_add _)
  refine ⟨⟨hg, by rw [fillBatch, fillLoop_eq, hg]; rfl⟩, fun d => ?_⟩
  rw [fillDevice, fillLoop_eq]
  -- the tiles kept on `d` are the local tiles below the diagonal on `d`
  have hl : ((List.range p.mt).flatMap fun n => ((List.range' (n + 1) (p.mt - (n + 1))).filter
      fun m => p.isLocal m n && decide (d = p.tileDevice m n)).map fun m => (m, n)) =
        (Task.device d).writes p := by
    simp only [Task.writes, offDiag, List.filter_flatMap, List.filter_map, List.filter_filter]
    refine congrArg _ (funext fun n => congrArg _ (List.filter_congr fun m _ => ?_))
    simp [Bool.and_comm, eq_comm]
  simp only [hl]

end Batch

end Syrk
end Slate
