import Slate.Stedc.Program

/-!
# `stedc_sort` on every run

The programs of `Program` are run by the MPI semantics of `Runtime.Mpi`, from
a start where every process holds the same `D` and has written no column of
`Qout`.  Every program is the projection of one choreography and every send
carries what its receiver expects, so the generic results apply: every
reachable configuration is where the sequential meaning puts each process, no
run deadlocks, and every run can be completed.

On a process of the grid whose row owns rows, a complete run leaves `D`
sorted and `Qout` column `k` equal to `Q` column `isort[k]`, each owned column
written once.  A process whose row owns no rows returns before it sorts `D`.
-/

namespace Slate
namespace Stedc

open Runtime

variable {α : Type*}

/-- What process `x` holds when it calls `stedc_sort`: the common `D`, and no
column of `Qout` written yet; `Qout` and `work` are any. -/
def start (D : List α) (l0 : Nat × Nat -> Local α) (x : Nat × Nat) : Local α :=
  { l0 x with D := D, writes := [] }

namespace Dist

variable (L : Dist)

/-- The grid positions `(myrow, mycol)`. -/
def grid : List (Nat × Nat) := (List.range L.nprow) ×ˢ (List.range L.npcol)

/-! ## The runs -/

section Runs

variable [Inhabited α] (Q : Nat -> Nat -> α) (isort : List Nat)

theorem stedcSort_match (a b : Nat × Nat) :
    sendsTo b (L.stedcSort Q isort a) = recvsFrom a (L.stedcSort Q isort b) :=
  sendsTo_eq_recvsFrom (L.comm_stedcSort Q isort) (fun _ => L.choreo_src_ne_dst _) a b

theorem stedcSort_buf (st0 : Nat × Nat -> Local α) (a : Nat × Nat) (i : Nat) (b k : Nat × Nat)
    (buf : Local α -> List (List α)) (h : (L.stedcSort Q isort a)[i]? = some (.send b k buf)) :
    buf (runExp (L.stedcSort Q isort) (L.expect Q (isortInv isort L.n)) st0 a i) =
      L.expect Q (isortInv isort L.n) a b k :=
  buf_of_blocks (L.stedcSort_eq_flatten Q isort) (L.send_of_blocks Q isort) a i b k buf h

variable {L Q isort} {eager : Bool} {st0 : Nat × Nat -> Local α} {c : Conf (Nat × Nat) (Local α) (List (List α)) (Nat × Nat)}

theorem stedcSort_inv (hc : Reachable (L.stedcSort Q isort) eager st0 c) :
    Inv (L.stedcSort Q isort) eager (L.expect Q (isortInv isort L.n)) st0 c :=
  hc.inv (L.stedcSort_match Q isort) (L.stedcSort_buf Q isort st0)

variable (L Q isort eager st0)

theorem stedcSort_of_not_mem_grid {x : Nat × Nat} (hx : x ∉ L.grid) : L.stedcSort Q isort x = [] := by
  rw [stedcSort, if_neg fun h => hx (List.mem_product.mpr
    ⟨List.mem_range.mpr h.1, List.mem_range.mpr h.2.1⟩)]

/-- Every run of `stedc_sort` can be completed: all processes reach the end. -/
theorem stedcSort_completes :
    ∃ c, Reachable (L.stedcSort Q isort) eager st0 c ∧
      ∀ x, c.pc x = (L.stedcSort Q isort x).length :=
  Reachable.exists_complete L.grid (fun _ => L.stedcSort_of_not_mem_grid Q isort)
    (L.comm_stedcSort Q isort) (fun _ => L.choreo_src_ne_dst _) (L.stedcSort_buf Q isort st0)
    Relation.ReflTransGen.refl

variable {L Q isort eager st0}

theorem stedcSort_final (hc : Reachable (L.stedcSort Q isort) eager st0 c)
    (hdone : ∀ x, c.pc x = (L.stedcSort Q isort x).length) {x : Nat × Nat}
    (hx : x.1 < L.nprow ∧ x.2 < L.npcol ∧ L.mlocal x.1 ≠ 0) :
    ∃ w, c.st x = { (sortD isort (st0 x)).putAll ((List.range L.nt).flatMap
        (L.mine Q (isortInv isort L.n) x.1 x.2)) with work := w } := by
  rw [(stedcSort_inv hc).st_of_complete hdone x]
  exact L.exec_stedcSort Q isort hx (st0 x)

theorem stedcSort_quick_return (hc : Reachable (L.stedcSort Q isort) eager st0 c)
    {x : Nat × Nat} (hx : L.mlocal x.1 = 0) : c.st x = st0 x := by
  have hprog : L.stedcSort Q isort x = [] := by
    rw [stedcSort, if_neg fun h => h.2.2 hx]
  have hpc := (stedcSort_inv hc).pc_le x
  rw [hprog, List.length_nil, Nat.le_zero] at hpc
  rw [(stedcSort_inv hc).st_eq, runExp, hpc, List.take_zero, List.foldl_nil]

end Runs

/-! ## The columns each process gets -/

theorem flatMap_mine (Q : Nat -> Nat -> α) (inv : Nat -> Nat) (r c : Nat) :
    (List.range L.nt).flatMap (L.mine Q inv r c) =
      ((List.range L.n).filter fun g => L.colOwner (inv g) = c).map
        fun g => (inv g, L.col Q r g) := by
  have hj : L.mine Q inv r c = fun j =>
      (((List.range (L.tileNb j)).map (L.jg j + ·)).filter fun g => L.colOwner (inv g) = c).map
        fun g => (inv g, L.col Q r g) := by
    funext j
    simp only [mine, dests, pcol, List.filter_map, List.map_map]
    rfl
  rw [hj, ← List.map_flatMap, ← List.filter_flatMap, flatMap_tiles_nt]

section Targets

variable {isort : List Nat} (hp : isort.Perm (List.range L.n)) (c : Nat)
include hp

theorem isortInv_injOn {g g' : Nat} (hg : g < L.n) (hg' : g' < L.n)
    (h : isortInv isort L.n g = isortInv isort L.n g') : g = g' := by
  rw [← (getD_isortInv hp hg).1, ← (getD_isortInv hp hg').1, h]

theorem targets_perm :
    (((List.range L.n).filter fun g => L.colOwner (isortInv isort L.n g) = c).map
        (isortInv isort L.n)).Perm ((List.range L.n).filter fun k => L.colOwner k = c) := by
  refine (List.perm_ext_iff_of_nodup ?_ ((List.nodup_range _).filter _)).mpr fun k => ?_
  · refine List.Nodup.map_on (fun g hg g' hg' => L.isortInv_injOn hp ?_ ?_)
      ((List.nodup_range _).filter _)
    · exact List.mem_range.mp (List.mem_of_mem_filter hg)
    · exact List.mem_range.mp (List.mem_of_mem_filter hg')
  · simp only [List.mem_map, List.mem_filter, List.mem_range, decide_eq_true_eq]
    constructor
    · rintro ⟨g, ⟨hg, hc⟩, rfl⟩
      exact ⟨(getD_isortInv hp hg).2, hc⟩
    · rintro ⟨hk, hc⟩
      exact ⟨isort.getD k 0, ⟨getD_mem hp hk, by rwa [isortInv_getD hp hk]⟩, isortInv_getD hp hk⟩

theorem mem_targets (Q : Nat -> Nat -> α) (r : Nat) {k : Nat} (hk : k < L.n)
    (hc : L.colOwner k = c) :
    (k, L.col Q r (isort.getD k 0)) ∈
      ((List.range L.n).filter fun g => L.colOwner (isortInv isort L.n g) = c).map
        fun g => (isortInv isort L.n g, L.col Q r g) := by
  refine List.mem_map.mpr ⟨isort.getD k 0, List.mem_filter.mpr ⟨List.mem_range.mpr (getD_mem hp hk), ?_⟩, ?_⟩
  · rw [isortInv_getD hp hk, hc, decide_eq_true_eq]
  · rw [isortInv_getD hp hk]

end Targets

end Dist

theorem map_getD_range {β : Type*} (l : List β) (d : β) :
    (List.range l.length).map (fun j => l.getD j d) = l :=
  List.ext_getElem (by simp) fun i h1 _ => by
    simp [List.getD_eq_getElem?_getD, List.getElem?_eq_getElem (by simpa using h1)]

theorem sortD_D [Inhabited α] {isort : List Nat} (l : Local α) (hlen : isort.length = l.D.length) :
    (sortD isort l).D = isort.map fun i => l.D.getD i default := by
  have h := congrArg (List.map fun i => l.D.getD i default) (map_getD_range isort 0)
  rw [List.map_map, hlen] at h
  exact h

/-! ## A complete run sorts `D` and applies the permutation to `Qout` -/

namespace Dist

variable [LinearOrder α] [Inhabited α]

/-- Once every process of the grid has run `stedc_sort` to the end, in
either mode of `MPI_Send`, each process whose row owns rows holds `D ∘ isort`,
nondecreasing and a permutation of `D`; column `k` of `Qout` on the process
column owning it holds, in each local row, the entry of column `isort[k]` of
`Q`; and the columns of `Qout` written are, once each, the columns it owns.
Such a complete run exists. -/
theorem stedcSort_correct (L : Dist) (Q : Nat -> Nat -> α) {D : List α} (S : SortPerm D)
    (hn : D.length = L.n) (l0 : Nat × Nat -> Local α) (eager : Bool) :
    (∃ c, Reachable (L.stedcSort Q S.isort) eager (start D l0) c ∧
        ∀ x, c.pc x = (L.stedcSort Q S.isort x).length) ∧
      ∀ c, Reachable (L.stedcSort Q S.isort) eager (start D l0) c ->
        (∀ x, c.pc x = (L.stedcSort Q S.isort x).length) ->
        ∀ x : Nat × Nat, x.1 < L.nprow -> x.2 < L.npcol -> L.mlocal x.1 ≠ 0 ->
          (c.st x).D = S.isort.map (fun i => D.getD i default) ∧
          (c.st x).D.Sorted (· ≤ ·) ∧ (c.st x).D.Perm D ∧
          (∀ k < L.n, L.colOwner k = x.2 ->
            (c.st x).Qout k = (L.localRows x.1).map fun i => Q i (S.isort.getD k 0)) ∧
          (c.st x).writes.Perm ((List.range L.n).filter fun k => L.colOwner k = x.2) := by
  refine ⟨L.stedcSort_completes Q S.isort eager _, fun c hc hdone x hr hc' hml => ?_⟩
  have hp : S.isort.Perm (List.range L.n) := hn ▸ S.perm
  obtain ⟨w, hst⟩ := stedcSort_final hc hdone ⟨hr, hc', hml⟩
  rw [flatMap_mine] at hst
  have hD : (c.st x).D = S.isort.map fun i => D.getD i default := by
    rw [hst]
    exact (Local.putAll_D _ _).trans
      (sortD_D (start D l0 x) (S.perm.length_eq.trans (List.length_range _)))
  have hnd := (L.targets_perm hp x.2).nodup_iff.mpr ((List.nodup_range _).filter _)
  refine ⟨hD, hD ▸ S.sorted, ?_, fun k hk hk' => ?_, ?_⟩
  · rw [hD]
    exact (S.perm.map _).trans (by rw [map_getD_range])
  · rw [hst]
    exact Local.Qout_putAll_of_mem _ (by rwa [List.map_map]) (L.mem_targets hp x.2 Q x.1 hk hk')
  · rw [hst]
    show ((sortD _ _).putAll _).writes.Perm _
    rw [Local.writes_putAll, List.map_map]
    exact L.targets_perm hp x.2

/-- A grid with more process rows than tile rows: one row of
`Q` in one tile row, two columns of width one, and two process rows of which
row `1` owns no rows. -/
def tallGrid : Dist := ⟨1, 2, 1, 1, 2, 2, by decide, by decide, by decide, by decide⟩

end Dist

/-- `std::sort` on `D = [2, 1]`. -/
def sortTwoOne : SortPerm [(2 : Nat), 1] := ⟨[1, 0], by decide, by decide⟩

namespace Dist

theorem stedcSort_correct_tallGrid :
    [(2 : Nat), 1].length = tallGrid.n ∧
      ((∃ c, Reachable (tallGrid.stedcSort (fun i k => 10 * i + k) sortTwoOne.isort) false
          (start [2, 1] fun _ => ⟨[], fun _ => [], fun _ => [], []⟩) c ∧
          ∀ x, c.pc x = (tallGrid.stedcSort (fun i k => 10 * i + k) sortTwoOne.isort x).length) ∧
        ∀ c, Reachable (tallGrid.stedcSort (fun i k => 10 * i + k) sortTwoOne.isort) false
          (start [2, 1] fun _ => ⟨[], fun _ => [], fun _ => [], []⟩) c ->
          (∀ x, c.pc x = (tallGrid.stedcSort (fun i k => 10 * i + k) sortTwoOne.isort x).length) ->
          ∀ x : Nat × Nat, x.1 < tallGrid.nprow -> x.2 < tallGrid.npcol -> tallGrid.mlocal x.1 ≠ 0 ->
            (c.st x).D = sortTwoOne.isort.map (fun i => [2, 1].getD i default) ∧
            (c.st x).D.Sorted (· ≤ ·) ∧ (c.st x).D.Perm [2, 1] ∧
            (∀ k < tallGrid.n, tallGrid.colOwner k = x.2 ->
              (c.st x).Qout k = (tallGrid.localRows x.1).map fun i => (fun i k => 10 * i + k) i (sortTwoOne.isort.getD k 0)) ∧
            (c.st x).writes.Perm ((List.range tallGrid.n).filter fun k => tallGrid.colOwner k = x.2)) :=
  ⟨rfl, stedcSort_correct tallGrid (fun i k => 10 * i + k) sortTwoOne rfl _ false⟩

/-! ## The messages of one tile column -/

section Messages

variable (L : Dist) (inv : Nat -> Nat)

theorem tileMsg_eq_some {j r p : Nat} {e : Msg (Nat × Nat) (Nat × Nat)}
    (h : L.tileMsg inv j r p = some e) :
    e.src = (r, j % L.npcol) ∧ e.dst = (r, p) ∧ e.tag.1 = j := by
  unfold tileMsg at h
  split_ifs at h
  cases h
  exact ⟨rfl, rfl, rfl⟩

theorem choreo_pair_tile {j r p : Nat} (hj : j < L.nt) (hr : r < L.nprow) (hp : p < L.npcol) :
    ((L.choreo inv).filterMap fun e =>
        if e.src = (r, j % L.npcol) ∧ e.dst = (r, p) then some e.tag else none).filter
          (·.1 = j) =
      if L.mlocal r ≠ 0 ∧ p ≠ j % L.npcol ∧ 0 < (L.dests inv j p).length then
        [(j, L.mlocal r * (L.dests inv j p).length)]
      else [] := by
  rw [choreo, List.filterMap_flatMap, List.filter_flatMap, flatMap_range_single hj fun j' _ hj' => ?_]
  · rw [List.filterMap_flatMap, List.filter_flatMap, flatMap_range_single hr fun r' _ hr' => ?_]
    · rw [List.filterMap_filterMap, List.filter_filterMap, filterMap_range_single hp fun p' _ hp' => ?_]
      · unfold tileMsg
        split_ifs <;> simp [Option.filter]
      · -- another destination column
        beta_reduce
        rcases he : L.tileMsg inv j r p' with _ | e
        · rfl
        · obtain ⟨-, hd, -⟩ := L.tileMsg_eq_some inv he
          rw [Option.some_bind, if_neg fun h => hp' (Prod.mk.inj (hd.symm.trans h.2)).2]
          rfl
    · -- another process row
      refine List.filter_eq_nil_iff.mpr fun t ht => ?_
      obtain ⟨e, he, het⟩ := List.mem_filterMap.mp ht
      obtain ⟨p', -, he⟩ := List.mem_filterMap.mp he
      obtain ⟨hs, -, -⟩ := L.tileMsg_eq_some inv he
      rw [if_neg fun h => hr' (Prod.mk.inj (hs.symm.trans h.1)).1] at het
      cases het
  · -- another tile column
    refine List.filter_eq_nil_iff.mpr fun t ht => ?_
    obtain ⟨e, he, het⟩ := List.mem_filterMap.mp ht
    obtain ⟨r', -, p', -, he⟩ := by simpa using he
    obtain ⟨-, -, htag⟩ := L.tileMsg_eq_some inv he
    split_ifs at het
    cases het
    rw [htag]
    simpa using hj'

end Messages

/-- For every tile column `j` and process row `r`, the owner `(r, j % npcol)`
sends to `(r, p)` for tile `j` once, with count `mlocal * pcnt[p]`, when the row
owns rows, `p` is another column and `pcnt[p] > 0`, and never otherwise; and
`(r, p)` posts exactly the matching receives.  With `MPI_Send` a rendezvous,
every receive that meets a send gets one of its own tile column and count, and
no reachable configuration with an unfinished process is stuck. -/
theorem stedcSort_messages [Inhabited α] (L : Dist) (Q : Nat -> Nat -> α) (isort : List Nat)
    (st0 : Nat × Nat -> Local α) :
    (∀ j < L.nt, ∀ r < L.nprow, ∀ p < L.npcol,
      (sendsTo (r, p) (L.stedcSort Q isort (r, j % L.npcol))).filter (·.1 = j) =
          (if L.mlocal r ≠ 0 ∧ p ≠ j % L.npcol ∧
              0 < (L.route (isortInv isort L.n) (j % L.npcol) j).1 p then
            [(j, L.mlocal r * (L.route (isortInv isort L.n) (j % L.npcol) j).1 p)]
          else []) ∧
        (recvsFrom (r, j % L.npcol) (L.stedcSort Q isort (r, p))).filter (·.1 = j) =
          (if L.mlocal r ≠ 0 ∧ p ≠ j % L.npcol ∧
              0 < (L.route (isortInv isort L.n) (j % L.npcol) j).1 p then
            [(j, L.mlocal r * (L.route (isortInv isort L.n) (j % L.npcol) j).1 p)]
          else [])) ∧
      (∀ c, Reachable (L.stedcSort Q isort) false st0 c ->
        ∀ a b k k' buf store, (L.stedcSort Q isort a)[c.pc a]? = some (.send b k buf) ->
          (L.stedcSort Q isort b)[c.pc b]? = some (.recv a k' store) -> k = k') ∧
      (∀ c, Reachable (L.stedcSort Q isort) false st0 c ->
        (∃ x, c.pc x < (L.stedcSort Q isort x).length) ->
          ∃ c', Step (L.stedcSort Q isort) false c c') := by
  have hσ := L.comm_stedcSort Q isort
  have hne : ∀ e ∈ L.choreo (isortInv isort L.n), e.src ≠ e.dst := fun _ => L.choreo_src_ne_dst _
  refine ⟨fun j hj r hr p hp => ?_, fun c hc a b k k' buf store ha hb => ?_,
    fun c hc hun => (stedcSort_inv hc).progress hσ hne hun⟩
  · have hmsgs := L.choreo_pair_tile (isortInv isort L.n) hj hr hp
    rw [← L.stedcSort_match Q isort, sendsTo_eq_msgs hσ hne, route_eq]
    exact ⟨hmsgs, hmsgs⟩
  · have hi := stedcSort_inv hc
    exact hi.tag_of_rendezvous (L.stedcSort_match Q isort) ha hb (hi.rendezvous_only rfl a b)

/-- On the tall grid, the owner of tile column `0` in process row `1` sends
nothing to column `1`, although column `1` is another column and gets a column
of the tile: the row owns no rows. -/
theorem stedcSort_silent_row :
    (1 : Nat) ≠ 0 % tallGrid.npcol ∧
      0 < (tallGrid.route (isortInv sortTwoOne.isort tallGrid.n) (0 % tallGrid.npcol) 0).1 1 ∧
      (sendsTo ((1 : Nat), (1 : Nat)) (tallGrid.stedcSort (fun _ _ => (0 : Nat)) sortTwoOne.isort
        (1, 0 % tallGrid.npcol))).filter (·.1 = 0) = [] := by
  decide

/-- On the tall grid, process `(1, 0)` returns before it sorts `D = [2, 1]`:
at the end of every run it still holds `[2, 1]`, which is not sorted, while
process `(0, 0)` holds `[1, 2]`.  Such runs exist. -/
theorem stedcSort_unsorted_row (l0 : Nat × Nat -> Local Nat) (eager : Bool) :
    (∃ c, Reachable (tallGrid.stedcSort (fun _ _ => 0) sortTwoOne.isort) eager (start [2, 1] l0) c ∧
        ∀ x, c.pc x = (tallGrid.stedcSort (fun _ _ => 0) sortTwoOne.isort x).length) ∧
      ∀ c, Reachable (tallGrid.stedcSort (fun _ _ => 0) sortTwoOne.isort) eager (start [2, 1] l0) c ->
        (∀ x, c.pc x = (tallGrid.stedcSort (fun _ _ => 0) sortTwoOne.isort x).length) ->
        (c.st (1, 0)).D = [2, 1] ∧ ¬(c.st (1, 0)).D.Sorted (· ≤ ·) ∧ (c.st (0, 0)).D = [1, 2] := by
  refine ⟨tallGrid.stedcSort_completes _ _ eager _, fun c hc hdone => ?_⟩
  have hq : (c.st (1, 0)).D = [2, 1] := by
    rw [stedcSort_quick_return hc (x := (1, 0)) (by decide)]
    rfl
  obtain ⟨w, hst⟩ := stedcSort_final hc hdone (x := (0, 0)) ⟨by decide, by decide, by decide⟩
  refine ⟨hq, by rw [hq]; decide, ?_⟩
  rw [hst]
  exact (Local.putAll_D _ _).trans (sortD_D (start [2, 1] l0 (0, 0)) rfl)

end Dist

end Stedc
end Slate
