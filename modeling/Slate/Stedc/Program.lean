import Slate.Runtime.Mpi
import Slate.Stedc.Permute

/-!
# The processes of `stedc_sort` and their messages

Each process of the grid runs `stedc_sort` as a straight-line program: unless
its process row owns no rows (the quick return on `mlocal == 0`), it sorts `D`
and then, for each tile column `j`, packs and sends when it owns the tile
(`pj == mycol`), or receives when some of the tile's columns are bound for it.
A message is a run of slots of `work`; its tag is the tile column and the
element count `mlocal * cnt`.

`choreo` lists every message of a run in the order of the loops, tile column,
then process row, then destination column: the program of every process is its
projection.
-/

namespace Slate
namespace Stedc

open Runtime

variable {α : Type*}

/-- An instruction of `stedc_sort`. -/
abbrev Op (α : Type*) := Instr (Nat × Nat) (Local α) (List (List α)) (Nat × Nat)

/-- `blas::copy( n, &D[0], 1, &work[0], 1 )`, then `D[ j ] = work[ isort[ j ] ]`
for `j < n`.  `work` holds the copy of `D` here; every later read of `work`
is of slots the same tile column wrote first, so the model leaves `work`. -/
def sortD [Inhabited α] (isort : List Nat) (l : Local α) : Local α :=
  { l with D := (List.range l.D.length).map fun j => l.D.getD (isort.getD j 0) default }

namespace Dist

variable (L : Dist) (Q : Nat -> Nat -> α) (inv : Nat -> Nat)

/-- The body of the loop over tile columns, for tile `j` on the process at
grid position `x = (myrow, mycol)`. -/
def tileOps (x : Nat × Nat) (j : Nat) : List (Op α) :=
  let pj := L.jg j / L.nb % L.npcol
  let pcnt := (L.route inv x.2 j).1
  let imine := (L.route inv x.2 j).2
  if pj = x.2 then
    .compute (L.pack Q inv x.1 x.2 j) ::
      (List.range L.npcol).filterMap fun p =>
        if p ≠ x.2 ∧ 0 < pcnt p ∧ x.1 < L.mt then
          some (.send (L.tileRank x.1 p) (j, L.mlocal x.1 * pcnt p)
            fun l => (List.range (pcnt p)).map fun u => l.work (poffset pcnt p + u))
        else none
  else if 0 < imine.length ∧ x.1 < L.mt then
    [.recv (L.tileRank x.1 pj) (j, L.mlocal x.1 * imine.length) (unpack imine)]
  else []

/-- The program of `stedc_sort` on grid position `x`, in blocks: the sort of
`D`, then one block per tile column; nothing after the quick return. -/
def blocks [Inhabited α] (isort : List Nat) (x : Nat × Nat) : List (List (Op α)) :=
  if x.1 < L.nprow ∧ x.2 < L.npcol ∧ L.mlocal x.1 ≠ 0 then
    [.compute (sortD isort)] :: (List.range L.nt).map (L.tileOps Q (isortInv isort L.n) x)
  else []

/-- `stedc_sort` on the process at grid position `x`. -/
def stedcSort [Inhabited α] (isort : List Nat) (x : Nat × Nat) : List (Op α) :=
  if x.1 < L.nprow ∧ x.2 < L.npcol ∧ L.mlocal x.1 ≠ 0 then
    .compute (sortD isort) :: (List.range L.nt).flatMap (L.tileOps Q (isortInv isort L.n) x)
  else []

theorem stedcSort_eq_flatten [Inhabited α] (isort : List Nat) (x : Nat × Nat) :
    L.stedcSort Q isort x = (L.blocks Q isort x).flatten := by
  unfold stedcSort blocks
  split_ifs <;> simp [List.flatMap]

/-! ## The choreography -/

/-- The message from the owner of tile column `j` in process row `r` to
process column `p`, if one is due: `p` is another column, some of the tile's
columns are bound for it, and the row owns rows. -/
def tileMsg (j r p : Nat) : Option (Msg (Nat × Nat) (Nat × Nat)) :=
  if L.mlocal r ≠ 0 ∧ p ≠ j % L.npcol ∧ 0 < (L.dests inv j p).length then
    some ⟨(r, j % L.npcol), (r, p), (j, L.mlocal r * (L.dests inv j p).length)⟩
  else none

/-- Every message of a run of `stedc_sort`, in loop order. -/
def choreo : List (Msg (Nat × Nat) (Nat × Nat)) :=
  (List.range L.nt).flatMap fun j =>
    (List.range L.nprow).flatMap fun r => (List.range L.npcol).filterMap (L.tileMsg inv j r)

theorem mem_choreo {e : Msg (Nat × Nat) (Nat × Nat)} :
    e ∈ L.choreo inv ↔ ∃ j < L.nt, ∃ r < L.nprow, ∃ p < L.npcol, L.tileMsg inv j r p = some e := by
  simp [choreo]

theorem choreo_src_ne_dst {e : Msg (Nat × Nat) (Nat × Nat)} (h : e ∈ L.choreo inv) :
    e.src ≠ e.dst := by
  obtain ⟨j, -, r, -, p, -, he⟩ := (L.mem_choreo inv).mp h
  unfold tileMsg at he
  split_ifs at he with hc
  cases he
  simpa using hc.2.1.symm

/-! ## Each program is the projection of the choreography -/

theorem filterMap_range_single {β : Type*} {f : Nat -> Option β} {n c : Nat} (hc : c < n)
    (h : ∀ p < n, p ≠ c -> f p = none) : (List.range n).filterMap f = (f c).toList := by
  induction n with
  | zero => omega
  | succ n ih =>
      rw [List.range_succ, List.filterMap_append]
      by_cases hcn : c = n
      · subst hcn
        rw [List.filterMap_eq_nil_iff.mpr fun p hp => h p (by simp at hp; omega)
          (by simp at hp; omega)]
        rcases hf : f c with _ | v <;> simp [List.filterMap_cons, hf]
      · rw [ih (by omega) fun p hp hpc => h p (by omega) hpc]
        simp [List.filterMap_cons, h n (by omega) (Ne.symm hcn)]

theorem flatMap_range_single {β : Type*} {f : Nat -> List β} {n c : Nat} (hc : c < n)
    (h : ∀ r < n, r ≠ c -> f r = []) : (List.range n).flatMap f = f c := by
  induction n with
  | zero => omega
  | succ n ih =>
      rw [List.range_succ, List.flatMap_append]
      by_cases hcn : c = n
      · subst hcn
        rw [List.flatMap_eq_nil_iff.mpr fun r hr => h r (by simp at hr; omega)
          (by simp at hr; omega)]
        simp
      · rw [ih (by omega) fun r hr hrc => h r (by omega) hrc]
        simp [h n (by omega) (Ne.symm hcn)]

theorem view_tileMsg (j r p : Nat) (x : Nat × Nat) :
    (L.tileMsg inv j r p).bind (Msg.view x) =
      if L.mlocal r ≠ 0 ∧ p ≠ j % L.npcol ∧ 0 < (L.dests inv j p).length then
        if (r, j % L.npcol) = x then
          some (.send (r, p) (j, L.mlocal r * (L.dests inv j p).length))
        else if (r, p) = x then
          some (.recv (r, j % L.npcol) (j, L.mlocal r * (L.dests inv j p).length))
        else none
      else none := by
  unfold tileMsg
  split_ifs <;> simp_all [Msg.view]

theorem tileRank_of_lt {r p : Nat} (hr : r < L.nprow) (hp : p < L.npcol) :
    L.tileRank r p = (r, p) := by
  simp [tileRank, Nat.mod_eq_of_lt hr, Nat.mod_eq_of_lt hp]

theorem pj_eq {j : Nat} (hj : j < L.nt) : L.jg j / L.nb % L.npcol = j % L.npcol := by
  rw [jg_of_lt L hj, Nat.mul_div_cancel _ L.nb_pos]

theorem comm_tileOps {x : Nat × Nat} (hx : x.1 < L.nprow ∧ x.2 < L.npcol ∧ L.mlocal x.1 ≠ 0)
    {j : Nat} (hj : j < L.nt) :
    (L.tileOps Q inv x j).filterMap Instr.comm =
      ((List.range L.nprow).flatMap fun r =>
        (List.range L.npcol).filterMap (L.tileMsg inv j r)).filterMap (Msg.view x) := by
  obtain ⟨hr, hc, hml⟩ := hx
  have hmt := L.lt_mt_of_mlocal hml
  rw [List.filterMap_flatMap, flatMap_range_single hr fun r _ hrx => by
    rw [List.filterMap_filterMap, List.filterMap_eq_nil_iff]
    intro p _
    rw [view_tileMsg]
    split_ifs <;> simp_all [Prod.ext_iff]]
  rw [List.filterMap_filterMap]
  unfold tileOps
  simp only [pj_eq L hj, route_eq, List.length_map]
  by_cases howner : j % L.npcol = x.2
  · -- the owner: one send per other column that gets columns
    rw [if_pos howner, List.filterMap_cons, Instr.comm, List.filterMap_filterMap]
    refine List.filterMap_congr fun p hp => ?_
    rw [List.mem_range] at hp
    rw [view_tileMsg, tileRank_of_lt L hr hp]
    by_cases hcond : p ≠ x.2 ∧ 0 < (L.dests inv j p).length
    · simp [hcond, hmt, hml, howner, Instr.comm]
    · simp only [hml, hmt, howner, ne_eq, not_false_eq_true, true_and, and_true] at hcond ⊢
      rw [if_neg hcond, if_neg hcond]; rfl
  · -- another process: at most one receive, from the owner
    rw [if_neg howner, filterMap_range_single hc fun p _ hpx => by
      rw [view_tileMsg]; split_ifs <;> simp_all [Prod.ext_iff]]
    rw [view_tileMsg, tileRank_of_lt L hr (Nat.mod_lt _ L.npcol_pos)]
    by_cases hpos : 0 < (L.dests inv j x.2).length
    · have hne : x.2 ≠ j % L.npcol := Ne.symm howner
      simp [hpos, hmt, hml, hne, Prod.ext_iff, howner, Instr.comm]
    · simp [hpos]

theorem comm_stedcSort [Inhabited α] (isort : List Nat) (x : Nat × Nat) :
    (L.stedcSort Q isort x).filterMap Instr.comm = proj (L.choreo (isortInv isort L.n)) x := by
  unfold stedcSort
  split_ifs with hx
  · rw [List.filterMap_cons, Instr.comm, List.filterMap_flatMap, proj, choreo,
      List.filterMap_flatMap]
    exact List.flatMap_congr fun j hj => L.comm_tileOps Q _ hx (List.mem_range.mp hj)
  · refine (List.filterMap_eq_nil_iff.mpr fun e he => ?_).symm
    obtain ⟨j, hj, r, hr, p, hp, he⟩ := (L.mem_choreo _).mp he
    have := L.view_tileMsg (isortInv isort L.n) j r p x
    rw [he, Option.some_bind] at this
    rw [this]
    have hjp := Nat.mod_lt j L.npcol_pos
    split_ifs <;> simp_all [Prod.ext_iff]

/-! ## What the programs compute -/

/-- The data the send of tile `j` from the owner in row `a.1` to the process
column `b.2` carries. -/
def expect (a b k : Nat × Nat) : List (List α) := L.payload Q inv a.1 k.1 b.2

omit L Q inv in
theorem foldl_exec_of_sends {e : Nat × Nat -> Nat × Nat -> Nat × Nat -> List (List α)}
    {x : Nat × Nat} {ops : List (Op α)} (h : ∀ i ∈ ops, ∃ b k buf, i = .send b k buf)
    (l : Local α) : ops.foldl (Instr.exec e x) l = l := by
  induction ops with
  | nil => rfl
  | cons i ops ih =>
      obtain ⟨b, k, buf, rfl⟩ := h i (List.mem_cons_self _ _)
      exact ih fun i hi => h i (List.mem_cons_of_mem _ hi)

omit L Q inv in
theorem send_of_mem_filterMap {β : Type*} {l : List β} {c : β -> Prop} [DecidablePred c]
    {b k : β -> Nat × Nat} {buf : β -> Local α -> List (List α)} {i : Op α}
    (h : i ∈ l.filterMap fun p => if c p then some (.send (b p) (k p) (buf p)) else none) :
    ∃ b k buf, i = .send b k buf := by
  obtain ⟨q, -, hq⟩ := List.mem_filterMap.mp h
  split_ifs at hq
  exact ⟨_, _, _, (Option.some.inj hq).symm⟩

theorem send_of_blocks [Inhabited α] (isort : List Nat) (a : Nat × Nat) :
    ∀ bl ∈ L.blocks Q isort a, ∀ (s : Nat) (b k : Nat × Nat) (buf : Local α -> List (List α)),
      bl[s]? = some (.send b k buf) -> ∀ l,
        buf ((bl.take s).foldl (Instr.exec (L.expect Q (isortInv isort L.n)) a) l) =
          L.expect Q (isortInv isort L.n) a b k := by
  intro bl hbl s b k buf hs l
  unfold blocks at hbl
  split_ifs at hbl with ha
  · rcases List.mem_cons.mp hbl with rfl | hbl
    · rcases s with _ | s <;> simp at hs
    · obtain ⟨j, -, rfl⟩ := List.mem_map.mp hbl
      simp only [tileOps] at hs ⊢
      by_cases howner : L.jg j / L.nb % L.npcol = a.2
      · rw [if_pos howner] at hs ⊢
        rcases s with _ | s
        · simp at hs
        · rw [List.getElem?_cons_succ] at hs
          obtain ⟨p, hp, hsend⟩ := List.mem_filterMap.mp (List.mem_iff_getElem?.mpr ⟨_, hs⟩)
          split_ifs at hsend with hcond
          simp only [Option.some.injEq, Instr.send.injEq] at hsend
          obtain ⟨rfl, rfl, rfl⟩ := hsend
          rw [List.take_succ_cons, List.foldl_cons,
            foldl_exec_of_sends fun i hi => send_of_mem_filterMap (List.mem_of_mem_take hi)]
          refine ((L.pack_spec Q _ a.1 a.2 j l).2.2.2 p hcond.1).trans ?_
          rw [expect, tileRank_of_lt L ha.1 (List.mem_range.mp hp)]
      · rw [if_neg howner] at hs
        split_ifs at hs
        · rcases s with _ | s <;> simp at hs
        · simp at hs
  · simp at hbl

theorem exec_tileOps {x : Nat × Nat} (hx : x.1 < L.nprow ∧ x.2 < L.npcol ∧ L.mlocal x.1 ≠ 0)
    {j : Nat} (hj : j < L.nt) (l : Local α) :
    ∃ w, (L.tileOps Q inv x j).foldl (Instr.exec (L.expect Q inv) x) l =
      { l.putAll (L.mine Q inv x.1 x.2 j) with work := w } := by
  have hmt := L.lt_mt_of_mlocal hx.2.2
  simp only [tileOps, pj_eq L hj]
  by_cases howner : j % L.npcol = x.2
  · rw [if_pos howner, List.foldl_cons, foldl_exec_of_sends fun i hi => send_of_mem_filterMap hi]
    obtain ⟨hD, hQ, hW, -⟩ := L.pack_spec Q inv x.1 x.2 j l
    exact ⟨(L.pack Q inv x.1 x.2 j l).work, Local.ext (hD.trans (Local.putAll_D _ _).symm) hQ rfl hW⟩
  · rw [if_neg howner]
    simp only [route_eq, List.length_map]
    by_cases hrecv : 0 < (L.dests inv j x.2).length
    · rw [if_pos ⟨hrecv, hmt⟩, List.foldl_cons, List.foldl_nil, Instr.exec, expect,
        tileRank_of_lt L hx.1 (Nat.mod_lt _ L.npcol_pos), payload, unpack_eq]
      exact ⟨_, rfl⟩
    · rw [if_neg fun h => hrecv h.1, List.foldl_nil]
      have h0 : L.dests inv j x.2 = [] := List.eq_nil_of_length_eq_zero (by omega)
      exact ⟨l.work, by simp [mine, h0]⟩

theorem exec_stedcSort [Inhabited α] (isort : List Nat) {x : Nat × Nat}
    (hx : x.1 < L.nprow ∧ x.2 < L.npcol ∧ L.mlocal x.1 ≠ 0) (l : Local α) :
    ∃ w, (L.stedcSort Q isort x).foldl (Instr.exec (L.expect Q (isortInv isort L.n)) x) l =
      { (sortD isort l).putAll ((List.range L.nt).flatMap
          (L.mine Q (isortInv isort L.n) x.1 x.2)) with work := w } := by
  rw [stedcSort, if_pos hx, List.foldl_cons]
  suffices h : ∀ js : List Nat, (∀ j ∈ js, j < L.nt) -> ∀ l' : Local α, ∃ w,
      (js.flatMap (L.tileOps Q (isortInv isort L.n) x)).foldl
        (Instr.exec (L.expect Q (isortInv isort L.n)) x) l' =
        { l'.putAll (js.flatMap (L.mine Q (isortInv isort L.n) x.1 x.2)) with work := w } from
    h _ (fun j hj => List.mem_range.mp hj) _
  intro js
  induction js with
  | nil => exact fun _ l' => ⟨l'.work, rfl⟩
  | cons j js ih =>
      intro hjs l'
      obtain ⟨w1, h1⟩ := L.exec_tileOps Q _ hx (hjs j (List.mem_cons_self _ _)) l'
      obtain ⟨w2, h2⟩ := ih (fun j hj => hjs j (List.mem_cons_of_mem _ hj)) _
      refine ⟨w2, ?_⟩
      rw [List.flatMap_cons, List.foldl_append, h1, h2, Local.putAll_work, List.flatMap_cons,
        Local.putAll_append]

end Dist

end Stedc
end Slate
