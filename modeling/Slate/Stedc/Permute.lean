import Slate.Stedc.Layout

/-!
# Applying the sort permutation in `stedc_sort`

Every process sorts the eigenvalues `D` and computes `isort_inv`, then walks
the tile columns `j` of `Q`.  For each column `jg + jj` of tile `j` it finds the
column `kg = isort_inv[jg + jj]` of `Qout` the column goes to, and the process
column `pk` owning it, counting how many go to each process column (`pcnt`) and
listing those bound for its own (`imine`).  The owner of tile `j` copies the
columns bound for itself straight into `Qout` and packs the others into `work`,
grouped by destination at the running offsets `poffset`; another process
receives its group and copies it into `Qout`.

A column of `Q` or `Qout` is held as the list of its entries in the process's
local rows, the list `copy_col` reads or writes; slot `kk` of `work` stands for
`&work[kk * mlocal]`, the `mlocal` entries of one column.
-/

namespace Slate
namespace Stedc

/-- `std::sort` of `isort = 0, 1, ..., n-1` under `D[i_] < D[j_]`: a
permutation of the indices under which `D` is nondecreasing.  `std::sort` is
not stable: on ties the order is the library's, the same on every process,
since every process sorts the same `D`. -/
structure SortPerm {α : Type*} [LinearOrder α] [Inhabited α] (D : List α) where
  isort : List Nat
  perm : isort.Perm (List.range D.length)
  sorted : (isort.map fun i => D.getD i default).Sorted (· ≤ ·)

/-- `isort_inv`: from `std::vector<int64_t> isort_inv( n )`, the loop sets
`isort_inv[ isort[ j ] ] = j` for `j < n`. -/
def isortInv (isort : List Nat) (n : Nat) : Nat -> Nat :=
  (List.range n).foldl (fun inv j => Function.update inv (isort.getD j 0) j) fun _ => 0

section Inverse

variable {isort : List Nat} {n : Nat}

theorem getD_mem (hp : isort.Perm (List.range n)) {j : Nat} (hj : j < n) :
    isort.getD j 0 < n := by
  have hlen := hp.length_eq
  rw [List.length_range] at hlen
  rw [List.getD_eq_getElem?_getD, List.getElem?_eq_getElem (by omega), Option.getD_some]
  exact List.mem_range.mp (hp.mem_iff.mp (List.getElem_mem _))

theorem isortInv_getD (hp : isort.Perm (List.range n)) {j : Nat} (hj : j < n) :
    isortInv isort n (isort.getD j 0) = j := by
  have hlen : isort.length = n := by simpa using hp.length_eq
  have hnd : isort.Nodup := hp.nodup_iff.mpr (List.nodup_range n)
  have key : ∀ t ≤ n, ∀ j < t,
      (List.range t).foldl (fun inv j => Function.update inv (isort.getD j 0) j) (fun _ => 0)
        (isort.getD j 0) = j := by
    intro t
    induction t with
    | zero => intro _ j hj; omega
    | succ t ih =>
        intro ht j hj
        rw [List.range_succ, List.foldl_append, List.foldl_cons, List.foldl_nil]
        by_cases hjt : j = t
        · subst hjt; simp
        · rw [Function.update_noteq, ih (by omega) j (by omega)]
          simp only [List.getD_eq_getElem?_getD, List.getElem?_eq_getElem (show j < isort.length by omega),
            List.getElem?_eq_getElem (show t < isort.length by omega), Option.getD_some]
          exact fun h => hjt ((hnd.getElem_inj_iff).mp h)
  exact key n le_rfl j hj

theorem getD_isortInv (hp : isort.Perm (List.range n)) {g : Nat} (hg : g < n) :
    isort.getD (isortInv isort n g) 0 = g ∧ isortInv isort n g < n := by
  obtain ⟨j, hj, hjg⟩ := List.mem_iff_getElem.mp (hp.mem_iff.mpr (List.mem_range.mpr hg))
  have hlen : isort.length = n := by simpa using hp.length_eq
  have hd : isort.getD j 0 = g := by
    rw [List.getD_eq_getElem?_getD, List.getElem?_eq_getElem hj, Option.getD_some, hjg]
  rw [← hd, isortInv_getD hp (by omega)]
  exact ⟨rfl, by omega⟩

/-- For every permutation `isort` of `0, ..., n-1`, the loop setting
`isort_inv[ isort[ j ] ] = j` builds its inverse: `isort_inv ∘ isort` and
`isort ∘ isort_inv` are the identity on `0, ..., n-1`, and `isort_inv` permutes
`0, ..., n-1` too. -/
theorem isortInv_inverse (hp : isort.Perm (List.range n)) :
    (∀ j < n, isortInv isort n (isort.getD j 0) = j) ∧
      (∀ g < n, isort.getD (isortInv isort n g) 0 = g) ∧
      ((List.range n).map (isortInv isort n)).Perm (List.range n) := by
  refine ⟨fun j hj => isortInv_getD hp hj, fun g hg => (getD_isortInv hp hg).1,
    (List.perm_ext_iff_of_nodup ?_ (List.nodup_range n)).mpr fun k => ?_⟩
  · refine (List.nodup_range n).map_on fun a ha b hb h => ?_
    rw [← (getD_isortInv hp (List.mem_range.mp ha)).1, ← (getD_isortInv hp (List.mem_range.mp hb)).1, h]
  · simp only [List.mem_map, List.mem_range]
    exact ⟨fun ⟨g, hg, hk⟩ => hk ▸ (getD_isortInv hp hg).2,
      fun hk => ⟨isort.getD k 0, getD_mem hp hk, isortInv_getD hp hk⟩⟩

theorem isortInv_inverse_swap :
    [1, 0].Perm (List.range 2) ∧
      (∀ j < 2, isortInv [1, 0] 2 ([1, 0].getD j 0) = j) ∧
      (∀ g < 2, [1, 0].getD (isortInv [1, 0] 2 g) 0 = g) ∧
      ((List.range 2).map (isortInv [1, 0] 2)).Perm (List.range 2) :=
  have hp : [1, 0].Perm (List.range 2) := by decide
  ⟨hp, isortInv_inverse hp⟩

end Inverse

namespace Dist

variable (L : Dist)

/-! ## The routing of one tile column -/

/-- `pcols[jj] = (isort_inv[jg + jj] / nb) % npcol`: where column `jj` of
tile `j` goes. -/
def pcol (inv : Nat -> Nat) (j jj : Nat) : Nat := L.colOwner (inv (L.jg j + jj))

/-- The columns `jj` of tile `j` bound for process column `p`, in order. -/
def dests (inv : Nat -> Nat) (j p : Nat) : List Nat :=
  (List.range (L.tileNb j)).filter fun jj => L.pcol inv j jj = p

/-- The loop over `jj < jb` of tile `j` on process column `mycol`: after
`std::fill` and `imine.clear()`, each column adds one to `pcnt[pk]`, and
`imine` collects `kg` when `pk == mycol`. -/
def route (inv : Nat -> Nat) (mycol j : Nat) : (Nat -> Nat) × List Nat :=
  (List.range (L.tileNb j)).foldl (fun acc jj =>
    let kg := inv (L.jg j + jj)
    let pk := L.colOwner kg
    (Function.update acc.1 pk (acc.1 pk + 1), if pk = mycol then acc.2 ++ [kg] else acc.2))
    (fun _ => 0, [])

theorem route_eq (inv : Nat -> Nat) (mycol j : Nat) :
    L.route inv mycol j =
      (fun p => (L.dests inv j p).length, (L.dests inv j mycol).map fun jj => inv (L.jg j + jj)) := by
  suffices h : ∀ t, (List.range t).foldl (fun acc jj =>
      let kg := inv (L.jg j + jj)
      let pk := L.colOwner kg
      (Function.update acc.1 pk (acc.1 pk + 1), if pk = mycol then acc.2 ++ [kg] else acc.2))
      ((fun _ => 0, []) : (Nat -> Nat) × List Nat) =
        (fun p => ((List.range t).filter fun jj => L.pcol inv j jj = p).length,
          ((List.range t).filter fun jj => L.pcol inv j jj = mycol).map fun jj => inv (L.jg j + jj))
    from h _
  intro t
  induction t with
  | zero => rfl
  | succ t ih =>
      rw [List.range_succ, List.foldl_append, ih]
      simp only [List.foldl_cons, List.foldl_nil, List.filter_append, List.filter_singleton,
        Prod.mk.injEq]
      refine ⟨funext fun p => ?_, ?_⟩
      · simp only [Function.update_apply, pcol]
        split_ifs with h
        · subst h; simp
        · simp [Ne.symm h]
      · by_cases hp : L.pcol inv j t = mycol <;> simp only [pcol] at hp <;> simp [hp, pcol]

/-- `poffset[p]` after `poffset[0] = 0` and
`std::partial_sum( &pcnt[0], &pcnt[npcol-1], &poffset[1] )`. -/
def poffset (pcnt : Nat -> Nat) : Nat -> Nat
  | 0 => 0
  | p + 1 => poffset pcnt p + pcnt p

theorem poffset_succ (pcnt : Nat -> Nat) (p : Nat) :
    poffset pcnt (p + 1) = poffset pcnt p + pcnt p := rfl

theorem poffset_mono (pcnt : Nat -> Nat) {p q : Nat} (h : p < q) :
    poffset pcnt p + pcnt p ≤ poffset pcnt q := by
  induction q with
  | zero => omega
  | succ q ih =>
      rw [poffset_succ]
      rcases Nat.lt_succ_iff_lt_or_eq.mp h with h | rfl
      · have := ih h; omega
      · exact Nat.le_refl _

theorem poffset_disjoint (pcnt : Nat -> Nat) {p q u v : Nat} (hpq : p ≠ q) (hu : u < pcnt p)
    (hv : v < pcnt q) : poffset pcnt p + u ≠ poffset pcnt q + v := by
  rcases Nat.lt_or_gt_of_ne hpq with h | h
  · have := poffset_mono pcnt h; omega
  · have := poffset_mono pcnt h; omega

end Dist

/-! ## Moving the columns -/

/-- The local state `stedc_sort` changes on a process: `D`, the local part of
each column of `Qout`, the slots of `work`, and, as a record for the proofs,
the columns of `Qout` written so far, in order. -/
@[ext] structure Local (α : Type*) where
  D : List α
  Qout : Nat -> List α
  work : Nat -> List α
  writes : List Nat

variable {α : Type*}

/-- Column `kg` of `Qout` gets the local part `col`. -/
def Local.put (l : Local α) (kg : Nat) (col : List α) : Local α :=
  { l with Qout := Function.update l.Qout kg col, writes := l.writes ++ [kg] }

/-- The columns `cols` of `Qout` written in order. -/
def Local.putAll (l : Local α) (cols : List (Nat × List α)) : Local α :=
  cols.foldl (fun l kc => l.put kc.1 kc.2) l

@[simp] theorem Local.putAll_nil (l : Local α) : l.putAll [] = l := rfl

theorem Local.putAll_append (l : Local α) (c c' : List (Nat × List α)) :
    l.putAll (c ++ c') = (l.putAll c).putAll c' := List.foldl_append _ _ _ _

@[simp] theorem Local.putAll_D (l : Local α) (c : List (Nat × List α)) : (l.putAll c).D = l.D := by
  induction c generalizing l with
  | nil => rfl
  | cons _ _ ih => exact ih _

theorem Local.putAll_work (l : Local α) (w : Nat -> List α) (c : List (Nat × List α)) :
    ({ l with work := w }).putAll c = { l.putAll c with work := w } := by
  induction c generalizing l with
  | nil => rfl
  | cons kc _ ih => exact ih (l.put kc.1 kc.2)

@[simp] theorem Local.writes_putAll (l : Local α) (c : List (Nat × List α)) :
    (l.putAll c).writes = l.writes ++ c.map Prod.fst := by
  induction c generalizing l with
  | nil => simp
  | cons kc _ ih => rw [List.map_cons, List.append_cons]; exact ih (l.put kc.1 kc.2)

theorem Local.Qout_putAll_of_not_mem (l : Local α) {c : List (Nat × List α)} {k : Nat}
    (h : k ∉ c.map Prod.fst) : (l.putAll c).Qout k = l.Qout k := by
  induction c generalizing l with
  | nil => rfl
  | cons kc c ih =>
      simp only [List.map_cons, List.mem_cons, not_or] at h
      exact (ih (l.put kc.1 kc.2) h.2).trans (Function.update_noteq h.1 _ _)

theorem Local.Qout_putAll_of_mem (l : Local α) {c : List (Nat × List α)} {k : Nat} {v : List α}
    (hnd : (c.map Prod.fst).Nodup) (h : (k, v) ∈ c) : (l.putAll c).Qout k = v := by
  induction c generalizing l with
  | nil => exact absurd h (List.not_mem_nil _)
  | cons kc c ih =>
      rw [List.map_cons, List.nodup_cons] at hnd
      rcases List.mem_cons.mp h with rfl | h
      · exact ((l.put k v).Qout_putAll_of_not_mem hnd.1).trans (Function.update_same _ _ _)
      · exact ih (l.put kc.1 kc.2) hnd.2 h

namespace Dist

variable (L : Dist)

/-- The local part of column `g` of `Q` on process row `r`: what
`copy_col( Q, j, jj, ... )` reads for `g = jg + jj`. -/
def col (Q : Nat -> Nat -> α) (r g : Nat) : List α := (L.localRows r).map (Q · g)

/-- One turn of the owner's loop over `jj` in tile `j`, with the running
offsets: a column bound for `mycol` is copied straight into `Qout`
(`copy_col( Q, j, jj, Qout, k, kk )`), any other into slot `poffset[pk]++` of
`work` (`copy_col( Q, j, jj, &work[ kk*mlocal ] )`). -/
def packStep (Q : Nat -> Nat -> α) (inv : Nat -> Nat) (r mycol j : Nat)
    (acc : Local α × (Nat -> Nat)) (jj : Nat) : Local α × (Nat -> Nat) :=
  let kg := inv (L.jg j + jj)
  let pk := L.colOwner kg
  if pk = mycol then (acc.1.put kg (L.col Q r (L.jg j + jj)), acc.2)
  else ({ acc.1 with work := Function.update acc.1.work (acc.2 pk) (L.col Q r (L.jg j + jj)) },
    Function.update acc.2 pk (acc.2 pk + 1))

/-- The owner's loop over the columns of tile `j`. -/
def pack (Q : Nat -> Nat -> α) (inv : Nat -> Nat) (r mycol j : Nat) (l : Local α) : Local α :=
  ((List.range (L.tileNb j)).foldl (L.packStep Q inv r mycol j)
    (l, poffset (L.route inv mycol j).1)).1

/-- What tile `j` leaves in `Qout` on process column `mycol` of row `r`: each
column bound for `mycol`, in order, at `isort_inv[jg + jj]`. -/
def mine (Q : Nat -> Nat -> α) (inv : Nat -> Nat) (r mycol j : Nat) : List (Nat × List α) :=
  (L.dests inv j mycol).map fun jj => (inv (L.jg j + jj), L.col Q r (L.jg j + jj))

/-- The data the owner of tile `j` sends to process column `p`: its columns
bound for `p`, in order. -/
def payload (Q : Nat -> Nat -> α) (inv : Nat -> Nat) (r j p : Nat) : List (List α) :=
  (L.dests inv j p).map fun jj => L.col Q r (L.jg j + jj)

/-- The first `t` columns of tile `j` bound for `q`. -/
def destsUpTo (inv : Nat -> Nat) (j t q : Nat) : List Nat :=
  (List.range t).filter fun jj => L.pcol inv j jj = q

theorem destsUpTo_succ (inv : Nat -> Nat) (j t q : Nat) :
    L.destsUpTo inv j (t + 1) q =
      L.destsUpTo inv j t q ++ if L.pcol inv j t = q then [t] else [] := by
  by_cases h : L.pcol inv j t = q <;> simp [destsUpTo, List.range_succ, List.filter_append, h]

theorem length_destsUpTo_le (inv : Nat -> Nat) (mycol j q : Nat) {t : Nat} (ht : t ≤ L.tileNb j) :
    (L.destsUpTo inv j t q).length ≤ (L.route inv mycol j).1 q := by
  rw [route_eq]
  exact ((List.range_sublist.mpr ht).filter _).length_le

/-- The owner's loop after its first `t` turns. -/
def packUpTo (Q : Nat -> Nat -> α) (inv : Nat -> Nat) (r mycol j t : Nat) (l : Local α) :
    Local α × (Nat -> Nat) :=
  (List.range t).foldl (L.packStep Q inv r mycol j) (l, poffset (L.route inv mycol j).1)

theorem packUpTo_succ (Q : Nat -> Nat -> α) (inv : Nat -> Nat) (r mycol j t : Nat) (l : Local α) :
    L.packUpTo Q inv r mycol j (t + 1) l =
      L.packStep Q inv r mycol j (L.packUpTo Q inv r mycol j t l) t := by
  simp [packUpTo, List.range_succ, List.foldl_append]

theorem pack_fold (Q : Nat -> Nat -> α) (inv : Nat -> Nat) (r mycol j : Nat) (l : Local α)
    {t : Nat} (ht : t ≤ L.tileNb j) :
    (L.packUpTo Q inv r mycol j t l).1.D = l.D ∧
      (L.packUpTo Q inv r mycol j t l).1.Qout = (l.putAll ((L.destsUpTo inv j t mycol).map
        fun jj => (inv (L.jg j + jj), L.col Q r (L.jg j + jj)))).Qout ∧
      (L.packUpTo Q inv r mycol j t l).1.writes = (l.putAll ((L.destsUpTo inv j t mycol).map
        fun jj => (inv (L.jg j + jj), L.col Q r (L.jg j + jj)))).writes ∧
      ∀ q, q ≠ mycol ->
        (L.packUpTo Q inv r mycol j t l).2 q =
          poffset (L.route inv mycol j).1 q + (L.destsUpTo inv j t q).length ∧
        (List.range (L.destsUpTo inv j t q).length).map
            (fun u => (L.packUpTo Q inv r mycol j t l).1.work (poffset (L.route inv mycol j).1 q + u)) =
          (L.destsUpTo inv j t q).map fun jj => L.col Q r (L.jg j + jj) := by
  induction t with
  | zero => exact ⟨rfl, rfl, rfl, fun q _ => ⟨by simp [packUpTo, destsUpTo], by simp [destsUpTo]⟩⟩
  | succ t ih =>
      obtain ⟨hD, hQ, hW, hS⟩ := ih (by omega)
      have hcnt := fun q => L.length_destsUpTo_le inv mycol j q ht
      rw [packUpTo_succ]
      simp only [packStep, destsUpTo_succ, pcol] at hcnt ⊢
      set acc := L.packUpTo Q inv r mycol j t l
      by_cases hpk : L.colOwner (inv (L.jg j + t)) = mycol
      · -- a column of its own: into `Qout`
        simp only [if_pos hpk, List.map_append, Local.putAll_append]
        refine ⟨hD, by simp [Local.putAll, Local.put, hQ], by simp [Local.putAll, Local.put, hW],
          fun q hq => ?_⟩
        simp only [if_neg (show ¬L.colOwner (inv (L.jg j + t)) = q by rw [hpk]; exact Ne.symm hq),
          List.map_nil, List.append_nil]
        exact hS q hq
      · -- a column for another process column: into its next slot
        simp only [if_neg hpk, List.append_nil]
        refine ⟨hD, hQ, hW, fun q hq => ?_⟩
        obtain ⟨hoff, hslots⟩ := hS q hq
        obtain ⟨hoff0, -⟩ := hS _ hpk
        have hc0 := hcnt (L.colOwner (inv (L.jg j + t)))
        simp only [if_true, List.length_append, List.length_singleton] at hc0
        by_cases hqq : L.colOwner (inv (L.jg j + t)) = q
        · obtain rfl := hqq
          simp only [if_true, List.length_append, List.length_singleton, Function.update_same,
            List.range_succ, List.map_append, List.map_cons, List.map_nil]
          refine ⟨by omega, ?_⟩
          rw [← hslots, hoff0]
          congr 1
          · exact List.map_congr_left fun u hu => Function.update_noteq (by
              rw [List.mem_range] at hu; omega) _ _
          · simp
        · have hcq := hcnt q
          simp only [if_neg hqq, List.append_nil] at hcq ⊢
          rw [Function.update_noteq (Ne.symm hqq)]
          refine ⟨hoff, ?_⟩
          rw [← hslots]
          refine List.map_congr_left fun u hu => Function.update_noteq ?_ _ _
          rw [List.mem_range] at hu
          rw [hoff0]
          exact poffset_disjoint _ (Ne.symm hqq) (by omega) (by omega)

theorem pack_spec (Q : Nat -> Nat -> α) (inv : Nat -> Nat) (r mycol j : Nat) (l : Local α) :
    (L.pack Q inv r mycol j l).D = l.D ∧
      (L.pack Q inv r mycol j l).Qout = (l.putAll (L.mine Q inv r mycol j)).Qout ∧
      (L.pack Q inv r mycol j l).writes = (l.putAll (L.mine Q inv r mycol j)).writes ∧
      ∀ p, p ≠ mycol -> (List.range ((L.route inv mycol j).1 p)).map
          (fun u => (L.pack Q inv r mycol j l).work (poffset (L.route inv mycol j).1 p + u)) =
        L.payload Q inv r j p := by
  obtain ⟨hD, hQ, hW, hS⟩ := L.pack_fold Q inv r mycol j l (le_refl _)
  refine ⟨hD, hQ, hW, fun p hp => ?_⟩
  have hc : (L.route inv mycol j).1 p = (L.destsUpTo inv j (L.tileNb j) p).length := by
    rw [route_eq]; rfl
  rw [hc]
  exact (hS p hp).2

end Dist

/-- `MPI_Recv( &work[0], mlocal*cnt, ... )` of the slots `d`, then
`copy_col( &work[ jj*mlocal ], Qout, k, kk )` with `kg = imine[jj]` for
`jj < cnt = imine.size()`. -/
def unpack (imine : List Nat) (d : List (List α)) (l : Local α) : Local α :=
  let w : Nat -> List α := fun kk => d.getD kk (l.work kk)
  (List.range imine.length).foldl (fun l jj => l.put (imine.getD jj 0) (w jj)) { l with work := w }

theorem unpack_eq {β : Type*} (xs : List β) (f : β -> Nat) (g : β -> List α) (l : Local α) :
    unpack (xs.map f) (xs.map g) l =
      { l.putAll (xs.map fun x => (f x, g x)) with
        work := fun kk => (xs.map g).getD kk (l.work kk) } := by
  have hl : (List.range (xs.map f).length).map
      (fun jj => ((xs.map f).getD jj 0, (xs.map g).getD jj (l.work jj))) =
        xs.map fun x => (f x, g x) := by
    refine List.ext_getElem (by simp) fun i h1 h2 => ?_
    simp only [List.length_map, List.length_range] at h1
    simp [List.getD_eq_getElem?_getD, h1]
  rw [unpack, ← Local.putAll_work, ← hl, Local.putAll, List.foldl_map]

end Stedc
end Slate
