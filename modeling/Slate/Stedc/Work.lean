import Mathlib
import Slate.Stedc.Correct

/-!
# The workspace of `stedc_sort`, entry by entry

`Permute` holds the local part of a column as one value and `work` as slots.
Here `work` is the flat array of `stedc_sort` and the three `copy_col` are its
loops over the tile rows, with the running row offset `ii`; the argument
`x = &work[kk*mlocal]` is `work` with the base `kk * mlocal`.

A `copy_col` on a tile column its process column owns reads or writes
`mlocal` consecutive entries of its array, one per local row in ascending
order.  So the owner's packing loop on the flat `work` does what the slot
model's `pack` does, and from `pack_spec` every column bound for another
process column sits in its own run of `mlocal` entries inside the range
`MPI_Send` passes, and the loop writes no other entry of `work`; the receiver
copies each run into the column `imine` names.
-/

namespace Slate
namespace Stedc

variable {α : Type*}

/-! ## Writes at distinct places -/

section Update

variable {β γ : Type*} [DecidableEq β] (f : Nat -> β) (F : Nat -> γ -> γ)

theorem foldl_update_of_not_mem (l : List Nat) (y : β -> γ) {k : β} (h : ∀ t ∈ l, f t ≠ k) :
    (l.foldl (fun y t => Function.update y (f t) (F t (y (f t)))) y) k = y k := by
  induction l generalizing y with
  | nil => rfl
  | cons t l ih =>
      rw [List.foldl_cons, ih _ fun t' ht' => h t' (List.mem_cons_of_mem _ ht'),
        Function.update_noteq (h t (List.mem_cons_self _ _)).symm]

theorem foldl_update_of_mem {l : List Nat} (y : β -> γ) (hnd : (l.map f).Nodup) {t : Nat}
    (ht : t ∈ l) :
    (l.foldl (fun y t => Function.update y (f t) (F t (y (f t)))) y) (f t) = F t (y (f t)) := by
  induction l generalizing y with
  | nil => exact absurd ht (List.not_mem_nil _)
  | cons t' l ih =>
      rw [List.map_cons, List.nodup_cons, List.mem_map] at hnd
      rw [List.foldl_cons]
      rcases List.mem_cons.mp ht with rfl | ht
      · rw [foldl_update_of_not_mem f F l _ fun t'' ht'' h => hnd.1 ⟨t'', ht'', h⟩,
          Function.update_same]
      · rw [ih _ hnd.2 ht, Function.update_noteq fun h => hnd.1 ⟨t, ht, h⟩]

end Update

theorem mul_add_le_mul_of_lt {a b : Nat} (ml : Nat) (h : a < b) : a * ml + ml ≤ b * ml := by
  simpa only [Nat.succ_mul] using Nat.mul_le_mul_right ml (Nat.succ_le_of_lt h)

/-- Slot `kk` of a flat `work`: its `ml` entries from `work[kk*ml]`. -/
def slots (ml : Nat) (w : Nat -> α) (kk : Nat) : List α :=
  (List.range ml).map fun t => w (kk * ml + t)

/-- What the owner's packing loop changes, entry by entry: each column of
`Qout` by global row, `work`, and the running offsets `poffset`. -/
structure Packing (α : Type*) where
  Qout : Nat -> Nat -> α
  work : Nat -> α
  poffset : Nat -> Nat

namespace Dist

variable (L : Dist)

/-! ## The local rows -/

theorem localRows_sorted (r : Nat) : (L.localRows r).Sorted (· < ·) := by
  refine List.pairwise_flatMap.mpr ⟨fun i _ => ?_, ?_⟩
  · split_ifs
    · exact List.pairwise_map.mpr ((List.pairwise_lt_range _).imp fun h => by omega)
    · exact List.Pairwise.nil
  · refine (List.pairwise_lt_range _).imp fun {i i'} hii' g hg g' hg' => ?_
    split_ifs at hg hg' <;> simp only [List.mem_map, List.mem_range, List.not_mem_nil] at hg hg'
    obtain ⟨u, hu, rfl⟩ := hg
    obtain ⟨u', -, rfl⟩ := hg'
    have hmb : L.tileMb i ≤ L.mb := Nat.min_le_left _ _
    have := mul_add_le_mul_of_lt L.mb hii'
    omega

theorem mlocal_eq_sum (r : Nat) :
    L.mlocal r = (((List.range L.mt).filter (· % L.nprow = r)).map L.tileMb).sum := by
  rw [mlocal, localRows, List.length_flatMap]
  generalize List.range L.mt = is
  induction is with
  | nil => rfl
  | cons i is ih => by_cases hi : i % L.nprow = r <;> simp [List.filter_cons, hi, ih]

/-! ## `copy_col` -/

/-- The loop of `copy_col` over tile column `j` of a matrix with `Q`'s
distribution, on the process at grid position `x`: for each tile row `i` with
`tileIsLocal( i, j )`, a `blas::copy` of the tile's `mb` rows, whose entry `u`
does `w (i*mb + u) (ii + u)`, then `ii += mb`.  It gives the copy's target and
the final `ii`. -/
def copyLoop {β : Type*} (x : Nat × Nat) (j : Nat) (w : Nat -> Nat -> β -> β) (b : β) : β × Nat :=
  (List.range L.mt).foldl (fun acc i =>
    if L.tileRank i j = x then
      ((List.range (L.tileMb i)).foldl (fun y u => w (i * L.mb + u) (acc.2 + u) y) acc.1,
        acc.2 + L.tileMb i)
    else acc) (b, 0)

/-- `copy_col( A, j, jj, x )` with `x = &work[base]`: entry `ii` of `x` gets
row `g` of the column `a`, `A(:, jj)` of tile column `j` by global row. -/
def copyColToArray (x : Nat × Nat) (j : Nat) (a : Nat -> α) (base : Nat) (work : Nat -> α) :
    (Nat -> α) × Nat :=
  L.copyLoop x j (fun g ii y => Function.update y (base + ii) (a g)) work

/-- `copy_col( x, A, j, jj )` with `x = &work[base]`: row `g` of the column
`col` of `A` gets entry `ii` of `x`. -/
def copyColFromArray (work : Nat -> α) (base : Nat) (x : Nat × Nat) (j : Nat) (col : Nat -> α) :
    (Nat -> α) × Nat :=
  L.copyLoop x j (fun g ii y => Function.update y g (work (base + ii))) col

/-- `copy_col( A, j, jj, B, k, kk )`: row `g` of the column `col` of `B` gets
row `g` of the column `a` of `A`; the loop runs over `A`'s tile column `j`. -/
def copyColMatrix (x : Nat × Nat) (j : Nat) (a : Nat -> α) (col : Nat -> α) : (Nat -> α) × Nat :=
  L.copyLoop x j (fun g _ y => Function.update y g (a g)) col

theorem copyLoop_foldl {β : Type*} (r : Nat) (w : Nat -> Nat -> β -> β) (is : List Nat) (b : β)
    (n0 : Nat) :
    is.foldl (fun acc i =>
        if i % L.nprow = r then
          ((List.range (L.tileMb i)).foldl (fun y u => w (i * L.mb + u) (acc.2 + u) y) acc.1,
            acc.2 + L.tileMb i)
        else acc) (b, n0) =
      ((List.range (is.flatMap fun i =>
          if i % L.nprow = r then (List.range (L.tileMb i)).map (i * L.mb + ·) else []).length).foldl
        (fun y t => w ((is.flatMap fun i =>
          if i % L.nprow = r then (List.range (L.tileMb i)).map (i * L.mb + ·) else []).getD t 0)
          (n0 + t) y) b,
        n0 + (is.flatMap fun i =>
          if i % L.nprow = r then (List.range (L.tileMb i)).map (i * L.mb + ·) else []).length) := by
  induction is generalizing b n0 with
  | nil => rfl
  | cons i is ih =>
      rw [List.foldl_cons, List.flatMap_cons]
      by_cases hi : i % L.nprow = r
      · -- a local tile: its rows come first
        simp only [if_pos hi]
        rw [ih, List.length_append, List.length_map, List.length_range, List.range_add,
          List.foldl_append, List.foldl_map]
        congr 1
        · congr 1
          · funext y t
            simp [List.getD_eq_getElem?_getD, List.getElem?_append_right, Nat.add_assoc]
          · refine List.foldl_ext _ _ _ fun y u hu => ?_
            rw [List.mem_range] at hu
            simp [List.getD_eq_getElem?_getD, List.getElem?_append_left, hu]
        · omega
      · simp only [if_neg hi, List.nil_append]
        exact ih b n0

theorem tileRank_eq_iff {x : Nat × Nat} {j : Nat} (hj : j % L.npcol = x.2) (i : Nat) :
    L.tileRank i j = x ↔ i % L.nprow = x.1 := by
  rw [tileRank, Prod.ext_iff, hj]
  exact and_iff_left rfl

theorem copyLoop_eq {β : Type*} {x : Nat × Nat} {j : Nat} (hj : j % L.npcol = x.2)
    (w : Nat -> Nat -> β -> β) (b : β) :
    L.copyLoop x j w b =
      ((List.range (L.mlocal x.1)).foldl (fun y t => w ((L.localRows x.1).getD t 0) t y) b,
        L.mlocal x.1) := by
  simp only [copyLoop, L.tileRank_eq_iff hj]
  rw [copyLoop_foldl]
  simp [mlocal, localRows]

section Local

variable {x : Nat × Nat} {j : Nat} (hj : j % L.npcol = x.2)
include hj

theorem copyColToArray_spec (a : Nat -> α) (base : Nat) (work : Nat -> α) :
    (L.copyColToArray x j a base work).2 = L.mlocal x.1 ∧
      ∀ k, (L.copyColToArray x j a base work).1 k =
        if base ≤ k ∧ k < base + L.mlocal x.1 then a ((L.localRows x.1).getD (k - base) 0)
        else work k := by
  rw [copyColToArray, L.copyLoop_eq hj]
  refine ⟨rfl, fun k => ?_⟩
  split_ifs with hk
  · obtain ⟨t, ht, rfl⟩ : ∃ t < L.mlocal x.1, k = base + t := ⟨k - base, by omega, by omega⟩
    rw [Nat.add_sub_cancel_left]
    refine foldl_update_of_mem (base + ·) (fun t _ => a ((L.localRows x.1).getD t 0)) _ ?_
      (List.mem_range.mpr ht)
    exact (List.nodup_range _).map fun _ _ h => Nat.add_left_cancel h
  · exact foldl_update_of_not_mem (base + ·) (fun t _ => a ((L.localRows x.1).getD t 0)) _ _
      fun t ht h => hk (by rw [List.mem_range] at ht; simp only at h; omega)

omit hj in
theorem foldl_update_localRows {γ : Type*} (r : Nat) (v : Nat -> γ) (col : Nat -> γ) :
    (∀ t < L.mlocal r, ((List.range (L.mlocal r)).foldl
        (fun y t => Function.update y ((L.localRows r).getD t 0) (v t)) col)
          ((L.localRows r).getD t 0) = v t) ∧
      ∀ g ∉ L.localRows r, ((List.range (L.mlocal r)).foldl
        (fun y t => Function.update y ((L.localRows r).getD t 0) (v t)) col) g = col g := by
  have hrows : (List.range (L.mlocal r)).map (fun t => (L.localRows r).getD t 0) =
      L.localRows r := map_getD_range _ _
  refine ⟨fun t ht => foldl_update_of_mem _ (fun t _ => v t) _
      (by rw [hrows]; exact (L.localRows_sorted r).nodup) (List.mem_range.mpr ht),
    fun g hg => foldl_update_of_not_mem _ (fun t _ => v t) _ _ fun t ht h => hg ?_⟩
  have hmem := List.mem_map_of_mem (fun t => (L.localRows r).getD t 0) ht
  rw [hrows] at hmem
  exact h ▸ hmem

theorem copyColFromArray_spec (work : Nat -> α) (base : Nat) (col : Nat -> α) :
    (L.copyColFromArray work base x j col).2 = L.mlocal x.1 ∧
      (∀ t < L.mlocal x.1,
        (L.copyColFromArray work base x j col).1 ((L.localRows x.1).getD t 0) = work (base + t)) ∧
      ∀ g ∉ L.localRows x.1, (L.copyColFromArray work base x j col).1 g = col g := by
  rw [copyColFromArray, L.copyLoop_eq hj]
  exact ⟨rfl, L.foldl_update_localRows x.1 (fun t => work (base + t)) col⟩

theorem copyColMatrix_spec (a : Nat -> α) (col : Nat -> α) :
    (L.copyColMatrix x j a col).2 = L.mlocal x.1 ∧
      ∀ g, (L.copyColMatrix x j a col).1 g = if g ∈ L.localRows x.1 then a g else col g := by
  rw [copyColMatrix, L.copyLoop_eq hj]
  obtain ⟨hin, hout⟩ := L.foldl_update_localRows x.1 (fun t => a ((L.localRows x.1).getD t 0)) col
  refine ⟨rfl, fun g => ?_⟩
  split_ifs with hg
  · rw [← map_getD_range (L.localRows x.1) 0] at hg
    obtain ⟨t, ht, rfl⟩ := List.mem_map.mp hg
    exact hin t (List.mem_range.mp ht)
  · exact hout g hg

omit hj in
theorem slot_disjoint {ml a b t : Nat} (hab : a ≠ b) (ht : t < ml) :
    ¬(b * ml ≤ a * ml + t ∧ a * ml + t < b * ml + ml) := by
  rcases Nat.lt_or_gt_of_ne hab with h | h <;>
  · have := mul_add_le_mul_of_lt ml h
    omega

theorem slots_copyColToArray (a : Nat -> α) (kk : Nat) (w : Nat -> α) :
    slots (L.mlocal x.1) (L.copyColToArray x j a (kk * L.mlocal x.1) w).1 =
      Function.update (slots (L.mlocal x.1) w) kk ((L.localRows x.1).map a) := by
  have hspec := (L.copyColToArray_spec hj a (kk * L.mlocal x.1) w).2
  funext kk'
  by_cases hk : kk' = kk
  · subst hk
    rw [Function.update_same, slots, ← map_getD_range (L.localRows x.1) 0, List.map_map]
    refine List.map_congr_left fun t ht => ?_
    rw [List.mem_range] at ht
    rw [hspec, if_pos (by constructor <;> omega), Nat.add_sub_cancel_left]
    rfl
  · rw [Function.update_noteq hk, slots, slots]
    refine List.map_congr_left fun t ht => ?_
    rw [hspec, if_neg (slot_disjoint hk (List.mem_range.mp ht))]

end Local

/-! ## The owner's packing loop on the flat `work` -/

/-- One turn of the owner's loop over `jj`, entry by entry: for a column of
its own, `copy_col( Q, j, jj, Qout, k, kk )` into global column
`kg = k*nb + kk`; else `kk = poffset[pk]++` and
`copy_col( Q, j, jj, &work[ kk*mlocal ] )`. -/
def packStepWork (Q : Nat -> Nat -> α) (inv : Nat -> Nat) (x : Nat × Nat) (j : Nat)
    (s : Packing α) (jj : Nat) : Packing α :=
  let kg := inv (L.jg j + jj)
  let pk := L.colOwner kg
  if pk = x.2 then
    { s with Qout := Function.update s.Qout kg (L.copyColMatrix x j (Q · (L.jg j + jj)) (s.Qout kg)).1 }
  else
    { s with
      work := (L.copyColToArray x j (Q · (L.jg j + jj)) (s.poffset pk * L.mlocal x.1) s.work).1
      poffset := Function.update s.poffset pk (s.poffset pk + 1) }

/-- The owner's loop over the columns of tile `j` on the flat `work`, from
`poffset[0] = 0` and the `partial_sum` of `pcnt`. -/
def packWork (Q : Nat -> Nat -> α) (inv : Nat -> Nat) (x : Nat × Nat) (j : Nat) (s : Packing α) :
    Packing α :=
  (List.range (L.tileNb j)).foldl (L.packStepWork Q inv x j)
    { s with poffset := poffset (L.route inv x.2 j).1 }

/-- The slot model's accumulator `acc` abstracts the flat state `s` of
process row `r`: the local part of each column of `Qout`, each slot of
`work`, and the offsets. -/
structure Abstracts (r : Nat) (acc : Local α × (Nat -> Nat)) (s : Packing α) : Prop where
  Qout : acc.1.Qout = fun kg => (L.localRows r).map (s.Qout kg)
  work : acc.1.work = slots (L.mlocal r) s.work
  poffset : acc.2 = s.poffset

section Refine

variable {L} {x : Nat × Nat} {j : Nat} (hj : j % L.npcol = x.2) (Q : Nat -> Nat -> α)
  (inv : Nat -> Nat)
include hj

theorem Abstracts.packStep {acc : Local α × (Nat -> Nat)} {s : Packing α}
    (h : L.Abstracts x.1 acc s) (jj : Nat) :
    L.Abstracts x.1 (L.packStep Q inv x.1 x.2 j acc jj) (L.packStepWork Q inv x j s jj) := by
  simp only [Dist.packStep, packStepWork]
  split_ifs with hpk
  · -- a column of its own goes to `Qout`
    refine ⟨?_, h.work, h.poffset⟩
    simp only [Local.put, h.Qout]
    funext kg
    by_cases hkg : kg = inv (L.jg j + jj)
    · subst hkg
      simp only [Function.update_same, col]
      refine List.map_congr_left fun g hg => ?_
      rw [(L.copyColMatrix_spec hj _ _).2, if_pos hg]
    · simp [Function.update_noteq hkg]
  · -- another column goes to its slot
    refine ⟨h.Qout, ?_, by rw [h.poffset]⟩
    show Function.update acc.1.work (acc.2 _) _ = _
    rw [L.slots_copyColToArray hj, h.work, h.poffset]
    rfl

/-- The whole loop on the flat `work` does what the slot model's loop does. -/
theorem Abstracts.foldl {acc : Local α × (Nat -> Nat)} {s : Packing α}
    (h : L.Abstracts x.1 acc s) (l : List Nat) :
    L.Abstracts x.1 (l.foldl (L.packStep Q inv x.1 x.2 j) acc)
      (l.foldl (L.packStepWork Q inv x j) s) := by
  induction l generalizing acc s with
  | nil => exact h
  | cons jj l ih => exact ih (h.packStep hj Q inv jj)

theorem abstracts_packWork (s : Packing α) :
    L.Abstracts x.1 (L.packUpTo Q inv x.1 x.2 j (L.tileNb j)
        ⟨[], fun kg => (L.localRows x.1).map (s.Qout kg), slots (L.mlocal x.1) s.work, []⟩)
      (L.packWork Q inv x j s) :=
  Abstracts.foldl (s := { s with poffset := poffset (L.route inv x.2 j).1 }) hj Q inv ⟨rfl, rfl, rfl⟩ _

theorem packWork_work (s : Packing α) {p : Nat} (hp : p ≠ x.2) {i : Nat}
    (hi : i < (L.route inv x.2 j).1 p) {t : Nat} (ht : t < L.mlocal x.1) :
    (L.packWork Q inv x j s).work ((poffset (L.route inv x.2 j).1 p + i) * L.mlocal x.1 + t) =
      Q ((L.localRows x.1).getD t 0) (L.jg j + (L.dests inv j p).getD i 0) := by
  let l : Local α := ⟨[], fun kg => (L.localRows x.1).map (s.Qout kg), slots (L.mlocal x.1) s.work, []⟩
  have hw : (L.pack Q inv x.1 x.2 j l).work = slots (L.mlocal x.1) (L.packWork Q inv x j s).work :=
    (abstracts_packWork hj Q inv s).work
  have hspec := (L.pack_spec Q inv x.1 x.2 j l).2.2.2 p hp
  have hlen : i < (L.dests inv j p).length := by rwa [route_eq] at hi
  have h1 := congrArg (fun l => l[i]?) hspec
  simp only [hw, payload, List.getElem?_map, List.getElem?_range hi,
    List.getElem?_eq_getElem hlen, Option.map_some', Option.some.injEq] at h1
  have h2 := congrArg (fun l => l[t]?) h1
  simp only [slots, col, List.getElem?_map, List.getElem?_range ht,
    List.getElem?_eq_getElem (show t < (L.localRows x.1).length from ht), Option.map_some',
    Option.some.injEq] at h2
  rw [h2, List.getD_eq_getElem?_getD, List.getD_eq_getElem?_getD,
    List.getElem?_eq_getElem hlen, List.getElem?_eq_getElem (show t < (L.localRows x.1).length from ht)]
  rfl

theorem packWork_poffset (s : Packing α) {p : Nat} (hp : p ≠ x.2) :
    (L.packWork Q inv x j s).poffset p =
      poffset (L.route inv x.2 j).1 p + (L.route inv x.2 j).1 p := by
  rw [← (abstracts_packWork hj Q inv s).poffset,
    ((L.pack_fold Q inv x.1 x.2 j _ le_rfl).2.2.2 p hp).1, route_eq]
  rfl

omit hj in
theorem packStepWork_poffset_le (s : Packing α) (jj p : Nat) :
    s.poffset p ≤ (L.packStepWork Q inv x j s jj).poffset p := by
  simp only [packStepWork]
  split_ifs
  · exact le_rfl
  · show s.poffset p ≤ Function.update s.poffset _ _ p
    by_cases h : p = L.colOwner (inv (L.jg j + jj))
    · subst h; rw [Function.update_same]; omega
    · rw [Function.update_noteq h]

omit hj in
theorem packStepWork_of_ne (s : Packing α) {jj : Nat} (hpk : L.colOwner (inv (L.jg j + jj)) ≠ x.2) :
    (L.packStepWork Q inv x j s jj).work = (L.copyColToArray x j (Q · (L.jg j + jj))
        (s.poffset (L.colOwner (inv (L.jg j + jj))) * L.mlocal x.1) s.work).1 ∧
      (L.packStepWork Q inv x j s jj).poffset (L.colOwner (inv (L.jg j + jj))) =
        s.poffset (L.colOwner (inv (L.jg j + jj))) + 1 := by
  simp [packStepWork, hpk]

omit hj in
theorem foldl_packStepWork_poffset_le (l : List Nat) (s : Packing α) (p : Nat) :
    s.poffset p ≤ (l.foldl (L.packStepWork Q inv x j) s).poffset p := by
  induction l generalizing s with
  | nil => exact le_rfl
  | cons jj l ih => exact (packStepWork_poffset_le Q inv s jj p).trans (ih _)

theorem foldl_packStepWork_frame (l : List Nat) (s : Packing α) {k : Nat}
    (hk : ∀ p, p ≠ x.2 -> ¬(s.poffset p * L.mlocal x.1 ≤ k ∧
      k < (l.foldl (L.packStepWork Q inv x j) s).poffset p * L.mlocal x.1)) :
    (l.foldl (L.packStepWork Q inv x j) s).work k = s.work k := by
  induction l generalizing s with
  | nil => rfl
  | cons jj l ih =>
      have hmono : ∀ p, s.poffset p ≤ (L.packStepWork Q inv x j s jj).poffset p :=
        packStepWork_poffset_le Q inv s jj
      rw [List.foldl_cons] at hk ⊢
      rw [ih _ fun p hp h =>
        hk p hp ⟨(Nat.mul_le_mul_right _ (hmono p)).trans h.1, h.2⟩]
      have hend : ∀ p, (L.packStepWork Q inv x j s jj).poffset p ≤
          (l.foldl (L.packStepWork Q inv x j) (L.packStepWork Q inv x j s jj)).poffset p :=
        foldl_packStepWork_poffset_le Q inv l _
      by_cases hpk : L.colOwner (inv (L.jg j + jj)) = x.2
      · simp only [packStepWork, if_pos hpk]
      · -- the slot written is `poffset[pk]`, inside the run `hk` excludes
        obtain ⟨hw, hoff⟩ := packStepWork_of_ne Q inv s hpk
        rw [hw, (L.copyColToArray_spec hj _ _ _).2, if_neg]
        rintro ⟨h1, h2⟩
        have := hend (L.colOwner (inv (L.jg j + jj)))
        rw [hoff] at this
        have := mul_add_le_mul_of_lt (L.mlocal x.1) (Nat.lt_of_succ_le this)
        exact hk _ hpk ⟨h1, by omega⟩

theorem packWork_work_eq (s : Packing α) {k : Nat}
    (hk : ∀ p, p ≠ x.2 -> ¬(poffset (L.route inv x.2 j).1 p * L.mlocal x.1 ≤ k ∧
      k < (poffset (L.route inv x.2 j).1 p + (L.route inv x.2 j).1 p) * L.mlocal x.1)) :
    (L.packWork Q inv x j s).work k = s.work k :=
  foldl_packStepWork_frame hj Q inv _ _ fun p hp => by
    have hend := packWork_poffset hj Q inv s hp
    rw [packWork] at hend
    rw [hend]
    exact hk p hp

end Refine

/-! ## Where the slots lie -/

/-- `std::vector<real_t> work( std::max( n, mlocal * nb ) )`. -/
def workSize (r : Nat) : Nat := max L.n (L.mlocal r * L.nb)

omit L in
theorem length_filter_lt_succ (f : Nat -> Nat) (l : List Nat) (N : Nat) :
    (l.filter (f · < N + 1)).length = (l.filter (f · < N)).length + (l.filter (f · = N)).length := by
  induction l with
  | nil => rfl
  | cons a l ih =>
      rcases Nat.lt_trichotomy (f a) N with h | h | h
      · simp [List.filter_cons, h, Nat.ne_of_lt h, Nat.lt_succ_of_lt h, ih]; omega
      · simp [List.filter_cons, h, ih]; omega
      · simp [List.filter_cons, Nat.not_lt.mpr h.le, Nat.ne_of_gt h, Nat.not_lt.mpr h, ih]

omit L in
theorem poffset_count (f : Nat -> Nat) (l : List Nat) (N : Nat) :
    poffset (fun q => (l.filter (f · = q)).length) N = (l.filter (f · < N)).length := by
  induction N with
  | zero => simp [poffset]
  | succ N ih => rw [poffset_succ, ih, length_filter_lt_succ]

theorem poffset_route_lt (inv : Nat -> Nat) (mycol j : Nat) {p i : Nat}
    (hi : i < (L.route inv mycol j).1 p) : poffset (L.route inv mycol j).1 p + i < L.tileNb j := by
  simp only [route_eq] at hi ⊢
  have hlt : ∀ jj, L.pcol inv j jj < L.npcol := fun _ => Nat.mod_lt _ L.npcol_pos
  have hp : p < L.npcol := by
    by_contra hp
    have : L.dests inv j p = [] := List.filter_eq_nil_iff.mpr fun jj _ => by
      have := hlt jj; simp only [decide_eq_true_eq]; omega
    simp [this] at hi
  have hall : poffset (fun q => (L.dests inv j q).length) L.npcol = L.tileNb j := by
    unfold dests
    rw [poffset_count, List.filter_eq_self.mpr fun jj _ => decide_eq_true (hlt jj),
      List.length_range]
  have := poffset_mono (fun q => (L.dests inv j q).length) hp
  beta_reduce at this
  omega

theorem slots_ne {pcnt : Nat -> Nat} {p q i i' t t' ml : Nat} (hne : p ≠ q ∨ i ≠ i')
    (hi : i < pcnt p) (hi' : i' < pcnt q) (ht : t < ml) (ht' : t' < ml) :
    (poffset pcnt p + i) * ml + t ≠ (poffset pcnt q + i') * ml + t' := by
  have hslot : poffset pcnt p + i ≠ poffset pcnt q + i' := by
    rcases hne with hpq | hii
    · exact poffset_disjoint pcnt hpq hi hi'
    · by_cases hpq : p = q
      · subst hpq; omega
      · exact poffset_disjoint pcnt hpq hi hi'
  intro h
  exact slot_disjoint hslot ht ⟨by omega, by omega⟩

theorem slot_mem_send (inv : Nat -> Nat) (r mycol j : Nat) {p i : Nat}
    (hi : i < (L.route inv mycol j).1 p) :
    (poffset (L.route inv mycol j).1 p + i + 1) * L.mlocal r ≤ L.tileNb j * L.mlocal r ∧
      L.tileNb j * L.mlocal r ≤ L.workSize r ∧
      poffset (L.route inv mycol j).1 p * L.mlocal r ≤
        (poffset (L.route inv mycol j).1 p + i) * L.mlocal r ∧
      (poffset (L.route inv mycol j).1 p + i + 1) * L.mlocal r ≤
        poffset (L.route inv mycol j).1 p * L.mlocal r + L.mlocal r * (L.route inv mycol j).1 p := by
  have hlt := L.poffset_route_lt inv mycol j hi
  have hnb : L.tileNb j ≤ L.nb := Nat.min_le_left _ _
  refine ⟨Nat.mul_le_mul_right _ (by omega), ?_, Nat.mul_le_mul_right _ (by omega), ?_⟩
  · rw [workSize, Nat.mul_comm]
    exact (Nat.mul_le_mul_left _ hnb).trans (le_max_right _ _)
  · rw [Nat.mul_comm (L.mlocal r), ← Nat.add_mul]
    exact Nat.mul_le_mul_right _ (by omega)

/-- The owner's loop on the flat `work` writes only the slots of the columns
bound for other process columns: an entry outside
`[poffset[p]*mlocal, (poffset[p] + pcnt[p])*mlocal)` for every `p ≠ pj` keeps
its value, and nothing at or beyond `jb*mlocal` is written, whatever `work`
held before. -/
theorem packWork_frame (Q : Nat -> Nat -> α) (inv : Nat -> Nat) (r j : Nat) (s : Packing α) :
    (∀ k, (∀ p, p ≠ j % L.npcol -> ¬(poffset (L.route inv (j % L.npcol) j).1 p * L.mlocal r ≤ k ∧
        k < (poffset (L.route inv (j % L.npcol) j).1 p + (L.route inv (j % L.npcol) j).1 p) *
          L.mlocal r)) ->
      (L.packWork Q inv (r, j % L.npcol) j s).work k = s.work k) ∧
    ∀ k, L.tileNb j * L.mlocal r ≤ k -> (L.packWork Q inv (r, j % L.npcol) j s).work k = s.work k := by
  have hj : j % L.npcol = (r, j % L.npcol).2 := rfl
  refine ⟨fun k => packWork_work_eq hj Q inv s,
    fun k hk => packWork_work_eq hj Q inv s fun p _ h => ?_⟩
  -- a nonempty run of slots ends by `jb`
  dsimp only at h
  have hc : 0 < (L.route inv (j % L.npcol) j).1 p :=
    Nat.pos_of_ne_zero fun h0 => by rw [h0, Nat.add_zero] at h; omega
  have hend := L.poffset_route_lt inv (j % L.npcol) j (Nat.sub_lt hc Nat.one_pos)
  have := Nat.mul_le_mul_right (L.mlocal r)
    (show poffset (L.route inv (j % L.npcol) j).1 p + (L.route inv (j % L.npcol) j).1 p ≤
      L.tileNb j by omega)
  omega

/-! ## The receiver -/

theorem imine_spec (inv : Nat -> Nat) (mycol j p : Nat) :
    (L.route inv p j).2.length = (L.route inv mycol j).1 p ∧
      ∀ i < (L.route inv p j).2.length,
        (L.route inv p j).2.getD i 0 = inv (L.jg j + (L.dests inv j p).getD i 0) ∧
          (L.route inv p j).2.getD i 0 / L.nb % L.npcol = p := by
  rw [route_eq, route_eq]
  refine ⟨List.length_map _ _, fun i hi => ?_⟩
  rw [List.length_map] at hi
  have hmem := List.getElem_mem hi
  have hown : L.pcol inv j (L.dests inv j p)[i] = p := by
    simpa [dests] using (List.mem_filter.mp hmem).2
  simp only [List.getD_eq_getElem?_getD, List.getElem?_map, List.getElem?_eq_getElem hi,
    Option.map_some', Option.getD_some]
  exact ⟨trivial, hown⟩

end Dist

/-- The entries `MPI_Send( &work[ kk*mlocal ], mlocal * cnt, ... )` sends. -/
def sendWork (ml kk cnt : Nat) (work : Nat -> α) : List α :=
  (List.range (ml * cnt)).map fun e => work (kk * ml + e)

namespace Dist

variable (L : Dist)

/-- `MPI_Recv( &work[0], mlocal*cnt, ... )` of the entries `msg`, then
`copy_col( &work[ jj*mlocal ], Qout, k, kk )` with `kg = imine[jj]`,
`k = kg / nb` and `kk = kg % nb`, for `jj < cnt`.  `Qout` is by global column,
then global row. -/
def unpackWork (x : Nat × Nat) (imine : List Nat) (msg : List α) (Qout : Nat -> Nat -> α)
    (work : Nat -> α) : (Nat -> Nat -> α) × (Nat -> α) :=
  let w : Nat -> α := fun e => msg.getD e (work e)
  ((List.range imine.length).foldl (fun Qout jj =>
      Function.update Qout (imine.getD jj 0)
        (L.copyColFromArray w (jj * L.mlocal x.1) x (imine.getD jj 0 / L.nb)
          (Qout (imine.getD jj 0))).1) Qout, w)

theorem nodup_imine {inv : Nat -> Nat} (hinj : ∀ a < L.n, ∀ b < L.n, inv a = inv b -> a = b)
    (j p : Nat) : (L.route inv p j).2.Nodup := by
  have hend : L.jg j + L.tileNb j ≤ L.n := by
    rw [← jg_succ, jg_eq]; exact Nat.min_le_right _ _
  rw [route_eq]
  refine List.Nodup.map_on (fun a ha b hb h => ?_) ((List.nodup_range _).filter _)
  have ha' := List.mem_range.mp (List.mem_of_mem_filter ha)
  have hb' := List.mem_range.mp (List.mem_of_mem_filter hb)
  have := hinj _ (by omega) _ (by omega) h
  omega

theorem unpackWork_sendWork (Q : Nat -> Nat -> α) {inv : Nat -> Nat}
    (hinj : ∀ a < L.n, ∀ b < L.n, inv a = inv b -> a = b) {j : Nat} (r : Nat) (s : Packing α)
    {p : Nat} (hp : p ≠ j % L.npcol) (Qout : Nat -> Nat -> α) (work : Nat -> α) {i : Nat}
    (hi : i < (L.route inv p j).2.length) {t : Nat} (ht : t < L.mlocal r) :
    (L.unpackWork (r, p) (L.route inv p j).2
        (sendWork (L.mlocal r) (poffset (L.route inv (j % L.npcol) j).1 p)
          ((L.route inv (j % L.npcol) j).1 p) (L.packWork Q inv (r, j % L.npcol) j s).work)
        Qout work).1 ((L.route inv p j).2.getD i 0) ((L.localRows r).getD t 0) =
      Q ((L.localRows r).getD t 0) (L.jg j + (L.dests inv j p).getD i 0) := by
  obtain ⟨hlen, himine⟩ := L.imine_spec inv (j % L.npcol) j p
  have hnd : ((List.range (L.route inv p j).2.length).map
      fun jj => (L.route inv p j).2.getD jj 0).Nodup := by
    rw [map_getD_range]; exact L.nodup_imine hinj j p
  refine (congrFun (foldl_update_of_mem (fun jj => (L.route inv p j).2.getD jj 0)
    (fun jj old => (L.copyColFromArray ?w (jj * L.mlocal r) (r, p)
      ((L.route inv p j).2.getD jj 0 / L.nb) old).1) Qout hnd (List.mem_range.mpr hi)) _).trans ?_
  refine ((L.copyColFromArray_spec (x := (r, p)) (himine i hi).2 _ _ _).2.1 t ht).trans ?_
  -- the entry comes from the owner's slot `poffset[p] + i`
  have hi' : i < (L.route inv (j % L.npcol) j).1 p := hlen ▸ hi
  have hin : i * L.mlocal r + t < L.mlocal r * (L.route inv (j % L.npcol) j).1 p := by
    have := mul_add_le_mul_of_lt (L.mlocal r) hi'
    rw [Nat.mul_comm (L.mlocal r)]
    omega
  simp only [sendWork, List.getD_eq_getElem?_getD, List.getElem?_map, List.getElem?_range hin,
    Option.map_some', Option.getD_some]
  rw [show poffset (L.route inv (j % L.npcol) j).1 p * L.mlocal r + (i * L.mlocal r + t) =
    (poffset (L.route inv (j % L.npcol) j).1 p + i) * L.mlocal r + t by rw [Nat.add_mul]; omega]
  simpa only [List.getD_eq_getElem?_getD] using
    packWork_work (x := (r, j % L.npcol)) rfl Q inv s hp hi' ht

/-! ## The workspace of `stedc_sort` -/

/-- The workspace of `stedc_sort` on process row `r`, for every `isort_inv`
and every tile column `j` (starting at `jg = j*nb`, of width `jb <= nb`),
owned by `pj = j % npcol`.
After the owner's packing loop, from any state, the `i`-th column `jj` of the
tile bound for another process column `p` sits at
`work[(poffset[p] + i)*mlocal, (poffset[p] + i + 1)*mlocal)`, local row `t` at
offset `t`; the runs of different slots are disjoint and lie in
`[0, jb*mlocal)`, inside `work` and inside the range `MPI_Send` passes.
On `p`, `imine[i] = isort_inv[jg + jj]`, counted by the owner's `pcnt[p]`, in a
tile column `p` owns; and when `isort_inv` is one to one, the receive and the
unpack put the column into column `imine[i]` of `Qout`.
Each `copy_col` on a tile column its process column owns, as every call in
`stedc_sort` is, reads or writes exactly `mlocal` consecutive entries of its
array, local row `t` at offset `t`; the local rows ascend, and `mlocal` is
the sum of the heights of the local tiles. -/
theorem stedcSort_workspace (Q : Nat -> Nat -> α) (inv : Nat -> Nat) (r : Nat) :
    (∀ (j : Nat) (s : Packing α) (p : Nat), p ≠ j % L.npcol ->
      ∀ i < (L.route inv (j % L.npcol) j).1 p, ∀ t < L.mlocal r,
        (L.packWork Q inv (r, j % L.npcol) j s).work
            ((poffset (L.route inv (j % L.npcol) j).1 p + i) * L.mlocal r + t) =
          Q ((L.localRows r).getD t 0) (L.jg j + (L.dests inv j p).getD i 0)) ∧
    (∀ j p q i i' t t', (p ≠ q ∨ i ≠ i') -> i < (L.route inv (j % L.npcol) j).1 p ->
      i' < (L.route inv (j % L.npcol) j).1 q -> t < L.mlocal r -> t' < L.mlocal r ->
        (poffset (L.route inv (j % L.npcol) j).1 p + i) * L.mlocal r + t ≠
          (poffset (L.route inv (j % L.npcol) j).1 q + i') * L.mlocal r + t') ∧
    (∀ j p i, i < (L.route inv (j % L.npcol) j).1 p ->
      (poffset (L.route inv (j % L.npcol) j).1 p + i + 1) * L.mlocal r ≤
          L.tileNb j * L.mlocal r ∧
        L.tileNb j * L.mlocal r ≤ L.workSize r ∧
        poffset (L.route inv (j % L.npcol) j).1 p * L.mlocal r ≤
          (poffset (L.route inv (j % L.npcol) j).1 p + i) * L.mlocal r ∧
        (poffset (L.route inv (j % L.npcol) j).1 p + i + 1) * L.mlocal r ≤
          poffset (L.route inv (j % L.npcol) j).1 p * L.mlocal r +
            L.mlocal r * (L.route inv (j % L.npcol) j).1 p) ∧
    (∀ j p, (L.route inv p j).2.length = (L.route inv (j % L.npcol) j).1 p ∧
      ∀ i < (L.route inv p j).2.length,
        (L.route inv p j).2.getD i 0 = inv (L.jg j + (L.dests inv j p).getD i 0) ∧
          (L.route inv p j).2.getD i 0 / L.nb % L.npcol = p) ∧
    ((∀ a < L.n, ∀ b < L.n, inv a = inv b -> a = b) ->
      ∀ (j : Nat) (s : Packing α) (p : Nat), p ≠ j % L.npcol ->
        ∀ (Qout : Nat -> Nat -> α) (work : Nat -> α), ∀ i < (L.route inv p j).2.length,
          ∀ t < L.mlocal r,
            (L.unpackWork (r, p) (L.route inv p j).2
                (sendWork (L.mlocal r) (poffset (L.route inv (j % L.npcol) j).1 p)
                  ((L.route inv (j % L.npcol) j).1 p) (L.packWork Q inv (r, j % L.npcol) j s).work)
                Qout work).1 ((L.route inv p j).2.getD i 0) ((L.localRows r).getD t 0) =
              Q ((L.localRows r).getD t 0) (L.jg j + (L.dests inv j p).getD i 0)) ∧
    (∀ (x : Nat × Nat) (j : Nat), j % L.npcol = x.2 -> ∀ (a col work : Nat -> α) (base : Nat),
      ((L.copyColToArray x j a base work).2 = L.mlocal x.1 ∧
        ∀ k, (L.copyColToArray x j a base work).1 k =
          if base ≤ k ∧ k < base + L.mlocal x.1 then a ((L.localRows x.1).getD (k - base) 0)
          else work k) ∧
      ((L.copyColFromArray work base x j col).2 = L.mlocal x.1 ∧
        (∀ t < L.mlocal x.1,
          (L.copyColFromArray work base x j col).1 ((L.localRows x.1).getD t 0) = work (base + t)) ∧
        ∀ g ∉ L.localRows x.1, (L.copyColFromArray work base x j col).1 g = col g) ∧
      ((L.copyColMatrix x j a col).2 = L.mlocal x.1 ∧
        ∀ g, (L.copyColMatrix x j a col).1 g = if g ∈ L.localRows x.1 then a g else col g)) ∧
    (∀ j < L.nt, L.jg j = j * L.nb ∧ L.tileNb j ≤ L.nb ∧ L.jg j / L.nb % L.npcol = j % L.npcol) ∧
    (L.localRows r).Sorted (· < ·) ∧
    L.mlocal r = (((List.range L.mt).filter (· % L.nprow = r)).map L.tileMb).sum :=
  ⟨fun _ s _ hp _ hi _ ht => packWork_work rfl Q inv s hp hi ht,
    fun _ _ _ _ _ _ _ hne hi hi' ht ht' => slots_ne hne hi hi' ht ht',
    fun j _ _ hi => L.slot_mem_send inv r (j % L.npcol) j hi,
    fun j p => L.imine_spec inv (j % L.npcol) j p,
    fun hinj _ s _ hp Qout work _ hi _ ht => L.unpackWork_sendWork Q hinj r s hp Qout work hi ht,
    fun _ _ hj a col work base => ⟨L.copyColToArray_spec hj a base work,
      L.copyColFromArray_spec hj work base col, L.copyColMatrix_spec hj a col⟩,
    fun _ hj => ⟨L.jg_of_lt hj, Nat.min_le_left _ _, L.pj_eq hj⟩, L.localRows_sorted r,
    L.mlocal_eq_sum r⟩

end Dist

end Stedc
end Slate
