import Mathlib.Data.List.Basic
import Mathlib.Data.List.Nodup
import Mathlib.Data.List.Perm.Basic
import Mathlib.Data.List.Range

/-!
# OpenMP task graphs

The level-3 drivers issue their work as sibling `omp task`s whose only
ordering is given by `depend` clauses on the entries of the `bcast` and `gemm`
token vectors.  This module gives the runtime semantics those clauses promise:
a task that is issued later waits for an earlier task when an in-dependence
meets an earlier out-dependence, or an out-dependence meets any earlier
dependence on the same address.  A run is any trace of start and finish events
the runtime may produce under that rule; every prefix of a run is a run, so a
statement over all runs is a statement about every moment of every schedule.
-/

namespace Slate
namespace Runtime

/-- An address named in a `depend` clause: an entry of the `bcast` or the
`gemm` token vector of a sweep. -/
inductive Token
  | bcast (i : Int)
  | gemm (i : Int)
  deriving DecidableEq, Repr

/-- The index of a token in its vector. -/
def Token.index : Token -> Int
  | .bcast i => i
  | .gemm i => i

/-- The `depend(in: ...)` and `depend(out: ...)` lists of one task. -/
structure Depend where
  ins : List Token
  outs : List Token
  deriving DecidableEq, Repr

/-- The OpenMP rule for a task `b` issued after a sibling `a`. -/
def Depend.Conflicts (a b : Depend) : Prop :=
  (∃ x ∈ b.ins, x ∈ a.outs) ∨ (∃ x ∈ b.outs, x ∈ a.ins ∨ x ∈ a.outs)

instance (a b : Depend) : Decidable (a.Conflicts b) := by
  unfold Depend.Conflicts; infer_instance

variable {L : Type}

/-- `a` is issued before `b` by the generating thread. -/
def IssuedBefore (order : List L) (a b : L) : Prop :=
  [a, b].Sublist order

instance [DecidableEq L] (order : List L) (a b : L) :
    Decidable (IssuedBefore order a b) := by
  unfold IssuedBefore; infer_instance

/-- Task `b` may start only after task `a` has finished. -/
def Waits (order : List L) (dep : L -> Depend) (a b : L) : Prop :=
  IssuedBefore order a b ∧ (dep a).Conflicts (dep b)

instance [DecidableEq L] (order : List L) (dep : L -> Depend) (a b : L) :
    Decidable (Waits order dep a b) := by
  unfold Waits; infer_instance

theorem IssuedBefore.mem_left {order : List L} {a b : L}
    (h : IssuedBefore order a b) : a ∈ order :=
  h.subset (List.mem_cons_self a [b])

theorem issuedBefore_append {l₁ l₂ : List L} {a b : L}
    (ha : a ∈ l₁) (hb : b ∈ l₂) : IssuedBefore (l₁ ++ l₂) a b :=
  (List.singleton_sublist.mpr ha).append (List.singleton_sublist.mpr hb)

theorem IssuedBefore.append_left {order : List L} {a b : L} (pre : List L)
    (h : IssuedBefore order a b) : IssuedBefore (pre ++ order) a b :=
  h.trans (List.sublist_append_right pre order)

theorem IssuedBefore.mem_prefix {pre post : List L} {a t : L} (hnd : (pre ++ t :: post).Nodup)
    (h : IssuedBefore (pre ++ t :: post) a t) : a ∈ pre := by
  obtain ⟨hpre, hpost, hdisj⟩ := List.nodup_append.mp hnd
  have htpost : t ∉ post := (List.nodup_cons.mp hpost).1
  obtain ⟨l₁, l₂, heq, h1, h2⟩ := List.sublist_append_iff.mp h
  rcases l₁ with _ | ⟨x, _ | ⟨y, _ | ⟨z, l₁⟩⟩⟩
  · subst heq
    refine absurd ?_ htpost
    rcases List.sublist_cons_iff.mp h2 with h2 | ⟨r, hr, h2⟩
    · exact h2.subset (by simp)
    · obtain ⟨-, rfl⟩ := List.cons.inj hr
      exact List.singleton_sublist.mp h2
  · obtain ⟨rfl, -⟩ := List.cons.inj heq
    exact List.singleton_sublist.mp h1
  · obtain ⟨rfl, rfl, -⟩ : a = x ∧ t = y ∧ _ := by simpa using heq
    exact absurd (h1.subset (by simp)) fun ht => hdisj ht (List.mem_cons_self t post)
  · simp at heq

/-- One event of a run. -/
inductive Event (L : Type)
  | start (t : L)
  | finish (t : L)
  deriving DecidableEq, Repr

/-- The event traces, newest event first, that a runtime honouring the
`depend` clauses of the tasks `order` (in issue order) can produce. -/
inductive Run (order : List L) (dep : L -> Depend) : List (Event L) -> Prop
  | nil : Run order dep []
  | start {tr : List (Event L)} {t : L} : Run order dep tr -> t ∈ order ->
      Event.start t ∉ tr ->
      (forall a, Waits order dep a t -> Event.finish a ∈ tr) ->
      Run order dep (.start t :: tr)
  | finish {tr : List (Event L)} {t : L} : Run order dep tr ->
      Event.start t ∈ tr -> Event.finish t ∉ tr ->
      Run order dep (.finish t :: tr)

namespace Run

variable {order : List L} {dep : L -> Depend} {tr : List (Event L)}

theorem start' {t : L} (h : Run order dep tr) (ht : t ∈ order)
    (hfresh : Event.start t ∉ tr)
    (hwait : ∀ a ∈ order, Waits order dep a t -> Event.finish a ∈ tr) :
    Run order dep (.start t :: tr) :=
  h.start ht hfresh fun a ha => hwait a ha.1.mem_left ha

theorem started_of_finished {t : L} (h : Run order dep tr)
    (hf : Event.finish t ∈ tr) : Event.start t ∈ tr := by
  induction h with
  | nil => cases hf
  | start _ _ _ _ ih =>
      exact List.mem_cons_of_mem _ (ih (by simpa using hf))
  | @finish tr u _ hs _ ih =>
      rcases List.mem_cons.mp hf with he | hf
      · cases he; exact List.mem_cons_of_mem _ hs
      · exact List.mem_cons_of_mem _ (ih hf)

theorem mem_of_started {t : L} (h : Run order dep tr) (hs : Event.start t ∈ tr) :
    t ∈ order := by
  induction h with
  | nil => cases hs
  | @start tr u _ hu _ _ ih =>
      rcases List.mem_cons.mp hs with he | hs
      · cases he; exact hu
      · exact ih hs
  | finish _ _ _ ih => exact ih (by simpa using hs)

theorem finished_of_started {a b : L} (h : Run order dep tr)
    (hs : Event.start b ∈ tr) (hw : Waits order dep a b) :
    Event.finish a ∈ tr := by
  induction h with
  | nil => cases hs
  | @start tr u _ _ _ hwait ih =>
      rcases List.mem_cons.mp hs with he | hs
      · cases he; exact List.mem_cons_of_mem _ (hwait a hw)
      · exact List.mem_cons_of_mem _ (ih hs)
  | finish _ _ _ ih =>
      exact List.mem_cons_of_mem _ (ih (by simpa using hs))

theorem finished_chain {chain : Nat -> L} {n : Nat}
    (hchain : forall k, k + 1 < n -> Waits order dep (chain k) (chain (k + 1)))
    (h : Run order dep tr) {j k : Nat} (hjk : j ≤ k) (hkn : k < n)
    (hk : Event.finish (chain k) ∈ tr) : Event.finish (chain j) ∈ tr := by
  induction k with
  | zero => rwa [Nat.le_zero.mp hjk]
  | succ k ih =>
      rcases Nat.eq_or_lt_of_le hjk with rfl | hjk
      · exact hk
      · exact ih (by omega) (by omega)
          (h.finished_of_started (h.started_of_finished hk) (hchain k hkn))

end Run

/-! ## The serial schedule -/

/-- The schedule that runs the tasks one at a time in issue order, newest
event first. -/
def serial (order : List L) : List (Event L) :=
  order.reverse.flatMap fun t => [.finish t, .start t]

@[simp] theorem serial_append_singleton (l : List L) (t : L) :
    serial (l ++ [t]) = .finish t :: .start t :: serial l := by
  simp [serial]

@[simp] theorem finish_mem_serial {l : List L} {t : L} : Event.finish t ∈ serial l ↔ t ∈ l := by
  simp [serial]

@[simp] theorem start_mem_serial {l : List L} {t : L} : Event.start t ∈ serial l ↔ t ∈ l := by
  simp [serial]

theorem Run.serial_prefix {order : List L} {dep : L -> Depend} (hnd : order.Nodup)
    {pre post : List L} (hpre : pre ++ post = order) : Run order dep (serial pre) := by
  induction pre using List.reverseRecOn generalizing post with
  | nil => exact .nil
  | append_singleton l t ih =>
      subst hpre
      have hnd' : (l ++ t :: post).Nodup := by simpa using hnd
      have htl : t ∉ l := fun h => (List.nodup_append.mp hnd').2.2 h (List.mem_cons_self t post)
      rw [serial_append_singleton]
      refine .finish (.start (ih (List.append_assoc l [t] post).symm) (by simp) (by simpa using htl)
        fun a hw => ?_) (List.mem_cons_self _ _) (by simpa using htl)
      exact finish_mem_serial.mpr (IssuedBefore.mem_prefix hnd' (by simpa using hw.1))

/-- The serial schedule is a run that finishes every task. -/
theorem Run.serial {order : List L} {dep : L -> Depend} (hnd : order.Nodup) :
    Run order dep (serial order) ∧ ∀ t ∈ order, Event.finish t ∈ serial order :=
  ⟨Run.serial_prefix hnd (List.append_nil order), fun _ => finish_mem_serial.mpr⟩

/-- The effect of a trace on a state when each task acts once, as it
finishes. -/
def replay {σ : Type*} (effect : L -> σ -> σ) : List (Event L) -> σ -> σ
  | [], s => s
  | .start _ :: tr, s => replay effect tr s
  | .finish t :: tr, s => effect t (replay effect tr s)

/-- The chain's effects applied in chain order to its first `c` members. -/
def chainState {σ : Type*} (effect : L -> σ -> σ) (chain : Nat -> L) (s : σ)
    (c : Nat) : σ :=
  (List.range c).foldl (fun s k => effect (chain k) s) s

theorem chainState_succ {σ : Type*} (effect : L -> σ -> σ) (chain : Nat -> L)
    (s : σ) (c : Nat) :
    chainState effect chain s (c + 1) =
      effect (chain c) (chainState effect chain s c) := by
  simp [chainState, List.range_succ, List.foldl_append]

/-- The tasks a trace has finished, oldest first. -/
def finishes : List (Event L) -> List L
  | [] => []
  | .start _ :: tr => finishes tr
  | .finish t :: tr => finishes tr ++ [t]

@[simp] theorem mem_finishes {tr : List (Event L)} {t : L} :
    t ∈ finishes tr ↔ Event.finish t ∈ tr := by
  induction tr with
  | nil => simp [finishes]
  | cons e tr ih => cases e <;> simp [finishes, ih, or_comm]

@[simp] theorem finishes_append (l₁ l₂ : List (Event L)) :
    finishes (l₁ ++ l₂) = finishes l₂ ++ finishes l₁ := by
  induction l₁ with
  | nil => simp [finishes]
  | cons e l ih => cases e <;> simp [finishes, ih]

@[simp] theorem finishes_serial (l : List L) : finishes (serial l) = l := by
  induction l using List.reverseRecOn with
  | nil => rfl
  | append_singleton l t ih => simp [finishes, ih]

theorem replay_eq_foldl {σ : Type*} (effect : L -> σ -> σ) (tr : List (Event L)) (s : σ) :
    replay effect tr s = (finishes tr).foldl (fun s t => effect t s) s := by
  induction tr with
  | nil => rfl
  | cons e tr ih => cases e <;> simp [replay, finishes, ih]

theorem Run.nodup_finishes {order : List L} {dep : L -> Depend} {tr : List (Event L)}
    (h : Run order dep tr) : (finishes tr).Nodup := by
  induction h with
  | nil => exact List.nodup_nil
  | start _ _ _ _ ih => exact ih
  | finish _ _ hfresh ih =>
      exact List.nodup_append.mpr ⟨ih, List.nodup_singleton _,
        fun t ht ht' => hfresh (by rw [List.mem_singleton.mp ht'] at ht; exact mem_finishes.mp ht)⟩

theorem Run.mem_finishes_iff {order : List L} {dep : L -> Depend} {tr : List (Event L)}
    (h : Run order dep tr) (hdone : ∀ t ∈ order, Event.finish t ∈ tr) {t : L} :
    t ∈ finishes tr ↔ t ∈ order :=
  ⟨fun ht => h.mem_of_started (h.started_of_finished (mem_finishes.mp ht)),
    fun ht => mem_finishes.mpr (hdone t ht)⟩

theorem Run.serial_free_append {order : List L} {dep : L -> Depend}
    (hfree : ∀ a b, ¬ (dep a).Conflicts (dep b)) {base : List (Event L)} (hbase : Run order dep base)
    {l : List L} (hnd : l.Nodup) (hsub : ∀ t ∈ l, t ∈ order)
    (hnew : ∀ t ∈ l, Event.start t ∉ base ∧ Event.finish t ∉ base) :
    Run order dep (Runtime.serial l ++ base) := by
  induction l using List.reverseRecOn with
  | nil => exact hbase
  | append_singleton l t ih =>
      have htl : t ∉ l := fun h => (List.nodup_append.mp hnd).2.2 h (List.mem_singleton_self t)
      have ht := hnew t (by simp)
      rw [serial_append_singleton, List.cons_append, List.cons_append]
      exact .finish (.start (ih (List.nodup_append.mp hnd).1 (fun x hx => hsub x (by simp [hx]))
        fun x hx => hnew x (by simp [hx])) (hsub t (by simp)) (by simpa [htl] using ht.1)
        fun a hw => absurd hw.2 (hfree a t)) (List.mem_cons_self _ _) (by simpa [htl] using ht.2)

theorem Run.serial_free {order : List L} {dep : L -> Depend}
    (hfree : ∀ a b, ¬ (dep a).Conflicts (dep b)) {l : List L} (hnd : l.Nodup)
    (hsub : ∀ t ∈ l, t ∈ order) : Run order dep (Runtime.serial l) := by
  simpa using Run.serial_free_append hfree .nil hnd hsub (by simp)

section Chain

variable {σ : Type*} {order : List L} {dep : L -> Depend} {effect : L -> σ -> σ}
  {chain : Nat -> L}

/-- When only the members of a chain act, every run has finished an initial
segment `[0, c)` of the chain and its effect is the chain's first `c`
effects in chain order, whatever the interleaving. -/
theorem Run.replay_chain (hinj : Function.Injective chain) {n : Nat}
    (hchain : forall k, k + 1 < n -> Waits order dep (chain k) (chain (k + 1)))
    (hmem : forall k, chain k ∈ order -> k < n)
    (hidle : forall t, (forall k, t ≠ chain k) -> effect t = id)
    {tr : List (Event L)} (h : Run order dep tr) (s : σ) :
    exists c, (forall k, Event.finish (chain k) ∈ tr ↔ k < c) ∧
      replay effect tr s = chainState effect chain s c := by
  induction h with
  | nil => exact ⟨0, by simp, rfl⟩
  | start _ _ _ _ ih =>
      obtain ⟨c, hc, hs⟩ := ih
      exact ⟨c, fun k => by simpa using hc k, hs⟩
  | @finish tr t hrun hstart hfresh ih =>
      obtain ⟨c, hc, hs⟩ := ih
      by_cases ht : exists k, t = chain k
      · obtain ⟨k, rfl⟩ := ht
        have hge : c ≤ k := Nat.not_lt.mp fun hk => hfresh ((hc k).mpr hk)
        have hle : k ≤ c := by
          cases k with
          | zero => omega
          | succ k =>
              exact (hc k).mp (hrun.finished_of_started hstart
                (hchain k (hmem _ (hrun.mem_of_started hstart))))
        obtain rfl : k = c := by omega
        refine ⟨k + 1, fun j => ?_, by rw [replay, hs, chainState_succ]⟩
        simp only [List.mem_cons, Event.finish.injEq, hinj.eq_iff, hc]
        omega
      · push_neg at ht
        refine ⟨c, fun k => ?_, by rw [replay, hidle t ht, hs]; rfl⟩
        simp [hc, (ht k).symm]

end Chain

/-! ## Tasks that read as they start and write as they finish -/

section Split

/-- Tasks sharing a resource do not overlap in `tr`: of two that have
started, one had finished before the other started. -/
def Exclusive (shares : L -> Prop) (tr : List (Event L)) : Prop :=
  ∀ a b, a ≠ b -> shares a -> shares b -> Event.start a ∈ tr -> Event.start b ∈ tr ->
    [Event.start b, Event.finish a].Sublist tr ∨ [Event.start a, Event.finish b].Sublist tr

theorem sublist_pair_of_cons {α : Type*} {x y e : α} {l : List α} (h : [x, y].Sublist (e :: l))
    (hx : x ∈ l) (he : e ∉ l) : [x, y].Sublist l := by
  rcases List.sublist_cons_iff.mp h with h | ⟨r, hr, -⟩
  · exact h
  · obtain ⟨rfl, -⟩ := List.cons.inj hr
    exact absurd hx he

theorem Exclusive.of_cons {shares : L -> Prop} {e : Event L} {tr : List (Event L)}
    (hex : Exclusive shares (e :: tr)) (he : e ∉ tr) : Exclusive shares tr := by
  intro a b hab ha hb hsa hsb
  rcases hex a b hab ha hb (List.mem_cons_of_mem _ hsa) (List.mem_cons_of_mem _ hsb) with h | h
  · exact .inl (sublist_pair_of_cons h hsb he)
  · exact .inr (sublist_pair_of_cons h hsa he)

theorem exclusive_serial (shares : L -> Prop) (l : List L) : Exclusive shares (serial l) := by
  induction l using List.reverseRecOn with
  | nil => intro a _ _ _ _ ha; cases ha
  | append_singleton l t ih =>
      intro a b hab ha hb hsa hsb
      rw [serial_append_singleton] at hsa hsb ⊢
      simp only [List.mem_cons, Event.start.injEq, reduceCtorEq, false_or, start_mem_serial] at hsa hsb
      rcases hsa with rfl | hsa
      · have hb' : b ∈ l := hsb.resolve_left fun h => hab h.symm
        exact .inr (((List.singleton_sublist.mpr (finish_mem_serial.mpr hb')).cons₂ _).cons _)
      rcases hsb with rfl | hsb
      · exact .inl (((List.singleton_sublist.mpr (finish_mem_serial.mpr hsa)).cons₂ _).cons _)
      rcases ih a b hab ha hb (start_mem_serial.mpr hsa) (start_mem_serial.mpr hsb) with h | h
      · exact .inl ((h.cons _).cons _)
      · exact .inr ((h.cons _).cons _)

variable [DecidableEq L] {σ : Type*}

/-- The effect of a trace when a task reads the state as it starts and acts,
as it finishes, on what it read: `effect t s0 s` is the state once `t`, which
read `s0`, finishes in state `s`.  The second component keeps what each
started task read. -/
def replaySplit (effect : L -> σ -> σ -> σ) : List (Event L) -> σ -> σ × (L -> Option σ)
  | [], s => (s, fun _ => none)
  | .start t :: tr, s =>
      let r := replaySplit effect tr s
      (r.1, Function.update r.2 t (some r.1))
  | .finish t :: tr, s =>
      let r := replaySplit effect tr s
      ((r.2 t).elim r.1 fun s0 => effect t s0 r.1, r.2)

theorem replaySplit_serial_append (effect : L -> σ -> σ -> σ) (l : List L) (base : List (Event L))
    (s : σ) : (replaySplit effect (serial l ++ base) s).1 =
      l.foldl (fun s t => effect t s s) (replaySplit effect base s).1 := by
  induction l using List.reverseRecOn with
  | nil => rfl
  | append_singleton l t ih =>
      rw [serial_append_singleton, List.foldl_append, ← ih]
      simp [replaySplit]

section Refine

variable {β : Type*} {effect : L -> σ -> σ -> σ} (obs : σ -> β) (shares : L -> Prop)
  (hframe : ∀ t s0 s, ¬ shares t -> obs (effect t s0 s) = obs s)
  (hlocal : ∀ t s0 s0' s s', shares t -> obs s0 = obs s0' ->
    obs (effect t s0 s) = obs (effect t s0' s'))
include hframe hlocal

/-- What a run observes of a resource when its sharers do not overlap: the
same as the atomic effects, and every running sharer read the current value. -/
theorem Run.replaySplit_inv {order : List L} {dep : L -> Depend} {tr : List (Event L)}
    (h : Run order dep tr) (hex : Exclusive shares tr) (s : σ) :
    obs (replaySplit effect tr s).1 = obs (replay (fun t s => effect t s s) tr s) ∧
      ∀ t, shares t -> Event.start t ∈ tr -> Event.finish t ∉ tr ->
        ∃ s0, (replaySplit effect tr s).2 t = some s0 ∧ obs s0 = obs (replaySplit effect tr s).1 := by
  induction h with
  | nil => exact ⟨rfl, fun _ _ h => by cases h⟩
  | @start tr t _ _ hfresh _ ih =>
      obtain ⟨h1, h2⟩ := ih (hex.of_cons hfresh)
      refine ⟨h1, fun t' hs hst hnf => ?_⟩
      by_cases ht : t' = t
      · subst ht; exact ⟨_, by simp [replaySplit], rfl⟩
      · obtain ⟨s0, hsnap, hobs⟩ := h2 t' hs (by simpa [ht] using hst) (by simpa using hnf)
        exact ⟨s0, by simp [replaySplit, ht, hsnap], hobs⟩
  | @finish tr t _ hstart hfresh ih =>
      obtain ⟨h1, h2⟩ := ih (hex.of_cons hfresh)
      by_cases hs : shares t
      · -- the finishing sharer read the current value, and no other sharer runs
        obtain ⟨s0, hsnap, hobs⟩ := h2 t hs hstart hfresh
        refine ⟨?_, fun t' hs' hst' hnf' => ?_⟩
        · simp only [replaySplit, replay, hsnap, Option.elim]
          exact hlocal t _ _ _ _ hs (hobs.trans h1)
        · have htt : t ≠ t' := fun h => hnf' (by simp [h])
          rcases hex t t' htt hs hs' (List.mem_cons_of_mem _ hstart) hst' with h | h
          · exact (hfresh ((sublist_pair_of_cons h (by simpa using hst') hfresh).subset (by simp))).elim
          · exact absurd (h.subset (by simp)) hnf'
      · -- a task not sharing the resource leaves it alone
        have hkeep : obs (replaySplit effect (.finish t :: tr) s).1 = obs (replaySplit effect tr s).1 := by
          simp only [replaySplit]
          cases (replaySplit effect tr s).2 t <;> simp [hframe t _ _ hs]
        refine ⟨by rw [hkeep, h1]; simp [replay, hframe t _ _ hs], fun t' hs' hst' hnf' => ?_⟩
        obtain ⟨s0, hsnap, hobs⟩ := h2 t' hs' (by simpa using hst') fun h => hnf' (List.mem_cons_of_mem _ h)
        exact ⟨s0, hsnap, hobs.trans hkeep.symm⟩

/-- The split semantics refines the atomic one on a resource whose sharers
never overlap. -/
theorem Run.replaySplit_eq {order : List L} {dep : L -> Depend} {tr : List (Event L)}
    (h : Run order dep tr) (hex : Exclusive shares tr) (s : σ) :
    obs (replaySplit effect tr s).1 = obs (replay (fun t s => effect t s s) tr s) :=
  (h.replaySplit_inv obs shares hframe hlocal hex s).1

end Refine

end Split

end Runtime
end Slate
