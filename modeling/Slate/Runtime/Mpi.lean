import Mathlib.Algebra.Order.BigOperators.Group.List
import Mathlib.Algebra.Order.Group.Nat
import Mathlib.Data.List.Infix
import Mathlib.Logic.Relation

/-!
# Blocking point-to-point messages

The distributed routines talk by `MPI_Send` and `MPI_Recv` on one communicator
with one tag.  Each process runs a straight-line program of local steps, sends
and receives: a send reads its data from the sender's local state, and a
receive hands what arrives to the receiver's local state.  MPI matches a
receive from `src` with the oldest message from `src` not yet received, so the
messages between one ordered pair are FIFO.  A send either waits for its
receive (a rendezvous) or, when the implementation buffers it (`eager`), is
queued and returns.

Each instruction carries a tag `K` (for `stedc_sort` the tile and the element
count) on which MPI does not match: that matched sends and receives agree on it
is what is proved here, together with what the receives then deliver.  When the
programs are the projections of one global order of the messages, no reachable
configuration is stuck and every run can be completed; every run is finite,
and all complete configurations are one, in either mode of sending.
-/

namespace Slate
namespace Runtime

/-- One instruction of a process. -/
inductive Instr (P L D K : Type*)
  /-- Local computation. -/
  | compute (f : L -> L)
  /-- `MPI_Send` to `dst` of the data `buf` reads from the local state. -/
  | send (dst : P) (tag : K) (buf : L -> D)
  /-- `MPI_Recv` from `src`; `store` puts what arrives into the local state. -/
  | recv (src : P) (tag : K) (store : D -> L -> L)

/-- A communication, without its data. -/
inductive Comm (P K : Type*)
  | send (dst : P) (tag : K)
  | recv (src : P) (tag : K)
  deriving DecidableEq

/-- A message of a choreography: one global order of all the messages. -/
structure Msg (P K : Type*) where
  src : P
  dst : P
  tag : K

variable {P L D K : Type*} [DecidableEq P]

/-- The tag of a send to `b`. -/
def Comm.sendTo (b : P) : Comm P K -> Option K
  | .send dst k => if dst = b then some k else none
  | .recv _ _ => none

/-- The tag of a receive from `a`. -/
def Comm.recvFrom (a : P) : Comm P K -> Option K
  | .recv src k => if src = a then some k else none
  | .send _ _ => none

/-- The communication of an instruction. -/
def Instr.comm : Instr P L D K -> Option (Comm P K)
  | .compute _ => none
  | .send dst k _ => some (.send dst k)
  | .recv src k _ => some (.recv src k)

/-- The tags of the sends to `b` in a piece of program, in order. -/
def sendsTo (b : P) (l : List (Instr P L D K)) : List K :=
  (l.filterMap Instr.comm).filterMap (Comm.sendTo b)

/-- The tags of the receives from `a` in a piece of program, in order. -/
def recvsFrom (a : P) (l : List (Instr P L D K)) : List K :=
  (l.filterMap Instr.comm).filterMap (Comm.recvFrom a)

@[simp] theorem sendsTo_nil (b : P) : sendsTo b ([] : List (Instr P L D K)) = [] := rfl

@[simp] theorem recvsFrom_nil (a : P) : recvsFrom a ([] : List (Instr P L D K)) = [] := rfl

@[simp] theorem sendsTo_append (b : P) (l l' : List (Instr P L D K)) :
    sendsTo b (l ++ l') = sendsTo b l ++ sendsTo b l' := by
  simp [sendsTo, List.filterMap_append]

@[simp] theorem recvsFrom_append (a : P) (l l' : List (Instr P L D K)) :
    recvsFrom a (l ++ l') = recvsFrom a l ++ recvsFrom a l' := by
  simp [recvsFrom, List.filterMap_append]

@[simp] theorem sendsTo_compute (b : P) (f : L -> L) :
    sendsTo b [(.compute f : Instr P L D K)] = [] := rfl

@[simp] theorem recvsFrom_compute (a : P) (f : L -> L) :
    recvsFrom a [(.compute f : Instr P L D K)] = [] := rfl

@[simp] theorem sendsTo_send (b dst : P) (k : K) (buf : L -> D) :
    sendsTo b [(.send dst k buf : Instr P L D K)] = if b = dst then [k] else [] := by
  by_cases h : b = dst <;> simp [sendsTo, Instr.comm, Comm.sendTo, h, eq_comm]

@[simp] theorem recvsFrom_send (a dst : P) (k : K) (buf : L -> D) :
    recvsFrom a [(.send dst k buf : Instr P L D K)] = [] := rfl

@[simp] theorem sendsTo_recv (b src : P) (k : K) (store : D -> L -> L) :
    sendsTo b [(.recv src k store : Instr P L D K)] = [] := rfl

@[simp] theorem recvsFrom_recv (a src : P) (k : K) (store : D -> L -> L) :
    recvsFrom a [(.recv src k store : Instr P L D K)] = if a = src then [k] else [] := by
  by_cases h : a = src <;> simp [recvsFrom, Instr.comm, Comm.recvFrom, h, eq_comm]

theorem sendsTo_prefix (b : P) {l l' : List (Instr P L D K)} (h : l <+: l') :
    sendsTo b l <+: sendsTo b l' :=
  (h.filterMap _).filterMap _

theorem recvsFrom_prefix (a : P) {l l' : List (Instr P L D K)} (h : l <+: l') :
    recvsFrom a l <+: recvsFrom a l' :=
  (h.filterMap _).filterMap _

theorem eq_of_prefixes {α : Type*} {l₁ l : List α} {x y : α} (hx : l₁ ++ [x] <+: l)
    (hy : l₁ ++ [y] <+: l) : x = y := by
  have h := (List.prefix_of_prefix_length_le hx hy (by simp)).eq_of_length (by simp)
  simpa using h

/-! ## Configurations and steps -/

/-- A configuration: each process's program counter and local state, and the
messages in flight from each process to each other one, oldest first. -/
structure Conf (P L D K : Type*) where
  pc : P -> Nat
  st : P -> L
  chan : P -> P -> List (K × D)

namespace Conf

/-- Process `x` moves past its current instruction, with local state `l`. -/
def next (c : Conf P L D K) (x : P) (l : L) : Conf P L D K :=
  { c with pc := Function.update c.pc x (c.pc x + 1), st := Function.update c.st x l }

/-- The channel from `a` to `b` becomes `q`. -/
def setChan (c : Conf P L D K) (a b : P) (q : List (K × D)) : Conf P L D K :=
  { c with chan := Function.update c.chan a (Function.update (c.chan a) b q) }

/-- Every process at its first instruction in the state `st0`, nothing in flight. -/
def init (st0 : P -> L) : Conf P L D K := ⟨fun _ => 0, st0, fun _ _ => []⟩

@[simp] theorem next_pc (c : Conf P L D K) (x : P) (l : L) (y : P) :
    (c.next x l).pc y = if y = x then c.pc x + 1 else c.pc y :=
  Function.update_apply _ _ _ _

@[simp] theorem next_st (c : Conf P L D K) (x : P) (l : L) (y : P) :
    (c.next x l).st y = if y = x then l else c.st y :=
  Function.update_apply _ _ _ _

@[simp] theorem next_chan (c : Conf P L D K) (x : P) (l : L) : (c.next x l).chan = c.chan := rfl

@[simp] theorem setChan_pc (c : Conf P L D K) (a b : P) (q : List (K × D)) :
    (c.setChan a b q).pc = c.pc := rfl

@[simp] theorem setChan_st (c : Conf P L D K) (a b : P) (q : List (K × D)) :
    (c.setChan a b q).st = c.st := rfl

@[simp] theorem setChan_chan (c : Conf P L D K) (a b : P) (q : List (K × D)) (a' b' : P) :
    (c.setChan a b q).chan a' b' = if a' = a ∧ b' = b then q else c.chan a' b' := by
  by_cases ha : a' = a
  · subst ha; by_cases hb : b' = b <;> simp [setChan, hb]
  · simp [setChan, ha]

end Conf

section Semantics

variable (prog : P -> List (Instr P L D K)) (eager : Bool)

/-- One step of the system: a local step; a send that meets its receive while
nothing older is queued on that channel; and, when MPI buffers sends
(`eager`), a send that is queued, and a receive of the oldest message queued
from its source. -/
inductive Step : Conf P L D K -> Conf P L D K -> Prop
  | compute {c : Conf P L D K} {x : P} {f : L -> L} :
      (prog x)[c.pc x]? = some (.compute f) -> Step c (c.next x (f (c.st x)))
  | rendezvous {c : Conf P L D K} {a b : P} {k k' : K} {buf : L -> D} {store : D -> L -> L} :
      (prog a)[c.pc a]? = some (.send b k buf) -> (prog b)[c.pc b]? = some (.recv a k' store) ->
      c.chan a b = [] -> Step c ((c.next a (c.st a)).next b (store (buf (c.st a)) (c.st b)))
  | post {c : Conf P L D K} {a b : P} {k : K} {buf : L -> D} :
      eager = true -> (prog a)[c.pc a]? = some (.send b k buf) ->
      Step c ((c.next a (c.st a)).setChan a b (c.chan a b ++ [(k, buf (c.st a))]))
  | deliver {c : Conf P L D K} {a b : P} {k' : K} {store : D -> L -> L} {e : K × D}
      {rest : List (K × D)} :
      (prog b)[c.pc b]? = some (.recv a k' store) -> c.chan a b = e :: rest ->
      Step c ((c.next b (store e.2 (c.st b))).setChan a b rest)

/-- The configurations some run from `init st0` reaches. -/
def Reachable (st0 : P -> L) (c : Conf P L D K) : Prop :=
  Relation.ReflTransGen (Step prog eager) (Conf.init st0) c

/-- One instruction of `x` in the sequential meaning, where a receive from `a`
with tag `k` gets `expect a x k`. -/
def Instr.exec (expect : P -> P -> K -> D) (x : P) (l : L) : Instr P L D K -> L
  | .compute f => f l
  | .send _ _ _ => l
  | .recv a k store => store (expect a x k) l

/-- The state of `x` after its first `n` instructions in the sequential meaning. -/
def runExp (expect : P -> P -> K -> D) (st0 : P -> L) (x : P) (n : Nat) : L :=
  ((prog x).take n).foldl (Instr.exec expect x) (st0 x)

/-- What every reachable configuration satisfies, for the data `expect a b k`
that each send from `a` to `b` with tag `k` carries: each process is where the
sequential meaning puts it, and each channel holds the sends not yet received,
with their data. -/
structure Inv (expect : P -> P -> K -> D) (st0 : P -> L) (c : Conf P L D K) : Prop where
  pc_le : ∀ x, c.pc x ≤ (prog x).length
  st_eq : ∀ x, c.st x = runExp prog expect st0 x (c.pc x)
  tags : ∀ a b, sendsTo b ((prog a).take (c.pc a)) =
    recvsFrom a ((prog b).take (c.pc b)) ++ (c.chan a b).map Prod.fst
  data : ∀ a b, ∀ e ∈ c.chan a b, e.2 = expect a b e.1
  rendezvous_only : eager = false -> ∀ a b, c.chan a b = []

variable {prog eager} {expect : P -> P -> K -> D} {st0 : P -> L}

theorem lt_length_of_getElem? {α : Type*} {l : List α} {n : Nat} {i : α} (h : l[n]? = some i) :
    n < l.length :=
  (List.getElem?_eq_some_iff.mp h).1

theorem take_next {c : Conf P L D K} {x : P} {i : Instr P L D K} (h : (prog x)[c.pc x]? = some i)
    (l : L) (y : P) :
    (prog y).take ((c.next x l).pc y) = (prog y).take (c.pc y) ++ if y = x then [i] else [] := by
  by_cases hy : y = x
  · subst hy; simp [List.take_succ, h]
  · simp [hy]

theorem sendsTo_take_next {c : Conf P L D K} {x : P} {i : Instr P L D K}
    (h : (prog x)[c.pc x]? = some i) (l : L) (a b : P) :
    sendsTo b ((prog a).take ((c.next x l).pc a)) =
      sendsTo b ((prog a).take (c.pc a)) ++ if a = x then sendsTo b [i] else [] := by
  rw [take_next h, sendsTo_append, apply_ite (sendsTo b), sendsTo_nil]

theorem recvsFrom_take_next {c : Conf P L D K} {x : P} {i : Instr P L D K}
    (h : (prog x)[c.pc x]? = some i) (l : L) (a b : P) :
    recvsFrom a ((prog b).take ((c.next x l).pc b)) =
      recvsFrom a ((prog b).take (c.pc b)) ++ if b = x then recvsFrom a [i] else [] := by
  rw [take_next h, recvsFrom_append, apply_ite (recvsFrom a), recvsFrom_nil]

omit [DecidableEq P] in
theorem runExp_succ {x : P} {n : Nat} {i : Instr P L D K} (h : (prog x)[n]? = some i) :
    runExp prog expect st0 x (n + 1) = Instr.exec expect x (runExp prog expect st0 x n) i := by
  simp [runExp, List.take_succ, h]

theorem pc_le_next {c : Conf P L D K} (hle : ∀ y, c.pc y ≤ (prog y).length) {x : P}
    {i : Instr P L D K} (h : (prog x)[c.pc x]? = some i) (l : L) (y : P) :
    (c.next x l).pc y ≤ (prog y).length := by
  have := lt_length_of_getElem? h
  by_cases hy : y = x
  · subst hy; simp; omega
  · simp [hy, hle y]

theorem st_eq_next {c : Conf P L D K} (hst : ∀ y, c.st y = runExp prog expect st0 y (c.pc y))
    {x : P} {i : Instr P L D K} (h : (prog x)[c.pc x]? = some i) {l : L}
    (hl : l = Instr.exec expect x (c.st x) i) (y : P) :
    (c.next x l).st y = runExp prog expect st0 y ((c.next x l).pc y) := by
  subst hl
  by_cases hy : y = x
  · subst hy; simp [runExp_succ h, hst]
  · simp [hy, hst]

theorem Inv.init : Inv prog eager expect st0 (Conf.init st0) where
  pc_le _ := Nat.zero_le _
  st_eq _ := rfl
  tags _ _ := rfl
  data _ _ _ h := absurd h (List.not_mem_nil _)
  rendezvous_only _ _ _ := rfl

theorem exists_block_of_getElem? {α : Type*} {ls : List (List α)} {i : Nat} {x : α}
    (h : ls.flatten[i]? = some x) :
    ∃ bl ∈ ls, ∃ s pre, bl[s]? = some x ∧ ls.flatten.take i = pre ++ bl.take s := by
  induction ls generalizing i with
  | nil => simp at h
  | cons bl ls ih =>
      rw [List.flatten_cons] at h ⊢
      by_cases hi : i < bl.length
      · rw [List.getElem?_append_left hi] at h
        exact ⟨bl, List.mem_cons_self _ _, i, [], h, by
          simp [List.take_append_eq_append_take, Nat.sub_eq_zero_of_le (Nat.le_of_lt hi)]⟩
      · rw [List.getElem?_append_right (by omega)] at h
        obtain ⟨bl', hbl, s, pre, hs, htake⟩ := ih h
        refine ⟨bl', List.mem_cons_of_mem _ hbl, s, bl ++ pre, hs, ?_⟩
        rw [List.take_append_eq_append_take, List.take_of_length_le (by omega), htake,
          List.append_assoc]

omit [DecidableEq P] in
theorem buf_of_blocks {blocks : P -> List (List (Instr P L D K))}
    (hprog : ∀ x, prog x = (blocks x).flatten)
    (hblk : ∀ a, ∀ bl ∈ blocks a, ∀ (s : Nat) (b : P) (k : K) (buf : L -> D),
      bl[s]? = some (.send b k buf) -> ∀ l, buf ((bl.take s).foldl (Instr.exec expect a) l) = expect a b k)
    (a : P) (i : Nat) (b : P) (k : K) (buf : L -> D) (h : (prog a)[i]? = some (.send b k buf)) :
    buf (runExp prog expect st0 a i) = expect a b k := by
  rw [hprog] at h
  obtain ⟨bl, hbl, s, pre, hs, htake⟩ := exists_block_of_getElem? h
  rw [runExp, hprog, htake, List.foldl_append]
  exact hblk a bl hbl s b k buf hs _

/-! ## Matched messages agree -/

section Agree

variable (hmatch : ∀ a b, sendsTo b (prog a) = recvsFrom a (prog b))
include hmatch

theorem Inv.tag_of_rendezvous (hi : Inv prog eager expect st0 c) {a b : P} {k k' : K}
    {buf : L -> D} {store : D -> L -> L} (ha : (prog a)[c.pc a]? = some (.send b k buf))
    (hb : (prog b)[c.pc b]? = some (.recv a k' store)) (hq : c.chan a b = []) : k = k' := by
  have hs := sendsTo_prefix b (List.take_prefix (c.pc a + 1) (prog a))
  have hr := recvsFrom_prefix a (List.take_prefix (c.pc b + 1) (prog b))
  rw [List.take_succ, ha, hmatch] at hs
  rw [List.take_succ, hb] at hr
  have := hi.tags a b
  simp only [hq, List.map_nil, List.append_nil] at this
  simp only [Option.toList_some, sendsTo_append, sendsTo_send, if_pos rfl, this] at hs
  simp only [Option.toList_some, recvsFrom_append, recvsFrom_recv, if_pos rfl] at hr
  exact eq_of_prefixes hs hr

theorem Inv.tag_of_deliver (hi : Inv prog eager expect st0 c) {a b : P} {k' : K}
    {store : D -> L -> L} {e : K × D} {rest : List (K × D)}
    (hb : (prog b)[c.pc b]? = some (.recv a k' store)) (hq : c.chan a b = e :: rest) :
    e.1 = k' := by
  have hs := sendsTo_prefix b (List.take_prefix (c.pc a) (prog a))
  have hr := recvsFrom_prefix a (List.take_prefix (c.pc b + 1) (prog b))
  rw [hmatch, hi.tags a b, hq] at hs
  rw [List.take_succ, hb] at hr
  simp only [Option.toList_some, recvsFrom_append, recvsFrom_recv, if_pos rfl] at hr
  exact eq_of_prefixes ((List.prefix_append_right_inj _).mpr (by simp)
    |>.trans hs) hr

variable (hbuf : ∀ (a : P) (i : Nat) (b : P) (k : K) (buf : L -> D),
  (prog a)[i]? = some (.send b k buf) -> buf (runExp prog expect st0 a i) = expect a b k)
include hbuf

/-- Every step keeps the invariant. -/
theorem Inv.step (hi : Inv prog eager expect st0 c) (hs : Step prog eager c c') :
    Inv prog eager expect st0 c' := by
  cases hs with
  | @compute x f h =>
      refine ⟨pc_le_next hi.pc_le h _, st_eq_next hi.st_eq h rfl, fun a b => ?_, hi.data,
        hi.rendezvous_only⟩
      rw [sendsTo_take_next h, recvsFrom_take_next h]
      simp [hi.tags a b]
  | @rendezvous a b k k' buf store ha hb hq =>
      have hab : a ≠ b := by rintro rfl; rw [ha] at hb; cases hb
      obtain rfl := hi.tag_of_rendezvous hmatch ha hb hq
      have hb' : (prog b)[(c.next a (c.st a)).pc b]? = some (.recv a k store) := by
        simpa [Ne.symm hab] using hb
      refine ⟨pc_le_next (pc_le_next hi.pc_le ha _) hb' _,
        st_eq_next (st_eq_next hi.st_eq ha rfl) hb' ?_, fun a' b' => ?_, hi.data,
        hi.rendezvous_only⟩
      · -- the receiver stores what the sender sends
        simp [Ne.symm hab, Instr.exec, hi.st_eq, hbuf a _ _ _ _ ha]
      · rw [sendsTo_take_next hb', sendsTo_take_next ha, recvsFrom_take_next hb',
          recvsFrom_take_next ha, hi.tags a' b']
        by_cases h1 : a' = a <;> by_cases h2 : b' = b <;> simp [h1, h2, hab, Ne.symm hab, hq]
  | @post a b k buf he ha =>
      refine ⟨pc_le_next hi.pc_le ha (c.st a), st_eq_next hi.st_eq ha rfl, fun a' b' => ?_,
        fun a' b' e hmem => ?_, fun hf => absurd he (by simp [hf])⟩
      · simp only [Conf.setChan_pc, Conf.setChan_chan]
        rw [sendsTo_take_next ha, recvsFrom_take_next ha, hi.tags a' b']
        by_cases h1 : a' = a <;> by_cases h2 : b' = b <;> simp [h1, h2]
      · simp only [Conf.setChan_chan, Conf.next_chan] at hmem
        split_ifs at hmem with h
        · obtain ⟨rfl, rfl⟩ := h
          rcases List.mem_append.mp hmem with hmem | hmem
          · exact hi.data _ _ e hmem
          · simp only [List.mem_singleton] at hmem
            subst hmem; simpa [hi.st_eq] using hbuf _ _ _ _ _ ha
        · exact hi.data _ _ e hmem
  | @deliver a b k' store e rest hb hq =>
      have hk := hi.tag_of_deliver hmatch hb hq
      refine ⟨pc_le_next hi.pc_le hb (store e.2 (c.st b)), st_eq_next hi.st_eq hb ?_,
        fun a' b' => ?_, fun a' b' e' hmem => ?_, fun hf a' b' => ?_⟩
      · -- the receiver stores the oldest message, which carries the expected data
        simp [Instr.exec, hi.data a b e (by simp [hq]), hk]
      · simp only [Conf.setChan_pc, Conf.setChan_chan]
        rw [sendsTo_take_next hb, recvsFrom_take_next hb, hi.tags a' b']
        by_cases h1 : a' = a <;> by_cases h2 : b' = b <;> simp [h1, h2, hq, hk]
      · simp only [Conf.setChan_chan, Conf.next_chan] at hmem
        split_ifs at hmem with h
        · obtain ⟨rfl, rfl⟩ := h
          exact hi.data _ _ e' (by simp [hq, hmem])
        · exact hi.data _ _ e' hmem
      · exact absurd hq (by simp [hi.rendezvous_only hf a b])

/-- The invariant holds in every reachable configuration. -/
theorem Reachable.inv (hc : Reachable prog eager st0 c) : Inv prog eager expect st0 c := by
  induction hc with
  | refl => exact Inv.init
  | tail _ hs ih => exact ih.step hmatch hbuf hs

end Agree

/-! ## Runs end -/

theorem Step.pc_mono (hs : Step prog eager c c') (y : P) : c.pc y ≤ c'.pc y := by
  cases hs <;> simp only [Conf.next_pc, Conf.setChan_pc] <;> split_ifs <;> subst_vars <;> omega

theorem Step.pc_advance (hs : Step prog eager c c') :
    ∃ x, c.pc x < c'.pc x ∧ c.pc x < (prog x).length := by
  cases hs with
  | @compute x f h => exact ⟨x, by simp, lt_length_of_getElem? h⟩
  | @rendezvous a b k k' buf store ha hb hq =>
      exact ⟨b, by simp only [Conf.next_pc, if_true]; split_ifs <;> subst_vars <;> omega,
        lt_length_of_getElem? hb⟩
  | @post a b k buf he ha => exact ⟨a, by simp, lt_length_of_getElem? ha⟩
  | @deliver a b k' store e rest hb hq => exact ⟨b, by simp, lt_length_of_getElem? hb⟩

theorem Inv.chan_of_complete (hmatch : ∀ a b, sendsTo b (prog a) = recvsFrom a (prog b))
    (hi : Inv prog eager expect st0 c) (hdone : ∀ x, c.pc x = (prog x).length) (a b : P) :
    c.chan a b = [] := by
  have := hi.tags a b
  rw [hdone, hdone, List.take_length, List.take_length, hmatch] at this
  simpa using this

theorem Inv.st_of_complete (hi : Inv prog eager expect st0 c)
    (hdone : ∀ x, c.pc x = (prog x).length) (x : P) :
    c.st x = (prog x).foldl (Instr.exec expect x) (st0 x) := by
  rw [hi.st_eq, runExp, hdone, List.take_length]

/-! ## A global order of the messages -/

/-- What process `x` does for the message `e`. -/
def Msg.view (x : P) (e : Msg P K) : Option (Comm P K) :=
  if e.src = x then some (.send e.dst e.tag)
  else if e.dst = x then some (.recv e.src e.tag) else none

/-- The part of the choreography `σ` that process `x` takes part in, in order. -/
def proj (σ : List (Msg P K)) (x : P) : List (Comm P K) :=
  σ.filterMap (Msg.view x)

theorem proj_cons (e : Msg P K) (σ : List (Msg P K)) (x : P) :
    proj (e :: σ) x = (e.view x).toList ++ proj σ x := by
  simp only [proj, List.filterMap_cons]
  cases e.view x <;> rfl

theorem toList_filterMap {α β : Type*} (o : Option α) (f : α -> Option β) :
    o.toList.filterMap f = (o.bind f).toList := by
  cases o with
  | none => rfl
  | some a => cases h : f a <;> simp [h]

theorem view_sendTo (e : Msg P K) (h : e.src ≠ e.dst) (a b : P) :
    (e.view a).bind (Comm.sendTo b) = (e.view b).bind (Comm.recvFrom a) := by
  simp only [Msg.view]
  split_ifs <;> simp_all [Comm.sendTo, Comm.recvFrom, eq_comm]

variable {σ : List (Msg P K)}

theorem sendsTo_eq_recvsFrom (hσ : ∀ x, (prog x).filterMap Instr.comm = proj σ x)
    (hne : ∀ e ∈ σ, e.src ≠ e.dst) (a b : P) : sendsTo b (prog a) = recvsFrom a (prog b) := by
  rw [sendsTo, recvsFrom, hσ, hσ, proj, proj, List.filterMap_filterMap, List.filterMap_filterMap]
  exact List.filterMap_congr fun e he => view_sendTo e (hne e he) a b

theorem sendsTo_eq_msgs (hσ : ∀ x, (prog x).filterMap Instr.comm = proj σ x)
    (hne : ∀ e ∈ σ, e.src ≠ e.dst) (a b : P) :
    sendsTo b (prog a) = σ.filterMap fun e => if e.src = a ∧ e.dst = b then some e.tag else none := by
  rw [sendsTo, hσ, proj, List.filterMap_filterMap]
  refine List.filterMap_congr fun e he => ?_
  have := hne e he
  simp only [Msg.view]
  split_ifs <;> simp_all [Comm.sendTo]

theorem take_proj_cons (e : Msg P K) (σ : List (Msg P K)) {x : P} {n : Nat}
    (h : (e.view x).toList.length ≤ n) :
    (proj (e :: σ) x).take n = (e.view x).toList ++ (proj σ x).take (n - (e.view x).toList.length) := by
  rw [proj_cons, List.take_append_eq_append_take, List.take_of_length_le h]

theorem getElem?_proj_cons (e : Msg P K) (σ : List (Msg P K)) {x : P} {n : Nat}
    (h : (e.view x).toList.length ≤ n) :
    (proj (e :: σ) x)[n]? = (proj σ x)[n - (e.view x).toList.length]? := by
  rw [proj_cons, List.getElem?_append_right h]

theorem choreo_next (hne : ∀ e ∈ σ, e.src ≠ e.dst) (cnt : P -> Nat)
    (hle : ∀ a b, (((proj σ b).take (cnt b)).filterMap (Comm.recvFrom a)).length ≤
      (((proj σ a).take (cnt a)).filterMap (Comm.sendTo b)).length)
    (hx : ∃ x, cnt x < (proj σ x).length) :
    ∃ a b k, (proj σ b)[cnt b]? = some (.recv a k) ∧
      ((proj σ a)[cnt a]? = some (.send b k) ∨
        (((proj σ b).take (cnt b)).filterMap (Comm.recvFrom a)).length <
          (((proj σ a).take (cnt a)).filterMap (Comm.sendTo b)).length) := by
  induction σ generalizing cnt with
  | nil => obtain ⟨x, hx⟩ := hx; simp [proj] at hx
  | cons e σ ih =>
      have hed : e.src ≠ e.dst := hne e (List.mem_cons_self _ _)
      have hsrc : e.view e.src = some (.send e.dst e.tag) := if_pos rfl
      have hdst : e.view e.dst = some (.recv e.src e.tag) := by simp [Msg.view, hed]
      by_cases hb0 : cnt e.dst = 0
      · refine ⟨e.src, e.dst, e.tag, by simp [hb0, proj_cons, hdst], ?_⟩
        by_cases ha0 : cnt e.src = 0
        · exact .inl (by simp [ha0, proj_cons, hsrc])
        · right
          obtain ⟨n, hn⟩ := Nat.exists_eq_succ_of_ne_zero ha0
          simp [hb0, hn, proj_cons, hsrc, Comm.sendTo]
      · -- `b` has received `e`, so `a` has sent it: drop `e` from both
        have ha0 : cnt e.src ≠ 0 := by
          intro ha0
          have := hle e.src e.dst
          obtain ⟨n, hn⟩ := Nat.exists_eq_succ_of_ne_zero hb0
          simp [ha0, hn, proj_cons, hdst, Comm.recvFrom] at this
        have hlen : ∀ x, (e.view x).toList.length ≤ cnt x := by
          intro x
          by_cases h1 : e.src = x
          · subst h1; simp [hsrc]; omega
          by_cases h2 : e.dst = x
          · subst h2; simp [hdst]; omega
          simp [Msg.view, h1, h2]
        have hcontrib : ∀ a b, ((e.view b).toList.filterMap (Comm.recvFrom a)).length =
            ((e.view a).toList.filterMap (Comm.sendTo b)).length := fun a b => by
          rw [toList_filterMap, toList_filterMap, view_sendTo e hed]
        have htake := fun x => take_proj_cons e σ (hlen x)
        have hget := fun x => getElem?_proj_cons e σ (hlen x)
        obtain ⟨a, b, k, h1, h2⟩ := ih (fun e' he => hne e' (List.mem_cons_of_mem _ he))
          (fun x => cnt x - (e.view x).toList.length)
          (fun a b => by
            beta_reduce
            have := hle a b
            rw [htake, htake] at this
            simp only [List.filterMap_append, List.length_append, hcontrib] at this
            omega)
          (by
            obtain ⟨x, hx⟩ := hx
            refine ⟨x, ?_⟩
            rw [proj_cons, List.length_append] at hx
            have := hlen x
            show cnt x - _ < _
            omega)
        refine ⟨a, b, k, by rw [hget]; exact h1, ?_⟩
        rcases h2 with h2 | h2
        · exact .inl (by rw [hget]; exact h2)
        · right
          rw [htake, htake]
          simp only [List.filterMap_append, List.length_append, hcontrib]
          omega

theorem getElem?_of_prefix {α : Type*} {l₁ l : List α} {x : α} (h : l₁ ++ [x] <+: l) :
    l[l₁.length]? = some x := by
  obtain ⟨t, rfl⟩ := h
  rw [List.append_assoc, List.getElem?_append_right (le_refl _), Nat.sub_self]
  simp

omit [DecidableEq P] in
theorem Instr.eq_send_of_comm {i : Instr P L D K} {b : P} {k : K} (h : i.comm = some (.send b k)) :
    ∃ buf, i = .send b k buf := by
  cases i <;> simp_all [Instr.comm]

omit [DecidableEq P] in
theorem Instr.eq_recv_of_comm {i : Instr P L D K} {a : P} {k : K} (h : i.comm = some (.recv a k)) :
    ∃ store, i = .recv a k store := by
  cases i <;> simp_all [Instr.comm]

/-- No deadlock: when the programs follow a choreography, in every
configuration the invariant holds in where some process is not done, some step
can be taken. -/
theorem Inv.progress (hσ : ∀ x, (prog x).filterMap Instr.comm = proj σ x)
    (hne : ∀ e ∈ σ, e.src ≠ e.dst) (hi : Inv prog eager expect st0 c)
    (hun : ∃ x, c.pc x < (prog x).length) : ∃ c', Step prog eager c c' := by
  by_cases hcomp : ∃ x f, (prog x)[c.pc x]? = some (.compute f)
  · obtain ⟨x, f, h⟩ := hcomp
    exact ⟨_, .compute h⟩
  push_neg at hcomp
  -- the number of communications each process has done
  let cnt x := (((prog x).take (c.pc x)).filterMap Instr.comm).length
  have hpre : ∀ x, ((prog x).take (c.pc x)).filterMap Instr.comm = (proj σ x).take (cnt x) :=
    fun x => by rw [← hσ]; exact List.prefix_iff_eq_take.mp ((List.take_prefix _ _).filterMap _)
  have hhead : ∀ x i, (prog x)[c.pc x]? = some i ->
      ∃ cm, i.comm = some cm ∧ (proj σ x)[cnt x]? = some cm := by
    intro x i h
    have hi' : ∃ cm, i.comm = some cm := by
      cases i with
      | compute f => exact absurd h (hcomp x f)
      | send => exact ⟨_, rfl⟩
      | recv => exact ⟨_, rfl⟩
    obtain ⟨cm, hcm⟩ := hi'
    have hp : ((prog x).take (c.pc x)).filterMap Instr.comm ++ [cm] <+: proj σ x := by
      have := (List.take_prefix (c.pc x + 1) (prog x)).filterMap Instr.comm
      simp only [List.take_succ, h, Option.toList_some, List.filterMap_append,
        List.filterMap_cons, hcm, List.filterMap_nil, hσ] at this
      exact this
    exact ⟨cm, hcm, getElem?_of_prefix hp⟩
  -- a process whose next communication in `σ` is `cm` is at an instruction doing `cm`
  have hat : ∀ x cm, (proj σ x)[cnt x]? = some cm ->
      ∃ i, (prog x)[c.pc x]? = some i ∧ i.comm = some cm := by
    intro x cm hcm
    by_cases hp : c.pc x < (prog x).length
    · obtain ⟨cm', hcm', h'⟩ := hhead x _ (List.getElem?_eq_getElem hp)
      exact ⟨_, List.getElem?_eq_getElem hp, hcm'.trans (h'.symm.trans hcm)⟩
    · simp [cnt, List.take_of_length_le (not_lt.mp hp), hσ] at hcm
  have hcount : ∀ a b, (((proj σ a).take (cnt a)).filterMap (Comm.sendTo b)).length =
      (((proj σ b).take (cnt b)).filterMap (Comm.recvFrom a)).length + (c.chan a b).length :=
    fun a b => by simpa [sendsTo, recvsFrom, hpre] using congrArg List.length (hi.tags a b)
  obtain ⟨a, b, k, hrecv, hor⟩ := choreo_next hne cnt (fun a b => by rw [hcount]; omega) (by
    obtain ⟨x, hx⟩ := hun
    obtain ⟨cm, -, hcm⟩ := hhead x _ (List.getElem?_eq_getElem hx)
    exact ⟨x, (List.getElem?_eq_some_iff.mp hcm).1⟩)
  obtain ⟨ib, hib, hcb⟩ := hat b _ hrecv
  obtain ⟨store, rfl⟩ := Instr.eq_recv_of_comm hcb
  by_cases hq : c.chan a b = []
  · rcases hor with hsend | hlt
    · obtain ⟨ia, hia, hca⟩ := hat a _ hsend
      obtain ⟨buf, rfl⟩ := Instr.eq_send_of_comm hca
      exact ⟨_, .rendezvous hia hib hq⟩
    · have := hcount a b
      rw [hq, List.length_nil] at this
      omega
  · obtain ⟨e, rest, he⟩ := List.exists_cons_of_ne_nil hq
    exact ⟨_, .deliver hib he⟩

theorem Step.left_lt (procs : List P) (hsupp : ∀ x, x ∉ procs -> prog x = [])
    (hle : ∀ x, c'.pc x ≤ (prog x).length) (hs : Step prog eager c c') :
    (procs.map fun x => (prog x).length - c'.pc x).foldr (· + ·) 0 <
      (procs.map fun x => (prog x).length - c.pc x).foldr (· + ·) 0 := by
  obtain ⟨x, hx1, hx2⟩ := hs.pc_advance
  have hxp : x ∈ procs := by
    by_contra h
    rw [hsupp x h] at hx2
    exact absurd hx2 (Nat.not_lt_zero _)
  refine List.sum_lt_sum _ _ (fun y _ => ?_) ⟨x, hxp, ?_⟩
  · have := hs.pc_mono y; omega
  · have := hle x; omega

/-- Every reachable configuration can be run to one where every process has
run its whole program; `procs` lists the processes that have a program. -/
theorem Reachable.exists_complete (procs : List P) (hsupp : ∀ x, x ∉ procs -> prog x = [])
    (hσ : ∀ x, (prog x).filterMap Instr.comm = proj σ x) (hne : ∀ e ∈ σ, e.src ≠ e.dst)
    (hbuf : ∀ (a : P) (i : Nat) (b : P) (k : K) (buf : L -> D),
      (prog a)[i]? = some (.send b k buf) -> buf (runExp prog expect st0 a i) = expect a b k)
    (hc : Reachable prog eager st0 c) :
    ∃ c', Reachable prog eager st0 c' ∧ ∀ x, c'.pc x = (prog x).length := by
  have hmatch := sendsTo_eq_recvsFrom hσ hne
  generalize hm : (procs.map fun x => (prog x).length - c.pc x).foldr (· + ·) 0 = m
  induction m using Nat.strong_induction_on generalizing c with
  | _ m ih =>
      have hi := hc.inv hmatch hbuf
      by_cases hun : ∃ x, c.pc x < (prog x).length
      · obtain ⟨c', hs⟩ := hi.progress hσ hne hun
        exact ih _ (hm ▸ hs.left_lt procs hsupp (hi.step hmatch hbuf hs).pc_le) (hc.tail hs) rfl
      · push_neg at hun
        exact ⟨c, hc, fun x => le_antisymm (hi.pc_le x) (hun x)⟩

/-- No run is infinite: from a reachable configuration every sequence of
steps ends. -/
theorem Reachable.acc (procs : List P) (hsupp : ∀ x, x ∉ procs -> prog x = [])
    (hmatch : ∀ a b, sendsTo b (prog a) = recvsFrom a (prog b))
    (hbuf : ∀ (a : P) (i : Nat) (b : P) (k : K) (buf : L -> D),
      (prog a)[i]? = some (.send b k buf) -> buf (runExp prog expect st0 a i) = expect a b k)
    (hc : Reachable prog eager st0 c) : Acc (flip (Step prog eager)) c := by
  generalize hm : (procs.map fun x => (prog x).length - c.pc x).foldr (· + ·) 0 = m
  induction m using Nat.strong_induction_on generalizing c with
  | _ m ih =>
      exact ⟨_, fun c' hs =>
        ih _ (hm ▸ hs.left_lt procs hsupp (Reachable.inv hmatch hbuf (hc.tail hs)).pc_le)
          (hc.tail hs) rfl⟩

theorem Step.of_rendezvous (hs : Step prog false c c') : Step prog eager c c' := by
  cases hs with
  | compute h => exact .compute h
  | rendezvous ha hb hq => exact .rendezvous ha hb hq
  | post he => cases he
  | deliver hb hq => exact .deliver hb hq

theorem Reachable.of_rendezvous (hc : Reachable prog false st0 c) : Reachable prog eager st0 c :=
  hc.mono fun _ _ => Step.of_rendezvous

attribute [ext] Conf

/-- Two configurations where every process has run its whole program are the
same, whatever the interleavings that led to them and whether sends were
buffered: each process holds the result of the sequential meaning and nothing
is in flight. -/
theorem Inv.eq_of_complete (hmatch : ∀ a b, sendsTo b (prog a) = recvsFrom a (prog b))
    {eager' : Bool} {c' : Conf P L D K} (hi : Inv prog eager expect st0 c)
    (hi' : Inv prog eager' expect st0 c') (hdone : ∀ x, c.pc x = (prog x).length)
    (hdone' : ∀ x, c'.pc x = (prog x).length) : c = c' := by
  ext x
  · rw [hdone, hdone']
  · rw [hi.st_of_complete hdone, hi'.st_of_complete hdone']
  · rw [hi.chan_of_complete hmatch hdone, hi'.chan_of_complete hmatch hdone']

end Semantics

end Runtime
end Slate
