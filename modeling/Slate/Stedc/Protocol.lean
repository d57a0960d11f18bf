import Slate.Stedc.Correct

/-!
# The runs of `stedc_sort`

`Correct` reads off what a complete run leaves on each process.  Here are the
runs themselves, over every interleaving of the processes of the grid and
both modes of `MPI_Send`: buffered (`eager`), where a send returns once its
message is queued, and the rendezvous, where it waits for its receive.

* Every run is finite, and a run stops only once every process has run
  `stedc_sort` to its end: it never stops early, blocked or not.
* All complete runs end in one configuration, reachable in either mode, with
  no message left in flight.
* At every moment, between each ordered pair of processes, the messages sent
  so far are those received followed by those queued, in order; each queued
  message carries the local rows of the columns of its tile bound for the
  receiver, and a receive takes a message of its own tile and count.
-/

namespace Slate
namespace Stedc

open Runtime

variable {α : Type*}

namespace Dist

variable [Inhabited α] (L : Dist) (Q : Nat -> Nat -> α) (isort : List Nat)
  (st0 : Nat × Nat -> Local α)

/-- Every run of `stedc_sort` from the start is finite, in either mode of
`MPI_Send`, and a reachable configuration from which no step is possible has
every process at the end of its program. -/
theorem stedcSort_terminates (eager : Bool) :
    Acc (flip (Step (L.stedcSort Q isort) eager)) (Conf.init st0) ∧
      ∀ c, Reachable (L.stedcSort Q isort) eager st0 c ->
        (¬∃ c', Step (L.stedcSort Q isort) eager c c') ->
          ∀ x, c.pc x = (L.stedcSort Q isort x).length := by
  refine ⟨Reachable.acc L.grid (fun _ => L.stedcSort_of_not_mem_grid Q isort)
    (L.stedcSort_match Q isort) (L.stedcSort_buf Q isort st0) Relation.ReflTransGen.refl,
    fun c hc hstuck x => ?_⟩
  have hi := stedcSort_inv hc
  refine le_antisymm (hi.pc_le x) (not_lt.mp fun hx => hstuck ?_)
  exact hi.progress (L.comm_stedcSort Q isort) (fun _ => L.choreo_src_ne_dst _) ⟨x, hx⟩

/-- `stedc_sort` has one outcome: a configuration `cf`, reachable with either
mode of `MPI_Send`, with nothing in flight, such that in either mode a
reachable configuration has every process at its end exactly when it is
`cf`. -/
theorem stedcSort_outcome :
    ∃ cf : Conf (Nat × Nat) (Local α) (List (List α)) (Nat × Nat),
      (∀ eager, Reachable (L.stedcSort Q isort) eager st0 cf) ∧ (∀ a b, cf.chan a b = []) ∧
        ∀ eager c, Reachable (L.stedcSort Q isort) eager st0 c ->
          ((∀ x, c.pc x = (L.stedcSort Q isort x).length) ↔ c = cf) := by
  obtain ⟨cf, hcf, hdone⟩ := L.stedcSort_completes Q isort false st0
  have hmatch := L.stedcSort_match Q isort
  refine ⟨cf, fun _ => hcf.of_rendezvous, (stedcSort_inv hcf).chan_of_complete hmatch hdone,
    fun eager c hc => ⟨fun hc' => ?_, fun h => h ▸ hdone⟩⟩
  exact (stedcSort_inv hc).eq_of_complete hmatch (stedcSort_inv hcf) hc' hdone

/-- The channels of `stedc_sort` in every reachable configuration, in either
mode of `MPI_Send`: from `a` to `b`, the tags (tile, count) of the sends done
are those of the receives done followed by those of the queued messages, in
order, so no message is lost, duplicated or overtaken; a queued message of
tile `j` carries the local rows of row `a.1` of the columns of tile `j` bound
for column `b.2`; and a receive at the head of a nonempty queue takes a
message of its own tile and count. -/
theorem stedcSort_channels (eager : Bool) :
    (∀ c, Reachable (L.stedcSort Q isort) eager st0 c -> ∀ a b,
      sendsTo b ((L.stedcSort Q isort a).take (c.pc a)) =
        recvsFrom a ((L.stedcSort Q isort b).take (c.pc b)) ++ (c.chan a b).map Prod.fst) ∧
      (∀ c, Reachable (L.stedcSort Q isort) eager st0 c -> ∀ a b, ∀ e ∈ c.chan a b,
        e.2 = L.payload Q (isortInv isort L.n) a.1 e.1.1 b.2) ∧
      (∀ c, Reachable (L.stedcSort Q isort) eager st0 c -> ∀ a b k' store e rest,
        (L.stedcSort Q isort b)[c.pc b]? = some (.recv a k' store) -> c.chan a b = e :: rest ->
          e.1 = k') :=
  ⟨fun _ hc => (stedcSort_inv hc).tags, fun _ hc => (stedcSort_inv hc).data,
    fun _ hc _ _ _ _ _ _ hb hq => (stedcSort_inv hc).tag_of_deliver (L.stedcSort_match Q isort) hb hq⟩

end Dist

end Stedc
end Slate
