import Multithreading.Stack.LinkedRefinement

/-!
# `LockFreeSPSCStack` with several consumers

With several consumers one pop may delete a node that another pop still has as `oldHead`. When a
push gets the address of that node back from the allocator and publishes it, the compare-and-swap
of the first pop succeeds although the link that it has read is out of date, and `m_head` becomes a
node that was deleted. Values are then returned twice.

This needs an allocation that returns an address while a pop in its loop still has it as
`oldHead`. Without such allocations any number of consumers keep the values.

## Main results

* `LinkedStack.not_consumerLaw` — two consumers and an allocator that reuses addresses return a
  value twice.
* `LinkedStack.consumerLaw_of_safeAlloc` — the law for any number of consumers when allocations are
  safe.
-/

open Transition Memory

namespace Multithreading.Stack.LinkedStack

variable {ι α : Type*} [DecidableEq ι]

/-- The law of the values in a state with its history: no value is returned more often than it was
pushed, and when all operations are over every pushed value has been returned or is on the chain,
whose nodes are allocated. -/
def ConsumerLaw (c : Config ι (Shared α) (Local α)) (h : List (Event ι α)) : Prop :=
  (returnedValues h : Multiset α) ≤ pushedValues h ∧
    ((∀ i, c.threads i = .idle) → ∃ chain,
      Linked (fun a => (c.shared.node a).next) c.shared.mHead chain ∧
      (∀ a ∈ chain, c.shared.live a = true) ∧
      (pushedValues h : Multiset α) =
        returnedValues h + (chain.map fun a => (c.shared.node a).data : List α))

/-- Two threads that both push and pop integers. -/
abbrev twoConsumers : Machine (Config (Fin 2) (Shared ℕ) (Local ℕ)) (Fin 2 × Action ℕ)
    (Event (Fin 2) ℕ) :=
  linkedStack id (fun _ => ⟨0, none⟩) fun _ => true

/-- Thread `i` reads the head and its link. Thread `j` pops both values, so both nodes are deleted,
and pushes a value whose node gets the address of the old head. The compare-and-swap of thread `i`
succeeds and installs the old link, a deleted node, whose value thread `j` pops again. -/
def reuseLabels (i j : ι) : List (ι × Action ℕ) :=
  List.flatten [pushAlone j 1 0, pushAlone j 2 1, [(i, .call .pop), (i, .tau), (i, .tau)],
    popAlone j, popAlone j, pushAlone j 3 1,
    [(i, .cas false), (i, .tau), (i, .tau), (i, .tau)], popAlone j]

/-- **The law fails for two consumers.** -/
theorem not_consumerLaw :
    ¬ ∀ c h, twoConsumers.Run twoConsumers.init h c → ConsumerLaw c h := by
  intro hlaw
  obtain ⟨c, h, hrun, hvalues⟩ := Machine.exists_run_of_exec (M := twoConsumers) (reuseLabels 0 1)
    (f := fun r => (pushedValues r.2, returnedValues r.2)) (b := ([1, 2, 3], [2, 1, 3, 1]))
    (by decide)
  obtain ⟨hpushed, hreturned⟩ := Prod.mk.inj hvalues
  have hle := (hlaw c h hrun).1
  rw [hpushed, hreturned] at hle
  exact absurd hle (by decide)

variable {residue : α → α} {raw : Addr → Node α} {mayPop : ι → Bool}
  {c : Config ι (Shared α) (Local α)} {h : List (Event ι α)}

/-- **The law for any number of producers and consumers**, as long as no allocation returns the
address that a pop in its loop still has as `oldHead`. -/
theorem consumerLaw_of_safeAlloc [Fintype ι]
    (hrun : (linkedStack residue raw mayPop).RunIf SafeAlloc (linkedStack residue raw mayPop).init
      h c) : ConsumerLaw c h := by
  obtain ⟨t, ht, chain, hspells⟩ := exists_spells hrun
  refine ⟨AtomicStack.returned_le_pushed ht, fun hidle => ⟨chain, hspells.linked,
    fun a ha => hspells.live_of_mem ha, ?_⟩⟩
  rw [← hspells.items]
  refine AtomicStack.conservation_of_idle ht fun i => ?_
  simpa [hidle i, Local.Matches] using hspells.threads i

/-- Thread `i` reads the head and its link, and thread `j` pops before it. Thread `i` loses and
takes the next value. -/
def overlapLabels (i j : ι) : List (ι × Action ℕ) :=
  List.flatten [pushAlone j 1 0, pushAlone j 2 1, [(i, .call .pop), (i, .tau), (i, .tau)],
    popAlone j, [(i, .cas false), (i, .tau), (i, .cas false), (i, .tau), (i, .tau), (i, .tau)]]

/-- Two pops that overlap. -/
theorem consumerLaw_of_overlapping_pops : ∃ c h,
    twoConsumers.RunIf SafeAlloc twoConsumers.init h c ∧ returnedValues h = [2, 1] ∧
      ConsumerLaw c h := by
  obtain ⟨c, h, hrun, hret⟩ := Machine.exists_runIf_of_execIf (M := twoConsumers) SafeAlloc
    (overlapLabels 0 1) (f := fun r => returnedValues r.2) (b := [2, 1]) (by decide)
  exact ⟨c, h, hrun, hret, consumerLaw_of_safeAlloc hrun⟩

end Multithreading.Stack.LinkedStack
