import Multithreading.Stack.BufferedRefinement
import Multithreading.Stack.LinkedOwnership
import Multithreading.Stack.LockedStack

/-!
# The program of `spsc_stack`

The producer pushes the numbers below `NumberOfElements` in order, and the consumer pops until it
has got as many values. The source has the loops for each of its three stacks.

What the loops need of a stack is that its histories are histories of the atomic stack. The consumer
then gets every number once, in whatever order, and the stack is empty at the end.

## Main definitions

* `SpscProgram.Follows` — the calls of a history are those of the two loops.
* `SpscProgram.Delivers` — the values arrive.

## Main results

* `SpscProgram.delivers_of_run` — the values arrive through the atomic stack.
* `SpscProgram.spscProgram_values` — the values arrive through the three stacks.
-/

open Transition Memory

namespace Multithreading.Stack

namespace SpscProgram

open AtomicStack (Pending State)
open BufferedStack (Side)

/-- The returns of `Push` after which the producer goes on to the next number. -/
def pushReturns (h : List (Event Side ℤ)) : ℕ :=
  h.countP fun | .ret _ .pushed => true | _ => false

/-- What the loops call next, for `n` elements and after the history `h`. A push that has been
rejected is called again. -/
def Calls (n : ℕ) (h : List (Event Side ℤ)) : Side → Op ℤ → Prop
  | .producer, .push v => pushReturns h < n ∧ v = pushReturns h
  | .consumer, .pop => (returnedValues h).length < n
  | _, _ => False

instance (n : ℕ) (h : List (Event Side ℤ)) : ∀ i op, Decidable (Calls n h i op)
  | .producer, .push _ => inferInstanceAs (Decidable (_ ∧ _))
  | .consumer, .pop => inferInstanceAs (Decidable (_ < _))
  | .producer, .pop | .consumer, .push _ => isFalse id

/-- An event is a call of the loops, or it is no call. -/
def Allowed (n : ℕ) (h : List (Event Side ℤ)) : Event Side ℤ → Prop
  | .call i op => Calls n h i op
  | _ => True

instance (n : ℕ) (h : List (Event Side ℤ)) : ∀ e, Decidable (Allowed n h e)
  | .call i op => inferInstanceAs (Decidable (Calls n h i op))
  | .load _ | .pushed _ _ | .popped _ | .full _ | .empty _ | .failed _ | .spurious _ | .fault _ _
  | .ret _ _ => isTrue trivial

/-- The calls of a history are those of the two loops. -/
def Follows (n : ℕ) (h : List (Event Side ℤ)) : Prop :=
  ∀ k (hk : k < h.length), Allowed n (h.take k) h[k]

instance (n : ℕ) (h : List (Event Side ℤ)) : Decidable (Follows n h) :=
  inferInstanceAs (Decidable (∀ k (hk : k < h.length), Allowed n (h.take k) h[k]))

/-- The numbers below `k` in order. -/
def numbers (k : ℕ) : List ℤ := (List.range k).map Nat.cast

/-- Where the producer is in its loop, given where it is in its operation on the atomic stack: it
has pushed the numbers below `k`, and the stack has accepted `values`. -/
def Pushes (n k : ℕ) (values : List ℤ) : Pending ℤ → Prop
  | .idle => k ≤ n ∧ values = numbers k
  | .called (.push v) => v = k ∧ k < n ∧ values = numbers k
  | .done .rejected => k < n ∧ values = numbers k
  | .done .pushed => k < n ∧ values = numbers (k + 1)
  | _ => False

/-- Where the consumer is in its loop, when it has got `k` values. -/
def Pops (n k : ℕ) : Pending ℤ → Prop
  | .idle => k ≤ n
  | .called .pop | .done (.popped _) => k < n
  | _ => False

/-- Both threads are in their loops. -/
structure InLoops (n : ℕ) (t : State Side ℤ) (h : List (Event Side ℤ)) : Prop where
  producer : Pushes n (pushReturns h) (pushedValues h) (t.threads .producer)
  consumer : Pops n (returnedValues h).length (t.threads .consumer)

variable {n : ℕ} {h h' : List (Event Side ℤ)} {i : Side} {e : Event Side ℤ} {capacity : Option ℕ}
  {t t' : State Side ℤ}

theorem Follows.of_append (hh : Follows n (h ++ h')) : Follows n h := by
  intro k hk
  have hallowed := hh k (by rw [List.length_append]; omega)
  rwa [List.take_append_of_le_length hk.le, List.getElem_append_left hk] at hallowed

theorem Follows.calls {op : Op ℤ} (hh : Follows n (h ++ [.call i op])) : Calls n h i op := by
  have hallowed := hh h.length (by simp)
  rwa [List.take_left, List.getElem_concat_length rfl] at hallowed

theorem pushReturns_snoc (h : List (Event Side ℤ)) (e : Event Side ℤ) :
    pushReturns (h ++ [e]) = pushReturns h + pushReturns [e] :=
  List.countP_append

theorem numbers_succ (k : ℕ) : numbers (k + 1) = numbers k ++ [(k : ℤ)] := by
  simp [numbers, List.range_succ]

theorem inLoops_snoc
    (hproducer : Pushes n (pushReturns h + pushReturns [e])
      (pushedValues h ++ e.pushedValue.toList) (t'.threads .producer))
    (hconsumer : Pops n ((returnedValues h).length + e.returnedValue.toList.length)
      (t'.threads .consumer)) : InLoops n t' (h ++ [e]) := by
  constructor
  · rwa [pushReturns_snoc, pushedValues_snoc]
  · rwa [returnedValues_snoc, List.length_append]

theorem InLoops.set_producer {sh : List ℤ} {l : Pending ℤ} (hloops : InLoops n t h)
    (hpush : Pushes n (pushReturns h + pushReturns [e]) (pushedValues h ++ e.pushedValue.toList) l)
    (hreturned : e.returnedValue = none) : InLoops n (t.set .producer sh l) (h ++ [e]) :=
  inLoops_snoc (by simpa using hpush)
    (by simpa [hreturned, Config.set_threads_of_ne] using hloops.consumer)

theorem InLoops.set_consumer {sh : List ℤ} {l : Pending ℤ} (hloops : InLoops n t h)
    (hpop : Pops n ((returnedValues h).length + e.returnedValue.toList.length) l)
    (hreturns : pushReturns [e] = 0) (hpushed : e.pushedValue = none) :
    InLoops n (t.set .consumer sh l) (h ++ [e]) :=
  inLoops_snoc (by simpa [hreturns, hpushed, Config.set_threads_of_ne] using hloops.producer)
    (by simpa using hpop)

theorem InLoops.step (hloops : InLoops n t h) (hfollows : Follows n (h ++ [e]))
    (hstep : AtomicStack.Step capacity t e t') : InLoops n t' (h ++ [e]) := by
  have hpush := hloops.producer
  have hpop := hloops.consumer
  cases hstep with
  | silent e he =>
    cases e <;> first
      | exact he.elim
      | exact inLoops_snoc (by simpa [pushReturns, Event.pushedValue] using hpush)
          (by simpa [Event.returnedValue] using hpop)
  | call i op hi =>
    have hcalls := hfollows.calls
    cases i <;> cases op <;> first | exact hcalls.elim | skip
    · obtain ⟨hlt, rfl⟩ := hcalls
      rw [hi] at hpush
      refine hloops.set_producer ?_ rfl
      simpa [pushReturns, Event.pushedValue, Pushes] using ⟨hlt, hpush.2⟩
    · have hlt : (returnedValues h).length < n := hcalls
      refine hloops.set_consumer ?_ rfl rfl
      simpa [Event.returnedValue, Pops] using hlt
  | push i v hi hroom =>
    cases i with
    | consumer =>
      rw [hi] at hpop
      exact hpop.elim
    | producer =>
      rw [hi] at hpush
      obtain ⟨rfl, hlt, hvalues⟩ := hpush
      refine hloops.set_producer ?_ rfl
      simpa [pushReturns, Event.pushedValue, Pushes, numbers_succ] using ⟨hlt, hvalues⟩
  | full i v hi hfull =>
    cases i with
    | consumer =>
      rw [hi] at hpop
      exact hpop.elim
    | producer =>
      rw [hi] at hpush
      refine hloops.set_producer ?_ rfl
      simpa [pushReturns, Event.pushedValue, Pushes] using hpush.2
  | pop i v rest hi hitems =>
    cases i with
    | producer =>
      rw [hi] at hpush
      exact hpush.elim
    | consumer =>
      rw [hi] at hpop
      refine hloops.set_consumer ?_ rfl rfl
      simpa [Event.returnedValue, Pops] using hpop
  | empty i hi hitems =>
    cases i with
    | producer =>
      rw [hi] at hpush
      exact hpush.elim
    | consumer =>
      rw [hi] at hpop
      refine hloops.set_consumer ?_ rfl rfl
      simpa [Event.returnedValue, Pops] using hpop
  | ret i o hi =>
    cases i with
    | producer =>
      rw [hi] at hpush
      cases o with
      | pushed =>
        refine hloops.set_producer ?_ rfl
        simpa [pushReturns, Event.pushedValue, Pushes] using
          And.intro (Nat.succ_le_of_lt hpush.1) hpush.2
      | rejected =>
        refine hloops.set_producer ?_ rfl
        simpa [pushReturns, Event.pushedValue, Pushes] using And.intro hpush.1.le hpush.2
      | popped r => exact hpush.elim
    | consumer =>
      rw [hi] at hpop
      cases o with
      | popped r =>
        refine hloops.set_consumer ?_ rfl rfl
        cases r with
        | none => simpa [Event.returnedValue, Pops] using Nat.le_of_lt hpop
        | some v => simpa [Event.returnedValue, Pops] using Nat.succ_le_of_lt hpop
      | _ => exact hpop.elim

/-- Both threads are in their loops after every history of the atomic stack that follows them. -/
theorem inLoops_of_run
    (hrun : (atomicStack Side ℤ capacity).Run (atomicStack Side ℤ capacity).init h t)
    (hfollows : Follows n h) : InLoops n t h := by
  refine hrun.invariant (fun t h => Follows n h → InLoops n t h) (fun _ => ?_) ?_ hfollows
  · exact ⟨⟨Nat.zero_le n, rfl⟩, Nat.zero_le n⟩
  · intro h t t' e _ ih hstep hfollows
    exact (ih hfollows.of_append).step hfollows hstep

theorem InLoops.pushedValues_eq (hloops : InLoops n t h) : ∃ k ≤ n, pushedValues h = numbers k := by
  have hpush := hloops.producer
  cases hp : t.threads .producer with
  | idle =>
    rw [hp] at hpush
    exact ⟨_, hpush⟩
  | called op =>
    rw [hp] at hpush
    cases op with
    | push v => exact ⟨_, hpush.2.1.le, hpush.2.2⟩
    | pop => exact hpush.elim
  | done o =>
    rw [hp] at hpush
    cases o with
    | pushed => exact ⟨_, Nat.succ_le_of_lt hpush.1, hpush.2⟩
    | rejected => exact ⟨_, hpush.1.le, hpush.2⟩
    | popped r => exact hpush.elim

theorem nodup_numbers (k : ℕ) : (numbers k).Nodup :=
  List.nodup_range.map Nat.cast_injective

@[simp] theorem length_numbers (k : ℕ) : (numbers k).length = k := by simp [numbers]

/-- The numbers are accepted in order, none of them is handed out twice, and when the consumer has
got as many values as there are numbers it has got every number once, all have been pushed, none
is left, and the stack is `empty`. -/
def Delivers (n : ℕ) (h : List (Event Side ℤ)) (empty : Prop) : Prop :=
  (∃ k ≤ n, pushedValues h = numbers k) ∧ (returnedValues h).Nodup ∧
    ((returnedValues h).length = n →
      (returnedValues h).Perm (numbers n) ∧ pushedValues h = numbers n ∧ stored h = [] ∧ empty)

/-- The values arrive through the atomic stack, with or without a capacity. -/
theorem delivers_of_run {empty : Prop}
    (hrun : (atomicStack Side ℤ capacity).Run (atomicStack Side ℤ capacity).init h t)
    (hempty : t.shared = [] → empty) (hfollows : Follows n h) : Delivers n h empty := by
  obtain ⟨k, hk, hpushed⟩ := (inLoops_of_run hrun hfollows).pushedValues_eq
  have hle := AtomicStack.returned_le_pushed hrun
  refine ⟨⟨k, hk, hpushed⟩, ?_, fun hall => ?_⟩
  · rw [← Multiset.coe_nodup]
    refine Multiset.nodup_of_le hle (Multiset.coe_nodup.mpr ?_)
    rw [hpushed]
    exact nodup_numbers k
  · have hcard := congrArg Multiset.card (AtomicStack.conservation hrun)
    have hshared := AtomicStack.shared_eq_stored hrun
    rw [hshared] at hcard
    simp only [Multiset.card_add, Multiset.coe_card, hpushed, hall, length_numbers] at hcard
    obtain rfl : k = n := by omega
    have heq : (returnedValues h : Multiset ℤ) = pushedValues h :=
      Multiset.eq_of_le_of_card_le hle (by simp [hpushed, hall])
    have hstored : stored h = [] := List.length_eq_zero_iff.mp (by omega)
    refine ⟨?_, hpushed, hstored, hempty (hshared.trans hstored)⟩
    rw [← hpushed]
    exact Multiset.coe_eq_coe.mp heq

/-- **The values arrive** through each of the three stacks of the source, through the one with a
capacity under the guard `InOrder`. -/
theorem spscProgram_values (n : ℕ) (residue : ℤ → ℤ) (raw : LinkedStack.Addr → LinkedStack.Node ℤ)
    (init : ℤ) (capacity : ℕ) :
    (∀ h c, (lockedStack Side residue).Run (lockedStack Side residue).init h c →
      Follows n h → Delivers n h (c.shared.mStack = [])) ∧
    (∀ h c, (linkedStack residue raw (· = Side.consumer)).Run
        (linkedStack residue raw (· = Side.consumer)).init h c →
      Follows n h → Delivers n h (c.shared.mHead = none)) ∧
    (∀ h c, (bufferedStack residue init capacity Side.mayCall).RunIf BufferedStack.InOrder
        (bufferedStack residue init capacity Side.mayCall).init h c →
      Follows n h → Delivers n h (c.shared.mHead = 0)) := by
  refine ⟨fun h c hrun hfollows => ?_, fun h c hrun hfollows => ?_, fun h c hrun hfollows => ?_⟩
  · obtain ⟨t, ht, hagrees⟩ := LockedStack.exists_agrees hrun
    exact delivers_of_run ht hagrees.mStack_eq_nil hfollows
  · obtain ⟨t, ht, chain, hspells⟩ :=
      LinkedStack.exists_spells (LinkedStack.runIf_safeAlloc hrun).1
    refine delivers_of_run ht (fun hempty => ?_) hfollows
    obtain rfl : chain = [] := List.map_eq_nil_iff.mp (hspells.items.symm.trans hempty)
    exact hspells.linked
  · obtain ⟨t, ht, hstores⟩ := BufferedStack.exists_stores hrun
    refine delivers_of_run ht (fun hempty => ?_) hfollows
    rw [hstores.head, hempty]
    rfl

/-- Through the first two stacks the consumer pops the second number before the first one. Through
the third one, with one slot, the push of the second number is rejected until the first one is
popped. -/
theorem spscProgram_values_two :
    (∃ h c, (lockedStack Side id).Run (lockedStack Side id).init h c ∧
      returnedValues h = [1, 0] ∧ Delivers 2 h (c.shared.mStack = [])) ∧
    (∃ h c, (linkedStack id (fun _ => ⟨0, none⟩) (· = Side.consumer)).Run
        (linkedStack id (fun _ => ⟨0, none⟩) (· = Side.consumer)).init h c ∧
      returnedValues h = [1, 0] ∧ Delivers 2 h (c.shared.mHead = none)) ∧
    ∃ h c, (bufferedStack id (0 : ℤ) 1 Side.mayCall).RunIf BufferedStack.InOrder
        (bufferedStack id (0 : ℤ) 1 Side.mayCall).init h c ∧
      returnedValues h = [0, 1] ∧ Delivers 2 h (c.shared.mHead = 0) := by
  obtain ⟨hlocked, hlinked, hbuffered⟩ := spscProgram_values 2 id (fun _ => ⟨0, none⟩) 0 1
  refine ⟨?_, ?_, ?_⟩
  · obtain ⟨c, h, hrun, hh⟩ := Machine.exists_run_of_exec (M := lockedStack Side id)
      ([(.producer, .call (.push 0)), (.producer, .tau), (.producer, .tau), (.producer, .tau),
        (.producer, .tau), (.producer, .call (.push 1)), (.producer, .tau), (.producer, .tau),
        (.producer, .tau), (.producer, .tau)] ++
        [LockedStack.Action.call .pop, .tau, .tau, .tau, .tau, .tau, .tau, .call .pop, .tau, .tau,
          .tau, .tau, .tau, .tau].map fun x => (.consumer, x))
      (f := fun r => (returnedValues r.2, decide (Follows 2 r.2))) (b := ([1, 0], true)) (by decide)
    obtain ⟨hreturned, hfollows⟩ : returnedValues h = [1, 0] ∧ Follows 2 h := by simpa using hh
    exact ⟨h, c, hrun, hreturned, hlocked h c hrun hfollows⟩
  · obtain ⟨c, h, hrun, hh⟩ := Machine.exists_run_of_exec
      (M := linkedStack id (fun _ => ⟨0, none⟩) (· = Side.consumer))
      (List.flatten [LinkedStack.pushAlone .producer 0 0, LinkedStack.pushAlone .producer 1 1,
        LinkedStack.popAlone .consumer, LinkedStack.popAlone .consumer])
      (f := fun r => (returnedValues r.2, decide (Follows 2 r.2))) (b := ([1, 0], true)) (by decide)
    obtain ⟨hreturned, hfollows⟩ : returnedValues h = [1, 0] ∧ Follows 2 h := by simpa using hh
    exact ⟨h, c, hrun, hreturned, hlinked h c hrun hfollows⟩
  · obtain ⟨c, h, hrun, hh⟩ := Machine.exists_runIf_of_execIf
      (M := bufferedStack id (0 : ℤ) 1 Side.mayCall) BufferedStack.InOrder
      (List.flatten [
        [(.producer, .call (.push 0)), (.producer, .tau), (.producer, .cas false),
          (.producer, .tau), (.producer, .tau)],
        [(.producer, .call (.push 1)), (.producer, .tau), (.producer, .tau)],
        [(.consumer, .call .pop), (.consumer, .tau), (.consumer, .cas false), (.consumer, .tau),
          (.consumer, .tau)],
        [(.producer, .call (.push 1)), (.producer, .tau), (.producer, .cas false),
          (.producer, .tau), (.producer, .tau)],
        [(.consumer, .call .pop), (.consumer, .tau), (.consumer, .cas false), (.consumer, .tau),
          (.consumer, .tau)]])
      (f := fun r => (returnedValues r.2, decide (Follows 2 r.2))) (b := ([0, 1], true)) (by decide)
    obtain ⟨hreturned, hfollows⟩ : returnedValues h = [0, 1] ∧ Follows 2 h := by simpa using hh
    exact ⟨h, c, hrun, hreturned, hbuffered h c hrun hfollows⟩

end SpscProgram

end Multithreading.Stack
