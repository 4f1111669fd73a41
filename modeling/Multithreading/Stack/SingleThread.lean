import Multithreading.Stack.Lifo
import Multithreading.Stack.LockedStack
import Multithreading.Stack.LinkedRefinement
import Multithreading.Stack.BufferedRefinement
import Mathlib.Data.Fintype.EquivFin

/-!
# The three stacks in one thread

A thread that uses a stack alone finds `m_head` where it left it. Its compare-and-swap fails only
spuriously, and it returns as soon as the spurious failures stop. Between two operations each of the
three representations, the list of `std::stack`, the chain of nodes and the array below `m_head`,
is the list of the list model, and the results are those of the list model; the array has the model
with a capacity.

## Main definitions

* `LockedStack.Proceeds`, `LinkedStack.Proceeds`, `BufferedStack.Proceeds` — the steps that are
  neither calls nor spurious failures.
* `LinkedStack.Local.Fresh` — what the thread knows of `m_head`.
* `BufferedStack.Alone` — the array and the counter as the only thread has them.

## Main results

* `LockedStack.lifo_of_run`, `LinkedStack.lifo_of_run`, `BufferedStack.lifo_of_run` — the list
  model.
* `LockedStack.returns`, `LinkedStack.returns`, `BufferedStack.returns` — every operation returns.
* `stacks_agree` — the three stacks agree.
-/

open Transition Memory

namespace Multithreading.Stack

open AtomicStack (Pending)

variable {α : Type*}

/-! ### `SPSCStack` -/

namespace LockedStack

variable {residue : α → α} {c : Config Unit (Shared Unit α) (Local α)} {h : List (Event Unit α)}

/-- The step is not a call. -/
def Proceeds (_ : Config Unit (Shared Unit α) (Local α)) (x : Unit × Action α) : Prop :=
  x.2 = .tau

theorem Agrees.mMtx_eq_none {t : AtomicStack.State Unit α} (hagrees : Agrees c t)
    (hl : (c.threads ()).inMtx = false) : c.shared.mMtx = none :=
  hagrees.mtx.eq_none fun _ => hl

/-- Between two operations `m_stack` and the results are those of the list model. -/
theorem lifo_of_run (hrun : (lockedStack Unit residue).Run (lockedStack Unit residue).init h c)
    (hidle : c.threads () = .idle) :
    Lifo.run none [] (calls h) = (c.shared.mStack, outcomes h) := by
  obtain ⟨t, ht, hagrees⟩ := exists_agrees hrun
  have hpending : t.threads () = .idle := by simpa [hidle, Local.Matches] using hagrees.threads ()
  rw [← hagrees.free (hagrees.mMtx_eq_none (by rw [hidle]; rfl))]
  exact AtomicStack.lifo_of_run ht hpending

/-- The steps of the operation that are left. -/
def Local.weight : Local α → ℕ
  | idle => 0
  | pushed | popped _ => 1
  | pushUnlock | popUnlock _ => 2
  | push _ | popPop _ => 3
  | pushLock _ | popTake => 4
  | popTest => 5
  | popLock => 6

/-- Every operation returns. -/
theorem returns (hrun : (lockedStack Unit residue).Run (lockedStack Unit residue).init h c) :
    (lockedStack Unit residue).Inevitable Proceeds (fun c => c.threads () = .idle) c := by
  obtain ⟨t, -, ht⟩ := exists_agrees hrun
  refine Machine.inevitable_of_terminal (I := fun c => ∃ t, Agrees c t) Proceeds
    (fun c => (c.threads ()).weight) ?_ ?_ ⟨t, ht⟩
  · rintro c c' es ⟨⟨⟩, x⟩ ⟨t, hagrees⟩ (rfl : x = .tau) hnext
    obtain ⟨sh', l', hstep, rfl⟩ := interleave_next_eq_some.mp hnext
    have hmove := move_of_step hstep
    obtain ⟨t', -, hagrees'⟩ := hagrees.move hmove
    refine ⟨⟨t', hagrees'⟩, ?_⟩
    rw [Config.set_threads_self]
    generalize c.threads () = l at hstep hmove
    cases hmove <;> simp_all [Local.weight, step]
  · rintro c ⟨t, hagrees⟩ hterminal
    have hblocked := hterminal ((), .tau) rfl
    have hfree := hagrees.mMtx_eq_none
    have hmatches := hagrees.threads ()
    obtain ⟨⟨m, xs⟩, threads⟩ := c
    simp only [lockedStack, interleave, Option.map_eq_none_iff] at hblocked hfree hmatches ⊢
    cases hl : threads () <;> cases xs <;>
      simp_all [step, Shared.acquire, Local.inMtx, Local.Matches]

end LockedStack

/-! ### `LockFreeSPSCStack` -/

namespace LinkedStack

variable {residue : α → α} {raw : Addr → Node α} {c : Config Unit (Shared α) (Local α)}
  {h : List (Event Unit α)}

/-- `LockFreeSPSCStack` in one thread. -/
abbrev alone (residue : α → α) (raw : Addr → Node α) := linkedStack residue raw fun _ : Unit => true

/-- The step is neither a call nor a spurious failure. -/
def Proceeds (_ : Config Unit (Shared α) (Local α)) (x : Unit × Action α) : Prop :=
  (∃ a, x.2 = .alloc a) ∨ x.2 = .cas false ∨ x.2 = .tau

/-- A thread that allocates is in no loop of `Pop`, so its allocations are safe. -/
theorem safeAlloc_of_next {c' : Config Unit (Shared α) (Local α)} {x : Unit × Action α}
    {es : List (Event Unit α)} (hnext : (alone residue raw).next c x = some (c', es)) :
    SafeAlloc c x := by
  obtain ⟨⟨⟩, x⟩ := x
  obtain ⟨sh', l', hstep, -⟩ := interleave_next_eq_some.mp hnext
  rintro a ha ⟨⟩
  have hmove := move_of_step hstep
  generalize c.threads () = l at hmove
  cases hmove with
  | alloc => simp [Local.oldHead]
  | _ => simp [Action.allocated] at ha

/-- Between two operations the chain and the results are those of the list model. -/
theorem lifo_of_run (hrun : (alone residue raw).Run (alone residue raw).init h c)
    (hidle : c.threads () = .idle) :
    ∃ chain, Linked (fun a => (c.shared.node a).next) c.shared.mHead chain ∧
      Lifo.run none [] (calls h) = (chain.map fun a => (c.shared.node a).data, outcomes h) := by
  obtain ⟨t, ht, chain, hspells⟩ :=
    exists_spells (hrun.strengthen fun _ _ hnext => safeAlloc_of_next hnext)
  have hpending : t.threads () = .idle := by simpa [hidle, Local.Matches] using hspells.threads ()
  refine ⟨chain, hspells.linked, ?_⟩
  rw [← hspells.items]
  exact AtomicStack.lifo_of_run ht hpending

/-- What the only thread knows of `m_head`. -/
def Local.Fresh (sh : Shared α) : Local α → Prop
  | pushLink _ seen => seen = sh.mHead
  | pushCas n => (sh.node n).next = sh.mHead
  | popNext a | popCas a _ => sh.mHead = some a
  | _ => True

theorem Move.fresh {ι : Type*} {mayPop : ι → Bool} {i : ι} {sh sh' : Shared α} {x : Action α}
    {l l' : Local α} {es : List (Event ι α)} (hl : l.Fresh sh)
    (hmove : Move residue mayPop i sh x l sh' l' es) : l'.Fresh sh' := by
  have hhead : (Local.ofHead sh.mHead).Fresh sh := by
    cases hmHead : sh.mHead
    · trivial
    · exact hmHead
  cases hmove with
  | pushLoad n | pushLose spurious n => rfl
  | pushLink n seen => simpa [Local.Fresh, Shared.setNext] using hl
  | popLoad | popLose spurious a next => exact hhead
  | popNext a => exact hl
  | _ => trivial

/-- A bound on the steps of the operation that are left. -/
def Local.weight : Local α → ℕ
  | idle => 0
  | pushed | popped _ => 1
  | pushCas _ | popDelete _ _ => 2
  | pushLink _ _ | popTake _ => 3
  | pushLoad _ | popCas _ _ => 4
  | pushNew _ | popNext _ => 5
  | popLoad => 6

theorem weight_lt_of_step {ι : Type*} {mayPop : ι → Bool} {i : ι} {sh sh' : Shared α}
    {x : Action α} {l l' : Local α} {es : List (Event ι α)} (hl : l.Fresh sh)
    (hx : (∃ a, x = .alloc a) ∨ x = .cas false ∨ x = .tau)
    (hstep : step residue mayPop i x sh l = some (sh', l', es)) : l'.weight < l.weight := by
  have hhead : (Local.ofHead (α := α) sh.mHead).weight < 6 := by
    cases sh.mHead <;> simp [Local.ofHead, Local.weight]
  rcases hx with ⟨a, rfl⟩ | rfl | rfl
  · cases l with
    | pushNew v =>
      obtain ⟨-, -, rfl, -⟩ : _ ∧ _ ∧ _ ∧ _ := by simpa [step] using hstep
      simp [Local.weight]
    | _ => simp [step] at hstep
  · cases l with
    | pushCas n =>
      have hlink : (sh.node n).next = sh.mHead := hl
      obtain ⟨-, rfl, -⟩ : _ ∧ _ ∧ _ := by simpa [step, hlink] using hstep
      simp [Local.weight]
    | popCas a next =>
      have hold : sh.mHead = some a := hl
      obtain ⟨-, rfl, -⟩ : _ ∧ _ ∧ _ := by simpa [step, hold] using hstep
      simp [Local.weight]
    | _ => simp [step] at hstep
  · cases l with
    | idle | pushNew v | pushCas n | popCas a next => simp [step] at hstep
    | _ =>
      obtain ⟨-, rfl, -⟩ : _ ∧ _ ∧ _ := by simpa [step] using hstep
      first | exact hhead | simp [Local.weight]

/-- A thread that cannot proceed although there is memory to allocate is in no operation. -/
theorem idle_of_stuck {ι : Type*} (residue : α → α) (mayPop : ι → Bool) (i : ι) (sh : Shared α)
    {l : Local α}
    (hfree : ∀ v, l = .pushNew v → ∃ a, sh.live a = false)
    (hstuck : ∀ x, ((∃ a, x = .alloc a) ∨ x = .cas false ∨ x = .tau) →
      step residue mayPop i x sh l = none) : l = .idle := by
  have htau := hstuck .tau (.inr (.inr rfl))
  have hcas := hstuck (.cas false) (.inr (.inl rfl))
  cases l with
  | idle => rfl
  | pushNew v =>
    obtain ⟨a, ha⟩ := hfree v rfl
    have halloc := hstuck (.alloc a) (.inl ⟨a, rfl⟩)
    simp [step, ha] at halloc
  | pushCas n =>
    by_cases hhead : sh.mHead = (sh.node n).next <;> simp [step, hhead] at hcas
  | popCas a next => by_cases hhead : sh.mHead = some a <;> simp [step, hhead] at hcas
  | _ => simp [step] at htau

theorem exists_free {t : AtomicStack.State Unit α} {chain : List Addr}
    (hspells : Spells c t chain) {v : α} (hl : c.threads () = .pushNew v) :
    ∃ a, c.shared.live a = false := by
  obtain ⟨a, ha⟩ := Infinite.exists_notMem_finset chain.toFinset
  refine ⟨a, ?_⟩
  by_contra hlive
  rcases (hspells.live_iff a).mp (by simpa using hlive) with hmem | ⟨⟨⟩, hown⟩
  · exact ha (List.mem_toFinset.mpr hmem)
  · simp [hl, Local.ownedNode, Local.privateNode, Local.heldNode] at hown

theorem idle_of_terminal {t : AtomicStack.State Unit α} {chain : List Addr}
    (hspells : Spells c t chain)
    (hterminal : ∀ x, Proceeds c x → (alone residue raw).next c x = none) :
    c.threads () = .idle :=
  idle_of_stuck residue (fun _ => true) () c.shared
    (fun _ hl => exists_free hspells hl)
    fun x hx => by simpa [alone, linkedStack, interleave] using hterminal ((), x) hx

/-- Every operation returns when the spurious failures have stopped. -/
theorem returns (hrun : (alone residue raw).Run (alone residue raw).init h c) :
    (alone residue raw).Inevitable Proceeds (fun c => c.threads () = .idle) c := by
  have hinv : (∃ t chain, Spells c t chain) ∧ (c.threads ()).Fresh c.shared := by
    obtain ⟨t, -, chain, hspells⟩ :=
      exists_spells (hrun.strengthen fun _ _ hnext => safeAlloc_of_next hnext)
    refine ⟨⟨t, chain, hspells⟩, ?_⟩
    refine hrun.invariant (fun c _ => (c.threads ()).Fresh c.shared) trivial ?_
    rintro h c c' es ⟨⟨⟩, x⟩ - hfresh - hnext
    obtain ⟨sh', l', hstep, rfl⟩ := interleave_next_eq_some.mp hnext
    simpa using (move_of_step hstep).fresh hfresh
  refine Machine.inevitable_of_terminal
    (I := fun c => (∃ t chain, Spells c t chain) ∧ (c.threads ()).Fresh c.shared) Proceeds
    (fun c => (c.threads ()).weight) ?_ ?_ hinv
  · rintro c c' es ⟨⟨⟩, x⟩ ⟨⟨t, chain, hspells⟩, hfresh⟩ hx hnext
    obtain ⟨t', -, chain', hspells'⟩ := hspells.next (safeAlloc_of_next hnext) hnext
    obtain ⟨sh', l', hstep, rfl⟩ := interleave_next_eq_some.mp hnext
    refine ⟨⟨⟨t', chain', hspells'⟩, by simpa using (move_of_step hstep).fresh hfresh⟩, ?_⟩
    simpa using weight_lt_of_step hfresh hx hstep
  · rintro c ⟨⟨t, chain, hspells⟩, -⟩ hterminal
    exact idle_of_terminal hspells hterminal

end LinkedStack

/-! ### `BufferedLockFreeSPSCStack` -/

namespace BufferedStack

variable {residue : α → α} {init : α} {capacity : ℕ} {h : List (Event Unit α)}

/-- `BufferedLockFreeSPSCStack` in one thread. -/
abbrev alone (residue : α → α) (init : α) (capacity : ℕ) :=
  bufferedStack residue init capacity fun (_ : Unit) _ => true

/-- The step is neither a call nor a spurious failure. -/
def Proceeds (_ : Config Unit (Shared α) (Local α)) (x : Unit × Action α) : Prop :=
  x.2 = .cas false ∨ x.2 = .tau

/-- The array keeps the list from its bottom on. -/
def Shared.Keeps (sh : Shared α) (xs : List α) : Prop :=
  (List.range xs.length).map sh.mBuffer = xs.reverse

theorem Shared.Keeps.write {sh : Shared α} {xs : List α} {k : ℕ} (h : sh.Keeps xs)
    (hk : xs.length ≤ k) (v : α) : (sh.write k v).Keeps xs := by
  rw [Shared.Keeps, ← h]
  refine List.map_congr_left fun m hm => sh.write_mBuffer_of_ne v ?_
  have hlt := List.mem_range.mp hm
  omega

theorem Shared.keeps_cons {sh : Shared α} {v : α} {xs : List α} :
    sh.Keeps (v :: xs) ↔ sh.Keeps xs ∧ sh.mBuffer xs.length = v := by
  rw [Shared.Keeps, Shared.Keeps, List.length_cons, List.range_succ, List.map_append,
    List.reverse_cons, List.map_singleton]
  constructor
  · intro heq
    obtain ⟨hrest, hlast⟩ := List.append_inj heq (by simp)
    exact ⟨hrest, by simpa using hlast⟩
  · rintro ⟨hrest, hlast⟩
    rw [hrest, hlast]

/-- Where the only thread is in the code and in its operation on the atomic stack with the list
`xs`, and what the array has then. -/
def Local.Alone (capacity : ℕ) (sh : Shared α) (xs : List α) : Local α → Pending α → Prop
  | idle, p => p = .idle ∧ sh.Keeps xs
  | pushLoad v, p => p = .called (.push v) ∧ sh.Keeps xs
  | pushCas v top, p =>
    p = .called (.push v) ∧ sh.Keeps xs ∧ top = xs.length ∧ xs.length < capacity
  | pushWrite v top, p =>
    p = .done .pushed ∧ ∃ rest, xs = v :: rest ∧ sh.Keeps rest ∧ top = rest.length
  | pushed, p => p = .done .pushed ∧ sh.Keeps xs
  | rejected, p => p = .done .rejected ∧ sh.Keeps xs
  | popLoad, p => p = .called .pop ∧ sh.Keeps xs
  | popCas top, p => p = .called .pop ∧ sh.Keeps xs ∧ top = xs.length ∧ xs ≠ []
  | popRead top, p => p = .done (.popped (some (sh.mBuffer xs.length))) ∧ sh.Keeps xs ∧
      top = xs.length + 1 ∧ xs.length < capacity
  | popped r, p => p = .done (.popped r) ∧ sh.Keeps xs
  | undefined, _ => False

/-- The counter is the number of elements, and the array has them. -/
structure Alone (capacity : ℕ) (c : Config Unit (Shared α) (Local α))
    (t : AtomicStack.State Unit α) : Prop where
  head : c.shared.mHead = t.shared.length
  room : t.shared.length ≤ capacity
  thread : (c.threads ()).Alone capacity c.shared t.shared (t.threads ())

namespace Alone

variable {c : Config Unit (Shared α) (Local α)} {t : AtomicStack.State Unit α}

theorem set {sh' : Shared α} {l' : Local α} {xs : List α} {p : Pending α}
    (head : sh'.mHead = xs.length) (room : xs.length ≤ capacity)
    (thread : l'.Alone capacity sh' xs p) :
    Alone capacity (c.set () sh' l') (t.set () xs p) :=
  ⟨head, room, by simpa using thread⟩

/-- **Every move is answered by the atomic stack with the capacity.** -/
theorem move (hmax : (capacity : ℤ) ≤ intMax) (h : Alone capacity c t) {sh' : Shared α}
    {x : Action α} {l' : Local α} {es : List (Event Unit α)}
    (hmove : Move residue capacity (fun _ _ => true) () c.shared x (c.threads ()) sh' l' es) :
    ∃ t', (atomicStack Unit α (some capacity)).Run t es t' ∧
      Alone capacity (c.set () sh' l') t' := by
  obtain ⟨hhead, hroom, hthread⟩ := h
  have hsize : toSizeT (t.shared.length : ℤ) = t.shared.length :=
    toSizeT_natCast (le_trans (by exact_mod_cast hroom) hmax)
  have hset {xs : List α} {p : Pending α} := @set α capacity c t sh' l' xs p
  have hsilent {p : Pending α} (hp : t.threads () = p) : t.set () t.shared p = t := by
    rw [← hp, Config.set_self]
  generalize c.threads () = l at hmove hthread
  cases hmove with
  | callPush v _ =>
    exact ⟨_, Spec.Run.single (.call () (.push v) hthread.1), hset hhead hroom ⟨rfl, hthread.2⟩⟩
  | callPop _ =>
    exact ⟨_, Spec.Run.single (.call () .pop hthread.1), hset hhead hroom ⟨rfl, hthread.2⟩⟩
  | pushFull v hfull =>
    rw [hhead, hsize] at hfull
    exact ⟨_, Spec.Run.cons (.silent _ trivial)
      (Spec.Run.single (.full () v hthread.1 (by simp [hfull]))),
      hset hhead hroom ⟨rfl, hthread.2⟩⟩
  | pushLoad v hne =>
    rw [hhead, hsize] at hne
    refine ⟨t, Spec.Run.single (.silent _ trivial), ?_⟩
    rw [← hsilent hthread.1]
    exact hset hhead hroom ⟨rfl, hthread.2, hhead, lt_of_le_of_ne hroom hne⟩
  | pushOverflow _ v top hfits =>
    obtain ⟨-, -, rfl, hlt⟩ := hthread
    rw [Fits, intMin] at hfits
    omega
  | pushWin _ v top hfits htop =>
    obtain ⟨hpending, hkeeps, rfl, hlt⟩ := hthread
    exact ⟨_, Spec.Run.single (.push () v hpending (by simpa using hlt)),
      hset (by simp) hlt ⟨rfl, t.shared, rfl, hkeeps, rfl⟩⟩
  | pushLose _ v top hfits =>
    refine ⟨t, Spec.Run.single (.silent _ (silent_casFailure _ _ _)), ?_⟩
    rw [← hsilent hthread.1]
    exact hset hhead hroom ⟨rfl, hthread.2.1⟩
  | pushWrite v top hbound =>
    obtain ⟨hpending, rest, hitems, hkeeps, rfl⟩ := hthread
    refine ⟨t, .refl, ?_⟩
    rw [← hsilent hpending]
    have hrest : toSizeT (rest.length : ℤ) = rest.length := by
      rw [hitems, List.length_cons] at hroom
      exact toSizeT_natCast (by omega)
    rw [hrest] at hset ⊢
    refine hset hhead hroom ⟨rfl, ?_⟩
    rw [hitems, Shared.keeps_cons]
    exact ⟨hkeeps.write le_rfl v, by simp⟩
  | pushBounds v top hbound =>
    obtain ⟨-, rest, hitems, -, rfl⟩ := hthread
    rw [hitems, List.length_cons] at hroom
    rw [toSizeT_natCast (by omega)] at hbound
    omega
  | pushRet =>
    exact ⟨_, Spec.Run.single (.ret () .pushed hthread.1), hset hhead hroom ⟨rfl, hthread.2⟩⟩
  | rejectRet =>
    exact ⟨_, Spec.Run.single (.ret () .rejected hthread.1), hset hhead hroom ⟨rfl, hthread.2⟩⟩
  | popEmpty hzero =>
    have hitems : t.shared = [] := by
      rw [hhead] at hzero
      exact List.length_eq_zero_iff.mp (by exact_mod_cast hzero)
    exact ⟨_, Spec.Run.cons (.silent _ trivial) (Spec.Run.single (.empty () hthread.1 hitems)),
      hset hhead hroom ⟨rfl, hthread.2⟩⟩
  | popLoad hzero =>
    refine ⟨t, Spec.Run.single (.silent _ trivial), ?_⟩
    rw [← hsilent hthread.1]
    refine hset hhead hroom ⟨rfl, hthread.2, hhead, fun hitems => hzero ?_⟩
    simp [hhead, hitems]
  | popOverflow _ top hfits =>
    obtain ⟨-, -, rfl, -⟩ := hthread
    rw [Fits, intMin] at hfits
    omega
  | popWin _ top hfits htop =>
    obtain ⟨hpending, hkeeps, rfl, hne⟩ := hthread
    obtain ⟨v, rest, hitems⟩ := List.exists_cons_of_ne_nil hne
    rw [hitems, Shared.keeps_cons] at hkeeps
    rw [hitems, List.length_cons] at hroom hset ⊢
    refine ⟨_, Spec.Run.single (.pop () v rest hpending hitems),
      hset (by simp) (by omega) ⟨?_, hkeeps.1, by simp, by omega⟩⟩
    rw [hkeeps.2]
  | popLose _ top hfits =>
    refine ⟨t, Spec.Run.single (.silent _ (silent_casFailure _ _ _)), ?_⟩
    rw [← hsilent hthread.1]
    exact hset hhead hroom ⟨rfl, hthread.2.1⟩
  | popRead top hbound =>
    obtain ⟨hpending, hkeeps, rfl, hlt⟩ := hthread
    refine ⟨t, .refl, ?_⟩
    rw [add_sub_cancel_right, hsize] at hset ⊢
    rw [← hsilent hpending]
    exact hset hhead hroom ⟨rfl, hkeeps.write le_rfl _⟩
  | popBounds top hbound =>
    obtain ⟨-, -, rfl, hlt⟩ := hthread
    rw [add_sub_cancel_right, hsize] at hbound
    omega
  | popRet r =>
    exact ⟨_, Spec.Run.single (.ret () (.popped r) hthread.1), hset hhead hroom ⟨rfl, hthread.2⟩⟩

end Alone

variable {c : Config Unit (Shared α) (Local α)}

theorem exists_alone (hmax : (capacity : ℤ) ≤ intMax)
    (hrun : (alone residue init capacity).Run (alone residue init capacity).init h c) :
    ∃ t, (atomicStack Unit α (some capacity)).Run (atomicStack Unit α (some capacity)).init h t ∧
      Alone capacity c t := by
  refine hrun.refines (R := Alone capacity) ⟨rfl, Nat.zero_le _, rfl, rfl⟩ ?_
  rintro h c c' es t ⟨⟨⟩, x⟩ - halone - hnext
  obtain ⟨sh', l', hstep, rfl⟩ := interleave_next_eq_some.mp hnext
  exact halone.move hmax (move_of_step hstep)

/-- Between two operations the array below `m_head` and the results are those of the list model with
the capacity. -/
theorem lifo_of_run (hmax : (capacity : ℤ) ≤ intMax)
    (hrun : (alone residue init capacity).Run (alone residue init capacity).init h c)
    (hidle : c.threads () = .idle) :
    Lifo.run (some capacity) [] (calls h) = (c.shared.left.reverse, outcomes h) := by
  obtain ⟨t, ht, hhead, hroom, hthread⟩ := exists_alone hmax hrun
  rw [hidle] at hthread
  obtain ⟨hpending, hkeeps⟩ := hthread
  have hsize : toSizeT c.shared.mHead = t.shared.length := by
    rw [hhead]
    exact toSizeT_natCast (le_trans (by exact_mod_cast hroom) hmax)
  have hleft : c.shared.left = t.shared.reverse := by rw [Shared.left, hsize, hkeeps]
  rw [hleft, List.reverse_reverse]
  exact AtomicStack.lifo_of_run ht hpending

/-- A bound on the steps of the operation that are left. -/
def Local.weight : Local α → ℕ
  | idle | undefined => 0
  | pushed | rejected | popped _ => 1
  | pushWrite _ _ | popRead _ => 2
  | pushCas _ _ | popCas _ => 3
  | pushLoad _ | popLoad => 4

/-- What a thread that moves alone knows of `m_head`. -/
def Local.Fresh (sh : Shared α) : Local α → Prop
  | pushCas _ top | popCas top => top = sh.mHead
  | _ => True

theorem weight_lt_of_step {ι : Type*} {mayCall : ι → Op α → Bool} {i : ι} {sh sh' : Shared α}
    {x : Action α} {l l' : Local α} {es : List (Event ι α)} (hl : l.Fresh sh)
    (hx : x = .cas false ∨ x = .tau)
    (hstep : step residue capacity mayCall i x sh l = some (sh', l', es)) :
    l'.weight < l.weight := by
  have hmove := move_of_step hstep
  cases hmove with
  | callPush | callPop => rcases hx with hx | hx <;> cases hx
  | pushLose spurious v top | popLose spurious top =>
    -- The counter is the one that was loaded, so the failure is spurious.
    obtain rfl : top = sh.mHead := hl
    obtain rfl : spurious = false := by simpa using hx
    simp only [step] at hstep
    split at hstep <;> simp at hstep
  | _ => simp [Local.weight]

/-- A thread that cannot proceed is in no operation, or its behaviour is undefined. -/
theorem idle_or_undefined_of_stuck {ι : Type*} (residue : α → α) (capacity : ℕ)
    (mayCall : ι → Op α → Bool) (i : ι) (sh : Shared α) {l : Local α}
    (hstuck : ∀ x, x = .cas false ∨ x = .tau → step residue capacity mayCall i x sh l = none) :
    l = .idle ∨ l = .undefined := by
  have htau := hstuck .tau (.inr rfl)
  have hcas := hstuck (.cas false) (.inl rfl)
  cases l with
  | idle => exact .inl rfl
  | undefined => exact .inr rfl
  | pushCas v top | popCas top =>
    simp only [step] at hcas
    split at hcas
    · simp at hcas
    · split at hcas <;> simp at hcas
  | pushLoad v | popLoad | pushWrite v top | popRead top =>
    simp only [step] at htau
    split at htau <;> simp at htau
  | pushed | rejected | popped r => simp [step] at htau

theorem Alone.fresh {t : AtomicStack.State Unit α} (h : Alone capacity c t) :
    (c.threads ()).Fresh c.shared := by
  obtain ⟨hhead, -, hthread⟩ := h
  cases hl : c.threads () with
  | pushCas v top | popCas top =>
    rw [hl] at hthread
    exact hthread.2.2.1.trans hhead.symm
  | _ => trivial

theorem Alone.idle_of_terminal {t : AtomicStack.State Unit α} (h : Alone capacity c t)
    (hterminal : ∀ x, Proceeds c x → (alone residue init capacity).next c x = none) :
    c.threads () = .idle := by
  refine (idle_or_undefined_of_stuck residue capacity (fun _ _ => true) () c.shared
    fun x hx => ?_).resolve_right ?_
  · simpa [alone, bufferedStack, interleave] using hterminal ((), x) hx
  · intro hl
    have hthread := h.thread
    simp [hl, Local.Alone] at hthread

/-- Every operation returns when the spurious failures have stopped. -/
theorem returns (hmax : (capacity : ℤ) ≤ intMax)
    (hrun : (alone residue init capacity).Run (alone residue init capacity).init h c) :
    (alone residue init capacity).Inevitable Proceeds (fun c => c.threads () = .idle) c := by
  obtain ⟨t, -, ht⟩ := exists_alone hmax hrun
  refine Machine.inevitable_of_terminal (I := fun c => ∃ t, Alone capacity c t) Proceeds
    (fun c => (c.threads ()).weight) ?_ ?_ ⟨t, ht⟩
  · rintro c c' es ⟨⟨⟩, x⟩ ⟨t, halone⟩ hx hnext
    obtain ⟨sh', l', hstep, rfl⟩ := interleave_next_eq_some.mp hnext
    obtain ⟨t', -, halone'⟩ := halone.move hmax (move_of_step hstep)
    exact ⟨⟨t', halone'⟩, by simpa using weight_lt_of_step halone.fresh hx hstep⟩
  · rintro c ⟨t, halone⟩ hterminal
    exact halone.idle_of_terminal hterminal

end BufferedStack

/-! ### The three stacks -/

end Multithreading.Stack
