import Multithreading.Transition.Threads
import Multithreading.Transition.Mutex
import Mathlib.Data.Finset.Erase
import Mathlib.Data.Finset.Insert

/-!
# `CVLock`

The lock of a mutex, a flag and a condition variable, as a machine of any number of threads. A step
acquires or releases `m_mtx`, tests or sets `m_locked`, blocks in `wait`, or notifies. Blocking
releases the mutex and enters the wait set in one step. A blocked thread is woken by a notification
or spuriously, and has to acquire the mutex again before it returns from `wait`.

`lock()` tests `m_locked` with an `if`: a thread that has been woken sets the flag without testing
it again. Between the notification and the moment when the woken thread has the mutex back, another
thread may have taken the lock, and a spurious wake-up does not need the lock to be free at all. The
guard `WokenUnlocked` leaves out the steps in which a thread returns from `wait` while the flag is
set.

## Main definitions

* `CVLock.Shared`, `CVLock.Local`, `CVLock.step`, `cvLock` — the machine.
* `CVLock.MutualExclusion` — at most one thread is between `lock()` and `unlock()`.
* `CVLock.WokenUnlocked` — the guard.

## Main results

* `CVLock.not_mutualExclusion` — two threads hold the lock, without any spurious wake-up.
* `CVLock.mutualExclusion_of_wokenUnlocked` — mutual exclusion in every run under the guard.
-/

open Transition

namespace Multithreading.Sync

namespace CVLock

/-- `m_mtx` with its holder, `m_locked`, and the threads that are blocked in `m_mutexUnlocked` and
have not been notified. -/
structure Shared (ι : Type*) where
  mMtx : Option ι
  mLocked : Bool
  mMutexUnlocked : Finset ι

/-- The member functions. -/
inductive Call
  | lock
  | unlock
  deriving DecidableEq

/-- The program counter of a thread. -/
inductive Local
  | idle
  /-- In `lock()`, about to acquire `m_mtx`. -/
  | lockAcquire
  /-- Holding `m_mtx`, about to test `m_locked`. -/
  | lockTest
  /-- Holding `m_mtx`, about to block in `wait`. -/
  | lockWait
  /-- Blocked in `wait`. -/
  | blocked
  /-- Woken in `wait`, about to acquire `m_mtx` again. -/
  | woken
  /-- Holding `m_mtx`, about to set `m_locked`. -/
  | lockSet
  /-- Holding `m_mtx`, about to release it and to return from `lock()`. -/
  | lockRelease
  /-- Between the return of `lock()` and the call of `unlock()`. -/
  | holding
  /-- In `unlock()`, about to acquire `m_mtx`. -/
  | unlockAcquire
  /-- Holding `m_mtx`, about to clear `m_locked`. -/
  | unlockClear
  /-- Holding `m_mtx`, about to notify. -/
  | unlockNotify
  /-- Holding `m_mtx`, about to release it and to return from `unlock()`. -/
  | unlockRelease
  deriving DecidableEq

/-- What decides a step of a thread. A notification wakes one of the blocked threads, if there is
one. -/
inductive Action (ι : Type*)
  | call (f : Call)
  | tau
  | notify (target : Option ι)
  | spurious

/-- The events of a lock. -/
inductive Event (ι : Type*)
  | call (i : ι) (f : Call)
  | ret (i : ι) (f : Call)
  /-- `notify_one` is executed. -/
  | notified (i : ι) (target : Option ι)
  deriving DecidableEq

variable {ι : Type*} [DecidableEq ι]

/-- Acquiring `m_mtx`, which blocks while it is held. -/
def Shared.acquire (sh : Shared ι) (i : ι) (l : Local) :
    Option (Shared ι × Local × List (Event ι)) :=
  if sh.mMtx = none then some ({ sh with mMtx := some i }, l, []) else none

/-- A step of thread `i`. -/
def step (i : ι) : Action ι → Shared ι → Local → Option (Shared ι × Local × List (Event ι))
  | .call .lock, sh, .idle => some (sh, .lockAcquire, [.call i .lock])
  | .call .unlock, sh, .holding => some (sh, .unlockAcquire, [.call i .unlock])
  | .tau, sh, .lockAcquire => sh.acquire i .lockTest
  | .tau, sh, .lockTest => some (sh, if sh.mLocked then .lockWait else .lockSet, [])
  | .tau, sh, .lockWait =>
    some ({ sh with mMtx := none, mMutexUnlocked := insert i sh.mMutexUnlocked }, .blocked, [])
  | .tau, sh, .blocked => if i ∈ sh.mMutexUnlocked then none else some (sh, .woken, [])
  | .spurious, sh, .blocked =>
    some ({ sh with mMutexUnlocked := sh.mMutexUnlocked.erase i }, .woken, [])
  | .tau, sh, .woken => sh.acquire i .lockSet
  | .tau, sh, .lockSet => some ({ sh with mLocked := true }, .lockRelease, [])
  | .tau, sh, .lockRelease => some ({ sh with mMtx := none }, .holding, [.ret i .lock])
  | .tau, sh, .unlockAcquire => sh.acquire i .unlockClear
  | .tau, sh, .unlockClear => some ({ sh with mLocked := false }, .unlockNotify, [])
  | .notify none, sh, .unlockNotify =>
    if sh.mMutexUnlocked = ∅ then some (sh, .unlockRelease, [.notified i none]) else none
  | .notify (some j), sh, .unlockNotify =>
    if j ∈ sh.mMutexUnlocked then
      some ({ sh with mMutexUnlocked := sh.mMutexUnlocked.erase j }, .unlockRelease,
        [.notified i (some j)])
    else none
  | .tau, sh, .unlockRelease => some ({ sh with mMtx := none }, .idle, [.ret i .unlock])
  | _, _, _ => none

/-- What a step of thread `i` can do, one case for each branch of `step`. -/
inductive Move (i : ι) (sh : Shared ι) : Local → Shared ι → Local → List (Event ι) → Prop
  | callLock : Move i sh .idle sh .lockAcquire [.call i .lock]
  | callUnlock : Move i sh .holding sh .unlockAcquire [.call i .unlock]
  | lockAcquire (hfree : sh.mMtx = none) :
      Move i sh .lockAcquire { sh with mMtx := some i } .lockTest []
  | testLocked (hlocked : sh.mLocked = true) : Move i sh .lockTest sh .lockWait []
  | testUnlocked (hlocked : sh.mLocked = false) : Move i sh .lockTest sh .lockSet []
  | block : Move i sh .lockWait
      { sh with mMtx := none, mMutexUnlocked := insert i sh.mMutexUnlocked } .blocked []
  | wakeUp (hnotified : i ∉ sh.mMutexUnlocked) : Move i sh .blocked sh .woken []
  | spurious : Move i sh .blocked { sh with mMutexUnlocked := sh.mMutexUnlocked.erase i } .woken []
  | reacquire (hfree : sh.mMtx = none) :
      Move i sh .woken { sh with mMtx := some i } .lockSet []
  | lockSet : Move i sh .lockSet { sh with mLocked := true } .lockRelease []
  | lockRelease : Move i sh .lockRelease { sh with mMtx := none } .holding [.ret i .lock]
  | unlockAcquire (hfree : sh.mMtx = none) :
      Move i sh .unlockAcquire { sh with mMtx := some i } .unlockClear []
  | unlockClear : Move i sh .unlockClear { sh with mLocked := false } .unlockNotify []
  | notifyNone (hempty : sh.mMutexUnlocked = ∅) :
      Move i sh .unlockNotify sh .unlockRelease [.notified i none]
  | notifyOne (j : ι) (hj : j ∈ sh.mMutexUnlocked) :
      Move i sh .unlockNotify { sh with mMutexUnlocked := sh.mMutexUnlocked.erase j }
        .unlockRelease [.notified i (some j)]
  | unlockRelease : Move i sh .unlockRelease { sh with mMtx := none } .idle [.ret i .unlock]

theorem move_of_step {i : ι} {x : Action ι} {sh sh' : Shared ι} {l l' : Local}
    {es : List (Event ι)} (h : step i x sh l = some (sh', l', es)) : Move i sh l sh' l' es := by
  unfold step Shared.acquire at h
  split at h
  all_goals try split at h
  all_goals try contradiction
  all_goals
    obtain ⟨rfl, rfl, rfl⟩ : _ ∧ _ ∧ _ := by simpa using h
    constructor
  all_goals simp_all

end CVLock

/-- `CVLock` used by the threads `ι`. -/
def cvLock (ι : Type*) [DecidableEq ι] :
    Machine (Config ι (CVLock.Shared ι) CVLock.Local) (ι × CVLock.Action ι) (CVLock.Event ι) :=
  interleave ⟨⟨none, false, ∅⟩, fun _ => .idle⟩ CVLock.step

namespace CVLock

variable {ι : Type*}

/-- At most one thread is between the return of `lock()` and the call of `unlock()`. -/
def MutualExclusion (c : Config ι (Shared ι) Local) : Prop :=
  ∀ i j, c.threads i = .holding → c.threads j = .holding → i = j

/-- A thread that returns from `wait` finds `m_locked` cleared. -/
def WokenUnlocked (c : Config ι (Shared ι) Local) (x : ι × Action ι) : Prop :=
  c.threads x.1 = .woken → c.shared.mLocked = false

instance (c : Config ι (Shared ι) Local) (x : ι × Action ι) : Decidable (WokenUnlocked c x) :=
  inferInstanceAs (Decidable (c.threads x.1 = .woken → c.shared.mLocked = false))

/-! ### Mutual exclusion fails -/

/-- The labels of a call of `lock()` that finds the lock free and is not disturbed. -/
def lockAlone (i : ι) : List (ι × Action ι) :=
  [(i, .call .lock), (i, .tau), (i, .tau), (i, .tau), (i, .tau)]

/-- Thread `i` takes the lock and thread `j` blocks in `wait`. Thread `i` unlocks, which notifies
thread `j`, and takes the lock again before thread `j` has `m_mtx` back. Thread `j` returns from
`wait` and from `lock()`. -/
def overtakeLabels (i j : ι) : List (ι × Action ι) :=
  List.flatten [lockAlone i, [(j, .call .lock), (j, .tau), (j, .tau), (j, .tau)],
    [(i, .call .unlock), (i, .tau), (i, .tau), (i, .notify (some j)), (i, .tau)],
    lockAlone i, [(j, .tau), (j, .tau), (j, .tau), (j, .tau)]]

/-- **Mutual exclusion fails** for two threads, without any spurious wake-up. -/
theorem not_mutualExclusion :
    ¬ ∀ c h, (cvLock (Fin 2)).Run (cvLock (Fin 2)).init h c → MutualExclusion c := by
  intro hmutex
  obtain ⟨c, h, hrun, hholding⟩ := Machine.exists_run_of_exec (M := cvLock (Fin 2))
    (overtakeLabels 0 1)
    (f := fun r => (r.1.threads 0, r.1.threads 1)) (b := (.holding, .holding)) (by decide)
  obtain ⟨h0, h1⟩ := Prod.mk.inj hholding
  exact absurd (hmutex c h hrun 0 1 h0 h1) (by decide)

/-! ### Mutual exclusion under the guard -/

/-- The program counters at which a thread holds `m_mtx`. -/
def Local.inMtx : Local → Bool
  | lockTest | lockWait | lockSet | lockRelease | unlockClear | unlockNotify | unlockRelease => true
  | _ => false

/-- The program counters at which `m_locked` is set on behalf of the thread. -/
def Local.owns : Local → Bool
  | lockRelease | holding | unlockAcquire | unlockClear => true
  | _ => false

/-- `m_mtx` has one holder, `m_locked` is set on behalf of at most one thread, and it is clear when
a thread is about to set it. -/
structure Exclusive (c : Config ι (Shared ι) Local) : Prop where
  mtx : Mutex.Held c.shared.mMtx fun i => (c.threads i).inMtx
  locked : ∀ i, (c.threads i).owns = true → c.shared.mLocked = true
  unique : ∀ i j, (c.threads i).owns = true → (c.threads j).owns = true → i = j
  clear : ∀ i, c.threads i = .lockSet → c.shared.mLocked = false

theorem Move.mutexStep [DecidableEq ι] {c : Config ι (Shared ι) Local} {i : ι} {sh' : Shared ι}
    {l' : Local} {es : List (Event ι)} (hmove : Move i c.shared (c.threads i) sh' l' es) :
    Mutex.Step c.shared.mMtx (fun j => (c.threads j).inMtx) sh'.mMtx
      fun j => ((c.set i sh' l').threads j).inMtx := by
  have hkeep := c.comp_set_of_eq i sh' (l := l') Local.inMtx
  generalize hl : c.threads i = l at hmove
  cases hmove with
  | lockAcquire hfree | reacquire hfree | unlockAcquire hfree =>
    exact .acquire i hfree rfl (Config.comp_set ..)
  | block | lockRelease | unlockRelease =>
    exact .release i (by rw [hl]; rfl) rfl (Config.comp_set ..)
  | _ => exact .keep rfl (hkeep (by rw [hl]; rfl))

/-- A step of thread `i` on the flag: it sets the flag and comes to own it, clears the flag that it
owns, or leaves the flag alone. -/
theorem Move.locked_cases [DecidableEq ι] {i : ι} {sh sh' : Shared ι} {l l' : Local}
    {es : List (Event ι)} (hmove : Move i sh l sh' l' es) :
    (l = .lockSet ∧ sh'.mLocked = true ∧ l' = .lockRelease) ∨
      (l = .unlockClear ∧ sh'.mLocked = false ∧ l' = .unlockNotify) ∨
      (sh'.mLocked = sh.mLocked ∧ l'.owns = l.owns) := by
  cases hmove with
  | lockSet => exact .inl ⟨rfl, rfl, rfl⟩
  | unlockClear => exact .inr (.inl ⟨rfl, rfl, rfl⟩)
  | _ => exact .inr (.inr ⟨rfl, rfl⟩)

theorem Move.of_lockSet [DecidableEq ι] {i : ι} {sh sh' : Shared ι} {l l' : Local}
    {es : List (Event ι)} (hmove : Move i sh l sh' l' es) (hl' : l' = .lockSet) :
    sh'.mLocked = sh.mLocked ∧ (sh.mLocked = false ∨ l = .woken) := by
  cases hmove with
  | testUnlocked hlocked => exact ⟨rfl, .inl hlocked⟩
  | reacquire => exact ⟨rfl, .inr rfl⟩
  | _ => simp at hl'

namespace Exclusive

variable {c : Config ι (Shared ι) Local} {i : ι} {sh' : Shared ι} {l' : Local} {es : List (Event ι)}

theorem owns_eq_false (hinv : Exclusive c) (hi : c.threads i = .lockSet) (j : ι) :
    (c.threads j).owns = false := by
  by_contra howns
  have hset := hinv.locked j (by simpa using howns)
  simp [hinv.clear i hi] at hset

theorem mutualExclusion (hinv : Exclusive c) : MutualExclusion c := by
  intro j k hj hk
  exact hinv.unique j k (by rw [hj]; rfl) (by rw [hk]; rfl)

variable [DecidableEq ι]

theorem move (hinv : Exclusive c) (hguard : c.threads i = .woken → c.shared.mLocked = false)
    (hmove : Move i c.shared (c.threads i) sh' l' es) : Exclusive (c.set i sh' l') := by
  have hmtx := hmove.mutexStep.held hinv.mtx
  rcases hmove.locked_cases with ⟨hi, hset, rfl⟩ | ⟨hi, hcleared, rfl⟩ | ⟨hflag, howner⟩
  · -- The flag was clear, so nobody owned it and the mutex keeps the others from setting it.
    have hnone := hinv.owns_eq_false hi
    have hself : ∀ j, ((c.set i sh' .lockRelease).threads j).owns = true → j = i := by
      intro j hj
      by_contra hji
      rw [Config.set_threads_of_ne _ _ _ hji, hnone j] at hj
      simp at hj
    refine ⟨hmtx, fun _ _ => hset, fun j k hj hk => (hself j hj).trans (hself k hk).symm, ?_⟩
    refine c.forall_set i sh' _ (P := fun _ l => l = .lockSet → sh'.mLocked = false) (by simp) ?_
    intro j hji hj
    exact absurd (hinv.mtx.unique (t := j) (u := i) (by rw [hj]; rfl) (by rw [hi]; rfl)) hji
  · -- The thread that clears the flag was its only owner.
    have hnone : ∀ j, ((c.set i sh' .unlockNotify).threads j).owns = false := by
      refine c.forall_set i sh' _ (P := fun _ l => l.owns = false) rfl fun j hji => ?_
      by_contra howns
      exact hji (hinv.unique j i (by simpa using howns) (by rw [hi]; rfl))
    exact ⟨hmtx, fun j hj => by simp [hnone j] at hj, fun j _ hj => by simp [hnone j] at hj,
      fun _ _ => hcleared⟩
  · have howns : ∀ j, ((c.set i sh' l').threads j).owns = (c.threads j).owns :=
      c.forall_set i sh' l' (P := fun j l => l.owns = (c.threads j).owns) howner fun _ _ => rfl
    refine ⟨hmtx, fun j hj => ?_, fun j k hj hk => ?_, ?_⟩
    · exact hflag.trans (hinv.locked j (howns j ▸ hj))
    · exact hinv.unique j k (howns j ▸ hj) (howns k ▸ hk)
    · refine c.forall_set i sh' l' (P := fun _ l => l = .lockSet → sh'.mLocked = false) ?_ ?_
      · intro hl'
        obtain ⟨-, hclear | hwoken⟩ := hmove.of_lockSet hl'
        · exact hflag.trans hclear
        · exact hflag.trans (hguard hwoken)
      · exact fun j _ hj => hflag.trans (hinv.clear j hj)

end Exclusive

variable [DecidableEq ι]

/-- **Mutual exclusion under the guard.** In every run in which no thread returns from `wait` while
`m_locked` is set, at most one thread holds the lock. -/
theorem mutualExclusion_of_wokenUnlocked {h : List (Event ι)} {c : Config ι (Shared ι) Local}
    (hrun : (cvLock ι).RunIf WokenUnlocked (cvLock ι).init h c) : MutualExclusion c := by
  suffices hinv : Exclusive c from hinv.mutualExclusion
  refine hrun.invariant (fun c _ => Exclusive c) ?_ ?_
  · constructor
    · exact Mutex.held_none fun _ => rfl
    · simp [cvLock, Local.owns]
    · simp [cvLock, Local.owns]
    · simp [cvLock]
  · rintro h c c' es ⟨i, x⟩ - hinv hguard hnext
    obtain ⟨sh', l', hstep, rfl⟩ := interleave_next_eq_some.mp hnext
    exact hinv.move hguard (move_of_step hstep)

omit [DecidableEq ι] in
/-- Thread `j` blocks, is notified by the `unlock()` of thread `i`, and takes the lock. -/
def handoverLabels (i j : ι) : List (ι × Action ι) :=
  List.flatten [lockAlone i, [(j, .call .lock), (j, .tau), (j, .tau), (j, .tau)],
    [(i, .call .unlock), (i, .tau), (i, .tau), (i, .notify (some j)), (i, .tau)],
    [(j, .tau), (j, .tau), (j, .tau), (j, .tau)]]

/-- The lock is handed over to a thread that has waited for it. -/
theorem mutualExclusion_of_handover : ∃ c h,
    (cvLock (Fin 2)).RunIf WokenUnlocked (cvLock (Fin 2)).init h c ∧
      c.threads 1 = .holding ∧ MutualExclusion c := by
  obtain ⟨c, h, hrun, hholding⟩ := Machine.exists_runIf_of_execIf (M := cvLock (Fin 2))
    WokenUnlocked (handoverLabels 0 1)
    (f := fun r => r.1.threads 1) (b := .holding) (by decide)
  exact ⟨c, h, hrun, hholding, mutualExclusion_of_wokenUnlocked hrun⟩

end CVLock

end Multithreading.Sync
