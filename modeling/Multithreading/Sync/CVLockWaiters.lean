import Multithreading.Sync.CVLock

/-!
# No waiter of `CVLock` is stranded

Every `unlock()` notifies one waiter, and other threads may overtake the notified one and become
additional holders, so neither the number of holders nor the number of notifications is tied to the
number of waiters. What remains true is that somebody will notify again: a thread that has passed
the test of `m_locked` or has been woken comes to an `unlock()` of its own, and a thread blocks only
while the flag is set, that is, while a thread that has set it has not yet cleared it.

## Main definitions

* `CVLock.Local.willNotify`, `CVLock.Notifies` — the threads that will execute a `notify_one`.
* `CVLock.Awaited` — the invariant.

## Main results

* `CVLock.awaited_of_run` — the invariant, for every run.
* `CVLock.cvLock_strands_no_waiter` — while somebody is blocked, another thread will notify.
-/

open Transition

namespace Multithreading.Sync

namespace CVLock

variable {ι : Type*}

/-- The program counters from the passed test of `m_locked` or the wake-up in `wait` on, up to the
`notify_one` of the `unlock()` that follows. -/
def Local.willNotify : Local → Bool
  | woken | lockSet | lockRelease | holding | unlockAcquire | unlockClear | unlockNotify => true
  | _ => false

/-- The thread is blocked in `m_mutexUnlocked.wait` and has not been notified. -/
def Waits (c : Config ι (Shared ι) Local) (i : ι) : Prop :=
  c.threads i = .blocked ∧ i ∈ c.shared.mMutexUnlocked

/-- The thread has returned from `lock()`, or is about to, having passed the test of `m_locked` or
having been woken, and has not yet executed the `notify_one` of its `unlock()`. -/
def Notifies (c : Config ι (Shared ι) Local) (j : ι) : Prop :=
  (c.threads j).willNotify = true ∨ c.threads j = .blocked ∧ j ∉ c.shared.mMutexUnlocked

/-- The flag is set on behalf of a thread, and while somebody is blocked or about to block, somebody
will notify. -/
structure Awaited (c : Config ι (Shared ι) Local) : Prop where
  mtx : Mutex.Held c.shared.mMtx fun i => (c.threads i).inMtx
  blocked : ∀ i, i ∈ c.shared.mMutexUnlocked → c.threads i = .blocked
  owned : c.shared.mLocked = true → ∃ j, (c.threads j).owns = true
  awaited : (∃ i, i ∈ c.shared.mMutexUnlocked ∨ c.threads i = .lockWait) → ∃ j, Notifies c j

theorem Local.willNotify_of_owns {l : Local} (h : l.owns = true) : l.willNotify = true := by
  cases l <;> simp_all [Local.owns, Local.willNotify]

variable [DecidableEq ι]

/-- The thread of a step does not enter the wait set except by blocking, and only a notification
takes another thread out of it. -/
theorem Move.mem_waiters {i j : ι} {sh sh' : Shared ι} {l l' : Local} {es : List (Event ι)}
    (hmove : Move i sh l sh' l' es) (hji : j ≠ i) (hj : j ∈ sh'.mMutexUnlocked) :
    j ∈ sh.mMutexUnlocked := by
  cases hmove with
  | block => simpa [hji] using hj
  | spurious => exact Finset.mem_of_mem_erase hj
  | notifyOne k hk => exact Finset.mem_of_mem_erase hj
  | _ => exact hj

theorem Notifies.of_ne {c : Config ι (Shared ι) Local} {i j : ι} {sh' : Shared ι} {l' : Local}
    {es : List (Event ι)} (hj : Notifies c j) (hji : j ≠ i)
    (hmove : Move i c.shared (c.threads i) sh' l' es) : Notifies (c.set i sh' l') j := by
  rw [Notifies, Config.set_threads_of_ne _ _ _ hji, Config.set_shared]
  exact hj.imp_right fun ⟨hblocked, hout⟩ => ⟨hblocked, fun hin => hout (hmove.mem_waiters hji hin)⟩

namespace Awaited

variable {c : Config ι (Shared ι) Local} {i : ι} {sh' : Shared ι} {l' : Local} {es : List (Event ι)}

theorem blocked_move (hinv : Awaited c) (hmove : Move i c.shared (c.threads i) sh' l' es) :
    ∀ j, j ∈ sh'.mMutexUnlocked → (c.set i sh' l').threads j = .blocked := by
  refine c.forall_set i sh' l' (P := fun j l => j ∈ sh'.mMutexUnlocked → l = .blocked)
    (fun hi => ?_) fun j hji hj => hinv.blocked j (hmove.mem_waiters hji hj)
  have hblocked := hinv.blocked i
  generalize c.threads i = l at hmove hblocked
  cases hmove with
  | block => rfl
  | wakeUp hnotified => exact absurd hi hnotified
  | spurious => simp at hi
  | notifyOne j hj => exact absurd (hblocked (Finset.mem_of_mem_erase hi)) (by simp)
  | _ => exact absurd (hblocked hi) (by simp)

theorem owned_move (hinv : Awaited c) (hmove : Move i c.shared (c.threads i) sh' l' es)
    (hlocked : sh'.mLocked = true) : ∃ j, ((c.set i sh' l').threads j).owns = true := by
  rcases hmove.locked_cases with ⟨-, -, rfl⟩ | ⟨-, hcleared, -⟩ | ⟨hflag, howns⟩
  · exact ⟨i, by simp [Local.owns]⟩
  · simp [hcleared] at hlocked
  · obtain ⟨j, hj⟩ := hinv.owned (hflag ▸ hlocked)
    refine ⟨j, ?_⟩
    rw [Config.set_threads_apply]
    split
    · rename_i hji
      rw [howns, ← hji]
      exact hj
    · exact hj

/-- A step that is neither by a thread that will notify nor by a blocked one, and that brings
nobody but its own thread into the wait set, keeps what is awaited. -/
theorem notifies_of_quiet (hinv : Awaited c) (hmove : Move i c.shared (c.threads i) sh' l' es)
    (hquiet : (c.threads i).willNotify = false ∧ c.threads i ≠ .blocked)
    (hold : ∃ k, k ∈ c.shared.mMutexUnlocked ∨ c.threads k = .lockWait) :
    ∃ j, Notifies (c.set i sh' l') j := by
  obtain ⟨j, hj⟩ := hinv.awaited hold
  refine ⟨j, hj.of_ne ?_ hmove⟩
  rintro rfl
  rcases hj with hwill | ⟨hblocked, -⟩
  · simp [hquiet.1] at hwill
  · exact hquiet.2 hblocked

/-- While somebody is blocked or about to block, somebody will notify. -/
theorem awaited_move (hinv : Awaited c) (hmove : Move i c.shared (c.threads i) sh' l' es)
    (hwait : ∃ k, k ∈ sh'.mMutexUnlocked ∨ (c.set i sh' l').threads k = .lockWait) :
    ∃ j, Notifies (c.set i sh' l') j := by
  have hself : l'.willNotify = true → ∃ j, Notifies (c.set i sh' l') j :=
    fun hl => ⟨i, .inl (by simpa using hl)⟩
  have hquiet := hinv.notifies_of_quiet hmove
  -- A waiter after the step other than the thread of the step was one before.
  have hother : ∀ k, k ≠ i → (k ∈ sh'.mMutexUnlocked ∨ (c.set i sh' l').threads k = .lockWait) →
      k ∈ c.shared.mMutexUnlocked ∨ c.threads k = .lockWait := by
    intro k hki hk
    rw [Config.set_threads_of_ne _ _ _ hki] at hk
    exact hk.imp_left (hmove.mem_waiters hki)
  have hmoved := hmove
  generalize hl : c.threads i = l at hmove
  cases hmove with
  | callUnlock | testUnlocked | wakeUp | spurious | reacquire | lockSet | lockRelease
  | unlockAcquire | unlockClear => exact hself rfl
  | testLocked hlocked =>
    obtain ⟨j, hj⟩ := hinv.owned hlocked
    have hji : j ≠ i := by
      rintro rfl
      simp [hl, Local.owns] at hj
    exact ⟨j, Notifies.of_ne (.inl (Local.willNotify_of_owns hj)) hji hmoved⟩
  | notifyOne j hj =>
    have hblocked := hinv.blocked j hj
    have hji : j ≠ i := by
      rintro rfl
      simp [hl] at hblocked
    exact ⟨j, .inr ⟨by rwa [Config.set_threads_of_ne _ _ _ hji], by simp⟩⟩
  | notifyNone hempty =>
    obtain ⟨k, hk | hk⟩ := hwait
    · simp [hempty] at hk
    · rw [Config.set_threads_apply] at hk
      split at hk
      · simp at hk
      · rename_i hki
        exact absurd (hinv.mtx.unique (t := k) (u := i) (by rw [hk]; rfl) (by rw [hl]; rfl)) hki
  | block => exact hquiet ⟨by rw [hl]; rfl, by simp [hl]⟩ ⟨i, .inr hl⟩
  | callLock | lockAcquire | unlockRelease =>
    refine hquiet ⟨by rw [hl]; rfl, by simp [hl]⟩ ?_
    obtain ⟨k, hk⟩ := hwait
    have hki : k ≠ i := by
      rintro rfl
      rcases hk with hk | hk
      · simp [hinv.blocked _ hk] at hl
      · simp at hk
    exact ⟨k, hother k hki hk⟩

theorem move (hinv : Awaited c) (hmove : Move i c.shared (c.threads i) sh' l' es) :
    Awaited (c.set i sh' l') :=
  ⟨hmove.mutexStep.held hinv.mtx, hinv.blocked_move hmove, hinv.owned_move hmove,
    hinv.awaited_move hmove⟩

end Awaited

variable {c : Config ι (Shared ι) Local} {h : List (Event ι)}

/-- The invariant, for every run. -/
theorem awaited_of_run (hrun : (cvLock ι).Run (cvLock ι).init h c) : Awaited c := by
  refine hrun.invariant (fun c _ => Awaited c) ?_ ?_
  · constructor
    · exact Mutex.held_none fun _ => rfl
    · simp [cvLock]
    · simp [cvLock]
    · simp [cvLock]
  · rintro h c c' es ⟨i, x⟩ - hinv - hnext
    obtain ⟨sh', l', hstep, rfl⟩ := interleave_next_eq_some.mp hnext
    exact hinv.move (move_of_step hstep)

/-- **No waiter is stranded.** In every reachable state in which a thread is blocked in `wait` and
has not been notified, another thread will execute a `notify_one`. So no state is reachable in which
somebody is blocked and everybody is blocked or outside `lock()` and `unlock()` without the lock. -/
theorem cvLock_strands_no_waiter (hrun : (cvLock ι).Run (cvLock ι).init h c) :
    (∀ i, Waits c i → ∃ j, j ≠ i ∧ Notifies c j) ∧
      ¬ ((∃ i, Waits c i) ∧ ∀ j, c.threads j = .idle ∨ Waits c j) := by
  have hinv := awaited_of_run hrun
  have hnotifier : ∀ i, Waits c i → ∃ j, ¬ Waits c j ∧ c.threads j ≠ .idle ∧ Notifies c j := by
    rintro i ⟨-, hin⟩
    obtain ⟨j, hj⟩ := hinv.awaited ⟨i, .inl hin⟩
    refine ⟨j, ?_, ?_, hj⟩
    · rintro ⟨hblocked, hwaits⟩
      rcases hj with hwill | ⟨-, hout⟩
      · simp [hblocked, Local.willNotify] at hwill
      · exact hout hwaits
    · rintro hidle
      rcases hj with hwill | ⟨hblocked, -⟩
      · simp [hidle, Local.willNotify] at hwill
      · simp [hidle] at hblocked
  refine ⟨fun i hi => ?_, ?_⟩
  · obtain ⟨j, hj, -, hnotifies⟩ := hnotifier i hi
    exact ⟨j, fun hji => hj (hji ▸ hi), hnotifies⟩
  · rintro ⟨⟨i, hi⟩, hall⟩
    obtain ⟨j, hj, hidle, -⟩ := hnotifier i hi
    exact (hall j).elim hidle hj

/-- A thread is blocked while another one holds the lock. -/
theorem cvLock_waiter_has_holder : ∃ c h, (cvLock (Fin 2)).Run (cvLock (Fin 2)).init h c ∧
    Waits c 1 ∧ ∃ j, j ≠ 1 ∧ Notifies c j := by
  obtain ⟨c, h, hrun, hc⟩ := Machine.exists_run_of_exec (M := cvLock (Fin 2))
    (lockAlone 0 ++ [(1, .call .lock), (1, .tau), (1, .tau), (1, .tau)])
    (f := fun r => (r.1.threads 1, decide (1 ∈ r.1.shared.mMutexUnlocked)))
    (b := (.blocked, true)) (by decide)
  obtain ⟨hblocked, hin⟩ := Prod.mk.inj hc
  have hwaits : Waits c 1 := ⟨hblocked, of_decide_eq_true hin⟩
  exact ⟨c, h, hrun, hwaits, (cvLock_strands_no_waiter hrun).1 1 hwaits⟩

end CVLock

end Multithreading.Sync
