import Multithreading.Sync.Worker
import Multithreading.Transition.Mutex

/-!
# Shutdown of `Worker`

The predicate of the wait looks at the tasks only, and the wait is not given the stop token. A
worker that has passed the test of the stop flag and waits without tasks is therefore not released
by a request to stop: a wake-up that finds no tasks leads back to the wait, and no task is added any
more.

A worker that is blocked with tasks in `m_tasks` has a notification coming, since the `AddTask` that
appended them notifies after it has released the mutex. When the destructor begins all of them have
returned, so from then on only the worker moves.

## Main definitions

* `Worker.Deadlocked` — the destructor waits for the worker, and the worker for a notification.
* `Worker.Waiting` — the worker is between the test of the stop flag and its batch, without tasks.
* `Worker.StopLands` — the guard.
* `Worker.Inv` — the invariant.

## Main results

* `Worker.blockedForever_of_deadlocked` — the destructor never returns from a deadlock.
* `Worker.not_deadlocked_iff` — no run under the guard deadlocks, and a request to stop that misses
  the guard leads to a deadlock.
-/

open Transition

namespace Multithreading.Sync

namespace Worker

variable {ι : Type*}

/-! ### Deadlocks -/

/-- The stop has been requested, the destructor is blocked in `join`, the worker is blocked in
`wait` and has not been notified, and no `AddTask` is in progress. -/
structure Deadlocked (s : State ι) : Prop where
  stopRequested : s.stopRequested = true
  destructor : s.destructor = .join
  worker : s.worker = .blocked
  asleep : s.asleep = true
  idle : ∀ i, s.addTask i = .idle

/-- The program counters from the test of the stop flag up to the end of the wait. -/
def WorkerThread.waits : WorkerThread → Bool
  | lock | testTasks | block | blocked | woken => true
  | _ => false

/-- The worker has passed the test of the stop flag and waits for tasks. -/
def Waiting (s : State ι) : Prop := s.worker.waits = true ∧ s.mTasks = []

/-- The stop is not requested while the worker waits for tasks. -/
def StopLands (s : State ι) (x : Label ι) : Prop :=
  x = .destructor → s.destructor = .requestStop → ¬ Waiting s

instance (s : State ι) : Decidable (Waiting s) := inferInstanceAs (Decidable (_ ∧ _))

instance [DecidableEq ι] (s : State ι) (x : Label ι) : Decidable (StopLands s x) :=
  inferInstanceAs (Decidable (_ → _ → _))

/-! ### The invariant -/

/-- The program counters of `AddTask` at which it holds `m_mtx`. -/
def AddTask.inMtx : AddTask → Bool
  | push _ | unlock => true
  | _ => false

/-- The program counters of the worker at which it holds `m_mtx`. -/
def WorkerThread.inMtx : WorkerThread → Bool
  | testTasks | block | swap | unlock _ => true
  | _ => false

/-- The thread is inside `m_mtx`. -/
def State.inside (s : State ι) : Thread ι → Bool
  | .addTask i => (s.addTask i).inMtx
  | .worker => s.worker.inMtx

/-- The program counters of `AddTask` between the `push_back` and the notification. -/
def AddTask.notifies : AddTask → Bool
  | unlock | notify => true
  | _ => false

/-- The worker tests and swaps `m_tasks` under the mutex, a worker that is asleep on tasks has a
notification coming, and the destructor has waited for every `AddTask`. -/
structure Inv (s : State ι) : Prop where
  mtx : Mutex.Held s.mMtx s.inside
  asleep : s.asleep = true → s.worker = .blocked
  block : s.worker = .block → s.mTasks = []
  attended : s.asleep = true → s.mTasks ≠ [] → ∃ i, (s.addTask i).notifies = true
  idle : s.destructor ≠ .alive → ∀ i, s.addTask i = .idle
  stop : s.stopRequested = true ↔ s.destructor = .join ∨ s.destructor = .joined

variable [DecidableEq ι]

theorem State.inside_of_addTask {s s' : State ι} {i : ι} {l : AddTask}
    (h : s'.addTask = Function.update s.addTask i l) (hworker : s'.worker = s.worker) :
    s'.inside = Function.update s.inside (.addTask i) l.inMtx := by
  funext t
  cases t with
  | addTask j =>
    by_cases hji : j = i
    · subst hji
      simp [State.inside, h]
    · simp [State.inside, h, hji]
  | worker => simp [State.inside, hworker]

theorem State.inside_of_worker {s s' : State ι} (h : s'.addTask = s.addTask) :
    s'.inside = Function.update s.inside .worker s'.worker.inMtx := by
  funext t
  cases t with
  | addTask j => simp [State.inside, h]
  | worker => simp [State.inside]

variable {s s' : State ι} {x : Label ι} {es : List (Event ι)}

theorem Move.mutexStep (hmove : Move s x s' es) :
    Mutex.Step s.mMtx s.inside s'.mMtx s'.inside := by
  have hkeep : ∀ i l, (s.addTask i).inMtx = AddTask.inMtx l →
      s'.addTask = Function.update s.addTask i l →
      s'.worker = s.worker → s'.inside = s.inside := by
    intro i l h haddTask hworker
    rw [State.inside_of_addTask haddTask hworker, ← h]
    exact Function.update_eq_self (Thread.addTask i) s.inside
  have hkeep' : s.worker.inMtx = s'.worker.inMtx → s'.addTask = s.addTask →
      s'.inside = s.inside := by
    intro h haddTask
    rw [State.inside_of_worker haddTask, ← h]
    exact Function.update_eq_self Thread.worker s.inside
  cases hmove with
  | lock i task hpc hfree =>
    exact .acquire (.addTask i) hfree rfl
      (State.inside_of_addTask (s := s) (l := .push task) rfl rfl)
  | unlock i hpc =>
    exact .release (.addTask i) (by simp [State.inside, hpc, AddTask.inMtx]) rfl
      (State.inside_of_addTask (s := s) (l := .notify) rfl rfl)
  | acquire hpc hfree | reacquire hpc hfree =>
    exact .acquire .worker hfree rfl (State.inside_of_worker rfl)
  | block hpc | release tasks hpc =>
    exact .release .worker (by simp [State.inside, hpc, WorkerThread.inMtx]) rfl
      (State.inside_of_worker rfl)
  | call i task halive hpc | push i task hpc | notify i hpc | ret i hpc =>
    exact .keep rfl (hkeep i _ (by rw [hpc]; rfl) rfl rfl)
  | stop hpc | goOn hpc | testEmpty hpc | testTasks hpc | wakeUp hpc | swap hpc | execute _ _ hpc
  | batchEnds hpc | spurious hpc | throws _ _ hpc =>
    exact .keep rfl (hkeep' (by rw [hpc]; rfl) rfl)
  | begin | requestStop | join => exact .keep rfl (hkeep' rfl rfl)

omit [DecidableEq ι] in
theorem Inv.alive (hinv : Inv s) {i : ι} (hi : s.addTask i ≠ .idle) : s.destructor = .alive := by
  by_contra h
  exact hi (hinv.idle h i)

theorem Inv.block_move (hinv : Inv s) (hmove : Move s x s' es) :
    s'.worker = .block → s'.mTasks = [] := by
  have hblock := hinv.block
  cases hmove with
  | push i task hpc =>
    intro hworker
    have hsame := hinv.mtx.unique (t := .addTask i) (u := .worker)
      (by simp [State.inside, hpc, AddTask.inMtx])
      (by simp [State.inside, show s.worker = .block from hworker, WorkerThread.inMtx])
    simp at hsame
  | _ => simp_all

/-- An `AddTask` that has appended a task notifies, and the worker falls asleep without tasks. -/
theorem Inv.attended_move (hinv : Inv s) (hmove : Move s x s' es) :
    s'.asleep = true → s'.mTasks ≠ [] → ∃ i, (s'.addTask i).notifies = true := by
  have hattended := hinv.attended
  have hasleep := hinv.asleep
  have hother : ∀ i l, (s.addTask i).notifies = false → (∃ j, (s.addTask j).notifies = true) →
      ∃ j, (Function.update s.addTask i l j).notifies = true := by
    rintro i l hi ⟨j, hj⟩
    have hji : j ≠ i := fun h => by simp [← h, hj] at hi
    exact ⟨j, by rwa [Function.update_of_ne hji]⟩
  cases hmove with
  | call i task halive hpc | lock i task hpc | ret i hpc =>
    exact fun ha ht => hother i _ (by rw [hpc]; rfl) (hattended ha ht)
  | push i task hpc => exact fun _ _ => ⟨i, by simp [AddTask.notifies]⟩
  | unlock i hpc => exact fun _ _ => ⟨i, by simp [AddTask.notifies]⟩
  | block hpc => exact fun _ ht => absurd (hinv.block hpc) ht
  | _ => simp_all

theorem Inv.move (hinv : Inv s) (hmove : Move s x s' es) : Inv s' where
  mtx := hmove.mutexStep.held hinv.mtx
  asleep := by
    have hasleep := hinv.asleep
    cases hmove <;> simp_all
  block := hinv.block_move hmove
  attended := hinv.attended_move hmove
  idle := by
    have hidle := hinv.idle
    cases hmove with
    | lock i _ hpc | push i _ hpc | unlock i hpc | notify i hpc | ret i hpc =>
      exact fun h => absurd (hinv.alive (i := i) (by simp [hpc])) h
    | _ => simp_all
  stop := by
    have hstop := hinv.stop
    cases hmove <;> simp_all

variable [Fintype ι]

theorem inv_of_run {h : List (Event ι)} (hrun : (worker ι).Run (worker ι).init h s) : Inv s := by
  refine hrun.invariant (fun s _ => Inv s) ?_ fun _ _ hinv _ hnext => hinv.move (move_of_step hnext)
  constructor
  · exact Mutex.held_none fun t => by cases t <;> rfl
  all_goals simp [worker]

/-! ### Under the guard -/

omit [DecidableEq ι] [Fintype ι] in
theorem Deadlocked.waiting (hdead : Deadlocked s) (hinv : Inv s) : Waiting s := by
  refine ⟨by rw [hdead.worker]; rfl, ?_⟩
  by_contra htasks
  obtain ⟨i, hi⟩ := hinv.attended hdead.asleep htasks
  simp [hdead.idle i, AddTask.notifies] at hi

omit [Fintype ι] in
theorem Inv.not_waiting_move (hinv : Inv s) (hguard : StopLands s x)
    (hsafe : s.stopRequested = true → ¬ Waiting s) (hmove : Move s x s' es) :
    s'.stopRequested = true → ¬ Waiting s' := by
  have hblock := hinv.block
  cases hmove with
  | requestStop hpc => exact fun _ => hguard rfl hpc
  | _ => simp_all [Waiting, WorkerThread.waits]

/-- Under the guard, the worker does not wait for tasks after a request to stop. -/
theorem not_waiting_of_runIf {h : List (Event ι)}
    (hrun : (worker ι).RunIf StopLands (worker ι).init h s) (hstop : s.stopRequested = true) :
    ¬ Waiting s := by
  have hsafe : Inv s ∧ (s.stopRequested = true → ¬ Waiting s) := by
    refine hrun.invariant (fun s _ => Inv s ∧ (s.stopRequested = true → ¬ Waiting s)) ?_ ?_
    · exact ⟨inv_of_run (h := []) .refl, by simp [worker]⟩
    · rintro h s s' es x - ⟨hinv, hsafe⟩ hguard hnext
      have hmove : Move s x s' es := move_of_step hnext
      exact ⟨hinv.move hmove, hinv.not_waiting_move hguard hsafe hmove⟩
  exact hsafe.2 hstop

/-! ### A request to stop during the wait -/

/-- The stop has been requested while the worker waits for tasks. -/
structure Missed (s : State ι) : Prop where
  inv : Inv s
  destructor : s.destructor = .join
  waiting : Waiting s

omit [Fintype ι] in
theorem Missed.move (hmissed : Missed s) (hmove : Move s x s' es) : Missed s' := by
  have hdestructor := hmissed.destructor
  have halive : ∀ i, s.addTask i = .idle := hmissed.inv.idle (by simp [hdestructor])
  obtain ⟨hwaits, htasks⟩ := hmissed.waiting
  refine ⟨hmissed.inv.move hmove, ?_, ?_⟩
  · cases hmove <;> simp_all [WorkerThread.waits]
  · cases hmove <;> simp_all [Waiting, WorkerThread.waits]

/-- The destructor does not return. -/
theorem Missed.blockedForever (hmissed : Missed s) :
    (worker ι).BlockedForever (· = .destructor) s := by
  rintro h t hrun x rfl
  have ht : Missed t :=
    hrun.invariant (fun t _ => Missed t) hmissed fun _ _ ht _ hnext => ht.move (move_of_step hnext)
  have hwaits := ht.waiting.1
  have hworker : t.worker ≠ .finished := fun hfinished => by
    simp [hfinished, WorkerThread.waits] at hwaits
  simp [worker, step, destructorStep, ht.destructor, hworker]

/-- **A deadlock is final.** -/
theorem blockedForever_of_deadlocked {h : List (Event ι)}
    (hrun : (worker ι).Run (worker ι).init h s) (hdead : Deadlocked s) :
    (worker ι).BlockedForever (· = .destructor) s :=
  Missed.blockedForever ⟨inv_of_run hrun, hdead.destructor, hdead.waiting (inv_of_run hrun)⟩

/-- A bound on the steps of the worker up to its sleep. -/
def State.untilAsleep (s : State ι) : ℕ :=
  match s.worker with
  | .block => 1
  | .testTasks => 2
  | .lock | .woken => 3
  | .blocked => if s.asleep then 0 else 4
  | _ => 0

omit [DecidableEq ι] [Fintype ι] in
theorem Missed.stopRequested (hmissed : Missed s) : s.stopRequested = true :=
  hmissed.inv.stop.mpr (.inl hmissed.destructor)

omit [DecidableEq ι] [Fintype ι] in
theorem Missed.mMtx_eq_none (hmissed : Missed s) (hworker : s.worker.inMtx = false) :
    s.mMtx = none := by
  refine hmissed.inv.mtx.eq_none fun t => ?_
  have hidle := hmissed.inv.idle (by simp [hmissed.destructor])
  cases t with
  | addTask i => simp [State.inside, hidle i, AddTask.inMtx]
  | worker => exact hworker

omit [Fintype ι] in
theorem Move.stopRequested (hmove : Move s x s' es) (hstop : s.stopRequested = true) :
    s'.stopRequested = true := by
  cases hmove <;> simp_all

omit [DecidableEq ι] [Fintype ι] in
theorem Missed.deadlocked (hmissed : Missed s) (hterminal : workerStep s = none) :
    Deadlocked s := by
  have hblocked : s.worker = .blocked ∧ s.asleep = true := by
    have hwaits := hmissed.waiting.1
    have hfree := hmissed.mMtx_eq_none
    cases hw : s.worker <;> simp_all [WorkerThread.waits, workerStep, WorkerThread.inMtx]
    split at hterminal <;> simp_all
  exact ⟨hmissed.stopRequested, hmissed.destructor, hblocked.1, hblocked.2,
    hmissed.inv.idle (by simp [hmissed.destructor])⟩

/-- A request to stop during the wait leads to a deadlock. -/
theorem Missed.exists_deadlocked (hmissed : Missed s) :
    ∃ h t, (worker ι).Run s h t ∧ Deadlocked t := by
  obtain ⟨h, t, hrun, ht, hterminal⟩ := Machine.exists_runIf_terminal (M := worker ι) (I := Missed)
    (fun _ x => x = .worker) State.untilAsleep (by
      rintro s t es x hs rfl hnext
      have hmove : Move s .worker t es := move_of_step hnext
      refine ⟨hs.move hmove, ?_⟩
      have hwaits := hs.waiting.1
      have htasks := hs.waiting.2
      cases hmove <;> simp_all [State.untilAsleep, WorkerThread.waits]) hmissed
  exact ⟨h, t, hrun.run, ht.deadlocked (hterminal .worker rfl)⟩

/-! ### The law -/

theorem requestStop_eq {t : State ι} (hpc : s.destructor = .requestStop)
    (hnext : (worker ι).next s .destructor = some (t, es)) :
    { s with stopRequested := true, destructor := .join } = t ∧ [.stopRequested] = es := by
  simpa [worker, step, destructorStep, hpc] using hnext

/-- The worker waits before the destructor begins, and no task was ever added. -/
def lateStopLabels {ι : Type*} : List (Label ι) :=
  [.worker, .worker, .worker, .worker, .destructor, .destructor]

/-- **The shutdown can deadlock.** -/
theorem not_never_deadlocked : ¬ ∀ s h, (worker (Fin 1)).Run (worker (Fin 1)).init h s →
    ¬ Deadlocked s := by
  intro hlaw
  obtain ⟨s, h, hrun, hs⟩ := Machine.exists_run_of_exec (M := worker (Fin 1)) lateStopLabels
    (f := fun r => (r.1.worker, r.1.destructor, r.1.asleep)) (b := (.blocked, .join, true))
    (by decide)
  obtain ⟨hworker, hs⟩ := Prod.mk.inj hs
  obtain ⟨hdestructor, hasleep⟩ := Prod.mk.inj hs
  have hinv := inv_of_run hrun
  exact hlaw s h hrun ⟨hinv.stop.mpr (.inl hdestructor), hdestructor, hworker, hasleep,
    hinv.idle (by simp [show s.destructor = .join from hdestructor])⟩

/-- **Shutdown.** No run in which the stop is never requested while the worker waits for tasks comes
to a deadlock, and from every other request to stop a deadlock can be reached. -/
theorem not_deadlocked_iff :
    (∀ h (s : State ι), (worker ι).RunIf StopLands (worker ι).init h s → ¬ Deadlocked s) ∧
    ∀ h (s t : State ι) es, (worker ι).Run (worker ι).init h s → s.destructor = .requestStop →
      (worker ι).next s .destructor = some (t, es) →
      ((∀ h' u, (worker ι).Run t h' u → ¬ Deadlocked u) ↔ ¬ Waiting s) := by
  refine ⟨fun h s hrun hdead => ?_, fun h s t es hrun hpc hnext => ⟨fun hnever hwaiting => ?_, ?_⟩⟩
  · exact not_waiting_of_runIf hrun hdead.stopRequested (hdead.waiting (inv_of_run hrun.run))
  · have hinv : Inv t := inv_of_run (hrun.tail .destructor trivial hnext)
    obtain ⟨rfl, -⟩ := requestStop_eq hpc hnext
    obtain ⟨h', u, hrun', hdead⟩ := Missed.exists_deadlocked ⟨hinv, rfl, hwaiting⟩
    exact hnever h' u hrun' hdead
  · intro hlanded h' u hrun' hdead
    have hinv : Inv t := inv_of_run (hrun.tail .destructor trivial hnext)
    obtain ⟨rfl, -⟩ := requestStop_eq hpc hnext
    have hu : Inv u ∧ u.stopRequested = true ∧ ¬ Waiting u := by
      refine hrun'.invariant (fun u _ => Inv u ∧ u.stopRequested = true ∧ ¬ Waiting u)
        ⟨hinv, rfl, hlanded⟩ ?_
      rintro h v w es x - ⟨hv, hstop, hwaiting⟩ - hnext
      have hmove : Move v x w es := move_of_step hnext
      have hguard : StopLands v x := by
        intro _ hpc
        rcases hv.stop.mp hstop with hjoin | hjoin <;> simp [hjoin] at hpc
      exact ⟨hv.move hmove, hmove.stopRequested hstop,
        hv.not_waiting_move hguard (fun _ => hwaiting) hmove (hmove.stopRequested hstop)⟩
    exact hu.2.2 (hdead.waiting hu.1)

/-- Thread `i` adds a task, the worker executes it and is about to test the stop flag, and the
destructor begins. -/
def lateTestLabels {ι : Type*} (i : ι) : List (Label ι) :=
  List.flatten [[.call i 7], List.replicate 5 (.addTask i), List.replicate 7 .worker, [.destructor]]

/-- The worker tests the stop flag after the destructor has requested the stop. -/
theorem not_deadlocked_of_late_test : ∃ h s t es,
    (worker (Fin 1)).RunIf StopLands (worker (Fin 1)).init h s ∧ s.destructor = .requestStop ∧
      (worker (Fin 1)).next s .destructor = some (t, es) ∧ ¬ Deadlocked s ∧
        ∀ h' u, (worker (Fin 1)).Run t h' u → ¬ Deadlocked u := by
  obtain ⟨s, h, hrun, hs⟩ := Machine.exists_runIf_of_execIf (M := worker (Fin 1))
    StopLands (lateTestLabels 0)
    (f := fun r => (r.1.worker, r.1.destructor)) (b := (.checkStop, .requestStop)) (by decide)
  obtain ⟨hworker, hdestructor⟩ := Prod.mk.inj hs
  dsimp only at hworker hdestructor
  have hnext : (worker (Fin 1)).next s .destructor =
      some ({ s with stopRequested := true, destructor := .join }, [.stopRequested]) := by
    simp [worker, step, destructorStep, hdestructor]
  refine ⟨h, s, _, _, hrun, hdestructor, hnext, not_deadlocked_iff.1 h s hrun, ?_⟩
  refine (not_deadlocked_iff.2 h s _ _ hrun.run hdestructor hnext).mpr ?_
  simp [Waiting, hworker, WorkerThread.waits]

end Worker

end Multithreading.Sync
