import Multithreading.Memory.CInt
import Multithreading.Transition.Machine

/-!
# `RunWorker`

The programs `future`, `shared_future` and `async`. Each call of `RunWorker` starts a thread that
stores a value or an exception for the future, prints what the future has, and joins the thread. The
words in front of the value are printed before the call of `get`, also when `get` throws. In
`shared_future` the future is asked twice, and the second time it has no state.

The interleavings do not show: the programs print what they would print if `RunWorker` called
`WorkerFunction` itself.

## Main definitions

* `Future.step`, `runWorkers` — the machine of the two threads.
* `Future.report` — what a call prints, given the result of `WorkerFunction`.

## Main results

* `Future.runWorkers_output` — what a sequence of calls prints, in every interleaving.
-/

open Transition Memory

namespace Multithreading.Sync

namespace Future

/-- The programs. -/
inductive Program
  | future
  | sharedFuture
  | async
  deriving DecidableEq

/-- `RunWorker` asks the future a second time. -/
def Program.triesAgain : Program → Bool
  | sharedFuture => true
  | future | async => false

/-- The thread is joined before the handler runs: in `async` when `get` releases the shared state,
which it does also when it throws. -/
def Program.joinsFirst : Program → Bool
  | async => true
  | future | sharedFuture => false

/-- `WorkerFunction`: what it stores for the future, a value or the text of an exception. -/
def workerFunction (n : ℤ) : Except String ℤ :=
  if n = 228 then .error "Invalid value" else .ok (n * 2)

/-- `WorkerFunction` does not leave the range of `int`. -/
def Defined (n : ℤ) : Prop := n = 228 ∨ Fits (n * 2)

instance (n : ℤ) : Decidable (Defined n) := inferInstanceAs (Decidable (_ ∨ _))

/-- The text of the exception of a future without a state. -/
def noState : String := "std::future_error: No associated state"

/-- What is printed. -/
inductive Event
  | text (s : String)
  | int (x : ℤ)
  deriving DecidableEq

/-- What the handler prints. -/
def caught (what : String) : List Event := [.text "Exception caught: ", .text what, .text "\n"]

/-- The program counter of the main thread, with the argument of `RunWorker`. -/
inductive Pc
  /-- Between two calls of `RunWorker`. -/
  | idle
  /-- About to start the thread. -/
  | spawn (n : ℤ)
  /-- About to print the words in front of the result. -/
  | log (n : ℤ)
  | get (n : ℤ)
  /-- About to print the words in front of the second result. -/
  | logAgain
  | getAgain
  /-- In the handler. -/
  | handler (what : String)
  /-- About to join the thread, with the exception that is on its way to the handler. -/
  | join (what : Option String)
  deriving DecidableEq

/-- The program counter of the started thread. -/
inductive Worker
  | notStarted
  /-- In `WorkerFunction`. -/
  | run (n : ℤ)
  /-- After it has stored its result. -/
  | leave
  | finished
  /-- The product is not in the range of `int`. -/
  | undefined
  deriving DecidableEq

/-- The calls of `RunWorker` that are left, what is stored for the future, and the threads. -/
structure State where
  todo : List ℤ
  stored : Option (Except String ℤ)
  main : Pc
  worker : Worker

/-- The threads. -/
inductive Thread
  | main
  | worker
  deriving DecidableEq

variable (prog : Program)

/-- Where the main thread goes when `get` throws. -/
def Pc.thrown (what : String) : Pc := if prog.joinsFirst then .join (some what) else .handler what

/-- A step of the main thread. -/
def mainStep (s : State) : Option (State × List Event) :=
  match s.main with
  | .idle =>
    match s.todo with
    | [] => none
    | n :: todo => some ({ s with todo := todo, main := .spawn n }, [])
  | .spawn n => some ({ s with main := .log n, worker := .run n }, [])
  | .log n => some ({ s with main := .get n }, [.text "Result: "])
  | .get _ =>
    match s.stored with
    | none => none
    | some (.ok x) =>
      some ({ s with stored := none, main := if prog.triesAgain then .logAgain else .join none },
        [.int x, .text "\n"])
    | some (.error what) => some ({ s with stored := none, main := .thrown prog what }, [])
  | .logAgain => some ({ s with main := .getAgain }, [.text "Another try: "])
  | .getAgain => some ({ s with main := .thrown prog noState }, [])
  | .handler what =>
    some ({ s with main := if prog.joinsFirst then .idle else .join none }, caught what)
  | .join what =>
    if s.worker = .finished then
      some ({ s with main := what.elim .idle .handler, worker := .notStarted }, [])
    else none

/-- A step of the started thread. -/
def workerStep (s : State) : Option (State × List Event) :=
  match s.worker with
  | .run n =>
    if Defined n then some ({ s with stored := some (workerFunction n), worker := .leave }, [])
    else some ({ s with worker := .undefined }, [])
  | .leave => some ({ s with worker := .finished }, [])
  | .notStarted | .finished | .undefined => none

/-- A step of one of the threads. -/
def step (s : State) : Thread → Option (State × List Event)
  | .main => mainStep prog s
  | .worker => workerStep s

/-! ### What is printed -/

/-- What a call of `RunWorker` prints, given the result of `WorkerFunction`. -/
def report : Except String ℤ → List Event
  | .ok x => [.text "Result: ", .int x, .text "\n"] ++
      if prog.triesAgain then .text "Another try: " :: caught noState else []
  | .error what => .text "Result: " :: caught what

/-- What a sequence of calls prints. -/
def output (ns : List ℤ) : List Event := ns.flatMap fun n => report prog (workerFunction n)

/-- What the call that is running has still to print. -/
def Pc.rest : Pc → List Event
  | .idle | .join none => []
  | .spawn n | .log n => report prog (workerFunction n)
  | .get n => (report prog (workerFunction n)).tail
  | .logAgain => .text "Another try: " :: caught noState
  | .getAgain => caught noState
  | .handler what | .join (some what) => caught what

/-- Where the started thread can be, and what it has stored. -/
def Pc.Knows (stored : Option (Except String ℤ)) (worker : Worker) : Pc → Prop
  | .idle | .spawn _ => stored = none ∧ worker = .notStarted
  | .handler _ => stored = none ∧
      if prog.joinsFirst then worker = .notStarted else worker = .leave ∨ worker = .finished
  | .join (some _) => prog.joinsFirst = true ∧ stored = none ∧
      (worker = .leave ∨ worker = .finished)
  | .log n | .get n => stored = none ∧ worker = .run n ∨
      stored = some (workerFunction n) ∧ (worker = .leave ∨ worker = .finished)
  | _ => stored = none ∧ (worker = .leave ∨ worker = .finished)

/-- What has been printed and what is left are the output, and the threads know the result. -/
structure Inv (ns : List ℤ) (s : State) (h : List Event) : Prop where
  printed : h ++ s.main.rest prog ++ output prog s.todo = output prog ns
  knows : s.main.Knows prog s.stored s.worker
  defined : ∀ n ∈ s.todo, Defined n
  current : ∀ n, s.main = .spawn n ∨ s.worker = .run n → Defined n

end Future

/-- The calls of `RunWorker` in a program, one after the other. -/
def runWorkers (prog : Future.Program) (ns : List ℤ) :
    Machine Future.State Future.Thread Future.Event where
  init := ⟨ns, none, .idle, .notStarted⟩
  next := Future.step prog

namespace Future

variable {prog : Program} {ns : List ℤ} {s s' : State} {h es : List Event}

/-! ### An exception on its way -/

@[simp] theorem rest_thrown (what : String) : (Pc.thrown prog what).rest prog = caught what := by
  rw [Pc.thrown]
  split <;> rfl

@[simp] theorem thrown_ne_spawn (what : String) (n : ℤ) : Pc.thrown prog what ≠ .spawn n := by
  rw [Pc.thrown]
  split <;> simp

/-- The started thread has stored its result when `get` throws. -/
theorem knows_thrown (what : String) {worker : Worker}
    (hworker : worker = .leave ∨ worker = .finished) :
    (Pc.thrown prog what).Knows prog none worker := by
  rw [Pc.thrown]
  split
  · rename_i hfirst
    exact ⟨hfirst, rfl, hworker⟩
  · rename_i hfirst
    exact ⟨rfl, by rwa [if_neg hfirst]⟩

/-! ### The steps -/

theorem Inv.main_step (hinv : Inv prog ns s h) (hstep : mainStep prog s = some (s', es)) :
    Inv prog ns s' (h ++ es) := by
  obtain ⟨hprinted, hknows, hdefined, hcurrent⟩ := hinv
  obtain ⟨todo, stored, main, worker⟩ := s
  cases main with
  | idle =>
    cases todo with
    | nil => contradiction
    | cons n todo =>
      obtain ⟨rfl, rfl⟩ := Prod.mk.inj (Option.some.inj hstep)
      obtain ⟨rfl, rfl⟩ := hknows
      refine ⟨?_, ⟨rfl, rfl⟩, fun m hm => hdefined m (by simp [hm]), ?_⟩
      · simpa [Pc.rest, output] using hprinted
      · simpa using hdefined n
  | spawn n =>
    obtain ⟨rfl, rfl⟩ := Prod.mk.inj (Option.some.inj hstep)
    obtain ⟨rfl, rfl⟩ := hknows
    refine ⟨?_, .inl ⟨rfl, rfl⟩, hdefined, ?_⟩
    · simpa [Pc.rest] using hprinted
    · simpa using hcurrent n
  | log n =>
    obtain ⟨rfl, rfl⟩ := Prod.mk.inj (Option.some.inj hstep)
    refine ⟨?_, hknows, hdefined, by simpa using hcurrent⟩
    rw [← hprinted]
    cases hn : workerFunction n <;> simp [Pc.rest, report, hn]
  | get n =>
    obtain ⟨rfl, -⟩ | ⟨rfl, hworker⟩ := hknows
    · contradiction
    · have hrun : ∀ m, worker ≠ .run m := by rcases hworker with rfl | rfl <;> simp
      cases hn : workerFunction n with
      | error what =>
        simp only [mainStep, hn] at hstep
        obtain ⟨rfl, rfl⟩ := Prod.mk.inj (Option.some.inj hstep)
        refine ⟨?_, knows_thrown what hworker, hdefined, by simp [hrun]⟩
        rw [← hprinted]
        simp only [rest_thrown, List.append_nil]
        simp [Pc.rest, report, hn]
      | ok x =>
        simp only [mainStep, hn] at hstep
        obtain ⟨rfl, rfl⟩ := Prod.mk.inj (Option.some.inj hstep)
        refine ⟨?_, ?_, hdefined, ?_⟩
        · rw [← hprinted]
          cases hagain : prog.triesAgain <;> simp [Pc.rest, report, hn, hagain]
        · cases prog.triesAgain <;> exact ⟨rfl, hworker⟩
        · cases prog.triesAgain <;> simp [hrun]
  | logAgain =>
    obtain ⟨rfl, rfl⟩ := Prod.mk.inj (Option.some.inj hstep)
    exact ⟨by simpa [Pc.rest] using hprinted, hknows, hdefined, by simpa using hcurrent⟩
  | getAgain =>
    obtain ⟨rfl, rfl⟩ := Prod.mk.inj (Option.some.inj hstep)
    obtain ⟨rfl, hworker⟩ := hknows
    refine ⟨?_, knows_thrown noState hworker, hdefined, by simpa using hcurrent⟩
    rw [← hprinted, rest_thrown, List.append_nil]
    rfl
  | handler what =>
    obtain ⟨rfl, rfl⟩ := Prod.mk.inj (Option.some.inj hstep)
    obtain ⟨rfl, hworker⟩ := hknows
    cases hfirst : prog.joinsFirst with
    | true =>
      rw [hfirst] at hworker
      exact ⟨by simpa [Pc.rest] using hprinted, ⟨rfl, hworker⟩, hdefined, by simpa using hcurrent⟩
    | false =>
      rw [hfirst] at hworker
      exact ⟨by simpa [Pc.rest] using hprinted, ⟨rfl, hworker⟩, hdefined, by simpa using hcurrent⟩
  | join what =>
    simp only [mainStep] at hstep
    split at hstep
    · obtain ⟨rfl, rfl⟩ := Prod.mk.inj (Option.some.inj hstep)
      cases what with
      | none =>
        obtain ⟨rfl, -⟩ := hknows
        exact ⟨by simpa [Pc.rest] using hprinted, ⟨rfl, rfl⟩, hdefined, by simp⟩
      | some what =>
        obtain ⟨hfirst, rfl, -⟩ := hknows
        exact ⟨by simpa [Pc.rest] using hprinted, ⟨rfl, by rw [if_pos hfirst]⟩, hdefined, by simp⟩
    · contradiction

theorem Inv.worker_step (hinv : Inv prog ns s h) (hstep : workerStep s = some (s', es)) :
    Inv prog ns s' (h ++ es) := by
  obtain ⟨hprinted, hknows, hdefined, hcurrent⟩ := hinv
  obtain ⟨todo, stored, main, worker⟩ := s
  cases worker with
  | run n =>
    simp only [workerStep, if_pos (hcurrent n (.inr rfl))] at hstep
    obtain ⟨rfl, rfl⟩ := Prod.mk.inj (Option.some.inj hstep)
    refine ⟨by simpa using hprinted, ?_, hdefined, by simpa using fun m hm => hcurrent m (.inl hm)⟩
    cases main with
    | join what => cases what <;> simp_all [Pc.Knows]
    | _ => simp_all [Pc.Knows]
  | leave =>
    obtain ⟨rfl, rfl⟩ := Prod.mk.inj (Option.some.inj hstep)
    refine ⟨by simpa using hprinted, ?_, hdefined, by simpa using fun m hm => hcurrent m (.inl hm)⟩
    cases main with
    | join what => cases what <;> simp_all [Pc.Knows]
    | _ => simp_all [Pc.Knows]
  | notStarted => contradiction
  | finished => contradiction
  | undefined => contradiction

theorem inv_of_run (hns : ∀ n ∈ ns, Defined n)
    (hrun : (runWorkers prog ns).Run (runWorkers prog ns).init h s) : Inv prog ns s h := by
  refine hrun.invariant (fun s h => Inv prog ns s h) ?_ ?_
  · exact ⟨rfl, ⟨rfl, rfl⟩, hns, by simp [runWorkers]⟩
  · rintro h s s' es ⟨_ | _⟩ - hinv - hnext
    · exact hinv.main_step hnext
    · exact hinv.worker_step hnext

/-! ### The end of the calls -/

/-- The steps that the main thread can still take in a call, those of the thread that it starts
included. -/
def Pc.size : Pc → ℕ
  | .idle => 0
  | .spawn _ => 10
  | .log _ => 7
  | .get _ => 6
  | .logAgain => 5
  | .getAgain => 4
  | .join (some _) => 3
  | .handler _ => 2
  | .join none => 1

/-- The steps that the started thread can still take. -/
def Worker.size : Worker → ℕ
  | .run _ => 2
  | .leave => 1
  | .notStarted | .finished | .undefined => 0

/-- The steps that are left. -/
def State.size (s : State) : ℕ := 11 * s.todo.length + s.main.size + s.worker.size

theorem size_thrown_le (what : String) : (Pc.thrown prog what).size ≤ 3 := by
  rw [Pc.thrown]
  split
  · exact le_rfl
  · exact Nat.le_succ 2

theorem size_elim_lt (what : Option String) :
    (what.elim Pc.idle Pc.handler).size < (Pc.join what).size := by
  cases what with
  | none => exact Nat.zero_lt_one
  | some what => exact Nat.lt_succ_self 2

theorem Inv.size_lt (hinv : Inv prog ns s h) {t : Thread} (hstep : step prog s t = some (s', es)) :
    s'.size < s.size := by
  have hknows := hinv.knows
  obtain ⟨todo, stored, main, worker⟩ := s
  cases t with
  | main =>
    rw [step, mainStep] at hstep
    split at hstep
    case h_2 n hpc =>
      obtain ⟨rfl, rfl⟩ := Prod.mk.inj (Option.some.inj hstep)
      obtain rfl : main = .spawn n := hpc
      obtain ⟨-, rfl⟩ := hknows
      simp [State.size, Pc.size, Worker.size]
    case h_4 n hpc =>
      obtain rfl : main = .get n := hpc
      split at hstep
      · contradiction
      · obtain ⟨rfl, rfl⟩ := Prod.mk.inj (Option.some.inj hstep)
        cases prog.triesAgain <;> simp [State.size, Pc.size]
      · rename_i what _
        obtain ⟨rfl, rfl⟩ := Prod.mk.inj (Option.some.inj hstep)
        have hle : (Pc.thrown prog what).size ≤ 3 := size_thrown_le what
        simp only [State.size, Pc.size.eq_4]
        omega
    case h_6 hpc =>
      obtain ⟨rfl, rfl⟩ := Prod.mk.inj (Option.some.inj hstep)
      obtain rfl : main = .getAgain := hpc
      have hle : (Pc.thrown prog noState).size ≤ 3 := size_thrown_le noState
      simp only [State.size, Pc.size.eq_6]
      omega
    case h_7 what hpc =>
      obtain ⟨rfl, rfl⟩ := Prod.mk.inj (Option.some.inj hstep)
      obtain rfl : main = .handler what := hpc
      cases prog.joinsFirst <;> simp [State.size, Pc.size]
    case h_8 what hpc =>
      split at hstep
      · rename_i hworker
        obtain ⟨rfl, rfl⟩ := Prod.mk.inj (Option.some.inj hstep)
        obtain rfl : main = .join what := hpc
        obtain rfl : worker = .finished := hworker
        have hlt := size_elim_lt what
        simp only [State.size, Worker.size]
        omega
      · contradiction
    all_goals try split at hstep
    all_goals try contradiction
    all_goals
      obtain ⟨rfl, rfl⟩ := Prod.mk.inj (Option.some.inj hstep)
      simp_all [State.size, Pc.size, Worker.size]
    all_goals omega
  | worker =>
    rw [step, workerStep] at hstep
    split at hstep
    all_goals try split at hstep
    all_goals try contradiction
    all_goals
      obtain ⟨rfl, rfl⟩ := Prod.mk.inj (Option.some.inj hstep)
      simp_all [State.size, Worker.size]

/-- All calls have returned and their threads are joined. -/
def Finished (s : State) : Prop := s.todo = [] ∧ s.main = .idle ∧ s.worker = .notStarted

/-- No thread waits for another one in vain. -/
theorem Inv.finished (hinv : Inv prog ns s h) (hterminal : ∀ t, step prog s t = none) :
    Finished s := by
  have hmain : mainStep prog s = none := hterminal .main
  have hworker : workerStep s = none := hterminal .worker
  obtain ⟨-, hknows, -, hcurrent⟩ := hinv
  obtain ⟨todo, stored, main, worker⟩ := s
  have hrun : ∀ n, worker ≠ .run n := by
    rintro n rfl
    simp [workerStep, if_pos (hcurrent n (.inr rfl))] at hworker
  have hleave : worker ≠ .leave := by
    rintro rfl
    contradiction
  cases main with
  | idle =>
    cases todo with
    | nil => exact ⟨rfl, rfl, hknows.2⟩
    | cons n todo => contradiction
  | get n =>
    obtain ⟨-, hpc⟩ | ⟨rfl, -⟩ := hknows
    · exact absurd hpc (hrun n)
    · cases hn : workerFunction n <;> simp [mainStep, hn] at hmain
  | join what =>
    have hpc : worker = .leave ∨ worker = .finished := by
      cases what with
      | none => exact hknows.2
      | some what => exact hknows.2.2
    rcases hpc with hpc | rfl
    · exact absurd hpc hleave
    · simp [mainStep] at hmain
  | _ => contradiction

/-- **The calls of `RunWorker` print what a call of `WorkerFunction` in their place would print**,
in every interleaving, as long as no product leaves the range of `int`: at every moment a first part
of the output has been printed, every run comes to an end, and all of it has been printed there. A
second `get` always ends in the handler. -/
theorem runWorkers_output (hns : ∀ n ∈ ns, Defined n)
    (hrun : (runWorkers prog ns).Run (runWorkers prog ns).init h s) :
    h <+: output prog ns ∧ (Finished s → h = output prog ns) ∧
      (runWorkers prog ns).Inevitable (fun _ _ => True) Finished s := by
  have hinv := inv_of_run hns hrun
  refine ⟨?_, fun hfinished => ?_, ?_⟩
  · rw [← hinv.printed, List.append_assoc]
    exact List.prefix_append _ _
  · obtain ⟨htodo, hmain, -⟩ := hfinished
    simpa [htodo, hmain, Pc.rest, output] using hinv.printed
  · refine Machine.inevitable_of_terminal
      (I := fun s => ∃ h, (runWorkers prog ns).Run (runWorkers prog ns).init h s)
      _ State.size ?_ ?_ ⟨h, hrun⟩
    · rintro s s' es t ⟨h, hrun⟩ - hnext
      exact ⟨⟨_, hrun.tail t trivial hnext⟩, (inv_of_run hns hrun).size_lt hnext⟩
    · rintro s ⟨h, hrun⟩ hterminal
      exact (inv_of_run hns hrun).finished fun t => hterminal t trivial

/-- The two calls of `main`, with a thread that is slower than its `get`. -/
theorem runWorkers_output_main : ∃ h s,
    (runWorkers .sharedFuture [10, 228]).Run (runWorkers .sharedFuture [10, 228]).init h s ∧
      s.worker = .run 228 ∧ h <+: output .sharedFuture [10, 228] := by
  obtain ⟨s, h, hrun, hpc⟩ := Machine.exists_run_of_exec
    (M := runWorkers .sharedFuture [10, 228])
    [.main, .main, .main, .worker, .main, .main, .main, .main, .worker, .main, .main, .main, .main]
    (f := fun r => r.1.worker) (b := .run 228) (by decide)
  exact ⟨h, s, hrun, hpc, (runWorkers_output (by decide) hrun).1⟩

end Future

end Multithreading.Sync
