import Multithreading.Sync.LatchRelease
import Mathlib.Data.Fintype.BigOperators

/-!
# The workers at the futex `Latch`

The `main` of the futex latch. Every worker prints that it has finished, arrives at the latch and
waits there, and prints that it has woken up. The main thread waits for the workers and prints that
all of them have finished.

A run of the program is a run of the latch in which every worker calls `ArriveAndWait` once and the
main thread calls `Wait` once. What is known of the counter and of the wake-ups carries over, and
with it the order of the lines and the end of the program.

## Main definitions

* `LatchWorkers.step`, `latchWorkers` — the machine, for any number of workers.
* `LatchWorkers.toLatch` — the state of the latch in a state of the program.

## Main results

* `LatchWorkers.exists_latch_run` — a run of the program is a run of the latch.
* `LatchWorkers.latchWorkers_lines` — the order of the lines, and where every run ends.
-/

open Transition Memory

namespace Multithreading.Sync

namespace LatchWorkers

/-- Where a thread is in the program. -/
inductive Pc
  /-- A worker is about to print that it has finished, the main thread to call `Wait`. -/
  | start
  /-- In the call of the latch. -/
  | latch (l : Latch.Local)
  /-- About to print the line after the call. -/
  | report
  | done

/-- The lines. -/
inductive Event (ι : Type*)
  | finished (i : ι)
  | wokeUp (i : ι)
  | allFinished
  deriving DecidableEq

variable {ι : Type*}

/-- What a thread calls: the workers arrive, and the main thread only waits. -/
def call : Option ι → Latch.Call
  | some _ => .arriveAndWait
  | none => .wait

/-- The line before the call. -/
def lineBefore : Option ι → List (Event ι)
  | some i => [.finished i]
  | none => []

/-- The line after the call. -/
def lineAfter : Option ι → Event ι
  | some i => .wokeUp i
  | none => .allFinished

/-- Where a thread goes on with a step in the latch, out of the call when that has returned. -/
def Pc.ofLatch : Latch.Local → Pc
  | .idle => .report
  | l => .latch l

variable [DecidableEq ι]

/-- A step of a thread. The workers are `some i`, and the main thread is `none`. -/
def step (i : Option ι) : Latch.Action → Latch.Shared (Option ι) → Pc →
    Option (Latch.Shared (Option ι) × Pc × List (Event ι))
  | .tau, sh, .start => some (sh, .latch (.ofCall (call i)), lineBefore i)
  | .tau, sh, .report => some (sh, .done, [lineAfter i])
  | .tau, sh, .latch l =>
    (Latch.step i .tau sh l).map fun r => (r.1, .ofLatch r.2.1, [])
  | .interrupt, sh, .latch l =>
    (Latch.step i .interrupt sh l).map fun r => (r.1, .ofLatch r.2.1, [])
  | _, _, _ => none

end LatchWorkers

/-- The program with the workers `ι`. -/
def latchWorkers (ι : Type*) [DecidableEq ι] [Fintype ι] :
    Machine (Config (Option ι) (Latch.Shared (Option ι)) LatchWorkers.Pc)
      (Option ι × Latch.Action) (LatchWorkers.Event ι) :=
  interleave ⟨⟨Fintype.card ι, fun _ => false⟩, fun _ => .start⟩ LatchWorkers.step

namespace LatchWorkers

variable {ι : Type*}

/-- Where a thread is in the latch. -/
def Pc.inLatch : Pc → Latch.Local
  | .latch l => l
  | _ => .idle

@[simp] theorem inLatch_ofLatch (l : Latch.Local) : (Pc.ofLatch l).inLatch = l := by
  cases l <;> rfl

/-- The state of the latch. -/
def toLatch (c : Config (Option ι) (Latch.Shared (Option ι)) Pc) :
    Config (Option ι) (Latch.Shared (Option ι)) Latch.Local where
  shared := c.shared
  threads i := (c.threads i).inLatch

/-- The states of the latch in which a thread of the program can be: in the call, and with a wait
after its arrival. -/
def Pc.Waits : Pc → Prop
  | .latch .idle | .latch (.fetchSub false) | .latch (.wake false) | .latch (.counted false) =>
    False
  | _ => True

variable [DecidableEq ι] {i j : Option ι} {x : Latch.Action} {sh sh' : Latch.Shared (Option ι)}
  {pc pc' : Pc} {es h : List (Event ι)} {c c' : Config (Option ι) (Latch.Shared (Option ι)) Pc}

@[simp] theorem toLatch_set (c : Config (Option ι) (Latch.Shared (Option ι)) Pc) (i : Option ι)
    (sh : Latch.Shared (Option ι)) (pc : Pc) :
    toLatch (c.set i sh pc) = (toLatch c).set i sh pc.inLatch := by
  ext1
  · rfl
  · exact c.comp_set i sh pc Pc.inLatch

theorem step_cases (hstep : step i x sh pc = some (sh', pc', es)) :
    (pc = .start ∧ sh' = sh ∧ pc' = .latch (.ofCall (call i)) ∧ es = lineBefore i) ∨
    (∃ l l' es', pc = .latch l ∧ Latch.step i x sh l = some (sh', l', es') ∧ pc' = .ofLatch l' ∧
      es = []) ∨
    (pc = .report ∧ sh' = sh ∧ pc' = .done ∧ es = [lineAfter i]) := by
  unfold step at hstep
  split at hstep
  · obtain ⟨rfl, rfl, rfl⟩ : _ ∧ _ ∧ _ := by simpa using hstep
    exact .inl ⟨rfl, rfl, rfl, rfl⟩
  · obtain ⟨rfl, rfl, rfl⟩ : _ ∧ _ ∧ _ := by simpa using hstep
    exact .inr (.inr ⟨rfl, rfl, rfl, rfl⟩)
  · obtain ⟨⟨sh', l', es'⟩, hlatch, heq⟩ := Option.map_eq_some_iff.mp hstep
    obtain ⟨rfl, rfl, rfl⟩ : _ ∧ _ ∧ _ := by simpa using heq
    exact .inr (.inl ⟨_, l', es', rfl, hlatch, rfl, rfl⟩)
  · obtain ⟨⟨sh', l', es'⟩, hlatch, heq⟩ := Option.map_eq_some_iff.mp hstep
    obtain ⟨rfl, rfl, rfl⟩ : _ ∧ _ ∧ _ := by simpa using heq
    exact .inr (.inl ⟨_, l', es', rfl, hlatch, rfl, rfl⟩)
  · contradiction

/-! ### The run of the latch -/

/-- How often a thread has called `ArriveAndWait`. -/
def Pc.called : Option ι → Pc → ℕ
  | some _, .start | none, _ => 0
  | some _, _ => 1

/-- How often a thread has printed its last line. -/
def Pc.reported : Pc → ℕ
  | .done => 1
  | _ => 0

/-- What the threads have called and printed, given the history of the latch. -/
structure Account (c : Config (Option ι) (Latch.Shared (Option ι)) Pc) (h : List (Event ι))
    (h' : List (Latch.Event (Option ι))) : Prop where
  waits : ∀ i, (c.threads i).Waits
  calls : ∀ i, Latch.callsBy i h' = (c.threads i).called i
  waited : ∀ i, c.threads i = .report ∨ c.threads i = .done → .waited i ∈ h'
  finished : ∀ i, h.count (.finished i) = (c.threads (some i)).called (some i)
  reported : ∀ i, h.count (lineAfter i) = (c.threads i).reported

omit [DecidableEq ι] in
theorem called_of_ne_start {l : Pc} (hl : l ≠ .start) : l.called i = (Pc.done).called i := by
  cases i <;> cases l <;> first | rfl | exact absurd rfl hl

theorem inside_of_move {l l' : Latch.Local} {es' : List (Latch.Event (Option ι))}
    (hmove : Latch.Move i sh l sh' l' es') (hl : (Pc.latch l).Waits) :
    (Pc.ofLatch l').Waits ∧ (∀ j, Latch.callsBy j es' = 0) ∧
      (l' = .idle → .waited i ∈ es') := by
  cases hmove with
  | call => exact hl.elim
  | fetchLast w | fetchSub w | wake w =>
    cases w with
    | true => exact ⟨trivial, fun _ => rfl, nofun⟩
    | false => exact hl.elim
  | counted w =>
    cases w with
    | true => exact ⟨trivial, fun _ => rfl, nofun⟩
    | false => exact hl.elim
  | ret => exact ⟨trivial, fun _ => rfl, fun _ => List.mem_singleton.mpr rfl⟩
  | _ => exact ⟨trivial, fun _ => rfl, nofun⟩

theorem Account.set {h' es' : List (Latch.Event (Option ι))} (hinv : Account c h h')
    (hwaits : pc'.Waits)
    (hcalls : Latch.callsBy i es' + (c.threads i).called i = pc'.called i)
    (hother : ∀ j, j ≠ i → Latch.callsBy j es' = 0)
    (hwaited : pc' = .report ∨ pc' = .done → .waited i ∈ h' ++ es')
    (hfinished : ∀ j, es.count (.finished j) + (c.threads (some j)).called (some j) =
      if some j = i then pc'.called (some j) else (c.threads (some j)).called (some j))
    (hreported : ∀ j, es.count (lineAfter j) + (c.threads j).reported =
      if j = i then pc'.reported else (c.threads j).reported) :
    Account (c.set i sh' pc') (h ++ es) (h' ++ es') where
  waits := c.forall_set i sh' pc' (P := fun _ pc => pc.Waits) hwaits fun j _ => hinv.waits j
  calls := by
    refine c.forall_set i sh' pc' (P := fun j pc => Latch.callsBy j (h' ++ es') = pc.called j) ?_
      fun j hji => ?_
    · rw [Latch.callsBy_append, hinv.calls i, add_comm, hcalls]
    · rw [Latch.callsBy_append, hother j hji, hinv.calls j, add_zero]
  waited := c.forall_set i sh' pc'
    (P := fun j pc => pc = .report ∨ pc = .done → .waited j ∈ h' ++ es') hwaited
    fun j _ hj => List.mem_append_left _ (hinv.waited j hj)
  finished j := by
    have hj := hfinished j
    rw [List.count_append, hinv.finished, Config.set_threads_apply]
    split at hj <;> rename_i hji <;> simp only [hji, if_true, if_false] at hj ⊢ <;> omega
  reported j := by
    have hj := hreported j
    rw [List.count_append, hinv.reported, Config.set_threads_apply]
    split at hj <;> rename_i hji <;> simp only [hji, if_true, if_false] at hj ⊢ <;> omega

/-- A step of the program is a step of the latch, or the latch does not notice it. -/
theorem Account.step [Fintype ι] {h' : List (Latch.Event (Option ι))} (hinv : Account c h h')
    (hstep : step i x c.shared (c.threads i) = some (sh', pc', es)) :
    ∃ es', Account (c.set i sh' pc') (h ++ es) (h' ++ es') ∧
      (latch (Option ι) (Fintype.card ι)).Run (toLatch c) es' (toLatch (c.set i sh' pc')) := by
  rcases step_cases hstep with ⟨hpc, rfl, rfl, rfl⟩ | ⟨l, l', es', hpc, hlatch, rfl, rfl⟩ |
    ⟨hpc, rfl, rfl, rfl⟩
  · refine ⟨[.call i (call i)], hinv.set ?_ ?_ ?_ ?_ ?_ ?_, ?_⟩
    · cases i <;> trivial
    · cases i <;> simp [hpc, Pc.called, Latch.callsBy, call, Latch.Call.counts]
    · intro j hji
      simp [Latch.callsBy, Ne.symm hji]
    · simp
    · intro j
      by_cases hji : some j = i
      · subst hji
        simp [hpc, lineBefore, Pc.called]
      · cases i <;> simp_all [lineBefore, eq_comm]
    · intro j
      by_cases hji : j = i
      · subst hji
        cases j <;> simp [hpc, lineBefore, lineAfter, Pc.reported]
      · cases i <;> cases j <;> simp_all [lineBefore, lineAfter]
    · rw [toLatch_set]
      have hidle : (toLatch c).threads i = .idle := by simp [toLatch, hpc, Pc.inLatch]
      exact run_set i (Latch.Action.call (call i)) c.shared (Latch.Local.ofCall (call i)) _ .refl
        (by rw [hidle]; rfl)
  · obtain ⟨hwaits, hcalls, hret⟩ := inside_of_move (Latch.move_of_step hlatch)
      (hpc ▸ hinv.waits i)
    have hstarted : c.threads i ≠ .start := by simp [hpc]
    have hcalled : (Pc.ofLatch l').called i = (c.threads i).called i := by
      rw [called_of_ne_start hstarted]
      exact called_of_ne_start (by cases l' <;> simp [Pc.ofLatch])
    have hreported : (Pc.ofLatch l').reported = (c.threads i).reported := by
      cases l' <;> simp [hpc, Pc.ofLatch, Pc.reported]
    refine ⟨es', hinv.set hwaits ?_ (fun j _ => hcalls j) ?_ ?_ ?_, ?_⟩
    · rw [hcalls i, hcalled, zero_add]
    · intro hl'
      refine List.mem_append_right _ (hret ?_)
      cases l' <;> simp_all [Pc.ofLatch]
    · intro j
      by_cases hji : some j = i
      · subst hji
        simp [hcalled]
      · simp [hji]
    · intro j
      by_cases hji : j = i
      · subst hji
        simp [hreported]
      · simp [hji]
    · rw [toLatch_set, inLatch_ofLatch]
      have hl : (toLatch c).threads i = l := by simp [toLatch, hpc, Pc.inLatch]
      exact run_set i x sh' l' es' .refl (by rw [hl]; exact hlatch)
  · refine ⟨[], hinv.set trivial ?_ (fun _ _ => rfl) ?_ ?_ ?_, ?_⟩
    · rw [hpc]
      cases i <;> rfl
    · exact fun _ => List.mem_append_left _ (hinv.waited i (.inl hpc))
    · intro j
      by_cases hji : some j = i
      · subst hji
        simp [hpc, lineAfter, Pc.called]
      · cases i <;> simp_all [lineAfter]
    · intro j
      by_cases hji : j = i
      · subst hji
        simp [hpc, Pc.reported]
      · cases i <;> cases j <;> simp_all [lineAfter, eq_comm]
    · have hidle : (toLatch c).threads i = (Pc.done).inLatch := by simp [toLatch, hpc, Pc.inLatch]
      have hsame : toLatch (c.set i c.shared .done) = toLatch c := by
        rw [toLatch_set, ← hidle]
        exact (toLatch c).set_self i
      rw [hsame]
      exact .refl

/-- **A run of the program is a run of the latch**, with the account of the calls. -/
theorem exists_latch_run [Fintype ι]
    (hrun : (latchWorkers ι).Run (latchWorkers ι).init h c) :
    ∃ h', Account c h h' ∧ (latch (Option ι) (Fintype.card ι)).Run
      (latch (Option ι) (Fintype.card ι)).init h' (toLatch c) := by
  induction hrun with
  | refl =>
    refine ⟨[], ⟨fun _ => trivial, fun i => ?_, nofun, fun _ => rfl, fun _ => rfl⟩, .refl⟩
    cases i <;> rfl
  | tail a _ _ hnext ih =>
    obtain ⟨h', hinv, hlatch⟩ := ih
    obtain ⟨sh', pc', hstep, rfl⟩ := interleave_next_eq_some.mp hnext
    obtain ⟨es', hinv', hlatch'⟩ := hinv.step hstep
    exact ⟨h' ++ es', hinv', hlatch.trans hlatch'⟩

/-! ### The order of the lines -/

section

variable [Fintype ι] {h' : List (Latch.Event (Option ι))}

omit [DecidableEq ι] [Fintype ι] in
theorem called_le (i : Option ι) (pc : Pc) : pc.called i ≤ (Pc.done).called i := by
  cases i <;> cases pc <;> first | exact le_rfl | exact Nat.zero_le _

theorem Account.countDownCalls_eq (hinv : Account c h h') :
    Latch.countDownCalls h' = ∑ i, (c.threads (some i)).called (some i) := by
  rw [← Latch.sum_callsBy, Fintype.sum_option, hinv.calls none]
  simp only [hinv.calls]
  exact zero_add _

theorem Account.countDownCalls_le (hinv : Account c h h') :
    Latch.countDownCalls h' ≤ Fintype.card ι := by
  rw [hinv.countDownCalls_eq, Fintype.card_eq_sum_ones]
  exact Finset.sum_le_sum fun i _ => called_le (some i) _

/-- When the workers together have called as often as there are workers, each of them has. -/
theorem Account.called_of_le (hinv : Account c h h')
    (hall : Fintype.card ι ≤ Latch.countDownCalls h') (i : ι) :
    (c.threads (some i)).called (some i) = 1 := by
  have hsum : ∑ i, (c.threads (some i)).called (some i) = ∑ _i : ι, 1 := by
    rw [← hinv.countDownCalls_eq, ← Fintype.card_eq_sum_ones]
    exact le_antisymm hinv.countDownCalls_le hall
  exact (Finset.sum_eq_sum_iff_of_le fun i _ => called_le (some i) _).mp hsum i (Finset.mem_univ i)

/-- A thread that has returned from the latch has seen all workers finish. -/
theorem finished_of_report (hmax : (Fintype.card ι : ℤ) ≤ intMax)
    (hrun : (latchWorkers ι).Run (latchWorkers ι).init h c) (hi : c.threads i = .report) (k : ι) :
    .finished k ∈ h := by
  obtain ⟨h', hinv, hlatch⟩ := exists_latch_run hrun
  have hreleased := Latch.released_of_run hmax hlatch
  have hfetched := hreleased.passed hinv.countDownCalls_le i
    (hreleased.returned i (hinv.waited i (.inl hi)))
  have hcalls := (Latch.counts_of_run hmax hlatch).calls
  have hone := hinv.called_of_le (by omega) k
  rw [← hinv.finished k] at hone
  exact List.count_pos_iff.mp (by omega)

theorem finished_of_line (hmax : (Fintype.card ι : ℤ) ≤ intMax)
    (hrun : (latchWorkers ι).Run (latchWorkers ι).init h c) :
    ∀ pre e post, h = pre ++ e :: post → ∀ i, e = lineAfter i → ∀ k, .finished k ∈ pre := by
  refine hrun.forall_event (P := fun pre e => ∀ i, e = lineAfter i → ∀ k, .finished k ∈ pre) ?_
  rintro h c c' es ⟨i, x⟩ hrun - hnext pre e post hes j rfl k
  obtain ⟨sh', pc', hstep, rfl⟩ := interleave_next_eq_some.mp hnext
  rcases step_cases hstep with ⟨-, -, -, rfl⟩ | ⟨l, l', es', -, -, -, rfl⟩ | ⟨hpc, -, -, rfl⟩
  · have hmem : lineAfter j ∈ lineBefore i := by simp [hes]
    cases i <;> cases j <;> simp [lineBefore, lineAfter] at hmem
  · simp at hes
  · exact List.mem_append_left _ (finished_of_report hmax hrun hpc k)

end

/-! ### The end of the program -/

/-- The guard that leaves the interrupted calls of `FutexWait` out. -/
def Uninterrupted (_ : Config (Option ι) (Latch.Shared (Option ι)) Pc)
    (a : Option ι × Latch.Action) : Prop :=
  a.2 ≠ .interrupt

/-- The steps that a thread has still to take, where `n` is the number of threads. A `fetch_sub`
sends those that are about to fall asleep back to the load, and a `FutexWake` the sleepers. -/
def weight (n : ℕ) (sh : Latch.Shared (Option ι)) (i : Option ι) : Pc → ℕ
  | .start => 9 + 5 * n
  | .latch (.fetchSub _) => 8 + 5 * n
  | .latch (.wake _) => 6 + 3 * n
  | .latch (.counted _) => 5
  | .latch .load => 3
  | .latch (.futexWait current) => if sh.mCount = current then 2 else 4
  | .latch .sleeping => if sh.asleep i then 1 else 4
  | .latch .waited => 2
  | .report => 1
  | .latch .idle | .done => 0

omit [DecidableEq ι] in
/-- A change of the counter makes the way of a thread longer by at most two steps, and a wake-up by
at most three. -/
theorem weight_le (n : ℕ) (sh sh' : Latch.Shared (Option ι)) (i : Option ι) (pc : Pc) :
    (sh'.asleep = sh.asleep → weight n sh' i pc ≤ weight n sh i pc + 2) ∧
      (sh'.mCount = sh.mCount → weight n sh' i pc ≤ weight n sh i pc + 3) := by
  cases pc with
  | latch l =>
    cases l with
    | futexWait current =>
      simp only [weight]
      refine ⟨fun _ => ?_, fun hcount => by simp [hcount]⟩
      split <;> split <;> omega
    | sleeping =>
      simp only [weight]
      refine ⟨fun hasleep => by simp [hasleep], fun _ => ?_⟩
      split <;> split <;> omega
    | _ => simp [weight]
  | _ => simp [weight]

theorem weight_update (n : ℕ) (sh : Latch.Shared (Option ι)) (asleep : Bool) (hji : j ≠ i)
    (pc : Pc) :
    weight n { sh with asleep := Function.update sh.asleep i asleep } j pc = weight n sh j pc := by
  cases pc with
  | latch l => cases l <;> simp [weight, hji]
  | _ => rfl

/-- A step without an interruption brings its thread on by more than it can send the others back. -/
theorem weight_step {n : ℕ} (hstep : step i x sh pc = some (sh', pc', es)) (hwaits : pc.Waits)
    (hx : x ≠ .interrupt) :
    ∃ d, weight n sh' i pc' + d * n < weight n sh i pc ∧
      ∀ j, j ≠ i → ∀ m, weight n sh' j m ≤ weight n sh j m + d := by
  rcases step_cases hstep with ⟨rfl, rfl, rfl, rfl⟩ | ⟨l, l', es', rfl, hlatch, rfl, rfl⟩ |
    ⟨rfl, rfl, rfl, rfl⟩
  · refine ⟨0, ?_, fun _ _ _ => le_rfl⟩
    cases i <;> simp [weight, call, Latch.Local.ofCall]
    omega
  · have hmove := Latch.move_of_step hlatch
    cases hmove with
    | call => exact hwaits.elim
    | fetchLast w =>
      refine ⟨2, ?_, fun j _ m => (weight_le n _ _ j m).1 rfl⟩
      simp only [Pc.ofLatch, weight]
      omega
    | fetchSub w =>
      refine ⟨2, ?_, fun j _ m => (weight_le n _ _ j m).1 rfl⟩
      simp only [Pc.ofLatch, weight]
      omega
    | wake w =>
      refine ⟨3, ?_, fun j _ m => (weight_le n _ _ j m).2 rfl⟩
      simp only [Pc.ofLatch, weight]
      omega
    | counted w =>
      refine ⟨0, ?_, fun _ _ _ => le_rfl⟩
      cases w <;> simp [Latch.Local.afterCount, Pc.ofLatch, weight]
    | sleep current heq =>
      exact ⟨0, by simp [Pc.ofLatch, weight, heq], fun j hji m =>
        (weight_update n sh true hji m).le⟩
    | mismatch current =>
      have hne : sh.mCount ≠ current := by
        intro heq
        cases x <;> simp_all [Latch.step]
      exact ⟨0, by simp [Pc.ofLatch, weight, hne], fun _ _ _ => le_rfl⟩
    | interrupt =>
      have hawake : sh.asleep i = false := by
        by_contra hasleep
        cases x <;> simp_all [Latch.step]
      exact ⟨0, by simp [Pc.ofLatch, weight, hawake], fun j hji m =>
        (weight_update n sh false hji m).le⟩
    | wakeUp hawake => exact ⟨0, by simp [Pc.ofLatch, weight, hawake], fun _ _ _ => le_rfl⟩
    | _ => exact ⟨0, by simp [Pc.ofLatch, weight], fun _ _ _ => le_rfl⟩
  · exact ⟨0, by simp [weight], fun _ _ _ => le_rfl⟩

variable [Fintype ι]

/-- The steps that are left. -/
def size (c : Config (Option ι) (Latch.Shared (Option ι)) Pc) : ℕ :=
  ∑ i, weight (Fintype.card (Option ι)) c.shared i (c.threads i)

theorem size_lt {a : Option ι × Latch.Action} (hwaits : ∀ i, (c.threads i).Waits)
    (hok : Uninterrupted c a) (hnext : (latchWorkers ι).next c a = some (c', es)) :
    size c' < size c := by
  obtain ⟨i, x⟩ := a
  obtain ⟨sh', pc', hstep, rfl⟩ := interleave_next_eq_some.mp hnext
  obtain ⟨d, hself, hother⟩ :=
    weight_step (n := Fintype.card (Option ι)) hstep (hwaits i) hok
  refine sum_lt_sum_of_le_add i d ?_ fun j hji => ?_
  · rwa [Config.set_threads_self]
  · rw [Config.set_threads_of_ne _ _ _ hji]
    exact hother j hji _

/-- All threads have printed their last lines. -/
def Finished (c : Config (Option ι) (Latch.Shared (Option ι)) Pc) : Prop :=
  ∀ i, c.threads i = .done

omit [Fintype ι] in
theorem done_or_asleep (hwaits : pc.Waits) (hstuck : step i .tau sh pc = none) :
    pc = .done ∨ pc = .latch .sleeping ∧ sh.asleep i = true := by
  cases pc with
  | start => contradiction
  | report => contradiction
  | done => exact .inl rfl
  | latch l =>
    have hlatch : Latch.step i .tau sh l = none := by simpa [step] using hstuck
    cases l with
    | idle => exact hwaits.elim
    | sleeping =>
      refine .inr ⟨rfl, ?_⟩
      simpa [Latch.step] using hlatch
    | fetchSub w | load | futexWait current =>
      rw [Latch.step] at hlatch
      split at hlatch <;> contradiction
    | _ => contradiction

/-- No thread sleeps for ever. -/
theorem finished_of_stuck (hmax : (Fintype.card ι : ℤ) ≤ intMax)
    (hrun : (latchWorkers ι).Run (latchWorkers ι).init h c)
    (hstuck : ∀ a, Uninterrupted c a → (latchWorkers ι).next c a = none) : Finished c := by
  obtain ⟨h', hinv, hlatch⟩ := exists_latch_run hrun
  have hcases (i : Option ι) : c.threads i = .done ∨
      c.threads i = .latch .sleeping ∧ c.shared.asleep i = true := by
    refine done_or_asleep (hinv.waits i) ?_
    have hnone := hstuck (i, .tau) (by simp [Uninterrupted])
    simpa [latchWorkers, interleave] using hnone
  by_contra hnot
  obtain ⟨i, hi⟩ : ∃ i, c.threads i ≠ .done := by simpa [Finished] using hnot
  have hasleep := ((hcases i).resolve_left hi).2
  -- Nobody is before its `fetch_sub`, so the counter is zero and a wake-up is pending.
  have hcounts := Latch.counts_of_run hmax hlatch
  have hfetch : (toLatch c).census Latch.Local.toFetch = 0 := by
    refine Finset.sum_eq_zero fun j _ => ?_
    rcases hcases j with hj | ⟨hj, -⟩ <;> simp [toLatch, hj, Pc.inLatch, Latch.Local.toFetch]
  have hcalls : Latch.countDownCalls h' = Fintype.card ι := by
    rw [hinv.countDownCalls_eq, Fintype.card_eq_sum_ones]
    refine Finset.sum_congr rfl fun k _ => ?_
    rcases hcases (some k) with hk | ⟨hk, -⟩ <;> rw [hk] <;> rfl
  have hzero : (toLatch c).shared.mCount = 0 := by
    have hcount := hcounts.mCount hcalls.le
    have hbalance := hcounts.calls
    omega
  obtain ⟨j, w, hj⟩ := (Latch.noLostWake_of_run hmax hlatch).wake hzero ⟨i, hasleep⟩
  rcases hcases j with hdone | ⟨hsleeping, -⟩
  · simp [toLatch, hdone, Pc.inLatch] at hj
  · simp [toLatch, hsleeping, Pc.inLatch] at hj

/-- **The lines of the workers.** With any number of workers that is an `int`, in every interleaving
every line is printed at most once, a worker wakes up and the main thread goes on only after all
workers have finished, and all lines have been printed when all threads have come to their ends.
Every run without interruptions ends there, also one that goes on from a run with interruptions. -/
theorem latchWorkers_lines (hmax : (Fintype.card ι : ℤ) ≤ intMax)
    (hrun : (latchWorkers ι).Run (latchWorkers ι).init h c) :
    h.Nodup ∧
      (∀ pre i post, h = pre ++ lineAfter i :: post → ∀ k, .finished k ∈ pre) ∧
      (Finished c → ∀ e, e ∈ h) ∧ (latchWorkers ι).Inevitable Uninterrupted Finished c := by
  obtain ⟨h', hinv, -⟩ := exists_latch_run hrun
  have hcount : ∀ e, h.count e ≤ 1 := by
    intro e
    have hlast (i : Option ι) : h.count (lineAfter i) ≤ 1 := by
      rw [hinv.reported i]
      cases c.threads i <;> simp [Pc.reported]
    cases e with
    | finished i =>
      rw [hinv.finished i]
      exact called_le (some i) _
    | wokeUp i => exact hlast (some i)
    | allFinished => exact hlast none
  refine ⟨List.nodup_iff_count_le_one.mpr hcount, ?_, fun hfinished e => ?_, ?_⟩
  · exact fun pre i post heq => finished_of_line hmax hrun pre (lineAfter i) post heq i rfl
  · have hlast (i : Option ι) : lineAfter i ∈ h := by
      refine List.count_pos_iff.mp ?_
      rw [hinv.reported i, hfinished i]
      exact Nat.one_pos
    cases e with
    | finished i =>
      refine List.count_pos_iff.mp ?_
      rw [hinv.finished i, hfinished (some i)]
      exact Nat.one_pos
    | wokeUp i => exact hlast (some i)
    | allFinished => exact hlast none
  · refine Machine.inevitable_of_terminal
      (I := fun c => ∃ h, (latchWorkers ι).Run (latchWorkers ι).init h c) _ size ?_ ?_ ⟨h, hrun⟩
    · rintro c c' es a ⟨h, hrun⟩ hok hnext
      obtain ⟨h', hinv, -⟩ := exists_latch_run hrun
      exact ⟨⟨_, hrun.tail a trivial hnext⟩, size_lt hinv.waits hok hnext⟩
    · rintro c ⟨h, hrun⟩ hstuck
      exact finished_of_stuck hmax hrun hstuck

/-- Two workers. The main thread falls asleep and is interrupted, the first worker sleeps at the
latch, and the second one wakes it. -/
theorem latchWorkers_lines_two : ∃ h c,
    (latchWorkers (Fin 2)).Run (latchWorkers (Fin 2)).init h c ∧
      h = [.finished 0, .finished 1, .wokeUp 0] ∧
        (latchWorkers (Fin 2)).Inevitable Uninterrupted Finished c := by
  obtain ⟨c, h, hrun, hh⟩ := Machine.exists_run_of_exec (M := latchWorkers (Fin 2))
    ([(none, .tau), (none, .tau), (none, .tau), (none, .interrupt)] ++
      [.tau, .tau, .tau, .tau, .tau].map (fun x => (some 0, x)) ++
      [.tau, .tau, .tau].map (fun x => (some 1, x)) ++
      [.tau, .tau, .tau, .tau].map fun x => (some 0, x))
    (f := fun r => r.2) (b := [.finished 0, .finished 1, .wokeUp 0]) (by decide)
  exact ⟨h, c, hrun, hh, (latchWorkers_lines (by decide) hrun).2.2.2⟩

end LatchWorkers

end Multithreading.Sync
