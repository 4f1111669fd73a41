import Multithreading.Sync.Latch
import Mathlib.Algebra.BigOperators.Group.Finset.Piecewise

/-!
# The latch does not release early

`Wait` leaves its loop only when it has loaded zero, whatever made `FutexWait` return before. Within
the budget of `count` calls of `CountDown`, the counter is zero only after all `fetch_sub`s of the
budget. When each of `count` threads calls `ArriveAndWait` once and nobody else counts down, every
one of them has executed its `fetch_sub` by then.

## Main definitions

* `Latch.Released` — what the calls that have passed the exit test of `Wait` say about the counter.
* `Latch.callsBy`, `Latch.fetchSubsBy` — the calls and the `fetch_sub`s of one thread.

## Main results

* `Latch.latch_no_early_release` — the counter, the exit test, and the returns.
-/

open Transition Memory

namespace Multithreading.Sync

namespace Latch

variable {ι : Type*} [DecidableEq ι]

/-! ### The calls of each thread -/

/-- The calls of thread `i` that count down. -/
def callsBy (i : ι) (h : List (Event ι)) : ℕ :=
  h.countP fun | .call j f => f.counts && decide (j = i) | _ => false

/-- The `fetch_sub`s of thread `i`. -/
def fetchSubsBy (i : ι) (h : List (Event ι)) : ℕ :=
  h.countP fun | .fetchSub j _ => decide (j = i) | _ => false

theorem callsBy_append (i : ι) (h h' : List (Event ι)) :
    callsBy i (h ++ h') = callsBy i h + callsBy i h' :=
  List.countP_append

theorem fetchSubsBy_append (i : ι) (h h' : List (Event ι)) :
    fetchSubsBy i (h ++ h') = fetchSubsBy i h + fetchSubsBy i h' :=
  List.countP_append

theorem sum_callsBy [Fintype ι] (h : List (Event ι)) : ∑ i, callsBy i h = countDownCalls h := by
  refine sum_countP (fun e => ?_) h
  cases e with
  | call j f => cases hf : f.counts <;> simp [hf]
  | _ => simp

theorem sum_fetchSubsBy [Fintype ι] (h : List (Event ι)) :
    ∑ i, fetchSubsBy i h = fetchSubs h := by
  refine sum_countP (fun e => ?_) h
  cases e <;> simp

theorem Move.callsBy_fetchSubsBy {i : ι} {sh sh' : Shared ι} {l l' : Local} {es : List (Event ι)}
    (hmove : Move i sh l sh' l' es) :
    callsBy i es + l.toFetch = fetchSubsBy i es + l'.toFetch ∧
      ∀ j, j ≠ i → callsBy j es = 0 ∧ fetchSubsBy j es = 0 := by
  cases hmove with
  | call f => cases f <;>
      simp [callsBy, fetchSubsBy, Local.ofCall, Local.toFetch, Call.counts, eq_comm]
  | counted w => cases w <;> simp [callsBy, fetchSubsBy, Local.afterCount, Local.toFetch]
  | fetchLast | fetchSub => simp [callsBy, fetchSubsBy, Local.toFetch, eq_comm]
  | _ => simp [callsBy, fetchSubsBy, Local.toFetch]

variable {count : ℕ} {c : Config ι (Shared ι) Local} {h : List (Event ι)}

/-- The calls and the `fetch_sub`s of a thread differ by the `fetch_sub` that it is about to
execute. -/
theorem callsBy_eq_of_run (hrun : (latch ι count).Run (latch ι count).init h c) (i : ι) :
    callsBy i h = fetchSubsBy i h + (c.threads i).toFetch := by
  refine hrun.invariant (fun c h => ∀ i, callsBy i h = fetchSubsBy i h + (c.threads i).toFetch)
    (fun _ => rfl) ?_ i
  rintro h c c' es ⟨i, x⟩ - hinv - hnext
  obtain ⟨sh', l', hstep, rfl⟩ := interleave_next_eq_some.mp hnext
  obtain ⟨hself, hother⟩ := (move_of_step hstep).callsBy_fetchSubsBy
  refine c.forall_set i sh' l'
    (P := fun j l => callsBy j (h ++ es) = fetchSubsBy j (h ++ es) + l.toFetch) ?_ ?_
  · have hold := hinv i
    rw [callsBy_append, fetchSubsBy_append]
    omega
  · intro j hji
    rw [callsBy_append, fetchSubsBy_append, (hother j hji).1, (hother j hji).2]
    exact hinv j

/-! ### The exit test -/

/-- Who has returned from `Wait` or is about to has passed its exit test, and within the budget the
exit test is passed only after all `fetch_sub`s. -/
structure Released (count : ℕ) (c : Config ι (Shared ι) Local) (h : List (Event ι)) : Prop where
  passed : countDownCalls h ≤ count → ∀ i, .passed i ∈ h → fetchSubs h = count
  waited : ∀ i, c.threads i = .waited → .passed i ∈ h
  returned : ∀ i, .waited i ∈ h → .passed i ∈ h

theorem Move.passed {i j : ι} {sh sh' : Shared ι} {l l' : Local} {es : List (Event ι)}
    (hmove : Move i sh l sh' l' es) (hj : .passed j ∈ es) : sh.mCount = 0 ∧ fetchSubs es = 0 := by
  cases hmove with
  | pass hzero => exact ⟨hzero, rfl⟩
  | _ => simp at hj

theorem Move.of_waited {i : ι} {sh sh' : Shared ι} {l l' : Local} {es : List (Event ι)}
    (hmove : Move i sh l sh' l' es) (hl' : l' = .waited) : .passed i ∈ es := by
  cases hmove with
  | pass => simp
  | call f => cases f <;> simp [Local.ofCall] at hl'
  | counted w => cases w <;> simp [Local.afterCount] at hl'
  | _ => simp at hl'

theorem Move.of_returned {i j : ι} {sh sh' : Shared ι} {l l' : Local} {es : List (Event ι)}
    (hmove : Move i sh l sh' l' es) (hj : .waited j ∈ es) : j = i ∧ l = .waited := by
  cases hmove with
  | ret => simpa using hj
  | _ => simp at hj

/-- The invariant of the exit test, for every run. -/
theorem released_of_run [Fintype ι] (hmax : (count : ℤ) ≤ intMax)
    (hrun : (latch ι count).Run (latch ι count).init h c) : Released count c h := by
  refine hrun.invariant (Released count) ⟨by simp, by simp [latch], by simp⟩ ?_
  rintro h c c' es ⟨i, x⟩ hrun hinv - hnext
  have hcalls := (counts_of_run hmax (hrun.tail (i, x) trivial hnext)).calls
  obtain ⟨sh', l', hstep, rfl⟩ := interleave_next_eq_some.mp hnext
  have hmove := move_of_step hstep
  refine ⟨fun hbudget j hj => ?_, ?_, fun j hj => ?_⟩
  · rw [fetchSubs_append] at hcalls ⊢
    rw [countDownCalls_append] at hbudget hcalls
    rcases List.mem_append.mp hj with hold | hnew
    · -- All `fetch_sub`s of the budget have been executed, so this step executes none.
      have hall := hinv.passed (by omega) j hold
      omega
    · obtain ⟨hzero, hsame⟩ := hmove.passed hnew
      have hcount := (counts_of_run hmax hrun).mCount (by omega)
      omega
  · refine c.forall_set i sh' l' (P := fun j l => l = .waited → .passed j ∈ h ++ es) ?_ ?_
    · exact fun hl' => List.mem_append_right _ (hmove.of_waited hl')
    · exact fun j _ hj => List.mem_append_left _ (hinv.waited j hj)
  · rcases List.mem_append.mp hj with hold | hnew
    · exact List.mem_append_left _ (hinv.returned j hold)
    · obtain ⟨rfl, hl⟩ := hmove.of_returned hnew
      exact List.mem_append_left _ (hinv.waited j hl)

/-- When the threads of a set of size `count` count down once each and nobody else does, all of
them have executed their `fetch_sub` as soon as there are `count` of them. -/
theorem exists_fetchSub_of_card [Fintype ι] {arriving : Finset ι} (hcard : arriving.card = count)
    (hle : ∀ i, fetchSubsBy i h ≤ if i ∈ arriving then 1 else 0) (hall : fetchSubs h = count)
    {j : ι} (hj : j ∈ arriving) : ∃ v, .fetchSub j v ∈ h := by
  have hsum : ∑ i, fetchSubsBy i h = ∑ i, if i ∈ arriving then 1 else 0 := by
    rw [sum_fetchSubsBy, hall, ← hcard]
    simp
  have hone : fetchSubsBy j h = 1 := by
    have heq := (Finset.sum_eq_sum_iff_of_le fun i _ => hle i).mp hsum j (Finset.mem_univ j)
    simpa [hj] using heq
  obtain ⟨e, he, hcounted⟩ := List.countP_pos_iff.mp (show 0 < fetchSubsBy j h by omega)
  cases e with
  | fetchSub k v =>
    obtain rfl : k = j := by simpa using hcounted
    exact ⟨v, he⟩
  | _ => simp at hcounted

/-- **No early release.** Within the budget of `count` calls that count down, the counter is `count`
minus the number of executed `fetch_sub`s, and whoever has passed the exit test of `Wait`, is about
to return or has returned has done so after all of them. When `count` threads call `ArriveAndWait`
once each and nobody else counts down, nobody has returned before every one has arrived. -/
theorem latch_no_early_release [Fintype ι] (hmax : (count : ℤ) ≤ intMax)
    (hrun : (latch ι count).Run (latch ι count).init h c) :
    (countDownCalls h ≤ count → c.shared.mCount = (count : ℤ) - fetchSubs h ∧
      ∀ i, (.passed i ∈ h ∨ c.threads i = .waited ∨ .waited i ∈ h) → fetchSubs h = count) ∧
    ∀ arriving : Finset ι, arriving.card = count →
      (∀ i, callsBy i h ≤ if i ∈ arriving then 1 else 0) →
        ∀ i, .waited i ∈ h → ∀ j ∈ arriving, ∃ v, .fetchSub j v ∈ h := by
  have hreleased := released_of_run hmax hrun
  refine ⟨fun hbudget => ⟨(counts_of_run hmax hrun).mCount hbudget, fun i hi => ?_⟩, ?_⟩
  · rcases hi with hpassed | hwaited | hreturned
    · exact hreleased.passed hbudget i hpassed
    · exact hreleased.passed hbudget i (hreleased.waited i hwaited)
    · exact hreleased.passed hbudget i (hreleased.returned i hreturned)
  · intro arriving hcard hcalls i hi j hj
    have hbudget : countDownCalls h ≤ count := by
      rw [← sum_callsBy, ← hcard]
      exact (Finset.sum_le_sum fun i _ => hcalls i).trans (by simp)
    have hle : ∀ i, fetchSubsBy i h ≤ if i ∈ arriving then 1 else 0 := by
      intro i
      have heq := callsBy_eq_of_run hrun i
      exact (by omega : fetchSubsBy i h ≤ callsBy i h).trans (hcalls i)
    exact exists_fetchSub_of_card hcard hle
      (hreleased.passed hbudget i (hreleased.returned i hi)) hj

/-- A waiter whose sleep is interrupted goes on to wait for the thread that arrives. -/
theorem latch_waits_for_arrival : ∃ c h, (latch (Fin 2) 1).Run (latch (Fin 2) 1).init h c ∧
    .waited 0 ∈ h ∧ ∃ v, .fetchSub 1 v ∈ h := by
  obtain ⟨c, h, hrun, hc⟩ := Machine.exists_run_of_exec (M := latch (Fin 2) 1)
    [(0, .call .wait), (0, .tau), (0, .tau), (0, .interrupt), (0, .tau), (1, .call .arriveAndWait),
      (1, .tau), (0, .tau), (0, .tau), (0, .tau)]
    (f := fun r => (decide (Event.waited 0 ∈ r.2), callsBy 0 r.2, callsBy 1 r.2))
    (b := (true, 0, 1)) (by decide)
  simp only [Prod.mk.injEq, decide_eq_true_eq] at hc
  obtain ⟨hwaited, hcalls0, hcalls1⟩ := hc
  refine ⟨c, h, hrun, hwaited, ?_⟩
  have hcalls : ∀ i, callsBy i h ≤ if i ∈ ({1} : Finset (Fin 2)) then 1 else 0 := by
    rw [Fin.forall_fin_two]
    simp [hcalls0, hcalls1]
  exact (latch_no_early_release (by decide) hrun).2 {1} rfl hcalls 0 hwaited 1 (by simp)

end Latch

end Multithreading.Sync
