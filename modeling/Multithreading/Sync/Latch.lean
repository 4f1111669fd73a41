import Multithreading.Transition.Threads
import Multithreading.Memory.CInt
import Mathlib.Tactic.Ring

/-!
# The futex `Latch`

The latch of a counter and a futex on the counter, as a machine of any number of threads.
`FUTEX_WAIT` compares the counter with the expected value and falls asleep in one step; it may
return at any time without a wake-up. `FUTEX_WAKE` with the greatest `int` wakes all sleepers.

Only the last `CountDown` wakes, and a waiter may have fallen asleep at any earlier value of the
counter. The counter becomes zero only in a `fetch_sub` that returns one, and the thread of this
`fetch_sub` goes on to wake the sleepers; as long as it has not, it is the promise for all of them.

## Main definitions

* `Latch.Shared`, `Latch.Local` — the counter with the sleepers, and the program counters.
* `Latch.step`, `latch` — the steps of a thread, and the machine.

## Main results

* `Latch.noLostWake_of_run` — when the counter is zero, a sleeper has a wake-up coming.
* `Latch.counts_of_run` — the counter counts the `fetch_sub`s.
* `Latch.latch_no_lost_wakeup` — no wake-up is lost.
-/

open Transition Memory

namespace Multithreading.Sync

namespace Latch

/-- `m_count`, and the threads that are asleep in `FutexWait` on it. -/
structure Shared (ι : Type*) where
  mCount : ℤ
  asleep : ι → Bool

/-- The member functions. -/
inductive Call
  | countDown
  | wait
  | arriveAndWait
  deriving DecidableEq

/-- Whether a call counts down. -/
def Call.counts : Call → Bool
  | countDown | arriveAndWait => true
  | wait => false

/-- The program counter of a thread. The flag of the program counters of `CountDown` says that it
was called by `ArriveAndWait`, which goes on with `Wait`. -/
inductive Local
  | idle
  /-- About to evaluate `m_count.fetch_sub(1)`. -/
  | fetchSub (thenWait : Bool)
  /-- The `fetch_sub` returned one; about to call `FutexWake`. -/
  | wake (thenWait : Bool)
  /-- About to return from `CountDown`. -/
  | counted (thenWait : Bool)
  /-- About to load `m_count` in the loop of `Wait`. -/
  | load
  /-- About to call `FutexWait`. -/
  | futexWait (current : ℤ)
  /-- Inside `FutexWait`, asleep or woken. -/
  | sleeping
  /-- The exit test of `Wait` has passed; about to return. -/
  | waited

/-- What decides a step of a thread. An interrupted `FutexWait` returns without a wake-up. -/
inductive Action
  | call (f : Call)
  | tau
  | interrupt

/-- The events of a latch. -/
inductive Event (ι : Type*)
  | call (i : ι) (f : Call)
  /-- A `fetch_sub` returns the given value. -/
  | fetchSub (i : ι) (oldValue : ℤ)
  /-- `FutexWake` is executed. -/
  | woke (i : ι)
  /-- `CountDown` returns. -/
  | counted (i : ι)
  /-- `FutexWait` falls asleep. -/
  | slept (i : ι)
  /-- The exit test of `Wait` passes. -/
  | passed (i : ι)
  /-- `Wait` returns. -/
  | waited (i : ι)
  deriving DecidableEq

/-- The first program counter of a call. -/
def Local.ofCall : Call → Local
  | .countDown => .fetchSub false
  | .wait => .load
  | .arriveAndWait => .fetchSub true

/-- The program counter after `CountDown` has returned. -/
def Local.afterCount : Bool → Local
  | true => .load
  | false => .idle

variable {ι : Type*} [DecidableEq ι]

/-- A step of thread `i`. -/
def step (i : ι) : Action → Shared ι → Local → Option (Shared ι × Local × List (Event ι))
  | .call f, sh, .idle => some (sh, .ofCall f, [.call i f])
  | .tau, sh, .fetchSub thenWait =>
    if sh.mCount = 1 then
      some ({ sh with mCount := wrapInt (sh.mCount - 1) }, .wake thenWait, [.fetchSub i sh.mCount])
    else
      some ({ sh with mCount := wrapInt (sh.mCount - 1) }, .counted thenWait,
        [.fetchSub i sh.mCount])
  | .tau, sh, .wake thenWait =>
    some ({ sh with asleep := fun _ => false }, .counted thenWait, [.woke i])
  | .tau, sh, .counted thenWait => some (sh, .afterCount thenWait, [.counted i])
  | .tau, sh, .load =>
    if sh.mCount = 0 then some (sh, .waited, [.passed i])
    else some (sh, .futexWait sh.mCount, [])
  | .tau, sh, .futexWait current =>
    if sh.mCount = current then
      some ({ sh with asleep := Function.update sh.asleep i true }, .sleeping, [.slept i])
    else some (sh, .load, [])
  | .interrupt, sh, .futexWait _ => some (sh, .load, [])
  | .tau, sh, .sleeping => if sh.asleep i then none else some (sh, .load, [])
  | .interrupt, sh, .sleeping =>
    some ({ sh with asleep := Function.update sh.asleep i false }, .load, [])
  | .tau, sh, .waited => some (sh, .idle, [.waited i])
  | _, _, _ => none

/-- What a step of thread `i` can do, one case for each branch of `step`. -/
inductive Move (i : ι) (sh : Shared ι) : Local → Shared ι → Local → List (Event ι) → Prop
  | call (f : Call) : Move i sh .idle sh (.ofCall f) [.call i f]
  | fetchLast (w : Bool) (hone : sh.mCount = 1) :
      Move i sh (.fetchSub w) { sh with mCount := wrapInt (sh.mCount - 1) } (.wake w)
        [.fetchSub i sh.mCount]
  | fetchSub (w : Bool) (hone : sh.mCount ≠ 1) :
      Move i sh (.fetchSub w) { sh with mCount := wrapInt (sh.mCount - 1) } (.counted w)
        [.fetchSub i sh.mCount]
  | wake (w : Bool) :
      Move i sh (.wake w) { sh with asleep := fun _ => false } (.counted w) [.woke i]
  | counted (w : Bool) : Move i sh (.counted w) sh (.afterCount w) [.counted i]
  | pass (hzero : sh.mCount = 0) : Move i sh .load sh .waited [.passed i]
  | load (hzero : sh.mCount ≠ 0) : Move i sh .load sh (.futexWait sh.mCount) []
  | sleep (current : ℤ) (heq : sh.mCount = current) :
      Move i sh (.futexWait current) { sh with asleep := Function.update sh.asleep i true }
        .sleeping [.slept i]
  | mismatch (current : ℤ) : Move i sh (.futexWait current) sh .load []
  | wakeUp (hawake : sh.asleep i = false) : Move i sh .sleeping sh .load []
  | interrupt :
      Move i sh .sleeping { sh with asleep := Function.update sh.asleep i false } .load []
  | ret : Move i sh .waited sh .idle [.waited i]

theorem move_of_step {i : ι} {x : Action} {sh sh' : Shared ι} {l l' : Local}
    {es : List (Event ι)} (h : step i x sh l = some (sh', l', es)) : Move i sh l sh' l' es := by
  unfold step at h
  split at h
  all_goals try split at h
  all_goals try contradiction
  all_goals
    obtain ⟨rfl, rfl, rfl⟩ : _ ∧ _ ∧ _ := by simpa using h
    constructor
  all_goals simp_all

end Latch

/-- `Latch` with the given initial count, used by the threads `ι`. -/
def latch (ι : Type*) [DecidableEq ι] (count : ℕ) :
    Machine (Config ι (Latch.Shared ι) Latch.Local) (ι × Latch.Action) (Latch.Event ι) :=
  interleave ⟨⟨count, fun _ => false⟩, fun _ => .idle⟩ Latch.step

namespace Latch

variable {ι : Type*}

/-! ### The pending wake-up -/

/-- The thread `j` has executed the `fetch_sub` that returned one and not yet its `FutexWake`. -/
def WakePending (c : Config ι (Shared ι) Local) (h : List (Event ι)) (j : ι) : Prop :=
  (∃ w, c.threads j = .wake w) ∧ ∃ pre post, h = pre ++ .fetchSub j 1 :: post ∧ .woke j ∉ post

/-- The sleepers are inside `FutexWait`, nobody waits for zero, and when the counter is zero the
sleepers have a wake-up coming. -/
structure NoLostWake (c : Config ι (Shared ι) Local) (h : List (Event ι)) : Prop where
  fits : Fits c.shared.mCount
  sleeping : ∀ i, c.shared.asleep i = true → c.threads i = .sleeping
  expected : ∀ i current, c.threads i = .futexWait current → current ≠ 0
  promised : ∀ j w, c.threads j = .wake w → WakePending c h j
  wake : c.shared.mCount = 0 → (∃ i, c.shared.asleep i = true) → ∃ j w, c.threads j = .wake w

variable [DecidableEq ι]

theorem WakePending.of_ne {c : Config ι (Shared ι) Local} {h : List (Event ι)} {i j : ι}
    {sh' : Shared ι} {l' : Local} {es : List (Event ι)} (hj : WakePending c h j) (hji : j ≠ i)
    (hes : .woke j ∉ es) : WakePending (c.set i sh' l') (h ++ es) j := by
  obtain ⟨⟨w, hw⟩, pre, post, rfl, hpost⟩ := hj
  refine ⟨⟨w, by rwa [Config.set_threads_of_ne _ _ _ hji]⟩, pre, post ++ es, by simp, ?_⟩
  simp [hpost, hes]

theorem Move.woke_notMem {i j : ι} {sh sh' : Shared ι} {l l' : Local} {es : List (Event ι)}
    (hmove : Move i sh l sh' l' es) (hji : j ≠ i) : .woke j ∉ es := by
  cases hmove <;> simp [hji]

theorem Move.eq_fetchSub_one {i : ι} {sh sh' : Shared ι} {l l' : Local} {es : List (Event ι)}
    {w : Bool} (hmove : Move i sh l sh' l' es) (hl : l' = .wake w) : es = [.fetchSub i 1] := by
  cases hmove with
  | fetchLast w hone => rw [hone]
  | call f => cases f <;> simp [Local.ofCall] at hl
  | counted w => cases w <;> simp [Local.afterCount] at hl
  | _ => simp at hl

theorem Move.asleep_of_ne {i j : ι} {sh sh' : Shared ι} {l l' : Local} {es : List (Event ι)}
    (hmove : Move i sh l sh' l' es) (hji : j ≠ i) (hj : sh'.asleep j = true) :
    sh.asleep j = true := by
  cases hmove with
  | sleep | interrupt => simpa [hji] using hj
  | wake => simp at hj
  | _ => exact hj

theorem Move.asleep_self {i : ι} {sh sh' : Shared ι} {l l' : Local} {es : List (Event ι)}
    (hmove : Move i sh l sh' l' es) (hold : sh.asleep i = true → l = .sleeping)
    (hi : sh'.asleep i = true) : l' = .sleeping := by
  cases hmove with
  | sleep => rfl
  | wakeUp hawake => simp [hawake] at hi
  | wake | interrupt => simp at hi
  | _ => exact absurd (hold hi) (by simp)

theorem Move.ne_zero_of_futexWait {i : ι} {sh sh' : Shared ι} {l l' : Local}
    {es : List (Event ι)} {current : ℤ} (hmove : Move i sh l sh' l' es)
    (hl : l' = .futexWait current) : current ≠ 0 := by
  cases hmove with
  | load hzero =>
    obtain rfl : sh.mCount = current := by simpa using hl
    exact hzero
  | call f => cases f <;> simp [Local.ofCall] at hl
  | counted w => cases w <;> simp [Local.afterCount] at hl
  | _ => simp at hl

theorem Move.fits {i : ι} {sh sh' : Shared ι} {l l' : Local} {es : List (Event ι)}
    (hmove : Move i sh l sh' l' es) (hfits : Fits sh.mCount) : Fits sh'.mCount := by
  cases hmove with
  | fetchLast | fetchSub => exact fits_wrapInt _
  | _ => exact hfits

/-- When a step leaves the counter at zero and somebody asleep, it is the last `fetch_sub`, or the
counter was zero and somebody asleep before, and the thread of the step had no wake-up to do. -/
theorem Move.wake_cases {i : ι} {sh sh' : Shared ι} {l l' : Local} {es : List (Event ι)}
    (hmove : Move i sh l sh' l' es) (hfits : Fits sh.mCount)
    (hexpected : ∀ current, l = .futexWait current → current ≠ 0)
    (hzero : sh'.mCount = 0) (hasleep : ∃ k, sh'.asleep k = true) :
    (∃ w, l' = .wake w) ∨ sh.mCount = 0 ∧ (∃ k, sh.asleep k = true) ∧ ∀ w, l ≠ .wake w := by
  cases hmove with
  | fetchLast w => exact .inl ⟨w, rfl⟩
  | fetchSub w hone => exact absurd (eq_one_of_wrapInt_sub_one hfits hzero) hone
  | wake w => exact absurd hasleep (by simp)
  | sleep current heq => exact absurd (heq.symm.trans hzero) (hexpected current rfl)
  | interrupt =>
    obtain ⟨k, hk⟩ := hasleep
    refine .inr ⟨hzero, ⟨k, ?_⟩, by simp⟩
    by_cases hki : k = i
    · simp [hki] at hk
    · simpa [hki] using hk
  | _ => exact .inr ⟨hzero, hasleep, by simp⟩

theorem NoLostWake.move {c : Config ι (Shared ι) Local} {h : List (Event ι)} {i : ι}
    {sh' : Shared ι} {l' : Local} {es : List (Event ι)} (hinv : NoLostWake c h)
    (hmove : Move i c.shared (c.threads i) sh' l' es) :
    NoLostWake (c.set i sh' l') (h ++ es) where
  fits := hmove.fits hinv.fits
  sleeping := c.forall_set i sh' l' (P := fun j l => sh'.asleep j = true → l = .sleeping)
    (hmove.asleep_self (hinv.sleeping i))
    fun j hji hj => hinv.sleeping j (hmove.asleep_of_ne hji hj)
  expected := c.forall_set i sh' l' (P := fun _ l => ∀ n, l = .futexWait n → n ≠ 0)
    (fun _ hl => hmove.ne_zero_of_futexWait hl) fun j _ => hinv.expected j
  promised := by
    refine c.forall_set i sh' l'
      (P := fun j l => ∀ w, l = .wake w → WakePending (c.set i sh' l') (h ++ es) j)
      (fun w hl => ⟨⟨w, by simpa using hl⟩, h, [], ?_, by simp⟩) fun j hji w hj => ?_
    · rw [hmove.eq_fetchSub_one hl]
    · exact (hinv.promised j w hj).of_ne hji (hmove.woke_notMem hji)
  wake := by
    intro hzero hasleep
    rcases hmove.wake_cases hinv.fits (hinv.expected i) hzero hasleep with ⟨w, hl⟩ | hold
    · exact ⟨i, w, by simpa using hl⟩
    · obtain ⟨hzero', hasleep', hl⟩ := hold
      obtain ⟨j, w, hj⟩ := hinv.wake hzero' hasleep'
      have hji : j ≠ i := fun hji => hl w (hji ▸ hj)
      exact ⟨j, w, by rwa [Config.set_threads_of_ne _ _ _ hji]⟩

variable {count : ℕ} {c : Config ι (Shared ι) Local} {h : List (Event ι)}

/-- **The pending wake-up**, without any bound on the number of `CountDown`s. -/
theorem noLostWake_of_run (hmax : (count : ℤ) ≤ intMax)
    (hrun : (latch ι count).Run (latch ι count).init h c) : NoLostWake c h := by
  refine hrun.invariant NoLostWake ?_ ?_
  · constructor
    · exact ⟨by simp [latch, intMin], hmax⟩
    · simp [latch]
    · simp [latch]
    · simp [latch]
    · simp [latch]
  · rintro h c c' es ⟨i, x⟩ - hinv - hnext
    obtain ⟨sh', l', hstep, rfl⟩ := interleave_next_eq_some.mp hnext
    exact hinv.move (move_of_step hstep)

/-! ### Counting -/

/-- The calls that count down. -/
def countDownCalls (h : List (Event ι)) : ℕ :=
  h.countP fun | .call _ f => f.counts | _ => false

/-- The `fetch_sub`s. -/
def fetchSubs (h : List (Event ι)) : ℕ :=
  h.countP fun | .fetchSub _ _ => true | _ => false

/-- The returns of `CountDown`. -/
def countDownReturns (h : List (Event ι)) : ℕ :=
  h.countP fun | .counted _ => true | _ => false

omit [DecidableEq ι] in
theorem countDownCalls_append (h h' : List (Event ι)) :
    countDownCalls (h ++ h') = countDownCalls h + countDownCalls h' :=
  List.countP_append

omit [DecidableEq ι] in
theorem fetchSubs_append (h h' : List (Event ι)) :
    fetchSubs (h ++ h') = fetchSubs h + fetchSubs h' :=
  List.countP_append

omit [DecidableEq ι] in
theorem countDownReturns_append (h h' : List (Event ι)) :
    countDownReturns (h ++ h') = countDownReturns h + countDownReturns h' :=
  List.countP_append

/-- One for a thread that has called `CountDown` and not yet executed its `fetch_sub`. -/
def Local.toFetch : Local → ℕ
  | .fetchSub _ => 1
  | _ => 0

/-- One for a thread that has executed its `fetch_sub` and not yet returned from `CountDown`. -/
def Local.toReturn : Local → ℕ
  | .wake _ | .counted _ => 1
  | _ => 0

/-- The calls, the `fetch_sub`s and the returns differ by the threads in between, and within the
budget the counter counts the `fetch_sub`s. -/
structure Counts [Fintype ι] (count : ℕ) (c : Config ι (Shared ι) Local) (h : List (Event ι)) :
    Prop where
  calls : countDownCalls h = fetchSubs h + c.census Local.toFetch
  returns : fetchSubs h = countDownReturns h + c.census Local.toReturn
  mCount : countDownCalls h ≤ count → c.shared.mCount = (count : ℤ) - fetchSubs h

theorem Move.counts {i : ι} {sh sh' : Shared ι} {l l' : Local} {es : List (Event ι)}
    (hmove : Move i sh l sh' l' es) :
    countDownCalls es + l.toFetch = fetchSubs es + l'.toFetch ∧
      fetchSubs es + l.toReturn = countDownReturns es + l'.toReturn ∧
      (fetchSubs es = 0 ∧ sh'.mCount = sh.mCount ∨
        fetchSubs es = 1 ∧ l.toFetch = 1 ∧ sh'.mCount = wrapInt (sh.mCount - 1)) := by
  cases hmove with
  | call f => cases f <;> simp [countDownCalls, fetchSubs, countDownReturns, Local.ofCall,
      Local.toFetch, Local.toReturn, Call.counts]
  | counted w => cases w <;> simp [countDownCalls, fetchSubs, countDownReturns, Local.afterCount,
      Local.toFetch, Local.toReturn]
  | _ => simp [countDownCalls, fetchSubs, countDownReturns, Local.toFetch, Local.toReturn]

theorem Counts.move [Fintype ι] (hmax : (count : ℤ) ≤ intMax) {i : ι} {sh' : Shared ι} {l' : Local}
    {es : List (Event ι)} (hinv : Counts count c h)
    (hmove : Move i c.shared (c.threads i) sh' l' es) :
    Counts count (c.set i sh' l') (h ++ es) := by
  obtain ⟨hcalls, hreturns, hcount⟩ := hmove.counts
  have hfetch := c.census_set i sh' l' Local.toFetch
  have hreturn := c.census_set i sh' l' Local.toReturn
  have hsubs := fetchSubs_append h es
  have hcalls' := countDownCalls_append h es
  have hreturns' := countDownReturns_append h es
  have h1 := hinv.calls
  have h2 := hinv.returns
  refine ⟨by omega, by omega, fun hbudget => ?_⟩
  have hold := hinv.mCount (by omega)
  rcases hcount with ⟨hzero, hsame⟩ | ⟨hone, hl, hdec⟩
  · simp [hsame, hold, hsubs, hzero]
  · -- the pending `fetch_sub` of this step is one of the calls, so the counter is still positive
    have hle := c.le_census Local.toFetch i
    have hpos : fetchSubs h + 1 ≤ count := by omega
    have hfits : Fits (c.shared.mCount - 1) := by
      rw [hold, Fits, intMin]
      omega
    rw [Config.set_shared, hdec, wrapInt_of_fits hfits, hold, hsubs, hone]
    push_cast
    ring

/-- **The counter counts the `fetch_sub`s**, within the budget of `CountDown`s. -/
theorem counts_of_run [Fintype ι] (hmax : (count : ℤ) ≤ intMax)
    (hrun : (latch ι count).Run (latch ι count).init h c) : Counts count c h := by
  refine hrun.invariant (Counts count) ?_ ?_
  · refine ⟨?_, ?_, fun _ => by simp [latch, fetchSubs]⟩
    · rw [Config.census_const _ Local.toFetch .idle (fun _ => rfl) rfl]
      rfl
    · rw [Config.census_const _ Local.toReturn .idle (fun _ => rfl) rfl]
      rfl
  · rintro h c c' es ⟨i, x⟩ - hinv - hnext
    obtain ⟨sh', l', hstep, rfl⟩ := interleave_next_eq_some.mp hnext
    exact hinv.move hmax (move_of_step hstep)

/-- When all `CountDown`s of the budget have returned nobody is asleep. -/
theorem asleep_eq_false_of_returns [Fintype ι] (hmax : (count : ℤ) ≤ intMax)
    (hrun : (latch ι count).Run (latch ι count).init h c) (hbudget : countDownCalls h ≤ count)
    (hreturns : count ≤ countDownReturns h) (i : ι) : c.shared.asleep i = false := by
  have hcounts := counts_of_run hmax hrun
  have hcalls := hcounts.calls
  have hrets := hcounts.returns
  by_contra hi
  have hzero : c.shared.mCount = 0 := by
    rw [hcounts.mCount hbudget]
    omega
  obtain ⟨j, w, hj⟩ :=
    (noLostWake_of_run hmax hrun).wake hzero ⟨i, Bool.eq_true_of_not_eq_false hi⟩
  have hle := c.le_census Local.toReturn j
  rw [hj] at hle
  simp only [Local.toReturn] at hle
  omega

/-- **No wake-up is lost.** Whenever the counter is zero and some thread is asleep, a thread has
executed the `fetch_sub` returning one and not yet its `FutexWake`. Once `count` calls of
`CountDown` have returned nobody is asleep, then and in every continuation that calls `CountDown`
no more often. -/
theorem latch_no_lost_wakeup [Fintype ι] (hmax : (count : ℤ) ≤ intMax)
    (hrun : (latch ι count).Run (latch ι count).init h c) :
    (c.shared.mCount = 0 → (∃ i, c.shared.asleep i = true) → ∃ j, WakePending c h j) ∧
      (countDownReturns h = count → ∀ h' c', (latch ι count).Run c h' c' →
        countDownCalls (h ++ h') ≤ count → ∀ i, c'.shared.asleep i = false) := by
  refine ⟨fun hzero hasleep => ?_, fun hreturns h' c' hrun' hbudget' i => ?_⟩
  · have hinv := noLostWake_of_run hmax hrun
    obtain ⟨j, w, hj⟩ := hinv.wake hzero hasleep
    exact ⟨j, hinv.promised j w hj⟩
  · refine asleep_eq_false_of_returns hmax (hrun.trans hrun') hbudget' ?_ i
    rw [countDownReturns_append]
    exact hreturns.symm.le.trans (Nat.le_add_right _ _)

/-- A thread falls asleep in `Wait`, and the only `CountDown` executes its `fetch_sub`. -/
theorem latch_sleeper_has_wakeup : ∃ c h, (latch (Fin 2) 1).Run (latch (Fin 2) 1).init h c ∧
    c.shared.asleep 0 = true ∧ ∃ j, WakePending c h j := by
  obtain ⟨c, h, hrun, hc⟩ := Machine.exists_run_of_exec (M := latch (Fin 2) 1)
    ([(0, .call .wait), (0, .tau), (0, .tau), (1, .call .countDown), (1, .tau)])
    (f := fun r => (r.1.shared.mCount, r.1.shared.asleep 0)) (b := (0, true)) (by decide)
  obtain ⟨hzero, hasleep⟩ := Prod.mk.inj hc
  exact ⟨c, h, hrun, hasleep, (latch_no_lost_wakeup (by decide) hrun).1 hzero ⟨0, hasleep⟩⟩

end Latch

end Multithreading.Sync
