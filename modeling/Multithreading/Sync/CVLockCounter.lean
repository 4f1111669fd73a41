import Multithreading.Sync.CVLockWaiters
import Mathlib.Data.Fintype.BigOperators

/-!
# Increments under `CVLock`

The threads of the `main` of `CVLock`, which increment a plain integer in rounds, each under a guard
that calls `lock()` and `unlock()`. An increment is a read and a write, which are separate steps.

`lock()` waits at most once, so that a round takes a bounded number of steps, and no waiter is
stranded: the program ends however the threads are scheduled and however often they are woken
spuriously. The integer does not exceed the number of the rounds, and it stays behind for good once
a thread writes a stale value.

That can happen, without spurious wake-ups, as soon as there are three rounds on two threads. A
woken thread goes on without a test of `m_locked`, but with two rounds the one that has woken it was
the last other one.

## Main definitions

* `CVLockCounter.step`, `cvLockCounter` — the machine.
* `CVLockCounter.toLock` — the state of the lock in a state of the program.
* `CVLockCounter.Bounded` — what the integer can still come to.

## Main results

* `CVLockCounter.cvLockCounter_ends` — the program ends, with at most the number of the rounds.
* `CVLockCounter.cvLockCounter_total_iff` — when no increment is ever lost.
-/

open Transition

namespace Multithreading.Sync

namespace CVLockCounter

/-- The integer `x`, and the lock. -/
structure Shared (ι : Type*) where
  x : ℤ
  lock : CVLock.Shared ι

/-- The program counter of a round. -/
inductive Pc
  /-- About to begin the next round, if there is one. -/
  | loop
  /-- In a call of the lock. -/
  | inLock (l : CVLock.Local)
  /-- About to read `x`. -/
  | read
  /-- About to write `x`, with the value that was read. -/
  | write (value : ℤ)
  /-- About to destroy the guard. -/
  | unlock
  deriving DecidableEq

/-- The state of a thread: the rounds that come after the current one, and the program counter. -/
structure Local where
  rounds : ℕ
  pc : Pc
  deriving DecidableEq

/-- Where a thread goes on with a step in the lock, out of the call when that has returned. -/
def Pc.ofLock : CVLock.Local → Pc
  | .holding => .read
  | .idle => .loop
  | l => .inLock l

variable {ι : Type*} [DecidableEq ι]

/-- A step of a thread. The constructor of the guard calls `lock()`, its destructor `unlock()`. -/
def step (i : ι) : CVLock.Action ι → Shared ι → Local →
    Option (Shared ι × Local × List (CVLock.Event ι))
  | a, sh, ⟨n, .inLock l⟩ =>
    (CVLock.step i a sh.lock l).map fun r => ({ sh with lock := r.1 }, ⟨n, .ofLock r.2.1⟩, r.2.2)
  | .tau, sh, ⟨n + 1, .loop⟩ => some (sh, ⟨n, .inLock .lockAcquire⟩, [.call i .lock])
  | .tau, sh, ⟨n, .read⟩ => some (sh, ⟨n, .write sh.x⟩, [])
  | .tau, sh, ⟨n, .write value⟩ => some ({ sh with x := value + 1 }, ⟨n, .unlock⟩, [])
  | .tau, sh, ⟨n, .unlock⟩ => some (sh, ⟨n, .inLock .unlockAcquire⟩, [.call i .unlock])
  | _, _, _ => none

/-- What a step can do, one case for each branch of `step`. -/
inductive Move (i : ι) (a : CVLock.Action ι) (sh : Shared ι) : Local → Shared ι → Local → Prop
  | inLock (n : ℕ) {l l' : CVLock.Local} {lock' : CVLock.Shared ι} {es : List (CVLock.Event ι)}
      (hlock : CVLock.step i a sh.lock l = some (lock', l', es)) :
      Move i a sh ⟨n, .inLock l⟩ { sh with lock := lock' } ⟨n, .ofLock l'⟩
  | begin (n : ℕ) : Move i a sh ⟨n + 1, .loop⟩ sh ⟨n, .inLock .lockAcquire⟩
  | read (n : ℕ) : Move i a sh ⟨n, .read⟩ sh ⟨n, .write sh.x⟩
  | write (n : ℕ) (value : ℤ) :
      Move i a sh ⟨n, .write value⟩ { sh with x := value + 1 } ⟨n, .unlock⟩
  | unlock (n : ℕ) : Move i a sh ⟨n, .unlock⟩ sh ⟨n, .inLock .unlockAcquire⟩

theorem move_of_step {i : ι} {a : CVLock.Action ι} {sh sh' : Shared ι} {l l' : Local}
    {es : List (CVLock.Event ι)} (h : step i a sh l = some (sh', l', es)) :
    Move i a sh l sh' l' := by
  unfold step at h
  split at h
  · obtain ⟨⟨lock', l', es'⟩, hlock, heq⟩ := Option.map_eq_some_iff.mp h
    obtain ⟨rfl, rfl, -⟩ : _ ∧ _ ∧ _ := by simpa using heq
    exact .inLock _ hlock
  all_goals try contradiction
  all_goals
    obtain ⟨rfl, rfl, -⟩ : _ ∧ _ ∧ _ := by simpa using h
    constructor

end CVLockCounter

/-- Threads `ι` that increment an integer with the value `x₀`, thread `i` in `k i` rounds. -/
def cvLockCounter {ι : Type*} [DecidableEq ι] (x₀ : ℤ) (k : ι → ℕ) :
    Machine (Config ι (CVLockCounter.Shared ι) CVLockCounter.Local) (ι × CVLock.Action ι)
      (CVLock.Event ι) :=
  interleave ⟨⟨x₀, ⟨none, false, ∅⟩⟩, fun i => ⟨k i, .loop⟩⟩ CVLockCounter.step

namespace CVLockCounter

variable {ι : Type*}

/-- All threads have left their loops. -/
def Finished (c : Config ι (Shared ι) Local) : Prop := ∀ i, c.threads i = ⟨0, .loop⟩

/-! ### The lock -/

/-- Where a thread is in the lock. -/
def Pc.lockPc : Pc → CVLock.Local
  | .loop => .idle
  | .inLock l => l
  | .read | .write _ | .unlock => .holding

@[simp] theorem lockPc_ofLock (l : CVLock.Local) : (Pc.ofLock l).lockPc = l := by
  cases l <;> rfl

/-- The state of the lock. -/
def toLock (c : Config ι (Shared ι) Local) : Config ι (CVLock.Shared ι) CVLock.Local where
  shared := c.shared.lock
  threads i := (c.threads i).pc.lockPc

/-- The guard of `CVLock`: a thread that returns from `wait` finds `m_locked` cleared. -/
def WokenUnlocked (c : Config ι (Shared ι) Local) (a : ι × CVLock.Action ι) : Prop :=
  CVLock.WokenUnlocked (toLock c) a

/-- The guard that leaves the spurious wake-ups out. -/
def NoSpurious (_ : Config ι (Shared ι) Local) (a : ι × CVLock.Action ι) : Prop :=
  a.2 ≠ .spurious

variable [DecidableEq ι] {x₀ B : ℤ} {k : ι → ℕ} {c c' : Config ι (Shared ι) Local} {i : ι}
  {a : CVLock.Action ι} {sh sh' : Shared ι} {l l' : Local} {h es : List (CVLock.Event ι)}

theorem toLock_set (c : Config ι (Shared ι) Local) (i : ι) (sh : Shared ι) (l : Local) :
    toLock (c.set i sh l) = (toLock c).set i sh.lock l.pc.lockPc := by
  ext1
  · rfl
  · exact c.comp_set i sh l fun l => l.pc.lockPc

theorem Move.lock_cases (hmove : Move i a sh l sh' l') :
    sh'.lock = sh.lock ∧ l'.pc.lockPc = l.pc.lockPc ∨
      ∃ es, CVLock.Move i sh.lock l.pc.lockPc sh'.lock l'.pc.lockPc es := by
  cases hmove with
  | @inLock n _ _ _ es hlock =>
    refine .inr ⟨es, ?_⟩
    rw [lockPc_ofLock]
    exact CVLock.move_of_step hlock
  | begin n => exact .inr ⟨_, .callLock⟩
  | unlock n => exact .inr ⟨_, .callUnlock⟩
  | read n | write n value => exact .inl ⟨rfl, rfl⟩

/-- What every step of the lock keeps is kept by every step of the program. -/
theorem Move.keeps {I : Config ι (CVLock.Shared ι) CVLock.Local → Prop}
    (hmove : Move i a c.shared (c.threads i) sh' l') (hinv : I (toLock c))
    (hlock : ∀ es, CVLock.Move i (toLock c).shared ((toLock c).threads i) sh'.lock l'.pc.lockPc es →
      I ((toLock c).set i sh'.lock l'.pc.lockPc)) : I (toLock (c.set i sh' l')) := by
  rw [toLock_set]
  rcases hmove.lock_cases with ⟨hshared, hpc⟩ | ⟨es, hes⟩
  · have hpc' : l'.pc.lockPc = (toLock c).threads i := hpc
    rw [hshared, hpc']
    exact ((toLock c).set_self i).symm ▸ hinv
  · exact hlock es hes

/-- The lock of the program strands no waiter. -/
theorem awaited_of_run (hrun : (cvLockCounter x₀ k).Run (cvLockCounter x₀ k).init h c) :
    CVLock.Awaited (toLock c) := by
  refine hrun.invariant (fun c _ => CVLock.Awaited (toLock c)) ?_ ?_
  · exact CVLock.awaited_of_run .refl
  · rintro h c c' es ⟨i, a⟩ - hinv - hnext
    obtain ⟨sh', l', hstep, rfl⟩ := interleave_next_eq_some.mp hnext
    exact (move_of_step hstep).keeps hinv fun es hes => hinv.move hes

/-! ### The integer -/

/-- The writes that a program counter has still before it in its round. -/
def Pc.toWrite : Pc → ℕ
  | .read | .write _ | .inLock .idle | .inLock .lockAcquire | .inLock .lockTest | .inLock .lockWait
  | .inLock .blocked | .inLock .woken | .inLock .lockSet | .inLock .lockRelease => 1
  | _ => 0

/-- The writes that the thread has still to do. -/
def Local.toWrite (l : Local) : ℕ := l.rounds + l.pc.toWrite

theorem Move.x_cases (hmove : Move i a sh l sh' l') :
    sh'.x = sh.x ∧ l'.toWrite = l.toWrite ∧ (∀ value, l'.pc = .write value → value = sh.x) ∧
        (∀ value, l.pc ≠ .write value) ∨
      ∃ value, l.pc = .write value ∧ sh'.x = value + 1 ∧ l'.toWrite + 1 = l.toWrite ∧
        l'.pc = .unlock := by
  cases hmove with
  | @inLock n _ l' _ _ hlock =>
    refine .inl ⟨rfl, ?_, fun value hvalue => ?_, nofun⟩
    · have hmove := CVLock.move_of_step hlock
      cases hmove <;> rfl
    · cases l' <;> simp [Pc.ofLock] at hvalue
  | begin n => exact .inl ⟨rfl, rfl, nofun, nofun⟩
  | read n => exact .inl ⟨rfl, rfl, fun value hvalue => (Pc.write.inj hvalue).symm, nofun⟩
  | write n value => exact .inr ⟨value, rfl, rfl, rfl, rfl⟩
  | unlock n => exact .inl ⟨rfl, rfl, nofun, nofun⟩

variable [Fintype ι]

/-- With the writes that are still to be done, neither the integer nor a copy of it comes above the
bound. -/
structure Bounded (B : ℤ) (c : Config ι (Shared ι) Local) : Prop where
  shared : c.shared.x + c.census Local.toWrite ≤ B
  copy : ∀ i value, (c.threads i).pc = .write value → value + c.census Local.toWrite ≤ B

theorem Bounded.write {B' value : ℤ} (hinv : Bounded B c) (hx : sh'.x = value + 1)
    (hless : l'.toWrite + 1 = (c.threads i).toWrite) (hl' : l'.pc = .unlock)
    (hvalue : value + c.census Local.toWrite ≤ B') (hB : B ≤ B' + 1) :
    Bounded B' (c.set i sh' l') := by
  have hcensus := c.census_set i sh' l' Local.toWrite
  constructor
  · rw [Config.set_shared, hx]
    omega
  · refine c.forall_set i sh' l' (P := fun _ l => ∀ value, l.pc = .write value →
      value + (c.set i sh' l').census Local.toWrite ≤ B') (fun v hv => ?_) fun j _ v hv => ?_
    · simp [hl'] at hv
    · have hcopy := hinv.copy j v hv
      omega

theorem Bounded.move (hinv : Bounded B c) (hmove : Move i a c.shared (c.threads i) sh' l') :
    Bounded B (c.set i sh' l') := by
  rcases hmove.x_cases with ⟨hx, hsame, hread, -⟩ | ⟨value, hi, hx, hless, hl'⟩
  · have hcensus := c.census_set i sh' l' Local.toWrite
    have heq : (c.set i sh' l').census Local.toWrite = c.census Local.toWrite := by omega
    constructor
    · rw [heq, Config.set_shared, hx]
      exact hinv.shared
    · rw [heq]
      refine c.forall_set i sh' l'
        (P := fun _ l => ∀ value, l.pc = .write value → value + c.census Local.toWrite ≤ B) ?_
        fun j _ => hinv.copy j
      intro value hvalue
      rw [hread value hvalue]
      exact hinv.shared
  · exact hinv.write hx hless hl' (hinv.copy i value hi) (by omega)

/-- A write of a stale value lowers the bound for good. -/
theorem Bounded.stale {value : ℤ} (hinv : Bounded B c) (hi : (c.threads i).pc = .write value)
    (hstale : value < c.shared.x) (hmove : Move i a c.shared (c.threads i) sh' l') :
    Bounded (B - 1) (c.set i sh' l') := by
  rcases hmove.x_cases with ⟨-, -, -, hnot⟩ | ⟨value', hi', hx, hless, hl'⟩
  · exact absurd hi (hnot value)
  · obtain rfl : value = value' := Pc.write.inj (hi.symm.trans hi')
    have hshared := hinv.shared
    exact hinv.write hx hless hl' (by omega) (by omega)

theorem bounded_of_run {ok : Config ι (Shared ι) Local → ι × CVLock.Action ι → Prop}
    (hrun : (cvLockCounter x₀ k).RunIf ok c h c') (hinv : Bounded B c) : Bounded B c' := by
  refine hrun.invariant (fun c _ => Bounded B c) hinv ?_
  rintro h c c' es ⟨i, a⟩ - hinv - hnext
  obtain ⟨sh', l', hstep, rfl⟩ := interleave_next_eq_some.mp hnext
  exact hinv.move (move_of_step hstep)

theorem bounded_init (x₀ : ℤ) (k : ι → ℕ) :
    Bounded (x₀ + (∑ i, k i : ℕ)) (cvLockCounter x₀ k).init := by
  constructor
  · simp [cvLockCounter, Config.census, Local.toWrite, Pc.toWrite]
  · simp [cvLockCounter]

omit [DecidableEq ι] in
theorem Bounded.le_of_finished (hinv : Bounded B c) (hfinished : Finished c) :
    c.shared.x ≤ B := by
  have hshared := hinv.shared
  rwa [c.census_const Local.toWrite ⟨0, .loop⟩ hfinished rfl, Nat.cast_zero, add_zero] at hshared

/-! ### The end of the program -/

omit [Fintype ι] in
/-- A call of the lock that has no step but a spurious wake-up waits for `m_mtx` or is blocked. -/
theorem inLock_of_stuck {sh : CVLock.Shared ι} {l : CVLock.Local}
    (hstuck : ∀ a, a ≠ .spurious → CVLock.step i a sh l = none) :
    sh.mMtx ≠ none ∧ l.inMtx = false ∨ l = .blocked ∧ i ∈ sh.mMutexUnlocked := by
  have htau := hstuck .tau nofun
  cases l with
  | idle => exact absurd (hstuck (.call .lock) nofun) (by simp [CVLock.step])
  | holding => exact absurd (hstuck (.call .unlock) nofun) (by simp [CVLock.step])
  | lockAcquire | woken | unlockAcquire =>
    refine .inl ⟨fun hfree => ?_, rfl⟩
    simp [CVLock.step, CVLock.Shared.acquire, hfree] at htau
  | blocked => exact .inr ⟨rfl, by simpa [CVLock.step] using htau⟩
  | unlockNotify =>
    rcases sh.mMutexUnlocked.eq_empty_or_nonempty with hempty | ⟨j, hj⟩
    · exact absurd (hstuck (.notify none) nofun) (by simp [CVLock.step, hempty])
    · exact absurd (hstuck (.notify (some j)) nofun) (by simp [CVLock.step, hj])
  | _ => exact absurd htau (by simp [CVLock.step])

/-- The steps that a program counter is away from the end of its round. -/
def Pc.size : Pc → ℕ
  | .loop => 0
  | .inLock .unlockRelease => 1
  | .inLock .unlockNotify => 2
  | .inLock .unlockClear => 3
  | .inLock .unlockAcquire => 4
  | .unlock | .inLock .holding => 5
  | .write _ => 6
  | .read => 7
  | .inLock .lockRelease => 8
  | .inLock .lockSet => 9
  | .inLock .woken => 10
  | .inLock .blocked => 11
  | .inLock .lockWait => 12
  | .inLock .lockTest => 13
  | .inLock .lockAcquire => 14
  | .inLock .idle => 15

/-- The steps that a thread has still to take, at most. -/
def Local.size (l : Local) : ℕ := 15 * l.rounds + l.pc.size

omit [Fintype ι] in
theorem Move.size_lt (hmove : Move i a sh l sh' l') : l'.size < l.size := by
  cases hmove with
  | inLock n hlock =>
    have hmove := CVLock.move_of_step hlock
    cases hmove with
    | testLocked | testUnlocked => simp [Local.size, Pc.ofLock, Pc.size, *]
    | _ => simp [Local.size, Pc.ofLock, Pc.size]
  | _ => simp [Local.size, Pc.size] <;> omega

omit [Fintype ι] in
theorem finished_or_waits (hstuck : ∀ a, a ≠ .spurious → step i a sh l = none) :
    l = ⟨0, .loop⟩ ∨ sh.lock.mMtx ≠ none ∧ l.pc.lockPc.inMtx = false ∨
      l.pc.lockPc = .blocked ∧ i ∈ sh.lock.mMutexUnlocked := by
  rcases l with ⟨n, pc⟩
  have htau := hstuck .tau nofun
  cases pc with
  | loop =>
    cases n with
    | zero => exact .inl rfl
    | succ n => exact absurd htau (by simp [step])
  | inLock p => exact .inr (inLock_of_stuck (l := p) fun a ha => by simpa [step] using hstuck a ha)
  | _ => exact absurd htau (by simp [step])

omit [Fintype ι] in
/-- When only spurious wake-ups are left, all threads have finished: nobody holds `m_mtx`, and a
waiter would have somebody that will notify. -/
theorem finished_of_stuck (hinv : CVLock.Awaited (toLock c))
    (hstuck : ∀ a, NoSpurious c a → (cvLockCounter x₀ k).next c a = none) : Finished c := by
  have hnone (i : ι) (a : CVLock.Action ι) (ha : a ≠ .spurious) :
      step i a c.shared (c.threads i) = none := by
    simpa [cvLockCounter, interleave] using hstuck (i, a) ha
  have hcases (i : ι) := finished_or_waits (hnone i)
  have hfree : c.shared.lock.mMtx = none := by
    refine hinv.mtx.eq_none fun i => ?_
    change (c.threads i).pc.lockPc.inMtx = false
    rcases hcases i with hi | ⟨-, hi⟩ | ⟨hi, -⟩
    · rw [hi]
      rfl
    · exact hi
    · rw [hi]
      rfl
  have hblocked (i : ι) : c.threads i = ⟨0, .loop⟩ ∨
      (c.threads i).pc.lockPc = .blocked ∧ i ∈ c.shared.lock.mMutexUnlocked :=
    (hcases i).imp_right fun hi => hi.resolve_left fun hi => hi.1 hfree
  by_contra hnot
  obtain ⟨i, hi⟩ : ∃ i, c.threads i ≠ ⟨0, .loop⟩ := by simpa [Finished] using hnot
  obtain ⟨j, hj⟩ := hinv.awaited ⟨i, .inl ((hblocked i).resolve_left hi).2⟩
  rcases hblocked j with hend | ⟨hpc, hin⟩
  · simp [CVLock.Notifies, toLock, hend, Pc.lockPc, CVLock.Local.willNotify] at hj
  · simp [CVLock.Notifies, toLock, hpc, CVLock.Local.willNotify] at hj
    exact hj hin

/-- **The program ends.** In every interleaving, also with spurious wake-ups, the integer does not
exceed the number of all rounds, and however the run goes on, with or without spurious wake-ups, it
ends with all threads finished. -/
theorem cvLockCounter_ends (hrun : (cvLockCounter x₀ k).Run (cvLockCounter x₀ k).init h c) :
    c.shared.x ≤ x₀ + (∑ i, k i : ℕ) ∧ (cvLockCounter x₀ k).Inevitable NoSpurious Finished c ∧
      (cvLockCounter x₀ k).Inevitable (fun _ _ => True) Finished c := by
  have hbounded := (bounded_of_run hrun (bounded_init x₀ k)).shared
  -- Whatever guard allows the steps that are not spurious.
  have hends (ok : Config ι (Shared ι) Local → ι × CVLock.Action ι → Prop)
      (hok : ∀ c a, NoSpurious c a → ok c a) : (cvLockCounter x₀ k).Inevitable ok Finished c := by
    refine Machine.inevitable_of_terminal (I := fun c => CVLock.Awaited (toLock c)) ok
      (fun c => c.census Local.size) ?_ ?_ (awaited_of_run hrun)
    · rintro c c' es ⟨i, a⟩ hinv - hnext
      obtain ⟨sh', l', hstep, rfl⟩ := interleave_next_eq_some.mp hnext
      have hmove := move_of_step hstep
      have hcensus := c.census_set i sh' l' Local.size
      have hlt := hmove.size_lt
      exact ⟨hmove.keeps hinv fun es hes => hinv.move hes, by omega⟩
    · exact fun c hinv hstuck => finished_of_stuck hinv fun a ha => hstuck a (hok c a ha)
  exact ⟨by omega, hends _ fun _ _ ha => ha, hends _ fun _ _ _ => trivial⟩

/-- The second thread is blocked while the first one is in its round. -/
theorem cvLockCounter_ends_blocked : ∃ c h,
    (cvLockCounter 0 fun _ : Fin 2 => 1).Run (cvLockCounter 0 fun _ : Fin 2 => 1).init h c ∧
      c.threads 1 = ⟨0, .inLock .blocked⟩ ∧ c.shared.x ≤ 0 + (∑ _i : Fin 2, 1 : ℕ) ∧
      (cvLockCounter 0 fun _ : Fin 2 => 1).Inevitable NoSpurious Finished c ∧
      (cvLockCounter 0 fun _ : Fin 2 => 1).Inevitable (fun _ _ => True) Finished c := by
  obtain ⟨c, h, hrun, hc⟩ := Machine.exists_run_of_exec (M := cvLockCounter 0 fun _ : Fin 2 => 1)
    (List.replicate 5 (0, .tau) ++ List.replicate 4 (1, .tau)) (f := fun r => r.1.threads 1)
    (b := ⟨0, .inLock .blocked⟩) (by decide)
  exact ⟨c, h, hrun, hc, cvLockCounter_ends hrun⟩

/-! ### The total under the guard -/

/-- The lock is exclusive, a thread that is about to write has the current value, and each write
that was done has added one. -/
structure Protected (x₀ : ℤ) (k : ι → ℕ) (c : Config ι (Shared ι) Local) : Prop where
  exclusive : CVLock.Exclusive (toLock c)
  copy : ∀ i value, (c.threads i).pc = .write value → value = c.shared.x
  total : c.shared.x + c.census Local.toWrite = x₀ + (∑ i, k i : ℕ)

theorem Protected.move (hinv : Protected x₀ k c) (hguard : WokenUnlocked c (i, a))
    (hmove : Move i a c.shared (c.threads i) sh' l') : Protected x₀ k (c.set i sh' l') := by
  have hexclusive := hmove.keeps hinv.exclusive fun es hes => hinv.exclusive.move hguard hes
  have hcensus := c.census_set i sh' l' Local.toWrite
  have htotal := hinv.total
  rcases hmove.x_cases with ⟨hx, hsame, hread, -⟩ | ⟨value, hi, hx, hless, hl'⟩
  · refine ⟨hexclusive, ?_, ?_⟩
    · rw [Config.set_shared, hx]
      exact c.forall_set i sh' l' (P := fun _ l => ∀ v, l.pc = .write v → v = c.shared.x) hread
        fun j _ => hinv.copy j
    · rw [Config.set_shared, hx]
      omega
  · refine ⟨hexclusive, ?_, ?_⟩
    · refine c.forall_set i sh' l' (P := fun _ l => ∀ v, l.pc = .write v → v = sh'.x)
        (fun v hv => by simp [hl'] at hv) fun j hji v hj => ?_
      -- Both threads would own the flag.
      have howns : ∀ {m : ι} {v : ℤ}, (c.threads m).pc = .write v →
          ((toLock c).threads m).owns = true := by
        intro m v hm
        simp [toLock, hm, Pc.lockPc, CVLock.Local.owns]
      exact absurd (hinv.exclusive.unique j i (howns hj) (howns hi)) hji
    · rw [Config.set_shared, hx, hinv.copy i value hi]
      omega

theorem protected_of_run
    (hrun : (cvLockCounter x₀ k).RunIf WokenUnlocked (cvLockCounter x₀ k).init h c) :
    Protected x₀ k c := by
  refine hrun.invariant (fun c _ => Protected x₀ k c) ?_ ?_
  · refine ⟨?_, by simp [cvLockCounter], ?_⟩
    · refine ⟨Mutex.held_none fun _ => rfl, ?_, ?_, ?_⟩ <;>
        simp [cvLockCounter, toLock, Pc.lockPc, CVLock.Local.owns]
    · simp [cvLockCounter, Config.census, Local.toWrite, Pc.toWrite]
  · rintro h c c' es ⟨i, a⟩ - hinv hguard hnext
    obtain ⟨sh', l', hstep, rfl⟩ := interleave_next_eq_some.mp hnext
    exact hinv.move hguard (move_of_step hstep)

/-- When no thread returns from `wait` while `m_locked` is set, no increment is lost. -/
theorem total_of_wokenUnlocked
    (hrun : (cvLockCounter x₀ k).RunIf WokenUnlocked (cvLockCounter x₀ k).init h c)
    (hfinished : Finished c) : c.shared.x = x₀ + (∑ i, k i : ℕ) := by
  have htotal := (protected_of_run hrun).total
  rwa [c.census_const Local.toWrite ⟨0, .loop⟩ hfinished rfl, Nat.cast_zero, add_zero] at htotal

/-! ### Few rounds -/

/-- The rounds that the thread has not yet left, with the current one. -/
def Local.begun (l : Local) : ℕ := l.rounds + if l.pc = .loop then 0 else 1

/-- The rounds in which the thread has not yet cleared `m_locked`. -/
def Local.toClear (l : Local) : ℕ :=
  l.rounds +
    match l.pc with
    | .loop | .inLock .unlockNotify | .inLock .unlockRelease => 0
    | _ => 1

/-- The thread has been notified in `wait`, or has woken there. -/
def Woken (c : Config ι (Shared ι) Local) (i : ι) : Prop :=
  (c.threads i).pc.lockPc = .woken ∨
    (c.threads i).pc.lockPc = .blocked ∧ i ∉ c.shared.lock.mMutexUnlocked

/-- No thread has more rounds than its own, and when a thread has been notified, `m_locked` has been
cleared in another round. -/
structure Few (k : ι → ℕ) (c : Config ι (Shared ι) Local) : Prop where
  begun : ∀ i, (c.threads i).begun ≤ k i
  woken : (∃ i, Woken c i) → c.census Local.toClear < ∑ i, k i

omit [Fintype ι] in
theorem notified_of_step {sh : CVLock.Shared ι} (ha : a ≠ .spurious)
    {r : CVLock.Shared ι × CVLock.Local × List (CVLock.Event ι)}
    (hstep : CVLock.step i a sh .blocked = some r) : i ∉ sh.mMutexUnlocked := by
  cases a with
  | tau =>
    by_contra hin
    simp [CVLock.step, hin] at hstep
  | spurious => exact absurd rfl ha
  | call f => cases f <;> simp [CVLock.step] at hstep
  | notify target => cases target <;> simp [CVLock.step] at hstep

omit [Fintype ι] in
theorem notifies_of_notMem {sh sh' : CVLock.Shared ι} {l l' : CVLock.Local} {j : ι}
    (hmove : CVLock.Move i sh l sh' l' es) (hji : j ≠ i) (hj : j ∉ sh'.mMutexUnlocked) :
    j ∉ sh.mMutexUnlocked ∨ l = .unlockNotify := by
  cases hmove with
  | block => exact .inl fun hin => hj (Finset.mem_insert_of_mem hin)
  | spurious => exact .inl fun hin => hj (Finset.mem_erase.mpr ⟨hji, hin⟩)
  | notifyOne => exact .inr rfl
  | _ => exact .inl hj

omit [Fintype ι] in
theorem Move.woken_cases (hmove : Move i a c.shared (c.threads i) sh' l') (ha : a ≠ .spurious)
    {j : ι} (hj : Woken (c.set i sh' l') j) :
    (∃ j, Woken c j) ∨ (c.threads i).pc.lockPc = .unlockNotify := by
  by_cases hji : j = i
  · subst hji
    refine .inl ⟨j, ?_⟩
    simp only [Woken, Config.set_threads_self, Config.set_shared] at hj ⊢
    generalize c.threads j = l at hmove ⊢
    cases hmove with
    | @inLock n l l' _ _ hlock =>
      rw [lockPc_ofLock] at hj
      have hmove := CVLock.move_of_step hlock
      cases hmove with
      | wakeUp | spurious => exact .inr ⟨rfl, notified_of_step ha hlock⟩
      | block => simp at hj
      | testLocked | testUnlocked => simp at hj
      | _ => simp at hj
    | _ => simp [Pc.lockPc] at hj
  · rw [Woken, Config.set_threads_of_ne _ _ _ hji, Config.set_shared] at hj
    rcases hmove.lock_cases with ⟨hlock, -⟩ | ⟨es, hlock⟩
    · exact .inl ⟨j, by rwa [Woken, ← hlock]⟩
    · rcases hj with hwoken | ⟨hblocked, hout⟩
      · exact .inl ⟨j, .inl hwoken⟩
      · exact (notifies_of_notMem hlock hji hout).imp_left fun hout => ⟨j, .inr ⟨hblocked, hout⟩⟩

omit [Fintype ι] in
theorem Move.begun_le (hmove : Move i a sh l sh' l') :
    l'.begun ≤ l.begun ∧ l'.toClear ≤ l.toClear := by
  cases hmove with
  | inLock n hlock =>
    have hmove := CVLock.move_of_step hlock
    refine ⟨?_, ?_⟩
    · simp only [Local.begun]
      split <;> simp
    · cases hmove with
      | testLocked | testUnlocked => simp [Local.toClear, Pc.ofLock, *]
      | _ => simp [Local.toClear, Pc.ofLock]
  | _ => simp [Local.begun, Local.toClear]

omit [DecidableEq ι] [Fintype ι] in
theorem Local.toClear_le_begun (l : Local) : l.toClear ≤ l.begun := by
  rcases l with ⟨n, pc⟩
  cases pc with
  | inLock p =>
    simp only [Local.toClear, Local.begun]
    split <;> simp
  | _ => simp [Local.toClear, Local.begun]

theorem Few.move (hinv : Few k c) (ha : a ≠ .spurious)
    (hmove : Move i a c.shared (c.threads i) sh' l') : Few k (c.set i sh' l') := by
  have hcensus := c.census_set i sh' l' Local.toClear
  obtain ⟨hbegun, hclear⟩ := hmove.begun_le
  refine ⟨?_, fun ⟨j, hj⟩ => ?_⟩
  · exact c.forall_set i sh' l' (P := fun i l => l.begun ≤ k i) (hbegun.trans (hinv.begun i))
      fun j _ => hinv.begun j
  · refine lt_of_le_of_lt (by omega : _ ≤ c.census Local.toClear) ?_
    rcases hmove.woken_cases ha hj with hwoken | hi
    · exact hinv.woken hwoken
    · -- The thread that notifies has cleared the flag in its round.
      refine Finset.sum_lt_sum (fun j _ => (Local.toClear_le_begun _).trans (hinv.begun j))
        ⟨i, Finset.mem_univ i, lt_of_lt_of_le ?_ (hinv.begun i)⟩
      rcases hl : c.threads i with ⟨n, pc⟩
      rw [hl] at hi
      cases pc <;> simp_all [Local.toClear, Local.begun, Pc.lockPc]

theorem few_of_run (hrun : (cvLockCounter x₀ k).RunIf NoSpurious (cvLockCounter x₀ k).init h c) :
    Few k c := by
  refine hrun.invariant (fun c _ => Few k c) ?_ ?_
  · constructor
    · simp [cvLockCounter, Local.begun]
    · simp [cvLockCounter, Woken, Pc.lockPc]
  · rintro h c c' es ⟨i, a⟩ - hinv hguard hnext
    obtain ⟨sh', l', hstep, rfl⟩ := interleave_next_eq_some.mp hnext
    exact hinv.move hguard (move_of_step hstep)

omit [DecidableEq ι] in
/-- With few rounds, a thread that returns from `wait` finds `m_locked` cleared: the thread that the
flag would be set for is in a round of its own, and the one that has notified was in another. -/
theorem Few.wokenUnlocked (hk : (∀ i j, 0 < k i → 0 < k j → i = j) ∨ ∑ i, k i ≤ 2)
    (hinv : Few k c) (hawaited : CVLock.Awaited (toLock c)) : WokenUnlocked c (i, a) := by
  intro hwoken
  by_contra hlocked
  rw [Bool.not_eq_false] at hlocked
  obtain ⟨j, hj⟩ := hawaited.owned hlocked
  have hi : 1 ≤ (c.threads i).toClear := by
    change (c.threads i).pc.lockPc = .woken at hwoken
    rcases hl : c.threads i with ⟨n, pc⟩
    rw [hl] at hwoken
    cases pc <;> simp_all [Local.toClear, Pc.lockPc]
  have hj' : 1 ≤ (c.threads j).toClear := by
    change (c.threads j).pc.lockPc.owns = true at hj
    rcases hl : c.threads j with ⟨n, pc⟩
    rw [hl] at hj
    cases pc with
    | inLock p => cases p <;> simp_all [Local.toClear, Pc.lockPc, CVLock.Local.owns]
    | _ => simp_all [Local.toClear, Pc.lockPc, CVLock.Local.owns]
  have hij : i ≠ j := by
    rintro rfl
    rw [hwoken] at hj
    contradiction
  rcases hk with hone | htwo
  · have hle (m : ι) : (c.threads m).toClear ≤ k m :=
      (Local.toClear_le_begun _).trans (hinv.begun m)
    exact hij (hone i j (hi.trans (hle i)) (hj'.trans (hle j)))
  · have hless := hinv.woken ⟨i, .inl hwoken⟩
    have hpair := Finset.add_le_sum (f := fun m => (c.threads m).toClear)
      (fun _ _ => Nat.zero_le _) (Finset.mem_univ i) (Finset.mem_univ j) hij
    rw [Config.census] at hless
    omega

/-- With few rounds, every run without spurious wake-ups is one under the guard. -/
theorem wokenUnlocked_of_run (hk : (∀ i j, 0 < k i → 0 < k j → i = j) ∨ ∑ i, k i ≤ 2)
    (hrun : (cvLockCounter x₀ k).RunIf NoSpurious (cvLockCounter x₀ k).init h c) :
    (cvLockCounter x₀ k).RunIf WokenUnlocked (cvLockCounter x₀ k).init h c := by
  refine hrun.invariant
    (fun c h => (cvLockCounter x₀ k).RunIf WokenUnlocked (cvLockCounter x₀ k).init h c) .refl ?_
  rintro h c c' es a hrun hguarded - hnext
  exact hguarded.tail a ((few_of_run hrun).wokenUnlocked hk (awaited_of_run hrun.run)) hnext

/-! ### A lost increment -/

omit [Fintype ι] in
variable (x₀ k sh l) in
theorem exists_run_thread {sh₀ : Shared ι} {l₀ : Local} (i : ι) (as : List (CVLock.Action ι))
    (hok : ∀ a ∈ as, a ≠ .spurious) (hsh : c.shared = sh₀) (hl : c.threads i = l₀)
    (hexec : execThread (step i) as sh₀ l₀ = some (sh, l)) :
    ∃ h c', (cvLockCounter x₀ k).RunIf NoSpurious c h c' ∧ c'.shared = sh ∧ c'.threads i = l ∧
      ∀ j, j ≠ i → c'.threads j = c.threads j := by
  obtain ⟨h, hrun⟩ : ∃ h, (cvLockCounter x₀ k).RunIf NoSpurious c h (c.set i sh l) :=
    exists_runIf_thread i as (fun _ => hok) (by rw [hsh, hl]; exact hexec)
  exact ⟨h, _, hrun, c.set_shared i sh l, c.set_threads_self i sh l,
    fun j hji => c.set_threads_of_ne sh l hji⟩

omit [Fintype ι] in
variable (x₀) in
/-- Thread `j` blocks while thread `i` is in a round, and is notified by it. Thread `m` takes the
lock and reads the integer. Thread `j` returns from `wait`, reads the integer and writes it, which
makes the copy of thread `m` stale. -/
theorem exists_stale {i j m : ι} {n p r : ℕ} (hij : i ≠ j) (hmj : m ≠ j) (hi : k i = n + 1)
    (hj : k j = p + 1) (hm : if m = i then n = r + 1 else k m = r + 1) : ∃ h c,
    (cvLockCounter x₀ k).RunIf NoSpurious (cvLockCounter x₀ k).init h c ∧
      c.threads m = ⟨r, .write (x₀ + 1)⟩ ∧ c.shared.x = x₀ + 2 := by
  have hinit (u : ι) : (cvLockCounter x₀ k).init.threads u = ⟨k u, .loop⟩ := rfl
  obtain ⟨h₁, c₁, hrun₁, hsh₁, hi₁, hother₁⟩ := exists_run_thread x₀ k
    ⟨x₀, ⟨none, true, ∅⟩⟩ ⟨n, .read⟩ i [.tau, .tau, .tau, .tau, .tau] (by simp) rfl (hinit i)
    (by simp [execThread, step, CVLock.step, CVLock.Shared.acquire, Pc.ofLock, hi, cvLockCounter])
  obtain ⟨h₂, c₂, hrun₂, hsh₂, hj₂, hother₂⟩ := exists_run_thread x₀ k
    ⟨x₀, ⟨none, true, {j}⟩⟩ ⟨p, .inLock .blocked⟩ j [.tau, .tau, .tau, .tau] (by simp) hsh₁
    ((hother₁ j hij.symm).trans (hinit j))
    (by simp [execThread, step, CVLock.step, CVLock.Shared.acquire, Pc.ofLock, hj])
  obtain ⟨h₃, c₃, hrun₃, hsh₃, hi₃, hother₃⟩ := exists_run_thread x₀ k
    ⟨x₀ + 1, ⟨none, false, ∅⟩⟩ ⟨n, .loop⟩ i
    [.tau, .tau, .tau, .tau, .tau, .notify (some j), .tau] (by simp) hsh₂
    ((hother₂ i hij).trans hi₁)
    (by simp [execThread, step, CVLock.step, CVLock.Shared.acquire, Pc.ofLock])
  have hm₃ : c₃.threads m = ⟨r + 1, .loop⟩ := by
    split at hm
    · rename_i hmi
      rw [hmi, hi₃, hm]
    · rename_i hmi
      rw [hother₃ m hmi, hother₂ m hmj, hother₁ m hmi, hinit, hm]
  obtain ⟨h₄, c₄, hrun₄, hsh₄, hm₄, hother₄⟩ := exists_run_thread x₀ k
    ⟨x₀ + 1, ⟨none, true, ∅⟩⟩ ⟨r, .write (x₀ + 1)⟩ m [.tau, .tau, .tau, .tau, .tau, .tau] (by simp)
    hsh₃ hm₃ (by simp [execThread, step, CVLock.step, CVLock.Shared.acquire, Pc.ofLock])
  have hj₄ : c₄.threads j = ⟨p, .inLock .blocked⟩ := by
    rw [hother₄ j hmj.symm, hother₃ j hij.symm, hj₂]
  obtain ⟨h₅, c₅, hrun₅, hsh₅, -, hother₅⟩ := exists_run_thread x₀ k
    ⟨x₀ + 2, ⟨none, true, ∅⟩⟩ ⟨p, .unlock⟩ j [.tau, .tau, .tau, .tau, .tau, .tau] (by simp) hsh₄ hj₄
    (by simp [execThread, step, CVLock.step, CVLock.Shared.acquire, Pc.ofLock, add_assoc])
  exact ⟨_, c₅, hrun₁.trans (hrun₂.trans (hrun₃.trans (hrun₄.trans hrun₅))),
    (hother₅ m hmj).trans hm₄, by rw [hsh₅]⟩

/-- A stale write that can be reached leads to an end below the number of the rounds. -/
theorem exists_lost {i : ι} {n : ℕ} {value : ℤ}
    (hrun : (cvLockCounter x₀ k).RunIf NoSpurious (cvLockCounter x₀ k).init h c)
    (hi : c.threads i = ⟨n, .write value⟩) (hstale : value < c.shared.x) :
    ∃ h c, (cvLockCounter x₀ k).RunIf NoSpurious (cvLockCounter x₀ k).init h c ∧ Finished c ∧
      c.shared.x < x₀ + (∑ i, k i : ℕ) := by
  have hstep : step i .tau c.shared (c.threads i) =
      some ({ c.shared with x := value + 1 }, ⟨n, .unlock⟩, []) := by
    rw [hi]
    rfl
  have hbounded := (bounded_of_run hrun (bounded_init x₀ k)).stale (by rw [hi]) hstale
    (move_of_step hstep)
  have hwritten := hrun.tail (i, .tau) nofun (interleave_next_eq_some.mpr ⟨_, _, hstep, rfl⟩)
  obtain ⟨h', c', hrun', hfinished, -⟩ := (cvLockCounter_ends hwritten.run).2.1.exists_run
  have hle := (bounded_of_run hrun' hbounded).le_of_finished hfinished
  exact ⟨_, c', hwritten.trans hrun', hfinished, by omega⟩

variable (x₀) in
/-- With three rounds on two threads, an increment can be lost. -/
theorem exists_lost_of_many (hk : ¬ ((∀ i j, 0 < k i → 0 < k j → i = j) ∨ ∑ i, k i ≤ 2)) :
    ∃ h c, (cvLockCounter x₀ k).RunIf NoSpurious (cvLockCounter x₀ k).init h c ∧ Finished c ∧
      c.shared.x < x₀ + (∑ i, k i : ℕ) := by
  obtain ⟨hone, htwo⟩ := not_or.mp hk
  push Not at hone htwo
  obtain ⟨i, j, hi, hj, hij⟩ := hone
  -- The thread that takes the lock between the notification and the return from `wait`.
  have hthird : ∃ i j m n p r, i ≠ j ∧ m ≠ j ∧ k i = n + 1 ∧ k j = p + 1 ∧
      if m = i then n = r + 1 else k m = r + 1 := by
    obtain ⟨n, hn⟩ := Nat.exists_eq_add_one.mpr hi
    obtain ⟨p, hp⟩ := Nat.exists_eq_add_one.mpr hj
    rcases n with _ | n
    · rcases p with _ | p
      · obtain ⟨m, ⟨hmi, hmj⟩, hm⟩ : ∃ m, (m ≠ i ∧ m ≠ j) ∧ k m ≠ 0 := by
          by_contra hnone
          push Not at hnone
          have hsum := Fintype.sum_eq_add i j hij hnone
          omega
        obtain ⟨r, hr⟩ := Nat.exists_eq_add_one_of_ne_zero hm
        exact ⟨i, j, m, 0, 0, r, hij, hmj, hn, hp, by rwa [if_neg hmi]⟩
      · exact ⟨j, i, j, p + 1, 0, p, hij.symm, hij.symm, hp, hn, by rw [if_pos rfl]⟩
    · exact ⟨i, j, i, n + 1, p, n, hij, hij, hn, hp, by rw [if_pos rfl]⟩
  obtain ⟨i, j, m, n, p, r, hij, hmj, hn, hp, hm⟩ := hthird
  obtain ⟨h, c, hrun, hc, hx⟩ := exists_stale x₀ hij hmj hn hp hm
  exact exists_lost hrun hc (by rw [hx]; omega)

/-- **When no increment is lost.** Every run without spurious wake-ups comes to the number of all
rounds if and only if only one thread has rounds or there are at most two rounds. -/
theorem cvLockCounter_total_iff (x₀ : ℤ) (k : ι → ℕ) :
    (∀ h c, (cvLockCounter x₀ k).RunIf NoSpurious (cvLockCounter x₀ k).init h c → Finished c →
      c.shared.x = x₀ + (∑ i, k i : ℕ)) ↔
      (∀ i j, 0 < k i → 0 < k j → i = j) ∨ ∑ i, k i ≤ 2 := by
  constructor
  · intro htotal
    by_contra hk
    obtain ⟨h, c, hrun, hfinished, hless⟩ := exists_lost_of_many x₀ hk
    have heq := htotal h c hrun hfinished
    omega
  · exact fun hk h c hrun => total_of_wokenUnlocked (wokenUnlocked_of_run hk hrun)

end CVLockCounter

end Multithreading.Sync
