import Multithreading.Transition.Threads
import Multithreading.Transition.Mutex
import Mathlib.Algebra.Ring.Int.Defs

/-!
# `Spinlock`

The lock of an atomic flag, and the threads that increment a plain integer under it. An increment is
a read and a write, which are separate steps, so a thread that is about to write has a copy of the
integer that any other write would make stale.

A thread that has won its `exchange` is alone until it stores `false`. The copy is therefore the
current value, and each round of a thread adds exactly one.

## Main definitions

* `Spinlock.Shared`, `Spinlock.Local`, `Spinlock.step`, `spinlock` — the machine.
* `Spinlock.Local.inside` — between the winning `exchange` and the store of `false`.

## Main results

* `Spinlock.protected_of_run` — the flag, the copies, and the rounds that are left.
* `Spinlock.spinlock_protects` — mutual exclusion, and the value after all rounds.
* `Spinlock.spinlock_total` — every schedule that does not spin for ever does all rounds.
-/

open Transition

namespace Multithreading.Sync

namespace Spinlock

/-- `m_locked`, and the integer `x` that the lock protects. -/
structure Shared where
  mLocked : Bool
  x : ℤ

/-- The program counter of a round. -/
inductive Pc
  /-- About to begin the next round, if there is one. -/
  | loop
  /-- In `lock()`, about to evaluate `m_locked.exchange(true)`. -/
  | exchange
  /-- About to read `x`. -/
  | read
  /-- About to write `x`, with the value that was read. -/
  | write (value : ℤ)
  /-- In `unlock()`, about to store `false`. -/
  | store
  deriving DecidableEq

/-- The state of a thread: the rounds that come after the current one, and the program counter. -/
structure Local where
  rounds : ℕ
  pc : Pc
  deriving DecidableEq

variable {ι : Type*}

/-- A step of a thread. An `exchange` that returns `true` is repeated. -/
def step (_ : ι) : Unit → Shared → Local → Option (Shared × Local × List Empty)
  | (), _, ⟨0, .loop⟩ => none
  | (), sh, ⟨n + 1, .loop⟩ => some (sh, ⟨n, .exchange⟩, [])
  | (), sh, ⟨n, .exchange⟩ =>
    if sh.mLocked then some (sh, ⟨n, .exchange⟩, [])
    else some ({ sh with mLocked := true }, ⟨n, .read⟩, [])
  | (), sh, ⟨n, .read⟩ => some (sh, ⟨n, .write sh.x⟩, [])
  | (), sh, ⟨n, .write value⟩ => some ({ sh with x := value + 1 }, ⟨n, .store⟩, [])
  | (), sh, ⟨n, .store⟩ => some ({ sh with mLocked := false }, ⟨n, .loop⟩, [])

/-- What a step can do, one case for each branch of `step`. -/
inductive Move (sh : Shared) : Local → Shared → Local → Prop
  | begin (n : ℕ) : Move sh ⟨n + 1, .loop⟩ sh ⟨n, .exchange⟩
  | spin (n : ℕ) (hlocked : sh.mLocked = true) : Move sh ⟨n, .exchange⟩ sh ⟨n, .exchange⟩
  | win (n : ℕ) (hlocked : sh.mLocked = false) :
      Move sh ⟨n, .exchange⟩ { sh with mLocked := true } ⟨n, .read⟩
  | read (n : ℕ) : Move sh ⟨n, .read⟩ sh ⟨n, .write sh.x⟩
  | write (n : ℕ) (value : ℤ) :
      Move sh ⟨n, .write value⟩ { sh with x := value + 1 } ⟨n, .store⟩
  | store (n : ℕ) : Move sh ⟨n, .store⟩ { sh with mLocked := false } ⟨n, .loop⟩

theorem move_of_step {i : ι} {sh sh' : Shared} {l l' : Local} {es : List Empty}
    (h : step i () sh l = some (sh', l', es)) : Move sh l sh' l' := by
  unfold step at h
  split at h
  all_goals try split at h
  all_goals try contradiction
  all_goals
    obtain ⟨rfl, rfl, -⟩ : _ ∧ _ ∧ _ := by simpa using h
    constructor
  all_goals simp_all

end Spinlock

/-- Threads `ι` that increment an integer with the value `x₀`, thread `i` in `k i` rounds. -/
def spinlock {ι : Type*} [DecidableEq ι] (x₀ : ℤ) (k : ι → ℕ) :
    Machine (Config ι Spinlock.Shared Spinlock.Local) (ι × Unit) Empty :=
  interleave ⟨⟨false, x₀⟩, fun i => ⟨k i, .loop⟩⟩ Spinlock.step

namespace Spinlock

variable {ι : Type*}

/-- The thread is between its winning `exchange` and its store of `false`. -/
def Local.inside (l : Local) : Bool :=
  match l.pc with
  | .read | .write _ | .store => true
  | _ => false

/-- The thread has left its loop. -/
def Local.Finished (l : Local) : Prop := l = ⟨0, .loop⟩

/-- The writes that the thread has still to do. -/
def Local.toWrite (l : Local) : ℕ :=
  match l.pc with
  | .exchange | .read | .write _ => l.rounds + 1
  | .loop | .store => l.rounds

/-- The flag is set while a thread is inside, a thread that is about to write has the current value,
and each write that was done has added one. -/
structure Protected [Fintype ι] (x₀ : ℤ) (k : ι → ℕ) (c : Config ι Shared Local) : Prop where
  lock : ∃ holder, Mutex.Held holder (fun i => (c.threads i).inside) ∧
    c.shared.mLocked = holder.isSome
  copy : ∀ i value, (c.threads i).pc = .write value → value = c.shared.x
  total : c.shared.x + c.census Local.toWrite = x₀ + (∑ i, k i : ℕ)

variable [DecidableEq ι]

theorem Move.lockStep {c : Config ι Shared Local} {i : ι} {sh' : Shared} {l' : Local}
    {holder : Option ι} (hmove : Move c.shared (c.threads i) sh' l')
    (hflag : c.shared.mLocked = holder.isSome) :
    ∃ holder', Mutex.Step holder (fun j => (c.threads j).inside) holder'
      (fun j => ((c.set i sh' l').threads j).inside) ∧ sh'.mLocked = holder'.isSome := by
  have hkeep := c.comp_set_of_eq i sh' (l := l') Local.inside
  generalize hl : c.threads i = l at hmove
  cases hmove with
  | win n hlocked =>
    have hfree : holder = none := by simpa [hlocked] using hflag.symm
    exact ⟨some i, .acquire i hfree rfl (Config.comp_set ..), rfl⟩
  | store n => exact ⟨none, .release i (congrArg Local.inside hl) rfl (Config.comp_set ..), rfl⟩
  | _ => exact ⟨holder, .keep rfl (hkeep ((congrArg Local.inside hl).trans rfl)), hflag⟩

theorem Move.x_cases {sh sh' : Shared} {l l' : Local} (hmove : Move sh l sh' l') :
    sh'.x = sh.x ∧ l'.toWrite = l.toWrite ∨
      ∃ value, l.pc = .write value ∧ sh'.x = value + 1 ∧ l'.toWrite + 1 = l.toWrite := by
  cases hmove with
  | write n value => exact .inr ⟨value, rfl, rfl, rfl⟩
  | _ => exact .inl ⟨rfl, rfl⟩

theorem Move.of_write {sh sh' : Shared} {l l' : Local} (hmove : Move sh l sh' l') {value : ℤ}
    (hl' : l'.pc = .write value) : value = sh'.x := by
  cases hmove with
  | read n => simpa using hl'.symm
  | _ => simp at hl'

theorem Protected.move [Fintype ι] {x₀ : ℤ} {k : ι → ℕ} {c : Config ι Shared Local} {i : ι}
    {sh' : Shared} {l' : Local} (hinv : Protected x₀ k c)
    (hmove : Move c.shared (c.threads i) sh' l') : Protected x₀ k (c.set i sh' l') := by
  obtain ⟨holder, hheld, hflag⟩ := hinv.lock
  have htotal := hinv.total
  have hcensus := c.census_set i sh' l' Local.toWrite
  refine ⟨?_, ?_, ?_⟩
  · obtain ⟨holder', hstep, hflag'⟩ := hmove.lockStep hflag
    exact ⟨holder', hstep.held hheld, hflag'⟩
  · refine c.forall_set i sh' l' (P := fun _ l => ∀ v, l.pc = .write v → v = sh'.x)
      (fun v hl' => hmove.of_write hl') fun j hji v hj => ?_
    rcases hmove.x_cases with ⟨hx, -⟩ | ⟨value, hi, -, -⟩
    · rw [hx]
      exact hinv.copy j v hj
    · -- Both threads would be inside.
      have hin : ∀ {l : Local} {v : ℤ}, l.pc = .write v → l.inside = true := by
        intro l v hl
        simp [Local.inside, hl]
      exact absurd (hheld.unique (t := j) (u := i) (hin hj) (hin hi)) hji
  · rw [Config.set_shared]
    rcases hmove.x_cases with ⟨hx, hsame⟩ | ⟨value, hi, hx, hless⟩
    · rw [hx]
      omega
    · rw [hx, hinv.copy i value hi]
      omega

variable {x₀ : ℤ} {k : ι → ℕ} {c : Config ι Shared Local} {h : List Empty}

/-- The invariant, for every run. -/
theorem protected_of_run [Fintype ι] (hrun : (spinlock x₀ k).Run (spinlock x₀ k).init h c) :
    Protected x₀ k c := by
  refine hrun.invariant (fun c _ => Protected x₀ k c) ?_ ?_
  · refine ⟨⟨none, Mutex.held_none fun _ => rfl, rfl⟩, by simp [spinlock], ?_⟩
    simp [spinlock, Config.census, Local.toWrite]
  · rintro h c c' es ⟨i, ⟨⟩⟩ - hinv - hnext
    obtain ⟨sh', l', hstep, rfl⟩ := interleave_next_eq_some.mp hnext
    exact hinv.move (move_of_step hstep)

/-- **The lock protects its critical section.** In every reachable state the flag is set exactly
when a thread is between its winning `exchange` and its store of `false`, at most one thread is
there, and when all threads have finished the integer has grown by the number of all rounds. -/
theorem spinlock_protects [Fintype ι] (hrun : (spinlock x₀ k).Run (spinlock x₀ k).init h c) :
    (c.shared.mLocked = true ↔ ∃ i, (c.threads i).inside = true) ∧
      (∀ i j, (c.threads i).inside = true → (c.threads j).inside = true → i = j) ∧
      ((∀ i, (c.threads i).Finished) → c.shared.x = x₀ + (∑ i, k i : ℕ)) := by
  obtain ⟨⟨holder, hheld, hflag⟩, -, htotal⟩ := protected_of_run hrun
  refine ⟨?_, fun i j hi hj => hheld.unique (t := i) (u := j) hi hj, fun hfinished => ?_⟩
  · rw [hflag, Option.isSome_iff_exists]
    exact exists_congr fun i => hheld i
  · rw [Config.census_const _ _ ⟨0, .loop⟩ hfinished rfl] at htotal
    simpa using htotal

/-- Two threads take turns at the lock, the second one after it has spun. -/
theorem spinlock_protects_two_rounds : ∃ c h,
    (spinlock 0 fun _ : Fin 2 => 1).Run (spinlock 0 fun _ : Fin 2 => 1).init h c ∧
      (∀ i, (c.threads i).Finished) ∧ c.shared.x = 2 := by
  obtain ⟨c, h, hrun, hc⟩ := Machine.exists_run_of_exec (M := spinlock 0 fun _ : Fin 2 => 1)
    [(0, ()), (1, ()), (0, ()), (1, ()), (0, ()), (1, ()), (0, ()), (0, ()), (1, ()), (1, ()),
      (1, ()), (1, ())]
    (f := fun r => (r.1.threads 0, r.1.threads 1)) (b := (⟨0, .loop⟩, ⟨0, .loop⟩)) (by decide)
  have hfinished : ∀ i, (c.threads i).Finished := Fin.forall_fin_two.mpr (Prod.mk.inj hc)
  exact ⟨c, h, hrun, hfinished, (spinlock_protects hrun).2.2 hfinished⟩

/-! ### The end of the rounds -/

/-- The guard that leaves the `exchange`s out that return `true`. -/
def NoSpin (c : Config ι Shared Local) (a : ι × Unit) : Prop :=
  (c.threads a.1).pc = .exchange → c.shared.mLocked = false

/-- The steps that a thread has still to take. -/
def Local.size (l : Local) : ℕ :=
  5 * l.rounds +
    match l.pc with
    | .loop => 0
    | .exchange => 4
    | .read => 3
    | .write _ => 2
    | .store => 1

theorem Move.size_lt {sh sh' : Shared} {l l' : Local} (hmove : Move sh l sh' l')
    (hok : l.pc = .exchange → sh.mLocked = false) : l'.size < l.size := by
  cases hmove with
  | spin n hlocked => exact absurd (hok rfl) (by simp [hlocked])
  | _ => simp [Local.size] <;> omega

omit [DecidableEq ι] in
theorem finished_or_spins {i : ι} {sh : Shared} {l : Local}
    (hstuck : (l.pc = .exchange → sh.mLocked = false) → step i () sh l = none) :
    l.Finished ∨ l.pc = .exchange ∧ sh.mLocked = true := by
  rcases l with ⟨n, pc⟩
  cases pc with
  | loop =>
    cases n with
    | zero => exact .inl rfl
    | succ n => exact absurd (hstuck nofun) (by simp [step])
  | exchange =>
    refine .inr ⟨rfl, ?_⟩
    by_contra hlocked
    rw [Bool.not_eq_true] at hlocked
    exact absurd (hstuck fun _ => hlocked) (by simp [step, hlocked])
  | _ => exact absurd (hstuck nofun) (by simp [step])

/-- **All rounds are done.** From every reachable state, every schedule in which no thread spins
comes to an end, and there all threads have finished and the integer has grown by the number of all
rounds. -/
theorem spinlock_total [Fintype ι] (hrun : (spinlock x₀ k).Run (spinlock x₀ k).init h c) :
    (spinlock x₀ k).Inevitable NoSpin
      (fun c => (∀ i, (c.threads i).Finished) ∧ c.shared.x = x₀ + (∑ i, k i : ℕ)) c := by
  refine Machine.inevitable_of_terminal (I := Protected x₀ k) _ (fun c => c.census Local.size)
    ?_ ?_ (protected_of_run hrun)
  · rintro c c' es ⟨i, ⟨⟩⟩ hinv hok hnext
    obtain ⟨sh', l', hstep, rfl⟩ := interleave_next_eq_some.mp hnext
    have hmove := move_of_step hstep
    have hcensus := c.census_set i sh' l' Local.size
    have hlt := hmove.size_lt hok
    exact ⟨hinv.move hmove, by omega⟩
  · intro c hinv hstuck
    have hcases (i : ι) : (c.threads i).Finished ∨
        (c.threads i).pc = .exchange ∧ c.shared.mLocked = true := by
      refine finished_or_spins (i := i) fun hok => ?_
      simpa [spinlock, interleave] using hstuck (i, ()) hok
    obtain ⟨⟨holder, hheld, hflag⟩, -, htotal⟩ := hinv
    -- The flag is not set, since its holder could move.
    have hfree : c.shared.mLocked = false := by
      cases holder with
      | none => exact hflag
      | some i =>
        have hinside : (c.threads i).inside = true := (hheld i).mp rfl
        rcases hcases i with hi | ⟨hi, -⟩
        · rw [hi] at hinside
          contradiction
        · simp [Local.inside, hi] at hinside
    have hfinished (i : ι) : (c.threads i).Finished :=
      (hcases i).resolve_right (by simp [hfree])
    rw [Config.census_const _ _ ⟨0, .loop⟩ hfinished rfl] at htotal
    exact ⟨hfinished, by simpa using htotal⟩

/-- The second thread spins while the first one is inside. -/
theorem spinlock_total_spinning : ∃ c h,
    (spinlock 0 fun _ : Fin 2 => 1).Run (spinlock 0 fun _ : Fin 2 => 1).init h c ∧
      c.threads 1 = ⟨0, .exchange⟩ ∧ (spinlock 0 fun _ : Fin 2 => 1).Inevitable NoSpin
        (fun c => (∀ i, (c.threads i).Finished) ∧ c.shared.x = 0 + (∑ _i : Fin 2, 1 : ℕ)) c := by
  obtain ⟨c, h, hrun, hc⟩ := Machine.exists_run_of_exec (M := spinlock 0 fun _ : Fin 2 => 1)
    [(0, ()), (1, ()), (0, ()), (1, ()), (0, ()), (1, ())]
    (f := fun r => r.1.threads 1) (b := ⟨0, .exchange⟩) (by decide)
  exact ⟨c, h, hrun, hc, spinlock_total hrun⟩

end Spinlock

end Multithreading.Sync
