import Multithreading.Stack.BufferedRefinement
import Multithreading.Stack.BufferedOccupancy

/-!
# The processes of `shm_atomics`

A child that pushes the numbers below `NumberOfElements` in order, and its parent that pops until
it has got as many values. A push into a full stack and a pop from an empty one are tried again at
once. The parent then waits for the child.

The two processes run without a lock, but the loops of both always come to an end when the attempts
that cannot succeed are left out, and the stack is empty then. Which values the parent gets is
another question: without the guard `InOrder` it may get one of them twice and miss another.

## Main definitions

* `ShmAtomics.next`, `shmAtomics` — the machine of the two processes, for any capacity and number of
  elements.
* `ShmAtomics.Productive` — the guard that leaves out the attempts that cannot succeed.

## Main results

* `ShmAtomics.shmAtomics_ends` — what has been pushed in every run, and where every run ends.
* `ShmAtomics.shmAtomics_values` — under the guard `InOrder` the parent gets every number once.
* `ShmAtomics.not_shmAtomics_values` — without it this fails.
-/

open Transition Memory

namespace Multithreading.Stack

namespace ShmAtomics

open BufferedStack

/-- The stack with the two processes in it, the loop counters `i` and `consumed`, and which
processes have exited. -/
structure State where
  stack : Config Side (Shared ℤ) (Local ℤ)
  count : Side → ℕ
  exited : Side → Bool

/-- What the processes do: a step in an operation of the stack, or the way from the end of the loop
to the exit. -/
inductive Label
  | stack (p : Side) (x : Action ℤ)
  | exit (p : Side)

/-- The operation that a process calls next in its loop, for `n` elements. -/
def mayCall (n : ℕ) (count : Side → ℕ) : Side → Op ℤ → Bool
  | .producer, .push v => decide (count .producer < n ∧ v = count .producer)
  | .consumer, .pop => decide (count .consumer < n)
  | _, _ => false

/-- The returns after which a loop counter goes up: `Push` has returned `true`, or `Pop` a value. -/
def returns (es : List (Event Side ℤ)) : ℕ :=
  es.countP fun | .ret _ .pushed | .ret _ (.popped (some _)) => true | _ => false

/-- A process is at the end of its loop, and the parent has waited for the child. -/
def State.AtExit (n : ℕ) (s : State) (p : Side) : Prop :=
  s.stack.threads p = .idle ∧ n ≤ s.count p ∧ s.exited p = false ∧
    (p = .consumer → s.exited .producer = true)

deriving instance DecidableEq for BufferedStack.Local

instance (n : ℕ) (s : State) (p : Side) : Decidable (s.AtExit n p) :=
  inferInstanceAs (Decidable (_ ∧ _ ∧ _ ∧ _))

/-- A step of one of the processes. -/
def next (capacity n : ℕ) (s : State) : Label → Option (State × List (Event Side ℤ))
  | .stack p x =>
    match BufferedStack.step id capacity (mayCall n s.count) p x s.stack.shared
        (s.stack.threads p) with
    | none => none
    | some (sh, l, es) =>
      some ({ s with
        stack := s.stack.set p sh l
        count := Function.update s.count p (s.count p + returns es) }, es)
  | .exit p =>
    if s.AtExit n p then some ({ s with exited := Function.update s.exited p true }, []) else none

end ShmAtomics

/-- `shm_atomics` with a stack of the given capacity and `n` elements. -/
def shmAtomics (capacity n : ℕ) :
    Machine ShmAtomics.State ShmAtomics.Label (Event BufferedStack.Side ℤ) where
  init := ⟨⟨⟨0, fun _ => 0⟩, fun _ => .idle⟩, fun _ => 0, fun _ => false⟩
  next := ShmAtomics.next capacity n

namespace ShmAtomics

open BufferedStack

variable {capacity n : ℕ} {s s' : State} {h es : List (Event Side ℤ)} {p q : Side} {x : Action ℤ}
  {sh sh' : Shared ℤ} {l l' : Local ℤ}

/-- Both processes have exited. -/
def Finished (s : State) : Prop := ∀ p, s.exited p = true

theorem finished_iff :
    Finished s ↔ s.exited .producer = true ∧ s.exited .consumer = true := by
  refine ⟨fun hfinished => ⟨hfinished _, hfinished _⟩, fun ⟨hproducer, hconsumer⟩ p => ?_⟩
  cases p with
  | producer => exact hproducer
  | consumer => exact hconsumer

theorem next_cases {a : Label} (hnext : next capacity n s a = some (s', es)) :
    (∃ p x sh l, a = .stack p x ∧
      BufferedStack.step id capacity (mayCall n s.count) p x s.stack.shared (s.stack.threads p) =
        some (sh, l, es) ∧
      s' = { s with
        stack := s.stack.set p sh l
        count := Function.update s.count p (s.count p + returns es) }) ∨
    (∃ p, a = .exit p ∧ s.AtExit n p ∧ es = [] ∧
      s' = { s with exited := Function.update s.exited p true }) := by
  cases a with
  | stack p x =>
    rw [next] at hnext
    split at hnext
    · contradiction
    · rename_i sh l es' hstep
      obtain ⟨rfl, rfl⟩ := Prod.mk.inj (Option.some.inj hnext)
      exact .inl ⟨p, x, sh, l, rfl, hstep, rfl⟩
  | exit p =>
    rw [next] at hnext
    split at hnext
    · rename_i hexit
      obtain ⟨rfl, rfl⟩ := Prod.mk.inj (Option.some.inj hnext)
      exact .inr ⟨p, rfl, hexit, rfl, rfl⟩
    · contradiction

/-! ### The loop counters -/

/-- The successful compare-and-swaps of a process. -/
def wins : Side → List (Event Side ℤ) → ℕ
  | .producer, h => pushWins h
  | .consumer, h => popWins h

theorem wins_append (p : Side) (h h' : List (Event Side ℤ)) :
    wins p (h ++ h') = wins p h + wins p h' := by
  cases p with
  | producer => exact pushWins_append h h'
  | consumer => exact popWins_append h h'

/-- A process has won its compare-and-swap and has not counted it yet. -/
def won : Local ℤ → ℕ
  | .pushWrite _ _ | .pushed | .popRead _ | .popped (some _) => 1
  | _ => 0

/-- Where a process can be whose loop counter is `i`. -/
def Plays (n i : ℕ) : Side → Local ℤ → Prop
  | _, .idle => i ≤ n
  | .producer, .pushLoad v | .producer, .pushCas v _ | .producer, .pushWrite v _ => v = i ∧ i < n
  | .producer, .pushed | .producer, .rejected => i < n
  | .consumer, .popLoad | .consumer, .popCas _ | .consumer, .popRead _ | .consumer, .popped _ =>
    i < n
  | _, _ => False

/-- A process has won at most one compare-and-swap more than it has counted, and never too many. -/
theorem Plays.count_add_won_le {i : ℕ} (hl : Plays n i p l) : i + won l ≤ n := by
  cases p <;> cases l <;> first | exact hl.elim | skip
  all_goals simp only [Plays] at hl
  all_goals simp only [won]
  all_goals try split
  all_goals omega

@[simp] theorem returns_casFailure (p : Side) (head top : ℤ) :
    returns [casFailure p head top] = 0 := by
  rw [casFailure]
  split <;> rfl

@[simp] theorem wins_casFailure (q p : Side) (head top : ℤ) :
    wins q [casFailure p head top] = 0 := by
  cases q <;> simp [wins]

theorem plays_move {count : Side → ℕ}
    (hmove : Move id capacity (mayCall n count) p sh x l sh' l' es) (hl : Plays n (count p) p l)
    (hdefined : l'.Loaded capacity) :
    Plays n (count p + returns es) p l' ∧ wins p es + won l = returns es + won l' ∧
      ∀ q, q ≠ p → wins q es = 0 := by
  cases p with
  | producer =>
    cases hmove with
    | callPush v hcall =>
      obtain ⟨hlt, hv⟩ : count .producer < n ∧ v = count .producer := by simpa [mayCall] using hcall
      exact ⟨⟨hv, hlt⟩, rfl, fun q _ => by cases q <;> rfl⟩
    | callPop hcall => simp [mayCall] at hcall
    | pushLose => exact ⟨by simpa [Plays] using hl, by simp [won], by simp⟩
    | pushOverflow => exact hdefined.elim
    | pushBounds => exact hdefined.elim
    | pushFull => exact ⟨hl.2, rfl, fun q _ => by cases q <;> rfl⟩
    | pushWrite => exact ⟨hl.2, rfl, fun q _ => by cases q <;> rfl⟩
    | pushLoad => exact ⟨hl, rfl, fun q _ => by cases q <;> rfl⟩
    | pushWin => exact ⟨hl, rfl, fun q hq => by cases q <;> first | exact absurd rfl hq | rfl⟩
    | pushRet => exact ⟨hl, rfl, fun q _ => by cases q <;> rfl⟩
    | rejectRet => exact ⟨hl.le, rfl, fun q _ => by cases q <;> rfl⟩
    | _ => exact hl.elim
  | consumer =>
    cases hmove with
    | callPop hcall =>
      have hlt : count .consumer < n := by simpa [mayCall] using hcall
      exact ⟨hlt, rfl, fun q _ => by cases q <;> rfl⟩
    | callPush v hcall => simp [mayCall] at hcall
    | popLose => exact ⟨by simpa [Plays] using hl, by simp [won], by simp⟩
    | popOverflow => exact hdefined.elim
    | popBounds => exact hdefined.elim
    | popWin => exact ⟨hl, rfl, fun q hq => by cases q <;> first | exact absurd rfl hq | rfl⟩
    | popRet r =>
      cases r with
      | none => exact ⟨Nat.le_of_lt hl, rfl, fun q _ => by cases q <;> rfl⟩
      | some v => exact ⟨hl, rfl, fun q _ => by cases q <;> rfl⟩
    | popEmpty => exact ⟨hl, rfl, fun q _ => by cases q <;> rfl⟩
    | popLoad => exact ⟨hl, rfl, fun q _ => by cases q <;> rfl⟩
    | popRead => exact ⟨hl, rfl, fun q _ => by cases q <;> rfl⟩
    | _ => exact hl.elim

@[simp] theorem pushedValues_casFailure (p : Side) (head top : ℤ) :
    pushedValues [(casFailure p head top : Event Side ℤ)] = [] := by
  rw [casFailure]
  split <;> rfl

theorem pushedValues_move {count : Side → ℕ}
    (hmove : Move id capacity (mayCall n count) p sh x l sh' l' es) (hl : Plays n (count p) p l)
    {m : ℕ} (hm : p = .producer → m = count p + won l) :
    pushedValues es = (List.range (pushWins es)).map fun k => ((m + k : ℕ) : ℤ) := by
  cases hmove with
  | pushWin _ v top =>
    cases p with
    | producer =>
      obtain rfl : v = count .producer := hl.1
      obtain rfl : m = count .producer := hm rfl
      rfl
    | consumer => exact hl.elim
  | pushLose | popLose => simp
  | _ => rfl

/-- The law of the counter, where the processes are in their loops, and what they have won and
pushed. -/
structure Inv (capacity n : ℕ) (s : State) (h : List (Event Side ℤ)) : Prop where
  occupancy : Occupancy capacity s.stack h ∧ ∀ p, (s.stack.threads p).Loaded capacity
  plays : ∀ p, Plays n (s.count p) p (s.stack.threads p)
  wins : ∀ p, wins p h = s.count p + won (s.stack.threads p)
  pushed : pushedValues h = (List.range (pushWins h)).map Nat.cast
  exited : ∀ p, s.exited p = true → s.stack.threads p = .idle ∧ s.count p = n

theorem Inv.move (hinv : Inv capacity n s h) (hmax : (capacity : ℤ) ≤ intMax)
    (hmove : Move id capacity (mayCall n s.count) p s.stack.shared x (s.stack.threads p) sh l es) :
    Inv capacity n { s with
      stack := s.stack.set p sh l
      count := Function.update s.count p (s.count p + returns es) } (h ++ es) := by
  obtain ⟨hocc, hloaded⟩ := Occupancy.move hmax hinv.occupancy hmove
  have hdefined : l.Loaded capacity := by simpa using hloaded p
  obtain ⟨hplays, hwins, hother⟩ := plays_move hmove (hinv.plays p) hdefined
  refine ⟨⟨hocc, hloaded⟩, fun q => ?_, fun q => ?_, ?_, fun q hq => ?_⟩
  · by_cases hqp : q = p
    · subst hqp
      simpa using hplays
    · simpa [hqp, Config.set_threads_of_ne] using hinv.plays q
  · have hq := hinv.wins q
    by_cases hqp : q = p
    · subst hqp
      simp only [wins_append, Config.set_threads_self, Function.update_self]
      omega
    · simpa [wins_append, hqp, Config.set_threads_of_ne, hother q hqp] using hq
  · have hpushed := pushedValues_move hmove (hinv.plays p) (m := pushWins h) fun hp => by
      subst hp
      exact hinv.wins .producer
    rw [pushedValues_append, pushWins_append, List.range_add, List.map_append, ← hinv.pushed,
      hpushed, List.map_map]
    rfl
  · obtain ⟨hidle, hcount⟩ := hinv.exited q hq
    by_cases hqp : q = p
    · subst hqp
      rw [hidle] at hmove
      cases hmove with
      | callPush v hcall => cases q <;> simp_all [mayCall]
      | callPop hcall => cases q <;> simp_all [mayCall]
    · simpa [hqp, Config.set_threads_of_ne] using ⟨hidle, hcount⟩

theorem Inv.exit (hinv : Inv capacity n s h) (hexit : s.AtExit n p) :
    Inv capacity n { s with exited := Function.update s.exited p true } h := by
  obtain ⟨hidle, hle, -⟩ := hexit
  have hplays := hinv.plays p
  rw [hidle] at hplays
  have hcount : s.count p ≤ n := by cases p <;> exact hplays
  refine { hinv with exited := fun q hq => ?_ }
  by_cases hqp : q = p
  · subst hqp
    exact ⟨hidle, le_antisymm hcount hle⟩
  · exact hinv.exited q (by simpa [hqp] using hq)

theorem Inv.next {a : Label} (hinv : Inv capacity n s h) (hmax : (capacity : ℤ) ≤ intMax)
    (hnext : next capacity n s a = some (s', es)) : Inv capacity n s' (h ++ es) := by
  rcases next_cases hnext with ⟨p, x, sh, l, -, hstep, rfl⟩ | ⟨p, -, hexit, rfl, rfl⟩
  · exact hinv.move hmax (move_of_step hstep)
  · simpa using hinv.exit hexit

theorem inv_of_run (hmax : (capacity : ℤ) ≤ intMax)
    (hrun : (shmAtomics capacity n).Run (shmAtomics capacity n).init h s) :
    Inv capacity n s h := by
  refine hrun.invariant (fun s h => Inv capacity n s h) ?_ ?_
  · refine ⟨⟨⟨rfl, le_rfl, Int.natCast_nonneg capacity, fun _ => trivial, nofun⟩, fun _ => trivial⟩,
      fun p => ?_, fun p => by cases p <;> rfl, rfl, nofun⟩
    cases p <;> exact Nat.zero_le n
  · rintro h s s' es a - hinv - hnext
    exact hinv.next hmax hnext

/-! ### The end of the loops -/

/-- The attempts that can succeed: no push into a full stack, no pop from an empty one, and no
compare-and-swap that fails spuriously. -/
def Attempt (capacity : ℕ) (head : ℤ) : Action ℤ → Local ℤ → Prop
  | .tau, .pushLoad _ => toSizeT head ≠ capacity
  | .tau, .popLoad => head ≠ 0
  | .cas spurious, _ => spurious = false
  | _, _ => True

/-- The guard that leaves the other attempts out. -/
def Productive (capacity : ℕ) (s : State) : Label → Prop
  | .stack p x => Attempt capacity s.stack.shared.mHead x (s.stack.threads p)
  | .exit _ => True

/-- The steps of a process to its next successful compare-and-swap and from there to the next
operation. A process whose copy of the counter is out of date has to load it once more. -/
def weight (head : ℤ) : Local ℤ → ℕ
  | .undefined => 0
  | .pushCas _ top | .popCas top => if head = top then 1 else 3
  | .pushLoad _ | .popLoad => 2
  | .idle => 3
  | .pushed | .rejected | .popped _ => 4
  | .pushWrite _ _ | .popRead _ => 5

/-- The compare-and-swaps that a process has still to win, and its way to the next one. -/
def State.left (n : ℕ) (s : State) (p : Side) : ℕ :=
  7 * (n - (s.count p + won (s.stack.threads p))) +
    weight s.stack.shared.mHead (s.stack.threads p) + if s.exited p then 0 else 1

/-- What is left of both loops. -/
def State.size (n : ℕ) (s : State) : ℕ := s.left n .producer + s.left n .consumer

/-- A step of a process leaves the counter alone and brings the process on, or it wins a
compare-and-swap. -/
theorem weight_step {count : Side → ℕ}
    (hstep : BufferedStack.step id capacity (mayCall n count) p x sh l = some (sh', l', es))
    (hl : Plays n (count p) p l) (hattempt : Attempt capacity sh.mHead x l) :
    (sh'.mHead = sh.mHead ∧ wins p es = 0 ∧ weight sh.mHead l' < weight sh.mHead l) ∨
      (wins p es = 1 ∧ weight sh'.mHead l' = 5 ∧ weight sh.mHead l = 1) := by
  have hmove := move_of_step hstep
  cases hmove with
  | pushWin _ v top _ hhead =>
    cases p with
    | producer => exact .inr ⟨rfl, rfl, if_pos hhead⟩
    | consumer => exact hl.elim
  | popWin _ top _ hhead =>
    cases p with
    | producer => exact hl.elim
    | consumer => exact .inr ⟨rfl, rfl, if_pos hhead⟩
  | pushLose spurious v top hfits =>
    obtain rfl : spurious = false := hattempt
    have hhead : sh.mHead ≠ top := fun hhead => by simp [step, hfits, hhead] at hstep
    exact .inl ⟨rfl, by simp, by simp [weight, hhead]⟩
  | popLose spurious top hfits =>
    obtain rfl : spurious = false := hattempt
    have hhead : sh.mHead ≠ top := fun hhead => by simp [step, hfits, hhead] at hstep
    exact .inl ⟨rfl, by simp, by simp [weight, hhead]⟩
  | pushFull v hfull => exact absurd hfull hattempt
  | popEmpty hzero => exact absurd hzero hattempt
  | pushOverflow | popOverflow =>
    refine .inl ⟨rfl, by cases p <;> rfl, ?_⟩
    simp only [weight]
    split <;> omega
  | _ => exact .inl ⟨rfl, by cases p <;> rfl, by simp [weight]⟩

theorem weight_le (head head' : ℤ) (l : Local ℤ) : weight head' l ≤ weight head l + 2 := by
  cases l <;> simp only [weight] <;> try omega
  all_goals split <;> split <;> omega

theorem Inv.size_move (hinv : Inv capacity n s h) (hmax : (capacity : ℤ) ≤ intMax)
    (hstep : BufferedStack.step id capacity (mayCall n s.count) p x s.stack.shared
      (s.stack.threads p) = some (sh, l, es))
    (hattempt : Attempt capacity s.stack.shared.mHead x (s.stack.threads p)) :
    State.size n { s with
      stack := s.stack.set p sh l
      count := Function.update s.count p (s.count p + returns es) } < s.size n := by
  have hmove := move_of_step hstep
  have hle := ((hinv.move hmax hmove).plays p).count_add_won_le
  have hloaded : l.Loaded capacity := by
    simpa using (Occupancy.move hmax hinv.occupancy hmove).2 p
  obtain ⟨-, hwins, -⟩ := plays_move hmove (hinv.plays p) hloaded
  simp only [Config.set_threads_self, Function.update_self] at hle
  have hlonger := weight_le s.stack.shared.mHead sh.mHead
  rcases weight_step hstep (hinv.plays p) hattempt with ⟨hhead, hnone, hlt⟩ | ⟨hone, hnew, hold⟩
  · cases p
    all_goals simp [State.size, State.left, Config.set_threads_of_ne, hhead]
    all_goals omega
  · cases p
    · have hother := hlonger (s.stack.threads .consumer)
      simp [State.size, State.left, Config.set_threads_of_ne, hnew, hold]
      omega
    · have hother := hlonger (s.stack.threads .producer)
      simp [State.size, State.left, Config.set_threads_of_ne, hnew, hold]
      omega

theorem Inv.size_lt {a : Label} (hinv : Inv capacity n s h) (hmax : (capacity : ℤ) ≤ intMax)
    (hok : Productive capacity s a) (hnext : ShmAtomics.next capacity n s a = some (s', es)) :
    s'.size n < s.size n := by
  rcases next_cases hnext with ⟨p, x, sh, l, rfl, hstep, rfl⟩ | ⟨p, -, hexit, -, rfl⟩
  · exact hinv.size_move hmax hstep hok
  · obtain ⟨-, -, hrunning, -⟩ := hexit
    cases p <;> simp [State.size, State.left, hrunning]

/-- A process in an operation has a productive step, unless it sees a full or an empty stack. -/
theorem exists_attempt (p : Side) (mayCall : Side → Op ℤ → Bool) (sh : Shared ℤ)
    (hl : l.Loaded capacity) (hbusy : l ≠ .idle)
    (hpush : ∀ v, l = .pushLoad v → toSizeT sh.mHead ≠ capacity)
    (hpop : l = .popLoad → sh.mHead ≠ 0) :
    ∃ x, Attempt capacity sh.mHead x l ∧
      BufferedStack.step id capacity mayCall p x sh l ≠ none := by
  cases l with
  | idle => exact absurd rfl hbusy
  | pushLoad v => exact ⟨.tau, hpush v rfl, by simp [step, hpush v rfl]⟩
  | popLoad => exact ⟨.tau, hpop rfl, by simp [step, hpop rfl]⟩
  | pushCas v top =>
    refine ⟨.cas false, rfl, ?_⟩
    rw [step]
    split_ifs <;> simp
  | popCas top =>
    refine ⟨.cas false, rfl, ?_⟩
    rw [step]
    split_ifs <;> simp
  | pushWrite v top =>
    refine ⟨.tau, trivial, ?_⟩
    rw [step]
    split_ifs <;> simp
  | popRead top =>
    refine ⟨.tau, trivial, ?_⟩
    rw [step]
    split_ifs <;> simp
  | undefined => exact hl.elim
  | _ => exact ⟨.tau, trivial, by simp [step]⟩

/-- A process that has no productive step has exited, sees a full or an empty stack, or waits for
the child to exit. -/
theorem Inv.stuck_cases (hinv : Inv capacity n s h)
    (hstuck : ∀ a, Productive capacity s a → ShmAtomics.next capacity n s a = none) (p : Side) :
    s.exited p = true ∨
      (p = .producer ∧ s.count p < n ∧ won (s.stack.threads p) = 0 ∧
        toSizeT s.stack.shared.mHead = capacity) ∨
      (p = .consumer ∧ s.count p < n ∧ won (s.stack.threads p) = 0 ∧
        s.stack.shared.mHead = 0) ∨
      (p = .consumer ∧ n ≤ s.count p ∧ s.exited .producer = false) := by
  have hplays := hinv.plays p
  by_cases hidle : s.stack.threads p = .idle
  · by_cases hcount : s.count p < n
    · -- The next operation can be called.
      cases p with
      | producer =>
        have hcall := hstuck (.stack .producer (.call (.push (s.count .producer)))) trivial
        simp [ShmAtomics.next, step, hidle, mayCall, hcount] at hcall
      | consumer =>
        have hcall := hstuck (.stack .consumer (.call .pop)) trivial
        simp [ShmAtomics.next, step, hidle, mayCall, hcount] at hcall
    · have hexit : ¬ s.AtExit n p := by
        have := hstuck (.exit p) trivial
        simpa [ShmAtomics.next] using this
      by_contra hnone
      push Not at hnone
      obtain ⟨hexited, -, -, hchild⟩ := hnone
      exact hexit ⟨hidle, not_lt.mp hcount, by simpa using hexited,
        by simpa using fun hp => hchild hp (not_lt.mp hcount)⟩
  · by_contra hnone
    push Not at hnone
    obtain ⟨-, hfull, hempty, -⟩ := hnone
    have hpush : ∀ v, s.stack.threads p = .pushLoad v →
        toSizeT s.stack.shared.mHead ≠ capacity := by
      intro v hl
      rw [hl] at hplays hfull
      cases p with
      | producer => exact hfull rfl hplays.2 rfl
      | consumer => exact hplays.elim
    have hpop : s.stack.threads p = .popLoad → s.stack.shared.mHead ≠ 0 := by
      intro hl
      rw [hl] at hplays hempty
      cases p with
      | producer => exact hplays.elim
      | consumer => exact hempty rfl hplays rfl
    obtain ⟨x, hattempt, hsome⟩ := exists_attempt p (mayCall n s.count) s.stack.shared
      (hinv.occupancy.2 p) hidle hpush hpop
    obtain ⟨⟨sh, l, es⟩, hstep⟩ := Option.ne_none_iff_exists'.mp hsome
    have hcall := hstuck (.stack p x) hattempt
    simp [ShmAtomics.next, hstep] at hcall

/-- The processes do not wait for each other in vain. -/
theorem Inv.finished (hinv : Inv capacity n s h) (h0 : 0 < capacity)
    (hmax : (capacity : ℤ) ≤ intMax)
    (hstuck : ∀ a, Productive capacity s a → ShmAtomics.next capacity n s a = none) :
    Finished s := by
  have hocc := hinv.occupancy.1
  have hhead := hocc.head
  have hsize := natCast_toSizeT s.stack.shared.mHead hocc.nonneg (hocc.room.trans hmax)
  have hpushes : pushWins h = _ := hinv.wins .producer
  have hpops : popWins h = _ := hinv.wins .consumer
  have hle := (hinv.plays .producer).count_add_won_le
  have hle' := (hinv.plays .consumer).count_add_won_le
  have hproducer : s.exited .producer = true := by
    rcases hinv.stuck_cases hstuck .producer with
      hexited | ⟨-, hlt, hwon, hfull⟩ | ⟨hp, -⟩ | ⟨hp, -⟩
    · exact hexited
    · -- The stack is full, so the parent has not got all values and can pop one.
      rcases hinv.stuck_cases hstuck .consumer with
        hexited | ⟨hp, -⟩ | ⟨-, -, -, hzero⟩ | ⟨-, hcount, -⟩
      · have hcount := (hinv.exited .consumer hexited).2
        omega
      · contradiction
      · omega
      · omega
    · contradiction
    · contradiction
  have hconsumer : s.exited .consumer = true := by
    rcases hinv.stuck_cases hstuck .consumer with
      hexited | ⟨hp, -⟩ | ⟨-, hlt, hwon, hzero⟩ | ⟨-, -, hrunning⟩
    · exact hexited
    · contradiction
    · obtain ⟨hidle, hcount⟩ := hinv.exited .producer hproducer
      rw [hidle] at hpushes
      simp only [won] at hpushes
      omega
    · simp [hproducer] at hrunning
  exact finished_iff.mpr ⟨hproducer, hconsumer⟩

theorem Inv.wins_of_finished (hinv : Inv capacity n s h) (hfinished : Finished s) :
    pushWins h = n ∧ popWins h = n ∧ s.stack.shared.mHead = 0 := by
  have hwins (p : Side) : ShmAtomics.wins p h = n := by
    obtain ⟨hidle, hcount⟩ := hinv.exited p (hfinished p)
    simpa [hidle, hcount, won] using hinv.wins p
  have hpushes : pushWins h = n := hwins .producer
  have hpops : popWins h = n := hwins .consumer
  have hhead := hinv.occupancy.1.head
  exact ⟨hpushes, hpops, by omega⟩

/-- **The processes of `shm_atomics` come to their ends.** With a positive capacity that is an
`int`, no run has a fault, the numbers are pushed in order, and all of them have been pushed, as
many values popped and the stack emptied when both processes have exited. Every run without useless
attempts ends there, also one that goes on from a run with useless attempts. -/
theorem shmAtomics_ends (h0 : 0 < capacity) (hmax : (capacity : ℤ) ≤ intMax)
    (hrun : (shmAtomics capacity n).Run (shmAtomics capacity n).init h s) :
    (∀ p f, .fault p f ∉ h) ∧ pushedValues h = (List.range (pushWins h)).map Nat.cast ∧
      (Finished s → pushWins h = n ∧ popWins h = n ∧ s.stack.shared.mHead = 0) ∧
      (shmAtomics capacity n).Inevitable (Productive capacity) Finished s := by
  have hinv := inv_of_run hmax hrun
  refine ⟨hinv.occupancy.1.faultless, hinv.pushed, hinv.wins_of_finished, ?_⟩
  refine Machine.inevitable_of_terminal (I := fun s => ∃ h, Inv capacity n s h) _ (State.size n)
    ?_ ?_ ⟨h, hinv⟩
  · rintro s s' es a ⟨h, hinv⟩ hok hnext
    exact ⟨⟨_, hinv.next hmax hnext⟩, hinv.size_lt hmax hok hnext⟩
  · rintro s ⟨h, hinv⟩ hstuck
    exact hinv.finished h0 hmax hstuck

/-- A stack with one slot, a pop that finds it empty and a push that finds it full. -/
theorem shmAtomics_ends_two : ∃ h s,
    (shmAtomics 1 2).Run (shmAtomics 1 2).init h s ∧ s.stack.threads .producer = .rejected ∧
      pushedValues h = [0] ∧ (shmAtomics 1 2).Inevitable (Productive 1) Finished s := by
  obtain ⟨s, h, hrun, hs⟩ := Machine.exists_run_of_exec (M := shmAtomics 1 2)
    [.stack .consumer (.call .pop), .stack .consumer .tau, .stack .consumer .tau,
      .stack .producer (.call (.push 0)), .stack .producer .tau, .stack .producer (.cas false),
      .stack .producer .tau, .stack .producer .tau, .stack .producer (.call (.push 1)),
      .stack .producer .tau]
    (f := fun r => (decide (r.1.stack.threads .producer = .rejected), pushedValues r.2))
    (b := (true, [0])) (by decide)
  obtain ⟨hpc, hpushed⟩ : s.stack.threads .producer = .rejected ∧ pushedValues h = [0] := by
    simpa using hs
  exact ⟨h, s, hrun, hpc, hpushed, (shmAtomics_ends (by decide) (by decide) hrun).2.2.2⟩

/-! ### The values that the parent gets -/

/-- The guard `InOrder` for the two processes. -/
def InOrder (s : State) : Label → Prop
  | .stack p x => BufferedStack.InOrder s.stack (p, x)
  | .exit _ => True

instance (s : State) (a : Label) : Decidable (InOrder s a) :=
  match a with
  | .stack p x => inferInstanceAs (Decidable (BufferedStack.InOrder s.stack (p, x)))
  | .exit _ => isTrue trivial

theorem mayCall_of_loop {count : Side → ℕ} {op : Op ℤ} (hcall : mayCall n count p op = true) :
    Side.mayCall p op = true := by
  cases p <;> cases op <;> first | rfl | contradiction

theorem step_of_loop {count : Side → ℕ}
    (hstep : BufferedStack.step id capacity (mayCall n count) p x sh l = some (sh', l', es)) :
    BufferedStack.step id capacity Side.mayCall p x sh l = some (sh', l', es) := by
  cases x with
  | call op =>
    have hmove := move_of_step hstep
    cases hmove with
    | callPush v hcall => rw [step, if_pos (mayCall_of_loop hcall)]
    | callPop hcall => rw [step, if_pos (mayCall_of_loop hcall)]
  | cas spurious => cases l <;> exact hstep
  | tau => cases l <;> exact hstep

/-- A run of the processes is a run of the stack with one producer and one consumer. -/
theorem stack_run_of_run
    (hrun : (shmAtomics capacity n).RunIf InOrder (shmAtomics capacity n).init h s) :
    (bufferedStack id 0 capacity Side.mayCall).RunIf BufferedStack.InOrder
      (bufferedStack id 0 capacity Side.mayCall).init h s.stack := by
  induction hrun with
  | refl => exact .refl
  | tail a _ hok hnext ih =>
    rcases next_cases hnext with ⟨p, x, sh, l, rfl, hstep, rfl⟩ | ⟨p, -, -, rfl, rfl⟩
    · exact ih.tail (p, x) hok (interleave_next_eq_some.mpr ⟨sh, l, step_of_loop hstep, rfl⟩)
    · simpa using ih

/-- **The parent gets every number once** in a run under the guard in which both processes exit. -/
theorem shmAtomics_values (hmax : (capacity : ℤ) ≤ intMax)
    (hrun : (shmAtomics capacity n).RunIf InOrder (shmAtomics capacity n).init h s)
    (hfinished : Finished s) :
    (returnedValues h : Multiset ℤ) = ((List.range n).map Nat.cast : List ℤ) := by
  have hinv := inv_of_run hmax hrun.run
  obtain ⟨hpushes, -, hzero⟩ := hinv.wins_of_finished hfinished
  have hleft : s.stack.shared.left = [] := by simp [Shared.left, hzero, toSizeT]
  have hlaw := (spscLaw_of_inOrder (stack_run_of_run hrun)).2.2 fun p =>
    (hinv.exited p (hfinished p)).1
  rw [hinv.pushed, hpushes, hleft] at hlaw
  simpa using hlaw.symm

/-- The child is overtaken while it has not written its slot, and the parent waits for it. -/
theorem shmAtomics_values_overlap : ∃ h s,
    (shmAtomics 1 1).RunIf InOrder (shmAtomics 1 1).init h s ∧ Finished s ∧
      (returnedValues h : Multiset ℤ) = ([0] : List ℤ) := by
  obtain ⟨s, h, hrun, hs⟩ := Machine.exists_runIf_of_execIf (M := shmAtomics 1 1) InOrder
    [.stack .producer (.call (.push 0)), .stack .producer .tau, .stack .producer (.cas false),
      .stack .consumer (.call .pop), .stack .consumer .tau, .stack .consumer (.cas false),
      .stack .producer .tau, .stack .consumer .tau, .stack .consumer .tau, .stack .producer .tau,
      .exit .producer, .exit .consumer]
    (f := fun r => (r.1.exited .producer, r.1.exited .consumer)) (b := (true, true)) (by decide)
  obtain ⟨hproducer, hconsumer⟩ : s.exited .producer = true ∧ s.exited .consumer = true := by
    simpa using hs
  have hfinished : Finished s := finished_iff.mpr ⟨hproducer, hconsumer⟩
  exact ⟨h, s, hrun, hfinished, shmAtomics_values (by decide) hrun hfinished⟩

/-- The child wins its second push and stops before it writes the slot, which still has the first
number. -/
def staleSlotLabels : List Label :=
  List.map (fun a : Side × Action ℤ => .stack a.1 a.2)
    [(.producer, .call (.push 0)), (.producer, .tau), (.producer, .cas false), (.producer, .tau),
      (.producer, .tau), (.consumer, .call .pop), (.consumer, .tau), (.consumer, .cas false),
      (.consumer, .tau), (.consumer, .tau), (.producer, .call (.push 1)), (.producer, .tau),
      (.producer, .cas false), (.consumer, .call .pop), (.consumer, .tau), (.consumer, .cas false),
      (.consumer, .tau), (.consumer, .tau), (.producer, .tau), (.producer, .tau)] ++
    [.exit .producer, .exit .consumer]

/-- **Without the guard the parent may get a number twice** and miss another one. -/
theorem not_shmAtomics_values :
    ¬ ∀ h s, (shmAtomics 1 2).Run (shmAtomics 1 2).init h s → Finished s →
      (returnedValues h : Multiset ℤ) = ((List.range 2).map Nat.cast : List ℤ) := by
  intro hvalues
  obtain ⟨s, h, hrun, hs⟩ := Machine.exists_run_of_exec (M := shmAtomics 1 2) staleSlotLabels
    (f := fun r => (r.1.exited .producer, r.1.exited .consumer, returnedValues r.2))
    (b := (true, true, [0, 0])) (by decide)
  obtain ⟨hproducer, hconsumer, hreturned⟩ :
      s.exited .producer = true ∧ s.exited .consumer = true ∧ returnedValues h = [0, 0] := by
    simpa using hs
  have hboth := hvalues h s hrun (finished_iff.mpr ⟨hproducer, hconsumer⟩)
  rw [hreturned] at hboth
  exact absurd hboth (by decide)

end ShmAtomics

end Multithreading.Stack
