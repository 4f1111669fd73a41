import Multithreading.Transition.Threads

/-!
# Workers at a `std::barrier`

Workers that reach a barrier once after their work and once after their cleaning up. The last worker
to arrive in a phase runs the completion function, and only then does the phase end for the others.

No worker is more than one phase behind: when a worker begins a phase, the completion function of
the phase before it has run, and all workers have done their work of that phase.

## Main definitions

* `Barrier.step`, `barrier` — the machine, for any number of workers and rounds.
* `Barrier.Sound` — where the workers can be, given the phase of the barrier.

## Main results

* `Barrier.barrier_phases` — what precedes each line, and where every run ends.
-/

open Transition

namespace Multithreading.Sync

namespace Barrier

/-- The barrier: the arrivals that the current phase still expects, and the number of the phase. -/
structure Shared where
  pending : ℕ
  phase : ℕ
  deriving DecidableEq

/-- The program counter of a worker in a round. -/
inductive Pc
  /-- About to print that the round is finished, if there is one. -/
  | work
  /-- In `arrive_and_wait`, about to arrive. -/
  | arrive
  /-- The last one to arrive, about to run the completion function. -/
  | complete
  /-- Blocked until the phase of its arrival is over. -/
  | wait (phase : ℕ)
  deriving DecidableEq

/-- A worker: its round, and where it is in it. -/
@[ext]
structure Local where
  round : ℕ
  pc : Pc
  deriving DecidableEq

/-- What is printed: a worker has finished a round (the work in round `0`, the cleaning up in round
`1`), or all workers have reached the barrier. -/
inductive Event (ι : Type*)
  | finished (i : ι) (round : ℕ)
  | completed
  deriving DecidableEq

variable {ι : Type*}

/-- A step of worker `i`, of `count` workers with `rounds` rounds. -/
def step (count rounds : ℕ) (i : ι) :
    Unit → Shared → Local → Option (Shared × Local × List (Event ι))
  | (), sh, ⟨r, .work⟩ =>
    if r < rounds then some (sh, ⟨r, .arrive⟩, [.finished i r]) else none
  | (), sh, ⟨r, .arrive⟩ =>
    if sh.pending = 1 then some ({ sh with pending := 0 }, ⟨r, .complete⟩, [])
    else some ({ sh with pending := sh.pending - 1 }, ⟨r, .wait sh.phase⟩, [])
  | (), sh, ⟨r, .complete⟩ => some (⟨count, sh.phase + 1⟩, ⟨r + 1, .work⟩, [.completed])
  | (), sh, ⟨r, .wait phase⟩ => if sh.phase = phase then none else some (sh, ⟨r + 1, .work⟩, [])

/-- What a step can do, one case for each branch of `step`. -/
inductive Move (count rounds : ℕ) (i : ι) (sh : Shared) :
    Local → Shared → Local → List (Event ι) → Prop
  | work (r : ℕ) (hr : r < rounds) :
      Move count rounds i sh ⟨r, .work⟩ sh ⟨r, .arrive⟩ [.finished i r]
  | last (r : ℕ) (hpending : sh.pending = 1) :
      Move count rounds i sh ⟨r, .arrive⟩ { sh with pending := 0 } ⟨r, .complete⟩ []
  | arrive (r : ℕ) (hpending : sh.pending ≠ 1) :
      Move count rounds i sh ⟨r, .arrive⟩ { sh with pending := sh.pending - 1 }
        ⟨r, .wait sh.phase⟩ []
  | complete (r : ℕ) :
      Move count rounds i sh ⟨r, .complete⟩ ⟨count, sh.phase + 1⟩ ⟨r + 1, .work⟩ [.completed]
  | leave (r phase : ℕ) (hphase : sh.phase ≠ phase) :
      Move count rounds i sh ⟨r, .wait phase⟩ sh ⟨r + 1, .work⟩ []

theorem move_of_step {count rounds : ℕ} {i : ι} {sh sh' : Shared} {l l' : Local}
    {es : List (Event ι)} (h : step count rounds i () sh l = some (sh', l', es)) :
    Move count rounds i sh l sh' l' es := by
  unfold step at h
  split at h
  all_goals try split at h
  all_goals try contradiction
  all_goals
    obtain ⟨rfl, rfl, rfl⟩ : _ ∧ _ ∧ _ := by simpa using h
    constructor
  all_goals simp_all

end Barrier

/-- The workers `ι` at a barrier for all of them, each with a number of rounds. -/
def barrier (ι : Type*) [DecidableEq ι] [Fintype ι] (rounds : ℕ) :
    Machine (Config ι Barrier.Shared Barrier.Local) (ι × Unit) (Barrier.Event ι) :=
  interleave ⟨⟨Fintype.card ι, 0⟩, fun _ => ⟨0, .work⟩⟩ (Barrier.step (Fintype.card ι) rounds)

namespace Barrier

variable {ι : Type*} {count rounds : ℕ}

/-- The worker has not arrived in the phase, and has perhaps not left the one before. -/
def Local.missing (phase : ℕ) (l : Local) : ℕ :=
  match l.pc with
  | .work | .arrive => 1
  | .complete => 0
  | .wait token => if token = phase then 0 else 1

/-- The worker is about to run the completion function. -/
def Local.completing (l : Local) : ℕ := if l.pc = .complete then 1 else 0

/-- The lines that the worker has printed. -/
def Local.printed (l : Local) : ℕ := if l.pc = .work then l.round else l.round + 1

/-- The steps that a worker can still take. -/
def Local.size (rounds : ℕ) (l : Local) : ℕ :=
  4 * (rounds - l.round) +
    match l.pc with
    | .work => 3
    | .arrive => 2
    | .complete | .wait _ => 1

section

variable (r phase token : ℕ)

@[simp] theorem missing_work : (Local.mk r .work).missing phase = 1 := rfl
@[simp] theorem missing_arrive : (Local.mk r .arrive).missing phase = 1 := rfl
@[simp] theorem missing_complete : (Local.mk r .complete).missing phase = 0 := rfl
@[simp] theorem missing_wait :
    (Local.mk r (.wait token)).missing phase = if token = phase then 0 else 1 := rfl
@[simp] theorem completing_work : (Local.mk r .work).completing = 0 := rfl
@[simp] theorem completing_arrive : (Local.mk r .arrive).completing = 0 := rfl
@[simp] theorem completing_complete : (Local.mk r .complete).completing = 1 := rfl
@[simp] theorem completing_wait : (Local.mk r (.wait token)).completing = 0 := rfl

end

/-- Where a worker can be, given the phase: in the round of the phase, or still waiting in the round
before. -/
structure Placed (rounds phase : ℕ) (l : Local) : Prop where
  round : l.round = phase ∨ l.round + 1 = phase ∧ l.pc = .wait l.round
  token : ∀ token, l.pc = .wait token → token = l.round
  le : l.round ≤ rounds
  lt : l.pc ≠ .work → l.round < rounds

/-- The barrier expects the workers that are missing, and somebody completes the phase when nobody
is. -/
structure Sound [Fintype ι] (rounds : ℕ) (c : Config ι Shared Local) : Prop where
  placed : ∀ i, Placed rounds c.shared.phase (c.threads i)
  pending : c.shared.pending = c.census (Local.missing c.shared.phase)
  completing : c.census Local.completing = if c.shared.pending = 0 then 1 else 0

variable {c c' : Config ι Shared Local} {i j : ι} {sh sh' : Shared} {l l' : Local}
  {es h : List (Event ι)}

theorem Placed.move (hl : Placed rounds sh.phase l) (hmove : Move count rounds i sh l sh' l' es) :
    Placed rounds sh'.phase l' := by
  obtain ⟨hround, htoken, hle, hlt⟩ := hl
  cases hmove with
  | work r hr => exact ⟨.inl (by simpa using hround), by simp, hle, fun _ => hr⟩
  | last r hpending => exact ⟨.inl (by simpa using hround), by simp, hle, fun _ => hlt (by simp)⟩
  | arrive r hpending =>
    have hr : r = sh.phase := by simpa using hround
    exact ⟨.inl hr, by simp [hr], hle, fun _ => hlt (by simp)⟩
  | complete r => exact ⟨.inl (by simpa using hround), by simp, hlt (by simp), by simp⟩
  | leave r phase hphase =>
    have hr : phase = r := htoken phase rfl
    subst hr
    refine ⟨.inl ?_, by simp, hlt (by simp), by simp⟩
    rcases hround with h | ⟨h, -⟩
    · exact absurd h.symm hphase
    · exact h

theorem of_step_eq_none (h : step count rounds i () sh l = none) :
    l.pc = .work ∧ rounds ≤ l.round ∨ l.pc = .wait sh.phase := by
  rcases l with ⟨r, _ | _ | _ | token⟩
  · exact .inl ⟨rfl, by simpa [step] using h⟩
  · simp [step, ite_eq_iff] at h
  · simp [step] at h
  · have htoken : sh.phase = token := by simpa [step] using h
    exact .inr (by rw [htoken])

variable [DecidableEq ι]

/-! ### What is printed -/

/-- The rounds that worker `i` has printed, in order. -/
def lines (i : ι) (h : List (Event ι)) : List ℕ :=
  h.filterMap fun
    | .finished j r => if j = i then some r else none
    | .completed => none

/-- How often the completion function has run. -/
def completions (h : List (Event ι)) : ℕ := h.countP (· = .completed)

theorem lines_append (i : ι) (h h' : List (Event ι)) :
    lines i (h ++ h') = lines i h ++ lines i h' :=
  List.filterMap_append

@[simp] theorem lines_nil (i : ι) : lines i [] = [] := rfl

@[simp] theorem lines_finished (i j : ι) (r : ℕ) :
    lines i [.finished j r] = if j = i then [r] else [] := by
  by_cases hji : j = i <;> simp [lines, hji]

@[simp] theorem lines_completed (i : ι) : lines i [.completed] = [] := rfl

theorem completions_append (h h' : List (Event ι)) :
    completions (h ++ h') = completions h + completions h' :=
  List.countP_append

@[simp] theorem completions_nil : completions ([] : List (Event ι)) = 0 := rfl

@[simp] theorem completions_finished (i : ι) (r : ℕ) : completions [.finished i r] = 0 := rfl

@[simp] theorem completions_completed : completions [(.completed : Event ι)] = 1 := rfl

theorem Move.lines_eq (hmove : Move count rounds i sh l sh' l' es) :
    List.range l'.printed = List.range l.printed ++ lines i es := by
  cases hmove <;> simp [Local.printed, List.range_succ]

theorem Move.lines_of_ne (hmove : Move count rounds i sh l sh' l' es) (hji : j ≠ i) :
    lines j es = [] := by
  cases hmove <;> simp [Ne.symm hji]

theorem Move.completions_eq (hmove : Move count rounds i sh l sh' l' es) :
    sh'.phase = sh.phase + completions es := by
  cases hmove <;> simp

/-- What has been printed before a line: a worker that prints its line of a round has seen the
completion of all rounds before, and when a round is completed all workers have printed it. -/
def InTurn (pre : List (Event ι)) : Event ι → Prop
  | .finished i r => completions pre = r ∧ lines i pre = List.range r
  | .completed => ∀ j, lines j pre = List.range (completions pre + 1)

/-! ### Where the workers are -/

variable [Fintype ι]

omit [DecidableEq ι] in
theorem Sound.pending_eq_zero (hinv : Sound rounds c) (hi : (c.threads i).pc = .complete) :
    c.shared.pending = 0 := by
  have hle := c.le_census Local.completing i
  rw [hinv.completing, Local.completing, if_pos hi] at hle
  by_contra hpending
  simp [hpending] at hle

/-- Where the phase is completed, everybody else waits in it. -/
theorem Sound.wait_of_complete (hinv : Sound rounds c) (hi : (c.threads i).pc = .complete)
    (hji : j ≠ i) : c.threads j = ⟨c.shared.phase, .wait c.shared.phase⟩ := by
  have hpending := hinv.pending_eq_zero hi
  have hmissing : (c.threads j).missing c.shared.phase = 0 := by
    have hle := c.le_census (Local.missing c.shared.phase) j
    rw [← hinv.pending, hpending] at hle
    exact Nat.le_zero.mp hle
  have hother : (c.threads j).pc ≠ .complete := by
    -- Without worker `i` nobody completes the phase.
    have hcensus := c.census_set i c.shared ⟨0, .work⟩ Local.completing
    have hle := (c.set i c.shared ⟨0, .work⟩).le_census Local.completing j
    have hcompleting := hinv.completing
    intro hj
    simp only [hpending, if_true] at hcompleting
    simp only [c.set_threads_of_ne _ _ hji, Local.completing, hi, hj, if_true, reduceCtorEq,
      if_false] at hcensus hle
    omega
  have hplaced := hinv.placed j
  generalize c.threads j = l at hmissing hother hplaced
  rcases l with ⟨r, _ | _ | _ | token⟩
  · simp [Local.missing] at hmissing
  · simp [Local.missing] at hmissing
  · simp at hother
  · have htoken : token = c.shared.phase := by simpa [Local.missing] using hmissing
    have hround : token = r := hplaced.token token rfl
    rw [← hround, htoken]

/-- The completion of a phase keeps the invariant: everybody goes on to the next phase. -/
theorem Sound.complete (hinv : Sound rounds c) {r : ℕ} (hi : c.threads i = ⟨r, .complete⟩) :
    Sound rounds (c.set i ⟨Fintype.card ι, c.shared.phase + 1⟩ ⟨r + 1, .work⟩) := by
  have hwait : ∀ j, j ≠ i → c.threads j = ⟨c.shared.phase, .wait c.shared.phase⟩ := fun j hji =>
    hinv.wait_of_complete (by rw [hi]) hji
  have hplaced := hinv.placed
  have hmissing : ∀ j, ((c.set i ⟨Fintype.card ι, c.shared.phase + 1⟩ ⟨r + 1, .work⟩).threads
      j).missing (c.shared.phase + 1) = 1 :=
    c.forall_set i _ _ (P := fun _ l => l.missing (c.shared.phase + 1) = 1) rfl fun j hji => by
      simp [hwait j hji, Local.missing]
  have hround : r = c.shared.phase := by simpa [hi] using (hplaced i).round
  refine ⟨?_, ?_, ?_⟩
  · refine c.forall_set i _ _ (P := fun _ l => Placed rounds (c.shared.phase + 1) l) ?_
      fun j hji => ?_
    · exact ⟨.inl (by rw [hround]), by simp, (hi ▸ (hplaced i).lt) (by simp), by simp⟩
    · have hj := hplaced j
      rw [hwait j hji] at hj ⊢
      exact ⟨.inr ⟨rfl, rfl⟩, hj.token, hj.le, hj.lt⟩
  · simp only [Config.set_shared, Config.census, hmissing]
    simp
  · have hcensus := c.census_set i ⟨Fintype.card ι, c.shared.phase + 1⟩ ⟨r + 1, .work⟩
      Local.completing
    have hcompleting := hinv.completing
    have hcard : Fintype.card ι ≠ 0 := (Fintype.card_pos_iff.mpr ⟨i⟩).ne'
    simp only [hinv.pending_eq_zero (i := i) (by rw [hi]), if_true] at hcompleting
    simp only [hi, Local.completing, if_true, reduceCtorEq, if_false] at hcensus
    simp only [Config.set_shared, hcard, if_false]
    omega

theorem Sound.move (hinv : Sound rounds c)
    (hmove : Move (Fintype.card ι) rounds i c.shared (c.threads i) sh' l' es) :
    Sound rounds (c.set i sh' l') := by
  have hplaced := (hinv.placed i).move hmove
  have hothers : sh'.phase = c.shared.phase → ∀ j, Placed rounds sh'.phase
      ((c.set i sh' l').threads j) := fun hphase =>
    c.forall_set i sh' l' (P := fun _ l => Placed rounds sh'.phase l) hplaced fun j _ => by
      rw [hphase]
      exact hinv.placed j
  have hmissing := c.census_set i sh' l' (Local.missing c.shared.phase)
  have hcompleting := c.census_set i sh' l' Local.completing
  have hpos := c.le_census (Local.missing c.shared.phase) i
  have hpending := hinv.pending
  have hwas := hinv.completing
  have hcomplete := @Sound.complete _ _ c i _ _ hinv
  generalize hl : c.threads i = l at hmove hmissing hcompleting hpos hcomplete
  cases hmove with
  | complete r => exact hcomplete rfl
  | work r hr =>
    simp only [missing_work, missing_arrive, completing_work, completing_arrive]
      at hmissing hcompleting
    exact ⟨hothers rfl, by rw [Config.set_shared]; omega, by rw [Config.set_shared]; omega⟩
  | last r hlast =>
    simp only [missing_arrive, missing_complete, completing_arrive, completing_complete]
      at hmissing hcompleting
    simp only [hlast, if_false, one_ne_zero] at hwas hpending
    exact ⟨hothers rfl, by simp only [Config.set_shared]; omega,
      by simp only [Config.set_shared, if_true]; omega⟩
  | arrive r hlast =>
    simp only [missing_arrive, missing_wait, if_true, completing_arrive, completing_wait]
      at hmissing hcompleting hpos
    have hmore : c.shared.pending ≠ 0 ∧ c.shared.pending - 1 ≠ 0 := by omega
    simp only [hmore.1, if_false] at hwas
    exact ⟨hothers rfl, by simp only [Config.set_shared]; omega,
      by simp only [Config.set_shared, hmore.2, if_false]; omega⟩
  | leave r token hphase =>
    simp only [missing_wait, Ne.symm hphase, if_false, missing_work, completing_wait,
      completing_work] at hmissing hcompleting
    exact ⟨hothers rfl, by rw [Config.set_shared]; omega, by rw [Config.set_shared]; omega⟩

theorem sound_of_run [Nonempty ι] (hrun : (barrier ι rounds).Run (barrier ι rounds).init h c) :
    Sound rounds c := by
  refine hrun.invariant (fun c _ => Sound rounds c) ⟨fun i => ?_, ?_, ?_⟩ ?_
  · exact ⟨.inl rfl, by simp [barrier], Nat.zero_le _, by simp [barrier]⟩
  · simp [barrier, Config.census, Local.missing]
  · simp [barrier, Config.census, Local.completing]
  · rintro h c c' es ⟨i, ⟨⟩⟩ - hinv - hnext
    obtain ⟨sh, l, hstep, rfl⟩ := interleave_next_eq_some.mp hnext
    exact hinv.move (move_of_step hstep)

/-- What has been printed, for every run. -/
theorem printed_of_run (hrun : (barrier ι rounds).Run (barrier ι rounds).init h c) :
    completions h = c.shared.phase ∧ ∀ i, lines i h = List.range (c.threads i).printed := by
  refine hrun.invariant (fun c h => completions h = c.shared.phase ∧
    ∀ i, lines i h = List.range (c.threads i).printed) ⟨rfl, fun _ => rfl⟩ ?_
  rintro h c c' es ⟨i, ⟨⟩⟩ - ⟨hcompletions, hlines⟩ - hnext
  obtain ⟨sh, l, hstep, rfl⟩ := interleave_next_eq_some.mp hnext
  have hmove := move_of_step hstep
  refine ⟨?_, c.forall_set i sh l
    (P := fun j l => lines j (h ++ es) = List.range l.printed) ?_ fun j hji => ?_⟩
  · rw [completions_append, hcompletions, Config.set_shared, hmove.completions_eq]
  · rw [lines_append, hlines, hmove.lines_eq]
  · rw [lines_append, hlines, hmove.lines_of_ne hji, List.append_nil]

theorem inTurn_of_move [Nonempty ι] (hrun : (barrier ι rounds).Run (barrier ι rounds).init h c)
    {e : Event ι} (hmove : Move (Fintype.card ι) rounds i c.shared (c.threads i) sh' l' [e]) :
    InTurn h e := by
  obtain ⟨hcompletions, hlines⟩ := printed_of_run hrun
  have hinv := sound_of_run hrun
  have hplaced := (hinv.placed i).round
  have hi := hlines i
  generalize hl : c.threads i = l at hmove hplaced hi
  cases hmove with
  | work r hr =>
    have hround : r = c.shared.phase := by simpa using hplaced
    exact ⟨by rw [hcompletions, hround], by simpa [Local.printed] using hi⟩
  | complete r =>
    have hround : r = c.shared.phase := by simpa using hplaced
    intro j
    rw [hcompletions, hlines j]
    by_cases hji : j = i
    · subst hji
      simp [hl, Local.printed, hround]
    · simp [hinv.wait_of_complete (by rw [hl]) hji, Local.printed]

omit [DecidableEq ι] [Fintype ι] in
theorem Move.size_lt {sh : Shared} {l : Local} (hplaced : Placed rounds sh.phase l)
    (hmove : Move count rounds i sh l sh' l' es) : l'.size rounds < l.size rounds := by
  have hlt := hplaced.lt
  cases hmove with
  | work r hr => simp [Local.size]
  | last r hpending => simp [Local.size]
  | arrive r hpending => simp [Local.size]
  | complete r =>
    have hr : r < rounds := hlt (by simp)
    simp only [Local.size]
    omega
  | leave r token hphase =>
    have hr : r < rounds := hlt (by simp)
    simp only [Local.size]
    omega

omit [DecidableEq ι] in
/-- Workers that have all arrived leave one of them to complete the phase. -/
theorem Sound.exists_not_wait [Nonempty ι] (hinv : Sound rounds c) :
    ∃ i, (c.threads i).pc ≠ .wait c.shared.phase := by
  by_contra hall
  push Not at hall
  have hmissing : c.census (Local.missing c.shared.phase) = 0 := by
    simp [Config.census, Local.missing, hall]
  have hcompleting : c.census Local.completing = 0 := by
    simp [Config.census, Local.completing, hall]
  have hone := hinv.completing
  rw [hinv.pending, hmissing, hcompleting] at hone
  simp at hone

theorem finished_of_terminal [Nonempty ι] (hinv : Sound rounds c)
    (hterminal : ∀ x, (barrier ι rounds).next c x = none) (i : ι) :
    c.threads i = ⟨rounds, .work⟩ := by
  have hstuck : ∀ i, (c.threads i).pc = .work ∧ rounds ≤ (c.threads i).round ∨
      (c.threads i).pc = .wait c.shared.phase := fun i =>
    of_step_eq_none (by simpa [barrier, interleave] using hterminal (i, ()))
  obtain ⟨k, hk⟩ := hinv.exists_not_wait
  obtain ⟨hwork, hdone⟩ := (hstuck k).resolve_right hk
  -- Worker `k` is in the round of the phase, which is therefore beyond the last one.
  have hphase : rounds ≤ c.shared.phase := by
    have hround := (hinv.placed k).round
    simp only [hwork, reduceCtorEq, and_false, or_false] at hround
    omega
  have hi := hinv.placed i
  rcases hstuck i with ⟨hpc, hround⟩ | hpc
  · exact Local.ext (le_antisymm hi.le hround) hpc
  · have htoken := hi.token _ hpc
    have hlt := hi.lt (by simp [hpc])
    omega

omit [DecidableEq ι] in
theorem Sound.phase_eq [Nonempty ι] (hinv : Sound rounds c)
    (hfinished : ∀ i, c.threads i = ⟨rounds, .work⟩) : c.shared.phase = rounds := by
  obtain ⟨i⟩ := ‹Nonempty ι›
  have hround := (hinv.placed i).round
  simpa [hfinished i, eq_comm] using hround

omit [DecidableEq ι] [Fintype ι] in
theorem Move.length_le {sh : Shared} {l : Local} (hmove : Move count rounds i sh l sh' l' es) :
    es.length ≤ 1 := by
  cases hmove <;> simp

/-- **The phases of the barrier.** A worker prints its line of a round when the completion function
has run for each round before and not for this one, and after it has printed the rounds before. The
completion function runs when all workers have printed the line of the round. Every schedule comes
to an end, and there all workers have printed all rounds and each round has been completed. -/
theorem barrier_phases [Nonempty ι] (hrun : (barrier ι rounds).Run (barrier ι rounds).init h c) :
    (∀ pre e post, h = pre ++ e :: post → InTurn pre e) ∧
      (barrier ι rounds).Inevitable (fun _ _ => True)
        (fun c => ∀ i, c.threads i = ⟨rounds, .work⟩) c ∧
      ((∀ i, c.threads i = ⟨rounds, .work⟩) →
        completions h = rounds ∧ ∀ i, lines i h = List.range rounds) := by
  refine ⟨?_, ?_, fun hfinished => ?_⟩
  · refine hrun.forall_event fun {h c c' es} x hrun _ hnext pre e post hes => ?_
    obtain ⟨sh, l, hstep, -⟩ := interleave_next_eq_some.mp hnext
    have hmove := move_of_step hstep
    have hlength := hmove.length_le
    rw [hes, List.length_append, List.length_cons] at hlength
    obtain rfl : pre = [] := List.eq_nil_of_length_eq_zero (by omega)
    obtain rfl : post = [] := List.eq_nil_of_length_eq_zero (by omega)
    rw [List.append_nil]
    exact inTurn_of_move hrun (by simpa [hes] using hmove)
  · refine Machine.inevitable_of_terminal (I := Sound rounds) _
      (fun c => c.census (Local.size rounds)) ?_ ?_ (sound_of_run hrun)
    · rintro c c' es ⟨i, ⟨⟩⟩ hinv - hnext
      obtain ⟨sh, l, hstep, rfl⟩ := interleave_next_eq_some.mp hnext
      have hmove := move_of_step hstep
      have hcensus := c.census_set i sh l (Local.size rounds)
      have hlt := hmove.size_lt (hinv.placed i)
      exact ⟨hinv.move hmove, by omega⟩
    · exact fun c hinv hterminal => finished_of_terminal hinv fun x => hterminal x trivial
  · obtain ⟨hcompletions, hlines⟩ := printed_of_run hrun
    refine ⟨by rw [hcompletions, (sound_of_run hrun).phase_eq hfinished], fun i => ?_⟩
    rw [hlines, hfinished]
    rfl

/-- Two workers, the first of which waits for the second one. -/
theorem barrier_phases_two : ∃ c h, (barrier (Fin 2) 2).Run (barrier (Fin 2) 2).init h c ∧
    (∀ i, c.threads i = ⟨2, .work⟩) ∧ completions h = 2 ∧
    ∀ pre e post, h = pre ++ e :: post → InTurn pre e := by
  obtain ⟨c, h, hrun, hc⟩ := Machine.exists_run_of_exec (M := barrier (Fin 2) 2)
    [(0, ()), (0, ()), (1, ()), (1, ()), (1, ()), (1, ()), (0, ()), (1, ()), (0, ()), (0, ()),
      (0, ()), (1, ())]
    (f := fun r => [r.1.threads 0, r.1.threads 1]) (b := [⟨2, .work⟩, ⟨2, .work⟩]) (by decide)
  simp only [List.cons.injEq, and_true] at hc
  have hfinished : ∀ i, c.threads i = ⟨2, .work⟩ := Fin.forall_fin_two.mpr hc
  have hphases := barrier_phases hrun
  exact ⟨c, h, hrun, hfinished, (hphases.2.2 hfinished).1, hphases.1⟩

end Barrier

end Multithreading.Sync
