import Multithreading.Stack.BufferedStack

/-!
# The counter of `BufferedLockFreeSPSCStack`

`m_head` counts the elements: it changes only in a successful compare-and-swap, by one. A thread
uses its copy of `m_head` after the swap, when the counter may have moved on, but the copy was the
counter at the moment of the swap, so it is in bounds. All this needs that the counter is stopped by
the test against `Capacity`, and the test is made after a conversion of an `int` to `size_t`. A
capacity above the greatest `int` is never reached, and the pushes go on up to the overflow.

## Main definitions

* `BufferedStack.pushWins`, `BufferedStack.popWins` — the successful compare-and-swaps.
* `BufferedStack.Occupancy` — the law of the counter and of the copies of it.
* `BufferedStack.Shared.InRange`, `BufferedStack.Local.InRange` — what is left of the law when the
  capacity is arbitrary.

## Main results

* `BufferedStack.inRange_of_run` — the counter is nonnegative and at most the capacity and the
  greatest `int`.
* `BufferedStack.Occupancy.move` — with a capacity that is an `int`, every step keeps the law.
* `BufferedStack.exists_run_head` — with a greater one, the counter reaches every `int`.
* `BufferedStack.occupancy_iff` — the law holds exactly for the capacities that are an `int`.
-/

open Transition Memory

namespace Multithreading.Stack.BufferedStack

variable {ι α : Type*}

/-- The successful compare-and-swaps of `Push`. -/
def pushWins (h : List (Event ι α)) : ℕ :=
  h.countP fun | .pushed _ _ => true | _ => false

/-- The successful compare-and-swaps of `Pop`. -/
def popWins (h : List (Event ι α)) : ℕ :=
  h.countP fun | .popped _ => true | _ => false

theorem pushWins_append (h h' : List (Event ι α)) :
    pushWins (h ++ h') = pushWins h + pushWins h' :=
  List.countP_append

theorem popWins_append (h h' : List (Event ι α)) : popWins (h ++ h') = popWins h + popWins h' :=
  List.countP_append

@[simp] theorem pushWins_casFailure (i : ι) (head top : ℤ) :
    pushWins [(casFailure i head top : Event ι α)] = 0 := by
  rw [casFailure]
  split <;> rfl

@[simp] theorem popWins_casFailure (i : ι) (head top : ℤ) :
    popWins [(casFailure i head top : Event ι α)] = 0 := by
  rw [casFailure]
  split <;> rfl

/-- The sums that a thread is about to evaluate are in the range of `int`, and the indices that it
is about to use are in the bounds of the array. -/
def Local.InBounds (capacity : ℕ) : Local α → Prop
  | pushCas _ top => Fits (top + 1)
  | popCas top => Fits (top - 1)
  | pushWrite _ top => 0 ≤ top ∧ top < capacity
  | popRead top => 0 ≤ top - 1 ∧ top - 1 < capacity
  | _ => True

/-- The counter is the number of successful swaps of `Push` minus the number of those of `Pop` and
between zero and the capacity, no sum of a thread overflows, and no index of a thread is out of
bounds. -/
structure Occupancy (capacity : ℕ) (c : Config ι (Shared α) (Local α)) (h : List (Event ι α)) :
    Prop where
  head : c.shared.mHead = (pushWins h : ℤ) - popWins h
  nonneg : 0 ≤ c.shared.mHead
  room : c.shared.mHead ≤ capacity
  inBounds : ∀ i, (c.threads i).InBounds capacity
  faultless : ∀ i f, .fault i f ∉ h

variable {residue : α → α} {capacity : ℕ} {mayCall : ι → Op α → Bool} {i : ι} {sh sh' : Shared α}
  {x : Action α} {l l' : Local α} {es : List (Event ι α)}

/-! ### Any capacity -/

/-- What is known of the counter, whatever the capacity is. -/
def Shared.InRange (capacity : ℕ) (sh : Shared α) : Prop :=
  0 ≤ sh.mHead ∧ sh.mHead ≤ capacity ∧ sh.mHead ≤ intMax

/-- What is known of a copy of the counter, whatever the capacity is. -/
def Local.InRange (capacity : ℕ) : Local α → Prop
  | pushCas _ top | pushWrite _ top => 0 ≤ top ∧ top < capacity ∧ top ≤ intMax
  | popCas top | popRead top => 0 < top ∧ top ≤ capacity ∧ top ≤ intMax
  | _ => True

theorem Move.inRange (hmove : Move residue capacity mayCall i sh x l sh' l' es)
    (hsh : sh.InRange capacity) (hl : l.InRange capacity) :
    sh'.InRange capacity ∧ l'.InRange capacity := by
  obtain ⟨h0, hroom, hfits⟩ := hsh
  cases hmove with
  | pushLoad v hne =>
    have hsize := natCast_toSizeT sh.mHead h0 hfits
    exact ⟨⟨h0, hroom, hfits⟩, h0, lt_of_le_of_ne hroom fun heq => hne (by omega), hfits⟩
  | popLoad hzero =>
    exact ⟨⟨h0, hroom, hfits⟩, lt_of_le_of_ne h0 (Ne.symm hzero), hroom, hfits⟩
  | pushWin spurious v top hnext hhead =>
    obtain ⟨hl0, hlt, hle⟩ := hl
    exact ⟨⟨by simp only; omega, hlt, hnext.2⟩, hl0, hlt, hle⟩
  | popWin spurious top hnext hhead =>
    obtain ⟨hl0, hlt, hle⟩ := hl
    exact ⟨⟨by simp only; omega, by simp only; omega, hnext.2⟩, hl0, hlt, hle⟩
  | _ => exact ⟨⟨h0, hroom, hfits⟩, trivial⟩

/-- The counter is in its range in every run. -/
theorem inRange_of_run [DecidableEq ι] {init : α} {c : Config ι (Shared α) (Local α)}
    {h : List (Event ι α)}
    (hrun : (bufferedStack residue init capacity mayCall).Run
      (bufferedStack residue init capacity mayCall).init h c) : c.shared.InRange capacity := by
  refine (hrun.invariant (fun c _ => c.shared.InRange capacity ∧
    ∀ j, (c.threads j).InRange capacity) ⟨?_, fun _ => trivial⟩ ?_).1
  · exact ⟨le_rfl, Int.natCast_nonneg capacity, show (0 : ℤ) ≤ intMax by decide⟩
  · rintro h c c' es ⟨j, x⟩ - ⟨hsh, hl⟩ - hnext
    obtain ⟨sh', l', hstep, rfl⟩ := interleave_next_eq_some.mp hnext
    obtain ⟨hsh', hl'⟩ := (move_of_step hstep).inRange hsh (hl j)
    exact ⟨hsh', c.forall_set j sh' l' (P := fun _ l => l.InRange capacity) hl' fun k _ => hl k⟩

/-! ### A capacity that is an `int` -/

/-- What a thread knows of its copy of the counter. -/
def Local.Loaded (capacity : ℕ) : Local α → Prop
  | pushCas _ top | pushWrite _ top => 0 ≤ top ∧ top < capacity
  | popCas top | popRead top => 0 < top ∧ top ≤ capacity
  | undefined => False
  | _ => True

theorem Local.Loaded.inBounds (hmax : (capacity : ℤ) ≤ intMax) (hl : l.Loaded capacity) :
    l.InBounds capacity := by
  rw [intMax] at hmax
  cases l with
  | pushCas v top | popCas top =>
    obtain ⟨hlow, hhigh⟩ := hl
    rw [Local.InBounds, Fits, intMin, intMax]
    omega
  | pushWrite v top => exact hl
  | popRead top =>
    obtain ⟨hlow, hhigh⟩ := hl
    rw [Local.InBounds]
    omega
  | _ => trivial

/-- What a step does to the counter: it wins a swap at its copy of the counter, or leaves the
counter alone. -/
theorem Move.head_cases (hmove : Move residue capacity mayCall i sh x l sh' l' es) :
    (sh'.mHead = sh.mHead ∧ pushWins es = 0 ∧ popWins es = 0) ∨
      (∃ v, l = .pushCas v sh.mHead ∧ sh'.mHead = sh.mHead + 1 ∧ pushWins es = 1 ∧
        popWins es = 0) ∨
      (l = .popCas sh.mHead ∧ sh'.mHead = sh.mHead - 1 ∧ pushWins es = 0 ∧ popWins es = 1) := by
  cases hmove with
  | pushWin spurious v top hfits hhead =>
    exact .inr (.inl ⟨v, by rw [hhead], by rw [hhead], rfl, rfl⟩)
  | popWin spurious top hfits hhead => exact .inr (.inr ⟨by rw [hhead], by rw [hhead], rfl, rfl⟩)
  | pushLose | popLose => exact .inl ⟨rfl, by simp, by simp⟩
  | _ => exact .inl ⟨rfl, rfl, rfl⟩

theorem Move.loaded (hmove : Move residue capacity mayCall i sh x l sh' l' es)
    (hmax : (capacity : ℤ) ≤ intMax) (h0 : 0 ≤ sh.mHead) (hroom : sh.mHead ≤ capacity)
    (hl : l.Loaded capacity) : l'.Loaded capacity ∧ ∀ j f, .fault j f ∉ es := by
  have hbounds := hl.inBounds hmax
  cases hmove with
  | pushLoad v hne =>
    have hhead := natCast_toSizeT sh.mHead h0 (hroom.trans hmax)
    refine ⟨⟨h0, lt_of_le_of_ne hroom ?_⟩, by simp⟩
    intro heq
    exact hne (by omega)
  | popLoad hzero => exact ⟨⟨lt_of_le_of_ne h0 (Ne.symm hzero), hroom⟩, by simp⟩
  | pushOverflow spurious v top hfits => exact absurd hbounds hfits
  | popOverflow spurious top hfits => exact absurd hbounds hfits
  | pushBounds v top hbound =>
    have htop := natCast_toSizeT top hbounds.1 (hbounds.2.le.trans hmax)
    exact absurd hbounds.2 (by omega)
  | popBounds top hbound =>
    have htop := natCast_toSizeT (top - 1) hbounds.1 (hbounds.2.le.trans hmax)
    exact absurd hbounds.2 (by omega)
  | pushWin | popWin => exact ⟨hl, by simp⟩
  | pushLose | popLose =>
    exact ⟨trivial, fun j f hj => fault_ne_casFailure _ j f _ _ (List.mem_singleton.mp hj)⟩
  | _ => exact ⟨trivial, by simp⟩

variable [DecidableEq ι]

/-- With a capacity that is an `int`, every step keeps the law. -/
theorem Occupancy.move {c : Config ι (Shared α) (Local α)} {h : List (Event ι α)}
    (hmax : (capacity : ℤ) ≤ intMax)
    (hinv : Occupancy capacity c h ∧ ∀ j, (c.threads j).Loaded capacity)
    (hmove : Move residue capacity mayCall i c.shared x (c.threads i) sh' l' es) :
    Occupancy capacity (c.set i sh' l') (h ++ es) ∧
      ∀ j, ((c.set i sh' l').threads j).Loaded capacity := by
  obtain ⟨hocc, hloaded⟩ := hinv
  obtain ⟨hl', hfault⟩ := hmove.loaded hmax hocc.nonneg hocc.room (hloaded i)
  have hall : ∀ j, ((c.set i sh' l').threads j).Loaded capacity :=
    c.forall_set i sh' l' (P := fun _ l => l.Loaded capacity) hl' fun j _ => hloaded j
  have hhead := hocc.head
  have h0 := hocc.nonneg
  have hroom := hocc.room
  have hi := hloaded i
  refine ⟨⟨?_, ?_, ?_, fun j => (hall j).inBounds hmax, ?_⟩, hall⟩
  · rw [Config.set_shared, pushWins_append, popWins_append]
    rcases hmove.head_cases with ⟨hx, hp, hq⟩ | ⟨v, -, hx, hp, hq⟩ | ⟨-, hx, hp, hq⟩ <;> omega
  · rw [Config.set_shared]
    rcases hmove.head_cases with ⟨hx, -⟩ | ⟨v, -, hx, -⟩ | ⟨hl, hx, -⟩
    · omega
    · omega
    · rw [hl] at hi
      have hpos := hi.1
      omega
  · rw [Config.set_shared]
    rcases hmove.head_cases with ⟨hx, -⟩ | ⟨v, hl, hx, -⟩ | ⟨-, hx, -⟩
    · omega
    · rw [hl] at hi
      have hlt := hi.2
      omega
    · omega
  · intro j f hj
    rcases List.mem_append.mp hj with hold | hnew
    · exact hocc.faultless j f hold
    · exact hfault j f hnew

/-- With a capacity that is an `int`, the law holds in every run. -/
theorem occupancy_of_run {init : α} {c : Config ι (Shared α) (Local α)} {h : List (Event ι α)}
    (hmax : (capacity : ℤ) ≤ intMax)
    (hrun : (bufferedStack residue init capacity mayCall).Run
      (bufferedStack residue init capacity mayCall).init h c) : Occupancy capacity c h := by
  refine (hrun.invariant (fun c h => Occupancy capacity c h ∧
    ∀ j, (c.threads j).Loaded capacity) ⟨?_, fun _ => trivial⟩ ?_).1
  · exact ⟨rfl, le_rfl, by simp [bufferedStack], fun _ => trivial, by simp⟩
  · rintro h c c' es ⟨i, x⟩ - hinv - hnext
    obtain ⟨sh', l', hstep, rfl⟩ := interleave_next_eq_some.mp hnext
    exact Occupancy.move hmax hinv (move_of_step hstep)

/-! ### A greater capacity -/

/-- One push that is not disturbed, at a counter below the greatest `int`. -/
theorem exists_run_push {init : α} {c c₀ : Config ι (Shared α) (Local α)} {h : List (Event ι α)}
    {v : α} {n : ℕ} (hmax : intMax < capacity) (hpush : mayCall i (.push v) = true)
    (hrun : (bufferedStack residue init capacity mayCall).Run c₀ h c)
    (hidle : c.threads i = .idle) (hhead : c.shared.mHead = n) (hn : (n : ℤ) + 1 ≤ intMax) :
    ∃ h' c', (bufferedStack residue init capacity mayCall).Run c₀ h' c' ∧
      c'.threads i = .idle ∧ c'.shared.mHead = (n + 1 : ℕ) := by
  have hsize : toSizeT n = n := toSizeT_natCast (by omega)
  have hlt : n < capacity := by omega
  have hfits : Fits ((n : ℤ) + 1) := ⟨by rw [intMin]; omega, hn⟩
  have hcall := run_set i (.call (.push v)) c.shared (.pushLoad v) [.call i (.push v)] hrun
    (by simp [step, hidle, hpush])
  have hload := run_set i .tau c.shared (.pushCas v n) [.load i] hcall
    (by simp [step, hhead, hsize, hlt.ne])
  have hcas := run_set i (.cas false) { c.shared with mHead := n + 1 } (.pushWrite v n)
    [.pushed i v] hload (by simp [step, hhead, hfits])
  have hwrite := run_set i .tau (Shared.write { c.shared with mHead := n + 1 } n v) .pushed [] hcas
    (by simp [step, hsize, hlt])
  have hret := run_set i .tau (Shared.write { c.shared with mHead := n + 1 } n v) .idle
    [.ret i .pushed] hwrite (by simp [step])
  exact ⟨_, _, hret, by simp, by simp [Shared.write]⟩

/-- With a capacity above the greatest `int`, the counter reaches every `int` from zero on. -/
theorem exists_run_head (residue : α → α) (init : α) {v : α} (hmax : intMax < capacity)
    (hpush : mayCall i (.push v) = true) (n : ℕ) (hn : (n : ℤ) ≤ intMax) :
    ∃ h c, (bufferedStack residue init capacity mayCall).Run
      (bufferedStack residue init capacity mayCall).init h c ∧
        c.threads i = .idle ∧ c.shared.mHead = n := by
  induction n with
  | zero => exact ⟨[], _, .refl, rfl, rfl⟩
  | succ n ih =>
    push_cast at hn
    obtain ⟨h, c, hrun, hidle, hhead⟩ := ih (by omega)
    exact exists_run_push hmax hpush hrun hidle hhead hn

/-- **The counter.** For any threads of which one may push, and for every capacity, the law of the
counter holds in every reachable state exactly when the capacity is at most the greatest `int`. -/
theorem occupancy_iff {init : α} {v : α} (hpush : mayCall i (.push v) = true) :
    (∀ c h, (bufferedStack residue init capacity mayCall).Run
      (bufferedStack residue init capacity mayCall).init h c → Occupancy capacity c h) ↔
        capacity ≤ 2 ^ 31 - 1 := by
  have hcap : capacity ≤ 2 ^ 31 - 1 ↔ (capacity : ℤ) ≤ intMax := by
    rw [intMax]
    omega
  rw [hcap]
  refine ⟨fun hlaw => ?_, fun hmax c h hrun => occupancy_of_run hmax hrun⟩
  by_contra hmax
  rw [not_le] at hmax
  -- The thread has loaded the greatest `int` and is about to add one.
  obtain ⟨n, hn⟩ : ∃ n : ℕ, (n : ℤ) = intMax := ⟨2147483647, rfl⟩
  obtain ⟨h, c, hrun, hidle, hhead⟩ := exists_run_head residue init hmax hpush n hn.le
  have hsize : toSizeT c.shared.mHead ≠ capacity := by
    rw [hhead, toSizeT_natCast hn.le]
    omega
  have hcall := run_set i (.call (.push v)) c.shared (.pushLoad v) [.call i (.push v)] hrun
    (by simp [step, hidle, hpush])
  have hload := run_set i .tau c.shared (.pushCas v c.shared.mHead) [.load i] hcall
    (by simp [step, hsize])
  have hbounds := (hlaw _ _ hload).inBounds i
  rw [Config.set_threads_self, Local.InBounds, hhead, hn] at hbounds
  exact absurd hbounds.2 (by decide)

/-- Two processes, with the capacity 1024 and with the first capacity that is not an `int`. -/
theorem occupancy_of_two_processes :
    (∀ c h, (bufferedStack id (0 : ℤ) 1024 fun (_ : Fin 2) _ => true).Run
      (bufferedStack id (0 : ℤ) 1024 fun (_ : Fin 2) _ => true).init h c → Occupancy 1024 c h) ∧
    ¬ ∀ c h, (bufferedStack id (0 : ℤ) (2 ^ 31) fun (_ : Fin 2) _ => true).Run
      (bufferedStack id (0 : ℤ) (2 ^ 31) fun (_ : Fin 2) _ => true).init h c →
        Occupancy (2 ^ 31) c h :=
  ⟨(occupancy_iff (i := 0) (v := 0) rfl).mpr (by decide),
    fun hlaw => absurd ((occupancy_iff (i := 0) (v := 0) rfl).mp hlaw) (by decide)⟩

end Multithreading.Stack.BufferedStack
