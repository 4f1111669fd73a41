import Multithreading.Ipc.HandshakeLaw

/-!
# A second run of the handshake

Both processes of a run are killed, and the program is started again. It removes the shared memory
of the first run, but opens the two semaphores as they are, so a token that was in a semaphore when
the first run was cut is an additional token of the second run. A leftover of `writeDoneSema` lets
the child take the initial zero for the end. A leftover of `readDoneSema` lets the parent overwrite
a line before the child has printed it.

The two schedules that show this give one process the priority over the other. With the priority at
the child, the child has gone before the parent writes. With the priority at the parent, the child
is one round behind when the parent has reached the end of its input.

## Main definitions

* `Handshake.RestartLaw` — a run from given named objects prints one round for each line, and
  nobody is blocked for ever.
* `Handshake.Priority` — the runs in which one process moves whenever it can.
* `Handshake.Ahead` — the invariant of a parent with the priority and a leftover of
  `readDoneSema`.

## Main results

* `Handshake.restartLaw_iff_opened` — the law holds for an input without lines, and otherwise
  exactly for semaphores without a leftover.
* `Handshake.opened_eq_zero_iff` — the cuts of a run that leave no token in a semaphore.
* `Handshake.restartLaw_iff` — the law of a second run by the place where the first run was cut.
-/

open Transition Memory

namespace Multithreading.Ipc

namespace Handshake

/-- In every run no process is blocked for ever, and when both processes have exited the child has
printed one round for each line, in order. -/
def RestartLaw (prog : Program) (kernel : Kernel) (lines : List Line) : Prop :=
  ∀ h s, (handshake prog kernel lines).Run (handshake prog kernel lines).init h s →
    Released (handshake prog kernel lines) State.Exited s ∧
      ((∀ p, s.Exited p) → printed h = lines.map .ofLine)

/-- Without a leftover the law is the one of the first run. -/
theorem restartLaw_of_opened_eq_zero {prog : Program} {kernel : Kernel} {lines : List Line}
    (hzero : ∀ x, (kernel.sema x).opened.value = 0)
    (hlines : ∀ input ∈ lines, toUInt32 input.length ≠ 0) : RestartLaw prog kernel lines := by
  intro h s hrun
  obtain ⟨-, hstops, hreleased⟩ := deliveryLaw_of_size_ne_zero hzero hlines h s hrun
  refine ⟨hreleased, fun hexited => (hstops ?_).2⟩
  rw [show s.child = .exited from hexited .child]
  rfl

/-! ### The fork -/

theorem size_foldl_setup (prog : Program) (kernel : Kernel) :
    (prog.setup.foldl Kernel.setup kernel).sharedData.mMessageSize = 0 := by
  cases prog <;> rfl

/-- The steps of the parent through the calls of the setup and the fork. -/
theorem run_fork {prog : Program} {kernel : Kernel} {lines : List Line} (calls : List SetupCall)
    (k : Kernel) : (handshake prog kernel lines).Run ⟨k, lines, .setup calls, .notForked⟩ []
      ⟨calls.foldl Kernel.setup k, lines, .getline, .waitWrite⟩ := by
  induction calls generalizing k with
  | nil => exact Machine.RunIf.single (a := .parent) trivial rfl
  | cons c calls ih =>
    have hstep : (handshake prog kernel lines).Run ⟨k, lines, .setup (c :: calls), .notForked⟩ []
        ⟨k.setup c, lines, .setup calls, .notForked⟩ :=
      Machine.RunIf.single (a := .parent) trivial rfl
    exact hstep.trans (ih (k.setup c))

/-! ### Priority -/

/-- The process `q` moves whenever it can. -/
def Priority (prog : Program) (q : Proc) (s : State) (p : Proc) : Prop :=
  p = q ∨ step prog s q = none

theorem Priority.terminal {prog : Program} {q : Proc} {s : State}
    (hterminal : ∀ p, Priority prog q s p → step prog s p = none) (p : Proc) :
    step prog s p = none :=
  hterminal p (.inr (hterminal q (.inl rfl)))

/-- Under the law, a run with a priority comes to the exit of both processes. -/
theorem RestartLaw.exists_exited {prog : Program} {kernel : Kernel} {lines : List Line}
    (hlaw : RestartLaw prog kernel lines) (q : Proc) :
    ∃ h t, (handshake prog kernel lines).RunIf (Priority prog q)
      ⟨prog.setup.foldl Kernel.setup kernel, lines, .getline, .waitWrite⟩ h t ∧
        (∀ p, t.Exited p) ∧ printed h = lines.map .ofLine := by
  obtain ⟨h, t, hrun, -, hterminal⟩ := Machine.exists_runIf_terminal
    (M := handshake prog kernel lines) (I := fun _ => True)
    (s := ⟨prog.setup.foldl Kernel.setup kernel, lines, .getline, .waitWrite⟩)
    (Priority prog q) State.weight (fun _ _ _ hstep => ⟨trivial, weight_lt_of_step hstep⟩) trivial
  obtain ⟨hreleased, hprinted⟩ := hlaw _ t ((run_fork prog.setup kernel).trans hrun.run)
  have hexited := hreleased.exited (Priority.terminal hterminal)
  exact ⟨h, t, hrun, hexited, hprinted hexited⟩

/-! ### A leftover of `writeDoneSema` -/

/-- A child that has the leftover and the priority leaves before the parent has written anything. -/
structure Early (h : List Event) (s : State) : Prop where
  forked : ∀ calls, s.parent ≠ .setup calls
  printed : printed h = []
  leaves : s.child = .exited ∨ s.parent = .getline ∧ s.kernel.sharedData.mMessageSize = 0 ∧
    (s.child = .waitWrite ∧ (s.kernel.sema .writeDone).value ≠ 0 ∨ s.child = .test ∨
      s.child = .closeRead ∨ s.child = .closeWrite)

theorem Early.move {prog : Program} {h : List Event} {s s' : State} {p : Proc} {es : List Event}
    (hinv : Early h s) (hok : Priority prog .child s p) (hmove : Move prog s p s' es) :
    Early (h ++ es) s' := by
  obtain ⟨hforked, hprinted, hexited | ⟨hparent, hsize, hchild⟩⟩ := hinv
  · cases hmove <;>
      exact ⟨by simp_all, by simp_all [Handshake.printed], .inl (by simp_all)⟩
  · have hcan : step prog s .child ≠ none := by
      rcases hchild with ⟨hpc, hvalue⟩ | hpc | hpc | hpc
      · obtain ⟨n, hn⟩ := Nat.exists_eq_succ_of_ne_zero hvalue
        simp [step, childStep, hpc, hn]
      all_goals simp [step, childStep, hpc, hsize]
    obtain rfl : p = .child := hok.resolve_right hcan
    cases hmove <;> exact ⟨hforked, by simp_all [Handshake.printed], by simp_all⟩

/-- With a leftover of `writeDoneSema` the child can leave without a round. -/
theorem RestartLaw.eq_nil_of_writeDone {prog : Program} {kernel : Kernel} {lines : List Line}
    (hlaw : RestartLaw prog kernel lines) (hvalue : (kernel.sema .writeDone).opened.value ≠ 0) :
    lines = [] := by
  obtain ⟨h, t, hrun, -, hprinted⟩ := hlaw.exists_exited .child
  have hearly : Early h t := by
    refine hrun.invariant (fun s h => Early h s) ⟨by simp, rfl, .inr ⟨rfl,
      size_foldl_setup prog kernel, .inl ⟨rfl, ?_⟩⟩⟩
      fun p _ hinv hok hnext => hinv.move hok (move_of_step hnext)
    rwa [value_foldl_setup]
  simpa [hearly.printed] using hprinted

/-! ### A leftover of `readDoneSema` -/

/-- The child is about to post a round that it prints. -/
def Child.isPrinting : Child → Bool
  | printSize | printContent _ | post => true
  | _ => false

/-- The rounds that have been printed and not yet posted. -/
def Child.posting : Child → ℕ
  | post => 1
  | _ => 0

/-- The lines for which the parent has not yet passed `readDoneSema`. -/
def State.pending (s : State) : ℕ := s.cin.length + s.parent.input.length

/-- The parent passes `readDoneSema` once for each posted round and once for each unit of a
leftover. -/
theorem pending_move {prog : Program} {s s' : State} {p : Proc} {es : List Event}
    (hforked : ∀ calls, s.parent ≠ .setup calls) (hmove : Move prog s p s' es) :
    (s'.kernel.sema .readDone).value + s'.child.posting + s.pending =
      (printed es).length + (s.kernel.sema .readDone).value + s.child.posting + s'.pending := by
  cases hmove with
  | setup _ _ hpc | fork hpc => exact absurd hpc (hforked _)
  | _ => simp_all [printed, State.pending, Parent.input, Child.posting] <;> omega

/-- A parent with the priority and the leftover `n` of `readDoneSema` does not leave the leftover
behind: it has another line to write when it has not taken it. -/
structure Ahead (n : ℕ) (s : State) : Prop where
  forked : ∀ calls, s.parent ≠ .setup calls
  stored : s.parent.Stored s.kernel.sharedData
  ended : s.parent.hasEnded = true → s.cin = []
  value_le : (s.kernel.sema .readDone).value ≤ n
  untaken : (s.kernel.sema .readDone).value = n →
    s.parent.hasEnded = false ∧ (s.parent = .getline → s.cin ≠ [])
  printing : s.child.isPrinting = true →
    (∃ input, s.parent = .waitRead input) ∧ (s.kernel.sema .readDone).value = 0

namespace Ahead

variable {prog : Program} {n : ℕ} {s s' : State} {p : Proc} {es : List Event}

theorem exists_waitRead (hinv : Ahead n s) (hblocked : step prog s .parent = none)
    (hsize : s.kernel.sharedData.mMessageSize ≠ 0) :
    (∃ input, s.parent = .waitRead input) ∧ (s.kernel.sema .readDone).value = 0 := by
  rcases parent_of_step_eq_none hblocked with ⟨input, hwait, hvalue⟩ | ⟨hwait, -⟩ | hexited
  · exact ⟨⟨input, hwait⟩, hvalue⟩
  · exact absurd (Parent.size_of_hasStopped (by rw [hwait]; rfl) hinv.stored) hsize
  · exact absurd (Parent.size_of_hasStopped (by rw [hexited]; rfl) hinv.stored) hsize

theorem move (hn : n ≠ 0) (hinv : Ahead n s) (hok : Priority prog .parent s p)
    (hmove : Move prog s p s' es) : Ahead n s' where
  forked := by
    have hforked := hinv.forked
    cases hmove <;> simp_all
  stored := stored_move hinv.forked hinv.stored hmove
  ended := by
    have hforked := hinv.forked
    have hended := hinv.ended
    cases hmove <;> simp_all [Parent.hasEnded]
  value_le := by
    have hle := hinv.value_le
    cases hmove with
    | setup _ _ hpc => exact absurd hpc (hinv.forked _)
    | postRead hpc =>
      have hvalue := (hinv.printing (by rw [hpc]; rfl)).2
      simp [hvalue]
      omega
    | _ => simp_all <;> omega
  untaken := by
    have huntaken := hinv.untaken
    have hle := hinv.value_le
    cases hmove with
    | setup _ _ hpc | fork hpc => exact absurd hpc (hinv.forked _)
    | postRead hpc =>
      obtain ⟨⟨input, hwait⟩, -⟩ := hinv.printing (by rw [hpc]; rfl)
      intro _
      simp [hwait, Parent.hasEnded]
    | waitRead input m hpc hvalue =>
      simp
      omega
    | _ => simp_all [Parent.hasEnded]
  printing := by
    have hprinting := hinv.printing
    cases hmove with
    | setup _ _ hpc | fork hpc => exact absurd hpc (hinv.forked _)
    | test hpc hsize =>
      exact fun _ => hinv.exists_waitRead (hok.resolve_left (by simp)) hsize
    | _ => simp_all [Child.isPrinting]

end Ahead

/-- With a leftover of `readDoneSema` the parent can end its input one round too early. -/
theorem RestartLaw.eq_nil_of_readDone {prog : Program} {kernel : Kernel} {lines : List Line}
    (hlaw : RestartLaw prog kernel lines) (hvalue : (kernel.sema .readDone).opened.value ≠ 0) :
    lines = [] := by
  by_contra hlines
  obtain ⟨h, t, hrun, hexited, hprinted⟩ := hlaw.exists_exited .parent
  obtain ⟨hahead, hcount⟩ : Ahead (kernel.sema .readDone).opened.value t ∧
      lines.length + (t.kernel.sema .readDone).value + t.child.posting =
        t.pending + (kernel.sema .readDone).opened.value + (printed h).length := by
    refine hrun.invariant (fun s h => Ahead (kernel.sema .readDone).opened.value s ∧
      lines.length + (s.kernel.sema .readDone).value + s.child.posting =
        s.pending + (kernel.sema .readDone).opened.value + (printed h).length) ⟨?_, ?_⟩ ?_
    · refine ⟨by simp, trivial, by simp [Parent.hasEnded], ?_, ?_, by simp [Child.isPrinting]⟩
      · simp [value_foldl_setup]
      · exact fun _ => ⟨rfl, fun _ => hlines⟩
    · simp [value_foldl_setup, State.pending, Parent.input, Child.posting, printed]
    · rintro h' s s' es p - ⟨hinv, hcount⟩ hok hnext
      have hpending := pending_move hinv.forked (move_of_step hnext)
      refine ⟨hinv.move hvalue hok (move_of_step hnext), ?_⟩
      rw [printed_append, List.length_append]
      omega
  have hparent : t.parent = .exited := hexited .parent
  have hchild : t.child = .exited := hexited .child
  have hcin := hahead.ended (by rw [hparent]; rfl)
  simp only [hprinted, State.pending, hcin, hparent, hchild, Parent.input, Child.posting,
    List.length_map, List.length_nil] at hcount
  obtain ⟨hended, -⟩ := hahead.untaken (by omega)
  simp [hparent, Parent.hasEnded] at hended

/-! ### An input without lines -/

/-- The invariant of an input without lines, for any leftover. After the fork the size field stays
zero, and the child finds the token of the parent when there is no other. -/
structure Quiet (s : State) : Prop where
  cin : s.cin = []
  size : s.kernel.sharedData.mMessageSize = 0
  parent : s.parent = .getline ∨ s.parent.hasEnded = true
  child : s.child.isPrinting = false ∧ s.child ≠ .notForked
  posted : s.child = .waitWrite → s.parent.hasStopped = true → (s.kernel.sema .writeDone).value ≠ 0

/-- Before the fork of a run without lines. -/
def Preparing (s : State) : Prop :=
  s.cin = [] ∧ s.child = .notForked ∧ ∃ calls, s.parent = .setup calls ∧
    (calls.foldl Kernel.setup s.kernel).sharedData.mMessageSize = 0

theorem Quiet.move {prog : Program} {s s' : State} {p : Proc} {es : List Event} (hinv : Quiet s)
    (hmove : Move prog s p s' es) : Quiet s' ∧ printed es = [] := by
  obtain ⟨hcin, hsize, hparent, hchild, hposted⟩ := hinv
  cases hmove with
  | setup _ _ hpc | fork hpc => simp [hpc, Parent.hasEnded] at hparent
  | _ =>
    refine ⟨⟨?_, ?_, ?_, ?_, ?_⟩, ?_⟩ <;>
      simp_all [Parent.hasEnded, Parent.hasStopped, Child.isPrinting, printed]

theorem Preparing.move {prog : Program} {s s' : State} {p : Proc} {es : List Event}
    (hinv : Preparing s) (hmove : Move prog s p s' es) :
    (Preparing s' ∨ Quiet s') ∧ printed es = [] := by
  obtain ⟨hcin, hchild, calls, hcalls, hsize⟩ := hinv
  cases hmove with
  | setup c rest hpc =>
    obtain rfl : calls = c :: rest := by simpa [hcalls] using hpc
    exact ⟨.inl ⟨hcin, hchild, rest, rfl, hsize⟩, rfl⟩
  | fork hpc =>
    obtain rfl : calls = [] := by simpa [hcalls] using hpc
    exact ⟨.inr ⟨hcin, hsize, .inl rfl, by simp [Child.isPrinting], by simp [Parent.hasStopped]⟩,
      rfl⟩
  | _ => simp_all

theorem Quiet.exited_of_terminal {prog : Program} {s : State} (hinv : Quiet s)
    (hterminal : ∀ p, step prog s p = none) (p : Proc) : s.Exited p := by
  obtain ⟨-, -, hparent, ⟨-, hforked⟩, hposted⟩ := hinv
  have hexited : s.child = .exited → ∀ p, s.Exited p := by
    intro hchild p
    rcases parent_of_step_eq_none (hterminal .parent) with ⟨input, hpc, -⟩ | ⟨-, hpc⟩ | hpc
    · simp [hpc, Parent.hasEnded] at hparent
    · exact absurd hchild hpc
    · cases p <;> assumption
  rcases child_of_step_eq_none (hterminal .child) with hchild | ⟨hchild, hvalue⟩ | hchild
  · exact absurd hchild hforked
  · rcases parent_of_step_eq_none (hterminal .parent) with ⟨input, hpc, -⟩ | ⟨hpc, -⟩ | hpc
    · simp [hpc, Parent.hasEnded] at hparent
    · exact absurd hvalue (hposted hchild (by rw [hpc]; rfl))
    · exact absurd hvalue (hposted hchild (by rw [hpc]; rfl))
  · exact hexited hchild p

theorem restartLaw_nil (prog : Program) (kernel : Kernel) : RestartLaw prog kernel [] := by
  intro h s hrun
  have hstep : ∀ {s s' : State} {p : Proc} {es : List Event}, (Preparing s ∨ Quiet s) →
      step prog s p = some (s', es) → (Preparing s' ∨ Quiet s') ∧ printed es = [] := by
    rintro s s' p es (hpreparing | hquiet) hnext
    · exact hpreparing.move (move_of_step hnext)
    · exact (hquiet.move (move_of_step hnext)).imp_left .inr
  obtain ⟨hinv, hprinted⟩ : (Preparing s ∨ Quiet s) ∧ printed h = [] := by
    refine hrun.invariant (fun s h => (Preparing s ∨ Quiet s) ∧ printed h = [])
      ⟨.inl ⟨rfl, rfl, prog.setup, rfl, size_foldl_setup prog kernel⟩, rfl⟩ ?_
    rintro h t u es p - ⟨hinv, hprinted⟩ - hnext
    obtain ⟨hinv', hes⟩ := hstep hinv hnext
    exact ⟨hinv', by rw [printed_append, hprinted, hes]; rfl⟩
  refine ⟨released_of_terminal (I := fun s => Preparing s ∨ Quiet s) (fun _ _ => True) State.weight
    (fun p hs _ hnext => ⟨(hstep hs hnext).1, weight_lt_of_step hnext⟩) exited_frame ?_ hinv,
    fun _ => hprinted⟩
  rintro t (⟨-, -, calls, hcalls, -⟩ | hquiet) hterminal
  · have hblocked := hterminal .parent trivial
    cases calls <;> simp [handshake, step, parentStep, hcalls] at hblocked
  · exact hquiet.exited_of_terminal fun p => hterminal p trivial

/-- The law of a run from any named objects: without lines it holds, and otherwise exactly for
semaphores without a leftover. -/
theorem restartLaw_iff_opened {prog : Program} {kernel : Kernel} {lines : List Line}
    (hlines : ∀ input ∈ lines, toUInt32 input.length ≠ 0) :
    RestartLaw prog kernel lines ↔ lines = [] ∨ ∀ x, (kernel.sema x).opened.value = 0 := by
  constructor
  · intro hlaw
    by_contra hcon
    obtain ⟨hne, x, hx⟩ : lines ≠ [] ∧ ∃ x, (kernel.sema x).opened.value ≠ 0 := by
      simpa only [not_or, not_forall] using hcon
    cases x
    · exact hne (hlaw.eq_nil_of_writeDone hx)
    · exact hne (hlaw.eq_nil_of_readDone hx)
  · rintro (rfl | hzero)
    · exact restartLaw_nil prog kernel
    · exact restartLaw_of_opened_eq_zero hzero hlines

/-! ### The cut of the first run -/

theorem Semaphore.opened_of_linked {sema : Semaphore} (h : sema.linked = true) :
    sema.opened = sema := by
  simp [Semaphore.opened, h]

theorem Semaphore.opened_value_of_value {sema : Semaphore} (h : sema.value = 0) :
    sema.opened.value = 0 := by
  rw [Semaphore.opened]
  split
  · exact h
  · rfl

@[simp] theorem Semaphore.opened_opened (sema : Semaphore) : sema.opened.opened = sema.opened := by
  by_cases h : sema.linked = true <;> simp [Semaphore.opened, h]

theorem opened_setup (k : Kernel) (c : SetupCall) (x : Sema) :
    ((k.setup c).sema x).opened = (k.sema x).opened := by
  cases c with
  | makeSemaphore y =>
    by_cases h : x = y
    · subst h
      simp [Kernel.setup]
    · simp [Kernel.setup, h]
  | shmOpen =>
    simp only [Kernel.setup]
    split <;> rfl
  | _ => rfl

theorem linked_foldl_setup (prog : Program) (kernel : Kernel) (x : Sema) :
    ((prog.setup.foldl Kernel.setup kernel).sema x).linked = true := by
  cases prog <;> cases x <;> simp [Program.setup, Kernel.setup, Semaphore.opened] <;> split <;>
    simp_all

/-- The names of the semaphores: the setup keeps what the program has found, and after the fork they
are linked as long as the child has not exited. -/
def Linked (kernel : Kernel) (s : State) : Prop :=
  (s.child = .notForked ∧ (∀ x, (s.kernel.sema x).opened = (kernel.sema x).opened) ∧
    ∃ calls, s.parent = .setup calls ∧
      ∀ x, ((calls.foldl Kernel.setup s.kernel).sema x).linked = true) ∨
  (s.child ≠ .notForked ∧ (∀ calls, s.parent ≠ .setup calls) ∧
    (s.child ≠ .exited → (∀ calls, s.parent ≠ .cleanup calls) ∧
      ∀ x, (s.kernel.sema x).linked = true))

theorem Linked.move {prog : Program} {kernel : Kernel} {s s' : State} {p : Proc} {es : List Event}
    (hinv : Linked kernel s) (hmove : Move prog s p s' es) : Linked kernel s' := by
  rcases hinv with ⟨hchild, hopened, calls, hcalls, hlinked⟩ | ⟨hchild, hsetup, hlinked⟩
  · cases hmove with
    | setup c rest hpc =>
      obtain rfl : calls = c :: rest := by simpa [hcalls] using hpc
      exact .inl ⟨hchild, fun x => (opened_setup s.kernel c x).trans (hopened x), rest, rfl,
        hlinked⟩
    | fork hpc =>
      obtain rfl : calls = [] := by simpa [hcalls] using hpc
      exact .inr ⟨by simp, by simp, fun _ => ⟨by simp, hlinked⟩⟩
    | _ => simp_all
  · cases hmove with
    | setup _ _ hpc | fork hpc => exact absurd hpc (hsetup _)
    | _ => exact .inr (by simp_all)

section Cut

variable {prog : Program} {kernel : Kernel} {lines lines₀ : List Line} {h₀ : List Event}
  {s₀ : State}

theorem linked_of_run
    (hcut : (handshake prog kernel lines₀).Run (handshake prog kernel lines₀).init h₀ s₀) :
    Linked kernel s₀ :=
  hcut.invariant (fun s _ => Linked kernel s)
    (.inl ⟨rfl, fun _ => rfl, prog.setup, rfl, linked_foldl_setup prog kernel⟩)
    fun _ _ hinv _ hnext => hinv.move (move_of_step hnext)

/-- The run has not yet forked, or one of its processes has the token, so that no semaphore has
it. -/
def State.Settled (s : State) : Prop := s.child = .notForked ∨ s.parent.token + s.child.token = 1

/-- The cuts of a run that leave no token in a semaphore. -/
theorem opened_eq_zero_iff (hzero : ∀ x, (kernel.sema x).opened.value = 0)
    (hcut : (handshake prog kernel lines₀).Run (handshake prog kernel lines₀).init h₀ s₀) :
    (∀ x, (s₀.kernel.sema x).opened.value = 0) ↔ s₀.Settled := by
  rcases linked_of_run hcut with ⟨hchild, hopened, -⟩ | ⟨hchild, -, hlinked⟩
  · simp only [State.Settled, hchild, hopened, hzero, implies_true, true_or]
  · rcases inv_of_run hzero hcut with hstarting | hrunning
    · exact absurd hstarting.child hchild
    · have htoken := hrunning.token
      have hsettled : s₀.Settled ↔ ∀ x, (s₀.kernel.sema x).value = 0 := by
        simp only [State.Settled, hchild, false_or]
        constructor
        · intro hheld x
          cases x <;> omega
        · intro hvalue
          have hw := hvalue .writeDone
          have hr := hvalue .readDone
          omega
      rw [hsettled]
      refine ⟨fun hopened x => ?_, fun hvalue x => Semaphore.opened_value_of_value (hvalue x)⟩
      by_cases hexited : s₀.child = .exited
      · simp only [hexited, Child.token] at htoken
        cases x <;> omega
      · rw [← Semaphore.opened_of_linked ((hlinked hexited).2 x)]
        exact hopened x

/-- **Restart.** A second run after a first one that was killed at any point of any interleaving,
and that itself found no leftover: for an input without lines the law holds, and otherwise exactly
when the first run was killed before its fork or while one of its processes had the token. -/
theorem restartLaw_iff (hzero : ∀ x, (kernel.sema x).opened.value = 0)
    (hcut : (handshake prog kernel lines₀).Run (handshake prog kernel lines₀).init h₀ s₀)
    (hlines : ∀ input ∈ lines, input ≠ [] ∧ input.length < 2 ^ 32) :
    RestartLaw prog s₀.kernel lines ↔ lines = [] ∨ s₀.Settled := by
  rw [restartLaw_iff_opened, opened_eq_zero_iff hzero hcut]
  intro input hinput
  obtain ⟨hne, hlt⟩ := hlines input hinput
  rw [toUInt32, Nat.mod_eq_of_lt hlt]
  exact fun hlen => hne (List.eq_nil_of_length_eq_zero hlen)

end Cut

/-- A first run that is killed while the parent writes leaves nothing behind. -/
theorem restartLaw_of_cut_while_writing : ∃ h s,
    (handshake .shmIntro .fresh [[97]]).Run (handshake .shmIntro .fresh [[97]]).init h s ∧
      s.parent = .memcpy [97] ∧ RestartLaw .shmIntro s.kernel [[98], [99]] := by
  obtain ⟨s, h, hrun, hs⟩ := Machine.exists_run_of_exec (M := handshake .shmIntro .fresh [[97]])
    (List.replicate 11 .parent) (f := fun r => (r.1.parent, r.1.child))
    (b := (.memcpy [97], .waitWrite)) (by decide)
  obtain ⟨hparent, hchild⟩ := Prod.mk.inj hs
  dsimp only at hparent hchild
  refine ⟨h, s, hrun, hparent, ?_⟩
  refine (restartLaw_iff (fun _ => rfl) hrun (by decide)).mpr (.inr (.inr ?_))
  rw [hparent, hchild]
  rfl

/-- **The law fails** for a first run of one line that is killed after the first `sem_post` of its
parent, and a second run of one line. -/
theorem not_restartLaw :
    ¬ ∀ prog kernel lines₀ h₀ s₀ lines, (∀ x, (Kernel.sema kernel x).opened.value = 0) →
      (handshake prog kernel lines₀).Run (handshake prog kernel lines₀).init h₀ s₀ →
        (∀ input ∈ lines, input ≠ [] ∧ input.length < 2 ^ 32) →
          RestartLaw prog s₀.kernel lines := by
  intro hlaw
  obtain ⟨s, h, hrun, hs⟩ := Machine.exists_run_of_exec (M := handshake .shmIntro .fresh [[97]])
    (List.replicate 14 .parent) (f := fun r => (r.1.kernel.sema .writeDone).opened.value)
    (b := 1) (by decide)
  have hlines := (hlaw .shmIntro .fresh [[97]] h s [[98]] (fun _ => rfl) hrun
    (by decide)).eq_nil_of_writeDone (by rw [hs]; decide)
  exact absurd hlines (by decide)

end Handshake

end Multithreading.Ipc
