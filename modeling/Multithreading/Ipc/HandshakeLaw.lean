import Multithreading.Ipc.Handshake

/-!
# Delivery through the shared memory

One token passes between the two processes: the parent has it while it writes, a posted semaphore
has it, and the child has it from the moment when it has passed `writeDoneSema`. A child that leaves
its loop keeps the token. Every step of either process lowers a measure, so a run comes to an end,
and what is left is to see which ends there are: both processes have exited, or the parent waits for
a child that has taken a line of size zero for the end.

## Main definitions

* `Handshake.printed` — the snapshots that the child has printed.
* `Handshake.Delivers`, `Handshake.DeliveryLaw` — one round for each line, and nobody blocked for
  ever.
* `Handshake.Running` — the invariant of the two loops.

## Main results

* `Handshake.inv_of_run` — the invariant, for every input.
* `Handshake.deliveryLaw_handshake_iff` — the law holds exactly for the inputs without a line of
  size zero.
-/

open Transition Memory

namespace Multithreading.Ipc

namespace Handshake

/-! ### The law -/

/-- The snapshots that the child has printed. -/
def printed (h : List Event) : List SharedData :=
  h.filterMap fun | .printed data => some data | _ => none

@[simp] theorem printed_append (h h' : List Event) : printed (h ++ h') = printed h ++ printed h' :=
  List.filterMap_append

/-- The parent is past its last `sem_post`. -/
def Parent.hasStopped : Parent → Bool
  | waitChild | cleanup _ | exited => true
  | _ => false

/-- The child is past its loop. -/
def Child.hasLeft : Child → Bool
  | closeRead | closeWrite | exited => true
  | _ => false

/-- The process has exited. -/
def State.Exited (s : State) : Proc → Prop
  | .parent => s.parent = .exited
  | .child => s.child = .exited

/-- The child has printed one round for each line, in order, and leaves its loop on the final zero
of the parent only, and no process is blocked for ever before its exit. -/
structure Delivers (prog : Program) (kernel : Kernel) (lines : List Line) (h : List Event)
    (s : State) : Prop where
  rounds : printed h <+: lines.map .ofLine
  stops : s.child.hasLeft = true → s.parent.hasStopped = true ∧ printed h = lines.map .ofLine
  released : Released (handshake prog kernel lines) State.Exited s

/-- The messages are delivered in every run. -/
def DeliveryLaw (prog : Program) (kernel : Kernel) (lines : List Line) : Prop :=
  ∀ h s, (handshake prog kernel lines).Run (handshake prog kernel lines).init h s →
    Delivers prog kernel lines h s

/-! ### The token -/

/-- The parent has found the end of its input. -/
def Parent.hasEnded : Parent → Bool
  | storeStop | postStop | waitChild | cleanup _ | exited => true
  | _ => false

/-- One while the parent may write to the shared memory. -/
def Parent.token : Parent → ℕ
  | setup _ | waitRead _ | waitChild | cleanup _ | exited => 0
  | _ => 1

/-- One from the moment when the child has passed `writeDoneSema`. -/
def Child.token : Child → ℕ
  | notForked | waitWrite => 0
  | _ => 1

/-- The line that the parent works on. -/
def Parent.input : Parent → List Line
  | storeSize input | memset input | memcpy input | log input | post input | waitRead input =>
    [input]
  | _ => []

/-- What the parent knows of the shared memory. -/
def Parent.Stored : Parent → SharedData → Prop
  | memset input, data => data.mMessageSize = toUInt32 input.length
  | memcpy input, data => data = ⟨toUInt32 input.length, .zero _⟩
  | log input, data | post input, data | waitRead input, data => data = .ofLine input
  | postStop, data | waitChild, data | cleanup _, data | exited, data => data.mMessageSize = 0
  | _, _ => True

/-- What the child knows of the shared memory. -/
def Child.Tested : Child → SharedData → Prop
  | printSize, data | post, data => data.mMessageSize ≠ 0
  | printContent size, data => data.mMessageSize = size ∧ size ≠ 0
  | closeRead, data | closeWrite, data | exited, data => data.mMessageSize = 0
  | _, _ => True

/-- The lines that the child has not yet printed. It has printed the line that the parent works on
when it is about to post `readDoneSema` or has posted it. -/
def State.unprinted (s : State) : List Line :=
  if s.child = .post ∨ (s.kernel.sema .readDone).value ≠ 0 then s.cin else s.parent.input ++ s.cin

/-- Before the fork. What is left of the setup leaves both semaphores at zero. -/
structure Starting (lines : List Line) (h : List Event) (s : State) : Prop where
  child : s.child = .notForked
  cin : s.cin = lines
  printed : printed h = []
  values : ∃ calls, s.parent = .setup calls ∧
    ∀ x, ((calls.foldl Kernel.setup s.kernel).sema x).value = 0

/-- After the fork. -/
structure Running (lines : List Line) (h : List Event) (s : State) : Prop where
  forked : s.child ≠ .notForked ∧ ∀ calls, s.parent ≠ .setup calls
  token : (s.kernel.sema .writeDone).value + (s.kernel.sema .readDone).value +
    s.parent.token + s.child.token = 1
  stored : s.parent.Stored s.kernel.sharedData
  tested : s.child.Tested s.kernel.sharedData
  ended : s.parent.hasEnded = true → s.cin = [] ∧ (s.kernel.sema .readDone).value = 0
  rounds : lines.map .ofLine = printed h ++ s.unprinted.map .ofLine
  sizes : ∀ data ∈ printed h, data.mMessageSize ≠ 0

theorem Child.tested_of_token {l : Child} (hl : l.token = 0) (data : SharedData) :
    l.Tested data := by
  cases l <;> simp [Child.token, Child.Tested] at hl ⊢

theorem Parent.size_of_hasStopped {l : Parent} (hl : l.hasStopped = true) {data : SharedData}
    (hdata : l.Stored data) : data.mMessageSize = 0 := by
  cases l <;> simp [Parent.hasStopped] at hl <;> exact hdata

theorem Parent.hasEnded_of_hasStopped {l : Parent} (hl : l.hasStopped = true) :
    l.hasEnded = true := by
  cases l <;> simp_all [Parent.hasStopped, Parent.hasEnded]

theorem Parent.eq_waitRead {l : Parent} (hsetup : ∀ calls, l ≠ .setup calls) (htoken : l.token = 0)
    (hstopped : l.hasStopped = false) : ∃ input, l = .waitRead input := by
  cases l <;> simp_all [Parent.token, Parent.hasStopped]

theorem stored_move {prog : Program} {s s' : State} {p : Proc} {es : List Event}
    (hforked : ∀ calls, s.parent ≠ .setup calls) (hstored : s.parent.Stored s.kernel.sharedData)
    (hmove : Move prog s p s' es) : s'.parent.Stored s'.kernel.sharedData := by
  cases hmove <;> simp_all [Parent.Stored, SharedData.ofLine, CharArray.ofBytes]

namespace Running

variable {prog : Program} {lines : List Line} {h : List Event} {s s' : State} {p : Proc}
  {es : List Event}

/-- While the child has the token and a line to print, the parent waits with this line. -/
theorem exists_waitRead (hinv : Running lines h s) (htoken : s.child.token = 1)
    (hsize : s.kernel.sharedData.mMessageSize ≠ 0) :
    ∃ input, s.parent = .waitRead input ∧ s.kernel.sharedData = .ofLine input ∧
      (s.kernel.sema .readDone).value = 0 := by
  have hsum := hinv.token
  have hstopped : s.parent.hasStopped = false := by
    by_contra hstopped
    exact hsize (Parent.size_of_hasStopped (by simpa using hstopped) hinv.stored)
  obtain ⟨input, hinput⟩ := Parent.eq_waitRead hinv.forked.2 (by omega) hstopped
  have hstored := hinv.stored
  rw [hinput] at hstored
  exact ⟨input, hinput, hstored, by omega⟩

theorem token_move (hinv : Running lines h s) (hmove : Move prog s p s' es) :
    (s'.kernel.sema .writeDone).value + (s'.kernel.sema .readDone).value +
      s'.parent.token + s'.child.token = 1 := by
  have hforked := hinv.forked
  have htoken := hinv.token
  cases hmove <;> simp_all [Parent.token, Child.token] <;> omega

theorem tested_move (hinv : Running lines h s) (hmove : Move prog s p s' es) :
    s'.child.Tested s'.kernel.sharedData := by
  have hforked := hinv.forked
  have htoken := hinv.token
  have htested := hinv.tested
  cases hmove with
  | storeSize _ hpc | memset _ hpc | memcpy _ hpc | storeStop hpc =>
    have hchild : s.child.token = 0 := by
      rw [hpc] at htoken
      simp only [Parent.token] at htoken
      omega
    exact Child.tested_of_token hchild _
  | _ => simp_all [Child.Tested]

/-- The parent has the token when it finds the end of its input, and the child, which has nothing
to print from then on, does not post again. -/
theorem ended_move (hinv : Running lines h s) (hmove : Move prog s p s' es) :
    s'.parent.hasEnded = true → s'.cin = [] ∧ (s'.kernel.sema .readDone).value = 0 := by
  have hforked := hinv.forked
  have hended := hinv.ended
  cases hmove with
  | inputEnds hpc hcin =>
    have htoken := hinv.token
    rw [hpc] at htoken
    simp only [Parent.token] at htoken
    exact fun _ => ⟨hcin, show (s.kernel.sema .readDone).value = 0 by omega⟩
  | postRead hpc =>
    have htested := hinv.tested
    rw [hpc] at htested
    obtain ⟨input, hwait, -, -⟩ := hinv.exists_waitRead (by rw [hpc]; rfl) htested
    intro hend
    simp [hwait, Parent.hasEnded] at hend
  | _ => simp_all [Parent.hasEnded]

theorem not_acked (hinv : Running lines h s) (htoken : s.parent.token = 1) :
    ¬ (s.child = .post ∨ (s.kernel.sema .readDone).value ≠ 0) := by
  have hsum := hinv.token
  rintro (hpost | hvalue)
  · rw [hpost] at hsum
    simp only [Child.token] at hsum
    omega
  · omega

/-- A step leaves the lines to be printed alone, or prints the first of them, which has not size
zero. -/
theorem unprinted_move (hinv : Running lines h s) (hmove : Move prog s p s' es) :
    printed es = [] ∧ s'.unprinted = s.unprinted ∨
      ∃ input, printed es = [.ofLine input] ∧ s.unprinted = input :: s'.unprinted ∧
        (SharedData.ofLine input).mMessageSize ≠ 0 := by
  have htoken := hinv.token
  cases hmove with
  | setup _ _ hpc | fork hpc => exact absurd hpc (hinv.forked.2 _)
  | getline input cin hpc hcin =>
    have hacked := hinv.not_acked (by rw [hpc]; rfl)
    refine .inl ⟨rfl, ?_⟩
    simp [State.unprinted, Parent.input, hpc, hcin, hacked]
  | waitRead input n hpc hvalue =>
    -- The token was in the semaphore, so its value is now zero and the child is not posting.
    have hchild : s.child ≠ .post := by
      intro hpost
      rw [hpost] at htoken
      simp only [Child.token] at htoken
      omega
    have hzero : n = 0 := by omega
    refine .inl ⟨rfl, ?_⟩
    simp [State.unprinted, Parent.input, hvalue, hzero, hchild]
  | printContent size hpc =>
    have htested := hinv.tested
    rw [hpc] at htested
    have hsize : s.kernel.sharedData.mMessageSize ≠ 0 := htested.1.symm ▸ htested.2
    obtain ⟨input, hwait, hdata, hvalue⟩ := hinv.exists_waitRead (by rw [hpc]; rfl) hsize
    refine .inr ⟨input, ?_, ?_, hdata ▸ hsize⟩
    · rw [← hdata]
      simp [printed, ← htested.1]
    · simp [State.unprinted, Parent.input, hwait, hpc, hvalue]
  | _ =>
    refine .inl ⟨rfl, ?_⟩
    simp_all [State.unprinted, Parent.input]

theorem move (hinv : Running lines h s) (hmove : Move prog s p s' es) :
    Running lines (h ++ es) s' where
  forked := by
    have hforked := hinv.forked
    cases hmove <;> simp_all
  token := hinv.token_move hmove
  stored := stored_move hinv.forked.2 hinv.stored hmove
  tested := hinv.tested_move hmove
  ended := hinv.ended_move hmove
  rounds := by
    rw [hinv.rounds]
    rcases hinv.unprinted_move hmove with ⟨hes, hsame⟩ | ⟨input, hes, hcons, -⟩
    · simp [hes, hsame]
    · simp [hes, hcons]
  sizes := by
    have hsizes := hinv.sizes
    rcases hinv.unprinted_move hmove with ⟨hes, -⟩ | ⟨input, hes, -, hsize⟩
    · simpa [hes] using hsizes
    · intro data hdata
      rcases List.mem_append.mp (printed_append h es ▸ hdata) with hold | hnew
      · exact hsizes data hold
      · rw [hes] at hnew
        exact List.mem_singleton.mp hnew ▸ hsize

end Running

theorem Starting.move {prog : Program} {lines : List Line} {h : List Event} {s s' : State}
    {p : Proc} {es : List Event} (hinv : Starting lines h s) (hmove : Move prog s p s' es) :
    Starting lines (h ++ es) s' ∨ Running lines (h ++ es) s' := by
  obtain ⟨hchild, hcin, hprinted, calls, hcalls, hvalues⟩ := hinv
  cases hmove with
  | setup c rest hpc =>
    obtain rfl : calls = c :: rest := by simpa [hcalls] using hpc
    exact .inl ⟨hchild, hcin, by simpa using hprinted, rest, rfl, hvalues⟩
  | fork hpc =>
    obtain rfl : calls = [] := by simpa [hcalls] using hpc
    have hw := hvalues .writeDone
    have hr := hvalues .readDone
    simp only [List.foldl_nil] at hw hr
    refine .inr ⟨by simp, ?_, trivial, trivial, by simp [Parent.hasEnded], ?_, ?_⟩
    · simp [hw, hr, Parent.token, Child.token]
    · simp [State.unprinted, Parent.input, hr, hcin, hprinted]
    · simp [hprinted]
  | _ => simp_all

theorem value_foldl_setup (prog : Program) (kernel : Kernel) (x : Sema) :
    ((prog.setup.foldl Kernel.setup kernel).sema x).value = (kernel.sema x).opened.value := by
  cases prog <;> cases x <;> simp [Program.setup, Kernel.setup]

/-- The invariant of the whole program. -/
def Inv (lines : List Line) (h : List Event) (s : State) : Prop :=
  Starting lines h s ∨ Running lines h s

theorem Inv.step {prog : Program} {lines : List Line} {h : List Event} {s s' : State} {p : Proc}
    {es : List Event} (hinv : Inv lines h s) (hstep : step prog s p = some (s', es)) :
    Inv lines (h ++ es) s' :=
  hinv.elim (fun hstarting => hstarting.move (move_of_step hstep))
    fun hrunning => .inr (hrunning.move (move_of_step hstep))

/-- The invariant, for every input. -/
theorem inv_of_run {prog : Program} {kernel : Kernel} {lines : List Line} {h : List Event}
    {s : State} (hzero : ∀ x, (kernel.sema x).opened.value = 0)
    (hrun : (handshake prog kernel lines).Run (handshake prog kernel lines).init h s) :
    Inv lines h s := by
  refine hrun.invariant (fun s h => Inv lines h s) (.inl ?_) fun p _ hinv _ hnext => hinv.step hnext
  exact ⟨rfl, rfl, rfl, prog.setup, rfl, fun x => (value_foldl_setup prog kernel x).trans (hzero x)⟩

/-! ### The end of a run -/

/-- A bound on the steps of the parent, from its program counter on, without the lines to come. -/
def Parent.weight : Parent → ℕ
  | setup calls => 16 + calls.length
  | getline => 15
  | storeSize _ => 26
  | memset _ => 25
  | memcpy _ => 24
  | log _ => 23
  | post _ => 22
  | waitRead _ => 15
  | storeStop => 14
  | postStop => 13
  | waitChild => 6
  | cleanup calls => 1 + calls.length
  | exited => 0

/-- A bound on the steps of the child in the current round. -/
def Child.weight : Child → ℕ
  | notForked | waitWrite | exited => 0
  | test => 5
  | printSize => 4
  | printContent _ => 3
  | post => 2
  | closeRead => 2
  | closeWrite => 1

/-- A bound on the steps of both processes. -/
def State.weight (s : State) : ℕ :=
  12 * s.cin.length + s.parent.weight + 6 * (s.kernel.sema .writeDone).value +
    (s.kernel.sema .readDone).value + s.child.weight

theorem value_setup_le (k : Kernel) (c : SetupCall) (x : Sema) :
    ((k.setup c).sema x).value ≤ (k.sema x).value := by
  cases c with
  | makeSemaphore y =>
    by_cases h : x = y
    · subst h
      simp only [Kernel.setup, Function.update_self, Semaphore.opened]
      split <;> simp
    · simp [Kernel.setup, h]
  | shmOpen =>
    simp only [Kernel.setup]
    split <;> rfl
  | _ => exact le_rfl

theorem weight_lt_of_step {prog : Program} {s s' : State} {p : Proc} {es : List Event}
    (h : step prog s p = some (s', es)) : s'.weight < s.weight := by
  have hcleanup : prog.cleanup.length ≤ 4 := by cases prog <;> simp [Program.cleanup]
  cases move_of_step h with
  | setup c calls hpc =>
    have hw := value_setup_le s.kernel c .writeDone
    have hr := value_setup_le s.kernel c .readDone
    simp only [State.weight, hpc, Parent.weight, List.length_cons]
    omega
  | _ => simp_all [State.weight, Parent.weight, Child.weight] <;> omega

theorem parent_of_step_eq_none {prog : Program} {s : State} (h : step prog s .parent = none) :
    (∃ input, s.parent = .waitRead input ∧ (s.kernel.sema .readDone).value = 0) ∨
      (s.parent = .waitChild ∧ s.child ≠ .exited) ∨ s.parent = .exited := by
  rw [step, parentStep] at h
  split at h <;> simp_all <;> split at h <;> simp_all

theorem child_of_step_eq_none {prog : Program} {s : State} (h : step prog s .child = none) :
    s.child = .notForked ∨ (s.child = .waitWrite ∧ (s.kernel.sema .writeDone).value = 0) ∨
      s.child = .exited := by
  rw [step, childStep] at h
  split at h <;> simp_all <;> split at h <;> simp_all

/-- Without a line of size zero, a child that has left its loop has taken the final zero. -/
theorem Running.hasStopped_of_hasLeft {lines : List Line} {h : List Event} {s : State}
    (hinv : Running lines h s) (hlines : ∀ input ∈ lines, toUInt32 input.length ≠ 0)
    (hleft : s.child.hasLeft = true) :
    s.parent.hasStopped = true ∧ printed h = lines.map .ofLine := by
  have htoken := hinv.token
  have hchild : s.child.token = 1 ∧ s.child ≠ .post := by
    cases hc : s.child <;> simp_all [Child.hasLeft, Child.token]
  have hsize : s.kernel.sharedData.mMessageSize = 0 := by
    have htested := hinv.tested
    cases hc : s.child <;> simp_all [Child.hasLeft, Child.Tested]
  have hstopped : s.parent.hasStopped = true := by
    by_contra hstopped
    obtain ⟨input, hparent⟩ := Parent.eq_waitRead hinv.forked.2 (by omega) (by simpa using hstopped)
    have hstored := hinv.stored
    rw [hparent] at hstored
    have hread : (s.kernel.sema .readDone).value = 0 := by omega
    have hmem : SharedData.ofLine input ∈ lines.map .ofLine := by
      rw [hinv.rounds]
      simp [State.unprinted, hchild.2, hread, hparent, Parent.input]
    obtain ⟨line, hline, heq⟩ := List.mem_map.mp hmem
    refine hlines line hline ?_
    rw [← hsize, hstored, ← heq]
    rfl
  refine ⟨hstopped, ?_⟩
  obtain ⟨hcin, hread⟩ := hinv.ended (Parent.hasEnded_of_hasStopped hstopped)
  have hinput : s.parent.input = [] := by
    cases hp : s.parent <;> simp_all [Parent.hasStopped, Parent.input]
  simp [hinv.rounds, State.unprinted, hcin, hinput]

/-- Without a line of size zero, both processes have exited when neither can move. -/
theorem Running.exited_of_terminal {prog : Program} {lines : List Line} {h : List Event} {s : State}
    (hinv : Running lines h s) (hlines : ∀ input ∈ lines, toUInt32 input.length ≠ 0)
    (hterminal : ∀ p, step prog s p = none) (p : Proc) : s.Exited p := by
  have htoken := hinv.token
  rcases child_of_step_eq_none (hterminal .child) with hchild | ⟨hchild, hvalue⟩ | hchild
  · exact absurd hchild hinv.forked.1
  · -- The token is in `readDoneSema`, which the parent still waits for.
    exfalso
    rcases parent_of_step_eq_none (hterminal .parent) with
      ⟨input, hparent, hread⟩ | ⟨hparent, -⟩ | hparent
    · simp only [hparent, hchild, Parent.token, Child.token] at htoken
      omega
    · have hended := hinv.ended (by rw [hparent]; rfl)
      simp only [hparent, hchild, Parent.token, Child.token] at htoken
      omega
    · have hended := hinv.ended (by rw [hparent]; rfl)
      simp only [hparent, hchild, Parent.token, Child.token] at htoken
      omega
  · obtain ⟨hstopped, -⟩ := hinv.hasStopped_of_hasLeft hlines (by rw [hchild]; rfl)
    rcases parent_of_step_eq_none (hterminal .parent) with ⟨input, hparent, -⟩ | hparent | hparent
    · simp [hparent, Parent.hasStopped] at hstopped
    · exact absurd hchild hparent.2
    · cases p
      · exact hparent
      · exact hchild

theorem exited_frame {prog : Program} {s s' : State} {p q : Proc} {es : List Event} (hqp : q ≠ p)
    (h : step prog s q = some (s', es)) (hs' : s'.Exited p) : s.Exited p := by
  cases move_of_step h <;> cases p <;> simp_all [State.Exited]

theorem Starting.exists_step {prog : Program} {lines : List Line} {h : List Event} {s : State}
    (hinv : Starting lines h s) : step prog s .parent ≠ none := by
  obtain ⟨-, -, -, calls, hcalls, -⟩ := hinv
  cases calls <;> simp [step, parentStep, hcalls]

section Law

variable {prog : Program} {kernel : Kernel} {lines : List Line}

/-- Without a line of size zero the law holds. -/
theorem deliveryLaw_of_size_ne_zero (hzero : ∀ x, (kernel.sema x).opened.value = 0)
    (hlines : ∀ input ∈ lines, toUInt32 input.length ≠ 0) : DeliveryLaw prog kernel lines := by
  intro h s hrun
  have hinv := inv_of_run hzero hrun
  refine ⟨?_, ?_, released_of_terminal (I := fun s => ∃ h, Inv lines h s) (fun _ _ => True)
    State.weight ?_ exited_frame ?_ ⟨h, hinv⟩⟩
  · rcases hinv with hstarting | hrunning
    · simp [hstarting.printed]
    · exact ⟨_, hrunning.rounds.symm⟩
  · intro hleft
    rcases hinv with hstarting | hrunning
    · simp [hstarting.child, Child.hasLeft] at hleft
    · exact hrunning.hasStopped_of_hasLeft hlines hleft
  · rintro t u es p ⟨h', ht⟩ - hstep
    exact ⟨⟨h' ++ es, ht.step hstep⟩, weight_lt_of_step hstep⟩
  · rintro t ⟨h', hstarting | hrunning⟩ hterminal
    · exact absurd (hterminal .parent trivial) hstarting.exists_step
    · exact hrunning.exited_of_terminal hlines fun p => hterminal p trivial

/-- When the law holds, both processes come to their exit, and the child has printed every line;
and it never prints a line of size zero. -/
theorem DeliveryLaw.size_ne_zero (hzero : ∀ x, (kernel.sema x).opened.value = 0)
    (hlaw : DeliveryLaw prog kernel lines) : ∀ input ∈ lines, toUInt32 input.length ≠ 0 := by
  obtain ⟨h, s, hrun, -, hterminal⟩ := Machine.exists_runIf_terminal
    (M := handshake prog kernel lines) (s := (handshake prog kernel lines).init)
    (I := fun _ => True) (fun _ _ => True) State.weight
    (fun _ _ _ hstep => ⟨trivial, weight_lt_of_step hstep⟩) trivial
  obtain ⟨-, hstops, hreleased⟩ := hlaw h s hrun
  have hexited : s.child = .exited := hreleased.exited (fun p => hterminal p trivial) .child
  obtain ⟨-, hprinted⟩ := hstops (by rw [hexited]; rfl)
  intro input hinput
  rcases inv_of_run hzero hrun with hstarting | hrunning
  · exact absurd (hterminal .parent trivial) hstarting.exists_step
  · exact hrunning.sizes (.ofLine input) (hprinted ▸ List.mem_map_of_mem hinput)

/-! ### The law fails for an empty line -/

/-- No named object is left from an earlier run. -/
def Kernel.fresh : Kernel := ⟨fun _ => ⟨false, 0⟩, false, .initial⟩

/-- A run that ends with the child gone and the parent waiting for it breaks the law. -/
theorem not_deliveryLaw_of_exec (labels : List Proc) (input : Line)
    (hexec : ((handshake prog kernel lines).exec (handshake prog kernel lines).init labels).map
      (fun r => (r.1.parent, r.1.child, (r.1.kernel.sema .readDone).value)) =
        some (.waitRead input, .exited, 0)) : ¬ DeliveryLaw prog kernel lines := by
  intro hlaw
  obtain ⟨s, h, hrun, hs⟩ := Machine.exists_run_of_exec _ _ hexec
  obtain ⟨hparent, hs⟩ := Prod.mk.inj hs
  obtain ⟨hchild, hvalue⟩ := Prod.mk.inj hs
  dsimp only at hparent hchild hvalue
  have hterminal : ∀ p, (handshake prog kernel lines).next s p = none := by
    intro p
    cases p <;> simp [handshake, step, parentStep, childStep, hparent, hchild, hvalue]
  have hexited : s.parent = .exited := (hlaw h s hrun).released.exited hterminal .parent
  simp [hparent] at hexited

/-- The steps of the parent up to the `sem_wait` of its first line, and the steps of the child up
to its exit. -/
def emptyLineLabels (prog : Program) : List Proc :=
  List.replicate (prog.setup.length + 7) .parent ++ List.replicate 4 .child

/-- **The law fails** for an input of one empty line. -/
theorem not_deliveryLaw_handshake :
    ¬ ∀ prog kernel lines, (∀ x, (Kernel.sema kernel x).opened.value = 0) →
      DeliveryLaw prog kernel lines := by
  intro hlaw
  have hempty : DeliveryLaw .shmIntro .fresh [[]] := hlaw _ _ _ fun _ => rfl
  exact not_deliveryLaw_of_exec (emptyLineLabels .shmIntro) [] (by decide) hempty

/-- **Delivery.** With both semaphores at zero, each program prints one round for each line, in
order, stops on the end of the input and comes to an end, exactly when the size of no line is
converted to zero. -/
theorem deliveryLaw_handshake_iff (hzero : ∀ x, (kernel.sema x).opened.value = 0) :
    DeliveryLaw prog kernel lines ↔ ∀ input ∈ lines, toUInt32 input.length ≠ 0 :=
  ⟨fun hlaw => hlaw.size_ne_zero hzero, deliveryLaw_of_size_ne_zero hzero⟩

/-- Two lines. -/
abbrev greetings : List Line := [[104, 105], [98, 121, 101]]

/-- Both lines are delivered, and an empty line in front of them breaks the law. -/
theorem deliveryLaw_greetings :
    DeliveryLaw .mmapIntro .fresh greetings ∧ ¬ DeliveryLaw .shmIntro .fresh ([] :: greetings) :=
  ⟨(deliveryLaw_handshake_iff fun _ => rfl).mpr (by decide),
    fun hlaw => absurd ((deliveryLaw_handshake_iff fun _ => rfl).mp hlaw) (by decide)⟩

end Law

end Handshake

end Multithreading.Ipc
