import Multithreading.Ipc.MessageQueue
import Mathlib.Data.List.Infix

/-!
# Delivery through the message queue

As long as both processes have the same queue open, the messages that the child has handled, the one
that it has in hand, the ones in the queue and the ones that the parent has still to send are
together the messages for the input, in order. The parent unlinks the name before it waits for the
child, and nothing makes it wait for the child to open the queue before: a child that comes later
creates another queue, and both processes wait for ever. Only a queue that is too short for the
messages holds the parent up until the child has the queue open.

## Main definitions

* `MessageQueue.handled`, `MessageQueue.expected` — the messages that the child has handled, and the
  messages for an input.
* `MessageQueue.Delivers`, `MessageQueue.DeliveryLaw` — every line is handled once and in order, and
  nobody is blocked for ever.
* `MessageQueue.ChildOpened` — the guard.
* `MessageQueue.Running`, `MessageQueue.Stranded` — the invariant, and the states of the defect.

## Main results

* `MessageQueue.inv_of_runIf` — the invariant, in every run under the guard.
* `MessageQueue.deliveryLaw_iff` — the law holds under the guard, and in all runs exactly for the
  inputs of at least `maxMsg` lines.
-/

open Transition Memory

namespace Multithreading.Ipc

namespace MessageQueue

/-! ### The law -/

/-- The messages that the child has handled. -/
def handled (h : List Event) : List Message :=
  h.filterMap fun | .handled _ message => some message | _ => none

@[simp] theorem handled_append (h h' : List Event) : handled (h ++ h') = handled h ++ handled h' :=
  List.filterMap_append

@[simp] theorem handled_nil : handled [] = [] := rfl

@[simp] theorem handled_singleton (size : ℕ) (message : Message) :
    handled [.handled size message] = [message] := rfl

@[simp] theorem handled_exited (p : Proc) : handled [.exited p] = [] := rfl

/-- The messages for an input. -/
def expected (lines : List Line) : List Message := lines.map .ofLine ++ [.stop]

/-- The child has called `mq_open`. -/
def Child.hasOpened : Child → Bool
  | notForked | mqOpen => false
  | _ => true

/-- The child is past its loop. -/
def Child.hasLeft : Child → Bool
  | mqClose _ | exited => true
  | _ => false

/-- The process has exited. -/
def State.Exited (s : State) : Proc → Prop
  | .parent => s.parent = .exited
  | .child => s.child = .exited

/-- The child has handled the messages for the input, in order, all of them when it is past its
loop, and no process is blocked for ever before its exit. -/
structure Delivers (kernel : Kernel) (lines : List Line) (h : List Event) (s : State) : Prop where
  rounds : handled h <+: expected lines
  stops : s.child.hasLeft = true → handled h = expected lines
  released : Released (messageQueue kernel lines) State.Exited s

/-- The messages are delivered in every run. -/
def DeliveryLaw (kernel : Kernel) (lines : List Line) : Prop :=
  ∀ h s, (messageQueue kernel lines).Run (messageQueue kernel lines).init h s →
    Delivers kernel lines h s

/-- The parent is about to unlink the queue. -/
def Parent.unlinks : Parent → Bool
  | mqUnlink _ => true
  | _ => false

/-- The parent unlinks the queue only when the child has it open. -/
def ChildOpened (s : State) (p : Proc) : Prop :=
  p = .parent → s.parent.unlinks = true → s.child.hasOpened = true

instance (s : State) (p : Proc) : Decidable (ChildOpened s p) :=
  inferInstanceAs (Decidable (_ → _ → _))

/-! ### Messages in order -/

/-- The queue that the parent has opened. -/
def Parent.queue : Parent → Option ℕ
  | getline queue _ | fill queue _ _ | send queue _ | fillStop queue _ | sendStop queue _
  | mqClose queue | mqUnlink queue | wait queue => some queue
  | _ => none

/-- The queue that the child has opened. -/
def Child.queue : Child → Option ℕ
  | receive queue | handle queue _ _ | mqClose queue => some queue
  | _ => none

/-- The parent has unlinked the queue. -/
def Parent.hasUnlinked : Parent → Bool
  | wait _ | exited => true
  | _ => false

/-- The message that the child has received and not yet handled. -/
def Child.inHand : Child → List Message
  | handle _ _ message => [message]
  | _ => []

/-- The messages that the parent has still to send. -/
def Parent.toSend (cin : List Line) : Parent → List Message
  | unlink | fork | mqOpen | getline _ _ => expected cin
  | fill _ _ input => .ofLine input :: expected cin
  | send _ message => message :: expected cin
  | fillStop _ _ => [.stop]
  | sendStop _ message => [message]
  | _ => []

/-- The variable `message` of the parent has the type `Default` until the end of the input. -/
def Parent.Default : Parent → Prop
  | getline _ message | fill _ message _ | send _ message => message.messageType = .default
  | _ => True

/-- The queue that the processes use. -/
def State.queue (s : State) : Option ℕ := s.parent.queue.or s.child.queue

/-- The messages in the queue that the processes use. -/
def State.content (s : State) : List Message := s.queue.elim [] s.kernel.queues

/-- Before the fork. -/
structure Starting (lines : List Line) (h : List Event) (s : State) : Prop where
  child : s.child = .notForked
  cin : s.cin = lines
  handled : handled h = []
  parent : s.parent = .unlink ∨ s.parent = .fork ∧ s.kernel.name = none

/-- After the fork, with both processes on the same queue. -/
structure Running (lines : List Line) (h : List Event) (s : State) : Prop where
  forked : s.child ≠ .notForked ∧ s.parent ≠ .unlink ∧ s.parent ≠ .fork
  agree : ∀ queue, s.child.queue = some queue → s.queue = some queue
  name : s.parent.hasUnlinked = false → s.kernel.name = s.queue
  opened : s.parent.hasUnlinked = true → s.child.hasOpened = true
  account : expected lines = handled h ++ (s.child.inHand ++ s.content ++ s.parent.toSend s.cin)
  isDefault : s.parent.Default
  bounded : s.content.length ≤ maxMsg
  early : s.child.hasOpened = false → handled h = []
  loop : s.child.hasLeft = false → ∀ message ∈ handled h, message.messageType = .default
  left : s.child.hasLeft = true → handled h = expected lines
  exited : s.parent = .exited → s.child = .exited

/-- The child has opened another queue than the parent, or is about to. -/
structure Stranded (s : State) : Prop where
  parent : ∃ queue, s.parent = .wait queue
  child : s.child = .mqOpen ∧ s.kernel.name = none ∨
    ∃ queue, s.child = .receive queue ∧ s.kernel.queues queue = []

theorem ofLine_messageType (input : Line) : (Message.ofLine input).messageType = .default := rfl

theorem fill_eq_ofLine {message : Message} (h : message.messageType = .default) (input : Line) :
    message.fill input = .ofLine input := by
  simp [Message.fill, Message.ofLine, Message.initial, h]

theorem Parent.exists_of_unlinks (l : Parent) (hl : l.unlinks = true) :
    ∃ queue, l = .mqUnlink queue := by
  cases l <;> simp_all [Parent.unlinks]

/-- The messages for an input end with the first message of type `Stop`. -/
theorem eq_nil_of_stop {lines : List Line} {before after : List Message} {message : Message}
    (h : expected lines = before ++ message :: after) (hstop : message.messageType = .stop) :
    after = [] := by
  rcases List.eq_nil_or_concat after with hnil | ⟨init, last, rfl⟩
  · exact hnil
  · have hlines : lines.map .ofLine = before ++ message :: init := by
      have happend : lines.map .ofLine ++ [.stop] = (before ++ message :: init) ++ [last] := by
        simpa [expected] using h
      exact (List.append_inj' happend rfl).1
    have hmem : message ∈ lines.map .ofLine := by simp [hlines]
    obtain ⟨input, -, rfl⟩ := List.mem_map.mp hmem
    simp [ofLine_messageType] at hstop

theorem State.content_of_queue {s : State} (queue : ℕ) (hqueue : s.queue = some queue) :
    s.content = s.kernel.queues queue := by
  simp [State.content, hqueue]

theorem State.mqOpen_of_name {s : State} (hname : s.kernel.name = s.queue) :
    s.kernel.mqOpen.2.queues s.kernel.mqOpen.1 = s.content ∧
      ∀ queue, s.queue = some queue → s.kernel.mqOpen.1 = queue := by
  cases hqueue : s.queue with
  | none => simp [State.content, hqueue, Kernel.queues_mqOpen _ (hname.trans hqueue)]
  | some queue => simp [State.content, hqueue, Kernel.mqOpen_of_name _ (hname.trans hqueue)]

namespace Running

variable {lines : List Line} {h : List Event} {s s' : State} {p : Proc} {es : List Event}

/-- A child that is past its loop has left nothing behind. -/
theorem drained (hinv : Running lines h s) (hleft : s.child.hasLeft = true) :
    s.content = [] ∧ s.parent.toSend s.cin = [] := by
  have haccount := hinv.account
  rw [hinv.left hleft] at haccount
  have hnil := List.append_cancel_left (haccount.symm.trans (List.append_nil _).symm)
  simp only [List.append_eq_nil_iff] at hnil
  exact ⟨hnil.1.2, hnil.2⟩

theorem exists_parent_queue (hinv : Running lines h s) (hleft : s.child.hasLeft = true)
    (hexited : s.parent ≠ .exited) : ∃ queue, s.parent.queue = some queue := by
  have hsent := (hinv.drained hleft).2
  have hforked := hinv.forked
  cases hp : s.parent <;> simp_all [Parent.queue, Parent.toSend, expected]

theorem exists_parent_queue_of_mqClose (hinv : Running lines h s) {queue : ℕ}
    (hpc : s.child = .mqClose queue) : ∃ queue, s.parent.queue = some queue := by
  refine hinv.exists_parent_queue (by rw [hpc]; rfl) fun hexited => ?_
  simp [hinv.exited hexited] at hpc

theorem name_of_mqOpen (hinv : Running lines h s)
    (hpc : s.parent = .mqOpen ∨ s.child = .mqOpen) : s.kernel.name = s.queue := by
  refine hinv.name ?_
  by_contra hunlinked
  rcases hpc with hpc | hpc
  · simp [hpc, Parent.hasUnlinked] at hunlinked
  · have hopened := hinv.opened (by simpa using hunlinked)
    simp [hpc, Child.hasOpened] at hopened

theorem agree_move (hinv : Running lines h s) (hmove : Move s p s' es) :
    ∀ queue, s'.child.queue = some queue → s'.queue = some queue := by
  have hforked := hinv.forked
  have hagree := hinv.agree
  cases hmove with
  | openParent hpc =>
    intro queue hqueue
    have hsame :=
      (State.mqOpen_of_name (hinv.name_of_mqOpen (.inl hpc))).2 queue (hagree queue hqueue)
    simpa [State.queue, Parent.queue] using hsame
  | openChild hpc =>
    rintro queue hqueue
    obtain rfl : s.kernel.mqOpen.1 = queue := by simpa [Child.queue] using hqueue
    have hopen := (State.mqOpen_of_name (hinv.name_of_mqOpen (.inr hpc))).2
    cases hparent : s.parent.queue with
    | none => simp [State.queue, Child.queue, hparent]
    | some queue => simp [State.queue, hparent, hopen queue (by simp [State.queue, hparent])]
  | _ => simp_all [State.queue, Parent.queue, Child.queue]

theorem name_move (hinv : Running lines h s) (hmove : Move s p s' es) :
    s'.parent.hasUnlinked = false → s'.kernel.name = s'.queue := by
  have hforked := hinv.forked
  have hname := hinv.name
  have hagree := hinv.agree_move hmove
  cases hmove with
  | openParent hpc => exact fun _ => s.kernel.mqOpen_name
  | openChild hpc =>
    intro _
    rw [hagree _ rfl]
    exact s.kernel.mqOpen_name
  | closeChild queue hpc =>
    obtain ⟨q, hq⟩ := hinv.exists_parent_queue_of_mqClose hpc
    simpa [State.queue, hq] using hname
  | _ => simp_all [State.queue, Parent.queue, Child.queue, Parent.hasUnlinked]

/-- A step moves the first message along, or leaves the messages where they are. -/
theorem account_move (hinv : Running lines h s) (hmove : Move s p s' es) :
    s.child.inHand ++ s.content ++ s.parent.toSend s.cin =
      handled es ++ s'.child.inHand ++ s'.content ++ s'.parent.toSend s'.cin := by
  have hforked := hinv.forked
  cases hmove with
  | openParent hpc =>
    have hopen := (State.mqOpen_of_name (hinv.name_of_mqOpen (.inl hpc))).1
    rw [← hopen]
    simp [hpc, State.content, State.queue, Parent.queue, Parent.toSend]
  | openChild hpc =>
    have hopen := (State.mqOpen_of_name (hinv.name_of_mqOpen (.inr hpc))).1
    rw [State.content_of_queue _ (hinv.agree_move (.openChild hpc) _ rfl), hopen]
    simp [hpc, Child.inHand]
  | fill queue message input hpc =>
    have hdefault := hinv.isDefault
    rw [hpc] at hdefault
    simp [hpc, State.content, State.queue, Parent.queue, Parent.toSend,
      fill_eq_ofLine hdefault]
  | send queue message hpc | sendStop queue message hpc =>
    simp [hpc, State.content, State.queue, Parent.queue, Parent.toSend]
  | wait queue hpc hchild =>
    rw [(hinv.drained (by rw [hchild]; rfl)).1]
    simp [hpc, hchild, State.content, State.queue, Parent.queue, Child.queue, Parent.toSend,
      Child.inHand]
  | receive queue message messages hpc hqueue =>
    have hagree := hinv.agree_move (.receive _ _ _ hpc hqueue)
    rw [State.content_of_queue queue (hinv.agree queue (by rw [hpc]; rfl)),
      State.content_of_queue queue (hagree queue rfl)]
    simp [hpc, hqueue, Child.inHand]
  | fillStop queue message hpc =>
    simp [hpc, State.content, State.queue, Parent.queue, Parent.toSend, Message.stop,
      Message.fillStop]
  | closeChild queue hpc =>
    obtain ⟨q, hq⟩ := hinv.exists_parent_queue_of_mqClose hpc
    simp [State.content, State.queue, hq, hpc, handled, Child.inHand]
  | _ =>
    simp_all [State.content, State.queue, Parent.queue, Child.queue, Parent.toSend, handled,
      Child.inHand, expected]

theorem isDefault_move (hinv : Running lines h s) (hmove : Move s p s' es) :
    s'.parent.Default := by
  have hforked := hinv.forked
  have hdefault := hinv.isDefault
  cases hmove <;> simp_all [Parent.Default, Message.fill, Message.initial]

theorem bounded_move (hinv : Running lines h s) (hmove : Move s p s' es) :
    s'.content.length ≤ maxMsg := by
  have hbounded := hinv.bounded
  have haccount := congrArg List.length (hinv.account_move hmove)
  simp only [List.length_append] at haccount
  have hforked := hinv.forked
  cases hmove with
  | send queue message hpc hroom | sendStop queue message hpc hroom =>
    rw [State.content_of_queue queue rfl]
    simpa using Nat.succ_le_of_lt hroom
  | _ =>
    simp_all [Parent.toSend, Child.inHand, expected]
    try omega

/-- The child leaves its loop with the first message of type `Stop`, which is the last one. -/
theorem left_move (hinv : Running lines h s) (hmove : Move s p s' es) :
    (s'.child.hasLeft = true → handled (h ++ es) = expected lines) ∧
      (s'.child.hasLeft = false →
        ∀ message ∈ handled (h ++ es), message.messageType = .default) := by
  have hforked := hinv.forked
  have hloop := hinv.loop
  have hleft := hinv.left
  cases hmove with
  | handleStop queue size message hpc htype =>
    have haccount := hinv.account
    refine ⟨fun _ => ?_, by simp [Child.hasLeft]⟩
    rw [hpc] at haccount
    simp only [Child.inHand, List.cons_append] at haccount
    rw [haccount, eq_nil_of_stop haccount htype]
    simp
  | handle queue size message hpc htype =>
    refine ⟨by simp [Child.hasLeft], fun _ m hm => ?_⟩
    rcases List.mem_append.mp (handled_append h _ ▸ hm) with hold | hnew
    · exact hloop (by rw [hpc]; rfl) m hold
    · obtain rfl : m = message := by simpa using hnew
      cases hm : m.messageType <;> simp_all
  | _ => simp_all [Child.hasLeft]

theorem move (hinv : Running lines h s) (hguard : ChildOpened s p) (hmove : Move s p s' es) :
    Running lines (h ++ es) s' where
  forked := by
    have hforked := hinv.forked
    cases hmove <;> simp_all
  agree := hinv.agree_move hmove
  name := hinv.name_move hmove
  opened := by
    have hforked := hinv.forked
    have hopened := hinv.opened
    cases hmove <;> simp_all [Parent.hasUnlinked, Parent.unlinks, Child.hasOpened, ChildOpened]
  account := by
    rw [hinv.account, hinv.account_move hmove]
    simp
  isDefault := hinv.isDefault_move hmove
  bounded := hinv.bounded_move hmove
  early := by
    have hforked := hinv.forked
    have hearly := hinv.early
    cases hmove <;> simp_all [Child.hasOpened]
  loop := (hinv.left_move hmove).2
  left := (hinv.left_move hmove).1
  exited := by
    have hforked := hinv.forked
    have hexited := hinv.exited
    cases hmove <;> simp_all

/-- Without the guard, the parent may unlink the queue before the child has opened it. -/
theorem move_or_stranded (hinv : Running lines h s) (hmove : Move s p s' es) :
    Running lines (h ++ es) s' ∨ Stranded s' := by
  by_cases hguard : ChildOpened s p
  · exact .inl (hinv.move hguard hmove)
  · obtain ⟨rfl, hunlinks, hclosed⟩ :
        p = .parent ∧ s.parent.unlinks = true ∧ s.child.hasOpened = false := by
      simpa [ChildOpened] using hguard
    obtain ⟨queue, hpc⟩ := s.parent.exists_of_unlinks hunlinks
    have hchild : s.child = .mqOpen := by
      have hforked := hinv.forked.1
      cases hc : s.child <;> simp_all [Child.hasOpened]
    refine .inr ?_
    cases hmove with
    | mqUnlink => exact ⟨⟨_, rfl⟩, .inl ⟨hchild, rfl⟩⟩
    | _ => simp_all

end Running

theorem Starting.move {lines : List Line} {h : List Event} {s s' : State} {p : Proc}
    {es : List Event} (hinv : Starting lines h s) (hmove : Move s p s' es) :
    Starting lines (h ++ es) s' ∨ Running lines (h ++ es) s' := by
  obtain ⟨hchild, hcin, hhandled, hparent⟩ := hinv
  cases hmove with
  | unlink hpc => exact .inl ⟨hchild, hcin, by simpa using hhandled, .inr ⟨rfl, rfl⟩⟩
  | fork hpc =>
    have hname : s.kernel.name = none := by simpa [hpc] using hparent
    refine .inr ?_
    constructor <;>
      simp_all [Child.queue, Parent.queue, State.queue, State.content, Parent.hasUnlinked,
        Child.inHand, Parent.toSend, Parent.Default, Child.hasLeft]
  | _ => simp_all

/-- Nobody comes out of a stranded state. -/
theorem Stranded.move {s s' : State} {p : Proc} {es : List Event} (hinv : Stranded s)
    (hmove : Move s p s' es) : Stranded s' := by
  obtain ⟨⟨queue, hparent⟩, ⟨hchild, hname⟩ | ⟨queue', hchild, hqueue⟩⟩ := hinv
  · cases hmove with
    | openChild => exact ⟨⟨queue, hparent⟩, .inr ⟨_, rfl, s.kernel.queues_mqOpen hname⟩⟩
    | _ => simp_all
  · cases hmove <;> simp_all

theorem Stranded.step_eq_none {s : State} (hinv : Stranded s) : step s .parent = none := by
  obtain ⟨⟨queue, hparent⟩, ⟨hchild, -⟩ | ⟨queue', hchild, -⟩⟩ := hinv
  · simp [step, parentStep, hparent, hchild]
  · simp [step, parentStep, hparent, hchild]

/-- The invariant of the runs under the guard. -/
def Inv (lines : List Line) (h : List Event) (s : State) : Prop :=
  Starting lines h s ∨ Running lines h s

theorem Inv.step {lines : List Line} {h : List Event} {s s' : State} {p : Proc} {es : List Event}
    (hinv : Inv lines h s) (hguard : ChildOpened s p) (hstep : step s p = some (s', es)) :
    Inv lines (h ++ es) s' :=
  hinv.elim (fun hstarting => hstarting.move (move_of_step hstep))
    fun hrunning => .inr (hrunning.move hguard (move_of_step hstep))

theorem Inv.init (kernel : Kernel) (lines : List Line) :
    Inv lines [] (messageQueue kernel lines).init :=
  .inl ⟨rfl, rfl, rfl, .inl rfl⟩

/-! ### The end of a run -/

/-- A bound on the steps of the parent, from its program counter on, without the lines to come. -/
def Parent.weight : Parent → ℕ
  | unlink => 12
  | fork => 11
  | mqOpen => 10
  | getline _ _ => 9
  | fill _ _ _ => 14
  | send _ _ => 13
  | fillStop _ _ => 8
  | sendStop _ _ => 7
  | mqClose _ => 3
  | mqUnlink _ => 2
  | wait _ => 1
  | exited => 0

/-- A bound on the steps of the child, from its program counter on, without the messages to come. -/
def Child.weight : Child → ℕ
  | notForked | mqOpen | mqClose _ => 1
  | handle _ _ _ => 2
  | receive _ | exited => 0

/-- A bound on the steps of both processes. -/
def State.weight (s : State) : ℕ :=
  6 * s.cin.length + s.parent.weight + 3 * s.content.length + s.child.weight

theorem Starting.weight_lt {lines : List Line} {h : List Event} {s s' : State} {p : Proc}
    {es : List Event} (hinv : Starting lines h s) (hmove : Move s p s' es) :
    s'.weight < s.weight := by
  obtain ⟨hchild, hcin, hhandled, hparent⟩ := hinv
  cases hmove <;>
    simp_all [State.weight, State.content, State.queue, Parent.queue, Child.queue, Parent.weight,
      Child.weight]

theorem Running.weight_lt {lines : List Line} {h : List Event} {s s' : State} {p : Proc}
    {es : List Event} (hinv : Running lines h s) (hmove : Move s p s' es) :
    s'.weight < s.weight := by
  have hforked := hinv.forked
  have hlength := congrArg List.length (hinv.account_move hmove)
  simp only [List.length_append] at hlength
  cases hmove <;>
    simp_all [State.weight, Parent.weight, Child.weight, Parent.toSend, Child.inHand, expected] <;>
    omega

theorem parent_of_step_eq_none {s : State} (h : step s .parent = none) :
    (∃ queue message, (s.parent = .send queue message ∨ s.parent = .sendStop queue message) ∧
      maxMsg ≤ (s.kernel.queues queue).length) ∨
      (∃ queue, s.parent = .wait queue ∧ s.child ≠ .exited) ∨ s.parent = .exited := by
  rw [step, parentStep] at h
  split at h <;> simp_all [State.send]
  split at h <;> simp_all

theorem child_of_step_eq_none {s : State} (h : step s .child = none) :
    s.child = .notForked ∨ (∃ queue, s.child = .receive queue ∧ s.kernel.queues queue = []) ∨
      s.child = .exited := by
  rw [step, childStep] at h
  split at h <;> simp_all <;> split at h <;> simp_all

theorem Starting.exists_step {lines : List Line} {h : List Event} {s : State}
    (hinv : Starting lines h s) : step s .parent ≠ none := by
  obtain ⟨-, -, -, hparent | ⟨hparent, -⟩⟩ := hinv
  · simp [step, parentStep, hparent]
  · simp [step, parentStep, hparent]

theorem Starting.childOpened {lines : List Line} {h : List Event} {s : State}
    (hinv : Starting lines h s) : ChildOpened s .parent := by
  obtain ⟨-, -, -, hparent | ⟨hparent, -⟩⟩ := hinv
  · simp [ChildOpened, Parent.unlinks, hparent]
  · simp [ChildOpened, Parent.unlinks, hparent]

theorem exited_frame {s s' : State} {p q : Proc} {es : List Event} (hqp : q ≠ p)
    (h : step s q = some (s', es)) (hs' : s'.Exited p) : s.Exited p := by
  cases move_of_step h <;> cases p <;> simp_all [State.Exited]

namespace Running

variable {lines : List Line} {h : List Event} {s : State}

/-- A parent that cannot send has the queue full of messages, and more to send. -/
theorem lt_length_of_full (hinv : Running lines h s) {queue : ℕ} {message : Message}
    (hparent : s.parent = .send queue message ∨ s.parent = .sendStop queue message)
    (hfull : maxMsg ≤ (s.kernel.queues queue).length) :
    maxMsg ≤ s.content.length ∧ maxMsg ≤ lines.length := by
  have hcontent : s.content = s.kernel.queues queue := by
    rcases hparent with hparent | hparent <;>
      exact State.content_of_queue _ (by simp [State.queue, Parent.queue, hparent])
  have hsend : 0 < (s.parent.toSend s.cin).length := by
    rcases hparent with hparent | hparent <;> simp [Parent.toSend, hparent]
  have hlength := congrArg List.length hinv.account
  simp only [expected, List.length_append, List.length_map, List.length_singleton] at hlength
  rw [hcontent] at hlength ⊢
  exact ⟨hfull, by omega⟩

/-- When the parent is about to unlink a queue that the child has not opened, the queue holds all
the messages. -/
theorem length_lt_of_closed (hinv : Running lines h s) {queue : ℕ}
    (hparent : s.parent = .mqUnlink queue) (hchild : s.child.hasOpened = false) :
    lines.length < maxMsg := by
  have hlength := congrArg List.length hinv.account
  have hinHand : s.child.inHand = [] := by
    cases hc : s.child <;> simp_all [Child.hasOpened, Child.inHand]
  have hbounded := hinv.bounded
  simp only [hinv.early hchild, hinHand, hparent, expected, Parent.toSend, List.length_append,
    List.length_map, List.length_singleton, List.length_nil] at hlength
  omega

theorem exited_of_terminal (hinv : Running lines h s)
    (hterminal : ∀ p, ChildOpened s p → step s p = none) (p : Proc) : s.Exited p := by
  have hchild := child_of_step_eq_none (hterminal .child (by simp [ChildOpened]))
  have hguard : ChildOpened s .parent := by
    intro _ _
    rcases hchild with hchild | ⟨queue, hchild, -⟩ | hchild
    · exact absurd hchild hinv.forked.1
    · rw [hchild]
      rfl
    · rw [hchild]
      rfl
  have hparent := parent_of_step_eq_none (hterminal .parent hguard)
  rcases hchild with hchild | ⟨queue, hchild, hempty⟩ | hchild
  · exact absurd hchild hinv.forked.1
  · -- The queue is empty, so the parent is past its loop and the child has handled the last one.
    exfalso
    have hcontent : s.content = [] := by
      rw [State.content_of_queue queue (hinv.agree queue (by rw [hchild]; rfl)), hempty]
    rcases hparent with ⟨q, message, hparent, hfull⟩ | ⟨q, hparent, -⟩ | hparent
    · have hlt := (hinv.lt_length_of_full hparent hfull).1
      simp [hcontent, maxMsg] at hlt
    · have haccount := hinv.account
      simp only [hcontent, hchild, hparent, Child.inHand, Parent.toSend, List.append_nil]
        at haccount
      have hstop := hinv.loop (by rw [hchild]; rfl) .stop (by rw [← haccount]; simp [expected])
      simp [Message.stop, Message.fillStop] at hstop
    · simp [hinv.exited hparent] at hchild
  · rcases hparent with ⟨q, message, hparent, -⟩ | ⟨q, -, hwait⟩ | hparent
    · have hsent := (hinv.drained (by rw [hchild]; rfl)).2
      rcases hparent with hparent | hparent <;> simp [hparent, Parent.toSend] at hsent
    · exact absurd hchild hwait
    · cases p
      · exact hparent
      · exact hchild

end Running

section Law

variable {kernel : Kernel} {lines : List Line} {h : List Event} {s : State}

theorem Inv.delivers (hinv : Inv lines h s) : Delivers kernel lines h s := by
  refine ⟨?_, ?_, released_of_terminal (I := fun s => ∃ h, Inv lines h s) ChildOpened
    State.weight ?_ exited_frame ?_ ⟨h, hinv⟩⟩
  · rcases hinv with hstarting | hrunning
    · simp [hstarting.handled]
    · exact ⟨_, hrunning.account.symm⟩
  · intro hleft
    rcases hinv with hstarting | hrunning
    · simp [hstarting.child, Child.hasLeft] at hleft
    · exact hrunning.left hleft
  · rintro t u es p ⟨h', ht⟩ hguard hstep
    refine ⟨⟨h' ++ es, ht.step hguard hstep⟩, ?_⟩
    exact ht.elim (fun hstarting => hstarting.weight_lt (move_of_step hstep))
      fun hrunning => hrunning.weight_lt (move_of_step hstep)
  · rintro t ⟨h', hstarting | hrunning⟩ hterminal
    · exact absurd (hterminal .parent hstarting.childOpened) hstarting.exists_step
    · exact hrunning.exited_of_terminal hterminal

/-- Under the guard the invariant holds. -/
theorem inv_of_runIf
    (hrun : (messageQueue kernel lines).RunIf ChildOpened (messageQueue kernel lines).init h s) :
    Inv lines h s :=
  hrun.invariant (fun s h => Inv lines h s) (.init kernel lines)
    fun _ _ hinv hguard hnext => hinv.step hguard hnext

/-- With at least `maxMsg` lines, every run is one under the guard. -/
theorem runIf_of_le_length (hlines : maxMsg ≤ lines.length)
    (hrun : (messageQueue kernel lines).Run (messageQueue kernel lines).init h s) :
    (messageQueue kernel lines).RunIf ChildOpened (messageQueue kernel lines).init h s := by
  refine hrun.strengthen ?_
  rintro h t u es p hrun' - rfl hunlinks
  rcases inv_of_runIf hrun' with hstarting | hrunning
  · exact hstarting.childOpened rfl hunlinks
  · obtain ⟨queue, hparent⟩ := t.parent.exists_of_unlinks hunlinks
    by_contra hclosed
    have hlt := hrunning.length_lt_of_closed hparent (by simpa using hclosed)
    omega

theorem Stranded.blockedForever (hinv : Stranded s) :
    (messageQueue kernel lines).BlockedForever (· = .parent) s := by
  rintro h' t hrun p rfl
  have hstranded : Stranded t :=
    hrun.invariant (fun t _ => Stranded t) hinv fun _ _ ht _ hnext => ht.move (move_of_step hnext)
  exact hstranded.step_eq_none

/-- The runs of the parent alone, up to a state where it is stranded. -/
def Alone (lines : List Line) (s : State) : Prop :=
  (∃ h, Inv lines h s) ∧ s.child.hasOpened = false ∨ Stranded s

theorem Alone.next {s s' : State} {es : List Event} (hinv : Alone lines s)
    (hstep : step s .parent = some (s', es)) : Alone lines s' ∧ s'.weight < s.weight := by
  have hmove := move_of_step hstep
  rcases hinv with ⟨⟨h, hinv⟩, hclosed⟩ | hstranded
  · have hclosed' : s'.child.hasOpened = false := by cases hmove <;> simp_all [Child.hasOpened]
    rcases hinv with hstarting | hrunning
    · exact ⟨.inl ⟨⟨_, hstarting.move hmove⟩, hclosed'⟩, hstarting.weight_lt hmove⟩
    · refine ⟨?_, hrunning.weight_lt hmove⟩
      rcases hrunning.move_or_stranded hmove with hrunning' | hstranded
      · exact .inl ⟨⟨_, .inr hrunning'⟩, hclosed'⟩
      · exact .inr hstranded
  · simp [hstranded.step_eq_none] at hstep

/-- With fewer than `maxMsg` lines, a parent that cannot move and is alone is stranded. -/
theorem Alone.stranded (hinv : Alone lines s) (hlines : lines.length < maxMsg)
    (hterminal : step s .parent = none) : Stranded s := by
  rcases hinv with ⟨⟨h, hstarting | hrunning⟩, hclosed⟩ | hstranded
  · exact absurd hterminal hstarting.exists_step
  · exfalso
    rcases parent_of_step_eq_none hterminal with
      ⟨queue, message, hparent, hfull⟩ | ⟨queue, hparent, -⟩ | hparent
    · have hlength := (hrunning.lt_length_of_full hparent hfull).2
      omega
    · have hopened := hrunning.opened (by rw [hparent]; rfl)
      simp [hclosed] at hopened
    · have hexited := hrunning.exited hparent
      simp [hexited, Child.hasOpened] at hclosed
  · exact hstranded

/-- With fewer than `maxMsg` lines, a run of the parent alone strands it. -/
theorem not_deliveryLaw_of_length_lt (hlines : lines.length < maxMsg) :
    ¬ DeliveryLaw kernel lines := by
  intro hlaw
  obtain ⟨h, s, hrun, hinv, hterminal⟩ := Machine.exists_runIf_terminal
    (M := messageQueue kernel lines) (I := Alone lines) (fun _ p => p = .parent) State.weight
    (by rintro s t es p hinv rfl hstep; exact hinv.next hstep)
    (.inl ⟨⟨[], .init kernel lines⟩, rfl⟩)
  have hstranded := hinv.stranded hlines (hterminal .parent rfl)
  refine (hlaw h s hrun.run).released .parent ?_ hstranded.blockedForever
  obtain ⟨queue, hparent⟩ := hstranded.parent
  simp [State.Exited, hparent]

/-! ### The law fails without any input -/

/-- No queue is left from an earlier run. -/
def Kernel.fresh : Kernel := ⟨none, fun _ => [], 0⟩

/-- The parent sends its last message, unlinks the queue and waits, and then the child opens another
queue. -/
def lateChildLabels : List Proc := List.replicate 8 .parent ++ [.child]

/-- **The law fails** for an input without lines. -/
theorem not_deliveryLaw : ¬ ∀ kernel lines, DeliveryLaw kernel lines := by
  intro hlaw
  obtain ⟨s, h, hrun, hs⟩ := Machine.exists_run_of_exec (M := messageQueue .fresh [])
    lateChildLabels
    (f := fun r => (r.1.parent, r.1.child, r.1.kernel.queues 1))
    (b := (.wait 0, .receive 1, [])) (by decide)
  obtain ⟨hparent, hs⟩ := Prod.mk.inj hs
  obtain ⟨hchild, hqueue⟩ := Prod.mk.inj hs
  have hstranded : Stranded s := ⟨⟨0, hparent⟩, .inr ⟨1, hchild, hqueue⟩⟩
  refine (hlaw .fresh [] h s hrun).released .parent ?_ hstranded.blockedForever
  simp [State.Exited, show s.parent = .wait 0 from hparent]

/-- **Delivery.** Every run in which the parent unlinks the queue only when the child has it open
delivers every line once and in order and strands nobody. All runs do so exactly when the input has
at least `maxMsg` lines. -/
theorem deliveryLaw_iff :
    (∀ h s, (messageQueue kernel lines).RunIf ChildOpened (messageQueue kernel lines).init h s →
      Delivers kernel lines h s) ∧ (DeliveryLaw kernel lines ↔ maxMsg ≤ lines.length) := by
  refine ⟨fun h s hrun => (inv_of_runIf hrun).delivers, fun hlaw => ?_, fun hlines h s hrun => ?_⟩
  · by_contra hlines
    exact not_deliveryLaw_of_length_lt (by omega) hlaw
  · exact (inv_of_runIf (runIf_of_le_length hlines hrun)).delivers

/-- The child opens the queue before the parent sends the only line. -/
def earlyChildLabels : List Proc :=
  List.flatten [List.replicate 2 .parent, [.child], List.replicate 9 .parent,
    List.replicate 5 .child, [.parent]]

/-- One line, with the child opening the queue first, and ten empty lines in any order. -/
theorem deliveryLaw_of_early_child : (∃ h s, (messageQueue .fresh [[104, 105]]).RunIf ChildOpened
      (messageQueue .fresh [[104, 105]]).init h s ∧ s.parent = .exited ∧
        Delivers .fresh [[104, 105]] h s) ∧
    DeliveryLaw .fresh (List.replicate 10 []) := by
  obtain ⟨s, h, hrun, hs⟩ := Machine.exists_runIf_of_execIf (M := messageQueue .fresh [[104, 105]])
    ChildOpened earlyChildLabels
    (f := fun r => r.1.parent) (b := .exited) (by decide)
  exact ⟨⟨h, s, hrun, hs, deliveryLaw_iff.1 h s hrun⟩, deliveryLaw_iff.2.mpr (by decide)⟩

end Law

end MessageQueue

end Multithreading.Ipc
