import Multithreading.Ipc.HandshakeAccess
import Multithreading.Ipc.MessageQueueLaw

/-!
# The encoding of the lines

The programs `shm_intro`, `mmap_intro` and `mqueue` hand a line over in an array of a fixed size.
The parent clears the array and copies as many bytes as fit; the child prints the array up to the
first NUL. In `shm_intro` and `mmap_intro` there is also a size, which is the length of the whole
line as a 32-bit integer.

A line that fills the array leaves no NUL behind it, so the printing goes on behind the end of the
array, and a NUL in a line cuts the printing short. A line that is longer than the array has a size
that is not the number of the stored bytes.

## Main definitions

* `Handshake.SharedData.Encodes`, `MessageQueue.Message.Encodes` — the law of the encoding.

## Main results

* `Handshake.not_encodes` — the law fails for a line that fills the array.
* `encodes_iff` — the law holds exactly for the lines that are shorter than the array and have no
  NUL, whenever the parent has written a line and whenever the child prints one.
-/

open Transition Memory

namespace Multithreading.Ipc

theorem exists_line_of_prefix {β : Type*} {f : Line → β} {xs : List β} {lines : List Line} {k : ℕ}
    {y : β} (hxs : xs <+: lines.map f) (hk : xs[k]? = some y) :
    ∃ input, lines[k]? = some input ∧ y = f input := by
  obtain ⟨rest, hrest⟩ := hxs
  have hlt := (List.getElem?_eq_some_iff.mp hk).1
  have hmap : (lines.map f)[k]? = some y := by rw [← hrest, List.getElem?_append_left hlt, hk]
  rw [List.getElem?_map] at hmap
  obtain ⟨input, hinput, rfl⟩ := Option.map_eq_some_iff.mp hmap
  exact ⟨input, hinput, rfl⟩

namespace Handshake

variable {prog : Program} {kernel : Kernel} {lines : List Line} {h : List Event} {s : State}

/-! ### `shm_intro` and `mmap_intro` -/

/-- The line that the parent has written to the shared memory. -/
def Parent.written : Parent → Option Line
  | log input | post input | waitRead input => some input
  | _ => none

/-- The size is the number of bytes of the line that are stored, and the child prints exactly these
bytes. -/
structure SharedData.Encodes (data : SharedData) (input : Line) : Prop where
  size : data.mMessageSize = min input.length bufferSize
  content : data.buffer.render = some (input.take (min input.length bufferSize))

/-- The size of a line is the number of bytes that are stored exactly when the line fits, or has the
size of the array as a 32-bit integer. -/
theorem size_ofLine_iff (input : Line) :
    (SharedData.ofLine input).mMessageSize = min input.length bufferSize ↔
      input.length ≤ bufferSize ∨ toUInt32 input.length = bufferSize := by
  have hle : bufferSize < 2 ^ 32 := by decide
  simp only [SharedData.ofLine, toUInt32]
  omega

theorem encodes_ofLine_iff (input : Line) :
    (SharedData.ofLine input).Encodes input ↔ input.length < bufferSize ∧ 0 ∉ input := by
  refine ⟨fun hencodes => (CharArray.render_ofBytes_iff input).mp hencodes.content, fun hgood => ?_⟩
  exact ⟨(size_ofLine_iff input).mpr (.inl hgood.1.le),
    (CharArray.render_ofBytes_iff input).mpr hgood⟩

/-- What the parent knows of the shared memory holds in every run, whatever the semaphores are. -/
theorem stored_of_run
    (hrun : (handshake prog kernel lines).Run (handshake prog kernel lines).init h s) :
    s.parent.Stored s.kernel.sharedData := by
  refine hrun.invariant (fun s _ => s.parent.Stored s.kernel.sharedData) trivial ?_
  intro h t u es p _ hstored _ hnext
  have hmove := move_of_step hnext
  by_cases hforked : ∀ calls, t.parent ≠ .setup calls
  · exact stored_move hforked hstored hmove
  · push Not at hforked
    obtain ⟨calls, hcalls⟩ := hforked
    cases hmove <;> simp_all [Parent.Stored]

theorem sharedData_of_written {input : Line}
    (hrun : (handshake prog kernel lines).Run (handshake prog kernel lines).init h s)
    (hinput : s.parent.written = some input) : s.kernel.sharedData = .ofLine input := by
  have hstored := stored_of_run hrun
  cases hp : s.parent <;> simp_all [Parent.written, Parent.Stored]

/-- The child prints the lines in order. -/
theorem printed_prefix (hzero : ∀ x, (kernel.sema x).opened.value = 0)
    (hrun : (handshake prog kernel lines).Run (handshake prog kernel lines).init h s) :
    printed h <+: lines.map .ofLine := by
  rcases inv_of_run hzero hrun with hstarting | hrunning
  · simp [hstarting.printed]
  · exact ⟨_, hrunning.rounds.symm⟩

/-- The steps of the parent up to the moment when it has written its first line. -/
def writeLabels (prog : Program) : List Proc := List.replicate (prog.setup.length + 5) .parent

/-- Every line can be written. -/
theorem exists_written (input : Line) (lines : List Line) :
    ∃ s h, (handshake .shmIntro .fresh (input :: lines)).Run
        (handshake .shmIntro .fresh (input :: lines)).init h s ∧ s.parent.written = some input :=
  Machine.exists_run_of_exec (M := handshake .shmIntro .fresh (input :: lines))
    (writeLabels .shmIntro) (f := fun r => r.1.parent.written) rfl

/-- **The law fails** for a line that fills the array: the child finds no NUL in it. -/
theorem not_encodes :
    ¬ ∀ prog kernel lines h s input,
      (handshake prog kernel lines).Run (handshake prog kernel lines).init h s →
        s.parent.written = some input → s.kernel.sharedData.Encodes input := by
  intro hlaw
  obtain ⟨s, h, hrun, hinput⟩ := exists_written (List.replicate bufferSize 97) []
  have hencodes := hlaw _ _ _ h s _ hrun hinput
  rw [sharedData_of_written hrun hinput, encodes_ofLine_iff] at hencodes
  simp at hencodes

end Handshake

namespace MessageQueue

variable {kernel : Kernel} {lines : List Line} {h : List Event} {s : State}

/-! ### `mqueue` -/

/-- The child prints exactly the bytes of the line that are stored. -/
def Message.Encodes (message : Message) (input : Line) : Prop :=
  message.data.render = some (input.take (min input.length bufferSize))

theorem encodes_ofLine_iff (input : Line) :
    (Message.ofLine input).Encodes input ↔ input.length < bufferSize ∧ 0 ∉ input :=
  CharArray.render_ofBytes_iff input

/-- A child that has opened another queue than the parent handles no message. -/
theorem Stranded.handled_eq_nil {s' : State} {p : Proc} {es : List Event} (hinv : Stranded s)
    (hmove : Move s p s' es) : handled es = [] := by
  obtain ⟨⟨queue, hparent⟩, ⟨hchild, -⟩ | ⟨queue', hchild, -⟩⟩ := hinv <;>
    cases hmove <;> simp_all

/-- In every run the child handles the messages of the input in order. -/
theorem handled_prefix
    (hrun : (messageQueue kernel lines).Run (messageQueue kernel lines).init h s) :
    handled h <+: expected lines := by
  have hinv : Inv lines h s ∨ Stranded s ∧ handled h <+: expected lines := by
    refine hrun.invariant (fun s h => Inv lines h s ∨ Stranded s ∧ handled h <+: expected lines)
      (.inl (.init kernel lines)) ?_
    rintro h t u es p - ((hstarting | hrunning) | ⟨hstranded, hprefix⟩) - hnext
    · exact .inl (hstarting.move (move_of_step hnext))
    · have hmove := move_of_step hnext
      refine (hrunning.move_or_stranded hmove).imp .inr fun hstranded => ⟨hstranded, ?_⟩
      have haccount := hrunning.account
      rw [hrunning.account_move hmove] at haccount
      exact ⟨u.child.inHand ++ u.content ++ u.parent.toSend u.cin, by simp [haccount]⟩
    · have hmove := move_of_step hnext
      refine .inr ⟨hstranded.move hmove, ?_⟩
      rwa [handled_append, hstranded.handled_eq_nil hmove, List.append_nil]
  rcases hinv with (hstarting | hrunning) | ⟨-, hprefix⟩
  · simp [hstarting.handled]
  · exact ⟨_, hrunning.account.symm⟩
  · exact hprefix

theorem exists_line_of_handled {k : ℕ} {message : Message}
    (hrun : (messageQueue kernel lines).Run (messageQueue kernel lines).init h s)
    (hk : (handled h)[k]? = some message) (hdefault : message.messageType = .default) :
    ∃ input, lines[k]? = some input ∧ message = .ofLine input := by
  obtain ⟨rest, hrest⟩ := handled_prefix hrun
  have hlt := (List.getElem?_eq_some_iff.mp hk).1
  have hexpected : (expected lines)[k]? = some message := by
    rw [← hrest, List.getElem?_append_left hlt, hk]
  have hlength : k < (lines.map Message.ofLine).length := by
    by_contra hge
    rw [expected, List.getElem?_append_right (by omega)] at hexpected
    obtain rfl : message = .stop := List.mem_singleton.mp (List.mem_of_getElem? hexpected)
    simp [Message.stop, Message.fillStop] at hdefault
  rw [expected, List.getElem?_append_left hlength] at hexpected
  exact exists_line_of_prefix List.prefix_rfl hexpected

end MessageQueue

/-- **The encoding.** In `shm_intro` and `mmap_intro` the size of a line that the parent has written
is the number of the stored bytes, and printing the array shows exactly these bytes, if and only if
the line is shorter than the array and has no NUL. With both semaphores at zero what the child
prints is the lines in order, under the same law, and in `mqueue` the messages that the child prints
are the lines in order, under the same law for the array of a message. -/
theorem encodes_iff (lines : List Line) :
    (∀ prog kernel h s input,
      (handshake prog kernel lines).Run (handshake prog kernel lines).init h s →
        s.parent.written = some input →
          (s.kernel.sharedData.Encodes input ↔
            input.length < Handshake.bufferSize ∧ 0 ∉ input)) ∧
    (∀ prog kernel h s (k : ℕ) (data : Handshake.SharedData),
      (∀ x, (Handshake.Kernel.sema kernel x).opened.value = 0) →
      (handshake prog kernel lines).Run (handshake prog kernel lines).init h s →
        (Handshake.printed h)[k]? = some data →
          ∃ input, lines[k]? = some input ∧
            (data.Encodes input ↔ input.length < Handshake.bufferSize ∧ 0 ∉ input)) ∧
    ∀ kernel h s (k : ℕ) (message : MessageQueue.Message),
      (messageQueue kernel lines).Run (messageQueue kernel lines).init h s →
        (MessageQueue.handled h)[k]? = some message → message.messageType = .default →
          ∃ input, lines[k]? = some input ∧
            (message.Encodes input ↔ input.length < MessageQueue.bufferSize ∧ 0 ∉ input) := by
  refine ⟨fun prog kernel h s input hrun hinput => ?_,
    fun prog kernel h s k data hzero hrun hk => ?_,
    fun kernel h s k message hrun hk hdefault => ?_⟩
  · rw [Handshake.sharedData_of_written hrun hinput]
    exact Handshake.encodes_ofLine_iff input
  · obtain ⟨input, hinput, rfl⟩ := exists_line_of_prefix (Handshake.printed_prefix hzero hrun) hk
    exact ⟨input, hinput, Handshake.encodes_ofLine_iff input⟩
  · obtain ⟨input, hinput, rfl⟩ := MessageQueue.exists_line_of_handled hrun hk hdefault
    exact ⟨input, hinput, MessageQueue.encodes_ofLine_iff input⟩

/-- The child of `mqueue` handles two lines. -/
def MessageQueue.greetingLabels : List Proc :=
  List.flatten [List.replicate 2 .parent, [.child], List.replicate 7 .parent,
    List.replicate 4 .child]

/-- Short lines without a NUL are written as they are, and the children print them. -/
theorem encodes_greetings :
    (∃ h s, (handshake .shmIntro .fresh Handshake.greetings).Run
        (handshake .shmIntro .fresh Handshake.greetings).init h s ∧
      s.parent.written = some [104, 105] ∧ s.kernel.sharedData.Encodes [104, 105]) ∧
    (∃ h s data, (handshake .mmapIntro .fresh Handshake.greetings).Run
        (handshake .mmapIntro .fresh Handshake.greetings).init h s ∧
      (Handshake.printed h)[0]? = some data ∧ data.Encodes [104, 105]) ∧
    ∃ h s message, (messageQueue .fresh Handshake.greetings).Run
        (messageQueue .fresh Handshake.greetings).init h s ∧
      (MessageQueue.handled h)[1]? = some message ∧ message.Encodes [98, 121, 101] := by
  obtain ⟨hwritten, hprinted, hhandled⟩ := encodes_iff Handshake.greetings
  refine ⟨?_, ?_, ?_⟩
  · obtain ⟨s, h, hrun, hinput⟩ := Handshake.exists_written [104, 105] [[98, 121, 101]]
    exact ⟨h, s, hrun, hinput, (hwritten _ _ h s _ hrun hinput).mpr (by decide)⟩
  · obtain ⟨s, h, hrun, hread⟩ := Machine.exists_run_of_exec
      (M := handshake .mmapIntro .fresh Handshake.greetings)
      (Handshake.secondLineLabels .mmapIntro) (f := fun r => (Handshake.printed r.2)[0]?.isSome)
      (b := true) (by decide)
    obtain ⟨data, hdata⟩ := Option.isSome_iff_exists.mp hread
    obtain ⟨input, hinput, hencodes⟩ := hprinted _ _ h s 0 data (fun _ => rfl) hrun hdata
    obtain rfl : [104, 105] = input := Option.some.inj hinput
    exact ⟨h, s, data, hrun, hdata, hencodes.mpr (by decide)⟩
  · obtain ⟨s, h, hrun, hread⟩ := Machine.exists_run_of_exec
      (M := messageQueue .fresh Handshake.greetings) MessageQueue.greetingLabels
      (f := fun r => (MessageQueue.handled r.2)[1]?.map MessageQueue.Message.messageType)
      (b := some .default) (by decide)
    obtain ⟨message, hmessage, hdefault⟩ := Option.map_eq_some_iff.mp hread
    obtain ⟨input, hinput, hencodes⟩ := hhandled _ h s 1 message hrun hmessage hdefault
    obtain rfl : [98, 121, 101] = input := Option.some.inj hinput
    exact ⟨h, s, message, hrun, hmessage, hencodes.mpr (by decide)⟩

end Multithreading.Ipc
