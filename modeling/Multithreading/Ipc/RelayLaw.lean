import Multithreading.Ipc.Relay

/-!
# What the relay shows

The bytes that the child has printed, the ones that it has in hand, the ones in the pipe and the
ones that the parent has still to write are together the bytes of the input, in order. What the
child shows of the bytes that a read has returned is another matter: the array is printed up to its
first NUL. A read that fills the array leaves no NUL in it, and a NUL in the input ends the printing
too early.

## Main definitions

* `Relay.Relays` — the child shows what the reads return, and in the end the whole input.
* `Relay.Inv` — the invariant.

## Main results

* `Relay.inv_of_run` — the invariant, for every input and every chunking.
* `Relay.not_relays` — the law fails for a line that fills the array.
* `Relay.relays_iff` — the law holds in a run exactly when no printed chunk fills the array or has a
  NUL, and for all chunkings exactly for the inputs that are shorter than the array and have no NUL.
-/

open Transition Memory

namespace Multithreading.Ipc

namespace Relay

/-! ### The law -/

/-- What the child has printed: the bytes that the read has returned, and the array. -/
def prints (h : List Event) : List (List UInt8 × CharArray bufSize) :=
  h.filterMap fun | .printed chunk buf => some (chunk, buf) | _ => none

@[simp] theorem prints_nil : prints [] = [] := rfl

@[simp] theorem prints_append (h h' : List Event) : prints (h ++ h') = prints h ++ prints h' :=
  List.filterMap_append

@[simp] theorem prints_printed (chunk : List UInt8) (buf : CharArray bufSize) :
    prints [.printed chunk buf] = [(chunk, buf)] := rfl

@[simp] theorem prints_wrote (bytes : ℕ) : prints [.wrote bytes] = [] := rfl

@[simp] theorem prints_exited (p : Proc) : prints [.exited p] = [] := rfl

/-- The child is past its loop. -/
def Child.hasLeft : Child → Bool
  | closeRead | exited => true
  | _ => false

/-- Each time the child shows exactly the bytes that the read has returned, and when it has left its
loop everything that it has shown is the input. -/
structure Relays (lines : List Line) (h : List Event) (s : State) : Prop where
  shows : ∀ p ∈ prints h, p.2.render = some p.1
  complete : s.child.hasLeft = true →
    ((prints h).filterMap fun p => p.2.render).flatten = lines.flatten

/-! ### The invariant -/

/-- The bytes that the child has read and not yet printed. -/
def Child.inHand : Child → List UInt8
  | print chunk _ => chunk
  | _ => []

/-- The bytes that the parent has still to write. -/
def Parent.toWrite (cin : List Line) : Parent → List UInt8
  | write input => input ++ cin.flatten
  | closeWrite | wait | exited => []
  | _ => cin.flatten

/-- The parent has closed the write end. -/
def Parent.hasClosed : Parent → Bool
  | wait | exited => true
  | _ => false

/-- The parent is past the fork. -/
def Parent.hasForked : Parent → Bool
  | create | fork | failed => false
  | _ => true

/-- The parent has opened its end of the pipe. -/
def Parent.hasOpened : Parent → Bool
  | create | fork | failed => false
  | setup calls => .waitOpen ∉ calls
  | _ => true

/-- The child has opened its end of the pipe. -/
def Child.hasOpened : Child → Bool
  | notForked => false
  | setup calls => .waitOpen ∉ calls
  | _ => true

/-- The array has the bytes that the read has returned. -/
def Filled (p : List UInt8 × CharArray bufSize) : Prop :=
  p.2 = received p.1 ∧ p.1.length ≤ bufSize

/-- The array that the child has in hand is filled. -/
def Child.Filled : Child → Prop
  | print chunk buf => Relay.Filled (chunk, buf)
  | _ => True

/-- Where the bytes of the input are, and which process has which end of the pipe open. -/
structure Inv (lines : List Line) (h : List Event) (s : State) : Prop where
  account : lines.flatten =
    ((prints h).map Prod.fst).flatten ++ (s.child.inHand ++ s.pipe ++ s.parent.toWrite s.cin)
  printed : ∀ p ∈ prints h, Filled p
  filled : s.child.Filled
  parentOpen : s.parent.hasOpened = true → s.child.calledOpen = true
  childOpen : s.child.hasOpened = true → s.parent.calledOpen = true
  forked : s.parent.hasForked = false → s.child = .notForked
  left : s.child.hasLeft = true → s.pipe = [] ∧ s.parent.hasClosed = true
  alive : s.parent ≠ .killed

theorem setup_calledOpen (prog : Program) :
    ((Parent.setup prog.parentSetup).hasOpened = true →
      (Child.setup prog.childSetup).calledOpen = true) ∧
      ((Child.setup prog.childSetup).hasOpened = true →
        (Parent.setup prog.parentSetup).calledOpen = true) := by
  cases prog <;> decide

namespace Inv

variable {prog : Program} {lines : List Line} {h : List Event} {s s' : State} {es : List Event}

theorem holdsRead (hinv : Inv lines h s) (hopened : s.parent.hasOpened = true)
    (hclosed : s.parent.hasClosed = false) : s.child.holdsRead = true := by
  have hcalled := hinv.parentOpen hopened
  have hleft := hinv.left
  cases hc : s.child <;> simp_all [Child.calledOpen, Child.holdsRead, Child.hasLeft]

theorem hasClosed (hinv : Inv lines h s) (hopened : s.child.hasOpened = true)
    (hwriter : s.parent.holdsWrite = false) : s.parent.hasClosed = true := by
  have hcalled := hinv.childOpen hopened
  have halive := hinv.alive
  cases hp : s.parent <;>
    simp_all [Parent.calledOpen, Parent.holdsWrite, Parent.hasClosed]

/-- A step moves the first bytes along, or leaves the bytes where they are. -/
theorem account_move (hinv : Inv lines h s) (hmove : Move prog s s' es) :
    s.child.inHand ++ s.pipe ++ s.parent.toWrite s.cin =
      ((prints es).map Prod.fst).flatten ++
        (s'.child.inHand ++ s'.pipe ++ s'.parent.toWrite s'.cin) := by
  cases hmove with
  | writeKilled input hpc hreader =>
    have hread := hinv.holdsRead (by rw [hpc]; rfl) (by rw [hpc]; rfl)
    simp [hreader] at hread
  | read bytes hpc => simp [hpc, Child.inHand]
  | fork hpc =>
    have hchild := hinv.forked (by rw [hpc]; rfl)
    simp [hpc, hchild, Child.inHand, Parent.toWrite]
  | _ => simp_all [Child.inHand, Parent.toWrite]

theorem printed_move (hinv : Inv lines h s) (hmove : Move prog s s' es) :
    (∀ p ∈ prints (h ++ es), Filled p) ∧ s'.child.Filled := by
  have hprinted := hinv.printed
  have hfilled := hinv.filled
  cases hmove with
  | print chunk buf hpc =>
    rw [hpc] at hfilled
    rw [prints_append, prints_printed]
    exact ⟨List.forall_mem_append.mpr ⟨hprinted, List.forall_mem_singleton.mpr hfilled⟩, trivial⟩
  | read bytes hpc hpos hbuf =>
    refine ⟨by simpa using hprinted, rfl, ?_⟩
    rw [List.length_take]
    omega
  | _ =>
    refine ⟨by simpa using hprinted, ?_⟩
    first | exact hfilled | trivial

/-- A process has its end open only when the other one has got to its own. -/
theorem open_move (hinv : Inv lines h s) (hmove : Move prog s s' es) :
    (s'.parent.hasOpened = true → s'.child.calledOpen = true) ∧
      (s'.child.hasOpened = true → s'.parent.calledOpen = true) := by
  have hparent := hinv.parentOpen
  have hchild := hinv.childOpen
  have hforked := hinv.forked
  cases hmove with
  | fork hpc => exact setup_calledOpen prog
  | setupParent c calls hpc hwait =>
    rw [hpc] at hparent hchild
    refine ⟨fun hopened => ?_, fun hopened => ?_⟩
    · by_cases hc : c = .waitOpen
      · exact hwait hc
      · exact hparent (by simpa [Parent.hasOpened, Ne.symm hc] using hopened)
    · have hcalled := hchild hopened
      simp_all [Parent.calledOpen]
  | setupChild c calls hpc hwait =>
    rw [hpc] at hparent hchild
    refine ⟨fun hopened => ?_, fun hopened => ?_⟩
    · have hcalled := hparent hopened
      simp_all [Child.calledOpen]
    · by_cases hc : c = .waitOpen
      · exact hwait hc
      · exact hchild (by simpa [Child.hasOpened, Ne.symm hc] using hopened)
  | _ => simp_all [Parent.hasOpened, Parent.calledOpen, Child.hasOpened, Child.calledOpen]

/-- The child leaves its loop when the parent has closed the write end and nothing is left. -/
theorem left_move (hinv : Inv lines h s) (hmove : Move prog s s' es) :
    s'.child.hasLeft = true → s'.pipe = [] ∧ s'.parent.hasClosed = true := by
  have hleft := hinv.left
  have hforked := hinv.forked
  cases hmove with
  | readEnd hpc hpipe hwriter =>
    intro _
    have hnone : s.parent.holdsWrite = false := by simp_all [State.hasWriter]
    exact ⟨hpipe, hinv.hasClosed (by rw [hpc]; rfl) hnone⟩
  | _ => simp_all [Child.hasLeft, Parent.hasClosed]

theorem move (hinv : Inv lines h s) (hmove : Move prog s s' es) : Inv lines (h ++ es) s' where
  account := by
    rw [hinv.account, hinv.account_move hmove]
    simp
  printed := (hinv.printed_move hmove).1
  filled := (hinv.printed_move hmove).2
  parentOpen := (hinv.open_move hmove).1
  childOpen := (hinv.open_move hmove).2
  forked := by
    have hforked := hinv.forked
    cases hmove <;> simp_all [Parent.hasForked]
  left := hinv.left_move hmove
  alive := by
    have halive := hinv.alive
    cases hmove with
    | writeKilled input hpc hreader =>
      have hread := hinv.holdsRead (by rw [hpc]; rfl) (by rw [hpc]; rfl)
      simp [hreader] at hread
    | _ => simp_all

end Inv

variable {prog : Program} {fifoExists : Bool} {lines : List Line} {h : List Event} {s : State}

/-- The invariant, for every input and every chunking. -/
theorem inv_of_run
    (hrun : (relay prog fifoExists lines).Run (relay prog fifoExists lines).init h s) :
    Inv lines h s := by
  refine hrun.invariant (fun s h => Inv lines h s) ?_
    fun _ _ hinv _ hnext => hinv.move (move_of_step hnext)
  exact ⟨rfl, by simp, trivial, by simp [relay, Parent.hasOpened], by simp [relay, Child.hasOpened],
    fun _ => rfl, by simp [relay, Child.hasLeft], by simp [relay]⟩

/-! ### When the law holds -/

/-- The bytes of a chunk leave room for a NUL in the array, and contain none. -/
def Clean (chunk : List UInt8) : Prop := chunk.length < bufSize ∧ 0 ∉ chunk

/-- A filled array shows its chunk exactly when the chunk is clean. -/
theorem Filled.render_iff {p : List UInt8 × CharArray bufSize} (hp : Filled p) :
    p.2.render = some p.1 ↔ Clean p.1 := by
  have hmin : min p.1.length bufSize = p.1.length := Nat.min_eq_left hp.2
  have hbytes := CharArray.render_ofBytes_iff (n := bufSize) p.1
  rw [CharArray.ofBytes, hmin, List.take_length] at hbytes
  rw [hp.1]
  exact hbytes

/-- **The law in a run** holds exactly when every chunk that is printed is clean. -/
theorem relays_iff_clean
    (hrun : (relay prog fifoExists lines).Run (relay prog fifoExists lines).init h s) :
    Relays lines h s ↔ ∀ p ∈ prints h, Clean p.1 := by
  have hinv := inv_of_run hrun
  refine ⟨fun hrelays p hp => (hinv.printed p hp).render_iff.mp (hrelays.shows p hp),
    fun hclean => ?_⟩
  have hshows : ∀ p ∈ prints h, p.2.render = some p.1 := fun p hp =>
    (hinv.printed p hp).render_iff.mpr (hclean p hp)
  refine ⟨hshows, fun hleft => ?_⟩
  obtain ⟨hpipe, hclosed⟩ := hinv.left hleft
  have hinHand : s.child.inHand = [] := by
    cases hc : s.child <;> simp_all [Child.hasLeft, Child.inHand]
  have htoWrite : s.parent.toWrite s.cin = [] := by
    cases hp : s.parent <;> simp_all [Parent.hasClosed, Parent.toWrite]
  have haccount := hinv.account
  rw [hinHand, hpipe, htoWrite, List.append_nil, List.append_nil, List.append_nil] at haccount
  rw [haccount, List.filterMap_congr hshows]
  exact congrArg List.flatten (List.filterMap_eq_map' (f := Prod.fst) ▸ rfl)

theorem clean_of_run (hlines : Clean lines.flatten)
    (hrun : (relay prog fifoExists lines).Run (relay prog fifoExists lines).init h s) :
    ∀ p ∈ prints h, Clean p.1 := by
  intro p hp
  have hsublist : p.1.Sublist lines.flatten := by
    rw [(inv_of_run hrun).account]
    exact (List.sublist_flatten_of_mem (List.mem_map_of_mem hp)).trans
      (List.sublist_append_left _ _)
  exact ⟨hsublist.length_le.trans_lt hlines.1, fun hzero => hlines.2 (hsublist.subset hzero)⟩

/-! ### A read that returns as much as it can -/

/-- The labels up to the loops of both processes. -/
def startLabels : Program → List Label
  | .pipeIntro => [.parent, .parent, .parent, .parent, .child, .child]
  | .dup => [.parent, .parent, .parent, .parent, .child, .child, .child]
  | .mkfifoIntro =>
    [.parent, .parent, .parent, .child, .parent, .child, .parent, .child]

theorem exists_run_start (prog : Program) (lines : List Line) :
    ∃ h, (relay prog false lines).Run (relay prog false lines).init h
      ⟨prog.named, [], lines, .getline, .read⟩ ∧ prints h = [] := by
  obtain ⟨s, h, hrun, heq⟩ := Machine.exists_run_of_exec (M := relay prog false lines)
    (startLabels prog) (f := fun r => (r.1, prints r.2))
    (b := (⟨prog.named, [], lines, .getline, .read⟩, [])) (by cases prog <;> rfl)
  obtain ⟨hs, hprints⟩ := Prod.mk.inj heq
  exact ⟨h, hs ▸ hrun, hprints⟩

/-- The parent writes all its lines before the child reads. -/
theorem exists_run_writes (cin : List Line) (s : State) (hcin : s.cin = cin)
    (hparent : s.parent = .getline) (hchild : s.child = .read) :
    ∃ h, (relay prog fifoExists lines).Run s h
      { s with pipe := s.pipe ++ cin.flatten, cin := [] } ∧ prints h = [] := by
  induction cin generalizing s with
  | nil =>
    obtain ⟨f, pipe, cin, parent, child⟩ := s
    cases hcin
    exact ⟨[], by simpa using Machine.RunIf.refl, rfl⟩
  | cons input cin ih =>
    obtain ⟨f, pipe, _, _, _⟩ := s
    cases hcin
    cases hparent
    cases hchild
    have hline : (relay prog fifoExists lines).Run ⟨f, pipe, input :: cin, .getline, .read⟩
        [.wrote input.length] ⟨f, pipe ++ input, cin, .getline, .read⟩ :=
      Machine.runIf_of_execIf [.parent, .parent, .parent] rfl
    obtain ⟨h, hrun, hprints⟩ := ih ⟨f, pipe ++ input, cin, .getline, .read⟩ rfl rfl rfl
    refine ⟨[.wrote input.length] ++ h, ?_, by rw [prints_append, hprints]; rfl⟩
    simpa using hline.trans hrun

/-- A run whose first read returns as many bytes as fit into the array. -/
theorem exists_run_prints (prog : Program) (hne : lines.flatten ≠ []) :
    ∃ h s, (relay prog false lines).Run (relay prog false lines).init h s ∧
      prints h = [(lines.flatten.take bufSize, received (lines.flatten.take bufSize))] := by
  obtain ⟨h₁, hstart, hprints₁⟩ := exists_run_start prog lines
  obtain ⟨h₂, hwrites, hprints₂⟩ : ∃ h, (relay prog false lines).Run
      ⟨prog.named, [], lines, .getline, .read⟩ h
        ⟨prog.named, lines.flatten, [], .getline, .read⟩ ∧ prints h = [] :=
    exists_run_writes lines ⟨prog.named, [], lines, .getline, .read⟩ rfl rfl rfl
  have hread : (relay prog false lines).next ⟨prog.named, lines.flatten, [], .getline, .read⟩
      (.read (min bufSize lines.flatten.length)) =
        some (⟨prog.named, lines.flatten.drop (min bufSize lines.flatten.length), [], .getline,
          .print (lines.flatten.take bufSize) (received (lines.flatten.take bufSize))⟩, []) := by
    have hpos := List.length_pos_of_ne_nil hne
    have htake : lines.flatten.take (min bufSize lines.flatten.length) =
        lines.flatten.take bufSize := by simp
    simp only [relay, step, readStep]
    rw [if_pos ⟨trivial, by simp only [bufSize]; omega, by omega, by omega⟩, htake]
  refine ⟨_, _, (((hstart.trans hwrites).tail _ trivial hread).tail .child trivial rfl), ?_⟩
  simp [hprints₁, hprints₂]

/-- A law for all chunkings is a law for the one that fills the array at once. -/
theorem clean_of_relays (hrelays : ∀ h s,
    (relay prog false lines).Run (relay prog false lines).init h s → Relays lines h s) :
    Clean lines.flatten := by
  by_cases hne : lines.flatten = []
  · rw [hne]
    exact ⟨by decide, List.not_mem_nil⟩
  · obtain ⟨h, s, hrun, hprints⟩ := exists_run_prints prog hne
    have hclean := (relays_iff_clean hrun).mp (hrelays h s hrun)
    rw [hprints, List.forall_mem_singleton] at hclean
    obtain ⟨hlength, hzero⟩ := hclean
    rw [List.length_take] at hlength
    have hfits : lines.flatten.length < bufSize := by omega
    rw [List.take_of_length_le hfits.le] at hzero
    exact ⟨hfits, hzero⟩

/-- **The child of every program relays its input** in a run exactly when each read returns fewer
bytes than the array has, and no NUL; so it relays an input for all chunkings exactly when the input
is shorter than the array and has no NUL. -/
theorem relays_iff (prog : Program) (lines : List Line) :
    (∀ fifoExists h s,
        (relay prog fifoExists lines).Run (relay prog fifoExists lines).init h s →
          (Relays lines h s ↔ ∀ p ∈ prints h, Clean p.1)) ∧
      ((∀ h s, (relay prog false lines).Run (relay prog false lines).init h s →
        Relays lines h s) ↔ Clean lines.flatten) :=
  ⟨fun _ _ _ hrun => relays_iff_clean hrun, clean_of_relays, fun hlines _ _ hrun =>
    (relays_iff_clean hrun).mpr (clean_of_run hlines hrun)⟩

/-- A short line is relayed, whatever the reads return. -/
theorem relays_greeting :
    (∀ h s, (relay .dup false [[104, 105]]).Run (relay .dup false [[104, 105]]).init h s →
      Relays [[104, 105]] h s) ∧
      ∃ h s, (relay .dup false [[104, 105]]).Run (relay .dup false [[104, 105]]).init h s ∧
        prints h = [([104], received [104]), ([105], received [105])] ∧
          Relays [[104, 105]] h s := by
  obtain ⟨s, h, hrun, heq⟩ := Machine.exists_run_of_exec (M := relay .dup false [[104, 105]])
    (List.flatten [startLabels .dup, [.parent, .parent, .parent], [.read 1, .child],
      [.read 1, .child]]) (f := fun r => prints r.2)
    (b := [([104], received [104]), ([105], received [105])]) (by rfl)
  have hclean : ∀ p ∈ prints h, Clean p.1 := by
    rw [show prints h = _ from heq, List.forall_mem_cons, List.forall_mem_singleton]
    exact ⟨⟨by decide, by decide⟩, by decide, by decide⟩
  exact ⟨(relays_iff .dup [[104, 105]]).2.mpr ⟨by decide, by decide⟩, h, s, hrun, heq,
    ((relays_iff .dup [[104, 105]]).1 false h s hrun).mpr hclean⟩

/-- **A read that fills the array leaves no NUL in it**: a line of as many bytes as the array has
is not relayed. -/
theorem not_relays :
    ∃ h s, (relay .pipeIntro false [List.replicate bufSize 97]).Run
      (relay .pipeIntro false [List.replicate bufSize 97]).init h s ∧
        ¬ Relays [List.replicate bufSize 97] h s := by
  by_contra hnone
  push Not at hnone
  have hlength := (clean_of_relays hnone).1
  rw [List.flatten_singleton, List.length_replicate] at hlength
  exact absurd hlength (lt_irrefl bufSize)

end Relay

end Multithreading.Ipc
