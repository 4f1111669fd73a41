import Mathlib.Data.List.Infix
import Multithreading.Ipc.RelayLaw

/-!
# The end of the relay

Whatever the reads return, the two processes come to their ends: the child reads until nothing is
left and nobody holds the write end, and it has closed its own copy of the write end before. A named
pipe is opened by both processes, none of which waits for the other one in vain. The reads have then
returned the whole input. The one program that creates a name ends at once when the name exists.

## Main definitions

* `Relay.Placed` — where the processes are in their calls.
* `Relay.State.size` — the steps that are left.

## Main results

* `Relay.relay_ends` — every run comes to an end, with the whole input read.
-/

open Transition Memory

namespace Multithreading.Ipc

namespace Relay

variable {prog : Program} {fifoExists : Bool} {lines : List Line} {h es : List Event}
  {s s' : State}

/-! ### The places of the processes -/

/-- The program creates a name that exists already. -/
def NameTaken (prog : Program) (fifoExists : Bool) : Prop :=
  prog.named = true ∧ fifoExists = true

instance (prog : Program) (fifoExists : Bool) : Decidable (NameTaken prog fifoExists) :=
  inferInstanceAs (Decidable (_ ∧ _))

/-- Where the processes are in their calls. -/
structure Placed (prog : Program) (fifoExists : Bool) (s : State) : Prop where
  name : s.parent = .create → s.fifoExists = fifoExists
  failed : s.parent = .failed → NameTaken prog fifoExists
  created : s.parent ≠ .create → s.parent ≠ .failed → ¬ NameTaken prog fifoExists
  started : s.parent.hasForked = true → s.child ≠ .notForked
  parentCalls : ∀ calls, s.parent = .setup calls → calls <:+ prog.parentSetup
  childCalls : ∀ calls, s.child = .setup calls → calls <:+ prog.childSetup

theorem Placed.move (hplaced : Placed prog fifoExists s) (hmove : Move prog s s' es) :
    Placed prog fifoExists s' := by
  obtain ⟨hname, hfailed, hcreated, hstarted, hparent, hchild⟩ := hplaced
  cases hmove with
  | createFailed hpc hnamed hexists =>
    exact ⟨by simp, fun _ => ⟨hnamed, (hname hpc).symm.trans hexists⟩, by simp, by
      simp [Parent.hasForked], by simp, hchild⟩
  | mkfifo hpc hnamed hexists =>
    refine ⟨by simp, by simp, fun _ _ htaken => ?_, by simp [Parent.hasForked], by simp, hchild⟩
    rw [hname hpc, htaken.2] at hexists
    contradiction
  | pipe hpc hnamed =>
    refine ⟨by simp, by simp, fun _ _ htaken => ?_, by simp [Parent.hasForked], by simp, hchild⟩
    rw [htaken.1] at hnamed
    contradiction
  | fork hpc =>
    exact ⟨by simp, by simp, fun _ _ => hcreated (by simp [hpc]) (by simp [hpc]), by simp,
      by simp +contextual, by simp +contextual⟩
  | setupParent c calls hpc hwait =>
    have hsuffix := hparent _ hpc
    refine ⟨by simp, by simp, fun _ _ => hcreated (by simp [hpc]) (by simp [hpc]),
      fun _ => hstarted (by rw [hpc]; rfl), fun calls' hcalls => ?_, hchild⟩
    obtain rfl : calls = calls' := by simpa using hcalls
    exact (List.suffix_cons c calls).trans hsuffix
  | setupChild c calls hpc hwait =>
    have hsuffix := hchild _ hpc
    refine ⟨hname, hfailed, hcreated, by simp, hparent, fun calls' hcalls => ?_⟩
    obtain rfl : calls = calls' := by simpa using hcalls
    exact (List.suffix_cons c calls).trans hsuffix
  | _ =>
    refine ⟨?_, ?_, ?_, ?_, ?_, ?_⟩ <;> simp_all [Parent.hasForked]

theorem placed_of_run
    (hrun : (relay prog fifoExists lines).Run (relay prog fifoExists lines).init h s) :
    Placed prog fifoExists s := by
  refine hrun.invariant (fun s _ => Placed prog fifoExists s) ?_
    fun _ _ hplaced _ hnext => hplaced.move (move_of_step hnext)
  exact ⟨fun _ => rfl, by simp [relay], by simp [relay], by simp [relay, Parent.hasForked],
    by simp [relay], by simp [relay]⟩

/-! ### The steps that are left -/

/-- The steps of the parent after its lines, those of the child up to its loop included. -/
def Parent.size : Parent → ℕ
  | create => 13
  | fork => 12
  | setup calls => calls.length + 4
  | write _ => 5
  | log _ => 4
  | getline => 3
  | closeWrite => 2
  | wait => 1
  | exited | failed | killed => 0

/-- The steps of the child, except those for what it has still to read. -/
def Child.size : Child → ℕ
  | setup calls => calls.length + 3
  | print _ _ => 3
  | read => 2
  | closeRead => 1
  | notForked | exited => 0

/-- The steps that are left: three for each line, and two for each byte. -/
def State.size (s : State) : ℕ :=
  2 * ((s.parent.toWrite s.cin).length + s.pipe.length) + 3 * s.cin.length + s.parent.size +
    s.child.size

theorem Move.size_lt (hforked : s.parent.hasForked = false → s.child = .notForked)
    (hmove : Move prog s s' es) : s'.size < s.size := by
  cases hmove with
  | fork hpc =>
    have hchild := hforked (by rw [hpc]; rfl)
    cases prog <;>
      simp [State.size, hpc, hchild, Parent.toWrite, Parent.size, Child.size,
        Program.parentSetup, Program.childSetup]
  | read bytes hpc hpos hbuf hpipe =>
    simp only [State.size, hpc, Child.size, List.length_drop]
    omega
  | writeKilled input hpc hreader =>
    simp only [State.size, hpc, Parent.toWrite, Parent.size, List.length_append]
    omega
  | write input hpc hreader =>
    simp only [State.size, hpc, Parent.toWrite, Parent.size, List.length_append]
    omega
  | getline input cin hpc hcin =>
    simp only [State.size, hpc, hcin, Parent.toWrite, Parent.size, List.flatten_cons,
      List.length_append, List.length_cons]
    omega
  | _ => simp_all [State.size, Parent.toWrite, Parent.size, Child.size]

/-! ### A process that waits -/

/-- In its calls the parent waits only for the child to open the named pipe. -/
theorem Placed.parent_waits (hplaced : Placed prog fifoExists s) {c : Call} {calls : List Call}
    (hpc : s.parent = .setup (c :: calls)) (hc : c = .waitOpen) : s.parent.calledOpen = true := by
  have hsuffix := hplaced.parentCalls _ hpc
  rw [hpc, hc] at *
  cases prog <;> simp_all [Program.parentSetup, List.suffix_cons_iff, Parent.calledOpen]

theorem parent_of_step_eq_none (hnone : parentStep prog s = none) :
    (∃ calls, s.parent = .setup (.waitOpen :: calls) ∧ s.child.calledOpen = false) ∨
      s.parent = .wait ∧ s.child ≠ .exited ∨ s.parent = .exited ∨ s.parent = .failed ∨
        s.parent = .killed := by
  unfold parentStep at hnone
  split at hnone
  all_goals try split at hnone
  all_goals try split at hnone
  all_goals simp_all

theorem child_of_step_eq_none (hnone : childStep s = none)
    (hread : ∀ bytes, readStep s bytes = none) :
    (∃ calls, s.child = .setup (.waitOpen :: calls) ∧ s.parent.calledOpen = false) ∨
      s.child = .read ∧ s.hasWriter = true ∨ s.child = .exited ∨ s.child = .notForked := by
  unfold childStep at hnone
  split at hnone
  case h_2 c calls hpc =>
    split at hnone
    · rename_i hwait
      exact .inl ⟨calls, by rw [hpc, hwait.1], hwait.2⟩
    · contradiction
  case h_4 hpc =>
    split at hnone
    · contradiction
    · rename_i hpipe
      refine .inr (.inl ⟨hpc, ?_⟩)
      by_contra hwriter
      -- A read of one byte has something to return.
      have hne : s.pipe ≠ [] := fun h => hpipe ⟨h, Bool.eq_false_iff.mpr hwriter⟩
      have hone := hread 1
      rw [readStep, if_pos ⟨hpc, Nat.one_pos, by decide, List.length_pos_of_ne_nil hne⟩] at hone
      contradiction
  all_goals simp_all

/-- A child without a step has ended when the parent is past its own call of `open` and does not
hold the write end. -/
theorem Placed.child_exited (hplaced : Placed prog fifoExists s)
    (hforked : s.parent.hasForked = true) (hcalled : s.parent.calledOpen = true)
    (hwriter : s.parent.holdsWrite = false) (hnone : childStep s = none)
    (hread : ∀ bytes, readStep s bytes = none) : s.child = .exited := by
  rcases child_of_step_eq_none hnone hread with ⟨calls, -, hcalled'⟩ | ⟨hpc, hheld⟩ | hpc | hpc
  · rw [hcalled] at hcalled'
    contradiction
  · simp [State.hasWriter, hwriter, hpc, Child.holdsWrite] at hheld
  · exact hpc
  · exact absurd hpc (hplaced.started hforked)

/-- A parent that waits for the child to open the named pipe finds a child with a step. -/
theorem Placed.not_waitOpen (hplaced : Placed prog fifoExists s) {calls : List Call}
    (hpc : s.parent = .setup (.waitOpen :: calls)) (hnone : childStep s = none)
    (hread : ∀ bytes, readStep s bytes = none) : s.child.calledOpen = true := by
  have hcalled := hplaced.parent_waits hpc rfl
  rcases child_of_step_eq_none hnone hread with ⟨calls, -, hcalled'⟩ | ⟨hpc', -⟩ | hpc' | hpc'
  · rw [hcalled] at hcalled'
    contradiction
  · rw [hpc']
    rfl
  · rw [hpc']
    rfl
  · exact absurd hpc' (hplaced.started (by rw [hpc]; rfl))

/-- **No process waits in vain**: in a state without a step the processes have ended. -/
theorem ended_of_terminal (hinv : Inv lines h s) (hplaced : Placed prog fifoExists s)
    (hterminal : ∀ a, (relay prog fifoExists lines).next s a = none) :
    if NameTaken prog fifoExists then s.parent = .failed ∧ s.child = .notForked
    else s.parent = .exited ∧ s.child = .exited := by
  have hchild : childStep s = none := hterminal .child
  have hread : ∀ bytes, readStep s bytes = none := fun bytes => hterminal (.read bytes)
  rcases parent_of_step_eq_none (hterminal .parent) with
    ⟨calls, hpc, hcalled⟩ | ⟨hpc, hnot⟩ | hpc | hpc | hpc
  · rw [hplaced.not_waitOpen hpc hchild hread] at hcalled
    contradiction
  · exact absurd (hplaced.child_exited (by rw [hpc]; rfl) (by rw [hpc]; rfl) (by rw [hpc]; rfl)
      hchild hread) hnot
  · rw [if_neg (hplaced.created (by simp [hpc]) (by simp [hpc]))]
    exact ⟨hpc, hplaced.child_exited (by rw [hpc]; rfl) (by rw [hpc]; rfl) (by rw [hpc]; rfl)
      hchild hread⟩
  · rw [if_pos (hplaced.failed hpc)]
    exact ⟨hpc, hinv.forked (by rw [hpc]; rfl)⟩
  · exact absurd hpc hinv.alive

/-- **The relay comes to its end**, for every input and whatever the reads return: both processes
exit, unless the name that the program creates exists already. A child that has exited has been
given the whole input by its reads, byte for byte. -/
theorem relay_ends
    (hrun : (relay prog fifoExists lines).Run (relay prog fifoExists lines).init h s) :
    (relay prog fifoExists lines).Inevitable (fun _ _ => True)
        (fun s => if NameTaken prog fifoExists then s.parent = .failed ∧ s.child = .notForked
          else s.parent = .exited ∧ s.child = .exited) s ∧
      (s.child = .exited → ((prints h).map Prod.fst).flatten = lines.flatten) := by
  refine ⟨?_, fun hexited => ?_⟩
  · refine Machine.inevitable_of_terminal
      (I := fun s => ∃ h, (relay prog fifoExists lines).Run (relay prog fifoExists lines).init h s)
      _ State.size ?_ ?_ ⟨h, hrun⟩
    · rintro s s' es a ⟨h, hrun⟩ - hnext
      exact ⟨⟨_, hrun.tail a trivial hnext⟩,
        (move_of_step hnext).size_lt (inv_of_run hrun).forked⟩
    · rintro s ⟨h, hrun⟩ hterminal
      exact ended_of_terminal (inv_of_run hrun) (placed_of_run hrun) fun a => hterminal a trivial
  · have hinv := inv_of_run hrun
    obtain ⟨hpipe, hclosed⟩ := hinv.left (by rw [hexited]; rfl)
    have htoWrite : s.parent.toWrite s.cin = [] := by
      cases hp : s.parent <;> simp_all [Parent.hasClosed, Parent.toWrite]
    have haccount := hinv.account
    rw [hexited, hpipe, htoWrite] at haccount
    simpa [Child.inHand] using haccount.symm

/-- A line that is read in two parts, and the end of the child. -/
theorem relay_ends_two_reads : ∃ h s,
    (relay .dup false [[104, 105]]).Run (relay .dup false [[104, 105]]).init h s ∧
      s.child = .exited ∧ ((prints h).map Prod.fst).flatten = [104, 105] := by
  obtain ⟨s, h, hrun, hpc⟩ := Machine.exists_run_of_exec (M := relay .dup false [[104, 105]])
    (startLabels .dup ++ [.parent, .parent, .parent, .read 1, .child, .read 1, .child, .parent,
      .parent, .child, .child]) (f := fun r => r.1.child) (b := .exited) (by rfl)
  exact ⟨h, s, hrun, hpc, (relay_ends hrun).2 hpc⟩

end Relay

end Multithreading.Ipc
