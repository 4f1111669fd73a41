import Multithreading.Ipc.HandshakeLaw

/-!
# Access to the shared memory

The parent is in its access section from the moment when it begins to write a line or the final zero
until it posts `writeDoneSema`, the child from the moment when it has passed `writeDoneSema` until
it posts `readDoneSema` or leaves its loop. Both sections need the one token of the handshake. What
the parent has published and the child has not yet printed is therefore at most one snapshot, and it
is still what the shared memory holds.

## Main definitions

* `Handshake.Parent.inAccess`, `Handshake.Child.inAccess` — the access sections.
* `Handshake.published` — the snapshots that the parent has published.
* `Handshake.State.unread` — the snapshot that the child has not yet printed.

## Main results

* `Handshake.published_eq_append` — the child has printed what the parent has published, up to the
  snapshot that it has not yet printed.
* `Handshake.exclusive_handover` — exclusive access and the order of the snapshots.
-/

open Transition Memory

namespace Multithreading.Ipc

namespace Handshake

/-- The parent writes to the shared memory. -/
def Parent.inAccess : Parent → Bool
  | storeSize _ | memset _ | memcpy _ | log _ | post _ | storeStop | postStop => true
  | _ => false

/-- The child reads from the shared memory. -/
def Child.inAccess : Child → Bool
  | test | printSize | printContent _ | post => true
  | _ => false

/-- The snapshots that the parent has published. -/
def published (h : List Event) : List SharedData :=
  h.filterMap fun | .published data => some data | _ => none

@[simp] theorem published_append (h h' : List Event) :
    published (h ++ h') = published h ++ published h' :=
  List.filterMap_append

/-- The snapshot that the child has not yet printed. A child that leaves its loop keeps it. -/
def State.unread (s : State) : List SharedData :=
  match s.child with
  | .notForked | .post => []
  | .waitWrite => if (s.kernel.sema .writeDone).value = 0 then [] else [s.kernel.sharedData]
  | _ => [s.kernel.sharedData]

theorem State.length_unread_le (s : State) : s.unread.length ≤ 1 := by
  rw [State.unread]
  split
  · simp
  · simp
  · split <;> simp
  · simp

theorem Parent.token_of_inAccess {l : Parent} (hl : l.inAccess = true) : l.token = 1 := by
  cases l <;> simp_all [Parent.inAccess, Parent.token]

theorem Child.token_of_inAccess {l : Child} (hl : l.inAccess = true) : l.token = 1 := by
  cases l <;> simp_all [Child.inAccess, Child.token]

namespace Running

variable {prog : Program} {lines : List Line} {h : List Event} {s s' : State} {p : Proc}
  {es : List Event}

/-- The two access sections exclude each other. -/
theorem not_inAccess (hinv : Running lines h s) :
    ¬ (s.parent.inAccess = true ∧ s.child.inAccess = true) := by
  rintro ⟨hparent, hchild⟩
  have htoken := hinv.token
  have hp := Parent.token_of_inAccess hparent
  have hc := Child.token_of_inAccess hchild
  omega

theorem waitWrite_of_token (hinv : Running lines h s) (hparent : s.parent.token = 1) :
    s.child = .waitWrite ∧ (s.kernel.sema .writeDone).value = 0 := by
  have htoken := hinv.token
  have hforked := hinv.forked.1
  refine ⟨?_, by omega⟩
  cases hc : s.child <;> simp_all [Child.token]

/-- A step publishes a snapshot or prints the unread one, or leaves both lists alone. -/
theorem unread_move (hinv : Running lines h s) (hmove : Move prog s p s' es) :
    s.unread ++ published es = printed es ++ s'.unread := by
  have htoken := hinv.token
  have hforked := hinv.forked
  cases hmove with
  | setup _ _ hpc | fork hpc => exact absurd hpc (hforked.2 _)
  | storeSize _ hpc | memset _ hpc | memcpy _ hpc | storeStop hpc | postWrite _ hpc
  | postStop hpc =>
    obtain ⟨hchild, hvalue⟩ := hinv.waitWrite_of_token (by rw [hpc]; rfl)
    simp [published, printed, State.unread, hchild, hvalue]
  | printContent size hpc =>
    have htested := hinv.tested
    simp only [hpc, Child.Tested] at htested
    simp [published, printed, State.unread, hpc, ← htested.1]
  | postRead hpc =>
    have hvalue : (s.kernel.sema .writeDone).value = 0 := by
      simp only [hpc, Child.token] at htoken
      omega
    simp [published, printed, State.unread, hpc, hvalue]
  | _ => simp_all [published, printed, State.unread]

end Running

section Handover

variable {prog : Program} {kernel : Kernel} {lines : List Line} {h : List Event} {s : State}

/-- What the parent has published is what the child has printed, followed by the snapshot that it
has not yet printed. -/
theorem published_eq_append (hzero : ∀ x, (kernel.sema x).opened.value = 0)
    (hrun : (handshake prog kernel lines).Run (handshake prog kernel lines).init h s) :
    published h = printed h ++ s.unread := by
  refine hrun.invariant (fun s h => published h = printed h ++ s.unread) rfl ?_
  intro h t u es p hrun heq _ hnext
  have hmove := move_of_step hnext
  rw [published_append, printed_append, heq]
  rcases inv_of_run hzero hrun with hstarting | hrunning
  · obtain ⟨hchild, -, -, calls, hcalls, hvalues⟩ := hstarting
    cases hmove <;> simp_all [published, printed, State.unread]
  · rw [List.append_assoc, List.append_assoc, hrunning.unread_move hmove]

/-- **Exclusive access and ordered hand-over.** With both semaphores at zero, and for every input,
the parent and the child are never both inside their access sections, and the snapshots that the
child has printed are the first of those that the parent has published, at most one behind. -/
theorem exclusive_handover (hzero : ∀ x, (kernel.sema x).opened.value = 0)
    (hrun : (handshake prog kernel lines).Run (handshake prog kernel lines).init h s) :
    ¬ (s.parent.inAccess = true ∧ s.child.inAccess = true) ∧ printed h <+: published h ∧
      (published h).length ≤ (printed h).length + 1 := by
  have heq := published_eq_append hzero hrun
  refine ⟨?_, ⟨s.unread, heq.symm⟩, ?_⟩
  · rcases inv_of_run hzero hrun with hstarting | hrunning
    · simp [hstarting.child, Child.inAccess]
    · exact hrunning.not_inAccess
  · rw [heq, List.length_append]
    exact Nat.add_le_add_left s.length_unread_le _

/-- The parent publishes the first line, the child prints it and posts, the parent publishes the
second line, and the child is woken for it. -/
def secondLineLabels (prog : Program) : List Proc :=
  List.flatten [List.replicate (prog.setup.length + 7) .parent, List.replicate 5 .child,
    List.replicate 7 .parent, [.child]]

/-- The child is in its access section for the second of two lines. -/
theorem exclusive_handover_second_line : ∃ h s,
    (handshake .shmIntro .fresh greetings).Run (handshake .shmIntro .fresh greetings).init h s ∧
      (printed h).length = 1 ∧ (published h).length = 2 ∧ printed h <+: published h ∧
      s.child.inAccess = true ∧ s.parent.inAccess = false := by
  obtain ⟨s, h, hrun, hread⟩ := Machine.exists_run_of_exec
    (M := handshake .shmIntro .fresh greetings) (secondLineLabels .shmIntro)
    (f := fun r => ((printed r.2).length, (published r.2).length, r.1.child.inAccess))
    (b := (1, 2, true)) (by decide)
  simp only [Prod.mk.injEq] at hread
  obtain ⟨hprinted, hpublished, hchild⟩ := hread
  obtain ⟨hexclusive, hprefix, -⟩ := exclusive_handover (fun _ => rfl) hrun
  exact ⟨h, s, hrun, hprinted, hpublished, hprefix, hchild,
    Bool.eq_false_iff.mpr fun hparent => hexclusive ⟨hparent, hchild⟩⟩

end Handover

end Handshake

end Multithreading.Ipc
