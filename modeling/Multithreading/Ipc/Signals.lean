import Mathlib.Logic.Function.Basic
import Multithreading.Ipc.Process

/-!
# Signals

The program `signals`. The parent sends `SIGUSR1` and then `SIGTERM` to its child and waits for its
end. The child installs a handler for `SIGUSR1`, which sets a flag, polls the flag, and then waits
for `SIGTERM`, which kills it. Until the handler is installed `SIGUSR1` kills it as well.

A signal that has been sent stays pending until it is delivered, at any later moment. A child that
has ended and that nobody has waited for still takes signals, so that no call of `kill` fails.

## Main definitions

* `Signals.State`, `Signals.step`, `signals` — the machine of the two processes and the signals.
* `Signals.Inv` — the invariant.

## Main results

* `Signals.signals_lines` — what the processes print, in every reachable state.
* `Signals.signals_ends` — the parent always comes to its end, and the child before it.
-/

open Transition

namespace Multithreading.Ipc

namespace Signals

/-- The signals that the parent sends. -/
inductive Signal
  | sigUsr1
  | sigTerm
  deriving DecidableEq

/-- The program counter of the parent. -/
inductive Parent
  | fork
  | kill (signal : Signal)
  /-- About to print that the signal has been sent. -/
  | log (signal : Signal)
  | wait
  /-- About to print that it exits. -/
  | logExited
  | exited
  /-- `fork` has failed. -/
  | failed
  deriving DecidableEq

/-- The program counter of the child. -/
inductive Child
  | notForked
  /-- About to install the handler. -/
  | install
  /-- About to load `g_sigUsrReceived`. -/
  | test
  /-- About to print which signal it waits for. -/
  | log (signal : Signal)
  | killed (signal : Signal)
  /-- `signal` has failed, and nobody has caught the exception. -/
  | aborted
  deriving DecidableEq

/-- The child has ended. -/
def Child.ended : Child → Bool
  | killed _ | aborted => true
  | _ => false

/-- The handler is installed. -/
def Child.handles : Child → Bool
  | test | log _ => true
  | _ => false

/-- The state of the program. -/
structure State where
  /-- The signals that have been sent to the child and not delivered. -/
  pending : Signal → Bool
  /-- `g_sigUsrReceived`. -/
  gSigUsrReceived : Bool
  parent : Parent
  child : Child

/-- The lines that are printed. -/
inductive Event
  | sent (signal : Signal)
  | exited
  | waitingFor (signal : Signal)
  deriving DecidableEq

/-- What decides a step: a process moves, a call of it fails, or a signal is delivered. -/
inductive Label
  | proc (p : Proc)
  | fail (p : Proc)
  | deliver (signal : Signal)
  deriving DecidableEq

/-- A step of the parent. -/
def parentStep (s : State) : Option (State × List Event) :=
  match s.parent with
  | .fork => some ({ s with parent := .kill .sigUsr1, child := .install }, [])
  | .kill signal =>
    some ({ s with pending := Function.update s.pending signal true, parent := .log signal }, [])
  | .log .sigUsr1 => some ({ s with parent := .kill .sigTerm }, [.sent .sigUsr1])
  | .log .sigTerm => some ({ s with parent := .wait }, [.sent .sigTerm])
  | .wait => if s.child.ended then some ({ s with parent := .logExited }, []) else none
  | .logExited => some ({ s with parent := .exited }, [.exited])
  | .exited | .failed => none

/-- A step of the child. -/
def childStep (s : State) : Option (State × List Event) :=
  match s.child with
  | .install => some ({ s with child := .test }, [])
  | .test => some ({ s with child := .log (if s.gSigUsrReceived then .sigTerm else .sigUsr1) }, [])
  | .log .sigUsr1 => some ({ s with child := .test }, [.waitingFor .sigUsr1])
  | .log .sigTerm => some (s, [.waitingFor .sigTerm])
  | .notForked | .killed _ | .aborted => none

/-- What a signal does to the child: `SigUsrHandler`, or the end of the child. -/
def deliver (s : State) (signal : Signal) : State :=
  let s := { s with pending := Function.update s.pending signal false }
  if signal = .sigUsr1 ∧ s.child.handles then { s with gSigUsrReceived := true }
  else { s with child := .killed signal }

/-- A step of the program. -/
def step (s : State) : Label → Option (State × List Event)
  | .proc .parent => parentStep s
  | .proc .child => childStep s
  | .fail .parent => if s.parent = .fork then some ({ s with parent := .failed }, []) else none
  | .fail .child => if s.child = .install then some ({ s with child := .aborted }, []) else none
  | .deliver signal =>
    if s.pending signal ∧ s.child ≠ .notForked ∧ s.child.ended = false then
      some (deliver s signal, [])
    else none

/-- What a step can do. -/
inductive Move (s : State) : State → List Event → Prop
  | fork (hpc : s.parent = .fork) :
      Move s { s with parent := .kill .sigUsr1, child := .install } []
  | forkFailed (hpc : s.parent = .fork) : Move s { s with parent := .failed } []
  | kill (signal : Signal) (hpc : s.parent = .kill signal) :
      Move s { s with pending := Function.update s.pending signal true, parent := .log signal } []
  | sentUsr1 (hpc : s.parent = .log .sigUsr1) :
      Move s { s with parent := .kill .sigTerm } [.sent .sigUsr1]
  | sentTerm (hpc : s.parent = .log .sigTerm) :
      Move s { s with parent := .wait } [.sent .sigTerm]
  | wait (hpc : s.parent = .wait) (hended : s.child.ended = true) :
      Move s { s with parent := .logExited } []
  | logExited (hpc : s.parent = .logExited) : Move s { s with parent := .exited } [.exited]
  | install (hpc : s.child = .install) : Move s { s with child := .test } []
  | installFailed (hpc : s.child = .install) : Move s { s with child := .aborted } []
  | test (hpc : s.child = .test) :
      Move s { s with child := .log (if s.gSigUsrReceived then .sigTerm else .sigUsr1) } []
  | waitUsr1 (hpc : s.child = .log .sigUsr1) :
      Move s { s with child := .test } [.waitingFor .sigUsr1]
  | waitTerm (hpc : s.child = .log .sigTerm) : Move s s [.waitingFor .sigTerm]
  | handle (hpending : s.pending .sigUsr1 = true) (hhandles : s.child.handles = true) :
      Move s { s with
        pending := Function.update s.pending .sigUsr1 false, gSigUsrReceived := true } []
  | die (signal : Signal) (hpending : s.pending signal = true) (hforked : s.child ≠ .notForked)
      (hended : s.child.ended = false) (hnot : signal = .sigUsr1 → s.child.handles = false) :
      Move s { s with
        pending := Function.update s.pending signal false, child := .killed signal } []

variable {s s' : State} {es : List Event}

theorem move_of_step {a : Label} (hstep : step s a = some (s', es)) : Move s s' es := by
  obtain ⟨_ | _⟩ | ⟨_ | _⟩ | signal := a
  · rw [step, parentStep] at hstep
    split at hstep
    all_goals try split at hstep
    all_goals try contradiction
    all_goals
      obtain ⟨rfl, rfl⟩ := Prod.mk.inj (Option.some.inj hstep)
      constructor
      all_goals assumption
  · rw [step, childStep] at hstep
    split at hstep
    all_goals try contradiction
    all_goals
      obtain ⟨rfl, rfl⟩ := Prod.mk.inj (Option.some.inj hstep)
      constructor
      all_goals assumption
  · rw [step] at hstep
    split at hstep
    · rename_i hpc
      obtain ⟨rfl, rfl⟩ := Prod.mk.inj (Option.some.inj hstep)
      exact .forkFailed hpc
    · contradiction
  · rw [step] at hstep
    split at hstep
    · rename_i hpc
      obtain ⟨rfl, rfl⟩ := Prod.mk.inj (Option.some.inj hstep)
      exact .installFailed hpc
    · contradiction
  · rw [step] at hstep
    split at hstep
    · rename_i hdeliver
      obtain ⟨hpending, hforked, hended⟩ := hdeliver
      obtain ⟨rfl, rfl⟩ := Prod.mk.inj (Option.some.inj hstep)
      rw [deliver]
      split
      · rename_i hhandles
        obtain ⟨rfl, hhandles⟩ := hhandles
        exact .handle hpending hhandles
      · rename_i hnot
        exact .die signal hpending hforked hended fun hsignal =>
          Bool.eq_false_iff.mpr fun hhandles => hnot ⟨hsignal, hhandles⟩
    · contradiction

end Signals

/-- `signals`. -/
def signals : Machine Signals.State Signals.Label Signals.Event where
  init := ⟨fun _ => false, false, .fork, .notForked⟩
  next := Signals.step

namespace Signals

/-! ### The lines -/

/-- The lines of the parent. -/
def parentLines (h : List Event) : List Event :=
  h.filter fun | .sent _ | .exited => true | .waitingFor _ => false

/-- The lines of the child. -/
def childLines (h : List Event) : List Event :=
  h.filter fun | .sent _ | .exited => false | .waitingFor _ => true

@[simp] theorem parentLines_append (h h' : List Event) :
    parentLines (h ++ h') = parentLines h ++ parentLines h' := List.filter_append ..

@[simp] theorem childLines_append (h h' : List Event) :
    childLines (h ++ h') = childLines h ++ childLines h' := List.filter_append ..

@[simp] theorem parentLines_nil : parentLines [] = [] := rfl

@[simp] theorem childLines_nil : childLines [] = [] := rfl

@[simp] theorem parentLines_sent (signal : Signal) :
    parentLines [.sent signal] = [.sent signal] := rfl

@[simp] theorem parentLines_exited : parentLines [.exited] = [.exited] := rfl

@[simp] theorem parentLines_waitingFor (signal : Signal) :
    parentLines [.waitingFor signal] = [] := rfl

@[simp] theorem childLines_sent (signal : Signal) : childLines [.sent signal] = [] := rfl

@[simp] theorem childLines_exited : childLines [.exited] = [] := rfl

@[simp] theorem childLines_waitingFor (signal : Signal) :
    childLines [.waitingFor signal] = [.waitingFor signal] := rfl

/-- What the parent has printed. -/
def Parent.lines : Parent → List Event
  | fork | kill .sigUsr1 | log .sigUsr1 | failed => []
  | kill .sigTerm | log .sigTerm => [.sent .sigUsr1]
  | wait | logExited => [.sent .sigUsr1, .sent .sigTerm]
  | exited => [.sent .sigUsr1, .sent .sigTerm, .exited]

/-- The parent has sent the signal. -/
def Parent.hasSent : Parent → Signal → Bool
  | fork, _ | failed, _ | kill .sigUsr1, _ => false
  | log .sigUsr1, signal | kill .sigTerm, signal => signal = .sigUsr1
  | log .sigTerm, _ | wait, _ | logExited, _ | exited, _ => true

/-- Where the child can be after so many lines for `SIGUSR1` and so many for `SIGTERM`. -/
def Child.Polled (received : Bool) (polls waits : ℕ) : Child → Prop
  | notForked | install | aborted | killed .sigUsr1 => polls = 0 ∧ waits = 0
  | test | log .sigUsr1 => waits = 0
  | log .sigTerm => received = true
  | killed .sigTerm => 0 < waits → received = true

/-! ### What holds in every state -/

/-- The lines, the signals and the places of the processes. -/
structure Inv (s : State) (h : List Event) : Prop where
  printed : parentLines h = s.parent.lines
  polled : ∃ polls waits, childLines h = List.replicate polls (.waitingFor .sigUsr1) ++
    List.replicate waits (.waitingFor .sigTerm) ∧
      s.child.Polled s.gSigUsrReceived polls waits
  pending : ∀ signal, s.pending signal = true → s.parent.hasSent signal = true
  received : s.gSigUsrReceived = true → s.parent.hasSent .sigUsr1 = true
  killed : ∀ signal, s.child = .killed signal → s.parent.hasSent signal = true
  forked : s.child = .notForked ↔ s.parent = .fork ∨ s.parent = .failed
  /-- `SIGTERM` does not get lost. -/
  term : s.parent.hasSent .sigTerm = true → s.pending .sigTerm = true ∨ s.child.ended = true
  waited : s.parent = .logExited ∨ s.parent = .exited → s.child.ended = true

variable {s s' : State} {h es : List Event}

theorem Inv.parent_move (hinv : Inv s h) {pending : Signal → Bool} {parent : Parent}
    (hfork : s.parent ≠ .fork) (hfork' : parent ≠ .fork) (hfailed : s.parent ≠ .failed)
    (hfailed' : parent ≠ .failed)
    (hlines : s.parent.lines ++ es = parent.lines) (hes : parentLines es = es)
    (hsent : ∀ signal, s.parent.hasSent signal = true → parent.hasSent signal = true)
    (hpending : ∀ signal, pending signal = true → parent.hasSent signal = true)
    (hterm : parent.hasSent .sigTerm = true → pending .sigTerm = true ∨ s.child.ended = true)
    (hwaited : parent = .logExited ∨ parent = .exited → s.child.ended = true) :
    Inv { s with pending := pending, parent := parent } (h ++ es) := by
  have hchild : childLines es = [] := by
    rw [← hes, childLines, parentLines, List.filter_filter, List.filter_eq_nil_iff]
    rintro (_ | _ | _) - <;> simp
  refine ⟨?_, ?_, hpending, fun hreceived => hsent _ (hinv.received hreceived),
    fun signal hsignal => hsent _ (hinv.killed signal hsignal), ?_, hterm, hwaited⟩
  · rw [parentLines_append, hinv.printed, hes, hlines]
  · obtain ⟨polls, waits, hlines, hpolled⟩ := hinv.polled
    exact ⟨polls, waits, by rw [childLines_append, hlines, hchild, List.append_nil], hpolled⟩
  · have hforked := hinv.forked
    simp_all

theorem Inv.child_move (hinv : Inv s h) {pending : Signal → Bool} {received : Bool} {child : Child}
    (hchild : s.child ≠ .notForked) (hchild' : child ≠ .notForked) (hes : parentLines es = [])
    (hpolled : ∀ polls waits, s.child.Polled s.gSigUsrReceived polls waits →
      ∃ polls' waits', List.replicate polls (.waitingFor .sigUsr1) ++
        List.replicate waits (.waitingFor .sigTerm) ++ childLines es =
          List.replicate polls' (.waitingFor .sigUsr1) ++
            List.replicate waits' (.waitingFor .sigTerm) ∧
        child.Polled received polls' waits')
    (hpending : ∀ signal, pending signal = true → s.pending signal = true)
    (hreceived : received = true → s.parent.hasSent .sigUsr1 = true)
    (hkilled : ∀ signal, child = .killed signal → s.parent.hasSent signal = true)
    (hterm : s.pending .sigTerm = true ∨ s.child.ended = true →
      pending .sigTerm = true ∨ child.ended = true)
    (hended : s.child.ended = true → child.ended = true) :
    Inv ⟨pending, received, s.parent, child⟩ (h ++ es) := by
  refine ⟨?_, ?_, fun signal hsignal => hinv.pending signal (hpending signal hsignal), hreceived,
    hkilled, ?_, fun hsent => hterm (hinv.term hsent), fun hpc => hended (hinv.waited hpc)⟩
  · rw [parentLines_append, hinv.printed, hes, List.append_nil]
  · obtain ⟨polls, waits, hlines, hp⟩ := hinv.polled
    obtain ⟨polls', waits', hlines', hp'⟩ := hpolled polls waits hp
    exact ⟨polls', waits', by rw [childLines_append, hlines, hlines'], hp'⟩
  · have hforked := hinv.forked
    simp_all

theorem pending_of_delivered {pending : Signal → Bool} {signal signal' : Signal}
    (hp : Function.update pending signal false signal' = true) : pending signal' = true := by
  by_cases hs : signal' = signal
  · simp [hs] at hp
  · simpa [hs] using hp

/-- **Every step keeps the invariant.** -/
theorem Inv.move (hinv : Inv s h) (hmove : Move s s' es) : Inv s' (h ++ es) := by
  have hpending := hinv.pending
  have hreceived := hinv.received
  have hkilled := hinv.killed
  have hterm := hinv.term
  have hwaited := hinv.waited
  cases hmove with
  | fork hpc =>
    obtain ⟨polls, waits, hlines, hpolled⟩ := hinv.polled
    have hnone := hinv.forked.mpr (.inl hpc)
    rw [hpc] at hpending hreceived
    have hquiet : ∀ signal, s.pending signal = false := fun signal => by
      simpa [Parent.hasSent] using hpending signal
    refine ⟨?_, ⟨polls, waits, by simpa using hlines, ?_⟩, by simp [hquiet], ?_, by simp,
      by simp, by simp [Parent.hasSent], by simp⟩
    · simp [hinv.printed, hpc, Parent.lines]
    · simpa [Child.Polled, hnone] using hpolled
    · simpa [Parent.hasSent] using hreceived
  | forkFailed hpc =>
    rw [hpc] at hpending hreceived hkilled hterm
    refine ⟨by simp [hinv.printed, hpc, Parent.lines], by simpa using hinv.polled, hpending,
      hreceived, hkilled, ?_, hterm, by simp⟩
    simp [hinv.forked, hpc]
  | kill signal hpc =>
    refine hinv.parent_move (by simp [hpc]) (by simp) (by simp [hpc]) (by simp) ?_ rfl ?_ ?_ ?_
      (by simp)
    · cases signal <;> simp [hpc, Parent.lines]
    · cases signal <;> simp +contextual [hpc, Parent.hasSent]
    · intro signal' hsignal
      rw [hpc] at hpending
      by_cases hs : signal' = signal
      · subst hs
        cases signal' <;> simp [Parent.hasSent]
      · rw [Function.update_of_ne hs] at hsignal
        have hsent := hpending signal' hsignal
        cases signal <;> simp_all [Parent.hasSent]
    · cases signal <;> simp [Parent.hasSent]
  | sentUsr1 hpc =>
    rw [hpc] at hpending
    refine hinv.parent_move (by simp [hpc]) (by simp) (by simp [hpc]) (by simp)
      (by simp [hpc, Parent.lines]) rfl (by simp [hpc, Parent.hasSent]) ?_
      (by simp [Parent.hasSent]) (by simp)
    simpa [Parent.hasSent] using hpending
  | sentTerm hpc =>
    rw [hpc] at hterm
    exact hinv.parent_move (by simp [hpc]) (by simp) (by simp [hpc]) (by simp)
      (by simp [hpc, Parent.lines]) rfl (by simp [Parent.hasSent]) (by simp [Parent.hasSent])
      (fun _ => hterm rfl) (by simp)
  | wait hpc hended =>
    exact hinv.parent_move (by simp [hpc]) (by simp) (by simp [hpc]) (by simp)
      (by simp [hpc, Parent.lines]) rfl (by simp [Parent.hasSent]) (by simp [Parent.hasSent])
      (fun _ => .inr hended) (fun _ => hended)
  | logExited hpc =>
    exact hinv.parent_move (by simp [hpc]) (by simp) (by simp [hpc]) (by simp)
      (by simp [hpc, Parent.lines]) rfl (by simp [Parent.hasSent]) (by simp [Parent.hasSent])
      (fun _ => .inr (hwaited (.inl hpc))) (fun _ => hwaited (.inl hpc))
  | install hpc =>
    refine hinv.child_move (by simp [hpc]) (by simp) rfl (fun polls waits hp => ?_)
      (fun _ hp => hp) hreceived (by simp) (by simp [hpc, Child.ended]) (by simp [hpc, Child.ended])
    have hzero : polls = 0 ∧ waits = 0 := by simpa [Child.Polled, hpc] using hp
    exact ⟨polls, waits, by simp, hzero.2⟩
  | installFailed hpc =>
    refine hinv.child_move (by simp [hpc]) (by simp) rfl (fun polls waits hp => ?_)
      (fun _ hp => hp) hreceived (by simp) (fun _ => .inr rfl) (fun _ => rfl)
    have hzero : polls = 0 ∧ waits = 0 := by simpa [Child.Polled, hpc] using hp
    exact ⟨polls, waits, by simp, hzero⟩
  | test hpc =>
    refine hinv.child_move (by simp [hpc]) (by simp) rfl (fun polls waits hp => ?_)
      (fun _ hp => hp) hreceived (by simp) (by simp [hpc, Child.ended]) (by simp [hpc, Child.ended])
    obtain rfl : waits = 0 := by simpa [Child.Polled, hpc] using hp
    refine ⟨polls, 0, by simp, ?_⟩
    cases hflag : s.gSigUsrReceived <;> simp [Child.Polled]
  | waitUsr1 hpc =>
    refine hinv.child_move (by simp [hpc]) (by simp) rfl (fun polls waits hp => ?_)
      (fun _ hp => hp) hreceived (by simp) (by simp [hpc, Child.ended]) (by simp [hpc, Child.ended])
    obtain rfl : waits = 0 := by simpa [Child.Polled, hpc] using hp
    exact ⟨polls + 1, 0, by simp [List.replicate_succ'], rfl⟩
  | waitTerm hpc =>
    refine hinv.child_move (by simp [hpc]) (by simp [hpc]) rfl (fun polls waits hp => ?_)
      (fun _ hp => hp) hreceived hkilled (fun hp => hp) (fun hp => hp)
    have hflag : s.gSigUsrReceived = true := by simpa [Child.Polled, hpc] using hp
    exact ⟨polls, waits + 1, by simp [List.replicate_succ'],
      by simpa [Child.Polled, hpc] using hflag⟩
  | handle hp hhandles =>
    have hchild : s.child ≠ .notForked := fun hnone => by simp [hnone, Child.handles] at hhandles
    refine hinv.child_move hchild hchild rfl (fun polls waits hpolled => ?_)
      (fun _ => pending_of_delivered) (fun _ => hpending _ hp) hkilled (by simp) (fun hp => hp)
    refine ⟨polls, waits, by simp, ?_⟩
    cases hc : s.child with
    | log signal => cases signal <;> simp_all [Child.Polled]
    | _ => simp_all [Child.Polled, Child.handles]
  | die signal hp hforked hended hnot =>
    refine hinv.child_move hforked (by simp) rfl (fun polls waits hpolled => ?_)
      (fun _ => pending_of_delivered) hreceived ?_ (fun _ => .inr rfl) (fun _ => rfl)
    · refine ⟨polls, waits, by simp, ?_⟩
      cases signal with
      | sigUsr1 =>
        have hinstall : s.child = .install := by
          have hhandles := hnot rfl
          cases hc : s.child <;> simp_all [Child.handles, Child.ended]
        simpa [Child.Polled, hinstall] using hpolled
      | sigTerm =>
        intro hwaits
        cases hc : s.child with
        | log signal => cases signal <;> simp_all [Child.Polled]
        | _ => simp_all [Child.Polled, Child.ended]
    · intro signal' hsignal
      obtain rfl : signal = signal' := by simpa using hsignal
      exact hpending _ hp

theorem inv_of_run (hrun : signals.Run signals.init h s) : Inv s h := by
  refine hrun.invariant (fun s h => Inv s h) ?_
    fun _ _ hinv _ hnext => hinv.move (move_of_step hnext)
  exact ⟨rfl, ⟨0, 0, rfl, rfl, rfl⟩, by simp [signals], by simp [signals], by simp [signals],
    by simp [signals], by simp [signals, Parent.hasSent], by simp [signals]⟩

/-- A child that has printed a line for `SIGTERM` has handled `SIGUSR1`. -/
theorem Child.Polled.received {received : Bool} {polls waits : ℕ} {child : Child}
    (hpolled : child.Polled received polls waits) (hwaits : 0 < waits) : received = true := by
  cases child with
  | log signal => cases signal <;> simp_all [Child.Polled]
  | killed signal => cases signal <;> simp_all [Child.Polled]
  | _ => simp_all [Child.Polled]

/-- **What the processes print.** The parent prints its three lines in order, as far as it has come,
and has seen the child end when it exits. The child prints lines for `SIGUSR1` and then lines for
`SIGTERM`, the second ones only after its handler has run, which is after the parent has sent
`SIGUSR1`. A child that `SIGUSR1` kills has had no handler, and has printed nothing. -/
theorem signals_lines (hrun : signals.Run signals.init h s) :
    parentLines h <+: [.sent .sigUsr1, .sent .sigTerm, .exited] ∧
      (s.parent = .exited → s.child.ended = true ∧
        parentLines h = [.sent .sigUsr1, .sent .sigTerm, .exited]) ∧
      (∃ polls waits, childLines h = List.replicate polls (.waitingFor .sigUsr1) ++
        List.replicate waits (.waitingFor .sigTerm) ∧
          (0 < waits → s.gSigUsrReceived = true)) ∧
      (s.gSigUsrReceived = true → s.parent.hasSent .sigUsr1 = true) ∧
      (s.child = .killed .sigUsr1 → childLines h = []) := by
  have hinv := inv_of_run hrun
  obtain ⟨polls, waits, hlines, hpolled⟩ := hinv.polled
  refine ⟨?_, fun hpc => ⟨hinv.waited (.inr hpc), ?_⟩,
    ⟨polls, waits, hlines, hpolled.received⟩, hinv.received, fun hkilled => ?_⟩
  · rw [hinv.printed]
    cases s.parent with
    | kill signal => cases signal <;> decide
    | log signal => cases signal <;> decide
    | _ => decide
  · rw [hinv.printed, hpc]
    rfl
  · rw [hkilled] at hpolled
    obtain ⟨rfl, rfl⟩ := hpolled
    simpa using hlines

/-- A child that is killed before it has installed its handler. -/
theorem signals_lines_killed : ∃ h s, signals.Run signals.init h s ∧
    s.child = .killed .sigUsr1 ∧ s.parent = .exited ∧ childLines h = [] := by
  obtain ⟨s, h, hrun, hpc⟩ := Machine.exists_run_of_exec (M := signals)
    [.proc .parent, .proc .parent, .deliver .sigUsr1, .proc .parent, .proc .parent, .proc .parent,
      .proc .parent, .proc .parent]
    (f := fun r => (r.1.child, r.1.parent)) (b := (.killed .sigUsr1, .exited)) (by decide)
  obtain ⟨hchild, hparent⟩ := Prod.mk.inj hpc
  exact ⟨h, s, hrun, hchild, hparent, (signals_lines hrun).2.2.2.2 hchild⟩

/-! ### The end of the processes -/

/-- The steps that the parent can still take, with the signals that they send. -/
def Parent.size : Parent → ℕ
  | fork => 10
  | kill .sigUsr1 => 8
  | log .sigUsr1 => 6
  | kill .sigTerm => 5
  | log .sigTerm => 3
  | wait => 2
  | logExited => 1
  | exited | failed => 0

/-- The steps that are left, without those of the child's loops. -/
def State.size (s : State) : ℕ :=
  s.parent.size + (s.pending .sigUsr1).toNat + (s.pending .sigTerm).toNat +
    if s.child = .install then 1 else 0

/-- The child does not poll: of its own steps it takes only the one that installs the handler. -/
def Unpolled (s : State) (a : Label) : Prop := a = .proc .child → s.child = .install

theorem size_lt_of_step {a : Label} (hunforked : s.parent = .fork → s.child = .notForked)
    (hunpolled : Unpolled s a) (hstep : step s a = some (s', es)) : s'.size < s.size := by
  obtain ⟨_ | _⟩ | ⟨_ | _⟩ | signal := a
  · rw [step, parentStep] at hstep
    split at hstep
    all_goals try split at hstep
    all_goals try contradiction
    all_goals obtain ⟨rfl, rfl⟩ := Prod.mk.inj (Option.some.inj hstep)
    case h_2 signal hpc =>
      have husr1 := (s.pending .sigUsr1).toNat_le
      have hterm := (s.pending .sigTerm).toNat_le
      cases signal <;> simp [State.size, hpc, Parent.size] <;> omega
    case h_1 hpc =>
      simp only [State.size, hpc, hunforked hpc, Parent.size, if_true]
      omega
    all_goals
      rename_i hpc
      simp [State.size, *, Parent.size]
  · have hpc : s.child = .install := hunpolled rfl
    rw [step, childStep, hpc] at hstep
    obtain ⟨rfl, rfl⟩ := Prod.mk.inj (Option.some.inj hstep)
    simp [State.size, hpc]
  · rw [step] at hstep
    split at hstep
    · rename_i hpc
      obtain ⟨rfl, rfl⟩ := Prod.mk.inj (Option.some.inj hstep)
      simp only [State.size, hpc, Parent.size]
      omega
    · contradiction
  · rw [step] at hstep
    split at hstep
    · rename_i hpc
      obtain ⟨rfl, rfl⟩ := Prod.mk.inj (Option.some.inj hstep)
      simp [State.size, hpc]
    · contradiction
  · rw [step] at hstep
    split at hstep
    · rename_i hdeliver
      obtain ⟨rfl, rfl⟩ := Prod.mk.inj (Option.some.inj hstep)
      rw [deliver]
      split
      · cases signal <;> simp_all [State.size]
      · cases signal <;> simp_all [State.size] <;> omega
    · contradiction

/-- A state in which only the child's loops have steps is one where the processes have ended. -/
theorem Inv.ended (hinv : Inv s h) (hterminal : ∀ a, Unpolled s a → signals.next s a = none) :
    s.parent = .exited ∧ s.child.ended = true ∨ s.parent = .failed ∧ s.child = .notForked := by
  have hparent : parentStep s = none := hterminal (.proc .parent) (by simp [Unpolled])
  cases hpc : s.parent with
  | exited => exact .inl ⟨rfl, hinv.waited (.inr hpc)⟩
  | failed => exact .inr ⟨rfl, hinv.forked.mpr (.inr hpc)⟩
  | wait =>
    have hnot : s.child.ended = false := by
      simpa [parentStep, hpc] using hparent
    have hforked : s.child ≠ .notForked := fun hnone => by
      simpa [hpc] using hinv.forked.mp hnone
    -- `SIGTERM` is pending, and can be delivered.
    have hpending : s.pending .sigTerm = true := by
      simpa [hnot] using hinv.term (by rw [hpc]; rfl)
    have hdeliver : step s (.deliver .sigTerm) = none :=
      hterminal (.deliver .sigTerm) (by simp [Unpolled])
    rw [step, if_pos ⟨hpending, hforked, hnot⟩] at hdeliver
    contradiction
  | log signal => cases signal <;> simp [parentStep, hpc] at hparent
  | _ => simp [parentStep, hpc] at hparent

/-- The parent has ended. -/
def Parent.ended (p : Parent) : Prop := p = .exited ∨ p = .failed

theorem parent_eq_of_step {a : Label} (hproc : a ≠ .proc .parent) (hfail : a ≠ .fail .parent)
    (hstep : step s a = some (s', es)) : s'.parent = s.parent := by
  obtain ⟨_ | _⟩ | ⟨_ | _⟩ | signal := a
  · exact absurd rfl hproc
  · rw [step, childStep] at hstep
    split at hstep
    all_goals try contradiction
    all_goals
      obtain ⟨rfl, rfl⟩ := Prod.mk.inj (Option.some.inj hstep)
      rfl
  · exact absurd rfl hfail
  · rw [step] at hstep
    split at hstep
    · obtain ⟨rfl, rfl⟩ := Prod.mk.inj (Option.some.inj hstep)
      rfl
    · contradiction
  · rw [step] at hstep
    split at hstep
    · obtain ⟨rfl, rfl⟩ := Prod.mk.inj (Option.some.inj hstep)
      rw [deliver]
      split <;> rfl
    · contradiction

/-- **The parent comes to its end.** In every reachable state it is not blocked for ever before, and
when the child does not poll any more, every run comes to a state where the parent has exited and
the child has ended, or where `fork` has failed. -/
theorem signals_ends (hrun : signals.Run signals.init h s) :
    signals.Inevitable Unpolled (fun s =>
        s.parent = .exited ∧ s.child.ended = true ∨ s.parent = .failed ∧ s.child = .notForked) s ∧
      (¬ s.parent.ended →
        ¬ signals.BlockedForever (fun a => a = .proc .parent ∨ a = .fail .parent) s) := by
  have hstep : ∀ {s s' es} (a : Label), (∃ h, signals.Run signals.init h s) → Unpolled s a →
      signals.next s a = some (s', es) →
        (∃ h, signals.Run signals.init h s') ∧ s'.size < s.size := by
    rintro s s' es a ⟨h, hrun⟩ hunpolled hnext
    exact ⟨⟨_, hrun.tail a trivial hnext⟩,
      size_lt_of_step (fun hpc => (inv_of_run hrun).forked.mpr (.inl hpc)) hunpolled hnext⟩
  refine ⟨?_, fun hended => ?_⟩
  · refine Machine.inevitable_of_terminal Unpolled State.size hstep ?_ ⟨h, hrun⟩
    rintro s ⟨h, hrun⟩ hterminal
    exact (inv_of_run hrun).ended hterminal
  · refine Machine.not_blockedForever_of_terminal Unpolled State.size hstep
      (fun s => s.parent.ended) ?_ ?_ ⟨h, hrun⟩ hended
    · intro s s' es a hother hnext hdone
      push Not at hother
      rwa [parent_eq_of_step hother.1 hother.2 hnext] at hdone
    · rintro s ⟨h, hrun⟩ hterminal
      exact ((inv_of_run hrun).ended hterminal).imp And.left And.left

/-- A child that polls for a signal that is pending. -/
theorem signals_ends_polling : ∃ h s, signals.Run signals.init h s ∧ s.child = .log .sigUsr1 ∧
    s.pending .sigUsr1 = true ∧
    signals.Inevitable Unpolled (fun s =>
      s.parent = .exited ∧ s.child.ended = true ∨ s.parent = .failed ∧ s.child = .notForked) s ∧
    ¬ signals.BlockedForever (fun a => a = .proc .parent ∨ a = .fail .parent) s := by
  obtain ⟨s, h, hrun, hpc⟩ := Machine.exists_run_of_exec (M := signals)
    [.proc .parent, .proc .child, .proc .child, .proc .parent]
    (f := fun r => (r.1.child, r.1.pending .sigUsr1, r.1.parent))
    (b := (.log .sigUsr1, true, .log .sigUsr1)) (by decide)
  obtain ⟨hchild, hrest⟩ := Prod.mk.inj hpc
  obtain ⟨hpending, hparent⟩ := Prod.mk.inj hrest
  obtain ⟨hends, hmoves⟩ := signals_ends hrun
  refine ⟨h, s, hrun, hchild, hpending, hends, hmoves fun hended => ?_⟩
  rw [show s.parent = _ from hparent] at hended
  simp [Parent.ended] at hended

end Signals

end Multithreading.Ipc
