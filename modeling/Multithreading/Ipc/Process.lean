import Multithreading.Transition.Machine

/-!
# Parent and child

What the programs of two processes have in common: a machine whose labels say which process moves,
and the question whether a process can be blocked for ever.

## Main definitions

* `Proc`, `Line` — the two processes, and the lines that the parent reads.
* `Released` — no process is blocked for ever before its exit.

## Main results

* `released_of_terminal` — when every run comes to an end and both processes have exited there,
  nobody is blocked for ever on the way.
-/

open Transition

namespace Multithreading.Ipc

/-- A line of the input. -/
abbrev Line := List UInt8

/-- The two processes of a program. -/
inductive Proc
  | parent
  | child
  deriving DecidableEq

variable {σ ε : Type*} {M : Machine σ Proc ε} {Exited : σ → Proc → Prop} {s : σ}

/-- No process is blocked for ever before its exit. -/
def Released (M : Machine σ Proc ε) (Exited : σ → Proc → Prop) (s : σ) : Prop :=
  ∀ p, ¬ Exited s p → ¬ M.BlockedForever (· = p) s

/-- Nobody is blocked for ever when every step under a guard keeps an invariant and lowers a
measure, a process exits by its own step, and both processes have exited in every state with the
invariant where no step is left under the guard. -/
theorem released_of_terminal {I : σ → Prop} (ok : σ → Proc → Prop) (μ : σ → ℕ)
    (hstep : ∀ {s t es} (p : Proc), I s → ok s p → M.next s p = some (t, es) → I t ∧ μ t < μ s)
    (hframe : ∀ {s t es} {p q : Proc}, q ≠ p → M.next s q = some (t, es) → Exited t p → Exited s p)
    (hterminal : ∀ t, I t → (∀ p, ok t p → M.next t p = none) → ∀ p, Exited t p) (hs : I s) :
    Released M Exited s := fun p hp =>
  Machine.not_blockedForever_of_terminal ok μ hstep (fun t => Exited t p)
    (fun _ hqp hnext ht => hframe hqp hnext ht) (fun t ht hblocked => hterminal t ht hblocked p) hs
    hp

/-- A state without steps in which nobody is blocked for ever has seen both processes exit. -/
theorem Released.exited (hs : Released M Exited s) (hterminal : ∀ p, M.next s p = none) (p : Proc) :
    Exited s p := by
  by_contra hp
  exact hs p hp (Machine.blockedForever_of_terminal hterminal _)

end Multithreading.Ipc
