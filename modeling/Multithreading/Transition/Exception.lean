import Multithreading.Transition.Machine

/-!
# Exceptions

A machine whose steps can also be left by an exception: besides its own labels it has one for each
throw point, which leads from the state at the throw point to the state when the exception has left
the operation. An exception emits nothing, since the operation does not return.

## Main definitions

* `Machine.raising` — the machine with the exceptions.
* `Machine.FailedCall` — a call that exits by an exception.

## Main results

* `Machine.invariant_of_raising`, `Machine.FailedCall.invariant` — the invariant rules of the
  machine with exceptions and of a call that fails.
* `Machine.exists_run_of_raising` — when every exception leads back to a state of the machine
  without exceptions, so does every run.
-/

namespace Transition.Machine

variable {σ α τ ε : Type*}

/-- The machine in which, at the throw point `t`, an exception leads to the state that `raise`
gives. -/
def raising (M : Machine σ α ε) (raise : τ → σ → Option σ) : Machine σ (α ⊕ τ) ε where
  init := M.init
  next
    | c, .inl x => M.next c x
    | c, .inr t => (raise t c).map fun d => (d, [])

/-- A call that begins in the state `c` and has come to the state `d` without having returned, where
an exception at the throw point `t` leaves the state `e`. -/
structure FailedCall (M : Machine σ α ε) (raise : τ → σ → Option σ) (idle : σ → Prop)
    (returned : ε → Prop) (c : σ) (t : τ) (d e : σ) : Prop where
  idle : idle c
  run : ∃ h, M.Run c h d ∧ ∀ x ∈ h, ¬ returned x
  raise : raise t d = some e

variable {M : Machine σ α ε} {raise : τ → σ → Option σ} {c d : σ} {h : List ε}

theorem raising_next_inr {t : τ} {es : List ε} :
    (M.raising raise).next c (.inr t) = some (d, es) ↔ raise t c = some d ∧ es = [] := by
  simp only [raising, Option.map_eq_some_iff, Prod.mk.injEq]
  constructor
  · rintro ⟨_, hraise, rfl, rfl⟩
    exact ⟨hraise, rfl⟩
  · rintro ⟨hraise, rfl⟩
    exact ⟨d, hraise, rfl, rfl⟩

/-- What the steps and the exceptions keep holds in every state of a run. -/
theorem invariant_of_raising (I : σ → Prop) (hc : I c)
    (hstep : ∀ {c d x es}, I c → M.next c x = some (d, es) → I d)
    (hraise : ∀ {c d t}, I c → raise t c = some d → I d) (hrun : (M.raising raise).Run c h d) :
    I d := by
  refine hrun.invariant (fun d _ => I d) hc ?_
  rintro h d e es (x | t) - hd - hnext
  · exact hstep hd hnext
  · exact hraise hd (raising_next_inr.mp hnext).1

/-- What the steps of the operation keep, up to its return, holds at the throw point. -/
theorem FailedCall.invariant {idle : σ → Prop} {returned : ε → Prop} {t : τ} {e : σ}
    (hfailed : M.FailedCall raise idle returned c t d e) (I : σ → Prop) (hc : I c)
    (hstep : ∀ {d x d' es}, I d → M.next d x = some (d', es) → (∀ y ∈ es, ¬ returned y) → I d') :
    I d := by
  obtain ⟨h, hrun, hpending⟩ := hfailed.run
  refine hrun.invariant (fun d h => (∀ y ∈ h, ¬ returned y) → I d) (fun _ => hc) ?_ hpending
  intro h d d' es x _ ih _ hnext hpending
  obtain ⟨hbefore, hstep'⟩ := List.forall_mem_append.mp hpending
  exact hstep (ih hbefore) hnext hstep'

/-- When every exception that the guard allows leads back to a state that is reached without
exceptions, so does every run. -/
theorem exists_run_of_raising {ok : σ → α ⊕ τ → Prop}
    (hback : ∀ {h c t d}, M.Run M.init h c → ok c (.inr t) → raise t c = some d →
      ∃ h', M.Run M.init h' d)
    (hrun : (M.raising raise).RunIf ok M.init h c) : ∃ h', M.Run M.init h' c := by
  refine hrun.invariant (fun c _ => ∃ h', M.Run M.init h' c) ⟨[], .refl⟩ ?_
  rintro h c d es (x | t) - ⟨h', hc⟩ hok hnext
  · exact ⟨h' ++ es, hc.tail x trivial hnext⟩
  · exact hback hc hok (raising_next_inr.mp hnext).1

end Transition.Machine
