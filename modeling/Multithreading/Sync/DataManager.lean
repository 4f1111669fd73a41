import Multithreading.Transition.Monitor
import Multithreading.Memory.CInt

/-!
# `DataManager`, and the counter under a mutex

`DataManager` guards a vector with a mutex. `ChangeData` releases the old elements before it takes
over the new ones, and `GetCopy` copies one element after the other, so both leave a state inside
the mutex that nobody may see. The copy is made before the guard of `GetCopy` is destroyed: what it
returns is the vector of the last `ChangeData`, and never a mixture.

The threads of `mutex.cpp` increment a plain integer under a mutex, in a read and a write.

## Main definitions

* `DataManager.object`, `dataManager` — the class, and the threads that use it.
* `MutexCounter.object`, `mutexCounter` — the integer, and the threads that increment it.

## Main results

* `DataManager.getCopy_eq_current` — what a copy has.
* `MutexCounter.mutexCounter_total` — every schedule ends with all increments.
-/

open Transition Monitor

namespace Multithreading.Sync

namespace DataManager

/-- The operations of the class. -/
inductive Op
  | changeData (newData : List ℤ)
  | getCopy
  deriving DecidableEq

/-- The program counter in a body, with its variables. -/
inductive Local
  /-- In `ChangeData`, about to release the elements of `m_data`. -/
  | release (newData : List ℤ)
  /-- In `ChangeData`, about to take over the new elements. -/
  | takeOver (newData : List ℤ)
  /-- In `GetCopy`, having copied some elements. -/
  | copy (copied : List ℤ)
  deriving DecidableEq

/-- What an operation returns. -/
inductive Result
  | changed
  | copy (copied : List ℤ)
  deriving DecidableEq

/-- The bodies of the operations on `m_data`. -/
def object : Object Op Local (List ℤ) Result where
  start
    | .changeData newData => .release newData
    | .getCopy => .copy []
  body
    | .release newData, _ => ([], .inl (.takeOver newData))
    | .takeOver newData, _ => (newData, .inr .changed)
    | .copy copied, mData =>
      match mData[copied.length]? with
      | some x => (mData, .inl (.copy (copied ++ [x])))
      | none => (mData, .inr (.copy copied))

end DataManager

/-- Threads that use a `DataManager`. -/
def dataManager {ι : Type*} [DecidableEq ι] (prog : ι → List DataManager.Op) :
    Machine (Config ι (Shared ι (List ℤ)) (Monitor.Local DataManager.Op DataManager.Local
      DataManager.Result)) (ι × Unit) (Monitor.Event ι DataManager.Op DataManager.Result) :=
  monitor DataManager.object [] prog

namespace DataManager

variable {ι : Type*}

/-- The vector of the last `ChangeData` that has taken effect. -/
def current (h : List (Monitor.Event ι Op Result)) : List ℤ :=
  h.foldl (fun xs e => match e with
    | .effect _ (.changeData newData) _ => newData
    | _ => xs) []

theorem current_snoc (h : List (Monitor.Event ι Op Result)) (e : Monitor.Event ι Op Result) :
    current (h ++ [e]) = match e with
      | .effect _ (.changeData newData) _ => newData
      | _ => current h := by
  simp only [current, List.foldl_append, List.foldl_cons, List.foldl_nil]

theorem executes_release {newData mData mData' : List ℤ} {l : Local}
    (h : object.Executes (.release newData) mData l mData') :
    l = .release newData ∨ l = .takeOver newData := by
  induction h with
  | refl => exact .inl rfl
  | tail hpre hstep ih =>
    rcases ih with rfl | rfl
    · simp_all [object]
    · simp [object] at hstep

theorem executes_copy {mData mData' : List ℤ} {l : Local}
    (h : object.Executes (.copy []) mData l mData') :
    mData' = mData ∧ ∃ copied, l = .copy copied ∧ copied <+: mData := by
  induction h with
  | refl => exact ⟨rfl, [], rfl, List.nil_prefix⟩
  | tail hpre hstep ih =>
    obtain ⟨rfl, copied, rfl, rest, hrest⟩ := ih
    subst hrest
    cases rest with
    | nil => simp [object] at hstep
    | cons x rest =>
      obtain ⟨rfl, rfl⟩ : _ ∧ _ := by simpa [object] using hstep
      exact ⟨rfl, copied ++ [x], rfl, rest, by simp⟩

/-- `ChangeData` alone stores the new elements. -/
theorem effect_changeData {newData mData mData' : List ℤ} {r : Result}
    (h : object.Effect (.changeData newData) mData mData' r) :
    mData' = newData ∧ r = .changed := by
  obtain ⟨l, mData₁, hexecutes, hend⟩ := h
  rcases executes_release hexecutes with rfl | rfl
  · simp [object] at hend
  · obtain ⟨rfl, rfl⟩ : _ ∧ _ := by simpa [object] using hend
    exact ⟨rfl, rfl⟩

/-- `GetCopy` alone returns the elements, and changes nothing. -/
theorem effect_getCopy {mData mData' : List ℤ} {r : Result}
    (h : object.Effect .getCopy mData mData' r) : mData' = mData ∧ r = .copy mData := by
  obtain ⟨l, mData₁, hexecutes, hend⟩ := h
  obtain ⟨rfl, copied, rfl, rest, hrest⟩ := executes_copy hexecutes
  subst hrest
  cases rest with
  | nil =>
    obtain ⟨rfl, rfl⟩ : _ ∧ _ := by simpa [object] using hend
    simp
  | cons x rest => simp [object] at hend

variable [DecidableEq ι] {prog : ι → List Op} {i : ι}
  {h pre post : List (Monitor.Event ι Op Result)}

/-- The vector of the object without steps is that of the last `ChangeData`. -/
theorem shared_eq_current {t : Config ι (List ℤ) (Pending Op Result)}
    (hrun : (atomicObject ι object []).Run (atomicObject ι object []).init h t) :
    t.shared = current h := by
  refine hrun.invariant (fun t h => t.shared = current h) rfl fun {h b c e} _ ih hstep => ?_
  rw [current_snoc, ← ih]
  cases hstep with
  | call i op hi => rfl
  | effect i op s r hi heffect =>
    cases op with
    | changeData newData => exact (effect_changeData heffect).1
    | getCopy => exact (effect_getCopy heffect).1
  | ret i r hi => rfl

/-- A copy that is returned was the vector at an instant between the call and the return. -/
theorem exists_effect_getCopy {copied : List ℤ} {c : Config ι _ _}
    (hrun : (dataManager prog).Run (dataManager prog).init
      (pre ++ .ret i (.copy copied) :: post) c) :
    ∃ pre' mid, pre = pre' ++ .effect i .getCopy (.copy copied) :: mid ∧ copied = current pre' ∧
      ∀ e ∈ mid, ¬ e.BoundaryOf i := by
  obtain ⟨t, hatomic, -⟩ := exists_agrees hrun
  obtain ⟨pre', op, mid, b, s, rfl, hpre, heffect, hmid⟩ := exists_effect_of_ret hatomic
  cases op with
  | changeData newData => simpa using (effect_changeData heffect).2
  | getCopy =>
    refine ⟨pre', mid, rfl, ?_, hmid⟩
    rw [← shared_eq_current hpre]
    simpa using (effect_getCopy heffect).2

/-- The steps of a body that are left. -/
def Local.rank : Local → List ℤ → ℕ
  | .release _, _ => 1
  | .takeOver _, _ => 0
  | .copy copied, mData => mData.length - copied.length

theorem rank_lt {l l' : Local} {mData mData' : List ℤ}
    (h : object.body l mData = (mData', .inl l')) : l'.rank mData' < l.rank mData := by
  cases l with
  | release newData =>
    obtain ⟨rfl, rfl⟩ : _ ∧ _ := by simpa [object] using h
    exact Nat.zero_lt_one
  | takeOver newData => simp [object] at h
  | copy copied =>
    by_cases hlt : copied.length < mData.length
    · obtain ⟨rfl, rfl⟩ : _ ∧ _ := by simpa [object, hlt] using h
      simp only [Local.rank, List.length_append, List.length_singleton]
      omega
    · simp [object, hlt] at h

/-- **A copy has the vector of the last `ChangeData`**, whatever the threads do: each `GetCopy` that
returns has taken effect at one instant between its call and its return, and it returns the vector
of the last `ChangeData` before that instant, or the empty one. Every run comes to an end with all
operations executed. -/
theorem getCopy_eq_current [Fintype ι] {c : Config ι _ _}
    (hrun : (dataManager prog).Run (dataManager prog).init h c) :
    (∀ pre i copied post, h = pre ++ .ret i (.copy copied) :: post →
      ∃ pre' mid, pre = pre' ++ .effect i .getCopy (.copy copied) :: mid ∧
        copied = current pre' ∧ ∀ e ∈ mid, ¬ e.BoundaryOf i) ∧
      (dataManager prog).Inevitable (fun _ _ => True) (fun c => ∀ i, (c.threads i).Finished) c := by
  refine ⟨fun pre i copied post hh => ?_, inevitable_finished Local.rank
    (fun _ _ _ _ hbody => rank_lt hbody) hrun⟩
  subst hh
  exact exists_effect_getCopy hrun

/-- A copy that waits while the vector is changed. -/
theorem getCopy_eq_current_changed : ∃ c h,
    (dataManager fun i : Fin 2 => if i = 0 then [.changeData [12]] else [.getCopy]).Run
      (dataManager fun i : Fin 2 => if i = 0 then [.changeData [12]] else [.getCopy]).init h c ∧
    (.ret 1 (.copy [12])) ∈ h ∧ ∃ pre, [12] = current (ι := Fin 2) pre ∧ pre <+: h := by
  obtain ⟨c, h, hrun, hc⟩ := Machine.exists_run_of_exec
    (M := dataManager fun i : Fin 2 => if i = 0 then [.changeData [12]] else [.getCopy])
    [(0, ()), (1, ()), (0, ()), (0, ()), (0, ()), (0, ()), (1, ()), (1, ()), (1, ()), (1, ()),
      (1, ())]
    (f := fun r => r.2.drop 4) (b := [.ret 1 (.copy [12])]) (by decide)
  have hret : h = h.take 4 ++ .ret 1 (.copy [12]) :: [] := by
    rw [← hc, List.take_append_drop]
  obtain ⟨pre, mid, hpre, hcopied, -⟩ := (getCopy_eq_current hrun).1 _ _ _ _ hret
  refine ⟨c, h, hrun, by rw [hret]; simp, pre, hcopied, ?_⟩
  rw [hret, hpre, List.append_assoc]
  exact List.prefix_append _ _

end DataManager

/-! ### The counter -/

namespace MutexCounter

/-- The program counter of `++x` under the mutex. -/
inductive Local
  /-- About to read `x`. -/
  | read
  /-- About to write `x`, with the value that was read. -/
  | write (value : ℤ)
  deriving DecidableEq

/-- An increment of `x`. -/
def object : Object Unit Local ℤ Unit where
  start _ := .read
  body
    | .read, x => (x, .inl (.write x))
    | .write value, _ => (value + 1, .inr ())

end MutexCounter

/-- Threads that increment an integer with the value `x₀` under a mutex, thread `i` in `k i`
rounds. -/
def mutexCounter {ι : Type*} [DecidableEq ι] (x₀ : ℤ) (k : ι → ℕ) :
    Machine (Config ι (Shared ι ℤ) (Monitor.Local Unit MutexCounter.Local Unit)) (ι × Unit)
      (Monitor.Event ι Unit Unit) :=
  monitor MutexCounter.object x₀ fun i => List.replicate (k i) ()

namespace MutexCounter

variable {ι : Type*} [DecidableEq ι] {x₀ x x' : ℤ} {k : ι → ℕ}
  {h : List (Monitor.Event ι Unit Unit)}

theorem executes_read {l : Local} (h : object.Executes .read x l x') :
    x' = x ∧ (l = .read ∨ l = .write x) := by
  induction h with
  | refl => exact ⟨rfl, .inl rfl⟩
  | tail hpre hstep ih =>
    obtain ⟨rfl, rfl | rfl⟩ := ih
    · obtain ⟨rfl, rfl⟩ : _ ∧ _ := by simpa [object] using hstep
      exact ⟨rfl, .inr rfl⟩
    · simp [object] at hstep

theorem effect_increment {r : Unit} (heffect : object.Effect () x x' r) : x' = x + 1 := by
  obtain ⟨l, x₁, hexecutes, hend⟩ := heffect
  obtain ⟨rfl, rfl | rfl⟩ := executes_read hexecutes
  · simp [object] at hend
  · simpa [object, eq_comm] using hend

/-- The integer of the object without steps counts the effects. -/
theorem shared_eq_countP {t : Config ι ℤ (Pending Unit Unit)}
    (hrun : (atomicObject ι object x₀).Run (atomicObject ι object x₀).init h t) :
    t.shared = x₀ + (h.countP Event.isEffect : ℕ) := by
  refine hrun.invariant (fun t h => t.shared = x₀ + (h.countP Event.isEffect : ℕ))
    (by simp [atomicObject]) fun {h b c e} _ ih hstep => ?_
  rw [List.countP_append]
  cases hstep with
  | call i op hi => simpa [Event.isEffect] using ih
  | effect i op s r hi heffect =>
    have hs := effect_increment heffect
    simp only [Config.set_shared, Event.isEffect, List.countP_singleton, if_true, Nat.cast_add,
      Nat.cast_one]
    omega
  | ret i r hi => simpa [Event.isEffect] using ih

/-- The steps of an increment that are left. -/
def Local.rank : Local → ℤ → ℕ
  | .read, _ => 1
  | .write _, _ => 0

theorem rank_lt {l l' : Local} (h : object.body l x = (x', .inl l')) : l'.rank x' < l.rank x := by
  cases l with
  | read =>
    obtain ⟨rfl, rfl⟩ : _ ∧ _ := by simpa [object] using h
    exact Nat.zero_lt_one
  | write value => simp [object] at h

/-- **The mutex keeps every increment.** Every schedule comes to an end, and there the integer has
grown by the number of all rounds. -/
theorem mutexCounter_total [Fintype ι] {c : Config ι _ _}
    (hrun : (mutexCounter x₀ k).Run (mutexCounter x₀ k).init h c) :
    (mutexCounter x₀ k).Inevitable (fun _ _ => True)
      (fun c => (∀ i, (c.threads i).Finished) ∧ c.shared.state = x₀ + (∑ i, k i : ℕ)) c := by
  have hends := inevitable_finished Local.rank (fun _ _ _ _ hbody => rank_lt hbody) hrun
  refine hends.imp_of_run fun h' t hrun' ht => ⟨ht, ?_⟩
  have hall := hrun.trans hrun'
  obtain ⟨a, hatomic, hagrees⟩ := exists_agrees hall
  have hout : t.shared.holder = none := hagrees.mtx.eq_none fun i => by
    rw [ht i]
    rfl
  rw [← hagrees.free hout, shared_eq_countP hatomic, ← sum_length_effectsOf]
  congr 2
  refine Finset.sum_congr rfl fun i _ => ?_
  rw [effectsOf_of_finished hall (ht i), List.length_replicate]

/-- Two threads, one of which waits while the other one has read. -/
theorem mutexCounter_total_two : ∃ c h,
    (mutexCounter 0 fun _ : Fin 2 => 1).Run (mutexCounter 0 fun _ : Fin 2 => 1).init h c ∧
      (mutexCounter 0 fun _ : Fin 2 => 1).next c (1, ()) = none ∧
      (mutexCounter 0 fun _ : Fin 2 => 1).Inevitable (fun _ _ => True)
        (fun c => (∀ i, (c.threads i).Finished) ∧ c.shared.state = 2) c := by
  obtain ⟨c, h, hrun, hc⟩ := Machine.exists_run_of_exec (M := mutexCounter 0 fun _ : Fin 2 => 1)
    [(0, ()), (1, ()), (0, ()), (0, ())]
    (f := fun r => ((mutexCounter 0 fun _ : Fin 2 => 1).next r.1 (1, ())).isNone) (b := true)
    (by decide)
  exact ⟨c, h, hrun, Option.isNone_iff_eq_none.mp hc, by simpa using mutexCounter_total hrun⟩

end MutexCounter

end Multithreading.Sync
