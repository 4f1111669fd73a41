import Multithreading.Transition.Refinement
import Mathlib.Data.Set.Function

/-!
# Retry loops

A thread changes a shared word in a loop: it reads the word, and swaps the word for a new value
unless the word is not the one that it has read. A swap that fails has read the word again. When
the word has not changed since the latest read the swap can fail only spuriously. So every other
failure can be charged to a swap of another thread since the latest read, and no swap is charged
twice.

The library speaks of one thread. The events of a system are seen through a function that says
what an event is for this thread.

## Main definitions

* `Retry.Access`, `Retry.Phase`, `retryLoop` — the accesses to the word, and the retry loop as a
  specification of histories.
* `Retry.ChargedTo` — a failure is charged to the swap of another thread.
* `Retry.LockFree` — failures are charged to different swaps, and the attempts of an operation are
  bounded.

## Main results

* `Retry.lockFree_of_run` — the retry loop is lock-free.
* `Retry.LockFree.attempts_le_one` — an operation that runs alone makes one attempt.
-/

namespace Transition

namespace Retry

/-- What an event is for a thread that changes a shared word in a loop. -/
inductive Access
  /-- The thread begins an operation. -/
  | call
  /-- The thread reads the word, by a load or by a swap that fails spuriously. -/
  | read
  /-- A swap of the thread fails because the word is not the expected one, and reads the word. -/
  | failure
  /-- A swap of the thread succeeds. -/
  | swap
  /-- A swap of another thread succeeds. -/
  | rival
  /-- The thread ends its operation. -/
  | ret
  /-- None of these. -/
  | other
  deriving DecidableEq

/-- The thread reads the word. -/
def Access.Reads : Access → Prop
  | read | failure => True
  | _ => False

/-- The thread begins or ends an operation. -/
def Access.Bounds : Access → Prop
  | call | ret => True
  | _ => False

/-- What the thread knows of the word. -/
inductive Phase
  /-- The thread is in no operation. -/
  | outside
  /-- The thread has not read the word in its operation. -/
  | called
  /-- The word has not changed since the latest read. -/
  | fresh
  /-- Another thread has swapped the word since the latest read. -/
  | stale
  /-- The thread has swapped the word in its operation. -/
  | done

namespace Phase

/-- The thread has read the word and may swap it. -/
def Loaded : Phase → Prop
  | fresh | stale => True
  | _ => False

/-- The thread may read the word. -/
def Trying (p : Phase) : Prop := p = called ∨ p.Loaded

/-- After a swap of another thread. -/
def overtaken : Phase → Phase
  | fresh => stale
  | p => p

end Phase

/-- The retry loop reads what an event is for the thread. A swap does not fail in the phase
`fresh`. -/
inductive Step (p : Phase) : Access → Phase → Prop
  | call (hp : p = .outside) : Step p .call .called
  | read (hp : p.Trying) : Step p .read .fresh
  | failure (hp : p = .stale) : Step p .failure .fresh
  | swap (hp : p.Loaded) : Step p .swap .done
  | rival : Step p .rival p.overtaken
  | ret : Step p .ret .outside
  | other : Step p .other p

end Retry

open Retry

variable {ε : Type*} (view : ε → Access)

/-- The retry loop of a thread, as a specification of the histories that the thread sees through
`view`. -/
def retryLoop : Spec Phase ε where
  init := .outside
  step p e q := Step p (view e) q

namespace Retry

/-- The latest read of the word is the event `l`, and the thread is still in the operation to which
the read belongs. -/
def LatestRead (h : List ε) (l : ℕ) : Prop :=
  (∃ e ∈ h[l]?, (view e).Reads) ∧
    ∀ m, l < m → ∀ e ∈ h[m]?, ¬ (view e).Reads ∧ ¬ (view e).Bounds

/-- Between the latest read before the event `k` and the event `k` there is the event `r`, at which
another thread swaps the word. -/
def ChargedTo (h : List ε) (k r : ℕ) : Prop :=
  ∃ l, LatestRead view (h.take k) l ∧ l < r ∧ r < k ∧ ∃ e ∈ h[r]?, view e = .rival

/-- The events at which a swap of the thread fails because the word is not the expected one. -/
def failures (h : List ε) : Set ℕ := {k | ∃ e ∈ h[k]?, view e = .failure}

/-- The number of events that are the given access. -/
def count (a : Access) (h : List ε) : ℕ := h.countP fun e => view e = a

/-- The number of attempts to swap the word that do not fail spuriously. -/
def attempts (h : List ε) : ℕ := count view .failure h + count view .swap h

/-- Every failure is charged to a swap of another thread, different failures to different swaps,
and the attempts of an operation that do not fail spuriously are at most one more than the swaps of
other threads during the operation. -/
structure LockFree (h : List ε) : Prop where
  charge : ∃ charge : ℕ → ℕ,
    (∀ k ∈ failures view h, ChargedTo view h k (charge k)) ∧ Set.InjOn charge (failures view h)
  attempts_le : ∀ pre e op post, h = pre ++ e :: (op ++ post) → view e = .call →
    (∀ e' ∈ op, view e' ≠ .call) → attempts view op ≤ count view .rival op + 1

variable {view} {h : List ε} {p : Phase}

theorem run_single {e : ε} {a : Access} {q : Phase} (he : view e = a) (hstep : Step p a q) :
    (retryLoop view).Run p [e] q :=
  Spec.Run.single (show Step p (view e) q by rwa [he])

theorem run_of_other (hother : ∀ e ∈ h, view e = .other) : (retryLoop view).Run p h p := by
  induction h with
  | nil => exact .refl
  | cons e h ih =>
    exact (run_single (hother e List.mem_cons_self) .other).trans
      (ih fun e' he' => hother e' (List.mem_cons_of_mem e he'))

/-! ### Charging -/

theorem LatestRead.lt_length {l : ℕ} (hl : LatestRead view h l) : l < h.length := by
  obtain ⟨e, he, -⟩ := hl.1
  exact (List.getElem?_eq_some_iff.mp he).1

theorem LatestRead.snoc {l : ℕ} (hl : LatestRead view h l) {e : ε}
    (he : ¬ (view e).Reads ∧ ¬ (view e).Bounds) : LatestRead view (h ++ [e]) l := by
  refine ⟨?_, fun m hm e' he' => ?_⟩
  · rw [List.getElem?_append_left hl.lt_length]
    exact hl.1
  · rcases lt_or_ge m h.length with hlt | hge
    · rw [List.getElem?_append_left hlt] at he'
      exact hl.2 m hm e' he'
    · rw [List.getElem?_append_right hge] at he'
      obtain rfl : e' = e := List.mem_singleton.mp (List.mem_of_getElem? he')
      exact he

theorem latestRead_snoc {e : ε} (he : (view e).Reads) : LatestRead view (h ++ [e]) h.length := by
  refine ⟨⟨e, by simp, he⟩, fun m hm e' he' => ?_⟩
  have hnone : (h ++ [e])[m]? = none := List.getElem?_eq_none (by simp; omega)
  simp [hnone] at he'

/-- What a phase says of the history. -/
def Phase.Means (view : ε → Access) (h : List ε) : Phase → Prop
  | fresh => ∃ l, LatestRead view h l
  | stale => ∃ l, LatestRead view h l ∧ ∃ r, l < r ∧ ∃ e ∈ h[r]?, view e = .rival
  | _ => True

theorem Phase.Means.snoc (hp : p.Means view h) {e : ε}
    (he : ¬ (view e).Reads ∧ ¬ (view e).Bounds) : p.Means view (h ++ [e]) := by
  cases p with
  | fresh =>
    obtain ⟨l, hl⟩ := hp
    exact ⟨l, hl.snoc he⟩
  | stale =>
    obtain ⟨l, hl, r, hlr, e', he', hrival⟩ := hp
    refine ⟨l, hl.snoc he, r, hlr, e', ?_, hrival⟩
    rwa [List.getElem?_append_left (List.getElem?_eq_some_iff.mp he').1]
  | _ => trivial

theorem means_of_run (hrun : (retryLoop view).Run .outside h p) : p.Means view h := by
  refine hrun.invariant (fun p h => p.Means view h) trivial fun {h p q e} _ hp hstep => ?_
  have hstep' : Step p (view e) q := hstep
  generalize ha : view e = a at hstep'
  cases hstep' with
  | call | swap | ret => trivial
  | read | failure => exact ⟨h.length, latestRead_snoc (by rw [ha]; trivial)⟩
  | rival =>
    have hquiet : ¬ (view e).Reads ∧ ¬ (view e).Bounds := by simp [ha, Access.Reads, Access.Bounds]
    cases p with
    | fresh =>
      obtain ⟨l, hl⟩ := hp
      exact ⟨l, hl.snoc hquiet, h.length, hl.lt_length, e, by simp, ha⟩
    | stale => exact hp.snoc hquiet
    | _ => trivial
  | other => exact hp.snoc (by simp [ha, Access.Reads, Access.Bounds])

/-- A failure is charged to the swap of another thread. -/
theorem exists_chargedTo (hrun : (retryLoop view).Run .outside h p) {k : ℕ}
    (hk : k ∈ failures view h) : ∃ r, ChargedTo view h k r := by
  obtain ⟨e, he, hfailure⟩ := hk
  obtain ⟨hlt, rfl⟩ := List.getElem?_eq_some_iff.mp he
  have hsplit : h = h.take k ++ h[k] :: h.drop (k + 1) := by
    rw [← List.drop_eq_getElem_cons hlt, List.take_append_drop]
  rw [hsplit, Spec.run_append] at hrun
  obtain ⟨b, hbefore, hafter⟩ := hrun
  obtain ⟨c, hstep, -⟩ := Spec.run_cons.mp hafter
  have hstep' : Step b (view h[k]) c := hstep
  rw [hfailure] at hstep'
  cases hstep' with
  | failure hb =>
    subst hb
    obtain ⟨l, hl, r, hlr, e, he, hrival⟩ := means_of_run hbefore
    obtain ⟨hr, -⟩ := List.getElem?_eq_some_iff.mp he
    rw [List.length_take, Nat.lt_min] at hr
    rw [List.getElem?_take_of_lt hr.1] at he
    exact ⟨r, l, hl, hlr, hr.1, e, he, hrival⟩

/-- Two failures are not charged to the same swap, since the first of them is a read. -/
theorem ChargedTo.not_lt {k₁ k₂ r : ℕ} (hk₁ : k₁ ∈ failures view h) (h₁ : ChargedTo view h k₁ r)
    (h₂ : ChargedTo view h k₂ r) : ¬ k₁ < k₂ := by
  intro hlt
  obtain ⟨-, -, -, hr, -⟩ := h₁
  obtain ⟨l, hl, hlr, -⟩ := h₂
  obtain ⟨e, he, hfailure⟩ := hk₁
  refine (hl.2 k₁ (hlr.trans hr) e ?_).1 (by rw [hfailure]; trivial)
  rwa [List.getElem?_take_of_lt hlt]

/-- The failures are charged to different swaps. -/
theorem exists_charge (hrun : (retryLoop view).Run .outside h p) : ∃ charge : ℕ → ℕ,
    (∀ k ∈ failures view h, ChargedTo view h k (charge k)) ∧
      Set.InjOn charge (failures view h) := by
  have hex : ∀ k, ∃ r, k ∈ failures view h → ChargedTo view h k r := by
    intro k
    by_cases hk : k ∈ failures view h
    · obtain ⟨r, hr⟩ := exists_chargedTo hrun hk
      exact ⟨r, fun _ => hr⟩
    · exact ⟨0, fun hk' => absurd hk' hk⟩
  choose charge hcharge using hex
  refine ⟨charge, hcharge, fun k₁ hk₁ k₂ hk₂ heq => ?_⟩
  have h₁ := hcharge k₁ hk₁
  have h₂ := hcharge k₂ hk₂
  rw [← heq] at h₂
  exact le_antisymm (not_lt.mp (h₂.not_lt hk₂ h₁)) (not_lt.mp (h₁.not_lt hk₁ h₂))

/-! ### Attempts -/

/-- The swap of another thread that has not been charged with a failure. -/
def Phase.credit : Phase → ℕ
  | stale => 1
  | _ => 0

/-- The swap that the operation may still make. -/
def Phase.pending : Phase → ℕ
  | called | fresh | stale => 1
  | _ => 0

@[simp] theorem count_nil (a : Access) : count view a [] = 0 := rfl

@[simp] theorem count_append (a : Access) (h h' : List ε) :
    count view a (h ++ h') = count view a h + count view a h' :=
  List.countP_append

theorem count_singleton (a : Access) (e : ε) :
    count view a [e] = if view e = a then 1 else 0 := by
  simp [count, List.countP_singleton]

/-- An event inside an operation: a failure costs a credit, which only the swap of another thread
earns, and a swap uses up the one that the operation may make. -/
theorem Step.credit_le {q : Phase} {a : Access} (hstep : Step p a q) (ha : a ≠ .call) :
    (if a = .failure then 1 else 0) + q.credit ≤ (if a = .rival then 1 else 0) + p.credit ∧
      (if a = .swap then 1 else 0) + q.pending ≤ p.pending := by
  cases hstep with
  | call => exact absurd rfl ha
  | failure hp =>
    subst hp
    simp [Phase.credit, Phase.pending]
  | read hp | swap hp =>
    cases p <;> simp_all [Phase.Trying, Phase.Loaded, Phase.credit, Phase.pending]
  | rival | ret | other => cases p <;> simp [Phase.overtaken, Phase.credit, Phase.pending]

/-- In an operation every failure is paid for by the swap of another thread, and the thread swaps
the word at most once. -/
theorem credit_le_of_run (hrun : (retryLoop view).Run .called h p)
    (hcall : ∀ e ∈ h, view e ≠ .call) :
    count view .failure h + p.credit ≤ count view .rival h ∧
      count view .swap h + p.pending ≤ 1 := by
  revert hcall
  refine hrun.invariant (fun p h => (∀ e ∈ h, view e ≠ .call) →
    count view .failure h + p.credit ≤ count view .rival h ∧ count view .swap h + p.pending ≤ 1)
    (fun _ => by simp [Phase.credit, Phase.pending]) fun {h p q e} _ ih hstep hcall => ?_
  obtain ⟨hfail, hswap⟩ := ih fun e' he' => hcall e' (List.mem_append_left _ he')
  have hone : Step p (view e) q := hstep
  have hcredit := hone.credit_le (hcall e (by simp))
  simp only [count_append, count_singleton]
  omega

/-- **The retry loop is lock-free.** -/
theorem lockFree_of_run (hrun : (retryLoop view).Run .outside h p) : LockFree view h where
  charge := exists_charge hrun
  attempts_le pre e op post hh he hop := by
    subst hh
    obtain ⟨b, -, hrun⟩ := Spec.run_append.mp hrun
    obtain ⟨c, hstep, hrun⟩ := Spec.run_cons.mp hrun
    obtain ⟨d, hop', -⟩ := Spec.run_append.mp hrun
    have hstep' : Step b (view e) c := hstep
    rw [he] at hstep'
    cases hstep' with
    | call =>
      obtain ⟨hfail, hswap⟩ := credit_le_of_run hop' hop
      rw [attempts]
      omega

/-- An operation that no swap of another thread disturbs makes at most one attempt that does not
fail spuriously. -/
theorem LockFree.attempts_le_one {e : ε} {op : List ε} (hfree : LockFree view (h ++ e :: op))
    (he : view e = .call) (hop : ∀ e' ∈ op, view e' ≠ .call ∧ view e' ≠ .rival) :
    attempts view op ≤ 1 := by
  have hrival : count view .rival op = 0 :=
    List.countP_eq_zero.mpr fun e' he' => by simpa using (hop e' he').2
  have hle := hfree.attempts_le h e op [] (by simp) he fun e' he' => (hop e' he').1
  rwa [hrival] at hle

/-- The operation that a step of a machine calls makes at most one attempt that does not fail
spuriously, in a run under a guard that keeps other swaps and calls away. -/
theorem attempts_le_one_of_runIf {σ α : Type*} {M : Machine σ α ε} {ok : σ → α → Prop}
    (hfree : ∀ {h s}, M.Run M.init h s → LockFree view h)
    (hquiet : ∀ {s t es} (a : α), ok s a → M.next s a = some (t, es) →
      ∀ e ∈ es, view e ≠ .call ∧ view e ≠ .rival)
    {s t u : σ} {a : α} {e : ε} {op : List ε} (hrun : M.Run M.init h s)
    (hcall : M.next s a = some (t, [e])) (he : view e = .call) (hop : M.RunIf ok t op u) :
    attempts view op ≤ 1 := by
  have hwhole : M.Run M.init (h ++ e :: op) u := by
    simpa using (hrun.tail a trivial hcall).trans hop.run
  refine (hfree hwhole).attempts_le_one he ?_
  refine hop.invariant (fun _ op => ∀ e' ∈ op, view e' ≠ .call ∧ view e' ≠ .rival) (by simp) ?_
  intro h' s' t' es b _ hold hok hnext
  exact List.forall_mem_append.mpr ⟨hold, hquiet b hok hnext⟩

end Retry

end Transition
