import Multithreading.Transition.Threads
import Mathlib.Algebra.Order.Ring.Int

/-!
# `ProtectedData`

`UpdateData` locks a mutex by hand and returns early, without unlocking it, when it finds the value
`42`. The call that does so leaves the mutex locked for good: every call that has not returned waits
for it, and the value stays what it is.

Any number of calls run at the same time, each in a thread of its own. In `main` each thread is
joined before the next one begins, which is a guard on the runs: a thread moves only when the ones
before it have returned. Then all calls return exactly when none but the last two stores `42`.

## Main definitions

* `ProtectedData.step`, `protectedData` — the machine of the calls.
* `ProtectedData.Leaked` — a call has returned and left the mutex locked.
* `ProtectedData.Joined` — the guard of `main`.

## Main results

* `ProtectedData.updateData_outcomes` — a leak stops all calls, and how the schedules end.
* `ProtectedData.updates_return_iff` — which sequences of calls return in `main`.
-/

open Transition

namespace Multithreading.Sync

namespace ProtectedData

/-- `m_mtx` with its holder, and `m_data`. -/
structure Shared (ι : Type*) where
  mMtx : Option ι
  mData : ℤ

/-- The program counter of `UpdateData`. -/
inductive Local
  /-- About to lock `m_mtx`. -/
  | lock
  /-- About to compare `m_data` with `42`. -/
  | test
  /-- About to store `newValue`. -/
  | store
  /-- About to unlock `m_mtx`. -/
  | unlock
  | returned
  deriving DecidableEq

variable {ι : Type*}

/-- A step of the call `UpdateData(newValue i)`. The early return keeps the mutex. -/
def step (newValue : ι → ℤ) (i : ι) :
    Unit → Shared ι → Local → Option (Shared ι × Local × List Empty)
  | (), sh, .lock =>
    if sh.mMtx.isNone then some ({ sh with mMtx := some i }, .test, []) else none
  | (), sh, .test => if sh.mData = 42 then some (sh, .returned, []) else some (sh, .store, [])
  | (), sh, .store => some ({ sh with mData := newValue i }, .unlock, [])
  | (), sh, .unlock => some ({ sh with mMtx := none }, .returned, [])
  | (), _, .returned => none

/-- What a step can do, one case for each branch of `step`. -/
inductive Move (newValue : ι → ℤ) (i : ι) (sh : Shared ι) : Local → Shared ι → Local → Prop
  | lock (hfree : sh.mMtx = none) : Move newValue i sh .lock { sh with mMtx := some i } .test
  | leave (hdata : sh.mData = 42) : Move newValue i sh .test sh .returned
  | test (hdata : sh.mData ≠ 42) : Move newValue i sh .test sh .store
  | store : Move newValue i sh .store { sh with mData := newValue i } .unlock
  | unlock : Move newValue i sh .unlock { sh with mMtx := none } .returned

theorem move_of_step {newValue : ι → ℤ} {i : ι} {sh sh' : Shared ι} {l l' : Local}
    {es : List Empty} (h : step newValue i () sh l = some (sh', l', es)) :
    Move newValue i sh l sh' l' := by
  unfold step at h
  split at h
  all_goals try split at h
  all_goals try contradiction
  all_goals
    obtain ⟨rfl, rfl, -⟩ : _ ∧ _ ∧ _ := by simpa using h
    constructor
  all_goals simp_all

theorem of_step_eq_none {newValue : ι → ℤ} {i : ι} {sh : Shared ι} {l : Local}
    (h : step newValue i () sh l = none) : l = .returned ∨ l = .lock ∧ sh.mMtx ≠ none := by
  cases l with
  | lock => simpa [step] using h
  | test => simp [step, ite_eq_iff] at h
  | store => simp [step] at h
  | unlock => simp [step] at h
  | returned => exact .inl rfl

end ProtectedData

/-- The calls `UpdateData(newValue i)`, each in a thread of its own. -/
def protectedData {ι : Type*} [DecidableEq ι] (newValue : ι → ℤ) :
    Machine (Config ι (ProtectedData.Shared ι) ProtectedData.Local) (ι × Unit) Empty :=
  interleave ⟨⟨none, 0⟩, fun _ => .lock⟩ (ProtectedData.step newValue)

namespace ProtectedData

variable {ι : Type*} {newValue : ι → ℤ}

/-- The call is between locking the mutex and its return. -/
def Local.inside : Local → Bool
  | .test | .store | .unlock => true
  | _ => false

/-- The steps that a call can still take. -/
def Local.size : Local → ℕ
  | .lock => 4
  | .test => 3
  | .store => 2
  | .unlock => 1
  | .returned => 0

/-- A call has returned and left the mutex locked. -/
def Leaked (c : Config ι (Shared ι) Local) : Prop :=
  ∃ i, c.shared.mMtx = some i ∧ c.threads i = .returned

/-- All calls have returned. -/
def AllReturned (c : Config ι (Shared ι) Local) : Prop := ∀ i, c.threads i = .returned

/-- The mutex is held by the call inside, or by one that has found `42`; a call that has stored `42`
has it stored. -/
structure Sound (newValue : ι → ℤ) (sh : Shared ι) (i : ι) (l : Local) : Prop where
  inside : l.inside = true → sh.mMtx = some i
  holder : sh.mMtx = some i → l.inside = true ∨ l = .returned ∧ sh.mData = 42
  store : l = .store → sh.mData ≠ 42
  unlock : l = .unlock → sh.mData = newValue i
  stored : l = .returned → newValue i = 42 → sh.mData = 42

variable {c c' : Config ι (Shared ι) Local} {i j : ι} {sh sh' : Shared ι} {l l' : Local}
  {es : List Empty} {h : List Empty}

theorem Sound.move (hi : Sound newValue sh i l) (hmove : Move newValue i sh l sh' l') :
    Sound newValue sh' i l' := by
  obtain ⟨hinside, hholder, hstore, hunlock, hstored⟩ := hi
  cases hmove with
  | lock hfree => exact ⟨by simp, by simp [Local.inside], by simp, by simp, by simp⟩
  | leave hdata =>
    exact ⟨by simp [Local.inside], by simp [hdata], by simp, by simp, by simp [hdata]⟩
  | test hdata =>
    exact ⟨fun _ => hinside rfl, by simp [Local.inside], by simp [hdata], by simp, by simp⟩
  | store => exact ⟨fun _ => hinside rfl, by simp [Local.inside], by simp, by simp, by simp⟩
  | unlock =>
    refine ⟨by simp [Local.inside], by simp, by simp, by simp, fun _ hi => ?_⟩
    rw [← hi]
    exact hunlock rfl

/-- The other calls keep the invariant: none of them is inside while this one is. -/
theorem Sound.of_ne (hj : Sound newValue sh j l) {lᵢ : Local} (hi : Sound newValue sh i lᵢ)
    (hmove : Move newValue i sh lᵢ sh' l') (hji : j ≠ i) : Sound newValue sh' j l := by
  have hout : sh.mMtx ≠ some j → l.inside = false := fun hne => by
    by_contra hin
    exact hne (hj.inside (by simpa using hin))
  cases hmove with
  | leave hdata => exact hj
  | test hdata => exact hj
  | lock hfree =>
    have hl := hout (by simp [hfree])
    exact ⟨by simp [hl], by simp [Ne.symm hji], hj.store, hj.unlock, hj.stored⟩
  | unlock =>
    have hl := hout (by simp [hi.inside rfl, Ne.symm hji])
    exact ⟨by simp [hl], by simp, hj.store, hj.unlock, hj.stored⟩
  | store =>
    have hmtx := hi.inside rfl
    have hl := hout (by simp [hmtx, Ne.symm hji])
    refine ⟨by simp [hl], by simp [hmtx, Ne.symm hji], ?_, ?_, fun hr hvalue => ?_⟩
    · rintro rfl
      simp [Local.inside] at hl
    · rintro rfl
      simp [Local.inside] at hl
    · exact absurd (hj.stored hr hvalue) (hi.store rfl)

theorem not_leaked_of_inside (hinv : ∀ i, Sound newValue c.shared i (c.threads i))
    (hi : (c.threads i).inside = true) : ¬ Leaked c := by
  rintro ⟨j, hj, hreturned⟩
  obtain rfl : j = i := Option.some.inj (hj.symm.trans ((hinv i).inside hi))
  simp [hreturned, Local.inside] at hi

variable [DecidableEq ι]

/-- After a leak no call moves. -/
theorem next_of_leaked (hinv : ∀ i, Sound newValue c.shared i (c.threads i)) (hleaked : Leaked c)
    (x : ι × Unit) : (protectedData newValue).next c x = none := by
  by_contra hsome
  obtain ⟨⟨c', es⟩, hnext⟩ := Option.ne_none_iff_exists'.mp hsome
  obtain ⟨sh, l, hstep, rfl⟩ := interleave_next_eq_some.mp hnext
  have hout : (c.threads x.1).inside = false := by
    by_contra hin
    exact not_leaked_of_inside hinv (by simpa using hin) hleaked
  have hmove := move_of_step hstep
  obtain ⟨j, hj, -⟩ := hleaked
  generalize c.threads x.1 = l₀ at hmove hout
  cases hmove with
  | lock hfree => simp [hj] at hfree
  | _ => simp [Local.inside] at hout

theorem sound_of_run (hrun : (protectedData newValue).Run (protectedData newValue).init h c) :
    ∀ i, Sound newValue c.shared i (c.threads i) := by
  refine hrun.invariant (fun c _ => ∀ i, Sound newValue c.shared i (c.threads i))
    (fun i => ⟨by simp [protectedData, Local.inside], by simp [protectedData],
      by simp [protectedData], by simp [protectedData], by simp [protectedData]⟩) ?_
  rintro h c c' es ⟨i, ⟨⟩⟩ - hinv - hnext
  obtain ⟨sh, l, hstep, rfl⟩ := interleave_next_eq_some.mp hnext
  have hmove := move_of_step hstep
  exact c.forall_set i sh l (P := Sound newValue sh) ((hinv i).move hmove)
    fun j hji => (hinv j).of_ne (hinv i) hmove hji

theorem census_lt [Fintype ι] (hnext : (protectedData newValue).next c (i, ()) = some (c', es)) :
    c'.census Local.size < c.census Local.size := by
  obtain ⟨sh, l, hstep, rfl⟩ := interleave_next_eq_some.mp hnext
  have hcensus := c.census_set i sh l Local.size
  have hlt : l.size < (c.threads i).size := by
    have hmove := move_of_step hstep
    generalize c.threads i = l₀ at hmove
    cases hmove <;> simp [Local.size]
  omega

omit [DecidableEq ι] in
/-- The call that holds the mutex has left it locked when it cannot move. -/
theorem leaked_of_step_eq_none (hinv : ∀ i, Sound newValue c.shared i (c.threads i))
    (hi : c.shared.mMtx = some i) (hnone : step newValue i () c.shared (c.threads i) = none) :
    Leaked c := by
  rcases (hinv i).holder hi with hin | ⟨hreturned, -⟩
  · rcases of_step_eq_none hnone with hl | ⟨hl, -⟩ <;> simp [hl, Local.inside] at hin
  · exact ⟨i, hi, hreturned⟩

theorem step_eq_none_of_next (hnext : (protectedData newValue).next c (i, ()) = none) :
    step newValue i () c.shared (c.threads i) = none := by
  simpa [protectedData, interleave] using hnext

/-- **What an early return leaves behind.** When a call has returned and left the mutex locked, the
value is `42` and no call ever moves again. Every schedule comes to an end: either all calls have
returned and the mutex is free, or a call has left it locked and the calls that have not returned
wait for it. -/
theorem updateData_outcomes [Fintype ι]
    (hrun : (protectedData newValue).Run (protectedData newValue).init h c) :
    (Leaked c → c.shared.mData = 42 ∧ ∀ p, (protectedData newValue).BlockedForever p c) ∧
      (protectedData newValue).Inevitable (fun _ _ => True)
        (fun c => AllReturned c ∧ c.shared.mMtx = none ∨
          Leaked c ∧ ∀ i, c.threads i ≠ .returned → c.threads i = .lock) c := by
  refine ⟨fun hleaked => ⟨?_, ?_⟩, ?_⟩
  · obtain ⟨i, hi, hreturned⟩ := hleaked
    rcases (sound_of_run hrun i).holder hi with hin | ⟨-, hdata⟩
    · simp [hreturned, Local.inside] at hin
    · exact hdata
  · exact Machine.blockedForever_of_terminal (next_of_leaked (sound_of_run hrun) hleaked)
  · refine Machine.inevitable_of_terminal
      (I := fun c => ∃ h, (protectedData newValue).Run (protectedData newValue).init h c)
      _ (fun c => c.census Local.size) ?_ ?_ ⟨h, hrun⟩
    · rintro c c' es ⟨i, ⟨⟩⟩ ⟨h, hrun⟩ - hnext
      exact ⟨⟨h ++ es, hrun.tail _ trivial hnext⟩, census_lt hnext⟩
    · rintro c ⟨h, hrun⟩ hterminal
      have hnone : ∀ i, step newValue i () c.shared (c.threads i) = none := fun i =>
        step_eq_none_of_next (hterminal (i, ()) trivial)
      cases hmtx : c.shared.mMtx with
      | none =>
        exact .inl ⟨fun i => (of_step_eq_none (hnone i)).resolve_right (by simp [hmtx]), rfl⟩
      | some i =>
        refine .inr ⟨leaked_of_step_eq_none (sound_of_run hrun) hmtx (hnone i), fun j hj => ?_⟩
        exact ((of_step_eq_none (hnone j)).resolve_left hj).1

/-- A call that finds the value `42` of another one leaves the mutex locked. -/
theorem updateData_outcomes_leaked : ∃ c h,
    (protectedData fun _ : Fin 3 => 42).Run (protectedData fun _ : Fin 3 => 42).init h c ∧
      Leaked c ∧ c.threads 2 = .lock ∧
      ∀ p, (protectedData fun _ : Fin 3 => 42).BlockedForever p c := by
  obtain ⟨c, h, hrun, hc⟩ := Machine.exists_run_of_exec (M := protectedData fun _ : Fin 3 => 42)
    [(0, ()), (0, ()), (0, ()), (0, ()), (1, ()), (1, ())]
    (f := fun r => ([r.1.threads 1, r.1.threads 2], r.1.shared.mMtx))
    (b := ([.returned, .lock], some 1)) (by decide)
  simp only [Prod.mk.injEq, List.cons.injEq, and_true] at hc
  have hleaked : Leaked c := ⟨1, hc.2, hc.1.1⟩
  exact ⟨c, h, hrun, hleaked, hc.1.2, ((updateData_outcomes hrun).1 hleaked).2⟩

/-! ### Calls one after the other -/

section Joined

variable {n : ℕ} {newValue : Fin n → ℤ} {c c' : Config (Fin n) (Shared (Fin n)) Local} {i j : Fin n}
  {h : List Empty} {es : List Empty}

/-- A thread is joined before the next one begins. -/
def Joined (c : Config (Fin n) (Shared (Fin n)) Local) (x : Fin n × Unit) : Prop :=
  ∀ j < x.1, c.threads j = .returned

/-- The calls run in their order: a call that has begun has all calls before it behind it, and when
the value is `42` an earlier call has stored it. -/
structure InOrder (newValue : Fin n → ℤ) (c : Config (Fin n) (Shared (Fin n)) Local) : Prop where
  order : ∀ i, c.threads i ≠ .lock → ∀ j < i, c.threads j = .returned
  data : c.shared.mData = 42 → ∃ i, newValue i = 42 ∧
    (c.threads i = .unlock ∨ c.threads i = .returned)
  leaked : ∀ i, c.shared.mMtx = some i → c.threads i = .returned → ∃ j < i, newValue j = 42

theorem InOrder.move (horder : InOrder newValue c) (hjoined : Joined c (i, ()))
    {sh : Shared (Fin n)} {l : Local} (hmove : Move newValue i c.shared (c.threads i) sh l) :
    InOrder newValue (c.set i sh l) := by
  have hbegun : c.threads i ≠ .returned := by
    intro hi
    rw [hi] at hmove
    nomatch hmove
  refine ⟨fun k hk j hj => ?_, fun hdata => ?_, fun k hmtx hk => ?_⟩
  · by_cases hki : k = i
    · subst hki
      rw [c.set_threads_of_ne sh l hj.ne]
      exact hjoined j hj
    · rw [c.set_threads_of_ne sh l hki] at hk
      have hj' := horder.order k hk j hj
      have hji : j ≠ i := by
        rintro rfl
        exact hbegun hj'
      rwa [c.set_threads_of_ne sh l hji]
  · have hkeep : c.shared.mData = 42 → l = .unlock ∨ c.threads i ≠ .unlock ∨ l = .returned →
        ∃ k, newValue k = 42 ∧ ((c.set i sh l).threads k = .unlock ∨
          (c.set i sh l).threads k = .returned) := by
      intro hold hl
      obtain ⟨k, hvalue, hk⟩ := horder.data hold
      refine ⟨k, hvalue, ?_⟩
      by_cases hki : k = i
      · subst hki
        rw [Config.set_threads_self]
        have hk := hk.resolve_right hbegun
        rcases hl with hl | hl | hl
        · exact .inl hl
        · exact absurd hk hl
        · exact .inr hl
      · rwa [c.set_threads_of_ne sh l hki]
    generalize hl : c.threads i = l₀ at hmove hkeep
    cases hmove with
    | store => exact ⟨i, hdata, .inl (by simp)⟩
    | _ => exact hkeep hdata (by simp)
  · by_cases hki : k = i
    · subst hki
      rw [Config.set_threads_self] at hk
      subst hk
      generalize hl : c.threads k = l₀ at hmove
      cases hmove with
      | unlock => simp at hmtx
      | leave hdata =>
        obtain ⟨j, hvalue, hj⟩ := horder.data hdata
        refine ⟨j, ?_, hvalue⟩
        have hjk : j ≠ k := fun h => by simp [h, hl] at hj
        refine lt_of_le_of_ne (le_of_not_gt fun hkj => ?_) hjk
        have hk := horder.order j (by rcases hj with hj | hj <;> simp [hj]) k hkj
        simp [hl] at hk
    · rw [c.set_threads_of_ne sh l hki] at hk
      generalize hl : c.threads i = l₀ at hmove
      cases hmove with
      | lock hfree => exact absurd (Option.some.inj hmtx).symm hki
      | unlock => simp at hmtx
      | _ => exact horder.leaked k hmtx hk

/-- After a call that stores `42` the next one leaves the mutex locked, and the others never lock
it. -/
structure Late (newValue : Fin n → ℤ) (c : Config (Fin n) (Shared (Fin n)) Local) : Prop where
  second : ∀ j i, j < i → newValue j = 42 → c.threads i = .lock ∨ c.threads i = .test ∨ Leaked c
  third : ∀ j i k, j < i → i < k → newValue j = 42 → c.threads k = .lock

theorem Late.move (hlate : Late newValue c) (hinv : ∀ i, Sound newValue c.shared i (c.threads i))
    (hopen : ¬ Leaked c) (hjoined : Joined c (i, ())) {sh : Shared (Fin n)} {l : Local}
    (hmove : Move newValue i c.shared (c.threads i) sh l) : Late newValue (c.set i sh l) := by
  have hsecond : ∀ j i, j < i → newValue j = 42 → c.threads i = .lock ∨ c.threads i = .test := by
    intro j i hji hvalue
    rcases hlate.second j i hji hvalue with hi | hi | hi
    · exact .inl hi
    · exact .inr hi
    · exact absurd hi hopen
  refine ⟨fun j k hjk hvalue => ?_, fun j m k hjm hmk hvalue => ?_⟩
  · by_cases hki : k = i
    · subst hki
      rw [Config.set_threads_self]
      have hdata := (hinv j).stored (hjoined j hjk) hvalue
      have hinside := (hinv k).inside
      rcases hsecond j k hjk hvalue with hk | hk
      · rw [hk] at hmove
        cases hmove with
        | lock hfree => exact .inr (.inl rfl)
      · rw [hk] at hmove hinside
        cases hmove with
        | leave hdata' => exact .inr (.inr ⟨k, hinside rfl, by simp⟩)
        | test hdata' => exact absurd hdata hdata'
    · rw [c.set_threads_of_ne sh l hki]
      rcases hsecond j k hjk hvalue with hk | hk
      · exact .inl hk
      · exact .inr (.inl hk)
  · by_cases hki : k = i
    · subst hki
      have hm := hjoined m hmk
      rcases hsecond j m hjm hvalue with h | h <;> simp [hm] at h
    · rw [c.set_threads_of_ne sh l hki]
      exact hlate.third j m k hjm hmk hvalue

theorem inOrder_of_runIf
    (hrun : (protectedData newValue).RunIf Joined (protectedData newValue).init h c) :
    InOrder newValue c ∧ Late newValue c := by
  refine hrun.invariant (fun c _ => InOrder newValue c ∧ Late newValue c) ⟨⟨?_, ?_, ?_⟩, ?_, ?_⟩ ?_
  · simp [protectedData]
  · simp [protectedData]
  · simp [protectedData]
  · simp [protectedData]
  · simp [protectedData]
  · rintro h c c' es ⟨i, ⟨⟩⟩ hrun ⟨horder, hlate⟩ hjoined hnext
    have hinv := sound_of_run hrun.run
    have hopen : ¬ Leaked c := fun hleaked => by simp [next_of_leaked hinv hleaked] at hnext
    obtain ⟨sh, l, hstep, rfl⟩ := interleave_next_eq_some.mp hnext
    have hmove := move_of_step hstep
    exact ⟨horder.move hjoined hmove, hlate.move hinv hopen hjoined hmove⟩

/-- Where the next call cannot go on, all have returned, or one has left the mutex locked for a
later one. -/
theorem terminal_cases (hinv : ∀ i, Sound newValue c.shared i (c.threads i))
    (horder : InOrder newValue c)
    (hterminal : ∀ x, Joined c x → (protectedData newValue).next c x = none) :
    AllReturned c ∨ ∃ i k, i < k ∧ c.shared.mMtx = some i ∧ c.threads i = .returned := by
  by_cases hall : AllReturned c
  · exact .inl hall
  obtain ⟨k₀, hk₀⟩ := not_forall.mp hall
  obtain ⟨k, hk, hmin⟩ := wellFounded_lt.has_min {k | c.threads k ≠ .returned} ⟨k₀, hk₀⟩
  have hjoined : Joined c (k, ()) := fun j hj => by
    by_contra hne
    exact hmin j hne hj
  have hnone := step_eq_none_of_next (hterminal (k, ()) hjoined)
  obtain ⟨hlock, hmtx⟩ := (of_step_eq_none hnone).resolve_left hk
  obtain ⟨i, hi⟩ := Option.ne_none_iff_exists'.mp hmtx
  have hbegun : c.threads i ≠ .lock := fun hl => by
    simpa [hl, Local.inside] using (hinv i).holder hi
  have hik : i < k := by
    refine lt_of_le_of_ne (le_of_not_gt fun hki => ?_) fun h => hbegun (h ▸ hlock)
    exact hk (horder.order i hbegun k hki)
  exact .inr ⟨i, k, hik, hi, hjoined i hik⟩

theorem mem_take_iff {vs : List ℤ} {x : ℤ} : x ∈ vs.take (vs.length - 2) ↔
    ∃ j i k : Fin vs.length, j < i ∧ i < k ∧ vs.get j = x := by
  rw [List.mem_take_iff_getElem]
  constructor
  · rintro ⟨j, hj, hx⟩
    exact ⟨⟨j, by omega⟩, ⟨j + 1, by omega⟩, ⟨j + 2, by omega⟩, by simp, by simp, hx⟩
  · rintro ⟨j, i, k, hji, hik, hx⟩
    exact ⟨j, by omega, hx⟩

/-- Every run of the calls in their order comes to an end, and what holds wherever the next call
cannot go on holds there. -/
theorem inevitable_of_joined {p : Config (Fin n) (Shared (Fin n)) Local → Prop}
    (hterminal : ∀ c, (∀ i, Sound newValue c.shared i (c.threads i)) → InOrder newValue c →
      Late newValue c → (∀ x, Joined c x → (protectedData newValue).next c x = none) → p c) :
    (protectedData newValue).Inevitable Joined p (protectedData newValue).init := by
  refine Machine.inevitable_of_terminal
    (I := fun c => ∃ h, (protectedData newValue).RunIf Joined (protectedData newValue).init h c)
    _ (fun c => c.census Local.size) ?_ ?_ ⟨[], .refl⟩
  · rintro c c' es ⟨i, ⟨⟩⟩ ⟨h, hrun⟩ hjoined hnext
    exact ⟨⟨h ++ es, hrun.tail _ hjoined hnext⟩, census_lt hnext⟩
  · rintro c ⟨h, hrun⟩ hend
    obtain ⟨horder, hlate⟩ := inOrder_of_runIf hrun
    exact hterminal c (sound_of_run hrun.run) horder hlate hend

/-- **The calls of `main` all return exactly when none but the last two stores `42`.** Otherwise
every run ends with the mutex left locked and a call that waits for it. -/
theorem updates_return_iff (vs : List ℤ) :
    ((protectedData vs.get).Inevitable Joined AllReturned (protectedData vs.get).init ↔
      42 ∉ vs.take (vs.length - 2)) ∧
      (42 ∈ vs.take (vs.length - 2) → (protectedData vs.get).Inevitable Joined
        (fun c => Leaked c ∧ ∃ k, c.threads k = .lock) (protectedData vs.get).init) := by
  refine ⟨⟨fun hreturned h42 => ?_, fun h42 => ?_⟩, fun h42 => ?_⟩
  · obtain ⟨j, i, k, hji, hik, hvalue⟩ := mem_take_iff.mp h42
    obtain ⟨h, c, hrun, hall, -⟩ := hreturned.exists_run
    have hlock := (inOrder_of_runIf hrun).2.third j i k hji hik hvalue
    simp [hall k] at hlock
  · refine inevitable_of_joined fun c hinv horder _ hterminal => ?_
    rcases terminal_cases hinv horder hterminal with hall | ⟨i, k, hik, hmtx, hi⟩
    · exact hall
    · obtain ⟨j, hji, hvalue⟩ := horder.leaked i hmtx hi
      exact absurd (mem_take_iff.mpr ⟨j, i, k, hji, hik, hvalue⟩) h42
  · obtain ⟨j, i, k, hji, hik, hvalue⟩ := mem_take_iff.mp h42
    refine inevitable_of_joined fun c hinv horder hlate hterminal => ?_
    have hlock := hlate.third j i k hji hik hvalue
    rcases terminal_cases hinv horder hterminal with hall | ⟨i', -, -, hmtx, hi'⟩
    · simp [hall k] at hlock
    · exact ⟨⟨i', hmtx, hi'⟩, k, hlock⟩

/-- The calls of `main`, the last of which never returns. -/
example : 42 ∈ [12, 42, 34, (25 : ℤ)].take ([12, 42, 34, (25 : ℤ)].length - 2) := by decide

end Joined

end ProtectedData

end Multithreading.Sync
