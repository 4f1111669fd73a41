import Multithreading.Transition.Threads
import Mathlib.Data.Fintype.Order
import Mathlib.Order.WellFounded

/-!
# Nested locking

Threads that lock mutexes in nested scopes: a thread takes the mutexes of its script one after the
other and then releases them in the reverse order. A mutex that is not free makes the thread wait,
also when the thread holds the mutex itself. With a *timed* lock a thread may instead give up, and
it then releases what it has.

A thread waits for the thread that holds the mutex it takes next. A cycle of waiting threads never
dissolves, and a system that stands still has one. When every script ascends in one order of the
mutexes there is no cycle: the thread that waits for the greatest mutex would wait for a thread that
waits for a greater one.

## Main definitions

* `Locking.Nest`, `Locking.step`, `locking` — a thread, its steps, and the machine.
* `Locking.WaitsFor` — a thread takes next what another one holds.

## Main results

* `Locking.blockedForever_of_cycle`, `Locking.exists_cycle_of_terminal` — a cycle of waiting threads
  stays, and a system that stands still has one.
* `Locking.inevitable_of_ascending` — ascending scripts are all run to their ends.
* `Locking.inevitable_of_timed` — so are all scripts with timed locks.
* `Locking.nodup_of_todo_eq_nil` — a script that takes a mutex twice is never taken to its end.
-/

namespace Transition

namespace Locking

/-- The state of a thread: the mutexes that it still takes, and those that it holds, the last one
first. -/
@[ext]
structure Nest (κ : Type*) where
  todo : List κ
  held : List κ
  deriving DecidableEq

/-- The ways to go on: take or release the next mutex, or give up taking it. -/
inductive Act
  | proceed
  | giveUp
  deriving DecidableEq

/-- What a thread does to a mutex. -/
inductive Event (ι κ : Type*)
  | took (i : ι) (k : κ)
  | gaveUp (i : ι) (k : κ)
  | released (i : ι) (k : κ)
  deriving DecidableEq

variable {ι κ : Type*} [DecidableEq κ]

/-- A step of a thread on the owners of the mutexes. -/
def step (timed : Bool) (i : ι) :
    Act → (κ → Option ι) → Nest κ → Option ((κ → Option ι) × Nest κ × List (Event ι κ))
  | .proceed, owner, ⟨k :: ks, held⟩ =>
    if (owner k).isNone then
      some (Function.update owner k (some i), ⟨ks, k :: held⟩, [.took i k])
    else none
  | .proceed, owner, ⟨[], k :: held⟩ =>
    some (Function.update owner k none, ⟨[], held⟩, [.released i k])
  | .proceed, _, ⟨[], []⟩ => none
  | .giveUp, owner, ⟨k :: _, held⟩ =>
    if timed then some (owner, ⟨[], held⟩, [.gaveUp i k]) else none
  | .giveUp, _, ⟨[], _⟩ => none

/-- What a step can do. -/
inductive Move (timed : Bool) (i : ι) (owner : κ → Option ι) :
    Act → Nest κ → (κ → Option ι) → Nest κ → List (Event ι κ) → Prop
  | take (k : κ) (ks held : List κ) (hfree : owner k = none) :
      Move timed i owner .proceed ⟨k :: ks, held⟩ (Function.update owner k (some i))
        ⟨ks, k :: held⟩ [.took i k]
  | release (k : κ) (held : List κ) :
      Move timed i owner .proceed ⟨[], k :: held⟩ (Function.update owner k none) ⟨[], held⟩
        [.released i k]
  | giveUp (k : κ) (ks held : List κ) (htimed : timed = true) :
      Move timed i owner .giveUp ⟨k :: ks, held⟩ owner ⟨[], held⟩ [.gaveUp i k]

theorem move_of_step {timed : Bool} {i : ι} {a : Act} {owner owner' : κ → Option ι}
    {l l' : Nest κ} {es : List (Event ι κ)} (h : step timed i a owner l = some (owner', l', es)) :
    Move timed i owner a l owner' l' es := by
  unfold step at h
  split at h
  all_goals try split at h
  all_goals try contradiction
  all_goals
    obtain ⟨rfl, rfl, rfl⟩ : _ ∧ _ ∧ _ := by simpa using h
    constructor
  all_goals simp_all

end Locking

/-- Threads that lock the mutexes of their scripts in nested scopes. -/
def locking {ι κ : Type*} [DecidableEq ι] [DecidableEq κ] (timed : Bool) (script : ι → List κ) :
    Machine (Config ι (κ → Option ι) (Locking.Nest κ)) (ι × Locking.Act) (Locking.Event ι κ) :=
  interleave ⟨fun _ => none, fun i => ⟨script i, []⟩⟩ (Locking.step timed)

namespace Locking

variable {ι κ : Type*}

/-- The thread has left all its scopes. -/
def Nest.Returned (l : Nest κ) : Prop := l.todo = [] ∧ l.held = []

/-- The steps that a thread can still take. -/
def Nest.size (l : Nest κ) : ℕ := 2 * l.todo.length + l.held.length

/-- A thread takes next what another one holds. -/
def WaitsFor (c : Config ι (κ → Option ι) (Nest κ)) (i j : ι) : Prop :=
  ∃ k ks, (c.threads i).todo = k :: ks ∧ c.shared k = some j

/-- A mutex is held by its owner, and once; a thread takes the whole of its script, one mutex after
the other, before it releases anything. -/
structure Nested (script : ι → List κ) (c : Config ι (κ → Option ι) (Nest κ)) : Prop where
  owner : ∀ k i, c.shared k = some i ↔ k ∈ (c.threads i).held
  nodup : ∀ i, (c.threads i).held.Nodup
  follows : ∀ i, (c.threads i).held.reverse ++ (c.threads i).todo <+: script i
  taking : ∀ i, (c.threads i).todo ≠ [] →
    (c.threads i).held.reverse ++ (c.threads i).todo = script i

variable [DecidableEq κ] {timed : Bool} {i : ι} {a : Act} {owner owner' : κ → Option ι}
  {l l' : Nest κ} {es : List (Event ι κ)}

theorem Move.size_lt (hmove : Move timed i owner a l owner' l' es) : l'.size < l.size := by
  cases hmove with
  | take k ks held hfree =>
    simp only [Nest.size, List.length_cons]
    omega
  | release k held =>
    simp only [Nest.size, List.length_cons]
    omega
  | giveUp k ks held htimed =>
    simp only [Nest.size, List.length_cons, List.length_nil]
    omega

theorem Move.follows (hmove : Move timed i owner a l owner' l' es) :
    l'.held.reverse ++ l'.todo <+: l.held.reverse ++ l.todo := by
  cases hmove with
  | take k ks held hfree => simp
  | release k held => simp
  | giveUp k ks held htimed => simp

theorem Move.taking (hmove : Move timed i owner a l owner' l' es) {script : List κ}
    (hl : l.todo ≠ [] → l.held.reverse ++ l.todo = script) (htodo : l'.todo ≠ []) :
    l'.held.reverse ++ l'.todo = script := by
  cases hmove with
  | take k ks held hfree => simpa using hl (by simp)
  | release k held => exact absurd rfl htodo
  | giveUp k ks held htimed => exact absurd rfl htodo

theorem Move.owner_eq (hmove : Move timed i owner a l owner' l' es) {k : κ} {j : ι} (hji : j ≠ i)
    (hnodup : ∀ k ∈ l.held, owner k = some i) : owner' k = some j ↔ owner k = some j := by
  cases hmove with
  | take k' ks held hfree =>
    by_cases hk : k = k'
    · subst hk
      simp [hfree, Ne.symm hji]
    · rw [Function.update_of_ne hk]
  | release k' held =>
    by_cases hk : k = k'
    · subst hk
      simp [hnodup k List.mem_cons_self, Ne.symm hji]
    · rw [Function.update_of_ne hk]
  | giveUp k' ks held htimed => rfl

theorem Move.owner_self (hmove : Move timed i owner a l owner' l' es)
    (howner : ∀ k, owner k = some i ↔ k ∈ l.held) (hnodup : l.held.Nodup) (k : κ) :
    owner' k = some i ↔ k ∈ l'.held := by
  cases hmove with
  | take k' ks held hfree =>
    by_cases hk : k = k'
    · simp [hk]
    · rw [Function.update_of_ne hk, howner k]
      simp [hk]
  | release k' held =>
    have hout : k' ∉ held := (List.nodup_cons.mp hnodup).1
    by_cases hk : k = k'
    · simp [hk, hout]
    · rw [Function.update_of_ne hk, howner k]
      simp [hk]
  | giveUp k' ks held htimed => exact howner k

theorem Move.nodup (hmove : Move timed i owner a l owner' l' es)
    (howner : ∀ k, owner k = some i ↔ k ∈ l.held) (hnodup : l.held.Nodup) : l'.held.Nodup := by
  cases hmove with
  | take k ks held hfree =>
    refine List.nodup_cons.mpr ⟨fun hk => ?_, hnodup⟩
    simp [(howner k).mpr hk] at hfree
  | release k held => exact (List.nodup_cons.mp hnodup).2
  | giveUp k ks held htimed => exact hnodup

variable [DecidableEq ι] {script : ι → List κ} {c c' : Config ι (κ → Option ι) (Nest κ)}
  {h : List (Event ι κ)}

theorem Nested.move (hinv : Nested script c)
    (hmove : Move timed i c.shared a (c.threads i) owner' l' es) :
    Nested script (c.set i owner' l') := by
  have hself : ∀ k, c.shared k = some i ↔ k ∈ (c.threads i).held := fun k => hinv.owner k i
  refine ⟨fun k j => ?_, ?_, ?_, ?_⟩
  · refine c.forall_set i owner' l' (P := fun j l => owner' k = some j ↔ k ∈ l.held)
      (hmove.owner_self hself (hinv.nodup i) k) (fun j hji => ?_) j
    rw [hmove.owner_eq hji fun k hk => (hself k).mpr hk]
    exact hinv.owner k j
  · exact c.forall_set i owner' l' (P := fun _ l => l.held.Nodup)
      (hmove.nodup hself (hinv.nodup i)) fun j _ => hinv.nodup j
  · exact c.forall_set i owner' l' (P := fun j l => l.held.reverse ++ l.todo <+: script j)
      (hmove.follows.trans (hinv.follows i)) fun j _ => hinv.follows j
  · exact c.forall_set i owner' l'
      (P := fun j l => l.todo ≠ [] → l.held.reverse ++ l.todo = script j)
      (hmove.taking (hinv.taking i)) fun j _ => hinv.taking j

theorem nested_init (script : ι → List κ) : Nested script (locking timed script).init :=
  ⟨by simp [locking], by simp [locking], by simp [locking], by simp [locking]⟩

theorem nested_next [Fintype ι] (hinv : Nested script c) {x : ι × Act}
    (hnext : (locking timed script).next c x = some (c', es)) :
    Nested script c' ∧ c'.census Nest.size < c.census Nest.size := by
  obtain ⟨i, a⟩ := x
  obtain ⟨sh, l, hstep, rfl⟩ := interleave_next_eq_some.mp hnext
  have hmove := move_of_step hstep
  have hcensus := c.census_set i sh l Nest.size
  have hlt := hmove.size_lt
  exact ⟨hinv.move hmove, by omega⟩

theorem Nested.run (hinv : Nested script c) (hrun : (locking timed script).Run c h c') :
    Nested script c' := by
  refine hrun.invariant (fun c _ => Nested script c) hinv ?_
  rintro h c c' es ⟨i, a⟩ - hinv - hnext
  obtain ⟨sh, l, hstep, rfl⟩ := interleave_next_eq_some.mp hnext
  exact hinv.move (move_of_step hstep)

theorem nested_of_run (hrun : (locking timed script).Run (locking timed script).init h c) :
    Nested script c :=
  (nested_init script).run hrun

/-! ### Waiting -/

omit [DecidableEq κ] [DecidableEq ι] in
theorem Nested.not_returned_of_waitsFor (hinv : Nested script c) {i j : ι}
    (hwait : WaitsFor c i j) : ¬ (c.threads j).Returned := by
  obtain ⟨k, ks, -, hk⟩ := hwait
  have hheld := (hinv.owner k j).mp hk
  rintro ⟨-, hnil⟩
  simp [hnil] at hheld

/-- Where nothing moves, a thread that has not returned waits for another one, and its locks are not
timed. -/
theorem waitsFor_of_terminal (hterminal : ∀ x, (locking timed script).next c x = none) {i : ι}
    (hi : ¬ (c.threads i).Returned) : timed = false ∧ ∃ j, WaitsFor c i j := by
  have hstep : ∀ a, step timed i a c.shared (c.threads i) = none := fun a => by
    simpa [locking, interleave] using hterminal (i, a)
  generalize hl : c.threads i = l at hi hstep
  rcases l with ⟨_ | ⟨k, ks⟩, _ | ⟨k', held⟩⟩
  · exact absurd ⟨rfl, rfl⟩ hi
  · exact absurd (hstep .proceed) (by simp [step])
  all_goals
    have hproceed := hstep .proceed
    have hgiveUp := hstep .giveUp
    simp only [step, ite_eq_right_iff, reduceCtorEq, imp_false, Option.isNone_iff_eq_none,
      Bool.not_eq_true] at hproceed hgiveUp
    obtain ⟨j, hj⟩ := Option.ne_none_iff_exists'.mp hproceed
    exact ⟨hgiveUp, j, k, ks, by rw [hl], hj⟩

omit [DecidableEq κ] [DecidableEq ι] in
theorem Nested.shared_ne_of_mem_todo (hinv : Nested script c) {i : ι} (hnodup : (script i).Nodup)
    {k : κ} (hk : k ∈ (c.threads i).todo) : c.shared k ≠ some i := by
  intro hi
  have hnodup' := hnodup.sublist (hinv.follows i).sublist
  rw [List.nodup_append] at hnodup'
  exact hnodup'.2.2 k (List.mem_reverse.mpr ((hinv.owner k i).mp hi)) k hk rfl

/-- In a finite set a relation without end goes round in a circle. -/
theorem exists_transGen_self {β : Type*} [Finite β] {r : β → β → Prop} {p : β → Prop}
    (hnext : ∀ b, p b → ∃ b', r b b' ∧ p b') {b : β} (hb : p b) :
    ∃ b', Relation.TransGen r b' b' := by
  by_contra hcycle
  push Not at hcycle
  have : Std.Irrefl (flip (Relation.TransGen r)) := ⟨fun b => hcycle b⟩
  have : IsTrans β (flip (Relation.TransGen r)) := ⟨fun _ _ _ h₁ h₂ => h₂.trans h₁⟩
  obtain ⟨m, hm, hmin⟩ :=
    (Finite.wellFounded_of_trans_of_irrefl (flip (Relation.TransGen r))).has_min {b | p b} ⟨b, hb⟩
  obtain ⟨b', hr, hb'⟩ := hnext m hm
  exact hmin b' hb' (.single hr)

/-- **A system that stands still has a cycle of waiting threads**, or every thread has returned. -/
theorem exists_cycle_of_terminal [Finite ι] (hinv : Nested script c)
    (hterminal : ∀ x, (locking timed script).next c x = none) {i : ι}
    (hi : ¬ (c.threads i).Returned) : ∃ j, Relation.TransGen (WaitsFor c) j j := by
  refine exists_transGen_self (p := fun i => ¬ (c.threads i).Returned) (fun i hi => ?_) hi
  obtain ⟨-, j, hj⟩ := waitsFor_of_terminal hterminal hi
  exact ⟨j, hj, hinv.not_returned_of_waitsFor hj⟩

/-- The threads of a set each wait for a thread of the set. -/
def Stuck (c : Config ι (κ → Option ι) (Nest κ)) (p : ι → Prop) : Prop :=
  ∀ i, p i → ∃ j, p j ∧ WaitsFor c i j

/-- A set of threads that wait for each other is left alone by every step, and none of them moves.
-/
theorem Stuck.move {p : ι → Prop} (hstuck : Stuck c p) (hinv : Nested script c)
    (hmove : Move false i c.shared a (c.threads i) owner' l' es) :
    ¬ p i ∧ Stuck (c.set i owner' l') p := by
  have hi : ¬ p i := by
    intro hi
    obtain ⟨j, -, k, ks, htodo, hk⟩ := hstuck i hi
    generalize hl : c.threads i = l at hmove
    rw [hl] at htodo
    cases hmove with
    | take k' ks' held hfree =>
      obtain ⟨rfl, -⟩ : k' = k ∧ ks' = ks := by simpa using htodo
      simp [hfree] at hk
    | release k' held => simp at htodo
    | giveUp k' ks' held htimed => simp at htimed
  refine ⟨hi, fun j hj => ?_⟩
  obtain ⟨m, hm, k, ks, htodo, hk⟩ := hstuck j hj
  have hji : j ≠ i := fun h => hi (h ▸ hj)
  have hmi : m ≠ i := fun h => hi (h ▸ hm)
  refine ⟨m, hm, k, ks, by rwa [c.set_threads_of_ne _ _ hji], ?_⟩
  rw [Config.set_shared, hmove.owner_eq hmi fun k hk => (hinv.owner k i).mpr hk]
  exact hk

/-- A set of threads that wait for each other never moves again. -/
theorem blockedForever_of_stuck {p : ι → Prop} (hinv : Nested script c) (hstuck : Stuck c p) {i : ι}
    (hi : p i) : (locking false script).BlockedForever (·.1 = i) c := by
  intro h c' hrun
  have hkept : Nested script c' ∧ Stuck c' p := by
    refine hrun.invariant (fun c _ => Nested script c ∧ Stuck c p) ⟨hinv, hstuck⟩ ?_
    rintro h c c' es ⟨i, a⟩ - ⟨hinv, hstuck⟩ - hnext
    obtain ⟨sh, l, hstep, rfl⟩ := interleave_next_eq_some.mp hnext
    have hmove := move_of_step hstep
    exact ⟨hinv.move hmove, (hstuck.move hinv hmove).2⟩
  rintro ⟨_, a⟩ rfl
  by_contra hsome
  obtain ⟨⟨c'', es⟩, hnext⟩ := Option.ne_none_iff_exists'.mp hsome
  obtain ⟨sh, l, hstep, rfl⟩ := interleave_next_eq_some.mp hnext
  exact (hkept.2.move hkept.1 (move_of_step hstep)).1 hi

/-- **A cycle of waiting threads never dissolves.** -/
theorem blockedForever_of_cycle (hinv : Nested script c) {i : ι}
    (hcycle : Relation.TransGen (WaitsFor c) i i) :
    (locking false script).BlockedForever (·.1 = i) c := by
  refine blockedForever_of_stuck (p := fun j => Relation.ReflTransGen (WaitsFor c) j i) hinv ?_
    .refl
  intro j hj
  have hji : Relation.TransGen (WaitsFor c) j i := by
    rcases hj.cases_head with rfl | ⟨m, hjm, hmi⟩
    · exact hcycle
    · exact .head' hjm hmi
  obtain ⟨m, hjm, hmi⟩ := Relation.TransGen.head'_iff.mp hji
  exact ⟨m, hmi, hjm⟩

/-! ### Scripts that come to their ends -/

/-- Every run comes to an end, and what holds wherever nothing moves holds there. -/
theorem inevitable_of_forall_terminal [Fintype ι]
    {p : Config ι (κ → Option ι) (Nest κ) → Prop}
    (hterminal : ∀ h t, (locking timed script).Run (locking timed script).init h t →
      (∀ x, (locking timed script).next t x = none) → p t)
    (hrun : (locking timed script).Run (locking timed script).init h c) :
    (locking timed script).Inevitable (fun _ _ => True) p c := by
  refine Machine.inevitable_of_terminal
    (I := fun t => ∃ h, (locking timed script).Run (locking timed script).init h t)
    _ (fun c => c.census Nest.size) ?_ ?_ ⟨h, hrun⟩
  · rintro s t es x ⟨h, hrun⟩ - hnext
    exact ⟨⟨h ++ es, hrun.tail x trivial hnext⟩, (nested_next (nested_of_run hrun) hnext).2⟩
  · rintro t ⟨h, hrun⟩ hend
    exact hterminal h t hrun fun x => hend x trivial

/-- All threads have returned, and every mutex is free. -/
def AllReturned (c : Config ι (κ → Option ι) (Nest κ)) : Prop :=
  (∀ i, (c.threads i).Returned) ∧ ∀ k, c.shared k = none

omit [DecidableEq κ] [DecidableEq ι] in
theorem Nested.allReturned (hinv : Nested script c) (hc : ∀ i, (c.threads i).Returned) :
    AllReturned c := by
  refine ⟨hc, fun k => ?_⟩
  by_contra hk
  obtain ⟨i, hi⟩ := Option.ne_none_iff_exists'.mp hk
  simpa [(hc i).2] using (hinv.owner k i).mp hi

/-- **Scripts with timed locks** are all left in the end. -/
theorem inevitable_of_timed [Fintype ι]
    (hrun : (locking true script).Run (locking true script).init h c) :
    (locking true script).Inevitable (fun _ _ => True) AllReturned c := by
  refine inevitable_of_forall_terminal
    (fun h t ht hterminal => (nested_of_run ht).allReturned fun i => ?_) hrun
  by_contra hi
  exact absurd (waitsFor_of_terminal hterminal hi).1 (by simp)

omit [DecidableEq κ] [DecidableEq ι] in
theorem Nested.lt_of_held [Preorder κ] (hinv : Nested script c)
    (hscript : ∀ i, (script i).Pairwise (· < ·)) {i : ι} {k k' : κ} {ks : List κ}
    (hheld : k ∈ (c.threads i).held) (htodo : (c.threads i).todo = k' :: ks) : k < k' := by
  have hsorted := (hscript i).sublist (hinv.follows i).sublist
  rw [htodo, List.pairwise_append] at hsorted
  exact hsorted.2.2 k (List.mem_reverse.mpr hheld) k' List.mem_cons_self

omit [DecidableEq κ] [DecidableEq ι] in
/-- Along a chain of waiting threads the mutexes ascend. -/
theorem Nested.lt_of_transGen [Preorder κ] (hinv : Nested script c)
    (hscript : ∀ i, (script i).Pairwise (· < ·)) {i j : ι}
    (hchain : Relation.TransGen (WaitsFor c) i j) {k k' : κ} {ks ks' : List κ}
    (hi : (c.threads i).todo = k :: ks) (hj : (c.threads j).todo = k' :: ks') : k < k' := by
  induction hchain generalizing k' ks' with
  | single hwait =>
    obtain ⟨k₁, ks₁, htodo, hk₁⟩ := hwait
    obtain ⟨rfl, -⟩ : k = k₁ ∧ ks = ks₁ := by simpa [hi] using htodo
    exact hinv.lt_of_held hscript ((hinv.owner k _).mp hk₁) hj
  | tail _ hwait ih =>
    obtain ⟨k₁, ks₁, htodo, hk₁⟩ := hwait
    exact (ih htodo).trans (hinv.lt_of_held hscript ((hinv.owner k₁ _).mp hk₁) hj)

omit [DecidableEq κ] [DecidableEq ι] in
/-- Ascending scripts have no cycle of waiting threads. -/
theorem Nested.not_cycle [Preorder κ] (hinv : Nested script c)
    (hscript : ∀ i, (script i).Pairwise (· < ·)) (i : ι) :
    ¬ Relation.TransGen (WaitsFor c) i i := by
  intro hcycle
  obtain ⟨j, ⟨k, ks, htodo, -⟩, -⟩ := Relation.TransGen.head'_iff.mp hcycle
  exact lt_irrefl k (hinv.lt_of_transGen hscript hcycle htodo htodo)

/-- **Ascending scripts are run to their ends**, whatever the order of the steps. -/
theorem inevitable_of_ascending [Fintype ι] [Preorder κ]
    (hscript : ∀ i, (script i).Pairwise (· < ·))
    (hrun : (locking timed script).Run (locking timed script).init h c) :
    (locking timed script).Inevitable (fun _ _ => True) AllReturned c := by
  refine inevitable_of_forall_terminal
    (fun h t ht hterminal => (nested_of_run ht).allReturned fun i => ?_) hrun
  by_contra hi
  obtain ⟨j, hj⟩ := exists_cycle_of_terminal (nested_of_run ht) hterminal hi
  exact (nested_of_run ht).not_cycle hscript j hj

/-! ### Scripts that are taken to their ends -/

/-- A thread for which everything is free that it still takes can be run to its end alone. -/
theorem exists_run_returned (hnodup : (c.threads i).todo.Nodup)
    (hfree : ∀ k ∈ (c.threads i).todo, c.shared k = none) :
    ∃ h c', (locking timed script).Run c h c' ∧ (c'.threads i).Returned ∧
      ∀ j, j ≠ i → c'.threads j = c.threads j := by
  induction hn : (c.threads i).size using Nat.strongRecOn generalizing c with
  | _ n ih =>
    generalize hl : c.threads i = l at hnodup hfree hn
    -- One step of the thread, and then the rest.
    have hgo : ∀ {owner' l' es}, step timed i .proceed c.shared l = some (owner', l', es) →
        l'.todo.Nodup → (∀ k ∈ l'.todo, owner' k = none) →
        ∃ h c', (locking timed script).Run c h c' ∧ (c'.threads i).Returned ∧
          ∀ j, j ≠ i → c'.threads j = c.threads j := by
      intro owner' l' es hstep hnodup' hfree'
      have hlt := (move_of_step hstep).size_lt
      obtain ⟨h, c', hrun, hreturned, hothers⟩ := @ih l'.size (by omega) (c.set i owner' l')
        (by simpa using hnodup') (by simpa using hfree') (by simp)
      refine ⟨[] ++ es ++ h, c', ?_, hreturned, fun j hj => ?_⟩
      · exact (run_set i .proceed owner' l' es .refl (by rwa [hl])).trans hrun
      · rw [hothers j hj, c.set_threads_of_ne owner' l' hj]
    rcases l with ⟨_ | ⟨k, ks⟩, held⟩
    · cases held with
      | nil => exact ⟨[], c, .refl, by rw [hl]; exact ⟨rfl, rfl⟩, fun _ _ => rfl⟩
      | cons k held => exact hgo rfl List.nodup_nil (by simp)
    · have hk : c.shared k = none := hfree k List.mem_cons_self
      obtain ⟨hout, hks⟩ := List.nodup_cons.mp hnodup
      refine hgo (by rw [step, if_pos (by simp [hk])]) hks fun k' hk' => ?_
      have hne : k' ≠ k := fun h => hout (h ▸ hk')
      rw [Function.update_of_ne hne]
      exact hfree k' (List.mem_cons_of_mem k hk')

omit [DecidableEq ι] in
theorem Move.script_nodup {script : List κ} (hmove : Move false i owner a l owner' l' es)
    (hscript : l.todo = [] → script.Nodup)
    (htaking : l.todo ≠ [] → l.held.reverse ++ l.todo = script) (hnodup : l'.held.Nodup)
    (htodo : l'.todo = []) : script.Nodup := by
  cases hmove with
  | take k ks held hfree =>
    obtain rfl : ks = [] := htodo
    rw [← htaking (by simp), ← List.reverse_cons]
    exact List.nodup_reverse.mpr hnodup
  | release k held => exact hscript rfl
  | giveUp k ks held htimed => simp at htimed

/-- **A script that takes a mutex twice is never taken to its end.** -/
theorem nodup_of_todo_eq_nil (hrun : (locking false script).Run (locking false script).init h c)
    {i : ι} (hi : (c.threads i).todo = []) : (script i).Nodup := by
  have hkept : Nested script c ∧ ∀ i, (c.threads i).todo = [] → (script i).Nodup := by
    refine hrun.invariant
      (fun c _ => Nested script c ∧ ∀ i, (c.threads i).todo = [] → (script i).Nodup)
      ⟨nested_init script, fun i hnil => ?_⟩ ?_
    · rw [show script i = [] from hnil]
      exact List.nodup_nil
    · rintro h c c' es ⟨i, a⟩ - ⟨hinv, hscript⟩ - hnext
      obtain ⟨sh, l, hstep, rfl⟩ := interleave_next_eq_some.mp hnext
      have hmove := move_of_step hstep
      have hnodup := (hinv.move hmove).nodup i
      rw [Config.set_threads_self] at hnodup
      refine ⟨hinv.move hmove, c.forall_set i sh l (P := fun i l => l.todo = [] → (script i).Nodup)
        ?_ fun j _ => hscript j⟩
      exact hmove.script_nodup (hscript i) (hinv.taking i) hnodup
  exact hkept.2 i hi

end Locking

end Transition
