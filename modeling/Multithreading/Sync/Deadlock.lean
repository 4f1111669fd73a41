import Multithreading.Transition.LockOrder

/-!
# `Deadlock`, `NoDeadlock`, `Livelock`

Threads that lock mutexes in the scopes of `lock_guard` and `unique_lock`. Each function is a
script of mutexes for each of its threads; the `yield` between two guards changes nothing that
another thread reads.

The two threads of `Deadlock` take the mutexes in opposite orders. They can be run to their ends
from every state but the one in which each of them holds its first mutex, and there they stay for
ever. `NoDeadlock` has one order, which never leads there, and `Livelock` gives up instead.

## Main definitions

* `deadlock`, `noDeadlock`, `livelock`, `guards` — the machines.
* `Deadlock.Crossed` — each thread holds its first mutex and waits for the second one.

## Main results

* `Deadlock.canReturn_iff` — what can still be run to its end in `Deadlock`.
* `Deadlock.noDeadlock_returns` — `NoDeadlock` returns in every schedule.
* `Deadlock.livelock_outcomes` — the messages of `Livelock`.
* `Deadlock.guards_return_iff` — one thread returns from its guards when they are all different.
* `Deadlock.recursiveMutex_blocked` — two guards of one mutex.
-/

open Transition Locking

namespace Multithreading.Sync

namespace Deadlock

/-- The threads of a function. -/
inductive Thread
  | thread1
  | thread2
  deriving DecidableEq

instance : Fintype Thread := ⟨{.thread1, .thread2}, by rintro ⟨⟩ <;> decide⟩

/-- The mutexes of a function. -/
inductive Mtx
  | m1
  | m2
  deriving DecidableEq

/-- The other thread. -/
def Thread.other : Thread → Thread
  | .thread1 => .thread2
  | .thread2 => .thread1

/-- The mutex of `guard1`, in the opposite orders of `Deadlock` and `Livelock`. -/
def first : Thread → Mtx
  | .thread1 => .m1
  | .thread2 => .m2

/-- The mutex of `guard2`. -/
def second : Thread → Mtx
  | .thread1 => .m2
  | .thread2 => .m1

end Deadlock

open Deadlock

/-- `Deadlock()`. -/
def deadlock : Machine (Config Thread (Mtx → Option Thread) (Nest Mtx)) (Thread × Act)
    (Event Thread Mtx) :=
  locking false fun t => [first t, second t]

/-- `NoDeadlock()`, with any threads. -/
def noDeadlock (ι : Type*) [DecidableEq ι] :
    Machine (Config ι (Mtx → Option ι) (Nest Mtx)) (ι × Act) (Event ι Mtx) :=
  locking false fun _ => [.m1, .m2]

/-- `Livelock()`. -/
def livelock : Machine (Config Thread (Mtx → Option Thread) (Nest Mtx)) (Thread × Act)
    (Event Thread Mtx) :=
  locking true fun t => [first t, second t]

/-- One thread that has a `lock_guard` for each mutex of a list. -/
def guards {κ : Type*} [DecidableEq κ] (mtxs : List κ) :
    Machine (Config Unit (κ → Option Unit) (Nest κ)) (Unit × Act) (Event Unit κ) :=
  locking false fun _ => mtxs

/-- `main` of `recursive_mutex`, with two guards of one mutex. -/
def recursiveMutex : Machine (Config Unit (Unit → Option Unit) (Nest Unit)) (Unit × Act)
    (Event Unit Unit) :=
  guards [(), ()]

namespace Deadlock

/-- A state of the two threads. -/
abbrev State := Config Thread (Mtx → Option Thread) (Nest Mtx)

@[simp] theorem first_other (t : Thread) : first t.other = second t := by cases t <;> rfl

@[simp] theorem second_other (t : Thread) : second t.other = first t := by cases t <;> rfl

@[simp] theorem other_ne (t : Thread) : t.other ≠ t := by cases t <;> decide

theorem eq_other_of_ne {t u : Thread} (h : u ≠ t) : u = t.other := by
  cases t <;> cases u <;> simp_all [Thread.other]

theorem first_ne_second (t : Thread) : first t ≠ second t := by cases t <;> decide

/-- Each thread holds the mutex of its first guard and waits for that of its second one. -/
def Crossed (c : State) : Prop := ∀ t, c.threads t = ⟨[second t], [first t]⟩

variable {c c' : State} {h : List (Event Thread Mtx)}

/-- When the threads are not crossed, one of them can take everything that it still takes. -/
theorem exists_free (hinv : Nested (fun t => [first t, second t]) c) (hc : ¬ Crossed c) :
    ∃ t, ∀ k ∈ (c.threads t).todo, c.shared k = none := by
  by_contra hnone
  push Not at hnone
  refine hc fun t => ?_
  -- A thread that has to wait leaves something to take, and the other one holds it.
  have hheld : ∀ t, (c.threads t).todo ≠ [] ∧ (c.threads t.other).held ≠ [] := by
    intro t
    obtain ⟨k, hk, hsome⟩ := hnone t
    obtain ⟨u, hu⟩ := Option.ne_none_iff_exists'.mp hsome
    have hut : u = t.other := eq_other_of_ne fun h =>
      hinv.shared_ne_of_mem_todo (by simp [first_ne_second]) hk (h ▸ hu)
    subst hut
    exact ⟨List.ne_nil_of_mem hk, List.ne_nil_of_mem ((hinv.owner k _).mp hu)⟩
  have htodo := (hheld t).1
  have hhas : (c.threads t).held ≠ [] := by
    have := (hheld t.other).2
    rwa [show t.other.other = t by cases t <;> rfl] at this
  have htaking := hinv.taking t htodo
  generalize c.threads t = l at htodo hhas htaking
  have hlength := congrArg List.length htaking
  rcases l with ⟨_ | ⟨k, _ | ⟨k', ks⟩⟩, _ | ⟨k₁, _ | ⟨k₂, held⟩⟩⟩
  case cons.nil.cons.nil =>
    obtain ⟨rfl, rfl⟩ : k₁ = first t ∧ k = second t := by simpa using htaking
    rfl
  all_goals simp at hlength htodo hhas <;> omega

theorem exists_run_alone (hinv : Nested (fun t => [first t, second t]) c)
    (hfree : ∀ k ∈ (c.threads t).todo, c.shared k = none) :
    ∃ h' c', deadlock.Run c h' c' ∧ (c'.threads t).Returned ∧
      ∀ u, u ≠ t → c'.threads u = c.threads u := by
  have hnodup : (c.threads t).todo.Nodup :=
    (List.nodup_cons.mpr ⟨by simp [first_ne_second], List.nodup_singleton _⟩ :
      [first t, second t].Nodup).sublist ((List.sublist_append_right _ _).trans
        (hinv.follows t).sublist)
  exact exists_run_returned hnodup hfree

/-- From every state that is not crossed both threads can be run to their ends. -/
theorem exists_run_allReturned (hinv : Nested (fun t => [first t, second t]) c)
    (hc : ¬ Crossed c) : ∃ h' c', deadlock.Run c h' c' ∧ AllReturned c' := by
  have hnodup : ∀ t, [first t, second t].Nodup := fun t => by simp [first_ne_second]
  obtain ⟨t, hfree⟩ := exists_free hinv hc
  obtain ⟨h₁, c₁, hrun₁, ht, -⟩ := exists_run_alone hinv hfree
  have hinv₁ := hinv.run hrun₁
  -- The other thread is alone now.
  have hfree₁ : ∀ k ∈ (c₁.threads t.other).todo, c₁.shared k = none := by
    intro k hk
    by_contra hsome
    obtain ⟨u, hu⟩ := Option.ne_none_iff_exists'.mp hsome
    by_cases hut : u = t
    · subst hut
      simpa [ht.2] using (hinv₁.owner k u).mp hu
    · obtain rfl := eq_other_of_ne hut
      exact hinv₁.shared_ne_of_mem_todo (hnodup _) hk hu
  obtain ⟨h₂, c₂, hrun₂, hother, hothers⟩ := exists_run_alone hinv₁ hfree₁
  refine ⟨h₁ ++ h₂, c₂, hrun₁.trans hrun₂, (hinv₁.run hrun₂).allReturned fun u => ?_⟩
  by_cases hut : u = t
  · subst hut
    rw [hothers u (other_ne u).symm]
    exact ht
  · rw [eq_other_of_ne hut]
    exact hother

/-- Crossed threads wait for each other. -/
theorem cycle_of_crossed (hinv : Nested (fun t => [first t, second t]) c) (hc : Crossed c)
    (t : Thread) : Relation.TransGen (WaitsFor c) t t := by
  have hwaits : ∀ t, WaitsFor c t t.other := by
    intro t
    refine ⟨second t, [], by rw [hc t], ?_⟩
    rw [hinv.owner, hc t.other, first_other]
    exact List.mem_singleton_self _
  have hback := hwaits t.other
  rw [show t.other.other = t by cases t <;> rfl] at hback
  exact .head (hwaits t) (.single hback)

/-- **`Deadlock()` deadlocks in one state only.** In every reachable state the threads can still be
run to their ends exactly when it is not the case that each of them holds its first mutex and waits
for its second one; where it is, none of them ever moves again. Every run comes to an end in one of
the two ways. -/
theorem canReturn_iff (hrun : deadlock.Run deadlock.init h c) :
    ((∃ h' c', deadlock.Run c h' c' ∧ AllReturned c') ↔ ¬ Crossed c) ∧
      (Crossed c → ∀ t, deadlock.BlockedForever (·.1 = t) c) ∧
      deadlock.Inevitable (fun _ _ => True) (fun c => Crossed c ∨ AllReturned c) c := by
  have hinv := nested_of_run hrun
  have hblocked : ∀ {c}, Nested (fun t => [first t, second t]) c → Crossed c → ∀ t,
      deadlock.BlockedForever (·.1 = t) c := fun hinv hc t =>
    blockedForever_of_cycle hinv (cycle_of_crossed hinv hc t)
  refine ⟨⟨?_, exists_run_allReturned hinv⟩, hblocked hinv, ?_⟩
  · rintro ⟨h', c', hrun', hreturned⟩ hc
    obtain ⟨-, rfl⟩ := hrun'.eq_of_terminal fun x _ => hblocked hinv hc x.1 _ _ .refl x rfl
    simpa [hc .thread1] using (hreturned.1 .thread1).1
  · refine inevitable_of_forall_terminal (fun h t ht hterminal => ?_) hrun
    by_contra hneither
    push Not at hneither
    obtain ⟨h', t', hrun', hreturned⟩ := exists_run_allReturned (nested_of_run ht) hneither.1
    obtain ⟨-, rfl⟩ := hrun'.eq_of_terminal fun x _ => hterminal x
    exact hneither.2 hreturned

/-- The threads of `Deadlock()` come to stand still. -/
theorem canReturn_iff_crossed : ∃ c h, deadlock.Run deadlock.init h c ∧ Crossed c ∧
    ∀ t, deadlock.BlockedForever (·.1 = t) c := by
  obtain ⟨c, h, hrun, hc⟩ := Machine.exists_run_of_exec (M := deadlock)
    [(.thread1, .proceed), (.thread2, .proceed)]
    (f := fun r => (r.1.threads .thread1, r.1.threads .thread2))
    (b := (⟨[.m2], [.m1]⟩, ⟨[.m1], [.m2]⟩)) (by decide)
  have hcrossed : Crossed c := by
    rintro ⟨⟩
    · exact congrArg Prod.fst hc
    · exact congrArg Prod.snd hc
  exact ⟨c, h, hrun, hcrossed, (canReturn_iff hrun).2.1 hcrossed⟩

/-! ### One order -/

/-- The order in which `NoDeadlock` takes its mutexes. -/
instance : Preorder Mtx := Preorder.lift fun | .m1 => 0 | .m2 => (1 : ℕ)

/-- **`NoDeadlock()` never deadlocks**, with any number of threads: whatever has happened, every
continuation comes to an end, and there all threads have returned and both mutexes are free. -/
theorem noDeadlock_returns {ι : Type*} [DecidableEq ι] [Fintype ι]
    {c : Config ι (Mtx → Option ι) (Nest Mtx)} {h : List (Event ι Mtx)}
    (hrun : (noDeadlock ι).Run (noDeadlock ι).init h c) :
    (noDeadlock ι).Inevitable (fun _ _ => True) AllReturned c := by
  refine inevitable_of_ascending (fun _ => ?_) hrun
  exact List.pairwise_pair.mpr Nat.zero_lt_one

/-- Two threads, the second one waiting at its first mutex. -/
theorem noDeadlock_returns_two : ∃ c h,
    (noDeadlock (Fin 2)).Run (noDeadlock (Fin 2)).init h c ∧
      (noDeadlock (Fin 2)).next c (1, .proceed) = none ∧
      (noDeadlock (Fin 2)).Inevitable (fun _ _ => True) AllReturned c := by
  obtain ⟨c, h, hrun, hc⟩ := Machine.exists_run_of_exec (M := noDeadlock (Fin 2))
    [(0, .proceed)] (f := fun r => ((noDeadlock (Fin 2)).next r.1 (1, .proceed)).isNone)
    (b := true) (by decide)
  exact ⟨c, h, hrun, Option.isNone_iff_eq_none.mp hc, noDeadlock_returns hrun⟩

/-! ### Giving up -/

/-- The mutexes that a thread has reported that it failed to get. -/
def messages (t : Thread) (h : List (Event Thread Mtx)) : List Mtx :=
  h.filterMap fun
    | .gaveUp u k => if u = t then some k else none
    | _ => none

/-- A thread gives up only while the mutex is locked. -/
def InUse (c : State) (x : Thread × Act) : Prop :=
  x.2 = .giveUp → ∀ k ks, (c.threads x.1).todo = k :: ks → (c.shared k).isSome

instance (c : State) (x : Thread × Act) : Decidable (InUse c x) :=
  decidable_of_iff
    (x.2 = .giveUp → ∀ k ∈ (c.threads x.1).todo.head?, (c.shared k).isSome = true)
    (imp_congr_right fun _ => ⟨fun h k ks htodo => h k (by rw [htodo]; rfl),
      fun h k hk => (List.head?_eq_some_iff.mp hk).elim fun ks htodo => h k ks htodo⟩)

@[simp] theorem messages_append (t : Thread) (h h' : List (Event Thread Mtx)) :
    messages t (h ++ h') = messages t h ++ messages t h' :=
  List.filterMap_append

@[simp] theorem messages_took (t u : Thread) (k : Mtx) : messages t [.took u k] = [] := rfl

@[simp] theorem messages_released (t u : Thread) (k : Mtx) : messages t [.released u k] = [] := rfl

@[simp] theorem messages_gaveUp (t u : Thread) (k : Mtx) :
    messages t [.gaveUp u k] = if u = t then [k] else [] := by
  by_cases hut : u = t <;> simp [messages, hut]

/-- What a thread has said and done, against where it is. -/
structure Told (h : List (Event Thread Mtx)) (t : Thread) (l : Nest Mtx) : Prop where
  held : ∀ k ∈ l.held, .took t k ∈ h
  taking : l.todo ≠ [] → messages t h = [] ∧ .took t (second t) ∉ h
  taken : l.todo = [] → .took t (second t) ∈ h ∧ messages t h = [] ∨
    .took t (second t) ∉ h ∧ ∃ k, messages t h = [k]

variable {t u : Thread} {a : Act} {owner owner' : Mtx → Option Thread} {l l' : Nest Mtx}
  {es : List (Event Thread Mtx)}

theorem script_cases {held ks : List Mtx} {k : Mtx}
    (h : held.reverse ++ k :: ks = [first t, second t]) :
    held = [] ∧ k = first t ∧ ks = [second t] ∨ held = [first t] ∧ k = second t ∧ ks = [] := by
  have hlength := congrArg List.length h
  rcases held with _ | ⟨k₁, _ | ⟨k₂, held⟩⟩
  · exact .inl ⟨rfl, by simpa using h⟩
  · exact .inr (by simpa using h)
  · simp at hlength
    omega

theorem Told.of_ne {l₀ : Nest Mtx} (hl : Told h u l₀) (hmove : Move true t owner a l owner' l' es)
    (hut : u ≠ t) : Told (h ++ es) u l₀ := by
  have hes : messages u es = [] ∧ ∀ k, .took u k ∉ es := by
    cases hmove <;> simp [Ne.symm hut, hut]
  refine ⟨fun k hk => List.mem_append_left es (hl.held k hk), fun htodo => ?_, fun htodo => ?_⟩
  · simpa [hes.1, hes.2] using hl.taking htodo
  · simpa [hes.1, hes.2] using hl.taken htodo

/-- A thread that comes to the end of its script has its second mutex, or has said what it failed to
get. -/
theorem Told.move (hl : Told h t l) (hmove : Move true t owner a l owner' l' es)
    (hscript : l.todo ≠ [] → l.held.reverse ++ l.todo = [first t, second t]) :
    Told (h ++ es) t l' := by
  cases hmove with
  | take k ks held hfree =>
    obtain ⟨hmessages, htook⟩ := hl.taking (by simp)
    refine ⟨fun k' hk' => ?_, fun hks => ?_, fun hks => .inl ?_⟩
    · rcases List.mem_cons.mp hk' with rfl | hk'
      · simp
      · exact List.mem_append_left _ (hl.held k' hk')
    · rcases script_cases (hscript (by simp)) with ⟨-, rfl, -⟩ | ⟨-, -, rfl⟩
      · simp [hmessages, htook, (first_ne_second t).symm]
      · exact absurd rfl hks
    · rcases script_cases (hscript (by simp)) with ⟨-, -, rfl⟩ | ⟨-, rfl, -⟩
      · simp at hks
      · simp [hmessages]
  | release k held =>
    refine ⟨fun k' hk' => ?_, fun htodo => absurd rfl htodo, fun _ => ?_⟩
    · exact List.mem_append_left _ (hl.held k' (List.mem_cons_of_mem k hk'))
    · simpa using hl.taken rfl
  | giveUp k ks held htimed =>
    obtain ⟨hmessages, htook⟩ := hl.taking (by simp)
    refine ⟨fun k' hk' => List.mem_append_left _ (hl.held k' hk'), fun htodo => absurd rfl htodo,
      fun _ => .inr ?_⟩
    simp [hmessages, htook]

theorem told_of_run (hrun : livelock.Run livelock.init h c) : ∀ t, Told h t (c.threads t) := by
  have hkept : Nested (fun t => [first t, second t]) c ∧ ∀ t, Told h t (c.threads t) := by
    refine hrun.invariant
      (fun c h => Nested (fun t => [first t, second t]) c ∧ ∀ t, Told h t (c.threads t))
      ⟨nested_init _, fun t => ?_⟩ ?_
    · exact ⟨by simp [livelock, locking], by simp [messages], by simp [livelock, locking]⟩
    · rintro h c c' es ⟨t, a⟩ - ⟨hinv, htold⟩ - hnext
      obtain ⟨sh, l, hstep, rfl⟩ := interleave_next_eq_some.mp hnext
      have hmove := move_of_step hstep
      exact ⟨hinv.move hmove, c.forall_set t sh l (P := Told (h ++ es))
        ((htold t).move hmove (hinv.taking t)) fun u hut => (htold u).of_ne hmove hut⟩
  exact hkept.2

/-- A thread that fails at its first mutex while that is locked leaves both to the other thread. -/
theorem took_of_mem_messages (hrun : livelock.RunIf InUse livelock.init h c) (t : Thread)
    (ht : first t ∈ messages t h) : .took t.other (second t.other) ∈ h := by
  revert t
  refine hrun.invariant
    (fun _ h => ∀ t, first t ∈ messages t h → .took t.other (second t.other) ∈ h)
    (by simp [messages]) ?_
  rintro h c c' es ⟨t, a⟩ hrun hgood huse hnext u hu
  obtain ⟨sh, l, hstep, rfl⟩ := interleave_next_eq_some.mp hnext
  rw [messages_append, List.mem_append] at hu
  rcases hu with hu | hu
  · exact List.mem_append_left es (hgood u hu)
  have hinv : Nested (fun t => [first t, second t]) c := nested_of_run hrun.run
  have htold := told_of_run hrun.run u.other
  have hmove := move_of_step hstep
  generalize hl : c.threads t = l₀ at hmove
  cases hmove with
  | take k ks held hfree => simp at hu
  | release k held => simp at hu
  | giveUp k ks held htimed =>
    obtain ⟨rfl, rfl⟩ : t = u ∧ first u = k := by simpa using hu
    obtain ⟨j, hj⟩ := Option.isSome_iff_exists.mp (huse rfl (first t) ks (by rw [hl]))
    have hjt : j ≠ t := fun h => hinv.shared_ne_of_mem_todo (i := t) (by simp [first_ne_second])
      (by rw [hl]; exact List.mem_cons_self) (h ▸ hj)
    obtain rfl := eq_other_of_ne hjt
    refine List.mem_append_left _ (htold.held _ ?_)
    rw [second_other]
    exact (hinv.owner _ _).mp hj

/-- **The ways in which `Livelock()` ends.** Every run comes to an end, where both threads have
returned and both mutexes are free. A thread that has returned has either locked its second mutex
and reported nothing, or it has reported one mutex and not locked its second one. When nobody gives
up a mutex that is not locked, a thread that reports its first mutex leaves the other thread to lock
both without a report. -/
theorem livelock_outcomes (hrun : livelock.Run livelock.init h c) :
    livelock.Inevitable (fun _ _ => True) AllReturned c ∧
      (∀ t, (c.threads t).Returned → .took t (second t) ∈ h ∧ messages t h = [] ∨
        .took t (second t) ∉ h ∧ ∃ k, messages t h = [k]) ∧
      (livelock.RunIf InUse livelock.init h c → ∀ t, first t ∈ messages t h →
        .took t.other (second t.other) ∈ h ∧ messages t.other h = []) := by
  refine ⟨inevitable_of_timed hrun, fun t ht => (told_of_run hrun t).taken ht.1,
    fun huse t ht => ?_⟩
  have htook := took_of_mem_messages huse t ht
  have htold := told_of_run hrun t.other
  refine ⟨htook, ?_⟩
  by_cases htodo : (c.threads t.other).todo = []
  · rcases htold.taken htodo with ⟨-, hnone⟩ | ⟨hnot, -⟩
    · exact hnone
    · exact absurd htook hnot
  · exact (htold.taking htodo).1

/-- Both threads give up their second mutexes; and one of them gives up its first one, which the
other one has locked with its second. -/
theorem livelock_outcomes_both :
    (∃ c h, livelock.Run livelock.init h c ∧ messages .thread1 h = [.m2] ∧
      messages .thread2 h = [.m1] ∧ ∀ t, (c.threads t).Returned ∧ .took t (second t) ∉ h) ∧
    ∃ c h, livelock.Run livelock.init h c ∧ messages .thread2 h = [first .thread2] ∧
      .took .thread1 (second .thread1) ∈ h ∧ messages .thread1 h = [] ∧
      livelock.Inevitable (fun _ _ => True) AllReturned c := by
  constructor
  · obtain ⟨c, h, hrun, hc⟩ := Machine.exists_run_of_exec (M := livelock)
      [(.thread1, .proceed), (.thread2, .proceed), (.thread1, .giveUp), (.thread2, .giveUp),
        (.thread1, .proceed), (.thread2, .proceed)]
      (f := fun r => ([r.1.threads .thread1, r.1.threads .thread2], messages .thread1 r.2,
        messages .thread2 r.2))
      (b := ([⟨[], []⟩, ⟨[], []⟩], [.m2], [.m1])) (by decide)
    simp only [Prod.mk.injEq, List.cons.injEq, and_true] at hc
    obtain ⟨⟨h₁, h₂⟩, hm₁, hm₂⟩ := hc
    have hreturned : ∀ t, (c.threads t).Returned := by
      rintro ⟨⟩
      · rw [h₁]
        exact ⟨rfl, rfl⟩
      · rw [h₂]
        exact ⟨rfl, rfl⟩
    refine ⟨c, h, hrun, hm₁, hm₂, fun t => ⟨hreturned t, ?_⟩⟩
    rcases (livelock_outcomes hrun).2.1 t (hreturned t) with ⟨-, hnone⟩ | ⟨htook, -⟩
    · cases t <;> simp_all
    · exact htook
  · obtain ⟨c, h, hrun, hm₂⟩ := Machine.exists_runIf_of_execIf (M := livelock) InUse
      [(.thread1, .proceed), (.thread1, .proceed), (.thread2, .giveUp)]
      (f := fun r => messages .thread2 r.2) (b := [.m2]) (by decide)
    obtain ⟨hends, -, hleaves⟩ := livelock_outcomes hrun.run
    obtain ⟨htook, hnone⟩ := hleaves hrun .thread2 (by
      rw [show messages .thread2 h = [.m2] from hm₂]
      exact List.mem_singleton_self _)
    exact ⟨c, h, hrun.run, hm₂, htook, hnone, hends⟩

/-! ### Guards of one thread -/

/-- **A thread returns from its guards exactly when they lock different mutexes.** Otherwise it
comes in every run to a mutex that it holds itself, and waits there for ever. -/
theorem guards_return_iff {κ : Type*} [DecidableEq κ] (mtxs : List κ) :
    ((guards mtxs).Inevitable (fun _ _ => True) AllReturned (guards mtxs).init ↔ mtxs.Nodup) ∧
      (¬ mtxs.Nodup → (guards mtxs).Inevitable (fun _ _ => True)
        (fun c => WaitsFor c () () ∧ (guards mtxs).BlockedForever (fun _ => True) c)
        (guards mtxs).init) := by
  refine ⟨⟨fun hinevitable => ?_, fun hnodup => ?_⟩, fun hdup => ?_⟩
  · obtain ⟨h, c, hrun, hreturned, -⟩ := hinevitable.exists_run
    exact nodup_of_todo_eq_nil hrun (hreturned.1 ()).1
  · refine inevitable_of_forall_terminal (fun h c hrun hterminal => ?_) .refl
    refine (nested_of_run hrun).allReturned fun i => ?_
    by_contra hi
    obtain ⟨-, j, k, ks, htodo, hk⟩ := waitsFor_of_terminal hterminal hi
    exact (nested_of_run hrun).shared_ne_of_mem_todo (i := i) hnodup
      (by rw [htodo]; exact List.mem_cons_self) hk
  · refine inevitable_of_forall_terminal (fun h c hrun hterminal => ?_) .refl
    refine ⟨?_, Machine.blockedForever_of_terminal hterminal _⟩
    obtain ⟨-, j, hj⟩ := waitsFor_of_terminal (i := ()) hterminal
      fun hi => hdup (nodup_of_todo_eq_nil hrun hi.1)
    exact hj

/-- `recursive_mutex` waits for ever for the mutex that it holds. -/
theorem recursiveMutex_blocked : recursiveMutex.Inevitable (fun _ _ => True)
    (fun c => WaitsFor c () () ∧ recursiveMutex.BlockedForever (fun _ => True) c)
    recursiveMutex.init :=
  (guards_return_iff [(), ()]).2 (by decide)

end Deadlock

end Multithreading.Sync
