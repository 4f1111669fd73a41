import Multithreading.Transition.Refinement
import Multithreading.Transition.Threads
import Multithreading.Transition.Mutex
import Mathlib.Data.Prod.Lex
import Mathlib.Algebra.BigOperators.Group.Finset.Piecewise

/-!
# Monitors

An object whose operations run under one mutex. An operation is a body of any number of steps on the
protected state, which ends with a result. Every thread executes a list of operations, each of which
it calls, locks the mutex for, runs and returns from.

The threads see an object without steps: each operation takes effect at one instant between its call
and its return, and the effect is what its body does when nothing else happens. When the bodies come
to their ends, so does every run.

## Main definitions

* `Monitor.Object`, `Object.Executes`, `Object.Effect` — the bodies, and what they do alone.
* `monitor` — the machine of the threads.
* `atomicObject` — the object without steps.

## Main results

* `Monitor.exists_agrees` — the history of every run is one of the object without steps.
* `Monitor.exists_effect_of_ret` — the instant at which an operation took effect.
* `Monitor.inevitable_finished` — every run executes all operations.
-/

namespace Transition

namespace Monitor

/-- An object with operations `Op` and results `ρ` on a protected state `σ`. -/
structure Object (Op β σ ρ : Type*) where
  /-- The local state in which the body of an operation begins. -/
  start : Op → β
  /-- A step of a body, which goes on or ends with a result. -/
  body : β → σ → σ × (β ⊕ ρ)

variable {Op β σ ρ ι : Type*}

/-- The steps of a body that go on. -/
inductive Object.Executes (o : Object Op β σ ρ) (b : β) (s : σ) : β → σ → Prop
  | refl : Executes o b s b s
  | tail {b₁ b₂ : β} {s₁ s₂ : σ} (hpre : Executes o b s b₁ s₁)
      (hstep : o.body b₁ s₁ = (s₂, .inl b₂)) : Executes o b s b₂ s₂

/-- What an operation does when its body runs alone. -/
def Object.Effect (o : Object Op β σ ρ) (op : Op) (s s' : σ) (r : ρ) : Prop :=
  ∃ b s₁, o.Executes (o.start op) s b s₁ ∧ o.body b s₁ = (s', .inr r)

/-- The events of an operation of a thread. -/
inductive Event (ι Op ρ : Type*)
  | call (i : ι) (op : Op)
  | effect (i : ι) (op : Op) (r : ρ)
  | ret (i : ι) (r : ρ)
  deriving DecidableEq

/-- The protected state, and the holder of the mutex. -/
structure Shared (ι σ : Type*) where
  holder : Option ι
  state : σ

/-- Where a thread is in its current operation. -/
inductive Pc (Op β ρ : Type*)
  | idle
  /-- About to lock the mutex. -/
  | lock (op : Op)
  /-- In the body. -/
  | body (op : Op) (b : β)
  /-- About to unlock the mutex. -/
  | unlock (r : ρ)
  /-- About to return. -/
  | ret (r : ρ)
  deriving DecidableEq

/-- A thread: the operations after the current one, and where it is. -/
structure Local (Op β ρ : Type*) where
  ops : List Op
  pc : Pc Op β ρ
  deriving DecidableEq

/-- A step of thread `i`. -/
def step (o : Object Op β σ ρ) (i : ι) :
    Unit → Shared ι σ → Local Op β ρ → Option (Shared ι σ × Local Op β ρ × List (Event ι Op ρ))
  | (), _, ⟨[], .idle⟩ => none
  | (), sh, ⟨op :: ops, .idle⟩ => some (sh, ⟨ops, .lock op⟩, [.call i op])
  | (), sh, ⟨ops, .lock op⟩ =>
    if sh.holder.isNone then some ({ sh with holder := some i }, ⟨ops, .body op (o.start op)⟩, [])
    else none
  | (), sh, ⟨ops, .body op b⟩ =>
    match o.body b sh.state with
    | (s, .inl b') => some ({ sh with state := s }, ⟨ops, .body op b'⟩, [])
    | (s, .inr r) => some ({ sh with state := s }, ⟨ops, .unlock r⟩, [.effect i op r])
  | (), sh, ⟨ops, .unlock r⟩ => some ({ sh with holder := none }, ⟨ops, .ret r⟩, [])
  | (), sh, ⟨ops, .ret r⟩ => some (sh, ⟨ops, .idle⟩, [.ret i r])

/-- What a step can do. -/
inductive Move (o : Object Op β σ ρ) (i : ι) (sh : Shared ι σ) :
    Local Op β ρ → Shared ι σ → Local Op β ρ → List (Event ι Op ρ) → Prop
  | call (op : Op) (ops : List Op) : Move o i sh ⟨op :: ops, .idle⟩ sh ⟨ops, .lock op⟩ [.call i op]
  | lock (op : Op) (ops : List Op) (hfree : sh.holder = none) :
      Move o i sh ⟨ops, .lock op⟩ { sh with holder := some i } ⟨ops, .body op (o.start op)⟩ []
  | go (op : Op) (b b' : β) (s : σ) (ops : List Op) (hbody : o.body b sh.state = (s, .inl b')) :
      Move o i sh ⟨ops, .body op b⟩ { sh with state := s } ⟨ops, .body op b'⟩ []
  | done (op : Op) (b : β) (s : σ) (r : ρ) (ops : List Op)
      (hbody : o.body b sh.state = (s, .inr r)) :
      Move o i sh ⟨ops, .body op b⟩ { sh with state := s } ⟨ops, .unlock r⟩ [.effect i op r]
  | unlock (r : ρ) (ops : List Op) :
      Move o i sh ⟨ops, .unlock r⟩ { sh with holder := none } ⟨ops, .ret r⟩ []
  | ret (r : ρ) (ops : List Op) : Move o i sh ⟨ops, .ret r⟩ sh ⟨ops, .idle⟩ [.ret i r]

theorem move_of_step {o : Object Op β σ ρ} {i : ι} {sh sh' : Shared ι σ} {l l' : Local Op β ρ}
    {es : List (Event ι Op ρ)} (h : step o i () sh l = some (sh', l', es)) :
    Move o i sh l sh' l' es := by
  unfold step at h
  split at h
  all_goals try split at h
  all_goals try contradiction
  all_goals
    obtain ⟨rfl, rfl, rfl⟩ : _ ∧ _ ∧ _ := by simpa using h
    constructor
  all_goals simp_all

/-- The thread is between locking and unlocking the mutex. -/
def Local.inside (l : Local Op β ρ) : Bool :=
  match l.pc with
  | .body _ _ | .unlock _ => true
  | _ => false

/-- The thread has executed all its operations. -/
def Local.Finished (l : Local Op β ρ) : Prop := l = ⟨[], .idle⟩

end Monitor

open Monitor

variable {Op β σ ρ ι : Type*} [DecidableEq ι]

/-- The threads `ι` that execute the operations `prog` of an object. -/
def monitor (o : Object Op β σ ρ) (s₀ : σ) (prog : ι → List Op) :
    Machine (Config ι (Shared ι σ) (Local Op β ρ)) (ι × Unit) (Monitor.Event ι Op ρ) :=
  interleave ⟨⟨none, s₀⟩, fun i => ⟨prog i, .idle⟩⟩ (Monitor.step o)

namespace Monitor

/-! ### The object without steps -/

/-- Where a thread is in an operation of the object without steps. -/
inductive Pending (Op ρ : Type*)
  | idle
  | called (op : Op)
  | done (r : ρ)

/-- The object without steps reads an event. -/
inductive AtomicStep (o : Object Op β σ ρ) (t : Config ι σ (Pending Op ρ)) :
    Event ι Op ρ → Config ι σ (Pending Op ρ) → Prop
  | call (i : ι) (op : Op) (hi : t.threads i = .idle) :
      AtomicStep o t (.call i op) (t.set i t.shared (.called op))
  | effect (i : ι) (op : Op) (s : σ) (r : ρ) (hi : t.threads i = .called op)
      (heffect : o.Effect op t.shared s r) : AtomicStep o t (.effect i op r) (t.set i s (.done r))
  | ret (i : ι) (r : ρ) (hi : t.threads i = .done r) :
      AtomicStep o t (.ret i r) (t.set i t.shared .idle)

end Monitor

/-- The object without steps. -/
def atomicObject (ι : Type*) [DecidableEq ι] (o : Object Op β σ ρ) (s₀ : σ) :
    Spec (Config ι σ (Pending Op ρ)) (Monitor.Event ι Op ρ) where
  init := ⟨s₀, fun _ => .idle⟩
  step := AtomicStep o

namespace Monitor

variable {o : Object Op β σ ρ} {s₀ : σ} {prog : ι → List Op}
  {c c' : Config ι (Shared ι σ) (Local Op β ρ)} {t : Config ι σ (Pending Op ρ)} {i : ι}
  {sh' : Shared ι σ} {l l' : Local Op β ρ} {es : List (Event ι Op ρ)} {h : List (Event ι Op ρ)}

theorem Move.mutexStep (hmove : Move o i c.shared (c.threads i) sh' l' es) :
    Mutex.Step c.shared.holder (fun j => (c.threads j).inside) sh'.holder
      fun j => ((c.set i sh' l').threads j).inside := by
  have hkeep := c.comp_set_of_eq i sh' (l := l') Local.inside
  generalize hl : c.threads i = l at hmove
  cases hmove with
  | lock op ops hfree => exact .acquire i hfree rfl (Config.comp_set ..)
  | unlock r ops => exact .release i (by rw [hl]; rfl) rfl (Config.comp_set ..)
  | _ => exact .keep rfl (hkeep (by rw [hl]; rfl))

/-- Where a thread is in its operation of the object without steps, when the state is `s` and the
operation has found the state `s₀`. -/
def Pc.Matches (o : Object Op β σ ρ) (s₀ s : σ) : Pc Op β ρ → Pending Op ρ → Prop
  | .idle, p => p = .idle
  | .lock op, p => p = .called op
  | .body op b, p => p = .called op ∧ o.Executes (o.start op) s₀ b s
  | .unlock r, p => p = .done r ∧ s₀ = s
  | .ret r, p => p = .done r

theorem Pc.Matches.of_outside {s₀ s s₁ s' : σ} {l : Local Op β ρ} {p : Pending Op ρ}
    (h : l.pc.Matches o s₀ s p) (hl : l.inside = false) : l.pc.Matches o s₁ s' p := by
  rcases l with ⟨ops, pc⟩
  cases pc <;> simp_all [Local.inside, Pc.Matches]

/-- The object without steps has the state that the holder of the mutex has found. -/
structure Agrees (o : Object Op β σ ρ) (c : Config ι (Shared ι σ) (Local Op β ρ))
    (t : Config ι σ (Pending Op ρ)) : Prop where
  mtx : Mutex.Held c.shared.holder fun i => (c.threads i).inside
  free : c.shared.holder = none → t.shared = c.shared.state
  threads : ∀ i, (c.threads i).pc.Matches o t.shared c.shared.state (t.threads i)

namespace Agrees

theorem set (hagrees : Agrees o c t) {s : σ} {p' : Pending Op ρ}
    (hmtx : Mutex.Step c.shared.holder (fun j => (c.threads j).inside) sh'.holder
      fun j => ((c.set i sh' l').threads j).inside)
    (hmatches : l'.pc.Matches o s sh'.state p') (hfree : sh'.holder = none → s = sh'.state)
    (hother : (c.threads i).inside = true ∨ sh'.state = c.shared.state ∧ s = t.shared) :
    Agrees o (c.set i sh' l') (t.set i s p') where
  mtx := hmtx.held hagrees.mtx
  free := hfree
  threads := by
    refine c.forall_set i sh' l'
      (P := fun j l => l.pc.Matches o s sh'.state ((t.set i s p').threads j)) ?_ fun j hji => ?_
    · simpa using hmatches
    · rw [Config.set_threads_of_ne _ _ _ hji]
      rcases hother with hi | ⟨hstate, hs⟩
      · refine (hagrees.threads j).of_outside ?_
        by_contra hj
        exact hji (hagrees.mtx.unique (t := j) (u := i) (by simpa using hj) hi)
      · rw [hstate, hs]
        exact hagrees.threads j

/-- **Every move is answered by the object without steps.** -/
theorem move (hagrees : Agrees o c t) (hmove : Move o i c.shared (c.threads i) sh' l' es) :
    ∃ t', (atomicObject ι o s₀).Run t es t' ∧ Agrees o (c.set i sh' l') t' := by
  have hmtx := hmove.mutexStep
  have hmatches := hagrees.threads i
  have hfree := hagrees.free
  have hholder : (c.threads i).inside = true → c.shared.holder = some i := (hagrees.mtx i).mpr
  have hset := @set _ _ _ _ _ _ o c t i sh' l' hagrees
  generalize hl : c.threads i = l at hmove hmatches hholder hset
  -- A step without an event leaves the object without steps as it is.
  have hsilent {p : Pending Op ρ} (hp : t.threads i = p) : t.set i t.shared p = t := by
    rw [← hp, Config.set_self]
  cases hmove with
  | call op ops =>
    exact ⟨_, Spec.Run.single (.call i op hmatches), hset hmtx rfl hfree (.inr ⟨rfl, rfl⟩)⟩
  | lock op ops hnone =>
    refine ⟨t, .refl, ?_⟩
    rw [← hsilent hmatches]
    refine hset hmtx ⟨rfl, ?_⟩ (by simp) (.inr ⟨rfl, rfl⟩)
    rw [hfree hnone]
    exact .refl
  | go op b b' s ops hbody =>
    obtain ⟨hop, hexecutes⟩ := hmatches
    refine ⟨t, .refl, ?_⟩
    rw [← hsilent hop]
    exact hset hmtx ⟨rfl, hexecutes.tail hbody⟩ (by simp [hholder rfl]) (.inl rfl)
  | done op b s r ops hbody =>
    obtain ⟨hop, hexecutes⟩ := hmatches
    exact ⟨_, Spec.Run.single (.effect i op s r hop ⟨b, _, hexecutes, hbody⟩),
      hset hmtx ⟨rfl, rfl⟩ (by simp [hholder rfl]) (.inl rfl)⟩
  | unlock r ops =>
    obtain ⟨hr, hstate⟩ := hmatches
    refine ⟨t, .refl, ?_⟩
    rw [← hsilent hr]
    exact hset hmtx rfl (fun _ => hstate) (.inl rfl)
  | ret r ops =>
    exact ⟨_, Spec.Run.single (.ret i r hmatches), hset hmtx rfl hfree (.inr ⟨rfl, rfl⟩)⟩

end Agrees

/-- **The history of every run is a history of the object without steps.** -/
theorem exists_agrees (hrun : (monitor o s₀ prog).Run (monitor o s₀ prog).init h c) :
    ∃ t, (atomicObject ι o s₀).Run (atomicObject ι o s₀).init h t ∧ Agrees o c t := by
  refine hrun.refines (R := Agrees o)
    ⟨Mutex.held_none fun _ => rfl, fun _ => rfl, fun _ => rfl⟩ ?_
  rintro h c c' es t ⟨i, ⟨⟩⟩ - hagrees - hnext
  obtain ⟨sh', l', hstep, rfl⟩ := interleave_next_eq_some.mp hnext
  exact hagrees.move (move_of_step hstep)

/-! ### The instant of effect -/

/-- The calls and the returns of thread `i`. -/
def Event.BoundaryOf (i : ι) : Event ι Op ρ → Prop
  | call j _ | ret j _ => j = i
  | effect _ _ _ => False

/-- An operation that has taken effect did so at one event of its history. -/
theorem exists_effect {r : ρ} (hrun : (atomicObject ι o s₀).Run (atomicObject ι o s₀).init h t)
    (hi : t.threads i = .done r) :
    ∃ pre op mid b s, h = pre ++ .effect i op r :: mid ∧
      (atomicObject ι o s₀).Run (atomicObject ι o s₀).init pre b ∧ o.Effect op b.shared s r ∧
      ∀ e ∈ mid, ¬ e.BoundaryOf i := by
  induction hrun with
  | refl => exact absurd hi (by simp [atomicObject])
  | @tail h b c e hrun hstep ih =>
    by_cases hold : b.threads i = .done r
    · obtain ⟨pre, op, mid, d, s, rfl, hpre, heffect, hmid⟩ := ih hold
      refine ⟨pre, op, mid ++ [e], d, s, by simp, hpre, heffect, fun e' he' => ?_⟩
      rcases List.mem_append.mp he' with hmem | hmem
      · exact hmid e' hmem
      · obtain rfl := List.mem_singleton.mp hmem
        cases hstep with
        | effect j op s r' hj heffect => simp [Event.BoundaryOf]
        | _ =>
          rintro rfl
          simp at hi
    · cases hstep with
      | effect j op s r' hj heffect =>
        rw [Config.set_threads_apply] at hi
        split_ifs at hi with hij
        · subst hij
          obtain rfl : r' = r := by simpa using hi
          exact ⟨h, op, [], b, s, rfl, hrun, heffect, by simp⟩
        · exact absurd hi hold
      | _ =>
        rw [Config.set_threads_apply] at hi
        split_ifs at hi
        exact absurd hi hold

/-- **An operation that returns took effect at one event between its call and its return.** -/
theorem exists_effect_of_ret {r : ρ} {post : List (Event ι Op ρ)}
    (hrun : (atomicObject ι o s₀).Run (atomicObject ι o s₀).init (h ++ .ret i r :: post) t) :
    ∃ pre op mid b s, h = pre ++ .effect i op r :: mid ∧
      (atomicObject ι o s₀).Run (atomicObject ι o s₀).init pre b ∧ o.Effect op b.shared s r ∧
      ∀ e ∈ mid, ¬ e.BoundaryOf i := by
  obtain ⟨b, hrun, hret⟩ := Spec.run_append.mp hrun
  obtain ⟨c, hstep, -⟩ := Spec.run_cons.mp hret
  cases hstep with
  | ret _ _ hi => exact exists_effect hrun hi

/-! ### The operations of a thread -/

/-- The operations of thread `i` that have taken effect, in order. -/
def effectsOf (i : ι) (h : List (Event ι Op ρ)) : List Op :=
  h.filterMap fun
    | .effect j op _ => if j = i then some op else none
    | _ => none

theorem effectsOf_append (i : ι) (h h' : List (Event ι Op ρ)) :
    effectsOf i (h ++ h') = effectsOf i h ++ effectsOf i h' :=
  List.filterMap_append

@[simp] theorem effectsOf_nil (i : ι) : effectsOf i ([] : List (Event ι Op ρ)) = [] := rfl

@[simp] theorem effectsOf_call (i j : ι) (op : Op) :
    effectsOf i [(.call j op : Event ι Op ρ)] = [] := rfl

@[simp] theorem effectsOf_ret (i j : ι) (r : ρ) :
    effectsOf i [(.ret j r : Event ι Op ρ)] = [] := rfl

@[simp] theorem effectsOf_effect (i j : ι) (op : Op) (r : ρ) :
    effectsOf i [.effect j op r] = if j = i then [op] else [] := by
  by_cases hji : j = i <;> simp [effectsOf, hji]

/-- The event is an effect. -/
def Event.isEffect : Event ι Op ρ → Bool
  | effect _ _ _ => true
  | _ => false

theorem sum_length_effectsOf [Fintype ι] (h : List (Event ι Op ρ)) :
    ∑ i, (effectsOf i h).length = h.countP Event.isEffect := by
  induction h with
  | nil => simp
  | cons e h ih =>
    have hone : ∑ i, (effectsOf i [e]).length = if e.isEffect then 1 else 0 := by
      cases e with
      | effect j op r => simp [Event.isEffect, apply_ite List.length]
      | _ => simp [Event.isEffect]
    rw [List.countP_cons, ← ih, ← hone, add_comm, ← Finset.sum_add_distrib]
    refine Finset.sum_congr rfl fun i _ => ?_
    rw [← List.length_append, ← effectsOf_append]
    rfl

/-- The operations of a thread that have not taken effect. -/
def Local.todo (l : Local Op β ρ) : List Op :=
  match l.pc with
  | .lock op | .body op _ => op :: l.ops
  | _ => l.ops

theorem Move.todo_eq {sh : Shared ι σ} (hmove : Move o i sh l sh' l' es) :
    l.todo = effectsOf i es ++ l'.todo := by
  cases hmove <;> simp [Local.todo]

theorem Move.effectsOf_of_ne {sh : Shared ι σ} (hmove : Move o i sh l sh' l' es) {j : ι}
    (hji : j ≠ i) : effectsOf j es = [] := by
  cases hmove <;> simp [Ne.symm hji]

/-- The operations of a thread take effect in their order. -/
theorem effectsOf_append_todo (hrun : (monitor o s₀ prog).Run (monitor o s₀ prog).init h c)
    (i : ι) :
    effectsOf i h ++ (c.threads i).todo = prog i := by
  revert i
  refine hrun.invariant (fun c h => ∀ i, effectsOf i h ++ (c.threads i).todo = prog i)
    (fun _ => rfl) ?_
  rintro h c c' es ⟨i, ⟨⟩⟩ - hgood - hnext
  obtain ⟨sh, l, hstep, rfl⟩ := interleave_next_eq_some.mp hnext
  have hmove := move_of_step hstep
  refine c.forall_set i sh l (P := fun j l => effectsOf j (h ++ es) ++ l.todo = prog j) ?_
    fun j hji => ?_
  · rw [effectsOf_append, List.append_assoc, ← hmove.todo_eq, hgood]
  · rw [effectsOf_append, hmove.effectsOf_of_ne hji, List.append_nil, hgood]

/-- A thread that has finished has executed all its operations in their order. -/
theorem effectsOf_of_finished (hrun : (monitor o s₀ prog).Run (monitor o s₀ prog).init h c)
    (hi : (c.threads i).Finished) : effectsOf i h = prog i := by
  have htodo := effectsOf_append_todo hrun i
  rw [hi] at htodo
  simpa [Local.todo] using htodo

/-! ### Progress -/

/-- What a thread has still to do, its body apart. -/
def Local.size (l : Local Op β ρ) : ℕ :=
  5 * l.ops.length +
    match l.pc with
    | .idle => 0
    | .lock _ => 4
    | .body _ _ => 3
    | .unlock _ => 2
    | .ret _ => 1

/-- How far the body of the holder is from its end. -/
def bodyRank (rank : β → σ → ℕ) (c : Config ι (Shared ι σ) (Local Op β ρ)) : ℕ :=
  match c.shared.holder with
  | none => 0
  | some i =>
    match (c.threads i).pc with
    | .body _ b => rank b c.shared.state
    | _ => 0

omit [DecidableEq ι] in
theorem Move.size_lt {sh : Shared ι σ} (hmove : Move o i sh l sh' l' es) :
    l'.size < l.size ∨ l'.size = l.size ∧ ∃ op b b' s, l.pc = .body op b ∧ l'.pc = .body op b' ∧
      sh' = { sh with state := s } ∧ o.body b sh.state = (s, .inl b') := by
  cases hmove with
  | go op b b' s ops hbody => exact .inr ⟨rfl, op, b, b', s, rfl, rfl, rfl, hbody⟩
  | _ => exact .inl (by simp only [Local.size, List.length_cons]; omega)

omit [DecidableEq ι] in
theorem of_step_eq_none {sh : Shared ι σ} (h : step o i () sh l = none) :
    l.Finished ∨ l.inside = false ∧ sh.holder ≠ none := by
  unfold step at h
  split at h
  case h_1 => exact .inl rfl
  case h_3 sh ops op =>
    refine .inr ⟨rfl, fun hfree => ?_⟩
    simp [hfree] at h
  all_goals try split at h
  all_goals simp at h

/-- Where nothing moves, every thread has finished. -/
theorem finished_of_terminal (hmtx : Mutex.Held c.shared.holder fun i => (c.threads i).inside)
    (hterminal : ∀ x, (monitor o s₀ prog).next c x = none) (i : ι) : (c.threads i).Finished := by
  have hnone : ∀ i, (c.threads i).Finished ∨
      (c.threads i).inside = false ∧ c.shared.holder ≠ none := fun i =>
    of_step_eq_none (by simpa [monitor, interleave] using hterminal (i, ()))
  have hout : ∀ i, (c.threads i).inside = false := by
    intro i
    rcases hnone i with hi | ⟨hi, -⟩
    · rw [hi]
      rfl
    · exact hi
  exact (hnone i).resolve_right fun hi => hi.2 (hmtx.eq_none hout)

/-- **Every run executes all operations**, when the bodies come to their ends. -/
theorem inevitable_finished [Fintype ι] (rank : β → σ → ℕ)
    (hrank : ∀ b s b' s', o.body b s = (s', .inl b') → rank b' s' < rank b s)
    (hrun : (monitor o s₀ prog).Run (monitor o s₀ prog).init h c) :
    (monitor o s₀ prog).Inevitable (fun _ _ => True) (fun c => ∀ i, (c.threads i).Finished) c := by
  refine Machine.inevitable_of_wellFounded
    (I := fun c => ∃ h, (monitor o s₀ prog).Run (monitor o s₀ prog).init h c) _
    (fun c => toLex (c.census Local.size, bodyRank rank c)) ?_ ?_ ⟨h, hrun⟩
  · rintro c c' es ⟨i, ⟨⟩⟩ ⟨h, hrun⟩ - hnext
    refine ⟨⟨h ++ es, hrun.tail _ trivial hnext⟩, ?_⟩
    obtain ⟨t, -, hagrees⟩ := exists_agrees hrun
    obtain ⟨sh, l, hstep, rfl⟩ := interleave_next_eq_some.mp hnext
    have hcensus := c.census_set i sh l Local.size
    rw [Prod.Lex.toLex_lt_toLex]
    rcases (move_of_step hstep).size_lt with hlt | ⟨heq, op, b, b', s, hpc, hpc', rfl, hbody⟩
    · exact .inl (by omega)
    · refine .inr ⟨by omega, ?_⟩
      have hholder : c.shared.holder = some i := (hagrees.mtx i).mpr (by simp [Local.inside, hpc])
      simpa [bodyRank, hholder, hpc, hpc'] using hrank b c.shared.state b' s hbody
  · rintro c ⟨h, hrun⟩ hterminal
    obtain ⟨t, -, hagrees⟩ := exists_agrees hrun
    exact finished_of_terminal hagrees.mtx fun x => hterminal x trivial

end Monitor

end Transition
