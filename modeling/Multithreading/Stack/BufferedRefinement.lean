import Multithreading.Stack.BufferedStack
import Mathlib.Data.Fintype.Defs

/-!
# `BufferedLockFreeSPSCStack` with one producer and one consumer

`Push` publishes the new `m_head` before it writes its slot, and `Pop` gives its slot back before
it reads it. When a pop reads the slot of a push that has not been written, or a push writes the
slot of a pop that has not been read, a value is lost and another one is returned in its place.

The guard `InOrder` leaves these steps out: of a push and a pop that hold the same slot at the same
time, the one that won its compare-and-swap first also uses the slot first. Which one was first can
be told from `m_head`. The guard also leaves out the evaluation of `top + 1` at the greatest `int`.
Under the guard the stack refines the atomic stack with the same capacity.

## Main definitions

* `BufferedStack.InOrder` — the guard.
* `BufferedStack.SPSCLaw` — the law of the values for one producer and one consumer.

## Main results

* `BufferedStack.not_spscLaw` — the law fails in a run of one push and one pop.
* `BufferedStack.spscLaw_of_inOrder` — the law holds in every run under the guard.
-/

open Transition Memory

namespace Multithreading.Stack.BufferedStack

open AtomicStack (Pending)

/-- The two threads of a stack with one producer and one consumer. -/
inductive Side
  | producer
  | consumer
  deriving DecidableEq

instance : Fintype Side := ⟨{.producer, .consumer}, fun i => by cases i <;> simp⟩

/-- The producer pushes and the consumer pops. -/
def Side.mayCall {α : Type*} : Side → Op α → Bool
  | .producer, .push _ => true
  | .consumer, .pop => true
  | _, _ => false

variable {ι α : Type*}

namespace Local

/-- The slot that a push has won and not yet written. -/
def writing : Local α → Option ℤ
  | pushWrite _ top => some top
  | _ => none

/-- The slot that a pop has won and not yet read. -/
def reading : Local α → Option ℤ
  | popRead top => some (top - 1)
  | _ => none

/-- The counter that a push is about to increase. -/
def adding : Local α → Option ℤ
  | pushCas _ top => some top
  | _ => none

end Local

/-- Of a push and a pop that hold the same slot the one that won first uses the slot first, and no
push evaluates `top + 1` at the greatest `int`. -/
def InOrder (c : Config ι (Shared α) (Local α)) (x : ι × Action α) : Prop :=
  (∀ k ∈ (c.threads x.1).writing, ∀ j, (c.threads j).reading = some k → c.shared.mHead ≠ k + 1) ∧
    (∀ k ∈ (c.threads x.1).reading, ∀ j, (c.threads j).writing = some k → c.shared.mHead ≠ k) ∧
    ∀ top ∈ (c.threads x.1).adding, Fits (top + 1)

instance [Fintype ι] (c : Config ι (Shared α) (Local α)) (x : ι × Action α) :
    Decidable (InOrder c x) :=
  inferInstanceAs (Decidable (_ ∧ _ ∧ _))

/-- The values that are stored in `m_buffer[0..m_head)`. -/
def Shared.left (sh : Shared α) : List α := (List.range (toSizeT sh.mHead)).map sh.mBuffer

/-- The law of the values in a state with its history. A value that a pop returns was accepted
before the compare-and-swap of that pop, more often than it had been returned until then; no value
is returned more often than it was accepted; and when both threads are idle every accepted value
has been returned or is stored. -/
def SPSCLaw (c : Config Side (Shared α) (Local α)) (h : List (Event Side α)) : Prop :=
  (∀ pre v post, h = pre ++ .ret .consumer (.popped (some v)) :: post →
    ∃ pre' mid, pre = pre' ++ .popped .consumer :: mid ∧
      (∀ e ∈ mid, ¬ e.BoundaryOf .consumer) ∧
      (returnedValues pre' : Multiset α) + {v} ≤ (pushedValues pre' : Multiset α)) ∧
  (returnedValues h : Multiset α) ≤ (pushedValues h : Multiset α) ∧
  ((∀ i, c.threads i = .idle) →
    (pushedValues h : Multiset α) = returnedValues h + (c.shared.left : List α))

/-! ### The law fails -/

/-- The producer wins slot 0 and stops before it writes the slot. The consumer wins the slot back
and reads it. Then the producer writes. -/
def earlyReadLabels : List (Side × Action ℤ) :=
  [(.producer, .call (.push 7)), (.producer, .tau), (.producer, .cas false),
    (.consumer, .call .pop), (.consumer, .tau), (.consumer, .cas false), (.consumer, .tau),
    (.consumer, .tau), (.producer, .tau), (.producer, .tau)]

/-- **The law fails** for `BufferedLockFreeSPSCStack<int, 1>`: the pop returns the initial value of
the slot, which was never pushed, and the pushed value is lost. -/
theorem not_spscLaw :
    ¬ ∀ c h, (bufferedStack id (0 : ℤ) 1 Side.mayCall).Run
      (bufferedStack id 0 1 Side.mayCall).init h c → SPSCLaw c h := by
  intro hlaw
  obtain ⟨c, h, hrun, hvalues⟩ := Machine.exists_run_of_exec
    (M := bufferedStack id (0 : ℤ) 1 Side.mayCall) earlyReadLabels
    (f := fun r => (pushedValues r.2, returnedValues r.2)) (b := ([7], [0])) (by decide)
  obtain ⟨hpushed, hreturned⟩ := Prod.mk.inj hvalues
  have hle := (hlaw c h hrun).2.1
  rw [hpushed, hreturned] at hle
  exact absurd hle (by decide)

/-! ### The invariant under the guard -/

/-- Where the producer is in `Push` and in its operation on the atomic stack. -/
def Local.MatchesPush (capacity : ℕ) : Local α → Pending α → Prop
  | idle, p => p = .idle
  | pushLoad v, p => p = .called (.push v)
  | pushCas v top, p => p = .called (.push v) ∧ toSizeT top ≠ capacity
  | pushWrite _ _, p | pushed, p => p = .done .pushed
  | rejected, p => p = .done .rejected
  | _, _ => False

/-- Where the consumer is in `Pop` and in its operation on the atomic stack. -/
def Local.MatchesPop : Local α → Pending α → Prop
  | idle, p => p = .idle
  | popLoad, p => p = .called .pop
  | popCas top, p => p = .called .pop ∧ top ≠ 0 ∧ Fits (top - 1)
  | popRead _, p => ∃ v, p = .done (.popped (some v))
  | popped r, p => p = .done (.popped r)
  | _, _ => False

/-- The array stores the list of the atomic stack, up to the slot that the producer has won and not
yet written; and the slot that the consumer has won and not yet read holds the value that the
atomic stack has handed out, unless the producer still has to write it. -/
structure Stores (capacity : ℕ) (c : Config Side (Shared α) (Local α))
    (t : AtomicStack.State Side α) : Prop where
  head : c.shared.mHead = t.shared.length
  room : t.shared.length ≤ capacity
  fits : (t.shared.length : ℤ) ≤ intMax
  producer : (c.threads .producer).MatchesPush capacity (t.threads .producer)
  consumer : (c.threads .consumer).MatchesPop (t.threads .consumer)
  slot : ∀ k : ℕ, k < t.shared.length → (c.threads .producer).writing ≠ some (k : ℤ) →
    t.shared.reverse[k]? = some (c.shared.mBuffer k)
  write : ∀ v top, c.threads .producer = .pushWrite v top → ∃ k : ℕ, top = k ∧ k < capacity ∧
    (k : ℤ) ≤ intMax ∧
    (t.shared.length = k + 1 ∧ t.shared.head? = some v ∨ t.shared.length = k ∧
      (c.threads .consumer).reading = some (k : ℤ) ∧
      t.threads .consumer = .done (.popped (some v)))
  read : ∀ top, c.threads .consumer = .popRead top → ∃ k : ℕ, top = k + 1 ∧ k < capacity ∧
    (k : ℤ) ≤ intMax ∧
    (t.shared.length = k ∨ t.shared.length = k + 1 ∧
      (c.threads .producer).writing = some (k : ℤ)) ∧
    ((c.threads .producer).writing = some (k : ℤ) → t.shared.length = k + 1 →
      t.threads .consumer = .done (.popped (some (c.shared.mBuffer k)))) ∧
    ((c.threads .producer).writing ≠ some (k : ℤ) →
      t.threads .consumer = .done (.popped (some (c.shared.mBuffer k))))

namespace Stores

variable {capacity : ℕ} {c : Config Side (Shared α) (Local α)} {t : AtomicStack.State Side α}

theorem setProducer (h : Stores capacity c t) {l' : Local α} {p' : Pending α}
    (hmatches : l'.MatchesPush capacity p') (hold : (c.threads .producer).writing = none)
    (hnew : l'.writing = none) :
    Stores capacity (c.set .producer c.shared l') (t.set .producer t.shared p') where
  head := h.head
  room := h.room
  fits := h.fits
  producer := by simpa using hmatches
  consumer := by simpa [Config.set_threads_apply] using h.consumer
  slot k hk _ := h.slot k hk (by simp [hold])
  write v top hl := by
    rw [Config.set_threads_self] at hl
    exact absurd hnew (by simp [hl, Local.writing])
  read top hl := by
    have hread := h.read top (by simpa [Config.set_threads_apply] using hl)
    rw [hold] at hread
    simpa [Config.set_threads_apply, hnew] using hread

theorem setConsumer (h : Stores capacity c t) {l' : Local α} {p' : Pending α}
    (hmatches : l'.MatchesPop p') (hold : (c.threads .consumer).reading = none)
    (hnew : l'.reading = none) :
    Stores capacity (c.set .consumer c.shared l') (t.set .consumer t.shared p') where
  head := h.head
  room := h.room
  fits := h.fits
  producer := by simpa [Config.set_threads_apply] using h.producer
  consumer := by simpa using hmatches
  slot k hk hw := h.slot k hk (by simpa [Config.set_threads_apply] using hw)
  write v top hl := by
    obtain ⟨k, hk, hcap, hfits, hcases⟩ :=
      h.write v top (by simpa [Config.set_threads_apply] using hl)
    exact ⟨k, hk, hcap, hfits, .inl (hcases.resolve_right (by simp [hold]))⟩
  read top hl := by
    rw [Config.set_threads_self] at hl
    exact absurd hnew (by simp [hl, Local.reading])

/-- The successful compare-and-swap of the producer. -/
theorem pushWin (h : Stores capacity c t) {v : α} {top : ℤ}
    (hl : c.threads .producer = .pushCas v top) (hhead : c.shared.mHead = top)
    (hfits : Fits (top + 1)) :
    t.threads .producer = .called (.push v) ∧ t.shared.length < capacity ∧
      Stores capacity (c.set .producer { c.shared with mHead := top + 1 } (.pushWrite v top))
        (t.set .producer (v :: t.shared) (.done .pushed)) := by
  have hmatches := h.producer
  rw [hl] at hmatches
  obtain ⟨hpending, hne⟩ := hmatches
  have hwriting : (c.threads .producer).writing = none := by rw [hl]; rfl
  have htop : top = t.shared.length := hhead.symm.trans h.head
  have hlt : t.shared.length < capacity :=
    lt_of_le_of_ne h.room (by rwa [htop, toSizeT_natCast h.fits] at hne)
  refine ⟨hpending, hlt, ?_, ?_, ?_, ?_, ?_, ?_, ?_, ?_⟩
  · simp [htop]
  · exact hlt
  · simpa [htop] using hfits.2
  · simp [Local.MatchesPush]
  · simpa [Config.set_threads_apply] using h.consumer
  · intro k hk hw
    have hne : k ≠ t.shared.length := fun hk => hw (by simp [Local.writing, htop, hk])
    have hk' : k < t.shared.length := by
      simp only [Config.set_shared, List.length_cons] at hk
      omega
    simpa [List.getElem?_append_left, hk'] using h.slot k hk' (by simp [hwriting])
  · intro w top' hw
    obtain ⟨rfl, rfl⟩ : v = w ∧ top = top' := by simpa using hw
    exact ⟨t.shared.length, htop, hlt, h.fits, .inl ⟨by simp, by simp⟩⟩
  · intro top' hr
    obtain ⟨k, hk, hcap, hkfits, hcases, -, hval⟩ :=
      h.read top' (by simpa [Config.set_threads_apply] using hr)
    have hlen : t.shared.length = k := hcases.resolve_right (by simp [hwriting])
    have hw : (Local.pushWrite v top).writing = some (k : ℤ) := by simp [Local.writing, htop, hlen]
    have hval := hval (by simp [hwriting])
    refine ⟨k, hk, hcap, hkfits, .inr ⟨by simp [hlen], by simpa using hw⟩, fun _ _ => ?_,
      fun hne => absurd (by simpa using hw) hne⟩
    simpa [Config.set_threads_apply] using hval

/-- The producer writes its slot, the consumer not holding an older value of it. -/
theorem pushWrite (h : Stores capacity c t) {v : α} {top : ℤ}
    (hl : c.threads .producer = .pushWrite v top)
    (horder : (c.threads .consumer).reading = some top → c.shared.mHead ≠ top + 1) :
    toSizeT top < capacity ∧
      Stores capacity (c.set .producer (c.shared.write (toSizeT top) v) .pushed) t := by
  have hmatches := h.producer
  rw [hl] at hmatches
  obtain ⟨k, rfl, hcap, hfits, hcases⟩ := h.write v top hl
  have hwriting : (c.threads .producer).writing = some (k : ℤ) := by rw [hl]; rfl
  rw [toSizeT_natCast hfits]
  refine ⟨hcap, h.head, h.room, h.fits, ?_, ?_, ?_, ?_, ?_⟩
  · simpa [Local.MatchesPush] using hmatches
  · simpa [Config.set_threads_apply] using h.consumer
  · intro j hj _
    by_cases hjk : j = k
    · subst hjk
      rcases hcases with ⟨hlen, hhead⟩ | ⟨hlen, -⟩
      · cases hitems : t.shared with
        | nil => simp [hitems] at hlen
        | cons w rest =>
          obtain rfl : w = v := by simpa [hitems] using hhead
          obtain rfl : rest.length = j := by simpa [hitems] using hlen
          simp
      · exact absurd hj (by simp [hlen])
    · have hslot := h.slot j hj (by simpa [hwriting] using fun hkj => hjk hkj.symm)
      rw [hslot, Config.set_shared, c.shared.write_mBuffer_of_ne v hjk]
  · intro w top hw
    exact absurd hw (by simp)
  · intro top hr
    obtain ⟨m, hm, hmcap, hmfits, hmcases, -, hval⟩ :=
      h.read top (by simpa [Config.set_threads_apply] using hr)
    have hreading : (c.threads .consumer).reading = some (m : ℤ) := by
      have hr' : c.threads .consumer = .popRead top := by simpa [Config.set_threads_apply] using hr
      simp [hr', Local.reading, hm]
    rcases hcases with ⟨hlen, -⟩ | ⟨hlen, hreading', hdone⟩
    · have hmk : m ≠ k := by
        rintro rfl
        exact horder hreading (by rw [h.head, hlen]; simp)
      have hw : (c.threads .producer).writing ≠ some (m : ℤ) := by
        simpa [hwriting] using fun hkm => hmk hkm.symm
      refine ⟨m, hm, hmcap, hmfits, .inl (hmcases.resolve_right fun hmc => hw hmc.2), ?_, ?_⟩
      · simp [Local.writing]
      · intro _
        rw [hval hw, Config.set_shared, c.shared.write_mBuffer_of_ne v hmk]
    · obtain rfl : m = k := by simpa [hreading] using hreading'
      refine ⟨m, hm, hmcap, hmfits, .inl hlen, ?_, ?_⟩
      · simp [Local.writing]
      · exact fun _ => by simpa using hdone

/-- The successful compare-and-swap of the consumer. -/
theorem popWin (h : Stores capacity c t) {top : ℤ} (hl : c.threads .consumer = .popCas top)
    (hhead : c.shared.mHead = top) :
    ∃ v rest, t.threads .consumer = .called .pop ∧ t.shared = v :: rest ∧
      Stores capacity (c.set .consumer { c.shared with mHead := top - 1 } (.popRead top))
        (t.set .consumer rest (.done (.popped (some v)))) := by
  have hmatches := h.consumer
  rw [hl] at hmatches
  obtain ⟨hpending, hne, -⟩ := hmatches
  have hreading : (c.threads .consumer).reading = none := by rw [hl]; rfl
  have htop : top = t.shared.length := hhead.symm.trans h.head
  obtain ⟨v, rest, hitems⟩ : ∃ v rest, t.shared = v :: rest := by
    cases hitems : t.shared with
    | nil => exact absurd (by simp [htop, hitems]) hne
    | cons v rest => exact ⟨v, rest, rfl⟩
  have hlen : t.shared.length = rest.length + 1 := by simp [hitems]
  have hroom := h.room
  have hfits := h.fits
  rw [hlen] at hroom hfits htop
  push_cast at hfits htop
  refine ⟨v, rest, hpending, hitems, ?_, ?_, ?_, ?_, ?_, ?_, ?_, ?_⟩
  · simp [htop]
  · exact Nat.le_of_succ_le hroom
  · simp only [Config.set_shared]
    omega
  · simpa [Config.set_threads_apply] using h.producer
  · simp [Local.MatchesPop]
  · intro k hk hw
    have hk' : k < rest.length := hk
    have hslot := h.slot k (by omega) (by simpa [Config.set_threads_apply] using hw)
    rw [hitems, List.reverse_cons, List.getElem?_append_left (by simpa using hk')] at hslot
    simpa using hslot
  · intro w top' hw
    obtain ⟨k, hk, hcap, hkfits, hcases⟩ :=
      h.write w top' (by simpa [Config.set_threads_apply] using hw)
    obtain ⟨hk', hv⟩ := hcases.resolve_right (by simp [hreading])
    obtain rfl : v = w := by simpa [hitems] using hv
    have hrest : rest.length = k := by omega
    refine ⟨k, hk, hcap, hkfits, .inr ⟨hrest, ?_, by simp⟩⟩
    simp [Local.reading, htop, hrest]
  · intro top' hr
    obtain rfl : top = top' := by simpa using hr
    refine ⟨rest.length, htop, hroom, by omega, .inl rfl, fun _ hlen' => ?_, fun hw => ?_⟩
    · simp at hlen'
    · have hslot := h.slot rest.length (by omega) (by simpa [Config.set_threads_apply] using hw)
      simp only [hitems, List.reverse_cons, List.length_reverse, le_refl,
        List.getElem?_append_right, Nat.sub_self, List.getElem?_cons_zero, Option.some.injEq]
        at hslot
      simp [hslot]

/-- The consumer reads its slot, the producer not having to write it first. -/
theorem popRead (h : Stores capacity c t) (residue : α → α) {top : ℤ}
    (hl : c.threads .consumer = .popRead top)
    (horder : (c.threads .producer).writing = some (top - 1) → c.shared.mHead ≠ top - 1) :
    toSizeT (top - 1) < capacity ∧
      Stores capacity
        (c.set .consumer
          (c.shared.write (toSizeT (top - 1)) (residue (c.shared.mBuffer (toSizeT (top - 1)))))
          (.popped (some (c.shared.mBuffer (toSizeT (top - 1)))))) t := by
  obtain ⟨k, rfl, hcap, hfits, hcases, hboth, halone⟩ := h.read top hl
  have hreading : (c.threads .consumer).reading = some (k : ℤ) := by rw [hl]; simp [Local.reading]
  rw [add_sub_cancel_right] at horder ⊢
  rw [toSizeT_natCast hfits]
  have hlen : (c.threads .producer).writing = some (k : ℤ) → t.shared.length = k + 1 := by
    intro hw
    have hne := horder hw
    rw [h.head] at hne
    rcases hcases with hlen | ⟨hlen, -⟩
    · exact absurd (congrArg Nat.cast hlen) hne
    · exact hlen
  have hdone : t.threads .consumer = .done (.popped (some (c.shared.mBuffer k))) := by
    by_cases hw : (c.threads .producer).writing = some (k : ℤ)
    · exact hboth hw (hlen hw)
    · exact halone hw
  refine ⟨hcap, h.head, h.room, h.fits, ?_, ?_, ?_, ?_, ?_⟩
  · simpa [Config.set_threads_apply] using h.producer
  · simpa [Local.MatchesPop] using hdone
  · intro j hj hw
    have hw' : (c.threads .producer).writing ≠ some (j : ℤ) := by
      simpa [Config.set_threads_apply] using hw
    have hjk : j ≠ k := by
      rintro rfl
      rcases hcases with hlen | ⟨-, hw⟩
      · exact absurd hj (by simp [hlen])
      · exact hw' hw
    rw [h.slot j hj hw', Config.set_shared, c.shared.write_mBuffer_of_ne _ hjk]
  · intro w top hw
    obtain ⟨m, hm, hmcap, hmfits, hmcases⟩ :=
      h.write w top (by simpa [Config.set_threads_apply] using hw)
    refine ⟨m, hm, hmcap, hmfits, .inl (hmcases.resolve_right ?_)⟩
    rintro ⟨hlen', hreading', -⟩
    obtain rfl : k = m := by simpa [hreading] using hreading'
    have hw' : c.threads .producer = .pushWrite w top := by
      simpa [Config.set_threads_apply] using hw
    have := hlen (by simp [hw', Local.writing, hm])
    omega
  · intro top hr
    exact absurd hr (by simp)

theorem moveProducer (h : Stores capacity c t) {residue : α → α} {x : Action α} {sh' : Shared α}
    {l' : Local α} {es : List (Event Side α)}
    (hmove : Move residue capacity Side.mayCall .producer c.shared x (c.threads .producer) sh' l'
      es)
    (horder : InOrder c (.producer, x)) :
    ∃ t', (atomicStack Side α (some capacity)).Run t es t' ∧
      Stores capacity (c.set .producer sh' l') t' := by
  have hmatches := h.producer
  generalize hl : c.threads .producer = l at hmove hmatches
  have hsilent (l' : Local α) (hm : l'.MatchesPush capacity (t.threads .producer))
      (hold : l.writing = none) (hnew : l'.writing = none) :
      Stores capacity (c.set .producer c.shared l') t := by
    simpa using h.setProducer hm (hl ▸ hold) hnew
  cases hmove with
  | callPush v _ =>
    exact ⟨_, Spec.Run.single (.call _ (.push v) hmatches),
      h.setProducer rfl (by rw [hl]; rfl) rfl⟩
  | pushFull v hfull =>
    rw [h.head, toSizeT_natCast h.fits] at hfull
    exact ⟨_, Spec.Run.cons (.silent _ trivial)
      (Spec.Run.single (.full _ v hmatches (by simp [hfull]))),
      h.setProducer rfl (by rw [hl]; rfl) rfl⟩
  | pushLoad v hroom =>
    exact ⟨t, Spec.Run.single (.silent _ trivial), hsilent _ ⟨hmatches, hroom⟩ rfl rfl⟩
  | pushOverflow _ v top hfits =>
    exact absurd (horder.2.2 top (by rw [hl]; rfl)) hfits
  | pushWin _ v top hfits hhead =>
    obtain ⟨hpending, hlt, hset⟩ := h.pushWin hl hhead hfits
    exact ⟨_, Spec.Run.single (.push _ v hpending (by simpa using hlt)), hset⟩
  | pushLose _ v top _ =>
    exact ⟨t, Spec.Run.single (.silent _ (silent_casFailure _ _ _)), hsilent _ hmatches.1 rfl rfl⟩
  | pushWrite v top _ =>
    exact ⟨t, .refl, (h.pushWrite hl (horder.1 top (by rw [hl]; rfl) .consumer)).2⟩
  | pushBounds v top hbound =>
    exact absurd (h.pushWrite hl (horder.1 top (by rw [hl]; rfl) .consumer)).1 (by omega)
  | pushRet =>
    exact ⟨_, Spec.Run.single (.ret _ .pushed hmatches), h.setProducer rfl (by rw [hl]; rfl) rfl⟩
  | rejectRet =>
    exact ⟨_, Spec.Run.single (.ret _ .rejected hmatches), h.setProducer rfl (by rw [hl]; rfl) rfl⟩
  | callPop hcall => exact absurd hcall (by simp [Side.mayCall])
  | _ => exact hmatches.elim

theorem moveConsumer (h : Stores capacity c t) {residue : α → α} {x : Action α} {sh' : Shared α}
    {l' : Local α} {es : List (Event Side α)}
    (hmove : Move residue capacity Side.mayCall .consumer c.shared x (c.threads .consumer) sh' l'
      es)
    (horder : InOrder c (.consumer, x)) :
    ∃ t', (atomicStack Side α (some capacity)).Run t es t' ∧
      Stores capacity (c.set .consumer sh' l') t' := by
  have hmatches := h.consumer
  generalize hl : c.threads .consumer = l at hmove hmatches
  have hsilent (l' : Local α) (hm : l'.MatchesPop (t.threads .consumer))
      (hold : l.reading = none) (hnew : l'.reading = none) :
      Stores capacity (c.set .consumer c.shared l') t := by
    simpa using h.setConsumer hm (hl ▸ hold) hnew
  cases hmove with
  | callPop _ =>
    exact ⟨_, Spec.Run.single (.call _ .pop hmatches), h.setConsumer rfl (by rw [hl]; rfl) rfl⟩
  | popEmpty hzero =>
    have hitems : t.shared = [] := by
      rw [h.head] at hzero
      exact List.length_eq_zero_iff.mp (by exact_mod_cast hzero)
    exact ⟨_, Spec.Run.cons (.silent _ trivial) (Spec.Run.single (.empty _ hmatches hitems)),
      h.setConsumer rfl (by rw [hl]; rfl) rfl⟩
  | popLoad hzero =>
    have hfits : Fits (c.shared.mHead - 1) := by
      have hmax := h.fits
      rw [h.head, Fits, intMin]
      omega
    exact ⟨t, Spec.Run.single (.silent _ trivial), hsilent _ ⟨hmatches, hzero, hfits⟩ rfl rfl⟩
  | popOverflow _ top hfits => exact absurd hmatches.2.2 hfits
  | popWin _ top hfits hhead =>
    obtain ⟨v, rest, hpending, hitems, hset⟩ := h.popWin hl hhead
    exact ⟨_, Spec.Run.single (.pop _ v rest hpending hitems), hset⟩
  | popLose _ top _ =>
    exact ⟨t, Spec.Run.single (.silent _ (silent_casFailure _ _ _)), hsilent _ hmatches.1 rfl rfl⟩
  | popRead top _ =>
    exact ⟨t, .refl,
      (h.popRead residue hl (horder.2.1 (top - 1) (by rw [hl]; rfl) .producer)).2⟩
  | popBounds top hbound =>
    exact absurd (h.popRead residue hl (horder.2.1 (top - 1) (by rw [hl]; rfl) .producer)).1
      (by omega)
  | popRet r =>
    exact ⟨_, Spec.Run.single (.ret _ (.popped r) hmatches),
      h.setConsumer rfl (by rw [hl]; rfl) rfl⟩
  | callPush v hcall => exact absurd hcall (by simp [Side.mayCall])
  | _ => exact hmatches.elim

end Stores

/-! ### Runs -/

variable {residue : α → α} {init : α} {capacity : ℕ} {c c' : Config Side (Shared α) (Local α)}
  {h : List (Event Side α)}

theorem stores_init (residue : α → α) (init : α) (capacity : ℕ) :
    Stores capacity (bufferedStack residue init capacity Side.mayCall).init
      (atomicStack Side α (some capacity)).init where
  head := rfl
  room := Nat.zero_le _
  fits := by simp [atomicStack, intMax]
  producer := rfl
  consumer := rfl
  slot k hk := absurd hk (by simp [atomicStack])
  write v top hl := absurd hl (by simp [bufferedStack])
  read top hl := absurd hl (by simp [bufferedStack])

theorem Stores.next {t : AtomicStack.State Side α} {x : Side × Action α} {es : List (Event Side α)}
    (h : Stores capacity c t) (horder : InOrder c x)
    (hnext : (bufferedStack residue init capacity Side.mayCall).next c x = some (c', es)) :
    ∃ t', (atomicStack Side α (some capacity)).Run t es t' ∧ Stores capacity c' t' := by
  obtain ⟨i, x⟩ := x
  obtain ⟨sh', l', hstep, rfl⟩ := interleave_next_eq_some.mp hnext
  cases i with
  | producer => exact h.moveProducer (move_of_step hstep) horder
  | consumer => exact h.moveConsumer (move_of_step hstep) horder

/-- The history of every run under the guard is a history of the atomic stack with the same
capacity. -/
theorem exists_stores
    (hrun : (bufferedStack residue init capacity Side.mayCall).RunIf InOrder
      (bufferedStack residue init capacity Side.mayCall).init h c) :
    ∃ t, (atomicStack Side α (some capacity)).Run (atomicStack Side α (some capacity)).init h t ∧
      Stores capacity c t :=
  hrun.refines (stores_init residue init capacity) fun _ _ hstores horder hnext =>
    hstores.next horder hnext

theorem Stores.left_eq {t : AtomicStack.State Side α} (h : Stores capacity c t)
    (hidle : c.threads .producer = .idle) : c.shared.left = t.shared.reverse := by
  rw [Shared.left, h.head, toSizeT_natCast h.fits]
  refine List.ext_getElem? fun k => ?_
  by_cases hk : k < t.shared.length
  · rw [h.slot k hk (by simp [hidle, Local.writing])]
    simp [hk]
  · simp [hk]

/-- **The law of the values holds in every run under the guard.** -/
theorem spscLaw_of_inOrder
    (hrun : (bufferedStack residue init capacity Side.mayCall).RunIf InOrder
      (bufferedStack residue init capacity Side.mayCall).init h c) : SPSCLaw c h := by
  obtain ⟨t, ht, hstores⟩ := exists_stores hrun
  refine ⟨?_, AtomicStack.returned_le_pushed ht, fun hidle => ?_⟩
  · rintro pre v post rfl
    obtain ⟨pre', mid, rest, rfl, hfront, hmid⟩ := AtomicStack.ret_popped_some ht
    refine ⟨pre', mid, rfl, hmid, ?_⟩
    rw [List.append_assoc, Spec.run_append] at ht
    obtain ⟨b, hb, -⟩ := ht
    rw [AtomicStack.conservation hb, AtomicStack.shared_eq_stored hb, hfront, add_assoc]
    exact add_le_add_right (Multiset.singleton_le.mpr (by simp)) _
  · have hpending : ∀ i, t.threads i = .idle := by
      intro i
      cases i with
      | producer => simpa [hidle, Local.MatchesPush] using hstores.producer
      | consumer => simpa [hidle, Local.MatchesPop] using hstores.consumer
    rw [AtomicStack.conservation_of_idle ht hpending, hstores.left_eq (hidle .producer),
      Multiset.coe_reverse]

/-- The producer is overtaken in its window, writes, and only then the consumer reads. -/
theorem spscLaw_of_overlap : ∃ c h,
    (bufferedStack id (0 : ℤ) 1 Side.mayCall).RunIf InOrder
      (bufferedStack id 0 1 Side.mayCall).init h c ∧
    returnedValues h = [7] ∧ SPSCLaw c h := by
  obtain ⟨c, h, hrun, hret⟩ := Machine.exists_runIf_of_execIf
    (M := bufferedStack id (0 : ℤ) 1 Side.mayCall) InOrder
    ([(.producer, .call (.push 7)), (.producer, .tau), (.producer, .cas false),
      (.consumer, .call .pop), (.consumer, .tau), (.consumer, .cas false), (.producer, .tau),
      (.consumer, .tau), (.consumer, .tau), (.producer, .tau)])
    (f := fun r => returnedValues r.2) (b := [7]) (by decide)
  exact ⟨c, h, hrun, hret, spscLaw_of_inOrder hrun⟩

end Multithreading.Stack.BufferedStack
