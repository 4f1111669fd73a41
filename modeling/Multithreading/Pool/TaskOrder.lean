import Multithreading.Pool.TaskPlaces

/-!
# The steps of a worker

A worker takes the first task out of the list, and it is the only one that does so until it has left
`GetTask`. So the task in the hand of the worker inside the mutex followed by the tasks of the list
are the line in which the tasks wait, and a return of `GetTask` takes the first one out of the line.

A worker waits for nothing but the mutex, and the worker inside the mutex waits for nothing: the
list is not empty when it pops a node, and the task that it executes has not been moved from.

## Main definitions

* `ThreadPool.line` — the tasks that wait, in their order.
* `ThreadPool.Filled` — only the first node, while it is being popped, has no task.

## Main results

* `ThreadPool.Filled.move` — every step keeps an intact list filled.
* `ThreadPool.line_of_move` — a step of a worker dequeues from the line.
* `ThreadPool.Intact.blocked` — a worker that is blocked waits for the mutex.
-/

open Transition Memory

namespace Multithreading.Pool

namespace ThreadPool

variable {ι β : Type*}

/-- The result of `GetTask` as far as a worker has it. -/
def Worker.inHand : Worker β → Option (Option ℕ)
  | readFirst task | readNext _ task | readPrev _ _ task | writeNext _ _ _ task
  | writePrev _ _ _ task | free _ task | execute task => some task
  | unlock result => result
  | _ => none

/-- The tasks that wait: the one in the hand of the worker inside the mutex, and those of the
list. -/
def line (s : State ι β) (nodes : List β) : List ℕ :=
  (s.mMtx.elim [] fun i => (s.worker i).inHand.join.toList) ++ nodes.filterMap s.task

/-- The tasks that `GetTask` has returned. -/
def dequeued (h : List (Event ι)) : List ℕ :=
  h.filterMap fun | .got _ result => result.join | _ => none

@[simp] theorem dequeued_append (h h' : List (Event ι)) :
    dequeued (h ++ h') = dequeued h ++ dequeued h' :=
  List.filterMap_append

/-- The worker has moved the task out of the first node, which is still in the list. -/
def Worker.pops : Worker β → Bool
  | readFirst _ | readNext _ _ | readPrev _ _ _ | writeNext _ _ _ _ => true
  | _ => false

/-- Every node has a task, except the first one while it is being popped, and nobody has a task in
his hand that has been moved from. -/
structure Filled (s : State ι β) (nodes : List β) : Prop where
  nodes : ∀ node ∈ nodes, s.task node = none →
    nodes.head? = some node ∧ ∃ i, (s.worker i).pops = true
  worker : ∀ i, (s.worker i).inHand ≠ some none
  submit : ∀ node, s.submit.node = some node → s.task node ≠ none

theorem Worker.inMtx_of_pops {l : Worker β} (hl : l.pops = true) : l.inMtx = true := by
  cases l <;> simp_all [Worker.pops, Worker.inMtx]

variable {s s' : State ι β} {nodes : List β} {i : ι}

/-! ### The tasks of the nodes -/

theorem Filled.of_submit (hfilled : Filled s nodes) (hworker : s'.worker = s.worker)
    (htask : s'.task = s.task)
    (hnode : ∀ node, s'.submit.node = some node → s.submit.node = some node) :
    Filled s' nodes := by
  refine ⟨?_, ?_, fun node hn => ?_⟩
  · rw [hworker, htask]
    exact hfilled.nodes
  · rw [hworker]
    exact hfilled.worker
  · rw [htask]
    exact hfilled.submit node (hnode node hn)

variable [DecidableEq ι]

theorem Filled.inHand (hfilled : Filled s nodes) {l' : Worker β}
    (hworker : s'.worker = Function.update s.worker i l') (hhand : l'.inHand ≠ some none)
    (j : ι) : (s'.worker j).inHand ≠ some none := by
  rw [hworker]
  by_cases hji : j = i
  · subst hji
    simpa using hhand
  · simpa [Function.update_of_ne hji] using hfilled.worker j

theorem Filled.of_worker (hfilled : Filled s nodes) {l' : Worker β}
    (hworker : s'.worker = Function.update s.worker i l') (hsubmit : s'.submit = s.submit)
    (htask : s'.task = s.task) (hpops : (s.worker i).pops = true → l'.pops = true)
    (hhand : l'.inHand ≠ some none) : Filled s' nodes := by
  refine ⟨fun node hnode hnone => ?_, hfilled.inHand hworker hhand, ?_⟩
  · rw [htask] at hnone
    obtain ⟨hhead, j, hj⟩ := hfilled.nodes node hnode hnone
    refine ⟨hhead, j, ?_⟩
    rw [hworker]
    by_cases hji : j = i
    · subst hji
      simpa using hpops hj
    · rwa [Function.update_of_ne hji]
  · rw [hsubmit, htask]
    exact hfilled.submit

/-! ### The line -/

theorem line_of_holder (hholder : s.mMtx = some i) {l' : Worker β}
    (hworker : s'.worker = Function.update s.worker i l') (hmtx : s'.mMtx = s.mMtx)
    (htask : s'.task = s.task) (hhand : l'.inHand.join = (s.worker i).inHand.join) :
    line s' nodes = line s nodes := by
  simp [line, hmtx, hholder, hworker, htask, hhand]

theorem line_of_outside (hinv : Intact s nodes) (hi : (s.worker i).inMtx = false) (l' : Worker β) :
    line (s.setWorker i l') nodes = line s nodes := by
  have hne : ∀ j, s.mMtx = some j → j ≠ i := by
    rintro j hj rfl
    simp [(hinv.mtx j).mp hj] at hi
  cases hmtx : s.mMtx with
  | none => simp [line, State.setWorker, hmtx]
  | some j => simp [line, State.setWorker, hmtx, Function.update_of_ne (hne j hmtx)]

variable [DecidableEq β]

/-- A step of a worker takes what `GetTask` returns out of the line. -/
theorem line_of_move {es : List (Event ι)} (hinv : Intact s nodes)
    (hmove : Move s (.worker i) s' es) :
    line s nodes = dequeued es ++ line s' (nodesAfter s nodes (.worker i)) := by
  have hholder : (s.worker i).inMtx = true → s.mMtx = some i := (hinv.mtx i).mpr
  cases hmove with
  | getTask i hpc | execute i task hpc =>
    simp only [nodesAfter, hpc]
    exact (line_of_outside hinv (by rw [hpc]; rfl) _).symm
  | lock i hpc hfree =>
    simp [nodesAfter, hpc, line, hfree, State.setWorker, Worker.inHand, dequeued]
  | testEmpty i hpc hempty | testFull i hpc hempty | readFirst i node task hpc hfirst
  | popReadNext i node task hpc | popReadPrev i node next task hpc
  | popWritePrev i node next prev task hpc | free i node task hpc =>
    simp only [nodesAfter, hpc]
    change line s nodes = line _ nodes
    refine Eq.symm (line_of_holder (s := s) (hholder (by rw [hpc]; rfl)) rfl rfl rfl ?_)
    rw [hpc]
    rfl
  | front i node hpc hfirst =>
    obtain ⟨rest, rfl⟩ := hinv.chain.eq_cons hfirst
    have hnode : node ∉ rest := (List.nodup_cons.mp (Linked.nodup hinv.chain)).1
    have hi := hholder (by rw [hpc]; rfl)
    cases htask : s.task node <;>
      simp [nodesAfter, hpc, line, hi, State.setWorker, Worker.inHand, dequeued, htask,
        filterMap_update hnode]
  | popWriteNext i node next prev task hpc =>
    -- the node leaves the list without a task
    obtain ⟨rest, rfl, -⟩ := hinv.popWriteNext hpc
    have hplaced := hinv.worker i
    rw [hpc] at hplaced
    have hi := hholder (by rw [hpc]; rfl)
    simp [nodesAfter, hpc, line, hi, State.setNext, State.setWorker, Worker.inHand, dequeued,
      hplaced.1.task]
  | unlock i result hpc =>
    have hi := hholder (by rw [hpc]; rfl)
    cases hresult : result.join <;>
      simp [nodesAfter, hpc, line, hi, State.setWorker, Worker.inHand, dequeued, hresult]

/-! ### The steps -/

/-- A step keeps the list filled. -/
theorem Filled.move {x : Label ι β} {es : List (Event ι)} (hfilled : Filled s nodes)
    (hinv : Intact s nodes) (hmove : Move s x s' es) : Filled s' (nodesAfter s nodes x) := by
  cases hmove with
  | call hpc | writeNext node hpc | readPrev node hpc | writePrev node last hpc
  | readLast node hpc | writeTail node hpc =>
    simp only [nodesAfter, hpc]
    exact hfilled.of_submit rfl rfl (by simp [hpc, Submit.node])
  | allocate node task hpc hlive =>
    refine ⟨fun n hn hnone => hfilled.nodes n hn ?_, hfilled.worker, by simp [Submit.node]⟩
    have hne : n ≠ node := by
      rintro rfl
      simp [hinv.live n hn] at hlive
    change Function.update s.task node (some task) n = none at hnone
    rwa [Function.update_of_ne hne] at hnone
  | writeLast node last hpc =>
    simp only [nodesAfter, hpc]
    refine ⟨fun n hn hnone => ?_, hfilled.worker, by simp [Submit.node]⟩
    rcases List.mem_append.mp hn with hn | hn
    · obtain ⟨hhead, hpops⟩ := hfilled.nodes n hn hnone
      exact ⟨by simp [List.head?_append, hhead], hpops⟩
    · -- the new node has its task
      obtain rfl : n = node := by simpa using hn
      exact absurd hnone (hfilled.submit n (by rw [hpc]; rfl))
  | getTask i hpc | lock i hpc hfree | testEmpty i hpc hempty | testFull i hpc hempty
  | execute i task hpc =>
    simp only [nodesAfter, hpc]
    exact hfilled.of_worker (i := i) rfl rfl rfl (by simp [hpc, Worker.pops])
      (by simp [Worker.inHand])
  | readFirst i node task hpc hfirst | popReadNext i node task hpc
  | popReadPrev i node next task hpc | popWritePrev i node next prev task hpc
  | free i node task hpc =>
    simp only [nodesAfter, hpc]
    have hhand := hfilled.worker i
    rw [hpc] at hhand
    exact hfilled.of_worker (i := i) rfl rfl rfl (by simp [hpc, Worker.pops]) hhand
  | unlock i result hpc =>
    simp only [nodesAfter, hpc]
    have hhand := hfilled.worker i
    rw [hpc] at hhand
    refine hfilled.of_worker (i := i) rfl rfl rfl (by simp [hpc, Worker.pops]) ?_
    cases result <;> exact hhand
  | front i node hpc hfirst =>
    obtain ⟨rest, rfl⟩ := hinv.chain.eq_cons hfirst
    have hi : (s.worker i).inMtx = true := by rw [hpc]; rfl
    -- nobody else pops, so the task is there
    have hnode : s.task node ≠ none := fun hnone => by
      obtain ⟨-, j, hj⟩ := hfilled.nodes node List.mem_cons_self hnone
      obtain rfl : j = i := hinv.mtx.unique (Worker.inMtx_of_pops hj) hi
      simp [hpc, Worker.pops] at hj
    simp only [nodesAfter, hpc]
    refine ⟨fun n hn hnone => ?_,
      hfilled.inHand (i := i) rfl (by simpa [Worker.inHand] using hnode), fun n hn hnone => ?_⟩
    · by_cases hne : n = node
      · exact ⟨by rw [hne]; rfl, i, by simp [State.setWorker, Worker.pops]⟩
      · change Function.update s.task node none n = none at hnone
        rw [Function.update_of_ne hne] at hnone
        obtain ⟨hhead, -⟩ := hfilled.nodes n hn hnone
        exact absurd (Option.some.inj hhead).symm hne
    · have hne : n ≠ node := ((hinv.fresh_of_node hn).ne List.mem_cons_self).symm
      change Function.update s.task node none n = none at hnone
      rw [Function.update_of_ne hne] at hnone
      exact hfilled.submit n hn hnone
  | popWriteNext i node next prev task hpc =>
    obtain ⟨rest, rfl, -⟩ := hinv.popWriteNext hpc
    have hnode : node ∉ rest := (List.nodup_cons.mp (Linked.nodup hinv.chain)).1
    have hhand := hfilled.worker i
    rw [hpc] at hhand
    simp only [nodesAfter, hpc, List.tail_cons]
    have hrest : ∀ n ∈ rest, s.task n ≠ none := fun n hn hnone => by
      obtain ⟨hhead, -⟩ := hfilled.nodes n (List.mem_cons_of_mem _ hn) hnone
      exact hnode (Option.some.inj hhead ▸ hn)
    exact ⟨fun n hn hnone => absurd hnone (hrest n hn), hfilled.inHand (i := i) rfl hhand,
      hfilled.submit⟩

/-! ### The steps of a worker -/

theorem Move.submit_of_worker {es : List (Event ι)} (hmove : Move s (.worker i) s' es) :
    s'.submit = s.submit ∧ s'.submitted = s.submitted := by
  cases hmove <;> exact ⟨rfl, rfl⟩

theorem Move.worker_of_ne {es : List (Event ι)} (hmove : Move s (.worker i) s' es) {j : ι}
    (hji : j ≠ i) : s'.worker j = s.worker j := by
  cases hmove <;> exact Function.update_of_ne hji _ _

theorem Move.executed_of_worker {es : List (Event ι)} (hmove : Move s (.worker i) s' es) :
    executed es = match s.worker i with | .execute task => task.toList | _ => [] := by
  cases hmove <;> simp_all [executed]

theorem Move.places_of_worker [Fintype ι] {es : List (Event ι)} (hinv : Intact s nodes)
    (hmove : Move s (.worker i) s' es) :
    places s nodes = places s' (nodesAfter s nodes (.worker i)) + executed es := by
  have hplaces := places_of_move hinv hmove
  rw [hmove.submit_of_worker.2] at hplaces
  exact add_left_cancel hplaces

/-! ### Progress of a worker -/

/-- A worker that is blocked waits for `m_mtx`. -/
theorem Intact.blocked (hinv : Intact s nodes) (hfilled : Filled s nodes)
    (hblocked : workerStep i s = none) : s.worker i = .lock ∧ s.mMtx ≠ none := by
  have hplaced := hinv.worker i
  have hhand := hfilled.worker i
  cases hl : s.worker i with
  | lock =>
    refine ⟨rfl, fun hfree => ?_⟩
    simp [workerStep, hl, hfree] at hblocked
  | testEmpty => by_cases hempty : s.next none = none <;> simp [workerStep, hl, hempty] at hblocked
  | front =>
    rw [hl] at hplaced
    obtain ⟨node, rest, rfl⟩ := List.exists_cons_of_ne_nil hplaced
    simp [workerStep, hl, hinv.chain.next_none] at hblocked
  | readFirst task =>
    rw [hl] at hplaced
    obtain ⟨node, hnode⟩ := hplaced
    simp [workerStep, hl, hinv.chain.next_none, hnode.first] at hblocked
  | execute task =>
    cases task with
    | none => exact absurd (by rw [hl]; rfl) hhand
    | some task => simp [workerStep, hl] at hblocked
  | _ => simp [workerStep, hl] at hblocked

/-- The steps that are left to a worker until it looks at its stop token. -/
def Worker.weight : Worker β → ℕ
  | idle => 1
  | execute _ => 2
  | unlock _ => 3
  | free _ _ => 4
  | writePrev _ _ _ _ => 5
  | writeNext _ _ _ _ => 6
  | readPrev _ _ _ => 7
  | readNext _ _ => 8
  | readFirst _ => 9
  | front => 10
  | testEmpty => 11
  | lock => 12

theorem Move.weight_lt {es : List (Event ι)} (hmove : Move s (.worker i) s' es)
    (hpc : s.worker i ≠ .idle) : (s'.worker i).weight < (s.worker i).weight := by
  cases hmove with
  | getTask i hidle => exact absurd hidle hpc
  | unlock i result hpc => cases result <;> simp [hpc, State.setWorker, Worker.weight]
  | _ => simp_all [State.setWorker, State.setNext, State.setPrev, Worker.weight]

end ThreadPool

end Multithreading.Pool
