import Multithreading.Pool.TaskOrder

/-!
# `~ThreadPool`

The members are destroyed in the reverse order of their declarations. The destructor of
`m_threads` destroys one `std::jthread` after the other, which requests the stop of this thread and
joins it; the other workers go on meanwhile. Then the destructor of `m_tasks` walks along the list
and destroys every node, and with it the task, which gives up its promise. `m_mtx` comes last.

The machine goes on from the state of a pool in which no `Submit` is in progress. A task is
executed in one step, which says whether the task throws: `packaged_task` stores the exception, so a
worker goes on in either case.

## Main definitions

* `Shutdown.Destructor`, `Shutdown.State`, `Shutdown.step`, `shutdown` — the machine.
* `Shutdown.Begins` — the states of the pool in which the destructor begins.
* `Shutdown.ShutdownLaw` — the law of the futures.

## Main results

* `Shutdown.begins_of_run` — the destructor may begin after every run of the pool under `Apart`.
* `Shutdown.exists_run_done` — the destructor can always go on to its end.
* `Shutdown.shutdown_resolves_futures` — the law holds in every state that is reached.
-/

open Transition Memory

namespace Multithreading.Pool

namespace Shutdown

open ThreadPool (Intact Filled Worker places line dequeued executed)

/-- What the future of a task receives. -/
inductive Result
  | value
  | exception
  | brokenPromise
  deriving DecidableEq

/-- What the future receives when the task is executed. -/
def Result.ofTask (throws : Bool) : Result := if throws then exception else value

/-- The program counter of `~ThreadPool`. -/
inductive Destructor (ι β : Type*)
  /-- In the destructor of `m_threads`, about to call `request_stop` on the first of the threads
  that are left. -/
  | requestStop (threads : List ι)
  /-- About to join thread `i`. -/
  | join (i : ι) (threads : List ι)
  /-- In the destructor of `m_tasks`, at a node or at the sentinel. -/
  | clear (node : Option β)
  /-- About to destroy `m_mtx`. -/
  | destroyMtx
  | done

/-- The state: the pool, the stop token and the end of every thread, and the futures of the
tasks. -/
structure State (ι β : Type*) where
  pool : ThreadPool.State ι β
  stopRequested : ι → Bool
  finished : ι → Bool
  destructor : Destructor ι β
  future : ℕ → Option Result

/-- A step of a worker, in which the task that it executes may throw, or of the destructor. -/
inductive Label (ι : Type*)
  | worker (i : ι) (throws : Bool)
  | destructor

/-- The events. -/
inductive Event (ι : Type*)
  | pool (e : ThreadPool.Event ι)
  /-- The future of a task receives a result. -/
  | resolved (task : ℕ) (result : Result)

variable {ι β : Type*} [DecidableEq ι] [DecidableEq β]

/-- The state after the future of a task has received a result. -/
def State.resolve (s : State ι β) (task : ℕ) (result : Result) : State ι β :=
  { s with future := Function.update s.future task (some result) }

/-- A step of worker `i`. Before every `GetTask` it looks at its stop token. -/
def workerStep (i : ι) (throws : Bool) (s : State ι β) :
    Option (State ι β × List (Event ι)) :=
  if s.finished i then none
  else match s.pool.worker i with
    | .idle =>
      if s.stopRequested i then some ({ s with finished := Function.update s.finished i true }, [])
      else (ThreadPool.workerStep i s.pool).map fun r => ({ s with pool := r.1 }, r.2.map .pool)
    | .execute (some task) =>
      (ThreadPool.workerStep i s.pool).map fun r =>
        ({ s with pool := r.1 }.resolve task (.ofTask throws),
          r.2.map .pool ++ [.resolved task (.ofTask throws)])
    | _ => (ThreadPool.workerStep i s.pool).map fun r => ({ s with pool := r.1 }, r.2.map .pool)

/-- A step of `~ThreadPool`. -/
def destructorStep (s : State ι β) : Option (State ι β × List (Event ι)) :=
  match s.destructor with
  | .requestStop [] => some ({ s with destructor := .clear (s.pool.next none) }, [])
  | .requestStop (i :: threads) =>
    some ({ s with stopRequested := Function.update s.stopRequested i true,
                   destructor := .join i threads }, [])
  | .join i threads =>
    if s.finished i then some ({ s with destructor := .requestStop threads }, []) else none
  | .clear none => some ({ s with destructor := .destroyMtx }, [])
  | .clear (some node) =>
    let s' := { s with pool := { s.pool with live := Function.update s.pool.live node false },
                       destructor := .clear (s.pool.next (some node)) }
    match s.pool.task node with
    | none => some (s', [])
    | some task => some (s'.resolve task .brokenPromise, [.resolved task .brokenPromise])
  | .destroyMtx => some ({ s with destructor := .done }, [])
  | .done => none

/-- A step. -/
def step (s : State ι β) : Label ι → Option (State ι β × List (Event ι))
  | .worker i throws => workerStep i throws s
  | .destructor => destructorStep s

/-- What a step can do. -/
inductive Move (s : State ι β) : Label ι → State ι β → List (Event ι) → Prop
  | finish (i : ι) (throws : Bool) (hrunning : s.finished i = false)
      (hpc : s.pool.worker i = .idle) (hstop : s.stopRequested i = true) :
      Move s (.worker i throws) { s with finished := Function.update s.finished i true } []
  | pool (i : ι) (throws : Bool) (pool : ThreadPool.State ι β) (es : List (ThreadPool.Event ι))
      (hrunning : s.finished i = false)
      (hstop : s.pool.worker i = .idle → s.stopRequested i = false)
      (hpc : ∀ task, s.pool.worker i ≠ .execute (some task))
      (hmove : ThreadPool.Move s.pool (.worker i) pool es) :
      Move s (.worker i throws) { s with pool := pool } (es.map .pool)
  | execute (i : ι) (throws : Bool) (task : ℕ) (pool : ThreadPool.State ι β)
      (es : List (ThreadPool.Event ι)) (hrunning : s.finished i = false)
      (hpc : s.pool.worker i = .execute (some task))
      (hmove : ThreadPool.Move s.pool (.worker i) pool es) :
      Move s (.worker i throws) ({ s with pool := pool }.resolve task (.ofTask throws))
        (es.map .pool ++ [.resolved task (.ofTask throws)])
  | threadsEnd (hpc : s.destructor = .requestStop []) :
      Move s .destructor { s with destructor := .clear (s.pool.next none) } []
  | requestStop (i : ι) (threads : List ι) (hpc : s.destructor = .requestStop (i :: threads)) :
      Move s .destructor { s with
        stopRequested := Function.update s.stopRequested i true, destructor := .join i threads } []
  | join (i : ι) (threads : List ι) (hpc : s.destructor = .join i threads)
      (hfinished : s.finished i = true) :
      Move s .destructor { s with destructor := .requestStop threads } []
  | tasksEnd (hpc : s.destructor = .clear none) :
      Move s .destructor { s with destructor := .destroyMtx } []
  | clearEmpty (node : β) (hpc : s.destructor = .clear (some node))
      (htask : s.pool.task node = none) :
      Move s .destructor { s with
        pool := { s.pool with live := Function.update s.pool.live node false },
        destructor := .clear (s.pool.next (some node)) } []
  | clear (node : β) (task : ℕ) (hpc : s.destructor = .clear (some node))
      (htask : s.pool.task node = some task) :
      Move s .destructor ({ s with
        pool := { s.pool with live := Function.update s.pool.live node false },
        destructor := .clear (s.pool.next (some node)) }.resolve task .brokenPromise)
        [.resolved task .brokenPromise]
  | destroyMtx (hpc : s.destructor = .destroyMtx) :
      Move s .destructor { s with destructor := .done } []

theorem move_of_step {s s' : State ι β} {x : Label ι} {es : List (Event ι)}
    (h : step s x = some (s', es)) : Move s x s' es := by
  cases x with
  | worker i throws =>
    simp only [step, workerStep] at h
    split at h
    · contradiction
    rename_i hrunning
    rw [Bool.not_eq_true] at hrunning
    split at h
    · rename_i hpc
      split at h
      · rename_i hstop
        obtain ⟨rfl, rfl⟩ : _ ∧ _ := by simpa using h
        exact .finish i throws hrunning hpc hstop
      · rename_i hstop
        obtain ⟨⟨pool, es'⟩, hpool, hr⟩ := Option.map_eq_some_iff.mp h
        obtain ⟨rfl, rfl⟩ := Prod.mk.inj hr
        exact .pool i throws pool es' hrunning (fun _ => by simpa using hstop) (by simp [hpc])
          (ThreadPool.move_of_step hpool)
    · rename_i task hpc
      obtain ⟨⟨pool, es'⟩, hpool, hr⟩ := Option.map_eq_some_iff.mp h
      obtain ⟨rfl, rfl⟩ := Prod.mk.inj hr
      exact .execute i throws task pool es' hrunning hpc (ThreadPool.move_of_step hpool)
    · rename_i hidle hpc
      obtain ⟨⟨pool, es'⟩, hpool, hr⟩ := Option.map_eq_some_iff.mp h
      obtain ⟨rfl, rfl⟩ := Prod.mk.inj hr
      exact .pool i throws pool es' hrunning (fun h => absurd h hidle) hpc
        (ThreadPool.move_of_step hpool)
  | destructor =>
    simp only [step, destructorStep] at h
    split at h
    all_goals try split at h
    all_goals try contradiction
    all_goals obtain ⟨rfl, rfl⟩ : _ ∧ _ := by simpa using h
    all_goals constructor
    all_goals assumption

end Shutdown

namespace Shutdown

open ThreadPool (Intact Filled Worker Submit places line dequeued executed)

variable {ι β : Type*}

/-! ### The law -/

/-- What happened in the pool. -/
def poolEvents (h : List (Event ι)) : List (ThreadPool.Event ι) :=
  h.filterMap fun | .pool e => some e | _ => none

/-- The futures that have received a result, with the result. -/
def resolutions (h : List (Event ι)) : List (ℕ × Result) :=
  h.filterMap fun | .resolved task result => some (task, result) | _ => none

@[simp] theorem poolEvents_nil : poolEvents ([] : List (Event ι)) = [] := rfl

@[simp] theorem poolEvents_append (h h' : List (Event ι)) :
    poolEvents (h ++ h') = poolEvents h ++ poolEvents h' :=
  List.filterMap_append

@[simp] theorem poolEvents_map (es : List (ThreadPool.Event ι)) :
    poolEvents (es.map .pool) = es := by
  simp [poolEvents, List.filterMap_map]

@[simp] theorem poolEvents_resolved (task : ℕ) (result : Result) :
    poolEvents [(.resolved task result : Event ι)] = [] := rfl

@[simp] theorem resolutions_nil : resolutions ([] : List (Event ι)) = [] := rfl

@[simp] theorem resolutions_append (h h' : List (Event ι)) :
    resolutions (h ++ h') = resolutions h ++ resolutions h' :=
  List.filterMap_append

@[simp] theorem resolutions_map (es : List (ThreadPool.Event ι)) :
    resolutions (es.map .pool) = [] := by
  simp [resolutions, List.filterMap_map]

@[simp] theorem resolutions_resolved (task : ℕ) (result : Result) :
    resolutions [(.resolved task result : Event ι)] = [(task, result)] := rfl

/-- The destructor of `m_threads` has returned. -/
def Destructor.joined : Destructor ι β → Bool
  | requestStop _ | join _ _ => false
  | _ => true

/-- The tasks that have been destroyed without having been executed. -/
def broken (h : List (Event ι)) : List ℕ :=
  ((resolutions h).filter fun r => r.2 = .brokenPromise).map Prod.fst

/-- The list is intact while threads are joined, and those that are not left have finished. -/
structure Joining (s : State ι β) (nodes : List β) (threads : List ι) : Prop where
  intact : Intact s.pool nodes
  submit : s.pool.submit = .idle
  filled : Filled s.pool nodes
  finished : ∀ i, s.finished i = true → s.pool.worker i = .idle
  left : ∀ i, s.finished i = true ∨ i ∈ threads

/-- All threads have finished, and the nodes that are still to be destroyed have tasks. -/
structure Clearing (s : State ι β) (nodes : List β) (node : Option β) : Prop where
  chain : Linked (fun a => s.pool.next (some a)) node nodes
  tasks : ∀ a ∈ nodes, s.pool.task a ≠ none
  submit : s.pool.submit = .idle
  mtx : s.pool.mMtx = none
  finished : ∀ i, s.finished i = true
  worker : ∀ i, s.pool.worker i = .idle

/-- What holds where the destructor is. -/
def Phase (s : State ι β) (nodes : List β) : Prop :=
  match s.destructor with
  | .requestStop threads => Joining s nodes threads
  | .join i threads => Joining s nodes (i :: threads) ∧ s.stopRequested i = true
  | .clear node => Clearing s nodes node
  | .destroyMtx | .done => Clearing s nodes none

variable {s s' : State ι β} {nodes rest : List β}

theorem Phase.joining (hphase : Phase s nodes) (hjoined : s.destructor.joined = false) :
    ∃ threads, Joining s nodes threads := by
  rw [Phase] at hphase
  cases hpc : s.destructor <;> simp only [hpc, Destructor.joined, reduceCtorEq] at hphase hjoined
  · exact ⟨_, hphase⟩
  · exact ⟨_, hphase.1⟩

theorem Phase.clearing (hphase : Phase s nodes) (hjoined : s.destructor.joined = true) :
    ∃ node, Clearing s nodes node := by
  rw [Phase] at hphase
  cases hpc : s.destructor <;> simp only [hpc, Destructor.joined, reduceCtorEq] at hphase hjoined
  all_goals exact ⟨_, hphase⟩

theorem Phase.joined_eq_false (hphase : Phase s nodes) {i : ι} (hrunning : s.finished i = false) :
    s.destructor.joined = false := by
  by_contra hjoined
  obtain ⟨node, hclearing⟩ := hphase.clearing (by simpa using hjoined)
  simp [hclearing.finished i] at hrunning

theorem Phase.of_joining (hphase : Phase s nodes) (hjoined : s.destructor.joined = false)
    (hdestructor : s'.destructor = s.destructor) (hstop : s'.stopRequested = s.stopRequested)
    (hjoining : ∀ threads, Joining s nodes threads → Joining s' rest threads) :
    Phase s' rest := by
  rw [Phase] at hphase ⊢
  rw [hdestructor, hstop]
  cases hpc : s.destructor <;>
    simp only [hpc, Destructor.joined, reduceCtorEq] at hphase hjoined ⊢
  · exact hjoining _ hphase
  · exact ⟨hjoining _ hphase.1, hphase.2⟩

/-! ### The account -/

section Ledger

variable [Fintype ι] {pool₀ : ThreadPool.State ι β} {nodes₀ : List β} {h : List (Event ι)}

/-- What has become of the tasks of the pool `pool₀` with the list `nodes₀`, when the list `nodes`
is left. -/
structure Ledger (pool₀ : ThreadPool.State ι β) (nodes₀ : List β) (s : State ι β)
    (nodes : List β) (h : List (Event ι)) : Prop where
  tasks : places pool₀ nodes₀ =
    places s.pool nodes + ((resolutions h).map Prod.fst : Multiset ℕ)
  order : line pool₀ nodes₀ = dequeued (poolEvents h) ++ broken h ++ line s.pool nodes
  unbroken : s.destructor.joined = false → broken h = []
  executed : executed (poolEvents h) =
    ((resolutions h).filter fun r => r.2 ≠ .brokenPromise).map Prod.fst
  futures : ∀ r ∈ resolutions h, s.future r.1 = some r.2

theorem Ledger.keep (hledger : Ledger pool₀ nodes₀ s nodes h) (hpool : s'.pool = s.pool)
    (hfuture : s'.future = s.future)
    (hjoined : s'.destructor.joined = false → s.destructor.joined = false) :
    Ledger pool₀ nodes₀ s' nodes (h ++ []) := by
  rw [List.append_nil]
  refine ⟨?_, ?_, fun hs' => hledger.unbroken (hjoined hs'), hledger.executed, ?_⟩
  · rw [hpool]
    exact hledger.tasks
  · rw [hpool]
    exact hledger.order
  · rw [hfuture]
    exact hledger.futures

/-- The future of a task that is in some place has not received a result. -/
theorem Ledger.fresh (hledger : Ledger pool₀ nodes₀ s nodes h)
    (hdistinct : (places pool₀ nodes₀).Nodup) {task : ℕ} (htask : task ∈ places s.pool nodes) :
    ∀ r ∈ resolutions h, r.1 ≠ task := by
  rintro r hr rfl
  rw [hledger.tasks] at hdistinct
  refine Multiset.disjoint_left.mp (Multiset.nodup_add.mp hdistinct).2.2 htask ?_
  exact Multiset.mem_coe.mpr (List.mem_map_of_mem hr)

theorem Ledger.resolve (hledger : Ledger pool₀ nodes₀ s nodes h)
    (hdistinct : (places pool₀ nodes₀).Nodup) {task : ℕ} (htask : task ∈ places s.pool nodes)
    (result : Result) : ∀ r ∈ resolutions h ++ [(task, result)],
      Function.update s.future task (some result) r.1 = some r.2 := by
  intro r hr
  rcases List.mem_append.mp hr with hr | hr
  · rw [Function.update_of_ne (hledger.fresh hdistinct htask r hr)]
    exact hledger.futures r hr
  · obtain rfl : r = (task, result) := by simpa using hr
    simp

end Ledger

/-! ### The steps -/

/-- When no thread is left, the list has been left to the destructor. -/
theorem Joining.clearing (hjoining : Joining s nodes []) (destructor : Destructor ι β) :
    Clearing { s with destructor := destructor } nodes (s.pool.next none) := by
  have hfinished : ∀ i, s.finished i = true := fun i => by simpa using hjoining.left i
  have hidle : ∀ i, s.pool.worker i = .idle := fun i => hjoining.finished i (hfinished i)
  refine ⟨hjoining.intact.chain, fun node hnode hnone => ?_, hjoining.submit,
    hjoining.intact.mtx.eq_none fun i => ?_, hfinished, hidle⟩
  · obtain ⟨-, i, hpops⟩ := hjoining.filled.nodes node hnode hnone
    simp [hidle i, Worker.pops] at hpops
  · rw [hidle i]
    rfl

theorem Clearing.tail {node : β} (hclearing : Clearing s nodes (some node)) (live : β → Bool)
    (future : ℕ → Option Result) (destructor : Destructor ι β) :
    Clearing { s with pool := { s.pool with live := live }, future := future,
                      destructor := destructor } nodes.tail (s.pool.next (some node)) := by
  obtain ⟨rest, rfl, hchain⟩ := Linked.eq_cons hclearing.chain
  exact ⟨hchain, fun a ha => hclearing.tasks a (List.mem_cons_of_mem _ ha), hclearing.submit,
    hclearing.mtx, hclearing.finished, hclearing.worker⟩

theorem Clearing.places [Fintype ι] {node : Option β} (hclearing : Clearing s nodes node) :
    places s.pool nodes = (nodes.filterMap s.pool.task : Multiset ℕ) := by
  have hheld : ∑ i, (s.pool.worker i).held = 0 :=
    Finset.sum_eq_zero fun i _ => by rw [hclearing.worker i]; rfl
  simp [ThreadPool.places, hclearing.submit, hheld, Submit.pending]

theorem Clearing.line {node : Option β} (hclearing : Clearing s nodes node) :
    line s.pool nodes = nodes.filterMap s.pool.task := by
  simp [ThreadPool.line, hclearing.mtx]

/-- The nodes that are left after a step. -/
def nodesAfter (s : State ι β) (nodes : List β) : Label ι → List β
  | .worker i _ => ThreadPool.nodesAfter s.pool nodes (.worker i)
  | .destructor =>
    match s.destructor with
    | .clear (some _) => nodes.tail
    | _ => nodes

variable [DecidableEq ι] [DecidableEq β]

theorem Joining.pool {threads : List ι} {i : ι} {pool : ThreadPool.State ι β}
    {es : List (ThreadPool.Event ι)} (hjoining : Joining s nodes threads)
    (hrunning : s.finished i = false) (hmove : ThreadPool.Move s.pool (.worker i) pool es)
    (future : ℕ → Option Result) :
    Joining { s with pool := pool, future := future }
      (ThreadPool.nodesAfter s.pool nodes (.worker i)) threads where
  intact := by
    refine hjoining.intact.move hmove ?_
    by_cases hstart : (s.pool.worker i).startsUnhook = none
    · exact .inl hstart
    · exact .inr (by simpa [ThreadPool.State.hookedBehind, hjoining.submit] using hstart)
  submit := hmove.submit_of_worker.1.trans hjoining.submit
  filled := hjoining.filled.move hjoining.intact hmove
  finished j hj := by
    have hji : j ≠ i := by
      rintro rfl
      simp [hrunning] at hj
    exact (hmove.worker_of_ne hji).trans (hjoining.finished j hj)
  left := hjoining.left

theorem Phase.move {x : Label ι} {es : List (Event ι)} (hphase : Phase s nodes)
    (hmove : Move s x s' es) : Phase s' (nodesAfter s nodes x) := by
  cases hmove with
  | finish i throws hrunning hpc hstop =>
    simp only [nodesAfter, ThreadPool.nodesAfter, hpc]
    refine hphase.of_joining (hphase.joined_eq_false hrunning) rfl rfl fun threads h => ?_
    refine ⟨h.intact, h.submit, h.filled, fun j hj => ?_, fun j => ?_⟩
    · by_cases hji : j = i
      · rwa [hji]
      · exact h.finished j (by simpa [Function.update_of_ne hji] using hj)
    · by_cases hji : j = i
      · exact .inl (by simp [hji])
      · simpa [Function.update_of_ne hji] using h.left j
  | pool i throws pool es hrunning hstop hpc hmove =>
    exact hphase.of_joining (hphase.joined_eq_false hrunning) rfl rfl fun threads h =>
      h.pool hrunning hmove s.future
  | execute i throws task pool es hrunning hpc hmove =>
    exact hphase.of_joining (hphase.joined_eq_false hrunning) rfl rfl fun threads h =>
      h.pool hrunning hmove _
  | threadsEnd hpc =>
    simp only [Phase, nodesAfter, hpc] at hphase ⊢
    exact hphase.clearing _
  | requestStop i threads hpc =>
    simp only [Phase, nodesAfter, hpc] at hphase ⊢
    exact ⟨⟨hphase.intact, hphase.submit, hphase.filled, hphase.finished, hphase.left⟩,
      by simp⟩
  | join i threads hpc hfinished =>
    simp only [Phase, nodesAfter, hpc] at hphase ⊢
    obtain ⟨h, -⟩ := hphase
    refine ⟨h.intact, h.submit, h.filled, h.finished, fun j => ?_⟩
    rcases h.left j with hj | hj
    · exact .inl hj
    · rcases List.mem_cons.mp hj with rfl | hj
      · exact .inl hfinished
      · exact .inr hj
  | tasksEnd hpc | destroyMtx hpc =>
    simp only [Phase, nodesAfter, hpc] at hphase ⊢
    exact ⟨hphase.chain, hphase.tasks, hphase.submit, hphase.mtx, hphase.finished,
      hphase.worker⟩
  | clearEmpty node hpc htask | clear node task hpc htask =>
    simp only [Phase, nodesAfter, hpc, State.resolve] at hphase ⊢
    exact hphase.tail _ _ _

variable [Fintype ι] {pool₀ : ThreadPool.State ι β} {nodes₀ : List β} {h : List (Event ι)}

/-- A step of a worker takes a task out of the line or gives a future its result. -/
theorem Ledger.pool {i : ι} {pool : ThreadPool.State ι β} {es : List (ThreadPool.Event ι)}
    (es' : List (Event ι)) {future : ℕ → Option Result}
    (hledger : Ledger pool₀ nodes₀ s nodes h) (hintact : Intact s.pool nodes)
    (hjoined : s.destructor.joined = false) (hmove : ThreadPool.Move s.pool (.worker i) pool es)
    (hpool : poolEvents es' = es)
    (hexecuted : ThreadPool.executed es = (resolutions es').map Prod.fst)
    (hresults : ∀ r ∈ resolutions es', r.2 ≠ .brokenPromise)
    (hfutures : ∀ r ∈ resolutions h ++ resolutions es', future r.1 = some r.2) :
    Ledger pool₀ nodes₀ { s with pool := pool, future := future }
      (ThreadPool.nodesAfter s.pool nodes (.worker i)) (h ++ es') := by
  have hbroken : broken (h ++ es') = [] := by
    have hes' : (resolutions es').filter (fun r => r.2 = .brokenPromise) = [] := by
      simpa using hresults
    have hh := hledger.unbroken hjoined
    rw [broken] at hh
    rw [broken, resolutions_append, List.filter_append, hes', List.append_nil, hh]
  have hkept : (resolutions es').filter (fun r => r.2 ≠ .brokenPromise) = resolutions es' := by
    simpa using hresults
  refine ⟨?_, ?_, fun _ => hbroken, ?_, by simpa using hfutures⟩
  · rw [hledger.tasks, hmove.places_of_worker hintact, hexecuted, resolutions_append,
      List.map_append, ← Multiset.coe_add]
    abel
  · rw [hbroken, hledger.order, hledger.unbroken hjoined, ThreadPool.line_of_move hintact hmove,
      poolEvents_append, hpool]
    simp
  · rw [poolEvents_append, ThreadPool.executed_append, hpool, hledger.executed, hexecuted,
      resolutions_append, List.filter_append, List.map_append, hkept]

omit [DecidableEq ι] in
/-- The destructor takes the first task out of the line and breaks its promise. -/
theorem Ledger.clear {node : β} {task : ℕ} (hledger : Ledger pool₀ nodes₀ s nodes h)
    (hdistinct : (places pool₀ nodes₀).Nodup) (hclearing : Clearing s nodes (some node))
    (htask : s.pool.task node = some task) :
    Ledger pool₀ nodes₀ ({ s with
      pool := { s.pool with live := Function.update s.pool.live node false },
      destructor := .clear (s.pool.next (some node)) }.resolve task .brokenPromise) nodes.tail
      (h ++ [.resolved task .brokenPromise]) := by
  have hclearing' := hclearing.tail (Function.update s.pool.live node false)
    (Function.update s.future task (some .brokenPromise)) (.clear (s.pool.next (some node)))
  obtain ⟨rest, rfl, -⟩ := Linked.eq_cons hclearing.chain
  have hplaces := hclearing.places
  have hline := hclearing.line
  rw [List.filterMap_cons_some htask] at hplaces hline
  have hmem : task ∈ ThreadPool.places s.pool (node :: rest) := by
    rw [hplaces]
    exact Multiset.mem_coe.mpr List.mem_cons_self
  refine ⟨?_, ?_, by simp [State.resolve, Destructor.joined], ?_, ?_⟩
  · refine hledger.tasks.trans ?_
    rw [hplaces]
    refine Eq.trans ?_ (congrArg (· + _) hclearing'.places.symm)
    rw [List.tail_cons, resolutions_append, resolutions_resolved, List.map_append,
      ← Multiset.coe_add, ← Multiset.cons_coe, ← Multiset.singleton_add, List.map_singleton,
      Multiset.coe_singleton]
    abel
  · refine hledger.order.trans ?_
    rw [hline]
    refine Eq.trans ?_ (congrArg (_ ++ ·) hclearing'.line.symm)
    simp [broken]
  · simp [hledger.executed]
  · rw [resolutions_append]
    exact hledger.resolve hdistinct hmem .brokenPromise

theorem Ledger.move {x : Label ι} {es : List (Event ι)}
    (hledger : Ledger pool₀ nodes₀ s nodes h) (hdistinct : (places pool₀ nodes₀).Nodup)
    (hphase : Phase s nodes) (hmove : Move s x s' es) :
    Ledger pool₀ nodes₀ s' (nodesAfter s nodes x) (h ++ es) := by
  cases hmove with
  | finish i throws hrunning hpc hstop =>
    simp only [nodesAfter, ThreadPool.nodesAfter, hpc]
    exact hledger.keep rfl rfl id
  | pool i throws pool es hrunning hstop hpc hmove =>
    have hjoined := hphase.joined_eq_false hrunning
    obtain ⟨threads, hjoining⟩ := hphase.joining hjoined
    refine hledger.pool (es.map .pool) hjoining.intact hjoined hmove (by simp) ?_ (by simp)
      (by simpa using hledger.futures)
    rw [hmove.executed_of_worker, resolutions_map]
    split
    · rename_i task hexecute
      cases task with
      | none => rfl
      | some task => exact absurd hexecute (hpc task)
    · rfl
  | execute i throws task pool es hrunning hpc hmove =>
    have hjoined := hphase.joined_eq_false hrunning
    obtain ⟨threads, hjoining⟩ := hphase.joining hjoined
    have hexecuted : ThreadPool.executed es = [task] := by
      rw [hmove.executed_of_worker, hpc]
      rfl
    have hmem : task ∈ ThreadPool.places s.pool nodes := by
      rw [hmove.places_of_worker hjoining.intact, hexecuted]
      simp
    refine hledger.pool (es.map .pool ++ [.resolved task (.ofTask throws)])
      hjoining.intact hjoined hmove (by simp) (by simp [hexecuted]) ?_ ?_
    · cases throws <;> simp [Result.ofTask]
    · simpa using hledger.resolve hdistinct hmem (.ofTask throws)
  | threadsEnd hpc | tasksEnd hpc | destroyMtx hpc =>
    simp only [nodesAfter, hpc]
    exact hledger.keep rfl rfl (by simp [Destructor.joined])
  | requestStop i threads hpc | join i threads hpc hfinished =>
    simp only [nodesAfter, hpc]
    exact hledger.keep rfl rfl (by simp [hpc, Destructor.joined])
  | clearEmpty node hpc htask =>
    simp only [Phase, hpc] at hphase
    obtain ⟨rest, rfl, -⟩ := Linked.eq_cons hphase.chain
    exact absurd htask (hphase.tasks node List.mem_cons_self)
  | clear node task hpc htask =>
    simp only [Phase, nodesAfter, hpc] at hphase ⊢
    exact hledger.clear hdistinct hphase htask

/-- No worker begins another `GetTask`, and the destructor has not come to `m_tasks`. -/
def Draining (s : State ι β) : Label ι → Prop
  | .worker i _ => s.pool.worker i = .idle → s.stopRequested i = true
  | .destructor => s.destructor.joined = false

/-- The steps that are left to the destructor of `m_threads`. -/
def Destructor.weight : Destructor ι β → ℕ
  | requestStop threads => 2 * threads.length + 1
  | join _ threads => 2 * threads.length + 2
  | _ => 0

/-- The steps that are left to a worker. -/
def State.weight (s : State ι β) (i : ι) : ℕ :=
  if s.finished i then 0 else (s.pool.worker i).weight

omit [DecidableEq ι] [DecidableEq β] in
theorem sum_weight_lt {i : ι} (hother : ∀ j, j ≠ i → s'.weight j = s.weight j)
    (hself : s'.weight i < s.weight i) : ∑ j, s'.weight j < ∑ j, s.weight j := by
  refine Finset.sum_lt_sum (fun j _ => ?_) ⟨i, Finset.mem_univ i, hself⟩
  by_cases hji : j = i
  · rw [hji]
    exact hself.le
  · exact (hother j hji).le

theorem Move.weight_lt {x : Label ι} {es : List (Event ι)} (hmove : Move s x s' es)
    (hdraining : Draining s x) :
    s'.destructor.weight + ∑ i, s'.weight i < s.destructor.weight + ∑ i, s.weight i := by
  have hpool : ∀ (i : ι) (pool : ThreadPool.State ι β) (es : List (ThreadPool.Event ι))
      (future : ℕ → Option Result), s.finished i = false → s.pool.worker i ≠ .idle →
      ThreadPool.Move s.pool (.worker i) pool es →
        ∑ j, State.weight { s with pool := pool, future := future } j < ∑ j, s.weight j := by
    intro i pool es future hrunning hpc hmove
    refine sum_weight_lt (i := i) (fun j hji => ?_) ?_
    · simp [State.weight, hmove.worker_of_ne hji]
    · simpa [State.weight, hrunning] using hmove.weight_lt hpc
  cases hmove with
  | finish i throws hrunning hpc hstop =>
    refine Nat.add_lt_add_left (sum_weight_lt (i := i) (fun j hji => ?_) ?_) _
    · simp [State.weight, Function.update_of_ne hji]
    · simp [State.weight, hrunning, hpc, Worker.weight]
  | pool i throws pool es hrunning hstop hpc hmove =>
    refine Nat.add_lt_add_left (hpool i pool es _ hrunning (fun hidle => ?_) hmove) _
    exact absurd (hdraining hidle) (by simp [hstop hidle])
  | execute i throws task pool es hrunning hpc hmove =>
    exact Nat.add_lt_add_left (hpool i pool es _ hrunning (by simp [hpc]) hmove) _
  | threadsEnd hpc | requestStop i threads hpc | join i threads hpc hfinished =>
    refine Nat.add_lt_add_right ?_ (∑ i, s.weight i)
    simp only [hpc, Destructor.weight, List.length_cons, List.length_nil]
    omega
  | tasksEnd hpc | clearEmpty node hpc htask | clear node task hpc htask | destroyMtx hpc =>
    simp [Draining, hpc, Destructor.joined] at hdraining

omit [Fintype ι] in
/-- A worker that cannot get on waits for `m_mtx`, and it is not about to look at its stop token. -/
theorem Joining.blocked {threads : List ι} {i : ι} (hjoining : Joining s nodes threads)
    (hrunning : s.finished i = false)
    (hstop : s.pool.worker i = .idle → s.stopRequested i = true)
    (hblocked : step s (.worker i false) = none) :
    s.pool.worker i = .lock ∧ s.pool.mMtx ≠ none := by
  refine hjoining.intact.blocked hjoining.filled ?_
  simp only [step, workerStep, hrunning] at hblocked
  cases hpc : s.pool.worker i with
  | idle => simp [hpc, hstop hpc] at hblocked
  | execute task => cases task <;> simpa [hpc] using hblocked
  | _ => simpa [hpc] using hblocked

end Shutdown

end Multithreading.Pool
