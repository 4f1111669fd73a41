import Multithreading.Pool.TaskList
import Multithreading.Transition.Threads
import Mathlib.Data.Multiset.Range

/-!
# The places of the tasks

A task that has been submitted is with `Submit`, on the list, held by a worker, or executed, in
exactly one of these places, in every run in which `pop_front` and `emplace_back` do not work on the
same node. In other runs `pop_front` takes the new node out together with the first one.

## Main definitions

* `ThreadPool.TaskLaw` — no task is lost and none is executed twice.
* `ThreadPool.places` — the tasks that are still to be executed, wherever they are.

## Main results

* `ThreadPool.Accounted.move` — a step under `Apart` keeps every task in one place.
* `ThreadPool.taskLaw_of_apart` — the law holds after every run under `Apart`.
* `ThreadPool.not_taskLaw` — it does not hold after every run.
-/

open Transition Memory

namespace Multithreading.Pool

namespace ThreadPool

variable {ι β : Type*}

/-! ### The law -/

/-- The tasks that have been executed. -/
def executed (h : List (Event ι)) : List ℕ :=
  h.filterMap fun | .executed _ task => some task | _ => none

@[simp] theorem executed_nil : executed ([] : List (Event ι)) = [] := rfl

@[simp] theorem executed_append (h h' : List (Event ι)) :
    executed (h ++ h') = executed h ++ executed h' :=
  List.filterMap_append

/-- The task that a worker holds. -/
def Worker.held : Worker β → Multiset ℕ
  | readFirst task | readNext _ task | readPrev _ _ task | writeNext _ _ _ task
  | writePrev _ _ _ task | free _ task | unlock (some task) | execute task => task.toList
  | _ => 0

/-- The worker is in `GetTask`. -/
def Worker.inGetTask : Worker β → Bool
  | idle | execute _ => false
  | _ => true

/-- No `Submit` and no `GetTask` is in progress. -/
structure Quiescent (s : State ι β) : Prop where
  submit : s.submit = .idle
  worker : ∀ i, (s.worker i).inGetTask = false

/-- No task is executed twice, and in a quiescent state every task submitted so far is on the list
as seen from its first node, held by one worker, or executed, in exactly one of these places. -/
structure TaskLaw [Fintype ι] (s : State ι β) (h : List (Event ι)) : Prop where
  once : (executed h).Nodup
  places : Quiescent s → ∃ nodes, Circular s.next nodes ∧
    Multiset.range s.submitted =
      (nodes.filterMap s.task : Multiset ℕ) + ∑ i, (s.worker i).held + executed h

/-- A pool with one worker. -/
abbrev onePool : Machine (State (Fin 1) ℕ) (Label (Fin 1) ℕ) (Event (Fin 1)) :=
  threadPool (Fin 1) ℕ (fun _ => none) fun _ => none

/-- A call of `Submit` from beginning to end. -/
def submitLabels (node : β) : List (Label ι β) :=
  [.submit, .allocate node] ++ List.replicate 6 .submit

/-- Worker `i` has read the links of the only node of the list when `Submit` hooks a second node
behind it. -/
def takeAlongLabels (i : ι) : List (Label ι ℕ) :=
  submitLabels 0 ++ List.replicate 7 (.worker i) ++ submitLabels 1 ++ List.replicate 5 (.worker i)

/-- **A task is lost.** -/
theorem not_taskLaw : ¬ ∀ s h, onePool.Run onePool.init h s → TaskLaw s h := by
  intro hlaw
  obtain ⟨s, h, hrun, hend⟩ := Machine.exists_run_of_exec (M := onePool)
    (takeAlongLabels 0)
    (f := fun r => (r.1.submit, r.1.worker 0, r.1.next none, r.1.submitted, executed r.2))
    (b := (.idle, .idle, none, 2, [0])) (by decide)
  simp only [Prod.mk.injEq] at hend
  obtain ⟨hsubmit, hworker, hnext, hsubmitted, hexecuted⟩ := hend
  have hidle : ∀ i, s.worker i = .idle := fun i => by rw [Subsingleton.elim i 0, hworker]
  obtain ⟨nodes, hchain, htasks⟩ := (hlaw s h hrun).places
    ⟨hsubmit, fun i => by rw [hidle i]; rfl⟩
  -- the list is empty, so that nothing but task 0 is anywhere
  obtain rfl : nodes = [] := List.head?_eq_none_iff.mp (hchain.next_none.symm.trans hnext)
  have hheld : ∑ i, (s.worker i).held = 0 := Finset.sum_eq_zero fun i _ => by rw [hidle i]; rfl
  rw [hsubmitted, hheld, hexecuted] at htasks
  exact absurd (congrArg Multiset.card htasks) (by simp)

/-! ### The account of the tasks -/

/-- The task that `Submit` is about to put on the list. -/
def Submit.pending (s : State ι β) : Submit β → Multiset ℕ
  | allocate task => {task}
  | writeNext node | readPrev node | writePrev node _ | readLast node | writeLast node _ =>
    (s.task node).toList
  | _ => 0

/-- The tasks that are still to be executed, with the nodes of the list. -/
def places [Fintype ι] (s : State ι β) (nodes : List β) : Multiset ℕ :=
  s.submit.pending s + (nodes.filterMap s.task : Multiset ℕ) + ∑ i, (s.worker i).held

variable [Fintype ι] {s s' : State ι β} {nodes : List β} {h : List (Event ι)}

/-- Every task that has been submitted is in exactly one place. -/
structure Accounted (s : State ι β) (nodes : List β) (h : List (Event ι)) : Prop where
  intact : Intact s nodes
  tasks : Multiset.range s.submitted = places s nodes + executed h

variable [DecidableEq ι]

theorem held_update {i : ι} {l' : Worker β} (hworker : s'.worker = Function.update s.worker i l') :
    ∑ j, (s'.worker j).held + (s.worker i).held = ∑ j, (s.worker j).held + l'.held := by
  rw [hworker]
  exact sum_comp_update Worker.held s.worker i l'

theorem places_of_worker (nodes : List β) {i : ι} {l' : Worker β}
    (hworker : s'.worker = Function.update s.worker i l') (hsubmit : s'.submit = s.submit)
    (htask : s'.task = s.task) :
    places s' nodes + (s.worker i).held = places s nodes + l'.held := by
  have hpending : s'.submit.pending s' = s.submit.pending s := by
    rw [hsubmit]
    cases s.submit <;> simp [Submit.pending, htask]
  rw [places, places, hpending, htask, add_assoc, held_update hworker, add_assoc, add_assoc,
    add_assoc]

theorem places_of_held {i : ι} {l' : Worker β}
    (hworker : s'.worker = Function.update s.worker i l') (hheld : l'.held = (s.worker i).held)
    (hsubmit : s'.submit = s.submit) (htask : s'.task = s.task) :
    places s' nodes = places s nodes := by
  have hplaces := places_of_worker nodes hworker hsubmit htask
  rw [hheld] at hplaces
  exact add_right_cancel hplaces

omit [DecidableEq ι] in
theorem places_of_submit (hworker : s'.worker = s.worker) (htask : s'.task = s.task)
    (hpending : s'.submit.pending s' = s.submit.pending s) : places s' nodes = places s nodes := by
  rw [places, places, hpending, htask, hworker]

omit [DecidableEq ι] in
/-- A step that takes no task in, leaves all tasks where they are and executes none. -/
theorem balance_of_places {nodes' : List β} {es : List (Event ι)}
    (hsubmitted : s'.submitted = s.submitted) (hplaces : places s' nodes' = places s nodes)
    (hes : executed es = []) :
    Multiset.range s'.submitted + places s nodes =
      Multiset.range s.submitted + (places s' nodes' + executed es) := by
  rw [hsubmitted, hplaces, hes, Multiset.coe_nil, add_zero]

variable [DecidableEq β]

omit [Fintype ι] [DecidableEq ι] in
theorem filterMap_update {node : β} (hnode : node ∉ nodes) (task : Option ℕ) :
    nodes.filterMap (Function.update s.task node task) = nodes.filterMap s.task :=
  List.filterMap_congr fun _ hn => Function.update_of_ne (ne_of_mem_of_not_mem hn hnode) _ _

omit [Fintype ι] [DecidableEq ι] in
theorem pending_of_front (hinv : Intact s nodes) {node : β} (hnode : node ∈ nodes)
    (htask : s'.task = Function.update s.task node none) (hsubmit : s'.submit = s.submit) :
    s'.submit.pending s' = s.submit.pending s := by
  have hfresh : ∀ new, s.submit.node = some new → s'.task new = s.task new := fun new hnew => by
    rw [htask, Function.update_of_ne ((hinv.fresh_of_node hnew).ne hnode).symm]
  rw [hsubmit]
  cases hl : s.submit with
  | idle | allocate task | writeTail node => rfl
  | writeNext new | readPrev new | writePrev new last | readLast new | writeLast new last =>
    simp only [Submit.pending, hfresh new (by rw [hl]; rfl)]

/-- The task of the first node moves to the worker. -/
theorem places_of_front {i : ι} {node : β} {rest : List β} (hinv : Intact s (node :: rest))
    (hpc : s.worker i = .front)
    (hworker : s'.worker = Function.update s.worker i (.readFirst (s.task node)))
    (htask : s'.task = Function.update s.task node none) (hsubmit : s'.submit = s.submit) :
    places s' (node :: rest) = places s (node :: rest) := by
  have hnode : node ∉ rest := (List.nodup_cons.mp (Linked.nodup hinv.chain)).1
  have hpending := pending_of_front hinv List.mem_cons_self htask hsubmit
  have hsum := held_update hworker
  have hheld : (s.worker i).held = 0 := by rw [hpc]; rfl
  have hread : (.readFirst (s.task node) : Worker β).held = (s.task node).toList := rfl
  have hlist : ((node :: rest).filterMap s.task : Multiset ℕ) =
      (s.task node).toList + (rest.filterMap s.task : Multiset ℕ) := by
    cases htask : s.task node <;> simp [htask]
  rw [hheld, hread, add_zero] at hsum
  rw [places, places, hpending, hsum, hlist, htask,
    List.filterMap_cons_none (Function.update_self _ _ _), filterMap_update hnode]
  abel

/-- A step adds the task that is submitted and takes away the task that is executed. -/
theorem places_of_move {x : Label ι β} {es : List (Event ι)} (hinv : Intact s nodes)
    (hmove : Move s x s' es) :
    Multiset.range s'.submitted + places s nodes =
      Multiset.range s.submitted + (places s' (nodesAfter s nodes x) + executed es) := by
  cases hmove with
  | call hpc =>
    have hes : executed ([.call s.submitted] : List (Event ι)) = [] := rfl
    simp only [places, nodesAfter, hpc, Submit.pending, Multiset.range_succ, hes, Multiset.coe_nil,
      ← Multiset.singleton_add]
    abel
  | allocate node task hpc hlive =>
    have hnode : node ∉ nodes := fun hn => by simp [hinv.live node hn] at hlive
    refine balance_of_places rfl ?_ rfl
    simp [places, nodesAfter, hpc, Submit.pending, filterMap_update hnode]
  | writeNext node hpc | readPrev node hpc | writePrev node last hpc | readLast node hpc
  | writeTail node hpc =>
    refine balance_of_places rfl ?_ rfl
    simp only [nodesAfter, hpc]
    refine places_of_submit rfl rfl ?_
    rw [hpc]
    rfl
  | writeLast node last hpc =>
    -- the node joins the list together with its task
    refine balance_of_places rfl ?_ rfl
    have htask : ([node].filterMap s.task : Multiset ℕ) = (s.task node).toList := by
      cases htask : s.task node <;> simp [htask]
    simp only [places, nodesAfter, hpc, Submit.pending, List.filterMap_append, State.setNext,
      ← Multiset.coe_add, htask]
    abel
  | getTask i hpc | lock i hpc hfree | testEmpty i hpc hempty | testFull i hpc hempty
  | readFirst i node task hpc hfirst | popReadNext i node task hpc
  | popReadPrev i node next task hpc | popWritePrev i node next prev task hpc
  | free i node task hpc =>
    refine balance_of_places rfl ?_ rfl
    simp only [nodesAfter, hpc]
    refine places_of_held (i := i) rfl ?_ rfl rfl
    rw [hpc]
    rfl
  | front i node hpc hfirst =>
    obtain ⟨rest, rfl⟩ := hinv.chain.eq_cons hfirst
    refine balance_of_places rfl ?_ rfl
    simp only [nodesAfter, hpc]
    exact places_of_front hinv hpc rfl rfl rfl
  | popWriteNext i node next prev task hpc =>
    -- the node leaves the list without a task
    obtain ⟨rest, rfl, -⟩ := hinv.popWriteNext hpc
    have hplaced := hinv.worker i
    rw [hpc] at hplaced
    have hrest : places s rest = places s (node :: rest) := by
      rw [places, places, List.filterMap_cons_none hplaced.1.task]
    refine balance_of_places rfl ?_ rfl
    simp only [nodesAfter, hpc, List.tail_cons]
    refine Eq.trans (places_of_held (s := s) (i := i) rfl ?_ rfl rfl) hrest
    rw [hpc]
    rfl
  | unlock i result hpc =>
    refine balance_of_places rfl ?_ rfl
    simp only [nodesAfter, hpc]
    refine places_of_held (i := i) rfl ?_ rfl rfl
    rw [hpc]
    cases result <;> rfl
  | execute i task hpc =>
    have hplaces : places (s.setWorker i .idle) nodes + (s.worker i).held =
        places s nodes + (.idle : Worker β).held := places_of_worker nodes rfl rfl rfl
    have hheld : (s.worker i).held = {task} := by rw [hpc]; rfl
    have hidle : (.idle : Worker β).held = 0 := rfl
    have hes : executed [Event.executed i task] = [task] := rfl
    rw [hheld, hidle, add_zero] at hplaces
    simp only [nodesAfter, hpc, hes, Multiset.coe_singleton, hplaces]
    rfl

/-- A step under the guard keeps every task in exactly one place. -/
theorem Accounted.move {x : Label ι β} {es : List (Event ι)} (hacc : Accounted s nodes h)
    (hmove : Move s x s' es) (hapart : Apart s x) :
    Accounted s' (nodesAfter s nodes x) (h ++ es) := by
  refine ⟨hacc.intact.move hmove hapart, ?_⟩
  have hplaces := places_of_move hacc.intact hmove
  rw [hacc.tasks] at hplaces
  refine add_right_cancel (b := places s nodes) (hplaces.trans ?_)
  rw [executed_append, ← Multiset.coe_add]
  abel

theorem accounted_init (next prev : β → Option β) :
    Accounted (threadPool ι β next prev).init [] [] := by
  refine ⟨⟨rfl, by simp, Mutex.held_none fun _ => rfl, trivial, fun _ => trivial, by simp,
    fun _ => .inl rfl⟩, ?_⟩
  simp [threadPool, places, Submit.pending, Worker.held]

/-- Every task that has been submitted is in exactly one place after a run under the guard. -/
theorem exists_accounted_of_run {next prev : β → Option β}
    (hrun : (threadPool ι β next prev).RunIf Apart (threadPool ι β next prev).init h s) :
    ∃ nodes, Accounted s nodes h := by
  refine hrun.invariant (fun s h => ∃ nodes, Accounted s nodes h) ⟨[], accounted_init next prev⟩ ?_
  rintro h t u es x - ⟨nodes, hacc⟩ hapart hnext
  exact ⟨_, hacc.move (move_of_step hnext) hapart⟩

/-- No task is lost and none is executed twice in a run in which `pop_front` and `emplace_back` do
not work on the same node. -/
theorem taskLaw_of_apart {next prev : β → Option β}
    (hrun : (threadPool ι β next prev).RunIf Apart (threadPool ι β next prev).init h s) :
    TaskLaw s h := by
  obtain ⟨nodes, hintact, htasks⟩ := exists_accounted_of_run hrun
  refine ⟨?_, fun hquiescent => ⟨nodes, hintact.chain, ?_⟩⟩
  · rw [← Multiset.coe_nodup]
    refine Multiset.nodup_of_le ?_ (Multiset.nodup_range s.submitted)
    rw [htasks]
    exact Multiset.le_add_left _ _
  · rw [htasks, places, hquiescent.submit]
    simp [Submit.pending]

/-- Worker `i` unhooks the first of two nodes while `Submit` hooks a third one. -/
def distantLabels (i : ι) : List (Label ι ℕ) :=
  submitLabels 0 ++ submitLabels 1 ++ List.replicate 7 (.worker i) ++ submitLabels 2 ++
    List.replicate 5 (.worker i)

/-- A third task is hooked behind the second node while the worker unhooks the first one. -/
theorem taskLaw_of_distant_nodes : ∃ s h, onePool.RunIf Apart onePool.init h s ∧
    executed h = [0] ∧ TaskLaw s h := by
  obtain ⟨s, h, hrun, hexecuted⟩ := Machine.exists_runIf_of_execIf (M := onePool) Apart
    (distantLabels 0)
    (f := fun r => executed r.2) (b := [0]) (by decide)
  exact ⟨s, h, hrun, hexecuted, taskLaw_of_apart hrun⟩

end ThreadPool

end Multithreading.Pool
