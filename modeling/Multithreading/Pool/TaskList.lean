import Multithreading.Pool.ThreadPool
import Multithreading.Transition.Mutex
import Multithreading.Memory.Chain

/-!
# The list of the tasks

The list is intact as long as a `pop_front` and an `emplace_back` do not work on the same node. A
`pop_front` that unhooks the last node while the new node is being hooked behind it takes the new
node along, and its task is lost.

## Main definitions

* `ThreadPool.Apart` — the condition on a step under which the list stays intact.
* `ThreadPool.Intact` — the list visits given nodes, and everybody is where he believes to be.
* `ThreadPool.nodesAfter` — the nodes of the list after a step.

## Main results

* `ThreadPool.Intact.move` — a step under `Apart` keeps the list intact.
-/

open Transition Memory

namespace Multithreading.Pool

namespace ThreadPool

variable {ι β : Type*}

/-! ### The guard -/

/-- The node behind which `Submit` is hooking its node, or its node when this is hooked and is not
yet the last one. -/
def State.hookedBehind (s : State ι β) : Option β :=
  match s.submit with
  | .writePrev _ last => last
  | .readLast node => s.prev (some node)
  | .writeLast _ last => last
  | .writeTail node => some node
  | _ => none

/-- `Submit` is about to read the last node. -/
def Submit.readsPrev : Submit β → Bool
  | readPrev _ => true
  | _ => false

/-- The node that `pop_front` is about to unhook. -/
def Worker.startsUnhook : Worker β → Option β
  | readNext node _ => some node
  | _ => none

/-- The node that `pop_front` is unhooking. -/
def Worker.unhooks : Worker β → Option β
  | readPrev node _ _ | writeNext node _ _ _ | writePrev node _ _ _ => some node
  | _ => none

/-- `pop_front` does not begin to unhook a node while `Submit` works on it, and `Submit` does not
begin to hook a node behind one that is being unhooked. -/
def Apart (s : State ι β) : Label ι β → Prop
  | .worker i => (s.worker i).startsUnhook = none ∨ (s.worker i).startsUnhook ≠ s.hookedBehind
  | .submit => s.submit.readsPrev = true →
      ∀ i, (s.worker i).unhooks = none ∨ (s.worker i).unhooks ≠ s.prev none
  | .allocate _ => True

instance [Fintype ι] [DecidableEq β] (s : State ι β) : (x : Label ι β) → Decidable (Apart s x)
  | .worker _ => inferInstanceAs (Decidable (_ ∨ _))
  | .submit => inferInstanceAs (Decidable (_ → ∀ _, _))
  | .allocate _ => inferInstanceAs (Decidable True)

/-! ### The invariant of the list -/

/-- The program counters of a worker at which it holds `m_mtx`. -/
def Worker.inMtx : Worker β → Bool
  | idle | lock | execute _ => false
  | _ => true

/-- The node that `pop_front` works on. -/
def Worker.node : Worker β → Option β
  | readNext node _ | readPrev node _ _ | writeNext node _ _ _ | writePrev node _ _ _
  | free node _ => some node
  | _ => none

/-- `pop_front` is about to write the previous link of the given node. -/
def Worker.Restores (p : Option β) : Worker β → Prop
  | writePrev _ next _ _ => next = p
  | _ => False

/-- `Submit` has read the last node and has not yet written its next link. -/
def Submit.hooks : Submit β → Bool
  | writePrev _ _ | readLast _ | writeLast _ _ => true
  | _ => false

/-- `Submit` is about to make its node the last one. -/
def Submit.hooked : Submit β → Option β
  | writeTail node => some node
  | _ => none

/-- The node with which `Submit` works before it is in the list. -/
def Submit.node : Submit β → Option β
  | writeNext node | readPrev node | writePrev node _ | readLast node | writeLast node _ =>
    some node
  | _ => none

/-- A node that is allocated and that nobody else knows. -/
structure Fresh (s : State ι β) (nodes : List β) (node : β) : Prop where
  live : s.live node = true
  notMem : node ∉ nodes
  worker : ∀ i, (s.worker i).node ≠ some node

/-- What `Submit` knows of the list. -/
def Submit.Placed (s : State ι β) (nodes : List β) : Submit β → Prop
  | writeNext node => Fresh s nodes node
  | readPrev node => Fresh s nodes node ∧ s.next (some node) = none
  | writePrev node last => Fresh s nodes node ∧ s.next (some node) = none ∧ last = nodes.getLast?
  | readLast node =>
    Fresh s nodes node ∧ s.next (some node) = none ∧ s.prev (some node) = nodes.getLast?
  | writeLast node last =>
    Fresh s nodes node ∧ s.next (some node) = none ∧ s.prev (some node) = nodes.getLast? ∧
      last = nodes.getLast?
  | writeTail node => nodes.getLast? = some node
  | _ => True

/-- `Submit` does not work on the first node. -/
structure Clear (s : State ι β) (nodes : List β) (node : β) : Prop where
  hooks : s.submit.hooks = true → nodes.getLast? ≠ some node
  hooked : s.submit.hooked ≠ some node

/-- The first node of the list, with its task moved out. -/
structure Taken (s : State ι β) (nodes : List β) (node : β) : Prop where
  first : nodes.head? = some node
  task : s.task node = none

/-- A node that has been taken out of the list. -/
structure Removed (s : State ι β) (nodes : List β) (node : β) : Prop where
  notMem : node ∉ nodes
  live : s.live node = true

/-- What `pop_front` knows of the list. -/
def Worker.Placed (s : State ι β) (nodes : List β) : Worker β → Prop
  | front => nodes ≠ []
  | readFirst _ => ∃ node, Taken s nodes node
  | readNext node _ => Taken s nodes node
  | readPrev node next _ => Taken s nodes node ∧ Clear s nodes node ∧ next = s.next (some node)
  | writeNext node next prev _ =>
    Taken s nodes node ∧ Clear s nodes node ∧ next = s.next (some node) ∧ prev = none
  | writePrev node next prev _ =>
    Removed s nodes node ∧ next = nodes.head? ∧ prev = none ∧
      (next = none → s.submit.hooks = false ∧ s.prev none = some node)
  | free node _ => Removed s nodes node
  | _ => True

/-- The list visits `nodes`, which are allocated, everybody is where he believes to be, and the
links backwards that are read are right. -/
structure Intact (s : State ι β) (nodes : List β) : Prop where
  chain : Circular s.next nodes
  live : ∀ node ∈ nodes, s.live node = true
  mtx : Mutex.Held s.mMtx fun i => (s.worker i).inMtx
  submit : s.submit.Placed s nodes
  worker : ∀ i, (s.worker i).Placed s nodes
  first : ∀ node, nodes.head? = some node →
    s.prev (some node) = none ∨ ∃ i, (s.worker i).Restores (some node)
  last : s.submit.hooked = none →
    s.prev none = nodes.getLast? ∨ ∃ i, (s.worker i).Restores none

theorem Worker.placed_of_inMtx {l : Worker β} (hl : l.inMtx = false) (s : State ι β)
    (nodes : List β) : l.Placed s nodes := by
  cases l <;> simp_all [Worker.inMtx, Worker.Placed]

theorem Worker.Restores.inMtx {p : Option β} {l : Worker β} (hl : l.Restores p) :
    l.inMtx = true := by
  cases l <;> simp_all [Worker.Restores, Worker.inMtx]

variable {s s' : State ι β} {nodes nodes' : List β}

/-- What a worker knows stays true when its node keeps its place and its link. -/
theorem Worker.Placed.congr {l : Worker β} (hl : l.Placed s nodes)
    (hhead : ∀ node, nodes.head? = some node → nodes'.head? = some node)
    (htask : ∀ node ∈ nodes, s'.task node = s.task node)
    (hremoved : ∀ node, l.node = some node → Removed s nodes node → Removed s' nodes' node)
    (hclear : ∀ node, l.unhooks = some node → Taken s nodes node → Clear s nodes node →
      Clear s' nodes' node ∧ s'.next (some node) = s.next (some node))
    (hempty : ∀ node, l.unhooks = some node → nodes = [] → s.submit.hooks = false →
      s.prev none = some node →
        nodes' = [] ∧ s'.submit.hooks = false ∧ s'.prev none = some node) :
    l.Placed s' nodes' := by
  have htaken : ∀ node, Taken s nodes node → Taken s' nodes' node := fun node h =>
    ⟨hhead node h.first, (htask node (List.mem_of_mem_head? h.first)).trans h.task⟩
  cases l with
  | front =>
    intro hnil
    cases nodes with
    | nil => exact hl rfl
    | cons node nodes => simp [hnil] at hhead
  | readFirst task =>
    obtain ⟨node, hnode⟩ := hl
    exact ⟨node, htaken node hnode⟩
  | readNext node task => exact htaken node hl
  | readPrev node next task =>
    obtain ⟨h1, h2, h3⟩ := hl
    obtain ⟨hclear', hnext⟩ := hclear node rfl h1 h2
    exact ⟨htaken node h1, hclear', h3.trans hnext.symm⟩
  | writeNext node next prev task =>
    obtain ⟨h1, h2, h3, h4⟩ := hl
    obtain ⟨hclear', hnext⟩ := hclear node rfl h1 h2
    exact ⟨htaken node h1, hclear', h3.trans hnext.symm, h4⟩
  | writePrev node next prev task =>
    obtain ⟨h1, h2, h3, h4⟩ := hl
    refine ⟨hremoved node rfl h1, ?_, h3, ?_⟩
    · cases nodes with
      | nil =>
        obtain ⟨hhooks, hprev⟩ := h4 h2
        rw [h2, (hempty node rfl rfl hhooks hprev).1]
      | cons a nodes => rw [h2, hhead a rfl]; rfl
    · intro hnone
      obtain ⟨hhooks, hprev⟩ := h4 hnone
      have hnil : nodes = [] := List.head?_eq_none_iff.mp (h2.symm.trans hnone)
      exact (hempty node rfl hnil hhooks hprev).2
  | free node task => exact hremoved node rfl hl
  | _ => trivial

theorem Worker.Placed.keep {l : Worker β} (hl : l.Placed s nodes) (htask : s'.task = s.task)
    (hlive : s'.live = s.live)
    (hclear : ∀ node, l.unhooks = some node → Taken s nodes node → Clear s nodes node →
      Clear s' nodes node ∧ s'.next (some node) = s.next (some node))
    (hempty : ∀ node, l.unhooks = some node → nodes = [] → s.submit.hooks = false →
      s.prev none = some node → s'.submit.hooks = false ∧ s'.prev none = some node) :
    l.Placed s' nodes :=
  hl.congr (fun _ h => h) (fun _ _ => by rw [htask]) (fun _ _ h => ⟨h.1, hlive ▸ h.2⟩) hclear
    fun node hnode hnil hhooks hprev => ⟨hnil, hempty node hnode hnil hhooks hprev⟩

theorem Submit.Placed.congr {l : Submit β} (hl : l.Placed s nodes)
    (hfresh : ∀ node, Fresh s nodes node → Fresh s' nodes' node)
    (hnext : ∀ node, Fresh s nodes node → s'.next (some node) = s.next (some node))
    (hprev : ∀ node, Fresh s nodes node → s'.prev (some node) = s.prev (some node))
    (hlast : l.hooks = true → nodes'.getLast? = nodes.getLast?)
    (hhooked : ∀ node, l.hooked = some node → nodes.getLast? = some node →
      nodes'.getLast? = some node) :
    l.Placed s' nodes' := by
  cases l with
  | writeNext node => exact hfresh node hl
  | readPrev node => exact ⟨hfresh node hl.1, (hnext node hl.1).trans hl.2⟩
  | writePrev node last =>
    obtain ⟨h1, h2, h3⟩ := hl
    exact ⟨hfresh node h1, (hnext node h1).trans h2, h3.trans (hlast rfl).symm⟩
  | readLast node =>
    obtain ⟨h1, h2, h3⟩ := hl
    exact ⟨hfresh node h1, (hnext node h1).trans h2,
      (hprev node h1).trans (h3.trans (hlast rfl).symm)⟩
  | writeLast node last =>
    obtain ⟨h1, h2, h3, h4⟩ := hl
    exact ⟨hfresh node h1, (hnext node h1).trans h2,
      (hprev node h1).trans (h3.trans (hlast rfl).symm), h4.trans (hlast rfl).symm⟩
  | writeTail node => exact hhooked node rfl hl
  | _ => trivial

theorem Fresh.ne {new node : β} (hfresh : Fresh s nodes new) (hnode : node ∈ nodes) :
    node ≠ new :=
  fun h => hfresh.notMem (h ▸ hnode)

namespace Intact

theorem fresh_of_node (hinv : Intact s nodes) {node : β}
    (hnode : s.submit.node = some node) : Fresh s nodes node := by
  have hplaced := hinv.submit
  cases hl : s.submit <;> simp only [hl, Submit.node, Option.some.injEq, reduceCtorEq] at hnode
  all_goals
    subst hnode
    rw [hl] at hplaced
  · exact hplaced
  all_goals exact hplaced.1

theorem inMtx_eq_false (hinv : Intact s nodes) {i j : ι} (hi : (s.worker i).inMtx = true)
    (hji : j ≠ i) : (s.worker j).inMtx = false := by
  by_contra hj
  exact hji (hinv.mtx.unique (t := j) (u := i) (by simpa using hj) hi)

/-- The links backwards are right when the worker inside the mutex has nothing to restore. -/
theorem not_restores (hinv : Intact s nodes) {i : ι} (hi : (s.worker i).inMtx = true)
    (hnot : ∀ p, ¬ (s.worker i).Restores p) (p : Option β) : ¬ ∃ j, (s.worker j).Restores p := by
  rintro ⟨j, hj⟩
  by_cases hji : j = i
  · exact hnot p (hji ▸ hj)
  · simpa [hinv.inMtx_eq_false hi hji] using hj.inMtx

theorem live_of_node (hinv : Intact s nodes) {i : ι} {node : β}
    (hnode : (s.worker i).node = some node) : s.live node = true := by
  have hplaced := hinv.worker i
  have hfirst : ∀ node, Taken s nodes node → s.live node = true := fun node h =>
    hinv.live node (List.mem_of_mem_head? h.first)
  cases hl : s.worker i <;> simp only [hl, Worker.node, Option.some.injEq, reduceCtorEq] at hnode
  all_goals
    subst hnode
    rw [hl] at hplaced
  · exact hfirst _ hplaced
  · exact hfirst _ hplaced.1
  · exact hfirst _ hplaced.1
  · exact hplaced.1.live
  · exact hplaced.live

/-! #### The steps of `Submit` -/

theorem call (hinv : Intact s nodes) (hpc : s.submit = .idle) (n k : ℕ) :
    Intact { s with submitted := n, submit := .allocate k } nodes where
  chain := hinv.chain
  live := hinv.live
  mtx := hinv.mtx
  submit := trivial
  worker i := (hinv.worker i).keep rfl rfl
    (fun _ _ _ _ => ⟨⟨by simp [Submit.hooks], by simp [Submit.hooked]⟩, rfl⟩)
    fun _ _ _ _ hprev => ⟨rfl, hprev⟩
  first := hinv.first
  last _ := hinv.last (by simp [hpc, Submit.hooked])

section Submit

variable [DecidableEq β]

theorem allocate (hinv : Intact s nodes) {node : β} {k : ℕ} (hpc : s.submit = .allocate k)
    (hlive : s.live node = false) :
    Intact { s with
      live := Function.update s.live node true,
      task := Function.update s.task node (some k), submit := .writeNext node } nodes := by
  have hne : ∀ n, s.live n = true → n ≠ node := fun n hn h => by simp [h, hlive] at hn
  have hupdate : ∀ n, s.live n = true → Function.update s.live node true n = true := fun n hn => by
    rwa [Function.update_of_ne (hne n hn)]
  refine ⟨hinv.chain, fun n hn => hupdate n (hinv.live n hn), hinv.mtx, ?_, fun i => ?_, hinv.first,
    fun _ => hinv.last (by simp [hpc, Submit.hooked])⟩
  · exact ⟨by simp, fun hmem => hne node (hinv.live node hmem) rfl,
      fun i hi => hne node (hinv.live_of_node hi) rfl⟩
  · refine (hinv.worker i).congr (fun _ h => h) (fun n hn => ?_) (fun n _ h => ⟨h.1, hupdate n h.2⟩)
      (fun _ _ _ _ => ⟨⟨by simp [Submit.hooks], by simp [Submit.hooked]⟩, rfl⟩)
      fun _ _ hnil _ hprev => ⟨hnil, rfl, hprev⟩
    exact Function.update_of_ne (hne n (hinv.live n hn)) _ _

theorem writeNext (hinv : Intact s nodes) {node : β} (hpc : s.submit = .writeNext node) :
    Intact { s.setNext (some node) none with submit := .readPrev node } nodes := by
  have hplaced := hinv.submit
  rw [hpc] at hplaced
  have hfresh : Fresh s nodes node := hplaced
  refine ⟨hinv.chain.update_of_notMem hfresh.notMem none, hinv.live, hinv.mtx,
    ⟨⟨hfresh.1, hfresh.2, hfresh.3⟩, by simp [State.setNext]⟩, fun i => ?_, hinv.first,
    fun _ => hinv.last (by simp [hpc, Submit.hooked])⟩
  refine (hinv.worker i).keep rfl rfl
    (fun n _ htaken _ => ⟨⟨by simp [Submit.hooks], by simp [Submit.hooked]⟩, ?_⟩)
    fun _ _ _ _ hprev => ⟨rfl, hprev⟩
  refine Function.update_of_ne ?_ _ _
  simpa using hfresh.ne (List.mem_of_mem_head? htaken.first)

omit [DecidableEq β] in
/-- The last node is read behind the list, unless a worker has unhooked what is read there. -/
theorem prev_none (hinv : Intact s nodes) (hhooked : s.submit.hooked = none)
    (hapart : ∀ i n, (s.worker i).unhooks = some n → s.submit.hooks = false →
      s.prev none ≠ some n) :
    s.prev none = nodes.getLast? := by
  rcases hinv.last hhooked with h | ⟨i, hi⟩
  · exact h
  · have hworker := hinv.worker i
    cases hl : s.worker i <;> simp only [hl, Worker.Restores] at hi
    rw [hl] at hworker
    obtain ⟨hhooks, hprev⟩ := hworker.2.2.2 hi
    exact absurd hprev (hapart i _ (by simp [hl, Worker.unhooks]) hhooks)

omit [DecidableEq β] in
/-- When `Submit` reads the last node, the guard keeps it away from a node that is being unhooked.
-/
theorem readPrev (hinv : Intact s nodes) {node : β} (hpc : s.submit = .readPrev node)
    (hapart : ∀ i, (s.worker i).unhooks = none ∨ (s.worker i).unhooks ≠ s.prev none) :
    Intact { s with submit := .writePrev node (s.prev none) } nodes := by
  have hplaced := hinv.submit
  rw [hpc] at hplaced
  obtain ⟨hfresh, hnext⟩ := hplaced
  have hne : ∀ i n, (s.worker i).unhooks = some n → s.prev none ≠ some n := by
    intro i n hn hprev
    rcases hapart i with h | h
    · simp [hn] at h
    · exact h (hn.trans hprev.symm)
  have hlast : s.prev none = nodes.getLast? :=
    hinv.prev_none (by simp [hpc, Submit.hooked]) fun i n hn _ => hne i n hn
  refine ⟨hinv.chain, hinv.live, hinv.mtx,
    ⟨⟨hfresh.1, hfresh.2, hfresh.3⟩, hnext, hlast⟩, fun i => ?_, hinv.first,
    fun _ => .inl hlast⟩
  exact (hinv.worker i).keep rfl rfl
    (fun n hn _ _ => ⟨⟨fun _ => hlast ▸ hne i n hn, by simp [Submit.hooked]⟩, rfl⟩)
    fun n hn _ _ hprev => absurd hprev (hne i n hn)

theorem writePrev (hinv : Intact s nodes) {node : β} {last : Option β}
    (hpc : s.submit = .writePrev node last) :
    Intact { s.setPrev (some node) last with submit := .readLast node } nodes := by
  have hplaced := hinv.submit
  rw [hpc] at hplaced
  obtain ⟨hfresh, hnext, hlast⟩ := hplaced
  have hprev : ∀ n ∈ nodes, Function.update s.prev (some node) last (some n) = s.prev (some n) :=
    fun n hn => Function.update_of_ne (by simpa using hfresh.ne hn) _ _
  have hprev' : Function.update s.prev (some node) last none = s.prev none :=
    Function.update_of_ne (by simp) _ _
  refine ⟨hinv.chain, hinv.live, hinv.mtx,
    ⟨⟨hfresh.1, hfresh.2, hfresh.3⟩, hnext, by simpa [State.setPrev] using hlast⟩, fun i => ?_,
    fun n hn => ?_, fun _ => ?_⟩
  · refine (hinv.worker i).keep rfl rfl
      (fun n _ _ hclear => ⟨⟨fun _ => hclear.hooks (by simp [hpc, Submit.hooks]),
        by simp [Submit.hooked]⟩, rfl⟩)
      fun _ _ _ hhooks _ => ?_
    simp [hpc, Submit.hooks] at hhooks
  · simpa [State.setPrev, hprev n (List.mem_of_mem_head? hn)] using hinv.first n hn
  · simpa [State.setPrev, hprev'] using hinv.last (by simp [hpc, Submit.hooked])

omit [DecidableEq β] in
theorem readLast (hinv : Intact s nodes) {node : β} (hpc : s.submit = .readLast node) :
    Intact { s with submit := .writeLast node (s.prev none) } nodes := by
  have hplaced := hinv.submit
  rw [hpc] at hplaced
  obtain ⟨hfresh, hnext, hprev⟩ := hplaced
  have hlast : s.prev none = nodes.getLast? :=
    hinv.prev_none (by simp [hpc, Submit.hooked]) fun _ _ _ hhooks => by
      simp [hpc, Submit.hooks] at hhooks
  refine ⟨hinv.chain, hinv.live, hinv.mtx,
    ⟨⟨hfresh.1, hfresh.2, hfresh.3⟩, hnext, hprev, hlast⟩, fun i => ?_, hinv.first,
    fun _ => .inl hlast⟩
  refine (hinv.worker i).keep rfl rfl
    (fun n _ _ hclear => ⟨⟨fun _ => hclear.hooks (by simp [hpc, Submit.hooks]),
      by simp [Submit.hooked]⟩, rfl⟩)
    fun _ _ _ hhooks _ => ?_
  simp [hpc, Submit.hooks] at hhooks

theorem writeLast (hinv : Intact s nodes) {node : β} {last : Option β}
    (hpc : s.submit = .writeLast node last) :
    Intact { s.setNext last (some node) with submit := .writeTail node } (nodes ++ [node]) := by
  have hplaced := hinv.submit
  rw [hpc] at hplaced
  obtain ⟨hfresh, hnext, hprev, rfl⟩ := hplaced
  refine ⟨hinv.chain.append hnext hfresh.notMem, ?_, hinv.mtx, by simp [Submit.Placed],
    fun i => ?_, fun n hn => ?_, by simp [Submit.hooked]⟩
  · intro n hn
    rcases List.mem_append.mp hn with hn | hn
    · exact hinv.live n hn
    · exact List.mem_singleton.mp hn ▸ hfresh.live
  · refine (hinv.worker i).congr (fun n hn => ?_) (fun _ _ => rfl) (fun n hn h => ⟨?_, h.2⟩)
      (fun n _ htaken hclear => ⟨⟨by simp [Submit.hooks], ?_⟩, ?_⟩) fun _ _ _ hhooks _ => ?_
    · simp [List.head?_append, hn]
    · have hne : n ≠ node := fun h => hfresh.worker i (h ▸ hn)
      simpa [hne] using h.notMem
    · simpa [Submit.hooked] using (hfresh.ne (List.mem_of_mem_head? htaken.first)).symm
    · exact Function.update_of_ne (hclear.hooks (by simp [hpc, Submit.hooks])).symm _ _
    · simp [hpc, Submit.hooks] at hhooks
  · cases nodes with
    | nil =>
      obtain rfl : node = n := by simpa using hn
      exact .inl hprev
    | cons a nodes => exact hinv.first n hn

theorem writeTail (hinv : Intact s nodes) {node : β} (hpc : s.submit = .writeTail node) :
    Intact { s.setPrev none (some node) with submit := .idle } nodes := by
  have hplaced := hinv.submit
  rw [hpc] at hplaced
  have hlast : nodes.getLast? = some node := hplaced
  refine ⟨hinv.chain, hinv.live, hinv.mtx, trivial, fun i => ?_, fun n hn => ?_, fun _ => .inl ?_⟩
  · refine (hinv.worker i).keep rfl rfl
      (fun _ _ _ _ => ⟨⟨by simp [Submit.hooks], by simp [Submit.hooked]⟩, rfl⟩)
      fun _ _ hnil _ _ => ?_
    simp [hnil] at hlast
  · simpa [State.setPrev] using hinv.first n hn
  · simpa [State.setPrev] using hlast.symm

end Submit

/-! #### The steps of the workers -/

section Worker

variable [DecidableEq ι] {i : ι} {l' : Worker β}

theorem inMtx_update (l' : Worker β) (hworker : s'.worker = Function.update s.worker i l') :
    (fun j => (s'.worker j).inMtx) = Function.update (fun j => (s.worker j).inMtx) i l'.inMtx := by
  funext j
  by_cases hji : j = i
  · subst hji
    simp [hworker]
  · simp [hworker, hji]

theorem mtx_keep (hinv : Intact s nodes) (hworker : s'.worker = Function.update s.worker i l')
    (hin : (s.worker i).inMtx = l'.inMtx) (hmtx : s'.mMtx = s.mMtx) :
    Mutex.Held s'.mMtx fun j => (s'.worker j).inMtx := by
  refine Mutex.Step.held (.keep hmtx ?_) hinv.mtx
  rw [inMtx_update l' hworker, ← hin]
  exact Function.update_eq_self i _

theorem worker_of_inMtx (hinv : Intact s nodes)
    (hworker : s'.worker = Function.update s.worker i l') (hi : (s.worker i).inMtx = true)
    (hplaced : l'.Placed s' nodes') (j : ι) :
    (s'.worker j).Placed s' nodes' := by
  rw [hworker]
  by_cases hji : j = i
  · subst hji
    simpa using hplaced
  · rw [Function.update_of_ne hji]
    exact Worker.placed_of_inMtx (hinv.inMtx_eq_false hi hji) _ _

theorem fresh_of_worker (l' : Worker β)
    (hworker : s'.worker = Function.update s.worker i l')
    (hnode : ∀ n, l'.node = some n → (s.worker i).node = some n ∨ n ∈ nodes) {new : β}
    (hlive : s'.live new = s.live new) (hfresh : Fresh s nodes new) : Fresh s' nodes new := by
  refine ⟨hlive.trans hfresh.live, hfresh.notMem, fun j hj => ?_⟩
  rw [hworker] at hj
  by_cases hji : j = i
  · subst hji
    rcases hnode new (by simpa using hj) with h | h
    · exact hfresh.worker j h
    · exact hfresh.notMem h
  · exact hfresh.worker j (by rwa [Function.update_of_ne hji] at hj)

theorem of_pc (hinv : Intact s nodes) (hi : (s.worker i).inMtx = true)
    (hnot : ∀ p, ¬ (s.worker i).Restores p) (hworker : s'.worker = Function.update s.worker i l')
    (hmtx : Mutex.Held s'.mMtx fun j => (s'.worker j).inMtx) (hplaced : l'.Placed s' nodes)
    (hnode : ∀ n, l'.node = some n → (s.worker i).node = some n ∨ n ∈ nodes)
    (hlive : ∀ n, (s.worker i).node ≠ some n ∨ n ∈ nodes → s'.live n = s.live n)
    (hnext : s'.next = s.next) (hprev : s'.prev = s.prev) (hsubmit : s'.submit = s.submit) :
    Intact s' nodes where
  chain := hnext ▸ hinv.chain
  live n hn := (hlive n (.inr hn)).trans (hinv.live n hn)
  mtx := hmtx
  submit := by
    rw [hsubmit]
    exact hinv.submit.congr
      (fun n hfresh => fresh_of_worker _ hworker hnode (hlive n (.inl (hfresh.worker i))) hfresh)
      (fun _ _ => by rw [hnext]) (fun _ _ => by rw [hprev]) (fun _ => rfl) fun _ _ h => h
  worker := hinv.worker_of_inMtx hworker hi hplaced
  first n hn := by
    rw [hprev]
    exact .inl ((hinv.first n hn).resolve_right (hinv.not_restores hi hnot _))
  last hhooked := by
    rw [hprev]
    exact .inl ((hinv.last (hsubmit ▸ hhooked)).resolve_right (hinv.not_restores hi hnot _))

theorem of_outside (hinv : Intact s nodes) (hi : (s.worker i).inMtx = false)
    (hworker : s'.worker = Function.update s.worker i l')
    (hmtx : Mutex.Held s'.mMtx fun j => (s'.worker j).inMtx) (hplaced : l'.Placed s' nodes)
    (hnode : l'.node = none) (htask : s'.task = s.task) (hlive : s'.live = s.live)
    (hnext : s'.next = s.next) (hprev : s'.prev = s.prev) (hsubmit : s'.submit = s.submit) :
    Intact s' nodes := by
  have hrestores : ∀ p, (∃ j, (s.worker j).Restores p) → ∃ j, (s'.worker j).Restores p := by
    rintro p ⟨j, hj⟩
    have hji : j ≠ i := fun h => by simpa [h ▸ hi] using hj.inMtx
    exact ⟨j, by rwa [hworker, Function.update_of_ne hji]⟩
  refine ⟨hnext ▸ hinv.chain, fun n hn => hlive ▸ hinv.live n hn, hmtx, ?_, fun j => ?_,
    fun n hn => ?_, fun hhooked => ?_⟩
  · rw [hsubmit]
    exact hinv.submit.congr
      (fun n hfresh => fresh_of_worker _ hworker (by simp [hnode]) (by rw [hlive]) hfresh)
      (fun _ _ => by rw [hnext]) (fun _ _ => by rw [hprev]) (fun _ => rfl) fun _ _ h => h
  · rw [hworker]
    by_cases hji : j = i
    · subst hji
      simpa using hplaced
    · rw [Function.update_of_ne hji]
      exact (hinv.worker j).keep htask hlive
        (fun _ _ _ h => ⟨⟨hsubmit ▸ h.1, hsubmit ▸ h.2⟩, by rw [hnext]⟩)
        fun _ _ _ hhooks h => ⟨hsubmit ▸ hhooks, hprev ▸ h⟩
  · rw [hprev]
    exact (hinv.first n hn).imp_right (hrestores _)
  · rw [hprev]
    exact (hinv.last (hsubmit ▸ hhooked)).imp_right (hrestores _)

theorem setWorker (hinv : Intact s nodes) (hi : (s.worker i).inMtx = true)
    (hnot : ∀ p, ¬ (s.worker i).Restores p) (hl' : l'.inMtx = true)
    (hplaced : l'.Placed s nodes)
    (hnode : ∀ n, l'.node = some n → (s.worker i).node = some n ∨ n ∈ nodes) :
    Intact (s.setWorker i l') nodes := by
  refine hinv.of_pc (i := i) hi hnot rfl ?_ ?_ hnode (fun _ _ => rfl) rfl rfl rfl
  · exact hinv.mtx_keep (i := i) rfl (hi.trans hl'.symm) rfl
  · exact hplaced.keep rfl rfl
      (fun _ _ _ h => ⟨⟨h.1, h.2⟩, rfl⟩) fun _ _ _ hhooks hprev => ⟨hhooks, hprev⟩

theorem setWorker_of_outside (hinv : Intact s nodes) (hi : (s.worker i).inMtx = false)
    (hl' : l'.inMtx = false) (hnode : l'.node = none) : Intact (s.setWorker i l') nodes := by
  refine hinv.of_outside (i := i) hi rfl ?_ (Worker.placed_of_inMtx hl' _ _) hnode
    rfl rfl rfl rfl rfl
  exact hinv.mtx_keep (i := i) rfl (hi.trans hl'.symm) rfl

theorem lock (hinv : Intact s nodes) (hpc : s.worker i = .lock) (hfree : s.mMtx = none) :
    Intact { s.setWorker i .testEmpty with mMtx := some i } nodes := by
  have hi : (s.worker i).inMtx = false := by rw [hpc]; rfl
  refine hinv.of_outside (i := i) hi rfl ?_ trivial rfl rfl rfl rfl rfl rfl
  refine Mutex.Step.held (.acquire i hfree rfl ?_) hinv.mtx
  exact inMtx_update (s := s) (i := i) .testEmpty rfl

theorem testFull (hinv : Intact s nodes) (hpc : s.worker i = .testEmpty)
    (hempty : s.next none ≠ none) : Intact (s.setWorker i .front) nodes := by
  refine hinv.setWorker (by simp [hpc, Worker.inMtx]) (by simp [hpc, Worker.Restores]) rfl ?_
    (by simp [Worker.node])
  rintro rfl
  exact hempty hinv.chain

theorem readFirst (hinv : Intact s nodes) {node : β} {task : Option ℕ}
    (hpc : s.worker i = .readFirst task) (hfirst : s.next none = some node) :
    Intact (s.setWorker i (.readNext node task)) nodes := by
  have hplaced := hinv.worker i
  rw [hpc] at hplaced
  obtain ⟨first, htaken⟩ := hplaced
  have hhead : nodes.head? = some node := hinv.chain.next_none.symm.trans hfirst
  obtain rfl : first = node := Option.some.inj (htaken.first.symm.trans hhead)
  refine hinv.setWorker (by simp [hpc, Worker.inMtx]) (by simp [hpc, Worker.Restores]) rfl htaken ?_
  rintro n ⟨⟩
  exact .inr (List.mem_of_mem_head? hhead)

omit [DecidableEq ι] in
/-- When the guard lets `pop_front` begin with a node, `Submit` does not work on this node. -/
theorem clear_of_apart (hinv : Intact s nodes) {node : β} {task : Option ℕ}
    (hpc : s.worker i = .readNext node task) (hapart : Apart s (.worker i)) :
    Clear s nodes node := by
  have hne : s.hookedBehind ≠ some node := by
    have hstart : (s.worker i).startsUnhook = some node := by rw [hpc]; rfl
    rcases hapart with h | h
    · simp [hstart] at h
    · rw [hstart] at h
      exact h.symm
  have hsubmit := hinv.submit
  constructor
  · intro hhooks hlast
    refine hne ?_
    cases hl : s.submit <;> simp only [hl, Submit.hooks, reduceCtorEq] at hhooks
    all_goals
      rw [hl] at hsubmit
      simp only [State.hookedBehind, hl]
    · exact hsubmit.2.2.trans hlast
    · exact hsubmit.2.2.trans hlast
    · exact hsubmit.2.2.2.trans hlast
  · intro hhooked
    refine hne ?_
    cases hl : s.submit <;> simp only [hl, Submit.hooked, reduceCtorEq] at hhooked
    simpa only [State.hookedBehind, hl] using hhooked

theorem popReadNext (hinv : Intact s nodes) {node : β} {task : Option ℕ}
    (hpc : s.worker i = .readNext node task) (hapart : Apart s (.worker i)) :
    Intact (s.setWorker i (.readPrev node (s.next (some node)) task)) nodes := by
  have hplaced := hinv.worker i
  rw [hpc] at hplaced
  exact hinv.setWorker (by simp [hpc, Worker.inMtx]) (by simp [hpc, Worker.Restores]) rfl
    ⟨hplaced, hinv.clear_of_apart hpc hapart, rfl⟩ fun n hn => .inl (by rw [hpc]; exact hn)

theorem popReadPrev (hinv : Intact s nodes) {node : β} {next : Option β} {task : Option ℕ}
    (hpc : s.worker i = .readPrev node next task) :
    Intact (s.setWorker i (.writeNext node next (s.prev (some node)) task)) nodes := by
  have hplaced := hinv.worker i
  rw [hpc] at hplaced
  obtain ⟨htaken, hclear, hnext⟩ := hplaced
  have hi : (s.worker i).inMtx = true := by rw [hpc]; rfl
  have hnot : ∀ p, ¬ (s.worker i).Restores p := by simp [hpc, Worker.Restores]
  have hprev : s.prev (some node) = none :=
    (hinv.first node htaken.first).resolve_right (hinv.not_restores hi hnot _)
  exact hinv.setWorker hi hnot rfl ⟨htaken, hclear, hnext, hprev⟩
    fun n hn => .inl (by rw [hpc]; exact hn)

theorem unlock (hinv : Intact s nodes) {result : Option (Option ℕ)}
    (hpc : s.worker i = .unlock result) :
    Intact { s.setWorker i (result.elim .idle .execute) with mMtx := none } nodes := by
  have hi : (s.worker i).inMtx = true := by rw [hpc]; rfl
  have hout : (result.elim (.idle : Worker β) .execute).inMtx = false := by cases result <;> rfl
  refine hinv.of_pc (i := i) hi (by simp [hpc, Worker.Restores]) rfl ?_
    (Worker.placed_of_inMtx hout _ _) ?_ (fun _ _ => rfl) rfl rfl rfl
  · refine Mutex.Step.held (.release i hi rfl ?_) hinv.mtx
    rw [← hout]
    exact inMtx_update (s := s) (i := i) _ rfl
  · cases result <;> simp [Worker.node]

variable [DecidableEq β]

theorem front (hinv : Intact s nodes) {node : β} (hpc : s.worker i = .front)
    (hfirst : s.next none = some node) :
    Intact { s.setWorker i (.readFirst (s.task node)) with
      task := Function.update s.task node none } nodes := by
  have hhead : nodes.head? = some node := hinv.chain.next_none.symm.trans hfirst
  refine hinv.of_pc (i := i) (by simp [hpc, Worker.inMtx]) (by simp [hpc, Worker.Restores]) rfl
    (hinv.mtx_keep (i := i) rfl (by rw [hpc]; rfl) rfl) ⟨node, hhead, ?_⟩ (by simp [Worker.node])
    (fun _ _ => rfl) rfl rfl rfl
  exact Function.update_self _ _ _

/-- Linking the sentinel to the second node takes the first one out, which is not the last one while
`Submit` works on the last one. -/
theorem popWriteNext (hinv : Intact s nodes) {node : β} {next prev : Option β} {task : Option ℕ}
    (hpc : s.worker i = .writeNext node next prev task) :
    ∃ rest, nodes = node :: rest ∧
      Intact ((s.setNext prev next).setWorker i (.writePrev node next prev task)) rest := by
  have hplaced := hinv.worker i
  rw [hpc] at hplaced
  obtain ⟨htaken, hclear, rfl, rfl⟩ := hplaced
  obtain ⟨rest, rfl⟩ : ∃ rest, nodes = node :: rest := by
    cases nodes with
    | nil => simpa using htaken.first
    | cons a rest => exact ⟨rest, by rw [Option.some.inj htaken.first]⟩
  have hi : (s.worker i).inMtx = true := by rw [hpc]; rfl
  have hnot : ∀ p, ¬ (s.worker i).Restores p := by simp [hpc, Worker.Restores]
  have hnext : s.next (some node) = rest.head? := hinv.chain.next_head
  have hgetLast : rest ≠ [] → rest.getLast? = (node :: rest).getLast? := fun h => by
    obtain ⟨b, bs, rfl⟩ := List.exists_cons_of_ne_nil h
    rfl
  have hlast : s.submit.hooked = none → s.prev none = (node :: rest).getLast? := fun h =>
    (hinv.last h).resolve_right (hinv.not_restores hi hnot _)
  have hsingle : rest = [] → s.submit.hooks = false ∧ s.submit.hooked = none := by
    rintro rfl
    refine ⟨by simpa using fun h => hclear.hooks h rfl, ?_⟩
    cases hs : s.submit <;> simp only [Submit.hooked]
    have hsubmit := hinv.submit
    rw [hs] at hsubmit
    exact absurd (by rw [hs]; exact hsubmit.symm) hclear.hooked
  refine ⟨rest, rfl, hinv.chain.tail, fun n hn => hinv.live n (List.mem_cons_of_mem _ hn),
    hinv.mtx_keep (i := i) rfl (by rw [hpc]; rfl) rfl, ?_, hinv.worker_of_inMtx rfl hi ?_,
    fun n hn => .inr ⟨i, ?_⟩, fun hhooked => ?_⟩
  · refine hinv.submit.congr (fun new hfresh => ?_)
      (fun _ _ => by simp [State.setNext, State.setWorker]) (fun _ _ => rfl)
      (fun h => hgetLast ?_) fun new hnew h => (hgetLast ?_).trans h
    · have hfresh' : Fresh ((s.setNext none (s.next (some node))).setWorker i
          (.writePrev node (s.next (some node)) none task)) (node :: rest) new :=
        fresh_of_worker (s := s) (i := i) (.writePrev node (s.next (some node)) none task) rfl
          (fun n hn => .inl (by rw [hpc]; exact hn)) rfl hfresh
      exact ⟨hfresh'.1, fun h => hfresh'.2 (List.mem_cons_of_mem _ h), hfresh'.3⟩
    · exact fun hnil => by simp [(hsingle hnil).1] at h
    · exact fun hnil => by simp [(hsingle hnil).2] at hnew
  · refine ⟨⟨?_, hinv.live node List.mem_cons_self⟩, hnext, rfl, fun hnone => ?_⟩
    · exact (List.nodup_cons.mp (Linked.nodup hinv.chain)).1
    · have hnil : rest = [] := List.head?_eq_none_iff.mp (hnext.symm.trans hnone)
      refine ⟨(hsingle hnil).1, ?_⟩
      show s.prev none = some node
      rw [hlast (hsingle hnil).2, hnil]
      rfl
  · simpa [State.setWorker, Worker.Restores, hnext] using hn
  · by_cases hnil : rest = []
    · exact .inr ⟨i, by simpa [State.setWorker, Worker.Restores, hnext] using hnil⟩
    · exact .inl ((hlast hhooked).trans (hgetLast hnil).symm)

/-- Writing the previous link of the new first node makes the links backwards right again. -/
theorem popWritePrev (hinv : Intact s nodes) {node : β} {next prev : Option β} {task : Option ℕ}
    (hpc : s.worker i = .writePrev node next prev task) :
    Intact ((s.setPrev next prev).setWorker i (.free node task)) nodes := by
  have hplaced := hinv.worker i
  rw [hpc] at hplaced
  obtain ⟨hremoved, rfl, rfl, -⟩ := hplaced
  have hi : (s.worker i).inMtx = true := by rw [hpc]; rfl
  refine ⟨hinv.chain, hinv.live, hinv.mtx_keep (i := i) rfl (by rw [hpc]; rfl) rfl, ?_,
    hinv.worker_of_inMtx rfl hi ⟨hremoved.1, hremoved.2⟩, fun n hn => .inl ?_, fun hhooked => ?_⟩
  · refine hinv.submit.congr (fun new hfresh => ?_) (fun _ _ => rfl) (fun new hfresh => ?_)
      (fun _ => rfl) fun _ _ h => h
    · exact fresh_of_worker (s := s) (i := i) (.free node task) rfl
        (fun n hn => .inl (by rw [hpc]; exact hn)) rfl hfresh
    · refine Function.update_of_ne ?_ _ _
      intro h
      exact hfresh.notMem (List.mem_of_mem_head? h.symm)
  · simp [State.setPrev, State.setWorker, hn]
  · cases nodes with
    | nil => exact .inl (by simp [State.setPrev, State.setWorker])
    | cons a nodes =>
      refine .inl ?_
      have hprev : s.prev none = (a :: nodes).getLast? := by
        refine (hinv.last hhooked).resolve_right ?_
        rintro ⟨j, hj⟩
        obtain rfl : j = i := hinv.mtx.unique hj.inMtx hi
        simp [hpc, Worker.Restores] at hj
      simpa [State.setPrev, State.setWorker] using hprev

theorem free (hinv : Intact s nodes) {node : β} {task : Option ℕ}
    (hpc : s.worker i = .free node task) :
    Intact { s.setWorker i (.unlock (some task)) with
      live := Function.update s.live node false } nodes := by
  have hplaced := hinv.worker i
  rw [hpc] at hplaced
  have hremoved : Removed s nodes node := hplaced
  refine hinv.of_pc (i := i) (by simp [hpc, Worker.inMtx]) (by simp [hpc, Worker.Restores]) rfl
    (hinv.mtx_keep (i := i) rfl (by rw [hpc]; rfl) rfl) trivial (by simp [Worker.node])
    (fun n hn => ?_) rfl rfl rfl
  refine Function.update_of_ne ?_ _ _
  rintro rfl
  rcases hn with hn | hn
  · exact hn (by rw [hpc]; rfl)
  · exact hremoved.notMem hn

end Worker

end Intact

/-! ### The steps of the list -/

/-- The nodes of the list after a step. -/
def nodesAfter (s : State ι β) (nodes : List β) : Label ι β → List β
  | .submit =>
    match s.submit with
    | .writeLast node _ => nodes ++ [node]
    | _ => nodes
  | .allocate _ => nodes
  | .worker i =>
    match s.worker i with
    | .writeNext _ _ _ _ => nodes.tail
    | _ => nodes

variable [DecidableEq ι] [DecidableEq β]

/-- A step under the guard keeps the list intact. -/
theorem Intact.move {x : Label ι β} {es : List (Event ι)} (hinv : Intact s nodes)
    (hmove : Move s x s' es) (hapart : Apart s x) : Intact s' (nodesAfter s nodes x) := by
  cases hmove with
  | call hpc => simpa [nodesAfter, hpc] using hinv.call hpc _ _
  | allocate node task hpc hlive => exact hinv.allocate hpc hlive
  | writeNext node hpc => simpa [nodesAfter, hpc] using hinv.writeNext hpc
  | readPrev node hpc =>
    simpa [nodesAfter, hpc] using hinv.readPrev hpc (hapart (by simp [hpc, Submit.readsPrev]))
  | writePrev node last hpc => simpa [nodesAfter, hpc] using hinv.writePrev hpc
  | readLast node hpc => simpa [nodesAfter, hpc] using hinv.readLast hpc
  | writeLast node last hpc => simpa [nodesAfter, hpc] using hinv.writeLast hpc
  | writeTail node hpc => simpa [nodesAfter, hpc] using hinv.writeTail hpc
  | getTask i hpc =>
    simpa [nodesAfter, hpc] using
      hinv.setWorker_of_outside (i := i) (by rw [hpc]; rfl) rfl rfl
  | lock i hpc hfree => simpa [nodesAfter, hpc] using hinv.lock hpc hfree
  | testEmpty i hpc hempty =>
    have hunlock : Intact (s.setWorker i (.unlock none)) nodes :=
      hinv.setWorker (by simp [hpc, Worker.inMtx]) (by simp [hpc, Worker.Restores]) rfl trivial
        (by simp [Worker.node])
    simpa [nodesAfter, hpc] using hunlock
  | testFull i hpc hempty => simpa [nodesAfter, hpc] using hinv.testFull hpc hempty
  | front i node hpc hfirst => simpa [nodesAfter, hpc] using hinv.front hpc hfirst
  | readFirst i node task hpc hfirst => simpa [nodesAfter, hpc] using hinv.readFirst hpc hfirst
  | popReadNext i node task hpc => simpa [nodesAfter, hpc] using hinv.popReadNext hpc hapart
  | popReadPrev i node next task hpc => simpa [nodesAfter, hpc] using hinv.popReadPrev hpc
  | popWriteNext i node next prev task hpc =>
    obtain ⟨rest, rfl, hrest⟩ := hinv.popWriteNext hpc
    simpa [nodesAfter, hpc] using hrest
  | popWritePrev i node next prev task hpc => simpa [nodesAfter, hpc] using hinv.popWritePrev hpc
  | free i node task hpc => simpa [nodesAfter, hpc] using hinv.free hpc
  | unlock i result hpc => simpa [nodesAfter, hpc] using hinv.unlock hpc
  | execute i task hpc =>
    simpa [nodesAfter, hpc] using
      hinv.setWorker_of_outside (i := i) (by rw [hpc]; rfl) rfl rfl

end ThreadPool

end Multithreading.Pool
