import Multithreading.Ipc.Process
import Multithreading.Kernel.Files

/-!
# Writing through a descriptor that is shared by `fork`

The program `fork_fd` opens a file, forks, and both processes write a message through the
descriptor and close it. They share the open file description, so each of them writes where the
other one has stopped: no byte is overwritten, and the file has the two messages in the order of the
writes.

Every call may fail, which ends the process, and a write may store only a part of its bytes, which
the program does not notice. The labels of the steps choose. The standard streams are not the file,
and what `CHECK_ERROR` reports on `std::cerr` is left out.

## Main definitions

* `ForkFd.step`, `forkFd` — the machine of the two processes.
* `ForkFd.bytes`, `ForkFd.chunks` — what the writes have stored.

## Main results

* `ForkFd.forkFd_content` — the bytes of the file in every reachable state.
-/

open Transition Kernel Multithreading.Ipc

namespace Multithreading.Process

namespace ForkFd

/-- The name of the file. -/
def path : String := "example.txt"

/-- `messageToFile`. -/
def message : Proc → List UInt8
  | .parent => "Hello from parent\n".toUTF8.toList
  | .child => "Hello from child\n".toUTF8.toList

/-- The program counter of a process. -/
inductive Pc
  /-- About to open the file. -/
  | openFile
  /-- About to fork. -/
  | fork (fd : ℕ)
  /-- About to write the message. -/
  | write (fd : ℕ)
  /-- About to close the descriptor. -/
  | close (fd : ℕ)
  | exited (status : ℕ)
  deriving DecidableEq

/-- A process: its descriptors, and where it is. -/
structure Task where
  table : Table
  pc : Pc
  deriving DecidableEq

/-- The files, and the processes that there are. -/
structure State where
  files : Files String
  task : Proc → Option Task

/-- A write has stored some bytes. -/
structure Event where
  who : Proc
  chunk : List UInt8
  deriving DecidableEq

namespace State

/-- The state in which a process has come to a task. -/
def set (s : State) (p : Proc) (t : Task) : State :=
  { s with task := Function.update s.task p (some t) }

/-- `CHECK_ERROR` of a call that has returned `-1`. -/
def fail (s : State) (p : Proc) (t : Task) : State := s.set p { t with pc := .exited exitFailure }

/-- `write` of some bytes, of which a number is stored. -/
def write (s : State) (p : Proc) (t : Task) (fd : ℕ) (chunk : List UInt8) : State × List Event :=
  match t.table.get fd with
  | none => (s.fail p t, [])
  | some d =>
    ({ s with files := s.files.write d.file chunk }.set p { t with pc := .close fd }, [⟨p, chunk⟩])

end State

/-- A step of a process. -/
def step (s : State) (p : Proc) (t : Task) : Pc → Outcome → Option (State × List Event)
  | .openFile, .ok =>
    some ({ s with files := s.files.openPath path ⟨true, false, false⟩ }.set p
      ⟨t.table.alloc ⟨s.files.opened.length, false⟩, .fork t.table.free⟩, [])
  | .fork fd, .ok =>
    some ((s.set .child { t with pc := .write fd }).set p { t with pc := .write fd }, [])
  | .write fd, .ok => some (s.write p t fd (message p))
  | .write fd, .short n =>
    if n < (message p).length then some (s.write p t fd ((message p).take n)) else none
  | .close fd, .ok =>
    match t.table.get fd with
    | none => some (s.fail p t, [])
    | some _ => some (s.set p ⟨t.table.close fd, .exited exitSuccess⟩, [])
  | .exited _, _ => none
  | _, .fail => some (s.fail p t, [])
  | _, .short _ => none

/-- What a step can do. -/
inductive Move (s : State) (p : Proc) (t : Task) : State → List Event → Prop
  | openFile (hpc : t.pc = .openFile) :
      Move s p t ({ s with files := s.files.openPath path ⟨true, false, false⟩ }.set p
        ⟨t.table.alloc ⟨s.files.opened.length, false⟩, .fork t.table.free⟩) []
  | fork (fd : ℕ) (hpc : t.pc = .fork fd) :
      Move s p t ((s.set .child { t with pc := .write fd }).set p { t with pc := .write fd }) []
  | write (fd n : ℕ) (d : Descriptor) (hpc : t.pc = .write fd) (hget : t.table.get fd = some d) :
      Move s p t ({ s with files := s.files.write d.file ((message p).take n) }.set p
        { t with pc := .close fd }) [⟨p, (message p).take n⟩]
  | close (fd : ℕ) (d : Descriptor) (hpc : t.pc = .close fd) (hget : t.table.get fd = some d) :
      Move s p t (s.set p ⟨t.table.close fd, .exited exitSuccess⟩) []
  | fail (hpc : ∀ status, t.pc ≠ .exited status) : Move s p t (s.fail p t) []

theorem move_of_write {s s' : State} {p : Proc} {t : Task} {fd n : ℕ} {es : List Event}
    (hpc : t.pc = .write fd) (h : s.write p t fd ((message p).take n) = (s', es)) :
    Move s p t s' es := by
  rw [State.write] at h
  split at h
  · obtain ⟨rfl, rfl⟩ := Prod.mk.inj h
    exact .fail (by simp [hpc])
  · rename_i d hget
    obtain ⟨rfl, rfl⟩ := Prod.mk.inj h
    exact .write fd n d hpc hget

theorem move_of_step {s s' : State} {p : Proc} {t : Task} {o : Outcome} {es : List Event}
    (h : step s p t t.pc o = some (s', es)) : Move s p t s' es := by
  generalize hpc : t.pc = pc at h
  unfold step at h
  split at h
  case h_3 fd =>
    refine move_of_write hpc (n := (message p).length) ?_
    rw [List.take_length]
    exact Option.some.inj h
  case h_4 fd n =>
    split at h
    · exact move_of_write hpc (Option.some.inj h)
    · contradiction
  case h_5 fd =>
    split at h <;> obtain ⟨rfl, rfl⟩ := Prod.mk.inj (Option.some.inj h)
    · exact .fail (by simp [hpc])
    · rename_i d hget
      exact .close fd d hpc hget
  all_goals try contradiction
  all_goals obtain ⟨rfl, rfl⟩ := Prod.mk.inj (Option.some.inj h)
  · exact .openFile hpc
  · exact .fork _ hpc
  · rename_i hne
    exact .fail fun status hstatus => hne status (hpc.symm.trans hstatus)

end ForkFd

/-- `fork_fd`, started with the files `fs₀` and the descriptors `t₀`. -/
def forkFd (fs₀ : Files String) (t₀ : Start fs₀ ForkFd.path) :
    Machine ForkFd.State (Proc × Outcome) ForkFd.Event where
  init := ⟨fs₀, fun | .parent => some ⟨t₀.table, .openFile⟩ | .child => none⟩
  next s x := (s.task x.1).bind fun t => ForkFd.step s x.1 t t.pc x.2

namespace ForkFd

/-- The bytes that the writes have stored, in the order of the writes. -/
def bytes (h : List Event) : List UInt8 := h.flatMap Event.chunk

/-- What the writes of a process have stored. -/
def chunks (p : Proc) (h : List Event) : List (List UInt8) :=
  (h.filter (·.who = p)).map Event.chunk

theorem bytes_append (h h' : List Event) : bytes (h ++ h') = bytes h ++ bytes h' :=
  List.flatMap_append

theorem chunks_append (p : Proc) (h h' : List Event) :
    chunks p (h ++ h') = chunks p h ++ chunks p h' := by
  simp [chunks]

@[simp] theorem bytes_singleton (e : Event) : bytes [e] = e.chunk := by simp [bytes]

@[simp] theorem chunks_nil (p : Proc) : chunks p [] = [] := rfl

@[simp] theorem chunks_singleton (p : Proc) (e : Event) :
    chunks p [e] = if e.who = p then [e.chunk] else [] := by
  by_cases he : e.who = p <;> simp [chunks, he]

/-- The process has stored one part of its message. -/
def Wrote (p : Proc) (h : List Event) : Prop := ∃ n, chunks p h = [(message p).take n]

/-- The number of the descriptor that a process has in its variable. -/
def Pc.fd : Pc → Option ℕ
  | .fork fd | .write fd | .close fd => some fd
  | .openFile | .exited _ => none

/-- The number refers to the file, and to none of the standard streams. -/
def Task.Holds (file : ℕ) (t : Task) (fd : ℕ) : Prop :=
  t.table.get fd = some ⟨file, false⟩ ∧ 2 < fd

/-- Where a process can be, given what has been stored. -/
def Placed (file : ℕ) (p : Proc) (h : List Event) (t : Task) : Prop :=
  match t.pc with
  | .openFile => False
  | .fork fd => p = .parent ∧ chunks p h = [] ∧ t.Holds file fd
  | .write fd => chunks p h = [] ∧ t.Holds file fd
  | .close fd => Wrote p h ∧ t.Holds file fd
  | .exited status => status = exitSuccess ∧ Wrote p h ∨
      status = exitFailure ∧ (chunks p h = [] ∨ Wrote p h)

/-- The file has what the writes have stored, and the offset is behind it. -/
structure Opened (fs₀ : Files String) (s : State) (h : List Event) : Prop where
  files : s.files = ⟨Function.update fs₀.content path (some (bytes h)),
    fs₀.opened ++ [⟨path, (bytes h).length, false⟩]⟩
  placed : ∀ p t, s.task p = some t → Placed fs₀.opened.length p h t
  parent : (s.task .parent).isSome
  forked : ∀ t fd, s.task .parent = some t → t.pc = .fork fd → s.task .child = none
  absent : s.task .child = none → chunks .child h = []

/-- Before the file is open nothing has happened. -/
structure Unopened (fs₀ : Files String) (s : State) (h : List Event) : Prop where
  files : s.files = fs₀
  history : h = []
  child : s.task .child = none
  parent : ∃ t, s.task .parent = some t ∧
    (t.pc = .openFile ∧ 2 < t.table.free ∨ t.pc = .exited exitFailure)

variable {fs₀ : Files String} {t₀ : Start fs₀ path} {s s' : State} {p q : Proc} {t : Task}
  {h es : List Event} {file : ℕ}

@[simp] theorem set_files (s : State) (p : Proc) (t : Task) : (s.set p t).files = s.files := rfl

@[simp] theorem set_task_self (s : State) (p : Proc) (t : Task) : (s.set p t).task p = some t := by
  simp [State.set]

theorem set_task_of_ne (s : State) (t : Task) (hqp : q ≠ p) : (s.set p t).task q = s.task q := by
  simp [State.set, hqp]

theorem Placed.of_ne (ht : Placed file q h t) (hes : ∀ e ∈ es, e.who = p) (hqp : q ≠ p) :
    Placed file q (h ++ es) t := by
  have hnone : chunks q es = [] := by
    rw [chunks, List.filter_eq_nil_iff.mpr fun e he => by simp [hes e he, Ne.symm hqp]]
    rfl
  rw [Placed, Wrote, chunks_append, hnone, List.append_nil]
  exact ht

theorem Move.who_eq (hmove : Move s p t s' es) : ∀ e ∈ es, e.who = p := by
  cases hmove <;> simp

/-- A step before the file is open opens it, or ends the process. -/
theorem Unopened.move (hinv : Unopened fs₀ s h) (ht : s.task p = some t)
    (hmove : Move s p t s' es) :
    Unopened fs₀ s' (h ++ es) ∨ Opened fs₀ s' (h ++ es) := by
  obtain ⟨hfiles, rfl, hchild, t', ht', hpc⟩ := hinv
  cases p with
  | child => simp [hchild] at ht
  | parent =>
    obtain rfl : t' = t := Option.some.inj (ht'.symm.trans ht)
    cases hmove with
    | openFile hopen =>
      have hfree : 2 < t'.table.free := by simpa [hopen] using hpc
      refine .inr ⟨?_, ?_, by simp, ?_, fun _ => rfl⟩
      · simp [hfiles, Files.openPath, bytes]
      · rintro (_ | _) u hu
        · obtain rfl := Option.some.inj ((set_task_self ..).symm.trans hu)
          simp [Placed, Task.Holds, hfiles, hfree]
        · rw [set_task_of_ne _ _ (by simp)] at hu
          simp [hchild] at hu
      · exact fun _ _ _ _ => (set_task_of_ne _ _ (by simp)).trans hchild
    | fail hrunning =>
      refine .inl ⟨hfiles, rfl, (set_task_of_ne _ _ (by simp)).trans hchild, _,
        set_task_self .., .inr rfl⟩
    | fork fd hfork => simp [hfork] at hpc
    | write fd n d hwrite hget => simp [hwrite] at hpc
    | close fd d hclose hget => simp [hclose] at hpc

theorem Opened.set (hinv : Opened fs₀ s h) {t' : Task} (files : Files String)
    (ht : s.task p = some t) (hwho : ∀ e ∈ es, e.who = p)
    (hfiles : files = ⟨Function.update fs₀.content path (some (bytes (h ++ es))),
      fs₀.opened ++ [⟨path, (bytes (h ++ es)).length, false⟩]⟩)
    (hplaced : Placed fs₀.opened.length p (h ++ es) t') (hpc : ∀ fd, t'.pc ≠ .fork fd) :
    Opened fs₀ ({ s with files := files }.set p t') (h ++ es) := by
  refine ⟨hfiles, fun q u hu => ?_, ?_, fun u fd hu hfork => ?_, fun hchild => ?_⟩
  · by_cases hqp : q = p
    · subst hqp
      obtain rfl := Option.some.inj ((set_task_self ..).symm.trans hu)
      exact hplaced
    · rw [set_task_of_ne _ _ hqp] at hu
      exact (hinv.placed q u hu).of_ne hwho hqp
  · cases p with
    | parent => simp
    | child =>
      rw [set_task_of_ne _ _ (by simp)]
      exact hinv.parent
  · cases p with
    | parent =>
      obtain rfl := Option.some.inj ((set_task_self ..).symm.trans hu)
      exact absurd hfork (hpc fd)
    | child =>
      rw [set_task_of_ne _ _ (by simp)] at hu
      simp [hinv.forked u fd hu hfork] at ht
  · cases p with
    | child => simp at hchild
    | parent =>
      rw [set_task_of_ne _ _ (by simp)] at hchild
      have hnone : chunks .child es = [] := by
        rw [chunks, List.filter_eq_nil_iff.mpr fun e he => by simp [hwho e he]]
        rfl
      rw [chunks_append, hinv.absent hchild, hnone, List.append_nil]

/-- A write through the shared description appends. -/
theorem Opened.files_write (hinv : Opened fs₀ s h) (chunk : List UInt8) :
    s.files.write fs₀.opened.length chunk =
      ⟨Function.update fs₀.content path (some (bytes (h ++ [⟨p, chunk⟩]))),
        fs₀.opened ++ [⟨path, (bytes (h ++ [⟨p, chunk⟩])).length, false⟩]⟩ := by
  have hopened : s.files.opened[fs₀.opened.length]? = some ⟨path, (bytes h).length, false⟩ := by
    simp [hinv.files]
  have hcontent : s.files.content path = some (bytes h) := by simp [hinv.files]
  rw [Files.write_of_end hopened hcontent (.inr rfl)]
  simp [hinv.files, bytes_append]

/-- A step after the file has been opened appends what it stores. -/
theorem Opened.move (hinv : Opened fs₀ s h) (ht : s.task p = some t)
    (hmove : Move s p t s' es) : Opened fs₀ s' (h ++ es) := by
  have hplaced := hinv.placed p t ht
  have hwho := hmove.who_eq
  have hfiles : s.files = _ := hinv.files
  rw [Placed] at hplaced
  cases hmove with
  | openFile hpc => simp [hpc] at hplaced
  | fork fd hpc =>
    simp only [hpc] at hplaced
    obtain ⟨rfl, hnone, hget⟩ := hplaced
    have hchild := hinv.forked t fd ht hpc
    rw [List.append_nil]
    refine ⟨hfiles, ?_, by simp, fun u fd' hu hfork => ?_, fun hnone => ?_⟩
    · rintro (_ | _) u hu
      · obtain rfl := Option.some.inj ((set_task_self ..).symm.trans hu)
        exact ⟨hnone, hget⟩
      · rw [set_task_of_ne _ _ (by simp)] at hu
        obtain rfl := Option.some.inj ((set_task_self ..).symm.trans hu)
        exact ⟨hinv.absent hchild, hget⟩
    · obtain rfl := Option.some.inj ((set_task_self ..).symm.trans hu)
      simp at hfork
    · rw [set_task_of_ne _ _ (by simp), set_task_self] at hnone
      simp at hnone
  | write fd n d hpc hget =>
    simp only [hpc] at hplaced
    obtain rfl : d = ⟨fs₀.opened.length, false⟩ :=
      Option.some.inj (hget.symm.trans hplaced.2.1)
    refine hinv.set _ ht hwho (hinv.files_write _) ?_ (by simp)
    exact ⟨⟨n, by simp [chunks_append, hplaced.1]⟩, hplaced.2⟩
  | close fd d hpc hget =>
    simp only [hpc] at hplaced
    refine hinv.set s.files ht hwho (by rw [List.append_nil, hfiles]) ?_ (by simp)
    rw [List.append_nil]
    exact .inl ⟨rfl, hplaced.1⟩
  | fail hpc =>
    refine hinv.set s.files ht hwho (by rw [List.append_nil, hfiles]) ?_ (by simp)
    rw [List.append_nil]
    refine .inr ⟨rfl, ?_⟩
    split at hplaced
    · contradiction
    · exact .inl hplaced.2.1
    · exact .inl hplaced.1
    · exact .inr hplaced.1
    · rename_i status hexited
      exact absurd hexited (hpc status)

theorem opened_of_run (hrun : (forkFd fs₀ t₀).Run (forkFd fs₀ t₀).init h s) :
    Unopened fs₀ s h ∨ Opened fs₀ s h := by
  refine hrun.invariant (fun s h => Unopened fs₀ s h ∨ Opened fs₀ s h)
    (.inl ⟨rfl, rfl, rfl, _, rfl, .inl ⟨rfl, t₀.two_lt_free⟩⟩) ?_
  rintro h s s' es ⟨p, o⟩ - hinv - hnext
  obtain ⟨t, ht, hstep⟩ := Option.bind_eq_some_iff.mp hnext
  have hmove := move_of_step hstep
  rcases hinv with hinv | hinv
  · exact hinv.move ht hmove
  · exact .inr (hinv.move ht hmove)

/-! ### The end of the processes -/

/-- The steps that a process can still take, those of its child included. -/
def Pc.size : Pc → ℕ
  | .openFile => 6
  | .fork _ => 5
  | .write _ => 2
  | .close _ => 1
  | .exited _ => 0

/-- The steps that the process can still take, if there is one. -/
def weight (t : Option Task) : ℕ := t.elim 0 fun t => t.pc.size

/-- The steps that are left. -/
def size (task : Proc → Option Task) : ℕ := weight (task .parent) + weight (task .child)

theorem size_update (task : Proc → Option Task) (p : Proc) (t : Task) :
    size (Function.update task p (some t)) + weight (task p) = size task + t.pc.size := by
  cases p <;> simp [size, weight] <;> omega

theorem Move.size_lt (ht : s.task p = some t) (hmove : Move s p t s' es) :
    size s'.task < size s.task := by
  have hweight : weight (s.task p) = t.pc.size := by rw [ht]; rfl
  have hset : ∀ t', size (Function.update s.task p (some t')) + t.pc.size =
      size s.task + t'.pc.size := fun t' => hweight ▸ size_update s.task p t'
  cases hmove with
  | openFile hpc =>
    have hsize := hset ⟨t.table.alloc ⟨s.files.opened.length, false⟩, .fork t.table.free⟩
    simp only [hpc, Pc.size] at hsize
    simp only [State.set]
    omega
  | fork fd hpc =>
    have hchild := size_update s.task .child { t with pc := .write fd }
    have hself := size_update (Function.update s.task .child (some { t with pc := .write fd })) p
      { t with pc := .write fd }
    rw [hpc] at hweight
    cases p with
    | parent =>
      simp only [ne_eq, reduceCtorEq, not_false_eq_true, Function.update_of_ne, hweight, Pc.size]
        at hchild hself
      simp only [State.set]
      omega
    | child =>
      simp only [hweight, Pc.size] at hchild
      simp only [State.set, Function.update_idem]
      omega
  | write fd n d hpc hget =>
    have hsize := hset { t with pc := .close fd }
    simp only [hpc, Pc.size] at hsize
    simp only [State.set]
    omega
  | close fd d hpc hget =>
    have hsize := hset ⟨t.table.close fd, .exited exitSuccess⟩
    simp only [hpc, Pc.size] at hsize
    simp only [State.set]
    omega
  | fail hpc =>
    have hsize : _ = size s.task + 0 := hset { t with pc := .exited exitFailure }
    have hpos : 0 < t.pc.size := by
      cases hpc' : t.pc with
      | exited status => exact absurd hpc' (hpc status)
      | _ => simp [Pc.size]
    simp only [State.fail, State.set]
    omega

/-- A process that has not exited can fail. -/
theorem exited_of_terminal (hterminal : ∀ x, (forkFd fs₀ t₀).next s x = none) (p : Proc)
    (t : Task) (ht : s.task p = some t) : ∃ status, t.pc = .exited status := by
  have hnone : step s p t t.pc .fail = none := by
    simpa [forkFd, ht] using hterminal (p, .fail)
  cases hpc : t.pc with
  | exited status => exact ⟨status, rfl⟩
  | _ => simp [hpc, step] at hnone

/-- No write stores a part of its bytes only. -/
def Whole (_ : State) (x : Proc × Outcome) : Prop := ∀ n, x.2 ≠ .short n

theorem chunk_of_step {o : Outcome} (hstep : step s p t t.pc o = some (s', es))
    (hwhole : ∀ n, o ≠ .short n) : ∀ e ∈ es, e.chunk = message e.who := by
  intro e he
  generalize t.pc = pc at hstep
  unfold step at hstep
  split at hstep
  case h_3 fd =>
    simp only [State.write, Option.some.injEq] at hstep
    split at hstep <;> obtain ⟨-, rfl⟩ := Prod.mk.inj hstep
    · simp at he
    · rw [List.mem_singleton.mp he]
  case h_4 fd n => exact absurd rfl (hwhole n)
  all_goals try split at hstep
  all_goals try contradiction
  all_goals
    obtain ⟨-, rfl⟩ := Prod.mk.inj (Option.some.inj hstep)
    simp at he

theorem chunk_eq_message (hrun : (forkFd fs₀ t₀).RunIf Whole (forkFd fs₀ t₀).init h s) :
    ∀ e ∈ h, e.chunk = message e.who := by
  refine hrun.invariant (fun _ h => ∀ e ∈ h, e.chunk = message e.who) (by simp) ?_
  rintro h s s' es ⟨p, o⟩ - hgood hwhole hnext e he
  obtain ⟨t, ht, hstep⟩ := Option.bind_eq_some_iff.mp hnext
  rcases List.mem_append.mp he with he | he
  · exact hgood e he
  · exact chunk_of_step hstep hwhole e he

theorem length_eq (h : List Event) :
    h.length = (chunks .parent h).length + (chunks .child h).length := by
  induction h with
  | nil => rfl
  | cons e h ih =>
    rw [← List.singleton_append, chunks_append, chunks_append, List.length_append, ih]
    rcases e with ⟨_ | _, chunk⟩ <;> simp <;> omega

/-- One message of each process, in some order. -/
theorem bytes_eq_of_wrote (hmessage : ∀ e ∈ h, e.chunk = message e.who) (hwrote : ∀ p, Wrote p h) :
    bytes h = message .parent ++ message .child ∨ bytes h = message .child ++ message .parent := by
  obtain ⟨n, hparent⟩ := hwrote .parent
  obtain ⟨m, hchild⟩ := hwrote .child
  have hlength := length_eq h
  rw [hparent, hchild] at hlength
  obtain ⟨e₁, e₂, rfl⟩ := List.length_eq_two.mp hlength
  have hbytes : bytes [e₁, e₂] = message e₁.who ++ message e₂.who := by
    rw [← hmessage e₁ (by simp), ← hmessage e₂ (by simp)]
    simp [bytes]
  rw [hbytes]
  rcases e₁ with ⟨_ | _, chunk₁⟩ <;> rcases e₂ with ⟨_ | _, chunk₂⟩
  · simp [chunks] at hchild
  · exact .inl rfl
  · exact .inr rfl
  · simp [chunks] at hparent

/-- A process stores a part of its message once, or nothing. -/
theorem Opened.chunks_eq (hinv : Opened fs₀ s h) (p : Proc) :
    chunks p h = [] ∨ Wrote p h := by
  cases ht : s.task p with
  | none =>
    cases p with
    | parent => simpa [ht] using hinv.parent
    | child => exact .inl (hinv.absent ht)
  | some t =>
    have hplaced := hinv.placed p t ht
    rw [Placed] at hplaced
    split at hplaced
    · contradiction
    · exact .inl hplaced.2.1
    · exact .inl hplaced.1
    · exact .inr hplaced.1
    · exact hplaced.elim (fun h => .inr h.2) fun h => h.2

/-- The number in the variable of a process is none of a standard stream. -/
theorem two_lt_fd (hinv : Unopened fs₀ s h ∨ Opened fs₀ s h) (ht : s.task p = some t) {fd : ℕ}
    (hfd : fd ∈ t.pc.fd) : 2 < fd := by
  rcases hinv with ⟨-, -, hchild, t', ht', hpc⟩ | hinv
  · cases p with
    | child => simp [hchild] at ht
    | parent =>
      obtain rfl : t' = t := Option.some.inj (ht'.symm.trans ht)
      rcases hpc with ⟨hpc, -⟩ | hpc <;> simp [hpc, Pc.fd] at hfd
  · have hplaced := hinv.placed p t ht
    rw [Placed] at hplaced
    generalize hpc : t.pc = pc at hfd hplaced
    cases pc with
    | fork n =>
      obtain rfl : n = fd := by simpa [Pc.fd] using hfd
      exact hplaced.2.2.2
    | write n | close n =>
      obtain rfl : n = fd := by simpa [Pc.fd] using hfd
      exact hplaced.2.2
    | openFile | exited => simp [Pc.fd] at hfd

/-- Before the file is open no process has exited successfully. -/
theorem Unopened.not_exited (hinv : Unopened fs₀ s h) (ht : s.task p = some t) :
    t.pc ≠ .exited exitSuccess := by
  obtain ⟨t', ht', hpc⟩ := hinv.parent
  cases p with
  | child => simp [hinv.child] at ht
  | parent =>
    obtain rfl : t' = t := Option.some.inj (ht'.symm.trans ht)
    rcases hpc with ⟨hpc, -⟩ | hpc <;> simp [hpc, exitSuccess, exitFailure]

/-- **The file has what both processes have written.** In every reachable state the file is as it
was, or it has the bytes that the writes have stored, in their order and without a gap; the other
files are as they were. The descriptor is none of the standard streams. Each process stores a part
of its message at most once, and a process that exits successfully has done so. When the writes
store all their bytes and both processes exit successfully, the file has one message after the
other. Every run comes to an end. -/
theorem forkFd_content (hrun : (forkFd fs₀ t₀).Run (forkFd fs₀ t₀).init h s) :
    (s.files.content = fs₀.content ∧ h = [] ∨
        s.files.content = Function.update fs₀.content path (some (bytes h))) ∧
      (∀ p t, s.task p = some t → ∀ fd ∈ t.pc.fd, 2 < fd) ∧
      (∀ p, chunks p h = [] ∨ Wrote p h) ∧
      (∀ p t, s.task p = some t → t.pc = .exited exitSuccess → Wrote p h) ∧
      ((forkFd fs₀ t₀).RunIf Whole (forkFd fs₀ t₀).init h s →
        (∀ p, ∃ t, s.task p = some t ∧ t.pc = .exited exitSuccess) →
        bytes h = message .parent ++ message .child ∨
          bytes h = message .child ++ message .parent) ∧
      (forkFd fs₀ t₀).Inevitable (fun _ _ => True)
        (fun s => ∀ p t, s.task p = some t → ∃ status, t.pc = .exited status) s := by
  have hopened := opened_of_run hrun
  have hexited : ∀ p t, s.task p = some t → t.pc = .exited exitSuccess → Wrote p h := by
    intro p t ht hpc
    rcases hopened with hinv | hinv
    · exact absurd hpc (hinv.not_exited ht)
    · have hplaced := hinv.placed p t ht
      simpa [Placed, hpc, exitSuccess, exitFailure] using hplaced
  refine ⟨?_, fun p t ht fd => two_lt_fd hopened ht, fun p => ?_, hexited,
    fun hwhole hboth => ?_, ?_⟩
  · rcases hopened with hinv | hinv
    · exact .inl ⟨by rw [hinv.files], hinv.history⟩
    · exact .inr (by rw [hinv.files])
  · rcases hopened with hinv | hinv
    · exact .inl (by rw [hinv.history]; rfl)
    · exact hinv.chunks_eq p
  · refine bytes_eq_of_wrote (chunk_eq_message hwhole) fun p => ?_
    obtain ⟨t, ht, hpc⟩ := hboth p
    exact hexited p t ht hpc
  · refine Machine.inevitable_of_terminal (I := fun _ => True) _ (fun s => size s.task) ?_
      (fun s _ hterminal => exited_of_terminal fun x => hterminal x trivial) trivial
    rintro s s' es ⟨p, o⟩ - - hnext
    obtain ⟨t, ht, hstep⟩ := Option.bind_eq_some_iff.mp hnext
    exact ⟨trivial, (move_of_step hstep).size_lt ht⟩

/-- The standard streams are a terminal. -/
def terminal : Files String := ⟨fun _ => none, [⟨"/dev/tty", 0, false⟩]⟩

/-- The descriptors of a program that is started in a terminal. -/
def terminalStart : Start terminal path where
  table := List.replicate 3 (some ⟨0, false⟩)
  standard := by decide

/-- The child writes before the parent does. -/
theorem forkFd_content_child : ∃ s h,
    (forkFd terminal terminalStart).Run (forkFd terminal terminalStart).init h s ∧
      h.map Event.who = [.child, .parent] ∧ s.files.content path = some (bytes h) := by
  obtain ⟨s, h, hrun, hs⟩ := Machine.exists_run_of_exec (M := forkFd terminal terminalStart)
    [(.parent, .ok), (.parent, .ok), (.child, .ok), (.parent, .ok), (.child, .ok), (.parent, .ok)]
    (f := fun r => r.2.map Event.who) (b := [.child, .parent]) (by decide)
  refine ⟨s, h, hrun, hs, ?_⟩
  rcases (forkFd_content hrun).1 with ⟨-, hnil⟩ | hcontent
  · simp [hnil] at hs
  · simp [hcontent]

end ForkFd

end Multithreading.Process
