import Multithreading.Ipc.Process
import Multithreading.Kernel.Files
import Multithreading.Memory.Decimal

/-!
# Passing a descriptor through `exec`

The program `exec_fd` opens a file for appending, forks, and the child becomes the program `writer`,
which gets the number of the descriptor as text. It does so twice, the second time with a descriptor
that `exec` closes. The writer of the first time appends its message; the writer of the second time
has no descriptor of that number, reports the failed write on `std::cerr` and exits, which the
parent does not notice.

Every call of the programs may fail, and a write may store only a part of its bytes. The labels of
the steps choose. Of a report of `CHECK_ERROR` the model has the place of the check in the source.

## Main definitions

* `ExecFd.next`, `execFd` — the machine of the parent and its child.
* `ExecFd.writer` — `main` of the program `writer`.
* `ExecFd.Placed` — where the processes can be, given what they have done.

## Main results

* `ExecFd.execFd_content` — the bytes of the file in every reachable state.
-/

open Transition Kernel Multithreading.Ipc

namespace Multithreading.Process

namespace ExecFd

/-- The name of the file. -/
def path : String := "example.txt"

/-- `Message`. -/
def message : List UInt8 := "Write from child process\n".toUTF8.toList

/-- The program counter of the parent. -/
inductive Pc
  /-- `RunExample`, about to open the file. -/
  | openFile (closeOnExec : Bool)
  /-- About to fork. -/
  | fork (closeOnExec : Bool) (fd : ℕ)
  /-- About to wait for the child. -/
  | wait (closeOnExec : Bool) (fd : ℕ)
  /-- About to close the descriptor. -/
  | close (closeOnExec : Bool) (fd : ℕ)
  | exited (status : ℕ)
  deriving DecidableEq

/-- The program counter of the child. -/
inductive ChildPc
  /-- About to become the writer. -/
  | exec (fdAsStr : List Char)
  /-- `main` of the writer. -/
  | main (argv : List (List Char))
  /-- About to write the message. -/
  | write (fd : ℤ)
  /-- About to close the descriptor. -/
  | close (fd : ℤ)
  | exited (status : ℕ)
  /-- Ended by an exception that nobody has caught. -/
  | aborted
  deriving DecidableEq

/-- The child has ended. -/
def ChildPc.ended : ChildPc → Bool
  | .exited _ | .aborted => true
  | _ => false

/-- A process: its descriptors, and where it is. -/
structure Task (π : Type) where
  table : Table
  pc : π
  deriving DecidableEq

/-- The files, the parent, and its child if there is one. -/
structure State where
  files : Files String
  parent : Task Pc
  child : Option (Task ChildPc)

/-- What is stored and what is printed. -/
inductive Event
  /-- A write has stored some bytes. -/
  | stored (chunk : List UInt8)
  /-- A process has printed a line on `std::cout`. -/
  | line (text : String)
  /-- A process has printed a line on `std::cerr`. -/
  | errorLine (text : String)
  /-- `CHECK_ERROR` at the given place has reported a failed call on `std::cerr`. -/
  | report (file : String) (line : ℕ)
  deriving DecidableEq

/-- The line of the parent after each child. -/
def separator : Event := .line "-----------------------"

/-- The last line of the writer. -/
def success : Event := .line "Successfully written to file from child process"

/-- The line of a writer that is not called with one argument. -/
def invalidInput : Event := .errorLine "Invalid input"

/-- The report of a failed `open`. -/
def openFailed : Event := .report "exec_fd.cpp" 14

/-- The report of a failed `fork`. -/
def forkFailed : Event := .report "exec_fd.cpp" 19

/-- The report of a failed `execl`. -/
def execFailed : Event := .report "exec_fd.cpp" 22

/-- The report of a failed `close` of the parent. -/
def closeFailed : Event := .report "exec_fd.cpp" 28

/-- The report of a failed `write` of the writer. -/
def writeFailed : Event := .report "writer.cpp" 16

/-- The report of a failed `close` of the writer. -/
def writerCloseFailed : Event := .report "writer.cpp" 17

/-- `CHECK_ERROR` of a call of the parent that has returned `-1`. -/
def State.fail (s : State) (report : Event) : State × List Event :=
  ({ s with parent := { s.parent with pc := .exited exitFailure } }, [report])

/-- `CHECK_ERROR` of a call of the child that has returned `-1`. -/
def State.failChild (s : State) (u : Task ChildPc) (report : Event) : State × List Event :=
  ({ s with child := some { u with pc := .exited exitFailure } }, [report])

/-- What an `int` refers to. -/
def lookup (t : Table) (fd : ℤ) : Option Descriptor := if 0 ≤ fd then t.get fd.toNat else none

/-- A step of the parent. -/
def step (s : State) : Pc → Outcome → Option (State × List Event)
  | .openFile c, .ok =>
    if Memory.Fits s.parent.table.free then
      some ({ s with
        files := s.files.openPath path ⟨false, true, c⟩
        parent := ⟨s.parent.table.alloc ⟨s.files.opened.length, c⟩,
          .fork c s.parent.table.free⟩ }, [])
    else none
  | .fork c fd, .ok =>
    some ({ s with
      parent := { s.parent with pc := .wait c fd }
      child := some ⟨s.parent.table, .exec (Memory.toString fd)⟩ }, [])
  | .wait c fd, .ok =>
    match s.child with
    | none => some ({ s with parent := { s.parent with pc := .close c fd } }, [separator])
    | some u =>
      if u.pc.ended then
        some ({ s with parent := { s.parent with pc := .close c fd }, child := none }, [separator])
      else none
  | .close c fd, .ok =>
    match s.parent.table.get fd with
    | none => some (s.fail closeFailed)
    | some _ =>
      some ({ s with
        parent :=
          ⟨s.parent.table.close fd, if c then .exited exitSuccess else .openFile true⟩ }, [])
  | .openFile _, .fail => some (s.fail openFailed)
  | .fork _ _, .fail => some (s.fail forkFailed)
  | .close _ _, .fail => some (s.fail closeFailed)
  | _, _ => none

/-- A step of the writer, which has become the program of the child. -/
def writer (s : State) (u : Task ChildPc) : ChildPc → Outcome → Option (State × List Event)
  | .main argv, .ok =>
    match argv with
    | [_, fdAsStr] =>
      match Memory.stoi fdAsStr with
      | none => some ({ s with child := some { u with pc := .aborted } }, [])
      | some fd => some ({ s with child := some { u with pc := .write fd } }, [])
    | _ => some ({ s with child := some { u with pc := .exited exitFailure } }, [invalidInput])
  | .write fd, .ok =>
    match lookup u.table fd with
    | none => some (s.failChild u writeFailed)
    | some d =>
      some ({ s with
        files := s.files.write d.file message
        child := some { u with pc := .close fd } }, [.stored message])
  | .write fd, .short n =>
    match lookup u.table fd with
    | none => none
    | some d =>
      if n < message.length then
        some ({ s with
          files := s.files.write d.file (message.take n)
          child := some { u with pc := .close fd } }, [.stored (message.take n)])
      else none
  | .close fd, .ok =>
    match lookup u.table fd with
    | none => some (s.failChild u writerCloseFailed)
    | some _ =>
      some ({ s with child := some ⟨u.table.close fd.toNat, .exited exitSuccess⟩ }, [success])
  | .write _, .fail => some (s.failChild u writeFailed)
  | .close _, .fail => some (s.failChild u writerCloseFailed)
  | _, _ => none

/-- A step of the child. -/
def childStep (s : State) (u : Task ChildPc) : ChildPc → Outcome → Option (State × List Event)
  | .exec fdAsStr, .ok =>
    some ({ s with
      child := some ⟨u.table.exec, .main ["writer".toList, fdAsStr]⟩ }, [])
  | .exec _, .fail => some (s.failChild u execFailed)
  | .exec _, .short _ => none
  | pc, o => writer s u pc o

/-- A step of one of the processes. -/
def next (s : State) : Proc × Outcome → Option (State × List Event)
  | (.parent, o) => step s s.parent.pc o
  | (.child, o) => s.child.bind fun u => childStep s u u.pc o

end ExecFd

/-- `exec_fd`, started with the files `fs₀` and the descriptors `t₀`. -/
def execFd (fs₀ : Files String) (t₀ : Start fs₀ ExecFd.path) :
    Machine ExecFd.State (Proc × Outcome) ExecFd.Event where
  init := ⟨fs₀, ⟨t₀.table, .openFile false⟩, none⟩
  next := ExecFd.next

namespace ExecFd

/-! ### What a step can do -/

/-- The report of the call that the parent is about to make. -/
def Pc.check : Pc → Option Event
  | .openFile _ => some openFailed
  | .fork _ _ => some forkFailed
  | .close _ _ => some closeFailed
  | .wait _ _ | .exited _ => none

/-- The report of the call that the child is about to make. -/
def ChildPc.check : ChildPc → Option Event
  | .exec _ => some execFailed
  | .write _ => some writeFailed
  | .close _ => some writerCloseFailed
  | .main _ | .exited _ | .aborted => none

/-- What a step can do. -/
inductive Move (s : State) : Outcome → State → List Event → Prop
  | openFile (c : Bool) (hpc : s.parent.pc = .openFile c)
      (hfits : Memory.Fits s.parent.table.free) :
      Move s .ok { s with
        files := s.files.openPath path ⟨false, true, c⟩
        parent := ⟨s.parent.table.alloc ⟨s.files.opened.length, c⟩,
          .fork c s.parent.table.free⟩ } []
  | fork (c : Bool) (fd : ℕ) (hpc : s.parent.pc = .fork c fd) :
      Move s .ok { s with
        parent := { s.parent with pc := .wait c fd }
        child := some ⟨s.parent.table, .exec (Memory.toString fd)⟩ } []
  | wait (c : Bool) (fd : ℕ) (hpc : s.parent.pc = .wait c fd)
      (hended : ∀ u, s.child = some u → u.pc.ended = true) :
      Move s .ok { s with parent := { s.parent with pc := .close c fd }, child := none }
        [separator]
  | close (c : Bool) (fd : ℕ) (d : Descriptor) (hpc : s.parent.pc = .close c fd)
      (hget : s.parent.table.get fd = some d) :
      Move s .ok { s with
        parent := ⟨s.parent.table.close fd, if c then .exited exitSuccess else .openFile true⟩ } []
  | fail (o : Outcome) (e : Event) (hcheck : s.parent.pc.check = some e)
      (hok : o = .ok → ∃ c fd, s.parent.pc = .close c fd ∧ s.parent.table.get fd = none) :
      Move s o { s with parent := { s.parent with pc := .exited exitFailure } } [e]
  | exec (u : Task ChildPc) (fdAsStr : List Char) (hu : s.child = some u)
      (hpc : u.pc = .exec fdAsStr) :
      Move s .ok { s with child := some ⟨u.table.exec, .main ["writer".toList, fdAsStr]⟩ } []
  | main (u : Task ChildPc) (name fdAsStr : List Char) (fd : ℤ) (hu : s.child = some u)
      (hpc : u.pc = .main [name, fdAsStr]) (hfd : Memory.stoi fdAsStr = some fd) :
      Move s .ok { s with child := some { u with pc := .write fd } } []
  | badArgs (u : Task ChildPc) (argv : List (List Char)) (pc : ChildPc) (es : List Event)
      (hu : s.child = some u) (hpc : u.pc = .main argv) (hended : pc.ended = true)
      (hbad : ∀ name fdAsStr, argv = [name, fdAsStr] → Memory.stoi fdAsStr = none) :
      Move s .ok { s with child := some { u with pc := pc } } es
  | write (o : Outcome) (u : Task ChildPc) (fd : ℤ) (n : ℕ) (d : Descriptor)
      (hu : s.child = some u) (hpc : u.pc = .write fd) (hget : lookup u.table fd = some d)
      (hn : o = .ok → n = message.length) :
      Move s o { s with
        files := s.files.write d.file (message.take n)
        child := some { u with pc := .close fd } } [.stored (message.take n)]
  | childClose (u : Task ChildPc) (fd : ℤ) (d : Descriptor) (hu : s.child = some u)
      (hpc : u.pc = .close fd) (hget : lookup u.table fd = some d) :
      Move s .ok { s with child := some ⟨u.table.close fd.toNat, .exited exitSuccess⟩ } [success]
  | childFail (o : Outcome) (u : Task ChildPc) (e : Event) (hu : s.child = some u)
      (hcheck : u.pc.check = some e)
      (hok : o = .ok → ∃ fd, (u.pc = .write fd ∨ u.pc = .close fd) ∧ lookup u.table fd = none) :
      Move s o { s with child := some { u with pc := .exited exitFailure } } [e]

variable {s s' : State} {u : Task ChildPc} {o : Outcome} {h es : List Event}

theorem move_of_step (hstep : step s s.parent.pc o = some (s', es)) : Move s o s' es := by
  generalize hpc : s.parent.pc = pc at hstep
  unfold step at hstep
  split at hstep
  case h_1 c =>
    split at hstep
    · rename_i hfits
      obtain ⟨rfl, rfl⟩ := Prod.mk.inj (Option.some.inj hstep)
      exact .openFile c hpc hfits
    · contradiction
  case h_2 c fd =>
    obtain ⟨rfl, rfl⟩ := Prod.mk.inj (Option.some.inj hstep)
    exact .fork c fd hpc
  case h_3 c fd =>
    split at hstep
    · rename_i hnone
      obtain ⟨rfl, rfl⟩ := Prod.mk.inj (Option.some.inj hstep)
      rw [hnone]
      exact .wait c fd hpc (by simp [hnone])
    · rename_i u hu
      split at hstep
      · rename_i hended
        obtain ⟨rfl, rfl⟩ := Prod.mk.inj (Option.some.inj hstep)
        exact .wait c fd hpc fun u' hu' => Option.some.inj (hu.symm.trans hu') ▸ hended
      · contradiction
  case h_4 c fd =>
    split at hstep <;> obtain ⟨rfl, rfl⟩ := Prod.mk.inj (Option.some.inj hstep)
    · rename_i hget
      exact .fail .ok closeFailed (by rw [hpc]; rfl) fun _ => ⟨c, fd, hpc, hget⟩
    · rename_i d hget
      exact .close c fd d hpc hget
  case h_8 => contradiction
  all_goals
    obtain ⟨rfl, rfl⟩ := Prod.mk.inj (Option.some.inj hstep)
    exact .fail .fail _ (by rw [hpc]; rfl) nofun

theorem move_of_writer (hu : s.child = some u) (hstep : writer s u u.pc o = some (s', es)) :
    Move s o s' es := by
  generalize hpc : u.pc = pc at hstep
  unfold writer at hstep
  split at hstep
  case h_1 argv =>
    split at hstep
    · rename_i name fdAsStr
      split at hstep <;> obtain ⟨rfl, rfl⟩ := Prod.mk.inj (Option.some.inj hstep)
      · rename_i hnone
        exact .badArgs u _ .aborted [] hu hpc rfl (by simp [hnone])
      · rename_i fd hfd
        exact .main u name fdAsStr fd hu hpc hfd
    · rename_i hlength
      obtain ⟨rfl, rfl⟩ := Prod.mk.inj (Option.some.inj hstep)
      exact .badArgs u argv _ [invalidInput] hu hpc rfl fun _ _ h => absurd h (hlength _ _)
  case h_2 fd =>
    split at hstep <;> obtain ⟨rfl, rfl⟩ := Prod.mk.inj (Option.some.inj hstep)
    · rename_i hget
      exact .childFail .ok u writeFailed hu (by rw [hpc]; rfl) fun _ => ⟨fd, .inl hpc, hget⟩
    · rename_i d hget
      simpa using Move.write .ok u fd message.length d hu hpc hget fun _ => rfl
  case h_3 fd n =>
    split at hstep
    · contradiction
    · rename_i d hget
      split at hstep
      · obtain ⟨rfl, rfl⟩ := Prod.mk.inj (Option.some.inj hstep)
        exact .write (.short n) u fd n d hu hpc hget (by simp)
      · contradiction
  case h_4 fd =>
    split at hstep <;> obtain ⟨rfl, rfl⟩ := Prod.mk.inj (Option.some.inj hstep)
    · rename_i hget
      exact .childFail .ok u writerCloseFailed hu (by rw [hpc]; rfl)
        fun _ => ⟨fd, .inr hpc, hget⟩
    · rename_i d hget
      exact .childClose u fd d hu hpc hget
  case h_7 => contradiction
  all_goals
    obtain ⟨rfl, rfl⟩ := Prod.mk.inj (Option.some.inj hstep)
    exact .childFail .fail u _ hu (by rw [hpc]; rfl) nofun

theorem move_of_next {x : Proc × Outcome} (hnext : next s x = some (s', es)) :
    Move s x.2 s' es := by
  obtain ⟨_ | _, o⟩ := x
  · exact move_of_step hnext
  · obtain ⟨u, hu, hstep⟩ := Option.bind_eq_some_iff.mp hnext
    generalize hpc : u.pc = pc at hstep
    unfold childStep at hstep
    split at hstep
    case h_1 fdAsStr =>
      obtain ⟨rfl, rfl⟩ := Prod.mk.inj (Option.some.inj hstep)
      exact .exec u fdAsStr hu hpc
    case h_2 =>
      obtain ⟨rfl, rfl⟩ := Prod.mk.inj (Option.some.inj hstep)
      exact .childFail .fail u execFailed hu (by rw [hpc]; rfl) nofun
    case h_3 => contradiction
    case h_4 => exact move_of_writer hu (hpc ▸ hstep)

/-! ### What holds in every state -/

/-- The bytes that the writes have stored, in the order of the writes. -/
def bytes (h : List Event) : List UInt8 := h.flatMap fun | .stored chunk => chunk | _ => []

theorem bytes_append (h h' : List Event) : bytes (h ++ h') = bytes h ++ bytes h' :=
  List.flatMap_append

@[simp] theorem bytes_nil : bytes [] = [] := rfl

@[simp] theorem bytes_stored (chunk : List UInt8) : bytes [.stored chunk] = chunk := by
  simp [bytes]

@[simp] theorem bytes_separator : bytes [separator] = [] := rfl

@[simp] theorem bytes_success : bytes [success] = [] := rfl

theorem Pc.bytes_check {pc : Pc} {e : Event} (he : pc.check = some e) : bytes [e] = [] := by
  cases pc <;> cases he <;> rfl

theorem ChildPc.bytes_check {pc : ChildPc} {e : Event} (he : pc.check = some e) :
    bytes [e] = [] := by
  cases pc <;> cases he <;> rfl

/-- A number of bytes of the message has been stored, all of them when nothing goes wrong. -/
def Stored (good : Prop) (n : ℕ) : Prop := good → n = message.length

/-- What the first child has done so far. It stores a part of the message and says so, or it reports
the call that has failed. -/
inductive Written (good : Prop) : List Event → Prop
  | nothing : Written good []
  | execFailed (hbad : ¬ good) : Written good [execFailed]
  | writeFailed (hbad : ¬ good) : Written good [writeFailed]
  | stored (n : ℕ) (hn : Stored good n) : Written good [.stored (message.take n)]
  | closeFailed (n : ℕ) (hbad : ¬ good) :
      Written good [.stored (message.take n), writerCloseFailed]
  | success (n : ℕ) (hn : Stored good n) : Written good [.stored (message.take n), success]

/-- What the second child has done in the end. It has reported its first call that has failed, which
is the write unless `execl` has failed. -/
def Refused (good : Prop) (w : List Event) : Prop :=
  w = [writeFailed] ∨ w = [execFailed] ∧ ¬ good

/-- What a child has done in the end. -/
def Done (good : Prop) (c : Bool) (w : List Event) : Prop :=
  if c then Refused good w else Written good w ∧ (good → w = [.stored message, success])

/-- What has been done when a number of children has ended. -/
def Log (good : Prop) : ℕ → List Event → Prop
  | 0, h => h = []
  | 1, h => ∃ first, Done good false first ∧ h = first ++ [separator]
  | _, h => ∃ first second, Done good false first ∧ Done good true second ∧
      h = first ++ [separator] ++ second ++ [separator]

/-- The history when a number of children has ended, from what each child has done and what the
parent has reported. -/
def history (first second report : List Event) : ℕ → List Event
  | 0 => first ++ report
  | 1 => first ++ [separator] ++ second ++ report
  | _ => first ++ [separator] ++ second ++ [separator] ++ report

variable {fs₀ : Files String}

/-- The descriptors are those of the start. -/
def Restored (t₀ : Start fs₀ path) (t : Table) : Prop := ∀ fd, t.get fd = t₀.table.get fd

/-- A descriptor that is opened then is none of the standard streams. -/
theorem Restored.two_lt_free {t₀ : Start fs₀ path} {t : Table} (h : Restored t₀ t) : 2 < t.free :=
  have hstandard : ∀ fd < 3, ∃ q ∈ fs₀.pathOf t fd, q ≠ path := fun fd hfd => by
    simpa [Files.pathOf, h fd] using t₀.standard fd hfd
  Start.two_lt_free ⟨t, hstandard⟩

/-- The descriptor refers to the file, which has been opened for appending. -/
def Appends (fs : Files String) (t : Table) (fd : ℕ) (c : Bool) : Prop :=
  ∃ k o, t.get fd = some ⟨k, c⟩ ∧ fs.opened[k]? = some o ∧ o.path = path ∧ o.append = true

/-- What the writer has found at the number of the descriptor. -/
def Inherited (fs : Files String) (t : Table) (fd : ℕ) (c : Bool) : Prop :=
  if c then t.get fd = none else Appends fs t fd false

/-- The parent has opened the descriptor, which is none of the standard streams. -/
structure Owns (fs : Files String) (t₀ : Start fs₀ path) (t : Table) (c : Bool) (fd : ℕ) :
    Prop where
  fits : Memory.Fits fd
  two_lt : 2 < fd
  appends : Appends fs t fd c
  restored : Restored t₀ (t.close fd)

/-- Where the child can be, given what it has done. -/
def ChildPlaced (good : Prop) (fs : Files String) (c : Bool) (w : List Event)
    (u : Task ChildPc) : Prop :=
  match u.pc with
  | .exec fdAsStr => w = [] ∧
      ∃ fd : ℕ, fdAsStr = Memory.toString fd ∧ Memory.Fits fd ∧ Appends fs u.table fd c
  | .main argv => w = [] ∧ ∃ (name : List Char) (fd : ℕ),
      argv = [name, Memory.toString fd] ∧ Memory.Fits fd ∧ Inherited fs u.table fd c
  | .write fd => w = [] ∧ ∃ n : ℕ, fd = n ∧ Inherited fs u.table n c
  | .close fd => c = false ∧ (∃ n, Stored good n ∧ w = [.stored (message.take n)]) ∧
      ∃ n : ℕ, fd = n ∧ Appends fs u.table n false
  | .exited _ => Done good c w
  | .aborted => False

/-- Where the processes can be, given what they have done. -/
def Placed (good : Prop) (t₀ : Start fs₀ path) (s : State) (h : List Event) : Prop :=
  match s.parent.pc with
  | .openFile c => s.child = none ∧ Log good c.toNat h ∧ Restored t₀ s.parent.table
  | .fork c fd => s.child = none ∧ Log good c.toNat h ∧ Owns s.files t₀ s.parent.table c fd
  | .wait c fd => Owns s.files t₀ s.parent.table c fd ∧ ∃ before w u, s.child = some u ∧
      Log good c.toNat before ∧ h = before ++ w ∧ ChildPlaced good s.files c w u
  | .close c fd => s.child = none ∧ Log good (c.toNat + 1) h ∧ Owns s.files t₀ s.parent.table c fd
  | .exited status => s.child = none ∧
      (status = exitSuccess ∧ Log good 2 h ∧ Restored t₀ s.parent.table ∨
        status = exitFailure ∧ ¬ good ∧ ∃ k ≤ 2, ∃ before, ∃ pc : Pc, Log good k before ∧
          h = before ++ pc.check.toList)

/-- The file has what the writes have stored behind what it had. -/
def Contains (fs₀ : Files String) (s : State) (h : List Event) : Prop :=
  s.files.content = fs₀.content ∧ (h = [] ∧ s.parent.pc = .openFile false ∨
      h = [openFailed] ∧ s.parent.pc = .exited exitFailure) ∨
    s.files.content =
      Function.update fs₀.content path (some ((fs₀.content path).getD [] ++ bytes h))

variable {good : Prop} {fs : Files String} {t₀ : Start fs₀ path} {t : Table} {c : Bool}
  {w : List Event}

theorem lookup_natCast (t : Table) (n : ℕ) : lookup t n = t.get n := by simp [lookup]

theorem Appends.files_write {fd : ℕ} (h : Appends fs t fd c) (file : ℕ) (data : List UInt8) :
    Appends (fs.write file data) t fd c := by
  obtain ⟨k, o, hget, ho, hpath, happend⟩ := h
  obtain ⟨offset, ho'⟩ := Files.exists_opened_write ho file data
  exact ⟨k, _, hget, ho', hpath, happend⟩

theorem Owns.files_write {fd : ℕ} (h : Owns fs t₀ t c fd) (file : ℕ) (data : List UInt8) :
    Owns (fs.write file data) t₀ t c fd :=
  ⟨h.fits, h.two_lt, h.appends.files_write file data, h.restored⟩

theorem owns_alloc (fs : Files String) (h : Restored t₀ t) (hfits : Memory.Fits t.free) (c : Bool) :
    Owns (fs.openPath path ⟨false, true, c⟩) t₀ (t.alloc ⟨fs.opened.length, c⟩) c t.free where
  fits := hfits
  two_lt := h.two_lt_free
  appends := ⟨_, ⟨path, 0, true⟩, t.get_alloc_self _, by simp [Files.openPath], rfl, rfl⟩
  restored fd := (t.get_close_alloc _ fd).trans (h fd)

theorem Appends.exec {fd : ℕ} (h : Appends fs t fd c) : Inherited fs t.exec fd c := by
  obtain ⟨k, o, hget, ho, hpath, happend⟩ := h
  cases c with
  | true => simp [Inherited, Table.get_exec, hget]
  | false => exact ⟨k, o, by simp [Table.get_exec, hget], ho, hpath, happend⟩

theorem Log.wait {before : List Event} (hbefore : Log good c.toNat before)
    (hplaced : ChildPlaced good fs c w u) (hended : u.pc.ended = true) :
    Log good (c.toNat + 1) (before ++ w ++ [separator]) := by
  rw [ChildPlaced] at hplaced
  split at hplaced
  case h_5 =>
    cases c with
    | false =>
      obtain rfl : before = [] := hbefore
      exact ⟨w, hplaced, by simp⟩
    | true =>
      obtain ⟨first, hdone, rfl⟩ := hbefore
      exact ⟨first, w, hdone, hplaced, by simp⟩
  case h_6 => contradiction
  all_goals simp_all [ChildPc.ended]

theorem Placed.child_move {before : List Event} {fd : ℕ} (hpc : s.parent.pc = .wait c fd)
    (howns : Owns s.files t₀ s.parent.table c fd) (hbefore : Log good c.toNat before)
    (hplaced : ChildPlaced good s.files c w u) : Placed good t₀ { s with child := some u }
      (before ++ w) := by
  rw [Placed]
  simp only [hpc]
  exact ⟨howns, before, w, u, rfl, hbefore, rfl, hplaced⟩

/-- While the child exists, the parent waits for it. -/
theorem Placed.exists_wait (hplaced : Placed good t₀ s h) (hu : s.child = some u) :
    ∃ c fd before w, s.parent.pc = .wait c fd ∧ Owns s.files t₀ s.parent.table c fd ∧
      Log good c.toNat before ∧ h = before ++ w ∧ ChildPlaced good s.files c w u := by
  rw [Placed] at hplaced
  split at hplaced
  case h_3 c fd hpc =>
    obtain ⟨howns, before, w, u', hu', hbefore, rfl, hplaced⟩ := hplaced
    obtain rfl : u' = u := Option.some.inj (hu'.symm.trans hu)
    exact ⟨c, fd, before, w, hpc, howns, hbefore, rfl, hplaced⟩
  all_goals
    have hnone := hplaced.1
    simp [hnone] at hu

/-- The writer is called with the number of a descriptor, which it can read. -/
theorem Placed.exists_argv (hplaced : Placed good t₀ s h) (hu : s.child = some u)
    {argv : List (List Char)} (hpc : u.pc = .main argv) :
    ∃ name, ∃ fd : ℕ, argv = [name, Memory.toString fd] ∧
      Memory.stoi (Memory.toString fd) = some fd := by
  obtain ⟨c, fd, before, w, -, -, -, -, hchild⟩ := hplaced.exists_wait hu
  simp only [ChildPlaced, hpc] at hchild
  obtain ⟨-, name, n, hargv, hfits, -⟩ := hchild
  exact ⟨name, n, hargv, Memory.stoi_toString hfits⟩

theorem Appends.lookup_ne_none {n : ℕ} (h : Appends fs t n c) : lookup t n ≠ none := by
  obtain ⟨k, -, hget, -⟩ := h
  simp [lookup_natCast, hget]

/-- What a child has done that fails. When nothing goes wrong it is the second one, and its write
fails. -/
theorem ChildPlaced.fail {e : Event} (hgood : good → o = .ok) (hplaced : ChildPlaced good fs c w u)
    (hcheck : u.pc.check = some e)
    (hok : o = .ok → ∃ fd, (u.pc = .write fd ∨ u.pc = .close fd) ∧ lookup u.table fd = none) :
    Done good c (w ++ [e]) := by
  have hbad : ∀ {w'}, ¬ good → Written good w' → Done good false w' := fun hnot hwritten =>
    ⟨hwritten, fun hg => absurd hg hnot⟩
  rw [ChildPlaced] at hplaced
  generalize hpc : u.pc = pc at hplaced hcheck hok
  cases pc with
  | exec fdAsStr =>
    obtain ⟨rfl, -⟩ := hplaced
    obtain rfl : execFailed = e := Option.some.inj hcheck
    have hnot : ¬ good := fun hg => by
      obtain ⟨fd, hfd, -⟩ := hok (hgood hg)
      simp at hfd
    cases c with
    | true => exact .inr ⟨rfl, hnot⟩
    | false => exact hbad hnot (.execFailed hnot)
  | write fd =>
    obtain ⟨rfl, n, rfl, hinherited⟩ := hplaced
    obtain rfl : writeFailed = e := Option.some.inj hcheck
    cases c with
    | true => exact .inl rfl
    | false =>
      have hnot : ¬ good := fun hg => by
        obtain ⟨fd, hfd, hnone⟩ := hok (hgood hg)
        obtain rfl : (n : ℤ) = fd := by simpa using hfd
        exact Appends.lookup_ne_none hinherited hnone
      exact hbad hnot (.writeFailed hnot)
  | close fd =>
    obtain ⟨rfl, ⟨n, hstored, rfl⟩, m, rfl, happends⟩ := hplaced
    obtain rfl : writerCloseFailed = e := Option.some.inj hcheck
    have hnot : ¬ good := fun hg => by
      obtain ⟨fd, hfd, hnone⟩ := hok (hgood hg)
      obtain rfl : (m : ℤ) = fd := by simpa using hfd
      exact happends.lookup_ne_none hnone
    exact hbad hnot (.closeFailed n hnot)
  | main | exited | aborted => contradiction

/-- **A step keeps the processes at their places.** -/
theorem Placed.move (hgood : good → o = .ok) (hplaced : Placed good t₀ s h)
    (hmove : Move s o s' es) : Placed good t₀ s' (h ++ es) := by
  cases hmove with
  | openFile c hpc hfits =>
    simp only [Placed, hpc] at hplaced
    obtain ⟨hchild, hlog, hrestored⟩ := hplaced
    rw [List.append_nil]
    exact ⟨hchild, hlog, owns_alloc s.files hrestored hfits c⟩
  | fork c fd hpc =>
    simp only [Placed, hpc] at hplaced
    obtain ⟨-, hlog, howns⟩ := hplaced
    exact ⟨howns, h, [], _, rfl, hlog, by simp, rfl, fd, rfl, howns.fits, howns.appends⟩
  | wait c fd hpc hended =>
    simp only [Placed, hpc] at hplaced
    obtain ⟨howns, before, w, u, hu, hbefore, rfl, hchild⟩ := hplaced
    exact ⟨rfl, hbefore.wait hchild (hended u hu), howns⟩
  | close c fd d hpc hget =>
    simp only [Placed, hpc] at hplaced
    obtain ⟨hchild, hlog, howns⟩ := hplaced
    rw [List.append_nil]
    cases c with
    | false => exact ⟨hchild, hlog, howns.restored⟩
    | true => exact ⟨hchild, .inl ⟨rfl, hlog, howns.restored⟩⟩
  | fail o e hcheck hok =>
    have hlog : s.child = none ∧ ∃ k ≤ 2, Log good k h := by
      rw [Placed] at hplaced
      split at hplaced
      case h_3 c fd hpc => simp [hpc, Pc.check] at hcheck
      case h_5 status hpc => simp [hpc, Pc.check] at hcheck
      case h_1 c hpc => exact ⟨hplaced.1, c.toNat, by have := c.toNat_le; omega, hplaced.2.1⟩
      case h_2 c fd hpc => exact ⟨hplaced.1, c.toNat, by have := c.toNat_le; omega, hplaced.2.1⟩
      case h_4 c fd hpc =>
        exact ⟨hplaced.1, c.toNat + 1, Nat.succ_le_succ c.toNat_le, hplaced.2.1⟩
    have hbad : ¬ good := by
      intro hg
      -- The descriptor that the parent closes is open.
      obtain ⟨c, fd, hpc, hget⟩ := hok (hgood hg)
      simp only [Placed, hpc] at hplaced
      obtain ⟨-, -, howns⟩ := hplaced
      obtain ⟨k, -, hsome, -⟩ := howns.appends
      simp [hget] at hsome
    obtain ⟨hchild, k, hk, hlog⟩ := hlog
    exact ⟨hchild, .inr ⟨rfl, hbad, k, hk, h, s.parent.pc, hlog, by rw [hcheck]; rfl⟩⟩
  | exec u fdAsStr hu hpc =>
    obtain ⟨c, fd, before, w, hwait, howns, hbefore, rfl, hchild⟩ := hplaced.exists_wait hu
    simp only [ChildPlaced, hpc] at hchild
    obtain ⟨rfl, n, rfl, hfits, happends⟩ := hchild
    rw [List.append_nil]
    exact Placed.child_move hwait howns hbefore ⟨rfl, _, n, rfl, hfits, happends.exec⟩
  | main u name fdAsStr fd' hu hpc hfd =>
    obtain ⟨c, fd, before, w, hwait, howns, hbefore, rfl, hchild⟩ := hplaced.exists_wait hu
    simp only [ChildPlaced, hpc] at hchild
    obtain ⟨rfl, name', n, hargv, hfits, hinherited⟩ := hchild
    obtain ⟨rfl, rfl⟩ : name = name' ∧ fdAsStr = Memory.toString n := by simpa using hargv
    obtain rfl : (n : ℤ) = fd' := Option.some.inj ((Memory.stoi_toString hfits).symm.trans hfd)
    rw [List.append_nil]
    exact Placed.child_move hwait howns hbefore ⟨rfl, n, rfl, hinherited⟩
  | badArgs u argv pc es hu hpc hended hbad =>
    obtain ⟨name, fd, rfl, hstoi⟩ := hplaced.exists_argv hu hpc
    simp [hbad name _ rfl] at hstoi
  | write o u fd' n d hu hpc hget hn =>
    obtain ⟨c, fd, before, w, hwait, howns, hbefore, rfl, hchild⟩ := hplaced.exists_wait hu
    simp only [ChildPlaced, hpc] at hchild
    obtain ⟨rfl, m, rfl, hinherited⟩ := hchild
    rw [lookup_natCast] at hget
    rw [List.append_nil]
    cases c with
    | true => simp [Inherited, hget] at hinherited
    | false =>
      refine Placed.child_move (s := { s with files := s.files.write d.file (message.take n) })
        hwait (howns.files_write _ _) hbefore ⟨rfl, ⟨n, fun hg => hn (hgood hg), rfl⟩, m, rfl, ?_⟩
      exact hinherited.files_write _ _
  | childClose u fd' d hu hpc hget =>
    obtain ⟨c, fd, before, w, hwait, howns, hbefore, rfl, hchild⟩ := hplaced.exists_wait hu
    simp only [ChildPlaced, hpc] at hchild
    obtain ⟨rfl, ⟨n, hstored, rfl⟩, -⟩ := hchild
    rw [List.append_assoc]
    refine Placed.child_move hwait howns hbefore ⟨.success n hstored, fun hg => ?_⟩
    rw [hstored hg, List.take_length]
    rfl
  | childFail o u e hu hcheck hok =>
    obtain ⟨c, fd, before, w, hwait, howns, hbefore, rfl, hchild⟩ := hplaced.exists_wait hu
    rw [List.append_assoc]
    exact Placed.child_move hwait howns hbefore (hchild.fail hgood hcheck hok)

theorem Appends.content_write {fd : ℕ} {d : Descriptor} (h : Appends fs t fd c)
    (hget : t.get fd = some d) {stored : List UInt8} (hcontent : fs.content path = some stored)
    (data : List UInt8) :
    (fs.write d.file data).content =
      Function.update fs.content path (some (stored ++ data)) := by
  obtain ⟨k, o, hsome, ho, hpath, happend⟩ := h
  obtain rfl : d = ⟨k, c⟩ := Option.some.inj (hget.symm.trans hsome)
  rw [← hpath] at hcontent
  rw [Files.write_of_end ho hcontent (.inl happend), hpath]

/-- **A step appends what it stores.** -/
theorem Contains.move (hcontains : Contains fs₀ s h) (hplaced : Placed good t₀ s h)
    (hmove : Move s o s' es) : Contains fs₀ s' (h ++ es) := by
  -- Most steps store nothing.
  have hkept : s'.files = s.files → bytes es = [] → (s.parent.pc = .openFile false →
      es = [openFailed] ∧ s'.parent.pc = .exited exitFailure) →
      (∀ status, s.parent.pc ≠ .exited status) → Contains fs₀ s' (h ++ es) := by
    intro hfiles hes hopen hexited
    rcases hcontains with ⟨hcontent, ⟨rfl, hpc⟩ | ⟨-, hpc⟩⟩ | hcontent
    · obtain ⟨rfl, hpc'⟩ := hopen hpc
      exact .inl ⟨by rw [hfiles, hcontent], .inr ⟨rfl, hpc'⟩⟩
    · exact absurd hpc (hexited _)
    · exact .inr (by rw [hfiles, hcontent, bytes_append, hes, List.append_nil])
  -- While the child exists, the parent waits for it.
  have hkept' : ∀ u, s.child = some u → s'.files = s.files → bytes es = [] →
      Contains fs₀ s' (h ++ es) := by
    intro u hu hfiles hes
    obtain ⟨c, fd, -, -, hpc, -⟩ := hplaced.exists_wait hu
    exact hkept hfiles hes (by simp [hpc]) (by simp [hpc])
  cases hmove with
  | openFile c hpc hfits =>
    right
    rcases hcontains with ⟨hcontent, ⟨rfl, -⟩ | ⟨-, hexited⟩⟩ | hcontent
    · simp [Files.openPath, hcontent]
    · simp [hpc] at hexited
    · simp [Files.openPath, hcontent]
  | fork c fd hpc => exact hkept rfl rfl (by simp [hpc]) (by simp [hpc])
  | wait c fd hpc hended => exact hkept rfl rfl (by simp [hpc]) (by simp [hpc])
  | close c fd d hpc hget => exact hkept rfl rfl (by simp [hpc]) (by simp [hpc])
  | fail o e hcheck hok =>
    refine hkept rfl (Pc.bytes_check hcheck) (fun hpc => ⟨?_, rfl⟩) fun status hpc => ?_
    · rw [hpc] at hcheck
      rw [Option.some.inj hcheck]
    · simp [hpc, Pc.check] at hcheck
  | write o u fd n d hu hpc hget hn =>
    obtain ⟨c, fd', before, w, hpc', howns, hbefore, rfl, hchild⟩ := hplaced.exists_wait hu
    simp only [ChildPlaced, hpc] at hchild
    obtain ⟨rfl, m, rfl, hinherited⟩ := hchild
    rw [lookup_natCast] at hget
    cases c with
    | true => simp [Inherited, hget] at hinherited
    | false =>
      have happends : Appends s.files u.table m false := hinherited
      right
      rcases hcontains with ⟨-, ⟨-, hopen⟩ | ⟨-, hopen⟩⟩ | hcontent
      · simp [hpc'] at hopen
      · simp [hpc'] at hopen
      · have hpath : s.files.content path =
            some ((fs₀.content path).getD [] ++ bytes (before ++ [])) := by simp [hcontent]
        rw [happends.content_write hget hpath, hcontent, Function.update_idem]
        simp [bytes_append]
  | exec u fdAsStr hu hpc => exact hkept' u hu rfl rfl
  | main u name fdAsStr fd' hu hpc hfd => exact hkept' u hu rfl rfl
  | badArgs u argv pc es hu hpc hended hbad =>
    obtain ⟨name, fd, rfl, hstoi⟩ := hplaced.exists_argv hu hpc
    simp [hbad name _ rfl] at hstoi
  | childClose u fd' d hu hpc hget => exact hkept' u hu rfl rfl
  | childFail o u e hu hcheck hok => exact hkept' u hu rfl (ChildPc.bytes_check hcheck)

/-- Nothing goes wrong that `good` excludes. -/
def Uneventful (good : Prop) (_ : State) (x : Proc × Outcome) : Prop := good → x.2 = .ok

instance (good : Prop) [Decidable good] (s : State) (x : Proc × Outcome) :
    Decidable (Uneventful good s x) :=
  inferInstanceAs (Decidable (good → x.2 = .ok))

theorem placed_of_run
    (hrun : (execFd fs₀ t₀).RunIf (Uneventful good) (execFd fs₀ t₀).init h s) :
    Placed good t₀ s h ∧ Contains fs₀ s h := by
  refine hrun.invariant (fun s h => Placed good t₀ s h ∧ Contains fs₀ s h)
    ⟨⟨rfl, rfl, fun _ => rfl⟩, .inl ⟨rfl, .inl ⟨rfl, rfl⟩⟩⟩ ?_
  rintro h s s' es x - ⟨hplaced, hcontains⟩ hgood hnext
  have hmove := move_of_next hnext
  exact ⟨hplaced.move hgood hmove, hcontains.move hplaced hmove⟩

/-! ### The end of the processes -/

/-- The steps that the parent can still take, those of its children included. -/
def Pc.size : Pc → ℕ
  | .openFile c => 8 + if c then 0 else 8
  | .fork c _ => 7 + if c then 0 else 8
  | .wait c _ => 2 + if c then 0 else 8
  | .close c _ => 1 + if c then 0 else 8
  | .exited _ => 0

/-- The steps that the child can still take. -/
def ChildPc.size : ChildPc → ℕ
  | .exec _ => 4
  | .main _ => 3
  | .write _ => 2
  | .close _ => 1
  | .exited _ | .aborted => 0

theorem Pc.size_pos {pc : Pc} {e : Event} (hcheck : pc.check = some e) : 0 < pc.size := by
  cases pc with
  | wait | exited => contradiction
  | _ => simp only [Pc.size]; omega

theorem ChildPc.size_eq_zero {pc : ChildPc} (hended : pc.ended = true) : pc.size = 0 := by
  cases pc <;> simp_all [ChildPc.ended, ChildPc.size]

theorem ChildPc.size_pos {pc : ChildPc} {e : Event} (hcheck : pc.check = some e) :
    0 < pc.size := by
  cases pc <;> simp_all [ChildPc.check, ChildPc.size]

/-- The steps that are left. -/
def State.size (s : State) : ℕ := s.parent.pc.size + s.child.elim 0 fun u => u.pc.size

theorem State.size_of_child (hu : s.child = some u) :
    s.size = s.parent.pc.size + u.pc.size := by
  simp [State.size, hu]

theorem Move.size_lt (hfork : ∀ c fd, s.parent.pc = .fork c fd → s.child = none)
    (hmove : Move s o s' es) : s'.size < s.size := by
  -- A step of the child is one of its program counter.
  have hchild : ∀ (u u' : Task ChildPc) (files : Files String), s.child = some u →
      u'.pc.size < u.pc.size → State.size ⟨files, s.parent, some u'⟩ < s.size := by
    intro u u' files hu hlt
    rw [State.size_of_child hu, State.size_of_child rfl]
    exact Nat.add_lt_add_left hlt _
  cases hmove with
  | openFile c hpc hfits => simp [State.size, hpc, Pc.size]
  | fork c fd hpc =>
    simp only [State.size, hpc, hfork c fd hpc, Pc.size, ChildPc.size, Option.elim]
    omega
  | wait c fd hpc hended =>
    simp only [State.size, hpc, Pc.size, Option.elim]
    omega
  | close c fd d hpc hget => cases c <;> simp [State.size, hpc, Pc.size]
  | fail o e hcheck hok =>
    have hpos := Pc.size_pos hcheck
    simp only [State.size, Pc.size.eq_5]
    omega
  | exec u fdAsStr hu hpc => exact hchild u _ _ hu (by simp [hpc, ChildPc.size])
  | main u name fdAsStr fd' hu hpc hfd => exact hchild u _ _ hu (by simp [hpc, ChildPc.size])
  | badArgs u argv pc es hu hpc hended hbad =>
    refine hchild u _ _ hu ?_
    rw [ChildPc.size_eq_zero hended, hpc]
    exact Nat.succ_pos 2
  | write o u fd n d hu hpc hget hn => exact hchild u _ _ hu (by simp [hpc, ChildPc.size])
  | childClose u fd' d hu hpc hget => exact hchild u _ _ hu (by simp [hpc, ChildPc.size])
  | childFail o u e hu hcheck hok => exact hchild u _ _ hu (ChildPc.size_pos hcheck)

theorem Placed.child_eq_none (hplaced : Placed good t₀ s h)
    (hwait : ∀ c fd, s.parent.pc ≠ .wait c fd) : s.child = none := by
  cases hu : s.child with
  | none => rfl
  | some u =>
    obtain ⟨c, fd, -, -, hpc, -⟩ := hplaced.exists_wait hu
    exact absurd hpc (hwait c fd)

theorem exists_childStep (s : State) (hended : u.pc.ended = false) :
    ∃ o, childStep s u u.pc o ≠ none := by
  cases hpc : u.pc with
  | exec fdAsStr => exact ⟨.fail, nofun⟩
  | main argv =>
    refine ⟨.ok, ?_⟩
    simp only [childStep, writer]
    split
    · split <;> exact nofun
    · exact nofun
  | write fd => exact ⟨.fail, nofun⟩
  | close fd => exact ⟨.fail, nofun⟩
  | exited status => simp [hpc, ChildPc.ended] at hended
  | aborted => simp [hpc, ChildPc.ended] at hended

/-- A state without a step is one where the parent has exited. -/
theorem Placed.exited_of_terminal (hplaced : Placed good t₀ s h)
    (hterminal : ∀ x, (execFd fs₀ t₀).next s x = none) :
    ∃ status, s.parent.pc = .exited status := by
  have hok : step s s.parent.pc .ok = none := hterminal (.parent, .ok)
  have hfail : step s s.parent.pc .fail = none := hterminal (.parent, .fail)
  cases hpc : s.parent.pc with
  | exited status => exact ⟨status, rfl⟩
  | wait c fd =>
    simp only [Placed, hpc] at hplaced
    obtain ⟨-, -, -, u, hu, -⟩ := hplaced
    have hended : u.pc.ended = true := by
      by_contra hnot
      obtain ⟨o, ho⟩ := exists_childStep s (Bool.eq_false_iff.mpr hnot)
      have hnone : next s (.child, o) = none := hterminal (.child, o)
      exact ho (by simpa [next, hu] using hnone)
    simp [step, hpc, hu, hended] at hok
  | _ => simp [step, hpc] at hfail

theorem Log.exists_history {k : ℕ} (hlog : Log good k h) (hk : k ≤ 2) (report : List Event) :
    ∃ k ≤ 2, ∃ first second, Written good first ∧ (second = [] ∨ Refused good second) ∧
      h ++ report = history first second report k := by
  match k, hk with
  | 0, _ =>
    obtain rfl : h = [] := hlog
    exact ⟨0, by decide, [], [], .nothing, .inl rfl, rfl⟩
  | 1, _ =>
    obtain ⟨first, hdone, rfl⟩ := hlog
    exact ⟨1, by decide, first, [], hdone.1, .inl rfl, by simp [history]⟩
  | 2, _ =>
    obtain ⟨first, second, hdone, hrefused, rfl⟩ := hlog
    exact ⟨2, le_rfl, first, second, hdone.1, .inr hrefused, rfl⟩

/-- What the first child has done so far. -/
theorem ChildPlaced.written (hplaced : ChildPlaced good fs false w u) : Written good w := by
  rw [ChildPlaced] at hplaced
  split at hplaced
  case h_4 =>
    obtain ⟨-, ⟨n, hstored, rfl⟩, -⟩ := hplaced
    exact .stored n hstored
  case h_5 => exact hplaced.1
  case h_6 => contradiction
  all_goals
    obtain ⟨rfl, -⟩ := hplaced
    exact .nothing

/-- What the second child has done so far. -/
theorem ChildPlaced.refused (hplaced : ChildPlaced good fs true w u) :
    w = [] ∨ Refused good w := by
  rw [ChildPlaced] at hplaced
  split at hplaced
  case h_4 =>
    obtain ⟨hc, -⟩ := hplaced
    contradiction
  case h_5 => exact .inr hplaced
  case h_6 => contradiction
  all_goals exact .inl hplaced.1

theorem Placed.exists_history (hplaced : Placed good t₀ s h) :
    ∃ k ≤ 2, ∃ first second, ∃ pc : Pc, Written good first ∧ (second = [] ∨ Refused good second) ∧
      h = history first second pc.check.toList k := by
  have hlogged : ∀ k ≤ 2, Log good k h → ∃ k ≤ 2, ∃ first second, ∃ pc : Pc,
      Written good first ∧ (second = [] ∨ Refused good second) ∧
        h = history first second pc.check.toList k := by
    intro k hk hlog
    obtain ⟨k, hk, first, second, hwritten, hrefused, hhistory⟩ := hlog.exists_history hk []
    rw [List.append_nil] at hhistory
    exact ⟨k, hk, first, second, .exited 0, hwritten, hrefused, hhistory⟩
  rw [Placed] at hplaced
  split at hplaced
  case h_1 c _ => exact hlogged c.toNat (by have := c.toNat_le; omega) hplaced.2.1
  case h_2 c _ _ => exact hlogged c.toNat (by have := c.toNat_le; omega) hplaced.2.1
  case h_3 c fd _ =>
    obtain ⟨-, before, w, u, -, hbefore, rfl, hchild⟩ := hplaced
    cases c with
    | false =>
      obtain rfl : before = [] := hbefore
      exact ⟨0, by decide, w, [], .exited 0, hchild.written, .inl rfl, by simp [history, Pc.check]⟩
    | true =>
      obtain ⟨first, hdone, rfl⟩ := hbefore
      exact ⟨1, by decide, first, w, .exited 0, hdone.1, hchild.refused,
        by simp [history, Pc.check]⟩
  case h_4 c _ _ => exact hlogged (c.toNat + 1) (Nat.succ_le_succ c.toNat_le) hplaced.2.1
  case h_5 =>
    rcases hplaced.2 with ⟨-, hlog, -⟩ | ⟨-, -, k, hk, before, pc, hlog, rfl⟩
    · exact hlogged 2 le_rfl hlog
    · obtain ⟨k, hk, first, second, hwritten, hrefused, hhistory⟩ :=
        hlog.exists_history hk pc.check.toList
      exact ⟨k, hk, first, second, pc, hwritten, hrefused, hhistory⟩

/-- The number of the descriptor that the parent has in its variable. -/
def Pc.fd : Pc → Option ℕ
  | .fork _ fd | .wait _ fd | .close _ fd => some fd
  | .openFile _ | .exited _ => none

theorem Placed.two_lt_fd (hplaced : Placed good t₀ s h) {fd : ℕ} (hfd : fd ∈ s.parent.pc.fd) :
    2 < fd := by
  rw [Placed] at hplaced
  generalize s.parent.pc = pc at hfd hplaced
  cases pc with
  | fork c n | close c n =>
    obtain rfl : n = fd := by simpa [Pc.fd] using hfd
    exact hplaced.2.2.two_lt
  | wait c n =>
    obtain rfl : n = fd := by simpa [Pc.fd] using hfd
    exact hplaced.1.two_lt
  | openFile | exited => simp [Pc.fd] at hfd

/-- **The second writer has no descriptor.** In every reachable state the file has what it had at
the start with a part of one message behind it, and the other files are as they were. The file is
none of the standard streams. What has happened is the work of the first child, then at most a
report of the second one, and at most a report of the parent: the second writer stores nothing and
prints no line, it reports its failed write. When the parent has exited successfully both children
have ended and it has the descriptors of the start. When no call fails and no write is short, the
parent can only exit successfully, with the whole message stored once and the write of the second
writer reported. Every run comes to an end, and no child is left. -/
theorem execFd_content (hrun : (execFd fs₀ t₀).Run (execFd fs₀ t₀).init h s) :
    (s.files.content = fs₀.content ∧ (h = [] ∨ h = [openFailed]) ∨ s.files.content =
        Function.update fs₀.content path (some ((fs₀.content path).getD [] ++ bytes h))) ∧
      (∀ fd ∈ s.parent.pc.fd, 2 < fd) ∧
      (∃ k ≤ 2, ∃ first second, ∃ pc : Pc, Written False first ∧
        (second = [] ∨ Refused False second) ∧ h = history first second pc.check.toList k) ∧
      (s.parent.pc = .exited exitSuccess →
        (∀ fd, s.parent.table.get fd = t₀.table.get fd) ∧
          ∃ first second, Written False first ∧ Refused False second ∧
            h = first ++ [separator] ++ second ++ [separator]) ∧
      ((execFd fs₀ t₀).RunIf (Uneventful True) (execFd fs₀ t₀).init h s →
        ∀ status, s.parent.pc = .exited status → status = exitSuccess ∧
          h = [.stored message, success, separator, writeFailed, separator]) ∧
      (execFd fs₀ t₀).Inevitable (fun _ _ => True)
        (fun s => s.child = none ∧ ∃ status, s.parent.pc = .exited status) s := by
  have hplaced : Placed False t₀ s h ∧ Contains fs₀ s h :=
    placed_of_run (hrun.mono fun _ _ _ => False.elim)
  refine ⟨?_, fun fd => hplaced.1.two_lt_fd, hplaced.1.exists_history, fun hpc => ?_,
    fun huneventful status hpc => ?_, ?_⟩
  · exact hplaced.2.imp_left fun hfiles => ⟨hfiles.1, hfiles.2.imp And.left And.left⟩
  · have hexited := hplaced.1
    simp only [Placed, hpc] at hexited
    obtain ⟨-, ⟨-, ⟨first, second, hdone, hrefused, rfl⟩, hrestored⟩ | ⟨hfailure, -⟩⟩ := hexited
    · exact ⟨hrestored, first, second, hdone.1, hrefused, rfl⟩
    · contradiction
  · have hexited := (placed_of_run huneventful).1
    simp only [Placed, hpc] at hexited
    obtain ⟨-, ⟨rfl, ⟨first, second, hdone, hrefused, rfl⟩, -⟩ | ⟨-, hbad, -⟩⟩ := hexited
    · obtain rfl : second = [writeFailed] := hrefused.resolve_right fun hexec => hexec.2 trivial
      rw [hdone.2 trivial]
      exact ⟨rfl, rfl⟩
    · exact absurd trivial hbad
  · refine Machine.inevitable_of_terminal (I := fun s => ∃ h, Placed False t₀ s h) _ State.size
      ?_ ?_ ⟨h, hplaced.1⟩
    · rintro s s' es x ⟨h, hplaced⟩ - hnext
      have hmove := move_of_next hnext
      exact ⟨⟨_, hplaced.move False.elim hmove⟩,
        hmove.size_lt fun c fd hpc => hplaced.child_eq_none (by simp [hpc])⟩
    · rintro s ⟨h, hplaced⟩ hterminal
      obtain ⟨status, hpc⟩ := hplaced.exited_of_terminal fun x => hterminal x trivial
      exact ⟨hplaced.child_eq_none (by simp [hpc]), status, hpc⟩

/-- The file has a byte, and the standard streams are a terminal. -/
def oneByte : Files String where
  content := Function.update (fun _ => none) path (some [65])
  opened := [⟨"/dev/tty", 0, false⟩]

/-- The descriptors of a program that is started in a terminal. -/
def terminalStart : Start oneByte path where
  table := List.replicate 3 (some ⟨0, false⟩)
  standard := by decide

/-- A run without failures, with two children. -/
theorem execFd_content_appended : ∃ s h,
    (execFd oneByte terminalStart).Run (execFd oneByte terminalStart).init h s ∧
      h = [.stored message, success, separator, writeFailed, separator] ∧
      s.files.content path = some (65 :: message) := by
  obtain ⟨s, h, hrun, hpc⟩ := Machine.exists_runIf_of_execIf
    (M := execFd oneByte terminalStart) (Uneventful True)
    [(.parent, .ok), (.parent, .ok), (.child, .ok), (.child, .ok), (.child, .ok), (.child, .ok),
      (.parent, .ok), (.parent, .ok), (.parent, .ok), (.parent, .ok), (.child, .ok), (.child, .ok),
      (.child, .ok), (.parent, .ok), (.parent, .ok)]
    (f := fun r => r.1.parent.pc) (b := .exited exitSuccess) (by decide)
  obtain ⟨hfiles, -, -, -, huneventful, -⟩ := execFd_content hrun.run
  obtain ⟨-, rfl⟩ := huneventful hrun _ hpc
  refine ⟨s, _, hrun.run, rfl, ?_⟩
  rcases hfiles with ⟨-, hnil | hopen⟩ | hcontent
  · contradiction
  · contradiction
  · rw [hcontent, Function.update_self]
    simp [bytes, success, separator, writeFailed, oneByte]

end ExecFd

end Multithreading.Process
