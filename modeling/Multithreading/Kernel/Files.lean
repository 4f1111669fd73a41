import Mathlib.Data.List.Basic
import Mathlib.Logic.Function.Basic
import Mathlib.Order.Nat

/-!
# Files and descriptors

What a kernel does for `open`, `write`, `close`, `fork` and `exec`. A descriptor of a process refers
to an open file description, which has the offset; `fork` copies the descriptors and not the
descriptions, so the processes share the offset. A write goes to the offset, or to the end of the
file when the description was opened for appending, and leaves the offset behind what it has stored.

## Main definitions

* `OpenFile`, `Files` — open file descriptions, and the files with them.
* `Outcome` — how a call ends.
* `Table` — the descriptors of a process, with `alloc`, `close` and `exec`.
* `splice` — what a write does to the bytes of a file.
* `Start` — the descriptors with which a program is started.

## Main results

* `Table.get_alloc_self`, `Table.get_close_alloc` — the descriptor that `alloc` returns.
* `Files.write_of_end` — a write at the end appends.
-/

namespace Kernel

variable {κ : Type*}

/-- An open file description. -/
@[ext]
structure OpenFile (κ : Type*) where
  path : κ
  offset : ℕ
  append : Bool
  deriving DecidableEq

/-- What a descriptor refers to: the number of an open file description, and whether `exec` closes
the descriptor. -/
structure Descriptor where
  file : ℕ
  cloexec : Bool
  deriving DecidableEq

/-- How a call ends: it does what is asked, it stores only some bytes, or it returns `-1`. -/
inductive Outcome
  | ok
  | short (stored : ℕ)
  | fail
  deriving DecidableEq

/-- The values with which a process exits. -/
def exitSuccess : ℕ := 0

@[inherit_doc exitSuccess]
def exitFailure : ℕ := 1

/-! ### The descriptors of a process -/

/-- The descriptors of a process, each at its number. -/
abbrev Table := List (Option Descriptor)

namespace Table

/-- What a number refers to. -/
def get (t : Table) (fd : ℕ) : Option Descriptor := t[fd]?.join

/-- The lowest free number. -/
def free (t : Table) : ℕ := t.findIdx Option.isNone

/-- The table with a new descriptor at the lowest free number. -/
def alloc (t : Table) (d : Descriptor) : Table :=
  if t.free < t.length then t.set t.free (some d) else t ++ [some d]

/-- The table after closing a descriptor. -/
def close (t : Table) (fd : ℕ) : Table := t.set fd none

/-- The table after replacing the program of the process. -/
def exec (t : Table) : Table := t.map fun d => d.filter (!·.cloexec)

variable (t : Table) (d : Descriptor) (fd : ℕ)

theorem free_le_length : t.free ≤ t.length := List.findIdx_le_length

theorem get_free : t.get t.free = none := by
  rcases t.free_le_length.lt_or_eq with h | h
  · have hnone : t[t.free].isNone = true := List.findIdx_getElem
    rw [get, List.getElem?_eq_getElem h, Option.join_some, Option.isNone_iff_eq_none.mp hnone]
  · simp [get, h]

@[simp] theorem get_alloc_self : (t.alloc d).get t.free = some d := by
  rw [alloc]
  split_ifs with h
  · simp [get, h]
  · have hfree : t.free = t.length := le_antisymm t.free_le_length (not_lt.mp h)
    simp [get, hfree]

variable {fd} in
theorem get_alloc_of_ne (h : fd ≠ t.free) : (t.alloc d).get fd = t.get fd := by
  rw [alloc]
  split_ifs with hlt
  · simp [get, List.getElem?_set_ne (Ne.symm h)]
  · have hfree : t.free = t.length := le_antisymm t.free_le_length (not_lt.mp hlt)
    rw [hfree] at h
    rcases lt_or_gt_of_ne h with h | h
    · simp [get, List.getElem?_append_left h]
    · have hout : (t ++ [some d]).length ≤ fd := by
        rw [List.length_append]
        exact h
      rw [get, get, List.getElem?_eq_none hout, List.getElem?_eq_none h.le]

@[simp] theorem get_close_self : (t.close fd).get fd = none := by
  simp only [get, close, List.getElem?_set]
  split_ifs <;> simp

variable {fd} in
theorem get_close_of_ne {fd' : ℕ} (h : fd' ≠ fd) : (t.close fd).get fd' = t.get fd' := by
  simp [get, close, List.getElem?_set_ne (Ne.symm h)]

/-- Closing the descriptor that has just been opened gives back what was there. -/
theorem get_close_alloc : ((t.alloc d).close t.free).get fd = t.get fd := by
  by_cases h : fd = t.free
  · rw [h, get_close_self, get_free]
  · rw [get_close_of_ne _ h, get_alloc_of_ne _ _ h]

/-- `exec` keeps the descriptors that are not marked. -/
theorem get_exec : t.exec.get fd = (t.get fd).filter (!·.cloexec) := by
  simp only [get, exec, List.getElem?_map]
  cases t[fd]? <;> rfl

end Table

/-! ### The files -/

/-- The bytes of a file after a write of `data` at a position, with zeros up to the position. -/
def splice (bytes : List UInt8) (pos : ℕ) (data : List UInt8) : List UInt8 :=
  bytes.take pos ++ List.replicate (pos - bytes.length) 0 ++ data ++ bytes.drop (pos + data.length)

/-- A write at the end appends. -/
theorem splice_length_self (bytes data : List UInt8) :
    splice bytes bytes.length data = bytes ++ data := by
  simp [splice]

/-- The flags of `open`. -/
structure Flags where
  trunc : Bool
  append : Bool
  cloexec : Bool

/-- The bytes of the files that exist, and the open file descriptions in the order of their
creation. -/
structure Files (κ : Type*) where
  content : κ → Option (List UInt8)
  opened : List (OpenFile κ)

namespace Files

variable [DecidableEq κ]

/-- The files after `open` with `O_CREAT`. -/
def openPath (fs : Files κ) (path : κ) (flags : Flags) : Files κ where
  content := Function.update fs.content path
    (some (if flags.trunc then [] else (fs.content path).getD []))
  opened := fs.opened ++ [⟨path, 0, flags.append⟩]

/-- The files after a write of `data` to an open file description. -/
def write (fs : Files κ) (file : ℕ) (data : List UInt8) : Files κ :=
  match fs.opened[file]? with
  | none => fs
  | some o =>
    let bytes := (fs.content o.path).getD []
    let pos := if o.append then bytes.length else o.offset
    { content := Function.update fs.content o.path (some (splice bytes pos data))
      opened := fs.opened.set file { o with offset := pos + data.length } }

/-- The file to which a number refers. -/
def pathOf (fs : Files κ) (t : Table) (fd : ℕ) : Option κ :=
  (t.get fd).bind fun d => fs.opened[d.file]?.map OpenFile.path

/-- A write at the end of a file appends, and leaves the offset at the end. -/
theorem write_of_end {fs : Files κ} {file : ℕ} {o : OpenFile κ} {bytes : List UInt8}
    (ho : fs.opened[file]? = some o) (hbytes : fs.content o.path = some bytes)
    (hend : o.append = true ∨ o.offset = bytes.length) (data : List UInt8) :
    fs.write file data =
      { content := Function.update fs.content o.path (some (bytes ++ data))
        opened := fs.opened.set file { o with offset := (bytes ++ data).length } } := by
  have hpos : (if o.append then bytes.length else o.offset) = bytes.length := by
    rcases hend with h | h <;> simp [h]
  simp only [write, ho, hbytes, Option.getD_some, hpos, splice_length_self, List.length_append]

theorem exists_opened_write {fs : Files κ} {i : ℕ} {o : OpenFile κ} (ho : fs.opened[i]? = some o)
    (file : ℕ) (data : List UInt8) :
    ∃ offset, (fs.write file data).opened[i]? = some { o with offset := offset } := by
  rw [write]
  split
  · exact ⟨o.offset, ho⟩
  · rename_i o' ho'
    by_cases hi : i = file
    · subst hi
      obtain rfl : o' = o := Option.some.inj (ho'.symm.trans ho)
      exact ⟨_, by rw [List.getElem?_set_self (List.getElem?_eq_some_iff.mp ho).1]⟩
    · exact ⟨o.offset, by rw [List.getElem?_set_ne (Ne.symm hi), ho]⟩

end Files

/-- The descriptors with which a program is started that opens the file `path`. The standard streams
are open and none of them is the file, so what is printed does not go to the file. -/
structure Start (fs : Files κ) (path : κ) where
  table : Table
  standard : ∀ fd < 3, ∃ q ∈ fs.pathOf table fd, q ≠ path

/-- What such a program opens gets a number behind the standard streams. -/
theorem Start.two_lt_free {fs : Files κ} {path : κ} (t₀ : Start fs path) : 2 < t₀.table.free := by
  by_contra hle
  obtain ⟨q, hq, -⟩ := t₀.standard t₀.table.free (by omega)
  simp [Files.pathOf, Table.get_free] at hq

end Kernel
