import Mathlib.Data.List.Basic
import Mathlib.Logic.Function.Basic

/-!
# Linked chains

A singly linked chain in a memory of cells, given by the function that reads the link of a cell.
A chain spells the list of the cells that following the links from a pointer visits, the last link
being null. A chain determines its list, so it cannot visit a cell twice: a finite chain is
acyclic.

## Main definitions

* `Linked` — following the links from a pointer visits exactly the cells of a list.
* `Circular` — the same for a circular list with a sentinel.

## Main results

* `Linked.unique`, `Linked.nodup` — a chain determines its list, which has no repetition.
* `Linked.congr` — a chain depends only on the links of its own cells.
* `Circular.append`, `Circular.tail` — the link that adds a cell at the end, and the link that takes
  the first cell out.
-/

namespace Memory

variable {β : Type*}

/-- Following the links `next` from the pointer `p` visits the cells of the list and ends at
null. -/
def Linked (next : β → Option β) : Option β → List β → Prop
  | p, [] => p = none
  | p, a :: as => p = some a ∧ Linked next (next a) as

variable {next next' : β → Option β} {p : Option β} {a : β} {as bs : List β}

@[simp] theorem linked_nil : Linked next p [] ↔ p = none := Iff.rfl

@[simp] theorem linked_cons : Linked next p (a :: as) ↔ p = some a ∧ Linked next (next a) as :=
  Iff.rfl

/-- A chain determines its list. -/
theorem Linked.unique (h₁ : Linked next p as) (h₂ : Linked next p bs) : as = bs := by
  induction as generalizing p bs with
  | nil =>
    cases bs with
    | nil => rfl
    | cons b bs => exact absurd (h₁.symm.trans h₂.1) (by simp)
  | cons a as ih =>
    cases bs with
    | nil => exact absurd (h₁.1.symm.trans h₂) (by simp)
    | cons b bs =>
      obtain rfl : a = b := Option.some.inj (h₁.1.symm.trans h₂.1)
      rw [ih h₁.2 h₂.2]

/-- From every cell of a chain the rest of the chain goes on. -/
theorem Linked.of_mem (h : Linked next p as) (ha : a ∈ as) :
    ∃ bs, Linked next (next a) bs ∧ bs.length < as.length := by
  induction as generalizing p with
  | nil => simp at ha
  | cons b as ih =>
    rcases List.mem_cons.mp ha with rfl | ha
    · exact ⟨as, h.2, by simp⟩
    · obtain ⟨bs, hbs, hlt⟩ := ih h.2 ha
      exact ⟨bs, hbs, Nat.lt_succ_of_lt hlt⟩

/-- A chain visits no cell twice. -/
theorem Linked.nodup (h : Linked next p as) : as.Nodup := by
  induction as generalizing p with
  | nil => exact List.nodup_nil
  | cons a as ih =>
    refine List.nodup_cons.mpr ⟨fun ha => ?_, ih h.2⟩
    obtain ⟨bs, hbs, hlt⟩ := h.2.of_mem ha
    exact absurd hlt (by rw [hbs.unique h.2]; exact Nat.lt_irrefl _)

/-- A chain depends only on the links of its own cells. -/
theorem Linked.congr (h : Linked next p as) (heq : ∀ a ∈ as, next' a = next a) :
    Linked next' p as := by
  induction as generalizing p with
  | nil => exact h
  | cons a as ih =>
    refine ⟨h.1, ?_⟩
    rw [heq a List.mem_cons_self]
    exact ih h.2 fun b hb => heq b (List.mem_cons_of_mem _ hb)

theorem Linked.eq_cons (h : Linked next (some a) as) :
    ∃ bs, as = a :: bs ∧ Linked next (next a) bs := by
  cases as with
  | nil => exact absurd h (by simp)
  | cons b bs =>
    obtain rfl : a = b := Option.some.inj h.1
    exact ⟨bs, rfl, h.2⟩

/-! ### Circular lists -/

section Circular

variable {next : Option β → Option β}

/-- The cells of a circular list in their order, the links leading from the sentinel `none` through
the cells and back to the sentinel. -/
def Circular (next : Option β → Option β) (as : List β) : Prop :=
  Linked (fun a => next (some a)) (next none) as

theorem Circular.next_none (h : Circular next as) : next none = as.head? := by
  cases as with
  | nil => exact h
  | cons a as => exact h.1

theorem Circular.eq_cons (h : Circular next as) (ha : next none = some a) :
    ∃ bs, as = a :: bs := by
  rw [Circular, ha] at h
  obtain ⟨bs, rfl, -⟩ := Linked.eq_cons h
  exact ⟨bs, rfl⟩

theorem Circular.next_head (h : Circular next (a :: as)) : next (some a) = as.head? := by
  cases as with
  | nil => exact h.2
  | cons b as => exact h.2.1

variable [DecidableEq β]

theorem Circular.update_of_notMem (h : Circular next as) (ha : a ∉ as) (p : Option β) :
    Circular (Function.update next (some a) p) as := by
  rw [Circular, Function.update_of_ne (by simp)]
  refine Linked.congr h fun b hb => Function.update_of_ne ?_ _ _
  rintro ⟨⟩
  exact ha hb

/-- Linking the sentinel to the second cell takes the first cell out. -/
theorem Circular.tail (h : Circular next (a :: as)) :
    Circular (Function.update next none (next (some a))) as := by
  have htail : Linked (fun b => next (some b)) (next (some a)) as := h.2
  rw [Circular, Function.update_self]
  exact htail.congr fun b _ => Function.update_of_ne (by simp) _ _

/-- A chain that ends at its last cell goes on with a cell that is linked there. -/
private theorem Linked.snoc {next : Option β → Option β} {p : Option β}
    (h : Linked (fun b => next (some b)) p (as ++ [a])) {b : β} (hb : next (some b) = none)
    (hmem : b ∉ as ++ [a]) :
    Linked (fun c => Function.update next (some a) (some b) (some c)) p (as ++ [a] ++ [b]) := by
  have hnodup := h.nodup
  induction as generalizing p with
  | nil =>
    have hba : b ≠ a := by simpa using hmem
    simpa [hba, hb] using h.1
  | cons c as ih =>
    have hca : c ≠ a := by
      rintro rfl
      simp at hnodup
    refine ⟨h.1, ?_⟩
    have hnext : Function.update next (some a) (some b) (some c) = next (some c) :=
      Function.update_of_ne (by simpa using hca) _ _
    simp only [hnext]
    exact ih h.2 (fun hb => hmem (List.mem_cons_of_mem _ hb)) (List.nodup_cons.mp hnodup).2

/-- Linking the last cell, or the sentinel of an empty list, to a new cell that leads back to the
sentinel adds this cell at the end. -/
theorem Circular.append (h : Circular next as) (ha : next (some a) = none) (hmem : a ∉ as) :
    Circular (Function.update next as.getLast? (some a)) (as ++ [a]) := by
  rcases List.eq_nil_or_concat as with rfl | ⟨bs, b, rfl⟩
  · simpa [Circular] using ha
  · rw [List.concat_eq_append] at h hmem ⊢
    rw [Circular, List.getLast?_concat, Function.update_of_ne (by simp)]
    exact Linked.snoc h ha hmem

end Circular

end Memory
