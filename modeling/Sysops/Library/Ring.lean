import Mathlib.Data.List.Basic
import Mathlib.Logic.Function.Basic

/-!
# A bounded FIFO and its ring

A bounded FIFO is what was put in and what was taken out of it, and a ring
of `n` cells holds it when the item with the number `k` is in the cell
`k % n`, from the first that was not taken on.
-/

namespace Sysops

/-- All that was put into a queue and all that was taken out, in order. -/
@[ext] structure Fifo (α : Type*) where
  put : List α
  taken : List α

namespace Fifo

variable {α : Type*} {n : Nat} {q r : Fifo α}

/-- One operation of a queue with room for `n` items. -/
inductive Step (n : Nat) : Fifo α → Fifo α → Prop where
  | put (q : Fifo α) (a : α) : q.put.length < q.taken.length + n →
      Step n q { q with put := q.put ++ [a] }
  | take (q : Fifo α) (a : α) : q.put[q.taken.length]? = some a →
      Step n q { q with taken := q.taken ++ [a] }

/-- What was put in stays put in. -/
theorem Step.put_prefix {n : Nat} {q r : Fifo α} (h : Step n q r) :
    q.put <+: r.put := by
  cases h with
  | put => exact List.prefix_append _ _
  | take => exact List.prefix_rfl

/-- First in, first out, and never more than `n` at once. -/
structure Bounded (n : Nat) (q : Fifo α) : Prop where
  inOrder : q.taken <+: q.put
  room : q.put.length ≤ q.taken.length + n

theorem Bounded.empty : Bounded n (⟨[], []⟩ : Fifo α) :=
  ⟨List.prefix_rfl, Nat.zero_le _⟩

theorem Bounded.step (h : Bounded n q) (hstep : Step n q r) :
    Bounded n r := by
  cases hstep with
  | put a hroom =>
      constructor
      · exact h.inOrder.trans (List.prefix_append _ _)
      · simp only [List.length_append, List.length_singleton]
        omega
  | take a ha =>
      obtain ⟨rest, hrest⟩ := h.inOrder
      constructor
      · rw [← hrest, List.getElem?_append_right (Nat.le_refl _),
          Nat.sub_self] at ha
        cases rest with
        | nil => cases ha
        | cons b rest =>
            cases ha
            exact ⟨rest, by rw [← hrest, List.append_assoc]; rfl⟩
      · have hroom := h.room
        simp only [List.length_append, List.length_singleton]
        omega

/-- The cells hold what was not taken. -/
def InRing (q : Fifo α) (cells : Fin n → α) : Prop :=
  ∀ (i : Fin n) k, q.taken.length ≤ k → k % n = i →
    ∀ a ∈ q.put[k]?, cells i = a

theorem inRing_empty (cells : Fin n → α) : InRing ⟨[], []⟩ cells := by
  intro i k _ _ a ha
  cases ha

/-- A new item goes into the cell of its number, where nothing is that was
not taken. -/
theorem InRing.put {cells : Fin n → α} (h : q.InRing cells)
    (hroom : q.put.length < q.taken.length + n) {i : Fin n}
    (hi : q.put.length % n = i) (a : α) :
    InRing { q with put := q.put ++ [a] } (Function.update cells i a) := by
  intro j k hk hj b hb
  rcases Nat.lt_trichotomy k q.put.length with hlt | rfl | hgt
  · have hne : j ≠ i := by
      rintro rfl
      -- two numbers less than `n` apart have different cells
      have hdiv := Nat.dvd_of_mod_eq_zero
        (Nat.sub_mod_eq_zero_of_mod_eq (hi.trans hj.symm))
      have := Nat.le_of_dvd (by omega) hdiv
      simp only at hk
      omega
    rw [Function.update_of_ne hne]
    rw [List.getElem?_append_left hlt] at hb
    exact h j k hk hj b hb
  · obtain rfl : j = i := Fin.ext (hj.symm.trans hi)
    rw [Function.update_self]
    simpa using hb
  · rw [List.getElem?_eq_none (by simp; omega)] at hb
    cases hb

/-- The oldest item is in the cell of its number. -/
theorem InRing.oldest {cells : Fin n → α} (h : q.InRing cells)
    (hsome : q.taken.length < q.put.length) {i : Fin n}
    (hi : q.taken.length % n = i) :
    q.put[q.taken.length]? = some (cells i) := by
  rw [List.getElem?_eq_getElem hsome]
  congr 1
  exact (h i _ (Nat.le_refl _) hi _ (List.getElem?_eq_getElem hsome)).symm

/-- What is taken need not be held any more. -/
theorem InRing.take {cells : Fin n → α} (h : q.InRing cells) (a : α) :
    InRing { q with taken := q.taken ++ [a] } cells := by
  intro i k hk
  apply h i k
  simp only [List.length_append, List.length_singleton] at hk
  omega

end Fifo

end Sysops
