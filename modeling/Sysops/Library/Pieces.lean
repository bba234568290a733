import Mathlib.Algebra.BigOperators.Group.List.Basic
import Mathlib.Algebra.Order.Ring.Nat
import Mathlib.Order.Interval.Set.Basic
import Mathlib.Order.Monotone.Basic
import Mathlib.Data.List.Induction

/-!
# Work cut into pieces

An interval of numbers is cut at increasing points, so that each number is
in one piece; and pieces of an array that are filled in any order give
together what the whole would have given.
-/

namespace Sysops

namespace Pieces

/-! ## Cuts -/

variable {cut : Nat → Nat} {n x : Nat}

/-- Between the first and the last cut, a number is in one piece. -/
theorem existsUnique_piece (hcut : Monotone cut) (hfirst : cut 0 ≤ x)
    (hlast : x < cut n) : ∃! i, i < n ∧ cut i ≤ x ∧ x < cut (i + 1) := by
  induction n with
  | zero => omega
  | succ n ih =>
      by_cases hx : x < cut n
      · obtain ⟨i, ⟨hi, hlow, hhigh⟩, hunique⟩ := ih hx
        refine ⟨i, ⟨by omega, hlow, hhigh⟩, ?_⟩
        rintro j ⟨hj, hjlow, hjhigh⟩
        have hjn : j ≠ n := by
          rintro rfl
          omega
        exact hunique j ⟨by omega, hjlow, hjhigh⟩
      · refine ⟨n, ⟨by omega, by omega, hlast⟩, ?_⟩
        rintro j ⟨hj, -, hjhigh⟩
        by_contra hne
        have hle := hcut (show j + 1 ≤ n by omega)
        omega

/-- The sum over all pieces is the sum over the whole. -/
theorem sum_pieces {M : Type*} [AddMonoid M] (f : Nat → M)
    (hcut : Monotone cut) (hfirst : cut 0 = 0) (n : Nat) :
    ((List.range n).map fun i =>
      ((List.range (cut (i + 1) - cut i)).map fun j => f (cut i + j)).sum).sum =
      ((List.range (cut n)).map f).sum := by
  induction n with
  | zero => rw [hfirst]; rfl
  | succ n ih =>
      have hle : cut n ≤ cut (n + 1) := hcut (Nat.le_succ n)
      have hsplit : cut (n + 1) = cut n + (cut (n + 1) - cut n) := by omega
      rw [List.range_succ, List.map_append, List.sum_append, ih, hsplit,
        List.range_add, List.map_append, List.sum_append, List.map_map]
      simp only [List.map_cons, List.map_nil, List.sum_cons, List.sum_nil,
        add_zero]
      rfl

/-- The intervals between neighbouring cuts cover what lies between the
first and the last. -/
theorem exists_between_cuts_iff {α : Type*} [LinearOrder α] {cut : Nat → α}
    (hcut : Monotone cut) (n : Nat) {x : α} :
    (∃ k < n + 1, x ∈ Set.Icc (cut k) (cut (k + 1))) ↔
      x ∈ Set.Icc (cut 0) (cut (n + 1)) := by
  constructor
  · rintro ⟨k, hk, hlow, hhigh⟩
    exact ⟨le_trans (hcut (Nat.zero_le k)) hlow, le_trans hhigh (hcut hk)⟩
  · rintro ⟨hlow, hhigh⟩
    induction n with
    | zero => exact ⟨0, Nat.one_pos, hlow, hhigh⟩
    | succ n ih =>
        rcases le_total x (cut (n + 1)) with hle | hge
        · obtain ⟨k, hk, hx⟩ := ih hle
          exact ⟨k, Nat.lt_succ_of_lt hk, hx⟩
        · exact ⟨n + 1, Nat.lt_succ_self _, hge, hhigh⟩

/-- The cut `i` of `n` equal parts of `size`, rounded down. -/
def equalCut (size n i : Nat) : Nat := i * size / n

variable {size : Nat}

theorem equalCut_zero (size n : Nat) : equalCut size n 0 = 0 := by
  rw [equalCut, Nat.zero_mul, Nat.zero_div]

theorem equalCut_last (hn : 0 < n) : equalCut size n n = size :=
  Nat.mul_div_cancel_left size hn

theorem equalCut_mono (size n : Nat) : Monotone (equalCut size n) := by
  intro i j hij
  exact Nat.div_le_div_right (Nat.mul_le_mul_right size hij)

/-- With no more parts than numbers, no part is empty. -/
theorem equalCut_lt_succ (hn : 0 < n) (hsize : n ≤ size) (i : Nat) :
    equalCut size n i < equalCut size n (i + 1) := by
  have hstep : i * size / n + 1 ≤ (i * size + size) / n := by
    rw [← Nat.add_div_right _ hn]
    exact Nat.div_le_div_right (Nat.add_le_add_left hsize _)
  rw [equalCut, equalCut, Nat.succ_mul]
  omega

/-! ## Filling -/

variable {ι α β : Type*} {piece : ι → α → Prop}
  {target : α → β} {fill : (α → β) → ι → α → β}

/-- Pieces filled one after the other, in any order and also more than
once. -/
theorem foldl_fill_of_mem
    (hin : ∀ a i x, piece i x → fill a i x = target x)
    (hout : ∀ a i x, ¬ piece i x → fill a i x = a x) {order : List ι}
    {x : α} (h : ∃ i ∈ order, piece i x) (a : α → β) :
    order.foldl fill a x = target x := by
  induction order using List.reverseRecOn with
  | nil => simp at h
  | append_singleton order i ih =>
      rw [List.foldl_append]
      show fill (order.foldl fill a) i x = target x
      by_cases hi : piece i x
      · exact hin _ _ _ hi
      · rw [hout _ _ _ hi]
        obtain ⟨j, hj, hjx⟩ := h
        refine ih ⟨j, ?_, hjx⟩
        rcases List.mem_append.mp hj with hj | hj
        · exact hj
        · rw [List.mem_singleton.mp hj] at hjx
          exact absurd hjx hi

theorem foldl_fill_of_not_mem
    (hout : ∀ a i x, ¬ piece i x → fill a i x = a x) {order : List ι}
    {x : α} (h : ∀ i ∈ order, ¬ piece i x) (a : α → β) :
    order.foldl fill a x = a x := by
  induction order generalizing a with
  | nil => rfl
  | cons i order ih =>
      rw [List.forall_mem_cons] at h
      rw [List.foldl_cons, ih h.2, hout _ _ _ h.1]

end Pieces

end Sysops
