import Sysops.Library.Runs
import Mathlib.Algebra.BigOperators.Group.Finset.Piecewise
import Mathlib.Data.Fintype.BigOperators
import Mathlib.Algebra.Order.BigOperators.Group.Finset

/-!
# Processes over a shared memory

Any finite number of processes, each with a local state, that take steps
one at a time: a step sees the memory and the local state of its process
and changes these two only. What the processes hold between them is
counted by weighing local states; a step moves the sum by what it moves the
weight of its own process.
-/

namespace Sysops

/-- A shared memory and a local state for each process. -/
structure Processes (P μ κ : Type*) where
  mem : μ
  proc : P → κ

namespace Processes

variable {P μ κ : Type*} [DecidableEq P]

/-- A step of the process `p`. -/
def act (f : μ → κ → Option (μ × κ)) (s : Processes P μ κ) (p : P) :
    Option (Processes P μ κ) :=
  (f s.mem (s.proc p)).map fun r => ⟨r.1, Function.update s.proc p r.2⟩

variable {f : μ → κ → Option (μ × κ)} {s t : Processes P μ κ} {p q : P}

theorem act_eq_some : s.act f p = some t ↔ ∃ m x,
    f s.mem (s.proc p) = some (m, x) ∧
      t = ⟨m, Function.update s.proc p x⟩ := by
  rw [act, Option.map_eq_some_iff]
  constructor
  · rintro ⟨⟨m, x⟩, hf, rfl⟩
    exact ⟨m, x, hf, rfl⟩
  · rintro ⟨m, x, hf, rfl⟩
    exact ⟨(m, x), hf, rfl⟩

variable [Fintype P]

/-- What all processes weigh together. -/
def total (w : κ → Nat) (proc : P → κ) : Nat :=
  ∑ p, w (proc p)

variable {w v : κ → Nat} {proc : P → κ}

theorem total_update (w : κ → Nat) (proc : P → κ) (p : P) (x : κ) :
    total w (Function.update proc p x) + w (proc p) =
      total w proc + w x := by
  have hupdate : (fun q => w (Function.update proc p x q)) =
      Function.update (fun q => w (proc q)) p (w x) := by
    ext q
    by_cases hq : q = p
    · subst hq
      rw [Function.update_self, Function.update_self]
    · rw [Function.update_of_ne hq, Function.update_of_ne hq]
  rw [total, hupdate, Finset.sum_update_of_mem (Finset.mem_univ p), total,
    ← Finset.add_sum_erase _ _ (Finset.mem_univ p), Finset.sdiff_singleton_eq_erase]
  omega

omit [DecidableEq P] in
theorem le_total (w : κ → Nat) (proc : P → κ) (p : P) :
    w (proc p) ≤ total w proc :=
  Finset.single_le_sum (f := fun p => w (proc p)) (fun _ _ => Nat.zero_le _)
    (Finset.mem_univ p)

omit [DecidableEq P] in
theorem total_eq_zero_iff :
    total w proc = 0 ↔ ∀ p, w (proc p) = 0 := by
  rw [total, Finset.sum_eq_zero_iff]
  simp

/-- A weight of at most one in total is held by one process. -/
theorem eq_of_total_le_one (h : total w proc ≤ 1) (hp : 0 < w (proc p))
    (hq : 0 < w (proc q)) : p = q := by
  by_contra hne
  have hpair : ∑ r ∈ {p, q}, w (proc r) ≤ total w proc :=
    Finset.sum_le_sum_of_subset (Finset.subset_univ _)
  rw [Finset.sum_pair hne] at hpair
  omega

/-- Where one process holds all there is of `w`, a part of it that this
process does not hold is held by nobody. -/
theorem total_eq_zero_of_holder (h : total w proc ≤ 1)
    (hp : 0 < w (proc p)) (hv : ∀ x, v x ≤ w x) (hvp : v (proc p) = 0) :
    total v proc = 0 := by
  rw [total_eq_zero_iff]
  intro q
  by_cases hq : 0 < w (proc q)
  · obtain rfl := eq_of_total_le_one h hp hq
    exact hvp
  · have := hv (proc q)
    omega

end Processes

end Sysops
