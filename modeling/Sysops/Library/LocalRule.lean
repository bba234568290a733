import Mathlib.Data.Set.Basic
import Mathlib.Logic.Function.Iterate

/-!
# Local rules

A rule that takes the next state of a cell from the cells near it. After
`k` steps a cell depends on those within `k` times that reach; so the same
rule on a part of the cells, with everything outside kept dead, goes on as
on all cells until the border is felt.
-/

namespace Sysops.LocalRule

variable {P S : Type*} {near : P → Set P} {next : (P → S) → P → S}
  {c c' : P → S} {dead : S} {p q : P} {k : Nat}

/-- The next state of a cell depends on the cells near it. -/
def Local (near : P → Set P) (next : (P → S) → P → S) : Prop :=
  ∀ c c' p, (∀ q ∈ near p, c q = c' q) → next c p = next c' p

/-- The cells on which one depends after `k` steps. -/
def reach (near : P → Set P) : Nat → P → Set P
  | 0, p => {p}
  | k + 1, p => {r | ∃ q ∈ near p, r ∈ reach near k q}

theorem mem_reach_self (hself : ∀ p, p ∈ near p) (k : Nat) (p : P) :
    p ∈ reach near k p := by
  induction k with
  | zero => rfl
  | succ k ih => exact ⟨p, hself p, ih⟩

/-- The state of a cell after `k` steps depends on those within reach. -/
theorem iterate_eq (hlocal : Local near next)
    (h : ∀ q ∈ reach near k p, c q = c' q) :
    next^[k] c p = next^[k] c' p := by
  induction k generalizing p with
  | zero => exact h p rfl
  | succ k ih =>
      rw [Function.iterate_succ_apply', Function.iterate_succ_apply']
      exact hlocal _ _ p fun q hq => ih fun r hr => h r ⟨q, hq, hr⟩

theorem iterate_dead (hdead : next (fun _ => dead) = fun _ => dead) (k : Nat) :
    next^[k] (fun _ => dead) = fun _ => dead := by
  induction k with
  | zero => rfl
  | succ k ih => rw [Function.iterate_succ_apply', ih, hdead]

/-- Nothing comes to life out of reach of the living. -/
theorem iterate_eq_dead (hlocal : Local near next)
    (hdead : next (fun _ => dead) = fun _ => dead)
    (h : ∀ q ∈ reach near k p, c q = dead) : next^[k] c p = dead :=
  (iterate_eq hlocal h).trans (congrFun (iterate_dead hdead k) p)

/-! ## On a part of the cells -/

variable {R : Set P} [DecidablePred (· ∈ R)]

/-- The rule on the cells of `R`, with all others dead. -/
def inside (R : Set P) [DecidablePred (· ∈ R)] (dead : S)
    (next : (P → S) → P → S) (c : P → S) (p : P) : S :=
  if p ∈ R then next c p else dead

/-- With the border out of reach it does not matter. -/
theorem inside_iterate_eq (hlocal : Local near next)
    (hself : ∀ p, p ∈ near p)
    (h : ∀ q ∈ reach near k p, q ∈ R ∧ c q = c' q) :
    (inside R dead next)^[k] c p = next^[k] c' p := by
  induction k generalizing p with
  | zero => exact (h p rfl).2
  | succ k ih =>
      rw [Function.iterate_succ_apply', Function.iterate_succ_apply', inside,
        if_pos (h p (mem_reach_self hself _ p)).1]
      exact hlocal _ _ p fun q hq => ih fun r hr => h r ⟨q, hq, hr⟩

/-- While nothing lives outside, it does not matter either. -/
theorem inside_iterate (c : P → S)
    (h : ∀ j < k, ∀ p, p ∉ R → next^[j + 1] c p = dead) :
    (inside R dead next)^[k] c = next^[k] c := by
  induction k with
  | zero => rfl
  | succ k ih =>
      rw [Function.iterate_succ_apply', ih fun j hj => h j (by omega)]
      funext p
      rw [inside]
      split
      · rw [Function.iterate_succ_apply']
      · rename_i hp
        exact (h k (Nat.lt_succ_self k) p hp).symm

end Sysops.LocalRule
