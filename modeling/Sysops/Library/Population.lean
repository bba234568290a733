import Mathlib.Algebra.BigOperators.Group.Finset.Piecewise
import Mathlib.Algebra.Order.BigOperators.Group.Finset
import Mathlib.Data.Set.Finite.Basic

/-!
# Processes that come and go

A family of processes under numbers, only finitely many of them there. Each
has a weight, and what all of them weigh is bounded step by step: a process
that goes on moves the bound by what it moves its own weight, one that
comes adds its own, and one that goes takes nothing away from the bound.
-/

namespace Sysops

variable {ι κ : Type*} [DecidableEq ι]

/-- The processes that are there weigh at most `k` together. -/
def WeighsAtMost (w : κ → Nat) (procs : ι → Option κ) (k : Nat) : Prop :=
  ∃ S : Finset ι, (∀ p, procs p ≠ none → p ∈ S) ∧
    ∑ p ∈ S, (procs p).elim 0 w ≤ k

namespace WeighsAtMost

variable {w : κ → Nat} {procs : ι → Option κ} {k l : Nat} {p : ι} {x y : κ}

/-- The sum after the process `p` has become another. -/
theorem sum_update {S : Finset ι} (hp : p ∈ S) (procs : ι → Option κ)
    (o : Option κ) :
    ∑ q ∈ S, (Function.update procs p o q).elim 0 w + (procs p).elim 0 w =
      ∑ q ∈ S, (procs q).elim 0 w + o.elim 0 w := by
  have hupdate : (fun q => (Function.update procs p o q).elim 0 w) =
      Function.update (fun q => (procs q).elim 0 w) p (o.elim 0 w) := by
    ext q
    by_cases hq : q = p
    · subst hq
      rw [Function.update_self, Function.update_self]
    · rw [Function.update_of_ne hq, Function.update_of_ne hq]
  rw [hupdate, Finset.sum_update_of_mem hp, ← Finset.add_sum_erase S _ hp,
    Finset.sdiff_singleton_eq_erase]
  omega

omit [DecidableEq ι] in
theorem finite (h : WeighsAtMost w procs k) :
    {p | procs p ≠ none}.Finite := by
  obtain ⟨S, hS, -⟩ := h
  exact S.finite_toSet.subset hS

omit [DecidableEq ι] in
theorem le (h : WeighsAtMost w procs k) (hp : procs p = some x) : w x ≤ k := by
  obtain ⟨S, hS, hsum⟩ := h
  have hmem : p ∈ S := hS p (by rw [hp]; exact Option.some_ne_none x)
  have hone : (procs p).elim 0 w ≤ ∑ q ∈ S, (procs q).elim 0 w :=
    Finset.single_le_sum (f := fun q => (procs q).elim 0 w)
      (fun _ _ => Nat.zero_le _) hmem
  rw [hp] at hone
  exact Nat.le_trans hone hsum

/-- There is one process and no other. -/
theorem single (hother : ∀ q, q ≠ p → procs q = none)
    (hp : procs p = some x) : WeighsAtMost w procs (w x) := by
  refine ⟨{p}, fun q hq => ?_, ?_⟩
  · by_contra hne
    exact hq (hother q fun heq => hne (Finset.mem_singleton.mpr heq))
  · rw [Finset.sum_singleton, hp]
    exact Nat.le_refl _

/-- A process goes on. -/
theorem become (h : WeighsAtMost w procs k) (hp : procs p = some x)
    (hle : k + w y ≤ l + w x) :
    WeighsAtMost w (Function.update procs p (some y)) l := by
  obtain ⟨S, hS, hsum⟩ := h
  have hmem : p ∈ S := hS p (by rw [hp]; exact Option.some_ne_none x)
  refine ⟨S, fun q hq => ?_, ?_⟩
  · by_cases hqp : q = p
    · exact hqp ▸ hmem
    · rw [Function.update_of_ne hqp] at hq
      exact hS q hq
  · have hupdate := sum_update (w := w) hmem procs (some y)
    rw [hp] at hupdate
    simp only [Option.elim_some] at hupdate
    omega

/-- A process comes. -/
theorem add (h : WeighsAtMost w procs k) (hp : procs p = none) (y : κ) :
    WeighsAtMost w (Function.update procs p (some y)) (k + w y) := by
  obtain ⟨S, hS, hsum⟩ := h
  have hsub : ∑ q ∈ insert p S, (procs q).elim 0 w =
      ∑ q ∈ S, (procs q).elim 0 w := by
    refine Finset.sum_insert_of_eq_zero_if_notMem fun _ => ?_
    rw [hp]
    rfl
  refine ⟨insert p S, fun q hq => ?_, ?_⟩
  · by_cases hqp : q = p
    · exact hqp ▸ Finset.mem_insert_self p S
    · rw [Function.update_of_ne hqp] at hq
      exact Finset.mem_insert_of_mem (hS q hq)
  · have hupdate := sum_update (w := w) (Finset.mem_insert_self p S) procs
      (some y)
    rw [hp] at hupdate
    simp only [Option.elim_none, Option.elim_some] at hupdate
    omega

/-- A process goes, if it is there. -/
theorem remove (h : WeighsAtMost w procs k) (p : ι) :
    WeighsAtMost w (Function.update procs p none) k := by
  obtain ⟨S, hS, hsum⟩ := h
  refine ⟨S, fun q hq => ?_, Nat.le_trans (Finset.sum_le_sum fun q _ => ?_) hsum⟩
  · by_cases hqp : q = p
    · subst hqp
      rw [Function.update_self] at hq
      exact absurd rfl hq
    · rw [Function.update_of_ne hqp] at hq
      exact hS q hq
  · by_cases hqp : q = p
    · subst hqp
      rw [Function.update_self]
      exact Nat.zero_le _
    · rw [Function.update_of_ne hqp]

end WeighsAtMost

end Sysops
