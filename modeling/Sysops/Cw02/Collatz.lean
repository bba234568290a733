import Sysops.Library.Loop
import Sysops.Library.Result
import Mathlib.Data.Nat.Find
import Mathlib.Logic.Function.Iterate
import Mathlib.Order.Bounds.Basic

/-!
# `cw02/collatz`: the convergence test

The two functions of `collatz.c` over numbers of which only some can be
represented: an operation whose value cannot be is an overflow. With all
integers there is none, and `test_collatz_convergence` counts the
applications up to the first 1, unless `max_iter` is negative.
-/

namespace Sysops.Cw02

/-- The value of an operation that is no number of its type. -/
structure Overflow where
  value : Int
  deriving DecidableEq, Repr

section Code

variable (fits : Int → Prop) [DecidablePred fits]

/-- The result of an operation. -/
def number (x : Int) : Except Overflow Int :=
  if fits x then .ok x else .error ⟨x⟩

def collatzConjecture (input : Int) : Except Overflow Int :=
  if input.tmod 2 = 0 then number fits (input.tdiv 2)
  else do
    let product ← number fits (3 * input)
    number fits (product + 1)

/-- The variables of `test_collatz_convergence`. -/
structure Locals where
  input : Int
  iterCount : Int
  deriving DecidableEq

def Locals.Continues (maxIter : Int) (s : Locals) : Prop :=
  s.input ≠ 1 ∧ s.iterCount < maxIter

instance (maxIter : Int) : DecidablePred (Locals.Continues maxIter) :=
  fun _ => inferInstanceAs (Decidable (_ ∧ _))

/-- One turn of the loop. -/
def turn (s : Locals) : Except Overflow Locals := do
  let input ← collatzConjecture fits s.input
  let iterCount ← number fits (s.iterCount + 1)
  return ⟨input, iterCount⟩

/-- What is returned after the loop. -/
def Locals.result (maxIter : Int) (s : Locals) : Int :=
  if s.input ≠ 1 ∧ s.iterCount = maxIter then -1 else s.iterCount

/-- `none` when the fuel does not suffice. -/
def testCollatzConvergence (fuel : Nat) (input maxIter : Int) :
    Option (Except Overflow Int) :=
  (loop (Locals.Continues maxIter) (turn fits) fuel ⟨input, 0⟩).map
    fun ended => ended.map (Locals.result maxIter)

/-- What `main` prints: each input with its number of steps. -/
def printed (fuel : Nat) : List (Int × Option (Except Overflow Int)) :=
  (List.range' 1 9).map fun (i : Nat) =>
    (i, testCollatzConvergence fits fuel i 19)

/-! ## Runs -/

/-- So many applications of `collatz_conjecture`. -/
def applied (n : Nat) (input : Int) : Except Overflow Int :=
  (fun x => x >>= collatzConjecture fits)^[n] (.ok input)

def Returns (input maxIter r : Int) : Prop :=
  ∃ fuel, testCollatzConvergence fits fuel input maxIter = some (.ok r)

def Overflows (input maxIter : Int) : Prop :=
  ∃ fuel v, testCollatzConvergence fits fuel input maxIter = some (.error v)

end Code

/-- All integers are numbers. -/
abbrev Unbounded (_ : Int) : Prop := True

/-! ## The sequence -/

/-- What `collatz_conjecture` computes where nothing overflows. -/
def collatz (x : Int) : Int :=
  if x.tmod 2 = 0 then x.tdiv 2 else 3 * x + 1

section Terms

variable {fits : Int → Prop} [DecidablePred fits]

/-- No operation on the way to the next term overflows. -/
def StepFits (fits : Int → Prop) (x : Int) : Prop :=
  if x.tmod 2 = 0 then fits (x.tdiv 2) else fits (3 * x) ∧ fits (3 * x + 1)

theorem number_ok {x : Int} (h : fits x) : number fits x = .ok x :=
  if_pos h

theorem number_error {x : Int} (h : ¬ fits x) :
    number fits x = .error ⟨x⟩ :=
  if_neg h

theorem collatzConjecture_ok {x : Int} (h : StepFits fits x) :
    collatzConjecture fits x = .ok (collatz x) := by
  rw [StepFits] at h
  rw [collatzConjecture, collatz]
  split at h
  · rename_i heven
    rw [if_pos heven, if_pos heven, number_ok h]
  · rename_i hodd
    rw [if_neg hodd, if_neg hodd, number_ok h.1, ok_bind, number_ok h.2]

theorem collatzConjecture_error {x : Int} (h : ¬ StepFits fits x) :
    ∃ v, collatzConjecture fits x = .error v := by
  rw [StepFits] at h
  rw [collatzConjecture]
  split at h
  · rename_i heven
    rw [if_pos heven]
    exact ⟨_, number_error h⟩
  · rename_i hodd
    rw [if_neg hodd]
    by_cases hproduct : fits (3 * x)
    · rw [number_ok hproduct, ok_bind]
      exact ⟨_, number_error fun hsum => h ⟨hproduct, hsum⟩⟩
    · rw [number_error hproduct, error_bind]
      exact ⟨_, rfl⟩

theorem stepFits_unbounded (x : Int) : StepFits Unbounded x := by
  rw [StepFits]
  split
  · trivial
  · exact ⟨trivial, trivial⟩

theorem applied_unbounded (n : Nat) (input : Int) :
    applied Unbounded n input = .ok (collatz^[n] input) := by
  induction n with
  | zero => rfl
  | succ n ih =>
      rw [applied, Function.iterate_succ_apply', Function.iterate_succ_apply']
      rw [applied] at ih
      rw [ih, ok_bind, collatzConjecture_ok (stepFits_unbounded _)]

/-! ## The loop along the sequence -/

variable {input maxIter r : Int} {j k n : Nat} {s : Locals}

/-- The loop goes on before turn `j`. -/
def Reached (input maxIter : Int) (j : Nat) : Prop :=
  collatz^[j] input ≠ 1 ∧ (j : Int) < maxIter

/-- No operation of turn `j` overflows. -/
def Succeeds (fits : Int → Prop) (input : Int) (j : Nat) : Prop :=
  StepFits fits (collatz^[j] input) ∧ fits ((j + 1 : Nat) : Int)

theorem turn_ok (h : Succeeds fits input j) :
    turn fits ⟨collatz^[j] input, j⟩ =
      .ok ⟨collatz^[j + 1] input, (j + 1 : Nat)⟩ := by
  have hcount : number fits ((j : Int) + 1) = .ok ((j + 1 : Nat) : Int) :=
    number_ok h.2
  rw [turn, collatzConjecture_ok h.1, ok_bind, hcount, ok_bind,
    Function.iterate_succ_apply']
  rfl

theorem turn_error (h : ¬ Succeeds fits input j) :
    ∃ v, turn fits ⟨collatz^[j] input, j⟩ = .error v := by
  rw [turn]
  by_cases hstep : StepFits fits (collatz^[j] input)
  · have hcount : ¬ fits ((j : Int) + 1) := fun hfits => h ⟨hstep, hfits⟩
    rw [collatzConjecture_ok hstep, ok_bind, number_error hcount]
    exact ⟨_, rfl⟩
  · obtain ⟨v, hv⟩ := collatzConjecture_error hstep
    rw [hv]
    exact ⟨v, rfl⟩

theorem loopWalk (fits : Int → Prop) [DecidablePred fits]
    (input maxIter : Int) :
    LoopWalk (Locals.Continues maxIter) (turn fits)
      (fun j s => s = ⟨collatz^[j] input, j⟩) (Reached input maxIter)
      (Succeeds fits input) fun _ => True where
  cond_iff := by
    rintro j s rfl
    exact Iff.rfl
  turn := by
    rintro j s rfl - hsucceeds
    exact ⟨_, turn_ok hsucceeds, rfl⟩
  fail := by
    rintro j s rfl - hfails
    obtain ⟨v, hv⟩ := turn_error hfails
    exact ⟨v, hv, trivial⟩

theorem returns_of_ends (fits : Int → Prop) [DecidablePred fits]
    (hgo : ∀ j < n, Reached input maxIter j ∧ Succeeds fits input j)
    (hend : ¬ Reached input maxIter n) :
    Returns fits input maxIter
      (Locals.result maxIter ⟨collatz^[n] input, n⟩) := by
  obtain ⟨t, rfl, hloop⟩ := (loopWalk fits input maxIter).ends rfl hgo hend
  refine ⟨n, ?_⟩
  rw [testCollatzConvergence]
  exact congrArg _ hloop

theorem overflows_of_fails (hgo : ∀ j < n, Reached input maxIter j ∧
    Succeeds fits input j) (hlast : Reached input maxIter n)
    (hfails : ¬ Succeeds fits input n) : Overflows fits input maxIter := by
  obtain ⟨v, -, hloop⟩ :=
    (loopWalk fits input maxIter).fails rfl hgo hlast hfails
  refine ⟨n + 1, v, ?_⟩
  rw [testCollatzConvergence]
  exact congrArg _ hloop

/-- The function ends in one way. -/
theorem testCollatzConvergence_unique {m n : Nat}
    {x y : Except Overflow Int}
    (hx : testCollatzConvergence fits m input maxIter = some x)
    (hy : testCollatzConvergence fits n input maxIter = some y) : x = y := by
  obtain ⟨a, ha, rfl⟩ := Option.map_eq_some_iff.mp hx
  obtain ⟨b, hb, rfl⟩ := Option.map_eq_some_iff.mp hy
  rw [loop_unique ha hb]

theorem returns_unique {r' : Int} (h : Returns fits input maxIter r)
    (h' : Returns fits input maxIter r') : r = r' := by
  obtain ⟨m, hm⟩ := h
  obtain ⟨n, hn⟩ := h'
  exact Except.ok.inj (testCollatzConvergence_unique hm hn)

theorem not_overflows_of_returns (h : Returns fits input maxIter r) :
    ¬ Overflows fits input maxIter := by
  rintro ⟨n, v, hn⟩
  obtain ⟨m, hm⟩ := h
  cases testCollatzConvergence_unique hm hn

/-- The first turn that the loop does not come to. -/
theorem exists_end (input maxIter : Int) : ∃ n, ¬ Reached input maxIter n ∧
    ∀ j < n, Reached input maxIter j := by
  classical
  have hlast : ∃ n, ¬ Reached input maxIter n :=
    ⟨maxIter.toNat, fun h => absurd h.2 (by omega)⟩
  refine ⟨Nat.find hlast, Nat.find_spec hlast, fun j hj => ?_⟩
  exact not_not.mp (Nat.find_min hlast hj)

end Terms

/-! ## The convergence test -/

/-- The least number of applications that take the input to 1. -/
def FirstOne (input : Int) (k : Nat) : Prop :=
  IsLeast {n | applied Unbounded n input = .ok 1} k

/-- `test_collatz_convergence` finds the first 1 within the limit, and tells
that there is none. -/
structure ConvergenceTest (input maxIter : Int) : Prop where
  steps : ∀ k : Nat, Returns Unbounded input maxIter k ↔
    (k : Int) ≤ maxIter ∧ FirstOne input k
  none : Returns Unbounded input maxIter (-1) ↔
    ¬ ∃ k : Nat, (k : Int) ≤ maxIter ∧ FirstOne input k

section Test

variable {input maxIter : Int} {k n : Nat}

theorem applied_eq_one_iff :
    applied Unbounded n input = .ok 1 ↔ collatz^[n] input = 1 := by
  rw [applied_unbounded, Except.ok.injEq]

theorem firstOne_iff : FirstOne input k ↔
    collatz^[k] input = 1 ∧ ∀ j < k, collatz^[j] input ≠ 1 := by
  constructor
  · rintro ⟨hone, hleast⟩
    refine ⟨applied_eq_one_iff.mp hone, fun j hj hone' => ?_⟩
    have hle : k ≤ j := hleast (applied_eq_one_iff.mpr hone')
    omega
  · rintro ⟨hone, hleast⟩
    refine ⟨applied_eq_one_iff.mpr hone, fun j hj => ?_⟩
    by_contra hlt
    exact hleast j (Nat.not_le.mp hlt) (applied_eq_one_iff.mp hj)

theorem le_of_reached (hmax : 0 ≤ maxIter)
    (hgo : ∀ j < n, Reached input maxIter j) : (n : Int) ≤ maxIter := by
  cases n with
  | zero => exact hmax
  | succ n =>
      have hlast : (n : Int) < maxIter := (hgo n (Nat.lt_succ_self n)).2
      omega

/-- The loop leaves at the first 1, or at the limit. -/
theorem first_one_or_none (input : Int) (hmax : 0 ≤ maxIter) :
    (∃ n : Nat, (n : Int) ≤ maxIter ∧ FirstOne input n ∧
      Returns Unbounded input maxIter n) ∨
    (∀ k : Nat, (k : Int) ≤ maxIter → collatz^[k] input ≠ 1) ∧
      Returns Unbounded input maxIter (-1) := by
  obtain ⟨n, hend, hgo⟩ := exists_end input maxIter
  have hle : (n : Int) ≤ maxIter := le_of_reached hmax hgo
  have hreturns := returns_of_ends Unbounded
    (fun j hj => ⟨hgo j hj, stepFits_unbounded _, trivial⟩) hend
  by_cases hone : collatz^[n] input = 1
  · refine .inl ⟨n, hle, firstOne_iff.mpr ⟨hone, fun j hj => (hgo j hj).1⟩, ?_⟩
    rwa [Locals.result, if_neg fun h => h.1 hone] at hreturns
  · -- no 1 so far, so that the limit is reached
    have hlimit : (n : Int) = maxIter := by
      by_contra hne
      exact hend ⟨hone, by omega⟩
    refine .inr ⟨fun k hk => ?_, ?_⟩
    · rcases Nat.lt_or_eq_of_le (show k ≤ n by omega) with hlt | rfl
      · exact (hgo k hlt).1
      · exact hone
    · rwa [Locals.result, if_pos ⟨hone, hlimit⟩] at hreturns

theorem convergenceTest_of_nonneg (hmax : 0 ≤ maxIter) :
    ConvergenceTest input maxIter := by
  rcases first_one_or_none input hmax with
    ⟨n, hle, hfirst, hreturns⟩ | ⟨hnone, hreturns⟩
  · constructor
    · intro k
      constructor
      · intro hk
        obtain rfl : k = n := Int.ofNat_inj.mp (returns_unique hk hreturns)
        exact ⟨hle, hfirst⟩
      · rintro ⟨-, hk⟩
        obtain rfl : k = n := hk.unique hfirst
        exact hreturns
    · refine iff_of_false (fun hminus => ?_) (not_not.mpr ⟨n, hle, hfirst⟩)
      have heq : (-1 : Int) = n := returns_unique hminus hreturns
      omega
  · have hno : ∀ k : Nat, ¬ ((k : Int) ≤ maxIter ∧ FirstOne input k) :=
      fun k hk => hnone k hk.1 (firstOne_iff.mp hk.2).1
    constructor
    · refine fun k => iff_of_false (fun hk => ?_) (hno k)
      have heq : (k : Int) = -1 := returns_unique hk hreturns
      omega
    · exact iff_of_true hreturns (not_exists.mpr hno)

/-- With a negative limit the loop is left at once, and the test after it
does not see that the limit was met. -/
theorem returns_zero_of_neg (hmax : maxIter < 0) :
    Returns Unbounded input maxIter 0 := by
  have hend : ¬ Reached input maxIter 0 := fun h => absurd h.2 (by omega)
  have hreturns := returns_of_ends Unbounded (fun j hj => by omega)
    hend
  have hlimit : (0 : Int) ≠ maxIter := by omega
  rwa [Locals.result, if_neg fun h => hlimit h.2] at hreturns

/-- **The convergence test is right exactly for the limits that are not
negative**, whatever the input is. -/
theorem convergence_test_iff (input maxIter : Int) :
    ConvergenceTest input maxIter ↔ 0 ≤ maxIter := by
  refine ⟨fun htest => ?_, convergenceTest_of_nonneg⟩
  by_contra hneg
  have hmax : maxIter < 0 := by omega
  have hminus : Returns Unbounded input maxIter (-1) := by
    refine htest.none.mpr ?_
    rintro ⟨k, hk, -⟩
    omega
  have heq : (-1 : Int) = 0 := returns_unique hminus (returns_zero_of_neg hmax)
  omega

/-- Two is said to have come to 1 in no step. -/
theorem convergence_test_negative_limit :
    Returns Unbounded 2 (-1) 0 ∧ ¬ ConvergenceTest 2 (-1) := by
  have hzero : Returns Unbounded 2 (-1) 0 := ⟨0, rfl⟩
  refine ⟨hzero, fun htest => ?_⟩
  obtain ⟨hle, -⟩ := (htest.steps 0).mp hzero
  exact absurd hle (by decide)

end Test

end Sysops.Cw02
