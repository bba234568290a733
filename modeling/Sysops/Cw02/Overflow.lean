import Sysops.Cw02.Collatz
import Mathlib.Algebra.Ring.Int.Defs

/-!
# `cw02/collatz`: the sequence in an `int`

Only the step from an odd term can leave the range of `int`. It does from
the first odd term above a third of the largest `int`, and inputs that are
themselves small come to such terms.
-/

namespace Sysops.Cw02

def intMin : Int := -2 ^ 31

def intMax : Int := 2 ^ 31 - 1

/-- The values of type `int`. -/
def FitsInt (x : Int) : Prop :=
  intMin ≤ x ∧ x ≤ intMax

instance : DecidablePred FitsInt :=
  fun _ => inferInstanceAs (Decidable (_ ∧ _))

/-- The largest number whose triple and one more is an `int`. -/
def tripleMax : Int := (intMax - 1) / 3

/-- In the limit, no odd term is too large for its step. -/
def StaysLow (input maxIter : Int) : Prop :=
  ∀ k : Nat, (k : Int) < maxIter → (collatz^[k] input).tmod 2 ≠ 0 →
    collatz^[k] input ≤ tripleMax

/-- No operation overflows, and the result is that of all integers. -/
structure WithinInt (input maxIter : Int) : Prop where
  noOverflow : ¬ Overflows FitsInt input maxIter
  sameResult : ∀ r, Returns FitsInt input maxIter r ↔
    Returns Unbounded input maxIter r

/-! ## The terms -/

variable {x input maxIter : Int} {j k n : Nat}

theorem collatz_pos (hx : 1 ≤ x) : 1 ≤ collatz x := by
  rw [collatz, Int.tdiv_eq_ediv_of_nonneg (by omega),
    Int.tmod_eq_emod_of_nonneg (by omega)]
  split <;> omega

theorem terms_pos (hinput : 1 ≤ input) (k : Nat) : 1 ≤ collatz^[k] input := by
  induction k with
  | zero => exact hinput
  | succ k ih =>
      rw [Function.iterate_succ_apply']
      exact collatz_pos ih

/-- Halving always succeeds. -/
theorem stepFits_iff (hpos : 1 ≤ x) (hle : x ≤ intMax) :
    StepFits FitsInt x ↔ (x.tmod 2 ≠ 0 → x ≤ tripleMax) := by
  simp only [StepFits, FitsInt, intMin, intMax, tripleMax] at hle ⊢
  split
  · rename_i heven
    refine iff_of_true ?_ (fun hodd => absurd heven hodd)
    rw [Int.tdiv_eq_ediv_of_nonneg (by omega)]
    omega
  · rename_i hodd
    omega

theorem collatz_le (hfits : StepFits FitsInt x) : collatz x ≤ intMax := by
  rw [StepFits] at hfits
  rw [collatz]
  split at hfits
  · rename_i heven
    rw [if_pos heven]
    exact hfits.2
  · rename_i hodd
    rw [if_neg hodd]
    exact hfits.2.2

theorem terms_le (hinput : input ≤ intMax)
    (hgo : ∀ j < n, StepFits FitsInt (collatz^[j] input)) :
    collatz^[n] input ≤ intMax := by
  cases n with
  | zero => exact hinput
  | succ n =>
      rw [Function.iterate_succ_apply']
      exact collatz_le (hgo n (Nat.lt_succ_self n))

/-- While the odd terms are low, no step overflows. -/
theorem stepFits_of_low (hpos : 1 ≤ input) (hinput : input ≤ intMax)
    (hlow : ∀ j < n, (collatz^[j] input).tmod 2 ≠ 0 →
      collatz^[j] input ≤ tripleMax) :
    ∀ j < n, StepFits FitsInt (collatz^[j] input) := by
  intro j
  induction j using Nat.strongRecOn with
  | ind j ih =>
      intro hj
      have hle : collatz^[j] input ≤ intMax :=
        terms_le hinput fun i hi => ih i hi (Nat.lt_trans hi hj)
      exact (stepFits_iff (terms_pos hpos j) hle).mpr (hlow j hj)

/-- Behind a 1 come 4, 2 and 1 for ever. -/
theorem terms_of_one (i : Nat) :
    collatz^[i] 1 = 1 ∨ collatz^[i] 1 = 4 ∨ collatz^[i] 1 = 2 := by
  induction i with
  | zero => exact .inl rfl
  | succ i ih =>
      rw [Function.iterate_succ_apply']
      rcases ih with h | h | h <;> rw [h] <;> decide

theorem ne_one_of_high (hjk : j ≤ k) (hhigh : tripleMax < collatz^[k] input) :
    collatz^[j] input ≠ 1 := by
  intro hone
  obtain ⟨i, rfl⟩ := Nat.exists_eq_add_of_le hjk
  rw [Nat.add_comm, Function.iterate_add_apply, hone] at hhigh
  rw [tripleMax, intMax] at hhigh
  rcases terms_of_one i with h | h | h <;> omega

/-! ## The loop -/

theorem count_fits (hlimit : maxIter ≤ intMax) (hj : (j : Int) < maxIter) :
    FitsInt ((j + 1 : Nat) : Int) := by
  rw [FitsInt, intMin]
  rw [intMax] at hlimit ⊢
  omega

theorem returns_of_low (hpos : 1 ≤ input) (hinput : input ≤ intMax)
    (hlimit : maxIter ≤ intMax) (hlow : StaysLow input maxIter) :
    ∃ r, Returns FitsInt input maxIter r ∧
      Returns Unbounded input maxIter r := by
  obtain ⟨n, hend, hgo⟩ := exists_end input maxIter
  have hfits := stepFits_of_low (n := n) hpos hinput
    fun j hj => hlow j (hgo j hj).2
  refine ⟨Locals.result maxIter ⟨collatz^[n] input, n⟩, ?_, ?_⟩
  · exact returns_of_ends FitsInt
      (fun j hj => ⟨hgo j hj, hfits j hj, count_fits hlimit (hgo j hj).2⟩) hend
  · exact returns_of_ends Unbounded
      (fun j hj => ⟨hgo j hj, stepFits_unbounded _, trivial⟩) hend

theorem overflows_of_high (hpos : 1 ≤ input) (hinput : input ≤ intMax)
    (hlimit : maxIter ≤ intMax) (hhigh : ¬ StaysLow input maxIter) :
    Overflows FitsInt input maxIter := by
  classical
  have hterm : ∃ k : Nat, (k : Int) < maxIter ∧
      (collatz^[k] input).tmod 2 ≠ 0 ∧ tripleMax < collatz^[k] input := by
    simpa only [StaysLow, not_forall, exists_prop, Int.not_le] using hhigh
  -- the first term that is too large, and the turns before it
  obtain ⟨hk, hodd, hlarge⟩ := Nat.find_spec hterm
  have hfirst := fun j (hj : j < Nat.find hterm) => Nat.find_min hterm hj
  generalize Nat.find hterm = k at hk hodd hlarge hfirst
  have hlow : ∀ j < k, (collatz^[j] input).tmod 2 ≠ 0 →
      collatz^[j] input ≤ tripleMax := by
    intro j hj hoddj
    by_contra hgt
    exact hfirst j hj ⟨by omega, hoddj, Int.not_le.mp hgt⟩
  have hfits := stepFits_of_low hpos hinput hlow
  have hreached : ∀ j ≤ k, Reached input maxIter j := fun j hj =>
    ⟨ne_one_of_high hj hlarge, by omega⟩
  refine overflows_of_fails
    (fun j hj => ⟨hreached j (Nat.le_of_lt hj), hfits j hj,
      count_fits hlimit (hreached j (Nat.le_of_lt hj)).2⟩)
    (hreached k (Nat.le_refl k)) fun hsucceeds => ?_
  have hle := (stepFits_iff (terms_pos hpos k)
    (terms_le hinput hfits)).mp hsucceeds.1 hodd
  exact absurd hlarge (Int.not_lt.mpr hle)

theorem toInt_le_intMax (x : Int32) : x.toInt ≤ intMax := by
  have hlt := Int32.toInt_lt x
  rw [intMax]
  omega

theorem withinInt_of_low {input maxIter : Int32} (hpos : 1 ≤ input.toInt)
    (hlow : StaysLow input.toInt maxIter.toInt) :
    WithinInt input.toInt maxIter.toInt := by
  obtain ⟨r, hr, hr'⟩ := returns_of_low hpos (toInt_le_intMax input)
    (toInt_le_intMax maxIter) hlow
  refine ⟨not_overflows_of_returns hr, fun x => ⟨fun hx => ?_, fun hx => ?_⟩⟩
  · rwa [returns_unique hx hr]
  · rwa [returns_unique hx hr']

/-- **The test stays within `int` exactly if the odd terms do not exceed a
third of the largest `int`**, for every input that is positive. -/
theorem within_int_iff (input maxIter : Int32) (hpos : 1 ≤ input.toInt) :
    WithinInt input.toInt maxIter.toInt ↔
      StaysLow input.toInt maxIter.toInt := by
  refine ⟨fun hwithin => ?_, withinInt_of_low hpos⟩
  by_contra hhigh
  exact hwithin.noOverflow (overflows_of_high hpos (toInt_le_intMax input)
    (toInt_le_intMax maxIter) hhigh)

/-- The numbers of `log.txt`. -/
example : (printed FitsInt 19).map (fun line => line.2) =
    [0, 1, 7, 2, 5, 8, 16, 3, 19].map fun k => some (.ok k) := by
  decide +kernel

/-- The last input of `main`. -/
theorem within_int_nine : 1 ≤ (9 : Int32).toInt ∧
    WithinInt (9 : Int32).toInt (19 : Int32).toInt := by
  refine ⟨by decide, (within_int_iff 9 19 (by decide)).mpr ?_⟩
  have hterms : ∀ k < 19, (collatz^[k] 9).tmod 2 ≠ 0 →
      collatz^[k] 9 ≤ tripleMax := by decide +kernel
  intro k hk
  exact hterms k (Int.ofNat_lt.mp hk)

/-- The 120th application overflows; without that, the 247th is the one
that comes to 1. -/
theorem overflow_from_113383 : Returns Unbounded 113383 247 247 ∧
    ¬ ∀ input maxIter : Int32, 1 ≤ input.toInt →
      3 * input.toInt + 1 ≤ intMax → 0 ≤ maxIter.toInt →
      WithinInt input.toInt maxIter.toInt := by
  refine ⟨⟨247, by decide +kernel⟩, fun hclaim => ?_⟩
  have hwithin := hclaim 113383 247 (by decide) (by decide) (by decide)
  refine hwithin.noOverflow ⟨120, ⟨2482111347⟩, ?_⟩
  decide +kernel

end Sysops.Cw02
