import Sysops.Cw02.Overflow

/-!
# `cw02/collatz`: small inputs

113383 is the first input whose sequence leaves the range of `int`, so a
caller that stays below it need not look at the sequence. The terms of the
inputs below are run through until they fall below their input; for all but
every fourth input they do so at once.
-/

namespace Sysops.Cw02

/-- No odd term of the sequence is too large for its step. -/
def LowFrom (x : Int) : Prop :=
  ∀ k : Nat, (collatz^[k] x).tmod 2 ≠ 0 → collatz^[k] x ≤ tripleMax

section Terms

variable {x n fuel : Nat}

theorem collatz_of_even (h : x % 2 = 0) :
    collatz (x : Int) = ((x / 2 : Nat) : Int) := by
  rw [collatz, Int.tdiv_eq_ediv_of_nonneg (by omega),
    Int.tmod_eq_emod_of_nonneg (by omega), if_pos (by omega)]
  omega

theorem collatz_of_odd (h : x % 2 = 1) :
    collatz (x : Int) = ((3 * x + 1 : Nat) : Int) := by
  rw [collatz, Int.tmod_eq_emod_of_nonneg (by omega), if_neg (by omega)]
  omega

theorem LowFrom.collatz {x : Int} (h : LowFrom x) : LowFrom (collatz x) :=
  fun k => h (k + 1)

theorem LowFrom.of_collatz {x : Int} (hx : x.tmod 2 ≠ 0 → x ≤ tripleMax)
    (h : LowFrom (Cw02.collatz x)) : LowFrom x := by
  intro k
  cases k with
  | zero => exact hx
  | succ k => exact h k

theorem lowFrom_even (heven : x % 2 = 0) (h : LowFrom (x / 2 : Nat)) :
    LowFrom x := by
  refine .of_collatz (fun hodd => absurd ?_ hodd) (collatz_of_even heven ▸ h)
  rw [Int.tmod_eq_emod_of_nonneg (by omega)]
  omega

/-- The term behind an odd one is even. -/
theorem lowFrom_odd (hodd : x % 2 = 1) (hx : x ≤ 715827882)
    (h : LowFrom ((3 * x + 1) / 2 : Nat)) : LowFrom x := by
  refine .of_collatz (fun _ => ?_) (collatz_of_odd hodd ▸ lowFrom_even ?_ h)
  · rw [tripleMax, intMax]
    omega
  · omega

theorem lowFrom_next (hodd : x % 2 = 1) (h : LowFrom x) :
    LowFrom ((3 * x + 1) / 2 : Nat) := by
  have hnext := (collatz_of_odd hodd ▸ h.collatz).collatz
  rwa [collatz_of_even (by omega)] at hnext

theorem lowFrom_one : LowFrom 1 := by
  intro k _
  rw [tripleMax, intMax]
  rcases terms_of_one k with h | h | h <;> rw [h] <;> decide

/-! ## Running through the terms -/

/-- From `x` the sequence falls below `n`, within `fuel` turns and without an
odd term that is too large. It is written for the kernel, which is to run
it. -/
def fallsBelow (n fuel : Nat) : Nat → Bool :=
  Nat.rec (fun _ => false) (fun _ falls x =>
    bif Nat.ble n x then
      bif Nat.beq (Nat.mod x 2) 0 then falls (Nat.div x 2)
      else bif Nat.ble x 715827882 then
        falls (Nat.div (Nat.succ (Nat.mul 3 x)) 2)
      else false
    else true) fuel

theorem fallsBelow_succ : fallsBelow n (fuel + 1) x =
    if n ≤ x then
      if x % 2 = 0 then fallsBelow n fuel (x / 2)
      else if x ≤ 715827882 then fallsBelow n fuel ((3 * x + 1) / 2)
      else false
    else true := by
  change (bif Nat.ble n x then
    bif Nat.beq (x % 2) 0 then fallsBelow n fuel (x / 2)
    else bif Nat.ble x 715827882 then fallsBelow n fuel ((3 * x + 1) / 2)
    else false
    else true) = _
  simp only [cond_eq_ite, Nat.ble_eq, Nat.beq_eq]

theorem lowFrom_of_fallsBelow (hbelow : ∀ y, 0 < y → y < n → LowFrom (y : Nat))
    (hx : 0 < x) (h : fallsBelow n fuel x = true) : LowFrom x := by
  induction fuel generalizing x with
  | zero => cases h
  | succ fuel ih =>
      rw [fallsBelow_succ] at h
      split at h
      case isFalse hlt => exact hbelow x hx (Nat.not_le.mp hlt)
      case isTrue =>
        split at h
        case isTrue heven => exact lowFrom_even heven (ih (by omega) h)
        case isFalse hodd =>
          split at h
          case isTrue hlow => exact lowFrom_odd (by omega) hlow (ih (by omega) h)
          case isFalse => cases h

/-- For the input `4 * m + 3`, unless it stands behind a smaller input. -/
def inputFalls (m : Nat) : Bool :=
  bif Nat.beq (Nat.mod m 3) 2 then true
  else bif Nat.ble 28345 m then true
  else fallsBelow (Nat.add (Nat.mul 4 m) 3) 400 (Nat.add (Nat.mul 6 m) 5)

/-- For the `2 ^ depth` inputs that begin with the digits of `m`. -/
def inputsFall (depth : Nat) : Nat → Bool :=
  Nat.rec inputFalls (fun _ fall m =>
    bif fall (Nat.mul 2 m) then fall (Nat.succ (Nat.mul 2 m)) else false) depth

theorem inputsFall_succ {depth m : Nat} : inputsFall (depth + 1) m =
    if inputsFall depth (2 * m) then inputsFall depth (2 * m + 1)
    else false := by
  change (bif inputsFall depth (2 * m) then inputsFall depth (2 * m + 1)
    else false) = _
  rw [cond_eq_ite]

theorem inputFalls_of_all {depth m i : Nat} (h : inputsFall depth m = true)
    (hi : i >>> depth = m) : inputFalls i = true := by
  induction depth generalizing m with
  | zero =>
      rw [Nat.shiftRight_zero] at hi
      rw [hi]
      exact h
  | succ depth ih =>
      rw [inputsFall_succ] at h
      rw [Nat.shiftRight_succ] at hi
      split at h
      case isFalse => cases h
      case isTrue hleft =>
        -- the next digit says in which half it is
        rcases Nat.mod_two_eq_zero_or_one (i >>> depth) with hdigit | hdigit
        · exact ih hleft (by omega)
        · exact ih h (by omega)

theorem inputsFall_all : inputsFall 15 0 = true := by decide +kernel

end Terms

/-! ## Below 113383 -/

/-- What `inputFalls` tests is enough. -/
theorem lowFrom_of_inputFalls {m : Nat} (hm : m < 28345)
    (h : inputFalls m = true)
    (hbelow : ∀ y, 0 < y → y < 4 * m + 3 → LowFrom (y : Nat)) :
    LowFrom (4 * m + 3 : Nat) := by
  change (bif Nat.beq (m % 3) 2 then true else bif Nat.ble 28345 m then true
    else fallsBelow (4 * m + 3) 400 (6 * m + 5)) = true at h
  simp only [cond_eq_ite, Nat.beq_eq, Nat.ble_eq,
    if_neg (Nat.not_le.mpr hm)] at h
  split at h
  case isTrue hthird =>
    -- it is the second term behind this smaller input
    have hnext := lowFrom_next (by omega)
      (hbelow (8 * (m / 3) + 7) (by omega) (by omega))
    have heq : (3 * (8 * (m / 3) + 7) + 1) / 2 = 4 * m + 3 := by omega
    rwa [heq] at hnext
  case isFalse =>
    have hfalls := lowFrom_of_fallsBelow hbelow (by omega) h
    have heq : (3 * (4 * m + 3) + 1) / 2 = 6 * m + 5 := by omega
    exact lowFrom_odd (by omega) (by omega) (heq ▸ hfalls)

theorem lowFrom_of_lt {n : Nat} (hpos : 0 < n) (hn : n < 113383) :
    LowFrom n := by
  induction n using Nat.strongRecOn with
  | ind n ih =>
      have hbelow : ∀ y, 0 < y → y < n → LowFrom (y : Nat) :=
        fun y hy hyn => ih y hyn hy (Nat.lt_trans hyn hn)
      by_cases heven : n % 2 = 0
      · exact lowFrom_even heven (hbelow _ (by omega) (by omega))
      by_cases hfirst : n = 1
      · rw [hfirst]
        exact lowFrom_one
      have hdiv := Nat.div_add_mod n 4
      by_cases hone : n % 4 = 1
      · -- four terms on it is below the input
        refine lowFrom_odd (by omega) (by omega) (lowFrom_even (by omega) ?_)
        exact hbelow _ (by omega) (by omega)
      · have hthree : n = 4 * (n / 4) + 3 := by omega
        have hm : n / 4 < 28345 := by omega
        have hfalls : inputFalls (n / 4) = true :=
          inputFalls_of_all inputsFall_all (by omega)
        rw [hthree] at hbelow ⊢
        exact lowFrom_of_inputFalls hm hfalls hbelow

/-- **Below 113383 nothing overflows**, whatever the limit. -/
theorem withinInt_of_lt {input maxIter : Int32} (hpos : 1 ≤ input.toInt)
    (hinput : input.toInt < 113383) :
    WithinInt input.toInt maxIter.toInt := by
  have hlow : LowFrom input.toInt := by
    obtain ⟨n, hn⟩ := Int.eq_ofNat_of_zero_le (show 0 ≤ input.toInt by omega)
    rw [hn]
    exact lowFrom_of_lt (by omega) (by omega)
  exact withinInt_of_low hpos fun k _ => hlow k

end Sysops.Cw02
