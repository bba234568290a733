import Sysops.Cw06.Calculator
import Sysops.Cw06.Integral
import Mathlib.Algebra.BigOperators.Ring.List
import Mathlib.Algebra.Order.BigOperators.Group.List
import Mathlib.Data.Rat.Floor
import Mathlib.Tactic.Linarith

/-!
# `cw06/zad1`: the range of the integral

`main` rounds the number of strips up and keeps their width, `integrate` of
`cw06/zad2` makes the width from the number. The two agree on the widths
that divide the range; with any other the last strip ends behind it.
-/

namespace Sysops.Cw06

section Parameters

variable {D : Type} [Sub D] [Div D] [IntCast D]

def rangeStop : D := ((1 : Int) : D)

/-- `n_intervals`; `ceil` is that of `math.h`. -/
def nIntervals (ceil : D → Int) (dx : D) : Int :=
  ceil ((rangeStop - rangeStart) / dx)

end Parameters

/-- Where the rectangle of step `j` of process `i` stands. -/
def base (nProcesses nIntervals : Int) (dx : ℚ) (i j : Nat) : Set ℚ :=
  let x := samplePoint (partStart nProcesses nIntervals dx i) dx j
  Set.Icc x (x + dx)

/-- What the rectangles of all processes cover. -/
def covered (nProcesses nIntervals : Int) (dx : ℚ) : Set ℚ :=
  {x | ∃ i j : Nat, i < nProcesses ∧ j < partSteps nProcesses nIntervals i ∧
    x ∈ base nProcesses nIntervals dx i j}

/-- `main` integrates from `range_start` to `range_stop`, as `integrate`
does. -/
structure IntegratesRange (nProcesses : Int) (dx : ℚ) : Prop where
  covers : covered nProcesses (nIntervals Int.ceil dx) dx =
    Set.Icc rangeStart rangeStop
  sum : addResults
      (distributeCalculations nProcesses (nIntervals Int.ceil dx) dx) =
    integrate ⟨rangeStart, rangeStop, nIntervals Int.ceil dx⟩

/-! ## The number of strips -/

section Number

variable {dx : ℚ} {n p : Nat}

theorem range_length : (rangeStop - rangeStart : ℚ) = 1 := by
  norm_num [rangeStop, rangeStart]

theorem nIntervals_eq (dx : ℚ) : nIntervals Int.ceil dx = ⌈1 / dx⌉ := by
  rw [nIntervals, range_length]

/-- All strips but the last end inside the range. -/
theorem lt_of_nIntervals (hdx : 0 < dx) (hn : nIntervals Int.ceil dx = n)
    {k : Nat} (hk : k < n) : (k : ℚ) * dx < 1 := by
  have hceil : (k : ℤ) < ⌈1 / dx⌉ := by
    rw [← nIntervals_eq, hn]
    exact_mod_cast hk
  rw [Int.lt_ceil, lt_div_iff₀ hdx] at hceil
  exact_mod_cast hceil

theorem le_of_nIntervals (hdx : 0 < dx) (hn : nIntervals Int.ceil dx = n) :
    1 ≤ (n : ℚ) * dx := by
  have hceil := Int.le_ceil (1 / dx)
  rw [← nIntervals_eq, hn, div_le_iff₀ hdx] at hceil
  exact_mod_cast hceil

/-- The strips end where the range does. -/
theorem divides_iff (hdx : 0 < dx) (hn : nIntervals Int.ceil dx = n) :
    (∃ k : Nat, k * dx = rangeStop - rangeStart) ↔ (n : ℚ) * dx = 1 := by
  rw [range_length]
  refine ⟨?_, fun h => ⟨n, h⟩⟩
  rintro ⟨k, hk⟩
  have hwhole : (1 : ℚ) / dx = (k : ℤ) := by
    rw [div_eq_iff (ne_of_gt hdx)]
    exact_mod_cast hk.symm
  rw [nIntervals_eq, hwhole, Int.ceil_intCast, Nat.cast_inj] at hn
  rw [← hn, hk]

/-! ## What the strips cover -/

/-- Where strip `k` begins. -/
def stripCut (dx : ℚ) (k : Nat) : ℚ := samplePoint rangeStart dx k

theorem stripCut_mono (hdx : 0 < dx) : Monotone (stripCut dx) := by
  apply monotone_nat_of_le_succ
  intro k
  simp only [stripCut, samplePoint]
  push_cast
  linarith

theorem stripCut_eq (dx : ℚ) (k : Nat) : stripCut dx k = k * dx := by
  simp [stripCut, samplePoint, rangeStart]

theorem stripCut_succ (dx : ℚ) (k : Nat) :
    stripCut dx (k + 1) = stripCut dx k + dx := by
  rw [stripCut_eq, stripCut_eq, Nat.cast_succ, add_mul, one_mul]

theorem base_eq {i j : Nat} (hi : i < p) : base p n dx i j =
    Set.Icc (stripCut dx (stepCut p n i + j))
      (stripCut dx (stepCut p n i + j + 1)) := by
  rw [stripCut_succ]
  simp only [base, samplePoint_part hi, stripCut]

theorem covered_eq (hp : 0 < p) (hn : 0 < n) (hdx : 0 < dx) :
    covered p n dx = Set.Icc 0 (n * dx) := by
  obtain ⟨m, rfl⟩ := Nat.exists_eq_succ_of_ne_zero (Nat.ne_of_gt hn)
  have hends : Set.Icc 0 (((m + 1 : Nat) : ℚ) * dx) =
      Set.Icc (stripCut dx 0) (stripCut dx (m + 1)) := by
    rw [stripCut_eq, stripCut_eq, Nat.cast_zero, zero_mul]
  rw [Nat.succ_eq_add_one, hends]
  ext x
  rw [← Pieces.exists_between_cuts_iff (stripCut_mono hdx) m]
  constructor
  · rintro ⟨i, j, hi, hj, hx⟩
    have hless : i < p := Int.ofNat_lt.mp hi
    rw [partSteps_eq hless] at hj
    rw [base_eq hless] at hx
    refine ⟨stepCut p (m + 1) i + j, ?_, hx⟩
    have hle := stepCut_mono p (m + 1) (show i + 1 ≤ p from hless)
    rw [stepCut_last] at hle
    omega
  · rintro ⟨k, hk, hx⟩
    obtain ⟨i, ⟨hi, hlow, hhigh⟩, -⟩ := Pieces.existsUnique_piece
      (stepCut_mono p (m + 1)) (x := k) (n := p)
      (by rw [stepCut_zero hp]; omega) (by rw [stepCut_last]; omega)
    refine ⟨i, k - stepCut p (m + 1) i, Int.ofNat_lt.mpr hi, ?_, ?_⟩
    · rw [partSteps_eq hi]
      omega
    · rw [base_eq hi, Nat.add_sub_cancel' hlow]
      exact hx

theorem covers_iff (hp : 0 < p) (hn : 0 < n) (hdx : 0 < dx) :
    covered p n dx = Set.Icc rangeStart rangeStop ↔ (n : ℚ) * dx = 1 := by
  have hrange : Set.Icc rangeStart (rangeStop : ℚ) = Set.Icc 0 1 := by
    simp [rangeStart, rangeStop]
  rw [covered_eq hp hn hdx, hrange]
  constructor
  · intro heq
    have hpos : (0 : ℚ) ≤ n * dx := by positivity
    exact ((Set.Icc_eq_Icc_iff hpos).mp heq).2
  · intro heq
    rw [heq]

/-! ## The sum -/

/-- `integrate` adds up what `calculate_part` does for its width. -/
theorem integrate_eq (rInfo : RangeInfo ℚ) :
    integrate rInfo = calculatePart rInfo.start
      ((rInfo.stop - rInfo.start) / rInfo.nIntervals) rInfo.nIntervals := by
  rw [calculatePart_eq, integrate]
  generalize (rInfo.stop - rInfo.start) / (rInfo.nIntervals : ℚ) = dx
  show List.foldl (fun integral i => integral + ((4 : Int) : ℚ) /
    (((1 : Int) : ℚ) + samplePoint rInfo.start dx i *
      samplePoint rInfo.start dx i)) _ _ * dx = _
  rw [foldl_add_eq_sum, ← List.sum_map_mul_right]
  refine congrArg List.sum (List.map_congr_left fun i _ => ?_)
  rw [strip, add_comm ((1 : Int) : ℚ)]

/-- Inside the range a wider strip adds more, although it stands where the
function is lower. -/
theorem strip_lt {a b : ℚ} (ha : 0 < a) (hab : a < b) {k : Nat}
    (hk : (k : ℚ) * b < 1) :
    strip a (stripCut a k) < strip b (stripCut b k) := by
  have hnonneg : (0 : ℚ) ≤ k * a := by positivity
  have hless : (k : ℚ) * a ≤ k * b :=
    mul_le_mul_of_nonneg_left (le_of_lt hab) (Nat.cast_nonneg k)
  have hproduct : (k : ℚ) * a * (k * b) < 1 := by nlinarith
  have hgain := mul_pos (sub_pos.mpr hab) (sub_pos.mpr hproduct)
  simp only [strip, stripCut_eq, div_mul_eq_mul_div]
  rw [div_lt_div_iff₀ (by positivity)
    (add_pos_of_nonneg_of_pos (mul_self_nonneg _) (by norm_num))]
  push_cast
  nlinarith

theorem calculatePart_lt {a b : ℚ} (ha : 0 < a) (hab : a < b) (hn : 0 < n)
    (hlast : ∀ k < n, (k : ℚ) * b < 1) :
    calculatePart rangeStart a n < calculatePart rangeStart b n := by
  rw [calculatePart_eq, calculatePart_eq, Int.toNat_natCast]
  refine List.sum_lt_sum_of_ne_nil ?_ _ _ fun k hk => ?_
  · rw [Ne, List.range_eq_nil]
    exact Nat.ne_of_gt hn
  · exact strip_lt ha hab (hlast k (List.mem_range.mp hk))

theorem sum_iff (hp : 0 < p) (hn : 0 < n) (hdx : 0 < dx)
    (hnumber : nIntervals Int.ceil dx = n) :
    addResults (distributeCalculations p n dx) =
        integrate ⟨rangeStart, rangeStop, n⟩ ↔ (n : ℚ) * dx = 1 := by
  have hpos : (0 : ℚ) < n := Nat.cast_pos.mpr hn
  have hcast : ((n : Int) : ℚ) = n := Int.cast_natCast n
  rw [addResults_eq hp, integrate_eq, range_length, hcast]
  constructor
  · intro heq
    by_contra hne
    -- the strips are wider than those of `integrate`
    have hwider : 1 / (n : ℚ) < dx := by
      rw [div_lt_iff₀ hpos, mul_comm]
      exact lt_of_le_of_ne (le_of_nIntervals hdx hnumber) (Ne.symm hne)
    exact absurd heq.symm (ne_of_lt (calculatePart_lt (by positivity) hwider hn
      fun k hk => lt_of_nIntervals hdx hnumber hk))
  · intro heq
    rw [one_div, ← eq_inv_of_mul_eq_one_right heq]

/-- **The integral is over the stated range exactly if the width divides
it**, for every number of processes that `main` admits. -/
theorem integrates_range_iff {dx : ℚ} (hdx : 0 < dx) {nProcesses : Int}
    (hp : 1 ≤ nProcesses) (hn : nProcesses ≤ nIntervals Int.ceil dx) :
    IntegratesRange nProcesses dx ↔
      ∃ k : Nat, k * dx = rangeStop - rangeStart := by
  obtain ⟨p, rfl⟩ := Int.eq_ofNat_of_zero_le (show 0 ≤ nProcesses by omega)
  obtain ⟨n, hnumber⟩ := Int.eq_ofNat_of_zero_le
    (show 0 ≤ nIntervals Int.ceil dx by omega)
  have hppos : 0 < p := by omega
  have hnpos : 0 < n := by omega
  have hcovers := covers_iff hppos hnpos hdx
  have hsum := sum_iff hppos hnpos hdx hnumber
  rw [divides_iff hdx hnumber]
  constructor
  · rintro ⟨hcovered, -⟩
    rw [hnumber] at hcovered
    exact hcovers.mp hcovered
  · intro hends
    constructor <;> rw [hnumber]
    · exact hcovers.mpr hends
    · exact hsum.mpr hends

/-- A quarter, for two processes. -/
theorem integrates_range_quarter : IntegratesRange 2 (1 / 4) :=
  (integrates_range_iff (by norm_num) (by decide)
    (by rw [nIntervals_eq]; norm_num)).mpr
    ⟨4, by rw [range_length]; norm_num⟩

/-- Three strips of two fifths cover more than the range. -/
theorem range_exceeded : ¬ ∀ (dx : ℚ) (nProcesses : Int), 0 < dx →
    1 ≤ nProcesses → nProcesses ≤ nIntervals Int.ceil dx →
    IntegratesRange nProcesses dx := by
  intro hclaim
  have hnumber : nIntervals Int.ceil (2 / 5 : ℚ) = (3 : Nat) := by
    rw [nIntervals_eq]
    norm_num
  have hrange := hclaim (2 / 5) 2 (by norm_num) (by decide) (by rw [hnumber]; decide)
  have hcovered := hrange.covers
  rw [hnumber] at hcovered
  have hends := (covers_iff (p := 2) (by decide) (by decide)
    (by norm_num)).mp hcovered
  norm_num at hends

end Number

end Sysops.Cw06
