import Sysops.Library.Pieces
import Mathlib.Algebra.Order.Field.Rat
import Mathlib.Tactic.NormNum
import Mathlib.Tactic.Ring

/-!
# `cw06/zad1`: an integral shared out to processes

Each child takes as many strips as the others, and the last one those that
are over as well. Together they add up what one process would.
-/

namespace Sysops.Cw06

section Calculate

variable {D : Type} [Add D] [Mul D] [Div D] [IntCast D]

def rangeStart : D := ((0 : Int) : D)

/-- Where `calculate_part` takes its sample `i`. -/
def samplePoint (start dx : D) (i : Nat) : D :=
  start + ((i : Int) : D) * dx

/-- One turn of the loop of `calculate_part`. -/
def partTurn (start dx area : D) (i : Nat) : D :=
  let x := samplePoint start dx i
  let fx := ((4 : Int) : D) / (x * x + ((1 : Int) : D))
  area + fx * dx

def calculatePart (start dx : D) (steps : Int) : D :=
  (List.range steps.toNat).foldl (partTurn start dx) ((0 : Int) : D)

/-- Where process `i` starts. -/
def partStart (nProcesses nIntervals : Int) (dx : D) (i : Int) : D :=
  let stepsPerProcess := nIntervals.tdiv nProcesses
  rangeStart + ((i * stepsPerProcess : Int) : D) * dx

/-- The number of its steps. -/
def partSteps (nProcesses nIntervals i : Int) : Int :=
  let stepsPerProcess := nIntervals.tdiv nProcesses
  if i = nProcesses - 1 then stepsPerProcess + nIntervals.tmod nProcesses
  else stepsPerProcess

/-- What the children write to their pipes. -/
def distributeCalculations (nProcesses nIntervals : Int) (dx : D) : List D :=
  (List.range nProcesses.toNat).map fun (i : Nat) =>
    calculatePart (partStart nProcesses nIntervals dx i) dx
      (partSteps nProcesses nIntervals i)

/-- What `main` adds up. -/
def addResults (results : List D) : D :=
  results.foldl (fun sum result => sum + result) ((0 : Int) : D)

end Calculate

/-! ## A part as a sum -/

/-- What a sample adds. -/
def strip (dx x : ℚ) : ℚ :=
  ((4 : Int) : ℚ) / (x * x + ((1 : Int) : ℚ)) * dx

theorem foldl_add_eq_sum {α : Type} (f : α → ℚ) (l : List α) :
    l.foldl (fun sum a => sum + f a) ((0 : Int) : ℚ) = (l.map f).sum := by
  rw [List.sum_eq_foldl, List.foldl_map, Int.cast_zero]

theorem calculatePart_eq (start dx : ℚ) (steps : Int) :
    calculatePart start dx steps = ((List.range steps.toNat).map
      fun i => strip dx (samplePoint start dx i)).sum :=
  foldl_add_eq_sum (fun i => strip dx (samplePoint start dx i)) _

theorem samplePoint_injective {dx : ℚ} (hdx : dx ≠ 0) {start : ℚ} {i j : Nat}
    (h : samplePoint start dx i = samplePoint start dx j) : i = j := by
  have hscaled : ((i : Int) : ℚ) * dx = ((j : Int) : ℚ) * dx :=
    add_left_cancel h
  have hcast : ((i : Int) : ℚ) = ((j : Int) : ℚ) :=
    mul_right_cancel₀ hdx hscaled
  exact_mod_cast hcast

/-! ## The parts are pieces of the whole -/

/-- The number of steps before process `i`. -/
def stepCut (nProcesses nIntervals i : Nat) : Nat :=
  if i < nProcesses then i * (nIntervals / nProcesses) else nIntervals

section Split

variable {p n i j : Nat}

theorem stepCut_mono (p n : Nat) : Monotone (stepCut p n) := by
  apply monotone_nat_of_le_succ
  intro i
  rw [stepCut, stepCut]
  split
  · rename_i hi
    have hnext : (i + 1) * (n / p) ≤ n :=
      Nat.le_trans (Nat.mul_le_mul_right _ hi) (Nat.mul_div_le n p)
    rw [Nat.succ_mul] at hnext ⊢
    generalize n / p = steps at hnext ⊢
    split <;> omega
  · rename_i hi
    rw [if_neg (by omega)]

theorem stepCut_zero (hp : 0 < p) : stepCut p n 0 = 0 := by
  rw [stepCut, if_pos hp, Nat.zero_mul]

theorem stepCut_last (p n : Nat) : stepCut p n p = n :=
  if_neg (Nat.lt_irrefl p)

theorem partSteps_eq (hi : i < p) :
    partSteps p n i = (stepCut p n (i + 1) - stepCut p n i : Nat) := by
  have hall : p * (n / p) + n % p = n := Nat.div_add_mod n p
  rw [partSteps, ← Int.ofNat_tdiv, ← Int.ofNat_tmod, stepCut, stepCut,
    if_pos hi]
  generalize n / p = steps, n % p = rest at hall ⊢
  split
  · -- the last process has what is over as well
    rename_i hlast
    obtain rfl : p = i + 1 := by omega
    rw [if_neg (Nat.lt_irrefl _)]
    rw [Nat.succ_mul] at hall
    omega
  · rename_i hother
    rw [if_pos (show i + 1 < p by omega), Nat.succ_mul]
    omega

/-- The samples of a process are samples of the whole. -/
theorem samplePoint_part {dx : ℚ} (hi : i < p) :
    samplePoint (partStart p n dx i) dx j =
      samplePoint rangeStart dx (stepCut p n i + j) := by
  have hcut : (i : Int) * (n : Int).tdiv p = (i * (n / p) : Nat) := by
    rw [← Int.ofNat_tdiv, Int.natCast_mul]
  simp only [samplePoint, partStart, hcut, stepCut, if_pos hi]
  push_cast
  ring

theorem sum_partSteps (hp : 0 < p) :
    ((List.range p).map fun (i : Nat) => partSteps p n i).sum = n := by
  have hpieces := Pieces.sum_pieces (fun _ => (1 : Int)) (stepCut_mono p n)
    (stepCut_zero hp) p
  simp only [List.map_const', List.length_range, List.sum_replicate,
    stepCut_last, nsmul_eq_mul, mul_one] at hpieces
  refine Eq.trans ?_ hpieces
  refine congrArg List.sum (List.map_congr_left fun i hi => ?_)
  exact partSteps_eq (List.mem_range.mp hi)

theorem addResults_eq (hp : 0 < p) (dx : ℚ) :
    addResults (distributeCalculations p n dx) =
      calculatePart rangeStart dx n := by
  have hpart : ∀ i ∈ List.range p,
      calculatePart (partStart p n dx i) dx (partSteps p n i) =
        ((List.range (stepCut p n (i + 1) - stepCut p n i)).map fun j =>
          strip dx (samplePoint rangeStart dx (stepCut p n i + j))).sum := by
    intro i hi
    have hless := List.mem_range.mp hi
    rw [calculatePart_eq, partSteps_eq hless, Int.toNat_natCast]
    refine congrArg List.sum (List.map_congr_left fun j _ => ?_)
    rw [samplePoint_part hless]
  have hpieces := Pieces.sum_pieces
    (fun k => strip dx (samplePoint rangeStart dx k)) (stepCut_mono p n)
    (stepCut_zero hp) p
  rw [stepCut_last] at hpieces
  calc addResults (distributeCalculations p n dx)
      = (distributeCalculations p n dx).sum := by
        rw [addResults, List.sum_eq_foldl, Int.cast_zero]
    _ = _ := by
        rw [distributeCalculations, Int.toNat_natCast,
          List.map_congr_left hpart]
    _ = _ := hpieces
    _ = calculatePart rangeStart dx n := by
        rw [calculatePart_eq, Int.toNat_natCast]

/-- **Sharing out the strips changes nothing**: the sum is that of one
process, and each of its samples belongs to one process, once. -/
theorem calculations_split {nProcesses nIntervals : Int}
    (hp : 1 ≤ nProcesses) (hn : nProcesses ≤ nIntervals) {dx : ℚ}
    (hdx : 0 < dx) :
    addResults (distributeCalculations nProcesses nIntervals dx) =
        calculatePart rangeStart dx nIntervals ∧
      ((List.range nProcesses.toNat).map fun (i : Nat) =>
        partSteps nProcesses nIntervals i).sum = nIntervals ∧
      ∀ k : Nat, k < nIntervals → ∃! use : Nat × Nat,
        use.1 < nProcesses ∧
          use.2 < partSteps nProcesses nIntervals use.1 ∧
          samplePoint (partStart nProcesses nIntervals dx use.1) dx use.2 =
            samplePoint rangeStart dx k := by
  obtain ⟨p, rfl⟩ := Int.eq_ofNat_of_zero_le (show 0 ≤ nProcesses by omega)
  obtain ⟨n, rfl⟩ := Int.eq_ofNat_of_zero_le (show 0 ≤ nIntervals by omega)
  have hpos : 0 < p := by omega
  refine ⟨addResults_eq hpos dx, sum_partSteps hpos, ?_⟩
  · intro k hk
    obtain ⟨i, ⟨hi, hlow, hhigh⟩, hunique⟩ := Pieces.existsUnique_piece
      (stepCut_mono p n) (x := k) (n := p) (by rw [stepCut_zero hpos]; omega)
      (by rw [stepCut_last]; omega)
    refine ⟨(i, k - stepCut p n i), ⟨?_, ?_, ?_⟩, ?_⟩
    · exact Int.ofNat_lt.mpr hi
    · show ((k - stepCut p n i : Nat) : Int) < partSteps p n i
      rw [partSteps_eq hi]
      omega
    · show samplePoint (partStart p n dx i) dx (k - stepCut p n i) = _
      rw [samplePoint_part hi]
      congr 1
      omega
    · rintro ⟨i', j⟩ ⟨hi', hj, hsample⟩
      have hless : i' < p := Int.ofNat_lt.mp hi'
      change samplePoint (partStart p n dx i') dx j = _ at hsample
      rw [samplePoint_part hless] at hsample
      have heq := samplePoint_injective (ne_of_gt hdx) hsample
      change (j : Int) < partSteps p n i' at hj
      rw [partSteps_eq hless] at hj
      have hsame : i' = i := hunique i' ⟨hless, by omega, by omega⟩
      subst hsame
      rw [Prod.mk.injEq]
      exact ⟨rfl, by omega⟩

/-- Five strips for two processes: two and three. -/
theorem calculations_split_two :
    addResults (distributeCalculations 2 5 (1 / 5 : ℚ)) =
        calculatePart rangeStart (1 / 5) 5 ∧
      (partSteps 2 5 0, partSteps 2 5 1) = (2, 3) :=
  ⟨(calculations_split (by decide) (by decide) (by norm_num)).1, by decide⟩

end Split

end Sysops.Cw06
