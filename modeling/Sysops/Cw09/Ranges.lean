import Sysops.Cw09.Grid

/-!
# `cw09/life.c`: the cells of each thread

How `main` divides the cells among `n_threads` threads, and that the threads
make together, in any order, what `update_grid` makes alone.
-/

namespace Sysops.Cw09

/-- The two buffers that `main` allocates. -/
inductive Buffer where
  | foreground | background
  deriving DecidableEq, Repr

/-- `thread_args_t`. -/
structure ThreadArgs where
  foreground : Buffer
  background : Buffer
  start : Int
  stop : Int
  deriving DecidableEq, Repr

/-- A `long` stored in an `int`. -/
def intOfLong (x : Int) : Int := x.bmod (2 ^ 32)

/-- The arguments that `main` makes for the thread `i`. The products and
quotients are of type `long`, the fields `int`. -/
def threadArgs (W H nThreads i : Nat) : ThreadArgs where
  foreground := .foreground
  background := .background
  start := intOfLong ((i * (W * H) : Int).tdiv nThreads)
  stop := if i = nThreads - 1 then intOfLong (W * H)
    else intOfLong (((i + 1) * (W * H) : Int).tdiv nThreads)

/-- The cell `x` is one of the thread `i`. -/
def InRange (W H nThreads i x : Nat) : Prop :=
  (threadArgs W H nThreads i).start ≤ x ∧
    x < (threadArgs W H nThreads i).stop

theorem intOfLong_of_le {x : Nat} (h : x ≤ intMax) : intOfLong x = x := by
  have hx : x ≤ 2 ^ 31 - 1 := h
  exact Int.bmod_eq_of_le (by omega) (by omega)

attribute [irreducible] intOfLong

theorem tdiv_eq_cut (W H nThreads i : Nat) :
    (i * (W * H) : Int).tdiv nThreads =
      Pieces.equalCut (W * H) nThreads i := by
  rw [Pieces.equalCut, Int.ofNat_tdiv, Int.natCast_mul, Int.natCast_mul]

/-- What `main` checks of its argument, for a grid whose cells an `int` can
number. -/
structure Admitted (W H nThreads : Nat) : Prop where
  size : W * H ≤ intMax
  pos : 1 ≤ nThreads
  le : nThreads ≤ W * H

namespace Admitted

variable {W H nThreads i : Nat}

theorem start_eq (h : Admitted W H nThreads) (hi : i < nThreads) :
    (threadArgs W H nThreads i).start =
      Pieces.equalCut (W * H) nThreads i := by
  have hle : Pieces.equalCut (W * H) nThreads i ≤ intMax := by
    have hcut := Pieces.equalCut_mono (W * H) nThreads (Nat.le_of_lt hi)
    rw [Pieces.equalCut_last h.pos] at hcut
    exact Nat.le_trans hcut h.size
  rw [threadArgs, tdiv_eq_cut, intOfLong_of_le hle]

theorem stop_eq (h : Admitted W H nThreads) (hi : i < nThreads) :
    (threadArgs W H nThreads i).stop =
      Pieces.equalCut (W * H) nThreads (i + 1) := by
  have hlast : Pieces.equalCut (W * H) nThreads nThreads = W * H :=
    Pieces.equalCut_last h.pos
  by_cases heq : i = nThreads - 1
  · have hnext : i + 1 = nThreads := by omega
    rw [hnext, hlast, ← intOfLong_of_le h.size, Int.natCast_mul]
    exact if_pos heq
  · have hle : Pieces.equalCut (W * H) nThreads (i + 1) ≤ intMax := by
      have hcut := Pieces.equalCut_mono (W * H) nThreads (show i + 1 ≤ _ from hi)
      rw [hlast] at hcut
      exact Nat.le_trans hcut h.size
    have hquot := tdiv_eq_cut W H nThreads (i + 1)
    rw [Int.natCast_add, Int.natCast_one] at hquot
    rw [← intOfLong_of_le hle, ← hquot]
    exact if_neg heq

theorem start_lt_stop (h : Admitted W H nThreads) (hi : i < nThreads) :
    (threadArgs W H nThreads i).start < (threadArgs W H nThreads i).stop := by
  rw [h.start_eq hi, h.stop_eq hi, Int.ofNat_lt]
  exact Pieces.equalCut_lt_succ h.pos h.le i

theorem start_nonneg (h : Admitted W H nThreads) (hi : i < nThreads) :
    0 ≤ (threadArgs W H nThreads i).start := by
  rw [h.start_eq hi]
  exact Int.natCast_nonneg _

theorem stop_le (h : Admitted W H nThreads) (hi : i < nThreads) :
    (threadArgs W H nThreads i).stop ≤ W * H := by
  have hcut := Pieces.equalCut_mono (W * H) nThreads (show i + 1 ≤ _ from hi)
  rw [Pieces.equalCut_last h.pos] at hcut
  rw [h.stop_eq hi, ← Int.natCast_mul]
  exact Int.ofNat_le.mpr hcut

theorem existsUnique_range (h : Admitted W H nThreads) {x : Nat}
    (hx : x < W * H) :
    ∃! i, i < nThreads ∧ InRange W H nThreads i x := by
  have hfirst : Pieces.equalCut (W * H) nThreads 0 ≤ x := by
    rw [Pieces.equalCut_zero]
    exact Nat.zero_le x
  have hlast : x < Pieces.equalCut (W * H) nThreads nThreads := by
    rwa [Pieces.equalCut_last h.pos]
  obtain ⟨i, ⟨hi, hlow, hhigh⟩, hunique⟩ := Pieces.existsUnique_piece
    (Pieces.equalCut_mono (W * H) nThreads) hfirst hlast
  refine ⟨i, ⟨hi, ?_, ?_⟩, ?_⟩
  · rw [h.start_eq hi]
    exact Int.ofNat_le.mpr hlow
  · rw [h.stop_eq hi]
    exact Int.ofNat_lt.mpr hhigh
  · rintro j ⟨hj, hjlow, hjhigh⟩
    rw [h.start_eq hj] at hjlow
    rw [h.stop_eq hj] at hjhigh
    exact hunique j ⟨hj, Int.ofNat_le.mp hjlow, Int.ofNat_lt.mp hjhigh⟩

end Admitted

section Cells

variable {W H nThreads i : Nat} (src dst : Grid W H) {x : Fin (W * H)}

theorem nextOn_of_inRange (h : InRange W H nThreads i x) :
    src.nextOn dst (threadArgs W H nThreads i).start
      (threadArgs W H nThreads i).stop x = src.next x :=
  if_pos h

theorem nextOn_of_not_inRange (h : ¬ InRange W H nThreads i x) :
    src.nextOn dst (threadArgs W H nThreads i).start
      (threadArgs W H nThreads i).stop x = dst x :=
  if_neg h

end Cells

/-- The threads divide the cells, and their calls of `update_subgrid`, in
any order, do what `update_grid` does. -/
structure StepsAgree (W H nThreads : Nat) : Prop where
  nonempty : ∀ i < nThreads,
    (threadArgs W H nThreads i).start < (threadArgs W H nThreads i).stop
  inside : ∀ i < nThreads, 0 ≤ (threadArgs W H nThreads i).start ∧
    (threadArgs W H nThreads i).stop ≤ W * H
  covers : ∀ x : Nat, x < W * H → ∃! i, i < nThreads ∧ InRange W H nThreads i x
  agree : ∀ (src dst : Grid W H) (order : List Nat),
    order.Perm (List.range nThreads) → ∃ result,
      updateGrid src dst = .ok result ∧
        order.foldlM (fun dst i => updateSubgrid src dst
          (threadArgs W H nThreads i).start
          (threadArgs W H nThreads i).stop) dst = .ok result

/-- **The threads make one step of Life together**, whatever their order
and whatever was in the destination. -/
theorem steps_agree {W H nThreads : Nat} (h : Admitted W H nThreads) :
    StepsAgree W H nThreads := by
  refine ⟨fun i hi => h.start_lt_stop hi,
    fun i hi => ⟨h.start_nonneg hi, h.stop_le hi⟩,
    fun x hx => h.existsUnique_range hx, ?_⟩
  intro src dst order horder
  have hmem : ∀ i ∈ order, i < nThreads := by
    intro i hi
    exact List.mem_range.mp (horder.mem_iff.mp hi)
  refine ⟨src.next, updateGrid_eq h.size src dst, ?_⟩
  rw [foldlM_eq_ok fun i hi dst => updateSubgrid_eq h.size src dst
    (h.start_nonneg (hmem i hi)) (h.stop_le (hmem i hi))]
  congr 1
  funext x
  obtain ⟨i, ⟨hi, hrange⟩, -⟩ := h.existsUnique_range x.isLt
  have hin : ∀ (dst : Grid W H) (i : Nat) (x : Fin (W * H)),
      InRange W H nThreads i x →
        src.nextOn dst (threadArgs W H nThreads i).start
          (threadArgs W H nThreads i).stop x = src.next x :=
    fun dst _ _ hx => nextOn_of_inRange src dst hx
  have hout : ∀ (dst : Grid W H) (i : Nat) (x : Fin (W * H)),
      ¬ InRange W H nThreads i x →
        src.nextOn dst (threadArgs W H nThreads i).start
          (threadArgs W H nThreads i).stop x = dst x :=
    fun dst _ _ hx => nextOn_of_not_inRange src dst hx
  exact Pieces.foldl_fill_of_mem hin hout
    ⟨i, horder.mem_iff.mpr (List.mem_range.mpr hi), hrange⟩ dst

/-- Four threads on the grid of the program. -/
theorem steps_agree_four : StepsAgree 30 30 4 :=
  steps_agree ⟨by decide, by decide, by decide⟩

/-- A grid of `2 ^ 31` cells has no `int` for its end. -/
theorem steps_disagree_long_row : ¬ ∀ W H nThreads : Nat, 1 ≤ W → 1 ≤ H →
    W * H < 2 ^ 63 → nThreads * (W * H) < 2 ^ 63 → 1 ≤ nThreads →
      nThreads ≤ W * H → StepsAgree W H nThreads := by
  intro h
  have hagree := h (2 ^ 31) 1 1 (by decide) (by decide) (by decide) (by decide)
    (by decide) (by decide)
  have hrange := hagree.nonempty 0 (by decide)
  exact absurd hrange (by decide +kernel)

end Sysops.Cw09
