import Sysops.Library.LocalRule
import Sysops.Cw09.Conway
import Sysops.Cw09.Life

/-!
# The grid as a part of the plane

`update_grid` takes everything outside of the grid for dead. What it makes
of a cell is still what the rule makes of it on the whole plane, as long as
the cell is farther from the border than the number of steps; and a pattern
that begins far enough inside goes on as on the plane altogether.
-/

namespace Sysops.Cw09

open LocalRule

variable {W H : Nat}

/-! ## The plane -/

/-- A cell and the eight around it. -/
def near (p : Int × Int) : Set (Int × Int) :=
  {q | (p.1 - 1 ≤ q.1 ∧ q.1 ≤ p.1 + 1) ∧ p.2 - 1 ≤ q.2 ∧ q.2 ≤ p.2 + 1}

/-- The next state of the plane. -/
def planeNext (c : Int × Int → Bool) (p : Int × Int) : Bool :=
  decide (Conway (fun q => c q = true) p)

theorem near_self (p : Int × Int) : p ∈ near p := by
  show (p.1 - 1 ≤ p.1 ∧ p.1 ≤ p.1 + 1) ∧ p.2 - 1 ≤ p.2 ∧ p.2 ≤ p.2 + 1
  omega

theorem conway_congr {alive alive' : Int × Int → Prop} [DecidablePred alive]
    [DecidablePred alive'] {p : Int × Int}
    (h : ∀ q ∈ near p, alive q ↔ alive' q) :
    Conway alive p ↔ Conway alive' p := by
  have hfilter : (neighbours p).filter alive =
      (neighbours p).filter alive' := by
    ext q
    rw [Finset.mem_filter, Finset.mem_filter]
    refine and_congr_right fun hq => h q ?_
    exact (mem_neighbours.mp hq).2
  rw [Conway, Conway, hfilter, h p (near_self p)]

theorem local_planeNext : Local near planeNext := by
  intro c c' p h
  refine decide_eq_decide.mpr (conway_congr fun q hq => ?_)
  rw [h q hq]

/-- Nothing comes of nothing. -/
theorem planeNext_dead : planeNext (fun _ => false) = fun _ => false := by
  funext p
  refine decide_eq_false ?_
  simp [Conway]

/-- Within `k` steps no cell depends on those that are farther. -/
theorem le_of_mem_reach {k : Nat} {p q : Int × Int} (h : q ∈ reach near k p) :
    (p.1 - k ≤ q.1 ∧ q.1 ≤ p.1 + k) ∧ p.2 - k ≤ q.2 ∧ q.2 ≤ p.2 + k := by
  induction k generalizing p with
  | zero =>
      obtain rfl : q = p := h
      simp
  | succ k ih =>
      obtain ⟨r, hr, hq⟩ := h
      have hfirst : (p.1 - 1 ≤ r.1 ∧ r.1 ≤ p.1 + 1) ∧
        p.2 - 1 ≤ r.2 ∧ r.2 ≤ p.2 + 1 := hr
      have hrest := ih hq
      push_cast
      omega

/-! ## The grid on it -/

/-- The cells of the grid. -/
def onGrid (W H : Nat) : Set (Int × Int) :=
  {p | (0 ≤ p.1 ∧ p.1 < H) ∧ 0 ≤ p.2 ∧ p.2 < W}

instance (W H : Nat) : DecidablePred (· ∈ onGrid W H) := fun _ =>
  inferInstanceAs (Decidable (_ ∧ _))

/-- The live cells of a grid, with nothing alive around it. -/
def Grid.picture (g : Grid W H) (p : Int × Int) : Bool :=
  decide (g.Alive p)

section Picture

variable (g : Grid W H)

theorem picture_cellOf (row : Fin H) (col : Fin W) :
    g.picture ((row.val : Int), (col.val : Int)) =
      decide (g (cellOf row col) ≠ 0) := by
  refine decide_eq_decide.mpr ?_
  rw [alive_iff]
  constructor
  · rintro ⟨row', col', heq, hlive⟩
    rw [Prod.mk.injEq] at heq
    obtain rfl : row = row' := Fin.ext (Int.ofNat_inj.mp heq.1)
    obtain rfl : col = col' := Fin.ext (Int.ofNat_inj.mp heq.2)
    exact hlive
  · exact fun hlive => ⟨row, col, rfl, hlive⟩

theorem picture_outside {p : Int × Int} (hp : p ∉ onGrid W H) :
    g.picture p = false :=
  decide_eq_false fun halive => hp ⟨halive.1, halive.2.1⟩

/-- `update_grid` is the rule of the plane on the cells of the grid. -/
theorem picture_next :
    g.next.picture = inside (onGrid W H) false planeNext g.picture := by
  funext p
  rw [inside]
  split
  · rename_i hp
    obtain ⟨⟨hrow, hH⟩, hcol, hW⟩ := hp
    obtain ⟨row, hrow⟩ := Int.eq_ofNat_of_zero_le hrow
    obtain ⟨col, hcol⟩ := Int.eq_ofNat_of_zero_le hcol
    obtain rfl : p = ((row : Int), (col : Int)) := Prod.ext hrow hcol
    have hcell := picture_cellOf g.next ⟨row, Int.ofNat_lt.mp hH⟩
      ⟨col, Int.ofNat_lt.mp hW⟩
    have hrule : Conway g.Alive ((row : Int), (col : Int)) ↔
        Conway (fun q => g.picture q = true) ((row : Int), (col : Int)) :=
      conway_congr fun q _ => decide_eq_true_iff.symm
    rw [next_cellOf] at hcell
    refine hcell.trans (decide_eq_decide.mpr (Iff.trans ?_ hrule))
    split
    · rename_i h
      exact iff_of_true (by decide) h
    · rename_i h
      exact iff_of_false (fun hne => hne rfl) h
  · rename_i hp
    exact picture_outside g.next hp

theorem picture_generation (k : Nat) : (generation g k).picture =
    (inside (onGrid W H) false planeNext)^[k] g.picture := by
  induction k with
  | zero => rfl
  | succ k ih =>
      rw [generation, picture_next, ih, Function.iterate_succ_apply']

/-- **Inside, the border does not matter**: whatever is alive around the
grid on the plane, a cell is in generation `k` what it is on the plane, if
the grid goes on for `k` cells on all its sides. -/
theorem generation_on_plane (c : Int × Int → Bool) (k : Nat)
    (hc : ∀ p ∈ onGrid W H, g.picture p = c p) (row : Fin H) (col : Fin W)
    (hrow : k ≤ row.val ∧ row.val + k < H)
    (hcol : k ≤ col.val ∧ col.val + k < W) :
    generation g k (cellOf row col) ≠ 0 ↔
      planeNext^[k] c ((row.val : Int), (col.val : Int)) = true := by
  have hcell := picture_cellOf (generation g k) row col
  rw [picture_generation, inside_iterate_eq local_planeNext near_self ?_] at hcell
  · rw [hcell, decide_eq_true_iff]
  · intro q hq
    have hwithin := le_of_mem_reach hq
    have hin : q ∈ onGrid W H := by
      show (0 ≤ q.1 ∧ q.1 < H) ∧ 0 ≤ q.2 ∧ q.2 < W
      omega
    exact ⟨hin, hc q hin⟩

end Picture

/-- Three live cells in the middle of a grid with a margin. -/
def wideBlinker : Grid 5 5 := (blinker).extend 1 1 1 1

/-- With everything alive around the grid. -/
theorem generation_on_plane_middle :
    generation wideBlinker 1 (cellOf 2 2) ≠ 0 ↔
      planeNext^[1] (fun p => if p ∈ onGrid 5 5 then wideBlinker.picture p
        else true) (2, 2) = true :=
  generation_on_plane wideBlinker _ 1 (fun _ hp => (if_pos hp).symm) 2 2
    (by decide) (by decide)

/-- **A pattern that begins `k` cells inside lives `k` generations as on the
plane**: no cell comes to life that the grid has no place for. -/
theorem pattern_on_plane (g : Grid W H) (k : Nat)
    (hinside : ∀ p, g.Alive p → (k ≤ p.1 ∧ p.1 + k < H) ∧
      k ≤ p.2 ∧ p.2 + k < W) :
    (generation g k).picture = planeNext^[k] g.picture := by
  rw [picture_generation]
  refine inside_iterate g.picture fun j hj p hp => ?_
  refine iterate_eq_dead local_planeNext planeNext_dead fun q hq => ?_
  refine decide_eq_false fun halive => hp ?_
  have hwithin := le_of_mem_reach hq
  have hmargin := hinside q halive
  show (0 ≤ p.1 ∧ p.1 < H) ∧ 0 ≤ p.2 ∧ p.2 < W
  push_cast at hwithin
  omega

theorem pattern_on_plane_blinker :
    (generation wideBlinker 1).picture = planeNext^[1] wideBlinker.picture := by
  refine pattern_on_plane wideBlinker 1 fun p halive => ?_
  obtain ⟨row, col, rfl, hlive⟩ := (alive_iff wideBlinker).mp halive
  have hcells : ∀ (row col : Fin 5), wideBlinker (cellOf row col) ≠ 0 →
      (1 ≤ row.val ∧ row.val + 1 < 5) ∧ 1 ≤ col.val ∧ col.val + 1 < 5 := by
    decide
  have hmargin := hcells row col hlive
  push_cast
  omega

end Sysops.Cw09
