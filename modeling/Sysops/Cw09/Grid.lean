import Sysops.Library.CString
import Sysops.Library.Pieces

/-!
# `cw09/grid.c`: one step of Life

The grid of `GRID_WIDTH` times `GRID_HEIGHT` cells, for any two numbers, and
its two updates. An access outside of the array is a fault, and so is an
index that is no `int`.
-/

namespace Sysops.Cw09

variable {W H : Nat}

/-- The cells of a grid, as many as `create_grid` allocates. -/
abbrev Grid (W H : Nat) := Fin (W * H) → Byte

/-- `grid[k]`. -/
def Grid.cell (g : Grid W H) (k : Int) : Except Fault Byte :=
  if h : 0 ≤ k ∧ k.toNat < W * H then .ok (g ⟨k.toNat, h.2⟩)
  else .error .outOfBounds

/-- `grid[k] = v`. -/
def Grid.setCell (g : Grid W H) (k : Int) (v : Byte) :
    Except Fault (Grid W H) :=
  if h : 0 ≤ k ∧ k.toNat < W * H then
    .ok (Function.update g ⟨k.toNat, h.2⟩ v)
  else .error .outOfBounds

/-- The largest `int`. -/
def intMax : Nat := 2 ^ 31 - 1

/-- A result of `int` arithmetic. -/
def int (x : Int) : Except Fault Int :=
  if -intMax - 1 ≤ x ∧ x ≤ intMax then .ok x else .error .overflow

/-- `row * GRID_WIDTH + col`, with both operations in `int`. -/
def index (W : Nat) (row col : Int) : Except Fault Int := do
  int ((← int (W * row)) + col)

def isAlive (row col : Int) (grid : Grid W H) : Except Fault Bool := do
  let count ← [-1, 0, 1].foldlM (fun count (i : Int) =>
    [-1, 0, 1].foldlM (fun count (j : Int) => do
      if i = 0 ∧ j = 0 then return count
      let r ← int (row + i)
      let c ← int (col + j)
      if r < 0 ∨ r ≥ H ∨ c < 0 ∨ c ≥ W then return count
      if (← grid.cell (← index W r c)) ≠ 0 then return count + 1
      return count) count) 0
  if (← grid.cell (← index W row col)) ≠ 0 then
    return count = 2 ∨ count = 3
  else
    return count = 3

/-- Every cell, row by row. -/
def updateGrid (src dst : Grid W H) : Except Fault (Grid W H) :=
  (List.range H).foldlM (fun dst (i : Nat) =>
    (List.range W).foldlM (fun dst (j : Nat) => do
      dst.setCell (← index W i j) (← isAlive i j src).toUInt8) dst) dst

/-- The cells from `start` to before `stop`. -/
def updateSubgrid (src dst : Grid W H) (start stop : Int) :
    Except Fault (Grid W H) :=
  (List.range (stop - start).toNat).foldlM (fun dst (k : Nat) => do
    let i := start + k
    let row := i.tdiv W
    let col := i.tmod W
    dst.setCell i (← isAlive row col src).toUInt8) dst

/-! ## The next generation -/

/-- The cell `k`, and dead outside of the array. -/
def Grid.at (g : Grid W H) (k : Int) : Byte :=
  if h : 0 ≤ k ∧ k.toNat < W * H then g ⟨k.toNat, h.2⟩ else 0

/-- The cells around one, in the order of the two loops. -/
def around : List (Int × Int) :=
  [-1, 0, 1].flatMap fun i => [-1, 0, 1].map fun j => (i, j)

/-- A neighbour in the grid that is alive. -/
def Grid.liveAt (g : Grid W H) (row col : Int) (d : Int × Int) : Bool :=
  ¬ (d.1 = 0 ∧ d.2 = 0) ∧
    ¬ (row + d.1 < 0 ∨ row + d.1 ≥ H ∨ col + d.2 < 0 ∨ col + d.2 ≥ W) ∧
    g.at (W * (row + d.1) + (col + d.2)) ≠ 0

def Grid.liveAround (g : Grid W H) (row col : Int) : Nat :=
  around.countP (g.liveAt row col)

/-- The rule. -/
def Grid.survives (g : Grid W H) (row col : Int) : Bool :=
  if g.at (row * W + col) ≠ 0 then
    g.liveAround row col = 2 ∨ g.liveAround row col = 3
  else g.liveAround row col = 3

/-- The next generation of every cell. -/
def Grid.next (g : Grid W H) : Grid W H := fun x =>
  (g.survives (x.val / W : Nat) (x.val % W : Nat)).toUInt8

theorem int_eq {x : Int} (hlow : -intMax - 1 ≤ x) (hhigh : x ≤ intMax) :
    int x = .ok x :=
  if_pos ⟨hlow, hhigh⟩

theorem int_overflow {x : Int} (h : intMax < x) : int x = .error .overflow :=
  if_neg fun hx => absurd hx.2 (Int.not_le.mpr h)

section Cells

variable (g : Grid W H)

theorem cell_eq {k : Int} (hk : 0 ≤ k) (hlt : k < W * H) :
    g.cell k = .ok (g.at k) := by
  have h : 0 ≤ k ∧ k.toNat < W * H := by
    refine ⟨hk, ?_⟩
    rwa [← Int.ofNat_lt, Int.toNat_of_nonneg hk, Int.natCast_mul]
  rw [Grid.cell, dif_pos h, Grid.at, dif_pos h]

theorem setCell_eq {k : Nat} (hk : k < W * H) (v : Byte) :
    g.setCell k v = .ok (Function.update g ⟨k, hk⟩ v) := by
  have h : 0 ≤ (k : Int) ∧ (k : Int).toNat < W * H := ⟨by omega, hk⟩
  rw [Grid.setCell, dif_pos h]
  rfl

end Cells

/-- Rows and columns in the grid give a cell of it. -/
theorem index_range {r c : Int} (hr : 0 ≤ r) (hrH : r < H) (hc : 0 ≤ c)
    (hcW : c < W) : 0 ≤ W * r + c ∧ W * r + c < W * H := by
  have hlow : 0 ≤ (W : Int) * r := Int.mul_nonneg (Int.natCast_nonneg W) hr
  have hhigh : W * r + W ≤ W * H := by
    have hmul : (W : Int) * (r + 1) ≤ W * H :=
      Int.mul_le_mul_of_nonneg_left hrH (Int.natCast_nonneg W)
    rwa [Int.mul_add, Int.mul_one] at hmul
  omega

/-- Nor do they leave the range of `int`, where this numbers the cells. -/
theorem index_eq (hmax : W * H ≤ intMax) {r c : Int} (hr : 0 ≤ r)
    (hrH : r < H) (hc : 0 ≤ c) (hcW : c < W) :
    index W r c = .ok (W * r + c) := by
  obtain ⟨hlow, hhigh⟩ := index_range hr hrH hc hcW
  have hmul : 0 ≤ (W : Int) * r := Int.mul_nonneg (Int.natCast_nonneg W) hr
  have hmax : (W : Int) * H ≤ intMax := by
    rw [← Int.natCast_mul]
    exact Int.ofNat_le.mpr hmax
  rw [index, int_eq (by omega) (by omega), ok_bind,
    int_eq (by omega) (by omega)]

section Step

variable (g : Grid W H) {row col : Int}

theorem foldl_count {α : Type} (p : α → Bool) (l : List α) (n : Nat) :
    l.foldl (fun n a => if p a then n + 1 else n) n = n + l.countP p := by
  induction l generalizing n with
  | nil => rfl
  | cons a l ih =>
      rw [List.foldl_cons, ih, List.countP_cons]
      cases p a <;> simp
      omega

/-- One turn of the inner loop. -/
theorem count_turn (hmax : W * H ≤ intMax) {i j : Int}
    (hr : int (row + i) = .ok (row + i)) (hc : int (col + j) = .ok (col + j))
    (count : Nat) : (do
      if i = 0 ∧ j = 0 then return count
      let r ← int (row + i)
      let c ← int (col + j)
      if r < 0 ∨ r ≥ H ∨ c < 0 ∨ c ≥ W then return count
      if (← g.cell (← index W r c)) ≠ 0 then return count + 1
      return count : Except Fault Nat) =
    .ok (if g.liveAt row col (i, j) then count + 1 else count) := by
  rw [hr, hc]
  by_cases hself : i = 0 ∧ j = 0
  · simp [hself, Grid.liveAt]
  · by_cases hout : row + i < 0 ∨ row + i ≥ H ∨ col + j < 0 ∨ col + j ≥ W
    · simp [hself, hout, Grid.liveAt]
    · obtain ⟨hlow, hhigh⟩ := index_range (W := W) (H := H) (r := row + i)
        (c := col + j) (by omega) (by omega) (by omega) (by omega)
      have hindex : index W (row + i) (col + j) =
          .ok (W * (row + i) + (col + j)) :=
        index_eq hmax (by omega) (by omega) (by omega) (by omega)
      rw [if_neg hself]
      simp only [ok_bind, if_neg hout, hindex, cell_eq g hlow hhigh]
      by_cases hlive : g.at (W * (row + i) + (col + j)) = 0
      · simp [hlive, Grid.liveAt]
      · simp [hlive, hself, hout, Grid.liveAt]

/-- **`is_alive` is the rule**, and it stays in the array. -/
theorem isAlive_eq (hmax : W * H ≤ intMax) (hrow : 0 ≤ row) (hrowH : row < H)
    (hcol : 0 ≤ col) (hcolW : col < W) :
    isAlive row col g = .ok (g.survives row col) := by
  obtain ⟨hlow, hhigh⟩ := index_range hrow hrowH hcol hcolW
  have hW : W ≤ intMax :=
    Nat.le_trans (Nat.le_mul_of_pos_right W (by omega)) hmax
  have hH : H ≤ intMax :=
    Nat.le_trans (Nat.le_mul_of_pos_left H (by omega)) hmax
  have hnear : ∀ i ∈ ([-1, 0, 1] : List Int), -1 ≤ i ∧ i ≤ 1 := by decide
  have hcount : (([-1, 0, 1] : List Int).foldlM (fun count (i : Int) =>
      ([-1, 0, 1] : List Int).foldlM (fun count (j : Int) => (do
        if i = 0 ∧ j = 0 then return count
        let r ← int (row + i)
        let c ← int (col + j)
        if r < 0 ∨ r ≥ H ∨ c < 0 ∨ c ≥ W then return count
        if (← g.cell (← index W r c)) ≠ 0 then return count + 1
        return count : Except Fault Nat)) count) 0) =
      .ok (g.liveAround row col) := by
    rw [foldlM_eq_ok (g := fun count i => ([-1, 0, 1] : List Int).foldl
      (fun count j => if g.liveAt row col (i, j) then count + 1 else count)
      count)]
    · rw [Grid.liveAround, ← Nat.zero_add (around.countP _), ← foldl_count]
      rfl
    · intro i hi count
      obtain ⟨hi, hi'⟩ := hnear i hi
      refine foldlM_eq_ok (fun j hj count => ?_) count
      obtain ⟨hj, hj'⟩ := hnear j hj
      exact count_turn g hmax (int_eq (by omega) (by omega))
        (int_eq (by omega) (by omega)) count
  rw [isAlive, hcount, ok_bind, index_eq hmax hrow hrowH hcol hcolW, ok_bind,
    cell_eq g hlow hhigh, ok_bind, Grid.survives, Int.mul_comm row]
  split <;> rfl

end Step

theorem around_bounds : ∀ d ∈ around,
    (d.1 = -1 ∨ d.1 = 0 ∨ d.1 = 1) ∧ -1 ≤ d.2 ∧ d.2 ≤ 1 := by
  decide

theorem liveAt_of_dead (g : Grid W H) {row col : Int} {d : Int × Int}
    (h : g.at (W * (row + d.1) + (col + d.2)) = 0) :
    g.liveAt row col d = false := by
  simp [Grid.liveAt, h]

theorem survives_of_dead (g : Grid W H) {row col : Int}
    (hself : g.at (row * W + col) = 0) (hcount : g.liveAround row col = 0) :
    g.survives row col = false := by
  simp [Grid.survives, hself, hcount]

/-- A cell with nothing alive near it is dead in the next generation. -/
theorem next_eq_zero (g : Grid W H) {x : Fin (W * H)}
    (h : ∀ y : Int, x - W - 1 ≤ y → y ≤ x + W + 1 → g.at y = 0) :
    g.next x = 0 := by
  have hsplit : (W * (x.val / W : Nat) + (x.val % W : Nat) : Int) = x := by
    rw [← Int.natCast_mul, ← Int.natCast_add, Nat.div_add_mod]
  have hcount : g.liveAround (x.val / W : Nat) (x.val % W : Nat) = 0 := by
    rw [Grid.liveAround, List.countP_eq_zero]
    intro d hd
    obtain ⟨hrow, hlow, hhigh⟩ := around_bounds d hd
    rw [liveAt_of_dead]
    · exact Bool.false_ne_true
    · rw [Int.mul_add]
      refine h _ ?_ ?_
      · rcases hrow with hd | hd | hd <;> rw [hd] <;> omega
      · rcases hrow with hd | hd | hd <;> rw [hd] <;> omega
  have hself : g.at ((x.val / W : Nat) * W + (x.val % W : Nat)) = 0 := by
    rw [Int.mul_comm, hsplit]
    exact h x (by omega) (by omega)
  rw [Grid.next, survives_of_dead g hself hcount]
  rfl

/-! ## The two updates -/

section Updates

variable (hmax : W * H ≤ intMax) (src dst : Grid W H)

/-- One cell is brought to the next generation. -/
def Grid.fill (src dst : Grid W H) (k : Int) : Grid W H := fun x =>
  if (x : Int) = k then src.next x else dst x

include hmax in
theorem fill_turn {k : Nat} (hk : k < W * H) : (do
      dst.setCell k (← isAlive (k / W : Nat) (k % W : Nat) src).toUInt8) =
    .ok (src.fill dst k) := by
  have hW : 0 < W := Nat.pos_of_mul_pos_right (Nat.zero_lt_of_lt hk)
  have hrow : k / W < H := Nat.div_lt_of_lt_mul hk
  have hcol : k % W < W := Nat.mod_lt k hW
  rw [isAlive_eq src hmax (Int.natCast_nonneg _) (Int.ofNat_lt.mpr hrow)
    (Int.natCast_nonneg _) (Int.ofNat_lt.mpr hcol), ok_bind, setCell_eq dst hk]
  congr 1
  funext x
  by_cases hx : x = ⟨k, hk⟩
  · subst hx
    rw [Function.update_self, Grid.fill, if_pos rfl]
    rfl
  · have hne : (x : Int) ≠ k := by
      intro h
      exact hx (Fin.ext (Int.ofNat.inj h))
    rw [Function.update_of_ne hx, Grid.fill, if_neg hne]

/-- The cells from `start` to before `stop` at the next generation. -/
def Grid.nextOn (src dst : Grid W H) (start stop : Int) : Grid W H := fun x =>
  if start ≤ x ∧ x < stop then src.next x else dst x

include hmax in
/-- The loop of `update_subgrid` fills its range and leaves the rest. -/
theorem updateSubgrid_eq {start stop : Int} (hstart : 0 ≤ start)
    (hstop : stop ≤ W * H) :
    updateSubgrid src dst start stop = .ok (src.nextOn dst start stop) := by
  have hturn : ∀ k ∈ List.range (stop - start).toNat, ∀ dst : Grid W H, (do
      let i := start + (k : Int)
      let row := i.tdiv W
      let col := i.tmod W
      dst.setCell i (← isAlive row col src).toUInt8) =
        .ok (src.fill dst (start + k)) := by
    intro k hk dst
    rw [List.mem_range] at hk
    obtain ⟨x, hx⟩ := Int.eq_ofNat_of_zero_le (show 0 ≤ start + k by omega)
    have hlt : x < W * H := by
      rw [← Int.ofNat_lt, Int.natCast_mul]
      omega
    simp only [hx, ← Int.ofNat_tdiv, ← Int.ofNat_tmod]
    exact fill_turn hmax src dst hlt
  rw [updateSubgrid, foldlM_eq_ok hturn]
  congr 1
  funext x
  have hin : ∀ (a : Grid W H) (k : Nat) (x : Fin (W * H)), (x : Int) = start + k →
      src.fill a (start + k) x = src.next x := fun a k x hx => if_pos hx
  have hout : ∀ (a : Grid W H) (k : Nat) (x : Fin (W * H)), ¬ (x : Int) = start + k →
      src.fill a (start + k) x = a x := fun a k x hx => if_neg hx
  by_cases hx : start ≤ x ∧ x < stop
  · rw [Grid.nextOn, if_pos hx]
    refine Pieces.foldl_fill_of_mem hin hout ⟨(x - start).toNat, ?_, ?_⟩ dst
    · rw [List.mem_range]
      omega
    · omega
  · rw [Grid.nextOn, if_neg hx]
    refine Pieces.foldl_fill_of_not_mem hout ?_ dst
    intro k hk heq
    rw [List.mem_range] at hk
    omega

/-- The cells of the row `i`. -/
def Grid.fillRow (src dst : Grid W H) (i : Nat) : Grid W H := fun x =>
  if x.val / W = i then src.next x else dst x

include hmax in
/-- The inner loop of `update_grid` fills its row. -/
theorem fillRow_loop {i : Nat} (hi : i < H) :
    (List.range W).foldlM (fun dst (j : Nat) => (do
      dst.setCell (← index W i j) (← isAlive i j src).toUInt8 :
        Except Fault (Grid W H))) dst = .ok (src.fillRow dst i) := by
  have hturn : ∀ j ∈ List.range W, ∀ dst : Grid W H, (do
      dst.setCell (← index W i j) (← isAlive i j src).toUInt8) =
        .ok (src.fill dst (i * W + j : Nat)) := by
    intro j hj dst
    rw [List.mem_range] at hj
    have hlt : i * W + j < W * H := by
      have hrows : (i + 1) * W ≤ H * W := Nat.mul_le_mul_right W hi
      rw [Nat.succ_mul, Nat.mul_comm H] at hrows
      omega
    have hfill := fill_turn hmax src dst hlt
    rw [Nat.mul_comm i, Nat.mul_add_div (by omega), Nat.mul_add_mod,
      Nat.div_eq_of_lt hj, Nat.mod_eq_of_lt hj, Nat.add_zero] at hfill
    rw [index_eq hmax (Int.natCast_nonneg i) (Int.ofNat_lt.mpr hi)
      (Int.natCast_nonneg j) (Int.ofNat_lt.mpr hj), ok_bind,
      Nat.mul_comm i, ← hfill, Int.natCast_add, Int.natCast_mul]
  rw [foldlM_eq_ok hturn]
  congr 1
  funext x
  have hin : ∀ (a : Grid W H) (j : Nat) (x : Fin (W * H)), x.val = i * W + j →
      src.fill a (i * W + j : Nat) x = src.next x :=
    fun a j x hx => if_pos (congrArg Nat.cast hx)
  have hout : ∀ (a : Grid W H) (j : Nat) (x : Fin (W * H)),
      ¬ x.val = i * W + j → src.fill a (i * W + j : Nat) x = a x :=
    fun a j x hx => if_neg fun h => hx (Int.ofNat.inj h)
  have hW : 0 < W := Nat.pos_of_mul_pos_right (Nat.zero_lt_of_lt x.isLt)
  by_cases hx : x.val / W = i
  · rw [Grid.fillRow, if_pos hx]
    refine Pieces.foldl_fill_of_mem hin hout ⟨x.val % W, ?_, ?_⟩ dst
    · exact List.mem_range.mpr (Nat.mod_lt _ hW)
    · rw [← hx]
      exact (Nat.div_add_mod' x.val W).symm
  · rw [Grid.fillRow, if_neg hx]
    refine Pieces.foldl_fill_of_not_mem hout ?_ dst
    intro j hj heq
    rw [List.mem_range] at hj
    apply hx
    rw [heq, Nat.mul_comm, Nat.mul_add_div hW, Nat.div_eq_of_lt hj,
      Nat.add_zero]

include hmax in
/-- **`update_grid` makes the next generation**, whatever was in `dst`. -/
theorem updateGrid_eq : updateGrid src dst = .ok src.next := by
  rw [updateGrid, foldlM_eq_ok fun i hi dst =>
    fillRow_loop hmax src dst (List.mem_range.mp hi)]
  congr 1
  funext x
  have hrow : x.val / W < H := Nat.div_lt_of_lt_mul x.isLt
  have hin : ∀ (a : Grid W H) (i : Nat) (x : Fin (W * H)), x.val / W = i →
      src.fillRow a i x = src.next x := fun a i x hx => if_pos hx
  have hout : ∀ (a : Grid W H) (i : Nat) (x : Fin (W * H)), ¬ x.val / W = i →
      src.fillRow a i x = a x := fun a i x hx => if_neg hx
  exact Pieces.foldl_fill_of_mem hin hout
    ⟨_, List.mem_range.mpr hrow, rfl⟩ dst

end Updates

end Sysops.Cw09
