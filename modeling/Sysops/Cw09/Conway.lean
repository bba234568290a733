import Sysops.Cw09.Ranges
import Mathlib.Algebra.Group.Int.Defs
import Mathlib.Data.Finset.Prod

/-!
# Conway's rule

The rule on the plane, by the number of live cells among the neighbours of
a cell, and that `update_grid` follows it with everything outside of the
grid dead. The loops of `is_alive` count in a flat array; the rule knows
rows and columns only.
-/

namespace Sysops.Cw09

variable {W H : Nat}

/-! ## The rule on the plane -/

/-- The eight cells around one; a cell is a row and a column. -/
def neighbours (p : Int × Int) : Finset (Int × Int) :=
  (({p.1 - 1, p.1, p.1 + 1} : Finset Int) ×ˢ
    ({p.2 - 1, p.2, p.2 + 1} : Finset Int)).erase p

/-- Three live neighbours, or two and the cell itself. -/
def Conway (alive : Int × Int → Prop) [DecidablePred alive]
    (p : Int × Int) : Prop :=
  ((neighbours p).filter alive).card = 3 ∨
    ((neighbours p).filter alive).card = 2 ∧ alive p

instance (alive : Int × Int → Prop) [DecidablePred alive] (p : Int × Int) :
    Decidable (Conway alive p) :=
  inferInstanceAs (Decidable (_ ∨ _))

theorem mem_neighbours {p q : Int × Int} : q ∈ neighbours p ↔
    q ≠ p ∧ (p.1 - 1 ≤ q.1 ∧ q.1 ≤ p.1 + 1) ∧
      p.2 - 1 ≤ q.2 ∧ q.2 ≤ p.2 + 1 := by
  simp only [neighbours, Finset.mem_erase, Finset.mem_product,
    Finset.mem_insert, Finset.mem_singleton]
  constructor
  · rintro ⟨hne, hrow, hcol⟩
    exact ⟨hne, by omega, by omega⟩
  · rintro ⟨hne, hrow, hcol⟩
    exact ⟨hne, by omega, by omega⟩

theorem card_neighbours (p : Int × Int) : (neighbours p).card = 8 := by
  have hthree : ∀ x : Int, ({x - 1, x, x + 1} : Finset Int).card = 3 :=
    fun x => Finset.card_eq_three.mpr
      ⟨x - 1, x, x + 1, by omega, by omega, by omega, rfl⟩
  have hmem : p ∈ ({p.1 - 1, p.1, p.1 + 1} : Finset Int) ×ˢ
      ({p.2 - 1, p.2, p.2 + 1} : Finset Int) := by
    rw [Finset.mem_product, Finset.mem_insert, Finset.mem_insert,
      Finset.mem_insert, Finset.mem_insert]
    exact ⟨.inr (.inl rfl), .inr (.inl rfl)⟩
  rw [neighbours, Finset.card_erase_of_mem hmem, Finset.card_product, hthree,
    hthree]

/-- The rule is the same everywhere. -/
theorem conway_translate {alive alive' : Int × Int → Prop}
    [DecidablePred alive] [DecidablePred alive'] (v : Int × Int)
    (h : ∀ q, alive' (q + v) ↔ alive q) (p : Int × Int) :
    Conway alive' (p + v) ↔ Conway alive p := by
  have hcard : ((neighbours p).filter alive).card =
      ((neighbours (p + v)).filter alive').card := by
    apply Finset.card_bij fun q _ => q + v
    · intro q hq
      rw [Finset.mem_filter, mem_neighbours] at hq ⊢
      refine ⟨⟨?_, ?_⟩, (h q).mpr hq.2⟩
      · exact fun heq => hq.1.1 (add_right_cancel heq)
      · simp only [Prod.fst_add, Prod.snd_add]
        omega
    · intro q _ q' _ heq
      exact add_right_cancel heq
    · intro q hq
      rw [Finset.mem_filter, mem_neighbours] at hq
      refine ⟨q - v, ?_, sub_add_cancel q v⟩
      rw [Finset.mem_filter, mem_neighbours]
      refine ⟨⟨?_, ?_⟩, ?_⟩
      · exact fun heq => hq.1.1 (by rw [← heq, sub_add_cancel])
      · simp only [Prod.fst_add, Prod.snd_add, Prod.fst_sub, Prod.snd_sub]
          at hq ⊢
        omega
      · rw [← h, sub_add_cancel]
        exact hq.2
  rw [Conway, Conway, hcard, h]

/-! ## The rule on a grid -/

/-- A cell of the grid that is alive. -/
def Grid.Alive (g : Grid W H) (p : Int × Int) : Prop :=
  (0 ≤ p.1 ∧ p.1 < H) ∧ (0 ≤ p.2 ∧ p.2 < W) ∧ g.at (W * p.1 + p.2) ≠ 0

instance (g : Grid W H) : DecidablePred g.Alive := fun _ =>
  inferInstanceAs (Decidable (_ ∧ _))

section Rule

variable (g : Grid W H) {row col : Int}

theorem mem_around {d : Int × Int} : d ∈ around ↔
    (-1 ≤ d.1 ∧ d.1 ≤ 1) ∧ -1 ≤ d.2 ∧ d.2 ≤ 1 := by
  obtain ⟨i, j⟩ := d
  simp only [around, List.mem_flatMap, List.mem_map, List.mem_cons,
    List.not_mem_nil, or_false, Prod.mk.injEq]
  constructor
  · rintro ⟨a, ha, b, hb, rfl, rfl⟩
    omega
  · rintro ⟨hi, hj⟩
    exact ⟨i, by omega, j, by omega, rfl, rfl⟩

theorem liveAt_iff {d : Int × Int} : g.liveAt row col d = true ↔
    d ≠ 0 ∧ g.Alive (row + d.1, col + d.2) := by
  obtain ⟨i, j⟩ := d
  simp only [Grid.liveAt, Grid.Alive, decide_eq_true_eq, ne_eq,
    Prod.mk_eq_zero]
  constructor
  · rintro ⟨hself, hin, hlive⟩
    exact ⟨hself, by omega, by omega, hlive⟩
  · rintro ⟨hself, hrow, hcol, hlive⟩
    exact ⟨hself, by omega, hlive⟩

/-- The double loop counts the live neighbours. -/
theorem liveAround_eq_card : g.liveAround row col =
    ((neighbours (row, col)).filter g.Alive).card := by
  have hnodup : ((around.filter (g.liveAt row col)).map
      fun d => (row + d.1, col + d.2)).Nodup := by
    apply List.Nodup.map
    · intro d d' h
      simp only [Prod.mk.injEq] at h
      ext <;> omega
    · exact List.Nodup.filter _ (by decide)
  rw [Grid.liveAround, List.countP_eq_length_filter,
    ← List.length_map (f := fun d : Int × Int => (row + d.1, col + d.2)),
    ← List.toFinset_card_of_nodup hnodup]
  congr 1
  ext ⟨r, c⟩
  simp only [List.mem_toFinset, List.mem_map, List.mem_filter, mem_around,
    liveAt_iff, Finset.mem_filter, mem_neighbours, Prod.mk.injEq]
  constructor
  · rintro ⟨⟨i, j⟩, ⟨hd, hne, hlive⟩, rfl, rfl⟩
    refine ⟨⟨?_, by omega⟩, hlive⟩
    intro h
    rw [Prod.mk.injEq] at h
    apply hne
    rw [Prod.mk_eq_zero]
    omega
  · rintro ⟨⟨hne, hd⟩, hlive⟩
    refine ⟨(r - row, c - col), ⟨by omega, ?_, ?_⟩, by omega, by omega⟩
    · intro h
      rw [Prod.mk_eq_zero] at h
      apply hne
      rw [Prod.mk.injEq]
      omega
    · rwa [show row + (r - row) = r by omega, show col + (c - col) = c by omega]

theorem at_ne_zero_iff (hrow : 0 ≤ row ∧ row < H) (hcol : 0 ≤ col ∧ col < W) :
    g.at (row * W + col) ≠ 0 ↔ g.Alive (row, col) := by
  rw [Int.mul_comm row, Grid.Alive, and_iff_right hrow, and_iff_right hcol]

theorem survives_iff (hrow : 0 ≤ row ∧ row < H) (hcol : 0 ≤ col ∧ col < W) :
    g.survives row col = true ↔ Conway g.Alive (row, col) := by
  rw [Grid.survives, liveAround_eq_card, Conway, ← at_ne_zero_iff g hrow hcol]
  split
  · rename_i hlive
    rw [decide_eq_true_eq, and_iff_left hlive]
    exact or_comm
  · rename_i hdead
    simp only [decide_eq_true_eq, hdead, and_false, or_false]

end Rule

/-- The cell in a row and a column. -/
def cellOf (row : Fin H) (col : Fin W) : Fin (W * H) :=
  ⟨W * row + col, by
    have hrows : W * (row.val + 1) ≤ W * H := Nat.mul_le_mul_left W row.isLt
    rw [Nat.mul_succ] at hrows
    omega⟩

/-- **The next generation is Conway's.** -/
theorem next_cellOf (g : Grid W H) (row : Fin H) (col : Fin W) :
    g.next (cellOf row col) =
      if Conway g.Alive (row.val, col.val) then 1 else 0 := by
  have hrow : (W * row.val + col.val) / W = row.val := by
    rw [Nat.mul_add_div col.pos, Nat.div_eq_of_lt col.isLt, Nat.add_zero]
  have hcol : (W * row.val + col.val) % W = col.val := by
    rw [Nat.mul_add_mod, Nat.mod_eq_of_lt col.isLt]
  have hsurvives : g.survives row.val col.val = true ↔
      Conway g.Alive (row.val, col.val) :=
    survives_iff g (by omega) (by omega)
  show (g.survives ((W * row.val + col.val) / W : Nat)
    ((W * row.val + col.val) % W : Nat)).toUInt8 = _
  rw [hrow, hcol]
  split
  · rename_i h
    rw [hsurvives.mpr h]
    rfl
  · rename_i h
    rw [Bool.eq_false_iff.mpr fun h' => h (hsurvives.mp h')]
    rfl

/-! ## A margin of dead cells -/

/-- The grid with dead cells on all sides. -/
def Grid.extend (g : Grid W H) (top bottom left right : Nat) :
    Grid (left + W + right) (top + H + bottom) := fun x =>
  let row := x.val / (left + W + right)
  let col := x.val % (left + W + right)
  if h : (top ≤ row ∧ row - top < H) ∧ left ≤ col ∧ col - left < W then
    g (cellOf ⟨row - top, h.1.2⟩ ⟨col - left, h.2.2⟩)
  else 0

section Margin

variable (g : Grid W H) (top bottom left right : Nat)

theorem at_cellOf (row : Fin H) (col : Fin W) :
    g.at (W * row.val + col.val) = g (cellOf row col) := by
  have hlt : W * row.val + col.val < W * H := (cellOf row col).isLt
  have h : 0 ≤ ((W : Int) * row.val + col.val) ∧
      ((W : Int) * row.val + col.val).toNat < W * H := by
    rw [← Int.natCast_mul, ← Int.natCast_add, Int.toNat_natCast]
    exact ⟨Int.natCast_nonneg _, hlt⟩
  rw [Grid.at, dif_pos h]
  congr 1

theorem alive_iff {p : Int × Int} : g.Alive p ↔
    ∃ (row : Fin H) (col : Fin W), p = ((row.val : Int), (col.val : Int)) ∧
      g (cellOf row col) ≠ 0 := by
  obtain ⟨i, j⟩ := p
  constructor
  · rintro ⟨⟨hi, hiH⟩, ⟨hj, hjW⟩, hlive⟩
    obtain ⟨r, rfl⟩ := Int.eq_ofNat_of_zero_le hi
    obtain ⟨c, rfl⟩ := Int.eq_ofNat_of_zero_le hj
    refine ⟨⟨r, Int.ofNat_lt.mp hiH⟩, ⟨c, Int.ofNat_lt.mp hjW⟩, rfl, ?_⟩
    exact fun h0 => hlive ((at_cellOf g _ _).trans h0)
  · rintro ⟨row, col, h, hlive⟩
    rw [Prod.mk.injEq] at h
    obtain ⟨rfl, rfl⟩ := h
    refine ⟨⟨Int.natCast_nonneg _, Int.ofNat_lt.mpr row.isLt⟩,
      ⟨Int.natCast_nonneg _, Int.ofNat_lt.mpr col.isLt⟩, ?_⟩
    rw [at_cellOf]
    exact hlive

theorem extend_cellOf (row : Fin (top + H + bottom))
    (col : Fin (left + W + right)) :
    g.extend top bottom left right (cellOf row col) =
      if h : (top ≤ row.val ∧ row.val - top < H) ∧
          left ≤ col.val ∧ col.val - left < W then
        g (cellOf ⟨row - top, h.1.2⟩ ⟨col - left, h.2.2⟩)
      else 0 := by
  have hrow : (cellOf row col).val / (left + W + right) = row.val := by
    show ((left + W + right) * row.val + col.val) / _ = _
    rw [Nat.mul_add_div col.pos, Nat.div_eq_of_lt col.isLt, Nat.add_zero]
  have hcol : (cellOf row col).val % (left + W + right) = col.val := by
    show ((left + W + right) * row.val + col.val) % _ = _
    rw [Nat.mul_add_mod, Nat.mod_eq_of_lt col.isLt]
  simp only [Grid.extend, hrow, hcol]

/-- The margin adds no live cell and takes none away. -/
theorem alive_extend (q : Int × Int) :
    (g.extend top bottom left right).Alive
      (q + ((top : Int), (left : Int))) ↔ g.Alive q := by
  obtain ⟨i, j⟩ := q
  rw [alive_iff, alive_iff, Prod.mk_add_mk]
  constructor
  · rintro ⟨row, col, heq, hlive⟩
    rw [Prod.mk.injEq] at heq
    rw [extend_cellOf] at hlive
    by_cases h : (top ≤ row.val ∧ row.val - top < H) ∧
        left ≤ col.val ∧ col.val - left < W
    · rw [dif_pos h] at hlive
      refine ⟨_, _, ?_, hlive⟩
      show (i, j) = (((row.val - top : Nat) : Int),
        ((col.val - left : Nat) : Int))
      rw [Prod.mk.injEq]
      omega
    · rw [dif_neg h] at hlive
      exact absurd rfl hlive
  · rintro ⟨row, col, heq, hlive⟩
    rw [Prod.mk.injEq] at heq
    refine ⟨⟨top + row.val, by omega⟩, ⟨left + col.val, by omega⟩, ?_, ?_⟩
    · show (i + top, j + left) = (((top + row.val : Nat) : Int),
        ((left + col.val : Nat) : Int))
      rw [Prod.mk.injEq]
      omega
    · have h : (top ≤ top + row.val ∧ top + row.val - top < H) ∧
          left ≤ left + col.val ∧ left + col.val - left < W := by
        omega
      rw [extend_cellOf, dif_pos h]
      simpa using hlive

/-- **The cells of the grid are in the next generation what they are
without the margin.** -/
theorem next_extend (row : Fin H) (col : Fin W)
    (row' : Fin (top + H + bottom)) (col' : Fin (left + W + right))
    (hrow : row'.val = top + row.val) (hcol : col'.val = left + col.val) :
    (g.extend top bottom left right).next (cellOf row' col') =
      g.next (cellOf row col) := by
  have hcell : ((row'.val : Int), (col'.val : Int)) =
      ((row.val : Int), (col.val : Int)) + ((top : Int), (left : Int)) := by
    rw [Prod.mk_add_mk, Prod.mk.injEq]
    omega
  simp only [next_cellOf, hcell,
    conway_translate _ (alive_extend g top bottom left right)]

end Margin

/-! ## `update_grid` on two buffers -/

/-- `update_grid` in a memory with two grids: each cell is read where the
source is, and written where the destination is. -/
def updateGridIn (src dst : Buffer) (mem : Buffer → Grid W H) :
    Except Fault (Buffer → Grid W H) :=
  (List.range H).foldlM (fun mem (i : Nat) =>
    (List.range W).foldlM (fun mem (j : Nat) => do
      let k ← index W i j
      let grid ← (mem dst).setCell k (← isAlive i j (mem src)).toUInt8
      return Function.update mem dst grid) mem) mem

section Memory

variable {src dst : Buffer}

/-- Turns that write the one buffer and leave the other. -/
theorem foldlM_update {α : Type} {source : Grid W H} (hne : src ≠ dst)
    {F : (Buffer → Grid W H) → α → Except Fault (Buffer → Grid W H)}
    {f : Grid W H → α → Except Fault (Grid W H)}
    (h : ∀ mem a, mem src = source →
      F mem a = Function.update mem dst <$> f (mem dst) a) (l : List α)
    {mem : Buffer → Grid W H} (hmem : mem src = source) :
    l.foldlM F mem = Function.update mem dst <$> l.foldlM f (mem dst) := by
  induction l generalizing mem with
  | nil =>
      show _ = Except.ok (Function.update mem dst (mem dst))
      rw [Function.update_eq_self]
      rfl
  | cons a l ih =>
      rw [List.foldlM_cons, List.foldlM_cons, h mem a hmem]
      cases hturn : f (mem dst) a with
      | error e => rfl
      | ok grid =>
          show l.foldlM F (Function.update mem dst grid) =
            Function.update mem dst <$> l.foldlM f grid
          have hsource : Function.update mem dst grid src = source := by
            rw [Function.update_of_ne hne, hmem]
          rw [ih hsource, Function.update_self]
          congr 1
          funext grid'
          rw [Function.update_idem]

/-- The memory is changed at the destination only. -/
theorem updateGridIn_eq (hmax : W * H ≤ intMax) (hne : src ≠ dst)
    (mem : Buffer → Grid W H) : updateGridIn src dst mem =
      .ok (Function.update mem dst (mem src).next) := by
  have hcell : ∀ (i : Nat) (m : Buffer → Grid W H) (j : Nat),
      m src = mem src → (do
        let k ← index W i j
        let grid ← (m dst).setCell k (← isAlive i j (m src)).toUInt8
        return Function.update m dst grid) =
      Function.update m dst <$> (do
        (m dst).setCell (← index W i j) (← isAlive i j (mem src)).toUInt8) := by
    intro i m j hm
    rw [hm]
    cases index W i j with
    | error e => rfl
    | ok k =>
        rw [ok_bind, ok_bind]
        cases isAlive i j (mem src) with
        | error e => rfl
        | ok alive =>
            rw [ok_bind, ok_bind]
            cases (m dst).setCell k alive.toUInt8 <;> rfl
  have hrow : ∀ (m : Buffer → Grid W H) (i : Nat), m src = mem src →
      (List.range W).foldlM (fun mem (j : Nat) => do
        let k ← index W i j
        let grid ← (mem dst).setCell k (← isAlive i j (mem src)).toUInt8
        return Function.update mem dst grid) m =
      Function.update m dst <$> (List.range W).foldlM (fun dst (j : Nat) => do
        dst.setCell (← index W i j) (← isAlive i j (mem src)).toUInt8) (m dst) :=
    fun m i hm => foldlM_update hne (hcell i) (List.range W) hm
  rw [updateGridIn, foldlM_update (f := fun grid (i : Nat) =>
    (List.range W).foldlM (fun dst (j : Nat) => do
      dst.setCell (← index W i j) (← isAlive i j (mem src)).toUInt8) grid)
    hne hrow (List.range H) rfl]
  show Function.update mem dst <$> updateGrid (mem src) (mem dst) = _
  rw [updateGrid_eq hmax]
  rfl

/-- Every cell of the array is in a row and a column. -/
theorem exists_cellOf (x : Fin (W * H)) : ∃ row col, x = cellOf row col := by
  have hW : 0 < W := Nat.pos_of_mul_pos_right (Nat.zero_lt_of_lt x.isLt)
  refine ⟨⟨x.val / W, Nat.div_lt_of_lt_mul x.isLt⟩,
    ⟨x.val % W, Nat.mod_lt _ hW⟩, ?_⟩
  exact Fin.ext (Nat.div_add_mod x.val W).symm

/-- **One step is Conway's rule with a dead border**, as long as an `int`
numbers the cells: `update_grid` leaves the source as it is and fills the
destination by the rule, and a margin of dead cells would have changed
nothing. -/
theorem update_grid_is_conway (hmax : W * H ≤ intMax) (hne : src ≠ dst)
    (mem : Buffer → Grid W H) :
    ∃ mem', updateGridIn src dst mem = .ok mem' ∧ mem' src = mem src ∧
      (∀ x, ∃ row col, x = cellOf row col ∧ mem' dst x =
        if Conway (mem src).Alive (row.val, col.val) then 1 else 0) ∧
      ∀ (top bottom left right : Nat)
        (wide : Buffer → Grid (left + W + right) (top + H + bottom)),
        (left + W + right) * (top + H + bottom) ≤ intMax →
        wide src = (mem src).extend top bottom left right →
        ∃ wide', updateGridIn src dst wide = .ok wide' ∧
          ∀ row col row' col', row'.val = top + row.val →
            col'.val = left + col.val →
            wide' dst (cellOf row' col') = mem' dst (cellOf row col) := by
  refine ⟨_, updateGridIn_eq hmax hne mem, Function.update_of_ne hne _ _, ?_, ?_⟩
  · intro x
    obtain ⟨row, col, rfl⟩ := exists_cellOf x
    refine ⟨row, col, rfl, ?_⟩
    rw [Function.update_self, next_cellOf]
  · intro top bottom left right wide hwidemax hwide
    refine ⟨_, updateGridIn_eq hwidemax hne wide, ?_⟩
    intro row col row' col' hrow hcol
    rw [Function.update_self, Function.update_self, hwide]
    exact next_extend (mem src) top bottom left right row col row' col' hrow
      hcol

end Memory

/-- A row of three live cells in the middle of a grid of dead ones. -/
def blinker : Grid 3 3 := fun x => if x.val / 3 = 1 then 1 else 0

example : ((blinker.next (cellOf 0 1), blinker.next (cellOf 1 1)),
    blinker.next (cellOf 1 0)) = ((1, 1), 0) := by decide

theorem update_grid_is_conway_blinker : ∃ mem',
    updateGridIn .foreground .background (fun _ => blinker) = .ok mem' ∧
      mem' .foreground = blinker := by
  obtain ⟨mem', hrun, hsrc, -⟩ := update_grid_is_conway
    (show 3 * 3 ≤ intMax by decide)
    (show Buffer.foreground ≠ .background by decide) fun _ => blinker
  exact ⟨mem', hrun, hsrc⟩

/-- The last cell of a grid that is too large has no index. -/
theorem updateGridIn_overflows {src dst : Buffer} (row : Fin H) (col : Fin W)
    (hlast : intMax < W * row.val + col.val) {mem mem' : Buffer → Grid W H} :
    updateGridIn src dst mem ≠ .ok mem' := by
  intro hrun
  obtain ⟨m, m', hrow⟩ := exists_turn_of_foldlM hrun
    (List.mem_range.mpr row.isLt)
  obtain ⟨m, m', hcell⟩ := exists_turn_of_foldlM hrow
    (List.mem_range.mpr col.isLt)
  obtain ⟨k, hk, -⟩ := bind_eq_ok.mp hcell
  obtain ⟨x, hx, hk⟩ := bind_eq_ok.mp hk
  by_cases hfits : (W * row.val : Int) ≤ intMax
  · rw [int_eq (by omega) hfits] at hx
    obtain rfl := Except.ok.inj hx
    rw [int_overflow (by omega)] at hk
    cases hk
  · rw [int_overflow (Int.not_le.mp hfits)] at hx
    cases hx

/-- The smallest square whose cells no `int` numbers. -/
theorem update_grid_overflows_large : ¬ ∀ W H : Nat, 1 ≤ W → 1 ≤ H →
    ∀ mem : Buffer → Grid W H, ∃ mem',
      updateGridIn .foreground .background mem = .ok mem' ∧
        mem' .foreground = mem .foreground := by
  intro hclaim
  obtain ⟨mem', hrun, -⟩ := hclaim 46341 46341 (by decide) (by decide)
    fun _ _ => 0
  exact updateGridIn_overflows ⟨46340, by decide⟩ ⟨46340, by decide⟩
    (by decide) hrun

end Sysops.Cw09
