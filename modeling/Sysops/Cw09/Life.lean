import Sysops.Cw09.Ranges
import Sysops.Library.Runs

/-!
# `cw09/life.c`: signals, steps and frames

`main` draws, sends `SIGUSR1` to every thread and sleeps; a thread waits for
the signal, updates its cells and exchanges its two pointers. Nothing makes
a thread wait for another one, and `main` keeps its own two pointers as they
are.
-/

namespace Sysops.Cw09

variable {W H n : Nat}

/-! ## The program -/

/-- Where a thread is: before `pthread_sigmask`, in `sigwait`, before
`update_subgrid`, or behind it. -/
inductive WorkerPc where
  | start | sigwait | update | swap
  deriving DecidableEq

structure Worker where
  pc : WorkerPc
  /-- Whether `SIGUSR1` is pending. -/
  pending : Bool
  args : ThreadArgs
  /-- How often the pointers were exchanged. -/
  steps : Nat

/-- Where `main` is; `kill i` is the test of the loop that signals. -/
inductive MainPc where
  | draw
  | kill (i : Nat)
  | terminated
  deriving DecidableEq

/-- What a call of `update_subgrid` read, and what it left. -/
structure Call (W H : Nat) where
  src : Grid W H
  dst : Grid W H
  start : Int
  stop : Int

/-- The whole process, with a record of its frames and of its calls. -/
structure Life (W H n : Nat) where
  cells : Buffer → Grid W H
  main : MainPc
  workers : Fin n → Worker
  frames : List (Grid W H)
  calls : List (Call W H)

inductive Event (n : Nat) where
  | draw
  | kill (i : Fin n)
  | usleep
  | mask (i : Fin n)
  | sigwait (i : Fin n)
  | update (i : Fin n)
  | swap (i : Fin n)
  deriving DecidableEq

namespace Life

/-- The step can be taken. -/
def Enabled (s : Life W H n) : Event n → Prop
  | .draw => s.main = .draw
  | .kill i => s.main = .kill i
  | .usleep => s.main = .kill n
  | .mask i => s.main ≠ .terminated ∧ (s.workers i).pc = .start
  | .sigwait i => s.main ≠ .terminated ∧ (s.workers i).pc = .sigwait ∧
      (s.workers i).pending = true
  | .update i => s.main ≠ .terminated ∧ (s.workers i).pc = .update
  | .swap i => s.main ≠ .terminated ∧ (s.workers i).pc = .swap

instance (s : Life W H n) : (e : Event n) → Decidable (s.Enabled e)
  | .draw | .kill _ | .usleep => inferInstanceAs (Decidable (_ = _))
  | .mask _ | .update _ | .swap _ => inferInstanceAs (Decidable (_ ∧ _))
  | .sigwait _ => inferInstanceAs (Decidable (_ ∧ _ ∧ _))

def setWorker (s : Life W H n) (i : Fin n) (w : Worker) : Life W H n :=
  { s with workers := Function.update s.workers i w }

@[simp] theorem setWorker_self (s : Life W H n) (i : Fin n) (w : Worker) :
    (s.setWorker i w).workers i = w :=
  Function.update_self ..

theorem setWorker_of_ne (s : Life W H n) {i j : Fin n} (w : Worker)
    (h : j ≠ i) : (s.setWorker i w).workers j = s.workers j :=
  Function.update_of_ne h ..

/-- What all threads had, and the one thread has again. -/
theorem forall_setWorker {P : Fin n → Worker → Prop} (s : Life W H n)
    {i : Fin n} {w : Worker} (hw : P i w)
    (h : ∀ j, j ≠ i → P j (s.workers j)) :
    ∀ j, P j ((s.setWorker i w).workers j) := by
  intro j
  by_cases hj : j = i
  · subst hj
    rw [setWorker_self]
    exact hw
  · rw [setWorker_of_ne s w hj]
    exact h j hj

/-- What the step does. -/
def next (s : Life W H n) : Event n → Life W H n
  | .draw =>
      { s with frames := s.frames ++ [s.cells .foreground], main := .kill 0 }
  | .kill i =>
      -- a thread that has not blocked the signal takes its default action
      if (s.workers i).pc = .start then { s with main := .terminated }
      else { s.setWorker i { s.workers i with pending := true } with
        main := .kill (i + 1) }
  | .usleep => { s with main := .draw }
  | .mask i => s.setWorker i { s.workers i with pc := .sigwait }
  | .sigwait i =>
      s.setWorker i { s.workers i with pc := .update, pending := false }
  | .update i =>
      let args := (s.workers i).args
      let src := s.cells args.foreground
      match updateSubgrid src (s.cells args.background) args.start
        args.stop with
      | .error _ => { s with main := .terminated }
      | .ok dst =>
          { s.setWorker i { s.workers i with pc := .swap } with
            cells := Function.update s.cells args.background dst
            calls := s.calls ++ [⟨src, dst, args.start, args.stop⟩] }
  | .swap i =>
      let w := s.workers i
      s.setWorker i { w with
        pc := .sigwait
        args := { w.args with
          foreground := w.args.background
          background := w.args.foreground }
        steps := w.steps + 1 }

/-- The step, if it can be taken. -/
def step (s : Life W H n) (e : Event n) : Option (Life W H n) :=
  if s.Enabled e then some (s.next e) else none

/-- `main` before its first frame: all threads are created. -/
def initial (n : Nat) (grid background : Grid W H) : Life W H n where
  cells
    | .foreground => grid
    | .background => background
  main := .draw
  workers i := ⟨.start, false, threadArgs W H n i, 0⟩
  frames := []
  calls := []

end Life

/-- The program on an initial grid, with anything in the other buffer. -/
def life (n : Nat) (grid : Grid W H) : System (Life W H n) (Event n) where
  init s := ∃ background, s = Life.initial n grid background
  step s e t := s.Enabled e ∧ t = s.next e

theorem life_step {grid : Grid W H} {s t : Life W H n} {e : Event n}
    (h : s.step e = some t) : (life n grid).step s e t := by
  rw [Life.step] at h
  split at h
  · rename_i hen
    exact ⟨hen, (Option.some.inj h).symm⟩
  · cases h

/-! ## Generations -/

/-- The Life generation `k` of a grid. -/
def generation (grid : Grid W H) : Nat → Grid W H
  | 0 => grid
  | k + 1 => (generation grid k).next

/-- `update_grid` makes the next one. -/
theorem updateGrid_generation (hmax : W * H ≤ intMax) (grid dst : Grid W H)
    (k : Nat) :
    updateGrid (generation grid k) dst = .ok (generation grid (k + 1)) :=
  updateGrid_eq hmax _ dst

/-- The call read one generation and wrote cells of the next one. -/
def Call.OneGeneration (grid : Grid W H) (c : Call W H) : Prop :=
  ∃ k, c.src = generation grid k ∧ ∀ x : Fin (W * H),
    c.start ≤ x → x < c.stop → c.dst x = generation grid (k + 1) x

/-- How often the thread has called `update_subgrid`. -/
def Worker.updates (w : Worker) : Nat :=
  if w.pc = .swap then w.steps + 1 else w.steps

theorem Worker.updates_of_ne {w : Worker} (h : w.pc ≠ .swap) :
    w.updates = w.steps :=
  if_neg h

theorem Worker.steps_le_updates (w : Worker) : w.steps ≤ w.updates := by
  unfold updates
  split <;> omega

/-- A call of `update_subgrid` is made by a thread that has made no more of
them than any other. -/
def Level (s : Life W H n) (e : Event n) : Prop :=
  ∀ i, e = .update i → ∀ j, (s.workers i).updates ≤ (s.workers j).updates

/-- A frame is drawn when all threads have completed as many steps as there
were rounds of signals. -/
def RoundsComplete (s : Life W H n) (e : Event n) : Prop :=
  e = .draw → ∀ i, (s.workers i).steps = s.frames.length

instance (s : Life W H n) (e : Event n) : Decidable (Level s e) :=
  inferInstanceAs (Decidable (∀ _, _ → ∀ _, _))

instance (s : Life W H n) (e : Event n) : Decidable (RoundsComplete s e) :=
  inferInstanceAs (Decidable (_ → ∀ _, _))

/-! ## The buffers -/

/-- The buffer that holds a generation, while it is there. -/
def Buffer.ofStep (k : Nat) : Buffer :=
  if k % 2 = 0 then .foreground else .background

theorem Buffer.ofStep_succ_ne (k : Nat) : ofStep (k + 1) ≠ ofStep k := by
  unfold ofStep
  split <;> split <;> first | omega | decide

theorem Buffer.ofStep_add_two (k : Nat) : ofStep (k + 2) = ofStep k := by
  unfold ofStep
  rw [Nat.add_mod_right]

/-- The arguments of the thread `i` after its steps. -/
structure Worker.Own (W H n : Nat) (i : Fin n) (w : Worker) : Prop where
  start : w.args.start = (threadArgs W H n i).start
  stop : w.args.stop = (threadArgs W H n i).stop
  foreground : w.args.foreground = .ofStep w.steps
  background : w.args.background = .ofStep (w.steps + 1)

/-- Each thread's cells hold its last two generations, and no thread is two
steps ahead of another. -/
structure Follows (grid : Grid W H) (s : Life W H n) : Prop where
  own : ∀ i, (s.workers i).Own W H n i
  holds : ∀ (i : Fin n) (x : Fin (W * H)) k, InRange W H n i x →
    k ≤ (s.workers i).updates → (s.workers i).updates ≤ k + 1 →
      s.cells (.ofStep k) x = generation grid k x
  spread : ∀ i j, (s.workers i).updates ≤ (s.workers j).updates + 1
  calls : ∀ c ∈ s.calls, c.OneGeneration grid

section Steps

variable {grid : Grid W H} {s t : Life W H n}

theorem own_initial (i : Fin n) :
    Worker.Own W H n i ⟨.start, false, threadArgs W H n i, 0⟩ :=
  ⟨rfl, rfl, rfl, rfl⟩

/-- The call of `update_subgrid` does not leave the buffers. -/
theorem next_update (hadm : Admitted W H n) {i : Fin n}
    (hown : (s.workers i).Own W H n i) : s.next (.update i) =
      { s.setWorker i { s.workers i with pc := .swap } with
        cells := Function.update s.cells (.ofStep ((s.workers i).steps + 1))
          ((s.cells (.ofStep (s.workers i).steps)).nextOn
            (s.cells (.ofStep ((s.workers i).steps + 1)))
            (threadArgs W H n i).start (threadArgs W H n i).stop)
        calls := s.calls ++ [⟨s.cells (.ofStep (s.workers i).steps),
          (s.cells (.ofStep (s.workers i).steps)).nextOn
            (s.cells (.ofStep ((s.workers i).steps + 1)))
            (threadArgs W H n i).start (threadArgs W H n i).stop,
          (threadArgs W H n i).start, (threadArgs W H n i).stop⟩] } := by
  have hcall := updateSubgrid_eq hadm.size (s.cells (.ofStep (s.workers i).steps))
    (s.cells (.ofStep ((s.workers i).steps + 1)))
    (hadm.start_nonneg i.isLt) (hadm.stop_le i.isLt)
  simp only [Life.next, hown.foreground, hown.background, hown.start,
    hown.stop, hcall]

theorem own_next (hadm : Admitted W H n)
    (hown : ∀ i, (s.workers i).Own W H n i) (e : Event n) :
    ∀ i, ((s.next e).workers i).Own W H n i := by
  have hset : ∀ i w, Worker.Own W H n i w →
      ∀ j, ((s.setWorker i w).workers j).Own W H n j :=
    fun i w hw => s.forall_setWorker hw fun j _ => hown j
  cases e with
  | draw | usleep => exact hown
  | kill i =>
      obtain ⟨hstart, hstop, hforeground, hbackground⟩ := hown i
      rw [Life.next]
      split
      · exact hown
      · exact hset i _ ⟨hstart, hstop, hforeground, hbackground⟩
  | mask i | sigwait i =>
      obtain ⟨hstart, hstop, hforeground, hbackground⟩ := hown i
      exact hset i _ ⟨hstart, hstop, hforeground, hbackground⟩
  | update i =>
      obtain ⟨hstart, hstop, hforeground, hbackground⟩ := hown i
      rw [next_update hadm (hown i)]
      exact hset i _ ⟨hstart, hstop, hforeground, hbackground⟩
  | swap i =>
      obtain ⟨hstart, hstop, hforeground, hbackground⟩ := hown i
      refine hset i _ ⟨hstart, hstop, hbackground, ?_⟩
      rw [Buffer.ofStep_add_two]
      exact hforeground

/-- In every run, the pointers follow from the number of steps. -/
theorem own_of_reachable (hadm : Admitted W H n)
    (h : (life n grid).Reachable s) : ∀ i, (s.workers i).Own W H n i := by
  refine h.invariant (I := fun s => ∀ i, (s.workers i).Own W H n i) ?_ ?_
  · rintro s ⟨background, rfl⟩
    exact own_initial
  · rintro s e t hs - ⟨-, rfl⟩
    exact own_next hadm hs e

/-- After a step that touches neither the cells nor the updates. -/
theorem Follows.of_eq (h : Follows grid s) (hcells : t.cells = s.cells)
    (hcalls : t.calls = s.calls)
    (hown : ∀ i, (t.workers i).Own W H n i)
    (hupdates : ∀ i, (t.workers i).updates = (s.workers i).updates) :
    Follows grid t := by
  refine ⟨hown, ?_, ?_, ?_⟩
  · intro i x k hx hlow hhigh
    rw [hupdates] at hlow hhigh
    rw [hcells]
    exact h.holds i x k hx hlow hhigh
  · intro i j
    rw [hupdates, hupdates]
    exact h.spread i j
  · rw [hcalls]
    exact h.calls

/-- After a step of one thread that is no update. -/
theorem Follows.setWorker (h : Follows grid s) {i : Fin n} {w : Worker}
    (hown : w.Own W H n i) (hupdates : w.updates = (s.workers i).updates) :
    Follows grid (s.setWorker i w) :=
  h.of_eq rfl rfl (s.forall_setWorker hown fun j _ => h.own j)
    (s.forall_setWorker (P := fun j w => w.updates = (s.workers j).updates)
      hupdates fun _ _ => rfl)

/-- With the slowest threads at `k`, the buffer of that generation is
complete. -/
theorem Follows.source (hadm : Admitted W H n) (h : Follows grid s)
    {k : Nat} (hlow : ∀ i, k ≤ (s.workers i).updates)
    (hhigh : ∀ i, (s.workers i).updates ≤ k + 1) :
    s.cells (.ofStep k) = generation grid k := by
  funext x
  obtain ⟨i, ⟨hi, hrange⟩, -⟩ := hadm.existsUnique_range x.isLt
  exact h.holds ⟨i, hi⟩ x k hrange (hlow _) (hhigh _)

/-- What a thread writes leaves the cells of the others as they are. -/
theorem update_other (hadm : Admitted W H n) (cells : Buffer → Grid W H)
    (src : Grid W H) {i j : Fin n} (hj : j ≠ i) {x : Fin (W * H)}
    (hx : InRange W H n j x) (b c : Buffer) :
    Function.update cells b (src.nextOn (cells b) (threadArgs W H n i).start
      (threadArgs W H n i).stop) c x = cells c x := by
  by_cases hbuffer : c = b
  · -- the buffer is written, but not in these cells
    have hout : ¬ InRange W H n i x := by
      intro hin
      have hunique := (hadm.existsUnique_range x.isLt).unique
        ⟨j.isLt, hx⟩ ⟨i.isLt, hin⟩
      exact hj (Fin.ext hunique)
    rw [hbuffer, Function.update_self, nextOn_of_not_inRange _ _ hout]
  · rw [Function.update_of_ne hbuffer]

/-- The step of a thread that no other one is behind. -/
theorem Follows.update (hadm : Admitted W H n) (h : Follows grid s)
    {i : Fin n} (hpc : (s.workers i).pc = .update)
    (hlevel : ∀ j, (s.workers i).updates ≤ (s.workers j).updates) :
    Follows grid (s.next (.update i)) := by
  have hown := own_next hadm h.own (.update i)
  have hsteps : (s.workers i).updates = (s.workers i).steps := by
    refine Worker.updates_of_ne ?_
    rw [hpc]
    decide
  have hnow : Worker.updates { s.workers i with pc := .swap } =
    (s.workers i).steps + 1 := if_pos rfl
  rw [hsteps] at hlevel
  have hahead : ∀ j, (s.workers j).updates ≤ (s.workers i).steps + 1 := by
    intro j
    rw [← hsteps]
    exact h.spread j i
  have hsrc := h.source hadm hlevel hahead
  rw [next_update hadm (h.own i), hsrc] at hown ⊢
  refine ⟨hown, ?_, ?_, ?_⟩
  · intro j x k hx hlow hhigh
    by_cases hj : j = i
    · -- its new cells in one buffer, the ones it read in the other
      subst hj
      rw [Life.setWorker_self, hnow] at hlow hhigh
      rcases Nat.eq_or_lt_of_le hlow with rfl | hlt
      · show Function.update s.cells _ _ _ x = _
        rw [Function.update_self, nextOn_of_inRange _ _ hx]
        rfl
      · obtain rfl : k = (s.workers j).steps := by omega
        show Function.update s.cells _ _ _ x = _
        rw [Function.update_of_ne (Buffer.ofStep_succ_ne _).symm, hsrc]
    · rw [s.setWorker_of_ne _ hj] at hlow hhigh
      exact (update_other hadm s.cells _ hj hx _ _).trans
        (h.holds j x k hx hlow hhigh)
  · have hupdates : ∀ j, (s.workers i).steps ≤ ((s.setWorker i
        { s.workers i with pc := .swap }).workers j).updates ∧
          ((s.setWorker i { s.workers i with pc := .swap }).workers j).updates
            ≤ (s.workers i).steps + 1 := by
      refine s.forall_setWorker (P := fun _ w => (s.workers i).steps ≤
        w.updates ∧ w.updates ≤ (s.workers i).steps + 1) ?_
        fun j _ => ⟨hlevel j, hahead j⟩
      rw [hnow]
      exact ⟨Nat.le_succ _, Nat.le_refl _⟩
    intro j k
    exact Nat.le_trans (hupdates j).2
      (Nat.add_le_add_right (hupdates k).1 1)
  · intro c hc
    rcases List.mem_append.mp hc with hc | hc
    · exact h.calls c hc
    · obtain rfl := List.mem_singleton.mp hc
      exact ⟨(s.workers i).steps, rfl, fun x hlow hhigh =>
        if_pos ⟨hlow, hhigh⟩⟩

theorem Follows.step (hadm : Admitted W H n) (h : Follows grid s)
    {e : Event n} (hlevel : Level s e) (hen : s.Enabled e) :
    Follows grid (s.next e) := by
  have hown := own_next hadm h.own e
  cases e with
  | draw | usleep => exact h.of_eq rfl rfl hown fun _ => rfl
  | kill i =>
      by_cases hpc : (s.workers i).pc = .start
      · simp only [Life.next, if_pos hpc] at hown ⊢
        exact h.of_eq rfl rfl hown fun _ => rfl
      · simp only [Life.next, if_neg hpc] at hown ⊢
        exact h.of_eq rfl rfl hown (s.forall_setWorker
          (P := fun j w => w.updates = (s.workers j).updates) rfl
          fun _ _ => rfl)
  | mask i =>
      have hpc : (s.workers i).pc ≠ .swap := by
        rw [hen.2]
        decide
      have hi := hown i
      simp only [Life.next, Life.setWorker_self] at hi
      exact h.setWorker hi (Worker.updates_of_ne hpc).symm
  | sigwait i =>
      have hpc : (s.workers i).pc ≠ .swap := by
        rw [hen.2.1]
        decide
      have hi := hown i
      simp only [Life.next, Life.setWorker_self] at hi
      exact h.setWorker hi (Worker.updates_of_ne hpc).symm
  | update i => exact h.update hadm hen.2 (hlevel i rfl)
  | swap i =>
      have hi := hown i
      simp only [Life.next, Life.setWorker_self] at hi
      refine h.setWorker hi ?_
      rw [Worker.updates, Worker.updates, if_pos hen.2]
      rfl

/-! ## What is read -/

theorem follows_initial (background : Grid W H) :
    Follows grid (Life.initial n grid background) := by
  refine ⟨fun i => own_initial i, ?_, ?_, ?_⟩
  · intro i x k hx hlow hhigh
    obtain rfl := Nat.le_zero.mp hlow
    rfl
  · intro i j
    exact Nat.zero_le _
  · intro c hc
    cases hc

/-- **While only threads that are not ahead update their cells, every call
reads one generation and writes the next.** -/
theorem calls_on_one_generation (hadm : Admitted W H n)
    (h : (life n grid).ReachableIf Level s) :
    ∀ c ∈ s.calls, c.OneGeneration grid := by
  refine Follows.calls (h.invariant ?_ ?_)
  · rintro s ⟨background, rfl⟩
    exact follows_initial background
  · rintro s e t hs hlevel ⟨hen, rfl⟩
    exact hs.step hadm hlevel hen

end Steps

/-- Two rows of two live cells, below the middle of the grid. -/
def block : Grid 30 30 := fun x =>
  if x.val = 610 ∨ x.val = 611 ∨ x.val = 640 ∨ x.val = 641 then 1 else 0

theorem at_block {y : Int} (h : y < 610 ∨ 641 < y) : block.at y = 0 := by
  unfold Grid.at
  split
  · refine if_neg ?_
    rintro (hy | hy | hy | hy) <;> change y.toNat = _ at hy <;> omega
  · rfl

/-- It never changes. -/
theorem generation_block (k : Nat) : generation block k = block := by
  have hnear : ∀ x : Fin (30 * 30), 579 ≤ x.val → x.val ≤ 672 →
      block.next x = block x := by
    decide +kernel
  have hstill : block.next = block := by
    funext x
    by_cases hx : 579 ≤ x.val ∧ x.val ≤ 672
    · exact hnear x hx.1 hx.2
    · have hdead : block x = 0 := by
        refine if_neg ?_
        omega
      rw [hdead, next_eq_zero]
      intro y hlow hhigh
      refine at_block ?_
      omega
  induction k with
  | zero => rfl
  | succ k ih => rw [generation, ih, hstill]

/-- A round, in which some of the threads get to run. -/
def firstRound (l : List (Fin n)) : List (Event n) :=
  [.draw] ++ (List.finRange n).map .mask ++ (List.finRange n).map .kill ++
    l.flatMap fun i => [.sigwait i, .update i, .swap i]

/-- The same, and the signals of a second round, one of which has been
taken. -/
def secondRound (l : List (Fin n)) (i : Fin n) : List (Event n) :=
  firstRound l ++ [.usleep, .draw] ++ (List.finRange n).map .kill ++
    [.sigwait i]

/-- Three cells in a row. -/
def threeInARow : Grid 3 3 := fun x => if x.val / 3 = 1 then 1 else 0

/-- Both of two threads take a step, and then the second its next one. -/
theorem three_calls : ∃ s, (life 2 threeInARow).ReachableIf Level s ∧
    s.calls.length = 3 ∧ (s.workers 0).updates = 1 ∧
    (s.workers 1).updates = 2 ∧ ∀ c ∈ s.calls, c.OneGeneration threeInARow := by
  have hadm : Admitted 3 3 2 := ⟨by decide, by decide, by decide⟩
  have hrun : ∃ s, (life 2 threeInARow).ReachableIf Level s ∧
      decide (s.calls.length = 3 ∧ (s.workers 0).updates = 1 ∧
        (s.workers 1).updates = 2) = true :=
    System.ReachableIf.exists_of_runLabels Life.step
      (fun _ _ _ => life_step) (secondRound [0, 1] 1 ++ [.update 1])
      (.init ⟨fun _ => 0, rfl⟩) (by decide +kernel)
  obtain ⟨s, hs, hp⟩ := hrun
  obtain ⟨hlength, hfirst, hsecond⟩ := of_decide_eq_true hp
  exact ⟨s, hs, hlength, hfirst, hsecond, calls_on_one_generation hadm hs⟩

/-- The first thread takes its second step, and reads what the others have
not written. -/
theorem thread_runs_ahead : ¬ ∀ (n : Nat) (grid : Grid 30 30),
    Admitted 30 30 n → ∀ s, (life n grid).Reachable s →
      ∀ c ∈ s.calls, c.OneGeneration grid := by
  intro h
  have hadm : Admitted 30 30 10 := ⟨by decide, by decide, by decide⟩
  have hrun : ∃ s, (life 10 block).Reachable s ∧
      decide (s.Enabled (.update 0) ∧ (s.workers 0).steps = 1 ∧
        s.cells .background ⟨610, by decide⟩ = 0) = true :=
    System.ReachableIf.exists_of_runLabels Life.step
      (fun _ _ _ => life_step) (secondRound [0] 0)
      (.init ⟨fun _ => 0, rfl⟩) (by decide +kernel)
  obtain ⟨s, hs, hlast⟩ := hrun
  obtain ⟨hen, hsteps, hcell⟩ := of_decide_eq_true hlast
  have hcalls := h 10 block hadm _ (hs.step ⟨hen, rfl⟩)
  rw [next_update hadm (own_of_reachable hadm hs 0), hsteps] at hcalls
  obtain ⟨k, hsrc, -⟩ := hcalls _ (List.mem_append_right _ (.head _))
  rw [generation_block] at hsrc
  have hblock : s.cells .background ⟨610, by decide⟩ = 1 :=
    congrFun hsrc ⟨610, by decide⟩
  rw [hcell] at hblock
  cases hblock

end Sysops.Cw09
