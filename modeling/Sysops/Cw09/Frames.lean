import Sysops.Cw09.Life

/-!
# `cw09/life.c`: what is drawn

If the rounds of signals are far enough apart, no thread gets ahead of
another one. But `main` draws the same buffer in every round, and the
generation of the round is in it only every second time.
-/

namespace Sysops.Cw09

variable {W H n : Nat} {grid : Grid W H} {s t : Life W H n}

/-! ## Rounds -/

/-- The signals that a thread was sent and has not answered with a step. -/
def Worker.owed (w : Worker) : Nat :=
  w.pending.toNat + if w.pc = .update ∨ w.pc = .swap then 1 else 0

/-- The signals that `main` has sent to the thread `i`. -/
def Life.sent (s : Life W H n) (i : Fin n) : Nat :=
  match s.main with
  | .draw | .terminated => s.frames.length
  | .kill j => if i < j then s.frames.length else s.frames.length - 1

/-- Each thread answers each signal at most once, and is less than two
rounds late. -/
structure OnTime (s : Life W H n) : Prop where
  sent : ∀ i, (s.workers i).steps + (s.workers i).owed ≤ s.sent i
  late : ∀ i, s.frames.length ≤ (s.workers i).steps + 1
  drawn : s.main ≠ .draw → 1 ≤ s.frames.length

theorem Life.sent_le (s : Life W H n) (i : Fin n) :
    s.sent i ≤ s.frames.length := by
  unfold sent
  split
  · exact Nat.le_refl _
  · exact Nat.le_refl _
  · split <;> omega

theorem Life.sent_draw (s : Life W H n) (i : Fin n) (h : s.main = .draw) :
    s.sent i = s.frames.length := by
  simp only [sent, h]

theorem Life.sent_kill (s : Life W H n) (i : Fin n) {j : Nat}
    (h : s.main = .kill j) : s.sent i =
      if i < j then s.frames.length else s.frames.length - 1 := by
  simp only [sent, h]

/-- A thread that updates its cells is then not ahead. -/
theorem OnTime.level (h : OnTime s) {e : Event n} (hen : s.Enabled e) :
    Level s e := by
  rintro i rfl j
  have hpc : (s.workers i).pc = .update := hen.2
  have howed : 1 ≤ (s.workers i).owed := by
    rw [Worker.owed, if_pos (.inl hpc)]
    exact Nat.le_add_left 1 _
  have hupdates : (s.workers i).updates = (s.workers i).steps := by
    refine Worker.updates_of_ne ?_
    rw [hpc]
    decide
  have hsent := h.sent i
  have hle := s.sent_le i
  have hlate := h.late j
  have hsteps := (s.workers j).steps_le_updates
  omega

/-- After a step that draws nothing. -/
theorem OnTime.of_sent (h : OnTime s) (hframes : t.frames = s.frames)
    (hmain : t.main ≠ .draw → s.main ≠ .draw)
    (hsteps : ∀ i, (s.workers i).steps ≤ (t.workers i).steps)
    (hsent : ∀ i, (t.workers i).steps + (t.workers i).owed + s.sent i ≤
      (s.workers i).steps + (s.workers i).owed + t.sent i) : OnTime t := by
  refine ⟨?_, ?_, ?_⟩
  · intro i
    have hle := h.sent i
    have hi := hsent i
    omega
  · intro i
    rw [hframes]
    exact Nat.le_trans (h.late i) (Nat.add_le_add_right (hsteps i) 1)
  · intro hdraw
    rw [hframes]
    exact h.drawn (hmain hdraw)

theorem OnTime.setWorker (h : OnTime s) {i : Fin n} {w : Worker}
    (hsteps : (s.workers i).steps ≤ w.steps)
    (howed : w.steps + w.owed ≤ (s.workers i).steps + (s.workers i).owed) :
    OnTime (s.setWorker i w) := by
  refine h.of_sent rfl (fun hmain => hmain) ?_ ?_
  · exact s.forall_setWorker (P := fun j w => (s.workers j).steps ≤ w.steps)
      hsteps fun _ _ => Nat.le_refl _
  · exact s.forall_setWorker (P := fun j w => w.steps + w.owed + s.sent j ≤
      (s.workers j).steps + (s.workers j).owed + s.sent j)
      (Nat.add_le_add_right howed _) fun _ _ => Nat.le_refl _

theorem OnTime.terminated (h : OnTime s) (hmain : s.main ≠ .draw) :
    OnTime { s with main := .terminated } := by
  refine h.of_sent rfl (fun _ => hmain) (fun _ => Nat.le_refl _) ?_
  intro i
  exact Nat.add_le_add_left (s.sent_le i) _

/-- A frame is drawn, and nothing of its round is sent yet. -/
theorem OnTime.draw (h : OnTime s) (hmain : s.main = .draw)
    (hsteps : ∀ i, (s.workers i).steps = s.frames.length) :
    OnTime (s.next .draw) := by
  have hlength : (s.next .draw).frames.length = s.frames.length + 1 :=
    List.length_append
  refine ⟨?_, ?_, ?_⟩
  · intro i
    have hsent := h.sent i
    rw [s.sent_draw i hmain] at hsent
    rw [(s.next .draw).sent_kill i rfl, if_neg (Nat.not_lt_zero _), hlength]
    exact hsent
  · intro i
    rw [hlength, ← hsteps i]
    exact Nat.le_refl _
  · intro hdraw
    rw [hlength]
    exact Nat.le_add_left 1 _

/-- One more thread is sent the signal of this round. -/
theorem OnTime.kill (h : OnTime s) {i : Fin n} (hmain : s.main = .kill i) :
    OnTime (s.next (.kill i)) := by
  have hne : s.main ≠ .draw := by
    rw [hmain]
    exact fun heq => MainPc.noConfusion heq
  have hdrawn := h.drawn hne
  rw [Life.next]
  split
  · exact h.terminated hne
  · refine h.of_sent rfl (fun _ => hne) ?_ ?_
    · exact s.forall_setWorker (P := fun j w => (s.workers j).steps ≤ w.steps)
        (Nat.le_refl _) fun _ _ => Nat.le_refl _
    · intro j
      rw [s.sent_kill j hmain, Life.sent_kill _ j rfl]
      show ((s.setWorker i _).workers j).steps +
        ((s.setWorker i _).workers j).owed + _ ≤ _
      by_cases hj : j = i
      · -- one signal more is sent, and one more owed
        subst hj
        have howed : Worker.owed { s.workers j with pending := true } ≤
            (s.workers j).owed + 1 := by
          unfold Worker.owed
          split <;> simp
        rw [Life.setWorker_self, if_neg (Nat.lt_irrefl _),
          if_pos (Nat.lt_succ_self _)]
        show (s.workers j).steps + _ + _ ≤ _ + _ + s.frames.length
        omega
      · have hne : (j : Nat) ≠ i := fun heq => hj (Fin.ext heq)
        have hiff : (j : Nat) < i + 1 ↔ (j : Nat) < i := by omega
        rw [s.setWorker_of_ne _ hj]
        simp only [hiff]
        exact Nat.le_refl _

theorem OnTime.step (hadm : Admitted W H n) (hfollows : Follows grid s)
    (h : OnTime s) {e : Event n} (hrounds : RoundsComplete s e)
    (hen : s.Enabled e) : OnTime (s.next e) := by
  cases e with
  | draw => exact h.draw hen (hrounds rfl)
  | kill i => exact h.kill hen
  | usleep =>
      have hmain : s.main = .kill n := hen
      refine h.of_sent rfl (fun hdraw => absurd rfl hdraw)
        (fun _ => Nat.le_refl _) ?_
      intro i
      exact Nat.add_le_add_left (s.sent_le i) _
  | mask i =>
      refine h.setWorker (Nat.le_refl _) ?_
      simp [Worker.owed]
  | sigwait i =>
      obtain ⟨-, hpc, hpending⟩ := hen
      refine h.setWorker (Nat.le_refl _) ?_
      simp [Worker.owed, hpc, hpending]
  | update i =>
      -- the signal stays owed until the buffers are swapped
      obtain ⟨-, hpc⟩ := hen
      have hset := h.setWorker (i := i)
        (w := { s.workers i with pc := .swap }) (Nat.le_refl _) (by
          simp [Worker.owed, hpc])
      rw [next_update hadm (hfollows.own i)]
      exact hset.of_sent rfl (fun hdraw => hdraw) (fun _ => Nat.le_refl _)
        fun _ => Nat.le_refl _
  | swap i =>
      refine h.setWorker (Nat.le_succ _) ?_
      simp [Worker.owed, hen.2]
      omega

/-! ## Frames -/

/-- The frame `k` is in the buffer that was given to `main` first: every
second generation, twice. -/
structure Draws (grid : Grid W H) (s : Life W H n) : Prop where
  follows : Follows grid s
  onTime : OnTime s
  frames : ∀ k (hk : k < s.frames.length),
    s.frames[k] = generation grid (k - k % 2)

/-- With `k` steps completed by all threads, the first buffer. -/
theorem Follows.foreground (hadm : Admitted W H n) (h : Follows grid s)
    {k : Nat} (hupdates : ∀ i, (s.workers i).updates = k) :
    s.cells .foreground = generation grid (k - k % 2) := by
  have hbuffer : Buffer.ofStep (k - k % 2) = .foreground := by
    have heven : (k - k % 2) % 2 = 0 := by omega
    exact if_pos heven
  rw [← hbuffer]
  refine h.source hadm ?_ ?_
  · intro i
    rw [hupdates i]
    omega
  · intro i
    rw [hupdates i]
    omega

/-- With all steps completed, none is half done. -/
theorem OnTime.updates_eq (h : OnTime s) (hmain : s.main = .draw)
    {i : Fin n} (hsteps : (s.workers i).steps = s.frames.length) :
    (s.workers i).updates = s.frames.length := by
  have hsent := h.sent i
  rw [s.sent_draw i hmain, hsteps] at hsent
  have hpc : (s.workers i).pc ≠ .swap := by
    intro hpc
    rw [Worker.owed, if_pos (.inr hpc)] at hsent
    omega
  rw [Worker.updates_of_ne hpc, hsteps]

theorem Draws.step (hadm : Admitted W H n) (h : Draws grid s)
    {e : Event n} (hrounds : RoundsComplete s e) (hen : s.Enabled e) :
    Draws grid (s.next e) := by
  obtain ⟨hfollows, honTime, hframes⟩ := h
  refine ⟨hfollows.step hadm (honTime.level hen) hen,
    honTime.step hadm hfollows hrounds hen, ?_⟩
  cases e with
  | draw =>
      have hdrawn := hfollows.foreground hadm fun i =>
        honTime.updates_eq hen (hrounds rfl i)
      intro k hk
      simp only [Life.next, List.getElem_append]
      split
      · exact hframes k _
      · rename_i hlast
        have hlength : (s.next .draw).frames.length = s.frames.length + 1 :=
          List.length_append
        rw [hlength] at hk
        obtain rfl : k = s.frames.length := by omega
        rw [List.getElem_singleton]
        exact hdrawn
  | kill i =>
      rw [Life.next]
      split
      · exact hframes
      · exact hframes
  | update i =>
      rw [next_update hadm (hfollows.own i)]
      exact hframes
  | usleep | mask i | sigwait i | swap i => exact hframes

theorem draws_of_roundsComplete (hadm : Admitted W H n)
    (h : (life n grid).ReachableIf RoundsComplete s) : Draws grid s := by
  refine h.invariant ?_ ?_
  · rintro s ⟨background, rfl⟩
    refine ⟨follows_initial background, ⟨?_, ?_, ?_⟩, ?_⟩
    · intro i
      exact Nat.le_refl _
    · intro i
      exact Nat.zero_le _
    · intro hdraw
      exact absurd rfl hdraw
    · intro k hk
      exact absurd hk (Nat.not_lt_zero k)
  · rintro s e t hs hrounds ⟨hen, rfl⟩
    exact hs.step hadm hrounds hen

/-! ## Rounds that end in time -/

/-- A thread that waits, with or without a signal, after `k` steps. -/
structure Worker.Waits (pending : Bool) (k : Nat) (w : Worker) : Prop where
  pc : w.pc = .sigwait
  pending : w.pending = pending
  steps : w.steps = k

/-- `main` is about to draw the frame `k`, and the threads wait. -/
structure Ready (k : Nat) (s : Life W H n) : Prop where
  main : s.main = .draw
  frames : s.frames.length = k
  workers : ∀ i, (s.workers i).Waits false k

/-- In a loop over the threads, before the turn of the thread `i`: those
before it are as in `Q`, it and those after it as in `P`. -/
structure Turn (main : MainPc) (k : Nat) (P Q : Worker → Prop) (i : Nat)
    (s : Life W H n) : Prop where
  main : s.main = main
  frames : s.frames.length = k
  workers : ∀ j : Fin n, if j < i then Q (s.workers j) else P (s.workers j)

section Turns

variable {main main' : MainPc} {k : Nat} {P Q : Worker → Prop}

theorem Turn.zero (hmain : s.main = main) (hframes : s.frames.length = k)
    (h : ∀ j, P (s.workers j)) : Turn main k P Q 0 s := by
  refine ⟨hmain, hframes, fun j => ?_⟩
  rw [if_neg (Nat.not_lt_zero _)]
  exact h j

theorem Turn.self {i : Fin n} (h : Turn main k P Q i s) :
    P (s.workers i) := by
  have hi := h.workers i
  rwa [if_neg (Nat.lt_irrefl _)] at hi

theorem Turn.last (h : Turn main k P Q n s) (j : Fin n) :
    Q (s.workers j) := by
  have hj := h.workers j
  rwa [if_pos j.isLt] at hj

/-- The thread of the turn gets from `P` to `Q`. -/
theorem Turn.next {i : Fin n} (h : Turn main k P Q i s)
    (hmain : t.main = main') (hframes : t.frames = s.frames)
    (hself : Q (t.workers i))
    (hothers : ∀ j, j ≠ i → t.workers j = s.workers j) :
    Turn main' k P Q (i + 1) t := by
  refine ⟨hmain, ?_, ?_⟩
  · rw [hframes]
    exact h.frames
  · intro j
    by_cases hj : j = i
    · subst hj
      rw [if_pos (Nat.lt_succ_self _)]
      exact hself
    · have hne : (j : Nat) ≠ i := fun heq => hj (Fin.ext heq)
      have hiff : (j : Nat) < i + 1 ↔ (j : Nat) < i := by omega
      simp only [hiff, hothers j hj]
      exact h.workers j

end Turns

/-- What an update does outside of the cells. -/
theorem next_update_worker (hadm : Admitted W H n) {i : Fin n}
    (hown : (s.workers i).Own W H n i) :
    (s.next (.update i)).main = s.main ∧
      (s.next (.update i)).frames = s.frames ∧
        (s.next (.update i)).workers = Function.update s.workers i
          { s.workers i with pc := .swap } := by
  rw [next_update hadm hown]
  exact ⟨rfl, rfl, rfl⟩

section Rounds

variable {k : Nat}

/-- A step that draws no frame meets the condition on frames. -/
theorem reach_next (h : (life n grid).ReachableIf RoundsComplete s)
    {e : Event n} (he : e ≠ .draw) (hen : s.Enabled e) :
    (life n grid).ReachableIf RoundsComplete (s.next e) :=
  h.step (fun heq => absurd heq he) ⟨hen, rfl⟩

/-- A thread that waits is signalled. -/
theorem kill_turn (i : Fin n)
    (hs : (life n grid).ReachableIf RoundsComplete s)
    (h : Turn (.kill i) k (Worker.Waits false (k - 1))
      (Worker.Waits true (k - 1)) i s) :
    ∃ t, (life n grid).ReachableIf RoundsComplete t ∧
      Turn (.kill (i + 1)) k (Worker.Waits false (k - 1))
        (Worker.Waits true (k - 1)) (i + 1) t := by
  have hself := h.self
  have hpc : ¬ (s.workers i).pc = .start := by
    rw [hself.pc]
    decide
  refine ⟨s.next (.kill i), reach_next hs nofun h.main, ?_⟩
  rw [Life.next, if_neg hpc]
  refine h.next rfl rfl ?_ fun j hj => s.setWorker_of_ne _ hj
  show Worker.Waits true (k - 1) ((s.setWorker i _).workers i)
  rw [Life.setWorker_self]
  exact ⟨hself.pc, rfl, hself.steps⟩

/-- A thread blocks the signal. -/
theorem mask_turn (i : Fin n)
    (hs : (life n grid).ReachableIf RoundsComplete s)
    (h : Turn .draw 0 (fun w => w.pc = .start ∧ w.pending = false ∧
      w.steps = 0) (Worker.Waits false 0) i s) :
    ∃ t, (life n grid).ReachableIf RoundsComplete t ∧
      Turn .draw 0 (fun w => w.pc = .start ∧ w.pending = false ∧
        w.steps = 0) (Worker.Waits false 0) (i + 1) t := by
  obtain ⟨hpc, hpending, hsteps⟩ := h.self
  have hrunning : s.main ≠ .terminated := by
    rw [h.main]
    decide
  refine ⟨s.next (.mask i), reach_next hs nofun ⟨hrunning, hpc⟩,
    h.next h.main rfl ?_ fun j hj => s.setWorker_of_ne _ hj⟩
  rw [Life.next, Life.setWorker_self]
  exact ⟨rfl, hpending, hsteps⟩

/-- A thread that was signalled takes its step. -/
theorem step_turn (hadm : Admitted W H n) (i : Fin n)
    (hs : (life n grid).ReachableIf RoundsComplete s)
    (h : Turn .draw (k + 1) (Worker.Waits true k)
      (Worker.Waits false (k + 1)) i s) :
    ∃ t, (life n grid).ReachableIf RoundsComplete t ∧
      Turn .draw (k + 1) (Worker.Waits true k)
        (Worker.Waits false (k + 1)) (i + 1) t := by
  obtain ⟨hpc, hpending, hsteps⟩ := h.self
  have hrunning : s.main ≠ .terminated := by
    rw [h.main]
    decide
  let woken := s.next (.sigwait i)
  let updated := woken.next (.update i)
  have hwoken : (life n grid).ReachableIf RoundsComplete woken :=
    reach_next hs nofun ⟨hrunning, hpc, hpending⟩
  have hworker : woken.workers i =
      { s.workers i with pc := .update, pending := false } :=
    s.setWorker_self i _
  obtain ⟨hmain, hframes, hworkers⟩ := next_update_worker hadm
    (own_of_reachable hadm hwoken.reachable i)
  rw [hworker] at hworkers
  have hupdated : (life n grid).ReachableIf RoundsComplete updated := by
    refine reach_next hwoken nofun ⟨hrunning, ?_⟩
    rw [hworker]
  have hswap : (updated.workers i).pc = .swap := by
    show ((woken.next (.update i)).workers i).pc = .swap
    rw [hworkers, Function.update_self]
  have hstill : updated.main ≠ .terminated := by
    show (woken.next (.update i)).main ≠ .terminated
    rw [hmain]
    exact hrunning
  refine ⟨updated.next (.swap i), reach_next hupdated nofun
    ⟨hstill, hswap⟩, h.next (hmain.trans h.main) hframes ?_ ?_⟩
  · rw [Life.next, Life.setWorker_self]
    show Worker.Waits false (k + 1)
      { (woken.next (.update i)).workers i with
        pc := .sigwait
        args := _
        steps := ((woken.next (.update i)).workers i).steps + 1 }
    rw [hworkers, Function.update_self]
    exact ⟨rfl, rfl, congrArg (· + 1) hsteps⟩
  · intro j hj
    rw [Life.next, updated.setWorker_of_ne _ hj]
    show (woken.next (.update i)).workers j = _
    rw [hworkers, Function.update_of_ne hj]
    exact s.setWorker_of_ne _ hj

/-- A round can be completed before the next frame. -/
theorem ready_succ (hadm : Admitted W H n)
    (hs : (life n grid).ReachableIf RoundsComplete s) (h : Ready k s) :
    ∃ t, (life n grid).ReachableIf RoundsComplete t ∧ Ready (k + 1) t := by
  have hdrawn : (life n grid).ReachableIf RoundsComplete (s.next .draw) := by
    refine System.ReachableIf.step (e := Event.draw) hs ?_ ⟨h.main, rfl⟩
    intro _ i
    rw [(h.workers i).steps, h.frames]
  have hkill : Turn (.kill 0) (k + 1) (Worker.Waits false k)
      (Worker.Waits true k) 0 (s.next .draw) := by
    refine Turn.zero rfl ?_ h.workers
    rw [← h.frames]
    exact List.length_append
  have hturns : ∀ i < n, ∀ t, (life n grid).ReachableIf RoundsComplete t →
      Turn (.kill i) (k + 1) (Worker.Waits false k) (Worker.Waits true k) i t →
        ∃ u, (life n grid).ReachableIf RoundsComplete u ∧
          Turn (.kill (i + 1)) (k + 1) (Worker.Waits false k)
            (Worker.Waits true k) (i + 1) u :=
    fun i hi t ht hturn => kill_turn (k := k + 1) ⟨i, hi⟩ ht hturn
  obtain ⟨signalled, hsignalled, hall⟩ := hdrawn.loop hturns hkill
  have hslept := reach_next hsignalled (e := .usleep) nofun hall.main
  have hwoken : Turn .draw (k + 1) (Worker.Waits true k)
      (Worker.Waits false (k + 1)) 0 (signalled.next .usleep) :=
    Turn.zero rfl hall.frames hall.last
  obtain ⟨t, ht, hdone⟩ := hslept.loop (n := n)
    (fun i hi t ht hturn => step_turn hadm ⟨i, hi⟩ ht hturn) hwoken
  exact ⟨t, ht, hdone.main, hdone.frames, hdone.last⟩

/-- A frame of any number is drawn in some run whose rounds are all
completed. -/
theorem exists_ready (hadm : Admitted W H n) (grid : Grid W H) (k : Nat) :
    ∃ s, (life n grid).ReachableIf RoundsComplete s ∧ Ready k s := by
  induction k with
  | zero =>
      have hstart : Turn .draw 0 (fun w => w.pc = .start ∧
          w.pending = false ∧ w.steps = 0) (Worker.Waits false 0) 0
          (Life.initial n grid grid) :=
        Turn.zero rfl rfl fun _ => ⟨rfl, rfl, rfl⟩
      have hinit : (life n grid).ReachableIf RoundsComplete
        (Life.initial n grid grid) := .init ⟨grid, rfl⟩
      obtain ⟨s, hs, hdone⟩ := hinit.loop (n := n)
        (fun i hi t ht hturn => mask_turn ⟨i, hi⟩ ht hturn) hstart
      exact ⟨s, hs, hdone.main, hdone.frames, hdone.last⟩
  | succ k ih =>
      obtain ⟨s, hs, hready⟩ := ih
      exact ready_succ hadm hs hready

end Rounds

/-- **The frame `k` is the generation `k` exactly if `k` is even or nothing
changes in the step that leads to it.** -/
theorem frame_eq_generation_iff (hadm : Admitted W H n)
    (h : (life n grid).ReachableIf RoundsComplete s) {k : Nat}
    (hk : k < s.frames.length) : s.frames[k] = generation grid k ↔
      k % 2 = 0 ∨ (generation grid (k - 1)).next = generation grid (k - 1) := by
  rw [(draws_of_roundsComplete hadm h).frames k hk]
  rcases Nat.mod_two_eq_zero_or_one k with heven | hodd
  · rw [heven, Nat.sub_zero]
    exact iff_of_true rfl (.inl rfl)
  · have hnext : generation grid k = (generation grid (k - 1)).next := by
      obtain ⟨j, rfl⟩ : ∃ j, k = j + 1 := ⟨k - 1, by omega⟩
      rfl
    rw [hodd, hnext]
    constructor
    · intro heq
      exact .inr heq.symm
    · rintro (hzero | heq)
      · cases hzero
      · exact heq.symm

/-- A grid with one live cell, which dies in the first step. -/
def lonely : Grid 30 30 := fun x => if x.val = 465 then 1 else 0

theorem lonely_dies : lonely ≠ lonely.next := by
  intro h
  have hcell : ¬ lonely ⟨465, by decide⟩ = lonely.next ⟨465, by decide⟩ := by
    decide +kernel
  exact hcell (congrFun h _)

/-- The second frame is not the generation of its round. -/
theorem frame_one : ∃ s, (life 4 lonely).ReachableIf RoundsComplete s ∧
    ∃ hk : 1 < s.frames.length, s.frames[1] = generation lonely 1 ↔
      1 % 2 = 0 ∨ (generation lonely (1 - 1)).next =
        generation lonely (1 - 1) := by
  have hadm : Admitted 30 30 4 := ⟨by decide, by decide, by decide⟩
  obtain ⟨s, hs, hready⟩ := exists_ready hadm lonely 2
  have hk : 1 < s.frames.length := by
    rw [hready.frames]
    decide
  exact ⟨s, hs, hk, frame_eq_generation_iff hadm hs hk⟩

/-- The frame after the first step shows the cell that has died. -/
theorem frame_one_is_late : ¬ ∀ (n : Nat) (grid : Grid 30 30),
    Admitted 30 30 n → ∀ s, (life n grid).ReachableIf RoundsComplete s →
      ∀ k (hk : k < s.frames.length), s.frames[k] = generation grid k := by
  intro h
  have hadm : Admitted 30 30 4 := ⟨by decide, by decide, by decide⟩
  obtain ⟨s, hs, hready⟩ := exists_ready hadm lonely 2
  have hk : 1 < s.frames.length := by
    rw [hready.frames]
    decide
  have hdrawn := (draws_of_roundsComplete hadm hs).frames 1 hk
  rw [h 4 lonely hadm s hs 1 hk] at hdrawn
  exact lonely_dies hdrawn.symm

end Sysops.Cw09
