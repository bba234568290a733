import Sysops.Library.Processes

/-!
# `cw10/main.c`: Santa and the reindeer

The monitor for any number of reindeer and of deliveries. What a thread does
between taking the mutex and giving it back, in `pthread_cond_wait` too, is
one step; Santa has the mutex during a delivery. A thread in
`pthread_cond_wait` is woken by a signal, by a broadcast, or spuriously.
-/

namespace Sysops.Cw10

variable {N T : Nat}

/-! ## The program -/

/-- Where a reindeer is: before its first turn of the loop, in `sleep`, in
`pthread_cond_wait`, or woken from it. -/
inductive ReindeerPc where
  | start | holiday | waiting | woken | cancelled
  deriving DecidableEq

/-- A reindeer, with a record of what it did since the counter was last set
to zero. -/
structure Reindeer where
  pc : ReindeerPc
  /-- How often it has increased the counter. -/
  increases : Nat
  /-- Whether its wait has returned spuriously. -/
  disturbed : Bool
  deriving DecidableEq

/-- Where Santa is: at the test of his loop, in `pthread_cond_wait`, woken
from it, delivering, or in the loop that cancels. -/
inductive Santa where
  | loop | waiting | woken | delivering
  | cancel (j : Nat)
  | ended
  deriving DecidableEq

structure State (N : Nat) where
  reindeerReadyCount : Nat
  reindeer : Fin N → Reindeer
  santa : Santa
  /-- The counter of Santa's loop. -/
  i : Nat

/-- The next step of a thread, or a spurious return from its wait. -/
inductive Event (N : Nat) where
  | santa
  | reindeer (j : Fin N)
  | santaSpurious
  | spurious (j : Fin N)
  deriving DecidableEq

namespace State

def setReindeer (s : State N) (j : Fin N) (r : Reindeer) : State N :=
  { s with reindeer := Function.update s.reindeer j r }

@[simp] theorem setReindeer_self (s : State N) (j : Fin N) (r : Reindeer) :
    (s.setReindeer j r).reindeer j = r :=
  Function.update_self ..

theorem setReindeer_of_ne (s : State N) {j k : Fin N} (r : Reindeer)
    (h : k ≠ j) : (s.setReindeer j r).reindeer k = s.reindeer k :=
  Function.update_of_ne h ..

/-- `pthread_cond_signal(&santa_wake_up_cond)`. -/
def signalSanta (s : State N) : State N :=
  if s.santa = .waiting then { s with santa := .woken } else s

/-- `reindeer_ready_count++`, and the signal by the last one. -/
def increase (s : State N) : State N :=
  let t := { s with reindeerReadyCount := s.reindeerReadyCount + 1 }
  if t.reindeerReadyCount = N then t.signalSanta else t

/-- `pthread_cond_broadcast(&reindeer_free_to_go_cond)`. -/
def broadcast (s : State N) : State N :=
  { s with reindeer := fun j =>
      let r := s.reindeer j
      if r.pc = .waiting then { r with pc := .woken } else r }

/-- The record starts again. -/
def forget (s : State N) : State N :=
  { s with reindeer := fun j =>
      { s.reindeer j with increases := 0, disturbed := false } }

/-- The test of `while (reindeer_ready_count < REINDEER_COUNT)`. -/
def santaTest (s : State N) : State N :=
  { s with santa :=
      if s.reindeerReadyCount < N then .waiting else .delivering }

/-- The end of a delivery. -/
def deliver (T : Nat) (s : State N) : State N :=
  let t := { s.forget with reindeerReadyCount := 0 }
  let t := if s.i ≠ T - 1 then t.broadcast else t
  { t with santa := .loop, i := s.i + 1 }

def santaStep (T : Nat) (s : State N) : State N :=
  match s.santa with
  | .loop =>
      if s.i < T then s.santaTest else { s with santa := .cancel 0 }
  | .woken => s.santaTest
  | .delivering => s.deliver T
  | .cancel j =>
      if h : j < N then
        let r := s.reindeer ⟨j, h⟩
        { s.setReindeer ⟨j, h⟩ { r with pc := .cancelled } with
          santa := .cancel (j + 1) }
      else { s with santa := .ended }
  | .waiting | .ended => s

def reindeerStep (s : State N) (j : Fin N) : State N :=
  let r := s.reindeer j
  match r.pc with
  | .start | .woken => s.setReindeer j { r with pc := .holiday }
  | .holiday =>
      s.increase.setReindeer j
        { r with pc := .waiting, increases := r.increases + 1 }
  | .waiting | .cancelled => s

/-- A reindeer's step takes the mutex. -/
def Enabled (s : State N) : Event N → Prop
  | .santa => s.santa ≠ .waiting ∧ s.santa ≠ .ended
  | .reindeer j => s.santa ≠ .delivering ∧ (s.reindeer j).pc ≠ .waiting ∧
      (s.reindeer j).pc ≠ .cancelled
  | .santaSpurious => s.santa = .waiting
  | .spurious j => (s.reindeer j).pc = .waiting

instance (s : State N) : (e : Event N) → Decidable (s.Enabled e)
  | .santa => inferInstanceAs (Decidable (_ ∧ _))
  | .reindeer _ => inferInstanceAs (Decidable (_ ∧ _ ∧ _))
  | .santaSpurious | .spurious _ => inferInstanceAs (Decidable (_ = _))

def next (T : Nat) (s : State N) : Event N → State N
  | .santa => s.santaStep T
  | .reindeer j => s.reindeerStep j
  | .santaSpurious => { s with santa := .woken }
  | .spurious j =>
      s.setReindeer j { s.reindeer j with pc := .woken, disturbed := true }

/-- The step, if it can be taken. -/
def step (T : Nat) (s : State N) (e : Event N) : Option (State N) :=
  if s.Enabled e then some (s.next T e) else none

def initial (N : Nat) : State N where
  reindeerReadyCount := 0
  reindeer _ := ⟨.start, 0, false⟩
  santa := .loop
  i := 0

end State

/-- The program with `N` for `REINDEER_COUNT` and `T` for
`TOTAL_DELIVARIES`. -/
def monitor (N T : Nat) : System (State N) (Event N) where
  init s := s = State.initial N
  step s e t := s.Enabled e ∧ t = s.next T e

theorem monitor_step {s t : State N} {e : Event N}
    (h : s.step T e = some t) : (monitor N T).step s e t := by
  rw [State.step] at h
  split at h
  · rename_i hen
    exact ⟨hen, (Option.some.inj h).symm⟩
  · cases h

/-! ## What the counter counts -/

/-- A reindeer that was not disturbed is counted once while it waits. One
that was disturbed had been counted, and is counted again when it waits. -/
structure Reindeer.Counted (r : Reindeer) : Prop where
  once : r.disturbed = false →
    r.increases = if r.pc = .waiting then 1 else 0
  again : r.disturbed = true →
    (if r.pc = .waiting then 2 else 1) ≤ r.increases
  running : r.pc ≠ .cancelled

/-- What holds in every state before the last delivery is finished, also
after spurious returns. -/
structure Counted (s : State N) : Prop where
  sum : s.reindeerReadyCount = ∑ j, (s.reindeer j).increases
  reindeer : ∀ j, (s.reindeer j).Counted
  /-- No signal to Santa was lost. -/
  signal : s.santa = .waiting → s.reindeerReadyCount < N
  delivering : s.santa = .delivering → N ≤ s.reindeerReadyCount

/-- Santa is in the loop of his deliveries, or behind it. -/
structure Stage (T : Nat) (s : State N) : Prop where
  counted : s.i < T → Counted s
  started : s.santa = .waiting ∨ s.santa = .woken ∨ s.santa = .delivering →
    s.i < T
  behind : ∀ j, s.santa = .cancel j ∨ s.santa = .ended → T ≤ s.i

theorem Reindeer.Counted.waiting {r : Reindeer} (h : r.Counted)
    (hpc : r.pc = .waiting) : 1 ≤ r.increases := by
  cases hd : r.disturbed with
  | false =>
      rw [h.once hd, if_pos hpc]
  | true =>
      have htwo := h.again hd
      rw [if_pos hpc] at htwo
      omega

theorem Reindeer.Counted.go {r : Reindeer} (h : r.Counted)
    (hpc : r.pc ≠ .waiting) : Reindeer.Counted { r with pc := .holiday } := by
  refine ⟨?_, ?_, nofun⟩
  · intro hd
    rw [h.once hd, if_neg hpc]
    rfl
  · intro hd
    have hone := h.again hd
    rwa [if_neg hpc] at hone

theorem Reindeer.Counted.arrive {r : Reindeer} (h : r.Counted)
    (hpc : r.pc ≠ .waiting) : Reindeer.Counted
      { r with pc := .waiting, increases := r.increases + 1 } := by
  refine ⟨?_, ?_, nofun⟩
  · intro hd
    show r.increases + 1 = 1
    rw [h.once hd, if_neg hpc]
  · intro hd
    have hone := h.again hd
    rw [if_neg hpc] at hone
    exact Nat.succ_le_succ hone

theorem Reindeer.Counted.disturb {r : Reindeer} (h : r.Counted)
    (hpc : r.pc = .waiting) : Reindeer.Counted
      { r with pc := .woken, disturbed := true } :=
  ⟨nofun, fun _ => h.waiting hpc, nofun⟩

section Steps

variable {s : State N}

theorem sum_setReindeer (s : State N) (j : Fin N) (r : Reindeer) :
    (∑ k, ((s.setReindeer j r).reindeer k).increases) +
      (s.reindeer j).increases =
        (∑ k, (s.reindeer k).increases) + r.increases :=
  Processes.total_update Reindeer.increases s.reindeer j r

/-- A step of one reindeer that leaves the counter and its record. -/
theorem Counted.setReindeer (h : Counted s) {j : Fin N} {r : Reindeer}
    (hr : r.Counted) (hincreases : r.increases = (s.reindeer j).increases) :
    Counted (s.setReindeer j r) := by
  refine ⟨?_, ?_, h.signal, h.delivering⟩
  · have hsum := sum_setReindeer s j r
    have hcount := h.sum
    show s.reindeerReadyCount = _
    omega
  · exact (Function.forall_update_iff s.reindeer fun _ r => r.Counted).mpr
      ⟨hr, fun k _ => h.reindeer k⟩

theorem increase_cases (s : State N) :
    s.increase = { s with
      reindeerReadyCount := s.reindeerReadyCount + 1
      santa := s.increase.santa } ∧
    (s.increase.santa = s.santa ∧
        (s.santa = .waiting → s.reindeerReadyCount + 1 ≠ N) ∨
      s.santa = .waiting ∧ s.increase.santa = .woken) := by
  by_cases hlast : s.reindeerReadyCount + 1 = N
  · by_cases hsanta : s.santa = .waiting
    · simp [State.increase, State.signalSanta, hlast, hsanta]
    · simp [State.increase, State.signalSanta, hlast, hsanta]
  · simp [State.increase, hlast]

/-- The arrival of a reindeer, but for the signal. -/
structure Arrives (s t : State N) (j : Fin N) : Prop where
  count : t.reindeerReadyCount = s.reindeerReadyCount + 1
  sum : s.reindeerReadyCount = ∑ k, (s.reindeer k).increases →
    t.reindeerReadyCount = ∑ k, (t.reindeer k).increases
  self : t.reindeer j = { s.reindeer j with
    pc := .waiting, increases := (s.reindeer j).increases + 1 }
  others : ∀ k, k ≠ j → t.reindeer k = s.reindeer k
  i : t.i = s.i

theorem arrives (s : State N) (j : Fin N) :
    Arrives s (s.increase.setReindeer j { s.reindeer j with
      pc := .waiting, increases := (s.reindeer j).increases + 1 }) j := by
  obtain ⟨hincrease, -⟩ := increase_cases s
  have hcount : s.increase.reindeerReadyCount = s.reindeerReadyCount + 1 := by
    rw [hincrease]
  have hreindeer : s.increase.reindeer = s.reindeer := by
    rw [hincrease]
  refine ⟨hcount, ?_, s.increase.setReindeer_self j _, ?_, ?_⟩
  · intro hold
    have hsum : _ + _ = _ + ((s.reindeer j).increases + 1) :=
      sum_setReindeer s.increase j { s.reindeer j with
        pc := .waiting, increases := (s.reindeer j).increases + 1 }
    rw [hreindeer] at hsum
    show s.increase.reindeerReadyCount = _
    omega
  · intro k hk
    rw [s.increase.setReindeer_of_ne _ hk, hreindeer]
  · show s.increase.i = s.i
    rw [hincrease]

theorem Arrives.forall {t : State N} {j : Fin N} (h : Arrives s t j)
    {P : Reindeer → Prop} (hs : ∀ k, P (s.reindeer k))
    (hj : P { s.reindeer j with
      pc := .waiting, increases := (s.reindeer j).increases + 1 }) :
    ∀ k, P (t.reindeer k) := by
  intro k
  by_cases hk : k = j
  · subst hk
    rw [h.self]
    exact hj
  · rw [h.others k hk]
    exact hs k

theorem Counted.arrive (h : Counted s) {j : Fin N}
    (hpc : (s.reindeer j).pc = .holiday) (hsanta : s.santa ≠ .delivering) :
    Counted (s.increase.setReindeer j { s.reindeer j with
      pc := .waiting, increases := (s.reindeer j).increases + 1 }) := by
  have harrives := arrives s j
  have hnot : (s.reindeer j).pc ≠ .waiting := by
    rw [hpc]
    decide
  obtain ⟨-, hcases⟩ := increase_cases s
  refine ⟨harrives.sum h.sum,
    harrives.forall h.reindeer ((h.reindeer j).arrive hnot), ?_, ?_⟩
  · intro hwaiting
    rw [harrives.count]
    -- if Santa still waits, this was not the last one
    rcases hcases with ⟨hsame, hne⟩ | ⟨-, hwoken⟩
    · have hold : s.santa = .waiting := hsame.symm.trans hwaiting
      have hlt := h.signal hold
      have hlast := hne hold
      omega
    · exact absurd (hwoken.symm.trans hwaiting) (by decide)
  · intro hdelivering
    rcases hcases with ⟨hsame, -⟩ | ⟨-, hwoken⟩
    · exact absurd (hsame.symm.trans hdelivering) hsanta
    · exact absurd (hwoken.symm.trans hdelivering) (by decide)

theorem Counted.santaTest (h : Counted s) : Counted s.santaTest := by
  refine ⟨h.sum, h.reindeer, ?_, ?_⟩
  · intro hsanta
    by_contra hcount
    have hfull : ¬ s.reindeerReadyCount < N := hcount
    simp only [State.santaTest, if_neg hfull] at hsanta
    cases hsanta
  · intro hsanta
    by_contra hcount
    have hshort : s.reindeerReadyCount < N := Nat.lt_of_not_le hcount
    simp only [State.santaTest, if_pos hshort] at hsanta
    cases hsanta

/-- After a delivery that is not the last one: nobody waits, and nobody is
counted. -/
theorem counted_delivered (h : Counted s) :
    Counted { ({ s.forget with reindeerReadyCount := 0 } : State N).broadcast
      with santa := .loop, i := s.i + 1 } := by
  have hreset : ∀ j, (s.forget.broadcast.reindeer j).increases = 0 ∧
      (s.forget.broadcast.reindeer j).Counted := by
    intro j
    have hvalue : s.forget.broadcast.reindeer j =
      if (s.reindeer j).pc = .waiting then ⟨.woken, 0, false⟩
      else ⟨(s.reindeer j).pc, 0, false⟩ := rfl
    rw [hvalue]
    split
    · exact ⟨rfl, fun _ => rfl, nofun, nofun⟩
    · rename_i hpc
      exact ⟨rfl, fun _ => (if_neg hpc).symm, nofun, (h.reindeer j).running⟩
  refine ⟨?_, fun j => (hreset j).2, nofun, nofun⟩
  exact (Finset.sum_eq_zero fun j _ => (hreset j).1).symm

/-- The test of Santa's inner loop. -/
theorem Stage.santaTest (h : Stage T s) (hlt : s.i < T) :
    Stage T s.santaTest := by
  refine ⟨fun _ => (h.counted hlt).santaTest, fun _ => hlt, ?_⟩
  intro j hsanta
  by_cases hcount : s.reindeerReadyCount < N
  · simp [State.santaTest, hcount] at hsanta
  · simp [State.santaTest, hcount] at hsanta

theorem Stage.deliver (h : Stage T s) (hlt : s.i < T) :
    Stage T (s.deliver T) := by
  by_cases hlast : s.i = T - 1
  · -- no broadcast, and the loop is over
    refine ⟨?_, ?_, ?_⟩
    · intro hnext
      have hnext : s.i + 1 < T := hnext
      omega
    · rintro (heq | heq | heq) <;> cases heq
    · rintro j (heq | heq) <;> cases heq
  · have hmore : s.deliver T =
        { ({ s.forget with reindeerReadyCount := 0 } : State N).broadcast
          with santa := .loop, i := s.i + 1 } := by
      simp only [State.deliver, ne_eq, hlast, not_false_eq_true, if_true]
    rw [hmore]
    refine ⟨fun _ => counted_delivered (h.counted hlt), ?_, ?_⟩
    · rintro (heq | heq | heq) <;> cases heq
    · rintro j (heq | heq) <;> cases heq

theorem Stage.santaStep (h : Stage T s) : Stage T (s.santaStep T) := by
  rw [State.santaStep]
  split
  case h_1 =>
    split
    · rename_i hlt
      exact h.santaTest hlt
    · rename_i hge
      refine ⟨fun hlt => absurd hlt hge, ?_, fun _ _ => Nat.le_of_not_lt hge⟩
      rintro (heq | heq | heq) <;> cases heq
  case h_2 hsanta => exact h.santaTest (h.started (.inr (.inl hsanta)))
  case h_3 hsanta => exact h.deliver (h.started (.inr (.inr hsanta)))
  case h_4 j hsanta =>
    -- behind the deliveries there is nothing left to count
    have hover := h.behind j (.inl hsanta)
    split
    · refine ⟨fun hlt => absurd hlt (Nat.not_lt.mpr hover), ?_,
        fun _ _ => hover⟩
      rintro (heq | heq | heq) <;> cases heq
    · refine ⟨fun hlt => absurd hlt (Nat.not_lt.mpr hover), ?_,
        fun _ _ => hover⟩
      rintro (heq | heq | heq) <;> cases heq
  case h_5 => exact h
  case h_6 => exact h

theorem Stage.reindeerStep (h : Stage T s) {j : Fin N}
    (hsanta : s.santa ≠ .delivering) : Stage T (s.reindeerStep j) := by
  have hgo : (s.reindeer j).pc ≠ .waiting →
      Stage T (s.setReindeer j { s.reindeer j with pc := .holiday }) := by
    intro hpc
    refine ⟨fun hlt => ?_, h.started, h.behind⟩
    have hcounted := h.counted hlt
    exact hcounted.setReindeer ((hcounted.reindeer j).go hpc) rfl
  simp only [State.reindeerStep]
  split
  case h_1 hpc =>
    refine hgo ?_
    rw [hpc]
    decide
  case h_2 hpc =>
    refine hgo ?_
    rw [hpc]
    decide
  case h_3 hpc =>
    obtain ⟨-, hcases⟩ := increase_cases s
    have hi := (arrives s j).i
    refine ⟨?_, ?_, ?_⟩
    · intro hlt
      rw [hi] at hlt
      exact (h.counted hlt).arrive hpc hsanta
    · intro hstarted
      rw [hi]
      change s.increase.santa = _ ∨ s.increase.santa = _ ∨
        s.increase.santa = _ at hstarted
      rcases hcases with ⟨hsame, -⟩ | ⟨hwaiting, -⟩
      · rw [hsame] at hstarted
        exact h.started hstarted
      · exact h.started (.inl hwaiting)
    · intro k hover
      rw [hi]
      change s.increase.santa = _ ∨ s.increase.santa = _ at hover
      rcases hcases with ⟨hsame, -⟩ | ⟨-, hwoken⟩
      · rw [hsame] at hover
        exact h.behind k hover
      · rw [hwoken] at hover
        rcases hover with heq | heq <;> cases heq
  case h_4 => exact h
  case h_5 => exact h

theorem Stage.step (h : Stage T s) {e : Event N} (hen : s.Enabled e) :
    Stage T (s.next T e) := by
  cases e with
  | santa => exact h.santaStep
  | reindeer j => exact h.reindeerStep hen.1
  | santaSpurious =>
      have hlt := h.started (.inl hen)
      have hcounted := h.counted hlt
      refine ⟨fun _ => ⟨hcounted.sum, hcounted.reindeer, nofun, nofun⟩,
        fun _ => hlt, ?_⟩
      rintro j (heq | heq) <;> cases heq
  | spurious j =>
      refine ⟨fun hlt => ?_, h.started, h.behind⟩
      have hcounted := h.counted hlt
      exact hcounted.setReindeer ((hcounted.reindeer j).disturb hen) rfl

/-- **In every run, the counter counts.** -/
theorem stage_of_reachable (h : (monitor N T).Reachable s) : Stage T s := by
  refine h.invariant ?_ ?_
  · rintro s rfl
    refine ⟨fun _ => ⟨?_, fun _ => ⟨fun _ => rfl, nofun, nofun⟩, nofun,
      nofun⟩, ?_, ?_⟩
    · exact (Finset.sum_eq_zero fun _ _ => rfl).symm
    · rintro (heq | heq | heq) <;> cases heq
    · rintro j (heq | heq) <;> cases heq
  · rintro s e t hs - ⟨hen, rfl⟩
    exact hs.step hen

end Steps

end Sysops.Cw10
