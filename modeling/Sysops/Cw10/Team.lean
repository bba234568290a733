import Sysops.Cw10.Santa

/-!
# `cw10/main.c`: the full team

No wake-up is lost: until the last delivery is finished, some thread can
always take a step. Santa tests the counter again when he is woken, a
reindeer does not: one spurious return of its wait, and Santa delivers
without it, or after counting it twice.
-/

namespace Sysops.Cw10

variable {N T : Nat}

/-! ## No wake-up is lost -/

/-- Some thread can take a step of its own. -/
def State.CanStep (s : State N) : Prop :=
  s.Enabled .santa ∨ ∃ j, s.Enabled (.reindeer j)

/-- Nobody waits for a wake-up that will not come. -/
structure NoLostWakeUp (s : State N) : Prop where
  canStep : s.CanStep
  counted : ∀ j, (s.reindeer j).pc = .waiting → 1 ≤ (s.reindeer j).increases
  santa : s.santa = .waiting → s.reindeerReadyCount < N

/-- When all wait, Santa does not. -/
theorem Counted.canStep {s : State N} (h : Counted s)
    (hended : s.santa ≠ .ended) : s.CanStep := by
  by_contra hstuck
  rw [State.CanStep, not_or, not_exists] at hstuck
  obtain ⟨hsanta, hreindeer⟩ := hstuck
  have hwaiting : s.santa = .waiting := by
    by_contra hne
    exact hsanta ⟨hne, hended⟩
  have hall : ∀ j, 1 ≤ (s.reindeer j).increases := by
    intro j
    have hj : (s.reindeer j).pc = .waiting := by
      by_contra hne
      refine hreindeer j ⟨?_, hne, (h.reindeer j).running⟩
      rw [hwaiting]
      decide
    exact (h.reindeer j).waiting hj
  have hsum : ∑ _j : Fin N, 1 ≤ ∑ j, (s.reindeer j).increases :=
    Finset.sum_le_sum fun j _ => hall j
  rw [← h.sum, ← Finset.card_eq_sum_ones, Finset.card_univ,
    Fintype.card_fin] at hsum
  exact Nat.not_lt.mpr hsum (h.signal hwaiting)

/-- **Before the last delivery is finished, some thread can take a step**,
with and without spurious returns. -/
theorem no_lost_wake_up {s : State N} (h : (monitor N T).Reachable s)
    (hopen : s.i < T) : NoLostWakeUp s := by
  have hstage := stage_of_reachable h
  have hcounted := hstage.counted hopen
  refine ⟨hcounted.canStep ?_, fun j hj => (hcounted.reindeer j).waiting hj,
    hcounted.signal⟩
  intro hended
  exact absurd (hstage.behind 0 (.inr hended)) (Nat.not_le.mpr hopen)

/-- The whole team waits, and Santa is woken. -/
def fullTeam : List (Event 9) :=
  (List.finRange 9).map .reindeer ++ [.santa] ++
    (List.finRange 9).map .reindeer

theorem santa_is_woken : ∃ s, (monitor 9 4).Reachable s ∧
    s.santa = .woken ∧ NoLostWakeUp s := by
  have hrun : ∃ s, (monitor 9 4).Reachable s ∧
      decide (s.santa = .woken ∧ s.i = 0) = true :=
    System.ReachableIf.exists_of_runLabels (State.step 4)
      (fun _ _ _ => monitor_step) fullTeam (.init rfl) (by decide +kernel)
  obtain ⟨s, hs, hlast⟩ := hrun
  obtain ⟨hsanta, hi⟩ := of_decide_eq_true hlast
  refine ⟨s, hs, hsanta, no_lost_wake_up hs ?_⟩
  rw [hi]
  decide

/-! ## The full team -/

/-- The wait of no reindeer has returned spuriously since the counter was
last set to zero. -/
def Undisturbed (s : State N) : Prop :=
  ∀ j, (s.reindeer j).disturbed = false

/-- All are back and wait, each counted once. A reindeer whose wait has
returned no longer waits, also before it has the mutex back. -/
def AllCounted (s : State N) : Prop :=
  ∀ j, (s.reindeer j).pc = .waiting ∧ (s.reindeer j).increases = 1

/-- The step is no spurious return of a reindeer's wait. -/
def NoReindeerSpurious (_ : State N) (e : Event N) : Prop :=
  ∀ j, e ≠ .spurious j

instance (s : State N) (e : Event N) : Decidable (NoReindeerSpurious s e) :=
  inferInstanceAs (Decidable (∀ _, _))

/-- Santa delivers with the full team only. -/
structure TeamComplete (s : State N) : Prop where
  delivering : s.santa = .delivering → AllCounted s
  count : s.reindeerReadyCount ≤ N

/-- With the counter full and nobody disturbed, nobody is missing. -/
theorem Counted.allCounted {s : State N} (h : Counted s)
    (hsanta : s.santa = .delivering) (hundisturbed : Undisturbed s) :
    AllCounted s := by
  have hone : ∀ j, (s.reindeer j).increases =
      if (s.reindeer j).pc = .waiting then 1 else 0 :=
    fun j => (h.reindeer j).once (hundisturbed j)
  have hwaiting : ∀ j, (s.reindeer j).pc = .waiting := by
    -- with one missing the sum is below `N`
    by_contra hmissing
    rw [not_forall] at hmissing
    obtain ⟨j, hj⟩ := hmissing
    have hlt : ∑ k, (s.reindeer k).increases < ∑ _k : Fin N, 1 := by
      refine Finset.sum_lt_sum ?_ ⟨j, Finset.mem_univ j, ?_⟩
      · intro k _
        rw [hone k]
        split <;> decide
      · rw [hone j, if_neg hj]
        decide
    have hfull := h.delivering hsanta
    rw [← h.sum, ← Finset.card_eq_sum_ones, Finset.card_univ,
      Fintype.card_fin] at hlt
    exact Nat.not_lt.mpr hfull hlt
  intro j
  refine ⟨hwaiting j, ?_⟩
  rw [hone j, if_pos (hwaiting j)]

/-- Who was disturbed is missing, or is counted twice. -/
theorem Counted.undisturbed {s : State N} (h : Counted s)
    (hall : AllCounted s) : Undisturbed s := by
  intro j
  obtain ⟨hwaiting, hone⟩ := hall j
  by_contra hdisturbed
  rw [Bool.not_eq_false] at hdisturbed
  have htwo := (h.reindeer j).again hdisturbed
  rw [if_pos hwaiting, hone] at htwo
  exact absurd htwo (by decide)

/-! ## Runs without spurious returns -/

/-- A reindeer that is counted at most once, and then waits. -/
structure Reindeer.Single (r : Reindeer) : Prop where
  undisturbed : r.disturbed = false
  le : r.increases ≤ 1
  zero : r.pc ≠ .waiting → r.pc ≠ .cancelled → r.increases = 0

structure Singles (s : State N) : Prop where
  sum : s.reindeerReadyCount = ∑ j, (s.reindeer j).increases
  reindeer : ∀ j, (s.reindeer j).Single

theorem Singles.count_le {s : State N} (h : Singles s) :
    s.reindeerReadyCount ≤ N := by
  have hsum : ∑ j, (s.reindeer j).increases ≤ ∑ _j : Fin N, 1 :=
    Finset.sum_le_sum fun j _ => (h.reindeer j).le
  rwa [← h.sum, ← Finset.card_eq_sum_ones, Finset.card_univ,
    Fintype.card_fin] at hsum

theorem Singles.setReindeer {s : State N} (h : Singles s) {j : Fin N}
    {r : Reindeer} (hr : r.Single)
    (hincreases : r.increases = (s.reindeer j).increases) :
    Singles (s.setReindeer j r) := by
  refine ⟨?_, ?_⟩
  · have hsum := sum_setReindeer s j r
    have hcount := h.sum
    show s.reindeerReadyCount = _
    omega
  · exact (Function.forall_update_iff s.reindeer fun _ r => r.Single).mpr
      ⟨hr, fun k _ => h.reindeer k⟩

theorem Singles.deliver (s : State N) : Singles (s.deliver T) := by
  have hreset : ∀ j, ((s.deliver T).reindeer j).increases = 0 ∧
      ((s.deliver T).reindeer j).disturbed = false := by
    intro j
    by_cases hlast : s.i = T - 1
    · simp [State.deliver, State.forget, hlast]
    · by_cases hpc : (s.reindeer j).pc = .waiting
      · simp [State.deliver, State.broadcast, State.forget, hlast, hpc]
      · simp [State.deliver, State.broadcast, State.forget, hlast, hpc]
  have hcount : (s.deliver T).reindeerReadyCount = 0 := by
    by_cases hlast : s.i = T - 1
    · simp [State.deliver, hlast]
    · simp [State.deliver, hlast, State.broadcast]
  refine ⟨?_, fun j => ⟨(hreset j).2, ?_, fun _ _ => (hreset j).1⟩⟩
  · rw [hcount]
    exact (Finset.sum_eq_zero fun j _ => (hreset j).1).symm
  · rw [(hreset j).1]
    exact Nat.zero_le 1

theorem Singles.santaStep {s : State N} (h : Singles s) :
    Singles (s.santaStep T) := by
  rw [State.santaStep]
  split
  case h_1 =>
    split
    · exact ⟨h.sum, h.reindeer⟩
    · exact ⟨h.sum, h.reindeer⟩
  case h_2 => exact ⟨h.sum, h.reindeer⟩
  case h_3 => exact Singles.deliver s
  case h_4 j _ =>
    split
    · rename_i hj
      have hold := h.reindeer ⟨j, hj⟩
      have hset : Singles (s.setReindeer ⟨j, hj⟩
          { s.reindeer ⟨j, hj⟩ with pc := .cancelled }) :=
        h.setReindeer ⟨hold.undisturbed, hold.le,
          fun _ hne => absurd rfl hne⟩ rfl
      exact ⟨hset.sum, hset.reindeer⟩
    · exact ⟨h.sum, h.reindeer⟩
  case h_5 => exact h
  case h_6 => exact h

theorem Singles.reindeerStep {s : State N} (h : Singles s) (j : Fin N) :
    Singles (s.reindeerStep j) := by
  have hold := h.reindeer j
  have hgo : (s.reindeer j).pc ≠ .waiting →
      (s.reindeer j).pc ≠ .cancelled →
        Singles (s.setReindeer j { s.reindeer j with pc := .holiday }) :=
    fun hwaiting hcancelled => h.setReindeer ⟨hold.undisturbed, hold.le,
      fun _ _ => hold.zero hwaiting hcancelled⟩ rfl
  simp only [State.reindeerStep]
  split
  case h_1 hpc =>
    refine hgo ?_ ?_ <;> rw [hpc] <;> decide
  case h_2 hpc =>
    refine hgo ?_ ?_ <;> rw [hpc] <;> decide
  case h_3 hpc =>
    have hzero : (s.reindeer j).increases = 0 := by
      refine hold.zero ?_ ?_ <;> rw [hpc] <;> decide
    have harrives := arrives s j
    refine ⟨harrives.sum h.sum, harrives.forall h.reindeer
      ⟨hold.undisturbed, ?_, fun hne => absurd rfl hne⟩⟩
    show (s.reindeer j).increases + 1 ≤ 1
    rw [hzero]
  case h_4 => exact h
  case h_5 => exact h

/-- A run without spurious returns disturbs nobody. -/
theorem singles_of_run {s : State N}
    (h : (monitor N T).ReachableIf NoReindeerSpurious s) : Singles s := by
  refine h.invariant ?_ ?_
  · rintro s rfl
    refine ⟨?_, fun j => ⟨rfl, Nat.zero_le 1, fun _ _ => rfl⟩⟩
    exact (Finset.sum_eq_zero fun _ _ => rfl).symm
  · rintro s e t hs hno ⟨hen, rfl⟩
    cases e with
    | santa => exact hs.santaStep
    | reindeer j => exact hs.reindeerStep j
    | santaSpurious => exact ⟨hs.sum, hs.reindeer⟩
    -- the only step that disturbs a reindeer
    | spurious j => exact absurd rfl (hno j)

/-- **Santa delivers with the full team exactly if the wait of no reindeer
has returned spuriously since the last delivery**; in a run in which that
never happens, he always does, and the counter stays below `N`. -/
theorem full_team_iff (N T : Nat) :
    (∀ s : State N, (monitor N T).Reachable s → s.santa = .delivering →
      (AllCounted s ↔ Undisturbed s)) ∧
    ∀ s : State N, (monitor N T).ReachableIf NoReindeerSpurious s →
      TeamComplete s := by
  have hiff : ∀ s : State N, (monitor N T).Reachable s →
      s.santa = .delivering → (AllCounted s ↔ Undisturbed s) := by
    intro s hs hsanta
    have hstage := stage_of_reachable hs
    have hcounted := hstage.counted (hstage.started (.inr (.inr hsanta)))
    exact ⟨hcounted.undisturbed, hcounted.allCounted hsanta⟩
  refine ⟨hiff, fun s hs => ⟨fun hsanta => ?_, (singles_of_run hs).count_le⟩⟩
  exact (hiff s hs.reachable hsanta).mpr fun j =>
    ((singles_of_run hs).reindeer j).undisturbed

theorem full_team_delivers : ∃ s,
    (monitor 9 4).ReachableIf NoReindeerSpurious s ∧
      s.santa = .delivering ∧ TeamComplete s := by
  have hrun : ∃ s, (monitor 9 4).ReachableIf NoReindeerSpurious s ∧
      decide (s.santa = .delivering) = true :=
    System.ReachableIf.exists_of_runLabels (State.step 4)
      (fun _ _ _ => monitor_step) (fullTeam ++ [.santa]) (.init rfl)
      (by decide +kernel)
  obtain ⟨s, hs, hsanta⟩ := hrun
  exact ⟨s, hs, of_decide_eq_true hsanta, (full_team_iff 9 4).2 s hs⟩

/-- One spurious return, and Santa delivers with eight. -/
def oneMissing : List (Event 9) :=
  (List.finRange 9).map .reindeer ++ [.reindeer 0, .spurious 0, .reindeer 0] ++
    (List.finRange 9).tail.map .reindeer ++ [.santa]

theorem reindeer_missing : ¬ ∀ N T : Nat, 1 ≤ N → ∀ s : State N,
    (monitor N T).Reachable s → TeamComplete s := by
  intro h
  have hrun : ∃ s, (monitor 9 4).Reachable s ∧
      decide (s.santa = .delivering ∧ (s.reindeer 0).pc = .holiday) = true :=
    System.ReachableIf.exists_of_runLabels (State.step 4)
      (fun _ _ _ => monitor_step) oneMissing (.init rfl) (by decide +kernel)
  obtain ⟨s, hs, hlast⟩ := hrun
  obtain ⟨hsanta, haway⟩ := of_decide_eq_true hlast
  have hall := (h 9 4 (by decide) s hs).delivering hsanta 0
  rw [haway] at hall
  exact absurd hall.1 (by decide)

end Sysops.Cw10
