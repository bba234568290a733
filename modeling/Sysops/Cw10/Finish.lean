import Sysops.Library.Ending
import Sysops.Cw10.Team

/-!
# `cw10/main.c`: the end of the program

Whatever happened so far, without further spurious returns the threads take
a bounded number of steps: at the last of them Santa has made all his
deliveries, and every reindeer is cancelled.
-/

namespace Sysops.Cw10

variable {N T : Nat} {s : State N}

/-- The step is of the program, and no spurious return. -/
def NoSpurious (_ : State N) (e : Event N) : Prop :=
  e ≠ .santaSpurious ∧ ∀ j, e ≠ .spurious j

instance (s : State N) (e : Event N) : Decidable (NoSpurious s e) :=
  inferInstanceAs (Decidable (_ ∧ ∀ _, _))

/-- The program is over. -/
structure State.Over (T : Nat) (s : State N) : Prop where
  santa : s.santa = .ended
  deliveries : s.i = T
  reindeer : ∀ j, (s.reindeer j).pc = .cancelled

/-! ## What Santa leaves behind -/

/-- How many reindeer he has cancelled. -/
def Santa.cancelledTo (N : Nat) : Santa → Nat
  | .cancel j => j
  | .ended => N
  | .loop | .waiting | .woken | .delivering => 0

structure CancelledSoFar (T : Nat) (s : State N) : Prop where
  le : s.i ≤ T
  cancelled : ∀ j : Fin N, j.val < s.santa.cancelledTo N →
    (s.reindeer j).pc = .cancelled

theorem santaTest_cancelledTo (s : State N) :
    s.santaTest.santa.cancelledTo N = 0 := by
  by_cases hcount : s.reindeerReadyCount < N
  · rw [State.santaTest, if_pos hcount]
    rfl
  · rw [State.santaTest, if_neg hcount]
    rfl

theorem CancelledSoFar.santaTest (h : CancelledSoFar T s) :
    CancelledSoFar T s.santaTest := by
  refine ⟨h.le, fun j hj => ?_⟩
  rw [santaTest_cancelledTo] at hj
  exact absurd hj (Nat.not_lt_zero _)

/-- No reindeer that is cancelled goes on. -/
theorem CancelledSoFar.setReindeer (h : CancelledSoFar T s) {j : Fin N}
    {r : Reindeer}
    (hr : (s.reindeer j).pc = .cancelled → r.pc = .cancelled) :
    CancelledSoFar T (s.setReindeer j r) := by
  refine ⟨h.le, fun k hk => ?_⟩
  have hcancelled := h.cancelled k hk
  by_cases hkj : k = j
  · subst hkj
    rw [State.setReindeer_self]
    exact hr hcancelled
  · rw [State.setReindeer_of_ne s r hkj]
    exact hcancelled

theorem CancelledSoFar.increase (h : CancelledSoFar T s) :
    CancelledSoFar T s.increase := by
  obtain ⟨hincrease, hcases⟩ := increase_cases s
  have hto : s.increase.santa.cancelledTo N = s.santa.cancelledTo N := by
    rcases hcases with ⟨hsame, -⟩ | ⟨hwaiting, hwoken⟩
    · rw [hsame]
    · rw [hwaiting, hwoken]
      rfl
  refine ⟨?_, fun j hj => ?_⟩
  · rw [hincrease]
    exact h.le
  · rw [hto] at hj
    rw [hincrease]
    exact h.cancelled j hj

theorem CancelledSoFar.santaStep (h : CancelledSoFar T s) (hstage : Stage T s) :
    CancelledSoFar T (s.santaStep T) := by
  rw [State.santaStep]
  split
  case h_1 =>
    split
    · exact h.santaTest
    · exact ⟨h.le, fun j hj => absurd hj (Nat.not_lt_zero _)⟩
  case h_2 => exact h.santaTest
  case h_3 hsanta =>
    have hlt := hstage.started (.inr (.inr hsanta))
    refine ⟨?_, fun j hj => absurd hj (Nat.not_lt_zero _)⟩
    show s.i + 1 ≤ T
    exact hlt
  case h_4 i hsanta =>
    have hbefore := h.cancelled
    rw [hsanta] at hbefore
    split
    · rename_i hi
      refine ⟨h.le, fun j hj => ?_⟩
      have hj : j.val < i + 1 := hj
      show ((s.setReindeer ⟨i, hi⟩ { s.reindeer ⟨i, hi⟩ with
        pc := .cancelled }).reindeer j).pc = _
      by_cases hji : j = ⟨i, hi⟩
      · rw [hji, State.setReindeer_self]
      · rw [State.setReindeer_of_ne s _ hji]
        have hne : j.val ≠ i := fun heq => hji (Fin.ext heq)
        exact hbefore j (show j.val < i by omega)
    · rename_i hi
      refine ⟨h.le, fun j _ => hbefore j ?_⟩
      exact Nat.lt_of_lt_of_le j.isLt (Nat.le_of_not_lt hi)
  case h_5 => exact h
  case h_6 => exact h

theorem CancelledSoFar.reindeerStep (h : CancelledSoFar T s) (j : Fin N) :
    CancelledSoFar T (s.reindeerStep j) := by
  simp only [State.reindeerStep]
  split
  case h_1 hpc =>
    refine h.setReindeer fun hcancelled => ?_
    rw [hpc] at hcancelled
    cases hcancelled
  case h_2 hpc =>
    refine h.setReindeer fun hcancelled => ?_
    rw [hpc] at hcancelled
    cases hcancelled
  case h_3 hpc =>
    refine h.increase.setReindeer fun hcancelled => ?_
    rw [(increase_cases s).1] at hcancelled
    rw [hpc] at hcancelled
    cases hcancelled
  case h_4 => exact h
  case h_5 => exact h

theorem CancelledSoFar.step (h : CancelledSoFar T s) (hstage : Stage T s)
    {e : Event N} (hen : s.Enabled e) : CancelledSoFar T (s.next T e) := by
  cases e with
  | santa => exact h.santaStep hstage
  | reindeer j => exact h.reindeerStep j
  | santaSpurious => exact ⟨h.le, fun j hj => absurd hj (Nat.not_lt_zero _)⟩
  | spurious j =>
      have hwaiting : (s.reindeer j).pc = .waiting := hen
      refine h.setReindeer fun hcancelled => ?_
      rw [hwaiting] at hcancelled
      cases hcancelled

/-- What holds in every run, up to its end. -/
structure StageAndCancelled (T : Nat) (s : State N) : Prop where
  stage : Stage T s
  cancelledSoFar : CancelledSoFar T s

theorem StageAndCancelled.step (h : StageAndCancelled T s) {e : Event N}
    (hen : s.Enabled e) :
    StageAndCancelled T (s.next T e) :=
  ⟨h.stage.step hen, h.cancelledSoFar.step h.stage hen⟩

theorem stageAndCancelled_of_reachable (h : (monitor N T).Reachable s) :
    StageAndCancelled T s := by
  refine ⟨stage_of_reachable h, ?_⟩
  have hboth : Stage T s ∧ CancelledSoFar T s := by
    refine h.invariant (I := fun s => Stage T s ∧ CancelledSoFar T s) ?_ ?_
    · rintro s rfl
      exact ⟨stage_of_reachable (.init rfl), Nat.zero_le T,
        fun j hj => absurd hj (Nat.not_lt_zero _)⟩
    · rintro s e t ⟨hstage, hcancelled⟩ - ⟨hen, rfl⟩
      exact ⟨hstage.step hen, hcancelled.step hstage hen⟩
  exact hboth.2

/-! ## Where nothing can go on -/

theorem StageAndCancelled.over (h : StageAndCancelled T s)
    (hhalted : (monitor N T).Halted NoSpurious s) :
    s.Over T := by
  have hstuck : ¬ s.CanStep := by
    rintro (hen | ⟨j, hen⟩)
    · exact hhalted .santa _ ⟨nofun, nofun⟩ ⟨hen, rfl⟩
    · exact hhalted (.reindeer j) _ ⟨nofun, nofun⟩ ⟨hen, rfl⟩
  have hended : s.santa = .ended := by
    by_contra hne
    by_cases hlt : s.i < T
    · exact hstuck ((h.stage.counted hlt).canStep hne)
    · refine hstuck (.inl ⟨fun hwaiting => ?_, hne⟩)
      exact hlt (h.stage.started (.inl hwaiting))
  refine ⟨hended, Nat.le_antisymm h.cancelledSoFar.le
    (h.stage.behind 0 (.inr hended)),
    fun j => h.cancelledSoFar.cancelled j ?_⟩
  rw [hended]
  exact j.isLt

/-! ## The steps that are left -/

/-- Until its next wait. -/
def ReindeerPc.left : ReindeerPc → Nat
  | .start | .woken => 4
  | .holiday => 3
  | .waiting | .cancelled => 0

def Santa.left (N : Nat) : Santa → Nat
  | .loop | .woken => N + 4
  | .delivering => N + 3
  | .waiting => N + 2
  | .cancel j => N - j + 1
  | .ended => 0

def State.herdLeft (s : State N) : Nat :=
  Processes.total (fun r : Reindeer => r.pc.left) s.reindeer

/-- A delivery wakes up all reindeer. -/
def State.left (T : Nat) (s : State N) : Nat :=
  (T - s.i) * (4 * N + 2) + s.herdLeft + s.santa.left N

theorem left_eq {santa : Santa} (hsanta : s.santa = santa) : s.left T =
    (T - s.i) * (4 * N + 2) + s.herdLeft + santa.left N := by
  rw [State.left, hsanta]

theorem herdLeft_le (s : State N) : s.herdLeft ≤ 4 * N := by
  have hle : ∑ j, (s.reindeer j).pc.left ≤ ∑ _j : Fin N, 4 := by
    refine Finset.sum_le_sum fun j _ => ?_
    cases (s.reindeer j).pc <;> decide
  rw [Finset.sum_const_nat fun _ _ => rfl, Finset.card_univ,
    Fintype.card_fin, Nat.mul_comm] at hle
  exact hle

theorem left_le (s : State N) : s.left T ≤ T * (4 * N + 2) + 5 * N + 4 := by
  have hrounds : (T - s.i) * (4 * N + 2) ≤ T * (4 * N + 2) :=
    Nat.mul_le_mul_right _ (Nat.sub_le T s.i)
  have hherd := herdLeft_le s
  have hsanta : s.santa.left N ≤ N + 4 := by
    cases s.santa <;> simp only [Santa.left] <;> omega
  rw [State.left]
  omega

theorem santaTest_left (s : State N) : s.santaTest.left T <
    (T - s.i) * (4 * N + 2) + s.herdLeft + (N + 4) := by
  have hsanta : s.santaTest.santa.left N ≤ N + 3 := by
    by_cases hcount : s.reindeerReadyCount < N
    · rw [State.santaTest, if_pos hcount]
      exact Nat.le_succ _
    · rw [State.santaTest, if_neg hcount]
      exact Nat.le_refl _
  show (T - s.i) * (4 * N + 2) + s.herdLeft + s.santaTest.santa.left N < _
  omega

/-- What a reindeer's step takes away. -/
theorem setReindeer_herdLeft (s : State N) (j : Fin N) (r : Reindeer) :
    (s.setReindeer j r).herdLeft + (s.reindeer j).pc.left =
      s.herdLeft + r.pc.left :=
  Processes.total_update (fun r : Reindeer => r.pc.left) s.reindeer j r

theorem setReindeer_left (s : State N) (j : Fin N) (r : Reindeer) :
    (s.setReindeer j r).left T + (s.reindeer j).pc.left =
      s.left T + r.pc.left := by
  have hherd := setReindeer_herdLeft s j r
  show (T - s.i) * (4 * N + 2) + (s.setReindeer j r).herdLeft +
    s.santa.left N + _ = _
  rw [State.left]
  omega

theorem increase_left (s : State N) : s.increase.left T ≤ s.left T + 2 := by
  obtain ⟨hincrease, hcases⟩ := increase_cases s
  have hsanta : s.increase.santa.left N ≤ s.santa.left N + 2 := by
    rcases hcases with ⟨hsame, -⟩ | ⟨hwaiting, hwoken⟩
    · rw [hsame]
      exact Nat.le_add_right _ _
    · rw [hwaiting, hwoken]
      exact Nat.le_refl _
  have hleft : s.increase.left T = (T - s.i) * (4 * N + 2) + s.herdLeft +
      s.increase.santa.left N := by
    conv_lhs => rw [hincrease]
    rfl
  rw [hleft, State.left]
  omega

theorem deliver_left (hlt : s.i < T) : (s.deliver T).left T <
    (T - s.i) * (4 * N + 2) + s.herdLeft + (N + 3) := by
  have hrounds : (T - s.i) * (4 * N + 2) =
      (T - (s.i + 1)) * (4 * N + 2) + (4 * N + 2) := by
    rw [← Nat.succ_mul]
    congr 1
    omega
  have hherd := herdLeft_le (s.deliver T)
  show (T - (s.i + 1)) * (4 * N + 2) + (s.deliver T).herdLeft + (N + 4) < _
  omega

theorem StageAndCancelled.santaStep_left (h : StageAndCancelled T s)
    (hen : s.Enabled .santa) :
    (s.santaStep T).left T < s.left T := by
  rw [State.santaStep]
  split
  case h_1 hsanta =>
    rw [left_eq (s := s) hsanta]
    split
    · exact santaTest_left s
    · show (T - s.i) * (4 * N + 2) + s.herdLeft + (N - 0 + 1) <
        _ + _ + (N + 4)
      omega
  case h_2 hsanta =>
    rw [left_eq (s := s) hsanta]
    exact santaTest_left s
  case h_3 hsanta =>
    rw [left_eq (s := s) hsanta]
    exact deliver_left (h.stage.started (.inr (.inr hsanta)))
  case h_4 j hsanta =>
    rw [left_eq (s := s) hsanta]
    split
    · rename_i hj
      have hherd : _ + _ = _ + 0 := setReindeer_herdLeft s ⟨j, hj⟩
        { s.reindeer ⟨j, hj⟩ with pc := .cancelled }
      show (T - s.i) * (4 * N + 2) + (s.setReindeer ⟨j, hj⟩
        { s.reindeer ⟨j, hj⟩ with pc := .cancelled }).herdLeft +
          (N - (j + 1) + 1) < _ + _ + (N - j + 1)
      omega
    · show (T - s.i) * (4 * N + 2) + s.herdLeft + 0 < _ + _ + (N - j + 1)
      omega
  case h_5 hsanta => exact absurd hsanta hen.1
  case h_6 hsanta => exact absurd hsanta hen.2

theorem reindeerStep_left {j : Fin N} (hen : s.Enabled (.reindeer j)) :
    (s.reindeerStep j).left T < s.left T := by
  simp only [State.reindeerStep]
  split
  case h_1 hpc =>
    have hset := setReindeer_left (T := T) s j
      { s.reindeer j with pc := .holiday }
    rw [hpc] at hset
    simp only [ReindeerPc.left] at hset
    omega
  case h_2 hpc =>
    have hset := setReindeer_left (T := T) s j
      { s.reindeer j with pc := .holiday }
    rw [hpc] at hset
    simp only [ReindeerPc.left] at hset
    omega
  case h_3 hpc =>
    have hset := setReindeer_left (T := T) s.increase j { s.reindeer j with
      pc := .waiting, increases := (s.reindeer j).increases + 1 }
    have hsame : s.increase.reindeer j = s.reindeer j := by
      rw [(increase_cases s).1]
    have hsignal := increase_left (T := T) s
    rw [hsame, hpc] at hset
    simp only [ReindeerPc.left] at hset
    omega
  case h_4 hpc => exact absurd hpc hen.2.1
  case h_5 hpc => exact absurd hpc hen.2.2

/-- Every step of the program leaves fewer. -/
theorem falls (N T : Nat) : (monitor N T).Falls NoSpurious
    (StageAndCancelled T) (State.left T) where
  keeps := by
    rintro s e t hs - ⟨hen, rfl⟩
    exact hs.step hen
  lowers := by
    rintro s e t hs hcalm ⟨hen, rfl⟩
    cases e with
    | santa => exact hs.santaStep_left hen
    | reindeer j => exact reindeerStep_left hen
    | santaSpurious => exact absurd rfl hcalm.1
    | spurious j => exact absurd rfl (hcalm.2 j)

/-- **The program ends**: from every reachable state, whatever spurious
returns led to it, a run without further ones is bounded, and it can stop
only when all deliveries are made and all reindeer cancelled. There is such
a run. -/
theorem program_ends (h : (monitor N T).Reachable s) :
    (∀ tr, (monitor N T).Run s tr → System.Meets NoSpurious s tr →
      tr.length ≤ T * (4 * N + 2) + 5 * N + 4 ∧
        ((monitor N T).Halted NoSpurious (System.final s tr) →
          (System.final s tr).Over T)) ∧
      ∃ tr, (monitor N T).Run s tr ∧ System.Meets NoSpurious s tr ∧
        (System.final s tr).Over T := by
  have hboth := stageAndCancelled_of_reachable h
  have hfalls := falls N T
  refine ⟨fun tr hrun hcalm => ⟨?_, ?_⟩, ?_⟩
  · have hlength := hfalls.length_add_le hrun hcalm hboth
    have hle := left_le (T := T) s
    omega
  · exact (hfalls.final hrun hcalm hboth).over
  · obtain ⟨tr, hrun, hcalm, hhalted⟩ := hfalls.exists_halted hboth
    exact ⟨tr, hrun, hcalm, (hfalls.final hrun hcalm hboth).over hhalted⟩

/-- With a reindeer missing at the first delivery. -/
theorem program_ends_one_missing : ∃ s, (monitor 9 4).Reachable s ∧
    (s.reindeer 0).disturbed = true ∧ ∃ tr, (monitor 9 4).Run s tr ∧
      tr.length ≤ 201 ∧ (System.final s tr).Over 4 := by
  have hrun : ∃ s, (monitor 9 4).Reachable s ∧
      (s.reindeer 0).disturbed = true :=
    System.ReachableIf.exists_of_runLabels (State.step 4)
      (fun _ _ _ => monitor_step) oneMissing (.init rfl) (by decide +kernel)
  obtain ⟨s, hs, hdisturbed⟩ := hrun
  obtain ⟨hbounded, tr, htr, hcalm, hover⟩ := program_ends hs
  exact ⟨s, hs, hdisturbed, tr, htr, (hbounded tr htr hcalm).1, hover⟩

end Sysops.Cw10
