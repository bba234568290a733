import Sysops.Cw05.Signals

/-!
# `cw05/zad2`: which requests are handled and which senders are released

A signal that arrives while another one is pending is dropped, and a
confirmation that arrives before `sigsuspend` does not end it. Both
conditions are exact.
-/

namespace Sysops.Cw05

variable {P : Type} [DecidableEq P] {workType : P → Int}

/-! ## Handled exactly once -/

/-- No handler runs, and no request to finish was handled. -/
def State.Quiet (s : State P) : Prop :=
  s.pending = none ∧ s.pc.Idle

/-- Each request was counted, and its sender was sent one confirmation. -/
structure HandledOnce (s : State P) : Prop where
  updates : s.workTypeUpdates = s.requests.length
  confirmed : ∀ p ∈ s.requests, (s.senders p).confirmations = 1

instance (s : State P) : Decidable s.Quiet :=
  inferInstanceAs (Decidable (_ ∧ _))

/-- The catcher has ended. -/
def CatcherPc.Ended : CatcherPc P → Prop
  | .terminated | .failed | .finished => True
  | _ => False

instance : (pc : CatcherPc P) → Decidable pc.Ended
  | .terminated | .failed | .finished => isTrue trivial
  | .start | .pause | .dispatch _ | .count _ | .confirm _ | .test _ =>
      isFalse id

/-- A `sigqueue` that succeeds finds the handler installed, and no signal
pending. -/
def FindsRoom (s : State P) : Event P → Prop
  | .catcher => True
  | .sender p => (s.senders p).pc = .sigqueue → ¬ s.pc.Ended →
      s.pc ≠ .start ∧ s.pending = none

instance (s : State P) : (e : Event P) → Decidable (FindsRoom s e)
  | .catcher => isTrue trivial
  | .sender _ => inferInstanceAs (Decidable (_ → _ → _ ∧ _))

theorem Books.handledOnce_iff {s : State P} (h : Books s) (hquiet : s.Quiet) :
    HandledOnce s ↔ s.lost = [] := by
  obtain ⟨hpending, hidle⟩ := hquiet
  have hwaiting : s.waiting = [] := by
    rw [State.waiting, hpending]
    rfl
  have huncounted : s.pc.uncounted = [] ∧ s.pc.unconfirmed = [] := by
    cases hpc : s.pc with
    | start | pause | terminated => exact ⟨rfl, rfl⟩
    | dispatch info | count info | confirm info | test info =>
        rw [hpc] at hidle
        exact hidle.elim
    | failed | finished =>
        rw [hpc] at hidle
        exact hidle.elim
  have hcounted := h.counted
  have hconfirmed := h.confirmed
  simp only [hwaiting, huncounted, List.length_nil, Nat.zero_add] at hcounted
  simp only [hwaiting, huncounted, List.count_nil, Nat.zero_add] at hconfirmed
  constructor
  · intro hhandled
    have hupdates := hhandled.updates
    refine List.eq_nil_of_length_eq_zero ?_
    omega
  · intro hlost
    simp only [hlost, List.length_nil, Nat.add_zero] at hcounted
    simp only [hlost, List.count_nil, Nat.add_zero] at hconfirmed
    refine ⟨hcounted.symm, fun p hp => ?_⟩
    have hpos := List.count_pos_iff.mpr hp
    have hfits := h.fits p
    have hp := hconfirmed p
    rw [Sender.Fits] at hfits
    split at hfits <;> omega

section Requests

variable {s t : State P} {info : Siginfo P} {p : P} {e : Event P}

omit [DecidableEq P] in
theorem raise_lost (h : s.raise info = some t) (hidle : s.pc.Idle → s.pending = none) :
    ¬ s.pc.Ended ∧ (t.lost = [] ↔
      s.lost = [] ∧ s.pc ≠ .start ∧ s.pending = none) := by
  unfold State.raise at h
  split at h
  case h_1 hpc =>
    obtain rfl := Option.some.inj h
    rw [hpc]
    simp [CatcherPc.Ended]
  case h_2 hpc =>
    obtain rfl := Option.some.inj h
    have hpending := hidle (by rw [hpc]; trivial)
    rw [hpc]
    simp [CatcherPc.Ended, hpending]
  case h_3 hpc | h_4 hpc | h_5 hpc | h_6 hpc =>
    -- in the handler the signal is blocked: one fits, a second one does not
    obtain rfl := Option.some.inj h
    rw [hpc]
    unfold State.block
    split
    · rename_i hpending
      simp [CatcherPc.Ended, hpending]
    · rename_i hpending
      simp [CatcherPc.Ended, hpending]
  case h_7 | h_8 | h_9 => cases h

omit [DecidableEq P] in
theorem raise_eq_none (h : s.raise info = none) : s.pc.Ended := by
  unfold State.raise at h
  split at h
  case h_7 hpc | h_8 hpc | h_9 hpc =>
    rw [hpc]
    trivial
  all_goals cases h

/-- Outside of `sigqueue`, no signal to the catcher is sent. -/
theorem catcherStep_lost (h : Books s) (hstep : s.catcherStep = some t) :
    t.lost = s.lost := by
  simp only [State.catcherStep] at hstep
  split at hstep
  case h_4 info hpc =>
    obtain ⟨x, hconfirm, -⟩ := h.confirm_eq hpc
    simp only [hconfirm] at hstep
    obtain rfl := Option.some.inj hstep
    rfl
  case h_5 =>
    split at hstep
    · obtain rfl := Option.some.inj hstep
      rfl
    · split at hstep <;>
      · obtain rfl := Option.some.inj hstep
        rfl
  case h_6 | h_7 | h_8 | h_9 => cases hstep
  all_goals
    obtain rfl := Option.some.inj hstep
    rfl

theorem lost_step (h : Books s) (hstep : s.step workType e = some t) :
    t.lost = [] ↔ s.lost = [] ∧ FindsRoom s e := by
  cases e with
  | catcher =>
      rw [catcherStep_lost h hstep]
      exact (and_iff_left trivial).symm
  | sender p =>
      have hother : (s.senders p).pc ≠ .sigqueue →
          FindsRoom s (.sender p) := fun hne hpc => absurd hpc hne
      simp only [State.step, State.senderStep] at hstep
      split at hstep
      case h_2 hpc =>
        rw [FindsRoom, hpc]
        split at hstep
        · -- the catcher has ended, and `sigqueue` fails
          rename_i hraise
          obtain rfl := Option.some.inj hstep
          have hended := raise_eq_none hraise
          exact (and_iff_left fun _ hnot => absurd hended hnot).symm
        · rename_i u hraise
          obtain rfl := Option.some.inj hstep
          obtain ⟨hrunning, hlost⟩ := raise_lost hraise h.idle
          show u.lost = [] ↔ _
          rw [hlost]
          simp [hrunning]
      case h_1 hpc | h_3 hpc =>
        obtain rfl := Option.some.inj hstep
        refine (and_iff_left (hother ?_)).symm
        rw [hpc]
        decide
      case h_4 | h_5 | h_6 => cases hstep

end Requests

/-- **At the end of a run, if the catcher is not busy, each request was
handled once exactly if each signal found room.** -/
theorem handled_once_iff {tr : List (Event P × State P)}
    (hrun : (signals workType).Run (State.initial P) tr)
    (hquiet : (System.final (State.initial P) tr).Quiet) :
    HandledOnce (System.final (State.initial P) tr) ↔
      System.Meets FindsRoom (State.initial P) tr := by
  have hbooks := books_of_run hrun
  rw [hbooks.handledOnce_iff hquiet, hrun.final_iff_meets (C := FindsRoom)
    (P := fun s => s.lost = []) (fun _ _ _ h hstep => h.step hstep)
    (fun _ _ _ h hstep => lost_step h hstep) books_initial]
  exact and_iff_right rfl

/-- Two senders, the second of them after the first is confirmed. -/
def oneAfterTheOther : List (Event (Fin 2)) :=
  [.catcher, .sender 0, .sender 0, .sender 0, .catcher, .catcher, .catcher,
    .catcher, .sender 1, .sender 1, .catcher, .catcher, .catcher, .catcher]

theorem both_handled : ∃ tr, (signals fun _ : Fin 2 => workNumbers).Run
    (State.initial (Fin 2)) tr ∧
      (System.final (State.initial (Fin 2)) tr).requests = [0, 1] ∧
        HandledOnce (System.final (State.initial (Fin 2)) tr) := by
  obtain ⟨tr, hrun, hmeets, -, hend⟩ := System.Run.exists_of_runLabels_any
    (S := signals fun _ : Fin 2 => workNumbers) (C := FindsRoom)
    (State.step fun _ => workNumbers) (fun _ _ _ h => h) oneAfterTheOther
    (p := fun s => decide (s.Quiet ∧ s.requests = [0, 1]))
    (s := State.initial (Fin 2)) (by decide +kernel)
  obtain ⟨hquiet, hrequests⟩ := of_decide_eq_true hend
  exact ⟨tr, hrun, hrequests, (handled_once_iff hrun hquiet).mpr hmeets⟩

/-- Three senders, two of them while the handler runs for the first. -/
def twoMeanwhile : List (Event (Fin 3)) :=
  [.catcher, .sender 0, .sender 1, .sender 2, .sender 0, .sender 1, .sender 2,
    .catcher, .catcher, .catcher, .catcher, .catcher, .catcher, .catcher,
    .catcher]

/-- The third request is dropped. -/
theorem request_dropped : ¬ ∀ (n : Nat) (workType : Fin n → Int),
    (∀ p, 1 ≤ workType p ∧ workType p ≤ 3) →
      ∀ s, (signals workType).Reachable s → s.Quiet → HandledOnce s := by
  intro h
  have hrun : ∃ s, (signals fun _ : Fin 3 => workNumbers).Reachable s ∧
      decide (s.Quiet ∧ s.requests.length = 3 ∧ s.workTypeUpdates = 2) =
        true :=
    System.ReachableIf.exists_of_runLabels
      (State.step fun _ => workNumbers) (fun _ _ _ h => h) twoMeanwhile
      (.init rfl) (by decide +kernel)
  obtain ⟨s, hs, hend⟩ := hrun
  obtain ⟨hquiet, hrequests, hupdates⟩ := of_decide_eq_true hend
  have hwork : ∀ p : Fin 3, 1 ≤ workNumbers ∧ workNumbers ≤ 3 := by decide
  have hhandled := (h 3 _ hwork s hs hquiet).updates
  rw [hrequests, hupdates] at hhandled
  cases hhandled

/-! ## No sender is left in `sigsuspend` -/

/-- No sender waits for a confirmation that it was sent. (A signal to a sender
is never pending, as no sender blocks it outside of its handler.) -/
def NoneLeft (s : State P) : Prop :=
  ∀ p, ¬ (1 ≤ (s.senders p).confirmations ∧ (s.senders p).pc = .suspended)

/-- Whom the catcher is about to confirm. -/
def CatcherPc.confirming : CatcherPc P → Option P
  | .confirm info => some info.siPid
  | _ => none

/-- The catcher confirms a request while its sender is in `sigsuspend`. -/
def FindsSuspended (s : State P) : Event P → Prop
  | .catcher => ∀ p ∈ s.pc.confirming, (s.senders p).pc = .suspended
  | .sender _ => True

instance (s : State P) : (e : Event P) → Decidable (FindsSuspended s e)
  | .catcher => inferInstanceAs (Decidable (∀ p ∈ s.pc.confirming, _))
  | .sender _ => isTrue trivial

/-- Every sender that was sent its confirmation has ended. -/
def Released (s : State P) : Prop :=
  ∀ p, 1 ≤ (s.senders p).confirmations → (s.senders p).pc = .done

omit [DecidableEq P] in
theorem Released.noneLeft {s : State P} (h : Released s) : NoneLeft s := by
  rintro p ⟨hconfirmed, hpc⟩
  exact absurd ((h p hconfirmed).symm.trans hpc) (by decide)

section Releases

variable {s t : State P} {info : Siginfo P} {p : P} {e : Event P}

/-- With no sender before `sigsuspend`, the two are the same. -/
theorem Books.noneLeft_iff (h : Books s)
    (hcalled : ∀ p, (s.senders p).pc ≠ .sigsuspend) :
    NoneLeft s ↔ Released s := by
  refine ⟨fun hleft p hconfirmed => ?_, Released.noneLeft⟩
  have hfits := h.fits p
  have hcount := h.confirmed p
  cases hpc : (s.senders p).pc with
  | sigaction | sigqueue | failed =>
      rw [Sender.Fits, hpc] at hfits
      change _ = 0 at hfits
      omega
  | sigsuspend => exact absurd hpc (hcalled p)
  | suspended => exact absurd ⟨hconfirmed, hpc⟩ (hleft p)
  | done => rfl

theorem released_iff (s : State P) (p : P) : Released s ↔
    (1 ≤ (s.senders p).confirmations → (s.senders p).pc = .done) ∧
      ∀ q, q ≠ p → 1 ≤ (s.senders q).confirmations →
        (s.senders q).pc = .done := by
  constructor
  · intro h
    exact ⟨h p, fun q _ => h q⟩
  · rintro ⟨hp, hothers⟩ q
    by_cases hq : q = p
    · subst hq
      exact hp
    · exact hothers q hq

theorem released_update {x : Sender}
    (ht : t.senders = Function.update s.senders p x) :
    Released t ↔ (1 ≤ x.confirmations → x.pc = .done) ∧
      ∀ q, q ≠ p → 1 ≤ (s.senders q).confirmations →
        (s.senders q).pc = .done := by
  rw [Released, ht]
  exact Function.forall_update_iff s.senders fun _ x =>
    1 ≤ x.confirmations → x.pc = .done

/-- A sender that goes on, but does not end. -/
theorem released_sender {pc : SenderPc} (hold : (s.senders p).pc ≠ .done)
    (hnew : pc ≠ .done)
    (ht : t.senders = Function.update s.senders p
      { s.senders p with pc := pc }) : Released t ↔ Released s := by
  rw [released_update ht, released_iff s p]
  refine and_congr_left fun _ => ?_
  exact ⟨fun h hone => absurd (h hone) hnew, fun h hone => absurd (h hone) hold⟩

theorem released_confirm (hpc : s.pc = .confirm info)
    {x : Sender} (hconfirmations : x.confirmations =
      (s.senders info.siPid).confirmations + 1)
    (hfits : x.Fits (s.requests.count info.siPid))
    (hcases : (s.senders info.siPid).pc = .suspended ∧ x.pc = .done ∨
      (s.senders info.siPid).pc = .sigsuspend ∧ x.pc = .sigsuspend)
    (ht : t.senders = Function.update s.senders info.siPid x) :
    Released t ↔ Released s ∧ FindsSuspended s .catcher := by
  have hfinds : FindsSuspended s .catcher ↔
      (s.senders info.siPid).pc = .suspended := by
    rw [FindsSuspended, hpc]
    simp [CatcherPc.confirming]
  rw [released_update ht, released_iff s info.siPid, hfinds]
  rcases hcases with ⟨hsender, hx⟩ | ⟨hsender, hx⟩
  · rw [Sender.Fits, hx] at hfits
    have hnone : (s.senders info.siPid).confirmations = 0 := by
      have hone := hfits.2
      omega
    simp [hx, hnone, hsender]
  · simp [hx, hconfirmations, hsender]

theorem released_step (h : Books s) (hstep : s.step workType e = some t) :
    Released t ↔ Released s ∧ FindsSuspended s e := by
  cases e with
  | catcher =>
      have hsame : s.pc.confirming = none → t.senders = s.senders →
          (Released t ↔ Released s ∧ FindsSuspended s .catcher) := by
        intro hpc hsenders
        rw [Released, hsenders, FindsSuspended, hpc]
        exact (and_iff_left nofun).symm
      simp only [State.step, State.catcherStep] at hstep
      split at hstep
      case h_4 info hpc =>
        obtain ⟨x, hconfirm, hconfirmations, hfits, hcases⟩ := h.confirm_eq hpc
        simp only [hconfirm] at hstep
        obtain rfl := Option.some.inj hstep
        exact released_confirm hpc hconfirmations hfits hcases rfl
      case h_5 hpc =>
        refine hsame (by rw [hpc]; rfl) ?_
        · split at hstep
          · obtain rfl := Option.some.inj hstep
            rfl
          · split at hstep <;>
            · obtain rfl := Option.some.inj hstep
              rfl
      case h_6 | h_7 | h_8 | h_9 => cases hstep
      case h_1 hpc | h_2 hpc | h_3 hpc =>
        obtain rfl := Option.some.inj hstep
        exact hsame (by rw [hpc]; rfl) rfl
  | sender p =>
      rw [FindsSuspended, and_true]
      simp only [State.step, State.senderStep] at hstep
      split at hstep
      case h_1 hpc | h_3 hpc =>
        obtain rfl := Option.some.inj hstep
        refine released_sender ?_ ?_ rfl
        · rw [hpc]
          decide
        · decide
      case h_2 hpc =>
        have hold : (s.senders p).pc ≠ .done := by
          rw [hpc]
          decide
        split at hstep
        · obtain rfl := Option.some.inj hstep
          exact released_sender hold (by decide) rfl
        · rename_i u hraise
          obtain rfl := Option.some.inj hstep
          have hnew : SenderPc.sigsuspend ≠ .done := by decide
          refine released_sender hold hnew ?_
          show Function.update u.senders p _ = _
          rw [(raised hraise h.idle).senders]
      case h_4 | h_5 | h_6 => cases hstep

end Releases

/-- **No sender is left exactly if each confirmation finds its sender in
`sigsuspend`**; the other direction is about a run at whose end no sender is
still before that call. -/
theorem none_left_iff {tr : List (Event P × State P)}
    (hrun : (signals workType).Run (State.initial P) tr) :
    (System.Meets FindsSuspended (State.initial P) tr →
      NoneLeft (System.final (State.initial P) tr)) ∧
    ((∀ p, ((System.final (State.initial P) tr).senders p).pc ≠ .sigsuspend) →
      NoneLeft (System.final (State.initial P) tr) →
        System.Meets FindsSuspended (State.initial P) tr) := by
  have hbooks := books_of_run hrun
  have hiff := hrun.final_iff_meets (C := FindsSuspended)
    (fun _ _ _ h hstep => h.step hstep)
    (fun _ _ _ h hstep => released_step h hstep) books_initial
  have hstart : Released (State.initial P) := fun p hone =>
    absurd hone (Nat.not_succ_le_zero 0)
  rw [and_iff_right hstart] at hiff
  refine ⟨fun hmeets => (hiff.mpr hmeets).noneLeft, fun hcalled hleft => ?_⟩
  exact hiff.mp ((hbooks.noneLeft_iff hcalled).mp hleft)

/-- The usual order: the sender waits before it is confirmed. -/
def waitsFirst : List (Event (Fin 1)) :=
  [.catcher, .sender 0, .sender 0, .sender 0, .catcher, .catcher, .catcher]

theorem sender_released : ∃ tr, (signals fun _ : Fin 1 => workNumbers).Run
    (State.initial (Fin 1)) tr ∧
      ((System.final (State.initial (Fin 1)) tr).senders 0).pc = .done ∧
        NoneLeft (System.final (State.initial (Fin 1)) tr) := by
  obtain ⟨tr, hrun, hmeets, -, hend⟩ := System.Run.exists_of_runLabels_any
    (S := signals fun _ : Fin 1 => workNumbers) (C := FindsSuspended)
    (State.step fun _ => workNumbers) (fun _ _ _ h => h) waitsFirst
    (p := fun s => decide ((s.senders 0).pc = .done))
    (s := State.initial (Fin 1)) (by decide +kernel)
  exact ⟨tr, hrun, of_decide_eq_true hend, (none_left_iff hrun).1 hmeets⟩

/-- The catcher is faster: it confirms before `sigsuspend`. -/
def confirmedFirst : List (Event (Fin 1)) :=
  [.catcher, .sender 0, .sender 0, .catcher, .catcher, .catcher, .catcher,
    .sender 0]

theorem sender_left : ¬ ∀ (n : Nat) (workType : Fin n → Int),
    (∀ p, 1 ≤ workType p ∧ workType p ≤ 3) →
      ∀ s, (signals workType).Reachable s → NoneLeft s := by
  intro h
  have hrun : ∃ s, (signals fun _ : Fin 1 => workNumbers).Reachable s ∧
      decide (1 ≤ (s.senders 0).confirmations ∧
        (s.senders 0).pc = .suspended) = true :=
    System.ReachableIf.exists_of_runLabels
      (State.step fun _ => workNumbers) (fun _ _ _ h => h) confirmedFirst
      (.init rfl) (by decide +kernel)
  obtain ⟨s, hs, hend⟩ := hrun
  have hwork : ∀ p : Fin 1, 1 ≤ workNumbers ∧ workNumbers ≤ 3 := by decide
  exact h 1 _ hwork s hs 0 (of_decide_eq_true hend)

end Sysops.Cw05
