import Sysops.Cw08.Alone

/-!
# Stopping the users

The main function of the users ends its children with `SIGKILL`, wherever
they are. The queue stays usable for the processes that are left exactly
if every child that is killed holds nothing at that moment.
-/

namespace Sysops.Cw08

open Processes

section Usable

variable {P : Type} [Fintype P] [DecidableEq P]

/-- Users may be killed; no wait is interrupted. -/
def mayKill (_ : P) : Action → Prop
  | .run _ | .signal | .kill => True
  | .interrupt => False

def Ordinary (_ : P) (a : Action) : Prop := a.Ordinary

/-- Once the processes that are left are outside their critical sections,
the mutex is free and no capacity is lost. -/
def Usable (s : State P) : Prop :=
  ∀ t, ((printQueue Ordinary).startingAt s).Reachable t →
    (∀ p, (t.proc p).place.inside = false) →
      t.mem.queue.mutex = 1 ∧ t.mem.queue.empty + t.mem.queue.full +
        t.count Place.between = maxJobs

/-- The mutex, or who holds it. -/
def State.mutexes (s : State P) : Nat :=
  s.mem.queue.mutex + s.count Place.inside

/-- The capacity: the values of `empty` and `full`, and what the processes
hold of it. -/
def State.capacity (s : State P) : Nat :=
  s.mem.queue.empty + s.mem.queue.full + s.count Place.between

/-! ## Ordinary steps keep both -/

theorem toNat_between (a : Place) :
    a.between.toNat = a.hasItem.toNat + a.hasRoom.toNat := by
  cases a <;> rfl

theorem Keeps.capacity {m m' : Memory} {x x' : Process}
    (h : Keeps m x m' x') :
    m'.queue.empty + m'.queue.full + x'.place.between.toNat =
      m.queue.empty + m.queue.full + x.place.between.toNat := by
  have hitems := h.items
  have hroom := h.room
  rw [toNat_between, toNat_between]
  omega

theorem keeps_of_ordinary {a : Action} (ha : a.Ordinary) {m m' : Memory}
    {x x' : Process} (h : Process.act a m x = some (m', x')) :
    Keeps m x m' x' := by
  cases a with
  | run rand => exact run_keeps h
  | signal =>
      cases h
      exact signal_keeps _ _
  | interrupt => exact ha.elim
  | kill => exact ha.elim

variable {s t : State P} {p : P}

theorem quantities_step {e : P × Action} (ha : e.2.Ordinary)
    (h : s.step e = some t) :
    t.mutexes = s.mutexes ∧ t.capacity = s.capacity := by
  obtain ⟨m, x, hact, rfl⟩ := act_eq_some.mp h
  have hkeeps := keeps_of_ordinary ha hact
  have hmutex := hkeeps.mutex
  have hcapacity := hkeeps.capacity
  have hinside := s.count_update Place.inside e.1 m x
  have hbetween := s.count_update Place.between e.1 m x
  unfold State.mutexes State.capacity
  constructor
  · show m.queue.mutex + _ = _
    omega
  · show m.queue.empty + m.queue.full + _ = _
    omega

theorem quantities_reachable
    (h : ((printQueue Ordinary).startingAt s).Reachable t) :
    t.mutexes = s.mutexes ∧ t.capacity = s.capacity := by
  refine h.keeps (I := fun t =>
    t.mutexes = s.mutexes ∧ t.capacity = s.capacity) ?_ ⟨rfl, rfl⟩
  rintro t e u ⟨hmutexes, hcapacity⟩ ⟨ha, hstep⟩
  obtain ⟨hm, hc⟩ := quantities_step ha hstep
  exact ⟨hm.trans hmutexes, hc.trans hcapacity⟩

/-! ## Who is inside can leave -/

theorem Process.runs_leave {m : Memory} {x : Process}
    (hx : x.place.inside = true) : ∃ n m' x',
      Process.runs id n (m, x) = some (m', x') ∧
      x'.place.inside = false := by
  cases hplace : x.place <;> rw [hplace] at hx
  case copyIn =>
      refine ⟨4, ?_⟩
      simp [Process.runs, Process.run, Process.goto, hplace, Place.inside]
  case moveTail | copyOut =>
      refine ⟨3, ?_⟩
      simp [Process.runs, Process.run, Process.goto, hplace, Place.inside]
  case postFull | moveHead =>
      refine ⟨2, ?_⟩
      simp [Process.runs, Process.run, Process.goto, hplace, Place.inside]
  case userPostMutex | printerPostMutex =>
      refine ⟨1, ?_⟩
      simp [Process.runs, Process.run, Process.goto, hplace, Place.inside]
  all_goals cases hx

/-- With at most one process inside, all of them can be outside. -/
theorem exists_all_outside (h : s.mutexes ≤ 1) :
    ∃ t, ((printQueue Ordinary).startingAt s).Reachable t ∧
      ∀ p, (t.proc p).place.inside = false := by
  by_cases hidle : ∀ p, (s.proc p).place.inside = false
  · exact ⟨s, .refl _ _, hidle⟩
  · obtain ⟨p, hp⟩ := not_forall.mp hidle
    rw [Bool.not_eq_false] at hp
    obtain ⟨n, m, x, hruns, hx⟩ := Process.runs_leave (m := s.mem) hp
    refine ⟨_, reachable_of_runs Ordinary (fun _ => trivial) hruns, ?_⟩
    intro q
    by_cases hq : q = p
    · subst hq
      simpa only [Function.update_self] using hx
    · cases hinside : (s.proc q).place.inside with
      | false => simpa only [Function.update_of_ne hq] using hinside
      | true =>
          have hcount : s.count Place.inside ≤ 1 := by
            unfold State.mutexes at h
            omega
          refine absurd (eq_of_total_le_one
            (w := fun x : Process => x.place.inside.toNat) hcount ?_ ?_) hq
          · rw [hinside]
            decide
          · rw [hp]
            decide

/-- **Usable is: nothing of the mutex and the capacity is lost.** -/
theorem usable_iff (h : s.mutexes ≤ 1) :
    Usable s ↔ s.mutexes = 1 ∧ s.capacity = maxJobs := by
  constructor
  · intro husable
    obtain ⟨t, ht, hidle⟩ := exists_all_outside h
    obtain ⟨hmutex, hcapacity⟩ := husable t ht hidle
    obtain ⟨hm, hc⟩ := quantities_reachable ht
    have hnone := t.count_eq_zero_iff.mpr hidle
    rw [← hm, ← hc]
    unfold State.mutexes State.capacity
    exact ⟨by omega, hcapacity⟩
  · rintro ⟨hmutexes, hcapacity⟩ t ht hidle
    obtain ⟨hm, hc⟩ := quantities_reachable ht
    have hnone := t.count_eq_zero_iff.mpr hidle
    unfold State.mutexes at hm hmutexes
    unfold State.capacity at hc hcapacity
    omega

/-! ## Kills -/

/-- What a killed process held is gone. -/
theorem quantities_kill (h : s.step (p, .kill) = some t) :
    t.mutexes + (s.proc p).place.inside.toNat = s.mutexes ∧
      t.capacity + (s.proc p).place.between.toNat = s.capacity := by
  obtain ⟨m, x, hact, rfl⟩ : ∃ m x,
      Process.kill s.mem (s.proc p) = some (m, x) ∧
        t = ⟨m, Function.update s.proc p x⟩ := act_eq_some.mp h
  simp only [Process.kill, Option.ite_none_right_eq_some,
    Option.some.injEq, Prod.mk.injEq] at hact
  obtain ⟨-, rfl, rfl⟩ := hact
  have hinside := s.count_update Place.inside p s.mem
    ((s.proc p).goto .killed)
  have hbetween := s.count_update Place.between p s.mem
    ((s.proc p).goto .killed)
  change _ = _ + 0 at hinside
  change _ = _ + 0 at hbetween
  unfold State.mutexes State.capacity
  constructor
  · show s.mem.queue.mutex + _ + _ = _
    omega
  · show s.mem.queue.empty + s.mem.queue.full + _ + _ = _
    omega

/-- Neither the mutex nor a part of the capacity. -/
def Place.HoldsNothing (a : Place) : Prop :=
  a.inside = false ∧ a.between = false

/-- Whoever is killed in the step holds nothing. -/
def KillsIdle (s : State P) : P × Action → Prop
  | (p, .kill) => (s.proc p).place.HoldsNothing
  | _ => True

theorem mutexes_le_step {e : P × Action} (h : s.mutexes ≤ 1)
    (hstep : (printQueue mayKill).step s e t) : t.mutexes ≤ 1 := by
  obtain ⟨hmay, hstep⟩ := hstep
  obtain ⟨p, a⟩ := e
  cases a with
  | run rand =>
      rw [(quantities_step (e := (p, .run rand)) trivial hstep).1]
      exact h
  | signal =>
      rw [(quantities_step (e := (p, .signal)) trivial hstep).1]
      exact h
  | interrupt => exact hmay.elim
  | kill =>
      have := (quantities_kill hstep).1
      omega

/-- A usable queue stays usable exactly if nobody is killed who holds
something. -/
theorem usable_step_iff {e : P × Action} (hle : s.mutexes ≤ 1)
    (h : Usable s) (hstep : (printQueue mayKill).step s e t) :
    Usable t ↔ KillsIdle s e := by
  rw [usable_iff (mutexes_le_step hle hstep)]
  obtain ⟨hmutexes, hcapacity⟩ := (usable_iff hle).mp h
  obtain ⟨hmay, hstep⟩ := hstep
  obtain ⟨p, a⟩ := e
  cases a with
  | run rand =>
      obtain ⟨hm, hc⟩ := quantities_step (e := (p, .run rand)) trivial hstep
      exact iff_of_true ⟨hm.trans hmutexes, hc.trans hcapacity⟩ trivial
  | signal =>
      obtain ⟨hm, hc⟩ := quantities_step (e := (p, .signal)) trivial hstep
      exact iff_of_true ⟨hm.trans hmutexes, hc.trans hcapacity⟩ trivial
  | interrupt => exact hmay.elim
  | kill =>
      obtain ⟨hm, hc⟩ := quantities_kill hstep
      rw [hmutexes] at hm
      rw [hcapacity] at hc
      rw [KillsIdle, Place.HoldsNothing, ← Bool.toNat_eq_zero,
        ← Bool.toNat_eq_zero]
      omega

theorem usable_initial {s₀ : State P} (h : Initial s₀) : Usable s₀ := by
  have hinv := Inv.initial h
  have hmutexes : s₀.mutexes = 1 := hinv.mutex.symm
  refine (usable_iff hmutexes.le).mpr ⟨hmutexes, ?_⟩
  have hnone : s₀.count Place.between = 0 := by
    rw [State.count_eq_zero_iff]
    intro p
    rcases (h.2 p).2 with hp | hp <;> rw [hp] <;> rfl
  rw [State.capacity, hnone, h.1]
  rfl

/-- **In every run the queue stays usable exactly if every kill finds a
user that holds nothing.** -/
theorem usable_iff_kills_idle {s₀ : State P} (hinit : Initial s₀)
    {tr : List ((P × Action) × State P)}
    (h : (printQueue mayKill).Run s₀ tr) :
    (∀ x ∈ tr, Usable x.2) ↔ System.Meets KillsIdle s₀ tr := by
  refine h.forall_iff_meets (J := fun s => s.mutexes ≤ 1) ?_ ?_ ?_ ?_
  · intro s e t hs hstep
    exact mutexes_le_step hs hstep
  · intro s e t hs husable hstep
    exact usable_step_iff hs husable hstep
  · exact (Inv.initial hinit).mutex.symm.le
  · exact usable_initial hinit

end Usable

instance (a : Place) : Decidable a.HoldsNothing :=
  inferInstanceAs (Decidable (_ ∧ _))

instance (s : State Bool) : DecidablePred (KillsIdle s)
  | (_, .kill) => inferInstanceAs (Decidable (Place.HoldsNothing _))
  | (_, .run _) | (_, .signal) | (_, .interrupt) => .isTrue trivial

instance (p : Bool) : DecidablePred (mayKill p)
  | .run _ | .signal | .kill => .isTrue trivial
  | .interrupt => .isFalse id

/-- A user is killed after its first round. -/
theorem usable_after_round : ∃ tr,
    (printQueue mayKill).Run userAndPrinter tr ∧ tr.length = 9 ∧
      ∀ x ∈ tr, Usable x.2 := by
  obtain ⟨tr, hrun, hmeets, hlabels⟩ := System.Run.exists_of_runLabels
    (S := printQueue mayKill) (C := KillsIdle)
    (stepIf (fun _ e => mayKill e.1 e.2) State.step)
    (fun _ _ _ => stepIf_eq_some.mp)
    (List.replicate 8 (true, .run fun i => i) ++ [(true, .kill)])
    (s := userAndPrinter) (by decide +kernel)
  refine ⟨tr, hrun, ?_,
    (usable_iff_kills_idle ⟨rfl, by decide⟩ hrun).mpr hmeets⟩
  rw [← List.length_map (f := Prod.fst), hlabels]
  rfl

/-- A user is killed inside its critical section: nobody is inside, and the
mutex is taken for ever. -/
theorem mutex_lost : ∃ s : State Bool,
    (printQueue mayKill).Reachable s ∧
      (∀ p, (s.proc p).place.inside = false) ∧
      ¬ (s.mem.queue.mutex = 1 ∧ s.mem.queue.empty + s.mem.queue.full +
        s.count Place.between = maxJobs) := by
  obtain ⟨s, hs, hlost⟩ := System.ReachableIf.exists_of_runLabels
    (S := printQueue mayKill) (C := fun _ _ => True)
    (stepIf (fun _ e => mayKill e.1 e.2) State.step)
    (fun _ _ _ => stepIf_eq_some.mp)
    (List.replicate 4 (true, .run fun i => i) ++ [(true, .kill)])
    (p := fun s => s.mem.queue.mutex = 0 ∧
      (s.proc true).place.inside = false ∧
      (s.proc false).place.inside = false) (s := userAndPrinter)
    (.init ⟨rfl, by decide⟩) (by decide +kernel)
  obtain ⟨hmutex, huser, hprinter⟩ := of_decide_eq_true hlost
  refine ⟨s, hs, ?_, ?_⟩
  · intro p
    cases p with
    | false => exact hprinter
    | true => exact huser
  · rw [hmutex]
    rintro ⟨h, -⟩
    cases h

end Sysops.Cw08
