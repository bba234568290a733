import Sysops.Cw08.Kills

/-!
# The print queue goes on

Without interrupted waits the processes never wait for each other in a
circle: where nobody can take a step, all have ended but users that find no
room, or all but printers that find no job. And as long as one printer goes
on, whatever was copied in can still be copied out.
-/

namespace Sysops.Cw08

open Processes

/-- The function of the process has returned, or it was killed. -/
def Place.ended : Place → Bool
  | .userReturned | .printerReturned | .killed => true
  | _ => false

/-- In `printer_process`, and not returned. -/
def Place.prints : Place → Bool
  | .printerTest | .waitFull | .printerWaitMutex | .copyOut | .moveHead
  | .printerPostMutex | .postEmpty => true
  | _ => false

theorem Place.idle_of_ended {a : Place} (h : a.ended = true) :
    a.inside = false ∧ a.hasItem = false ∧ a.hasRoom = false := by
  cases a <;> first
    | exact ⟨rfl, rfl, rfl⟩
    | cases h

/-! ## Who can take a step -/

section Local

variable {rand : Nat → Nat} {m : Memory} {x : Process}

/-- Why a process cannot take a step. -/
inductive Process.Blocked (m : Memory) (x : Process) : Prop where
  | ended : x.place.ended = true → Blocked m x
  | room : x.place = .waitEmpty → m.queue.empty = 0 → Blocked m x
  | job : x.place = .waitFull → m.queue.full = 0 → Blocked m x
  | mutex : x.place = .userWaitMutex ∨ x.place = .printerWaitMutex →
      m.queue.mutex = 0 → Blocked m x

theorem semWait_eq_none {value : Nat} : semWait value = none ↔ value = 0 := by
  unfold semWait
  split <;> simp_all

theorem Process.run_eq_none (h : Process.run rand m x = none) :
    x.Blocked m := by
  cases hx : x.place <;>
    simp only [Process.run, hx, Option.map_eq_none_iff, reduceCtorEq] at h
  case waitEmpty => exact .room hx (semWait_eq_none.mp h)
  case waitFull => exact .job hx (semWait_eq_none.mp h)
  case userWaitMutex => exact .mutex (.inl hx) (semWait_eq_none.mp h)
  case printerWaitMutex => exact .mutex (.inr hx) (semWait_eq_none.mp h)
  all_goals exact .ended (by rw [hx]; rfl)

end Local

section Stuck

variable {P : Type} [Fintype P] {s : State P}

/-- Nobody can take a step. -/
def State.Stuck (s : State P) : Prop :=
  ∀ p rand, Process.run rand s.mem (s.proc p) = none

/-- Where nobody can take a step, nobody is in between. -/
theorem Inv.stuck (h : Inv s) (hstuck : s.Stuck) : ∀ p,
    (s.proc p).place.ended = true ∨
      (s.proc p).place = .waitEmpty ∧ s.mem.queue.empty = 0 ∨
      (s.proc p).place = .waitFull ∧ s.mem.queue.full = 0 := by
  have hblocked := fun p => Process.run_eq_none (hstuck p id)
  -- whoever is inside could go on, so the mutex is free
  have hnone : s.count Place.inside = 0 := by
    rw [State.count_eq_zero_iff]
    intro p
    cases hblocked p with
    | ended hp => exact (Place.idle_of_ended hp).1
    | room hp => rw [hp]; rfl
    | job hp => rw [hp]; rfl
    | mutex hp => rcases hp with hp | hp <;> rw [hp] <;> rfl
  have hmutex := h.mutex
  intro p
  cases hblocked p with
  | ended hp => exact .inl hp
  | room hp hempty => exact .inr (.inl ⟨hp, hempty⟩)
  | job hp hfull => exact .inr (.inr ⟨hp, hfull⟩)
  | mutex _ hzero => omega

/-- Nobody is in a critical section. -/
def State.Outside (s : State P) : Prop :=
  ∀ p, (s.proc p).place.inside = false

theorem Inv.mutex_free (h : Inv s) (hout : s.Outside) :
    s.mem.queue.mutex = 1 := by
  have hmutex := h.mutex
  rw [s.count_eq_zero_iff.mpr hout] at hmutex
  omega

variable [DecidableEq P]

/-- **Nobody waits for nothing**: where no process can take a step, either
all have ended, or all but users that wait for room in a queue of
`MAX_JOBS` jobs, or all but printers that wait for a job in an empty
one. -/
theorem stuck_cases (h : (printQueue (Ordinary (P := P))).Reachable s)
    (hstuck : s.Stuck) :
    (∀ p, (s.proc p).place.ended = true) ∨
    ((∀ p, (s.proc p).place.ended = true ∨ (s.proc p).place = .waitEmpty) ∧
      s.mem.copies.put.length = s.mem.copies.taken.length + maxJobs) ∨
    ((∀ p, (s.proc p).place.ended = true ∨ (s.proc p).place = .waitFull) ∧
      s.mem.copies.put = s.mem.copies.taken) := by
  have hs := inv_of_reachable (fun _ _ ha => ha) h
  have hplaces := hs.stuck hstuck
  have hitem : s.count Place.hasItem = 0 := by
    rw [State.count_eq_zero_iff]
    intro p
    rcases hplaces p with hp | ⟨hp, -⟩ | ⟨hp, -⟩
    · exact (Place.idle_of_ended hp).2.1
    · rw [hp]; rfl
    · rw [hp]; rfl
  have hroom : s.count Place.hasRoom = 0 := by
    rw [State.count_eq_zero_iff]
    intro p
    rcases hplaces p with hp | ⟨hp, -⟩ | ⟨hp, -⟩
    · exact (Place.idle_of_ended hp).2.2
    · rw [hp]; rfl
    · rw [hp]; rfl
  have hitems := hs.items
  have hrooms := hs.room
  rw [hitem] at hitems
  rw [hroom] at hrooms
  simp only [maxJobs] at hrooms
  by_cases hall : ∀ p, (s.proc p).place.ended = true
  · exact .inl hall
  obtain ⟨p, hp⟩ := not_forall.mp hall
  rcases hplaces p with hended | ⟨-, hempty⟩ | ⟨-, hfull⟩
  · exact absurd hended hp
  · refine .inr (.inl ⟨fun q => ?_, by simp only [maxJobs]; omega⟩)
    rcases hplaces q with hq | ⟨hq, -⟩ | ⟨-, hfull⟩
    · exact .inl hq
    · exact .inr hq
    · -- there is room, or there is a job
      omega
  · refine .inr (.inr ⟨fun q => ?_, ?_⟩)
    · rcases hplaces q with hq | ⟨-, hempty⟩ | ⟨hq, -⟩
      · exact .inl hq
      · omega
      · exact .inr hq
    · exact (hs.bounded.inOrder.eq_of_length (by omega)).symm

end Stuck

/-! ## What was copied in can be copied out -/

/-- The process goes on by itself: there is no signal and no kill. -/
def OwnSteps {P : Type} (_ : P) : Action → Prop
  | .run _ => True
  | .signal | .interrupt | .kill => False

theorem OwnSteps.ordinary {P : Type} {p : P} {a : Action}
    (h : OwnSteps p a) : a.Ordinary := by
  cases a with
  | run rand => trivial
  | signal | interrupt | kill => exact h.elim

section Drains

variable {P : Type} [DecidableEq P] {s t : State P} {p q : P}

/-- A printer that will look for another job. -/
def Process.Serves (x : Process) : Prop :=
  x.place.prints = true ∧ x.keepRunning = true

/-- A printer with a job and the mutex free. -/
theorem Process.runs_copyOut {m : Memory} {x : Process}
    (hx : x.place = .printerWaitMutex) (hmutex : m.queue.mutex = 1) :
    ∃ m' x', Process.runs id 4 (m, x) = some (m', x') ∧
      x'.place = .postEmpty ∧ x'.keepRunning = x.keepRunning ∧
      m'.queue.mutex = 1 ∧ m'.queue.full = m.queue.full ∧
      m'.copies.put = m.copies.put ∧
      m'.copies.taken.length = m.copies.taken.length + 1 := by
  obtain ⟨place, buf, keepRunning⟩ := x
  subst hx
  simp [Process.runs, Process.run, Process.goto, semWait, semPost, hmutex]

/-- A printer outside its critical section gets to one, if there is a
job. -/
theorem Process.runs_waitFull {m : Memory} {x : Process} (hx : x.Serves)
    (hout : x.place.inside = false) (hplace : x.place ≠ .printerWaitMutex)
    (hfull : 0 < m.queue.full) : ∃ n m' x',
      Process.runs id n (m, x) = some (m', x') ∧
      x'.place = .printerWaitMutex ∧ x'.keepRunning = true ∧
      m'.queue.mutex = m.queue.mutex ∧ m'.copies = m.copies := by
  obtain ⟨place, buf, keepRunning⟩ := x
  obtain ⟨hprints, hk⟩ := hx
  subst hk
  obtain ⟨f, hf⟩ := Nat.exists_eq_succ_of_ne_zero (Nat.ne_of_gt hfull)
  cases place <;> simp only [Place.prints, Place.inside, Bool.false_eq_true,
    reduceCtorEq, ne_eq, not_true_eq_false] at hprints hout hplace
  case printerTest =>
      refine ⟨2, ?_⟩
      simp [Process.runs, Process.run, Process.goto, semWait, hf]
  case waitFull =>
      refine ⟨1, ?_⟩
      simp [Process.runs, Process.run, Process.goto, semWait, hf]
  case postEmpty =>
      refine ⟨3, ?_⟩
      simp [Process.runs, Process.run, Process.goto, semWait, hf]

/-- A process inside leaves; a printer goes on being one. -/
theorem Process.runs_leave_serving {m : Memory} {x : Process}
    (hx : x.place.inside = true) : ∃ n m' x',
      Process.runs id n (m, x) = some (m', x') ∧
      x'.place.inside = false ∧ (x.Serves → x'.Serves) := by
  obtain ⟨place, buf, keepRunning⟩ := x
  cases place <;> simp only [Place.inside, Bool.false_eq_true] at hx
  case copyIn =>
      refine ⟨4, ?_⟩
      simp [Process.runs, Process.run, Process.goto, Place.inside,
        Process.Serves, Place.prints]
  case moveTail =>
      refine ⟨3, ?_⟩
      simp [Process.runs, Process.run, Process.goto, Place.inside,
        Process.Serves, Place.prints]
  case copyOut =>
      refine ⟨3, ?_⟩
      simp [Process.runs, Process.run, Process.goto, Place.inside,
        Process.Serves, Place.prints]
  case postFull =>
      refine ⟨2, ?_⟩
      simp [Process.runs, Process.run, Process.goto, Place.inside,
        Process.Serves, Place.prints]
  case moveHead =>
      refine ⟨2, ?_⟩
      simp [Process.runs, Process.run, Process.goto, Place.inside,
        Process.Serves, Place.prints]
  case userPostMutex =>
      refine ⟨1, ?_⟩
      simp [Process.runs, Process.run, Process.goto, Place.inside,
        Process.Serves, Place.prints]
  case printerPostMutex =>
      refine ⟨1, ?_⟩
      simp [Process.runs, Process.run, Process.goto, Place.inside,
        Process.Serves, Place.prints]

/-- One process takes some steps. -/
theorem exists_update (hs : (s.proc p).Serves) {n : Nat} {m : Memory}
    {x : Process} (hruns : Process.runs id n (s.mem, s.proc q) = some (m, x))
    (hx : (s.proc q).Serves → x.Serves) : ∃ t,
    ((printQueue OwnSteps).startingAt s).Reachable t ∧ t.mem = m ∧
      t.proc q = x ∧ (∀ r, r ≠ q → t.proc r = s.proc r) ∧
      (t.proc p).Serves := by
  refine ⟨_, reachable_of_runs OwnSteps (fun _ => trivial) hruns, rfl,
    Function.update_self _ _ _, fun r hr => Function.update_of_ne hr _ _, ?_⟩
  by_cases hpq : p = q
  · subst hpq
    simpa only [Function.update_self] using hx hs
  · simpa only [Function.update_of_ne hpq] using hs

variable [Fintype P]

theorem Inv.keeps (h : Inv s)
    (ht : ((printQueue OwnSteps).startingAt s).Reachable t) : Inv t := by
  refine ht.keeps (I := Inv) ?_ h
  rintro t e u hinv ⟨ha, hstep⟩
  obtain ⟨m, x, hact, rfl⟩ := act_eq_some.mp hstep
  exact hinv.step ha.ordinary hact

/-- What was copied stays copied. -/
theorem Inv.copies_mono (h : Inv s)
    (ht : ((printQueue OwnSteps).startingAt s).Reachable t) :
    s.mem.copies.put <+: t.mem.copies.put := by
  refine (ht.keeps (I := fun t => Inv t ∧
    s.mem.copies.put <+: t.mem.copies.put) ?_ ⟨h, List.prefix_rfl⟩).2
  rintro t e u ⟨hinv, hput⟩ ⟨ha, hstep⟩
  obtain ⟨m, x, hact, rfl⟩ := act_eq_some.mp hstep
  refine ⟨hinv.step ha.ordinary hact, ?_⟩
  cases he : e.2 with
  | run rand =>
      rw [he] at hact
      rcases hinv.copies_step hact with hcopies | hcopies
      · show _ <+: m.copies.put
        rw [hcopies]
        exact hput
      · exact hput.trans hcopies.put_prefix
  | signal | interrupt | kill =>
      rw [he] at ha
      exact ha.elim

/-- Whoever is inside leaves. -/
theorem Inv.exists_outside (h : Inv s) (hp : (s.proc p).Serves) : ∃ t,
    ((printQueue OwnSteps).startingAt s).Reachable t ∧ t.Outside ∧
      (t.proc p).Serves := by
  by_cases hidle : s.Outside
  · exact ⟨s, .refl _ _, hidle, hp⟩
  · obtain ⟨q, hq⟩ := not_forall.mp hidle
    rw [Bool.not_eq_false] at hq
    obtain ⟨n, m, x, hruns, hx, hserves⟩ :=
      Process.runs_leave_serving (m := s.mem) hq
    obtain ⟨t, ht, -, htq, hothers, htp⟩ := exists_update hp hruns hserves
    refine ⟨t, ht, fun r => ?_, htp⟩
    by_cases hr : r = q
    · rw [hr, htq, hx]
    · rw [hothers r hr]
      cases hinside : (s.proc r).place.inside with
      | false => rfl
      | true =>
          have hmutex := h.mutex
          have hcount : s.count Place.inside ≤ 1 := by omega
          refine absurd (eq_of_total_le_one
            (w := fun x : Process => x.place.inside.toNat) hcount ?_ ?_) hr
          · rw [hinside]
            decide
          · rw [hq]
            decide

/-- A printer that has waited for a job copies one out. -/
theorem Inv.exists_copyOut (h : Inv s) (hout : s.Outside)
    (hp : (s.proc p).Serves) (hq : (s.proc q).place = .printerWaitMutex) :
    ∃ t, ((printQueue OwnSteps).startingAt s).Reachable t ∧ t.Outside ∧
      (t.proc p).Serves ∧ t.mem.copies.put = s.mem.copies.put ∧
      t.mem.copies.taken.length = s.mem.copies.taken.length + 1 := by
  obtain ⟨m, x, hruns, hx, hk, -, -, hput, htaken⟩ :=
    Process.runs_copyOut hq (h.mutex_free hout)
  obtain ⟨t, ht, rfl, htq, hothers, htp⟩ := exists_update hp hruns
    (fun hserves => ⟨by rw [hx]; rfl, hk.trans hserves.2⟩)
  refine ⟨t, ht, fun r => ?_, htp, hput, htaken⟩
  by_cases hr : r = q
  · rw [hr, htq, hx]
    rfl
  · rw [hothers r hr]
    exact hout r

/-- While there is a job, one can be copied out. -/
theorem Inv.exists_taken (h : Inv s) (hout : s.Outside)
    (hp : (s.proc p).Serves)
    (hjob : s.mem.copies.taken.length < s.mem.copies.put.length) : ∃ t,
    ((printQueue OwnSteps).startingAt s).Reachable t ∧ t.Outside ∧
      (t.proc p).Serves ∧ t.mem.copies.put = s.mem.copies.put ∧
      t.mem.copies.taken.length = s.mem.copies.taken.length + 1 := by
  by_cases hwaiting : ∃ q, (s.proc q).place = .printerWaitMutex
  · obtain ⟨q, hq⟩ := hwaiting
    exact h.exists_copyOut hout hp hq
  · -- all jobs are in `full`, and `p` can have one
    rw [not_exists] at hwaiting
    have hnone : s.count Place.hasItem = 0 := by
      rw [State.count_eq_zero_iff]
      intro q
      have hq := hout q
      have hne := hwaiting q
      cases hplace : (s.proc q).place <;> simp_all [Place.hasItem,
        Place.inside]
    have hitems := h.items
    rw [hnone] at hitems
    have hfull : 0 < s.mem.queue.full := by omega
    obtain ⟨n, m, x, hruns, hx, hk, -, hcopies⟩ :=
      Process.runs_waitFull hp (hout p) (hwaiting p) hfull
    obtain ⟨t, ht, rfl, htp, hothers, hserves⟩ := exists_update hp hruns
      (fun _ => ⟨by rw [hx]; rfl, hk⟩)
    have htout : t.Outside := by
      intro r
      by_cases hr : r = p
      · rw [hr, htp, hx]
        rfl
      · rw [hothers r hr]
        exact hout r
    obtain ⟨u, hu, huout, hup, hput, htaken⟩ := (h.keeps ht).exists_copyOut
      htout hserves (q := p) (by rw [htp, hx])
    exact ⟨u, ht.trans hu, huout, hup, by rw [hput, hcopies],
      by rw [htaken, hcopies]⟩

/-- One after the other. -/
theorem Inv.exists_drained {d : Nat} (h : Inv s) (hout : s.Outside)
    (hp : (s.proc p).Serves)
    (hd : s.mem.copies.taken.length + d = s.mem.copies.put.length) : ∃ t,
    ((printQueue OwnSteps).startingAt s).Reachable t ∧
      (t.proc p).Serves ∧ t.mem.copies.put = s.mem.copies.put ∧
      t.mem.copies.taken.length = s.mem.copies.put.length := by
  induction d generalizing s with
  | zero => exact ⟨s, .refl _ _, hp, rfl, hd⟩
  | succ d ih =>
      obtain ⟨t, ht, htout, htp, hput, htaken⟩ :=
        h.exists_taken hout hp (by omega)
      obtain ⟨u, hu, hup, hput', htaken'⟩ := ih (h.keeps ht) htout htp
        (by rw [hput]; omega)
      exact ⟨u, ht.trans hu, hup, hput'.trans hput, by rw [htaken', hput]⟩

/-- **Every job can still be printed**: in every state of every run in which
no wait was interrupted and nobody killed, as long as one printer goes on,
the processes can by their own steps get to a state in which all jobs that
were copied in so far are copied out, in the order in which they came. -/
theorem every_job_can_be_taken
    (h : (printQueue (Ordinary (P := P))).Reachable s)
    (hp : (s.proc p).Serves) : ∃ t,
    ((printQueue OwnSteps).startingAt s).Reachable t ∧ (t.proc p).Serves ∧
      s.mem.copies.put <+: t.mem.copies.taken := by
  have hs := inv_of_reachable (fun _ _ ha => ha) h
  obtain ⟨t, ht, htout, htp⟩ := hs.exists_outside hp
  have hinv := hs.keeps ht
  obtain ⟨u, hu, hup, hput, htaken⟩ := hinv.exists_drained htout htp
    (Nat.add_sub_cancel' hinv.bounded.inOrder.length_le)
  refine ⟨u, ht.trans hu, hup, (hs.copies_mono ht).trans ?_⟩
  have hall := (hinv.keeps hu).bounded.inOrder.eq_of_length
    (by rw [htaken, hput])
  rw [hall, hput]

end Drains

/-! ## A user and a printer -/

/-- A printer that no user comes to. -/
def onePrinter : State Unit where
  mem := ⟨setupPrinterQueue, ⟨[], []⟩⟩
  proc _ := ⟨.printerTest, Bytes.ofList printerBufferSize [], true⟩

/-- It is stuck, with an empty queue. -/
theorem stuck_cases_one_printer : ∃ s : State Unit,
    (printQueue Ordinary).Reachable s ∧ s.Stuck ∧
      (s.proc ()).place.ended = false ∧
      s.mem.copies.put = s.mem.copies.taken := by
  obtain ⟨s, hs, hp⟩ := System.ReachableIf.exists_of_runLabels
    (S := printQueue (Ordinary (P := Unit))) (C := fun _ _ => True)
    (stepIf (fun _ e => e.2.Ordinary) State.step)
    (fun _ _ _ => stepIf_eq_some.mp) [((), .run id)]
    (p := fun s => decide ((s.proc ()).place = .waitFull) &&
      decide (s.mem.queue.full = 0))
    (s := onePrinter) (.init ⟨rfl, fun _ => ⟨rfl, .inr rfl⟩⟩) rfl
  simp only [Bool.and_eq_true, decide_eq_true_eq] at hp
  obtain ⟨hplace, hfull⟩ := hp
  have hstuck : s.Stuck := by
    rintro ⟨⟩ rand
    simp only [Process.run, hplace, hfull]
    rfl
  refine ⟨s, hs, hstuck, by rw [hplace]; rfl, ?_⟩
  rcases stuck_cases hs hstuck with hall | ⟨hwait, -⟩ | ⟨-, hput⟩
  · exact absurd (hall ()) (by rw [hplace]; decide)
  · exact absurd (hwait ()) (by rw [hplace]; decide)
  · exact hput

/-- A user has copied a job in, and the printer has not yet run. -/
theorem every_job_can_be_taken_one_job : ∃ s t : State Bool,
    (printQueue Ordinary).Reachable s ∧ s.mem.copies.put.length = 1 ∧
      ((printQueue OwnSteps).startingAt s).Reachable t ∧
      s.mem.copies.put <+: t.mem.copies.taken := by
  obtain ⟨s, hs, hp⟩ := System.ReachableIf.exists_of_runLabels
    (S := printQueue Ordinary) (C := fun _ _ => True)
    (stepIf (fun _ e => e.2.Ordinary) State.step)
    (fun _ _ _ => stepIf_eq_some.mp)
    (List.replicate 5 (true, .run fun i => i))
    (p := fun s => decide (s.mem.copies.put.length = 1) &&
      ((s.proc false).place.prints && (s.proc false).keepRunning))
    (s := userAndPrinter) (.init ⟨rfl, by decide⟩) (by decide +kernel)
  simp only [Bool.and_eq_true, decide_eq_true_eq] at hp
  obtain ⟨hput, hserves⟩ := hp
  obtain ⟨t, ht, -, htaken⟩ := every_job_can_be_taken hs hserves
  exact ⟨s, t, hs, hput, ht, htaken⟩

end Sysops.Cw08
