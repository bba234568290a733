import Sysops.Cw08.Alone

/-!
# Signals that end a `sem_wait`

Neither program looks at the result of `sem_wait`. While no wait is
interrupted the queue is safe; as soon as one process may be interrupted
while it blocks, a state that is not safe can be reached, whatever the
other processes do.
-/

namespace Sysops.Cw08

open Processes

section Safe

variable {P : Type}

/-- What must hold of the queue in every state. -/
structure Safe (s : State P) : Prop where
  /-- No two processes are in their critical sections. -/
  exclusive : ∀ p q, (s.proc p).place.inside = true →
    (s.proc q).place.inside = true → p = q
  /-- A printer about to copy a job out has one. -/
  hasJob : ∀ p, (s.proc p).place = .copyOut →
    s.mem.copies.taken.length < s.mem.copies.put.length
  /-- A user about to copy a job in does not write over one that was not
  taken. -/
  hasRoom : ∀ p, (s.proc p).place = .copyIn →
    s.mem.copies.put.length < s.mem.copies.taken.length + maxJobs
  values : s.mem.queue.empty + s.mem.queue.full ≤ maxJobs

/-- The processes `p` with `A p` may be interrupted while they block. -/
def mayInterrupt (A : P → Prop) (p : P) : Action → Prop
  | .run _ | .signal => True
  | .interrupt => A p
  | .kill => False

variable [Fintype P] [DecidableEq P]

theorem Inv.safe {s : State P} (h : Inv s) : Safe s := by
  constructor
  · intro p q hp hq
    have hmutex := h.mutex
    have hone : total (fun x : Process => x.place.inside.toNat) s.proc ≤ 1 := by
      change 1 = _ + total _ _ at hmutex
      omega
    refine eq_of_total_le_one hone ?_ ?_
    · rw [hp]
      decide
    · rw [hq]
      decide
  · intro p hp
    have hone := s.le_count (c := Place.hasItem) (p := p) (by rw [hp]; rfl)
    have hitems := h.items
    omega
  · intro p hp
    have hone := s.le_count (c := Place.hasRoom) (p := p) (by rw [hp]; rfl)
    have hroom := h.room
    omega
  · have hitems := h.items
    have hroom := h.room
    omega

omit [Fintype P]

variable {A : P → Prop} {s₀ : State P} {p : P}

/-- A process runs alone, is interrupted, and runs on alone. -/
theorem reachable_of_interrupted (hp : A p) {rand : Nat → Nat} {a b : Nat}
    {m m' m'' : Memory} {x x' x'' : Process}
    (hbefore : Process.runs rand a (s₀.mem, s₀.proc p) = some (m, x))
    (hinterrupt : Process.interrupt m x = some (m', x'))
    (hafter : Process.runs rand b (m', x') = some (m'', x'')) :
    ((printQueue (mayInterrupt A)).startingAt s₀).Reachable
      ⟨m'', Function.update s₀.proc p x''⟩ := by
  have hfirst := reachable_of_runs (mayInterrupt A)
    (fun _ => trivial) hbefore
  have hstep : (printQueue (mayInterrupt A)).step
      ⟨m, Function.update s₀.proc p x⟩ (p, .interrupt)
      ⟨m', Function.update s₀.proc p x'⟩ := by
    refine ⟨hp, act_eq_some.mpr ⟨m', x', ?_, ?_⟩⟩
    · show Process.interrupt m (Function.update s₀.proc p x p) = _
      rw [Function.update_self, hinterrupt]
    · rw [Function.update_idem]
  have hlast := reachable_of_runs (mayInterrupt A) (p := p)
    (s := ⟨m', Function.update s₀.proc p x'⟩) (fun _ => trivial)
    (by simpa only [Function.update_self] using hafter)
  rw [Function.update_idem] at hlast
  exact (hfirst.step hstep).trans hlast

/-- A printer that is interrupted takes a job from the empty queue. -/
theorem unsafe_of_printer (hinit : Initial s₀) (hp : A p)
    (hprinter : (s₀.proc p).place = .printerTest) :
    ∃ s, ((printQueue (mayInterrupt A)).startingAt s₀).Reachable s ∧
      ¬ Safe s := by
  obtain ⟨hmem, hproc⟩ := hinit
  have hkeep := (hproc p).1
  have hbefore : Process.runs id 1 (s₀.mem, s₀.proc p) =
      some (s₀.mem, (s₀.proc p).goto .waitFull) := by
    simp [Process.runs, Process.run, hprinter, hkeep]
  have hinterrupt : Process.interrupt s₀.mem ((s₀.proc p).goto .waitFull) =
      some (s₀.mem, (s₀.proc p).signal.goto .printerWaitMutex) := by
    simp [Process.interrupt, Process.goto, Process.signal, hmem,
      setupPrinterQueue]
  obtain ⟨m, hafter, hcopies⟩ : ∃ m, Process.runs id 1 (s₀.mem,
      (s₀.proc p).signal.goto .printerWaitMutex) =
        some (m, (s₀.proc p).signal.goto .copyOut) ∧
      m.copies = ⟨[], []⟩ := by
    simp [Process.runs, Process.run, Process.goto, hmem, setupPrinterQueue,
      semWait]
  refine ⟨_, reachable_of_interrupted hp hbefore hinterrupt hafter, ?_⟩
  intro hsafe
  have hjob := hsafe.hasJob p (by simp [Process.goto])
  rw [hcopies] at hjob
  exact absurd hjob (by decide)

/-- A user that fills the queue and is interrupted then writes over a job
that was not taken. -/
theorem unsafe_of_user (hinit : Initial s₀) (hp : A p)
    (huser : (s₀.proc p).place = .userTest) :
    ∃ s, ((printQueue (mayInterrupt A)).startingAt s₀).Reachable s ∧
      ¬ Safe s := by
  obtain ⟨hmem, hproc⟩ := hinit
  obtain ⟨m, x, hrounds, hx, hk, hmutex, hempty, hput, htaken⟩ :=
    Process.runs_rounds id (m := s₀.mem) (e := maxJobs) huser (hproc p).1
      (by rw [hmem]; rfl) (by rw [hmem]; rfl)
  obtain ⟨y, hbefore, hy⟩ : ∃ y,
      Process.runs id (8 * maxJobs + 2) (s₀.mem, s₀.proc p) = some (m, y) ∧
      y.place = .waitEmpty := by
    rw [Process.runs_add, hrounds]
    simp [Process.runs, Process.run, Process.goto, hx, hk]
  have hinterrupt : Process.interrupt m y =
      some (m, y.signal.goto .userWaitMutex) := by
    simp [Process.interrupt, hy, hempty]
  obtain ⟨m', hafter, hcopies⟩ : ∃ m', Process.runs id 1 (m,
      y.signal.goto .userWaitMutex) =
        some (m', y.signal.goto .copyIn) ∧ m'.copies = m.copies := by
    simp [Process.runs, Process.run, Process.goto, hmutex, semWait]
  refine ⟨_, reachable_of_interrupted hp hbefore hinterrupt hafter, ?_⟩
  intro hsafe
  have hroom := hsafe.hasRoom p (by simp [Process.goto])
  rw [hcopies, hput, htaken, hmem] at hroom
  exact absurd hroom (by decide)

variable [Fintype P]

/-- **The queue is safe in every run exactly if no process can be
interrupted while it blocks in `sem_wait`.** -/
theorem safe_iff_never_interrupted (hinit : Initial s₀) :
    (∀ s, ((printQueue (mayInterrupt A)).startingAt s₀).Reachable s →
      Safe s) ↔ ∀ p, ¬ A p := by
  constructor
  · intro hsafe p hp
    rcases (hinit.2 p).2 with huser | hprinter
    · obtain ⟨s, hs, hunsafe⟩ := unsafe_of_user hinit hp huser
      exact hunsafe (hsafe s hs)
    · obtain ⟨s, hs, hunsafe⟩ := unsafe_of_printer hinit hp hprinter
      exact hunsafe (hsafe s hs)
  · intro hnever s hs
    have hmay : ∀ p a, mayInterrupt A p a → a.Ordinary := by
      intro p a ha
      cases a with
      | run rand => trivial
      | signal => trivial
      | interrupt => exact absurd ha (hnever p)
      | kill => exact ha.elim
    have hreach : (printQueue (mayInterrupt A)).Reachable s :=
      System.Reachable.of_startingAt (.init hinit) hs
    exact (inv_of_reachable hmay hreach).safe

end Safe

/-- Nobody is interrupted. -/
theorem safe_without_interrupts : Initial userAndPrinter ∧
    ∀ s, ((printQueue (mayInterrupt fun _ => False)).startingAt
      userAndPrinter).Reachable s → Safe s := by
  have hinit : Initial userAndPrinter := ⟨rfl, by decide⟩
  exact ⟨hinit, (safe_iff_never_interrupted hinit).mpr fun _ h => h⟩

/-- A printer, interrupted in its first wait, takes a job from the empty
queue. -/
theorem job_from_empty_queue : ∃ s : State Bool,
    (printQueue (mayInterrupt fun _ => True)).Reachable s ∧ ¬ Safe s := by
  have hinit : Initial userAndPrinter := ⟨rfl, by decide⟩
  obtain ⟨s, hs, hunsafe⟩ := unsafe_of_printer
    (A := fun _ => True) (p := false) hinit trivial rfl
  exact ⟨s, .of_startingAt (.init hinit) hs, hunsafe⟩

end Sysops.Cw08
