import Sysops.Cw08.Fifo

/-!
# One process of the print queue running alone

The steps of one process while all others stand still: a user can put a
job in whenever there is room, and whoever is inside its critical section
can leave it.
-/

namespace Sysops.Cw08

open Processes

/-- A number of steps of one process. -/
def Process.runs (rand : Nat → Nat) :
    Nat → Memory × Process → Option (Memory × Process)
  | 0, c => some c
  | n + 1, c => (Process.run rand c.1 c.2).bind (Process.runs rand n)

variable {rand : Nat → Nat}

theorem Process.runs_add (a b : Nat) (c : Memory × Process) :
    Process.runs rand (a + b) c =
      (Process.runs rand a c).bind (Process.runs rand b) := by
  induction a generalizing c with
  | zero => rw [Nat.zero_add]; rfl
  | succ a ih =>
      rw [Nat.succ_add, runs, runs]
      cases Process.run rand c.1 c.2 with
      | none => rfl
      | some d => exact ih d

section System

variable {P : Type} [DecidableEq P] (may : P → Action → Prop)

/-- What a process does alone, the system can do. -/
theorem reachable_of_runs {p : P} (hmay : ∀ rand, may p (.run rand))
    {n : Nat} {s : State P} {m : Memory} {x : Process}
    (h : Process.runs rand n (s.mem, s.proc p) = some (m, x)) :
    ((printQueue may).startingAt s).Reachable
      ⟨m, Function.update s.proc p x⟩ := by
  induction n generalizing s with
  | zero =>
      obtain ⟨rfl, rfl⟩ := Prod.mk.inj (Option.some.inj h)
      rw [Function.update_eq_self]
      exact .refl _ _
  | succ n ih =>
      obtain ⟨⟨m', x'⟩, hrun, hrest⟩ := Option.bind_eq_some_iff.mp h
      have hstep : (printQueue may).step s (p, .run rand)
          ⟨m', Function.update s.proc p x'⟩ :=
        ⟨hmay rand, act_eq_some.mpr ⟨m', x', hrun, rfl⟩⟩
      have hafter := ih (s := ⟨m', Function.update s.proc p x'⟩)
        (by simpa only [Function.update_self] using hrest)
      rw [Function.update_idem] at hafter
      have hfirst := (System.Reachable.refl (printQueue may) s).step hstep
      exact hfirst.trans hafter

end System

/-! ## A user -/

variable (rand)

/-- One round of `user_process`, with room in the queue. -/
theorem Process.runs_round {m : Memory} {x : Process} {e : Nat}
    (hx : x.place = .userTest) (hk : x.keepRunning = true)
    (hmutex : m.queue.mutex = 1) (hempty : m.queue.empty = e + 1) :
    ∃ m' x', Process.runs rand 8 (m, x) = some (m', x') ∧
      x'.place = .userTest ∧ x'.keepRunning = true ∧
      m'.queue.mutex = 1 ∧ m'.queue.empty = e ∧
      m'.copies.put.length = m.copies.put.length + 1 ∧
      m'.copies.taken = m.copies.taken := by
  obtain ⟨place, buf, keepRunning⟩ := x
  subst hx hk
  simp [Process.runs, Process.run, Process.goto, semWait, semPost, hmutex,
    hempty]

/-- Rounds until there is no room any more. -/
theorem Process.runs_rounds {m : Memory} {x : Process} {e : Nat}
    (hx : x.place = .userTest) (hk : x.keepRunning = true)
    (hmutex : m.queue.mutex = 1) (hempty : m.queue.empty = e) :
    ∃ m' x', Process.runs rand (8 * e) (m, x) = some (m', x') ∧
      x'.place = .userTest ∧ x'.keepRunning = true ∧
      m'.queue.mutex = 1 ∧ m'.queue.empty = 0 ∧
      m'.copies.put.length = m.copies.put.length + e ∧
      m'.copies.taken = m.copies.taken := by
  induction e generalizing m x with
  | zero => exact ⟨m, x, rfl, hx, hk, hmutex, hempty, rfl, rfl⟩
  | succ e ih =>
      obtain ⟨m', x', hround, hx', hk', hmutex', hempty', hput, htaken⟩ :=
        runs_round rand hx hk hmutex hempty
      obtain ⟨m'', x'', hrest, hx'', hk'', hmutex'', hempty'', hput',
        htaken'⟩ := ih hx' hk' hmutex' hempty'
      refine ⟨m'', x'', ?_, hx'', hk'', hmutex'', hempty'', by omega,
        htaken'.trans htaken⟩
      rw [show 8 * (e + 1) = 8 + 8 * e by omega, runs_add, hround]
      exact hrest

end Sysops.Cw08
