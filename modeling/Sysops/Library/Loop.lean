import Mathlib.Tactic.TypeStar

/-!
# Loops that may return

`while (cond s) s = body s;` with so much fuel, where the body may return
from the function that the loop stands in. More fuel changes no result, and
a loop whose turns all lower a measure ends. Where the states before the
turns are known, they say how the loop ends, or that it does not.
-/

namespace Sysops

variable {σ ρ : Type*} {cond : σ → Prop} [DecidablePred cond]
  {body : σ → Except ρ σ}

/-- `none` when the fuel does not suffice. -/
def loop (cond : σ → Prop) [DecidablePred cond] (body : σ → Except ρ σ) :
    Nat → σ → Option (Except ρ σ)
  | 0, s => if cond s then none else some (.ok s)
  | fuel + 1, s =>
      if cond s then
        match body s with
        | .error r => some (.error r)
        | .ok t => loop cond body fuel t
      else some (.ok s)

theorem loop_of_not {s : σ} (h : ¬ cond s) (fuel : Nat) :
    loop cond body fuel s = some (.ok s) := by
  cases fuel <;> rw [loop, if_neg h]

theorem loop_of_error {s : σ} {r : ρ} (h : cond s) (hbody : body s = .error r)
    (fuel : Nat) : loop cond body (fuel + 1) s = some (.error r) := by
  rw [loop, if_pos h, hbody]

theorem loop_of_ok {s t : σ} (h : cond s) (hbody : body s = .ok t)
    (fuel : Nat) : loop cond body (fuel + 1) s = loop cond body fuel t := by
  rw [loop, if_pos h, hbody]

/-- More fuel changes no result. -/
theorem loop_add {fuel : Nat} {s : σ} {x : Except ρ σ}
    (h : loop cond body fuel s = some x) (more : Nat) :
    loop cond body (fuel + more) s = some x := by
  induction fuel generalizing s with
  | zero =>
      rw [loop] at h
      split at h
      · cases h
      · rename_i hcond
        rw [loop_of_not hcond, h]
  | succ fuel ih =>
      rw [Nat.add_right_comm]
      by_cases hcond : cond s
      · cases hbody : body s with
        | error r =>
            rw [loop_of_error hcond hbody] at h ⊢
            exact h
        | ok t =>
            rw [loop_of_ok hcond hbody] at h ⊢
            exact ih h
      · rw [loop_of_not hcond] at h ⊢
        exact h

theorem loop_unique {m n : Nat} {s : σ} {x y : Except ρ σ}
    (hx : loop cond body m s = some x) (hy : loop cond body n s = some y) :
    x = y := by
  have hx' := loop_add hx n
  rw [Nat.add_comm, loop_add hy m] at hx'
  exact (Option.some.inj hx').symm

/-- The rule for total correctness: every turn returns as it should, or
keeps the invariant and lowers the measure. -/
theorem loop_total {I : σ → Prop} {Q : Except ρ σ → Prop} (μ : σ → Nat)
    (hturn : ∀ s, I s → cond s →
      (∃ r, body s = .error r ∧ Q (.error r)) ∨
        ∃ t, body s = .ok t ∧ I t ∧ μ t < μ s)
    (hend : ∀ s, I s → ¬ cond s → Q (.ok s)) {s : σ} (hs : I s) :
    ∃ fuel x, loop cond body fuel s = some x ∧ Q x := by
  induction hn : μ s using Nat.strongRecOn generalizing s with
  | ind n ih =>
      by_cases hcond : cond s
      · -- the turn returns, or the rest of the loop has a smaller measure
        rcases hturn s hs hcond with ⟨r, hr, hq⟩ | ⟨t, ht, hi, hlt⟩
        · exact ⟨1, .error r, loop_of_error hcond hr 0, hq⟩
        · obtain ⟨fuel, x, hx, hq⟩ := ih (μ t) (hn ▸ hlt) hi rfl
          exact ⟨fuel + 1, x, by rw [loop_of_ok hcond ht, hx], hq⟩
      · exact ⟨0, .ok s, loop_of_not hcond 0, hend s hs hcond⟩

/-! ## Loops along a walk -/

/-- A loop whose states before the turns are known: `At j` holds of the one
before turn `j`, the loop comes to the turns that are reached, and returns
from the first of them that does not succeed. -/
structure LoopWalk (cond : σ → Prop) (body : σ → Except ρ σ)
    (At : Nat → σ → Prop) (reached succeeds : Nat → Prop) (R : ρ → Prop) :
    Prop where
  cond_iff : ∀ j s, At j s → (cond s ↔ reached j)
  turn : ∀ j s, At j s → reached j → succeeds j →
    ∃ t, body s = .ok t ∧ At (j + 1) t
  fail : ∀ j s, At j s → reached j → ¬ succeeds j →
    ∃ r, body s = .error r ∧ R r

namespace LoopWalk

variable {At : Nat → σ → Prop} {reached succeeds : Nat → Prop}
  {R : ρ → Prop} {s : σ} {n : Nat}

/-- The first `n` turns. -/
theorem along (h : LoopWalk cond body At reached succeeds R) (hs : At 0 s)
    (hgo : ∀ j < n, reached j ∧ succeeds j) :
    ∃ t, At n t ∧
      ∀ fuel, loop cond body (n + fuel) s = loop cond body fuel t := by
  induction n with
  | zero => exact ⟨s, hs, fun fuel => by rw [Nat.zero_add]⟩
  | succ n ih =>
      obtain ⟨u, hu, hloop⟩ := ih fun j hj => hgo j (Nat.lt_succ_of_lt hj)
      obtain ⟨hreached, hsucceeds⟩ := hgo n (Nat.lt_succ_self n)
      obtain ⟨t, ht, hat⟩ := h.turn n u hu hreached hsucceeds
      refine ⟨t, hat, fun fuel => ?_⟩
      rw [Nat.add_assoc, Nat.add_comm 1, hloop,
        loop_of_ok ((h.cond_iff n u hu).mpr hreached) ht]

theorem ends (h : LoopWalk cond body At reached succeeds R) (hs : At 0 s)
    (hgo : ∀ j < n, reached j ∧ succeeds j) (hend : ¬ reached n) :
    ∃ t, At n t ∧ loop cond body n s = some (.ok t) := by
  obtain ⟨t, ht, hloop⟩ := h.along hs hgo
  refine ⟨t, ht, ?_⟩
  rw [← Nat.add_zero n, hloop,
    loop_of_not (mt (h.cond_iff n t ht).mp hend)]

theorem fails (h : LoopWalk cond body At reached succeeds R) (hs : At 0 s)
    (hgo : ∀ j < n, reached j ∧ succeeds j) (hlast : reached n)
    (hfails : ¬ succeeds n) :
    ∃ r, R r ∧ loop cond body (n + 1) s = some (.error r) := by
  obtain ⟨t, ht, hloop⟩ := h.along hs hgo
  obtain ⟨r, hr, hreturned⟩ := h.fail n t ht hlast hfails
  refine ⟨r, hreturned, ?_⟩
  rw [hloop, loop_of_error ((h.cond_iff n t ht).mpr hlast) hr]

theorem never (h : LoopWalk cond body At reached succeeds R) (hs : At 0 s)
    (hgo : ∀ j, reached j ∧ succeeds j) (fuel : Nat) :
    loop cond body fuel s = none := by
  obtain ⟨t, ht, hloop⟩ := h.along hs fun j (_ : j < fuel) => hgo j
  rw [← Nat.add_zero fuel, hloop, loop,
    if_pos ((h.cond_iff fuel t ht).mpr (hgo fuel).1)]

end LoopWalk

end Sysops
