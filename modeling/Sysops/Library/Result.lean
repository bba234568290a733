import Mathlib.Logic.Basic

/-!
# Results of programs that may end in a fault

What a sequence of calls did, read off from how it ended.
-/

namespace Sysops

@[simp] theorem ok_bind {ε α β : Type} (a : α) (f : α → Except ε β) :
    (Except.ok a >>= f) = f a := rfl

@[simp] theorem error_bind {ε α β : Type} (e : ε) (f : α → Except ε β) :
    (Except.error e >>= f) = .error e := rfl

@[simp] theorem pure_eq_ok {ε α : Type} (a : α) :
    (pure a : Except ε α) = .ok a := rfl

theorem bind_eq_ok {ε α β : Type} {x : Except ε α} {f : α → Except ε β}
    {b : β} : (x >>= f) = .ok b ↔ ∃ a, x = .ok a ∧ f a = .ok b := by
  cases x <;> simp

theorem bind_ne_error {ε α β : Type} {x : Except ε α} {f : α → Except ε β}
    {e : ε} (hx : x ≠ .error e) (hf : ∀ a, x = .ok a → f a ≠ .error e) :
    (x >>= f) ≠ .error e := by
  cases x with
  | error e' => exact fun h => hx (congrArg Except.error (Except.error.inj h))
  | ok a => exact hf a rfl

/-- A loop that no turn can end with the error. -/
theorem foldlM_ne_error {ε α β : Type} {f : β → α → Except ε β} {e : ε}
    (hf : ∀ b a, f b a ≠ .error e) (l : List α) (b : β) :
    l.foldlM f b ≠ .error e := by
  induction l generalizing b with
  | nil => simp
  | cons a l ih =>
      rw [List.foldlM_cons]
      exact bind_ne_error (hf b a) fun b' _ => ih b'

/-- Loops whose turns all succeed. -/
theorem foldlM_eq_ok {ε α β : Type} {f : β → α → Except ε β} {g : β → α → β}
    {l : List α} (h : ∀ a ∈ l, ∀ b, f b a = .ok (g b a)) (b : β) :
    l.foldlM f b = .ok (l.foldl g b) := by
  induction l generalizing b with
  | nil => rfl
  | cons a l ih =>
      rw [List.forall_mem_cons] at h
      rw [List.foldlM_cons, h.1, ok_bind, ih h.2, List.foldl_cons]

/-- A loop that succeeds has come through each of its turns. -/
theorem exists_turn_of_foldlM {ε α β : Type} {f : β → α → Except ε β}
    {l : List α} {b b' : β} (h : l.foldlM f b = .ok b') {a : α} (ha : a ∈ l) :
    ∃ c c', f c a = .ok c' := by
  induction l generalizing b with
  | nil => cases ha
  | cons x l ih =>
      rw [List.foldlM_cons] at h
      obtain ⟨c, hturn, hrest⟩ := bind_eq_ok.mp h
      rcases List.mem_cons.mp ha with rfl | ha
      · exact ⟨b, c, hturn⟩
      · exact ih hrest ha

theorem mapM_eq_ok {ε α β : Type} {f : α → Except ε β} {g : α → β}
    {l : List α} (h : ∀ a ∈ l, f a = .ok (g a)) :
    l.mapM f = .ok (l.map g) := by
  induction l with
  | nil => rfl
  | cons a l ih =>
      rw [List.forall_mem_cons] at h
      rw [List.mapM_cons, h.1, ih h.2]
      rfl

end Sysops
