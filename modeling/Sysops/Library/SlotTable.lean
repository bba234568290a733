import Sysops.Library.CString
import Mathlib.Data.Fin.Basic
import Mathlib.Logic.Function.Basic
import Mathlib.Data.List.FinRange

/-!
# A table of slots behind one mutex

The state of a program that keeps a fixed array under a mutex and makes
calls to the world: the slots, whether the mutex is held, and the calls
made so far. A program over it takes and releases the mutex, looks for
the first slot with a property, writes single slots, loops over all of
them, and makes calls. It ends in a `Fault` where it cannot return; taking
the mutex while it is held is one of these.
-/

namespace Sysops

/-! ## Programs that returned

What a program over a state that may end in a fault has done when it did
not: its parts ran one after the other. -/

section Returned

variable {σ ε α β : Type} {s t : σ} {a : α} {b : β}

theorem run_bind_eq_ok {x : StateT σ (Except ε) α}
    {f : α → StateT σ (Except ε) β} :
    (x >>= f).run s = .ok (b, t) ↔
      ∃ a u, x.run s = .ok (a, u) ∧ (f a).run u = .ok (b, t) := by
  rw [StateT.run_bind, bind_eq_ok]
  exact Prod.exists

theorem run_pure_eq_ok {a b : α} :
    (pure a : StateT σ (Except ε) α).run s = .ok (b, t) ↔ a = b ∧ s = t := by
  rw [StateT.run_pure, pure_eq_ok, Except.ok.injEq, Prod.mk.injEq]

theorem run_lift_eq_ok {x : Except ε α} :
    (liftM x : StateT σ (Except ε) α).run s = .ok (a, t) ↔
      x = .ok a ∧ s = t := by
  show (x >>= fun a => pure (a, s)) = .ok (a, t) ↔ _
  rw [bind_eq_ok]
  constructor
  · rintro ⟨_, hx, h⟩
    cases h
    exact ⟨hx, rfl⟩
  · rintro ⟨hx, rfl⟩
    exact ⟨a, hx, rfl⟩

end Returned

/-! ## Tables -/

/-- `n` slots of type `α`, their mutex, and the calls of type `κ`. -/
@[ext] structure SlotTable (n : Nat) (α κ : Type) where
  slots : Fin n → α
  locked : Bool
  calls : List κ

/-- Programs over a table. -/
abbrev SlotM (n : Nat) (α κ : Type) := StateT (SlotTable n α κ) (Except Fault)

namespace SlotM

variable {n : Nat} {α κ β : Type}

/-- Nobody else is going to release the mutex while the caller waits. -/
def lock : SlotM n α κ Unit := do
  let s ← get
  if s.locked then throw .deadlock
  else set { s with locked := true }

def unlock : SlotM n α κ Unit :=
  modify fun s => { s with locked := false }

def slot (i : Fin n) : SlotM n α κ α := do
  return (← get).slots i

def modifySlot (i : Fin n) (f : α → α) : SlotM n α κ Unit :=
  modify fun s =>
    { s with slots := Function.update s.slots i (f (s.slots i)) }

/-- The loop that breaks at the first slot with the property. -/
def findSlot (p : α → Bool) : SlotM n α κ (Option (Fin n)) := do
  let s ← get
  return Fin.find? fun i => p (s.slots i)

def call (k : κ) : SlotM n α κ Unit :=
  modify fun s => { s with calls := s.calls ++ [k] }

/-- The loop over all slots. -/
def forEachSlot (body : Fin n → SlotM n α κ Unit) : SlotM n α κ Unit :=
  forM (List.finRange n) body

/-! ## What each operation does -/

variable (s : SlotTable n α κ)

theorem run_lock : (lock (n := n) (α := α) (κ := κ)).run s =
    if s.locked then .error .deadlock
    else .ok ((), { s with locked := true }) := by
  cases h : s.locked with
  | false => simp [lock, h]
  | true =>
      simp only [lock, StateT.run_bind, StateT.run_get, pure_eq_ok, ok_bind,
        h, if_true]
      rfl

@[simp] theorem run_lock_free (h : s.locked = false) :
    (lock (n := n) (α := α) (κ := κ)).run s =
      .ok ((), { s with locked := true }) := by
  rw [run_lock, h]
  rfl

@[simp] theorem run_lock_held (h : s.locked = true) :
    (lock (n := n) (α := α) (κ := κ)).run s = .error .deadlock := by
  rw [run_lock, h]
  rfl

/-- Taking the mutex returns only where it was free. -/
theorem free_of_lock_ok {s : SlotTable n α κ} {r : Unit × SlotTable n α κ}
    (h : (lock (n := n) (α := α) (κ := κ)).run s = .ok r) :
    s.locked = false := by
  rw [run_lock] at h
  cases hs : s.locked with
  | false => rfl
  | true =>
      rw [hs] at h
      cases h

/-- A program that takes the mutex first returns only where it was
free. -/
theorem free_of_lock_bind_ok {s t : SlotTable n α κ} {b : β}
    {f : Unit → SlotM n α κ β} (h : (lock >>= f).run s = .ok (b, t)) :
    s.locked = false := by
  obtain ⟨_, _, hlock, -⟩ := run_bind_eq_ok.mp h
  exact free_of_lock_ok hlock

@[simp] theorem run_unlock : (unlock (n := n) (α := α) (κ := κ)).run s =
    .ok ((), { s with locked := false }) := rfl

@[simp] theorem run_slot (i : Fin n) :
    (slot (κ := κ) i).run s = .ok (s.slots i, s) := rfl

@[simp] theorem run_modifySlot (i : Fin n) (f : α → α) :
    (modifySlot (κ := κ) i f).run s =
      .ok ((), { s with slots := Function.update s.slots i (f (s.slots i)) }) :=
  rfl

@[simp] theorem run_findSlot (p : α → Bool) :
    (findSlot (n := n) (κ := κ) p).run s =
      .ok (Fin.find? fun i => p (s.slots i), s) := rfl

@[simp] theorem run_call (k : κ) : (call (n := n) (α := α) k).run s =
    .ok ((), { s with calls := s.calls ++ [k] }) := rfl

/-- **A sweep**: if the loop body rewrites its own slot and makes calls
that depend on that slot only, the loop rewrites every slot and makes the
calls in slot order. -/
theorem run_forEachSlot {body : Fin n → SlotM n α κ Unit}
    {f : Fin n → α → α} {g : Fin n → α → List κ}
    (hbody : ∀ i s, (body i).run s = .ok ((),
      { s with slots := Function.update s.slots i (f i (s.slots i)),
               calls := s.calls ++ g i (s.slots i) })) :
    (forEachSlot body).run s = .ok ((),
      { s with slots := fun i => f i (s.slots i),
               calls := s.calls ++
                 (List.finRange n).flatMap fun i => g i (s.slots i) }) := by
  have hlist : ∀ (l : List (Fin n)) (s : SlotTable n α κ), l.Nodup →
      (forM l body).run s = .ok ((),
        { s with slots := fun i => if i ∈ l then f i (s.slots i)
                                   else s.slots i,
                 calls := s.calls ++ l.flatMap fun i => g i (s.slots i) }) := by
    intro l
    induction l with
    | nil =>
        intro s _
        simp only [List.forM_nil, StateT.run_pure, List.not_mem_nil, if_false,
          List.flatMap_nil, List.append_nil]
        rfl
    | cons a l ih =>
        intro s hnd
        obtain ⟨ha, hnd⟩ := List.nodup_cons.mp hnd
        rw [List.forM_cons, StateT.run_bind, hbody]
        refine (ih _ hnd).trans ?_
        -- the rest of the loop does not see the slot just written
        have hcalls : (l.flatMap fun i => g i
            (Function.update s.slots a (f a (s.slots a)) i)) =
            l.flatMap fun i => g i (s.slots i) :=
          List.flatMap_congr fun i hi => by
            have hne : i ≠ a := fun h => ha (h ▸ hi)
            rw [Function.update_of_ne hne]
        have hslots : (fun i => if i ∈ l
              then f i (Function.update s.slots a (f a (s.slots a)) i)
              else Function.update s.slots a (f a (s.slots a)) i) =
            fun i => if i ∈ a :: l then f i (s.slots i) else s.slots i := by
          funext i
          by_cases hi : i = a
          · subst hi
            simp [ha]
          · simp [hi]
        rw [hslots, hcalls, List.flatMap_cons, List.append_assoc]
  have h := hlist (List.finRange n) s (List.nodup_finRange n)
  simp only [List.mem_finRange, if_true] at h
  exact h

/-- The calls of such a loop when only some of the slots make one. -/
theorem mem_sweep {p : Fin n → Bool} {f : Fin n → κ} {k : κ} :
    k ∈ (List.finRange n).flatMap (fun i => if p i then [f i] else []) ↔
      ∃ i, p i = true ∧ k = f i := by
  rw [List.mem_flatMap]
  constructor
  · rintro ⟨i, -, hk⟩
    split at hk
    · exact ⟨i, ‹_›, List.mem_singleton.mp hk⟩
    · exact absurd hk List.not_mem_nil
  · rintro ⟨i, hi, rfl⟩
    exact ⟨i, List.mem_finRange i, by simp [hi]⟩

end SlotM

/-! ## Programs that end on the way

A program that a signal ends leaves behind the calls that it has made. -/

/-- Programs over a table, with the table as it is when they end. -/
abbrev ProcessM (n : Nat) (α κ : Type) :=
  ExceptT Fault (StateM (SlotTable n α κ))

namespace ProcessM

variable {n : Nat} {α κ β : Type}

/-- An operation that does all or nothing. -/
def keep (x : SlotM n α κ β) : ProcessM n α κ β :=
  ExceptT.mk fun s =>
    match x.run s with
    | .ok (b, t) => (.ok b, t)
    | .error e => (.error e, s)

/-- How the program ends, and with which table. -/
def outcome (x : ProcessM n α κ β) (s : SlotTable n α κ) :
    Except Fault β × SlotTable n α κ :=
  StateT.run (ExceptT.run x) s

variable {s t : SlotTable n α κ} {b : β} {γ : Type}

theorem outcome_keep {x : SlotM n α κ β} (h : x.run s = .ok (b, t)) :
    (keep x).outcome s = (.ok b, t) := by
  show (match x.run s with
    | .ok (b, t) => (Except.ok b, t)
    | .error e => (.error e, s)) = _
  rw [h]

@[simp] theorem outcome_pure : (pure b : ProcessM n α κ β).outcome s =
    (.ok b, s) := rfl

@[simp] theorem outcome_throw (e : Fault) :
    (throw e : ProcessM n α κ β).outcome s = (.error e, s) := rfl

theorem outcome_bind_ok {x : ProcessM n α κ β} {f : β → ProcessM n α κ γ}
    (h : x.outcome s = (.ok b, t)) : (x >>= f).outcome s = (f b).outcome t := by
  show ((ExceptT.run x).bind (ExceptT.bindCont f)) s = _
  show (let (a, s') := (ExceptT.run x) s; ExceptT.bindCont f a s') = _
  rw [show ExceptT.run x s = _ from h]
  rfl

theorem outcome_bind_error {x : ProcessM n α κ β} {f : β → ProcessM n α κ γ}
    {e : Fault} (h : x.outcome s = (.error e, t)) :
    (x >>= f).outcome s = (.error e, t) := by
  show (let (a, s') := (ExceptT.run x) s; ExceptT.bindCont f a s') = _
  rw [show ExceptT.run x s = _ from h]
  rfl

end ProcessM

end Sysops
