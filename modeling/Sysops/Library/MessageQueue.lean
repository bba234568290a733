import Mathlib.Data.List.Basic

/-!
# POSIX message queues

A bounded queue of messages with priorities, oldest first. A send waits
while the queue is full, a receive while it is empty; a receive takes the
oldest of the messages with the highest priority. So among the messages of
one priority the queue is a FIFO, whatever else is in it.
-/

namespace Sysops

/-- Messages with their priorities, in the order of their arrival. -/
abbrev MessageQueue (α : Type*) := List (Nat × α)

namespace MessageQueue

variable {α : Type*} {q r : MessageQueue α} {x : Nat × α}

/-- `mq_send` on a queue for `capacity` messages. -/
def send (capacity : Nat) (q : MessageQueue α) (x : Nat × α) :
    Option (MessageQueue α) :=
  if q.length < capacity then some (q ++ [x]) else none

/-- `mq_receive`. -/
def receive : MessageQueue α → Option ((Nat × α) × MessageQueue α)
  | [] => none
  | x :: q =>
      match receive q with
      | none => some (x, [])
      | some (y, r) => if x.1 < y.1 then some (y, x :: r) else some (x, q)

theorem send_eq_some {capacity : Nat} :
    send capacity q x = some r ↔ q.length < capacity ∧ r = q ++ [x] := by
  unfold send
  split
  · rename_i hroom
    simp [hroom, eq_comm]
  · rename_i hfull
    simp [hfull]

theorem receive_isSome (hq : q ≠ []) : ∃ x r, receive q = some (x, r) := by
  cases q with
  | nil => exact absurd rfl hq
  | cons x q =>
      unfold receive
      split
      · exact ⟨_, _, rfl⟩
      · split
        · exact ⟨_, _, rfl⟩
        · exact ⟨_, _, rfl⟩

theorem eq_nil_of_receive (h : receive q = none) : q = [] := by
  by_contra hq
  obtain ⟨x, r, hsome⟩ := receive_isSome hq
  rw [hsome] at h
  cases h

/-- **What a receive takes**: what came before it has a lower priority,
what came after it no higher one. -/
theorem receive_eq_some (h : receive q = some (x, r)) :
    ∃ before after, q = before ++ x :: after ∧ r = before ++ after ∧
      (∀ y ∈ before, y.1 < x.1) ∧ ∀ y ∈ after, y.1 ≤ x.1 := by
  induction q generalizing x r with
  | nil => cases h
  | cons z q ih =>
      unfold receive at h
      cases hq : receive q with
      | none =>
          simp only [hq, Option.some.injEq, Prod.mk.injEq] at h
          obtain ⟨rfl, rfl⟩ := h
          obtain rfl := eq_nil_of_receive hq
          exact ⟨[], [], rfl, rfl, by simp, by simp⟩
      | some p =>
          obtain ⟨y, s⟩ := p
          obtain ⟨before, after, rfl, rfl, hbefore, hafter⟩ := ih hq
          simp only [hq] at h
          by_cases hlt : z.1 < y.1
          · simp only [if_pos hlt, Option.some.injEq, Prod.mk.injEq] at h
            obtain ⟨rfl, rfl⟩ := h
            exact ⟨z :: before, after, rfl, rfl,
              List.forall_mem_cons.mpr ⟨hlt, hbefore⟩, hafter⟩
          · simp only [if_neg hlt, Option.some.injEq, Prod.mk.injEq] at h
            obtain ⟨rfl, rfl⟩ := h
            refine ⟨[], _, rfl, rfl, by simp, ?_⟩
            intro w hw
            rw [List.mem_append, List.mem_cons] at hw
            rcases hw with hw | rfl | hw
            · have hwy := hbefore w hw
              omega
            · omega
            · have hwy := hafter w hw
              omega

/-- Nothing is lost and nothing is added. -/
theorem receive_perm (h : receive q = some (x, r)) : q.Perm (x :: r) := by
  obtain ⟨before, after, rfl, rfl, -, -⟩ := receive_eq_some h
  exact List.perm_middle

/-- **The queue is a FIFO for every kind of message that has one
priority.** -/
theorem receive_filter {p : Nat × α → Bool} {k : Nat}
    (hp : ∀ y ∈ q, p y = true → y.1 = k) (h : receive q = some (x, r)) :
    q.filter p = [x].filter p ++ r.filter p := by
  obtain ⟨before, after, rfl, rfl, hbefore, -⟩ := receive_eq_some h
  by_cases hx : p x = true
  · have hnone : before.filter p = [] := by
      rw [List.filter_eq_nil_iff]
      intro y hy hpy
      have hlt := hbefore y hy
      have hyk := hp y (by simp [hy]) hpy
      have hxk := hp x (by simp) hx
      omega
    simp [hnone, hx]
  · simp [hx]

/-- A queue in which all messages have one priority. -/
theorem receive_same {k : Nat} (hk : ∀ y ∈ q, y.1 = k)
    (h : receive q = some (x, r)) : q = x :: r := by
  have hfifo := receive_filter (p := fun _ => true) (fun y hy _ => hk y hy) h
  simpa using hfifo

end MessageQueue

end Sysops
