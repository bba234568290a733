import Mathlib.Data.List.Basic

/-!
# A pipeline: two queues with one worker between them

Requests wait in one queue, the worker takes them one at a time, and its
answers wait in a second queue. Whatever the order of the operations, the
answers are those of the requests in their order.
-/

namespace Sysops

/-- The requests, the one that the worker holds, and the answers. -/
structure Pipeline (α β : Type*) where
  input : List α
  held : Option α
  output : List β

namespace Pipeline

variable {α β : Type*}

def empty (α β : Type*) : Pipeline α β :=
  ⟨[], none, []⟩

def put (p : Pipeline α β) (a : α) : Pipeline α β :=
  { p with input := p.input ++ [a] }

/-- The worker takes the next request. -/
def fetch (p : Pipeline α β) : Option (Pipeline α β) :=
  match p.held, p.input with
  | none, a :: input => some { p with input := input, held := some a }
  | _, _ => none

/-- The worker answers the request that it holds. -/
def emit (f : α → β) (p : Pipeline α β) : Option (Pipeline α β) :=
  match p.held with
  | some a => some { p with held := none, output := p.output ++ [f a] }
  | none => none

def take (p : Pipeline α β) : Option (β × Pipeline α β) :=
  match p.output with
  | b :: output => some (b, { p with output := output })
  | [] => none

/-- The answers to all that is in the pipeline. -/
def contents (f : α → β) (p : Pipeline α β) : List β :=
  p.output ++ (p.held.toList ++ p.input).map f

section Laws

variable {f : α → β} {p q : Pipeline α β} {b : β}

@[simp] theorem contents_empty : (empty α β).contents f = [] := rfl

@[simp] theorem contents_put (p : Pipeline α β) (a : α) :
    (p.put a).contents f = p.contents f ++ [f a] := by
  simp [contents, put]

theorem contents_fetch (h : p.fetch = some q) :
    q.contents f = p.contents f := by
  unfold fetch at h
  split at h
  · rename_i a input hheld hinput
    obtain rfl := Option.some.inj h
    simp [contents, hheld, hinput]
  · cases h

theorem contents_emit (h : p.emit f = some q) :
    q.contents f = p.contents f := by
  unfold emit at h
  split at h
  · rename_i a hheld
    obtain rfl := Option.some.inj h
    simp [contents, hheld]
  · cases h

theorem contents_take (h : p.take = some (b, q)) :
    p.contents f = b :: q.contents f := by
  unfold take at h
  split at h
  · rename_i c output houtput
    obtain ⟨rfl, rfl⟩ := Prod.mk.inj (Option.some.inj h)
    simp [contents, houtput]
  · cases h

/-- A worker that can do nothing has answered everything. -/
theorem contents_of_idle (hemit : p.emit f = none) (hfetch : p.fetch = none) :
    p.contents f = p.output := by
  obtain ⟨input, held, output⟩ := p
  cases held with
  | some a => simp [emit] at hemit
  | none =>
      cases input with
      | nil => simp [contents]
      | cons a input => simp [fetch] at hfetch

end Laws

end Pipeline

end Sysops
