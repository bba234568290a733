import Mathlib.Data.List.TakeWhile

/-!
# The part of a record between two marks

A record is a list that grows at its end. Its window is what lies behind
the first entry of one kind and before the first entry of another kind
after that; it stays open while there is no such entry. What one more entry
does to the window is said once for each case.
-/

namespace Sysops

namespace Window

variable {α : Type*} (start stop : α → Bool) {l : List α}

/-- What follows the first entry that starts the window. -/
def since (l : List α) : List α :=
  (l.dropWhile fun x => !start x).tail

/-- Some entry has ended the window. -/
def closed (l : List α) : Bool :=
  (since start l).any stop

def window (l : List α) : List α :=
  (since start l).takeWhile fun x => !stop x

variable {start stop}

theorem dropWhile_eq_nil (h : l.any start = false) :
    (l.dropWhile fun x => !start x) = [] := by
  rw [List.dropWhile_eq_nil_iff]
  intro x hx
  rw [List.any_eq_false] at h
  simpa using h x hx

theorem dropWhile_ne_nil (h : l.any start = true) :
    (l.dropWhile fun x => !start x) ≠ [] := by
  obtain ⟨x, hx, hstart⟩ := List.any_eq_true.mp h
  intro hnil
  have hnone := List.dropWhile_eq_nil_iff.mp hnil x hx
  rw [hstart] at hnone
  cases hnone

theorem since_eq_nil (h : l.any start = false) : since start l = [] := by
  rw [since, dropWhile_eq_nil h]
  rfl

theorem closed_eq_false (h : l.any start = false) :
    closed start stop l = false := by
  rw [closed, since_eq_nil h]
  rfl

/-- Before the window starts, nothing is put into it, also not the entry
that starts it. -/
theorem since_append_of_not (h : l.any start = false) (x : α) :
    since start (l ++ [x]) = [] := by
  rw [since, List.dropWhile_append, dropWhile_eq_nil h]
  cases hx : start x <;> simp [hx]

theorem since_append (h : l.any start = true) (x : α) :
    since start (l ++ [x]) = since start l ++ [x] := by
  have hne := dropWhile_ne_nil h
  rw [since, since, List.dropWhile_append, if_neg (by simpa using hne),
    List.tail_append_of_ne_nil hne]

theorem closed_append (x : α) : closed start stop (l ++ [x]) =
    (closed start stop l || (l.any start && stop x)) := by
  cases h : l.any start with
  | false =>
      rw [closed, since_append_of_not h, closed_eq_false h]
      rfl
  | true =>
      rw [closed, closed, since_append h, List.any_append]
      simp

theorem window_append_of_not (h : l.any start = false) (x : α) :
    window start stop (l ++ [x]) = [] := by
  rw [window, since_append_of_not h]
  rfl

/-- An entry is put into the window while that is open. -/
theorem window_append (h : l.any start = true) (x : α) :
    window start stop (l ++ [x]) = window start stop l ++
      if closed start stop l || stop x then [] else [x] := by
  rw [window, since_append h, window, closed]
  cases hclosed : (since start l).any stop with
  | true =>
      obtain ⟨y, hy, hstop⟩ := List.any_eq_true.mp hclosed
      rw [List.takeWhile_append, if_neg, Bool.true_or, if_pos rfl,
        List.append_nil]
      intro hlen
      have hall := List.takeWhile_prefix (fun x => !stop x) (l := since start l)
      rw [hall.eq_of_length hlen |>.symm] at hy
      have hno := List.mem_takeWhile_imp hy
      rw [hstop] at hno
      cases hno
  | false =>
      have hopen : ∀ y ∈ since start l, (!stop y) = true := by
        intro y hy
        rw [List.any_eq_false] at hclosed
        simpa using hclosed y hy
      rw [List.takeWhile_append_of_pos hopen,
        List.takeWhile_eq_self_iff.mpr hopen]
      cases hx : stop x <;> simp [hx]

/-- The window is one piece of the record. -/
theorem window_isInfix (start stop : α → Bool) (l : List α) :
    window start stop l <:+: l := by
  have hprefix : window start stop l <+: since start l :=
    List.takeWhile_prefix _
  have hsuffix : since start l <:+ l :=
    (List.tail_suffix _).trans (List.dropWhile_suffix _)
  exact hprefix.isInfix.trans hsuffix.isInfix

end Window

end Sysops
