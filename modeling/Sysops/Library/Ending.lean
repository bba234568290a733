import Mathlib.Algebra.GroupWithZero.Nat
import Sysops.Library.Runs

/-!
# Runs that come to an end

A rank that falls at every step bounds the length of the runs. So each run
can be taken as far as it goes, and it is enough to know the states in which
nothing can go on.
-/

namespace Sysops.System

variable {σ ε : Type*} {S : System σ ε} {C : σ → ε → Prop} {J : σ → Prop}
  {rank : σ → Nat} {s : σ} {tr : List (ε × σ)}

theorem Run.reachable_final (h : S.Run s tr) (hs : S.Reachable s) :
    S.Reachable (final s tr) :=
  h.final_invariant (fun _ _ _ ht hst => Reachable.step ht hst) hs

/-- No step that meets `C` can be taken. -/
def Halted (S : System σ ε) (C : σ → ε → Prop) (s : σ) : Prop :=
  ∀ e t, C s e → ¬ S.step s e t

/-- Where the steps are those of a partial function, it gives none. -/
theorem Halted.eq_none (h : S.Halted C s) {next : σ → ε → Option σ} {e : ε}
    (hnext : ∀ t, next s e = some t → S.step s e t) (he : C s e) :
    next s e = none := by
  cases hst : next s e with
  | none => rfl
  | some t => exact absurd (hnext t hst) (h e t he)

/-- Where `J` holds, it goes on to hold, and each step that meets `C` lowers
the rank. -/
structure Falls (S : System σ ε) (C : σ → ε → Prop) (J : σ → Prop)
    (rank : σ → Nat) : Prop where
  keeps : ∀ s e t, J s → C s e → S.step s e t → J t
  lowers : ∀ s e t, J s → C s e → S.step s e t → rank t < rank s

/-- The rank falls at fewer steps as well. -/
theorem Falls.mono {D : σ → ε → Prop} (hS : S.Falls C J rank)
    (hCD : ∀ s e, D s e → C s e) : S.Falls D J rank :=
  ⟨fun s e t hj hd => hS.keeps s e t hj (hCD s e hd),
    fun s e t hj hd => hS.lowers s e t hj (hCD s e hd)⟩

/-- The invariant of the rank holds where such a run ends. -/
theorem Falls.final (hS : S.Falls C J rank) (h : S.Run s tr)
    (hc : Meets C s tr) (hj : J s) : J (final s tr) := by
  induction h with
  | nil => exact hj
  | cons hst _ ih => exact ih hc.2 (hS.keeps _ _ _ hj hc.1 hst)

/-- Each step uses up some of the rank. -/
theorem Falls.length_add_le (hS : S.Falls C J rank) (h : S.Run s tr)
    (hc : Meets C s tr) (hj : J s) :
    tr.length + rank (System.final s tr) ≤ rank s := by
  induction h with
  | nil => exact Nat.le_of_eq (Nat.zero_add _)
  | @cons s e t tr hst _ ih =>
      have hlower := hS.lowers s e t hj hc.1 hst
      have hrest := ih hc.2 (hS.keeps s e t hj hc.1 hst)
      rw [List.length_cons]
      show tr.length + 1 + rank (System.final t tr) ≤ rank s
      omega

theorem Meets.all (s : σ) (tr : List (ε × σ)) :
    Meets (fun _ _ => True) s tr := by
  induction tr generalizing s with
  | nil => trivial
  | cons x tr ih => exact ⟨trivial, ih x.2⟩

/-- There is a run as far as it goes. -/
theorem Falls.exists_halted (hS : S.Falls C J rank) (hj : J s) :
    ∃ tr, S.Run s tr ∧ Meets C s tr ∧ S.Halted C (System.final s tr) := by
  induction hn : rank s using Nat.strongRecOn generalizing s with
  | ind n ih =>
      by_cases hhalted : S.Halted C s
      · exact ⟨[], .nil, trivial, hhalted⟩
      · simp only [Halted, Classical.not_forall, Classical.not_not] at hhalted
        obtain ⟨e, t, hc, hst⟩ := hhalted
        have hlower := hS.lowers s e t hj hc hst
        obtain ⟨tr, hrun, hmeets, hlast⟩ :=
          ih (rank t) (hn ▸ hlower) (hS.keeps s e t hj hc hst) rfl
        exact ⟨(e, t) :: tr, .cons hst hrun, ⟨hc, hmeets⟩, hlast⟩

/-! ## A rank that is a sum

Where the parts of a state are in a list, a step of one of them moves the sum
by what it moves its own weight. -/

theorem sum_map_set {α : Type*} {l : List α} {i : Nat} {a : α}
    (h : l[i]? = some a) (w : α → Nat) (b : α) :
    ((l.set i b).map w).sum + w a = (l.map w).sum + w b := by
  induction l generalizing i with
  | nil => simp at h
  | cons x l ih =>
      cases i with
      | zero =>
          cases h
          simp only [List.set_cons_zero, List.map_cons, List.sum_cons]
          omega
      | succ i =>
          have hrest := ih h
          simp only [List.set_cons_succ, List.map_cons, List.sum_cons]
          omega

theorem sum_map_le {α : Type*} {w : α → Nat} {k : Nat} (hw : ∀ a, w a ≤ k)
    (l : List α) : (l.map w).sum ≤ k * l.length := by
  induction l with
  | nil => exact Nat.zero_le _
  | cons x l ih =>
      have hx := hw x
      rw [List.map_cons, List.sum_cons, List.length_cons, Nat.mul_succ]
      omega

/-- As many weights of one as elements: each element has one. -/
theorem sum_map_eq_length_iff {α : Type*} {w : α → Nat} (hw : ∀ a, w a ≤ 1)
    (l : List α) : (l.map w).sum = l.length ↔ ∀ a ∈ l, w a = 1 := by
  induction l with
  | nil => simp
  | cons x l ih =>
      have hx := hw x
      have hrest := sum_map_le hw l
      rw [List.map_cons, List.sum_cons, List.length_cons,
        List.forall_mem_cons, ← ih]
      omega

end Sysops.System
