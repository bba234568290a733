import Mathlib.Tactic.TypeStar

/-!
# Runs of labelled transition systems

A `System` is an initial predicate and a labelled step relation; whatever
is nondeterministic sits in the label. Three things are developed over it
and nothing else: the invariant rule for states reached by steps that all
meet a condition, the exactness rule for runs (a state property that each
single step keeps exactly when it meets the condition), and history
variables, which record the past of a run beside the state and leave the
runs themselves as they are.
-/

namespace Sysops

variable {σ ε η : Type*}

/-- A labelled transition system. -/
structure System (σ ε : Type*) where
  init : σ → Prop
  step : σ → ε → σ → Prop

namespace System

/-! ## Reachable states -/

/-- States reached from an initial one by steps that all meet `C`, a
condition on the state before the step and its label. -/
inductive ReachableIf (S : System σ ε) (C : σ → ε → Prop) : σ → Prop where
  | init {s} : S.init s → ReachableIf S C s
  | step {s e t} : ReachableIf S C s → C s e → S.step s e t →
      ReachableIf S C t

/-- States reached by any steps at all. -/
abbrev Reachable (S : System σ ε) : σ → Prop :=
  S.ReachableIf fun _ _ => True

variable {S : System σ ε} {C D : σ → ε → Prop}

/-- The invariant rule. -/
theorem ReachableIf.invariant {I : σ → Prop} (h0 : ∀ s, S.init s → I s)
    (hstep : ∀ s e t, I s → C s e → S.step s e t → I t) {s : σ}
    (h : S.ReachableIf C s) : I s := by
  induction h with
  | init hs => exact h0 _ hs
  | step _ hc hst ih => exact hstep _ _ _ ih hc hst

theorem ReachableIf.mono (hCD : ∀ s e, C s e → D s e) {s : σ}
    (h : S.ReachableIf C s) : S.ReachableIf D s := by
  induction h with
  | init hs => exact .init hs
  | step _ hc hst ih => exact .step ih (hCD _ _ hc) hst

theorem ReachableIf.reachable {s : σ} (h : S.ReachableIf C s) :
    S.Reachable s :=
  h.mono fun _ _ _ => trivial

theorem Reachable.step {s t : σ} {e : ε} (h : S.Reachable s)
    (hst : S.step s e t) : S.Reachable t :=
  ReachableIf.step h trivial hst

/-- A loop whose turns can all be taken. -/
theorem ReachableIf.loop {P : Nat → σ → Prop} {n : Nat}
    (hturn : ∀ i < n, ∀ s, S.ReachableIf C s → P i s →
      ∃ t, S.ReachableIf C t ∧ P (i + 1) t) {s : σ}
    (hs : S.ReachableIf C s) (h0 : P 0 s) :
    ∃ t, S.ReachableIf C t ∧ P n t := by
  induction n with
  | zero => exact ⟨s, hs, h0⟩
  | succ n ih =>
      obtain ⟨t, ht, hn⟩ := ih fun i hi => hturn i (Nat.lt_succ_of_lt hi)
      exact hturn n (Nat.lt_succ_self n) t ht hn

/-- The same system, started in a given state. -/
def startingAt (S : System σ ε) (s : σ) : System σ ε :=
  { S with init := fun t => t = s }

theorem Reachable.refl (S : System σ ε) (s : σ) :
    (S.startingAt s).Reachable s :=
  .init rfl

theorem Reachable.trans {s t u : σ} (h : (S.startingAt s).Reachable t)
    (h' : (S.startingAt t).Reachable u) : (S.startingAt s).Reachable u := by
  induction h' with
  | init hu => exact hu ▸ h
  | step _ _ hst ih => exact ih.step hst

/-- The invariant rule from a given state. -/
theorem Reachable.keeps {I : σ → Prop}
    (hstep : ∀ s e t, I s → S.step s e t → I t) {s t : σ} (hs : I s)
    (h : (S.startingAt s).Reachable t) : I t := by
  induction h with
  | init ht => exact ht ▸ hs
  | step _ _ hst ih => exact hstep _ _ _ ih hst

theorem Reachable.of_startingAt {s t : σ} (h : S.Reachable s)
    (h' : (S.startingAt s).Reachable t) : S.Reachable t := by
  induction h' with
  | init ht => exact ht ▸ h
  | step _ _ hst ih => exact ih.step hst

/-! ## Runs -/

/-- A run from a state: its labels, each with the state it leads to. -/
inductive Run (S : System σ ε) : σ → List (ε × σ) → Prop where
  | nil {s} : Run S s []
  | cons {s e t tr} : S.step s e t → Run S t tr → Run S s ((e, t) :: tr)

/-- Every step of the run meets `C`. -/
def Meets (C : σ → ε → Prop) : σ → List (ε × σ) → Prop
  | _, [] => True
  | s, (e, t) :: tr => C s e ∧ Meets C t tr

/-- An invariant holds all along a run. -/
theorem Run.invariant {J : σ → Prop}
    (hJ : ∀ s e t, J s → S.step s e t → J t) {s : σ} {tr : List (ε × σ)}
    (h : S.Run s tr) (hj : J s) : ∀ x ∈ tr, J x.2 := by
  induction h with
  | nil => simp
  | cons hst _ ih =>
      have ht := hJ _ _ _ hj hst
      exact List.forall_mem_cons.mpr ⟨ht, ih ht⟩

/-- The exactness rule: if, wherever the background invariant `J` and the
property hold, a step keeps the property exactly when it meets `C`, then a
run has the property in all its states exactly when all its steps meet
`C`. -/
theorem Run.forall_iff_meets {J P : σ → Prop}
    (hJ : ∀ s e t, J s → S.step s e t → J t)
    (hP : ∀ s e t, J s → P s → S.step s e t → (P t ↔ C s e)) {s : σ}
    {tr : List (ε × σ)} (h : S.Run s tr) (hj : J s) (hp : P s) :
    (∀ x ∈ tr, P x.2) ↔ Meets C s tr := by
  induction h with
  | nil => simp [Meets]
  | @cons s e t tr hst _ ih =>
      simp only [List.forall_mem_cons, Meets]
      rw [hP s e t hj hp hst]
      constructor
      · rintro ⟨hc, hrest⟩
        exact ⟨hc, (ih (hJ _ _ _ hj hst) ((hP _ _ _ hj hp hst).mpr hc)).mp hrest⟩
      · rintro ⟨hc, hrest⟩
        exact ⟨hc, (ih (hJ _ _ _ hj hst) ((hP _ _ _ hj hp hst).mpr hc)).mpr hrest⟩

/-- Where a run ends. -/
def final : σ → List (ε × σ) → σ
  | s, [] => s
  | _, (_, t) :: tr => final t tr

/-- An invariant holds where a run ends. -/
theorem Run.final_invariant {J : σ → Prop}
    (hJ : ∀ s e t, J s → S.step s e t → J t) {s : σ} {tr : List (ε × σ)}
    (h : S.Run s tr) (hj : J s) : J (final s tr) := by
  induction h with
  | nil => exact hj
  | cons hst _ ih => exact ih (hJ _ _ _ hj hst)

/-- The exactness rule for a property that does not come back once it is
lost: at the end of a run it says that all steps met the condition. -/
theorem Run.final_iff_meets {J P : σ → Prop}
    (hJ : ∀ s e t, J s → S.step s e t → J t)
    (hP : ∀ s e t, J s → S.step s e t → (P t ↔ P s ∧ C s e)) {s : σ}
    {tr : List (ε × σ)} (h : S.Run s tr) (hj : J s) :
    P (final s tr) ↔ P s ∧ Meets C s tr := by
  induction h with
  | nil => simp [Meets, final]
  | @cons s e t tr hst _ ih =>
      simp only [final, Meets]
      rw [ih (hJ s e t hj hst), hP s e t hj hst, and_assoc]

/-! ## History variables -/

/-- The system with a record of its past beside the state. `record` sees
the step and both its states; it cannot stop a step. -/
def withHistory (S : System σ ε) (empty : η)
    (record : η → σ → ε → σ → η) : System (σ × η) ε where
  init p := S.init p.1 ∧ p.2 = empty
  step p e q := S.step p.1 e q.1 ∧ q.2 = record p.2 p.1 e q.1

variable {empty : η} {record : η → σ → ε → σ → η}

/-- Recording the past adds no states. -/
theorem ReachableIf.forget {p : σ × η}
    (h : (S.withHistory empty record).ReachableIf (fun p e => C p.1 e) p) :
    S.ReachableIf C p.1 := by
  induction h with
  | init hp => exact .init hp.1
  | step _ hc hst ih => exact .step ih hc hst.1

/-- Recording the past loses no states. -/
theorem ReachableIf.recorded {s : σ} (h : S.ReachableIf C s) :
    ∃ x, (S.withHistory empty record).ReachableIf (fun p e => C p.1 e)
      (s, x) := by
  induction h with
  | init hs => exact ⟨empty, .init ⟨hs, rfl⟩⟩
  | @step s e t _ hc hst ih =>
      obtain ⟨x, hx⟩ := ih
      exact ⟨record x s e t, .step hx hc ⟨hst, rfl⟩⟩

end System

/-! ## Runs that are computed -/

/-- The state after a list of labels, when each of them is possible. -/
def runLabels (next : σ → ε → Option σ) : σ → List ε → Option σ
  | s, [] => some s
  | s, e :: es => (next s e).bind fun t => runLabels next t es

/-- The steps of a partial function that meet a condition. -/
def stepIf (C : σ → ε → Prop) [∀ s e, Decidable (C s e)]
    (next : σ → ε → Option σ) (s : σ) (e : ε) : Option σ :=
  if C s e then next s e else none

theorem stepIf_eq_some {C : σ → ε → Prop} [∀ s e, Decidable (C s e)]
    {next : σ → ε → Option σ} {s t : σ} {e : ε} :
    stepIf C next s e = some t ↔ C s e ∧ next s e = some t := by
  unfold stepIf
  split
  · rename_i hc
    simp [hc]
  · rename_i hc
    simp [hc]

namespace System

variable {S : System σ ε} {C : σ → ε → Prop} [∀ s e, Decidable (C s e)]
  (next : σ → ε → Option σ)
  (hnext : ∀ s e t, next s e = some t → S.step s e t)

include hnext

/-- A list of labels that can be run through gives a run, and where it
ends. -/
theorem Run.exists_of_runLabels_any (es : List ε) {p : σ → Bool} {s : σ}
    (h : (runLabels (stepIf C next) s es).any p = true) :
    ∃ tr, S.Run s tr ∧ Meets C s tr ∧ tr.map Prod.fst = es ∧
      p (final s tr) = true := by
  induction es generalizing s with
  | nil => exact ⟨[], .nil, trivial, rfl, h⟩
  | cons e es ih =>
      unfold runLabels at h
      cases hs : stepIf C next s e with
      | none =>
          rw [hs] at h
          cases h
      | some t =>
          rw [hs] at h
          obtain ⟨hc, hst⟩ := stepIf_eq_some.mp hs
          obtain ⟨tr, hrun, hmeets, hlabels, hp⟩ := ih h
          refine ⟨(e, t) :: tr, .cons (hnext s e t hst) hrun,
            ⟨hc, hmeets⟩, ?_, hp⟩
          rw [List.map_cons, hlabels]

theorem Run.exists_of_runLabels (es : List ε) {s : σ}
    (h : (runLabels (stepIf C next) s es).isSome) :
    ∃ tr, S.Run s tr ∧ Meets C s tr ∧ tr.map Prod.fst = es := by
  obtain ⟨t, ht⟩ := Option.isSome_iff_exists.mp h
  obtain ⟨tr, hrun, hmeets, hlabels, -⟩ := Run.exists_of_runLabels_any next
    hnext es (p := fun _ => true) (by rw [ht]; rfl)
  exact ⟨tr, hrun, hmeets, hlabels⟩

/-- A state found by running through labels is reachable. -/
theorem ReachableIf.exists_of_runLabels (es : List ε) {p : σ → Bool} {s : σ}
    (hs : S.ReachableIf C s)
    (h : (runLabels (stepIf C next) s es).any p = true) :
    ∃ t, S.ReachableIf C t ∧ p t = true := by
  induction es generalizing s with
  | nil => exact ⟨s, hs, h⟩
  | cons e es ih =>
      unfold runLabels at h
      cases hst : stepIf C next s e with
      | none =>
          rw [hst] at h
          cases h
      | some t =>
          rw [hst] at h
          obtain ⟨hc, hnextst⟩ := stepIf_eq_some.mp hst
          exact ih (.step hs hc (hnext s e t hnextst)) h

end System

end Sysops
