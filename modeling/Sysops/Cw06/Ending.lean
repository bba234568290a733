import Sysops.Library.Ending
import Sysops.Library.Processes
import Sysops.Cw06.Accuracy

/-!
# `cw06/zad1`: the end of `main`

Whatever calls fail and whatever children are killed, `main` does not hang:
a `read` waits only while a process is there that can go on. Where nothing
fails, it prints a result, and how far that is from `π` is known.
-/

namespace Sysops.Cw06.Parent

variable {D : Type}

/-- No call fails and no child is killed. -/
def Unharmed (s : State D) : Event → Prop
  | .pipe ok | .fork ok | .write _ ok => ok = true
  | .ends i => s.child i ≠ .working
  | .readFails => False
  | .checks | .read => True

instance (s : State D) : (e : Event) → Decidable (Unharmed s e)
  | .pipe _ | .fork _ | .write _ _ => inferInstanceAs (Decidable (_ = true))
  | .ends _ => inferInstanceAs (Decidable (_ ≠ _))
  | .readFails => .isFalse id
  | .checks | .read => .isTrue trivial

/-- `main` has ended, and so have all children. -/
structure State.Over (s : State D) : Prop where
  main : s.main.status ≠ none
  children : ∀ i, ¬ (s.child i).Alive

/-! ## The steps that are left -/

def ChildPc.left : ChildPc → Nat
  | .notForked | .working => 2
  | .written => 1
  | .lost | .exited => 0

/-- The calls that `main` has before it, of three for each child. -/
def MainPc.left (n : Nat) : MainPc D → Nat
  | .checks => 3 * n + 2
  | .pipe i => n - i + 2 * n + 1
  | .fork i => n - i + n
  | .read i _ => n - i
  | .printed _ | .failed _ => 0

def State.childrenLeft (n : Nat) (s : State D) : Nat :=
  Processes.total ChildPc.left fun i : Fin n => s.child i

def State.left (args : Args D) (s : State D) : Nat :=
  s.main.left args.nProcesses.toNat +
    s.childrenLeft args.nProcesses.toNat

section Left

variable {args : Args D} {s : State D} {i n : Nat} {c : ChildPc} {sum : D}

theorem childrenLeft_le (n : Nat) (s : State D) :
    s.childrenLeft n ≤ 2 * n := by
  have hle : ∑ i : Fin n, (s.child i).left ≤ ∑ _i : Fin n, 2 := by
    refine Finset.sum_le_sum fun i _ => ?_
    cases s.child i <;> decide
  rw [Finset.sum_const_nat fun _ _ => rfl, Finset.card_univ,
    Fintype.card_fin, Nat.mul_comm] at hle
  exact hle

/-- What the step of a child takes away. -/
theorem childrenLeft_become (hi : i < n) :
    (s.become i c).childrenLeft n + (s.child i).left =
      s.childrenLeft n + c.left := by
  have hupdate : (fun j : Fin n => (s.become i c).child j) =
      Function.update (fun j : Fin n => s.child j) ⟨i, hi⟩ c := by
    funext j
    by_cases hji : j = ⟨i, hi⟩
    · subst hji
      rw [Function.update_self, State.become_self]
    · have hne : j.val ≠ i := fun heq => hji (Fin.ext heq)
      rw [Function.update_of_ne hji, State.become_of_ne s c hne]
  rw [State.childrenLeft, hupdate]
  exact Processes.total_update ChildPc.left (fun j : Fin n => s.child j)
    ⟨i, hi⟩ c

theorem left_goto (s : State D) (pc : MainPc D) :
    (s.goto pc).left args = pc.left args.nProcesses.toNat +
      s.childrenLeft args.nProcesses.toNat := rfl

theorem left_afterPipe (i : Nat) :
    (afterPipe args i).left args.nProcesses.toNat <
      (MainPc.pipe i : MainPc D).left args.nProcesses.toNat := by
  rw [afterPipe]
  split
  · rename_i hmore
    rw [More] at hmore
    simp only [MainPc.left]
    omega
  · simp only [MainPc.left]
    omega

variable [IntCast D]

theorem left_afterFork (hi : i < args.nProcesses.toNat) :
    (afterFork args i).left args.nProcesses.toNat <
      (MainPc.fork i : MainPc D).left args.nProcesses.toNat := by
  rw [afterFork]
  split
  · rename_i hmore
    rw [More] at hmore
    simp only [MainPc.left]
    omega
  · simp only [MainPc.left]
    omega

omit [IntCast D] in
theorem left_afterRead (hi : i < args.nProcesses.toNat) (sum sum' : D) :
    (afterRead args i sum').left args.nProcesses.toNat <
      (MainPc.read i sum).left args.nProcesses.toNat := by
  rw [afterRead]
  split
  · rename_i hmore
    rw [More] at hmore
    simp only [MainPc.left]
    omega
  · simp only [MainPc.left]
    omega

variable [Add D]

/-- A parent that goes on has something before it. -/
theorem Progress.left_pos (hp : Progress args s s.main)
    (hmain : s.main.status = none) :
    0 < s.main.left args.nProcesses.toNat := by
  cases hpc : s.main with
  | checks => exact Nat.succ_pos _
  | pipe i => exact Nat.succ_pos _
  | fork i =>
      rw [hpc] at hp
      have hbound := hp.bound
      simp only [MainPc.left]
      omega
  | read i sum =>
      rw [hpc] at hp
      have hbound := hp.bound
      simp only [MainPc.left]
      omega
  | printed sum | failed failure =>
      rw [hpc] at hmain
      cases hmain

end Left

/-! ## Every step leaves fewer -/

section Steps

variable [Add D] [Sub D] [Mul D] [Div D] [IntCast D] [LE D] [DecidableLE D]
  {ceil : D → Int} {args : Args D} {s t : State D} {e : Event}
  {failure : Failure} {i : Nat}

/-- What holds in every run, with no children but those of the pipes. -/
structure Family (ceil : D → Int) (args : Args D) (s : State D) : Prop where
  books : Books ceil args s
  beyond : ∀ i, args.nProcesses.toNat ≤ i → s.child i = .notForked

omit [LE D] [DecidableLE D] in
theorem Family.lt (hs : Family ceil args s) (hi : s.child i ≠ .notForked) :
    i < args.nProcesses.toNat := by
  by_contra hge
  exact hi (hs.beyond i (Nat.le_of_not_lt hge))

omit [Add D] [Sub D] [Mul D] [Div D] [IntCast D] [LE D] [DecidableLE D] in
theorem beyond_become {c : ChildPc} {n : Nat} (hi : i < n)
    (hs : ∀ j, n ≤ j → s.child j = .notForked) :
    ∀ j, n ≤ j → (s.become i c).child j = .notForked := by
  intro j hj
  have hne : j ≠ i := by omega
  rw [State.become_of_ne s c hne]
  exact hs j hj

theorem Family.step (hs : Family ceil args s)
    (h : s.step ceil args e = some t) : Family ceil args t := by
  refine ⟨hs.books.step h, ?_⟩
  have hprogress := hs.books.progress
  cases step_cases h with
  | checks | pipe | receives | endOfFile | fails => exact hs.beyond
  | fork hmain =>
      rw [hmain] at hprogress
      exact beyond_become hprogress.bound hs.beyond
  | write hchild | lost hchild | exits hchild =>
      refine beyond_become (hs.lt ?_) hs.beyond
      rw [hchild]
      decide

theorem family_of_reachable (h : (family ceil args).Reachable s) :
    Family ceil args s := by
  refine h.invariant (I := Family ceil args) ?_ ?_
  · rintro s rfl
    exact ⟨books_initial, fun _ _ => rfl⟩
  · exact fun s e t hs _ hst => hs.step hst

/-- Only a parent that goes on reports a failure. -/
theorem status_of_fails (he : e ≠ .read)
    (h : s.step ceil args e = some (s.goto (.failed failure))) :
    s.main.status = none := by
  cases e with
  | checks | pipe | fork | readFails =>
      simp only [State.step] at h
      split at h
      · rename_i hmain
        rw [hmain]
        rfl
      · cases h
  | read => exact absurd rfl he
  | write i ok =>
      simp only [State.step] at h
      split at h
      case isFalse => cases h
      case isTrue hchild =>
        have hsame := congrArg (fun t => t.child i) (Option.some.inj h)
        have hbefore : (s.goto (.failed failure)).child i = .working := hchild
        cases ok with
        | true =>
            have hput : (s.put ceil args i).child i = .written :=
              State.become_self s i _
            cases hput.symm.trans (hsame.trans hbefore)
        | false =>
            have hlost : (s.become i .lost).child i = .lost :=
              State.become_self s i _
            cases hlost.symm.trans (hsame.trans hbefore)
  | ends i =>
      simp only [State.step] at h
      split at h
      case h_1 hchild =>
        have hsame := congrArg (fun t => t.child i) (Option.some.inj h)
        cases (State.become_self s i _).symm.trans (hsame.trans hchild)
      case h_2 hchild =>
        have hsame := congrArg (fun t => t.child i) (Option.some.inj h)
        cases (State.become_self s i _).symm.trans (hsame.trans hchild)
      case h_3 => cases h

omit [Add D] [Mul D] in
theorem left_checked : (checked ceil args).left args.nProcesses.toNat <
    (MainPc.checks : MainPc D).left args.nProcesses.toNat := by
  rcases checked_cases ceil args with ⟨failure, heq⟩ | ⟨heq, -⟩
  · rw [heq]
    exact Nat.succ_pos _
  · rw [heq]
    simp only [MainPc.left]
    omega

theorem Family.left_lt (hs : Family ceil args s)
    (h : s.step ceil args e = some t) : t.left args < s.left args := by
  have hprogress := hs.books.progress
  -- a step of `main` lowers its part, a step of a child its own
  have hmoves : ∀ {pc pc' : MainPc D}, s.main = pc →
      pc'.left args.nProcesses.toNat < pc.left args.nProcesses.toNat →
      (s.goto pc').left args < s.left args := by
    intro pc pc' hmain hlt
    rw [left_goto, State.left, hmain]
    omega
  have hchild : ∀ {i : Nat} {b c : ChildPc}, s.child i = b →
      b ≠ .notForked → c.left < b.left →
      (s.become i c).left args < s.left args := by
    intro i b c hi hb hlt
    have hsum := childrenLeft_become (s := s) (c := c)
      (hs.lt (hi ▸ hb : s.child i ≠ .notForked))
    rw [hi] at hsum
    show s.main.left _ + _ < s.main.left _ + _
    omega
  cases hstep : step_cases h with
  | checks hmain => exact hmoves hmain left_checked
  | pipe hmain => exact hmoves hmain (left_afterPipe _)
  | @fork i hmain =>
      rw [hmain] at hprogress
      have hsum := childrenLeft_become (s := s) (c := .working) hprogress.bound
      rw [hprogress.notForked i (Nat.le_refl i)] at hsum
      have hlt := left_afterFork (D := D) hprogress.bound
      rw [State.left, State.left, hmain]
      show (afterFork args i).left _ + (s.become i .working).childrenLeft _ < _
      simp only [ChildPc.left] at hsum
      omega
  | write hworking => exact hchild hworking (by decide) (by decide)
  | lost hworking => exact hchild hworking (by decide) (by decide)
  | exits hwritten => exact hchild hwritten (by decide) (by decide)
  | receives hmain | endOfFile hmain =>
      rw [hmain] at hprogress
      exact hmoves hmain (left_afterRead hprogress.bound _ _)
  | fails he =>
      have hpos := hprogress.left_pos (status_of_fails he h)
      exact hmoves rfl hpos

theorem falls (ceil : D → Int) (args : Args D) : (family ceil args).Falls
    (fun _ _ => True) (Family ceil args) (State.left args) :=
  ⟨fun _ _ _ hs _ hst => hs.step hst, fun _ _ _ hs _ hst => hs.left_lt hst⟩

omit [Add D] [Sub D] [Mul D] [Div D] [IntCast D] [LE D] [DecidableLE D] in
theorem left_le (args : Args D) (s : State D) :
    s.left args ≤ 5 * args.nProcesses.toNat + 2 := by
  have hmain : s.main.left args.nProcesses.toNat ≤
      3 * args.nProcesses.toNat + 2 := by
    cases s.main <;> simp only [MainPc.left] <;> omega
  have hchildren := childrenLeft_le args.nProcesses.toNat s
  rw [State.left]
  omega

/-! ## Where nothing can go on -/

/-- A child that is there can go on. -/
theorem not_alive_of_halted (h : (family ceil args).Halted Unharmed s) :
    ∀ i, ¬ (s.child i).Alive := by
  rintro i (hi | hi)
  · refine h (.write i true) (s.put ceil args i) rfl ?_
    show (if s.child i = .working then _ else _) = _
    rw [if_pos hi]
    rfl
  · refine h (.ends i) (s.become i .exited) ?_ ?_
    · show s.child i ≠ .working
      rw [hi]
      decide
    · show s.step ceil args (.ends i) = _
      simp only [State.step, hi]

/-- Neither does `main` wait: its `read` has a value or the end of the file
before it. -/
theorem over_of_halted (h : (family ceil args).Halted Unharmed s) :
    s.Over := by
  have hchildren := not_alive_of_halted h
  refine ⟨fun hmain => ?_, hchildren⟩
  have hstep : ∀ {e : Event}, Unharmed s e → s.step ceil args e = none :=
    fun he => h.eq_none (fun _ hst => hst) he
  cases hpc : s.main with
  | checks =>
      have hnone := hstep (e := .checks) trivial
      simp [State.step, hpc] at hnone
  | pipe i =>
      have hnone := hstep (e := .pipe true) rfl
      simp [State.step, hpc] at hnone
  | fork i =>
      have hnone := hstep (e := .fork true) rfl
      simp [State.step, hpc] at hnone
  | read i sum =>
      have hclosed : ¬ s.Open i := by
        rintro ⟨j, -, hj⟩
        exact hchildren j hj
      have hnone := hstep (e := .read) trivial
      simp only [State.step, hpc, State.read] at hnone
      split at hnone
      · cases hnone
      · rw [if_neg hclosed] at hnone
        cases hnone
  | printed sum | failed failure =>
      rw [hpc] at hmain
      cases hmain

/-- Never are more steps left. -/
theorem length_le (h : (family ceil args).Reachable s) {tr}
    (hrun : (family ceil args).Run s tr) :
    tr.length ≤ 5 * args.nProcesses.toNat + 2 := by
  have hlength := (falls ceil args).length_add_le hrun (System.Meets.all s tr)
    (family_of_reachable h)
  have hle := left_le args s
  omega

/-- **`main` always ends**: after any calls that failed and any children that
were killed, at most `5 * n_processes + 2` steps are left, and as long as
`main` or a child is there one of them can go on, without further failures. -/
theorem main_ends (h : (family ceil args).Reachable s) :
    (∀ tr, (family ceil args).Run s tr →
      tr.length ≤ 5 * args.nProcesses.toNat + 2 ∧
        ((family ceil args).Halted Unharmed (System.final s tr) →
          (System.final s tr).Over)) ∧
      ∃ tr, (family ceil args).Run s tr ∧ System.Meets Unharmed s tr ∧
        (System.final s tr).Over := by
  refine ⟨fun tr hrun => ⟨length_le h hrun, over_of_halted⟩, ?_⟩
  obtain ⟨tr, hrun, hmeets, hhalted⟩ :=
    ((falls ceil args).mono fun _ _ (_ : Unharmed _ _) => trivial).exists_halted
      (family_of_reachable h)
  exact ⟨tr, hrun, hmeets, over_of_halted hhalted⟩

end Steps

/-- The first of two children is killed before its `write`. -/
theorem main_ends_child_killed : ∃ s,
    (family Int.ceil (halves 2)).Reachable s ∧ s.child 0 = .lost ∧
      ∃ tr, (family Int.ceil (halves 2)).Run s tr ∧ tr.length ≤ 12 ∧
        (System.final s tr).Over := by
  have hrun : ∃ s, (family Int.ceil (halves 2)).Reachable s ∧
      decide (s.child 0 = .lost) = true :=
    System.ReachableIf.exists_of_runLabels (State.step Int.ceil (halves 2))
      (fun _ _ _ h => h)
      [.checks, .pipe true, .pipe true, .fork true, .fork true, .ends 0]
      (.init rfl) (by decide +kernel)
  obtain ⟨s, hs, hlost⟩ := hrun
  obtain ⟨hbounded, tr, htr, -, hover⟩ := main_ends hs
  exact ⟨s, hs, of_decide_eq_true hlost, tr, htr, (hbounded tr htr).1, hover⟩

/-! ## What it prints where nothing fails -/

section Unharmed

variable [Add D] [Sub D] [Mul D] [Div D] [IntCast D] [LE D] [DecidableLE D]
  {ceil : D → Int} {args : Args D} {s t : State D} {e : Event}

/-- Nothing has failed, and no child is lost. -/
structure Sane (s : State D) : Prop where
  main : ∀ failure, s.main ≠ .failed failure
  child : ∀ i, s.child i ≠ .lost

omit [Add D] [Sub D] [Mul D] [Div D] [IntCast D] [LE D] [DecidableLE D] in
theorem Sane.become (hs : Sane s) {i : Nat} {c : ChildPc} (hc : c ≠ .lost) :
    Sane (s.become i c) := by
  refine ⟨hs.main, fun j => ?_⟩
  by_cases hji : j = i
  · rwa [hji, State.become_self]
  · rw [State.become_of_ne s c hji]
    exact hs.child j

omit [Add D] [Mul D] in
theorem checked_of_admitted (h : Admitted ceil args) :
    checked ceil args = .pipe 0 := by
  rw [checked, if_neg (Int.not_le.mpr h.processes), if_neg h.width,
    if_neg (Int.not_lt.mpr h.intervals)]

theorem Sane.step (hs : Sane s) (hadmitted : Admitted ceil args)
    (he : Unharmed s e) (h : s.step ceil args e = some t) : Sane t := by
  cases e with
  | checks =>
      simp only [State.step] at h
      split at h
      case h_2 => cases h
      case h_1 =>
        obtain rfl := Option.some.inj h
        rw [checked_of_admitted hadmitted]
        exact ⟨by rintro failure ⟨⟩, hs.child⟩
  | pipe ok =>
      obtain rfl : ok = true := he
      simp only [State.step] at h
      split at h
      case h_2 => cases h
      case h_1 i _ =>
        obtain rfl := Option.some.inj h
        refine ⟨fun failure => ?_, hs.child⟩
        show afterPipe args i ≠ _
        rw [afterPipe]
        split <;> rintro ⟨⟩
  | fork ok =>
      obtain rfl : ok = true := he
      simp only [State.step] at h
      split at h
      case h_2 => cases h
      case h_1 i _ =>
        obtain rfl := Option.some.inj h
        refine ⟨fun failure => ?_,
          (hs.become (i := i) (c := .working) (by decide)).child⟩
        show afterFork args i ≠ _
        rw [afterFork]
        split <;> rintro ⟨⟩
  | write i ok =>
      obtain rfl : ok = true := he
      simp only [State.step] at h
      split at h
      case isFalse => cases h
      case isTrue =>
        obtain rfl := Option.some.inj h
        have hwritten := hs.become (i := i) (c := .written) (by decide)
        exact ⟨hwritten.main, hwritten.child⟩
  | ends i =>
      simp only [State.step] at h
      split at h
      case h_1 hworking => exact absurd hworking he
      case h_2 =>
        obtain rfl := Option.some.inj h
        exact hs.become (by decide)
      case h_3 => cases h
  | read =>
      simp only [State.step] at h
      split at h
      case h_2 => cases h
      case h_1 i sum _ =>
        have hafter : ∀ sum' failure,
            afterRead args i sum' ≠ .failed failure := by
          intro sum' failure
          rw [afterRead]
          split <;> rintro ⟨⟩
        simp only [State.read] at h
        split at h
        · obtain rfl := Option.some.inj h
          exact ⟨hafter _, hs.child⟩
        · split at h
          · cases h
          · obtain rfl := Option.some.inj h
            exact ⟨hafter _, hs.child⟩
  | readFails => exact absurd he id

theorem falls_sane (hadmitted : Admitted ceil args) :
    (family ceil args).Falls Unharmed
      (fun s => Family ceil args s ∧ Sane s) (State.left args) :=
  ⟨fun _ _ _ hs he hst => ⟨hs.1.step hst, hs.2.step hadmitted he hst⟩,
    fun _ _ _ hs _ hst => hs.1.left_lt hst⟩

end Unharmed

/-- The rectangles cover the range, and but for the first one they lie under
the curve. -/
theorem pi_near {dx : ℚ} (hdx : 0 < dx) {n : Nat}
    (hn : nIntervals Int.ceil dx = n) (hpos : 0 < n) :
    Real.pi ≤ ((calculatePart rangeStart dx n : ℚ) : ℝ) ∧
      ((calculatePart rangeStart dx n : ℚ) : ℝ) ≤ Real.pi + 4 * dx := by
  have hcast : ((rangeStart : ℚ) : ℝ) = 0 := by norm_num [rangeStart]
  have hdx' : (0 : ℝ) ≤ dx := Rat.cast_nonneg.mpr (le_of_lt hdx)
  have hcovers : (1 : ℝ) ≤ n * dx := by
    exact_mod_cast le_of_nIntervals hdx hn
  have hfalls : ∀ m : Nat, AntitoneOn curve (Set.Icc 0 (0 + m * dx)) :=
    fun m => antitone_curve.mono Set.Icc_subset_Ici_self
  have hpi : 4 * Real.arctan 1 = Real.pi := by
    rw [Real.arctan_one]
    ring
  rw [calculatePart_cast, hcast]
  constructor
  · have hlow := Rectangles.integral_le_leftSum hdx' (hfalls n)
    rw [integral_curve, Real.arctan_zero, sub_zero, zero_add] at hlow
    have hmono := Real.arctan_strictMono.monotone hcovers
    linarith
  · -- the last strip begins inside the range
    obtain ⟨m, rfl⟩ := Nat.exists_eq_succ_of_ne_zero (Nat.ne_of_gt hpos)
    have hhigh := Rectangles.leftSum_le hdx' (hfalls m)
    have hlast : (m : ℝ) * dx < 1 := by
      exact_mod_cast lt_of_nIntervals hdx hn (Nat.lt_succ_self m)
    rw [integral_curve, Real.arctan_zero, sub_zero, zero_add] at hhigh
    have hmono := Real.arctan_strictMono.monotone (le_of_lt hlast)
    have hfirst : curve 0 = 4 := by norm_num [curve]
    rw [hfirst] at hhigh
    show Rectangles.leftSum curve 0 dx (m + 1) ≤ _
    linarith

/-- **Where nothing fails, `main` prints `π`, and at most four times the
width more**: for every order of the steps of the processes, and every
number of processes that the checks let through. Such a run is never longer
than `5 * n_processes + 2` steps, so it comes to the `printf`. -/
theorem prints_pi {args : Args ℚ} (hprocesses : 0 < args.nProcesses)
    (hwidth : 0 < args.dx)
    (hintervals : args.nProcesses ≤ nIntervals Int.ceil args.dx)
    {tr : List (Event × State ℚ)}
    (h : (family Int.ceil args).Run .initial tr)
    (hunharmed : System.Meets Unharmed .initial tr) :
    tr.length ≤ 5 * args.nProcesses.toNat + 2 ∧
      ((family Int.ceil args).Halted Unharmed (System.final .initial tr) →
        ∃ sum : ℚ, (System.final .initial tr).main = .printed sum ∧
          Real.pi ≤ (sum : ℝ) ∧ (sum : ℝ) ≤ Real.pi + 4 * args.dx) := by
  refine ⟨length_le (.init rfl) h, fun hhalted => ?_⟩
  have hadmitted : Admitted Int.ceil args :=
    ⟨hprocesses, by simpa using hwidth, hintervals⟩
  have hinitial : Family Int.ceil args .initial ∧ Sane (.initial : State ℚ) :=
    ⟨family_of_reachable (.init rfl), ⟨by rintro failure ⟨⟩, fun _ => by rintro ⟨⟩⟩⟩
  obtain ⟨hfamily, hsane⟩ :=
    (falls_sane hadmitted).final h hunharmed hinitial
  have hreachable : (family Int.ceil args).Reachable
      (System.final .initial tr) := h.reachable_final (.init rfl)
  obtain ⟨hended, -⟩ := over_of_halted hhalted
  cases hmain : (System.final (.initial : State ℚ) tr).main with
  | printed sum =>
      obtain ⟨n, hn⟩ := Int.eq_ofNat_of_zero_le
        (show 0 ≤ nIntervals Int.ceil args.dx by omega)
      obtain ⟨hsum, -⟩ := printed_integral hreachable hmain
        fun j _ => hsane.child j
      have hnear := pi_near hwidth hn (by omega)
      rw [← hn, ← hsum] at hnear
      exact ⟨sum, rfl, hnear⟩
  | failed failure => exact absurd hmain (hsane.main failure)
  | checks | pipe | fork | read =>
      rw [hmain] at hended
      exact absurd rfl hended

/-- Two processes. -/
theorem prints_pi_two : ∃ tr,
    (family Int.ceil (halves 2)).Run (.initial : State ℚ) tr ∧
      tr.length ≤ 12 ∧
      ∃ sum : ℚ, (System.final .initial tr).main = .printed sum ∧
        Real.pi ≤ (sum : ℝ) ∧ (sum : ℝ) ≤ Real.pi + 4 * (1 / 2 : ℚ) := by
  obtain ⟨tr, hrun, hunharmed, hhalted⟩ :=
    ((falls Int.ceil (halves 2)).mono
      fun _ _ (_ : Unharmed _ _) => trivial).exists_halted
        (family_of_reachable (.init rfl))
  have hwidth : 0 < (halves 2 : Args ℚ).dx := by norm_num [halves]
  have hintervals : (halves 2 : Args ℚ).nProcesses ≤
      nIntervals Int.ceil (halves 2 : Args ℚ).dx := by
    rw [nIntervals_eq]
    norm_num [halves]
  obtain ⟨hlength, hprints⟩ :=
    prints_pi (by decide) hwidth hintervals hrun hunharmed
  exact ⟨tr, hrun, hlength, hprints hhalted⟩

end Sysops.Cw06.Parent
