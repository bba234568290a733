import Sysops.Library.Population
import Sysops.Cw08.Forks
import Mathlib.Order.Bounds.Basic

/-!
# `cw08`: how many processes there can be

A child whose worker returns goes on in the loop that forks, and so do its
children. Each turn of that loop splits what is left of it between the
process and its new child, so with `n` workers asked for there are up to
`2 ^ n - 1` children, and not `n`. Where no worker returns, the original
process has all children in its `pids`, and is alone when it cleans up.
-/

namespace Sysops.Cw08

variable {n : Nat} {program : Program} {root p : Nat} {t u : Tree n}
  {x y : Proc n}

/-- The processes that one at this place can still bring about, itself not
counted. -/
def Pc.offspring (n : Nat) : Pc → Nat
  | .forkLoop i => 2 ^ (n - i) - 1
  | .worker i | .work i => 2 ^ (n - (i + 1)) - 1
  | .spin | .killLoop _ | .cleanQueue | .unlink | .ended => 0

def Proc.offspring (x : Proc n) : Nat := x.pc.offspring n

/-- A turn of the loop that forks makes one process, and splits the rest. -/
theorem offspring_turn {i : Nat} (hi : i < n) :
    2 ^ (n - i) - 1 = 2 ^ (n - (i + 1)) - 1 + (2 ^ (n - (i + 1)) - 1) + 1 := by
  have hsplit : n - i = n - (i + 1) + 1 := by omega
  have hpos : 0 < 2 ^ (n - (i + 1)) := Nat.two_pow_pos _
  rw [hsplit, Nat.pow_succ]
  omega

/-- The process will send its `SIGKILL` to `q`. -/
def Proc.Lists (x : Proc n) (q : Nat) : Prop :=
  match x.pc with
  | .forkLoop i => ∃ j : Fin n, j < i ∧ x.pids j = q
  | .spin => ∃ j, x.pids j = q
  | .killLoop i => ∃ j : Fin n, i ≤ j ∧ x.pids j = q
  | .worker _ | .work _ | .cleanQueue | .unlink | .ended => False

/-! ## What a step does to the processes -/

inductive Tree.Ran (t : Tree n) (p : Nat) (x : Proc n) (u : Tree n) : Prop where
  | goesOn (y : Proc n)
      (hprocs : u.procs = Function.update t.procs p (some y))
      (hcreated : u.created = t.created)
      (hle : y.offspring ≤ x.offspring)
      (hlists : ∀ q, q ≠ 0 → x.Lists q → y.Lists q)
  | forks (i child : Nat) (hi : i < n) (hpc : x.pc = .forkLoop i)
      (hzero : child ≠ 0) (hfree : t.procs child = none)
      (hprocs : u.procs = Function.update
        (Function.update t.procs child (some { x with pc := .worker i })) p
        (some { x with
          pids := Function.update x.pids ⟨i, hi⟩ child
          pc := .forkLoop (i + 1) }))
      (hcreated : u.created = t.created + 1)
  | kills (j : Fin n) (hpc : x.pc = .killLoop j) (hvictim : x.pids j ≠ 0)
      (hprocs : u.procs = Function.update
        (Function.update t.procs p (some { x with pc := .killLoop (j + 1) }))
        (x.pids j) none)
      (hcreated : u.created = t.created)

/-- A turn of the loop that kills is done with one entry. -/
theorem lists_killLoop {i q : Nat} (hi : i < n) (hpc : x.pc = .killLoop i)
    (hq : q ≠ x.pids ⟨i, hi⟩) (h : x.Lists q) :
    Proc.Lists { x with pc := .killLoop (i + 1) } q := by
  simp only [Proc.Lists, hpc] at h
  obtain ⟨j, hij, hj⟩ := h
  have hne : i ≠ j := by
    rintro rfl
    exact hq hj.symm
  exact ⟨j, by omega, hj⟩

theorem ran_of_forkLoop {i : Nat} (hpc : x.pc = .forkLoop i)
    {fork : Option Nat} (h : t.run program p x fork = some u) :
    t.Ran p x u := by
  simp only [Tree.run, hpc] at h
  split at h
  · rename_i hi
    cases fork with
    | none =>
        cases h
        refine .goesOn _ rfl rfl ?_ fun q _ hq => ?_
        · have hturn := offspring_turn hi
          simp only [Proc.offspring, hpc, Pc.offspring]
          omega
        · simp only [Proc.Lists, hpc] at hq
          obtain ⟨j, hji, hj⟩ := hq
          exact ⟨j, Nat.lt_succ_of_lt hji, hj⟩
    | some child =>
        simp only [Option.ite_none_right_eq_some, Option.some.injEq] at h
        obtain ⟨⟨hzero, hfree⟩, rfl⟩ := h
        exact .forks i child hi hpc hzero hfree rfl rfl
  · cases h
    refine .goesOn _ rfl rfl (Nat.zero_le _) fun q _ hq => ?_
    simp only [Proc.Lists, hpc] at hq
    obtain ⟨j, -, hj⟩ := hq
    exact ⟨j, hj⟩

theorem ran_of_killLoop {i : Nat} (hpc : x.pc = .killLoop i)
    {fork : Option Nat} (h : t.run program p x fork = some u) :
    t.Ran p x u := by
  simp only [Tree.run, hpc] at h
  split at h
  · rename_i hi
    split at h
    · rename_i hvictim
      cases h
      exact .kills ⟨i, hi⟩ hpc hvictim rfl rfl
    · rename_i hnobody
      cases h
      refine .goesOn _ rfl rfl (Nat.zero_le _) fun q hzero hq => ?_
      refine lists_killLoop hi hpc ?_ hq
      rwa [not_not.mp hnobody]
  · rename_i hi
    cases h
    refine .goesOn _ rfl rfl ?_ fun q _ hq => ?_
    · cases program with
      | printers => exact Nat.zero_le _
      | users => exact Nat.zero_le _
    · simp only [Proc.Lists, hpc] at hq
      obtain ⟨j, hij, -⟩ := hq
      omega

theorem ran_of_run {fork : Option Nat}
    (h : t.run program p x fork = some u) : t.Ran p x u := by
  cases hpc : x.pc with
  | forkLoop i => exact ran_of_forkLoop hpc h
  | killLoop i => exact ran_of_killLoop hpc h
  | worker i =>
      simp only [Tree.run, hpc, Option.some.injEq] at h
      subst h
      refine .goesOn _ rfl rfl ?_ fun q _ hq => ?_
      · -- a worker that returns has the rest of the loop before it
        simp only [Proc.offspring, hpc]
        cases x.keepRunning with
        | true => exact Nat.le_refl _
        | false => exact Nat.le_refl _
      · simp only [Proc.Lists, hpc] at hq
  | work i =>
      simp only [Tree.run, hpc, Option.some.injEq] at h
      subst h
      refine .goesOn _ rfl rfl ?_ fun q _ hq => ?_
      · simp only [Proc.offspring, hpc]
        exact Nat.le_refl _
      · simp only [Proc.Lists, hpc] at hq
  | spin =>
      simp only [Tree.run, hpc, Option.some.injEq] at h
      subst h
      refine .goesOn _ rfl rfl ?_ fun q _ hq => ?_
      · cases hk : x.keepRunning with
        | true => exact Nat.zero_le _
        | false => exact Nat.zero_le _
      · simp only [Proc.Lists, hpc] at hq
        obtain ⟨j, hj⟩ := hq
        cases hk : x.keepRunning with
        | true => exact ⟨j, hj⟩
        | false => exact ⟨j, Nat.zero_le _, hj⟩
  | cleanQueue | unlink =>
      simp only [Tree.run, hpc, Option.some.injEq] at h
      subst h
      refine .goesOn _ rfl rfl (Nat.zero_le _) fun q _ hq => ?_
      simp only [Proc.Lists, hpc] at hq
  | ended => simp only [Tree.run, hpc, reduceCtorEq] at h

theorem step_cases {e : Nat × Happens} (h : t.step program e = some u) :
    ∃ x, t.procs e.1 = some x ∧ t.Ran e.1 x u := by
  obtain ⟨p, a⟩ := e
  obtain ⟨x, hx, hrun⟩ := Option.bind_eq_some_iff.mp h
  refine ⟨x, hx, ?_⟩
  cases a with
  | run fork => exact ran_of_run hrun
  | signal =>
      cases hrun
      exact .goesOn _ rfl rfl (Nat.le_refl _) fun _ _ hq => hq

/-! ## No more than that -/

/-- The processes that were created, and those that can still be. -/
def Tree.Bounded (t : Tree n) : Prop :=
  ∃ k, WeighsAtMost Proc.offspring t.procs k ∧ t.created + k ≤ 2 ^ n - 1

theorem bounded_initial (n root : Nat) : (Tree.initial n root).Bounded := by
  refine ⟨_, .single (p := root) (fun q hq => Tree.initial_of_ne hq)
    (Tree.initial_root n root), ?_⟩
  rw [Proc.offspring, Pc.offspring]
  exact Nat.le_of_eq (Nat.zero_add _)

theorem Tree.Bounded.step (h : t.Bounded) {e : Nat × Happens}
    (hstep : t.step program e = some u) : u.Bounded := by
  obtain ⟨k, hweighs, hsum⟩ := h
  obtain ⟨x, hx, hran⟩ := step_cases hstep
  cases hran with
  | goesOn y hprocs hcreated hle =>
      rw [Bounded, hprocs, hcreated]
      exact ⟨k, hweighs.become hx (Nat.add_le_add_left hle k), hsum⟩
  | kills j hpc hvictim hprocs hcreated =>
      rw [Bounded, hprocs, hcreated]
      have hnext := hweighs.become (y := { x with pc := .killLoop (j + 1) })
        hx (Nat.add_le_add_left (Nat.zero_le _) k)
      exact ⟨k, hnext.remove _, hsum⟩
  | forks i child hi hpc hzero hfree hprocs hcreated =>
      have hne : e.1 ≠ child := by
        rintro rfl
        rw [hx] at hfree
        cases hfree
      have hturn := offspring_turn hi
      have hbefore : x.offspring = 2 ^ (n - i) - 1 := by
        rw [Proc.offspring, hpc, Pc.offspring]
      have hle := hweighs.le hx
      have hadd := hweighs.add hfree { x with pc := .worker i }
      rw [Bounded, hprocs, hcreated]
      refine ⟨k - 1, hadd.become (x := x) ?_ ?_, ?_⟩
      · rw [Function.update_of_ne hne, hx]
      · rw [hbefore]
        simp only [Proc.offspring, Pc.offspring]
        omega
      · omega

theorem bounded_of_reachable (h : (tree program n root).Reachable t) :
    t.Bounded := by
  refine h.invariant (I := Tree.Bounded) ?_ fun _ _ _ hs _ hst => hs.step hst
  rintro t rfl
  exact bounded_initial n root

theorem created_le (h : (tree program n root).Reachable t) :
    t.created ≤ 2 ^ n - 1 := by
  obtain ⟨k, -, hsum⟩ := bounded_of_reachable h
  omega

theorem finite_of_reachable (h : (tree program n root).Reachable t) :
    {q | t.procs q ≠ none}.Finite := by
  obtain ⟨k, hweighs, -⟩ := bounded_of_reachable h
  exact hweighs.finite

/-! ## As many as that

A process that has had its signal forks as long as it can, and each child
returns from its worker at once. -/

theorem Tree.exists_free (hfinite : {q | t.procs q ≠ none}.Finite) :
    ∃ child, child ≠ 0 ∧ t.procs child = none := by
  obtain ⟨child, hchild⟩ := (hfinite.insert 0).exists_notMem
  exact ⟨child, fun h => hchild (.inl h),
    not_not.mp fun h => hchild (.inr h)⟩

/-- `p` is in the loop that forks, with its signal behind it. -/
def Tree.ForksFrom (t : Tree n) (p i : Nat) : Prop :=
  ∃ x, t.procs p = some x ∧ x.pc = .forkLoop i ∧ x.keepRunning = false

theorem Tree.ForksFrom.there {i : Nat} (h : t.ForksFrom p i) :
    t.procs p ≠ none := by
  obtain ⟨x, hx, -, -⟩ := h
  rw [hx]
  exact Option.some_ne_none x

/-- One turn of the loop, and the return of the child. -/
theorem forks_turn (program : Program) (root : Nat) {i child : Nat}
    (hi : i < n) (h : t.ForksFrom p i) (hzero : child ≠ 0)
    (hfree : t.procs child = none) :
    ∃ u, ((tree program n root).startingAt t).Reachable u ∧
      u.created = t.created + 1 ∧ u.ForksFrom p (i + 1) ∧
      u.ForksFrom child (i + 1) ∧
      ∀ q, q ≠ p → q ≠ child → u.procs q = t.procs q := by
  have hne : p ≠ child := by
    rintro rfl
    exact h.there hfree
  obtain ⟨x, hx, hpc, hk⟩ := h
  obtain ⟨y, hy, hypc, hyk⟩ : ∃ y : Proc n,
      { x with
        pids := Function.update x.pids ⟨i, hi⟩ child
        pc := .forkLoop (i + 1) } = y ∧
      y.pc = .forkLoop (i + 1) ∧ y.keepRunning = false := ⟨_, rfl, rfl, hk⟩
  obtain ⟨forked, hforked⟩ : ∃ u : Tree n,
      { (t.set child { x with pc := .worker i }).set p y with
        created := t.created + 1 } = u := ⟨_, rfl⟩
  have hprocs : forked.procs =
      ((t.set child { x with pc := .worker i }).set p y).procs := by
    rw [← hforked]
  have hrun : t.run program p x (some child) = some forked := by
    simp only [Tree.run, hpc, dif_pos hi, hzero, hfree, ne_eq,
      not_false_eq_true, and_self, if_true, ← hforked, ← hy]
  have hworker : forked.procs child = some { x with pc := .worker i } := by
    rw [hprocs, Tree.set_of_ne _ _ (Ne.symm hne), Tree.set_self]
  have hreturn : forked.run program child { x with pc := .worker i } none =
      some (forked.set child { x with pc := .forkLoop (i + 1) }) := by
    simp [Tree.run, hk]
  refine ⟨_, (reachable_of_run hx hrun).trans
    (reachable_of_run hworker hreturn), ?_, ⟨y, ?_, hypc, hyk⟩,
    ⟨_, Tree.set_self .., rfl, hk⟩, fun q hq hqc => ?_⟩
  · show forked.created = _
    rw [← hforked]
  · rw [Tree.set_of_ne _ _ hne, hprocs, Tree.set_self]
  · rw [Tree.set_of_ne _ _ hqc, hprocs, Tree.set_of_ne _ _ hq,
      Tree.set_of_ne _ _ hqc]

/-- The process `p` and its children fork all they can, and leave the others
alone. -/
theorem forks_all (ht : (tree program n root).Reachable t) {i : Nat}
    (h : t.ForksFrom p i) :
    ∃ u, ((tree program n root).startingAt t).Reachable u ∧
      u.created = t.created + (2 ^ (n - i) - 1) ∧
      ∀ q, q ≠ p → t.procs q ≠ none → u.procs q = t.procs q := by
  induction hleft : n - i generalizing t p i with
  | zero => exact ⟨t, .refl _ t, rfl, fun _ _ _ => rfl⟩
  | succ k ih =>
      have hi : i < n := by omega
      have hrest : n - (i + 1) = k := by omega
      obtain ⟨child, hzero, hfree⟩ :=
        Tree.exists_free (finite_of_reachable ht)
      obtain ⟨s, hs, hone, hparent, hchild, hothers⟩ :=
        forks_turn program root hi h hzero hfree
      have hne : p ≠ child := by
        rintro rfl
        exact h.there hfree
      -- what the child can do, and then the process itself
      obtain ⟨v, hv, hcreatedv, hothersv⟩ :=
        ih (ht.of_startingAt hs) hchild hrest
      have hstays : v.ForksFrom p (i + 1) := by
        rw [Tree.ForksFrom, hothersv p hne hparent.there]
        exact hparent
      obtain ⟨u, hu, hcreatedu, hothersu⟩ :=
        ih (ht.of_startingAt (hs.trans hv)) hstays hrest
      refine ⟨u, (hs.trans hv).trans hu, ?_, fun q hq hthere => ?_⟩
      · have hturn := offspring_turn hi
        rw [hleft, hrest] at hturn
        omega
      · have hqc : q ≠ child := by
          rintro rfl
          exact hthere hfree
        have hsame := hothers q hq hqc
        have hsamev := hothersv q hqc (hsame ▸ hthere)
        rw [hothersu q hq (by rw [hsamev, hsame]; exact hthere), hsamev, hsame]

/-- **The most processes that a run can create** are `2 ^ n - 1`, for `n`
workers asked for: a signal that comes before the first `fork` makes every
child return into the loop. -/
theorem created_isGreatest (program : Program) (n root : Nat) :
    IsGreatest {k | ∃ t, (tree program n root).Reachable t ∧ t.created = k}
      (2 ^ n - 1) := by
  constructor
  · have hinit : (tree program n root).Reachable (Tree.initial n root) :=
      .init rfl
    have hsignal : (tree program n root).Reachable
        ((Tree.initial n root).set root ⟨fun _ => 0, false, .forkLoop 0⟩) := by
      refine System.Reachable.step (e := (root, .signal)) hinit ?_
      show Tree.step program _ (root, .signal) = _
      rw [Tree.step, Tree.initial_root]
      rfl
    obtain ⟨u, hu, hcreated, -⟩ :=
      forks_all hsignal ⟨_, Tree.set_self .., rfl, rfl⟩
    exact ⟨u, hsignal.of_startingAt hu, hcreated.trans (Nat.zero_add _)⟩
  · rintro k ⟨t, ht, rfl⟩
    exact created_le ht

/-! ## The clean-up

As long as no worker of a child returns, the original process knows all the
others. -/

structure Tree.Kept (root : Nat) (t : Tree n) : Prop where
  listed : ∀ x, t.procs root = some x →
    ∀ q, q ≠ root → t.procs q ≠ none → x.Lists q
  nonzero : ∀ q, q ≠ root → t.procs q ≠ none → q ≠ 0

theorem kept_initial (n root : Nat) : (Tree.initial n root).Kept root := by
  constructor
  · intro x _ q hq hthere
    exact absurd (Tree.initial_of_ne hq) hthere
  · intro q hq hthere
    exact absurd (Tree.initial_of_ne hq) hthere

/-- A child neither forks nor kills. -/
theorem Proc.IsChild.goesOn (hchild : x.IsChild program)
    (h : t.Ran p x u) : ∃ y, u.procs = Function.update t.procs p (some y) := by
  cases h with
  | goesOn y hprocs => exact ⟨y, hprocs⟩
  | forks i child hi hpc =>
      simp only [Proc.IsChild, hpc] at hchild
      omega
  | kills j hpc hvictim =>
      simp only [Proc.IsChild, hpc] at hchild
      exact absurd (hchild.2 j) hvictim

/-- The original process goes on, or a child does. -/
theorem Tree.Kept.become (h : t.Kept root) (hx : t.procs p = some x)
    (hprocs : u.procs = Function.update t.procs p (some y))
    (hlists : p = root → ∀ q, q ≠ 0 → x.Lists q → y.Lists q) :
    u.Kept root := by
  have hthere : ∀ q, u.procs q ≠ none → t.procs q ≠ none := by
    intro q hq
    by_cases hqp : q = p
    · subst hqp
      rw [hx]
      exact Option.some_ne_none x
    · rwa [hprocs, Function.update_of_ne hqp] at hq
  refine ⟨fun z hz q hq hqthere => ?_, fun q hq hqthere =>
    h.nonzero q hq (hthere q hqthere)⟩
  have hzero := h.nonzero q hq (hthere q hqthere)
  by_cases hp : p = root
  · subst hp
    rw [hprocs, Function.update_self] at hz
    cases hz
    exact hlists rfl q hzero (h.listed x hx q hq (hthere q hqthere))
  · rw [hprocs, Function.update_of_ne (Ne.symm hp)] at hz
    exact h.listed z hz q hq (hthere q hqthere)

/-- The original process forks. -/
theorem Tree.Kept.fork (h : t.Kept root) (hx : t.procs root = some x)
    {i child : Nat} (hi : i < n) (hpc : x.pc = .forkLoop i)
    (hzero : child ≠ 0)
    (hprocs : u.procs = Function.update
      (Function.update t.procs child (some { x with pc := .worker i })) root
      (some { x with
        pids := Function.update x.pids ⟨i, hi⟩ child
        pc := .forkLoop (i + 1) })) : u.Kept root := by
  have hthere : ∀ q, q ≠ root → q ≠ child → u.procs q ≠ none →
      t.procs q ≠ none := by
    intro q hq hqc hqthere
    rwa [hprocs, Function.update_of_ne hq, Function.update_of_ne hqc]
      at hqthere
  constructor
  · intro z hz q hq hqthere
    rw [hprocs, Function.update_self] at hz
    cases hz
    by_cases hqc : q = child
    · exact ⟨⟨i, hi⟩, Nat.lt_succ_self i, hqc ▸ Function.update_self ..⟩
    · have hlisted := h.listed x hx q hq (hthere q hq hqc hqthere)
      simp only [Proc.Lists, hpc] at hlisted
      obtain ⟨j, hji, hj⟩ := hlisted
      have hne : j ≠ ⟨i, hi⟩ := fun heq => by
        rw [heq] at hji
        exact Nat.lt_irrefl i hji
      exact ⟨j, Nat.lt_succ_of_lt hji, (Function.update_of_ne hne ..).trans hj⟩
  · intro q hq hqthere
    by_cases hqc : q = child
    · exact hqc ▸ hzero
    · exact h.nonzero q hq (hthere q hq hqc hqthere)

/-- The original process kills a child. -/
theorem Tree.Kept.kill (h : t.Kept root) (hx : t.procs root = some x)
    {j : Fin n} (hpc : x.pc = .killLoop j)
    (hprocs : u.procs = Function.update
      (Function.update t.procs root (some { x with pc := .killLoop (j + 1) }))
      (x.pids j) none) : u.Kept root := by
  have hthere : ∀ q, q ≠ root → u.procs q ≠ none →
      q ≠ x.pids j ∧ t.procs q ≠ none := by
    intro q hq hqthere
    by_cases hqj : q = x.pids j
    · subst hqj
      rw [hprocs, Function.update_self] at hqthere
      exact absurd rfl hqthere
    · rw [hprocs, Function.update_of_ne hqj, Function.update_of_ne hq]
        at hqthere
      exact ⟨hqj, hqthere⟩
  refine ⟨fun z hz q hq hqthere => ?_, fun q hq hqthere =>
    h.nonzero q hq (hthere q hq hqthere).2⟩
  obtain ⟨hne, hqt⟩ := hthere q hq hqthere
  have hrest := lists_killLoop j.isLt hpc hne (h.listed x hx q hq hqt)
  by_cases hroot : root = x.pids j
  · rw [hprocs, hroot, Function.update_self] at hz
    cases hz
  · rw [hprocs, Function.update_of_ne hroot, Function.update_self] at hz
    cases hz
    exact hrest

theorem Tree.Kept.step (h : t.Kept root) (hinv : TreeInv program root t)
    {e : Nat × Happens} (hstep : t.step program e = some u) :
    u.Kept root := by
  obtain ⟨x, hx, hran⟩ := step_cases hstep
  by_cases hp : e.1 = root
  · rw [hp] at hx hran
    cases hran with
    | goesOn y hprocs _ _ hlists =>
        exact h.become hx hprocs fun _ => hlists
    | forks i child hi hpc hzero _ hprocs =>
        exact h.fork hx hi hpc hzero hprocs
    | kills j hpc _ hprocs => exact h.kill hx hpc hprocs
  · obtain ⟨y, hprocs⟩ := (hinv.children e.1 x hx hp).goesOn hran
    exact h.become hx hprocs fun hroot => absurd hroot hp

theorem kept_of_reachable
    (h : (tree program n root).ReachableIf (NoReturn program root) t) :
    t.Kept root := by
  have hboth : TreeInv program root t ∧ t.Kept root := by
    refine h.invariant (I := fun t => TreeInv program root t ∧ t.Kept root)
      ?_ ?_
    · rintro t rfl
      exact ⟨.initial, kept_initial n root⟩
    · exact fun t e u hs hc hst => ⟨hs.1.step hc hst, hs.2.step hs.1 hst⟩
  exact hboth.2

end Sysops.Cw08
