import Sysops.Library.Runs
import Mathlib.Data.Set.Finite.Basic
import Mathlib.Data.Set.Finite.Lattice
import Mathlib.Order.Interval.Finset.Nat

/-!
# The processes of `printers_server.c` and `users_client.c`

Both main functions fork their workers in a loop, wait for a signal, and
end their children. The child calls its worker function inside the loop,
with nothing behind the call that would end the process: when the worker
returns, the child goes on in its parent's code with a copy of what its
parent knew when it forked.

The worker functions are modelled as far as they test `keep_running`; what
they do with the queue is in `Cw08.PrintQueue`.
-/

namespace Sysops.Cw08

/-- The two programs differ in what they clean up. -/
inductive Program where
  | printers
  | users
  deriving DecidableEq

/-- Where a process is in its main function. -/
inductive Pc where
  /-- The test of the loop that forks. -/
  | forkLoop (i : Nat)
  /-- The test of the loop in `printer_process` or `user_process`. -/
  | worker (i : Nat)
  /-- The body of that loop. -/
  | work (i : Nat)
  /-- `while (keep_running);`. -/
  | spin
  /-- The test of the loop that kills. -/
  | killLoop (i : Nat)
  | cleanQueue
  | unlink
  | ended
  deriving DecidableEq

/-- A process started for `n` workers. -/
structure Proc (n : Nat) where
  /-- `pids`, zero where no child is recorded. -/
  pids : Fin n → Nat
  keepRunning : Bool
  pc : Pc

/-- The processes of one program by their numbers, the original one and all
that come from its calls of `fork`, and a record of what they did. A process
that has been sent `SIGKILL` is no longer there, although nobody waits for
its end. -/
structure Tree (n : Nat) where
  procs : Nat → Option (Proc n)
  /-- How many processes `fork` has made. -/
  created : Nat
  /-- Who has sent `SIGKILL` to a recorded child. -/
  killers : List Nat
  /-- Who has destroyed the semaphores. -/
  destroyers : List Nat
  /-- Who has unlinked the shared memory. -/
  unlinkers : List Nat

variable {n : Nat}

def Tree.set (t : Tree n) (p : Nat) (x : Proc n) : Tree n :=
  { t with procs := Function.update t.procs p (some x) }

@[simp] theorem Tree.set_self (t : Tree n) (p : Nat) (x : Proc n) :
    (t.set p x).procs p = some x :=
  Function.update_self ..

theorem Tree.set_of_ne (t : Tree n) {p q : Nat} (x : Proc n) (h : q ≠ p) :
    (t.set p x).procs q = t.procs q :=
  Function.update_of_ne h ..

/-- What happens to a process: its next step, with the result of `fork` if
it forks (no number if that fails), or a signal. -/
inductive Happens where
  | run (fork : Option Nat)
  | signal

/-- The next step of the process `p`, which is `x`. -/
def Tree.run (program : Program) (t : Tree n) (p : Nat) (x : Proc n)
    (fork : Option Nat) : Option (Tree n) :=
  match x.pc with
  | .forkLoop i =>
      if h : i < n then
        match fork with
        | none => some (t.set p { x with pc := .forkLoop (i + 1) })
        | some child =>
            if child ≠ 0 ∧ t.procs child = none then
              let forked := t.set child { x with pc := .worker i }
              let forked := forked.set p
                { x with
                  pids := Function.update x.pids ⟨i, h⟩ child
                  pc := .forkLoop (i + 1) }
              some { forked with created := t.created + 1 }
            else none
      else some (t.set p { x with pc := .spin })
  | .worker i =>
      -- a worker that returns is back in the loop that forks
      some (t.set p { x with
        pc := if x.keepRunning then .work i else .forkLoop (i + 1) })
  | .work i => some (t.set p { x with pc := .worker i })
  | .spin => some (t.set p { x with
      pc := if x.keepRunning then .spin else .killLoop 0 })
  | .killLoop i =>
      if h : i < n then
        let next := t.set p { x with pc := .killLoop (i + 1) }
        if x.pids ⟨i, h⟩ ≠ 0 then
          some { next with
            procs := Function.update next.procs (x.pids ⟨i, h⟩) none
            killers := t.killers ++ [p] }
        else some next
      else some (t.set p { x with
        pc := match program with
          | .printers => .cleanQueue
          | .users => .ended })
  | .cleanQueue => some { t.set p { x with pc := .unlink } with
      destroyers := t.destroyers ++ [p] }
  | .unlink => some { t.set p { x with pc := .ended } with
      unlinkers := t.unlinkers ++ [p] }
  | .ended => none

def Tree.step (program : Program) (t : Tree n) (e : Nat × Happens) :
    Option (Tree n) :=
  (t.procs e.1).bind fun x =>
    match e.2 with
    | .run fork => t.run program e.1 x fork
    | .signal => some (t.set e.1 { x with keepRunning := false })

/-- The original process before its loop. -/
def Tree.initial (n root : Nat) : Tree n where
  procs p := if p = root then some ⟨fun _ => 0, true, .forkLoop 0⟩ else none
  created := 0
  killers := []
  destroyers := []
  unlinkers := []

@[simp] theorem Tree.initial_root (n root : Nat) :
    (Tree.initial n root).procs root =
      some ⟨fun _ => 0, true, .forkLoop 0⟩ :=
  if_pos rfl

theorem Tree.initial_of_ne {root p : Nat} (h : p ≠ root) :
    (Tree.initial n root).procs p = none :=
  if_neg h

def tree (program : Program) (n root : Nat) :
    System (Tree n) (Nat × Happens) where
  init t := t = Tree.initial n root
  step t e u := t.step program e = some u

/-! ## What is expected, and when it holds -/

/-- At most `n` processes were created, and the original one did all the
killing and the cleaning up. -/
structure OnlyRoot (root : Nat) (t : Tree n) : Prop where
  created : t.created ≤ n
  killers : ∀ p ∈ t.killers, p = root
  destroyers : ∀ p ∈ t.destroyers, p = root
  unlinkers : ∀ p ∈ t.unlinkers, p = root

/-- The worker `i` of a process that has nothing left to do when it
returns: a user's child with no fork and no recorded child ahead. -/
def Proc.Harmless (program : Program) (i : Nat) (x : Proc n) : Prop :=
  program = .users ∧ n ≤ i + 1 ∧ ∀ j, x.pids j = 0

/-- The step is no return of a child's worker, or a harmless one. -/
def NoReturn (program : Program) (root : Nat) (t : Tree n) :
    Nat × Happens → Prop
  | (p, .run _) => ∀ x i, t.procs p = some x → p ≠ root →
      x.pc = .worker i → x.keepRunning = false → x.Harmless program i
  | (_, .signal) => True

/-- Where a child can be while no worker returns. -/
def Proc.IsChild (program : Program) (x : Proc n) : Prop :=
  match x.pc with
  | .worker _ | .work _ => True
  | .forkLoop i => program = .users ∧ n ≤ i ∧ ∀ j, x.pids j = 0
  | .spin | .killLoop _ | .ended => program = .users ∧ ∀ j, x.pids j = 0
  | .cleanQueue | .unlink => False

/-- Where the original process can be, with the number of processes that
were created. -/
def Proc.IsRoot (created : Nat) (x : Proc n) : Prop :=
  match x.pc with
  | .forkLoop i => created ≤ i
  | .worker _ | .work _ => False
  | .spin | .killLoop _ | .cleanQueue | .unlink | .ended => True

structure TreeInv (program : Program) (root : Nat) (t : Tree n) : Prop where
  onlyRoot : OnlyRoot root t
  children : ∀ p x, t.procs p = some x → p ≠ root → x.IsChild program
  root : ∀ x, t.procs root = some x → x.IsRoot t.created
  finite : {p | t.procs p ≠ none}.Finite

section Invariant

variable {program : Program} {root p : Nat} {t u : Tree n} {x y : Proc n}

theorem TreeInv.initial : TreeInv program root (Tree.initial n root) := by
  constructor
  · exact ⟨Nat.zero_le n, by simp [Tree.initial], by simp [Tree.initial],
      by simp [Tree.initial]⟩
  · intro p x hx hp
    rw [Tree.initial_of_ne hp] at hx
    cases hx
  · intro x hx
    rw [Tree.initial_root] at hx
    cases hx
    exact Nat.le_refl 0
  · refine (Set.finite_singleton root).subset ?_
    intro p hp
    by_contra hne
    exact hp (Tree.initial_of_ne hne)

/-- One process goes on, and nothing else happens. -/
theorem TreeInv.set (h : TreeInv program root t)
    (hchild : p ≠ root → y.IsChild program)
    (hroot : p = root → y.IsRoot t.created) :
    TreeInv program root (t.set p y) := by
  constructor
  · exact ⟨h.onlyRoot.created, h.onlyRoot.killers, h.onlyRoot.destroyers,
      h.onlyRoot.unlinkers⟩
  · intro q z hz hq
    by_cases hqp : q = p
    · subst hqp
      rw [Tree.set_self] at hz
      cases hz
      exact hchild hq
    · rw [t.set_of_ne y hqp] at hz
      exact h.children q z hz hq
  · intro z hz
    by_cases hqp : root = p
    · subst hqp
      rw [Tree.set_self] at hz
      cases hz
      exact hroot rfl
    · rw [t.set_of_ne y hqp] at hz
      exact h.root z hz
  · refine (h.finite.insert p).subset ?_
    intro q hq
    by_cases hqp : q = p
    · exact .inl hqp
    · refine .inr ?_
      rwa [Set.mem_ofPred_eq, t.set_of_ne y hqp] at hq

theorem append_root {l : List Nat} (h : ∀ q ∈ l, q = root) :
    ∀ q ∈ l ++ [root], q = root := by
  intro q hq
  rcases List.mem_append.mp hq with hq | hq
  · exact h q hq
  · exact List.mem_singleton.mp hq

/-- The original process kills. -/
theorem TreeInv.kill (h : TreeInv program root t) (q : Nat) :
    TreeInv program root { t with
      procs := Function.update t.procs q none
      killers := t.killers ++ [root] } := by
  have hsub : ∀ r z, Function.update t.procs q none r = some z →
      t.procs r = some z := by
    intro r z hz
    by_cases hr : r = q
    · subst hr
      rw [Function.update_self] at hz
      cases hz
    · rwa [Function.update_of_ne hr] at hz
  constructor
  · exact ⟨h.onlyRoot.created, append_root h.onlyRoot.killers,
      h.onlyRoot.destroyers, h.onlyRoot.unlinkers⟩
  · intro r z hz hr
    exact h.children r z (hsub r z hz) hr
  · intro z hz
    exact h.root z (hsub root z hz)
  · refine h.finite.subset ?_
    intro r hr
    obtain ⟨z, hz⟩ := Option.ne_none_iff_exists'.mp hr
    rw [Set.mem_ofPred_eq, hsub r z hz]
    exact Option.some_ne_none z

/-- The original process forks. -/
theorem TreeInv.fork (h : TreeInv program root t)
    (hx : t.procs root = some x) {i child : Nat} (hpc : x.pc = .forkLoop i)
    (hi : i < n) (hfree : t.procs child = none) (hy : y.pc = .forkLoop (i + 1)) :
    TreeInv program root { (t.set child { x with pc := .worker i }).set root y
      with created := t.created + 1 } := by
  have hne : child ≠ root := by
    rintro rfl
    rw [hx] at hfree
    cases hfree
  have hcreated : t.created ≤ i := by
    have hroot := h.root x hx
    rwa [Proc.IsRoot, hpc] at hroot
  have hchild := h.set (p := child) (y := { x with pc := .worker i })
    (fun _ => trivial) (fun hroot => absurd hroot hne)
  constructor
  · exact ⟨by show t.created + 1 ≤ n; omega, h.onlyRoot.killers,
      h.onlyRoot.destroyers, h.onlyRoot.unlinkers⟩
  · intro r z hz hr
    rw [Tree.set_of_ne _ _ hr] at hz
    exact hchild.children r z hz hr
  · intro z hz
    rw [Tree.set_self] at hz
    cases hz
    rw [Proc.IsRoot, hy]
    exact Nat.succ_le_succ hcreated
  · refine (hchild.finite.insert root).subset ?_
    intro r hr
    by_cases hroot : r = root
    · exact .inl hroot
    · refine .inr ?_
      rwa [Set.mem_ofPred_eq, Tree.set_of_ne _ _ hroot] at hr

/-- The original process cleans up. -/
theorem TreeInv.destroy (h : TreeInv program root t) :
    TreeInv program root { t with destroyers := t.destroyers ++ [root] } :=
  ⟨⟨h.onlyRoot.created, h.onlyRoot.killers,
    append_root h.onlyRoot.destroyers, h.onlyRoot.unlinkers⟩,
    h.children, h.root, h.finite⟩

theorem TreeInv.unlink (h : TreeInv program root t) :
    TreeInv program root { t with unlinkers := t.unlinkers ++ [root] } :=
  ⟨⟨h.onlyRoot.created, h.onlyRoot.killers, h.onlyRoot.destroyers,
    append_root h.onlyRoot.unlinkers⟩, h.children, h.root, h.finite⟩

/-- A step of the loop that forks. A child is in it only behind its end. -/
theorem TreeInv.forkStep (h : TreeInv program root t)
    (hx : t.procs p = some x) {i : Nat} (hpc : x.pc = .forkLoop i)
    {fork : Option Nat} (hrun : t.run program p x fork = some u) :
    TreeInv program root u := by
  have hchild : p ≠ root → program = .users ∧ n ≤ i ∧ ∀ j, x.pids j = 0 := by
    intro hp
    simpa only [Proc.IsChild, hpc] using h.children p x hx hp
  have hroot : p = root → t.created ≤ i := by
    rintro rfl
    simpa only [Proc.IsRoot, hpc] using h.root x hx
  simp only [Tree.run, hpc] at hrun
  split at hrun
  · rename_i hi
    have hp : p = root := by
      by_contra hp
      have hpast := (hchild hp).2.1
      omega
    cases fork with
    | none =>
        cases hrun
        refine h.set (fun hne => absurd hp hne) ?_
        intro _
        exact Nat.le_succ_of_le (hroot hp)
    | some child =>
        simp only [Option.ite_none_right_eq_some, Option.some.injEq] at hrun
        obtain ⟨⟨-, hfree⟩, rfl⟩ := hrun
        subst hp
        exact h.fork hx hpc hi hfree rfl
  · cases hrun
    refine h.set ?_ fun _ => trivial
    intro hp
    exact ⟨(hchild hp).1, (hchild hp).2.2⟩

/-- A step of the loop that kills. A child there has nobody to kill. -/
theorem TreeInv.killStep (h : TreeInv program root t)
    (hx : t.procs p = some x) {i : Nat} (hpc : x.pc = .killLoop i)
    {fork : Option Nat} (hrun : t.run program p x fork = some u) :
    TreeInv program root u := by
  have hchild : p ≠ root → program = .users ∧ ∀ j, x.pids j = 0 := by
    intro hp
    simpa only [Proc.IsChild, hpc] using h.children p x hx hp
  simp only [Tree.run, hpc] at hrun
  split at hrun
  · rename_i hi
    have hnext : TreeInv program root
        (t.set p { x with pc := .killLoop (i + 1) }) :=
      h.set hchild fun _ => trivial
    split at hrun
    · rename_i hpid
      cases hrun
      by_cases hp : p = root
      · subst hp
        exact hnext.kill _
      · exact absurd ((hchild hp).2 _) hpid
    · cases hrun
      exact hnext
  · cases hrun
    refine h.set ?_ ?_
    · intro hp
      rw [(hchild hp).1]
      exact ⟨rfl, (hchild hp).2⟩
    · intro _
      cases program with
      | printers => trivial
      | users => trivial

/-- **What one step of one process keeps**, unless it is the return of a
child's worker. -/
theorem TreeInv.run (h : TreeInv program root t) (hx : t.procs p = some x)
    (hreturn : ∀ i, p ≠ root → x.pc = .worker i → x.keepRunning = false →
      x.Harmless program i) {fork : Option Nat}
    (hrun : t.run program p x fork = some u) : TreeInv program root u := by
  have hchild := h.children p x hx
  have hroot : p = root → x.IsRoot t.created := by
    rintro rfl
    exact h.root x hx
  cases hpc : x.pc with
  | forkLoop i => exact h.forkStep hx hpc hrun
  | killLoop i => exact h.killStep hx hpc hrun
  | worker i =>
      simp only [Tree.run, hpc, Option.some.injEq] at hrun
      simp only [Proc.IsRoot, hpc] at hroot
      subst hrun
      refine h.set ?_ fun hp => (hroot hp).elim
      intro hp
      cases hk : x.keepRunning with
      | true => trivial
      | false => exact hreturn i hp hpc hk
  | work i =>
      simp only [Tree.run, hpc, Option.some.injEq] at hrun
      simp only [Proc.IsRoot, hpc] at hroot
      subst hrun
      exact h.set (fun _ => trivial) fun hp => (hroot hp).elim
  | spin =>
      simp only [Tree.run, hpc, Option.some.injEq] at hrun
      simp only [Proc.IsChild, hpc] at hchild
      subst hrun
      cases x.keepRunning with
      | true => exact h.set hchild fun _ => trivial
      | false => exact h.set hchild fun _ => trivial
  | cleanQueue =>
      simp only [Tree.run, hpc, Option.some.injEq] at hrun
      simp only [Proc.IsChild, hpc] at hchild
      have hp : p = root := not_not.mp hchild
      subst hp hrun
      have hnext := h.set (p := p) (y := { x with pc := .unlink })
        (fun hp => absurd rfl hp) fun _ => trivial
      exact hnext.destroy
  | unlink =>
      simp only [Tree.run, hpc, Option.some.injEq] at hrun
      simp only [Proc.IsChild, hpc] at hchild
      have hp : p = root := not_not.mp hchild
      subst hp hrun
      have hnext := h.set (p := p) (y := { x with pc := .ended })
        (fun hp => absurd rfl hp) fun _ => trivial
      exact hnext.unlink
  | ended =>
      simp only [Tree.run, hpc, reduceCtorEq] at hrun

theorem TreeInv.step (h : TreeInv program root t) {e : Nat × Happens}
    (hc : NoReturn program root t e) (hstep : t.step program e = some u) :
    TreeInv program root u := by
  obtain ⟨q, a⟩ := e
  obtain ⟨x, hx, hrun⟩ := Option.bind_eq_some_iff.mp hstep
  cases a with
  | run fork => exact h.run hx (fun i hq hpc hk => hc x i hx hq hpc hk) hrun
  | signal =>
      cases hrun
      refine h.set (h.children q x hx) ?_
      rintro rfl
      exact h.root x hx

theorem treeInv_of_reachable
    (h : (tree program n root).ReachableIf (NoReturn program root) t) :
    TreeInv program root t := by
  refine h.invariant ?_ fun _ _ _ h hc hstep => h.step hc hstep
  rintro t rfl
  exact .initial

end Invariant

/-! ## A child whose worker has returned -/

section Returned

variable {program : Program} {root p : Nat} {t : Tree n} {x : Proc n}

/-- Another process can come to do what is the original process's. -/
def GoesWrong (program : Program) (root : Nat) (t : Tree n) : Prop :=
  ∃ u, ((tree program n root).startingAt t).Reachable u ∧ ¬ OnlyRoot root u

theorem GoesWrong.of_reachable {u : Tree n}
    (h : ((tree program n root).startingAt t).Reachable u)
    (hu : GoesWrong program root u) : GoesWrong program root t := by
  obtain ⟨v, hv, hwrong⟩ := hu
  exact ⟨v, h.trans hv, hwrong⟩

/-- The next step of one process. -/
theorem reachable_of_run (hx : t.procs p = some x) {fork : Option Nat}
    {u : Tree n} (hrun : t.run program p x fork = some u) :
    ((tree program n root).startingAt t).Reachable u := by
  refine System.Reachable.step (e := (p, .run fork)) (.refl _ t) ?_
  show t.step program (p, .run fork) = some u
  rw [Tree.step, hx]
  exact hrun

/-- With forks that fail, the process comes to the loop that waits. -/
theorem reaches_spin {i : Nat} (hx : t.procs p = some x)
    (hpc : x.pc = .forkLoop i) :
    ∃ u, ((tree program n root).startingAt t).Reachable u ∧
      u.procs p = some { x with pc := .spin } := by
  induction hk : n - i generalizing t x i with
  | zero =>
      have hi : ¬ i < n := by omega
      have hrun : t.run program p x none =
          some (t.set p { x with pc := .spin }) := by
        simp only [Tree.run, hpc, dif_neg hi]
      exact ⟨_, reachable_of_run hx hrun, Tree.set_self ..⟩
  | succ k ih =>
      have hi : i < n := by omega
      have hrun : t.run program p x none =
          some (t.set p { x with pc := .forkLoop (i + 1) }) := by
        simp only [Tree.run, hpc, dif_pos hi]
      obtain ⟨u, hu, hproc⟩ :=
        ih (x := { x with pc := .forkLoop (i + 1) }) (i := i + 1)
          (t.set_self p _) rfl (by omega)
      exact ⟨u, (reachable_of_run hx hrun).trans hu, hproc⟩

/-- The loop that kills finds a recorded child. -/
theorem goesWrong_of_killLoop (hp : p ≠ root) {i : Nat}
    (hx : t.procs p = some x) (hpc : x.pc = .killLoop i) {j : Fin n}
    (hij : i ≤ j) (hj : x.pids j ≠ 0) : GoesWrong program root t := by
  induction hk : n - i generalizing t x i with
  | zero => omega
  | succ k ih =>
      have hi : i < n := by omega
      by_cases hpid : x.pids ⟨i, hi⟩ = 0
      · have hrun : t.run program p x none =
            some (t.set p { x with pc := .killLoop (i + 1) }) := by
          simp only [Tree.run, hpc, dif_pos hi, hpid, ne_eq, not_true_eq_false,
            if_false]
        have hne : i ≠ j := by
          rintro rfl
          exact hj hpid
        exact .of_reachable (reachable_of_run hx hrun)
          (ih (t.set_self p _) rfl (by omega) hj (by omega))
      · have hrun : t.run program p x none =
            some { t.set p { x with pc := .killLoop (i + 1) } with
              procs := Function.update
                (t.set p { x with pc := .killLoop (i + 1) }).procs
                (x.pids ⟨i, hi⟩) none
              killers := t.killers ++ [p] } := by
          simp only [Tree.run, hpc, dif_pos hi, ne_eq, hpid,
            not_false_eq_true, if_true]
        refine ⟨_, reachable_of_run hx hrun, fun hwrong => hp ?_⟩
        exact hwrong.killers p (by simp)

/-- Without recorded children a printer's child comes to the cleaning up. -/
theorem goesWrong_of_cleanQueue (hp : p ≠ root) {i : Nat}
    (hx : t.procs p = some x) (hpc : x.pc = .killLoop i)
    (hpids : ∀ j, x.pids j = 0) : GoesWrong .printers root t := by
  induction hk : n - i generalizing t x i with
  | zero =>
      have hi : ¬ i < n := by omega
      have hrun : t.run .printers p x none =
          some (t.set p { x with pc := .cleanQueue }) := by
        simp only [Tree.run, hpc, dif_neg hi]
      obtain ⟨u, hclean, hu⟩ : ∃ u, Tree.run .printers
            (t.set p { x with pc := .cleanQueue }) p
            { x with pc := .cleanQueue } none = some u ∧
          p ∈ u.destroyers := ⟨_, rfl, by simp⟩
      refine ⟨u, (reachable_of_run hx hrun).trans
        (reachable_of_run (t.set_self p _) hclean), fun hwrong => hp ?_⟩
      exact hwrong.destroyers p hu
  | succ k ih =>
      have hi : i < n := by omega
      have hrun : t.run .printers p x none =
          some (t.set p { x with pc := .killLoop (i + 1) }) := by
        simp only [Tree.run, hpc, dif_pos hi, hpids, ne_eq, not_true_eq_false,
          if_false]
      exact .of_reachable (reachable_of_run hx hrun)
        (ih (t.set_self p _) rfl hpids (by omega))

/-- From the loop that waits, where a child has nothing to wait for. -/
theorem goesWrong_of_spin (hp : p ≠ root) (hx : t.procs p = some x)
    (hpc : x.pc = .spin) (hk : x.keepRunning = false)
    (hleft : program = .printers ∨ ∃ j, x.pids j ≠ 0) :
    GoesWrong program root t := by
  have hrun : t.run program p x none =
      some (t.set p { x with pc := .killLoop 0 }) := by
    simp only [Tree.run, hpc, hk, Bool.false_eq_true, if_false]
  refine .of_reachable (reachable_of_run hx hrun) ?_
  by_cases hpids : ∃ j, x.pids j ≠ 0
  · obtain ⟨j, hj⟩ := hpids
    exact goesWrong_of_killLoop hp (t.set_self p _) rfl (Nat.zero_le j) hj
  · obtain rfl := hleft.resolve_right hpids
    refine goesWrong_of_cleanQueue hp (t.set_self p _) rfl ?_
    intro j
    exact not_not.mp fun hj => hpids ⟨j, hj⟩

theorem goesWrong_of_forkLoop (hp : p ≠ root) {i : Nat}
    (hx : t.procs p = some x) (hpc : x.pc = .forkLoop i)
    (hk : x.keepRunning = false)
    (hleft : program = .printers ∨ ∃ j, x.pids j ≠ 0) :
    GoesWrong program root t := by
  obtain ⟨u, hu, hspin⟩ : ∃ u,
      ((tree program n root).startingAt t).Reachable u ∧
        u.procs p = some { x with pc := .spin } := reaches_spin hx hpc
  exact .of_reachable hu (goesWrong_of_spin hp hspin rfl hk hleft)

/-- **A child whose worker returns goes wrong**, unless it has nothing left
to do. -/
theorem goesWrong_of_return (hp : p ≠ root) {i : Nat}
    (hx : t.procs p = some x) (hpc : x.pc = .forkLoop (i + 1))
    (hk : x.keepRunning = false) (hfinite : {q | t.procs q ≠ none}.Finite)
    (hharm : ¬ x.Harmless program i) : GoesWrong program root t := by
  by_cases hleft : program = .printers ∨ ∃ j, x.pids j ≠ 0
  · exact goesWrong_of_forkLoop hp hx hpc hk hleft
  · obtain ⟨husers, hpids⟩ := not_or.mp hleft
    have husers : program = .users := by
      cases program with
      | printers => exact absurd rfl husers
      | users => rfl
    have hpids : ∀ j, x.pids j = 0 := fun j => not_not.mp fun hj => hpids ⟨j, hj⟩
    have hi : i + 1 < n := by
      by_contra hi
      exact hharm ⟨husers, by omega, hpids⟩
    -- it forks a child of its own, and will kill that
    obtain ⟨child, hchild⟩ := (hfinite.insert 0).exists_notMem
    have hzero : child ≠ 0 := fun h => hchild (.inl h)
    have hfree : t.procs child = none :=
      not_not.mp fun h => hchild (.inr h)
    have hrun : t.run program p x (some child) = some
        { (t.set child { x with pc := .worker (i + 1) }).set p
          { x with
            pids := Function.update x.pids ⟨i + 1, hi⟩ child
            pc := .forkLoop (i + 2) } with created := t.created + 1 } := by
      simp only [Tree.run, hpc, dif_pos hi, hzero, hfree, ne_eq,
        not_false_eq_true, and_self, if_true]
    refine .of_reachable (reachable_of_run hx hrun)
      (goesWrong_of_forkLoop hp (Tree.set_self ..) rfl hk (.inr ?_))
    refine ⟨⟨i + 1, hi⟩, ?_⟩
    show Function.update x.pids ⟨i + 1, hi⟩ child ⟨i + 1, hi⟩ ≠ 0
    rw [Function.update_self]
    exact hzero

/-- **The original process alone forks, kills and cleans up in every run
in which no child's worker returns with something left to do, and every
such return can go wrong.** -/
theorem only_root_iff_no_return (program : Program) (n root : Nat) :
    (∀ t, (tree program n root).ReachableIf (NoReturn program root) t →
      OnlyRoot root t) ∧
    ∀ t e u, (tree program n root).ReachableIf (NoReturn program root) t →
      (tree program n root).step t e u → ¬ NoReturn program root t e →
        GoesWrong program root u := by
  constructor
  · intro t ht
    exact (treeInv_of_reachable ht).onlyRoot
  · rintro t ⟨p, a⟩ u ht hstep hreturn
    have hfinite := (treeInv_of_reachable ht).finite
    obtain ⟨x, hx, hrun⟩ := Option.bind_eq_some_iff.mp hstep
    cases a with
    | signal => exact absurd trivial hreturn
    | run fork =>
        simp only [NoReturn, not_forall] at hreturn
        obtain ⟨y, i, hy, hp, hpc, hk, hharm⟩ := hreturn
        obtain rfl := Option.some.inj (hy.symm.trans hx)
        simp only [Tree.run, hpc, hk, Bool.false_eq_true, if_false,
          Option.some.injEq] at hrun
        subst hrun
        refine goesWrong_of_return hp (t.set_self p _) rfl rfl ?_ hharm
        refine (hfinite.insert p).subset ?_
        intro q hq
        by_cases hqp : q = p
        · exact .inl hqp
        · refine .inr ?_
          rwa [Set.mem_ofPred_eq, Tree.set_of_ne _ _ hqp] at hq

end Returned

/-- A printer's child that gets a signal destroys the semaphores. -/
theorem child_destroys_semaphores : ∃ t : Tree 1,
    (tree .printers 1 1).Reachable t ∧ ¬ OnlyRoot 1 t := by
  obtain ⟨t, ht, hdestroyed⟩ := System.ReachableIf.exists_of_runLabels
    (S := tree .printers 1 1) (C := fun _ _ => True) (Tree.step .printers)
    (fun _ _ _ h => h)
    [(1, .run (some 2)), (2, .signal), (2, .run none), (2, .run none),
      (2, .run none), (2, .run none), (2, .run none), (2, .run none)]
    (p := fun t => t.destroyers.contains 2) (s := Tree.initial 1 1)
    (.init rfl) (by decide +kernel)
  refine ⟨t, ht, fun h => ?_⟩
  exact absurd (h.destroyers 2 (List.contains_iff_mem.mp hdestroyed))
    (by decide)

end Sysops.Cw08
