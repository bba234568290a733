import Sysops.Library.Runs
import Sysops.Cw06.Range

/-!
# `cw06/zad1`: `main` and its children

The parent with one pipe for each child, in any order of their steps. All
pipes are there before the first `fork`, and a child closes one read end
only: it holds the write ends of its own pipe and of those of the later
children until it ends. So a `read` comes back empty when the children up to
its own have ended, and `main` takes that for a result of zero.
-/

namespace Sysops.Cw06.Parent

variable {D : Type}

/-! ## The processes -/

/-- The arguments of `main`. -/
structure Args (D : Type) where
  dx : D
  nProcesses : Int

/-- Where `main` returns `EXIT_FAILURE`. -/
inductive Failure where
  | invalidNumberOfProcesses
  | invalidIntervalWidth
  | tooManyProcesses
  | pipe
  | calculation
  | read
  deriving DecidableEq, Repr

/-- Where the parent is: before the checks of its arguments, before a `pipe`,
a `fork` or a `read`, or ended. -/
inductive MainPc (D : Type) where
  | checks
  | pipe (i : Nat)
  | fork (i : Nat)
  | read (i : Nat) (sum : D)
  /-- The final result is printed, whatever becomes of the file with the
  times. -/
  | printed (sum : D)
  | failed (failure : Failure)

def exitSuccess : Int := 0
def exitFailure : Int := 1

/-- The exit code of a parent that has ended. -/
def MainPc.status : MainPc D → Option Int
  | .printed _ => some exitSuccess
  | .failed _ => some exitFailure
  | .checks | .pipe _ | .fork _ | .read _ _ => none

inductive ChildPc where
  | notForked
  /-- Before its `write`. -/
  | working
  /-- Behind its `write`. -/
  | written
  /-- Ended before its result was written. -/
  | lost
  /-- Ended behind its `write`. -/
  | exited
  deriving DecidableEq, Repr

/-- The process is there, with all its descriptors. -/
def ChildPc.Alive (c : ChildPc) : Prop :=
  c = .working ∨ c = .written

instance : DecidablePred ChildPc.Alive :=
  fun _ => inferInstanceAs (Decidable (_ ∨ _))

/-- The processes and the pipes, with a record of the results that `main`
received. -/
structure State (D : Type) where
  main : MainPc D
  child : Nat → ChildPc
  pipe : Nat → Option D
  received : Nat → Option D

def State.initial : State D where
  main := .checks
  child _ := .notForked
  pipe _ := none
  received _ := none

inductive Event where
  | checks
  /-- The call of `pipe`, and whether it succeeds. -/
  | pipe (ok : Bool)
  | fork (ok : Bool)
  /-- The `write` of a child; it ends if it does not succeed. -/
  | write (i : Nat) (ok : Bool)
  /-- A child ends, by itself or by a signal. -/
  | ends (i : Nat)
  /-- A `read` that does not report an error. -/
  | read
  | readFails
  deriving DecidableEq, Repr

section Code

variable [Add D] [Sub D] [Mul D] [Div D] [IntCast D] [LE D] [DecidableLE D]
  (ceil : D → Int) (args : Args D)

/-- The value of child `i`. -/
def part (i : Nat) : D :=
  calculatePart
    (partStart args.nProcesses (nIntervals ceil args.dx) args.dx i) args.dx
    (partSteps args.nProcesses (nIntervals ceil args.dx) i)

/-- The tests of `main` before the first pipe. -/
def checked : MainPc D :=
  if args.nProcesses ≤ 0 then .failed .invalidNumberOfProcesses
  else if args.dx ≤ ((0 : Int) : D) then .failed .invalidIntervalWidth
  else if nIntervals ceil args.dx < args.nProcesses then
    .failed .tooManyProcesses
  else .pipe 0

omit [Add D] [Sub D] [Mul D] [Div D] [IntCast D] [LE D] [DecidableLE D] in
/-- There is an iteration `i + 1`. -/
def More (i : Nat) : Prop := ((i + 1 : Nat) : Int) < args.nProcesses

instance (i : Nat) : Decidable (More args i) :=
  inferInstanceAs (Decidable (_ < _))

def afterPipe (i : Nat) : MainPc D :=
  if More args i then .pipe (i + 1) else .fork 0

def afterFork (i : Nat) : MainPc D :=
  if More args i then .fork (i + 1) else .read 0 ((0 : Int) : D)

def afterRead (i : Nat) (sum : D) : MainPc D :=
  if More args i then .read (i + 1) sum else .printed sum

namespace State

variable (s : State D)

def goto (pc : MainPc D) : State D :=
  { s with main := pc }

def become (i : Nat) (c : ChildPc) : State D :=
  { s with child := Function.update s.child i c }

/-- Somebody holds the write end of pipe `i`. -/
def Open (i : Nat) : Prop :=
  ∃ j, j < i + 1 ∧ (s.child j).Alive

instance (i : Nat) : Decidable (s.Open i) :=
  inferInstanceAs (Decidable (∃ j, j < i + 1 ∧ (s.child j).Alive))

/-- The child writes its result. -/
def put (i : Nat) : State D :=
  { s.become i .written with
    pipe := Function.update s.pipe i (some (part ceil args i)) }

/-- `main` reads the result of a child. -/
def take (i : Nat) (x : D) : State D :=
  { s with
    pipe := Function.update s.pipe i none
    received := Function.update s.received i (some x) }

def read (i : Nat) (sum : D) : Option (State D) :=
  match s.pipe i with
  | some x => some ((s.take i x).goto (afterRead args i (sum + x)))
  | none =>
      if s.Open i then none
      -- no data, and `result` keeps its initial value
      else some (s.goto (afterRead args i (sum + ((0 : Int) : D))))

def step : Event → Option (State D)
  | .checks =>
      match s.main with
      | .checks => some (s.goto (checked ceil args))
      | _ => none
  | .pipe ok =>
      match s.main with
      | .pipe i => some (s.goto (if ok then afterPipe args i else .failed .pipe))
      | _ => none
  | .fork ok =>
      match s.main with
      | .fork i =>
          if ok then some ((s.become i .working).goto (afterFork args i))
          else some (s.goto (.failed .calculation))
      | _ => none
  | .write i ok =>
      if s.child i = .working then
        some (if ok then s.put ceil args i else s.become i .lost)
      else none
  | .ends i =>
      match s.child i with
      | .working => some (s.become i .lost)
      | .written => some (s.become i .exited)
      | _ => none
  | .read =>
      match s.main with
      | .read i sum => s.read args i sum
      | _ => none
  | .readFails =>
      match s.main with
      | .read _ _ => some (s.goto (.failed .read))
      | _ => none

end State

/-- The parent and its children. -/
def family : System (State D) Event where
  init s := s = .initial
  step s e t := s.step ceil args e = some t

/-! ## What one step can do -/

inductive Stepped (s : State D) : Event → State D → Prop where
  | checks : s.main = .checks → Stepped s .checks (s.goto (checked ceil args))
  | pipe {i} : s.main = .pipe i →
      Stepped s (.pipe true) (s.goto (afterPipe args i))
  | fork {i} : s.main = .fork i → Stepped s (.fork true)
      ((s.become i .working).goto (afterFork args i))
  | write {i} : s.child i = .working →
      Stepped s (.write i true) (s.put ceil args i)
  | lost {i e} : s.child i = .working → e = .write i false ∨ e = .ends i →
      Stepped s e (s.become i .lost)
  | exits {i} : s.child i = .written →
      Stepped s (.ends i) (s.become i .exited)
  | receives {i sum x} : s.main = .read i sum → s.pipe i = some x →
      Stepped s .read ((s.take i x).goto (afterRead args i (sum + x)))
  | endOfFile {i sum} : s.main = .read i sum → s.pipe i = none →
      ¬ s.Open i →
      Stepped s .read (s.goto (afterRead args i (sum + ((0 : Int) : D))))
  | fails {e failure} : e ≠ .read → Stepped s e (s.goto (.failed failure))

variable {ceil args} {s t : State D} {e : Event}

theorem step_cases (h : s.step ceil args e = some t) :
    Stepped ceil args s e t := by
  cases e with
  | checks =>
      simp only [State.step] at h
      split at h
      · rename_i hmain
        obtain rfl := Option.some.inj h
        exact .checks hmain
      · cases h
  | pipe ok =>
      simp only [State.step] at h
      split at h
      · rename_i i hmain
        obtain rfl := Option.some.inj h
        cases ok with
        | true => exact .pipe hmain
        | false => exact .fails Event.noConfusion
      · cases h
  | fork ok =>
      simp only [State.step] at h
      split at h
      · rename_i i hmain
        cases ok with
        | true =>
            obtain rfl := Option.some.inj h
            exact .fork hmain
        | false =>
            obtain rfl := Option.some.inj h
            exact .fails Event.noConfusion
      · cases h
  | write i ok =>
      simp only [State.step] at h
      split at h
      · rename_i hchild
        obtain rfl := Option.some.inj h
        cases ok with
        | true => exact .write hchild
        | false => exact .lost hchild (.inl rfl)
      · cases h
  | ends i =>
      simp only [State.step] at h
      split at h
      · rename_i hchild
        obtain rfl := Option.some.inj h
        exact .lost hchild (.inr rfl)
      · rename_i hchild
        obtain rfl := Option.some.inj h
        exact .exits hchild
      · cases h
  | read =>
      simp only [State.step] at h
      split at h
      · rename_i i sum hmain
        simp only [State.read] at h
        split at h
        · rename_i x hpipe
          obtain rfl := Option.some.inj h
          exact .receives hmain hpipe
        · rename_i hpipe
          split at h
          · cases h
          · rename_i hopen
            obtain rfl := Option.some.inj h
            exact .endOfFile hmain hpipe hopen
      · cases h
  | readFails =>
      simp only [State.step] at h
      split at h
      · obtain rfl := Option.some.inj h
        exact .fails Event.noConfusion
      · cases h

end Code

/-! ## What holds in every run -/

section Runs

@[simp] theorem State.become_self (s : State D) (i : Nat) (c : ChildPc) :
    (s.become i c).child i = c := by
  simp only [State.become, Function.update_self]

theorem State.become_of_ne (s : State D) {i j : Nat} (c : ChildPc)
    (h : j ≠ i) : (s.become i c).child j = s.child j := by
  simp only [State.become, Function.update_of_ne h]

variable [Add D] [IntCast D] {args : Args D} {s t : State D}

/-- Where the value `x` of a child is: nowhere before its `write`, then in
its pipe or received. -/
def Placed (x : D) (pipe received : Option D) : ChildPc → Prop
  | .written | .exited =>
      (pipe = some x ∧ received = none) ∨ (pipe = none ∧ received = some x)
  | .notForked | .working | .lost => pipe = none ∧ received = none

/-- Child `j` has been read from: it was lost, or its value received. -/
def State.Settled (s : State D) (j : Nat) : Prop :=
  s.child j = .lost ∨ (s.received j).isSome

/-- What the first `i` reads gave. -/
def State.gathered (s : State D) (i : Nat) : List D :=
  (List.range i).map fun j => (s.received j).getD ((0 : Int) : D)

/-- Before the `fork` of child `i`. -/
structure Forking (args : Args D) (s : State D) (i : Nat) : Prop where
  bound : i < args.nProcesses.toNat
  forked : ∀ j < i, s.child j ≠ .notForked
  notForked : ∀ j, i ≤ j → s.child j = .notForked
  unread : ∀ j, s.received j = none

/-- Before the `read` from pipe `i`. -/
structure Reading (args : Args D) (s : State D) (i : Nat) (sum : D) :
    Prop where
  bound : i < args.nProcesses.toNat
  forked : ∀ j < args.nProcesses.toNat, s.child j ≠ .notForked
  settled : ∀ j < i, s.Settled j
  unread : ∀ j, i ≤ j → s.received j = none
  sum : sum = addResults (s.gathered i)

/-- Behind the last `read`. -/
structure Summed (args : Args D) (s : State D) (sum : D) : Prop where
  settled : ∀ j < args.nProcesses.toNat, s.Settled j
  sum : sum = addResults (s.gathered args.nProcesses.toNat)

/-- Before the first `fork`. -/
structure Untouched (s : State D) : Prop where
  notForked : ∀ j, s.child j = .notForked
  unread : ∀ j, s.received j = none

/-- What the parent has behind it where it is. -/
def Progress (args : Args D) (s : State D) : MainPc D → Prop
  | .checks => Untouched s
  | .pipe _ => 0 < args.nProcesses.toNat ∧ Untouched s
  | .fork i => Forking args s i
  | .read i sum => Reading args s i sum
  | .printed sum => Summed args s sum
  | .failed _ => True

variable {i : Nat} {sum x : D} {c : ChildPc} {pc : MainPc D}

/-- The parent looks at no pipe but that of its `read`. -/
theorem Progress.of_same (hp : Progress args s pc) (hchild : t.child = s.child)
    (hreceived : t.received = s.received) : Progress args t pc := by
  obtain ⟨main, child, pipe, received⟩ := t
  obtain rfl : child = s.child := hchild
  obtain rfl : received = s.received := hreceived
  cases pc with
  | checks => exact ⟨hp.notForked, hp.unread⟩
  | pipe i => exact ⟨hp.1, hp.2.notForked, hp.2.unread⟩
  | fork i => exact ⟨hp.bound, hp.forked, hp.notForked, hp.unread⟩
  | read i sum => exact ⟨hp.bound, hp.forked, hp.settled, hp.unread, hp.sum⟩
  | printed sum => exact ⟨hp.settled, hp.sum⟩
  | failed failure => trivial

/-- A child that was forked goes on. -/
theorem Progress.become (hp : Progress args s pc)
    (hforked : s.child i ≠ .notForked) (hc : c ≠ .notForked)
    (hlost : s.child i ≠ .lost) : Progress args (s.become i c) pc := by
  have hstays : ∀ j, s.child j = .notForked →
      (s.become i c).child j = .notForked := by
    intro j hj
    have hne : j ≠ i := by
      rintro rfl
      exact hforked hj
    rwa [State.become_of_ne s c hne]
  have hgoes : ∀ j, s.child j ≠ .notForked →
      (s.become i c).child j ≠ .notForked := by
    intro j hj
    by_cases hji : j = i
    · rwa [hji, State.become_self]
    · rwa [State.become_of_ne s c hji]
  have hsettled : ∀ j, s.Settled j → (s.become i c).Settled j := by
    rintro j (hj | hj)
    · have hne : j ≠ i := by
        rintro rfl
        exact hlost hj
      exact .inl ((State.become_of_ne s c hne).trans hj)
    · exact .inr hj
  cases pc with
  | checks => exact ⟨fun j => hstays j (hp.notForked j), hp.unread⟩
  | pipe k => exact ⟨hp.1, fun j => hstays j (hp.2.notForked j), hp.2.unread⟩
  | fork k =>
      exact ⟨hp.bound, fun j hj => hgoes j (hp.forked j hj),
        fun j hj => hstays j (hp.notForked j hj), hp.unread⟩
  | read k sum =>
      exact ⟨hp.bound, fun j hj => hgoes j (hp.forked j hj),
        fun j hj => hsettled j (hp.settled j hj), hp.unread, hp.sum⟩
  | printed sum => exact ⟨fun j hj => hsettled j (hp.settled j hj), hp.sum⟩
  | failed failure => trivial

theorem Untouched.afterPipe (hs : Untouched s)
    (hpos : 0 < args.nProcesses.toNat) :
    Progress args s (afterPipe args i) := by
  rw [Parent.afterPipe]
  split
  · exact ⟨hpos, hs⟩
  · exact ⟨hpos, fun j hj => absurd hj (Nat.not_lt_zero j),
      fun j _ => hs.notForked j, hs.unread⟩

omit [Add D] [IntCast D] in
theorem Forking.forked_become (hs : Forking args s i) :
    ∀ j < i + 1, (s.become i .working).child j ≠ .notForked := by
  intro j hj
  by_cases hji : j = i
  · rw [hji, State.become_self]
    exact ChildPc.noConfusion
  · rw [State.become_of_ne s _ hji]
    exact hs.forked j (by omega)

theorem Forking.afterFork (hs : Forking args s i) :
    Progress args (s.become i .working) (afterFork args i) := by
  have hforked := hs.forked_become
  have hbound := hs.bound
  rw [Parent.afterFork]
  split
  · rename_i hmore
    rw [More] at hmore
    refine ⟨by omega, hforked, fun j hj => ?_, hs.unread⟩
    rw [State.become_of_ne s _ (by omega)]
    exact hs.notForked j (by omega)
  · rename_i hlast
    rw [More] at hlast
    exact ⟨by omega, fun j hj => hforked j (by omega),
      fun j hj => absurd hj (Nat.not_lt_zero j), fun j _ => hs.unread j, rfl⟩

theorem gathered_succ (hsame : ∀ j < i, t.received j = s.received j) :
    addResults (t.gathered (i + 1)) =
      addResults (s.gathered i) + (t.received i).getD ((0 : Int) : D) := by
  have hfirst : t.gathered i = s.gathered i := by
    refine List.map_congr_left fun j hj => ?_
    rw [hsame j (List.mem_range.mp hj)]
  rw [← hfirst, State.gathered, State.gathered, List.range_succ,
    List.map_append, addResults, List.foldl_append]
  rfl

/-- A `read` that lost nothing but what was lost before. -/
theorem Reading.afterRead (hs : Reading args s i sum)
    (hchild : t.child = s.child)
    (hsame : ∀ j, j ≠ i → t.received j = s.received j)
    (hsettled : t.Settled i) :
    Progress args t
      (afterRead args i (sum + (t.received i).getD ((0 : Int) : D))) := by
  have hbound := hs.bound
  have hall : ∀ j < i + 1, t.Settled j := by
    intro j hj
    by_cases hji : j = i
    · exact hji ▸ hsettled
    · rw [State.Settled, hchild, hsame j hji]
      exact hs.settled j (by omega)
  have hsum : sum + (t.received i).getD ((0 : Int) : D) =
      addResults (t.gathered (i + 1)) := by
    rw [gathered_succ fun j hj => hsame j (Nat.ne_of_lt hj), ← hs.sum]
  rw [Parent.afterRead]
  split
  · rename_i hmore
    rw [More] at hmore
    refine ⟨by omega, ?_, hall, fun j hj => ?_, hsum⟩
    · rw [hchild]
      exact hs.forked
    · rw [hsame j (by omega)]
      exact hs.unread j (by omega)
  · rename_i hlast
    rw [More] at hlast
    have hlength : args.nProcesses.toNat = i + 1 := by omega
    constructor <;> rw [hlength]
    · exact hall
    · exact hsum

end Runs

section Steps

variable [Add D] [Sub D] [Mul D] [Div D] [IntCast D]
  {ceil : D → Int} {args : Args D} {s t : State D}

/-- What holds in every run. -/
structure Books (ceil : D → Int) (args : Args D) (s : State D) : Prop where
  placed : ∀ j, Placed (part ceil args j) (s.pipe j) (s.received j) (s.child j)
  progress : Progress args s s.main

theorem books_initial : Books ceil args .initial := by
  constructor
  · exact fun j => ⟨rfl, rfl⟩
  · exact ⟨fun j => rfl, fun j => rfl⟩

section Keep

variable {i : Nat} {sum x : D} {c : ChildPc} {pc : MainPc D}

theorem Books.goto (hs : Books ceil args s) (hp : Progress args s pc) :
    Books ceil args (s.goto pc) :=
  ⟨hs.placed, hp.of_same rfl rfl⟩

theorem Books.placed_become (hs : Books ceil args s)
    (hi : Placed (part ceil args i) (s.pipe i) (s.received i) c) (j : Nat) :
    Placed (part ceil args j) (s.pipe j) (s.received j)
      ((s.become i c).child j) := by
  by_cases hji : j = i
  · subst hji
    rwa [State.become_self]
  · rw [State.become_of_ne s c hji]
    exact hs.placed j

/-- A child that was forked goes on, and its value stays where it is. -/
theorem Books.become {b : ChildPc} (hs : Books ceil args s)
    (hi : s.child i = b) (hforked : b ≠ .notForked) (hlost : b ≠ .lost)
    (hc : c ≠ .notForked)
    (hkeeps : ∀ pipe received, Placed (part ceil args i) pipe received b →
      Placed (part ceil args i) pipe received c) :
    Books ceil args (s.become i c) := by
  subst hi
  exact ⟨hs.placed_become (hkeeps _ _ (hs.placed i)),
    hs.progress.become hforked hc hlost⟩

theorem Books.put (hs : Books ceil args s) (hi : s.child i = .working) :
    Books ceil args (s.put ceil args i) := by
  have hnone : s.received i = none := by
    have hplaced := hs.placed i
    rw [hi] at hplaced
    exact hplaced.2
  constructor
  · intro j
    show Placed (part ceil args j)
      (Function.update s.pipe i (some (part ceil args i)) j) (s.received j)
      ((s.become i .written).child j)
    by_cases hji : j = i
    · subst hji
      rw [State.become_self, Function.update_self]
      exact .inl ⟨rfl, hnone⟩
    · rw [State.become_of_ne s _ hji, Function.update_of_ne hji]
      exact hs.placed j
  · have hbecome : Progress args (s.become i .written) s.main :=
      hs.progress.become (by rw [hi]; decide) (by decide) (by rw [hi]; decide)
    exact hbecome.of_same rfl rfl

/-- What is in a pipe is the value of its child. -/
theorem Books.value_of_pipe (hs : Books ceil args s) (hx : s.pipe i = some x) :
    x = part ceil args i ∧ (s.child i = .written ∨ s.child i = .exited) := by
  have hplaced := hs.placed i
  rw [hx] at hplaced
  generalize s.child i = c at hplaced ⊢
  cases c with
  | notForked | working | lost => exact absurd hplaced.1 (by simp)
  | written | exited =>
      rcases hplaced with ⟨hpipe, -⟩ | ⟨hpipe, -⟩
      · exact ⟨Option.some.inj hpipe, by simp⟩
      · exact absurd hpipe (by simp)

theorem Books.placed_take (hs : Books ceil args s) (hx : s.pipe i = some x)
    (j : Nat) : Placed (part ceil args j) ((s.take i x).pipe j)
      ((s.take i x).received j) ((s.take i x).child j) := by
  show Placed (part ceil args j) (Function.update s.pipe i none j)
    (Function.update s.received i (some x) j) (s.child j)
  by_cases hji : j = i
  · subst hji
    obtain ⟨rfl, hchild⟩ := hs.value_of_pipe hx
    rw [Function.update_self, Function.update_self]
    rcases hchild with hchild | hchild <;> rw [hchild] <;>
      exact .inr ⟨rfl, rfl⟩
  · rw [Function.update_of_ne hji, Function.update_of_ne hji]
    exact hs.placed j

/-- At the end of file the child was lost, unless its value was received. -/
theorem Books.settled_of_not_open (hs : Books ceil args s)
    (hpipe : s.pipe i = none) (hopen : ¬ s.Open i)
    (hforked : s.child i ≠ .notForked) : s.Settled i := by
  have hdead : ¬ (s.child i).Alive :=
    fun halive => hopen ⟨i, Nat.lt_succ_self i, halive⟩
  have hplaced := hs.placed i
  rw [State.Settled]
  rw [hpipe] at hplaced
  generalize s.child i = c at hplaced hforked hdead ⊢
  cases c with
  | notForked => exact absurd rfl hforked
  | working => exact absurd (.inl rfl) hdead
  | written => exact absurd (.inr rfl) hdead
  | lost => exact .inl rfl
  | exited =>
      rcases hplaced with ⟨hfull, -⟩ | ⟨-, hreceived⟩
      · exact absurd hfull (by simp)
      · exact .inr (by rw [hreceived]; rfl)

end Keep

/-! ## What a printed result contains -/

/-- The `read` from the last pipe finds no child that ended before its result
was written. -/
def LastFindsAll (args : Args D) (child : Nat → ChildPc) : MainPc D → Prop
  | .read i _ => ¬ More args i → ∀ j < args.nProcesses.toNat, child j ≠ .lost
  | _ => True

instance (args : Args D) (child : Nat → ChildPc) :
    DecidablePred (LastFindsAll args child)
  | .read _ _ => inferInstanceAs (Decidable (_ → _))
  | .checks | .pipe _ | .fork _ | .printed _ | .failed _ =>
      inferInstanceAs (Decidable True)

def NoneLost (args : Args D) (s : State D) : Event → Prop
  | .read => LastFindsAll args s.child s.main
  | _ => True

instance (args : Args D) (s : State D) : DecidablePred (NoneLost args s)
  | .read => inferInstanceAs (Decidable (LastFindsAll args s.child s.main))
  | .checks | .pipe _ | .fork _ | .write _ _ | .ends _ | .readFails =>
      inferInstanceAs (Decidable True)

section Printed

variable {sum : D}

/-- A parent that has ended received the value of every child, or reports
failure. -/
def Reports (ceil : D → Int) (args : Args D) (s : State D) : Prop :=
  ∀ status, s.main.status = some status → status = exitFailure ∨
    ∀ j < args.nProcesses.toNat, s.received j = some (part ceil args j)

theorem reports_of_status
    (h : s.main.status = none ∨ s.main.status = some exitFailure) :
    Reports ceil args s := by
  intro status hstatus
  rw [hstatus] at h
  rcases h with hnone | hfailure
  · cases hnone
  · exact .inl (Option.some.inj hfailure)

theorem Books.received_iff {j : Nat} (hs : Books ceil args s)
    (hsettled : s.Settled j) :
    s.received j = some (part ceil args j) ↔ s.child j ≠ .lost := by
  have hplaced := hs.placed j
  rw [State.Settled] at hsettled
  generalize s.child j = c at hplaced hsettled ⊢
  cases c with
  | notForked | working =>
      rw [hplaced.2] at hsettled
      exact absurd hsettled (by simp)
  | lost =>
      rw [hplaced.2]
      simp
  | written | exited =>
      rcases hplaced with ⟨-, hnone⟩ | ⟨-, hreceived⟩
      · rw [hnone] at hsettled
        exact absurd hsettled (by simp)
      · exact iff_of_true hreceived (by decide)

theorem Books.reports_iff (hs : Books ceil args s)
    (hmain : s.main = .printed sum) : Reports ceil args s ↔
      ∀ j < args.nProcesses.toNat, s.child j ≠ .lost := by
  have hsummed := hs.progress
  rw [hmain] at hsummed
  have hstatus : s.main.status = some exitSuccess := by rw [hmain]; rfl
  constructor
  · intro hreports j hj
    rcases hreports exitSuccess hstatus with heq | hall
    · exact absurd heq (by decide)
    · exact (hs.received_iff (hsummed.settled j hj)).mp (hall j hj)
  · intro hall status _
    exact .inr fun j hj =>
      (hs.received_iff (hsummed.settled j hj)).mpr (hall j hj)

/-- The `read` that the parent goes on from. -/
theorem reports_read_iff {i : Nat} {sum sum' : D} (hs : Books ceil args t)
    (hmain : s.main = .read i sum) (hafter : t.main = afterRead args i sum')
    (hchild : t.child = s.child) :
    Reports ceil args t ↔ NoneLost args s .read := by
  simp only [NoneLost, hmain, LastFindsAll]
  by_cases hmore : More args i
  · rw [afterRead, if_pos hmore] at hafter
    refine iff_of_true (reports_of_status ?_) fun hlast => absurd hmore hlast
    rw [hafter]
    exact .inl rfl
  · rw [afterRead, if_neg hmore] at hafter
    rw [hs.reports_iff hafter, hchild]
    exact ⟨fun hall _ => hall, fun hall => hall hmore⟩

/-- What is printed: the values of the children that were not lost. -/
theorem Books.printed_sum (hs : Books ceil args s)
    (hmain : s.main = .printed sum) :
    sum = addResults ((List.range args.nProcesses.toNat).map fun j =>
      if s.child j = .lost then ((0 : Int) : D) else part ceil args j) := by
  have hsummed := hs.progress
  rw [hmain] at hsummed
  refine hsummed.sum.trans (congrArg addResults ?_)
  refine List.map_congr_left fun j hj => ?_
  have hsettled := hsummed.settled j (List.mem_range.mp hj)
  split
  · rename_i hlost
    have hplaced := hs.placed j
    rw [hlost] at hplaced
    rw [hplaced.2]
    rfl
  · rename_i hkept
    rw [(hs.received_iff hsettled).mpr hkept]
    rfl

end Printed

/-! ## The steps -/

variable [LE D] [DecidableLE D] {e : Event}

/-- What the checks of `main` let through. -/
structure Admitted (ceil : D → Int) (args : Args D) : Prop where
  processes : 0 < args.nProcesses
  width : ¬ args.dx ≤ ((0 : Int) : D)
  intervals : args.nProcesses ≤ nIntervals ceil args.dx

omit [Add D] [Mul D] in
theorem checked_cases (ceil : D → Int) (args : Args D) :
    (∃ failure, checked ceil args = .failed failure) ∨
      (checked ceil args = .pipe 0 ∧ Admitted ceil args) := by
  rw [checked]
  split
  · exact .inl ⟨_, rfl⟩
  · rename_i hprocesses
    split
    · exact .inl ⟨_, rfl⟩
    · rename_i hwidth
      split
      · exact .inl ⟨_, rfl⟩
      · rename_i hintervals
        exact .inr ⟨rfl, by omega, hwidth, by omega⟩

omit [Mul D] in
theorem Untouched.checked (hs : Untouched s) :
    Progress args s (checked ceil args) := by
  rcases checked_cases ceil args with ⟨failure, heq⟩ | ⟨heq, hadmitted⟩
  · rw [heq]
    trivial
  · have hprocesses := hadmitted.processes
    rw [heq]
    exact ⟨by omega, hs⟩

theorem Books.step (hs : Books ceil args s)
    (h : s.step ceil args e = some t) : Books ceil args t := by
  have hprogress := hs.progress
  cases step_cases h with
  | checks hmain =>
      rw [hmain] at hprogress
      exact hs.goto (Untouched.checked hprogress)
  | pipe hmain =>
      rw [hmain] at hprogress
      exact hs.goto (hprogress.2.afterPipe hprogress.1)
  | @fork i hmain =>
      rw [hmain] at hprogress
      have hplaced := hs.placed i
      rw [hprogress.notForked i (Nat.le_refl i)] at hplaced
      exact ⟨hs.placed_become hplaced,
        (Forking.afterFork hprogress).of_same rfl rfl⟩
  | write hchild => exact hs.put hchild
  | lost hchild | exits hchild =>
      exact hs.become hchild (by decide) (by decide) (by decide)
        fun _ _ h => h
  | @receives i sum x hmain hpipe =>
      rw [hmain] at hprogress
      have hreceived : (s.take i x).received i = some x :=
        Function.update_self i _ s.received
      have hafter := Reading.afterRead (t := s.take i x) hprogress rfl
        (fun j hji => Function.update_of_ne hji _ _)
        (.inr (by rw [hreceived]; rfl))
      rw [hreceived] at hafter
      exact ⟨hs.placed_take hpipe, hafter.of_same rfl rfl⟩
  | @endOfFile i sum hmain hpipe hopen =>
      rw [hmain] at hprogress
      have hafter := Reading.afterRead (t := s) hprogress rfl
        (fun j _ => rfl) (hs.settled_of_not_open hpipe hopen
          (hprogress.forked i hprogress.bound))
      rw [hprogress.unread i (Nat.le_refl i)] at hafter
      exact hs.goto hafter
  | fails => exact hs.goto trivial

theorem books_of_reachable (h : (family ceil args).Reachable s) :
    Books ceil args s := by
  refine h.invariant (I := Books ceil args) ?_ ?_
  · rintro s rfl
    exact books_initial
  · exact fun s e t hs _ hst => hs.step hst

omit [Add D] [Mul D] in
theorem status_checked : (checked ceil args).status = none ∨
    (checked ceil args).status = some exitFailure := by
  rcases checked_cases ceil args with ⟨failure, heq⟩ | ⟨heq, -⟩
  · exact .inr (by rw [heq]; rfl)
  · exact .inl (by rw [heq]; rfl)

theorem reports_step_iff (hs : Books ceil args s)
    (hreports : Reports ceil args s) (h : s.step ceil args e = some t) :
    Reports ceil args t ↔ NoneLost args s e := by
  have ht := hs.step h
  cases step_cases h with
  | checks =>
      exact iff_of_true (reports_of_status status_checked) trivial
  | pipe =>
      refine iff_of_true (reports_of_status (.inl ?_)) trivial
      show (afterPipe args _).status = none
      rw [afterPipe]
      split <;> rfl
  | fork =>
      refine iff_of_true (reports_of_status (.inl ?_)) trivial
      show (afterFork args _).status = none
      rw [afterFork]
      split <;> rfl
  | write | exits => exact iff_of_true hreports trivial
  | lost _ he =>
      rcases he with rfl | rfl <;> exact iff_of_true hreports trivial
  | receives hmain => exact reports_read_iff ht hmain rfl rfl
  | endOfFile hmain => exact reports_read_iff ht hmain rfl rfl
  | fails he =>
      refine iff_of_true (reports_of_status (.inr rfl)) ?_
      cases e with
      | read => exact absurd rfl he
      | _ => trivial

/-- **A printed result contains every part exactly if no child ended before
its result was written**, when the last pipe is read, for every order of the
steps. -/
theorem printed_complete_iff {tr : List (Event × State D)}
    (h : (family ceil args).Run .initial tr) :
    (∀ x ∈ tr, Reports ceil args x.2) ↔
      System.Meets (NoneLost args) .initial tr := by
  refine h.forall_iff_meets (J := Books ceil args) ?_ ?_ books_initial ?_
  · exact fun s e t hs hst => hs.step hst
  · exact fun s e t hs hreports hst => reports_step_iff hs hreports hst
  · exact reports_of_status (.inl rfl)

/-! ## The integral -/

/-- The checks are behind every parent that goes on. -/
def BehindChecks (ceil : D → Int) (args : Args D) : MainPc D → Prop
  | .checks | .failed _ => True
  | _ => Admitted ceil args

omit [Add D] [Mul D] in
theorem behindChecks_checked :
    BehindChecks ceil args (checked ceil args) := by
  rcases checked_cases ceil args with ⟨failure, heq⟩ | ⟨heq, hadmitted⟩
  · rw [heq]
    trivial
  · rw [heq]
    exact hadmitted

theorem behindChecks_step (hs : BehindChecks ceil args s.main)
    (h : s.step ceil args e = some t) : BehindChecks ceil args t.main := by
  cases step_cases h with
  | checks => exact behindChecks_checked
  | pipe hmain =>
      rw [hmain] at hs
      show BehindChecks ceil args (afterPipe args _)
      rw [afterPipe]
      split <;> exact hs
  | fork hmain =>
      rw [hmain] at hs
      show BehindChecks ceil args (afterFork args _)
      rw [afterFork]
      split <;> exact hs
  | receives hmain | endOfFile hmain =>
      rw [hmain] at hs
      show BehindChecks ceil args (afterRead args _ _)
      rw [afterRead]
      split <;> exact hs
  | write | lost | exits => exact hs
  | fails => trivial

theorem admitted_of_printed {sum : D} (h : (family ceil args).Reachable s)
    (hmain : s.main = .printed sum) : Admitted ceil args := by
  have hbehind : BehindChecks ceil args s.main := by
    refine h.invariant (I := fun s => BehindChecks ceil args s.main) ?_ ?_
    · rintro s rfl
      trivial
    · exact fun s e t hs _ hst => behindChecks_step hs hst
  rwa [hmain] at hbehind

end Steps

/-- Without lost children, and with a width that divides the range, `main`
prints what `integrate` computes. -/
theorem printed_integral {args : Args ℚ} {s : State ℚ} {sum : ℚ}
    (h : (family Int.ceil args).Reachable s) (hmain : s.main = .printed sum)
    (hnone : ∀ j < args.nProcesses.toNat, s.child j ≠ .lost) :
    sum = calculatePart rangeStart args.dx (nIntervals Int.ceil args.dx) ∧
      ((∃ k : Nat, k * args.dx = rangeStop - rangeStart) → sum =
        integrate ⟨rangeStart, rangeStop, nIntervals Int.ceil args.dx⟩) := by
  obtain ⟨hprocesses, hwidth, hintervals⟩ := admitted_of_printed h hmain
  have hdx : 0 < args.dx := by simpa using hwidth
  obtain ⟨p, hp⟩ := Int.eq_ofNat_of_zero_le (Int.le_of_lt hprocesses)
  obtain ⟨n, hn⟩ := Int.eq_ofNat_of_zero_le
    (show 0 ≤ nIntervals Int.ceil args.dx by omega)
  have hparts : sum =
      addResults (distributeCalculations args.nProcesses n args.dx) := by
    rw [(books_of_reachable h).printed_sum hmain, distributeCalculations]
    refine congrArg addResults (List.map_congr_left fun j hj => ?_)
    rw [if_neg (hnone j (List.mem_range.mp hj)), part, hn]
  rw [hp] at hparts
  have hppos : 0 < p := by omega
  have hnpos : 0 < n := by omega
  rw [hn]
  refine ⟨hparts.trans (addResults_eq hppos args.dx), fun hdivides => ?_⟩
  exact hparts.trans ((sum_iff hppos hnpos hdx hn).mpr
    ((divides_iff hdx hn).mp hdivides))

/-! ## Two runs -/

/-- Two strips, for some processes. -/
def halves (nProcesses : Int) : Args ℚ := ⟨1 / 2, nProcesses⟩

/-- Two children that write in the other order. -/
theorem printed_complete_two : ∃ tr,
    (family Int.ceil (halves 2)).Run (State.initial (D := ℚ)) tr ∧
      tr.map Prod.fst = [.checks, .pipe true, .pipe true, .fork true,
        .fork true, .write 1 true, .ends 1, .write 0 true, .read, .read] ∧
      ∀ x ∈ tr, Reports Int.ceil (halves 2) x.2 := by
  obtain ⟨tr, hrun, hmeets, hlabels⟩ := System.Run.exists_of_runLabels
    (S := family Int.ceil (halves 2)) (C := NoneLost (halves 2))
    (State.step Int.ceil (halves 2)) (fun _ _ _ h => h)
    [.checks, .pipe true, .pipe true, .fork true, .fork true,
      .write 1 true, .ends 1, .write 0 true, .read, .read]
    (s := State.initial) (by decide +kernel)
  exact ⟨tr, hrun, hlabels, (printed_complete_iff hrun).mpr hmeets⟩

/-- The only child is killed, and zero is printed. -/
theorem printed_without_part : ¬ ∀ (args : Args ℚ) (s : State ℚ),
    (family Int.ceil args).Reachable s → Reports Int.ceil args s := by
  intro hclaim
  obtain ⟨s, hs, hended⟩ := System.ReachableIf.exists_of_runLabels
    (S := family Int.ceil (halves 1)) (C := fun _ _ => True)
    (State.step Int.ceil (halves 1)) (fun _ _ _ h => h)
    [.checks, .pipe true, .fork true, .ends 0, .read]
    (p := fun s => s.main.status == some exitSuccess &&
      (s.received 0).isNone)
    (s := State.initial (D := ℚ)) (.init rfl) (by decide +kernel)
  simp only [Bool.and_eq_true, beq_iff_eq, Option.isNone_iff_eq_none] at hended
  rcases hclaim _ s hs exitSuccess hended.1 with heq | hall
  · exact absurd heq (by decide)
  · have hreceived := hall 0 (by decide)
    rw [hended.2] at hreceived
    cases hreceived

end Sysops.Cw06.Parent
