import Sysops.Library.Ending

/-!
# `cw04/zad1`: the parent waits for its children

The parent forks children that write one line each and exit, and calls
`wait` once for each of them, also when a `fork` has failed. `wait` takes
whatever child has ended, and the children may end in any order, by a signal
as well.
-/

namespace Sysops.Cw04

/-! ## The processes -/

/-- A child before its line and its `exit`, ended, or waited for. `written`
tells whether its line is out; a child that is killed may have none. -/
inductive ChildPc where
  | running
  | zombie (written : Bool)
  | reaped (written : Bool)
  deriving DecidableEq

def exitSuccess : Int := 0
def exitFailure : Int := 1

/-- Where the parent is: before a `fork`, before a `wait` in its last loop or
in the one behind a `fork` that failed, before its last line, or ended. -/
inductive MainPc where
  | fork (i : Nat)
  | wait (i : Nat)
  | waitFailed (j i : Nat)
  | print
  | ended (status : Int)
  deriving DecidableEq

inductive Line where
  | child (i : Nat)
  | forkFailed
  | numberOfProcesses (n : Int)
  deriving DecidableEq

/-- The children are in the order of their forks. -/
structure State where
  main : MainPc
  children : List ChildPc
  out : List Line

inductive Event where
  | fork (ok : Bool)
  /-- The child that `wait` returns, or none when it fails. -/
  | wait (child : Option Nat)
  | print
  | exits (i : Nat)
  | killed (i : Nat)
  deriving DecidableEq

/-! ## The program -/

/-- There is no child that could be waited for. -/
def State.Childless (s : State) : Prop :=
  ∀ c ∈ s.children, c = .reaped true ∨ c = .reaped false

instance (s : State) : Decidable s.Childless :=
  inferInstanceAs (Decidable (∀ c ∈ s.children, _))

/-- The test of `for (long i = 0; i < n_procs; i++)` around the `wait`. -/
def toWait (nProcs : Int) (i : Nat) : MainPc :=
  if (i : Int) < nProcs then .wait i else .print

/-- The test of the loop around the `fork`. -/
def toFork (nProcs : Int) (i : Nat) : MainPc :=
  if (i : Int) < nProcs then .fork i else toWait nProcs 0

/-- The test of the loop behind a `fork` that failed. -/
def toWaitFailed (j i : Nat) : MainPc :=
  if j < i then .waitFailed j i else .ended exitFailure

namespace State

variable (nProcs : Int) (s : State)

/-- What `wait` does to the children. -/
def reap : Option Nat → Option State
  | some c =>
      match s.children[c]? with
      | some (.zombie written) =>
          some { s with children := s.children.set c (.reaped written) }
      | _ => none
  | none => if s.Childless then some s else none

def step : Event → Option State
  | .fork ok =>
      match s.main with
      | .fork i =>
          if ok then
            some { s with
              main := toFork nProcs (i + 1)
              children := s.children ++ [.running] }
          else
            some { s with
              main := toWaitFailed 0 i
              out := s.out ++ [.forkFailed] }
      | _ => none
  | .wait c =>
      match s.main with
      | .wait i =>
          (s.reap c).map fun t => { t with main := toWait nProcs (i + 1) }
      | .waitFailed j i =>
          (s.reap c).map fun t => { t with main := toWaitFailed (j + 1) i }
      | _ => none
  | .print =>
      match s.main with
      | .print => some { s with
          main := .ended exitSuccess
          out := s.out ++ [.numberOfProcesses nProcs] }
      | _ => none
  | .exits i =>
      if s.children[i]? = some .running then
        some { s with
          children := s.children.set i (.zombie true)
          out := s.out ++ [.child i] }
      else none
  | .killed i =>
      if s.children[i]? = some .running then
        some { s with children := s.children.set i (.zombie false) }
      else none

end State

/-- Behind the checks of the arguments. -/
def initial (nProcs : Int) : State where
  main := toFork nProcs 0
  children := []
  out := []

/-- The parent and its children, for a given `n_procs`. -/
def forks (nProcs : Int) : System State Event where
  init s := s = initial nProcs
  step s e t := s.step nProcs e = some t

/-! ## What a step can do -/

variable {nProcs : Int} {s t : State} {e : Event}

/-- The two loops around a `wait`: where they are, and where they are after
it. -/
inductive Waits (nProcs : Int) : MainPc → MainPc → Prop where
  | last (i : Nat) : Waits nProcs (.wait i) (toWait nProcs (i + 1))
  | failed (j i : Nat) :
      Waits nProcs (.waitFailed j i) (toWaitFailed (j + 1) i)

inductive Moves (nProcs : Int) (s : State) : Event → State → Prop where
  | fork {i : Nat} (hmain : s.main = .fork i) :
      Moves nProcs s (.fork true) { s with
        main := toFork nProcs (i + 1)
        children := s.children ++ [.running] }
  | forkFails {i : Nat} (hmain : s.main = .fork i) :
      Moves nProcs s (.fork false) { s with
        main := toWaitFailed 0 i
        out := s.out ++ [.forkFailed] }
  | reaps {pc : MainPc} {c : Nat} {written : Bool}
      (hwaits : Waits nProcs s.main pc)
      (hchild : s.children[c]? = some (.zombie written)) :
      Moves nProcs s (.wait (some c)) { s with
        main := pc
        children := s.children.set c (.reaped written) }
  | noChild {pc : MainPc} (hwaits : Waits nProcs s.main pc)
      (hchildless : s.Childless) :
      Moves nProcs s (.wait none) { s with main := pc }
  | print (hmain : s.main = .print) :
      Moves nProcs s .print { s with
        main := .ended exitSuccess
        out := s.out ++ [.numberOfProcesses nProcs] }
  | exits {i : Nat} (hchild : s.children[i]? = some .running) :
      Moves nProcs s (.exits i) { s with
        children := s.children.set i (.zombie true)
        out := s.out ++ [.child i] }
  | killed {i : Nat} (hchild : s.children[i]? = some .running) :
      Moves nProcs s (.killed i) { s with
        children := s.children.set i (.zombie false) }

theorem moves_wait {c : Option Nat} {pc : MainPc}
    (hwaits : Waits nProcs s.main pc)
    (h : (s.reap c).map (fun t => { t with main := pc }) = some t) :
    Moves nProcs s (.wait c) t := by
  obtain ⟨u, hreap, rfl⟩ := Option.map_eq_some_iff.mp h
  cases c with
  | some c =>
      simp only [State.reap] at hreap
      split at hreap
      · rename_i hchild
        cases hreap
        exact .reaps hwaits hchild
      · cases hreap
  | none =>
      simp only [State.reap] at hreap
      split at hreap
      · rename_i hchildless
        cases hreap
        exact .noChild hwaits hchildless
      · cases hreap

theorem step_cases (h : s.step nProcs e = some t) : Moves nProcs s e t := by
  cases e with
  | fork ok =>
      simp only [State.step] at h
      split at h
      · rename_i hmain
        cases ok with
        | true =>
            cases h
            exact .fork hmain
        | false =>
            cases h
            exact .forkFails hmain
      · cases h
  | wait c =>
      simp only [State.step] at h
      split at h
      · rename_i i hmain
        exact moves_wait (hmain ▸ .last i) h
      · rename_i j i hmain
        exact moves_wait (hmain ▸ .failed j i) h
      · cases h
  | print =>
      simp only [State.step] at h
      split at h
      · rename_i hmain
        cases h
        exact .print hmain
      · cases h
  | exits i =>
      simp only [State.step] at h
      split at h
      · rename_i hchild
        cases h
        exact .exits hchild
      · cases h
  | killed i =>
      simp only [State.step] at h
      split at h
      · rename_i hchild
        cases h
        exact .killed hchild
      · cases h

/-! ## The books of the parent

The index of its loop is the number of children it has forked or waited
for. -/

def ChildPc.timesReaped : ChildPc → Nat
  | .reaped _ => 1
  | .running | .zombie _ => 0

def State.reaped (s : State) : Nat :=
  (s.children.map ChildPc.timesReaped).sum

/-- What the place of the parent tells about the children it has forked and
those it has waited for. -/
def MainPc.Counts (nProcs : Int) (forked reaped : Nat) : MainPc → Prop
  | .fork i => forked = i ∧ reaped = 0 ∧ i < nProcs.toNat
  | .wait i => forked = nProcs.toNat ∧ reaped = i ∧ i < forked
  | .waitFailed j i => forked = i ∧ reaped = j ∧ j < i ∧ i < nProcs.toNat
  | .print => forked = nProcs.toNat ∧ reaped = forked
  | .ended status => reaped = forked ∧ forked ≤ nProcs.toNat ∧
      (status = exitSuccess → forked = nProcs.toNat)

def State.Counts (nProcs : Int) (s : State) : Prop :=
  s.main.Counts nProcs s.children.length s.reaped

theorem ChildPc.timesReaped_le (c : ChildPc) : c.timesReaped ≤ 1 := by
  cases c <;> simp [ChildPc.timesReaped]

theorem ChildPc.timesReaped_eq_one_iff {c : ChildPc} :
    c.timesReaped = 1 ↔ c = .reaped true ∨ c = .reaped false := by
  cases c <;> simp [ChildPc.timesReaped]

/-- `wait` fails when all children have been waited for. -/
theorem childless_iff : s.Childless ↔ s.reaped = s.children.length := by
  rw [State.reaped, System.sum_map_eq_length_iff ChildPc.timesReaped_le]
  simp only [ChildPc.timesReaped_eq_one_iff]
  rfl

theorem counts_toWait {forked reaped : Nat} (hforked : forked = nProcs.toNat)
    (hle : reaped ≤ forked) :
    (toWait nProcs reaped).Counts nProcs forked reaped := by
  rw [toWait]
  split
  · rename_i hmore
    exact ⟨hforked, rfl, by omega⟩
  · exact ⟨hforked, by omega⟩

theorem counts_toFork {forked : Nat} (hle : forked ≤ nProcs.toNat) :
    (toFork nProcs forked).Counts nProcs forked 0 := by
  rw [toFork]
  split
  · rename_i hmore
    exact ⟨rfl, rfl, by omega⟩
  · exact counts_toWait (by omega) (Nat.zero_le _)

theorem counts_toWaitFailed {forked reaped : Nat} (hle : reaped ≤ forked)
    (hlt : forked < nProcs.toNat) :
    (toWaitFailed reaped forked).Counts nProcs forked reaped := by
  rw [toWaitFailed]
  split
  · rename_i hmore
    exact ⟨rfl, rfl, hmore, hlt⟩
  · exact ⟨by omega, by omega, fun hstatus => absurd hstatus (by decide)⟩

/-- A loop that waits counts one child more, and it has not counted all of
them before. -/
theorem Waits.counts {pc pc' : MainPc} {forked reaped : Nat}
    (h : Waits nProcs pc pc') (hs : pc.Counts nProcs forked reaped) :
    reaped < forked ∧ pc'.Counts nProcs forked (reaped + 1) := by
  cases h with
  | last i =>
      obtain ⟨hforked, rfl, hlt⟩ := hs
      exact ⟨hlt, counts_toWait hforked hlt⟩
  | failed j i =>
      obtain ⟨rfl, rfl, hlt, hbound⟩ := hs
      exact ⟨hlt, counts_toWaitFailed hlt hbound⟩

/-- So a `wait` never fails. -/
theorem State.Counts.not_childless {pc : MainPc} (hs : s.Counts nProcs)
    (h : Waits nProcs s.main pc) : ¬ s.Childless := by
  intro hchildless
  have hlt := (h.counts hs).1
  rw [childless_iff.mp hchildless] at hlt
  exact Nat.lt_irrefl _ hlt

/-- What a step of a child does to the number of those waited for. -/
theorem reaped_set {i : Nat} {b c : ChildPc}
    (hchild : s.children[i]? = some b) :
    ((s.children.set i c).map ChildPc.timesReaped).sum + b.timesReaped =
      s.reaped + c.timesReaped :=
  System.sum_map_set hchild ChildPc.timesReaped c

theorem State.Counts.step (hs : s.Counts nProcs)
    (h : s.step nProcs e = some t) : t.Counts nProcs := by
  cases step_cases h with
  | fork hmain =>
      rw [State.Counts, hmain] at hs
      obtain ⟨hforked, hreaped, hlt⟩ := hs
      -- while it forks, the parent has waited for nobody
      have hnone : ((s.children ++ [ChildPc.running]).map
          ChildPc.timesReaped).sum = 0 := by
        rw [List.map_append, List.sum_append, ← State.reaped, hreaped]
        rfl
      rw [State.Counts, State.reaped]
      simp only [hnone, List.length_append, List.length_singleton, hforked]
      exact counts_toFork hlt
  | forkFails hmain =>
      rw [State.Counts, hmain] at hs
      obtain ⟨hforked, hreaped, hlt⟩ := hs
      show (toWaitFailed 0 _).Counts nProcs s.children.length s.reaped
      rw [hforked, hreaped]
      exact counts_toWaitFailed (Nat.zero_le _) hlt
  | @reaps pc c written hwaits hchild =>
      have hone : ((s.children.set c (.reaped written)).map
          ChildPc.timesReaped).sum = s.reaped + 1 := reaped_set hchild
      rw [State.Counts, State.reaped, List.length_set, hone]
      exact (hwaits.counts hs).2
  | noChild hwaits hchildless =>
      exact absurd hchildless (hs.not_childless hwaits)
  | print hmain =>
      rw [State.Counts, hmain] at hs
      obtain ⟨hforked, hreaped⟩ := hs
      exact ⟨hreaped, Nat.le_of_eq hforked, fun _ => hforked⟩
  | @exits i hchild =>
      have hsame : ((s.children.set i (.zombie true)).map
          ChildPc.timesReaped).sum = s.reaped := reaped_set hchild
      rw [State.Counts, State.reaped, List.length_set, hsame]
      exact hs
  | @killed i hchild =>
      have hsame : ((s.children.set i (.zombie false)).map
          ChildPc.timesReaped).sum = s.reaped := reaped_set hchild
      rw [State.Counts, State.reaped, List.length_set, hsame]
      exact hs

theorem counts_of_reachable (h : (forks nProcs).Reachable s) :
    s.Counts nProcs := by
  refine h.invariant (I := State.Counts nProcs) ?_ ?_
  · rintro s rfl
    exact counts_toFork (Nat.zero_le _)
  · exact fun s e t hs _ hst => hs.step hst

/-! ## The lines -/

def Line.child? : Line → Option Nat
  | .child i => some i
  | .forkFailed | .numberOfProcesses _ => none

/-- The children whose line is out. -/
def childLines (out : List Line) : List Nat :=
  out.filterMap Line.child?

def ChildPc.written : ChildPc → Bool
  | .running => false
  | .zombie written | .reaped written => written

/-- What the place of the parent tells about the lines. -/
def MainPc.Printed (nProcs : Int) (out : List Line) : MainPc → Prop
  | .fork _ | .wait _ | .print => out = (childLines out).map .child
  | .waitFailed _ _ => True
  | .ended status => status = exitSuccess →
      out = (childLines out).map .child ++ [.numberOfProcesses nProcs]

structure State.Lines (nProcs : Int) (s : State) : Prop where
  once : (childLines s.out).Nodup
  mem_iff : ∀ i, i ∈ childLines s.out ↔
    (s.children[i]?).map ChildPc.written = some true
  printed : s.main.Printed nProcs s.out

@[simp]
theorem childLines_append (out out' : List Line) :
    childLines (out ++ out') = childLines out ++ childLines out' :=
  List.filterMap_append

@[simp]
theorem childLines_map (lines : List Nat) :
    childLines (lines.map .child) = lines := by
  rw [childLines, List.filterMap_map]
  exact List.filterMap_some

@[simp]
theorem childLines_child (i : Nat) : childLines [.child i] = [i] := rfl

@[simp]
theorem childLines_forkFailed : childLines [.forkFailed] = [] := rfl

@[simp]
theorem childLines_numberOfProcesses (n : Int) :
    childLines [.numberOfProcesses n] = [] := rfl

theorem printed_toWait {out : List Line} {i : Nat}
    (h : out = (childLines out).map .child) :
    (toWait nProcs i).Printed nProcs out := by
  rw [toWait]
  split
  · exact h
  · exact h

theorem printed_toFork {out : List Line} {i : Nat}
    (h : out = (childLines out).map .child) :
    (toFork nProcs i).Printed nProcs out := by
  rw [toFork]
  split
  · exact h
  · exact printed_toWait h

/-- Behind a `fork` that failed, the parent does not end well. -/
theorem printed_toWaitFailed {out : List Line} {j i : Nat} :
    (toWaitFailed j i).Printed nProcs out := by
  rw [toWaitFailed]
  split
  · trivial
  · exact fun hstatus => absurd hstatus (by decide)

theorem Waits.printed {pc pc' : MainPc} {out : List Line}
    (h : Waits nProcs pc pc') (hs : pc.Printed nProcs out) :
    pc'.Printed nProcs out := by
  cases h with
  | last i => exact printed_toWait hs
  | failed j i => exact printed_toWaitFailed

/-- Before the parent has ended, the line of a child goes behind those of
the others. -/
theorem MainPc.Printed.child {pc : MainPc} {out : List Line}
    (hs : pc.Printed nProcs out) (hpc : pc ≠ .ended exitSuccess) (i : Nat) :
    pc.Printed nProcs (out ++ [.child i]) := by
  have hlines : out = (childLines out).map .child →
      out ++ [.child i] = (childLines (out ++ [.child i])).map .child := by
    intro hout
    rw [childLines_append, List.map_append, ← hout]
    rfl
  cases pc with
  | fork i | wait i | print => exact hlines hs
  | waitFailed j i => trivial
  | ended status =>
      exact fun hstatus => absurd (congrArg MainPc.ended hstatus) hpc

/-- The children whose line is out stay the same with a child whose own
stays as it is. -/
theorem written_set {i : Nat} {b c : ChildPc}
    (hchild : s.children[i]? = some b) (hbc : b.written = c.written)
    (j : Nat) :
    ((s.children.set i c)[j]?).map ChildPc.written =
      (s.children[j]?).map ChildPc.written := by
  rw [List.getElem?_set]
  obtain ⟨hlt, -⟩ := List.getElem?_eq_some_iff.mp hchild
  split
  · rename_i hij
    subst hij
    rw [hchild]
    exact congrArg some hbc.symm
  · rfl

/-- A child that has just been forked has written nothing. -/
theorem written_append {i : Nat} :
    ((s.children ++ [ChildPc.running])[i]?).map ChildPc.written = some true ↔
      (s.children[i]?).map ChildPc.written = some true := by
  by_cases hlt : i < s.children.length
  · rw [List.getElem?_append_left hlt]
  · have hge := Nat.le_of_not_lt hlt
    rw [List.getElem?_append_right hge, List.getElem?_eq_none hge]
    cases i - s.children.length with
    | zero => simp [ChildPc.written]
    | succ k => simp

/-- A child that can still write is not there when the parent has ended. -/
theorem State.Counts.not_ended {i : Nat} (hs : s.Counts nProcs)
    (hchild : s.children[i]? = some .running) (status : Int) :
    s.main ≠ .ended status := by
  intro hmain
  rw [State.Counts, hmain] at hs
  have hchildless := childless_iff.mpr hs.1
  have hmem := List.mem_of_getElem? hchild
  rcases hchildless _ hmem with heq | heq
  · cases heq
  · cases heq

theorem State.Lines.step (hs : s.Lines nProcs) (hcounts : s.Counts nProcs)
    (h : s.step nProcs e = some t) : t.Lines nProcs := by
  have hprinted := hs.printed
  cases step_cases h with
  | fork hmain =>
      rw [hmain] at hprinted
      refine ⟨hs.once, fun i => ?_, printed_toFork hprinted⟩
      exact (hs.mem_iff i).trans written_append.symm
  | forkFails hmain =>
      refine ⟨?_, ?_, printed_toWaitFailed⟩
      · simpa using hs.once
      · simpa using hs.mem_iff
  | @reaps pc c written hwaits hchild =>
      refine ⟨hs.once, fun i => ?_, hwaits.printed hprinted⟩
      have hset := written_set (c := .reaped written) hchild rfl i
      exact (hs.mem_iff i).trans (hset ▸ Iff.rfl)
  | noChild hwaits hchildless =>
      exact absurd hchildless (hcounts.not_childless hwaits)
  | print hmain =>
      rw [hmain] at hprinted
      refine ⟨?_, ?_, fun _ => ?_⟩
      · simpa using hs.once
      · simpa using hs.mem_iff
      · rw [childLines_append, childLines_numberOfProcesses, List.append_nil,
          ← hprinted]
  | @exits i hchild =>
      -- a child that runs has not written its line yet
      have hnot : i ∉ childLines s.out := by
        rw [hs.mem_iff i, hchild]
        simp [ChildPc.written]
      refine ⟨?_, fun j => ?_, hprinted.child (hcounts.not_ended hchild _) i⟩
      · simpa [List.nodup_append] using ⟨hs.once, fun j hj => by
          rintro rfl
          exact hnot hj⟩
      · obtain ⟨hlt, -⟩ := List.getElem?_eq_some_iff.mp hchild
        simp only [childLines_append, childLines_child, List.mem_append,
          List.mem_singleton, hs.mem_iff j]
        by_cases hji : j = i
        · subst hji
          simp [List.getElem?_set_self hlt, ChildPc.written]
        · rw [List.getElem?_set_ne (Ne.symm hji)]
          simp [hji]
  | killed hchild =>
      refine ⟨hs.once, fun i => ?_, hprinted⟩
      have hset := written_set (c := .zombie false) hchild rfl i
      exact (hs.mem_iff i).trans (hset ▸ Iff.rfl)

theorem lines_of_reachable (h : (forks nProcs).Reachable s) :
    s.Lines nProcs := by
  have hboth : s.Counts nProcs ∧ s.Lines nProcs := by
    refine h.invariant (I := fun s => s.Counts nProcs ∧ s.Lines nProcs) ?_ ?_
    · rintro s rfl
      refine ⟨counts_toFork (Nat.zero_le _), List.nodup_nil, ?_, ?_⟩
      · simp [initial, childLines]
      · exact printed_toFork rfl
    · exact fun s e t hs _ hst => ⟨hs.1.step hst, hs.2.step hs.1 hst⟩
  exact hboth.2

/-- **The parent has the last word**: when it has ended well, it has forked
and waited for all children, each line of a child stands once before the
number of processes, and nothing behind it. A child without a line has been
killed. -/
theorem number_printed_last (h : (forks nProcs).Reachable s)
    (hmain : s.main = .ended exitSuccess) :
    s.children.length = nProcs.toNat ∧ s.Childless ∧
      ∃ lines : List Nat,
        s.out = lines.map .child ++ [.numberOfProcesses nProcs] ∧
        lines.Nodup ∧
        ∀ i, i ∈ lines ↔ s.children[i]? = some (.reaped true) := by
  have hcounts := counts_of_reachable h
  have hlines := lines_of_reachable h
  rw [State.Counts, hmain] at hcounts
  obtain ⟨hreaped, -, hforked⟩ := hcounts
  have hchildless := childless_iff.mpr hreaped
  have hprinted := hlines.printed
  rw [hmain] at hprinted
  refine ⟨hforked rfl, hchildless, _, hprinted rfl, hlines.once, fun i => ?_⟩
  rw [hlines.mem_iff i]
  cases hchild : s.children[i]? with
  | none => simp
  | some c =>
      rcases hchildless c (List.mem_of_getElem? hchild) with rfl | rfl
      · simp [ChildPc.written]
      · simp [ChildPc.written]

/-- The second of two children ends first. -/
theorem number_printed_last_two : ∃ s, (forks 2).Reachable s ∧
    s.out = [.child 1, .child 0, .numberOfProcesses 2] ∧ s.Childless := by
  have hrun : ∃ s, (forks 2).Reachable s ∧
      decide (s.main = .ended exitSuccess ∧
        s.out = [.child 1, .child 0, .numberOfProcesses 2]) = true :=
    System.ReachableIf.exists_of_runLabels (State.step 2) (fun _ _ _ h => h)
      [.fork true, .fork true, .exits 1, .wait (some 1), .exits 0,
        .wait (some 0), .print] (.init rfl) (by decide +kernel)
  obtain ⟨s, hs, hended⟩ := hrun
  obtain ⟨hmain, hout⟩ := of_decide_eq_true hended
  exact ⟨s, hs, hout, (number_printed_last hs hmain).2.1⟩

/-! ## The end of the parent -/

/-- No `fork` fails and no child is killed. -/
def Unharmed (_ : State) : Event → Prop
  | .fork ok => ok = true
  | .killed _ => False
  | .wait _ | .print | .exits _ => True

/-- The parent has ended, and no child is left behind, not even as a
zombie. -/
def State.Over (s : State) : Prop :=
  (∃ status, s.main = .ended status) ∧ s.Childless

def ChildPc.left : ChildPc → Nat
  | .running => 2
  | .zombie _ => 1
  | .reaped _ => 0

/-- A `fork` gives two steps to a child, and the parent a `wait`. -/
def MainPc.left (nProcs : Int) : MainPc → Nat
  | .fork i => 4 * (nProcs.toNat - i) + nProcs.toNat + 2
  | .wait i => nProcs.toNat - i + 1
  | .waitFailed j i => i - j
  | .print => 1
  | .ended _ => 0

def State.left (nProcs : Int) (s : State) : Nat :=
  s.main.left nProcs + (s.children.map ChildPc.left).sum

theorem left_toWait (i : Nat) :
    (toWait nProcs i).left nProcs ≤ nProcs.toNat - i + 1 := by
  rw [toWait]
  split
  · exact Nat.le_refl _
  · simp [MainPc.left]

theorem left_toFork (i : Nat) : (toFork nProcs i).left nProcs ≤
    4 * (nProcs.toNat - i) + nProcs.toNat + 2 := by
  rw [toFork]
  split
  · exact Nat.le_refl _
  · have hwait : (toWait nProcs 0).left nProcs ≤ nProcs.toNat - 0 + 1 :=
      left_toWait 0
    omega

theorem left_toWaitFailed (j i : Nat) :
    (toWaitFailed j i).left nProcs ≤ i - j := by
  rw [toWaitFailed]
  split
  · exact Nat.le_refl _
  · exact Nat.zero_le _

theorem Waits.left {pc pc' : MainPc} {forked reaped : Nat}
    (h : Waits nProcs pc pc') (hs : pc.Counts nProcs forked reaped) :
    pc'.left nProcs ≤ pc.left nProcs := by
  cases h with
  | last i =>
      refine Nat.le_trans (left_toWait (i + 1)) ?_
      show _ ≤ nProcs.toNat - i + 1
      omega
  | failed j i =>
      refine Nat.le_trans (left_toWaitFailed (j + 1) i) ?_
      show _ ≤ i - j
      omega

theorem State.Counts.left_lt (hs : s.Counts nProcs)
    (h : s.step nProcs e = some t) : t.left nProcs < s.left nProcs := by
  cases step_cases h with
  | @fork i hmain =>
      rw [State.Counts, hmain] at hs
      obtain ⟨-, -, hlt⟩ := hs
      have hfork : (toFork nProcs (i + 1)).left nProcs ≤
          4 * (nProcs.toNat - (i + 1)) + nProcs.toNat + 2 := left_toFork (i + 1)
      have hbefore : (MainPc.fork i).left nProcs =
          4 * (nProcs.toNat - i) + nProcs.toNat + 2 := rfl
      -- one turn of the loop less pays for the two steps of the child
      rw [State.left, State.left, hmain, List.map_append, List.sum_append]
      show (toFork nProcs (i + 1)).left nProcs +
        ((s.children.map ChildPc.left).sum + 2) < _
      omega
  | @forkFails i hmain =>
      rw [State.Counts, hmain] at hs
      obtain ⟨-, -, hlt⟩ := hs
      have hfailed : (toWaitFailed 0 i).left nProcs ≤ i - 0 :=
        left_toWaitFailed 0 i
      have hbefore : (MainPc.fork i).left nProcs =
          4 * (nProcs.toNat - i) + nProcs.toNat + 2 := rfl
      rw [State.left, State.left, hmain]
      show (toWaitFailed 0 i).left nProcs +
        (s.children.map ChildPc.left).sum < _
      omega
  | @reaps pc c written hwaits hchild =>
      have hset := System.sum_map_set hchild ChildPc.left (.reaped written)
      have hmain := hwaits.left hs
      simp only [State.left]
      simp only [ChildPc.left] at hset
      omega
  | noChild hwaits hchildless =>
      exact absurd hchildless (hs.not_childless hwaits)
  | print hmain =>
      simp only [State.left, hmain, MainPc.left]
      omega
  | exits hchild =>
      have hset := System.sum_map_set hchild ChildPc.left (.zombie true)
      simp only [State.left]
      simp only [ChildPc.left] at hset
      omega
  | killed hchild =>
      have hset := System.sum_map_set hchild ChildPc.left (.zombie false)
      simp only [State.left]
      simp only [ChildPc.left] at hset
      omega

theorem falls (nProcs : Int) : (forks nProcs).Falls (fun _ _ => True)
    (State.Counts nProcs) (State.left nProcs) :=
  ⟨fun _ _ _ hs _ hst => hs.step hst, fun _ _ _ hs _ hst => hs.left_lt hst⟩

theorem State.Counts.left_le (hs : s.Counts nProcs) :
    s.left nProcs ≤ 5 * nProcs.toNat + 2 := by
  have hchildren : (s.children.map ChildPc.left).sum ≤
      2 * s.children.length := by
    refine System.sum_map_le (fun c => ?_) _
    cases c <;> simp [ChildPc.left]
  rw [State.left]
  rw [State.Counts] at hs
  cases hmain : s.main with
  | fork i | wait i | waitFailed j i | print | ended status =>
      rw [hmain] at hs
      simp only [MainPc.Counts] at hs
      simp only [MainPc.left]
      omega

theorem not_running_of_halted (h : (forks nProcs).Halted Unharmed s)
    (i : Nat) : s.children[i]? ≠ some .running := by
  intro hi
  have hnone : s.step nProcs (.exits i) = none :=
    h.eq_none (fun _ hst => hst) trivial
  simp [State.step, hi] at hnone

/-- A parent that waits has a child that has ended, or one that can. -/
theorem not_waits_of_halted (hs : s.Counts nProcs)
    (h : (forks nProcs).Halted Unharmed s) {pc : MainPc}
    (hpc : Waits nProcs s.main pc) (hreap : ∀ c, s.reap (some c) = none) :
    False := by
  refine hs.not_childless hpc fun b hb => ?_
  obtain ⟨c, hc⟩ := List.mem_iff_getElem?.mp hb
  cases b with
  | running => exact absurd hc (not_running_of_halted h c)
  | zombie written =>
      have hnone := hreap c
      simp [State.reap, hc] at hnone
  | reaped written => cases written <;> simp

theorem over_of_halted (hs : s.Counts nProcs)
    (h : (forks nProcs).Halted Unharmed s) : s.Over := by
  have hstep : ∀ {e : Event}, Unharmed s e → s.step nProcs e = none :=
    fun he => h.eq_none (fun _ hst => hst) he
  cases hmain : s.main with
  | fork i =>
      have hnone := hstep (e := .fork true) rfl
      simp [State.step, hmain] at hnone
  | wait i =>
      have hlast : Waits nProcs s.main (toWait nProcs (i + 1)) := by
        rw [hmain]
        exact .last i
      refine (not_waits_of_halted hs h hlast fun c => ?_).elim
      have hnone := hstep (e := .wait (some c)) trivial
      simpa [State.step, hmain] using hnone
  | waitFailed j i =>
      have hfailed : Waits nProcs s.main (toWaitFailed (j + 1) i) := by
        rw [hmain]
        exact .failed j i
      refine (not_waits_of_halted hs h hfailed fun c => ?_).elim
      have hnone := hstep (e := .wait (some c)) trivial
      simpa [State.step, hmain] using hnone
  | print =>
      have hnone := hstep (e := .print) trivial
      simp [State.step, hmain] at hnone
  | ended status =>
      rw [State.Counts, hmain] at hs
      exact ⟨⟨status, hmain⟩, childless_iff.mpr hs.1⟩

/-- **The parent waits for all its children and always ends**: whichever
children are killed, in whatever order they end, and also when a `fork` has
failed. At most `5 * n_procs + 2` steps are left, one of them can be taken
until the parent has ended, and then no child is left behind. -/
theorem parent_ends (h : (forks nProcs).Reachable s) :
    (∀ tr, (forks nProcs).Run s tr →
      tr.length ≤ 5 * nProcs.toNat + 2 ∧
        ((forks nProcs).Halted Unharmed (System.final s tr) →
          (System.final s tr).Over)) ∧
      ∃ tr, (forks nProcs).Run s tr ∧ System.Meets Unharmed s tr ∧
        (System.final s tr).Over := by
  have hs := counts_of_reachable h
  have hfalls := falls nProcs
  have hfinal : ∀ {tr}, (forks nProcs).Run s tr →
      (System.final s tr).Counts nProcs := fun hrun =>
    counts_of_reachable (hrun.reachable_final h)
  refine ⟨fun tr hrun => ⟨?_, over_of_halted (hfinal hrun)⟩, ?_⟩
  · have hlength := hfalls.length_add_le hrun (System.Meets.all s tr) hs
    have hle := hs.left_le
    omega
  · obtain ⟨tr, hrun, hmeets, hhalted⟩ :=
      (hfalls.mono fun _ _ (_ : Unharmed _ _) => trivial).exists_halted hs
    exact ⟨tr, hrun, hmeets, over_of_halted (hfinal hrun) hhalted⟩

/-- The second `fork` fails, and the first child is killed. -/
theorem parent_ends_fork_failed : ∃ s, (forks 2).Reachable s ∧
    s.out = [.forkFailed] ∧
      ∃ tr, (forks 2).Run s tr ∧ tr.length ≤ 12 ∧
        (System.final s tr).Over := by
  have hrun : ∃ s, (forks 2).Reachable s ∧
      decide (s.out = [.forkFailed]) = true :=
    System.ReachableIf.exists_of_runLabels (State.step 2) (fun _ _ _ h => h)
      [.fork true, .fork false, .killed 0] (.init rfl) (by decide +kernel)
  obtain ⟨s, hs, hout⟩ := hrun
  obtain ⟨hbounded, tr, htr, -, hover⟩ := parent_ends hs
  exact ⟨s, hs, of_decide_eq_true hout, tr, htr, (hbounded tr htr).1, hover⟩

end Sysops.Cw04
