import Sysops.Library.Runs
import Sysops.Library.Pipeline
import Mathlib.Logic.Function.Basic
import Mathlib.Data.Rat.Defs

/-!
# `cw06/zad2`: the calculator and its callers

`calculator.c` and any number of processes of `caller.c` that share its two
FIFOs. A `range_info` and a `double` are shorter than `PIPE_BUF`, so that
each `write` and each `read` moves one whole record.

Nothing in a record says whose it is: the answers come out in the order in
which the ranges went in, and the caller that reads first gets the first.
-/

namespace Sysops.Cw06

/-! ## The calculator -/

/-- `range_info`. -/
structure RangeInfo (D : Type) where
  start : D
  stop : D
  nIntervals : Int
  deriving DecidableEq

section Integrate

variable {D : Type} [Add D] [Sub D] [Mul D] [Div D] [IntCast D]

/-- One turn of the loop of `integrate`. -/
def integrateTurn (rInfo : RangeInfo D) (dx integral : D) (i : Nat) : D :=
  let x := rInfo.start + ((i : Int) : D) * dx
  let fx := ((4 : Int) : D) / (((1 : Int) : D) + x * x)
  integral + fx

def integrate (rInfo : RangeInfo D) : D :=
  let dx := (rInfo.stop - rInfo.start) / (rInfo.nIntervals : D)
  (List.range rInfo.nIntervals.toNat).foldl (integrateTurn rInfo dx)
    ((0 : Int) : D) * dx

end Integrate

/-! ## The callers -/

variable {ι D : Type}

/-- The test that a caller makes before it writes. -/
def RangeInfo.Invalid [LE D] (rInfo : RangeInfo D) : Prop :=
  rInfo.nIntervals ≤ 0 ∨ rInfo.start ≥ rInfo.stop

instance [LE D] [DecidableLE D] (rInfo : RangeInfo D) :
    Decidable rInfo.Invalid :=
  inferInstanceAs (Decidable (_ ∨ _))

/-- Where a caller is: before `scanf`, before `write`, before `read`, or
ended. -/
inductive CallerPc (D : Type) where
  | scanf
  | write (rInfo : RangeInfo D)
  | read (rInfo : RangeInfo D)
  | ended

/-- What a caller read from the output FIFO, and the range that it had
written last. -/
structure Reading (ι D : Type) where
  caller : ι
  asked : RangeInfo D
  integral : D

/-- The callers and the FIFOs with the calculator between them, with a
record of what was written to the one and read from the other. -/
structure State (ι D : Type) where
  caller : ι → CallerPc D
  pipes : Pipeline (RangeInfo D) D
  written : List (ι × RangeInfo D)
  readings : List (Reading ι D)

inductive Event (ι D : Type) where
  /-- The three calls of `scanf`; `none` when one of them fails. -/
  | scanf (i : ι) (rInfo : Option (RangeInfo D))
  | write (i : ι)
  | read (i : ι)
  | calculatorRead
  | calculatorWrite

section Step

variable [DecidableEq ι] [LE D] [DecidableLE D]
  [Add D] [Sub D] [Mul D] [Div D] [IntCast D]

namespace State

def goto (s : State ι D) (i : ι) (pc : CallerPc D) : State ι D :=
  { s with caller := Function.update s.caller i pc }

def scanf (s : State ι D) (i : ι) (rInfo : Option (RangeInfo D)) :
    Option (State ι D) :=
  match s.caller i with
  | .scanf =>
      match rInfo with
      | none => some (s.goto i .ended)
      | some rInfo =>
          if rInfo.Invalid then some (s.goto i .ended)
          else some (s.goto i (.write rInfo))
  | _ => none

def afterWrite (s : State ι D) (i : ι) (rInfo : RangeInfo D) : State ι D where
  caller := Function.update s.caller i (.read rInfo)
  pipes := s.pipes.put rInfo
  written := s.written ++ [(i, rInfo)]
  readings := s.readings

def write (s : State ι D) (i : ι) : Option (State ι D) :=
  match s.caller i with
  | .write rInfo => some (s.afterWrite i rInfo)
  | _ => none

def afterRead (s : State ι D) (i : ι) (rInfo : RangeInfo D)
    (x : D × Pipeline (RangeInfo D) D) : State ι D where
  caller := Function.update s.caller i .scanf
  pipes := x.2
  written := s.written
  readings := s.readings ++ [⟨i, rInfo, x.1⟩]

def read (s : State ι D) (i : ι) : Option (State ι D) :=
  match s.caller i with
  -- whatever comes first out of the FIFO
  | .read rInfo => s.pipes.take.map (s.afterRead i rInfo)
  | _ => none

def step (s : State ι D) : Event ι D → Option (State ι D)
  | .scanf i rInfo => s.scanf i rInfo
  | .write i => s.write i
  | .read i => s.read i
  | .calculatorRead => s.pipes.fetch.map fun pipes => { s with pipes }
  | .calculatorWrite =>
      (s.pipes.emit integrate).map fun pipes => { s with pipes }

def initial (ι D : Type) : State ι D where
  caller _ := .scanf
  pipes := .empty _ _
  written := []
  readings := []

end State

/-- The calculator and a caller for each `i`. -/
def calculator (ι D : Type) [DecidableEq ι] [LE D] [DecidableLE D]
    [Add D] [Sub D] [Mul D] [Div D] [IntCast D] :
    System (State ι D) (Event ι D) where
  init s := s = State.initial ι D
  step s e t := s.step e = some t

end Step

/-! ## Whose answer a caller reads -/

namespace State

/-- The ranges written whose answers nobody has read. -/
def unanswered (s : State ι D) : List (ι × RangeInfo D) :=
  s.written.drop s.readings.length

/-- Each reading answers the range that its caller wrote. -/
def OwnAnswers (s : State ι D) : Prop :=
  s.readings.map (fun x => (x.caller, x.asked)) <+: s.written

/-- The readings are the answers to the first ranges written. -/
def AnswersInOrder [Add D] [Sub D] [Mul D] [Div D] [IntCast D]
    (s : State ι D) : Prop :=
  s.readings.map Reading.integral <+:
    s.written.map fun x => integrate x.2

/-- Whoever has a range unanswered waits for the answer, and for no other. -/
structure Waiting (s : State ι D) : Prop where
  callers : (s.unanswered.map Prod.fst).Nodup
  reading : ∀ x ∈ s.unanswered, s.caller x.1 = .read x.2

end State

/-- A caller that reads has waited longest. -/
def InOrder (s : State ι D) (e : Event ι D) : Prop :=
  ∀ i, e = .read i → s.unanswered.head?.map Prod.fst = some i

section Readings

variable [DecidableEq ι] {s : State ι D}

/-- The oldest range is answered, whoever reads the answer. -/
theorem State.unanswered_afterRead (s : State ι D) (i : ι)
    (rInfo : RangeInfo D) (x : D × Pipeline (RangeInfo D) D) :
    (s.afterRead i rInfo x).unanswered = s.unanswered.tail := by
  rw [State.afterRead, State.unanswered, State.unanswered, List.tail_drop,
    List.length_append, List.length_singleton]

theorem State.Waiting.afterRead (hw : s.Waiting) {i : ι} {rInfo : RangeInfo D}
    (hhead : s.unanswered.head?.map Prod.fst = some i)
    (x : D × Pipeline (RangeInfo D) D) :
    (s.afterRead i rInfo x).Waiting := by
  obtain ⟨hcallers, hreading⟩ := hw
  have htail := s.unanswered_afterRead i rInfo x
  cases hun : s.unanswered with
  | nil =>
      rw [hun] at hhead
      cases hhead
  | cons y rest =>
      rw [hun] at hhead hcallers hreading htail
      obtain rfl := Option.some.inj hhead
      rw [List.map_cons, List.nodup_cons] at hcallers
      constructor
      · rw [htail]
        exact hcallers.2
      · intro z hz
        rw [htail] at hz
        have hne : z.1 ≠ y.1 := by
          intro heq
          apply hcallers.1
          rw [← heq]
          exact List.mem_map_of_mem hz
        show Function.update s.caller y.1 .scanf z.1 = _
        rw [Function.update_of_ne hne]
        exact hreading z (List.mem_cons_of_mem _ hz)

/-- One more reading is its caller's own if it answers the oldest range. -/
theorem append_prefix_iff {α : Type} {l w : List α} {a : α} :
    l ++ [a] <+: w ↔ l <+: w ∧ (w.drop l.length).head? = some a := by
  constructor
  · rintro ⟨rest, rfl⟩
    rw [List.append_assoc]
    refine ⟨List.prefix_append _ _, ?_⟩
    rw [List.drop_left]
    rfl
  · rintro ⟨⟨rest, rfl⟩, hhead⟩
    rw [List.drop_left] at hhead
    obtain ⟨rest', rfl⟩ := List.head?_eq_some_iff.mp hhead
    exact ⟨rest', by rw [List.append_assoc, List.singleton_append]⟩

theorem ownAnswers_afterRead {i : ι} {rInfo : RangeInfo D}
    {x : D × Pipeline (RangeInfo D) D} :
    (s.afterRead i rInfo x).OwnAnswers ↔
      s.OwnAnswers ∧ s.unanswered.head? = some (i, rInfo) := by
  unfold State.OwnAnswers
  rw [State.afterRead, List.map_append]
  refine append_prefix_iff.trans ?_
  rw [List.length_map, State.unanswered]

end Readings

section Answers

variable [Add D] [Sub D] [Mul D] [Div D] [IntCast D] {s t : State ι D}

/-- A step that neither writes a range nor reads an answer. -/
structure State.Quiet (s t : State ι D) : Prop where
  contents : t.pipes.contents integrate = s.pipes.contents integrate
  written : t.written = s.written
  readings : t.readings = s.readings
  reading : ∀ i rInfo, s.caller i = .read rInfo → t.caller i = .read rInfo

theorem State.quiet_pipes {pipes : Pipeline (RangeInfo D) D}
    (h : pipes.contents integrate = s.pipes.contents integrate) :
    s.Quiet { s with pipes } :=
  ⟨h, rfl, rfl, fun _ _ hi => hi⟩

/-- The answers read and those still in the FIFOs are the answers to the
ranges written, in their order. -/
def State.Answered (s : State ι D) : Prop :=
  s.readings.map Reading.integral ++ s.pipes.contents integrate =
    s.written.map fun x => integrate x.2

theorem State.Answered.inOrder (hs : s.Answered) : s.AnswersInOrder :=
  ⟨_, hs⟩

theorem State.Answered.length_le (hs : s.Answered) :
    s.readings.length ≤ s.written.length := by
  have hlength := congrArg List.length hs
  rw [List.length_append, List.length_map, List.length_map] at hlength
  omega

/-- Everything read is answered in order, and as long as all read their own
answers, those that wait for one are known. -/
structure Books (s : State ι D) : Prop where
  answered : s.Answered
  waiting : s.OwnAnswers → s.Waiting

theorem books_initial : Books (State.initial ι D) := by
  refine ⟨rfl, fun _ => ⟨List.nodup_nil, fun x hx => ?_⟩⟩
  cases hx

/-- Each reading is the answer to the range at its own place. -/
theorem Books.integral_eq (hs : Books s) (hown : s.OwnAnswers) :
    ∀ x ∈ s.readings, x.integral = integrate x.asked := by
  obtain ⟨rest, hrest⟩ := hown
  have hanswered := hs.answered
  unfold State.Answered at hanswered
  rw [← hrest, List.map_append, List.map_map] at hanswered
  have hmap := List.append_inj_left hanswered (by simp)
  exact List.map_inj_left.mp hmap

variable [DecidableEq ι]

theorem State.quiet_goto {i : ι} (hi : s.caller i = .scanf)
    (pc : CallerPc D) : s.Quiet (s.goto i pc) := by
  refine ⟨rfl, rfl, rfl, fun j rInfo hj => ?_⟩
  have hne : j ≠ i := by
    rintro rfl
    rw [hi] at hj
    cases hj
  show Function.update s.caller i pc j = _
  rw [Function.update_of_ne hne, hj]

/-- A further range waits behind the others. -/
theorem State.Answered.unanswered_afterWrite (hs : s.Answered) (i : ι)
    (rInfo : RangeInfo D) : (s.afterWrite i rInfo).unanswered =
      s.unanswered ++ [(i, rInfo)] := by
  rw [State.afterWrite, State.unanswered,
    List.drop_append_of_le_length hs.length_le]
  rfl

theorem State.Waiting.afterWrite (hw : s.Waiting) (hs : s.Answered) {i : ι}
    {rInfo : RangeInfo D} (hi : s.caller i = .write rInfo) :
    (s.afterWrite i rInfo).Waiting := by
  have hnot : ∀ x ∈ s.unanswered, x.1 ≠ i := by
    rintro x hx rfl
    rw [hw.reading x hx] at hi
    cases hi
  constructor
  · rw [hs.unanswered_afterWrite, List.map_append, List.map_singleton,
      List.nodup_append]
    refine ⟨hw.callers, List.pairwise_singleton _ i, ?_⟩
    intro j hj k hk
    obtain ⟨x, hx, rfl⟩ := List.mem_map.mp hj
    rw [List.mem_singleton.mp hk]
    exact hnot x hx
  · intro x hx
    rw [hs.unanswered_afterWrite, List.mem_append, List.mem_singleton] at hx
    show Function.update s.caller i (.read rInfo) x.1 = _
    rcases hx with hx | rfl
    · rw [Function.update_of_ne (hnot x hx), hw.reading x hx]
    · rw [Function.update_self]

theorem ownAnswers_afterWrite (hs : s.Answered) (i : ι)
    (rInfo : RangeInfo D) :
    (s.afterWrite i rInfo).OwnAnswers ↔ s.OwnAnswers := by
  unfold State.OwnAnswers
  rw [State.afterWrite]
  constructor
  · intro h
    refine List.prefix_of_prefix_length_le h (List.prefix_append _ _) ?_
    rw [List.length_map]
    exact hs.length_le
  · exact fun h => h.trans (List.prefix_append _ _)

end Answers

section Steps

variable [DecidableEq ι] [LE D] [DecidableLE D]
  [Add D] [Sub D] [Mul D] [Div D] [IntCast D]
  {s t : State ι D} {e : Event ι D}

/-- What a step can do. -/
theorem step_cases (h : s.step e = some t) :
    (s.Quiet t ∧ ∀ i, e ≠ .read i) ∨
    (∃ i rInfo, e = .write i ∧ s.caller i = .write rInfo ∧
      t = s.afterWrite i rInfo) ∨
    (∃ i rInfo x, e = .read i ∧ s.caller i = .read rInfo ∧
      s.pipes.take = some x ∧ t = s.afterRead i rInfo x) := by
  cases e with
  | scanf i rInfo =>
      simp only [State.step, State.scanf] at h
      split at h
      case h_2 => cases h
      case h_1 hi =>
        refine .inl ⟨?_, nofun⟩
        split at h
        · obtain rfl := Option.some.inj h
          exact State.quiet_goto hi _
        · split at h
          · obtain rfl := Option.some.inj h
            exact State.quiet_goto hi _
          · obtain rfl := Option.some.inj h
            exact State.quiet_goto hi _
  | write i =>
      simp only [State.step, State.write] at h
      split at h
      · rename_i rInfo hi
        exact .inr (.inl ⟨i, rInfo, rfl, hi, (Option.some.inj h).symm⟩)
      · cases h
  | read i =>
      simp only [State.step, State.read] at h
      split at h
      · rename_i rInfo hi
        obtain ⟨x, hx, rfl⟩ := Option.map_eq_some_iff.mp h
        exact .inr (.inr ⟨i, rInfo, x, rfl, hi, hx, rfl⟩)
      · cases h
  | calculatorRead =>
      obtain ⟨pipes, hpipes, rfl⟩ := Option.map_eq_some_iff.mp h
      exact .inl ⟨State.quiet_pipes (Pipeline.contents_fetch hpipes), nofun⟩
  | calculatorWrite =>
      obtain ⟨pipes, hpipes, rfl⟩ := Option.map_eq_some_iff.mp h
      exact .inl ⟨State.quiet_pipes (Pipeline.contents_emit hpipes), nofun⟩

theorem State.Answered.step (hs : s.Answered) (h : s.step e = some t) :
    t.Answered := by
  unfold State.Answered at *
  rcases step_cases h with ⟨hquiet, -⟩ | ⟨i, rInfo, -, -, rfl⟩ |
    ⟨i, rInfo, x, -, -, hx, rfl⟩
  · rw [hquiet.contents, hquiet.written, hquiet.readings, hs]
  · rw [State.afterWrite, Pipeline.contents_put, ← List.append_assoc, hs,
      List.map_append]
    rfl
  · rw [Pipeline.contents_take hx] at hs
    rw [State.afterRead, List.map_append, List.append_assoc]
    exact hs

/-- A step keeps that all read their own answers exactly if whoever reads in
it has waited longest. -/
theorem Books.own_iff (hs : Books s) (h : s.step e = some t) :
    t.OwnAnswers ↔ s.OwnAnswers ∧ InOrder s e := by
  rcases step_cases h with ⟨hquiet, hread⟩ | ⟨i, rInfo, rfl, -, rfl⟩ |
    ⟨i, rInfo, x, rfl, hi, -, rfl⟩
  · unfold State.OwnAnswers
    rw [hquiet.readings, hquiet.written]
    exact (and_iff_left fun i he => absurd he (hread i)).symm
  · rw [ownAnswers_afterWrite hs.answered]
    exact (and_iff_left nofun).symm
  · rw [ownAnswers_afterRead]
    refine and_congr_right fun hown => ?_
    constructor
    · rintro hhead j hj
      rw [hhead]
      cases hj
      rfl
    · -- the oldest range is its own, and it has no other one
      intro horder
      obtain ⟨y, hy, hyi⟩ := Option.map_eq_some_iff.mp (horder i rfl)
      have hreading := (hs.waiting hown).reading y (List.mem_of_head? hy)
      rw [hyi, hi] at hreading
      obtain rfl := hyi
      rw [hy, CallerPc.read.inj hreading]

theorem Books.step (hs : Books s) (h : s.step e = some t) : Books t := by
  refine ⟨hs.answered.step h, fun hown => ?_⟩
  obtain ⟨hown, horder⟩ := (hs.own_iff h).mp hown
  have hw := hs.waiting hown
  rcases step_cases h with ⟨hquiet, -⟩ | ⟨i, rInfo, -, hi, rfl⟩ |
    ⟨i, rInfo, x, rfl, -, -, rfl⟩
  · have hun : t.unanswered = s.unanswered := by
      rw [State.unanswered, hquiet.written, hquiet.readings, State.unanswered]
    constructor
    · rw [hun]
      exact hw.callers
    · rw [hun]
      exact fun x hx => hquiet.reading _ _ (hw.reading x hx)
  · exact hw.afterWrite hs.answered hi
  · exact hw.afterRead (horder i rfl) x

/-- A caller that shares the calculator with nobody waits longest. -/
theorem inOrder_of_subsingleton [Subsingleton ι] (hs : Books s)
    (h : s.step e = some t) : InOrder s e := by
  rcases step_cases h with ⟨-, hread⟩ | ⟨i, rInfo, rfl, -, -⟩ |
    ⟨i, rInfo, x, rfl, -, hx, -⟩
  · exact fun i he => absurd he (hread i)
  · exact nofun
  · intro j _
    have hlt : s.readings.length < s.written.length := by
      have hlength := congrArg List.length hs.answered
      rw [Pipeline.contents_take hx, List.length_append, List.length_cons,
        List.length_map, List.length_map] at hlength
      omega
    rw [State.unanswered, List.head?_drop, List.getElem?_eq_getElem hlt,
      Option.map_some, Subsingleton.elim j]

/-- A sole caller reads the answers to its own ranges. -/
theorem integral_eq_of_subsingleton [Subsingleton ι]
    (h : (calculator ι D).Reachable s) :
    ∀ x ∈ s.readings, x.integral = integrate x.asked := by
  have hboth : Books s ∧ s.OwnAnswers := by
    refine h.invariant (I := fun s => Books s ∧ s.OwnAnswers) ?_ ?_
    · rintro s rfl
      exact ⟨books_initial, List.nil_prefix⟩
    · rintro s e t ⟨hs, hown⟩ - hst
      exact ⟨hs.step hst,
        (hs.own_iff hst).mpr ⟨hown, inOrder_of_subsingleton hs hst⟩⟩
  exact hboth.1.integral_eq hboth.2

/-- **In every run the answers come in the order of the ranges**, and all
read their own exactly if at each reading the caller has waited longest. -/
theorem answers_in_order (tr : List (Event ι D × State ι D))
    (h : (calculator ι D).Run (State.initial ι D) tr) :
    (System.final (State.initial ι D) tr).AnswersInOrder ∧
      ((System.final (State.initial ι D) tr).OwnAnswers ↔
        System.Meets InOrder (State.initial ι D) tr) ∧
      (System.Meets InOrder (State.initial ι D) tr →
        ∀ x ∈ (System.final (State.initial ι D) tr).readings,
          x.integral = integrate x.asked) := by
  have hstep : ∀ (s : State ι D) (e : Event ι D) (t : State ι D), Books s →
      (calculator ι D).step s e t → Books t := fun s e t hs => hs.step
  have hbooks : Books (System.final (State.initial ι D) tr) :=
    h.final_invariant hstep books_initial
  have hown : (System.final (State.initial ι D) tr).OwnAnswers ↔
      System.Meets InOrder (State.initial ι D) tr := by
    refine (System.Run.final_iff_meets hstep (fun s e t hs => hs.own_iff) h
      books_initial).trans ?_
    exact and_iff_right (List.nil_prefix)
  exact ⟨hbooks.answered.inOrder, hown,
    fun horder => hbooks.integral_eq (hown.mpr horder)⟩

end Steps

/-- Two callers write, and the calculator answers both. -/
def bothAnswered (i j : ι) : List (Event ι ℚ) :=
  [.scanf i (some ⟨0, 1, 1⟩), .scanf j (some ⟨0, 2, 1⟩), .write i, .write j,
    .calculatorRead, .calculatorWrite, .calculatorRead, .calculatorWrite]

theorem both_read_in_order : ∃ tr,
    (calculator (Fin 2) ℚ).Run (State.initial (Fin 2) ℚ) tr ∧
      tr.map Prod.fst = bothAnswered 0 1 ++ [.read 0, .read 1] ∧
      (System.final (State.initial (Fin 2) ℚ) tr).AnswersInOrder := by
  obtain ⟨tr, hrun, -, hlabels⟩ := System.Run.exists_of_runLabels
    (S := calculator (Fin 2) ℚ) (C := fun _ _ => True) State.step
    (fun _ _ _ h => h) (bothAnswered 0 1 ++ [.read 0, .read 1])
    (s := State.initial (Fin 2) ℚ) (by decide +kernel)
  exact ⟨tr, hrun, hlabels, (answers_in_order tr hrun).1⟩

/-- The second caller reads first, and takes the answer to the first. -/
theorem answer_taken_by_other : ¬ ∀ s,
    (calculator (Fin 2) ℚ).Reachable s →
      ∀ x ∈ s.readings, x.integral = integrate x.asked := by
  intro hclaim
  have hrun : ∃ s, (calculator (Fin 2) ℚ).Reachable s ∧
      decide (∃ x ∈ s.readings, x.integral ≠ integrate x.asked) = true :=
    System.ReachableIf.exists_of_runLabels State.step (fun _ _ _ h => h)
      (bothAnswered 0 1 ++ [.read 1]) (.init rfl) (by decide +kernel)
  obtain ⟨s, hs, hlast⟩ := hrun
  obtain ⟨x, hx, hne⟩ := of_decide_eq_true hlast
  exact hne (hclaim s hs x hx)

end Sysops.Cw06
