import Sysops.Library.Ending
import Sysops.Library.Processes
import Sysops.Cw06.Calculator

/-!
# `cw06/zad2`: the ends of the FIFOs

The calculator and its callers from their calls of `open` to those of
`close`. An `open` waits for a process that opens the other end; a `read`
finds the end of a FIFO that is empty when nobody holds its other end; a
`write` to a FIFO that nobody reads ends the process.

The calculator ends when it has answered everything and no caller is left.
A caller that comes after that may be left waiting, may be ended by its
`write`, or may print an integral that nobody has computed. Nothing of that
can happen to the others.
-/

namespace Sysops.Cw06

variable {ι D : Type}

/-! ## The programs -/

/-- Where a process is: before one of its two calls of `open` or waiting in
it, in its loop, before one of its two calls of `close`, ended, or ended by
`SIGPIPE`. -/
inductive Phase where
  | openInput | waitInput | openOutput | waitOutput
  | loop
  | closeInput | closeOutput | ended
  | broken
  deriving DecidableEq

namespace Phase

/-- The process has its end of the input FIFO, also while it waits in
`open`. -/
def hasInput : Phase → Bool
  | waitInput | openOutput | waitOutput | loop | closeInput => true
  | openInput | closeOutput | ended | broken => false

def hasOutput : Phase → Bool
  | waitOutput | loop | closeInput | closeOutput => true
  | openInput | waitInput | openOutput | ended | broken => false

/-- Behind the `open` of the input, with or without somebody at the other
end. -/
def enterInput (other : Bool) : Phase :=
  if other then openOutput else waitInput

def enterOutput (other : Bool) : Phase :=
  if other then loop else waitOutput

/-- Somebody opens the other end of the input. -/
def wakeInput (p : Phase) : Phase :=
  if p = waitInput then openOutput else p

def wakeOutput (p : Phase) : Phase :=
  if p = waitOutput then loop else p

/-- The loop lies behind the process. -/
def closing : Phase → Bool
  | closeInput | closeOutput | ended | broken => true
  | openInput | waitInput | openOutput | waitOutput | loop => false

end Phase

/-- The loops of the callers and the FIFOs, with the phases of all
processes. `late` records who has opened the input when the calculator's
loop was over, and `zeros` whose `read` has found the end of the output. -/
structure Fifos (ι D : Type) extends State ι D where
  calculator : Phase
  phase : ι → Phase
  late : ι → Bool
  zeros : List ι

inductive FifoEvent (ι D : Type) where
  | calculator
  | caller (i : ι)
  | scanf (i : ι) (rInfo : Option (RangeInfo D))

namespace Fifos

section Step

variable [DecidableEq ι] [Fintype ι] [LE D] [DecidableLE D]
  [Add D] [Sub D] [Mul D] [Div D] [IntCast D]

/-- A caller has the other end of the input. -/
def someInput (s : Fifos ι D) : Bool :=
  decide (∃ i, (s.phase i).hasInput = true)

def someOutput (s : Fifos ι D) : Bool :=
  decide (∃ i, (s.phase i).hasOutput = true)

/-- A turn of the calculator's loop. -/
def calculatorTurn (s : Fifos ι D) : Option (Fifos ι D) :=
  match s.pipes.emit integrate with
  | some pipes =>
      if s.someOutput then some { s with pipes }
      else some { s with calculator := .broken }
  | none =>
      match s.pipes.fetch with
      | some pipes => some { s with pipes }
      | none =>
          if s.someInput then none
          else some { s with calculator := .closeInput }

def calculatorStep (s : Fifos ι D) : Option (Fifos ι D) :=
  match s.calculator with
  | .openInput => some { s with
      calculator := .enterInput s.someInput
      phase := fun i => (s.phase i).wakeInput }
  | .openOutput => some { s with
      calculator := .enterOutput s.someOutput
      phase := fun i => (s.phase i).wakeOutput }
  | .loop => s.calculatorTurn
  | .closeInput => some { s with calculator := .closeOutput }
  | .closeOutput => some { s with calculator := .ended }
  | .waitInput | .waitOutput | .ended | .broken => none

def goto (s : Fifos ι D) (i : ι) (p : Phase) : Fifos ι D :=
  { s with phase := Function.update s.phase i p }

/-- A turn of the caller's loop behind its calls of `scanf`. -/
def callerTurn (s : Fifos ι D) (i : ι) : Option (Fifos ι D) :=
  match s.caller i with
  | .scanf => none
  | .write _ =>
      if s.calculator.hasInput then
        (s.toState.write i).map fun t => { s with toState := t }
      else some (s.goto i .broken)
  | .read _ =>
      match s.toState.read i with
      | some t => some { s with toState := t }
      | none =>
          -- `read` returns 0, which is not taken for a failure
          if s.calculator.hasOutput then none
          else some { s with
            toState := s.toState.goto i .scanf
            zeros := s.zeros ++ [i] }
  | .ended => some (s.goto i .closeInput)

def callerStep (s : Fifos ι D) (i : ι) : Option (Fifos ι D) :=
  match s.phase i with
  | .openInput => some { s.goto i (.enterInput s.calculator.hasInput) with
      calculator := s.calculator.wakeInput
      late := Function.update s.late i s.calculator.closing }
  | .openOutput => some { s.goto i (.enterOutput s.calculator.hasOutput) with
      calculator := s.calculator.wakeOutput }
  | .loop => s.callerTurn i
  | .closeInput => some (s.goto i .closeOutput)
  | .closeOutput => some (s.goto i .ended)
  | .waitInput | .waitOutput | .ended | .broken => none

def step (s : Fifos ι D) : FifoEvent ι D → Option (Fifos ι D)
  | .calculator => s.calculatorStep
  | .caller i => s.callerStep i
  | .scanf i rInfo =>
      if s.phase i = .loop then
        (s.toState.scanf i rInfo).map fun t => { s with toState := t }
      else none

end Step

/-- When the calculator has removed both FIFOs and made them anew, and no
process holds one of an earlier session. -/
def initial (ι D : Type) : Fifos ι D where
  toState := State.initial ι D
  calculator := .openInput
  phase _ := .openInput
  late _ := false
  zeros := []

end Fifos

/-- The calculator and a caller for each `i`, from `open` to `close`. -/
def fifos (ι D : Type) [DecidableEq ι] [Fintype ι] [LE D] [DecidableLE D]
    [Add D] [Sub D] [Mul D] [Div D] [IntCast D] :
    System (Fifos ι D) (FifoEvent ι D) where
  init s := s = Fifos.initial ι D
  step s e t := s.step e = some t

/-! ## Which phases go together -/

namespace Phase

/-- The input has been opened. -/
def pastInput : Phase → Bool
  | openInput | waitInput => false
  | openOutput | waitOutput | loop | closeInput | closeOutput | ended
  | broken => true

def pastOutput : Phase → Bool
  | openInput | waitInput | openOutput | waitOutput => false
  | loop | closeInput | closeOutput | ended | broken => true

end Phase

/-- What the phases of the calculator and of a caller tell about each
other. -/
def Fits (calculator p : Phase) (late : Bool) : Prop :=
  -- nobody waits for an end that somebody has
  (calculator = .waitInput → p.hasInput = false) ∧
  (calculator = .waitOutput → p.hasOutput = false) ∧
  (p = .waitInput → calculator.hasInput = false) ∧
  (p = .waitOutput → calculator.hasOutput = false) ∧
  -- an `open` returns behind that of the other end
  (p.pastInput = true → calculator.pastInput = true) ∧
  (p.pastOutput = true → calculator.pastOutput = true) ∧
  -- the loop of the calculator ends without those that came in time
  (late = false → p.hasInput = true → calculator.closing = false) ∧
  (late = true → calculator.closing = true) ∧
  (p = .broken → late = true)

instance (calculator p : Phase) (late : Bool) :
    Decidable (Fits calculator p late) :=
  inferInstanceAs (Decidable (_ ∧ _ ∧ _ ∧ _ ∧ _ ∧ _ ∧ _ ∧ _ ∧ _))

section Fits

variable {c p : Phase} {l other : Bool}

/-- The calculator opens the input. -/
theorem fits_openInput (h : Fits .openInput p l)
    (hother : other = false → p.hasInput = false) :
    Fits (.enterInput other) p.wakeInput l := by
  revert h hother
  cases p <;> cases l <;> cases other <;> decide

theorem fits_openOutput (h : Fits .openOutput p l)
    (hother : other = false → p.hasOutput = false) :
    Fits (.enterOutput other) p.wakeOutput l := by
  revert h hother
  cases p <;> cases l <;> cases other <;> decide

theorem fits_stop (h : Fits .loop p l) (hp : p.hasInput = false) :
    Fits .closeInput p l := by
  revert h hp
  cases p <;> cases l <;> decide

theorem fits_closeOutput (h : Fits .closeInput p l) :
    Fits .closeOutput p l := by
  revert h
  cases p <;> cases l <;> decide

theorem fits_ended (h : Fits .closeOutput p l) : Fits .ended p l := by
  revert h
  cases p <;> cases l <;> decide

/-- A caller opens the input, seen by the others and by itself. -/
theorem fits_wakeInput (h : Fits c p l) : Fits c.wakeInput p l := by
  revert h
  cases c <;> cases p <;> cases l <;> decide

theorem fits_enterInput (h : Fits c .openInput l) :
    Fits c.wakeInput (.enterInput c.hasInput) c.closing := by
  revert h
  cases c <;> cases l <;> decide

theorem fits_wakeOutput (h : Fits c p l) : Fits c.wakeOutput p l := by
  revert h
  cases c <;> cases p <;> cases l <;> decide

theorem fits_enterOutput (h : Fits c .openOutput l) :
    Fits c.wakeOutput (.enterOutput c.hasOutput) l := by
  revert h
  cases c <;> cases l <;> decide

theorem fits_leave (h : Fits c .loop l) : Fits c .closeInput l := by
  revert h
  cases c <;> cases l <;> decide

theorem fits_leave' (h : Fits c .closeInput l) : Fits c .closeOutput l := by
  revert h
  cases c <;> cases l <;> decide

theorem fits_left (h : Fits c .closeOutput l) : Fits c .ended l := by
  revert h
  cases c <;> cases l <;> decide

/-- Only a late caller finds nobody at the other end of the input. -/
theorem fits_broken (h : Fits c .loop l) (hc : c.hasInput = false) :
    Fits c .broken l ∧ c.closing = true := by
  revert h hc
  cases c <;> cases l <;> decide

theorem fits_zero (h : Fits c .loop l) (hc : c.hasOutput = false) :
    l = true ∧ c.closing = true := by
  revert h hc
  cases c <;> cases l <;> decide

theorem fits_late (h : Fits c p l) (hl : l = true) : c.closing = true := by
  revert h hl
  cases c <;> cases p <;> cases l <;> decide

theorem fits_harmed (h : Fits c .broken l) : l = true := by
  revert h
  cases c <;> cases l <;> decide

/-- Whoever has the input behind the calculator's loop is late. -/
theorem fits_behind (h : Fits c p l) (hc : c.closing = true)
    (hp : p.hasInput = true) : l = true := by
  revert h hc hp
  cases c <;> cases p <;> cases l <;> decide

/-- Nobody waits for a calculator in its loop. -/
theorem fits_loop (h : Fits .loop p l) : p ≠ .waitInput ∧ p ≠ .waitOutput := by
  revert h
  cases p <;> cases l <;> decide

/-- Whom a calculator waits for that waits itself. -/
theorem fits_waitInput (h : Fits .waitInput p l) : p = .openInput := by
  revert h
  cases p <;> cases l <;> decide

theorem fits_waitOutput (h : Fits .waitOutput p l) :
    p = .openInput ∨ p = .openOutput := by
  revert h
  cases p <;> cases l <;> decide

end Fits

/-! ## Who waits for an answer -/

/-- Whether a caller waits for an answer. -/
def reading : Phase × CallerPc D → Nat
  | (.loop, .read _) => 1
  | _ => 0

theorem reading_of_ne {p : Phase} (hp : p ≠ .loop) (pc : CallerPc D) :
    reading (p, pc) = 0 := by
  cases p with
  | loop => exact absurd rfl hp
  | openInput | waitInput | openOutput | waitOutput | closeInput
  | closeOutput | ended | broken => rfl

section Readers

variable [Fintype ι]

def Fifos.readers (s : Fifos ι D) : Nat :=
  Processes.total reading fun i => (s.phase i, s.caller i)

variable {s t : Fifos ι D} {i : ι} {p : Phase} {pc : CallerPc D}

theorem readers_update [DecidableEq ι]
    (hphase : t.phase = Function.update s.phase i p)
    (hcaller : t.caller = Function.update s.caller i pc) :
    t.readers + reading (s.phase i, s.caller i) =
      s.readers + reading (p, pc) := by
  have hupdate : (fun j => (t.phase j, t.caller j)) =
      Function.update (fun j => (s.phase j, s.caller j)) i (p, pc) := by
    ext j : 1
    rw [hphase, hcaller]
    by_cases hj : j = i
    · subst hj
      rw [Function.update_self, Function.update_self, Function.update_self]
    · rw [Function.update_of_ne hj, Function.update_of_ne hj,
        Function.update_of_ne hj]
  rw [Fifos.readers, hupdate]
  exact Processes.total_update reading _ i (p, pc)

theorem readers_congr (h : ∀ i, reading (t.phase i, t.caller i) =
    reading (s.phase i, s.caller i)) : t.readers = s.readers :=
  Finset.sum_congr rfl fun i _ => h i

/-- An answer that is owed is owed to somebody. -/
theorem exists_reader (h : 0 < s.readers) :
    ∃ i rInfo, s.phase i = .loop ∧ s.caller i = .read rInfo := by
  by_contra hnone
  have hzero : s.readers = 0 := by
    refine Processes.total_eq_zero_iff.mpr fun i => ?_
    cases hphase : s.phase i with
    | loop =>
        cases hcaller : s.caller i with
        | read rInfo => exact absurd ⟨i, rInfo, hphase, hcaller⟩ hnone
        | scanf | write rInfo | ended => rfl
    | openInput | waitInput | openOutput | waitOutput | closeInput
    | closeOutput | ended | broken => rfl
  omega

theorem hasInput_of_someInput (h : s.someInput = false) (i : ι) :
    (s.phase i).hasInput = false := by
  refine Bool.eq_false_iff.mpr fun hi => ?_
  exact of_decide_eq_false h ⟨i, hi⟩

theorem hasOutput_of_someOutput (h : s.someOutput = false) (i : ι) :
    (s.phase i).hasOutput = false := by
  refine Bool.eq_false_iff.mpr fun hi => ?_
  exact of_decide_eq_false h ⟨i, hi⟩

end Readers

/-! ## What every step keeps -/

section Steps

variable [Fintype ι] [Add D] [Sub D] [Mul D] [Div D] [IntCast D]
  {s t : Fifos ι D} {i : ι}

structure Sound (s : Fifos ι D) : Prop where
  fits : ∀ i, Fits s.calculator (s.phase i) (s.late i)
  started : s.calculator.pastInput = true → ∃ i, s.phase i ≠ .openInput
  fresh : ∀ i, (s.phase i).pastOutput = false → s.caller i = .scanf
  zeros : ∀ i ∈ s.zeros, s.late i = true
  whole : s.calculator ≠ .broken
  counted : s.calculator.closing = false →
    s.readers = (s.pipes.contents integrate).length

theorem sound_initial : Sound (Fifos.initial ι D) := by
  refine ⟨fun i => ?_, fun h => ?_, fun i _ => rfl, fun i hi => ?_, ?_,
    fun _ => ?_⟩
  · show Fits .openInput .openInput false
    decide
  · cases h
  · cases hi
  · show Phase.openInput ≠ .broken
    decide
  · exact Processes.total_eq_zero_iff.mpr fun i => rfl

/-! ### The calculator -/

/-- The calculator opens the input. -/
theorem Sound.openInput (hs : Sound s) (hc : s.calculator = .openInput) :
    Sound { s with
      calculator := .enterInput s.someInput
      phase := fun i => (s.phase i).wakeInput } := by
  have hwake : ∀ p : Phase, p.wakeInput.pastOutput = p.pastOutput ∧
      (p ≠ .openInput → p.wakeInput ≠ .openInput) := by
    intro p
    cases p <;> decide
  refine ⟨fun i => ?_, fun hpast => ?_, fun i hi => ?_, hs.zeros, ?_,
    fun _ => ?_⟩
  · exact fits_openInput (hc ▸ hs.fits i) fun hnone =>
      hasInput_of_someInput hnone i
  · cases hsome : s.someInput with
    | false =>
        rw [hsome] at hpast
        cases hpast
    | true =>
        obtain ⟨i, hi⟩ := of_decide_eq_true hsome
        refine ⟨i, (hwake _).2 fun hopen => ?_⟩
        rw [hopen] at hi
        cases hi
  · exact hs.fresh i ((hwake _).1 ▸ hi)
  · show Phase.enterInput s.someInput ≠ .broken
    cases s.someInput <;> decide
  · rw [← hs.counted (by rw [hc]; rfl)]
    refine readers_congr fun i => ?_
    show reading ((s.phase i).wakeInput, s.caller i) = _
    cases s.phase i <;> rfl

/-- The calculator opens the output. -/
theorem Sound.openOutput (hs : Sound s) (hc : s.calculator = .openOutput) :
    Sound { s with
      calculator := .enterOutput s.someOutput
      phase := fun i => (s.phase i).wakeOutput } := by
  have hwake : ∀ p : Phase,
      (p.wakeOutput.pastOutput = false → p.pastOutput = false) ∧
        (p ≠ .openInput → p.wakeOutput ≠ .openInput) := by
    intro p
    cases p <;> decide
  refine ⟨fun i => ?_, fun _ => ?_, fun i hi => ?_, hs.zeros, ?_, fun _ => ?_⟩
  · exact fits_openOutput (hc ▸ hs.fits i) fun hnone =>
      hasOutput_of_someOutput hnone i
  · obtain ⟨i, hi⟩ := hs.started (by rw [hc]; rfl)
    exact ⟨i, (hwake _).2 hi⟩
  · exact hs.fresh i ((hwake _).1 hi)
  · show Phase.enterOutput s.someOutput ≠ .broken
    cases s.someOutput <;> decide
  · rw [← hs.counted (by rw [hc]; rfl)]
    refine readers_congr fun i => ?_
    show reading ((s.phase i).wakeOutput, s.caller i) = _
    -- whoever is woken has asked nothing yet
    cases hi : s.phase i with
    | waitOutput =>
        rw [hs.fresh i (by rw [hi]; rfl)]
        rfl
    | openInput | waitInput | openOutput | loop | closeInput | closeOutput
    | ended | broken => rfl

/-- Only the calculator changes its phase, behind its loop. -/
theorem Sound.serve (hs : Sound s) {c : Phase}
    (hfits : ∀ i, Fits c (s.phase i) (s.late i))
    (hpast : s.calculator.pastInput = true) (hclosing : c.closing = true)
    (hwhole : c ≠ .broken) : Sound { s with calculator := c } := by
  refine ⟨hfits, fun _ => hs.started hpast, hs.fresh, hs.zeros, hwhole,
    fun hopen => ?_⟩
  exact absurd (hopen.symm.trans hclosing) (by decide)

/-- Only the FIFOs change, and what is in them stays owed. -/
theorem Sound.move (hs : Sound s) {pipes : Pipeline (RangeInfo D) D}
    (hpipes : pipes.contents integrate = s.pipes.contents integrate) :
    Sound { s with pipes } := by
  refine ⟨hs.fits, hs.started, hs.fresh, hs.zeros, hs.whole, fun hopen => ?_⟩
  show s.readers = (pipes.contents integrate).length
  rw [hpipes]
  exact hs.counted hopen

/-- As long as something is in the FIFOs, somebody can read the output. -/
theorem Sound.someOutput (hs : Sound s)
    (hopen : s.calculator.closing = false)
    (howed : s.pipes.contents integrate ≠ []) : s.someOutput = true := by
  have hpos : 0 < s.readers := by
    rw [hs.counted hopen]
    exact List.length_pos_iff.mpr howed
  obtain ⟨i, -, hi, -⟩ := exists_reader hpos
  exact decide_eq_true ⟨i, by rw [hi]; rfl⟩

theorem Sound.calculatorTurn (hs : Sound s) (hc : s.calculator = .loop)
    (h : s.calculatorTurn = some t) : Sound t := by
  rw [Fifos.calculatorTurn] at h
  split at h
  · rename_i pipes hemit
    have hpipes := Pipeline.contents_emit hemit
    have howed : s.pipes.contents integrate ≠ [] := by
      rw [← hpipes]
      simp only [Pipeline.emit] at hemit
      split at hemit
      · cases hemit
        simp [Pipeline.contents]
      · cases hemit
    -- whoever waits for an answer reads the output, so no `SIGPIPE` here
    have hsome := hs.someOutput (by rw [hc]; rfl) howed
    rw [if_pos hsome] at h
    cases h
    exact hs.move hpipes
  · split at h
    · rename_i pipes hfetch
      cases h
      exact hs.move (Pipeline.contents_fetch hfetch)
    · split at h
      · cases h
      · rename_i hnone
        cases h
        have hnone := Bool.eq_false_iff.mpr hnone
        refine hs.serve (fun i => ?_) (by rw [hc]; rfl) rfl (by decide)
        exact fits_stop (hc ▸ hs.fits i) (hasInput_of_someInput hnone i)

theorem Sound.calculatorStep (hs : Sound s)
    (h : s.calculatorStep = some t) : Sound t := by
  rw [Fifos.calculatorStep] at h
  cases hc : s.calculator with
  | openInput =>
      simp only [hc] at h
      cases h
      exact hs.openInput hc
  | openOutput =>
      simp only [hc] at h
      cases h
      exact hs.openOutput hc
  | loop =>
      simp only [hc] at h
      exact hs.calculatorTurn hc h
  | closeInput =>
      simp only [hc] at h
      cases h
      refine hs.serve (fun i => ?_) (by rw [hc]; rfl) rfl (by decide)
      exact fits_closeOutput (hc ▸ hs.fits i)
  | closeOutput =>
      simp only [hc] at h
      cases h
      refine hs.serve (fun i => ?_) (by rw [hc]; rfl) rfl (by decide)
      exact fits_ended (hc ▸ hs.fits i)
  | waitInput | waitOutput | ended | broken =>
      simp only [hc, reduceCtorEq] at h

/-! ### The callers -/

variable [DecidableEq ι]

/-- One caller goes on, and the calculator may be woken. -/
structure Became (s t : Fifos ι D) (i : ι) (p : Phase) (pc : CallerPc D)
    (l : Bool) : Prop where
  phase : t.phase = Function.update s.phase i p
  caller : t.caller = Function.update s.caller i pc
  late : t.late = Function.update s.late i l
  others : ∀ q k, Fits s.calculator q k → Fits t.calculator q k
  own : Fits t.calculator p l
  entered : p ≠ .openInput
  fresh : p.pastOutput = false → pc = .scanf
  stays : s.late i = true → l = true
  zeros : ∀ j ∈ t.zeros, j ∈ s.zeros ∨ j = i ∧ l = true
  whole : t.calculator ≠ .broken
  counted : t.calculator.closing = false → s.calculator.closing = false ∧
    (t.pipes.contents integrate).length + reading (s.phase i, s.caller i) =
      (s.pipes.contents integrate).length + reading (p, pc)

theorem Sound.became (hs : Sound s) {p : Phase} {pc : CallerPc D}
    {l : Bool} (h : Became s t i p pc l) : Sound t := by
  have hphase : t.phase i = p := by rw [h.phase, Function.update_self]
  have hlate : t.late i = l := by rw [h.late, Function.update_self]
  refine ⟨fun j => ?_, fun _ => ⟨i, hphase ▸ h.entered⟩, fun j hj => ?_,
    fun j hj => ?_, h.whole, fun hopen => ?_⟩
  · -- the caller itself and the others, seen from the calculator
    by_cases hji : j = i
    · subst hji
      rw [hphase, hlate]
      exact h.own
    · rw [h.phase, h.late, Function.update_of_ne hji,
        Function.update_of_ne hji]
      exact h.others _ _ (hs.fits j)
  · by_cases hji : j = i
    · subst hji
      rw [h.caller, Function.update_self]
      exact h.fresh (hphase ▸ hj)
    · rw [h.phase, Function.update_of_ne hji] at hj
      rw [h.caller, Function.update_of_ne hji]
      exact hs.fresh j hj
  · by_cases hji : j = i
    · subst hji
      rw [hlate]
      rcases h.zeros j hj with hold | ⟨-, hnew⟩
      · exact h.stays (hs.zeros j hold)
      · exact hnew
    · rw [h.late, Function.update_of_ne hji]
      rcases h.zeros j hj with hold | ⟨hnew, -⟩
      · exact hs.zeros j hold
      · exact absurd hnew hji
  · obtain ⟨hbefore, hcontents⟩ := h.counted hopen
    have hreaders := readers_update h.phase h.caller
    have hcounted := hs.counted hbefore
    omega

/-- Only the phase of the caller changes. -/
theorem Sound.goto (hs : Sound s) {p : Phase} (hown : ∀ l,
      Fits s.calculator (s.phase i) l → Fits s.calculator p l)
    (hp : p ≠ .openInput) (hpast : p.pastOutput = true)
    (hreading : s.calculator.closing = false →
      reading (p, s.caller i) = reading (s.phase i, s.caller i)) :
    Sound (s.goto i p) := by
  refine hs.became (i := i) (p := p) ⟨rfl, (Function.update_eq_self ..).symm,
    (Function.update_eq_self ..).symm, fun _ _ h => h, hown _ (hs.fits i), hp,
    fun hnot => ?_, id, fun _ hj => .inl hj, hs.whole, fun hopen => ⟨hopen, ?_⟩⟩
  · rw [hpast] at hnot
    cases hnot
  · exact congrArg (_ + ·) (hreading hopen).symm

/-- A caller opens the input. -/
theorem Sound.enterInput (hs : Sound s) (hi : s.phase i = .openInput) :
    Sound { s.goto i (.enterInput s.calculator.hasInput) with
      calculator := s.calculator.wakeInput
      late := Function.update s.late i s.calculator.closing } := by
  have hfits := hs.fits i
  rw [hi] at hfits
  have hclosing : s.calculator.wakeInput.closing = s.calculator.closing := by
    cases s.calculator <;> rfl
  have hentered : ∀ other, Phase.enterInput other ≠ .openInput ∧
      Phase.enterInput other ≠ .loop := by decide
  obtain ⟨hopen, hloop⟩ := hentered s.calculator.hasInput
  refine hs.became (i := i) ⟨rfl, (Function.update_eq_self ..).symm, rfl,
    fun _ _ => fits_wakeInput, fits_enterInput hfits, hopen, fun _ => ?_, ?_,
    fun _ hj => .inl hj, ?_, fun hnext => ⟨hclosing ▸ hnext, ?_⟩⟩
  · exact hs.fresh i (by rw [hi]; rfl)
  · exact fits_late hfits
  · have hwhole := hs.whole
    revert hwhole
    show s.calculator ≠ .broken → s.calculator.wakeInput ≠ .broken
    cases s.calculator <;> decide
  · rw [hi, reading_of_ne hloop, reading_of_ne (by decide)]
    rfl

/-- A caller opens the output. -/
theorem Sound.enterOutput (hs : Sound s) (hi : s.phase i = .openOutput) :
    Sound { s.goto i (.enterOutput s.calculator.hasOutput) with
      calculator := s.calculator.wakeOutput } := by
  have hfits := hs.fits i
  rw [hi] at hfits
  have hclosing : s.calculator.wakeOutput.closing = s.calculator.closing := by
    cases s.calculator <;> rfl
  have hcaller : s.caller i = .scanf := hs.fresh i (by rw [hi]; rfl)
  refine hs.became (i := i) ⟨rfl, (Function.update_eq_self ..).symm,
    (Function.update_eq_self ..).symm, fun _ _ => fits_wakeOutput,
    fits_enterOutput hfits, ?_, fun _ => hcaller, id, fun _ hj => .inl hj, ?_,
    fun hnext => ⟨hclosing ▸ hnext, ?_⟩⟩
  · cases s.calculator.hasOutput <;> decide
  · have hwhole := hs.whole
    revert hwhole
    show s.calculator ≠ .broken → s.calculator.wakeOutput ≠ .broken
    cases s.calculator <;> decide
  · show _ + reading (s.phase i, s.caller i) = _ + reading (_, s.caller i)
    rw [hi, hcaller]
    cases s.calculator.hasOutput <;> rfl

/-- A caller changes its place in its loop, with what it does to the FIFOs. -/
theorem Sound.turn (hs : Sound s) (hi : s.phase i = .loop) {u : State ι D}
    {pc : CallerPc D} (hcaller : u.caller = Function.update s.caller i pc)
    (hcounted : (u.pipes.contents integrate).length +
        reading (.loop, s.caller i) =
      (s.pipes.contents integrate).length + reading (.loop, pc)) :
    Sound { s with toState := u } := by
  have hfits := hs.fits i
  rw [hi] at hfits
  refine hs.became (i := i) (p := .loop) ⟨?_, hcaller,
    (Function.update_eq_self ..).symm, fun _ _ h => h, hfits, by decide,
    fun hnot => ?_, id, fun _ hj => .inl hj, hs.whole, fun hopen => ⟨hopen, ?_⟩⟩
  · rw [← hi]
    exact (Function.update_eq_self ..).symm
  · cases hnot
  · rw [hi]
    exact hcounted

/-- The `read` of a caller finds the end of the output: the caller is late. -/
theorem Sound.zero (hs : Sound s) (hi : s.phase i = .loop)
    (hclosed : s.calculator.hasOutput = false) :
    Sound { s with
      toState := s.toState.goto i .scanf
      zeros := s.zeros ++ [i] } := by
  have hfits := hs.fits i
  rw [hi] at hfits
  obtain ⟨hlate, hclosing⟩ := fits_zero hfits hclosed
  refine hs.became (i := i) (p := .loop) ⟨?_,
    (rfl : _ = Function.update s.caller i .scanf),
    (Function.update_eq_self ..).symm, fun _ _ h => h, hfits, by decide,
    fun _ => rfl, id, fun j hj => ?_, hs.whole, fun hopen => ?_⟩
  · rw [← hi]
    exact (Function.update_eq_self ..).symm
  · rcases List.mem_append.mp hj with hj | hj
    · exact .inl hj
    · exact .inr ⟨List.mem_singleton.mp hj, hlate⟩
  · exact absurd (hopen.symm.trans hclosing) (by decide)

theorem Sound.callerTurn (hs : Sound s) (hi : s.phase i = .loop)
    (h : s.callerTurn i = some t) : Sound t := by
  have hfits := hs.fits i
  rw [hi] at hfits
  rw [Fifos.callerTurn] at h
  split at h
  · cases h
  · rename_i rInfo hcaller
    split at h
    · obtain ⟨u, hu, rfl⟩ := Option.map_eq_some_iff.mp h
      simp only [State.write, hcaller, Option.some.injEq] at hu
      subst hu
      refine hs.turn hi rfl ?_
      rw [hcaller]
      show ((s.pipes.put rInfo).contents integrate).length + 0 = _ + 1
      rw [Pipeline.contents_put, List.length_append]
      rfl
    · rename_i hclosed
      cases h
      -- nobody reads the input any more
      have hclosed := Bool.eq_false_iff.mpr hclosed
      have hclosing := (fits_broken hfits hclosed).2
      refine hs.goto (fun l hl => ?_) (by decide) rfl fun hopen => ?_
      · rw [hi] at hl
        exact (fits_broken hl hclosed).1
      · exact absurd (hopen.symm.trans hclosing) (by decide)
  · rename_i rInfo hcaller
    split at h
    · rename_i u hu
      cases h
      simp only [State.read, hcaller] at hu
      obtain ⟨x, hx, rfl⟩ := Option.map_eq_some_iff.mp hu
      have hcontents : s.pipes.contents integrate =
        x.1 :: x.2.contents integrate := Pipeline.contents_take hx
      refine hs.turn hi rfl ?_
      rw [hcaller, hcontents]
      rfl
    · split at h
      · cases h
      · rename_i hclosed
        cases h
        exact hs.zero hi (Bool.eq_false_iff.mpr hclosed)
  · rename_i hcaller
    cases h
    refine hs.goto (fun l hl => ?_) (by decide) rfl fun _ => ?_
    · rw [hi] at hl
      exact fits_leave hl
    · rw [hi, hcaller]
      rfl

theorem Sound.callerStep (hs : Sound s) (h : s.callerStep i = some t) :
    Sound t := by
  rw [Fifos.callerStep] at h
  cases hi : s.phase i with
  | openInput =>
      simp only [hi] at h
      cases h
      exact hs.enterInput hi
  | openOutput =>
      simp only [hi] at h
      cases h
      exact hs.enterOutput hi
  | loop =>
      simp only [hi] at h
      exact hs.callerTurn hi h
  | closeInput =>
      simp only [hi] at h
      cases h
      refine hs.goto (fun l hl => ?_) (by decide) rfl fun _ => ?_
      · rw [hi] at hl
        exact fits_leave' hl
      · rw [hi, reading_of_ne (by decide), reading_of_ne (by decide)]
  | closeOutput =>
      simp only [hi] at h
      cases h
      refine hs.goto (fun l hl => ?_) (by decide) rfl fun _ => ?_
      · rw [hi] at hl
        exact fits_left hl
      · rw [hi, reading_of_ne (by decide), reading_of_ne (by decide)]
  | waitInput | waitOutput | ended | broken =>
      simp only [hi, reduceCtorEq] at h

variable [LE D] [DecidableLE D]

theorem Sound.scanf (hs : Sound s) {rInfo : Option (RangeInfo D)}
    (hi : s.phase i = .loop) {u : State ι D}
    (h : s.toState.scanf i rInfo = some u) :
    Sound { s with toState := u } := by
  simp only [State.scanf] at h
  split at h
  case h_2 => cases h
  case h_1 hcaller =>
    split at h
    · cases h
      exact hs.turn hi rfl (by rw [hcaller]; rfl)
    · split at h
      · cases h
        exact hs.turn hi rfl (by rw [hcaller]; rfl)
      · cases h
        exact hs.turn hi rfl (by rw [hcaller]; rfl)

/-- **What every step keeps**, of whichever process. -/
theorem Sound.step (hs : Sound s) {e : FifoEvent ι D}
    (h : s.step e = some t) : Sound t := by
  cases e with
  | calculator => exact hs.calculatorStep h
  | caller i => exact hs.callerStep h
  | scanf i rInfo =>
      simp only [Fifos.step] at h
      split at h
      · rename_i hi
        obtain ⟨u, hu, rfl⟩ := Option.map_eq_some_iff.mp h
        exact hs.scanf hi hu
      · cases h

theorem sound_of_reachable (h : (fifos ι D).Reachable s) : Sound s := by
  refine h.invariant (I := Sound) ?_ fun _ _ _ hs _ hst => hs.step hst
  rintro s rfl
  exact sound_initial

/-! ## Who is harmed -/

theorem Fifos.calculatorTurn_refines (h : s.calculatorTurn = some t) :
    (∃ e, s.toState.step e = some t.toState) ∨ t.toState = s.toState := by
  rw [Fifos.calculatorTurn] at h
  split at h
  · rename_i pipes hemit
    split at h
    · cases h
      exact .inl ⟨.calculatorWrite, by rw [State.step, hemit]; rfl⟩
    · cases h
      exact .inr rfl
  · split at h
    · rename_i pipes hfetch
      cases h
      exact .inl ⟨.calculatorRead, by rw [State.step, hfetch]; rfl⟩
    · split at h
      · cases h
      · cases h
        exact .inr rfl

omit [Fintype ι] in
/-- A `read` that finds the end of the output is the turn that no turn of the
loop alone does: the caller goes on as after an answer, without one. -/
theorem Fifos.callerTurn_refines (h : s.callerTurn i = some t) :
    (∃ e, s.toState.step e = some t.toState) ∨
      t.pipes = s.pipes ∧ t.written = s.written ∧ t.readings = s.readings := by
  rw [Fifos.callerTurn] at h
  split at h
  · cases h
  · split at h
    · obtain ⟨u, hu, rfl⟩ := Option.map_eq_some_iff.mp h
      exact .inl ⟨.write i, hu⟩
    · cases h
      exact .inr ⟨rfl, rfl, rfl⟩
  · split at h
    · rename_i u hu
      cases h
      exact .inl ⟨.read i, hu⟩
    · split at h
      · cases h
      · cases h
        exact .inr ⟨rfl, rfl, rfl⟩
  · cases h
    exact .inr ⟨rfl, rfl, rfl⟩

/-- The loops are those of the calculator and the callers alone, but for a
`read` that finds the end of the output. -/
theorem Fifos.step_refines {e : FifoEvent ι D} (h : s.step e = some t) :
    (∃ e, s.toState.step e = some t.toState) ∨
      t.pipes = s.pipes ∧ t.written = s.written ∧ t.readings = s.readings := by
  cases e with
  | calculator =>
      simp only [Fifos.step, Fifos.calculatorStep] at h
      split at h
      case h_3 =>
        rcases Fifos.calculatorTurn_refines h with hloop | hsame
        · exact .inl hloop
        · exact .inr (by rw [hsame]; exact ⟨rfl, rfl, rfl⟩)
      case h_1 | h_2 | h_4 | h_5 =>
        cases h
        exact .inr ⟨rfl, rfl, rfl⟩
      case h_6 | h_7 | h_8 | h_9 => cases h
  | caller i =>
      simp only [Fifos.step, Fifos.callerStep] at h
      split at h
      case h_3 => exact Fifos.callerTurn_refines h
      case h_1 | h_2 | h_4 | h_5 =>
        cases h
        exact .inr ⟨rfl, rfl, rfl⟩
      case h_6 | h_7 | h_8 | h_9 => cases h
  | scanf i rInfo =>
      simp only [Fifos.step] at h
      split at h
      · obtain ⟨u, hu, rfl⟩ := Option.map_eq_some_iff.mp h
        exact .inl ⟨.scanf i rInfo, hu⟩
      · cases h

theorem answered_of_reachable (h : (fifos ι D).Reachable s) :
    s.Answered := by
  refine h.invariant (I := fun s => s.Answered) ?_ fun s e t hs _ hst => ?_
  · rintro s rfl
    exact books_initial.answered
  · rcases Fifos.step_refines hst with ⟨e, hloop⟩ | ⟨hpipes, hwritten, hread⟩
    · exact State.Answered.step hs hloop
    · unfold State.Answered
      rw [hpipes, hwritten, hread]
      exact hs

/-- **Only a caller that comes too late is harmed**: whoever is ended by its
`write`, or prints an integral without an answer, has opened the input when
the calculator's loop was over. The calculator is never ended by a `write`,
it does not leave its loop under a caller that came in time, and what is read
are the answers to what was written, in this order. -/
theorem harmed_is_late (h : (fifos ι D).Reachable s) :
    s.calculator ≠ .broken ∧
      (∀ i, s.phase i = .broken ∨ i ∈ s.zeros → s.late i = true) ∧
      (∀ i, s.calculator.closing = true → s.late i = false →
        (s.phase i).hasInput = false) ∧
      s.AnswersInOrder := by
  have hs := sound_of_reachable h
  refine ⟨hs.whole, fun i hi => ?_, fun i hclosing hlate => ?_,
    (answered_of_reachable h).inOrder⟩
  · rcases hi with hi | hi
    · exact fits_harmed (hi ▸ hs.fits i)
    · exact hs.zeros i hi
  · by_contra hi
    have hinput := Bool.eq_true_of_not_eq_false hi
    rw [fits_behind (hs.fits i) hclosing hinput] at hlate
    cases hlate

/-- The second caller opens the input when the calculator leaves it, and
prints an integral that nobody has computed. -/
theorem harmed_is_late_two : ∃ s : Fifos (Fin 2) Int,
    (fifos (Fin 2) Int).Reachable s ∧ s.zeros = [1] ∧ s.late 1 = true ∧
      s.late 0 = false := by
  obtain ⟨s, hs, hrun⟩ := System.ReachableIf.exists_of_runLabels
    (S := fifos (Fin 2) Int) (C := fun _ _ => True)
    Fifos.step (fun _ _ _ h => h)
    [.calculator, .caller 0, .calculator, .caller 0,
      .scanf 0 (some ⟨0, 1, 1⟩), .caller 0, .calculator, .calculator,
      .caller 0, .scanf 0 none, .caller 0, .caller 0, .calculator,
      .caller 1, .caller 1, .scanf 1 (some ⟨0, 1, 1⟩), .caller 1,
      .calculator, .calculator, .caller 1]
    (p := fun s => decide (s.zeros = [1] ∧ s.late 0 = false))
    (s := Fifos.initial (Fin 2) Int) (.init rfl) (by decide +kernel)
  obtain ⟨hzeros, hfirst⟩ := of_decide_eq_true hrun
  have hlate : s.late 1 = true :=
    (harmed_is_late hs).2.1 1 (.inr (hzeros ▸ List.mem_singleton.mpr rfl))
  exact ⟨s, hs, hzeros, hlate, hfirst⟩

/-! ## Where nothing can go on -/

/-- Nobody can take a step. -/
def Fifos.Stuck (s : Fifos ι D) : Prop :=
  ∀ e, s.step e = none

namespace Fifos.Stuck

/-- A caller that stands in its loop waits for an answer. -/
theorem reads (h : s.Stuck) (hi : s.phase i = .loop) :
    s.calculator.hasOutput = true ∧ s.pipes.output = [] ∧
      ∃ rInfo, s.caller i = .read rInfo := by
  have hturn : s.callerTurn i = none := by
    have hcaller := h (.caller i)
    simpa only [Fifos.step, Fifos.callerStep, hi] using hcaller
  rw [Fifos.callerTurn] at hturn
  cases hcaller : s.caller i with
  | scanf =>
      have hscanf := h (.scanf i none)
      simp [Fifos.step, hi, State.scanf, hcaller] at hscanf
  | write rInfo =>
      simp only [hcaller, State.write, Option.map_some] at hturn
      split at hturn <;> cases hturn
  | read rInfo =>
      simp only [hcaller, State.read] at hturn
      split at hturn
      · cases hturn
      · rename_i hread
        split at hturn
        · rename_i hopen
          refine ⟨hopen, ?_, rInfo, rfl⟩
          cases houtput : s.pipes.output with
          | nil => rfl
          | cons b output => simp [Pipeline.take, houtput] at hread
        · cases hturn
  | ended => simp [hcaller] at hturn

/-- Where a caller can stand. -/
theorem phase (h : s.Stuck) (i : ι) :
    s.phase i = .loop ∨ s.phase i = .waitInput ∨ s.phase i = .waitOutput ∨
      s.phase i = .ended ∨ s.phase i = .broken := by
  have hcaller := h (.caller i)
  simp only [Fifos.step, Fifos.callerStep] at hcaller
  split at hcaller <;> simp_all

theorem not_opening (h : s.Stuck) (i : ι) :
    ¬ (s.phase i = .openInput ∨ s.phase i = .openOutput) := by
  intro hopen
  rcases hopen with hopen | hopen <;>
    rcases h.phase i with hi | hi | hi | hi | hi <;>
    cases hopen.symm.trans hi

/-- Where the calculator can stand. -/
theorem calculator (h : s.Stuck) :
    s.calculator = .loop ∨ s.calculator = .waitInput ∨
      s.calculator = .waitOutput ∨ s.calculator = .ended ∨
      s.calculator = .broken := by
  have hturn := h .calculator
  simp only [Fifos.step, Fifos.calculatorStep] at hturn
  split at hturn <;> simp_all

/-- In its loop it waits for a range from a caller that has the input. -/
theorem loop (h : s.Stuck) (hc : s.calculator = .loop) :
    s.pipes.contents integrate = s.pipes.output ∧ s.someInput = true := by
  have hturn : s.calculatorTurn = none := by
    have hcalculator := h .calculator
    simpa only [Fifos.step, Fifos.calculatorStep, hc] using hcalculator
  rw [Fifos.calculatorTurn] at hturn
  split at hturn
  · split at hturn <;> cases hturn
  · rename_i hemit
    split at hturn
    · cases hturn
    · rename_i hfetch
      split at hturn
      · rename_i hsome
        exact ⟨Pipeline.contents_of_idle hemit hfetch, hsome⟩
      · cases hturn

end Fifos.Stuck

/-- The calculator does not wait in its loop for good: there would be a
caller with the input, and an answer for it. -/
theorem Sound.not_loop (hs : Sound s) (h : s.Stuck) :
    s.calculator ≠ .loop := by
  intro hc
  obtain ⟨hcontents, hsome⟩ := h.loop hc
  obtain ⟨i, hinput⟩ := of_decide_eq_true hsome
  obtain ⟨hnotInput, hnotOutput⟩ := fits_loop (hc ▸ hs.fits i)
  rcases h.phase i with hi | hi | hi | hi | hi
  · -- everything is answered, so nothing is owed to this caller
    obtain ⟨-, houtput, rInfo, hread⟩ := h.reads hi
    have hcounted := hs.counted (by rw [hc]; rfl)
    have hle := Processes.le_total reading
      (fun i => (s.phase i, s.caller i)) i
    rw [hcontents, houtput] at hcounted
    rw [← Fifos.readers, hcounted, hi, hread] at hle
    exact absurd hle (Nat.not_succ_le_zero 0)
  · exact hnotInput hi
  · exact hnotOutput hi
  · rw [hi] at hinput
    cases hinput
  · rw [hi] at hinput
    cases hinput

/-- The calculator waits for an input that no caller will open. -/
theorem Sound.isEmpty (hs : Sound s) (h : s.Stuck)
    (hc : s.calculator = .waitInput) : IsEmpty ι :=
  ⟨fun i => h.not_opening i (.inl (fits_waitInput (hc ▸ hs.fits i)))⟩

/-- It does not wait for the output: the caller that has let it pass the
input opens the output. -/
theorem Sound.not_waitOutput (hs : Sound s) (h : s.Stuck) :
    s.calculator ≠ .waitOutput := by
  intro hc
  obtain ⟨i, -⟩ := hs.started (by rw [hc]; rfl)
  exact h.not_opening i (fits_waitOutput (hc ▸ hs.fits i))

/-- **Only callers that come too late are left behind**: when nobody can take
a step, the calculator has ended, unless there is no caller at all, and so
have the callers that came in time. The others have ended, or they wait in an
`open` for a calculator that is gone, or their `write` has ended them. -/
theorem left_is_late (h : (fifos ι D).Reachable s) (hstuck : s.Stuck) :
    (s.calculator = .ended ∨ s.calculator = .waitInput ∧ IsEmpty ι) ∧
      ∀ i, s.phase i = .ended ∨ s.late i = true ∧
        (s.phase i = .waitInput ∨ s.phase i = .waitOutput ∨
          s.phase i = .broken) := by
  have hs := sound_of_reachable h
  have hcalculator : s.calculator = .ended ∨
      s.calculator = .waitInput ∧ IsEmpty ι := by
    rcases hstuck.calculator with hc | hc | hc | hc | hc
    · exact absurd hc (hs.not_loop hstuck)
    · exact .inr ⟨hc, hs.isEmpty hstuck hc⟩
    · exact absurd hc (hs.not_waitOutput hstuck)
    · exact .inl hc
    · exact absurd hc hs.whole
  refine ⟨hcalculator, fun i => ?_⟩
  rcases hcalculator with hc | ⟨-, hempty⟩
  · -- whoever has the input now has opened it too late
    have hlate : (s.phase i).hasInput = true → s.late i = true :=
      fits_behind (hs.fits i) (by rw [hc]; rfl)
    rcases hstuck.phase i with hi | hi | hi | hi | hi
    · have hopen := (hstuck.reads hi).1
      rw [hc] at hopen
      cases hopen
    · exact .inr ⟨hlate (by rw [hi]; rfl), .inl hi⟩
    · exact .inr ⟨hlate (by rw [hi]; rfl), .inr (.inl hi)⟩
    · exact .inl hi
    · exact .inr ⟨fits_harmed (hi ▸ hs.fits i), .inr (.inr hi)⟩
  · exact hempty.elim i

end Steps

/-- The second caller opens the input when the calculator has ended. -/
theorem left_is_late_two : ∃ s : Fifos (Fin 2) Int,
    (fifos (Fin 2) Int).Reachable s ∧ s.Stuck ∧
      s.phase 1 = .waitInput ∧ s.late 1 = true := by
  obtain ⟨s, hs, hrun⟩ := System.ReachableIf.exists_of_runLabels
    (S := fifos (Fin 2) Int) (C := fun _ _ => True)
    Fifos.step (fun _ _ _ h => h)
    [.calculator, .caller 0, .calculator, .caller 0, .scanf 0 none,
      .caller 0, .caller 0, .caller 0, .calculator, .calculator,
      .calculator, .caller 1]
    (p := fun s => decide (s.calculator = .ended ∧ s.phase 0 = .ended ∧
      s.phase 1 = .waitInput))
    (s := Fifos.initial (Fin 2) Int) (.init rfl) (by decide +kernel)
  obtain ⟨hcalculator, hfirst, hsecond⟩ := of_decide_eq_true hrun
  have hphase : ∀ i, s.phase i = .ended ∨ s.phase i = .waitInput :=
    Fin.forall_fin_two.mpr ⟨.inl hfirst, .inr hsecond⟩
  have hstuck : s.Stuck := by
    intro e
    cases e with
    | calculator => simp [Fifos.step, Fifos.calculatorStep, hcalculator]
    | caller i =>
        rcases hphase i with hi | hi <;>
          simp [Fifos.step, Fifos.callerStep, hi]
    | scanf i rInfo =>
        rcases hphase i with hi | hi <;> simp [Fifos.step, hi]
  refine ⟨s, hs, hstuck, hsecond, ?_⟩
  rcases (left_is_late hs hstuck).2 1 with hended | ⟨hlate, -⟩
  · rw [hsecond] at hended
    cases hended
  · exact hlate

end Sysops.Cw06
