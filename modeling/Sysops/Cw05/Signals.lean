import Sysops.Library.Runs
import Mathlib.Logic.Function.Basic
import Mathlib.Data.List.Basic

/-!
# `cw05/zad2`: the catcher and its senders

`catcher.c` and any number of processes of `sender.c`. `SIGUSR1` is a
standard signal: it is blocked while its handler runs, a process has at most
one pending, and a further one is dropped although `sigqueue` succeeds. A
signal that is not blocked runs its handler at once; before `sigaction` it
ends the process.
-/

namespace Sysops.Cw05

/-! ## The programs -/

def workNumbers : Int := 1
def workPrintNChanges : Int := 2
def workFinish : Int := 3

/-- The lines that `work_dispatch` prints. -/
def workDispatch (workType : Int) (workTypeUpdates : Nat) : List String :=
  if workType = workNumbers then
    (List.range 100).map fun i => toString (i + 1)
  else if workType = workPrintNChanges then
    ["work type changes: " ++ toString workTypeUpdates]
  else []

variable {P : Type} [DecidableEq P]

/-- What the handler reads of its `siginfo_t`. -/
structure Siginfo (P : Type) where
  siPid : P
  sivalInt : Int
  deriving DecidableEq

/-- Where the catcher is: before `sigaction`, in `pause`, in its handler
before one of its statements, or ended. -/
inductive CatcherPc (P : Type) where
  | start
  | pause
  | dispatch (info : Siginfo P)
  | count (info : Siginfo P)
  | confirm (info : Siginfo P)
  | test (info : Siginfo P)
  /-- By the default action of the signal. -/
  | terminated
  /-- By `exit(EXIT_FAILURE)` in the handler. -/
  | failed
  /-- By `exit(EXIT_SUCCESS)` in the handler. -/
  | finished
  deriving DecidableEq

/-- Where a sender is: before one of its three calls, waiting in the last
one, or ended. -/
inductive SenderPc where
  | sigaction | sigqueue | sigsuspend | suspended | done | failed
  deriving DecidableEq

/-- A sender, and the record of the confirmations that it was sent. -/
structure Sender where
  pc : SenderPc
  confirmations : Nat

/-- The catcher and its senders, with a record of the calls of `sigqueue`
that succeeded and of the signals that came to nothing. -/
structure State (P : Type) where
  pc : CatcherPc P
  pending : Option (Siginfo P)
  workTypeUpdates : Nat
  printed : List String
  senders : P → Sender
  requests : List P
  lost : List P

inductive Event (P : Type) where
  | catcher
  | sender (p : P)
  deriving DecidableEq

namespace State

def setSender (s : State P) (p : P) (x : Sender) : State P :=
  { s with senders := Function.update s.senders p x }

/-- `SIGUSR1` arrives at the catcher while it is blocked. -/
def block (s : State P) (info : Siginfo P) : State P :=
  match s.pending with
  | none => { s with pending := some info }
  | some _ => { s with lost := s.lost ++ [info.siPid] }

/-- `SIGUSR1` arrives at the catcher, if there still is one. -/
def raise (s : State P) (info : Siginfo P) : Option (State P) :=
  match s.pc with
  | .start => some { s with pc := .terminated, lost := s.lost ++ [info.siPid] }
  | .pause => some { s with pc := .dispatch info }
  | .dispatch _ | .count _ | .confirm _ | .test _ => some (s.block info)
  | .terminated | .failed | .finished => none

/-- `kill(pid, SIGUSR1)` for a sender, if there still is one. -/
def confirm (s : State P) (p : P) : Option (State P) :=
  let x := s.senders p
  let x := { x with confirmations := x.confirmations + 1 }
  match x.pc with
  | .sigaction => some (s.setSender p { x with pc := .failed })
  | .sigqueue | .sigsuspend => some (s.setSender p x)
  -- the handler runs, and `sigsuspend` returns
  | .suspended => some (s.setSender p { x with pc := .done })
  | .done | .failed => none

def catcherStep (s : State P) : Option (State P) :=
  match s.pc with
  | .start => some { s with pc := .pause }
  | .dispatch info => some { s with
      pc := .count info
      printed := s.printed ++ workDispatch info.sivalInt s.workTypeUpdates }
  | .count info => some { s with
      pc := .confirm info
      workTypeUpdates := s.workTypeUpdates + 1 }
  | .confirm info =>
      match s.confirm info.siPid with
      | none => some { s with pc := .failed }
      | some t => some { t with pc := .test info }
  | .test info =>
      if info.sivalInt = workFinish then some { s with pc := .finished }
      else
        match s.pending with
        | none => some { s with pc := .pause }
        | some next => some { s with pc := .dispatch next, pending := none }
  | .pause | .terminated | .failed | .finished => none

/-- The next step of the sender `p`, whose argument is `workType p`. -/
def senderStep (workType : P → Int) (s : State P) (p : P) :
    Option (State P) :=
  let x := s.senders p
  match x.pc with
  | .sigaction => some (s.setSender p { x with pc := .sigqueue })
  | .sigqueue =>
      match s.raise ⟨p, workType p⟩ with
      | none => some (s.setSender p { x with pc := .failed })
      | some t => some { t.setSender p { x with pc := .sigsuspend } with
          requests := t.requests ++ [p] }
  | .sigsuspend => some (s.setSender p { x with pc := .suspended })
  | .suspended | .done | .failed => none

def step (workType : P → Int) (s : State P) : Event P → Option (State P)
  | .catcher => s.catcherStep
  | .sender p => s.senderStep workType p

def initial (P : Type) : State P where
  pc := .start
  pending := none
  workTypeUpdates := 0
  printed := []
  senders _ := ⟨.sigaction, 0⟩
  requests := []
  lost := []

end State

/-- The catcher and a sender for each `p`. -/
def signals (workType : P → Int) : System (State P) (Event P) where
  init s := s = State.initial P
  step s e t := s.step workType e = some t

/-! ## Where the requests are -/

/-- The request in the handler, before it is counted. -/
def CatcherPc.uncounted : CatcherPc P → List P
  | .dispatch info | .count info => [info.siPid]
  | _ => []

/-- The request in the handler, before it is confirmed. -/
def CatcherPc.unconfirmed : CatcherPc P → List P
  | .dispatch info | .count info | .confirm info => [info.siPid]
  | _ => []

/-- The request that is pending. -/
def State.waiting (s : State P) : List P :=
  (s.pending.map Siginfo.siPid).toList

/-- No handler runs. -/
def CatcherPc.Idle : CatcherPc P → Prop
  | .start | .pause | .terminated => True
  | _ => False

instance : (pc : CatcherPc P) → Decidable pc.Idle
  | .start | .pause | .terminated => isTrue trivial
  | .dispatch _ | .count _ | .confirm _ | .test _ => isFalse id
  | .failed | .finished => isFalse id

/-- The state of a sender that has called `sigqueue` successfully `k`
times. -/
def Sender.Fits (x : Sender) (k : Nat) : Prop :=
  match x.pc with
  | .sigaction | .sigqueue | .failed => k = 0
  | .sigsuspend | .suspended => k = 1
  | .done => k = 1 ∧ x.confirmations = 1

/-- Each request is counted, in the handler, pending or lost; the same for
the confirmations of each sender. -/
structure Books (s : State P) : Prop where
  counted : s.requests.length = s.workTypeUpdates +
    (s.pc.uncounted.length + s.waiting.length + s.lost.length)
  confirmed : ∀ p, s.requests.count p = (s.senders p).confirmations +
    (s.pc.unconfirmed.count p + s.waiting.count p + s.lost.count p)
  fits : ∀ p, (s.senders p).Fits (s.requests.count p)
  idle : s.pc.Idle → s.pending = none
  notFailed : s.pc ≠ .failed

section Steps

variable {s t : State P} {info : Siginfo P} {p : P} {workType : P → Int}

/-- A signal that arrives goes to the handler, is pending, or is lost. -/
structure Raised (s t : State P) (p : P) : Prop where
  counted : t.pc.uncounted.length + t.waiting.length + t.lost.length =
    s.pc.uncounted.length + s.waiting.length + s.lost.length + 1
  confirmed : ∀ q, t.pc.unconfirmed.count q + t.waiting.count q +
    t.lost.count q = s.pc.unconfirmed.count q + s.waiting.count q +
      s.lost.count q + [p].count q
  updates : t.workTypeUpdates = s.workTypeUpdates
  senders : t.senders = s.senders
  requests : t.requests = s.requests
  idle : t.pc.Idle → t.pending = none
  notFailed : t.pc ≠ .failed

theorem raised_block (s : State P) (info : Siginfo P)
    (hrunning : ¬ s.pc.Idle) (hfailed : s.pc ≠ .failed) :
    Raised s (s.block info) info.siPid := by
  unfold State.block
  split
  · rename_i hpending
    refine ⟨?_, ?_, rfl, rfl, rfl, fun hidle => absurd hidle hrunning, hfailed⟩
    · simp [State.waiting, hpending]
      omega
    · intro q
      simp [State.waiting, hpending]
      omega
  · refine ⟨?_, ?_, rfl, rfl, rfl, fun hidle => absurd hidle hrunning, hfailed⟩
    · simp [State.waiting]
      omega
    · intro q
      simp [State.waiting]
      omega

theorem raised (h : s.raise info = some t)
    (hidle : s.pc.Idle → s.pending = none) : Raised s t info.siPid := by
  unfold State.raise at h
  split at h
  case h_1 hpc =>
    obtain rfl := Option.some.inj h
    have hpending := hidle (by rw [hpc]; trivial)
    refine ⟨?_, ?_, rfl, rfl, rfl, fun _ => hpending, nofun⟩
    · simp [State.waiting, hpending, hpc, CatcherPc.uncounted]
    · intro q
      simp [State.waiting, hpending, hpc, CatcherPc.unconfirmed]
  case h_2 hpc =>
    obtain rfl := Option.some.inj h
    have hpending := hidle (by rw [hpc]; trivial)
    refine ⟨?_, ?_, rfl, rfl, rfl, fun _ => hpending, nofun⟩
    · simp [State.waiting, hpending, hpc, CatcherPc.uncounted]
      omega
    · intro q
      simp [State.waiting, hpending, hpc, CatcherPc.unconfirmed]
      omega
  case h_3 hpc | h_4 hpc | h_5 hpc | h_6 hpc =>
    obtain rfl := Option.some.inj h
    refine raised_block s info ?_ ?_
    · rw [hpc]
      exact id
    · rw [hpc]
      nofun
  case h_7 | h_8 | h_9 => cases h

theorem Books.setSender (h : Books s) {x : Sender}
    (hconfirmations : x.confirmations = (s.senders p).confirmations)
    (hfits : x.Fits (s.requests.count p)) : Books (s.setSender p x) := by
  refine ⟨h.counted, ?_, ?_, h.idle, h.notFailed⟩
  · refine (Function.forall_update_iff s.senders fun q x =>
      s.requests.count q = x.confirmations + (s.pc.unconfirmed.count q +
        s.waiting.count q + s.lost.count q)).mpr ⟨?_, fun q _ => h.confirmed q⟩
    rw [hconfirmations]
    exact h.confirmed p
  · exact (Function.forall_update_iff s.senders fun q x =>
      x.Fits (s.requests.count q)).mpr ⟨hfits, fun q _ => h.fits q⟩

/-- A `sigqueue` that succeeds. -/
theorem Books.request (h : Books s) (hraised : Raised s t p)
    (hpc : (s.senders p).pc = .sigqueue) :
    Books { t.setSender p { s.senders p with pc := .sigsuspend } with
      requests := t.requests ++ [p] } := by
  have hzero : s.requests.count p = 0 := by
    have hfits := h.fits p
    rwa [Sender.Fits, hpc] at hfits
  have hcount : ∀ q, (t.requests ++ [p]).count q =
      s.requests.count q + [p].count q := by
    intro q
    rw [List.count_append, hraised.requests]
  refine ⟨?_, ?_, ?_, hraised.idle, hraised.notFailed⟩
  · have hold := h.counted
    have hnew := hraised.counted
    show (t.requests ++ [p]).length = t.workTypeUpdates +
      (t.pc.uncounted.length + t.waiting.length + t.lost.length)
    rw [hnew, hraised.updates, List.length_append, hraised.requests,
      List.length_singleton]
    omega
  · refine (Function.forall_update_iff t.senders fun q x =>
      (t.requests ++ [p]).count q = x.confirmations +
        (t.pc.unconfirmed.count q + t.waiting.count q + t.lost.count q)).mpr
      ⟨?_, fun q _ => ?_⟩
    · have hold := h.confirmed p
      rw [hcount, hraised.confirmed]
      show _ = (s.senders p).confirmations + _
      omega
    · have hold := h.confirmed q
      rw [hcount, hraised.confirmed, hraised.senders]
      omega
  · refine (Function.forall_update_iff t.senders fun q x =>
      x.Fits ((t.requests ++ [p]).count q)).mpr ⟨?_, fun q hq => ?_⟩
    · rw [hcount, hzero, List.count_singleton_self]
      rfl
    · rw [hcount, List.count_singleton, hraised.senders,
        if_neg (by simpa using Ne.symm hq)]
      exact h.fits q

theorem Books.senderStep (h : Books s)
    (hstep : s.senderStep workType p = some t) : Books t := by
  have hfits := h.fits p
  simp only [State.senderStep] at hstep
  split at hstep
  case h_1 hpc =>
    obtain rfl := Option.some.inj hstep
    rw [Sender.Fits, hpc] at hfits
    exact h.setSender rfl hfits
  case h_2 hpc =>
    split at hstep
    · obtain rfl := Option.some.inj hstep
      rw [Sender.Fits, hpc] at hfits
      exact h.setSender rfl hfits
    · rename_i u hraise
      obtain rfl := Option.some.inj hstep
      exact h.request (raised hraise h.idle) hpc
  case h_3 hpc =>
    obtain rfl := Option.some.inj hstep
    rw [Sender.Fits, hpc] at hfits
    exact h.setSender rfl hfits
  case h_4 | h_5 | h_6 => cases hstep

/-- The sender of the request in the handler still waits, or will. -/
theorem Books.confirm_eq (h : Books s) (hpc : s.pc = .confirm info) :
    ∃ x : Sender, s.confirm info.siPid = some (s.setSender info.siPid x) ∧
      x.confirmations = (s.senders info.siPid).confirmations + 1 ∧
      x.Fits (s.requests.count info.siPid) ∧
      ((s.senders info.siPid).pc = .suspended ∧ x.pc = .done ∨
        (s.senders info.siPid).pc = .sigsuspend ∧ x.pc = .sigsuspend) := by
  have hconfirmed := h.confirmed info.siPid
  rw [hpc, CatcherPc.unconfirmed, List.count_singleton_self] at hconfirmed
  have hfits := h.fits info.siPid
  cases hsender : (s.senders info.siPid).pc with
  | sigaction | sigqueue | failed =>
      -- it has made no request that could be confirmed
      rw [Sender.Fits, hsender] at hfits
      change _ = 0 at hfits
      omega
  | sigsuspend =>
      rw [Sender.Fits, hsender] at hfits
      refine ⟨{ s.senders info.siPid with confirmations :=
        (s.senders info.siPid).confirmations + 1 }, ?_, rfl, ?_,
        .inr ⟨rfl, hsender⟩⟩
      · simp [State.confirm, hsender]
      · rw [Sender.Fits, hsender]
        exact hfits
  | suspended =>
      rw [Sender.Fits, hsender] at hfits
      change _ = 1 at hfits
      refine ⟨⟨.done, (s.senders info.siPid).confirmations + 1⟩, ?_, rfl,
        ⟨hfits, ?_⟩, .inl ⟨rfl, rfl⟩⟩
      · simp [State.confirm, hsender]
      · show (s.senders info.siPid).confirmations + 1 = 1
        omega
  | done =>
      -- its one request is confirmed already
      rw [Sender.Fits, hsender] at hfits
      obtain ⟨hone, hsent⟩ := hfits
      omega

theorem Books.confirm (h : Books s) (hpc : s.pc = .confirm info) {x : Sender}
    (hconfirmations : x.confirmations =
      (s.senders info.siPid).confirmations + 1)
    (hfits : x.Fits (s.requests.count info.siPid)) :
    Books { s.setSender info.siPid x with pc := .test info } := by
  have hcounted := h.counted
  have hconfirmed := h.confirmed
  simp only [hpc, CatcherPc.uncounted] at hcounted
  simp only [hpc, CatcherPc.unconfirmed] at hconfirmed
  refine ⟨hcounted, ?_, ?_, fun hidle => hidle.elim, nofun⟩
  · refine (Function.forall_update_iff s.senders fun q x =>
      s.requests.count q = x.confirmations + (([] : List P).count q +
        s.waiting.count q + s.lost.count q)).mpr ⟨?_, fun q hq => ?_⟩
    · have hp := hconfirmed info.siPid
      rw [List.count_singleton_self] at hp
      rw [hconfirmations, List.count_nil]
      omega
    · have hzero : [info.siPid].count q = ([] : List P).count q := by
        rw [List.count_singleton, if_neg (by simpa using Ne.symm hq),
          List.count_nil]
      rw [← hzero]
      exact hconfirmed q
  · exact (Function.forall_update_iff s.senders fun q x =>
      x.Fits (s.requests.count q)).mpr ⟨hfits, fun q _ => h.fits q⟩

/-- The end of the handler of `info`. -/
theorem Books.return (h : Books s) (hpc : s.pc = .test info) :
    Books { s with pc := .finished } ∧
      (s.pending = none → Books { s with pc := .pause }) ∧
        ∀ next, s.pending = some next →
          Books { s with pc := .dispatch next, pending := none } := by
  obtain ⟨hcounted, hconfirmed, hfits, -, -⟩ := h
  simp only [hpc, CatcherPc.uncounted] at hcounted
  simp only [hpc, CatcherPc.unconfirmed] at hconfirmed
  refine ⟨⟨hcounted, hconfirmed, hfits, fun hidle => hidle.elim, nofun⟩,
    fun hnone => ⟨hcounted, hconfirmed, hfits, fun _ => hnone, nofun⟩, ?_⟩
  intro next hnext
  have hwaiting : s.waiting = [next.siPid] := by
    rw [State.waiting, hnext]
    rfl
  rw [hwaiting] at hcounted
  refine ⟨?_, ?_, hfits, fun hidle => hidle.elim, nofun⟩
  · show _ = s.workTypeUpdates +
      ([next.siPid].length + ([] : List P).length + s.lost.length)
    rw [hcounted, List.length_nil]
    omega
  · intro q
    have hq := hconfirmed q
    rw [hwaiting, List.count_nil] at hq
    show _ = (s.senders q).confirmations +
      ([next.siPid].count q + ([] : List P).count q + s.lost.count q)
    rw [hq, List.count_nil]
    omega

theorem Books.catcherStep (h : Books s) (hstep : s.catcherStep = some t) :
    Books t := by
  have hcounted := h.counted
  have hconfirmed := h.confirmed
  simp only [State.catcherStep] at hstep
  split at hstep
  case h_1 hpc =>
    obtain rfl := Option.some.inj hstep
    simp only [hpc, CatcherPc.uncounted] at hcounted
    simp only [hpc, CatcherPc.unconfirmed] at hconfirmed
    refine ⟨hcounted, hconfirmed, h.fits, fun _ => h.idle ?_, nofun⟩
    rw [hpc]
    trivial
  case h_2 info hpc =>
    obtain rfl := Option.some.inj hstep
    simp only [hpc, CatcherPc.uncounted] at hcounted
    simp only [hpc, CatcherPc.unconfirmed] at hconfirmed
    exact ⟨hcounted, hconfirmed, h.fits, fun hidle => hidle.elim, nofun⟩
  case h_3 info hpc =>
    obtain rfl := Option.some.inj hstep
    simp only [hpc, CatcherPc.uncounted] at hcounted
    simp only [hpc, CatcherPc.unconfirmed] at hconfirmed
    refine ⟨?_, hconfirmed, h.fits, fun hidle => hidle.elim, nofun⟩
    show _ = s.workTypeUpdates + 1 +
      (([] : List P).length + s.waiting.length + s.lost.length)
    rw [hcounted, List.length_nil, List.length_singleton]
    omega
  case h_4 info hpc =>
    obtain ⟨x, hconfirm, hconfirmations, hfits, -⟩ := h.confirm_eq hpc
    simp only [hconfirm] at hstep
    obtain rfl := Option.some.inj hstep
    exact h.confirm hpc hconfirmations hfits
  case h_5 info hpc =>
    obtain ⟨hfinish, hpause, hnext⟩ := h.return hpc
    split at hstep
    · obtain rfl := Option.some.inj hstep
      exact hfinish
    · split at hstep
      · rename_i hpending
        obtain rfl := Option.some.inj hstep
        exact hpause hpending
      · rename_i next hpending
        obtain rfl := Option.some.inj hstep
        exact hnext next hpending
  case h_6 | h_7 | h_8 | h_9 => cases hstep

theorem Books.step (h : Books s) {e : Event P}
    (hstep : s.step workType e = some t) : Books t := by
  cases e with
  | catcher => exact h.catcherStep hstep
  | sender p => exact h.senderStep hstep

theorem books_initial : Books (State.initial P) :=
  ⟨rfl, fun _ => rfl, fun _ => rfl, fun _ => rfl, nofun⟩

/-- At the end of every run, no request is unaccounted for. -/
theorem books_of_run {tr : List (Event P × State P)}
    (h : (signals workType).Run (State.initial P) tr) :
    Books (System.final (State.initial P) tr) :=
  h.final_invariant (fun _ _ _ hs hstep => hs.step hstep) books_initial

end Steps

end Sysops.Cw05
