import Sysops.Cw05.Signals
import Mathlib.Data.List.Nodup

/-!
# `cw05/zad2`: one request after the other

Seen from outside, the catcher takes the requests one after the other, in
the order in which `sigqueue` was called, each at most once: its output is
that of handling a list of requests in a loop. Those that are dropped are
left out of the list, and nothing comes behind a `WORK_FINISH`.
-/

namespace Sysops.Cw05

variable {P : Type} [DecidableEq P]

/-! ## What the catcher is for -/

/-- The output for a list of requests, handled in a loop that counts them. -/
def printedFor (workType : P → Int) (handled : List P) : List String :=
  handled.zipIdx.flatMap fun x => workDispatch (workType x.1) x.2

omit [DecidableEq P] in
@[simp]
theorem printedFor_append (workType : P → Int) (handled : List P) (p : P) :
    printedFor workType (handled ++ [p]) =
      printedFor workType handled ++
        workDispatch (workType p) handled.length := by
  simp [printedFor, List.zipIdx_append]

/-- The catcher has handled these requests, but for the end of the last. -/
structure Serially (workType : P → Int) (s : State P) (handled : List P) :
    Prop where
  inOrder : handled.Sublist s.requests
  once : handled.Nodup
  printed : s.printed = printedFor workType handled
  updates : s.workTypeUpdates ≤ handled.length
  confirmed : ∀ p, (s.senders p).confirmations ≤ handled.count p
  finishLast : ∀ p ∈ handled.dropLast, workType p ≠ workFinish
  atRest : (s.pc = .pause ∨ s.pc = .finished) →
    s.workTypeUpdates = handled.length ∧
      ∀ p, (s.senders p).confirmations = handled.count p

/-! ## The parts of the handler -/

namespace CatcherPc

/-- The request in the handler. -/
def info : CatcherPc P → Option (Siginfo P)
  | .dispatch info | .count info | .confirm info | .test info => some info
  | .start | .pause | .terminated | .failed | .finished => none

def inHandler (pc : CatcherPc P) : List P :=
  (pc.info.map Siginfo.siPid).toList

/-- The request in the handler, if its output is there. -/
def dispatched : CatcherPc P → List P
  | .count info | .confirm info | .test info => [info.siPid]
  | .start | .pause | .dispatch _ | .terminated | .failed | .finished => []

/-- The same, if it has been counted. -/
def counted : CatcherPc P → List P
  | .confirm info | .test info => [info.siPid]
  | .start | .pause | .dispatch _ | .count _ | .terminated | .failed
  | .finished => []

/-- The same, if it has been confirmed. -/
def confirmed : CatcherPc P → List P
  | .test info => [info.siPid]
  | .start | .pause | .dispatch _ | .count _ | .confirm _ | .terminated
  | .failed | .finished => []

end CatcherPc

/-- The handler has returned from the requests `done`, in this order. -/
structure Handling (workType : P → Int) (s : State P) (done : List P) :
    Prop where
  inOrder : (done ++ (s.pc.inHandler ++ s.waiting)).Sublist s.requests
  printed : s.printed = printedFor workType (done ++ s.pc.dispatched)
  updates : s.workTypeUpdates = (done ++ s.pc.counted).length
  confirmed : ∀ p, (s.senders p).confirmations =
    (done ++ s.pc.confirmed).count p
  asks : ∀ info, s.pc.info = some info ∨ s.pending = some info →
    info.sivalInt = workType info.siPid
  finishLast : ∀ p ∈ done.dropLast, workType p ≠ workFinish
  goesOn : s.pc = .finished ∨ ∀ p ∈ done, workType p ≠ workFinish

section Steps

variable {workType : P → Int} {s t : State P} {done : List P} {p : P}
  {info : Siginfo P}

/-- A signal that arrives goes behind what is there already. -/
structure Queued (s t : State P) (info : Siginfo P) : Prop where
  inOrder : (t.pc.inHandler ++ t.waiting).Sublist
    (s.pc.inHandler ++ s.waiting ++ [info.siPid])
  dispatched : t.pc.dispatched = s.pc.dispatched
  counted : t.pc.counted = s.pc.counted
  confirmed : t.pc.confirmed = s.pc.confirmed
  asks : ∀ i, t.pc.info = some i ∨ t.pending = some i →
    i = info ∨ s.pc.info = some i ∨ s.pending = some i
  notFinished : s.pc ≠ .finished
  printed : t.printed = s.printed
  updates : t.workTypeUpdates = s.workTypeUpdates
  senders : t.senders = s.senders
  requests : t.requests = s.requests

omit [DecidableEq P] in
theorem queued_block (s : State P) (info : Siginfo P)
    (hfinished : s.pc ≠ .finished) : Queued s (s.block info) info := by
  unfold State.block
  split
  · rename_i hpending
    refine ⟨?_, rfl, rfl, rfl, fun i hi => ?_, hfinished, rfl, rfl, rfl, rfl⟩
    · simp [State.waiting, hpending]
    · rcases hi with hi | hi
      · exact .inr (.inl hi)
      · exact .inl (Option.some.inj hi).symm
  · refine ⟨?_, rfl, rfl, rfl, fun i hi => .inr hi, hfinished, rfl, rfl, rfl,
      rfl⟩
    exact List.sublist_append_left _ _

omit [DecidableEq P] in
theorem queued (h : s.raise info = some t)
    (hidle : s.pc.Idle → s.pending = none) : Queued s t info := by
  unfold State.raise at h
  split at h
  case h_1 hpc =>
    cases h
    have hpending := hidle (by rw [hpc]; trivial)
    refine ⟨?_, ?_, ?_, ?_, fun i hi => .inr ?_, ?_, rfl, rfl, rfl, rfl⟩
    · simp [CatcherPc.inHandler, CatcherPc.info, State.waiting, hpending]
    · rw [hpc]
      rfl
    · rw [hpc]
      rfl
    · rw [hpc]
      rfl
    · simpa [CatcherPc.info, hpc] using hi
    · simp [hpc]
  case h_2 hpc =>
    cases h
    have hpending := hidle (by rw [hpc]; trivial)
    refine ⟨?_, ?_, ?_, ?_, fun i hi => ?_, ?_, rfl, rfl, rfl, rfl⟩
    · simp [CatcherPc.inHandler, CatcherPc.info, State.waiting, hpending, hpc]
    · rw [hpc]
      rfl
    · rw [hpc]
      rfl
    · rw [hpc]
      rfl
    · rcases hi with hi | hi
      · exact .inl (Option.some.inj hi).symm
      · exact .inr (.inr hi)
    · simp [hpc]
  case h_3 hpc | h_4 hpc | h_5 hpc | h_6 hpc =>
    cases h
    refine queued_block s info ?_
    simp [hpc]
  case h_7 | h_8 | h_9 => cases h

/-- A sender goes on, without a signal. -/
theorem Handling.setSender (h : Handling workType s done) {x : Sender}
    (hx : x.confirmations = (s.senders p).confirmations) :
    Handling workType (s.setSender p x) done := by
  refine ⟨h.inOrder, h.printed, h.updates, ?_, h.asks, h.finishLast, h.goesOn⟩
  refine (Function.forall_update_iff s.senders fun q x =>
    x.confirmations = (done ++ s.pc.confirmed).count q).mpr
      ⟨?_, fun q _ => h.confirmed q⟩
  rw [hx]
  exact h.confirmed p

/-- A `sigqueue` that succeeds. -/
theorem Handling.request (h : Handling workType s done)
    (hqueued : Queued s t ⟨p, workType p⟩) (pc : SenderPc) :
    Handling workType { t.setSender p { s.senders p with pc := pc } with
      requests := t.requests ++ [p] } done := by
  refine ⟨?_, ?_, ?_, ?_, fun i hi => ?_, h.finishLast, .inr ?_⟩
  · show (done ++ (t.pc.inHandler ++ t.waiting)).Sublist (t.requests ++ [p])
    rw [hqueued.requests]
    have hlonger := h.inOrder.append (List.Sublist.refl [p])
    rw [List.append_assoc] at hlonger
    exact (hqueued.inOrder.append_left done).trans hlonger
  · show t.printed = printedFor workType (done ++ t.pc.dispatched)
    rw [hqueued.printed, hqueued.dispatched]
    exact h.printed
  · show t.workTypeUpdates = (done ++ t.pc.counted).length
    rw [hqueued.updates, hqueued.counted]
    exact h.updates
  · refine (Function.forall_update_iff t.senders fun q x =>
      x.confirmations = (done ++ t.pc.confirmed).count q).mpr
        ⟨?_, fun q _ => ?_⟩
    · rw [hqueued.confirmed]
      exact h.confirmed p
    · rw [hqueued.confirmed, hqueued.senders]
      exact h.confirmed q
  · rcases hqueued.asks i hi with rfl | hi
    · rfl
    · exact h.asks i hi
  · exact h.goesOn.resolve_left hqueued.notFinished

theorem Handling.senderStep (h : Handling workType s done) (hbooks : Books s)
    (hstep : s.senderStep workType p = some t) : Handling workType t done := by
  simp only [State.senderStep] at hstep
  split at hstep
  case h_1 | h_3 =>
    cases hstep
    exact h.setSender rfl
  case h_2 =>
    split at hstep
    · cases hstep
      exact h.setSender rfl
    · rename_i u hraise
      cases hstep
      exact h.request (queued hraise hbooks.idle) _
  case h_4 | h_5 | h_6 => cases hstep

/-! ## The handler -/

/-- What the handler does before its last test keeps the requests it has
returned from. -/
theorem Handling.within (h : Handling workType s done)
    (hpc : s.pc.info = some info) (hnext : t.pc.info = some info)
    (hpending : t.pending = s.pending) (hrequests : t.requests = s.requests)
    (hprinted : t.printed = printedFor workType (done ++ t.pc.dispatched))
    (hupdates : t.workTypeUpdates = (done ++ t.pc.counted).length)
    (hconfirmed : ∀ q, (t.senders q).confirmations =
      (done ++ t.pc.confirmed).count q) : Handling workType t done := by
  refine ⟨?_, hprinted, hupdates, hconfirmed, fun i hi => ?_, h.finishLast,
    .inr (h.goesOn.resolve_left ?_)⟩
  · have horder := h.inOrder
    rw [CatcherPc.inHandler, hpc] at horder
    rwa [CatcherPc.inHandler, hnext, State.waiting, hpending, hrequests]
  · rw [hnext, ← hpc, hpending] at hi
    exact h.asks i hi
  · intro hfinished
    rw [hfinished] at hpc
    cases hpc

/-- The handler returns, and the next request is in it, or none. -/
theorem Handling.return (h : Handling workType s done)
    (hpc : s.pc = .test info) (hprinted : t.printed = s.printed)
    (hupdates : t.workTypeUpdates = s.workTypeUpdates)
    (hsenders : t.senders = s.senders) (hrequests : t.requests = s.requests)
    (horder : t.pc.inHandler ++ t.waiting = s.waiting)
    (hasks : ∀ i, t.pc.info = some i ∨ t.pending = some i →
      s.pending = some i)
    (hnothing : t.pc.dispatched = [] ∧ t.pc.counted = [] ∧
      t.pc.confirmed = [])
    (hfinish : t.pc = .finished ∨ info.sivalInt ≠ workFinish) :
    Handling workType t (done ++ [info.siPid]) := by
  obtain ⟨hdispatched, hcounted, hconfirmed⟩ := hnothing
  have hbefore : ∀ p ∈ done, workType p ≠ workFinish :=
    h.goesOn.resolve_left (by simp [hpc])
  have hinfo := h.asks info (.inl (by rw [hpc]; rfl))
  constructor
  · have hold := h.inOrder
    rw [hpc] at hold
    rw [horder, hrequests, List.append_assoc]
    exact hold
  · have hold := h.printed
    rw [hpc] at hold
    rw [hdispatched, List.append_nil, hprinted]
    exact hold
  · have hold := h.updates
    rw [hpc] at hold
    rw [hcounted, List.append_nil, hupdates]
    exact hold
  · intro q
    have hold := h.confirmed q
    rw [hpc] at hold
    rw [hconfirmed, List.append_nil, hsenders]
    exact hold
  · exact fun i hi => h.asks i (.inr (hasks i hi))
  · rw [List.dropLast_concat]
    exact hbefore
  · rcases hfinish with hfinish | hfinish
    · exact .inl hfinish
    · refine .inr fun q hq => ?_
      rcases List.mem_append.mp hq with hq | hq
      · exact hbefore q hq
      · rw [List.mem_singleton.mp hq, ← hinfo]
        exact hfinish

/-- The test at the end of the handler: the catcher ends, goes back to
`pause`, or takes the signal that has waited. -/
theorem Handling.test (h : Handling workType s done) (hpc : s.pc = .test info)
    (hstep : s.catcherStep = some t) :
    Handling workType t (done ++ [info.siPid]) := by
  simp only [State.catcherStep, hpc] at hstep
  split at hstep
  · cases hstep
    refine h.return hpc rfl rfl rfl rfl rfl (fun i hi => ?_)
      ⟨rfl, rfl, rfl⟩ (.inl rfl)
    exact hi.resolve_left (Option.some_ne_none i).symm
  · rename_i hgoesOn
    split at hstep
    · rename_i hpending
      cases hstep
      refine h.return hpc rfl rfl rfl rfl rfl (fun i hi => ?_)
        ⟨rfl, rfl, rfl⟩ (.inr hgoesOn)
      exact hi.resolve_left (Option.some_ne_none i).symm
    · rename_i next hpending
      cases hstep
      refine h.return hpc rfl rfl rfl rfl ?_ (fun i hi => ?_)
        ⟨rfl, rfl, rfl⟩ (.inr hgoesOn)
      · simp [State.waiting, hpending, CatcherPc.inHandler, CatcherPc.info]
      · rw [hpending]
        exact hi.resolve_right (Option.some_ne_none i).symm

theorem Handling.catcherStep (h : Handling workType s done) (hbooks : Books s)
    (hstep : s.catcherStep = some t) : ∃ done', Handling workType t done' := by
  have hprinted := h.printed
  have hupdates := h.updates
  have hconfirmed := h.confirmed
  have htest := hstep
  simp only [State.catcherStep] at hstep
  split at hstep
  case h_1 hpc =>
    -- `sigaction`, before any request
    cases hstep
    rw [hpc] at hprinted hupdates hconfirmed
    refine ⟨done, ?_, hprinted, hupdates, hconfirmed, fun i hi => ?_,
      h.finishLast, .inr (h.goesOn.resolve_left ?_)⟩
    · have horder := h.inOrder
      rw [hpc] at horder
      exact horder
    · exact h.asks i (.inr (hi.resolve_left (Option.some_ne_none i).symm))
    · simp [hpc]
  case h_2 info hpc =>
    cases hstep
    have hinfo := h.asks info (.inl (by rw [hpc]; rfl))
    rw [hpc] at hprinted hupdates hconfirmed
    refine ⟨done, h.within (by rw [hpc]; rfl) rfl rfl rfl ?_ hupdates
      hconfirmed⟩
    -- the counter is the number of the requests before this one
    show s.printed ++ workDispatch info.sivalInt s.workTypeUpdates = _
    rw [hprinted, hupdates, hinfo]
    simp [CatcherPc.dispatched, CatcherPc.counted]
  case h_3 info hpc =>
    cases hstep
    rw [hpc] at hprinted hupdates hconfirmed
    refine ⟨done, h.within (by rw [hpc]; rfl) rfl rfl rfl hprinted ?_
      hconfirmed⟩
    show s.workTypeUpdates + 1 = _
    rw [hupdates]
    simp [CatcherPc.counted]
  case h_4 info hpc =>
    obtain ⟨x, hconfirm, hone, -, -⟩ := hbooks.confirm_eq hpc
    simp only [hconfirm] at hstep
    cases hstep
    rw [hpc] at hprinted hupdates hconfirmed
    refine ⟨done, h.within (by rw [hpc]; rfl) rfl rfl rfl hprinted hupdates ?_⟩
    refine (Function.forall_update_iff s.senders fun q x =>
      x.confirmations = (done ++ [info.siPid]).count q).mpr
        ⟨?_, fun q hq => ?_⟩
    · rw [hone, hconfirmed info.siPid]
      simp [CatcherPc.confirmed]
    · rw [hconfirmed q]
      simp [CatcherPc.confirmed, Ne.symm hq]
  case h_5 info hpc => exact ⟨_, h.test hpc htest⟩
  case h_6 | h_7 | h_8 | h_9 => cases hstep

/-- **What one step does to the requests that are done**: it leaves them, or
the handler returns from one more. -/
theorem Handling.step (h : Handling workType s done) (hbooks : Books s)
    {e : Event P} (hstep : s.step workType e = some t) :
    ∃ done', Handling workType t done' := by
  cases e with
  | catcher => exact h.catcherStep hbooks hstep
  | sender p => exact ⟨done, h.senderStep hbooks hstep⟩

theorem handling_of_reachable (h : (signals workType).Reachable s) :
    Books s ∧ ∃ done, Handling workType s done := by
  refine h.invariant
    (I := fun s => Books s ∧ ∃ done, Handling workType s done) ?_ ?_
  · rintro s rfl
    refine ⟨books_initial, [], List.nil_sublist _, rfl, rfl, fun _ => rfl,
      fun i hi => ?_, fun _ hp => ?_, .inr fun _ hp => ?_⟩
    · cases hi.resolve_left (Option.some_ne_none i).symm
    · cases hp
    · cases hp
  · rintro s e t ⟨hbooks, done, hdone⟩ _ hst
    exact ⟨hbooks.step hst, hdone.step hbooks hst⟩

/-! ## Seen from outside -/

omit [DecidableEq P] in
theorem CatcherPc.dispatched_sublist (pc : CatcherPc P) :
    pc.dispatched.Sublist pc.inHandler := by
  cases pc with
  | count info | confirm info | test info => exact List.Sublist.refl _
  | start | pause | dispatch info | terminated | failed | finished =>
      exact List.nil_sublist _

omit [DecidableEq P] in
theorem CatcherPc.counted_sublist (pc : CatcherPc P) :
    pc.counted.Sublist pc.dispatched := by
  cases pc with
  | confirm info | test info => exact List.Sublist.refl _
  | count info | start | pause | dispatch info | terminated | failed
  | finished => exact List.nil_sublist _

omit [DecidableEq P] in
theorem CatcherPc.confirmed_sublist (pc : CatcherPc P) :
    pc.confirmed.Sublist pc.dispatched := by
  cases pc with
  | test info => exact List.Sublist.refl _
  | confirm info | count info | start | pause | dispatch info | terminated
  | failed | finished => exact List.nil_sublist _

/-- No sender asks twice. -/
theorem Books.nodup (h : Books s) : s.requests.Nodup := by
  refine List.nodup_iff_count_le_one.mpr fun p => ?_
  have hfits := h.fits p
  cases hpc : (s.senders p).pc with
  | sigaction | sigqueue | failed =>
      rw [Sender.Fits, hpc] at hfits
      exact Nat.le_trans (Nat.le_of_eq hfits) (Nat.zero_le 1)
  | sigsuspend | suspended =>
      rw [Sender.Fits, hpc] at hfits
      exact Nat.le_of_eq hfits
  | done =>
      rw [Sender.Fits, hpc] at hfits
      exact Nat.le_of_eq hfits.1

theorem Handling.notBeforeLast (h : Handling workType s done) :
    ∀ p ∈ (done ++ s.pc.dispatched).dropLast, workType p ≠ workFinish := by
  cases hpc : s.pc with
  | count info | confirm info | test info =>
      rw [CatcherPc.dispatched, List.dropLast_concat]
      exact h.goesOn.resolve_left (by simp [hpc])
  | start | pause | dispatch info | terminated | failed | finished =>
      rw [CatcherPc.dispatched, List.append_nil]
      exact h.finishLast

theorem Handling.serially (h : Handling workType s done) (hbooks : Books s) :
    Serially workType s (done ++ s.pc.dispatched) := by
  have hsublist : (done ++ s.pc.dispatched).Sublist s.requests := by
    have hbehind : s.pc.dispatched.Sublist (s.pc.inHandler ++ s.waiting) :=
      s.pc.dispatched_sublist.trans (List.sublist_append_left _ _)
    exact (hbehind.append_left done).trans h.inOrder
  refine ⟨hsublist, hbooks.nodup.sublist hsublist, h.printed, ?_, fun p => ?_,
    h.notBeforeLast, ?_⟩
  · rw [h.updates]
    exact (s.pc.counted_sublist.append_left done).length_le
  · rw [h.confirmed p]
    exact (s.pc.confirmed_sublist.append_left done).count_le p
  · intro hrest
    have hnothing : s.pc.counted = [] ∧ s.pc.confirmed = [] ∧
        s.pc.dispatched = [] := by
      rcases hrest with hpc | hpc
      · rw [hpc]
        exact ⟨rfl, rfl, rfl⟩
      · rw [hpc]
        exact ⟨rfl, rfl, rfl⟩
    obtain ⟨hcounted, hconfirmed, hdispatched⟩ := hnothing
    have hupdates := h.updates
    rw [hcounted] at hupdates
    rw [hdispatched]
    refine ⟨hupdates, fun p => ?_⟩
    rw [h.confirmed p, hconfirmed]

/-- **The catcher is a serial server**: in every reachable state there are
requests, in the order of their `sigqueue` and each once, such that the
output is that of handling one after the other. Each of them is confirmed at
most once and nobody else is, a `WORK_FINISH` is the last of them, and
whenever no handler runs they all are counted and confirmed. -/
theorem handled_serially (h : (signals workType).Reachable s) :
    ∃ handled, Serially workType s handled := by
  obtain ⟨hbooks, done, hdone⟩ := handling_of_reachable h
  exact ⟨_, hdone.serially hbooks⟩

end Steps

/-- Of two requests, one is in its handler and the other waits. -/
theorem handled_serially_two : ∃ s : State (Fin 2),
    (signals fun _ => workPrintNChanges).Reachable s ∧
      s.printed = ["work type changes: 0"] ∧ s.requests = [1, 0] ∧
      ∃ handled, Serially (fun _ => workPrintNChanges) s handled := by
  obtain ⟨s, hs, hprinted⟩ := System.ReachableIf.exists_of_runLabels
    (S := signals fun _ : Fin 2 => workPrintNChanges) (C := fun _ _ => True)
    (State.step fun _ => workPrintNChanges) (fun _ _ _ h => h)
    [.catcher, .sender 0, .sender 1, .sender 1, .catcher, .sender 0]
    (p := fun s => decide (s.printed = ["work type changes: 0"] ∧
      s.requests = [1, 0]))
    (s := State.initial (Fin 2)) (.init rfl) (by decide +kernel)
  obtain ⟨hout, hrequests⟩ := of_decide_eq_true hprinted
  exact ⟨s, hs, hout, hrequests, handled_serially hs⟩

end Sysops.Cw05
