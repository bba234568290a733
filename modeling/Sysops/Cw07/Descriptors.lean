import Sysops.Cw07.Server
import Mathlib.Data.List.Induction

/-!
# `cw07/server.c`: the descriptors of the client queues

The table of the server beside the queues that are open for it, in any run
of its handlers: a `CLIENT_EXIT` may name any number, and a descriptor that
was closed may be given out again. What the table is for is said by the
seats of the clients: the `k`-th client that joins has the number `k`, until
a `CLIENT_EXIT` with that number.
-/

namespace Sysops.Cw07

/-- The server, with the client queues that were opened and not yet closed
and a record of its calls: for each, whether its descriptor was open. -/
structure Holding where
  server : Server
  openQs : List Int
  calls : List (Call × Bool)

namespace Holding

def initial : Holding where
  server := Server.initial
  openQs := []
  calls := []

/-- `mq_send`, or `mq_close`, which fails on what is not open. -/
def perform (s : Holding) (call : Call) : Holding :=
  match call with
  | .send q _ => { s with calls := s.calls ++ [(call, decide (q ∈ s.openQs))] }
  | .close q => { s with openQs := s.openQs.erase q
                         calls := s.calls ++ [(call, decide (q ∈ s.openQs))] }

/-- A message is handled, where an `INIT` opens a queue with the given
result. -/
def handle (s : Holding) (m : MsgT × Int) : Except Fault Holding := do
  let (server, calls) ← dispatchMessageType m.2 s.server m.1
  let opened := if Joins m then m.2 :: s.openQs else s.openQs
  return calls.foldl perform { s with server := server, openQs := opened }

def handleAll (messages : List (MsgT × Int)) : Except Fault Holding :=
  messages.foldlM handle initial

end Holding

/-- The number that a call hands out, with the queue it is sent to. -/
def Call.gives : Call → Option (Int × Int)
  | .send q message =>
      if message.type = MsgType.receiveId.code then some (message.id, q)
      else none
  | .close _ => none

def Holding.given (s : Holding) : List (Int × Int) :=
  s.calls.filterMap fun c => c.1.gives

/-- What `sig_handler` closes before it ends the server. -/
def sigHandler (s : Server) : List Call :=
  (List.finRange maxClients).filterMap fun i =>
    if s.clientQs i = -1 then none else some (.close (s.clientQs i))

/-- An `mq_open` fails, or its result is not open. -/
def OpensNew (messages : List (MsgT × Int)) : Prop :=
  ∀ before m after, messages = before ++ m :: after →
    m.1.type = MsgType.init.code → m.2 = -1 ∨
      0 ≤ m.2 ∧ ∀ s, Holding.handleAll before = .ok s → m.2 ∉ s.openQs

/-! ## The seats -/

/-- The queues of the clients in the order in which they joined, and none
for those that have left. -/
abbrev Seats := List (Option Int)

/-- What a message does to the seats. -/
def Seats.after (l : Seats) (m : MsgT × Int) : Seats :=
  if Joins m then l ++ [some m.2]
  else if m.1.type = MsgType.clientExit.code ∧ 0 ≤ m.1.id then
    l.set m.1.id.toNat none
  else l

def seats (messages : List (MsgT × Int)) : Seats :=
  messages.foldl Seats.after []

def Seats.queueOf (l : Seats) (k : Nat) : Option Int := l[k]?.join

/-- The queues opened for clients, in their order. -/
def joined (messages : List (MsgT × Int)) : List Int :=
  (messages.filter Joins).map Prod.snd

/-- What holds between two messages. -/
structure Tidy (messages : List (MsgT × Int)) (s : Holding) : Prop where
  /-- Slots that were never given hold nothing. -/
  unused : ∀ k : Fin maxClients, s.server.currMaxClientNum ≤ k →
    s.server.clientQs k = -1
  distinct : ∀ j k : Fin maxClients, s.server.clientQs j ≠ -1 →
    s.server.clientQs j = s.server.clientQs k → j = k
  /-- The descriptors in the table are those that are open. -/
  isOpen : ∀ q, q ∈ s.openQs ↔ q ≠ -1 ∧ ∃ k, s.server.clientQs k = q
  /-- Nothing was sent to or closed that was not open; an `mq_close(-1)`
  does nothing. -/
  calls : ∀ c ∈ s.calls, c.2 = true ∨ c.1 = .close (-1)
  /-- A signal closes what is open, each queue once. -/
  signal : (sigHandler s.server).Perm (s.openQs.map Call.close)
  /-- The numbers are handed out in order, each to the client that joins. -/
  given : s.given = (joined messages).mapIdx fun k q => ((k : Int), q)
  /-- The number of a client is that of its slot. -/
  slots : ∀ k : Fin maxClients,
    s.server.clientQs k = ((seats messages).queueOf k).getD (-1)

/-! ## The seats after one message more -/

section Seats

variable {l : Seats} {m : MsgT × Int} {messages : List (MsgT × Int)}

theorem seats_append (messages : List (MsgT × Int)) (m : MsgT × Int) :
    seats (messages ++ [m]) = (seats messages).after m := by
  rw [seats, List.foldl_append]
  rfl

theorem queueOf_append (l : Seats) (q : Int) (k : Nat) :
    Seats.queueOf (l ++ [some q]) k =
      if k = l.length then some q else l.queueOf k := by
  unfold Seats.queueOf
  by_cases hk : k = l.length
  · subst hk
    simp
  · rw [if_neg hk]
    by_cases hlt : k < l.length
    · rw [List.getElem?_append_left hlt]
    · rw [List.getElem?_eq_none (by simp; omega),
        List.getElem?_eq_none (by omega)]

theorem queueOf_set (l : Seats) (i k : Nat) :
    Seats.queueOf (l.set i none) k =
      if k = i then none else l.queueOf k := by
  unfold Seats.queueOf
  rw [List.getElem?_set]
  by_cases hk : k = i
  · subst hk
    rw [if_pos rfl, if_pos rfl]
    split <;> rfl
  · rw [if_neg (fun h => hk h.symm), if_neg hk]

theorem queueOf_length (l : Seats) {k : Nat} (hk : l.length ≤ k) :
    l.queueOf k = none := by
  rw [Seats.queueOf, List.getElem?_eq_none hk]
  rfl

/-- Who sits at the table after one more has sat down. -/
theorem queueOf_append_eq_some {q r : Int} {k : Nat} :
    Seats.queueOf (l ++ [some q]) k = some r ↔
      (k = l.length ∧ q = r) ∨ l.queueOf k = some r := by
  rw [queueOf_append]
  by_cases hk : k = l.length
  · subst hk
    simp [queueOf_length l (Nat.le_refl _)]
  · simp [hk]

/-- Who sits at the table after a seat is given up. -/
theorem queueOf_set_eq_some {i k : Nat} {r : Int} :
    Seats.queueOf (l.set i none) k = some r ↔
      k ≠ i ∧ l.queueOf k = some r := by
  rw [queueOf_set]
  by_cases hk : k = i
  · simp [hk]
  · simp [hk]

theorem after_join (hm : Joins m = true) : l.after m = l ++ [some m.2] := by
  rw [Seats.after, if_pos hm]

theorem after_exit (hexit : m.1.type = MsgType.clientExit.code) {i : Nat}
    (hi : m.1.id = i) : l.after m = l.set i none := by
  have hm : Joins m = false := by
    simp [Joins, hexit, MsgType.code]
  have hid : m.1.id.toNat = i := by omega
  rw [Seats.after, if_neg (by simp [hm]), if_pos ⟨hexit, by omega⟩, hid]

theorem after_other (hm : Joins m = false)
    (hexit : ¬ (m.1.type = MsgType.clientExit.code ∧ 0 ≤ m.1.id)) :
    l.after m = l := by
  rw [Seats.after, if_neg (by simp [hm]), if_neg hexit]

theorem length_after (l : Seats) (m : MsgT × Int) :
    (l.after m).length = l.length + (Joins m).toNat := by
  unfold Seats.after
  cases hm : Joins m with
  | true => simp
  | false =>
      rw [if_neg Bool.false_ne_true]
      split <;> simp

theorem joined_append (messages : List (MsgT × Int)) (m : MsgT × Int) :
    joined (messages ++ [m]) =
      joined messages ++ if Joins m then [m.2] else [] := by
  rw [joined, List.filter_append, List.map_append]
  cases hm : Joins m <;> simp [joined, hm]

theorem length_joined (messages : List (MsgT × Int)) :
    (joined messages).length = messages.countP Joins := by
  rw [joined, List.length_map, List.countP_eq_length_filter]

end Seats

/-! ## The seats are what the table holds -/

/-- The invariant. -/
structure Matches (l : Seats) (s : Holding) : Prop where
  counter : s.server.currMaxClientNum = l.length
  inRange : l.length ≤ maxClients
  entry : ∀ k, s.server.entry k = (l.queueOf k).getD (-1)
  isOpen : ∀ q, q ∈ s.openQs ↔ ∃ k, l.queueOf k = some q
  nodup : s.openQs.Nodup
  single : ∀ j k q, l.queueOf j = some q → l.queueOf k = some q → j = k
  nonneg : ∀ k q, l.queueOf k = some q → 0 ≤ q
  calls : ∀ c ∈ s.calls, c.2 = true ∨ c.1 = .close (-1)

section Matches

variable {l : Seats} {s t : Holding} {m : MsgT × Int}

theorem matches_initial : Matches [] .initial := by
  have hnone : ∀ k, Seats.queueOf [] k = none := fun k => queueOf_length [] k.zero_le
  refine ⟨rfl, Nat.zero_le _, ?_, ?_, List.nodup_nil, ?_, ?_, ?_⟩
  · intro k
    rw [hnone]
    show Server.initial.entry k = -1
    unfold Server.entry
    split <;> rfl
  · intro q
    simp [hnone, Holding.initial]
  · intro j k q hj
    rw [hnone] at hj
    cases hj
  · intro k q hk
    rw [hnone] at hk
    cases hk
  · intro c hc
    cases hc

/-- Sending to open queues changes only the record. -/
theorem foldl_perform_sends {calls : List Call}
    (h : ∀ c ∈ calls, ∃ q message, c = .send q message ∧ q ∈ s.openQs) :
    calls.foldl Holding.perform s =
      { s with calls := s.calls ++ calls.map fun c => (c, true) } := by
  induction calls generalizing s with
  | nil => simp
  | cons c calls ih =>
      rw [List.forall_mem_cons] at h
      obtain ⟨⟨q, message, rfl, hq⟩, hcalls⟩ := h
      rw [List.foldl_cons, ih (s := s.perform (.send q message)) hcalls]
      simp [Holding.perform, hq]

/-- An entry that is in use is open. -/
theorem Matches.entry_open (h : Matches l s) {k : Nat}
    (hk : s.server.entry k ≠ -1) : s.server.entry k ∈ s.openQs := by
  rw [h.isOpen]
  refine ⟨k, ?_⟩
  rw [h.entry] at hk ⊢
  cases hq : l.queueOf k with
  | none =>
      rw [hq] at hk
      exact absurd rfl hk
  | some q => rfl

/-- An `INIT` whose queue is opened. -/
theorem Matches.join (h : Matches l s) {opened : Int} (hopened : 0 ≤ opened)
    (hnew : opened ∉ s.openQs) (hroom : s.server.currMaxClientNum < maxClients)
    {call : Call × Bool} (hcall : call.2 = true) :
    Matches (l ++ [some opened])
      { server := { s.server.withEntry ⟨_, hroom⟩ opened with
          currMaxClientNum := s.server.currMaxClientNum + 1 }
        openQs := opened :: s.openQs
        calls := s.calls ++ [call] } := by
  have hcounter := h.counter
  have hother : ∀ k, l.queueOf k ≠ some opened := by
    intro k hk
    exact hnew ((h.isOpen opened).mpr ⟨k, hk⟩)
  refine ⟨?_, ?_, ?_, ?_, List.nodup_cons.mpr ⟨hnew, h.nodup⟩, ?_, ?_, ?_⟩
  · rw [List.length_append, ← hcounter]
    rfl
  · rw [List.length_append, List.length_singleton]
    omega
  · intro k
    refine (entry_withEntry _ _ _ _).trans ?_
    rw [queueOf_append, ← hcounter]
    by_cases hk : k = s.server.currMaxClientNum
    · rw [if_pos hk, if_pos hk]
      rfl
    · rw [if_neg hk, if_neg hk, h.entry]
  · intro q
    rw [List.mem_cons, h.isOpen]
    simp only [queueOf_append_eq_some]
    constructor
    · rintro (rfl | ⟨k, hk⟩)
      · exact ⟨l.length, .inl ⟨rfl, rfl⟩⟩
      · exact ⟨k, .inr hk⟩
    · rintro ⟨k, ⟨-, rfl⟩ | hk⟩
      · exact .inl rfl
      · exact .inr ⟨k, hk⟩
  · intro j k q hj hk
    rw [queueOf_append_eq_some] at hj hk
    rcases hj with ⟨rfl, rfl⟩ | hj
    · rcases hk with ⟨hk, -⟩ | hk
      · exact hk.symm
      · exact absurd hk (hother k)
    · rcases hk with ⟨-, rfl⟩ | hk
      · exact absurd hj (hother j)
      · exact h.single j k q hj hk
  · intro k q hk
    rcases queueOf_append_eq_some.mp hk with ⟨-, rfl⟩ | hk
    · exact hopened
    · exact h.nonneg k q hk
  · intro c hc
    rcases List.mem_append.mp hc with hc | hc
    · exact h.calls c hc
    · rw [List.mem_singleton.mp hc]
      exact .inl hcall

/-- An `INIT` that fails writes behind the slots in use what is there
already. -/
theorem Matches.notOpened (h : Matches l s)
    (hroom : s.server.currMaxClientNum < maxClients) :
    Matches l { s with server := s.server.withEntry ⟨_, hroom⟩ (-1) } := by
  refine ⟨h.counter, h.inRange, ?_, h.isOpen, h.nodup, h.single, h.nonneg,
    h.calls⟩
  intro k
  refine (entry_withEntry _ _ _ _).trans ?_
  split
  · rename_i hk
    rw [queueOf_length l (by rw [← h.counter]; exact Nat.le_of_eq hk.symm)]
    rfl
  · exact h.entry k

/-- A text. -/
theorem Matches.sent (h : Matches l s) (message : MsgT) :
    Matches l ((s.server.broadcast message).foldl Holding.perform s) := by
  have hsends : ∀ c ∈ s.server.broadcast message,
      ∃ q message, c = .send q message ∧ q ∈ s.openQs := by
    intro c hc
    obtain ⟨i, -, hi⟩ := List.mem_flatMap.mp hc
    split at hi
    · cases hi
    · rename_i hentry
      exact ⟨_, _, List.mem_singleton.mp hi, h.entry_open hentry⟩
  rw [foldl_perform_sends hsends]
  refine ⟨h.counter, h.inRange, h.entry, h.isOpen, h.nodup, h.single,
    h.nonneg, ?_⟩
  intro c hc
  rcases List.mem_append.mp hc with hc | hc
  · exact h.calls c hc
  · obtain ⟨d, -, rfl⟩ := List.mem_map.mp hc
    exact .inl rfl

/-- A `CLIENT_EXIT` with any number of a slot. -/
theorem Matches.closed (h : Matches l s) {i : Nat} (hi : i < maxClients) :
    Matches (l.set i none)
      (Holding.perform { s with server := s.server.withEntry ⟨i, hi⟩ (-1) }
        (.close (s.server.entry i))) := by
  have hentry := h.entry i
  refine ⟨?_, ?_, ?_, ?_, h.nodup.erase _, ?_, ?_, ?_⟩
  · rw [List.length_set, ← h.counter]
    rfl
  · rw [List.length_set]
    exact h.inRange
  · intro k
    refine (entry_withEntry _ _ _ _).trans ?_
    rw [queueOf_set]
    by_cases hk : k = i
    · rw [if_pos hk, if_pos hk]
      rfl
    · rw [if_neg hk, if_neg hk, h.entry]
  · intro q
    show q ∈ s.openQs.erase (s.server.entry i) ↔ _
    rw [h.nodup.mem_erase_iff, h.isOpen]
    simp only [queueOf_set_eq_some]
    constructor
    · rintro ⟨hne, k, hk⟩
      refine ⟨k, ?_, hk⟩
      rintro rfl
      rw [hentry, hk] at hne
      exact hne rfl
    · rintro ⟨k, hki, hk⟩
      refine ⟨?_, k, hk⟩
      rintro rfl
      cases hq : l.queueOf i with
      | none =>
          rw [hentry, hq] at hk
          have hneg := h.nonneg k _ hk
          simp at hneg
      | some q =>
          rw [hentry, hq] at hk
          exact hki (h.single k i q hk hq)
  · intro j k q hj hk
    exact h.single j k q (queueOf_set_eq_some.mp hj).2
      (queueOf_set_eq_some.mp hk).2
  · intro k q hk
    exact h.nonneg k q (queueOf_set_eq_some.mp hk).2
  · intro c hc
    rcases List.mem_append.mp hc with hc | hc
    · exact h.calls c hc
    · rw [List.mem_singleton.mp hc]
      by_cases hunused : s.server.entry i = -1
      · exact .inr (congrArg Call.close hunused)
      · exact .inl (decide_eq_true (h.entry_open hunused))

theorem handle_of_dispatch {server : Server} {calls : List Call}
    (h : dispatchMessageType m.2 s.server m.1 = .ok (server, calls)) :
    s.handle m = .ok (calls.foldl Holding.perform { s with
      server := server
      openQs := if Joins m then m.2 :: s.openQs else s.openQs }) := by
  rw [Holding.handle, h]
  rfl

/-- What is sent to the queues that are open gives out no number, if it is
a text. -/
theorem given_sent (h : Matches l s) {message : MsgT}
    (htext : message.type = MsgType.text.code) :
    ((s.server.broadcast message).foldl Holding.perform s).given = s.given := by
  have hsends : ∀ c ∈ s.server.broadcast message,
      ∃ q, c = .send q message ∧ q ∈ s.openQs := by
    intro c hc
    obtain ⟨i, -, hi⟩ := List.mem_flatMap.mp hc
    split at hi
    · cases hi
    · rename_i hentry
      exact ⟨_, List.mem_singleton.mp hi, h.entry_open hentry⟩
  rw [foldl_perform_sends fun c hc => ⟨_, message, (hsends c hc).choose_spec⟩]
  have hnone : ∀ c ∈ (s.server.broadcast message).map fun c => (c, true),
      c.1.gives = none := by
    intro c hc
    obtain ⟨d, hd, rfl⟩ := List.mem_map.mp hc
    obtain ⟨q, rfl, -⟩ := hsends d hd
    simp [Call.gives, htext, MsgType.code]
  rw [Holding.given, List.filterMap_append,
    List.filterMap_eq_nil_iff.mpr hnone, List.append_nil]
  rfl

/-- What a message that is handled does to the table, and the number that
it gives out. -/
def Handles (l : Seats) (s : Holding) (m : MsgT × Int) : Prop :=
  ∃ t, s.handle m = .ok t ∧ Matches (l.after m) t ∧ t.given = s.given ++
    if Joins m then [((l.length : Int), m.2)] else []

/-- A message that lets nobody join. -/
theorem handles_of_dispatch (hm : Joins m = false) (server : Server)
    (calls : List Call)
    (hdispatch : dispatchMessageType m.2 s.server m.1 = .ok (server, calls))
    (hmatches : Matches (l.after m)
      (calls.foldl Holding.perform { s with server := server }))
    (hgiven : (calls.foldl Holding.perform { s with server := server }).given =
      s.given) : Handles l s m := by
  refine ⟨_, handle_of_dispatch hdispatch, ?_, ?_⟩
  · rw [if_neg (by simp [hm])]
    exact hmatches
  · rw [if_neg (by simp [hm]), if_neg (by simp [hm]), List.append_nil]
    exact hgiven

theorem Matches.handlesInit (h : Matches l s)
    (hinit : m.1.type = MsgType.init.code)
    (hopens : m.2 = -1 ∨ 0 ≤ m.2 ∧ m.2 ∉ s.openQs)
    (hroom : s.server.currMaxClientNum < maxClients) : Handles l s m := by
  rcases hopens with hfailed | ⟨hopened, hnew⟩
  · have hm : Joins m = false := by simp [Joins, hfailed]
    have hexit : ¬ (m.1.type = MsgType.clientExit.code ∧ 0 ≤ m.1.id) := by
      rw [hinit]
      rintro ⟨hcode, -⟩
      cases hcode
    refine handles_of_dispatch hm (s.server.withEntry ⟨_, hroom⟩ (-1)) [] ?_
      ?_ rfl
    · rw [dispatchMessageType, if_pos hinit, hfailed,
        handleInitMessage_failed (by decide) hroom]
    · rw [after_other hm hexit]
      exact h.notOpened hroom
  · have hm : Joins m = true := by simp [Joins, hinit, hopened]
    have hdispatch : dispatchMessageType m.2 s.server m.1 = .ok
        ({ s.server.withEntry ⟨_, hroom⟩ m.2 with
            currMaxClientNum := s.server.currMaxClientNum + 1 },
          [.send m.2 (.withoutText .receiveId s.server.currMaxClientNum)]) := by
      rw [dispatchMessageType, if_pos hinit,
        handleInitMessage_opened hopened hroom]
    refine ⟨_, handle_of_dispatch hdispatch, ?_, ?_⟩
    · rw [after_join hm, if_pos hm]
      exact h.join hopened hnew hroom (by simp)
    · rw [if_pos hm, if_pos hm, ← h.counter]
      simp [Holding.given, Holding.perform, Call.gives, MsgT.withoutText]

theorem Matches.handlesText (h : Matches l s)
    (htext : m.1.type = MsgType.text.code) : Handles l s m := by
  have hm : Joins m = false := by simp [Joins, htext, MsgType.code]
  have hexit : ¬ (m.1.type = MsgType.clientExit.code ∧ 0 ≤ m.1.id) := by
    rw [htext]
    rintro ⟨hcode, -⟩
    cases hcode
  refine handles_of_dispatch hm s.server _ ?_ ?_ (given_sent h htext)
  · rw [dispatchMessageType, if_neg (by simp [htext, MsgType.code]),
      if_pos htext, handleTextMessage_eq (h.counter ▸ h.inRange)]
  · rw [after_other hm hexit]
    exact h.sent m.1

theorem Matches.handlesExit (h : Matches l s)
    (hexit : m.1.type = MsgType.clientExit.code) : Handles l s m := by
  have hm : Joins m = false := by simp [Joins, hexit, MsgType.code]
  have hdispatch : dispatchMessageType m.2 s.server m.1 =
      handleClientExitMessage s.server m.1 := by
    rw [dispatchMessageType, if_neg (by simp [hexit, MsgType.code]),
      if_neg (by simp [hexit, MsgType.code]), if_pos hexit]
  by_cases hid : 0 ≤ m.1.id ∧ m.1.id < maxClients
  · obtain ⟨i, hi⟩ := Int.eq_ofNat_of_zero_le hid.1
    have hlt : i < maxClients := by omega
    refine handles_of_dispatch hm _ _
      (hdispatch.trans (handleClientExitMessage_eq hi hlt)) ?_ ?_
    · rw [after_exit hexit hi]
      exact h.closed hlt
    · simp [Holding.given, Holding.perform, Call.gives]
  · refine handles_of_dispatch hm _ _
      (hdispatch.trans (handleClientExitMessage_other hid)) ?_ rfl
    -- no seat has such a number
    have hsame : l.after m = l := by
      by_cases hpos : 0 ≤ m.1.id
      · obtain ⟨i, hi⟩ := Int.eq_ofNat_of_zero_le hpos
        have hrange := h.inRange
        rw [after_exit hexit hi]
        exact List.set_eq_of_length_le (by omega)
      · exact after_other hm fun h => hpos h.2
    rw [hsame]
    exact h

/-- **One message**, where the slot that an `INIT` writes is in the
array. -/
theorem Matches.handles (h : Matches l s)
    (hopens : m.1.type = MsgType.init.code →
      m.2 = -1 ∨ 0 ≤ m.2 ∧ m.2 ∉ s.openQs)
    (hroom : m.1.type = MsgType.init.code →
      s.server.currMaxClientNum < maxClients) : Handles l s m := by
  by_cases hinit : m.1.type = MsgType.init.code
  · exact h.handlesInit hinit (hopens hinit) (hroom hinit)
  · by_cases htext : m.1.type = MsgType.text.code
    · exact h.handlesText htext
    · by_cases hexit : m.1.type = MsgType.clientExit.code
      · exact h.handlesExit hexit
      · have hm : Joins m = false := by simp [Joins, hinit]
        refine handles_of_dispatch hm s.server [] ?_ ?_ rfl
        · rw [dispatchMessageType, if_neg hinit, if_neg htext, if_neg hexit]
        · rw [after_other hm fun h => hexit h.1]
          exact h

/-- What the invariant says of the table itself. -/
theorem Matches.entry_eq (h : Matches l s) (k : Fin maxClients) :
    s.server.clientQs k = (l.queueOf k).getD (-1) := by
  rw [← h.entry, Server.entry, dif_pos k.isLt]

theorem Matches.queueOf_iff (h : Matches l s) {k : Fin maxClients} {q : Int}
    (hq : q ≠ -1) : s.server.clientQs k = q ↔ l.queueOf k = some q := by
  rw [h.entry_eq]
  cases hk : l.queueOf k with
  | none => simpa using fun h => hq h.symm
  | some q' => simp

theorem Matches.isOpen_iff (h : Matches l s) (q : Int) :
    q ∈ s.openQs ↔ q ≠ -1 ∧ ∃ k, s.server.clientQs k = q := by
  rw [h.isOpen]
  constructor
  · rintro ⟨k, hk⟩
    have hq : q ≠ -1 := by
      have hpos := h.nonneg k q hk
      omega
    have hlt : k < l.length := by
      by_contra hge
      rw [queueOf_length l (Nat.le_of_not_lt hge)] at hk
      cases hk
    exact ⟨hq, ⟨k, Nat.lt_of_lt_of_le hlt h.inRange⟩, (h.queueOf_iff hq).mpr hk⟩
  · rintro ⟨hq, k, hk⟩
    exact ⟨k, (h.queueOf_iff hq).mp hk⟩

theorem Matches.distinct (h : Matches l s) {j k : Fin maxClients}
    (hj : s.server.clientQs j ≠ -1)
    (hjk : s.server.clientQs j = s.server.clientQs k) : j = k := by
  have hqj := (h.queueOf_iff hj).mp rfl
  have hqk := (h.queueOf_iff hj).mp hjk.symm
  exact Fin.ext (h.single j k _ hqj hqk)

/-- **`sig_handler` closes what is open**, each queue once. -/
theorem Matches.signal (h : Matches l s) :
    (sigHandler s.server).Perm (s.openQs.map Call.close) := by
  refine (List.perm_ext_iff_of_nodup ?_ ?_).mpr ?_
  · refine (List.nodup_finRange _).filterMap ?_
    intro j k c hj hk
    split at hj
    · cases hj
    · rename_i hq
      split at hk
      · cases hk
      · rw [Option.mem_some_iff] at hj hk
        exact h.distinct hq (Call.close.inj (hj.trans hk.symm))
  · exact h.nodup.map fun _ _ hq => Call.close.inj hq
  · intro c
    rw [sigHandler, List.mem_filterMap, List.mem_map]
    constructor
    · rintro ⟨k, -, hk⟩
      split at hk
      · cases hk
      · rename_i hq
        exact ⟨_, (h.isOpen_iff _).mpr ⟨hq, k, rfl⟩, Option.some.inj hk⟩
    · rintro ⟨q, hq, rfl⟩
      obtain ⟨hne, k, rfl⟩ := (h.isOpen_iff q).mp hq
      exact ⟨k, List.mem_finRange k, by rw [if_neg hne]⟩

end Matches

/-! ## Runs -/

section Runs

variable {messages : List (MsgT × Int)}

theorem handleAll_append (messages : List (MsgT × Int)) (m : MsgT × Int) :
    Holding.handleAll (messages ++ [m]) =
      (Holding.handleAll messages >>= fun s => s.handle m) := by
  rw [Holding.handleAll, List.foldlM_append]
  refine bind_congr fun s => ?_
  rw [List.foldlM_cons]
  cases s.handle m <;> rfl

theorem OpensNew.of_append {more : List (MsgT × Int)}
    (h : OpensNew (messages ++ more)) : OpensNew messages := by
  rintro before m after rfl hinit
  exact h before m (after ++ more) (by simp) hinit

/-- What a run that finds room leads to. -/
theorem matches_of_findsRoom (hopens : OpensNew messages)
    (hroom : FindsRoom 0 messages) : ∃ s, Holding.handleAll messages = .ok s ∧
      Matches (seats messages) s ∧
      (seats messages).length = messages.countP Joins ∧
      s.given = (joined messages).mapIdx fun k q => ((k : Int), q) := by
  induction messages using List.reverseRecOn with
  | nil => exact ⟨.initial, rfl, matches_initial, rfl, rfl⟩
  | append_singleton messages m ih =>
      obtain ⟨s, hs, hmatches, hlength, hgiven⟩ :=
        ih hopens.of_append hroom.of_append
      have hopens := hopens messages m [] rfl
      have hroom := hroom messages m [] rfl
      have hhandles : Handles (seats messages) s m := by
        refine hmatches.handles ?_ ?_
        · intro hinit
          rcases hopens hinit with hfailed | ⟨hpos, hnew⟩
          · exact .inl hfailed
          · exact .inr ⟨hpos, hnew s hs⟩
        · intro hinit
          have hlt := hroom hinit
          rw [hmatches.counter, hlength]
          omega
      obtain ⟨t, ht, hmatches', hgiven'⟩ := hhandles
      refine ⟨t, ?_, ?_, ?_, ?_⟩
      · rw [handleAll_append, hs, ok_bind, ht]
      · rw [seats_append]
        exact hmatches'
      · rw [seats_append, length_after, hlength, List.countP_append,
          List.countP_singleton]
        cases Joins m <;> rfl
      · rw [hgiven', hgiven, joined_append, hlength, ← length_joined]
        cases Joins m with
        | true => simp [List.mapIdx_append]
        | false => simp

theorem Tidy.of_matches {s : Holding} (h : Matches (seats messages) s)
    (hgiven : s.given = (joined messages).mapIdx fun k q => ((k : Int), q)) :
    Tidy messages s where
  unused k hk := by
    rw [h.entry_eq, queueOf_length _ (h.counter ▸ hk)]
    rfl
  distinct _ _ hj hjk := h.distinct hj hjk
  isOpen := h.isOpen_iff
  calls := h.calls
  signal := h.signal
  given := hgiven
  slots := h.entry_eq

/-- A property of all messages of a run, each with those before it. -/
theorem forall_split_append {m : MsgT × Int}
    {P : List (MsgT × Int) → MsgT × Int → Prop} :
    (∀ before m' after, messages ++ [m] = before ++ m' :: after →
      P before m') ↔
    (∀ before m' after, messages = before ++ m' :: after → P before m') ∧
      P messages m := by
  constructor
  · intro h
    refine ⟨?_, h messages m [] rfl⟩
    rintro before m' after rfl
    exact h before m' (after ++ [m]) (by simp)
  · rintro ⟨h, hlast⟩ before m' after heq
    rcases List.eq_nil_or_concat after with rfl | ⟨after, m'', rfl⟩
    · obtain ⟨rfl, hm⟩ := List.append_inj' heq rfl
      obtain rfl := List.singleton_injective hm
      exact hlast
    · rw [List.concat_eq_append, ← List.cons_append, ← List.append_assoc] at heq
      obtain ⟨rfl, -⟩ := List.append_inj' heq rfl
      exact h before m' after rfl

theorem opensNew_append {m : MsgT × Int} :
    OpensNew (messages ++ [m]) ↔ OpensNew messages ∧
      (m.1.type = MsgType.init.code → m.2 = -1 ∨
        0 ≤ m.2 ∧ ∀ s, Holding.handleAll messages = .ok s → m.2 ∉ s.openQs) :=
  forall_split_append

theorem findsRoom_append {k : Nat} {m : MsgT × Int} :
    FindsRoom k (messages ++ [m]) ↔ FindsRoom k messages ∧
      (m.1.type = MsgType.init.code →
        k + messages.countP Joins < maxClients) :=
  forall_split_append

theorem findsRoom_of_handled (hopens : OpensNew messages)
    (h : ∀ before, before <+: messages → ∃ s,
      Holding.handleAll before = .ok s) : FindsRoom 0 messages := by
  induction messages using List.reverseRecOn with
  | nil =>
      intro before m after heq
      simp at heq
  | append_singleton messages m ih =>
      have hbefore : FindsRoom 0 messages :=
        ih hopens.of_append fun before hb =>
          h before (hb.trans (List.prefix_append ..))
      refine findsRoom_append.mpr ⟨hbefore, fun hinit => ?_⟩
      obtain ⟨s, hs, hmatches, hlength, -⟩ :=
        matches_of_findsRoom hopens.of_append hbefore
      obtain ⟨t, ht⟩ := h _ List.prefix_rfl
      rw [handleAll_append, hs, ok_bind] at ht
      rw [Nat.zero_add, ← hlength, ← hmatches.counter]
      by_contra hfull
      rw [Holding.handle, dispatchMessageType, if_pos hinit,
        handleInitMessage_full _ (Nat.le_of_not_lt hfull)] at ht
      cases ht

/-- **The table and the descriptors agree in every state of a run exactly
while each `INIT` finds room**: also one whose queue cannot be opened
writes behind a full table. -/
theorem descriptor_table_iff (hopens : OpensNew messages) :
    (∀ before, before <+: messages → ∃ s,
      Holding.handleAll before = .ok s ∧ Tidy before s) ↔
      FindsRoom 0 messages := by
  constructor
  · intro h
    refine findsRoom_of_handled hopens fun before hb => ?_
    obtain ⟨s, hs, -⟩ := h before hb
    exact ⟨s, hs⟩
  · rintro h before ⟨after, rfl⟩
    obtain ⟨s, hs, hmatches, -, hgiven⟩ :=
      matches_of_findsRoom hopens.of_append h.of_append
    exact ⟨s, hs, .of_matches hmatches hgiven⟩

/-- An `INIT` with the given result of `mq_open`. -/
def initMessage (opened : Int) : MsgT × Int := (.withoutText .init (-1), opened)

/-- A client leaves, and the next one gets its descriptor but not its
slot. -/
def oneAfterAnother : List (MsgT × Int) :=
  [initMessage 3, (.withoutText .clientExit 0, -1), initMessage 3]

theorem opensNew_oneAfterAnother : OpensNew oneAfterAnother := by
  have hclosed : ∀ s, Holding.handleAll [initMessage 3,
      (.withoutText .clientExit 0, -1)] = .ok s → (3 : Int) ∉ s.openQs := by
    intro s hs
    obtain rfl := Except.ok.inj hs
    decide
  change OpensNew ([] ++ [_] ++ [_] ++ [_])
  simp only [opensNew_append]
  refine ⟨⟨⟨?_, fun _ => .inr ⟨by decide, ?_⟩⟩, ?_⟩,
    fun _ => .inr ⟨by decide, hclosed⟩⟩
  · intro before m after heq
    simp at heq
  · intro s hs
    obtain rfl := Except.ok.inj hs
    exact List.not_mem_nil
  · intro hinit
    cases hinit

theorem descriptor_used_again : oneAfterAnother.countP Joins = 2 ∧
    ∀ before, before <+: oneAfterAnother →
      ∃ s, Holding.handleAll before = .ok s ∧ Tidy before s := by
  refine ⟨by decide, (descriptor_table_iff opensNew_oneAfterAnother).mpr ?_⟩
  change FindsRoom 0 ([] ++ [_] ++ [_] ++ [_])
  simp only [findsRoom_append]
  refine ⟨⟨⟨?_, fun _ => by decide⟩, fun _ => by decide⟩, fun _ => by decide⟩
  intro before m after heq
  simp at heq

/-! ## A full table -/

theorem openQs_foldl_perform (calls : List Call) (s : Holding) :
    (calls.foldl Holding.perform s).openQs ⊆ s.openQs := by
  induction calls generalizing s with
  | nil => exact List.Subset.refl _
  | cons c calls ih =>
      refine List.Subset.trans (ih _) ?_
      cases c with
      | send q message => exact List.Subset.refl _
      | close q => exact List.erase_subset

/-- What is open was opened for a client. -/
theorem openQs_subset {s : Holding} (h : Holding.handleAll messages = .ok s) :
    s.openQs ⊆ joined messages := by
  induction messages using List.reverseRecOn generalizing s with
  | nil =>
      obtain rfl := Except.ok.inj h
      exact List.nil_subset _
  | append_singleton messages m ih =>
      rw [handleAll_append] at h
      obtain ⟨t, ht, hs⟩ := bind_eq_ok.mp h
      obtain ⟨⟨server, calls⟩, -, hs⟩ := bind_eq_ok.mp hs
      obtain rfl := Except.ok.inj hs
      intro q hq
      rw [joined_append]
      have hopened := openQs_foldl_perform _ _ hq
      cases hm : Joins m with
      | true =>
          rw [hm, if_pos rfl] at hopened
          rcases List.mem_cons.mp hopened with rfl | hopened
          · simp
          · exact List.mem_append_left _ (ih ht hopened)
      | false =>
          rw [hm, if_neg Bool.false_ne_true] at hopened
          exact List.mem_append_left _ (ih ht hopened)

/-- A descriptor that is given out once is new. -/
theorem opensNew_of_nodup (h : (joined messages).Nodup)
    (hresults : ∀ m ∈ messages, m.2 = -1 ∨ 0 ≤ m.2) : OpensNew messages := by
  rintro before m after rfl hinit
  rcases hresults m (by simp) with hfailed | hpos
  · exact .inl hfailed
  · refine .inr ⟨hpos, ?_⟩
    intro s hs hopen
    have hm : Joins m = true := by simp [Joins, hinit, hpos]
    have hbefore := openQs_subset hs hopen
    rw [← List.singleton_append, ← List.append_assoc, joined,
      List.filter_append, List.map_append] at h
    have hnodup := (List.nodup_append.mp h).1
    change (joined (before ++ [m])).Nodup at hnodup
    rw [joined_append, if_pos hm] at hnodup
    exact (List.nodup_append.mp hnodup).2.2 _ hbefore _ (.head _) rfl

/-- A table that gets full, and one `INIT` more that fails. -/
def oneTooMany : List (MsgT × Int) :=
  (List.range maxClients).map (fun (k : Nat) => initMessage (3 + k)) ++
    [initMessage (-1)]

theorem joined_oneTooMany : joined oneTooMany =
    (List.range maxClients).map fun (k : Nat) => 3 + (k : Int) := by
  have hfailed : Joins (initMessage (-1)) = false := by decide
  rw [oneTooMany, joined_append, if_neg (by simp [hfailed]), List.append_nil,
    joined, List.filter_eq_self.mpr, List.map_map]
  · rfl
  · intro m hm
    obtain ⟨k, -, rfl⟩ := List.mem_map.mp hm
    have hpos : (0 : Int) ≤ 3 + k := by omega
    simp [initMessage, Joins, MsgT.withoutText, hpos]

/-- Fifty clients, and a fifty-first whose queue cannot be opened. -/
theorem failed_open_at_full_table : ¬ ∀ messages : List (MsgT × Int),
    OpensNew messages → messages.countP Joins ≤ maxClients →
      ∀ before, before <+: messages → ∃ s,
        Holding.handleAll before = .ok s ∧ Tidy before s := by
  intro h
  have hcount : oneTooMany.countP Joins = maxClients := by
    rw [← length_joined, joined_oneTooMany, List.length_map, List.length_range]
  have hopens : OpensNew oneTooMany := by
    refine opensNew_of_nodup ?_ ?_
    · rw [joined_oneTooMany]
      exact List.nodup_range.map fun j k hjk => by omega
    · intro m hm
      rcases List.mem_append.mp hm with hm | hm
      · obtain ⟨k, -, rfl⟩ := List.mem_map.mp hm
        refine .inr ?_
        show (0 : Int) ≤ 3 + k
        omega
      · rw [List.mem_singleton.mp hm]
        exact .inl rfl
  have hroom := findsRoom_of_handled hopens fun before hb => by
    obtain ⟨s, hs, -⟩ := h _ hopens (Nat.le_of_eq hcount) before hb
    exact ⟨s, hs⟩
  have hlast := (findsRoom_append.mp hroom).2 rfl
  rw [oneTooMany, List.countP_append] at hcount
  have hfailed : [initMessage (-1)].countP Joins = 0 := by decide
  omega

end Runs

end Sysops.Cw07
