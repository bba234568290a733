import Sysops.Library.CString

/-!
# `cw07/server.c`: the table of client queues and its handlers

The handlers of the message-queue chat server as functions of the table and
a message. What they do to the queues is the list of their calls, in order;
the results of `mq_send` only decide what is printed. An access of
`client_qs` outside of the array is a fault.
-/

namespace Sysops.Cw07

abbrev maxClients : Nat := 50
abbrev maxMsgBufSize : Nat := 1024
abbrev maxMessages : Nat := 10

/-- `msg_type_t`. -/
inductive MsgType where
  | init
  | receiveId
  | text
  | clientExit
  deriving DecidableEq

/-- The number of the enumeration constant. -/
def MsgType.code : MsgType → UInt32
  | init => 0
  | receiveId => 1
  | text => 2
  | clientExit => 3

/-- `msg_t`. A message may carry any number in its type field. -/
structure MsgT where
  type : UInt32
  id : Int
  text : Bytes maxMsgBufSize
  deriving DecidableEq

/-- `{.type = type, .id = id}`: the text is zeroed. -/
def MsgT.withoutText (type : MsgType) (id : Int) : MsgT where
  type := type.code
  id := id
  text := Bytes.ofList maxMsgBufSize []

/-- `client_queues` and `curr_max_client_num`. -/
structure Server where
  clientQs : Fin maxClients → Int
  currMaxClientNum : Nat

/-- After the first loop of `main`. -/
def Server.initial : Server where
  clientQs _ := -1
  currMaxClientNum := 0

/-- Calls on the queues of clients, by their descriptors. -/
inductive Call where
  | send (q : Int) (message : MsgT)
  | close (q : Int)
  deriving DecidableEq

/-! ## `client_qs` -/

/-- `client_qs[k]`. -/
def Server.clientQ (s : Server) (k : Int) : Except Fault Int :=
  if h : 0 ≤ k ∧ k.toNat < maxClients then .ok (s.clientQs ⟨k.toNat, h.2⟩)
  else .error .outOfBounds

/-- `client_qs[k] = q`. -/
def Server.setClientQ (s : Server) (k q : Int) : Except Fault Server :=
  if h : 0 ≤ k ∧ k.toNat < maxClients then
    .ok { s with clientQs := Function.update s.clientQs ⟨k.toNat, h.2⟩ q }
  else .error .outOfBounds

/-- The entry `k`, and `-1` behind the array. -/
def Server.entry (s : Server) (k : Nat) : Int :=
  if h : k < maxClients then s.clientQs ⟨k, h⟩ else -1

/-! ## The handlers -/

/-- `opened` is the result of `mq_open`. The entry is written before it is
looked at, and nothing is compared with `MAX_CLIENTS`. -/
def handleInitMessage (opened : Int) (s : Server) :
    Except Fault (Server × List Call) := do
  let newClientNum := s.currMaxClientNum
  let s ← s.setClientQ newClientNum opened
  if (← s.clientQ newClientNum) < 0 then
    return (s, [])
  let s := { s with currMaxClientNum := s.currMaxClientNum + 1 }
  let idMsg := MsgT.withoutText .receiveId newClientNum
  return (s, [.send (← s.clientQ newClientNum) idMsg])

/-- The loop sends to one entry after the other. -/
def handleTextMessage (s : Server) (message : MsgT) :
    Except Fault (Server × List Call) := do
  let calls ← (List.range s.currMaxClientNum).mapM fun (i : Nat) => do
    let q ← s.clientQ i
    return if q = -1 then [] else [Call.send q message]
  return (s, calls.flatten)

def handleClientExitMessage (s : Server) (message : MsgT) :
    Except Fault (Server × List Call) := do
  if 0 ≤ message.id ∧ message.id < maxClients then
    let q ← s.clientQ message.id
    let s ← s.setClientQ message.id (-1)
    return (s, [.close q])
  else
    return (s, [])

def dispatchMessageType (opened : Int) (s : Server) (message : MsgT) :
    Except Fault (Server × List Call) :=
  if message.type = MsgType.init.code then handleInitMessage opened s
  else if message.type = MsgType.text.code then handleTextMessage s message
  else if message.type = MsgType.clientExit.code then
    handleClientExitMessage s message
  else .ok (s, [])

/-! ## What each handler does while the counter is in range -/

section Handlers

variable {s : Server}

theorem clientQ_of_lt {k : Nat} (h : k < maxClients) :
    s.clientQ k = .ok (s.entry k) := by
  have hk : 0 ≤ (k : Int) ∧ (k : Int).toNat < maxClients := ⟨by omega, h⟩
  rw [Server.clientQ, dif_pos hk, Server.entry, dif_pos h]
  rfl

theorem setClientQ_of_lt {k : Nat} (h : k < maxClients) (q : Int) :
    s.setClientQ k q =
      .ok { s with clientQs := Function.update s.clientQs ⟨k, h⟩ q } := by
  have hk : 0 ≤ (k : Int) ∧ (k : Int).toNat < maxClients := ⟨by omega, h⟩
  rw [Server.setClientQ, dif_pos hk]
  rfl

/-- The table with one entry changed. -/
def Server.withEntry (s : Server) (k : Fin maxClients) (q : Int) : Server :=
  { s with clientQs := Function.update s.clientQs k q }

@[simp] theorem withEntry_curr (s : Server) (k : Fin maxClients) (q : Int) :
    (s.withEntry k q).currMaxClientNum = s.currMaxClientNum := rfl

theorem entry_withEntry (s : Server) (k : Fin maxClients) (q : Int) (i : Nat) :
    (s.withEntry k q).entry i = if i = k then q else s.entry i := by
  unfold Server.entry
  by_cases hi : i < maxClients
  · rw [dif_pos hi, dif_pos hi]
    show Function.update s.clientQs k q ⟨i, hi⟩ = _
    by_cases hik : i = k
    · obtain rfl : ⟨i, hi⟩ = k := Fin.ext hik
      rw [if_pos rfl, Function.update_self]
    · rw [if_neg hik, Function.update_of_ne]
      exact fun h => hik (congrArg Fin.val h)
  · have hik : i ≠ k := fun h => hi (h ▸ k.isLt)
    rw [dif_neg hi, dif_neg hi, if_neg hik]

/-- A full table: the entry that is written is behind the array. -/
theorem handleInitMessage_full (opened : Int)
    (h : maxClients ≤ s.currMaxClientNum) :
    handleInitMessage opened s = .error .outOfBounds := by
  have hk : ¬ (0 ≤ (s.currMaxClientNum : Int) ∧
      (s.currMaxClientNum : Int).toNat < maxClients) := by
    rintro ⟨-, hlt⟩
    exact absurd hlt (Nat.not_lt.mpr h)
  rw [handleInitMessage, Server.setClientQ, dif_neg hk]
  rfl

/-- The entry that was written is read back. -/
theorem clientQ_withEntry (opened : Int) (h : s.currMaxClientNum < maxClients) :
    (s.withEntry ⟨_, h⟩ opened).clientQ s.currMaxClientNum = .ok opened := by
  have hentry := entry_withEntry s ⟨_, h⟩ opened s.currMaxClientNum
  rw [if_pos rfl] at hentry
  have hread := clientQ_of_lt (s := s.withEntry ⟨_, h⟩ opened) h
  rwa [hentry] at hread

/-- A client that cannot be opened leaves the counter as it is. -/
theorem handleInitMessage_failed {opened : Int} (hopened : opened < 0)
    (h : s.currMaxClientNum < maxClients) :
    handleInitMessage opened s = .ok (s.withEntry ⟨_, h⟩ opened, []) := by
  have hread := clientQ_withEntry opened h
  rw [handleInitMessage, setClientQ_of_lt h, ok_bind]
  change ((s.withEntry ⟨_, h⟩ opened).clientQ s.currMaxClientNum >>= _) = _
  rw [hread, ok_bind, if_pos hopened]
  rfl

/-- A new client gets the next slot and is told its number. -/
theorem handleInitMessage_opened {opened : Int} (hopened : 0 ≤ opened)
    (h : s.currMaxClientNum < maxClients) :
    handleInitMessage opened s = .ok
      ({ s.withEntry ⟨_, h⟩ opened with
          currMaxClientNum := s.currMaxClientNum + 1 },
        [.send opened (.withoutText .receiveId s.currMaxClientNum)]) := by
  have hread := clientQ_withEntry opened h
  rw [handleInitMessage, setClientQ_of_lt h, ok_bind]
  change ((s.withEntry ⟨_, h⟩ opened).clientQ s.currMaxClientNum >>= _) = _
  rw [hread, ok_bind, if_neg (Int.not_lt.mpr hopened)]
  change ((s.withEntry ⟨_, h⟩ opened).clientQ s.currMaxClientNum >>= _) = _
  rw [hread]
  rfl

/-- The calls of a broadcast: one for each entry in use. -/
def Server.broadcast (s : Server) (message : MsgT) : List Call :=
  (List.range s.currMaxClientNum).flatMap fun i =>
    if s.entry i = -1 then [] else [.send (s.entry i) message]

theorem handleTextMessage_eq (h : s.currMaxClientNum ≤ maxClients)
    (message : MsgT) :
    handleTextMessage s message = .ok (s, s.broadcast message) := by
  rw [handleTextMessage, mapM_eq_ok (g := fun i =>
    if s.entry i = -1 then [] else [Call.send (s.entry i) message])]
  · rw [ok_bind, Server.broadcast, List.flatMap_def]
    rfl
  · intro i hi
    rw [List.mem_range] at hi
    rw [clientQ_of_lt (by omega), ok_bind]
    rfl

/-- Only a number of a slot is taken. -/
theorem handleClientExitMessage_eq {message : MsgT} {k : Nat}
    (hid : message.id = k) (h : k < maxClients) :
    handleClientExitMessage s message =
      .ok (s.withEntry ⟨k, h⟩ (-1), [.close (s.entry k)]) := by
  have hk : 0 ≤ message.id ∧ message.id < maxClients := by
    rw [hid]
    exact ⟨by omega, by omega⟩
  rw [handleClientExitMessage, if_pos hk, hid, clientQ_of_lt h, ok_bind,
    setClientQ_of_lt h]
  rfl

theorem handleClientExitMessage_other {message : MsgT}
    (h : ¬ (0 ≤ message.id ∧ message.id < maxClients)) :
    handleClientExitMessage s message = .ok (s, []) := by
  rw [handleClientExitMessage, if_neg h]
  rfl

end Handlers

/-! ## Runs of the handlers -/

/-- The handlers on a sequence of messages, each with the result of
`mq_open`. -/
def dispatchAll (s : Server) (messages : List (MsgT × Int)) :
    Except Fault Server :=
  messages.foldlM (fun s m => do
    return (← dispatchMessageType m.2 s m.1).1) s

/-- The message of a client whose queue can be opened. -/
def Joins (m : MsgT × Int) : Bool :=
  m.1.type = MsgType.init.code ∧ 0 ≤ m.2

section Runs

variable {s : Server}

/-- **What one message does to the counter**, where the entry that is
written is in the array. -/
theorem dispatch_curr (m : MsgT × Int) (hle : s.currMaxClientNum ≤ maxClients)
    (hroom : m.1.type = MsgType.init.code → s.currMaxClientNum < maxClients) :
    ∃ t calls, dispatchMessageType m.2 s m.1 = .ok (t, calls) ∧
      t.currMaxClientNum = s.currMaxClientNum + (Joins m).toNat := by
  unfold dispatchMessageType
  by_cases hinit : m.1.type = MsgType.init.code
  · rw [if_pos hinit]
    by_cases hopened : 0 ≤ m.2
    · refine ⟨_, _, handleInitMessage_opened hopened (hroom hinit), ?_⟩
      simp [Joins, hinit, hopened]
    · refine ⟨_, _, handleInitMessage_failed (Int.not_le.mp hopened)
        (hroom hinit), ?_⟩
      simp [Joins, hopened]
  · have hjoins : Joins m = false := by simp [Joins, hinit]
    rw [if_neg hinit, hjoins]
    split
    · exact ⟨s, _, handleTextMessage_eq hle m.1, rfl⟩
    · split
      · by_cases hid : 0 ≤ m.1.id ∧ m.1.id < maxClients
        · obtain ⟨k, hk⟩ := Int.eq_ofNat_of_zero_le hid.1
          exact ⟨_, _, handleClientExitMessage_eq hk (by omega), rfl⟩
        · exact ⟨s, [], handleClientExitMessage_other hid, rfl⟩
      · exact ⟨s, [], rfl, rfl⟩

theorem dispatchAll_cons (m : MsgT × Int) (messages : List (MsgT × Int)) :
    dispatchAll s (m :: messages) =
      (dispatchMessageType m.2 s m.1 >>= fun r => dispatchAll r.1 messages) := by
  rw [dispatchAll, List.foldlM_cons]
  cases dispatchMessageType m.2 s m.1 with
  | error f => rfl
  | ok r => rfl

/-- Every message of a new client finds room, counting from `k`. -/
def FindsRoom (k : Nat) (messages : List (MsgT × Int)) : Prop :=
  ∀ before m after, messages = before ++ m :: after →
    m.1.type = MsgType.init.code → k + before.countP Joins < maxClients

theorem findsRoom_cons {k : Nat} {m : MsgT × Int}
    {messages : List (MsgT × Int)} :
    FindsRoom k (m :: messages) ↔
      (m.1.type = MsgType.init.code → k < maxClients) ∧
        FindsRoom (k + (Joins m).toNat) messages := by
  constructor
  · intro h
    refine ⟨fun hinit => by simpa using h [] m messages rfl hinit, ?_⟩
    rintro before m' after rfl hinit
    have hroom := h (m :: before) m' after rfl hinit
    rw [List.countP_cons] at hroom
    cases hm : Joins m <;> simp [hm] at hroom ⊢ <;> omega
  · rintro ⟨hfirst, hrest⟩ before m' after heq hinit
    cases before with
    | nil =>
        obtain ⟨rfl, rfl⟩ := List.cons.inj heq
        simpa using hfirst hinit
    | cons b before =>
        obtain ⟨rfl, rfl⟩ := List.cons.inj heq
        have hroom := hrest before m' after rfl hinit
        rw [List.countP_cons]
        cases hm : Joins m <;> simp [hm] at hroom ⊢ <;> omega

theorem FindsRoom.of_append {k : Nat} {messages more : List (MsgT × Int)}
    (h : FindsRoom k (messages ++ more)) : FindsRoom k messages := by
  rintro before m after rfl hinit
  exact h before m (after ++ more) (by simp) hinit

/-- The counter and the indices along one sequence of messages. -/
theorem dispatchAll_eq_ok_iff (messages : List (MsgT × Int))
    (hle : s.currMaxClientNum ≤ maxClients) :
    (∃ t, dispatchAll s messages = .ok t ∧ t.currMaxClientNum ≤ maxClients) ↔
      FindsRoom s.currMaxClientNum messages := by
  induction messages generalizing s with
  | nil =>
      constructor
      · intro _ before m after heq
        simp at heq
      · intro _
        exact ⟨s, rfl, hle⟩
  | cons m messages ih =>
      rw [dispatchAll_cons, findsRoom_cons]
      by_cases hroom : m.1.type = MsgType.init.code →
          s.currMaxClientNum < maxClients
      · obtain ⟨t, calls, hdispatch, hcurr⟩ := dispatch_curr m hle hroom
        have hjoins : Joins m = true → s.currMaxClientNum < maxClients := by
          intro hm
          simp only [Joins, decide_eq_true_eq] at hm
          exact hroom hm.1
        have htle : t.currMaxClientNum ≤ maxClients := by
          rw [hcurr]
          cases hm : Joins m with
          | false => exact hle
          | true => exact hjoins hm
        rw [hdispatch, ok_bind, ih htle, hcurr, and_iff_right hroom]
      · -- the slot behind the last one
        have hinit : m.1.type = MsgType.init.code := by
          by_contra hinit
          exact hroom fun h => absurd h hinit
        have hfull : maxClients ≤ s.currMaxClientNum := by
          by_contra hlt
          exact hroom fun _ => Nat.lt_of_not_le hlt
        rw [dispatchMessageType, if_pos hinit, handleInitMessage_full _ hfull]
        constructor
        · rintro ⟨t, hok, -⟩
          cases hok
        · rintro ⟨hfirst, -⟩
          exact absurd hfirst hroom

/-- At every point of the sequence each index was in the array, and the
counter is. -/
def StaysInRange (s : Server) (messages : List (MsgT × Int)) : Prop :=
  ∀ before, before <+: messages → ∃ t, dispatchAll s before = .ok t ∧
    t.currMaxClientNum ≤ maxClients

/-- **Slot indices are in range exactly while new clients find room**:
nothing stops the message that follows the fiftieth client. -/
theorem slots_in_range_iff (messages : List (MsgT × Int)) :
    StaysInRange Server.initial messages ↔ FindsRoom 0 messages := by
  have hle : Server.initial.currMaxClientNum ≤ maxClients := Nat.zero_le _
  constructor
  · intro h
    exact (dispatchAll_eq_ok_iff messages hle).mp (h messages List.prefix_rfl)
  · rintro h before ⟨after, rfl⟩
    exact (dispatchAll_eq_ok_iff before hle).mpr h.of_append

/-- Fifty-one clients. -/
theorem fifty_first_client : ¬ ∀ messages : List (MsgT × Int),
    StaysInRange Server.initial messages := by
  intro h
  have hroom := (dispatchAll_eq_ok_iff _ (Nat.zero_le _)).mp
    (h (List.replicate 51 (.withoutText .init (-1), 3)) _ List.prefix_rfl)
  have hlast := hroom (List.replicate 50 (.withoutText .init (-1), 3))
    (.withoutText .init (-1), 3) [] (by simp [List.replicate_succ']) rfl
  simp [Joins, MsgT.withoutText] at hlast

end Runs

end Sysops.Cw07
