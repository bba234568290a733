import Sysops.Cw11.Names

/-!
# A broadcast and the sends that fail

`handle_to_all_message` down to the bytes that `send` gets, with what each
`send` comes to. A result of -1 decides whether a line is printed, and
nothing else. But a peer that is gone raises `SIGPIPE`, which nobody handles:
it ends the server in the middle of the loop.
-/

namespace Sysops.Cw11

open SlotM ProcessM

/-- What a call of `send` comes to. -/
inductive SendResult where
  /-- The number of the bytes that are taken, or -1. -/
  | returns (n : Int)
  | sigpipe
  deriving DecidableEq

/-- What the sends of one handler meet, in the turn for each slot. -/
structure Network where
  order : ByteOrder
  /-- What the array of `send_message` holds before. -/
  buffer : Fin maxClients → Bytes maxMsgNetBuf
  send : Fin maxClients → SendResult

/-- What a handler does to the outside. -/
inductive Output where
  /-- A call of `send`, whatever it comes to. -/
  | send (fd : Int) (frame : Bytes maxMsgNetBuf)
  | stderr (text : String)
  deriving DecidableEq

/-- The socket and the bytes of an attempt. -/
def Output.attempt : Output → Option (Int × Bytes maxMsgNetBuf)
  | .send fd frame => some (fd, frame)
  | .stderr _ => none

/-- `send_message` in the turn for the slot `i`. -/
def sendMessageOver (net : Network) (i : Fin maxClients) (socket : Int)
    (message : MessageT) : ProcessM maxClients ClientT Output Int := do
  keep (call (.send socket (serializeMessageT net.order message (net.buffer i))))
  match net.send i with
  | .returns n => return if n = -1 then -1 else 0
  | .sigpipe => throw .sigpipe

/-- The turn of `handle_to_all_message` for the slot `i`. -/
def toAllTurn (net : Network) (sender : Bytes maxClientName)
    (response : MessageT) (i : Fin maxClients) :
    ProcessM maxClients ClientT Output Unit := do
  let c ← keep (slot i)
  if c.valid && !c.hasName sender.toList then
    let result ← sendMessageOver net i c.socket response
    if result = -1 then
      keep (call (.stderr "failed to send message\n"))

/-- `handle_to_all_message`. -/
def handleToAllMessageOver (net : Network) (env : Env)
    (sender : Bytes maxClientName) (message : Bytes maxMessageText) :
    ProcessM maxClients ClientT Output Unit := do
  let response ← initMessageT (env.time 0) (some sender.toList)
    .serverChatMessage (some message.toList)
  keep lock
  (List.finRange maxClients).forM (toAllTurn net sender response)
  keep unlock

/-! ## Who is to get it, and what -/

/-- The valid entries with another name than the sender, in slot order. -/
def recipients (t : Clients) (sender : Bytes maxClientName) :
    List (Fin maxClients) :=
  (List.finRange maxClients).filter fun i =>
    (t i).valid && !(t i).hasName sender.toList

theorem mem_recipients {t : Clients} {sender : Bytes maxClientName}
    {i : Fin maxClients} : i ∈ recipients t sender ↔
      (t i).valid = true ∧
        strncmp maxClientName (t i).name.toList sender.toList ≠ 0 := by
  simp [recipients, ClientT.hasName]

theorem nodup_recipients (t : Clients) (sender : Bytes maxClientName) :
    (recipients t sender).Nodup :=
  (List.nodup_finRange maxClients).filter _

/-- The message of a broadcast. -/
def chatMessage (env : Env) (sender : Bytes maxClientName)
    (message : Bytes maxMessageText) : MessageT where
  sender := sender
  type := MessageType.serverChatMessage.code
  message := message
  timestamp := env.time 0

/-- Whom the loop comes to: it ends with the first whose peer is gone. -/
def Network.served (net : Network) :
    List (Fin maxClients) → List (Fin maxClients)
  | [] => []
  | i :: l => i :: if net.send i = .sigpipe then [] else net.served l

section Broadcast

variable (net : Network) (env : Env) (t : Clients)
  (sender : Bytes maxClientName) (message : Bytes maxMessageText)

/-- The bytes that go to the entry `i`. -/
def Network.frame (i : Fin maxClients) : Bytes maxMsgNetBuf :=
  serializeMessageT net.order (chatMessage env sender message) (net.buffer i)

/-- Everyone else is sent to exactly once, each frame decodes to what was
said, and the server goes on with the table as it was. -/
structure ReachesEveryoneElse : Prop where
  returns : ((handleToAllMessageOver net env sender message).outcome
    ⟨t, false, []⟩).1 = .ok ()
  table : ((handleToAllMessageOver net env sender message).outcome
    ⟨t, false, []⟩).2.slots = t
  attempts : ((handleToAllMessageOver net env sender message).outcome
    ⟨t, false, []⟩).2.calls.filterMap Output.attempt =
      (recipients t sender).map fun i =>
        ((t i).socket, net.frame env sender message i)
  decodes : ∀ i b,
    let received := deserializeMessageT b (net.frame env sender message i)
      encodedLength_le
    received.sender = sender ∧
      received.type = MessageType.serverChatMessage.code ∧
      received.message = message

theorem initMessageT_chat :
    initMessageT (env.time 0) (some sender.toList) .serverChatMessage
      (some message.toList) = .ok (chatMessage env sender message) := by
  rw [initMessageT, memcpy_toList, memcpy_toList]
  rfl

theorem decodes_frame (i : Fin maxClients) (b : ByteOrder) :
    let received := deserializeMessageT b (net.frame env sender message i)
      encodedLength_le
    received.sender = sender ∧
      received.type = MessageType.serverChatMessage.code ∧
      received.message = message := by
  intro received
  have hreceived : received = _ :=
    deserialize_of_encoding net.order b (chatMessage env sender message) _
      ⟨_, (toList_serializeMessageT _ _ _).symm⟩
  rw [hreceived]
  exact ⟨rfl, rfl, rfl⟩

/-! ## The loop -/

/-- How the loop ends. -/
def Network.ends (l : List (Fin maxClients)) : Except Fault Unit :=
  if ∃ i ∈ l, net.send i = .sigpipe then .error .sigpipe else .ok ()

/-- What the loop does to the outside for the entries it is to serve. -/
def Network.outputs (l : List (Fin maxClients)) : List Output :=
  (net.served l).flatMap fun i =>
    .send (t i).socket (net.frame env sender message i) ::
      if net.send i = .returns (-1) then [.stderr "failed to send message\n"]
      else []

variable {net env t sender message} {s : SlotTable maxClients ClientT Output}
  {i : Fin maxClients}

theorem ends_of_gone {l : List (Fin maxClients)}
    (h : ∃ i ∈ l, net.send i = .sigpipe) : net.ends l = .error .sigpipe :=
  if_pos h

theorem ends_of_present {l : List (Fin maxClients)}
    (h : ¬ ∃ i ∈ l, net.send i = .sigpipe) : net.ends l = .ok () :=
  if_neg h

theorem outcome_turn_other
    (hi : ((t i).valid && !(t i).hasName sender.toList) = false)
    (hs : s.slots = t) :
    (toAllTurn net sender (chatMessage env sender message) i).outcome s =
      (.ok (), s) := by
  subst hs
  rw [toAllTurn, outcome_bind_ok (outcome_keep (run_slot s i)), hi]
  rfl

theorem outcome_turn_returns
    (hi : ((t i).valid && !(t i).hasName sender.toList) = true)
    (hs : s.slots = t) {n : Int} (hsend : net.send i = .returns n) :
    (toAllTurn net sender (chatMessage env sender message) i).outcome s =
      (.ok (), { s with calls := s.calls ++
        (Output.send (t i).socket (net.frame env sender message i) ::
          if net.send i = .returns (-1) then
            [.stderr "failed to send message\n"]
          else []) }) := by
  subst hs
  have hresult : (sendMessageOver net i (s.slots i).socket
      (chatMessage env sender message)).outcome s =
      (.ok (if n = -1 then -1 else 0), { s with calls := s.calls ++
        [.send (s.slots i).socket (net.frame env sender message i)] }) := by
    rw [sendMessageOver, outcome_bind_ok (outcome_keep (run_call s _)), hsend]
    rfl
  rw [toAllTurn, outcome_bind_ok (outcome_keep (run_slot s i)), hi, if_pos rfl,
    outcome_bind_ok hresult, hsend]
  by_cases hn : n = -1
  · subst hn
    rw [if_pos rfl, if_pos rfl, if_pos rfl, outcome_keep (run_call _ _)]
    simp
  · rw [if_neg hn, if_neg (by decide), if_neg fun h => hn (SendResult.returns.inj h)]
    rfl

theorem outcome_turn_sigpipe
    (hi : ((t i).valid && !(t i).hasName sender.toList) = true)
    (hs : s.slots = t) (hsend : net.send i = .sigpipe) :
    (toAllTurn net sender (chatMessage env sender message) i).outcome s =
      (.error .sigpipe, { s with calls := s.calls ++
        [.send (t i).socket (net.frame env sender message i)] }) := by
  subst hs
  have hresult : (sendMessageOver net i (s.slots i).socket
      (chatMessage env sender message)).outcome s =
      (.error .sigpipe, { s with calls := s.calls ++
        [.send (s.slots i).socket (net.frame env sender message i)] }) := by
    rw [sendMessageOver, outcome_bind_ok (outcome_keep (run_call s _)), hsend]
    rfl
  rw [toAllTurn, outcome_bind_ok (outcome_keep (run_slot s i)), hi, if_pos rfl,
    outcome_bind_error hresult]

/-- The loop serves one entry after the other, up to the first whose peer is
gone. -/
theorem outcome_loop (l : List (Fin maxClients)) (hs : s.slots = t) :
    (l.forM (toAllTurn net sender (chatMessage env sender message))).outcome
        s =
      (net.ends (l.filter fun i =>
          (t i).valid && !(t i).hasName sender.toList),
        { s with calls := (s.calls ++ net.outputs env t sender message
          (l.filter fun i =>
            (t i).valid && !(t i).hasName sender.toList)) }) := by
  induction l generalizing s with
  | nil =>
      show (Except.ok (), s) = _
      simp [Network.ends, Network.outputs, Network.served]
  | cons i l ih =>
      rw [List.forM_eq_forM, List.forM_cons, ← List.forM_eq_forM]
      cases hi : (t i).valid && !(t i).hasName sender.toList with
      | false =>
          rw [outcome_bind_ok (outcome_turn_other hi hs), ih hs,
            List.filter_cons, hi, if_neg Bool.false_ne_true]
      | true =>
          rw [List.filter_cons, hi, if_pos rfl]
          cases hsend : net.send i with
          | returns n =>
              rw [outcome_bind_ok (outcome_turn_returns hi hs hsend)]
              refine (ih ?_).trans ?_
              · exact hs
              simp [Network.ends, Network.outputs, Network.served, hsend]
          | sigpipe =>
              rw [outcome_bind_error (outcome_turn_sigpipe hi hs hsend)]
              simp [Network.ends, Network.outputs, Network.served, hsend]

theorem outcome_handleToAllMessageOver :
    (handleToAllMessageOver net env sender message).outcome ⟨t, false, []⟩ =
      (net.ends (recipients t sender),
        { slots := t
          locked := decide (∃ i ∈ recipients t sender, net.send i = .sigpipe)
          calls := net.outputs env t sender message (recipients t sender) }) := by
  have hinit : (liftM (initMessageT (env.time 0) (some sender.toList)
      .serverChatMessage (some message.toList)) :
        ProcessM maxClients ClientT Output MessageT).outcome ⟨t, false, []⟩ =
      (.ok (chatMessage env sender message), ⟨t, false, []⟩) := by
    rw [initMessageT_chat]
    rfl
  have hlock : (keep lock).outcome
      (⟨t, false, []⟩ : SlotTable maxClients ClientT Output) =
      (.ok (), ⟨t, true, []⟩) := outcome_keep (run_lock_free _ rfl)
  have hloop : ((List.finRange maxClients).forM (toAllTurn net sender
      (chatMessage env sender message))).outcome ⟨t, true, []⟩ = _ :=
    outcome_loop (List.finRange maxClients) rfl
  rw [List.nil_append] at hloop
  rw [handleToAllMessageOver, outcome_bind_ok hinit, outcome_bind_ok hlock]
  by_cases hgone : ∃ i ∈ recipients t sender, net.send i = .sigpipe
  · have hends := ends_of_gone hgone
    rw [outcome_bind_error (hloop.trans (by rw [← recipients, hends])), hends,
      decide_eq_true hgone]
  · have hends := ends_of_present hgone
    rw [outcome_bind_ok (hloop.trans (by rw [← recipients, hends])), hends,
      decide_eq_false hgone]
    rfl

/-! ## Who is served -/

theorem attempts_outputs (l : List (Fin maxClients)) :
    (net.outputs env t sender message l).filterMap Output.attempt =
      (net.served l).map fun i =>
        ((t i).socket, net.frame env sender message i) := by
  rw [Network.outputs]
  induction net.served l with
  | nil => rfl
  | cons i l ih =>
      rw [List.flatMap_cons, List.filterMap_append, ih]
      split <;> rfl

/-- Where no peer is gone the loop comes to all of them. -/
theorem served_eq_self {l : List (Fin maxClients)}
    (h : ∀ i ∈ l, net.send i ≠ .sigpipe) : net.served l = l := by
  induction l with
  | nil => rfl
  | cons i l ih =>
      rw [List.forall_mem_cons] at h
      rw [Network.served, if_neg h.1, ih h.2]

/-- **A broadcast reaches everyone else exactly once** if and only if none
of their peers is gone. In any case the loop serves the recipients in order,
up to the first whose peer is gone. -/
theorem broadcast_reaches_everyone_else :
    (∀ i, i ∈ recipients t sender ↔ (t i).valid = true ∧
        strncmp maxClientName (t i).name.toList sender.toList ≠ 0) ∧
      (recipients t sender).Nodup ∧
      (((handleToAllMessageOver net env sender message).outcome
        ⟨t, false, []⟩).2.calls.filterMap Output.attempt =
          (net.served (recipients t sender)).map fun i =>
            ((t i).socket, net.frame env sender message i)) ∧
      (ReachesEveryoneElse net env t sender message ↔
        ∀ i ∈ recipients t sender, net.send i ≠ .sigpipe) := by
  refine ⟨fun i => mem_recipients, nodup_recipients t sender, ?_, ?_, ?_⟩
  · rw [outcome_handleToAllMessageOver, attempts_outputs]
  · intro h i hi hgone
    have hreturns := h.returns
    rw [outcome_handleToAllMessageOver, ends_of_gone ⟨i, hi, hgone⟩]
      at hreturns
    cases hreturns
  · intro h
    have hpresent : ¬ ∃ i ∈ recipients t sender, net.send i = .sigpipe :=
      fun ⟨i, hi, hgone⟩ => h i hi hgone
    constructor
    · rw [outcome_handleToAllMessageOver, ends_of_present hpresent]
    · rw [outcome_handleToAllMessageOver]
    · rw [outcome_handleToAllMessageOver, attempts_outputs, served_eq_self h]
    · exact decodes_frame net env sender message

/-- Two clients, and the first of them has closed its connection: the second
is sent nothing. -/
theorem broadcast_ends_at_closed_peer :
    ¬ ∀ (net : Network) (env : Env) (t : Clients)
      (sender : Bytes maxClientName) (message : Bytes maxMessageText),
      ReachesEveryoneElse net env t sender message := by
  intro h
  have hreturns := (h
    { order := .little
      buffer := fun _ => Bytes.ofList maxMsgNetBuf []
      send := fun i => if i = 0 then .sigpipe else .returns maxMsgNetBuf }
    .zeros
    (fun i => {
      name := Bytes.ofList maxClientName []
      socket := i
      valid := decide (i.val < 2)
      awaitingAliveResponse := false })
    (Bytes.ofList maxClientName [97])
    (Bytes.ofList maxMessageText [])).returns
  rw [outcome_handleToAllMessageOver,
    ends_of_gone ⟨0, mem_recipients.mpr ⟨rfl, by decide⟩, rfl⟩] at hreturns
  cases hreturns

/-- The handler of the other modules makes the same sends. -/
theorem handleToAllMessage_forgets : ∃ calls : List Call,
    (handleToAllMessage env sender message).run ⟨t, false, []⟩ =
        .ok ((), ⟨t, false, calls⟩) ∧
      calls = (recipients t sender).map fun i =>
        .send (t i).socket (chatMessage env sender message) := by
  refine ⟨_, run_handleToAllMessage env rfl sender message, ?_⟩
  rw [recipients]
  show [] ++ (List.finRange maxClients).flatMap _ = _
  rw [List.nil_append]
  induction List.finRange maxClients with
  | nil => rfl
  | cons i l ih =>
      rw [List.flatMap_cons, ih, List.filter_cons]
      show (if (t i).valid && !(t i).hasName sender.toList then
        [Call.send (t i).socket (chatMessage env sender message)] else []) ++
          _ = _
      split <;> rfl

end Broadcast

end Sysops.Cw11
