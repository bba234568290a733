import Sysops.Cw11.Server

/-!
# What the handlers do to the table

One equation for each handler, started with the mutex free, and from them
`Handled`: everything a handled frame can do. Later modules use these
and do not look into the handlers again.
-/

namespace Sysops.Cw11

open SlotM

abbrev Clients := Fin maxClients → ClientT

/-! ## The three searches -/

/-- The first valid entry with the name. -/
def taken (t : Clients) (name : List Byte) : Option (Fin maxClients) :=
  Fin.find? fun i => (t i).valid && (t i).hasName name

/-- The first slot that is not in use. -/
def freeSlot (t : Clients) : Option (Fin maxClients) :=
  Fin.find? fun i => !(t i).valid

/-- The first slot, in use or not, with the socket. -/
def holder (t : Clients) (fd : Int) : Option (Fin maxClients) :=
  Fin.find? fun i => (t i).socket == fd

theorem taken_eq_some {t : Clients} {name : List Byte} {i : Fin maxClients}
    (h : taken t name = some i) :
    (t i).valid = true ∧ (t i).hasName name = true := by
  simpa using (Fin.find?_eq_some_iff.mp h).1

theorem taken_eq_none {t : Clients} {name : List Byte} :
    taken t name = none ↔
      ∀ i, (t i).valid = true → (t i).hasName name = false := by
  rw [taken, Fin.find?_eq_none_iff]
  simp [Bool.and_eq_false_imp]

theorem freeSlot_eq_some {t : Clients} {i : Fin maxClients}
    (h : freeSlot t = some i) : (t i).valid = false := by
  simpa using (Fin.find?_eq_some_iff.mp h).1

theorem freeSlot_eq_none {t : Clients} :
    freeSlot t = none ↔ ∀ i, (t i).valid = true := by
  rw [freeSlot, Fin.find?_eq_none_iff]
  simp

theorem run_findTaken (s : Server) (name : List Byte) :
    (findSlot fun c => c.valid && c.hasName name).run s =
      .ok (taken s.slots name, s) := by
  rw [run_findSlot, taken]

theorem run_findFree (s : Server) :
    (findSlot fun c => !c.valid).run s = .ok (freeSlot s.slots, s) := by
  rw [run_findSlot, freeSlot]

theorem run_findHolder (s : Server) (fd : Int) :
    (findSlot fun c => c.socket == fd).run s =
      .ok (holder s.slots fd, s) := by
  rw [run_findSlot, holder]

/-! ## The server's own messages -/

/-- What `memcpy` takes from a string literal. -/
def Env.copy (env : Env) (n : Nat) (h : n ≤ maxMessageText) (s : String) :
    Bytes n :=
  ⟨(Sysops.literal s ++ (env.rodata s).toList).take n, by
    simp only [List.length_take, List.length_append,
      List.Vector.toList_length]
    omega⟩

/-- A message of the server itself. -/
def Env.serverMessage (env : Env) (k : Nat) (type : MessageType)
    (text : String) : MessageT where
  sender := env.copy maxClientName (by decide) "SERVER"
  type := type.code
  message := env.copy maxMessageText (by decide) text
  timestamp := env.time k

theorem memcpy_literal (env : Env) (n : Nat) (h : n ≤ maxMessageText)
    (s : String) : memcpy n (env.literal s) = .ok (env.copy n h s) :=
  memcpy_eq_ok.mpr (List.take_prefix _ _)

theorem initMessageT_server (env : Env) (k : Nat) (type : MessageType)
    (text : String) :
    initMessageT (env.time k) (env.literal "SERVER") type (env.literal text)
      = .ok (env.serverMessage k type text) := by
  rw [initMessageT, memcpy_literal env _ (by decide),
    memcpy_literal env _ (by decide)]
  rfl

theorem initMessageT_type {now : Int64} {sender messageText : Pointer}
    {type : MessageType} {m : MessageT}
    (h : initMessageT now sender type messageText = .ok m) :
    m.type = type.code := by
  simp only [initMessageT, bind_eq_ok, pure_eq_ok, Except.ok.injEq] at h
  obtain ⟨_, -, _, -, rfl⟩ := h
  rfl

/-! ## A handler that returned found the mutex free -/

section Free

variable {s s' : Server} {env : Env}

theorem free_of_addClient {name : Bytes maxClientName} {fd r : Int}
    (hrun : (addClient name fd).run s = .ok (r, s')) : s.locked = false :=
  free_of_lock_bind_ok hrun

theorem free_of_handleNewClient {name : Bytes maxClientName} {fd : Int}
    (hrun : (handleNewClient env name fd).run s = .ok ((), s')) :
    s.locked = false := by
  obtain ⟨_, _, hadd, -⟩ := run_bind_eq_ok.mp hrun
  exact free_of_addClient hadd

theorem free_of_lockedDelete {name : Bytes maxClientName} {r : Int}
    (hrun : (lockedDelete name).run s = .ok (r, s')) : s.locked = false :=
  free_of_lock_bind_ok hrun

theorem free_of_handleClientDelete {name : Bytes maxClientName}
    (hrun : (handleClientDelete name).run s = .ok ((), s')) :
    s.locked = false := by
  obtain ⟨_, _, hdelete, -⟩ := run_bind_eq_ok.mp hrun
  exact free_of_lockedDelete hdelete

theorem free_of_handleToAllMessage {sender : Bytes maxClientName}
    {message : Bytes maxMessageText}
    (hrun : (handleToAllMessage env sender message).run s = .ok ((), s')) :
    s.locked = false := by
  obtain ⟨_, _, hinit, hrest⟩ := run_bind_eq_ok.mp hrun
  obtain ⟨-, rfl⟩ := run_lift_eq_ok.mp hinit
  exact free_of_lock_bind_ok hrest

theorem free_of_handleToOneMessage {sender : Bytes maxClientName}
    {message : Bytes maxMessageText}
    (hrun : (handleToOneMessage env sender message).run s = .ok ((), s')) :
    s.locked = false := by
  obtain ⟨_, _, hsplit, hrest⟩ := run_bind_eq_ok.mp hrun
  obtain ⟨-, rfl⟩ := run_lift_eq_ok.mp hsplit
  obtain ⟨_, _, hinit, hrest⟩ := run_bind_eq_ok.mp hrest
  obtain ⟨-, rfl⟩ := run_lift_eq_ok.mp hinit
  exact free_of_lock_bind_ok hrest

theorem free_of_lockedList {buffer : Bytes maxMessageText}
    (hrun : (lockedList env).run s = .ok (buffer, s')) : s.locked = false :=
  free_of_lock_bind_ok hrun

theorem free_of_handleGotAliveMessage {fd : Int}
    (hrun : (handleGotAliveMessage fd).run s = .ok ((), s')) :
    s.locked = false :=
  free_of_lock_bind_ok hrun

theorem free_of_checkAliveFirstPass
    (hrun : (checkAliveFirstPass env).run s = .ok ((), s')) :
    s.locked = false :=
  free_of_lock_bind_ok hrun

theorem free_of_checkAliveSecondPass
    (hrun : checkAliveSecondPass.run s = .ok ((), s')) : s.locked = false :=
  free_of_lock_bind_ok hrun

end Free

/-! ## One equation for each handler -/

section Equations

variable {s : Server} (env : Env)

theorem run_addClient (h : s.locked = false) (name : Bytes maxClientName)
    (fd : Int) : (addClient name fd).run s =
      match taken s.slots name.toList, freeSlot s.slots with
      | some _, _ => .ok (-1, { s with locked := true })
      | none, some i => .ok (0, { s with
          slots := Function.update s.slots i
            { s.slots i with valid := true, socket := fd, name := name } })
      | none, none => .ok (0, s) := by
  simp only [addClient, StateT.run_bind, run_lock_free s h, run_findTaken,
    ok_bind]
  cases taken s.slots name.toList with
  | some i => rfl
  | none =>
      simp only [Option.isSome_none, Bool.false_eq_true, if_false,
        StateT.run_bind, run_findFree, ok_bind]
      cases freeSlot s.slots with
      | some i => simp [h]
      | none => simp [← h]

/-- The reply to a `CLIENT_NEW` and what it leaves. -/
theorem run_handleNewClient (h : s.locked = false)
    (name : Bytes maxClientName) (fd : Int) :
    (handleNewClient env name fd).run s = .ok ((),
      match taken s.slots name.toList, freeSlot s.slots with
      | some _, _ => { s with
          locked := true
          calls := s.calls ++ [.send fd (env.serverMessage 0
            .serverFailureRegister "identifier already taken")] }
      | none, some i => { s with
          slots := Function.update s.slots i
            { s.slots i with valid := true, socket := fd, name := name }
          calls := s.calls ++ [.send fd (env.serverMessage 0
            .serverOkRegister "successfully registered")] }
      | none, none => { s with
          calls := s.calls ++ [.send fd (env.serverMessage 0
            .serverOkRegister "successfully registered")] }) := by
  simp only [handleNewClient, StateT.run_bind, run_addClient h]
  cases taken s.slots name.toList with
  | some i =>
      simp only [ok_bind, show ((-1 : Int) == 0) = false from rfl,
        Bool.false_eq_true, if_false, initMessageT_server]
      rfl
  | none =>
      cases freeSlot s.slots with
      | some i =>
          simp only [ok_bind, show ((0 : Int) == 0) = true from rfl, if_true,
            initMessageT_server]
          rfl
      | none =>
          simp only [ok_bind, show ((0 : Int) == 0) = true from rfl, if_true,
            initMessageT_server]
          rfl

theorem run_lockedDelete (h : s.locked = false)
    (name : Bytes maxClientName) : (lockedDelete name).run s =
      .ok (match taken s.slots name.toList with
        | some i => ((s.slots i).socket, { s with
            slots := Function.update s.slots i
              { s.slots i with
                valid := false
                name := clearName (s.slots i).name
                socket := -1 } })
        | none => (-1, s)) := by
  simp only [lockedDelete, StateT.run_bind, run_lock_free s h,
    run_findTaken, ok_bind]
  cases taken s.slots name.toList with
  | some i => simp [h]
  | none => simp [← h]

theorem run_handleClientDelete (h : s.locked = false)
    (name : Bytes maxClientName) : (handleClientDelete name).run s =
      .ok ((), match taken s.slots name.toList with
        | some i => { s with
            slots := Function.update s.slots i
              { s.slots i with
                valid := false
                name := clearName (s.slots i).name
                socket := -1 }
            calls := s.calls ++
              if (s.slots i).socket ≠ -1 then [.close (s.slots i).socket]
              else [] }
        | none => s) := by
  simp only [handleClientDelete, StateT.run_bind, run_lockedDelete h, ok_bind]
  cases taken s.slots name.toList with
  | some i =>
      by_cases hs : (s.slots i).socket = -1
      · simp [hs]
      · simp [hs, close]
  | none => simp

theorem run_handleToAllMessage (h : s.locked = false)
    (sender : Bytes maxClientName) (message : Bytes maxMessageText) :
    (handleToAllMessage env sender message).run s = .ok ((), { s with
      calls := s.calls ++ (List.finRange maxClients).flatMap fun i =>
        if (s.slots i).valid && !(s.slots i).hasName sender.toList then
          [.send (s.slots i).socket
            { timestamp := env.time 0, sender := sender,
              type := MessageType.serverChatMessage.code, message := message }]
        else [] }) := by
  have hinit : initMessageT (env.time 0) (some sender.toList)
      .serverChatMessage (some message.toList) = .ok
        { timestamp := env.time 0, sender := sender,
          type := MessageType.serverChatMessage.code, message := message } := by
    rw [initMessageT, memcpy_toList, memcpy_toList]
    rfl
  simp only [handleToAllMessage, hinit, StateT.run_bind, StateT.run_monadLift,
    monadLift_self, ok_bind, pure_eq_ok, run_lock_free s h]
  rw [run_forEachSlot (f := fun _ c => c) (g := fun _ c =>
    if c.valid && !c.hasName sender.toList then [.send c.socket
      { timestamp := env.time 0, sender := sender,
        type := MessageType.serverChatMessage.code, message := message }]
    else [])]
  · simp only [ok_bind, run_unlock, ← h]
  · intro i s
    simp only [StateT.run_bind, run_slot, ok_bind]
    split <;> simp [sendMessage]

theorem run_handleGotAliveMessage (h : s.locked = false) (fd : Int) :
    (handleGotAliveMessage fd).run s = .ok ((), { s with
      slots := match holder s.slots fd with
        | some i => Function.update s.slots i
            { s.slots i with awaitingAliveResponse := false }
        | none => s.slots }) := by
  simp only [handleGotAliveMessage, StateT.run_bind, run_lock_free s h,
    run_findHolder, ok_bind]
  cases holder s.slots fd with
  | some i => simp [h]
  | none => simp [← h]

/-- The first pass of the heartbeat marks every entry and asks it. -/
theorem run_checkAliveFirstPass (h : s.locked = false) :
    (checkAliveFirstPass env).run s = .ok ((), { s with
      slots := fun i =>
        if (s.slots i).valid then
          { s.slots i with awaitingAliveResponse := true }
        else s.slots i
      calls := s.calls ++ (List.finRange maxClients).flatMap fun i =>
        if (s.slots i).valid then
          [.send (s.slots i).socket (env.serverMessage i .serverCheckAlive "")]
        else [] }) := by
  simp only [checkAliveFirstPass, StateT.run_bind, run_lock_free s h, ok_bind]
  rw [run_forEachSlot
    (f := fun _ c =>
      if c.valid then { c with awaitingAliveResponse := true } else c)
    (g := fun i c => if c.valid then
      [.send c.socket (env.serverMessage i .serverCheckAlive "")] else [])]
  · simp only [ok_bind, run_unlock, ← h]
  · intro i s
    simp only [StateT.run_bind, run_slot, ok_bind, initMessageT_server]
    split <;> simp [sendMessage]

/-- The second pass removes every entry that is still marked. -/
theorem run_checkAliveSecondPass (h : s.locked = false) :
    checkAliveSecondPass.run s = .ok ((), { s with
      slots := fun i =>
        if (s.slots i).valid && (s.slots i).awaitingAliveResponse then
          { s.slots i with valid := false, awaitingAliveResponse := false }
        else s.slots i
      calls := s.calls ++ (List.finRange maxClients).flatMap fun i =>
        if (s.slots i).valid && (s.slots i).awaitingAliveResponse then
          [.close (s.slots i).socket]
        else [] }) := by
  simp only [checkAliveSecondPass, StateT.run_bind, run_lock_free s h, ok_bind]
  rw [run_forEachSlot
    (f := fun _ c => if c.valid && c.awaitingAliveResponse then
      { c with valid := false, awaitingAliveResponse := false } else c)
    (g := fun _ c => if c.valid && c.awaitingAliveResponse then
      [.close c.socket] else [])]
  · simp only [ok_bind, run_unlock, ← h]
  · intro i s
    simp only [StateT.run_bind, run_slot, ok_bind]
    split <;> simp [close]

/-- The loop over the receivers sends at most once, and to an entry with
the name. -/
theorem sendToOne_ok {s' : Server} {receiverName : Pointer} {msg : MessageT}
    (hrun : (sendToOne receiverName msg).run s = .ok ((), s')) :
    ∃ sends, s' = { s with calls := s.calls ++ sends } ∧
      sends.length ≤ 1 ∧
      ∀ k ∈ sends, ∃ receiver i, receiverName = some receiver ∧
        (s.slots i).valid = true ∧ (s.slots i).hasName receiver = true ∧
        k = .send (s.slots i).socket msg := by
  cases receiverName with
  | none =>
      simp only [sendToOne, StateT.run_bind, run_findSlot, ok_bind] at hrun
      split at hrun
      · cases hrun
      · rw [StateT.run_pure, pure_eq_ok, Except.ok.injEq, Prod.mk.injEq]
          at hrun
        exact ⟨[], by simp [← hrun.2], by simp, by simp⟩
  | some receiver =>
      simp only [sendToOne, StateT.run_bind, run_findTaken, ok_bind] at hrun
      cases hfind : taken s.slots receiver with
      | none =>
          simp only [hfind, StateT.run_pure, pure_eq_ok, Except.ok.injEq,
            Prod.mk.injEq] at hrun
          exact ⟨[], by simp [← hrun.2], by simp, by simp⟩
      | some i =>
          simp only [hfind, StateT.run_bind, run_slot, ok_bind, sendMessage,
            run_call, Except.ok.injEq, Prod.mk.injEq] at hrun
          obtain ⟨hvalid, hname⟩ := taken_eq_some hfind
          refine ⟨[.send (s.slots i).socket msg], hrun.2.symm, by simp, ?_⟩
          intro k hk
          exact ⟨receiver, i, rfl, hvalid, hname, List.mem_singleton.mp hk⟩

/-- Splitting the text of a `CLIENT_TO_ONE` frame may end in a fault; if
the handler returns, it has sent at most one frame, to an entry with the
name that was split off. -/
theorem handleToOneMessage_ok {s' : Server} {sender : Bytes maxClientName}
    {message : Bytes maxMessageText}
    (hrun : (handleToOneMessage env sender message).run s = .ok ((), s')) :
    ∃ sends, s' = { s with calls := s.calls ++ sends } ∧
      sends.length ≤ 1 ∧
      ∀ k ∈ sends, ∃ receiver text i msg,
        splitToOne env message = .ok (some receiver, text) ∧
        (s.slots i).valid = true ∧ (s.slots i).hasName receiver = true ∧
        k = .send (s.slots i).socket msg := by
  have h := free_of_handleToOneMessage hrun
  obtain ⟨⟨receiverName, messageText⟩, t, hpieces, hrest⟩ :=
    run_bind_eq_ok.mp hrun
  obtain ⟨hsplit, rfl⟩ := run_lift_eq_ok.mp hpieces
  obtain ⟨msg, t, hinit, hrest⟩ := run_bind_eq_ok.mp hrest
  obtain ⟨-, rfl⟩ := run_lift_eq_ok.mp hinit
  obtain ⟨_, t, hlock, hrest⟩ := run_bind_eq_ok.mp hrest
  obtain ⟨_, u, hsend, hunlock⟩ := run_bind_eq_ok.mp hrest
  rw [run_lock_free s h, Except.ok.injEq, Prod.mk.injEq] at hlock
  rw [run_unlock, Except.ok.injEq, Prod.mk.injEq] at hunlock
  obtain ⟨sends, hu, hlen, hmem⟩ := sendToOne_ok hsend
  refine ⟨sends, ?_, hlen, ?_⟩
  · rw [← hunlock.2, hu, ← hlock.2, ← h]
  · intro k hk
    obtain ⟨receiver, i, rfl, hvalid, hname, hk⟩ := hmem k hk
    rw [← hlock.2] at hvalid hname hk
    exact ⟨receiver, messageText, i, msg, hsplit, hvalid, hname, hk⟩

/-- Building the list may end in a fault; else the table is what it was. -/
theorem lockedList_ok {s' : Server} {buffer : Bytes maxMessageText}
    (hrun : (lockedList env).run s = .ok (buffer, s')) : s' = s := by
  have h := free_of_lockedList hrun
  obtain ⟨_, t, hlock, hrest⟩ := run_bind_eq_ok.mp hrun
  rw [run_lock_free s h, Except.ok.injEq, Prod.mk.injEq] at hlock
  obtain ⟨_, u, hget, hrest⟩ := run_bind_eq_ok.mp hrest
  obtain ⟨-, rfl⟩ := run_pure_eq_ok.mp hget
  obtain ⟨_, v, hlist, hrest⟩ := run_bind_eq_ok.mp hrest
  obtain ⟨-, rfl⟩ := run_lift_eq_ok.mp hlist
  obtain ⟨_, x, hunlock, hreturn⟩ := run_bind_eq_ok.mp hrest
  obtain ⟨-, rfl⟩ := run_pure_eq_ok.mp hreturn
  rw [run_unlock, Except.ok.injEq, Prod.mk.injEq] at hunlock
  rw [← hunlock.2, ← hlock.2, ← h]

/-- If the handler of a list request returns, it has sent the list. -/
theorem handleListRequest_ok {s' : Server} {fd : Int}
    (hrun : (handleListRequest env fd).run s = .ok ((), s')) :
    ∃ msg : MessageT, msg.type = MessageType.serverListMessage.code ∧
      s' = { s with calls := s.calls ++ [.send fd msg] } := by
  obtain ⟨buffer, t, hlist, hrest⟩ := run_bind_eq_ok.mp hrun
  obtain rfl := lockedList_ok env hlist
  obtain ⟨msg, u, hinit, hsend⟩ := run_bind_eq_ok.mp hrest
  obtain ⟨hmsg, rfl⟩ := run_lift_eq_ok.mp hinit
  rw [sendMessage, run_call, Except.ok.injEq, Prod.mk.injEq] at hsend
  exact ⟨msg, initMessageT_type hmsg, hsend.2.symm⟩

end Equations

/-! ## Everything a handled frame can do -/

/-- `Handled env fd m s s'`: a handler that got `m` on `fd` with the table
`s` left `s'`. -/
inductive Handled (env : Env) (fd : Int) (m : MessageT) (s : Server) :
    Server → Prop where
  /-- A name that is taken is refused, and the mutex stays held. -/
  | refused {i} : m.type = MessageType.clientNew.code →
      taken s.slots m.sender.toList = some i →
      Handled env fd m s { s with
        locked := true
        calls := s.calls ++ [.send fd (env.serverMessage 0
          .serverFailureRegister "identifier already taken")] }
  | registered {i} : m.type = MessageType.clientNew.code →
      taken s.slots m.sender.toList = none → freeSlot s.slots = some i →
      Handled env fd m s { s with
        slots := Function.update s.slots i
          { s.slots i with valid := true, socket := fd, name := m.sender }
        calls := s.calls ++ [.send fd (env.serverMessage 0
          .serverOkRegister "successfully registered")] }
  /-- With no slot free nothing is stored, and the reply is a success. -/
  | tableFull : m.type = MessageType.clientNew.code →
      taken s.slots m.sender.toList = none → freeSlot s.slots = none →
      Handled env fd m s { s with
        calls := s.calls ++ [.send fd (env.serverMessage 0
          .serverOkRegister "successfully registered")] }
  | stopped {i} : m.type = MessageType.clientStop.code →
      taken s.slots m.sender.toList = some i →
      Handled env fd m s { s with
        slots := Function.update s.slots i
          { s.slots i with
            valid := false
            name := clearName (s.slots i).name
            socket := -1 }
        calls := s.calls ++
          if (s.slots i).socket ≠ -1 then [.close (s.slots i).socket]
          else [] }
  | alive {i} : m.type = MessageType.clientAlive.code →
      holder s.slots fd = some i →
      Handled env fd m s { s with
        slots := Function.update s.slots i
          { s.slots i with awaitingAliveResponse := false } }
  /-- All other frames only make the server send. -/
  | spoke {sends : List Call} : m.type ≠ MessageType.clientNew.code →
      (m.type = MessageType.clientStop.code →
        taken s.slots m.sender.toList = none) →
      (m.type = MessageType.clientAlive.code → holder s.slots fd = none) →
      (∀ k ∈ sends, ∃ d msg, k = .send d msg) →
      Handled env fd m s { s with calls := s.calls ++ sends }

section Dispatch

variable {env : Env} {fd : Int} {m : MessageT} {s s' : Server}

theorem Handled.quiet (hnew : m.type ≠ MessageType.clientNew.code)
    (hstop : m.type = MessageType.clientStop.code →
      taken s.slots m.sender.toList = none)
    (halive : m.type = MessageType.clientAlive.code →
      holder s.slots fd = none) : Handled env fd m s s := by
  have hnone : ∀ k ∈ ([] : List Call), ∃ d msg, k = .send d msg :=
    fun k hk => absurd hk List.not_mem_nil
  have h : Handled env fd m s _ := .spoke hnew hstop halive hnone
  rwa [List.append_nil] at h

theorem handled_clientNew (hm : m.type = MessageType.clientNew.code)
    (hrun : (handleNewClient env m.sender fd).run s = .ok ((), s')) :
    Handled env fd m s s' := by
  have h := free_of_handleNewClient hrun
  rw [run_handleNewClient env h, Except.ok.injEq, Prod.mk.injEq] at hrun
  obtain ⟨-, rfl⟩ := hrun
  cases ht : taken s.slots m.sender.toList with
  | some i => exact .refused hm ht
  | none =>
      cases hf : freeSlot s.slots with
      | some i => exact .registered hm ht hf
      | none => exact .tableFull hm ht hf

theorem handled_clientStop (hm : m.type = MessageType.clientStop.code)
    (hrun : (handleClientDelete m.sender).run s = .ok ((), s')) :
    Handled env fd m s s' := by
  have h := free_of_handleClientDelete hrun
  rw [run_handleClientDelete h, Except.ok.injEq, Prod.mk.injEq] at hrun
  obtain ⟨-, rfl⟩ := hrun
  cases ht : taken s.slots m.sender.toList with
  | some i => exact .stopped hm ht
  | none =>
      exact .quiet (MessageType.ne_code hm (by decide)) (fun _ => ht)
        (fun h => absurd h (MessageType.ne_code hm (by decide)))

theorem handled_clientAlive (hm : m.type = MessageType.clientAlive.code)
    (hrun : (handleGotAliveMessage fd).run s = .ok ((), s')) :
    Handled env fd m s s' := by
  have h := free_of_handleGotAliveMessage hrun
  rw [run_handleGotAliveMessage h, Except.ok.injEq, Prod.mk.injEq] at hrun
  obtain ⟨-, rfl⟩ := hrun
  cases hh : holder s.slots fd with
  | some i => exact .alive hm hh
  | none =>
      exact .quiet (MessageType.ne_code hm (by decide))
        (fun h => absurd h (MessageType.ne_code hm (by decide))) (fun _ => hh)

/-- Frames of the types that only make the server send. -/
theorem handled_spoke {t : MessageType} {sends : List Call}
    (hm : m.type = t.code) (hnew : t ≠ .clientNew) (hstop : t ≠ .clientStop)
    (halive : t ≠ .clientAlive)
    (hsends : ∀ k ∈ sends, ∃ d msg, k = .send d msg) :
    Handled env fd m s { s with calls := s.calls ++ sends } :=
  .spoke (MessageType.ne_code hm hnew)
    (fun h => absurd h (MessageType.ne_code hm hstop))
    (fun h => absurd h (MessageType.ne_code hm halive)) hsends

theorem handled_clientToAll (hm : m.type = MessageType.clientToAll.code)
    (hrun : (handleToAllMessage env m.sender m.message).run s = .ok ((), s')) :
    Handled env fd m s s' := by
  have h := free_of_handleToAllMessage hrun
  rw [run_handleToAllMessage env h, Except.ok.injEq, Prod.mk.injEq] at hrun
  obtain ⟨-, rfl⟩ := hrun
  apply handled_spoke hm (by decide) (by decide) (by decide)
  intro k hk
  obtain ⟨i, -, rfl⟩ := mem_sweep.mp hk
  exact ⟨_, _, rfl⟩

theorem handled_clientToOne (hm : m.type = MessageType.clientToOne.code)
    (hrun : (handleToOneMessage env m.sender m.message).run s = .ok ((), s')) :
    Handled env fd m s s' := by
  obtain ⟨sends, rfl, -, hsends⟩ := handleToOneMessage_ok env hrun
  apply handled_spoke hm (by decide) (by decide) (by decide)
  intro k hk
  obtain ⟨-, -, i, msg, -, -, -, hk⟩ := hsends k hk
  exact ⟨_, _, hk⟩

theorem handled_clientList (hm : m.type = MessageType.clientList.code)
    (hrun : (handleListRequest env fd).run s = .ok ((), s')) :
    Handled env fd m s s' := by
  obtain ⟨msg, -, rfl⟩ := handleListRequest_ok env hrun
  apply handled_spoke hm (by decide) (by decide) (by decide)
  intro k hk
  exact ⟨_, _, List.mem_singleton.mp hk⟩

/-- **What handling a frame can do.** -/
theorem handled_of_ok
    (hrun : (handleClientMessage env fd (some m)).run s = .ok ((), s')) :
    Handled env fd m s s' := by
  simp only [handleClientMessage] at hrun
  split at hrun
  case isTrue hm => exact handled_clientNew hm hrun
  case isFalse hnew =>
  split at hrun
  case isTrue hm => exact handled_clientStop hm hrun
  case isFalse hstop =>
  split at hrun
  case isTrue hm => exact handled_clientToAll hm hrun
  case isFalse =>
  split at hrun
  case isTrue hm => exact handled_clientToOne hm hrun
  case isFalse =>
  split at hrun
  case isTrue hm => exact handled_clientList hm hrun
  case isFalse =>
  split at hrun
  case isTrue hm => exact handled_clientAlive hm hrun
  case isFalse halive =>
      rw [StateT.run_pure, pure_eq_ok, Except.ok.injEq, Prod.mk.injEq] at hrun
      obtain ⟨-, rfl⟩ := hrun
      exact .quiet hnew (fun h => absurd h hstop) (fun h => absurd h halive)

end Dispatch

end Sysops.Cw11
