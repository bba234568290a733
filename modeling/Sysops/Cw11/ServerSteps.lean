import Sysops.Cw11.Threads
import Sysops.Cw11.ToOne
import Mathlib.Data.List.Induction

/-!
# What one step of the server can do

The steps of the two threads with everything they change: the table, the
descriptors, where the main thread is, and what goes over each connection.
And `cleanup`, with which the handler of `SIGINT` ends the server.
-/

namespace Sysops.Cw11

open SlotM

/-! ## The end of the server -/

/-- `cleanup`: the mutex is tried, and the table is used in any case. -/
def cleanup (env : Env) (serverSocket epollFd : Int) : ServerM Unit := do
  modify fun s => { s with locked := true }
  forEachSlot fun i => do
    let c ← slot i
    if c.valid then
      let message ← initMessageT (env.time i) (env.literal "SERVER")
        .serverShutdown (env.literal "")
      sendMessage c.socket message
      close c.socket
  close serverSocket
  close epollFd

/-- The calls for one slot. -/
def Env.shutdownCalls (env : Env) (i : Fin maxClients) (c : ClientT) :
    List Call :=
  if c.valid then
    [.send c.socket (env.serverMessage i .serverShutdown ""), .close c.socket]
  else []

theorem run_cleanup (env : Env) (serverSocket epollFd : Int) (s : Server) :
    (cleanup env serverSocket epollFd).run s = .ok ((), { s with
      locked := true
      calls := s.calls ++ (List.finRange maxClients).flatMap (fun i =>
          env.shutdownCalls i (s.slots i)) ++
        [.close serverSocket, .close epollFd] }) := by
  simp only [cleanup, StateT.run_bind, StateT.run_modify, pure_eq_ok, ok_bind]
  rw [run_forEachSlot (f := fun _ c => c) (g := env.shutdownCalls)]
  · simp [close]
  · intro i s
    simp only [StateT.run_bind, run_slot, ok_bind, initMessageT_server,
      Env.shutdownCalls]
    split <;> simp [sendMessage, close]

/-! ## What the calls of the server do -/

/-- What goes over a connection when the calls are made. -/
def itemsTo (c : Conn) : (Int → Option Conn) → List Call → List Item
  | _, [] => []
  | fds, .send fd m :: ks =>
      (if fds fd = some c then [.sent m] else []) ++ itemsTo c fds ks
  | fds, .close fd :: ks => itemsTo c (Function.update fds fd none) ks

namespace Threads

theorem append_sent (s : Threads) (fd : Int) (m : MessageT) :
    s.append fd (.sent m) = { s with
      log := fun c => s.log c ++ if s.fds fd = some c then [.sent m] else [] } := by
  cases hfd : s.fds fd with
  | none => simp [append, hfd]
  | some c =>
      have hlog : Function.update s.log c (s.log c ++ [.sent m]) =
          fun d => s.log d ++ if some c = some d then [.sent m] else [] := by
        funext d
        by_cases hd : d = c
        · subst hd
          simp
        · simp [hd, Ne.symm hd]
      simp only [append, hfd, hlog]

/-- All calls at once. -/
theorem performAll_eq (ks : List Call) (s : Threads) :
    ks.foldl perform s = { s with
      fds := closeFds ks s.fds
      log := fun c => s.log c ++ itemsTo c s.fds ks } := by
  induction ks generalizing s with
  | nil => simp [closeFds, itemsTo]
  | cons k ks ih =>
      rw [List.foldl_cons, ih]
      cases k with
      | send fd m =>
          rw [perform_send, append_sent]
          simp only [closeFds, itemsTo, List.append_assoc]
      | close fd => rfl

end Threads

/-- Only sends go over a connection, and only while it is open. -/
theorem mem_itemsTo {c : Conn} {fds : Int → Option Conn}
    {ks : List Call} {x : Item} (h : x ∈ itemsTo c fds ks) :
    ∃ fd m, x = .sent m ∧ Call.send fd m ∈ ks ∧ fds fd = some c := by
  induction ks generalizing fds with
  | nil => cases h
  | cons k ks ih =>
      cases k with
      | send fd m =>
          rcases List.mem_append.mp h with h | h
          · split at h
            · rename_i hfd
              exact ⟨fd, m, List.mem_singleton.mp h, by simp, hfd⟩
            · cases h
          · obtain ⟨fd', m', rfl, hmem, hfd'⟩ := ih h
            exact ⟨fd', m', rfl, by simp [hmem], hfd'⟩
      | close fd =>
          obtain ⟨fd', m', rfl, hmem, hfd'⟩ := ih h
          exact ⟨fd', m', rfl, by simp [hmem], of_update_none hfd'⟩

/-- Nothing goes over a connection that is closed. -/
theorem itemsTo_closed {c : Conn} {fds : Int → Option Conn}
    (h : ∀ fd, fds fd ≠ some c) (ks : List Call) : itemsTo c fds ks = [] := by
  rw [List.eq_nil_iff_forall_not_mem]
  intro x hx
  obtain ⟨fd, m, -, -, hfd⟩ := mem_itemsTo hx
  exact h fd hfd

/-- What is open after some calls was open before. -/
theorem closeFds_le {ks : List Call} {fds : Int → Option Conn} {d : Int}
    {c : Conn} (h : closeFds ks fds d = some c) : fds d = some c := by
  rw [closeFds_apply] at h
  split at h
  · cases h
  · exact h

/-! ## What a critical section can do -/

/-- The message that a `CLIENT_TO_ALL` frame is passed on as. -/
def broadcast (now : Int64) (m : MessageT) : MessageT where
  sender := m.sender
  type := MessageType.serverChatMessage.code
  message := m.message
  timestamp := now

/-- The calls of `handle_to_all_message`. -/
def broadcastCalls (now : Int64) (m : MessageT) (t : Clients) : List Call :=
  (List.finRange maxClients).flatMap fun i =>
    if (t i).valid && !(t i).hasName m.sender.toList then
      [.send (t i).socket (broadcast now m)]
    else []

/-- The calls of `handle_to_one_message`. -/
def privateCalls (receiver : Pointer) (msg : MessageT) (t : Clients) :
    List Call :=
  ((receiver.bind (taken t)).map fun i => Call.send (t i).socket msg).toList

theorem mem_privateCalls {receiver : Pointer} {msg : MessageT} {t : Clients}
    {k : Call} : k ∈ privateCalls receiver msg t ↔
      ∃ i, receiver.bind (taken t) = some i ∧
        k = .send (t i).socket msg := by
  rw [privateCalls, Option.mem_toList, Option.map_eq_some_iff]
  simp only [eq_comm]

/-- `Locked env fd m s s' ks`: the critical section of the handler that got
`m` on `fd`, from the table `s` on, left `s'` and the calls `ks`. -/
inductive Locked (env : Env) (fd : Int) (m : MessageT) (s : Server) :
    Server → List Call → Prop where
  | refused {i reply} : m.type = MessageType.clientNew.code →
      taken s.slots m.sender.toList = some i → IsReply reply →
      Locked env fd m s { s with locked := true } [.send fd reply]
  | registered {i reply} : m.type = MessageType.clientNew.code →
      taken s.slots m.sender.toList = none → freeSlot s.slots = some i →
      IsReply reply → Locked env fd m s { s with
        slots := Function.update s.slots i
          { s.slots i with valid := true, socket := fd, name := m.sender } }
        [.send fd reply]
  | tableFull {reply} : m.type = MessageType.clientNew.code →
      taken s.slots m.sender.toList = none → freeSlot s.slots = none →
      IsReply reply → Locked env fd m s s [.send fd reply]
  | stopped {i} : m.type = MessageType.clientStop.code →
      taken s.slots m.sender.toList = some i → Locked env fd m s { s with
        slots := Function.update s.slots i
          { s.slots i with
            valid := false
            name := clearName (s.slots i).name
            socket := -1 } }
        (if (s.slots i).socket ≠ -1 then [.close (s.slots i).socket] else [])
  | notFound : m.type = MessageType.clientStop.code →
      taken s.slots m.sender.toList = none → Locked env fd m s s []
  | toAll : m.type = MessageType.clientToAll.code →
      Locked env fd m s { s with
        calls := s.calls ++ broadcastCalls (env.time 0) m s.slots } []
  | toOne {receiver text msg} : m.type = MessageType.clientToOne.code →
      splitToOne env m.message = .ok (receiver, text) →
      initMessageT (env.time 0) (some m.sender.toList) .serverChatMessage text
        = .ok msg →
      Locked env fd m s { s with
        calls := s.calls ++ privateCalls receiver msg s.slots } []
  | list {msg} : m.type = MessageType.clientList.code →
      msg.type = MessageType.serverListMessage.code →
      Locked env fd m s s [.send fd msg]
  /-- The flag of the entry that is found is cleared. -/
  | alive {i} : m.type = MessageType.clientAlive.code →
      Locked env fd m s { s with
        slots := Function.update s.slots i
          { s.slots i with awaitingAliveResponse := false } } []
  | nothing : m.type ≠ MessageType.clientNew.code →
      m.type ≠ MessageType.clientToAll.code →
      m.type ≠ MessageType.clientToOne.code → Locked env fd m s s []

section Locked

variable {env : Env} {fd : Int} {m : MessageT} {s s' : Server} {ks : List Call}

theorem handleToAllMessage_locked (hm : m.type = MessageType.clientToAll.code)
    (hrun : (handleToAllMessage env m.sender m.message).run s = .ok ((), s')) :
    Locked env fd m s s' [] := by
  have hfree := free_of_handleToAllMessage hrun
  rw [run_handleToAllMessage env hfree, Except.ok.injEq, Prod.mk.injEq]
    at hrun
  obtain ⟨-, rfl⟩ := hrun
  exact .toAll hm

/-- The loop over the receivers, when it returns. -/
theorem sendToOne_eq {receiver : Pointer} {msg : MessageT}
    (hrun : (sendToOne receiver msg).run s = .ok ((), s')) :
    s' = { s with calls := s.calls ++ privateCalls receiver msg s.slots } := by
  cases receiver with
  | none =>
      simp only [sendToOne, StateT.run_bind, run_findSlot, ok_bind] at hrun
      split at hrun
      · cases hrun
      · obtain ⟨-, rfl⟩ := run_pure_eq_ok.mp hrun
        simp [privateCalls]
  | some receiver =>
      rw [run_sendToOne, Except.ok.injEq, Prod.mk.injEq] at hrun
      exact hrun.2.symm

theorem handleToOneMessage_locked (hm : m.type = MessageType.clientToOne.code)
    (hrun : (handleToOneMessage env m.sender m.message).run s = .ok ((), s')) :
    Locked env fd m s s' [] := by
  have hfree := free_of_handleToOneMessage hrun
  obtain ⟨⟨receiverName, messageText⟩, t, hpieces, hrest⟩ :=
    run_bind_eq_ok.mp hrun
  obtain ⟨hsplit, rfl⟩ := run_lift_eq_ok.mp hpieces
  obtain ⟨msg, t, hinit, hrest⟩ := run_bind_eq_ok.mp hrest
  obtain ⟨hmsg, rfl⟩ := run_lift_eq_ok.mp hinit
  obtain ⟨_, t, hlock, hrest⟩ := run_bind_eq_ok.mp hrest
  obtain ⟨_, u, hsend, hunlock⟩ := run_bind_eq_ok.mp hrest
  rw [run_lock_free s hfree, Except.ok.injEq, Prod.mk.injEq] at hlock
  rw [run_unlock, Except.ok.injEq, Prod.mk.injEq] at hunlock
  have hu := sendToOne_eq hsend
  have hs' : s' = { s with
      calls := s.calls ++ privateCalls receiverName msg s.slots } := by
    rw [← hunlock.2, hu, ← hlock.2, ← hfree]
  rw [hs']
  exact .toOne hm hsplit hmsg

/-- **What the critical section of a handler can do.** -/
theorem criticalSection_locked {ks : List Call}
    (hrun : (criticalSection env fd m).run s = .ok (ks, s')) :
    Locked env fd m s s' ks := by
  unfold criticalSection at hrun
  split at hrun
  case isTrue hm =>
      obtain ⟨r, t, hadd, hrest⟩ := run_bind_eq_ok.mp hrun
      obtain ⟨reply, u, hinit, hreturn⟩ := run_bind_eq_ok.mp hrest
      obtain ⟨hreply, rfl⟩ := run_lift_eq_ok.mp hinit
      obtain ⟨rfl, rfl⟩ := run_pure_eq_ok.mp hreturn
      have htype := initMessageT_type hreply
      have his : IsReply reply := by
        split at htype
        · exact .inl htype
        · exact .inr htype
      rw [run_addClient (free_of_addClient hadd)] at hadd
      split at hadd
      · rename_i ht
        obtain ⟨-, rfl⟩ := Prod.mk.inj (Except.ok.inj hadd)
        exact .refused hm ht his
      · rename_i i ht hf
        obtain ⟨-, rfl⟩ := Prod.mk.inj (Except.ok.inj hadd)
        exact .registered hm ht hf his
      · rename_i ht hf
        obtain ⟨-, rfl⟩ := Prod.mk.inj (Except.ok.inj hadd)
        exact .tableFull hm ht hf his
  case isFalse hnew =>
  split at hrun
  case isTrue hm =>
      obtain ⟨r, t, hdelete, hreturn⟩ := run_bind_eq_ok.mp hrun
      obtain ⟨rfl, rfl⟩ := run_pure_eq_ok.mp hreturn
      rw [run_lockedDelete (free_of_lockedDelete hdelete), Except.ok.injEq]
        at hdelete
      split at hdelete
      · rename_i i ht
        obtain ⟨rfl, rfl⟩ := Prod.mk.inj hdelete
        exact .stopped hm ht
      · rename_i ht
        obtain ⟨rfl, rfl⟩ := Prod.mk.inj hdelete
        exact .notFound hm ht
  case isFalse =>
  split at hrun
  case isTrue hm =>
      obtain ⟨_, t, hall, hreturn⟩ := run_bind_eq_ok.mp hrun
      obtain ⟨rfl, rfl⟩ := run_pure_eq_ok.mp hreturn
      exact handleToAllMessage_locked hm hall
  case isFalse hall =>
  split at hrun
  case isTrue hm =>
      obtain ⟨_, t, hone, hreturn⟩ := run_bind_eq_ok.mp hrun
      obtain ⟨rfl, rfl⟩ := run_pure_eq_ok.mp hreturn
      exact handleToOneMessage_locked hm hone
  case isFalse hone =>
  split at hrun
  case isTrue hm =>
      obtain ⟨buffer, t, hlist, hrest⟩ := run_bind_eq_ok.mp hrun
      obtain ⟨msg, u, hinit, hreturn⟩ := run_bind_eq_ok.mp hrest
      obtain ⟨hmsg, rfl⟩ := run_lift_eq_ok.mp hinit
      obtain ⟨rfl, rfl⟩ := run_pure_eq_ok.mp hreturn
      obtain rfl := lockedList_ok env hlist
      exact .list hm (initMessageT_type hmsg)
  case isFalse =>
  split at hrun
  case isTrue hm =>
      obtain ⟨_, t, halive, hreturn⟩ := run_bind_eq_ok.mp hrun
      obtain ⟨rfl, rfl⟩ := run_pure_eq_ok.mp hreturn
      rw [run_handleGotAliveMessage (free_of_handleGotAliveMessage halive),
        Except.ok.injEq, Prod.mk.injEq] at halive
      obtain ⟨-, rfl⟩ := halive
      split
      · exact .alive hm
      · exact .nothing hnew hall hone
  case isFalse =>
      obtain ⟨rfl, rfl⟩ := run_pure_eq_ok.mp hrun
      exact .nothing hnew hall hone

/-- While the mutex is held only chat messages are sent. -/
theorem Locked.chats (h : Locked env fd m s s' ks)
    (hcalls : s.calls = []) : ∀ k ∈ s'.calls, ∃ d msg, k = Call.send d msg ∧
      msg.type = MessageType.serverChatMessage.code := by
  cases h with
  | refused | registered | tableFull | stopped | notFound | list | alive
  | nothing => simp [hcalls]
  | toAll =>
      rw [hcalls, List.nil_append]
      intro k hk
      obtain ⟨i, -, rfl⟩ := SlotM.mem_sweep.mp hk
      exact ⟨_, _, rfl, rfl⟩
  | toOne _ _ hinit =>
      rw [hcalls, List.nil_append]
      intro k hk
      obtain ⟨i, -, rfl⟩ := mem_privateCalls.mp hk
      exact ⟨_, _, rfl, initMessageT_type hinit⟩

/-- What is sent behind the critical section. -/
theorem Locked.later (h : Locked env fd m s s' ks) :
    (m.type = MessageType.clientNew.code ∧
      ∃ reply, ks = [.send fd reply] ∧ IsReply reply) ∨
    (m.type ≠ MessageType.clientNew.code ∧
      ∀ d msg, Call.send d msg ∈ ks → d = fd ∧
        msg.type = MessageType.serverListMessage.code) := by
  cases h with
  | refused hm _ hreply | registered hm _ _ hreply | tableFull hm _ _ hreply =>
      exact .inl ⟨hm, _, rfl, hreply⟩
  | stopped hm =>
      refine .inr ⟨MessageType.ne_code hm (by decide), ?_⟩
      intro d msg hk
      split at hk <;> simp at hk
  | notFound hm | toAll hm | toOne hm | alive hm =>
      exact .inr ⟨MessageType.ne_code hm (by decide), by simp⟩
  | list hm hmsg =>
      refine .inr ⟨MessageType.ne_code hm (by decide), ?_⟩
      intro d msg hk
      obtain ⟨rfl, rfl⟩ := Call.send.inj (List.mem_singleton.mp hk)
      exact ⟨rfl, hmsg⟩
  | nothing hm => exact .inr ⟨hm, by simp⟩

end Locked

/-! ## What one step of the server can do -/

/-- The calls that the main thread has still to make. -/
def Main.pending : Main → List Call
  | .idle | .received _ _ _ => []
  | .calling k ks => k :: ks

@[simp] theorem Main.pending_calls (ks : List Call) :
    (Main.calls ks).pending = ks := by
  cases ks <;> rfl

/-- `Took s e t`: the server steps from `s` to `t`. -/
inductive Threads.Took (s : Threads) : Turn → Threads → Prop where
  | accept {fd} : s.main = .idle → s.fds fd = none →
      Took s (.accept fd) { s with
        server := { s.server with calls := [] }
        fds := Function.update s.fds fd (some s.accepted)
        accepted := s.accepted + 1 }
  | hangup {fd c} : s.main = .idle → s.fds fd = some c →
      Took s (.hangup fd) { s with
        server := { s.server with calls := [.close fd] }
        fds := Function.update s.fds fd none }
  | receive {env fd m c} : s.main = .idle → s.fds fd = some c →
      Took s (.receive env fd m) { s with
        main := .received env fd m
        log := Function.update s.log c (s.log c ++ [.received m]) }
  | locked {env fd m u ks} : s.main = .received env fd m →
      Locked env fd m s.idle u ks →
      Took s .locked { s with
        server := u
        fds := closeFds u.calls s.fds
        main := Main.calls ks
        log := fun c => s.log c ++ itemsTo c s.fds u.calls }
  | call {k ks} : s.main = .calling k ks → Took s .call { s with
      fds := closeFds [k] s.fds
      main := Main.calls ks
      log := fun c => s.log c ++ itemsTo c s.fds [k] }
  | firstPass {env u} :
      (∀ i, (u.slots i).valid = (s.server.slots i).valid ∧
        (u.slots i).socket = (s.server.slots i).socket ∧
        (u.slots i).name = (s.server.slots i).name) →
      (∀ k, k ∈ u.calls ↔ ∃ i, (s.server.slots i).valid = true ∧
        k = .send (s.server.slots i).socket
          (env.serverMessage i .serverCheckAlive "")) →
      Took s (.firstPass env) { s with
        server := u
        fds := closeFds u.calls s.fds
        log := fun c => s.log c ++ itemsTo c s.fds u.calls
        beat := .second }
  | secondPass {u} :
      (∀ i, (u.slots i).valid = true → u.slots i = s.server.slots i) →
      (∀ k ∈ u.calls, ∃ i, (s.server.slots i).valid = true ∧
        (u.slots i).valid = false ∧ k = .close (s.server.slots i).socket) →
      Took s .secondPass { s with
        server := u
        fds := closeFds u.calls s.fds
        log := fun c => s.log c ++ itemsTo c s.fds u.calls
        beat := .first }

section Took

variable {s t : Threads}

theorem Threads.exec_eq {α : Type} {code : ServerM α} {a : α}
    (h : s.exec code = some (a, t)) : ∃ u, code.run s.idle = .ok (a, u) ∧
      t = { s with
        server := u
        fds := closeFds u.calls s.fds
        log := fun c => s.log c ++ itemsTo c s.fds u.calls } := by
  obtain ⟨u, hrun, rfl⟩ := Threads.exec_eq_some h
  exact ⟨u, hrun, Threads.performAll_eq u.calls { s with server := u }⟩

theorem Threads.took_locked (h : s.step .locked = some t) :
    s.Took .locked t := by
  simp only [Threads.step] at h
  split at h
  · rename_i env fd m hmain
    obtain ⟨⟨ks, v⟩, hexec, rfl⟩ := Option.map_eq_some_iff.mp h
    obtain ⟨u, hrun, rfl⟩ := Threads.exec_eq hexec
    exact .locked hmain (criticalSection_locked hrun)
  · cases h

theorem Threads.took_firstPass {env : Env}
    (h : s.step (.firstPass env) = some t) : s.Took (.firstPass env) t := by
  simp only [Threads.step] at h
  split at h
  · obtain ⟨⟨⟨⟩, v⟩, hexec, rfl⟩ := Option.map_eq_some_iff.mp h
    obtain ⟨u, hrun, rfl⟩ := Threads.exec_eq hexec
    rw [run_checkAliveFirstPass env (free_of_checkAliveFirstPass hrun),
      Except.ok.injEq, Prod.mk.injEq] at hrun
    refine .firstPass ?_ ?_
    · intro i
      rw [← hrun.2]
      show (if (s.server.slots i).valid then _ else s.server.slots i).valid = _
        ∧ (if (s.server.slots i).valid then _ else s.server.slots i).socket = _
        ∧ (if (s.server.slots i).valid then _ else s.server.slots i).name = _
      split <;> exact ⟨rfl, rfl, rfl⟩
    · intro k
      rw [← hrun.2, World.idle_calls, List.nil_append, mem_sweep]
      rfl
  · cases h

theorem Threads.took_secondPass (h : s.step .secondPass = some t) :
    s.Took .secondPass t := by
  simp only [Threads.step] at h
  split at h
  · obtain ⟨⟨⟨⟩, v⟩, hexec, rfl⟩ := Option.map_eq_some_iff.mp h
    obtain ⟨u, hrun, rfl⟩ := Threads.exec_eq hexec
    rw [run_checkAliveSecondPass (free_of_checkAliveSecondPass hrun),
      Except.ok.injEq, Prod.mk.injEq] at hrun
    have hslots : ∀ i, u.slots i =
        if (s.server.slots i).valid && (s.server.slots i).awaitingAliveResponse
        then { s.server.slots i with
          valid := false, awaitingAliveResponse := false }
        else s.server.slots i := by
      intro i
      rw [← hrun.2]
      rfl
    refine .secondPass ?_ ?_
    · intro i hi
      rw [hslots] at hi ⊢
      split
      · rename_i hmarked
        rw [if_pos hmarked] at hi
        cases hi
      · rfl
    · intro k hk
      rw [← hrun.2, World.idle_calls, List.nil_append, mem_sweep] at hk
      obtain ⟨i, hmarked, hk⟩ := hk
      have hmarked : ((s.server.slots i).valid &&
        (s.server.slots i).awaitingAliveResponse) = true := hmarked
      refine ⟨i, (Bool.and_eq_true_iff.mp hmarked).1, ?_, hk⟩
      rw [hslots, if_pos hmarked]
  · cases h

theorem Threads.step_took {e : Turn} (h : s.step e = some t) :
    s.Took e t := by
  cases e with
  | accept fd =>
      simp only [Threads.step] at h
      split at h
      · rename_i hmain
        obtain ⟨w, hw, rfl⟩ := Option.map_eq_some_iff.mp h
        obtain ⟨-, -, -, hnone, rfl⟩ := World.step_accept hw
        exact .accept hmain hnone
      · cases h
  | hangup fd =>
      simp only [Threads.step] at h
      split at h
      · rename_i hmain
        obtain ⟨w, hw, rfl⟩ := Option.map_eq_some_iff.mp h
        obtain ⟨c, hc, rfl⟩ := World.step_hangup hw
        exact .hangup hmain hc
      · cases h
  | receive env fd m =>
      simp only [Threads.step] at h
      split at h
      · rename_i hmain
        split at h
        · rename_i hopen
          obtain ⟨c, hc⟩ := Option.isSome_iff_exists.mp hopen
          obtain rfl := Option.some.inj h
          have hreceived : s.Took (.receive env fd m) _ := .receive hmain hc
          simpa only [Threads.append, hc] using hreceived
        · cases h
      · cases h
  | locked => exact Threads.took_locked h
  | call =>
      simp only [Threads.step] at h
      split at h
      · rename_i k ks hmain
        obtain rfl := Option.some.inj h
        have hperform : s.perform k = { s with
            fds := closeFds [k] s.fds
            log := fun c => s.log c ++ itemsTo c s.fds [k] } :=
          Threads.performAll_eq [k] s
        rw [hperform]
        exact .call hmain
      · cases h
  | firstPass env => exact Threads.took_firstPass h
  | secondPass => exact Threads.took_secondPass h

end Took

/-! ## The window of a registration -/

/-- The main thread is between the receipt of a `CLIENT_NEW` on the
descriptor and the reply to it. -/
def Main.Registers (fd : Int) : Main → Prop
  | .idle => False
  | .received _ fd' m => fd' = fd ∧ m.type = MessageType.clientNew.code
  | .calling k ks => ks = [] ∧ ∃ reply, k = .send fd reply ∧ IsReply reply

structure Sound (s : Threads) : Prop where
  fresh : ∀ c, s.accepted ≤ c → s.log c = []
  opened : ∀ d c, s.fds d = some c → c < s.accepted
  injective : ∀ d d' c, s.fds d = some c → s.fds d' = some c → d = d'
  /-- Whoever waits on an open connection is being registered. -/
  window : ∀ d c, s.fds d = some c → answer (s.log c) = .waiting →
    s.main.Registers d

theorem sound_initial (serverSocket epollFd : Int) :
    Sound (Threads.initial serverSocket epollFd) := by
  refine ⟨fun c _ => rfl, ?_, ?_, ?_⟩
  · intro d c hd
    cases hd
  · intro d d' c hd
    cases hd
  · intro d c hd
    cases hd

/-- Whoever waits after some sends waited before, and was sent nothing. -/
theorem waiting_append_sends {log l : List Item}
    (hl : ∀ x ∈ l, ∃ m, x = .sent m) (h : answer (log ++ l) = .waiting) :
    l = [] ∧ answer log = .waiting := by
  induction l using List.reverseRecOn with
  | nil => exact ⟨rfl, by rwa [List.append_nil] at h⟩
  | append_singleton l x _ =>
      obtain ⟨m, rfl⟩ := hl x (by simp)
      rw [← List.append_assoc, answer_append] at h
      exact absurd h (next_sent_ne_waiting _ m)

section Sound

variable {s t : Threads} {ks : List Call}

/-- Calls open nothing, and whoever waits after them was sent nothing. -/
theorem Sound.calls (hs : Sound s) (ks : List Call)
    (hfds : t.fds = closeFds ks s.fds) (haccepted : t.accepted = s.accepted)
    (hlog : ∀ c, t.log c = s.log c ++ itemsTo c s.fds ks)
    (hwindow : ∀ d c, s.fds d = some c → s.main.Registers d →
      itemsTo c s.fds ks = [] → t.main.Registers d) : Sound t := by
  have hopen : ∀ d c, t.fds d = some c → s.fds d = some c := by
    intro d c hd
    rw [hfds] at hd
    exact closeFds_le hd
  refine ⟨?_, ?_, ?_, ?_⟩
  · intro c hc
    rw [haccepted] at hc
    rw [hlog, hs.fresh c hc, itemsTo_closed, List.append_nil]
    intro d hd
    exact absurd (hs.opened d c hd) (Nat.not_lt.mpr hc)
  · intro d c hd
    rw [haccepted]
    exact hs.opened d c (hopen d c hd)
  · intro d d' c hd hd'
    exact hs.injective d d' c (hopen d c hd) (hopen d' c hd')
  · intro d c hd hw
    rw [hlog] at hw
    have hsends : ∀ x ∈ itemsTo c s.fds ks, ∃ m, x = .sent m := by
      intro x hx
      obtain ⟨fd, m, rfl, -, -⟩ := mem_itemsTo hx
      exact ⟨m, rfl⟩
    obtain ⟨hnone, hbefore⟩ := waiting_append_sends hsends hw
    have hd := hopen d c hd
    exact hwindow d c hd (hs.window d c hd hbefore) hnone

/-- With nobody in the window, no open connection waits. -/
theorem Sound.not_waiting (hs : Sound s) (hmain : s.main = .idle) {d : Int}
    {c : Conn} (hd : s.fds d = some c) : answer (s.log c) ≠ .waiting := by
  intro hw
  have hregisters := hs.window d c hd hw
  rw [hmain] at hregisters
  exact hregisters

theorem Sound.accept {fd : Int} (hs : Sound s) (hmain : s.main = .idle) :
    Sound { s with
      server := { s.server with calls := [] }
      fds := Function.update s.fds fd (some s.accepted)
      accepted := s.accepted + 1 } := by
  have hfds : ∀ d c, Function.update s.fds fd (some s.accepted) d = some c →
      s.fds d = some c ∨ d = fd ∧ c = s.accepted := by
    intro d c hd
    by_cases hdf : d = fd
    · rw [hdf, Function.update_self] at hd
      exact .inr ⟨hdf, (Option.some.inj hd).symm⟩
    · rw [Function.update_of_ne hdf] at hd
      exact .inl hd
  refine ⟨?_, ?_, ?_, ?_⟩
  · intro c hc
    exact hs.fresh c (Nat.le_of_succ_le hc)
  · intro d c hd
    rcases hfds d c hd with hd | ⟨-, rfl⟩
    · exact Nat.lt_succ_of_lt (hs.opened d c hd)
    · exact Nat.lt_succ_self _
  · intro d d' c hd hd'
    rcases hfds d c hd with hold | ⟨hdf, hc⟩ <;>
      rcases hfds d' c hd' with hold' | ⟨hdf', hc'⟩
    · exact hs.injective d d' c hold hold'
    · exact absurd hc' (Nat.ne_of_lt (hs.opened d c hold))
    · exact absurd hc (Nat.ne_of_lt (hs.opened d' c hold'))
    · rw [hdf, hdf']
  · intro d c hd hw
    rcases hfds d c hd with hd | ⟨-, rfl⟩
    · exact absurd hw (hs.not_waiting hmain hd)
    · have hw : answer (s.log s.accepted) = .waiting := hw
      rw [hs.fresh _ (Nat.le_refl _)] at hw
      cases hw

theorem Sound.receive {env : Env} {fd : Int} {m : MessageT} {c : Conn}
    (hs : Sound s) (hmain : s.main = .idle) (hc : s.fds fd = some c) :
    Sound { s with
      main := .received env fd m
      log := Function.update s.log c (s.log c ++ [.received m]) } := by
  refine ⟨?_, hs.opened, hs.injective, ?_⟩
  · intro c' hc'
    have hne : c' ≠ c := by
      rintro rfl
      exact absurd (hs.opened fd c' hc) (Nat.not_lt.mpr hc')
    simp only [Function.update_of_ne hne]
    exact hs.fresh c' hc'
  · intro d c' hd hw
    by_cases hcc : c' = c
    · subst hcc
      simp only [Function.update_self, answer_append] at hw
      refine ⟨hs.injective fd d c' hc hd, ?_⟩
      -- it was not waiting before, so this frame is the request
      rcases Answer.next_received_waiting hw with ha | hm
      · exact absurd ha (hs.not_waiting hmain hc)
      · exact hm
    · simp only [Function.update_of_ne hcc] at hw
      exact absurd hw (hs.not_waiting hmain hd)

theorem sound_step {e : Turn} (hs : Sound s) (h : s.step e = some t) :
    Sound t := by
  cases Threads.step_took h with
  | accept hmain => exact hs.accept hmain
  | @hangup fd c hmain hc =>
      refine hs.calls [.close fd] rfl rfl
        (fun c => (List.append_nil _).symm) ?_
      intro d c hd hregisters _
      exact hregisters
  | receive hmain hc => exact hs.receive hmain hc
  | @locked env fd m u ks hmain hlocked =>
      refine hs.calls u.calls rfl rfl (fun c => rfl) ?_
      intro d c _ hregisters _
      rw [hmain] at hregisters
      obtain ⟨rfl, hm⟩ := hregisters
      rcases hlocked.later with ⟨-, reply, rfl, hreply⟩ | ⟨hnew, -⟩
      · exact ⟨rfl, reply, rfl, hreply⟩
      · exact absurd hm hnew
  | @call k ks hmain =>
      refine hs.calls [k] rfl rfl (fun c => rfl) ?_
      intro d c hd hregisters hnone
      rw [hmain] at hregisters
      obtain ⟨-, reply, rfl, -⟩ := hregisters
      -- the reply itself goes over the connection
      rw [itemsTo, if_pos hd] at hnone
      cases hnone
  | @firstPass env u =>
      refine hs.calls u.calls rfl rfl (fun c => rfl) ?_
      intro d c _ hregisters _
      exact hregisters
  | @secondPass u =>
      refine hs.calls u.calls rfl rfl (fun c => rfl) ?_
      intro d c _ hregisters _
      exact hregisters

end Sound

end Sysops.Cw11
