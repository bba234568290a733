import Sysops.Cw11.World

/-!
# `clients_mutex` is released

Every handler and both passes of the heartbeat take the mutex once. All
their exits but one release it: a `CLIENT_NEW` for a name that is taken
returns with the mutex held, and nothing that takes it returns after that.
-/

namespace Sysops.Cw11

open SlotM

/-! ## With the mutex free, nothing waits for it -/

section Free

variable {s : Server} (env : Env)

theorem initMessageT_ne_deadlock (now : Int64) (sender : Pointer)
    (type : MessageType) (messageText : Pointer) :
    initMessageT now sender type messageText ≠ .error .deadlock := by
  unfold initMessageT
  refine bind_ne_error (memcpy_ne_deadlock _ _) ?_
  intro senderBytes _
  refine bind_ne_error (memcpy_ne_deadlock _ _) ?_
  intro textBytes _ h
  cases h

theorem splitToOne_ne_deadlock (message : Bytes maxMessageText) :
    splitToOne env message ≠ .error .deadlock := by
  unfold splitToOne
  refine bind_ne_error (strtok_ne_deadlock _ _ _ _) ?_
  intro first _
  refine bind_ne_error (strtok_ne_deadlock _ _ _ _) ?_
  intro second _ h
  cases h

theorem listClients_ne_deadlock (clients : Clients) :
    listClients env clients ≠ .error .deadlock := by
  unfold listClients
  refine foldlM_ne_error ?_ _ _
  intro buffer i
  split
  · refine bind_ne_error (strcat_ne_deadlock _ _) ?_
    intro buffer _
    exact strcat_ne_deadlock _ _
  · intro h
    cases h

theorem sendToOne_ne_deadlock (receiverName : Pointer) (msg : MessageT) :
    (sendToOne receiverName msg).run s ≠ .error .deadlock := by
  cases receiverName with
  | none =>
      simp only [sendToOne, StateT.run_bind, run_findSlot, ok_bind]
      split <;> intro h <;> cases h
  | some receiver =>
      simp only [sendToOne, StateT.run_bind, run_findTaken, ok_bind]
      cases taken s.slots receiver with
      | none =>
          intro h
          cases h
      | some i =>
          intro h
          cases h

theorem handleToOneMessage_ne_deadlock (h : s.locked = false)
    (sender : Bytes maxClientName) (message : Bytes maxMessageText) :
    (handleToOneMessage env sender message).run s ≠ .error .deadlock := by
  simp only [handleToOneMessage, StateT.run_bind, StateT.run_monadLift,
    monadLift_self, bind_assoc, pure_bind, run_lock_free s h, ok_bind]
  refine bind_ne_error (splitToOne_ne_deadlock env message) ?_
  rintro ⟨receiverName, messageText⟩ _
  refine bind_ne_error (initMessageT_ne_deadlock _ _ _ _) ?_
  intro msg _
  refine bind_ne_error (sendToOne_ne_deadlock _ _) ?_
  rintro ⟨⟨⟩, t⟩ _ hunlock
  cases hunlock

theorem lockedList_ne_deadlock (h : s.locked = false) :
    (lockedList env).run s ≠ .error .deadlock := by
  simp only [lockedList, StateT.run_bind, StateT.run_get,
    StateT.run_monadLift, monadLift_self, bind_assoc, run_lock_free s h,
    ok_bind, pure_eq_ok, run_unlock]
  refine bind_ne_error (listClients_ne_deadlock env _) ?_
  intro buffer _ hrun
  cases hrun

theorem handleListRequest_ne_deadlock (h : s.locked = false) (fd : Int) :
    (handleListRequest env fd).run s ≠ .error .deadlock := by
  simp only [handleListRequest, StateT.run_bind, StateT.run_monadLift,
    monadLift_self, bind_assoc, pure_bind]
  refine bind_ne_error (lockedList_ne_deadlock env h) ?_
  rintro ⟨buffer, t⟩ _
  refine bind_ne_error (initMessageT_ne_deadlock _ _ _ _) ?_
  intro listResponse _ hcall
  cases hcall

/-- **A handler that starts with the mutex free gets it.** -/
theorem handleClientMessage_ne_deadlock (h : s.locked = false) (fd : Int)
    (received : Option MessageT) :
    (handleClientMessage env fd received).run s ≠ .error .deadlock := by
  cases received with
  | none =>
      intro hrun
      cases hrun
  | some m =>
      simp only [handleClientMessage]
      split
      · rw [run_handleNewClient env h]
        simp
      split
      · rw [run_handleClientDelete h]
        simp
      split
      · rw [run_handleToAllMessage env h]
        simp
      split
      · exact handleToOneMessage_ne_deadlock env h m.sender m.message
      split
      · exact handleListRequest_ne_deadlock env h fd
      split
      · rw [run_handleGotAliveMessage h]
        simp
      · intro hrun
        cases hrun

/-- Nothing that takes the mutex waits for it forever. -/
structure Unblocked (w : World) : Prop where
  free : w.server.locked = false
  frames : ∀ env fd received,
    (handleClientMessage env fd received).run w.idle ≠ .error .deadlock
  firstPass : ∀ env, (checkAliveFirstPass env).run w.idle ≠ .error .deadlock
  secondPass : checkAliveSecondPass.run w.idle ≠ .error .deadlock

theorem unblocked_iff {w : World} :
    Unblocked w ↔ w.server.locked = false := by
  constructor
  · exact Unblocked.free
  · intro h
    have hidle : w.idle.locked = false := h
    refine ⟨h, fun env => handleClientMessage_ne_deadlock env hidle, ?_, ?_⟩
    · intro env
      rw [run_checkAliveFirstPass env hidle]
      simp
    · rw [run_checkAliveSecondPass hidle]
      simp

end Free

/-! ## The one exit that keeps it -/

/-- A `CLIENT_NEW` for a name that a valid entry has. -/
def Refused (t : Clients) (m : MessageT) : Prop :=
  m.type = MessageType.clientNew.code ∧ (taken t m.sender.toList).isSome

instance (t : Clients) (m : MessageT) : Decidable (Refused t m) :=
  inferInstanceAs (Decidable (_ ∧ _))

/-- The event is such a frame. -/
def Event.IsRefused (w : World) : Event → Prop
  | .frame _ _ m => Refused w.server.slots m
  | _ => False

instance (w : World) : DecidablePred (Event.IsRefused w)
  | .frame _ _ m => inferInstanceAs (Decidable (Refused w.server.slots m))
  | .accept _ | .hangup _ | .firstPass _ | .secondPass =>
      inferInstanceAs (Decidable False)

/-- What a handled frame leaves of the mutex. -/
theorem Handled.locked_iff {env : Env} {fd : Int} {m : MessageT}
    {s s' : Server} (hs : Handled env fd m s s') (h : s.locked = false) :
    s'.locked = false ↔ ¬ Refused s.slots m := by
  cases hs with
  | refused hm ht => simp [Refused, hm, ht]
  | registered _ ht _ => simp [Refused, ht, h]
  | tableFull _ ht _ => simp [Refused, ht, h]
  | stopped hm _ => simp [Refused, hm, h, MessageType.code]
  | alive hm _ => simp [Refused, hm, h, MessageType.code]
  | spoke hm _ _ _ => simp [Refused, hm, h]

theorem locked_step_iff {w w' : World} {e : Event}
    (h : w.server.locked = false) (hstep : w.step e = some w') :
    w'.server.locked = false ↔ ¬ e.IsRefused w := by
  cases e with
  | accept fd =>
      obtain ⟨-, -, -, -, rfl⟩ := World.step_accept hstep
      simp [Event.IsRefused, h]
  | hangup fd =>
      obtain ⟨c, -, rfl⟩ := World.step_hangup hstep
      simp [Event.IsRefused, h]
  | firstPass env =>
      obtain ⟨-, -, rfl⟩ := World.step_firstPass hstep
      simp [Event.IsRefused, h]
  | secondPass =>
      obtain ⟨-, -, calls, -, rfl⟩ := World.step_secondPass hstep
      simp [Event.IsRefused, h]
  | frame env fd m =>
      obtain ⟨c, s, -, hs, rfl⟩ := World.step_frame hstep
      exact hs.locked_iff h

/-- **The mutex is free again after every handler and both passes, except
after a `CLIENT_NEW` for a name that is taken**: on every table, and in
every run of the server. -/
theorem mutex_free_iff_not_refused {s : Server} (h : s.locked = false)
    {w₀ : World} {tr : List (Event × World)} (h₀ : chat.init w₀)
    (hrun : chat.Run w₀ tr) :
    (∀ env fd received s',
      (handleClientMessage env fd received).run s = .ok ((), s') →
      (s'.locked = false ↔ ∀ m, received = some m → ¬ Refused s.slots m)) ∧
    (∀ env, ∃ s', (checkAliveFirstPass env).run s = .ok ((), s') ∧
      s'.locked = false) ∧
    (∃ s', checkAliveSecondPass.run s = .ok ((), s') ∧ s'.locked = false) ∧
    ((∀ x ∈ tr, Unblocked x.2) ↔
      System.Meets (fun w e => ¬ Event.IsRefused w e) w₀ tr) := by
  refine ⟨?handlers, ?first, ?second, ?runs⟩
  case handlers =>
    intro env fd received s' hcall
    cases received with
    | none =>
        rw [handleClientMessage, StateT.run_pure, pure_eq_ok, Except.ok.injEq,
          Prod.mk.injEq] at hcall
        simp [← hcall.2, h]
    | some m =>
        rw [(handled_of_ok hcall).locked_iff h]
        simp
  case first =>
    intro env
    exact ⟨_, run_checkAliveFirstPass env h, h⟩
  case second =>
    exact ⟨_, run_checkAliveSecondPass h, h⟩
  case runs =>
    obtain ⟨serverSocket, epollFd, rfl⟩ := h₀
    refine hrun.forall_iff_meets (J := fun _ => True) (fun _ _ _ _ _ => trivial)
      ?_ trivial (unblocked_iff.mpr rfl)
    intro w e w' _ hw hstep
    rw [unblocked_iff]
    exact locked_step_iff hw.free hstep

/-- Two clients with different names, one of which stops, and a heartbeat
cycle. -/
theorem mutex_free_two_clients :
    ∃ tr : List (Event × World), tr.map Prod.fst =
        [.accept 5, .sent 5 .clientNew "bob", .accept 6,
          .sent 6 .clientNew "eve", .firstPass Env.zeros,
          .sent 6 .clientStop "eve", .secondPass] ∧
      ∀ x ∈ tr, Unblocked x.2 := by
  obtain ⟨tr, hrun, hmeets, hlabels⟩ :=
    System.Run.exists_of_runLabels (S := chat)
      (C := fun w e => ¬ Event.IsRefused w e) World.step (fun _ _ _ h => h)
      [.accept 5, .sent 5 .clientNew "bob", .accept 6,
        .sent 6 .clientNew "eve", .firstPass Env.zeros,
        .sent 6 .clientStop "eve", .secondPass]
      (s := World.initial 3 4) (by decide +kernel)
  refine ⟨tr, hlabels, ?_⟩
  obtain ⟨-, -, -, hiff⟩ := mutex_free_iff_not_refused
    (s := Server.initial) rfl ⟨3, 4, rfl⟩ hrun
  exact hiff.mpr hmeets

/-- A second client with the name of the first one: the heartbeat never
runs again. -/
theorem duplicate_keeps_mutex : ∃ w, chat.Reachable w ∧
    w.server.locked = true ∧
    ∀ env, (checkAliveFirstPass env).run w.idle = .error .deadlock := by
  obtain ⟨w, hw, hlocked⟩ :=
    System.ReachableIf.exists_of_runLabels (S := chat)
      (C := fun _ _ => True) World.step (fun _ _ _ h => h)
      [.accept 5, .sent 5 .clientNew "bob", .accept 6,
        .sent 6 .clientNew "bob"]
      (p := fun w => w.server.locked) (.init ⟨3, 4, rfl⟩) (by decide +kernel)
  refine ⟨w, hw, hlocked, ?_⟩
  intro env
  have hidle : w.idle.locked = true := hlocked
  rw [checkAliveFirstPass, StateT.run_bind, run_lock_held _ hidle]
  rfl

end Sysops.Cw11
