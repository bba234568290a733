import Sysops.Cw11.Names

/-!
# The list of the clients

`handle_list_request` puts the names of all valid entries into one buffer
of `MAX_MESSAGE_TEXT` bytes. Nothing bounds their number but the table, so
the buffer holds them only while they are few or short.
-/

namespace Sysops.Cw11

open SlotM

/-! ## What the list is to be -/

/-- The line of an entry in the list. -/
def listLine (c : ClientT) : List Byte :=
  if c.valid then cstr maxClientName c.name.toList ++ [10] else []

/-- The lines of all entries, in slot order. -/
def listText (t : Clients) : List Byte :=
  (List.finRange maxClients).flatMap fun i => listLine (t i)

/-- The names of the valid entries have a terminator. -/
def NamesTerminated (t : Clients) : Prop :=
  ∀ i, (t i).valid = true → 0 ∈ (t i).name.toList

/-- The reply to a list request with the table `t` and the mutex free. -/
structure ListComplete (env : Env) (t : Clients) (fd : Int) : Prop where
  /-- No byte is written behind the buffer. -/
  fits : ∃ buffer, listClients env t = .ok buffer
  replies : ∃ m, (handleListRequest env fd).run ⟨t, false, []⟩ =
      .ok ((), ⟨t, false, [.send fd m]⟩) ∧
    m.type = MessageType.serverListMessage.code ∧
    m.message.Holds (listText t)

/-! ## The loop -/

section Loop

variable {env : Env} {t : Clients} {buffer : Bytes maxMessageText}
  {text : List Byte} {i : Fin maxClients}

/-- One turn of the loop of `handle_list_request`. -/
def listTurn (env : Env) (t : Clients) (buffer : Bytes maxMessageText)
    (i : Fin maxClients) : Except Fault (Bytes maxMessageText) :=
  if (t i).valid then do
    let buffer ← strcat buffer ((t i).name.toList ++ env.afterName i)
    strcat buffer (literal "\n")
  else pure buffer

theorem listClients_eq (env : Env) (t : Clients) : listClients env t =
    (List.finRange maxClients).foldlM (listTurn env t)
      (env.listBuffer.write 0 [0] (by decide)) := rfl

/-- A name is read up to its terminator. -/
theorem exists_name (env : Env) (h : 0 ∈ (t i).name.toList) : ∃ after,
    (t i).name.toList ++ env.afterName i =
      cstr maxClientName (t i).name.toList ++ 0 :: after ∧
    0 ∉ cstr maxClientName (t i).name.toList := by
  obtain ⟨name, rest, hname, hbytes, hrest⟩ := exists_word [0] (t i).name.toList
  have hnul : 0 ∉ name := fun h => hbytes 0 h (by simp)
  rcases hrest with rfl | ⟨c, rest, rfl, hc⟩
  · rw [List.append_nil] at hname
    exact absurd (hname ▸ h) hnul
  · obtain rfl := List.mem_singleton.mp hc
    have hsize : (t i).name.toList.length = maxClientName :=
      (t i).name.toList_length
    rw [hname, List.length_append] at hsize
    have hcut : cstr maxClientName (name ++ 0 :: rest) = name := by
      rw [cstr_terminated hnul, List.take_of_length_le (by omega)]
    rw [hname, hcut]
    exact ⟨rest ++ env.afterName i, by simp, hnul⟩

/-- A turn appends the line of the slot while it fits. -/
theorem listTurn_fits (h : NamesTerminated t) (hbuffer : buffer.Holds text)
    (hfits : text.length + (listLine (t i)).length < maxMessageText) :
    ∃ buffer', listTurn env t buffer i = .ok buffer' ∧
      buffer'.Holds (text ++ listLine (t i)) := by
  by_cases hvalid : (t i).valid = true
  · obtain ⟨after, hname, hnul⟩ := exists_name env (h i hvalid)
    rw [listLine, if_pos hvalid, List.length_append,
      List.length_singleton] at hfits
    obtain ⟨named, hnamed, hholds⟩ :=
      strcat_fits _ after hbuffer hnul (by omega)
    obtain ⟨ended, hended, hholds'⟩ := strcat_fits [10] [] hholds (by decide)
      (by
        rw [List.length_append, List.length_singleton]
        omega)
    refine ⟨ended, ?_, ?_⟩
    · rw [listTurn, if_pos hvalid, hname, hnamed, ok_bind]
      exact hended
    · rw [listLine, if_pos hvalid, ← List.append_assoc]
      exact hholds'
  · refine ⟨buffer, by rw [listTurn, if_neg hvalid]; rfl, ?_⟩
    rw [listLine, if_neg hvalid, List.append_nil]
    exact hbuffer

/-- And leaves the buffer where it does not. -/
theorem listTurn_overflow (h : NamesTerminated t)
    (hbuffer : buffer.Holds text)
    (hlong : maxMessageText ≤ text.length + (listLine (t i)).length) :
    listTurn env t buffer i = .error .outOfBounds := by
  by_cases hvalid : (t i).valid = true
  · obtain ⟨after, hname, hnul⟩ := exists_name env (h i hvalid)
    rw [listLine, if_pos hvalid, List.length_append,
      List.length_singleton] at hlong
    rw [listTurn, if_pos hvalid, hname]
    by_cases hroom : text.length + (cstr maxClientName
        (t i).name.toList).length < maxMessageText
    · -- the name fits, the newline does not
      obtain ⟨named, hnamed, hholds⟩ :=
        strcat_fits _ after hbuffer hnul hroom
      rw [hnamed, ok_bind]
      refine strcat_overflow [10] [] hholds (by decide) ?_
      rw [List.length_append, List.length_singleton]
      omega
    · rw [strcat_overflow _ after hbuffer hnul (by omega)]
      rfl
  · have hlt := hbuffer.length_lt
    rw [listLine, if_neg hvalid, List.length_nil] at hlong
    omega

/-- The loop over any slots appends their lines if all of them fit, and
leaves the buffer if they do not. -/
theorem foldlM_listTurn (env : Env) (h : NamesTerminated t)
    (l : List (Fin maxClients))
    (hbuffer : buffer.Holds text) :
    (text.length + (l.flatMap fun i => listLine (t i)).length <
        maxMessageText → ∃ buffer', l.foldlM (listTurn env t) buffer =
          .ok buffer' ∧
        buffer'.Holds (text ++ l.flatMap fun i => listLine (t i))) ∧
      (maxMessageText ≤
          text.length + (l.flatMap fun i => listLine (t i)).length →
        l.foldlM (listTurn env t) buffer = .error .outOfBounds) := by
  induction l generalizing buffer text with
  | nil =>
      have hlt := hbuffer.length_lt
      constructor
      · intro _
        exact ⟨buffer, rfl, by simpa using hbuffer⟩
      · intro hlong
        rw [List.flatMap_nil, List.length_nil] at hlong
        omega
  | cons i l ih =>
      rw [List.flatMap_cons, List.length_append, List.foldlM_cons,
        ← List.append_assoc]
      by_cases hroom : text.length + (listLine (t i)).length < maxMessageText
      · obtain ⟨buffer', hturn, hholds⟩ := listTurn_fits h hbuffer hroom
        have hrest := ih hholds
        rw [List.length_append] at hrest
        rw [hturn, ok_bind]
        constructor
        · intro hfits
          exact hrest.1 (by omega)
        · intro hlong
          exact hrest.2 (by omega)
      · rw [listTurn_overflow h hbuffer (by omega)]
        constructor
        · intro hfits
          omega
        · intro _
          rfl

end Loop

/-! ## The reply -/

section Reply

variable {t : Clients}

/-- `buffer[0] = '\0'`. -/
theorem holds_cleared (buffer : Bytes maxMessageText) :
    (buffer.write 0 [0] (by decide)).Holds [] :=
  ⟨List.not_mem_nil, buffer.toList.drop 1, rfl⟩

/-- What the handler sends when the list fits. -/
theorem run_handleListRequest (env : Env) (fd : Int)
    {buffer : Bytes maxMessageText} (h : listClients env t = .ok buffer) :
    ∃ m : MessageT, (handleListRequest env fd).run ⟨t, false, []⟩ =
        .ok ((), ⟨t, false, [.send fd m]⟩) ∧
      m.type = MessageType.serverListMessage.code ∧ m.message = buffer := by
  have hinit : initMessageT (env.time 0) (env.literal "SERVER")
      .serverListMessage (some buffer.toList) = .ok
        { timestamp := env.time 0
          sender := env.copy maxClientName (by decide) "SERVER"
          type := MessageType.serverListMessage.code
          message := buffer } := by
    rw [initMessageT, memcpy_literal env _ (by decide), memcpy_toList]
    rfl
  have hlist : (lockedList env).run ⟨t, false, []⟩ =
      .ok (buffer, ⟨t, false, []⟩) := by
    simp only [lockedList, StateT.run_bind, run_lock_free, ok_bind,
      StateT.run_get, pure_eq_ok, h, StateT.run_monadLift, monadLift_self,
      run_unlock]
    rfl
  have hrun : (handleListRequest env fd).run ⟨t, false, []⟩ =
      .ok ((), ⟨t, false, [.send fd
        { timestamp := env.time 0
          sender := env.copy maxClientName (by decide) "SERVER"
          type := MessageType.serverListMessage.code
          message := buffer }]⟩) := by
    simp only [handleListRequest, StateT.run_bind, hlist, ok_bind, hinit,
      StateT.run_monadLift, monadLift_self, pure_eq_ok, sendMessage, run_call]
    rfl
  exact ⟨_, hrun, rfl, rfl⟩

/-- Over any table whose names have terminators. -/
theorem listComplete_iff_fits (env : Env) (fd : Int)
    (h : NamesTerminated t) :
    ListComplete env t fd ↔ (listText t).length < maxMessageText := by
  obtain ⟨hshort, hlong⟩ := foldlM_listTurn env h
    (List.finRange maxClients) (holds_cleared env.listBuffer)
  rw [List.length_nil, Nat.zero_add, ← listClients_eq, List.nil_append]
    at hshort
  rw [List.length_nil, Nat.zero_add, ← listClients_eq] at hlong
  constructor
  · intro hcomplete
    by_contra hge
    obtain ⟨buffer, hbuffer⟩ := hcomplete.fits
    rw [hlong (Nat.not_lt.mp hge)] at hbuffer
    cases hbuffer
  · intro hlt
    obtain ⟨buffer, hbuffer, hholds⟩ := hshort hlt
    obtain ⟨m, hrun, htype, hmessage⟩ :=
      run_handleListRequest env fd hbuffer
    exact ⟨⟨buffer, hbuffer⟩, m, hrun, htype, hmessage ▸ hholds⟩

end Reply

/-! ## Reachable tables -/

/-- The names that clients register with have the property. -/
def Event.Registers (P : Bytes maxClientName → Prop) : Event → Prop
  | .frame _ _ m => m.type = MessageType.clientNew.code → P m.sender
  | _ => True

section Registered

variable {P : Bytes maxClientName → Prop}

/-- What holds of the names of all valid entries. -/
def NamesOf (P : Bytes maxClientName → Prop) (t : Clients) : Prop :=
  ∀ i, (t i).valid = true → P (t i).name

/-- A valid entry keeps its name, or was just registered. -/
theorem name_of_handled {env : Env} {fd : Int} {m : MessageT} {s s' : Server}
    (hs : Handled env fd m s s') {i : Fin maxClients}
    (hi : (s'.slots i).valid = true) :
    ((s.slots i).valid = true ∧ (s'.slots i).name = (s.slots i).name) ∨
      (m.type = MessageType.clientNew.code ∧
        (s'.slots i).name = m.sender) := by
  cases hs with
  | refused | tableFull | spoke => exact .inl ⟨hi, rfl⟩
  | @registered k hnew _ _ =>
      by_cases hik : i = k
      · subst hik
        exact .inr ⟨hnew, by simp⟩
      · simp only [Function.update_of_ne hik] at hi
        exact .inl ⟨hi, by simp [hik]⟩
  | @stopped k _ _ =>
      by_cases hik : i = k
      · subst hik
        simp at hi
      · simp only [Function.update_of_ne hik] at hi
        exact .inl ⟨hi, by simp [hik]⟩
  | @alive k _ _ =>
      by_cases hik : i = k
      · subst hik
        exact .inl (by simpa using hi)
      · simp only [Function.update_of_ne hik] at hi
        exact .inl ⟨hi, by simp [hik]⟩

theorem namesOf_step {w w' : World} {e : Event} (h : NamesOf P w.server.slots)
    (he : e.Registers P) (hstep : w.step e = some w') :
    NamesOf P w'.server.slots := by
  intro i hi
  cases e with
  | accept fd =>
      obtain ⟨-, -, -, -, rfl⟩ := World.step_accept hstep
      exact h i hi
  | hangup fd =>
      obtain ⟨c, -, rfl⟩ := World.step_hangup hstep
      exact h i hi
  | frame env fd m =>
      obtain ⟨c, s, -, hs, rfl⟩ := World.step_frame hstep
      rcases name_of_handled hs hi with ⟨hvalid, hname⟩ | ⟨hnew, hname⟩
      · show P (s.slots i).name
        rw [hname]
        exact h i hvalid
      · show P (s.slots i).name
        rw [hname]
        exact he hnew
  | firstPass env =>
      obtain ⟨-, -, rfl⟩ := World.step_firstPass hstep
      cases hv : (w.server.slots i).valid <;> simp [hv] at hi ⊢
      exact h i hv
  | secondPass =>
      obtain ⟨-, -, calls, -, rfl⟩ := World.step_secondPass hstep
      by_cases hgone : (w.server.slots i).valid &&
          (w.server.slots i).awaitingAliveResponse
      · simp [hgone] at hi
      · simp only [hgone] at hi ⊢
        exact h i hi

/-- Of the names that were registered. -/
theorem namesOf_of_reachable {w : World}
    (h : chat.ReachableIf (fun _ e => e.Registers P) w) :
    NamesOf P w.server.slots := by
  refine h.invariant (I := fun w => NamesOf P w.server.slots) ?_ ?_
  · rintro w ⟨serverSocket, epollFd, rfl⟩ i hi
    cases hi
  · intro w e w' hw he hstep
    exact namesOf_step hw he hstep

end Registered

/-- The server while every client registers with a name that `client.c`
admits: it ends in the first `MAX_CLIENT_NAME` bytes. -/
def AdmittedNames (w : World) : Prop :=
  chat.ReachableIf (fun _ e => e.Registers fun name => 0 ∈ name.toList) w

/-- **The list is complete exactly while the names of the valid entries,
each with its newline, are shorter than the buffer.** -/
theorem list_complete_iff {w : World} (h : AdmittedNames w) (env : Env)
    (fd : Int) : ListComplete env w.server.slots fd ↔
      (listText w.server.slots).length < maxMessageText :=
  listComplete_iff_fits env fd (namesOf_of_reachable h)

/-! ## Two clients, and eight -/

instance {P : Bytes maxClientName → Prop} [DecidablePred P] :
    ∀ e : Event, Decidable (e.Registers P)
  | .frame _ _ m => inferInstanceAs
      (Decidable (m.type = MessageType.clientNew.code → P m.sender))
  | .accept _ | .hangup _ | .firstPass _ | .secondPass =>
      inferInstanceAs (Decidable True)

theorem list_complete_two_clients : ∃ w, AdmittedNames w ∧
    (listText w.server.slots).length = 8 ∧
    ListComplete Env.zeros w.server.slots 5 := by
  obtain ⟨w, hw, hlength⟩ :=
    System.ReachableIf.exists_of_runLabels (S := chat)
      (C := fun _ e => e.Registers fun name => 0 ∈ name.toList)
      World.step (fun _ _ _ h => h)
      [.accept 5, .sent 5 .clientNew "bob", .accept 6,
        .sent 6 .clientNew "eve"]
      (p := fun w => decide ((listText w.server.slots).length = 8))
      (.init ⟨3, 4, rfl⟩) (by decide +kernel)
  rw [decide_eq_true_eq] at hlength
  refine ⟨w, hw, hlength, (list_complete_iff hw _ _).mpr ?_⟩
  rw [hlength]
  decide

/-- A registration with a name of 63 letters. -/
def registration (k : Nat) : MessageT where
  sender := Bytes.ofList maxClientName
    (UInt8.ofNat (65 + k) :: List.replicate 62 97)
  type := MessageType.clientNew.code
  message := Bytes.ofList maxMessageText []
  timestamp := 0

/-- The list of eight clients with the longest names is one byte too
long. -/
theorem list_overflows_eight_clients : ∃ w, AdmittedNames w ∧
    ¬ ListComplete Env.zeros w.server.slots 5 := by
  obtain ⟨w, hw, hlength⟩ :=
    System.ReachableIf.exists_of_runLabels (S := chat)
      (C := fun _ e => e.Registers fun name => 0 ∈ name.toList)
      World.step (fun _ _ _ h => h)
      ((List.range 8).flatMap fun (k : Nat) =>
        [.accept (5 + k), .frame Env.zeros (5 + k) (registration k)])
      (p := fun w => decide ((listText w.server.slots).length = 512))
      (.init ⟨3, 4, rfl⟩) (by decide +kernel)
  rw [decide_eq_true_eq] at hlength
  refine ⟨w, hw, ?_⟩
  rw [listComplete_iff_fits Env.zeros 5 (namesOf_of_reachable hw), hlength]
  decide

end Sysops.Cw11
