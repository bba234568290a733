import Sysops.Cw11.World

/-!
# Registrations and their names

What the reply to a `CLIENT_NEW` says about the table, and that no two
valid entries ever have names that `strncmp` takes for the same.
-/

namespace Sysops.Cw11

/-! ## The reply and the table -/

/-- The handler sent a frame of the type on the descriptor. -/
def Answers (s : Server) (fd : Int) (type : MessageType) : Prop :=
  ∃ msg : MessageT, Call.send fd msg ∈ s.calls ∧ msg.type = type.code

/-- The table has a new entry with the name and the socket, and is
otherwise what it was. -/
def Entered (t t' : Clients) (name : Bytes maxClientName) (fd : Int) : Prop :=
  ∃ i, (t i).valid = false ∧ (t' i).valid = true ∧ (t' i).name = name ∧
    (t' i).socket = fd ∧ ∀ j, j ≠ i → t' j = t j

/-- The reply of a handler that started with the table `t` agrees with
what it left. -/
structure ReplyAgrees (t : Clients) (name : Bytes maxClientName) (fd : Int)
    (s : Server) : Prop where
  okay : Answers s fd .serverOkRegister ↔ Entered t s.slots name fd
  failure : Answers s fd .serverFailureRegister → s.slots = t

theorem answers_single {s : Server} {fd : Int} {type other : MessageType}
    {msg : MessageT} (hcalls : s.calls = [.send fd msg])
    (hmsg : msg.type = other.code) : Answers s fd type ↔ type = other := by
  constructor
  · rintro ⟨msg', hmem, htype⟩
    rw [hcalls, List.mem_singleton, Call.send.injEq] at hmem
    obtain ⟨-, rfl⟩ := hmem
    exact MessageType.code_inj (htype.symm.trans hmsg)
  · rintro rfl
    exact ⟨msg, by simp [hcalls], hmsg⟩

section Reply

variable {t : Clients} {name : Bytes maxClientName} {fd : Int} {s : Server}
  {msg : MessageT}

theorem replyAgrees_refused (hcalls : s.calls = [.send fd msg])
    (hmsg : msg.type = MessageType.serverFailureRegister.code)
    (hslots : s.slots = t) : ReplyAgrees t name fd s := by
  refine ⟨?_, fun _ => hslots⟩
  rw [answers_single hcalls hmsg, hslots]
  refine ⟨fun h => absurd h (by decide), ?_⟩
  rintro ⟨i, hfree, hvalid, -⟩
  exact absurd hvalid (by simp [hfree])

theorem replyAgrees_registered {i : Fin maxClients}
    (hcalls : s.calls = [.send fd msg])
    (hmsg : msg.type = MessageType.serverOkRegister.code)
    (hfree : (t i).valid = false)
    (hslots : s.slots = Function.update t i
      { t i with valid := true, socket := fd, name := name }) :
    ReplyAgrees t name fd s := by
  constructor
  · rw [answers_single hcalls hmsg, hslots]
    refine ⟨fun _ => ⟨i, hfree, by simp, by simp, by simp, ?_⟩, fun _ => rfl⟩
    intro j hj
    exact Function.update_of_ne hj _ _
  · rw [answers_single hcalls hmsg]
    intro h
    cases h

/-- The success that nothing in the table bears out. -/
theorem not_replyAgrees_tableFull (hcalls : s.calls = [.send fd msg])
    (hmsg : msg.type = MessageType.serverOkRegister.code)
    (hfull : freeSlot t = none) : ¬ ReplyAgrees t name fd s := by
  intro h
  obtain ⟨i, hfree, -⟩ := h.okay.mp ((answers_single hcalls hmsg).mpr rfl)
  rw [freeSlot_eq_none.mp hfull i] at hfree
  cases hfree

end Reply

theorem run_clientNew {t : Clients} {env : Env} {fd : Int} {m : MessageT}
    (hm : m.type = MessageType.clientNew.code) :
    (handleClientMessage env fd (some m)).run ⟨t, false, []⟩ =
      (handleNewClient env m.sender fd).run ⟨t, false, []⟩ := by
  simp only [handleClientMessage]
  rw [if_pos hm]

/-- **A `CLIENT_NEW` is answered, and the answer agrees with the table
exactly when a slot is free or the name is taken.** -/
theorem registration_reply_iff (t : Clients) (env : Env) (fd : Int)
    (m : MessageT) (hm : m.type = MessageType.clientNew.code) :
    ∃ s, (handleClientMessage env fd (some m)).run ⟨t, false, []⟩
        = .ok ((), s) ∧
      (ReplyAgrees t m.sender fd s ↔
        (∃ i, (t i).valid = false) ∨
          ∃ i, (t i).valid = true ∧ (t i).hasName m.sender.toList = true) := by
  refine ⟨_, (run_clientNew hm).trans
    (run_handleNewClient env (by rfl) m.sender fd), ?_⟩
  cases ht : taken t m.sender.toList with
  | some i =>
      refine iff_of_true ?_ (.inr ⟨i, taken_eq_some ht⟩)
      exact replyAgrees_refused rfl rfl rfl
  | none =>
      cases hf : freeSlot t with
      | some i =>
          refine iff_of_true ?_ (.inl ⟨i, freeSlot_eq_some hf⟩)
          exact replyAgrees_registered rfl rfl (freeSlot_eq_some hf) rfl
      | none =>
          refine iff_of_false ?_ ?_
          · exact not_replyAgrees_tableFull rfl rfl hf
          · rintro (⟨i, hi⟩ | ⟨i, hi, hname⟩)
            · rw [freeSlot_eq_none.mp hf i] at hi
              cases hi
            · rw [taken_eq_none.mp ht i hi] at hname
              cases hname

/-- A hundred clients, with names of one byte each. -/
def fullTable : Clients := fun i =>
  { name := Bytes.ofList maxClientName [UInt8.ofNat (i.val + 1)]
    socket := i.val + 5
    valid := true
    awaitingAliveResponse := false }

/-- The same without the client at 41. -/
def oneFree : Clients :=
  Function.update fullTable 41 { fullTable 41 with valid := false }

/-- `bob` gets the last slot, and a client with the name at 7 gets none. -/
theorem registration_reply_last_slot :
    (∃ s, (handleClientMessage Env.zeros 105
        (some (frameFrom .clientNew "bob"))).run ⟨oneFree, false, []⟩
        = .ok ((), s) ∧
      ReplyAgrees oneFree (frameFrom .clientNew "bob").sender 105 s) ∧
    ∃ s, (handleClientMessage Env.zeros 106
        (some (frameFrom .clientNew "\x08"))).run ⟨oneFree, false, []⟩
        = .ok ((), s) ∧
      ReplyAgrees oneFree (frameFrom .clientNew "\x08").sender 106 s := by
  constructor
  · obtain ⟨s, hrun, hiff⟩ := registration_reply_iff oneFree
      Env.zeros 105 (frameFrom .clientNew "bob") rfl
    exact ⟨s, hrun, hiff.mpr (.inl ⟨41, by decide +kernel⟩)⟩
  · obtain ⟨s, hrun, hiff⟩ := registration_reply_iff oneFree
      Env.zeros 106 (frameFrom .clientNew "\x08") rfl
    exact ⟨s, hrun, hiff.mpr (.inr ⟨7, by decide +kernel, by decide +kernel⟩)⟩

/-- The next client is told that it is registered. -/
theorem full_table_replies_okay :
    ∃ s, (handleClientMessage Env.zeros 105
        (some (frameFrom .clientNew "bob"))).run ⟨fullTable, false, []⟩
        = .ok ((), s) ∧
      ¬ ReplyAgrees fullTable (frameFrom .clientNew "bob").sender 105 s := by
  have ht : taken fullTable (frameFrom .clientNew "bob").sender.toList
      = none := by decide +kernel
  have hf : freeSlot fullTable = none :=
    freeSlot_eq_none.mpr fun i => rfl
  refine ⟨_, (run_clientNew rfl).trans
    (run_handleNewClient Env.zeros (by rfl) _ 105), ?_⟩
  simp only [ht, hf]
  exact not_replyAgrees_tableFull rfl rfl hf

/-! ## Unique names -/

/-- No two valid entries have names that `strncmp` takes for the same. -/
def UniqueNames (t : Clients) : Prop :=
  ∀ i j, (t i).valid = true → (t j).valid = true →
    strncmp maxClientName (t i).name.toList (t j).name.toList = 0 → i = j

theorem hasName_iff {c : ClientT} {name : List Byte} :
    c.hasName name = true ↔
      cstr maxClientName c.name.toList = cstr maxClientName name := by
  rw [ClientT.hasName, beq_iff_eq, strncmp_eq_zero_iff]

/-- At most one valid entry matches a name. -/
theorem UniqueNames.eq {t : Clients} (h : UniqueNames t) {name : List Byte}
    {i j : Fin maxClients} (hi : (t i).valid = true)
    (hj : (t j).valid = true) (hni : (t i).hasName name = true)
    (hnj : (t j).hasName name = true) : i = j := by
  rw [hasName_iff] at hni hnj
  exact h i j hi hj ((strncmp_eq_zero_iff _ _ _).mpr (hni.trans hnj.symm))

/-- Removing entries and setting flags keeps names unique. -/
theorem UniqueNames.mono {t t' : Clients} (h : UniqueNames t)
    (hsub : ∀ i, (t' i).valid = true →
      (t i).valid = true ∧ (t' i).name = (t i).name) : UniqueNames t' := by
  intro i j hi hj hij
  obtain ⟨hvi, hni⟩ := hsub i hi
  obtain ⟨hvj, hnj⟩ := hsub j hj
  rw [hni, hnj] at hij
  exact h i j hvi hvj hij

/-- An entry with a name that is not taken. -/
theorem UniqueNames.update {t : Clients} (h : UniqueNames t)
    {c : ClientT} {k : Fin maxClients}
    (hfree : taken t c.name.toList = none) :
    UniqueNames (Function.update t k c) := by
  have hother : ∀ i, (t i).valid = true →
      strncmp maxClientName (t i).name.toList c.name.toList ≠ 0 := by
    intro i hi heq
    have hname := taken_eq_none.mp hfree i hi
    simp [ClientT.hasName, heq] at hname
  intro i j hi hj hij
  by_cases hik : i = k <;> by_cases hjk : j = k
  · exact hik.trans hjk.symm
  · subst hik
    rw [Function.update_self, Function.update_of_ne hjk] at hij
    rw [Function.update_of_ne hjk] at hj
    rw [strncmp_eq_zero_iff] at hij
    exact absurd ((strncmp_eq_zero_iff _ _ _).mpr hij.symm) (hother j hj)
  · subst hjk
    rw [Function.update_self, Function.update_of_ne hik] at hij
    rw [Function.update_of_ne hik] at hi
    exact absurd hij (hother i hi)
  · rw [Function.update_of_ne hik] at hi hij
    rw [Function.update_of_ne hjk] at hj hij
    exact h i j hi hj hij

/-- Only a registration can bring a name into the table. -/
theorem uniqueNames_frame {env : Env} {fd : Int} {m : MessageT}
    {s s' : Server} (hs : Handled env fd m s s') (h : UniqueNames s.slots) :
    UniqueNames s'.slots := by
  cases hs with
  | refused | tableFull | spoke => exact h
  | registered _ ht _ => exact h.update ht
  | @stopped k _ ht =>
      apply h.mono
      intro i hi
      by_cases hik : i = k
      · subst hik
        simp at hi
      · simpa [hik] using hi
  | @alive k _ hk =>
      apply h.mono
      intro i hi
      by_cases hik : i = k
      · subst hik
        simpa using hi
      · simpa [hik] using hi

theorem uniqueNames_step {w w' : World} {e : Event}
    (h : UniqueNames w.server.slots) (hstep : w.step e = some w') :
    UniqueNames w'.server.slots := by
  cases e with
  | accept fd =>
      obtain ⟨-, -, -, -, rfl⟩ := World.step_accept hstep
      exact h
  | hangup fd =>
      obtain ⟨c, -, rfl⟩ := World.step_hangup hstep
      exact h
  | frame env fd m =>
      obtain ⟨c, s, -, hs, rfl⟩ := World.step_frame hstep
      exact uniqueNames_frame hs h
  | firstPass env =>
      obtain ⟨-, -, rfl⟩ := World.step_firstPass hstep
      apply h.mono
      intro i hi
      cases hv : (w.server.slots i).valid <;> simp [hv] at hi ⊢
  | secondPass =>
      obtain ⟨-, -, calls, -, rfl⟩ := World.step_secondPass hstep
      apply h.mono
      intro i hi
      by_cases hgone : (w.server.slots i).valid &&
          (w.server.slots i).awaitingAliveResponse
      · simp [hgone] at hi
      · simpa [hgone] using hi

theorem uniqueNames_of_reachable {w : World} (h : chat.Reachable w) :
    UniqueNames w.server.slots := by
  refine h.invariant (I := fun w => UniqueNames w.server.slots) ?_ ?_
  · rintro w ⟨serverSocket, epollFd, rfl⟩ i j hi
    cases hi
  · intro w e w' hw _ hstep
    exact uniqueNames_step hw hstep

/-- Deleting the first match deletes the only one. -/
theorem no_match_after_delete {s s' : Server} (h : UniqueNames s.slots)
    (hfree : s.locked = false) {name : Bytes maxClientName}
    (hrun : (handleClientDelete name).run s = .ok ((), s'))
    (i : Fin maxClients) (hi : (s'.slots i).valid = true) :
    (s'.slots i).hasName name.toList = false := by
  rw [run_handleClientDelete hfree, Except.ok.injEq, Prod.mk.injEq] at hrun
  obtain ⟨-, rfl⟩ := hrun
  cases ht : taken s.slots name.toList with
  | none =>
      simp only [ht] at hi ⊢
      exact taken_eq_none.mp ht i hi
  | some k =>
      simp only [ht] at hi ⊢
      obtain ⟨hvk, hnk⟩ := taken_eq_some ht
      by_cases hik : i = k
      · subst hik
        simp at hi
      · rw [Function.update_of_ne hik] at hi ⊢
        cases hn : (s.slots i).hasName name.toList with
        | false => rfl
        | true => exact absurd (h.eq hi hvk hn hnk) hik

/-- **Names are unique in every run**: of the entries of a reachable
table, at most one matches any receiver, and none matches a name that was
just deleted. -/
theorem names_unique {w : World} (h : chat.Reachable w) :
    UniqueNames w.server.slots ∧
      (∀ (receiver : List Byte) i j, (w.server.slots i).valid = true →
        (w.server.slots j).valid = true →
        (w.server.slots i).hasName receiver = true →
        (w.server.slots j).hasName receiver = true → i = j) ∧
      ∀ name s, (handleClientDelete name).run w.idle = .ok ((), s) →
        ∀ i, (s.slots i).valid = true →
          (s.slots i).hasName name.toList = false := by
  have hw : UniqueNames w.idle.slots := uniqueNames_of_reachable h
  refine ⟨hw, fun receiver i j hi hj => hw.eq hi hj, ?_⟩
  intro name s hrun
  exact no_match_after_delete hw (free_of_handleClientDelete hrun) hrun

/-- With two clients and a stopped one. -/
theorem names_unique_two_clients : ∃ w, chat.Reachable w ∧
    (w.server.slots 0).valid = true ∧ (w.server.slots 1).valid = true ∧
    UniqueNames w.server.slots := by
  obtain ⟨w, hw, hvalid⟩ :=
    System.ReachableIf.exists_of_runLabels (S := chat)
      (C := fun _ _ => True) World.step (fun _ _ _ h => h)
      [.accept 5, .sent 5 .clientNew "bob", .accept 6,
        .sent 6 .clientNew "eve", .sent 6 .clientStop "bob",
        .accept 7, .sent 7 .clientNew "bob"]
      (p := fun w => (w.server.slots 0).valid && (w.server.slots 1).valid)
      (.init ⟨3, 4, rfl⟩) (by decide +kernel)
  rw [Bool.and_eq_true] at hvalid
  exact ⟨w, hw, hvalid.1, hvalid.2, (names_unique hw).1⟩

end Sysops.Cw11
