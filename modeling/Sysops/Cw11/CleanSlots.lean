import Sysops.Cw11.History

/-!
# Slots that are not in use

`init_clients` writes all four fields of a slot, and whoever gives a slot
back writes some of them. `add_client` relies on the flag of a free slot,
and `handle_got_alive_message` on its socket.
-/

namespace Sysops.Cw11

/-- As `init_clients` leaves a slot, `valid` apart. -/
structure ClientT.IsClean (c : ClientT) : Prop where
  socket : c.socket = -1
  name : cstr maxClientName c.name.toList = []
  awaiting : c.awaitingAliveResponse = false

def FreeClean (w : World) : Prop :=
  ∀ i, (w.server.slots i).valid = false → (w.server.slots i).IsClean

/-- A free slot is a clean slot, with what that is good for. -/
structure CleanSlots (w : World) : Prop where
  clean : FreeClean w
  /-- A slot that is taken has nothing of its last owner. -/
  fresh : ∀ env fd m w', w.step (.frame env fd m) = some w' →
    ∀ i, (w.server.slots i).valid = false →
      (w'.server.slots i).valid = true →
      w'.server.slots i = ⟨m.sender, fd, true, false⟩
  /-- The search by socket finds no slot that is not in use. -/
  found : ∀ fd, (w.fds fd).isSome → ∀ i, holder w.server.slots fd = some i →
    (w.server.slots i).valid = true

/-- What keeps the slots clean: the entry that a `CLIENT_STOP` removes is
not awaited, and the second pass removes none. -/
def KeepsClean (w : World) : Event → Prop
  | .frame _ _ m => m.type = MessageType.clientStop.code →
      ∀ i, taken w.server.slots m.sender.toList = some i →
        (w.server.slots i).awaitingAliveResponse = false
  | .secondPass => ∀ i, (w.server.slots i).valid = true →
      (w.server.slots i).awaitingAliveResponse = false
  | .accept _ | .hangup _ | .firstPass _ => True

instance (w : World) : DecidablePred (KeepsClean w)
  | .frame _ _ _ => inferInstanceAs (Decidable (_ → ∀ _, _))
  | .secondPass => inferInstanceAs (Decidable (∀ _, _))
  | .accept _ | .hangup _ | .firstPass _ => inferInstanceAs (Decidable True)

/-! ## Sockets in use -/

/-- Descriptors are not negative, in the process and in the table. -/
structure Descriptors (w : World) : Prop where
  opened : ∀ fd c, w.fds fd = some c → 0 ≤ fd
  socket : ∀ i, (w.server.slots i).valid = true →
    0 ≤ (w.server.slots i).socket

theorem descriptors_initial (serverSocket epollFd : Int) :
    Descriptors (World.initial serverSocket epollFd) := by
  constructor <;> intros <;> contradiction

section Step

variable {w w' : World} {e : Event} {env : Env} {fd : Int} {m : MessageT}
  {i : Fin maxClients}

theorem Descriptors.step (hw : Descriptors w) (h : w.step e = some w') :
    Descriptors w' := by
  constructor
  · intro d c hd
    rcases fds_before h hd with hd | ⟨-, hpos, -⟩
    · exact hw.opened d c hd
    · exact hpos
  · intro i hi
    cases slotStep h i with
    | kept hvalid _ hsocket =>
        rw [hsocket]
        exact hw.socket i (hvalid ▸ hi)
    | dropped _ hfree => exact absurd hi (by simp [hfree])
    | taken _ _ hopen _ hslot =>
        rw [hslot]
        exact hw.opened _ _ hopen

/-! ## What clean slots are good for -/

theorem holder_eq_some {t : Clients} (h : holder t fd = some i) :
    (t i).socket = fd := by
  simpa using (Fin.find?_eq_some_iff.mp h).1

theorem FreeClean.fresh (hclean : FreeClean w)
    (h : w.step (.frame env fd m) = some w')
    (hfree : (w.server.slots i).valid = false)
    (hvalid : (w'.server.slots i).valid = true) :
    w'.server.slots i = ⟨m.sender, fd, true, false⟩ := by
  cases slotStep h i with
  | kept hkept =>
      rw [hkept, hfree] at hvalid
      cases hvalid
  | dropped hused => exact absurd hused (by simp [hfree])
  | taken he _ _ _ hslot =>
      cases he
      have hflag := (hclean i hfree).awaiting
      simp only [hslot, hflag]

theorem FreeClean.found (hw : Descriptors w) (hclean : FreeClean w)
    (hopen : (w.fds fd).isSome) (h : holder w.server.slots fd = some i) :
    (w.server.slots i).valid = true := by
  by_contra hfree
  obtain ⟨c, hc⟩ := Option.isSome_iff_exists.mp hopen
  have hpos : 0 ≤ fd := hw.opened fd c hc
  have hsocket := (hclean i (Bool.not_eq_true _ ▸ hfree)).socket
  rw [holder_eq_some h] at hsocket
  omega

theorem cleanSlots_iff (hw : Descriptors w) :
    CleanSlots w ↔ FreeClean w := by
  refine ⟨CleanSlots.clean, fun hclean => ⟨hclean, ?_, ?_⟩⟩
  · exact fun env fd m w' h i => hclean.fresh h
  · exact fun fd hopen i => hclean.found hw hopen

/-! ## What one event does to the free slots -/

theorem FreeClean.of_slots (hclean : FreeClean w)
    (h : ∀ i, (w'.server.slots i).valid = false →
      w'.server.slots i = w.server.slots i) : FreeClean w' := by
  intro i hi
  have hsame := h i hi
  rw [hsame] at hi ⊢
  exact hclean i hi

theorem cstr_clearName (name : Bytes maxClientName) :
    cstr maxClientName (clearName name).toList = [] :=
  cstr_terminated (s := []) List.not_mem_nil

/-- A `CLIENT_STOP` clears all but the flag. -/
theorem freeClean_stopped_iff (hclean : FreeClean w)
    (hslots : w'.server.slots = Function.update w.server.slots i
      { w.server.slots i with
        valid := false
        name := clearName (w.server.slots i).name
        socket := -1 }) :
    FreeClean w' ↔ (w.server.slots i).awaitingAliveResponse = false := by
  constructor
  · intro hclean'
    have hi := hclean' i
    rw [hslots, Function.update_self] at hi
    exact (hi rfl).awaiting
  · intro hflag j hj
    by_cases hji : j = i
    · subst hji
      rw [hslots, Function.update_self]
      exact ⟨rfl, cstr_clearName _, hflag⟩
    · rw [hslots, Function.update_of_ne hji] at hj ⊢
      exact hclean j hj

/-- The second pass clears the flag, and leaves name and socket. -/
theorem freeClean_secondPass_iff (hw : Descriptors w) (hclean : FreeClean w)
    (h : w.step .secondPass = some w') :
    FreeClean w' ↔ KeepsClean w .secondPass := by
  obtain ⟨-, -, calls, -, rfl⟩ := World.step_secondPass h
  constructor
  · intro hclean' i hi
    by_contra hflag
    have hflag : (w.server.slots i).awaitingAliveResponse = true :=
      Bool.not_eq_false _ ▸ hflag
    have hsocket := (hclean' i (by simp [hi, hflag])).socket
    simp only [hi, hflag, Bool.and_self, if_true] at hsocket
    have hpos := hw.socket i hi
    omega
  · intro hnone
    refine hclean.of_slots fun i _ => ?_
    have hkept : ((w.server.slots i).valid &&
        (w.server.slots i).awaitingAliveResponse) = false := by
      rw [Bool.and_eq_false_imp]
      exact hnone i
    simp [hkept]

theorem keepsClean_other (hm : m.type ≠ MessageType.clientStop.code) :
    KeepsClean w (.frame env fd m) :=
  fun hstop => absurd hstop hm

theorem freeClean_frame_iff (hclean : FreeClean w)
    (h : w.step (.frame env fd m) = some w') :
    FreeClean w' ↔ KeepsClean w (.frame env fd m) := by
  obtain ⟨c, s, -, hs, rfl⟩ := World.step_frame h
  cases hs with
  | refused hm | tableFull hm =>
      exact iff_of_true (hclean.of_slots fun _ _ => rfl)
        (keepsClean_other (MessageType.ne_code hm (by decide)))
  | @registered i hm =>
      refine iff_of_true (hclean.of_slots fun j hj => ?_)
        (keepsClean_other (MessageType.ne_code hm (by decide)))
      have hji : j ≠ i := by
        rintro rfl
        simp at hj
      exact Function.update_of_ne hji _ _
  | @stopped i hm ht =>
      rw [freeClean_stopped_iff (i := i) hclean rfl]
      constructor
      · intro hflag _ j hj
        obtain rfl : j = i := Option.some.inj (hj.symm.trans ht)
        exact hflag
      · exact fun hkeeps => hkeeps hm i ht
  | @alive i hm =>
      refine iff_of_true (fun j hj => ?_)
        (keepsClean_other (MessageType.ne_code hm (by decide)))
      by_cases hji : j = i
      · subst hji
        simp only [World.idle_slots, Function.update_self] at hj ⊢
        exact ⟨(hclean j hj).socket, (hclean j hj).name, rfl⟩
      · simp only [World.idle_slots, Function.update_of_ne hji] at hj ⊢
        exact hclean j hj
  | spoke _ hstop =>
      refine iff_of_true (hclean.of_slots fun _ _ => rfl) fun hm i hi => ?_
      exact absurd (hi.symm.trans (hstop hm)) (by simp)

theorem freeClean_step_iff (hw : Descriptors w) (hclean : FreeClean w)
    (h : w.step e = some w') : FreeClean w' ↔ KeepsClean w e := by
  cases e with
  | frame env fd m => exact freeClean_frame_iff hclean h
  | secondPass => exact freeClean_secondPass_iff hw hclean h
  | firstPass env =>
      obtain ⟨-, -, rfl⟩ := World.step_firstPass h
      refine iff_of_true (hclean.of_slots fun i hi => ?_) trivial
      have hfree : (w.server.slots i).valid = false := by
        by_contra hused
        simp [Bool.not_eq_false _ ▸ hused] at hi
      simp [hfree]
  | accept fd =>
      obtain ⟨-, -, -, -, rfl⟩ := World.step_accept h
      exact iff_of_true (hclean.of_slots fun _ _ => rfl) trivial
  | hangup fd =>
      obtain ⟨c, -, rfl⟩ := World.step_hangup h
      exact iff_of_true (hclean.of_slots fun _ _ => rfl) trivial

end Step

/-- **The free slots are clean in all states of a run exactly if nobody is
removed while an answer is awaited**, by a `CLIENT_STOP` or by the second
pass. -/
theorem clean_slots_iff {w₀ : World} (h₀ : chat.init w₀)
    {tr : List (Event × World)} (hrun : chat.Run w₀ tr) :
    (∀ x ∈ tr, CleanSlots x.2) ↔ System.Meets KeepsClean w₀ tr := by
  obtain ⟨serverSocket, epollFd, rfl⟩ := h₀
  have hdescriptors := descriptors_initial serverSocket epollFd
  refine hrun.forall_iff_meets (J := Descriptors) ?_ ?_ hdescriptors ?_
  · exact fun w e w' hw h => hw.step h
  · intro w e w' hw hclean h
    rw [cleanSlots_iff (hw.step h)]
    exact freeClean_step_iff hw hclean.clean h
  · rw [cleanSlots_iff hdescriptors]
    intro i _
    exact ⟨rfl, cstr_clearName _, rfl⟩

/-- A client that answers, and stops before it is asked again. -/
theorem clean_slots_answered : ∃ tr : List (Event × World),
    tr.map Prod.fst = [.accept 5, .sent 5 .clientNew "bob",
      .firstPass Env.zeros, .sent 5 .clientAlive "bob", .secondPass,
      .sent 5 .clientStop "bob", .accept 5, .sent 5 .clientNew "eve"] ∧
      ∀ x ∈ tr, CleanSlots x.2 := by
  obtain ⟨tr, hrun, hmeets, hlabels⟩ :=
    System.Run.exists_of_runLabels (S := chat) (C := KeepsClean) World.step
      (fun _ _ _ h => h)
      [.accept 5, .sent 5 .clientNew "bob", .firstPass Env.zeros,
        .sent 5 .clientAlive "bob", .secondPass, .sent 5 .clientStop "bob",
        .accept 5, .sent 5 .clientNew "eve"]
      (s := World.initial 3 4) (by decide +kernel)
  exact ⟨tr, hlabels, (clean_slots_iff ⟨3, 4, rfl⟩ hrun).mpr hmeets⟩

/-- The entry of a client that did not answer keeps its socket. The client
that gets the descriptor next is looked for by it, and the slot that is found
is not in use. -/
theorem evicted_socket_found : ¬ ∀ w, chat.Reachable w → CleanSlots w := by
  intro hclaim
  obtain ⟨w, hw, hq⟩ := System.ReachableIf.exists_of_runLabels (S := chat)
    (C := fun _ _ => True) World.step (fun _ _ _ h => h)
    [.accept 5, .sent 5 .clientNew "bob", .firstPass Env.zeros, .secondPass,
      .accept 5]
    (p := fun w => (w.fds 5).isSome && holder w.server.slots 5 == some 0 &&
      !(w.server.slots 0).valid)
    (s := World.initial 3 4) (.init ⟨3, 4, rfl⟩) (by decide +kernel)
  simp only [Bool.and_eq_true, beq_iff_eq, Bool.not_eq_true'] at hq
  obtain ⟨⟨hopen, hfound⟩, hfree⟩ := hq
  have hused := (hclaim w hw).found 5 hopen 0 hfound
  rw [hfree] at hused
  cases hused

end Sysops.Cw11
