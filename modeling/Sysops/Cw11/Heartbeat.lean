import Sysops.Cw11.History

/-!
# The heartbeat

When the second pass of `check_if_clients_are_alive` removes exactly the
entries that the first pass asked and that did not answer.

The flag is kept in the slot. A registration takes a slot with the flag
its last user left there, and a `CLIENT_ALIVE` clears the flag of the first
slot with its descriptor; the condition below says when neither goes
wrong.
-/

namespace Sysops.Cw11

/-- Asked in the current cycle, and no answer yet. -/
def Pending (o : Option Registration) : Prop :=
  ∃ r, o = some r ∧ r.asked = true ∧ r.answered = false

/-- The second pass, where it can run, removes exactly the valid entries
that were asked and did not answer. -/
def SecondPassExact (p : World × History) : Prop :=
  ∀ w', p.1.step .secondPass = some w' →
    ∀ i, (p.1.server.slots i).valid = true →
      ((w'.server.slots i).valid = false ↔ Pending (p.2 i))

/-- What must hold between the two passes: a slot is taken with its flag
clear, and a `CLIENT_ALIVE` finds, of the entries that are still awaited,
just those its connection registered. -/
def KeepsFlags (p : World × History) : Event → Prop
  | .frame _ fd m =>
      p.1.beat = .second →
      (m.type = MessageType.clientNew.code →
        taken p.1.server.slots m.sender.toList = none →
        ∀ i, freeSlot p.1.server.slots = some i →
          (p.1.server.slots i).awaitingAliveResponse = false) ∧
      (m.type = MessageType.clientAlive.code →
        ∀ i, (p.1.server.slots i).valid = true →
          (p.1.server.slots i).awaitingAliveResponse = true →
          (holder p.1.server.slots fd = some i ↔
            (p.2 i).map Registration.conn = p.1.fds fd))
  | .accept _ | .hangup _ | .firstPass _ | .secondPass => True

instance (p : World × History) : DecidablePred (KeepsFlags p)
  | .frame _ _ _ => inferInstanceAs (Decidable (_ → _ ∧ _))
  | .accept _ | .hangup _ | .firstPass _ | .secondPass =>
      inferInstanceAs (Decidable True)

/-! ## The flags tell what the history tells -/

/-- Between the passes, the flag of a valid entry says that it was asked
and did not answer. -/
def FlagsAgree (p : World × History) : Prop :=
  p.1.beat = .second → p.1.server.locked = false →
    ∀ i, (p.1.server.slots i).valid = true →
      ((p.1.server.slots i).awaitingAliveResponse = true ↔ Pending (p.2 i))

theorem secondPass_of_free {w : World} (hbeat : w.beat = .second)
    (hfree : w.server.locked = false) :
    ∃ w', w.step .secondPass = some w' := by
  have hidle : w.idle.locked = false := hfree
  simp only [World.step, hbeat, if_true,
    World.exec_of_ok (run_checkAliveSecondPass hidle), Option.map_some]
  exact ⟨_, rfl⟩

theorem secondPassExact_iff {p : World × History} :
    SecondPassExact p ↔ FlagsAgree p := by
  constructor
  · intro hexact hbeat hfree i hi
    obtain ⟨w', hstep⟩ := secondPass_of_free hbeat hfree
    have hremoved := hexact w' hstep i hi
    obtain ⟨-, -, calls, -, rfl⟩ := World.step_secondPass hstep
    rw [← hremoved]
    by_cases ha : (p.1.server.slots i).awaitingAliveResponse <;> simp [hi, ha]
  · intro hflags w' hstep i hi
    obtain ⟨hbeat, hfree, calls, -, rfl⟩ := World.step_secondPass hstep
    rw [← hflags hbeat hfree i hi]
    by_cases ha : (p.1.server.slots i).awaitingAliveResponse <;> simp [hi, ha]

section Step

variable {h : History} {w w' : World}

/-- If the slots and the histories of the entries that stay are what they
were, the flags still agree. -/
theorem FlagsAgree.mono {h' : History} (hp : FlagsAgree (w, h))
    (hbeat : w'.beat = w.beat) (hlocked : w'.server.locked = w.server.locked)
    (hkeep : ∀ i, (w'.server.slots i).valid = true →
      w'.server.slots i = w.server.slots i ∧ h' i = h i) :
    FlagsAgree (w', h') := by
  intro hb hl i hi
  obtain ⟨hslot, hrec⟩ := hkeep i hi
  change _ ↔ Pending (h' i)
  rw [hrec, hslot]
  exact hp (hbeat ▸ hb) (hlocked ▸ hl) i (hslot ▸ hi)

/-- An entry that stays, at an event that tells nothing about it. -/
theorem record_same {e : Event} (hc : Consistent (w, h))
    (hobserve : ∀ r : Registration, ∀ fd, r.observe w fd e w' = r)
    {i : Fin maxClients} (hv : (w.server.slots i).valid = true)
    (hv' : (w'.server.slots i).valid = true) : record h w e w' i = h i := by
  obtain ⟨r, hr⟩ := hc.some_of_valid hv
  rw [record_kept hr hv', hobserve, hr]

/-- The first pass makes the flags agree, whatever was before. -/
theorem flagsAgree_firstPass {env : Env} (hc : Consistent (w, h))
    (hstep : w.step (.firstPass env) = some w') :
    FlagsAgree (w', record h w (.firstPass env) w') := by
  obtain ⟨-, -, rfl⟩ := World.step_firstPass hstep
  intro _ _ i hi
  cases hv : (w.server.slots i).valid with
  | false => simp [hv] at hi
  | true =>
      obtain ⟨r, hr⟩ := hc.some_of_valid hv
      refine iff_of_true (by simp [hv]) ⟨_, record_kept hr hi, ?_, rfl⟩
      -- the question sent to this very entry
      simp only [Registration.observe, List.any_eq_true, List.mem_flatMap]
      refine ⟨.send (w.server.slots i).socket
        (env.serverMessage i .serverCheckAlive ""), ⟨i, ?_, ?_⟩, ?_⟩
      · exact List.mem_finRange i
      · simp [hv]
      · simp [Call.asks, Env.serverMessage]

variable {env : Env} {fd : Int} {m : MessageT}

/-- A registration keeps the flags in agreement exactly if the slot it
takes has its flag clear. -/
theorem flagsAgree_registered_iff {i : Fin maxClients} {c : Conn}
    (hc : Consistent (w, h)) (hp : FlagsAgree (w, h))
    (hm : m.type = MessageType.clientNew.code) (hopen : w.fds fd = some c)
    (hfree : (w.server.slots i).valid = false)
    (hunlocked : w.server.locked = false)
    (hslots : w'.server.slots = Function.update w.server.slots i
      { w.server.slots i with valid := true, socket := fd,
                              name := m.sender })
    (hbeat : w'.beat = w.beat) (hlocked : w'.server.locked = w.server.locked) :
    FlagsAgree (w', record h w (.frame env fd m) w') ↔
      (w.beat = .second →
        (w.server.slots i).awaitingAliveResponse = false) := by
  have hi : w'.server.slots i = { w.server.slots i with
      valid := true, socket := fd, name := m.sender } := by
    rw [hslots, Function.update_self]
  have hother : ∀ j, j ≠ i → w'.server.slots j = w.server.slots j := by
    intro j hji
    rw [hslots, Function.update_of_ne hji]
  have hnone : h i = none := hc.none_of_free hfree
  have hnew : record h w (.frame env fd m) w' i =
      some ⟨c, m.sender, false, false⟩ := by
    simp [record, hi, hnone, Event.arrival, hopen]
  have hpending : ¬ Pending (record h w (.frame env fd m) w' i) := by
    rintro ⟨r, hr, hasked, -⟩
    rw [hnew, Option.some.injEq] at hr
    rw [← hr] at hasked
    cases hasked
  constructor
  · intro hp' hb
    have hiff := hp' (hbeat.trans hb) (hlocked.trans hunlocked) i
      (by simp only [hi])
    simp only [hi] at hiff
    rw [iff_false_right hpending] at hiff
    exact Bool.not_eq_true _ ▸ hiff
  · intro hclear hb hl j hj
    by_cases hji : j = i
    · subst hji
      refine iff_of_false ?_ hpending
      simp only [hi]
      rw [hclear (hbeat ▸ hb)]
      decide
    · simp only [hother j hji] at hj ⊢
      have hquiet : m.type ≠ MessageType.clientAlive.code :=
        MessageType.ne_code hm (by decide)
      rw [record_same hc
        (fun r socket => observe_frame_other r w w' socket hquiet) hj
        (by rw [hother j hji]; exact hj)]
      exact hp (hbeat ▸ hb) (hlocked ▸ hl) j hj

/-- A `CLIENT_ALIVE` keeps the flags in agreement exactly if, of the
entries still awaited, it finds just those of its connection. -/
theorem flagsAgree_alive_iff {c : Conn} (hc : Consistent (w, h))
    (hp : FlagsAgree (w, h)) (hm : m.type = MessageType.clientAlive.code)
    (hopen : w.fds fd = some c) (hunlocked : w.server.locked = false)
    (hvalid : ∀ i, (w'.server.slots i).valid = (w.server.slots i).valid)
    (hflag : ∀ i, (w'.server.slots i).awaitingAliveResponse = true ↔
      (w.server.slots i).awaitingAliveResponse = true ∧
        holder w.server.slots fd ≠ some i)
    (hbeat : w'.beat = w.beat) (hlocked : w'.server.locked = w.server.locked) :
    FlagsAgree (w', record h w (.frame env fd m) w') ↔
      (w.beat = .second → ∀ i, (w.server.slots i).valid = true →
        (w.server.slots i).awaitingAliveResponse = true →
        (holder w.server.slots fd = some i ↔
          (h i).map Registration.conn = w.fds fd)) := by
  -- after the frame, what is pending was pending on another connection
  have hpending : ∀ i, (w.server.slots i).valid = true →
      (Pending (record h w (.frame env fd m) w' i) ↔
        Pending (h i) ∧ (h i).map Registration.conn ≠ w.fds fd) := by
    intro i hi
    obtain ⟨r, hr⟩ := hc.some_of_valid hi
    rw [record_kept hr (by rw [hvalid, hi]),
      observe_alive _ _ _ _ hm hopen, hr, hopen]
    by_cases hcr : c = r.conn
    · simp [Pending, hcr]
    · simp [Pending, hcr, Ne.symm hcr]
  constructor
  · intro hp' hb i hi hawait
    have hiff := hp' (hbeat.trans hb) (hlocked.trans hunlocked) i
      (by simp only [hvalid, hi])
    have hbefore := (hp hb hunlocked i hi).mp hawait
    simp only [hflag, hpending i hi] at hiff
    constructor
    · intro hfound
      by_contra hconn
      exact (hiff.mpr ⟨hbefore, hconn⟩).2 hfound
    · intro hconn
      by_contra hfound
      exact (hiff.mp ⟨hawait, hfound⟩).2 hconn
  · intro hfinds hb hl i hi
    have hi : (w.server.slots i).valid = true := (hvalid i).symm.trans hi
    have hbefore := hp (hbeat ▸ hb) hunlocked i hi
    simp only [hflag, hpending i hi]
    constructor
    · rintro ⟨hawait, hfound⟩
      refine ⟨hbefore.mp hawait, ?_⟩
      rw [Ne, ← hfinds (hbeat ▸ hb) i hi hawait]
      exact hfound
    · rintro ⟨hpend, hconn⟩
      have hawait := hbefore.mpr hpend
      refine ⟨hawait, ?_⟩
      rw [Ne, hfinds (hbeat ▸ hb) i hi hawait]
      exact hconn

/-- Handling a `CLIENT_NEW` or a `CLIENT_ALIVE` takes the mutex. -/
theorem free_of_frame
    (hm : m.type = MessageType.clientNew.code ∨
      m.type = MessageType.clientAlive.code)
    (hstep : w.step (.frame env fd m) = some w') :
    w.server.locked = false := by
  simp only [World.step] at hstep
  split at hstep
  · obtain ⟨s, hrun, -⟩ := World.exec_eq_some hstep
    rcases hm with hm | hm <;> simp only [handleClientMessage, hm] at hrun
    · exact free_of_handleNewClient (s := w.idle) hrun
    · exact free_of_handleGotAliveMessage (s := w.idle) hrun
  · cases hstep

theorem keepsFlags_new_iff (hm : m.type = MessageType.clientNew.code) :
    KeepsFlags (w, h) (.frame env fd m) ↔
      (w.beat = .second → taken w.server.slots m.sender.toList = none →
        ∀ i, freeSlot w.server.slots = some i →
          (w.server.slots i).awaitingAliveResponse = false) := by
  constructor
  · intro hkeeps hb
    exact (hkeeps hb).1 hm
  · intro hclear hb
    refine ⟨fun _ => hclear hb, ?_⟩
    intro hm'
    exact absurd hm' (MessageType.ne_code hm (by decide))

theorem keepsFlags_alive_iff (hm : m.type = MessageType.clientAlive.code) :
    KeepsFlags (w, h) (.frame env fd m) ↔
      (w.beat = .second → ∀ i, (w.server.slots i).valid = true →
        (w.server.slots i).awaitingAliveResponse = true →
        (holder w.server.slots fd = some i ↔
          (h i).map Registration.conn = w.fds fd)) := by
  constructor
  · intro hkeeps hb
    exact (hkeeps hb).2 hm
  · intro hfinds hb
    refine ⟨?_, fun _ => hfinds hb⟩
    intro hm'
    exact absurd hm' (MessageType.ne_code hm (by decide))

theorem keepsFlags_other (hnew : m.type ≠ MessageType.clientNew.code)
    (halive : m.type ≠ MessageType.clientAlive.code) :
    KeepsFlags (w, h) (.frame env fd m) := by
  intro _
  exact ⟨fun hm => absurd hm hnew, fun hm => absurd hm halive⟩

/-- A frame that leaves the slots of the entries that stay, and is no
answer. -/
theorem flagsAgree_quiet (hc : Consistent (w, h)) (hp : FlagsAgree (w, h))
    (hm : m.type ≠ MessageType.clientAlive.code) (hbeat : w'.beat = w.beat)
    (hlocked : w'.server.locked = w.server.locked)
    (hkeep : ∀ i, (w'.server.slots i).valid = true →
      w'.server.slots i = w.server.slots i) :
    FlagsAgree (w', record h w (.frame env fd m) w') := by
  refine hp.mono hbeat hlocked ?_
  intro i hi
  have hslot := hkeep i hi
  have hi' : (w.server.slots i).valid = true := hslot ▸ hi
  exact ⟨hslot, record_same hc
    (fun r socket => observe_frame_other r w w' socket hm) hi' hi⟩

/-- A `CLIENT_ALIVE` clears the flag of the entry that is found. -/
theorem Handled.alive_slots {s s' : Server} (hs : Handled env fd m s s')
    (hm : m.type = MessageType.clientAlive.code) (i : Fin maxClients) :
    (s'.slots i).valid = (s.slots i).valid ∧
      ((s'.slots i).awaitingAliveResponse = true ↔
        (s.slots i).awaitingAliveResponse = true ∧
          holder s.slots fd ≠ some i) := by
  cases hs with
  | refused hm' | registered hm' | tableFull hm' | stopped hm' =>
      exact absurd hm (MessageType.ne_code hm' (by decide))
  | @alive k _ hk =>
      rw [hk]
      by_cases hik : i = k
      · subst hik
        simp
      · simp [hik, Ne.symm hik]
  | spoke _ _ halive =>
      rw [halive hm]
      simp

theorem Handled.alive_locked {s s' : Server} (hs : Handled env fd m s s')
    (hm : m.type = MessageType.clientAlive.code) : s'.locked = s.locked := by
  cases hs with
  | refused hm' => exact absurd hm (MessageType.ne_code hm' (by decide))
  | registered | tableFull | stopped | alive | spoke => rfl

theorem flagsAgree_frame_iff (hc : Consistent (w, h))
    (hp : FlagsAgree (w, h)) (hstep : w.step (.frame env fd m) = some w') :
    FlagsAgree (w', record h w (.frame env fd m) w') ↔
      KeepsFlags (w, h) (.frame env fd m) := by
  have hfree := fun hm => free_of_frame hm hstep
  obtain ⟨c, s, hopen, hs, hw'⟩ := World.step_frame hstep
  have hbeat : w'.beat = w.beat := by rw [hw']
  have hserver : w'.server = s := by rw [hw']
  by_cases halive : m.type = MessageType.clientAlive.code
  · have hslots := hs.alive_slots halive
    rw [← hserver] at hs hslots
    rw [keepsFlags_alive_iff halive]
    exact flagsAgree_alive_iff hc hp halive hopen (hfree (.inr halive))
      (fun i => (hslots i).1) (fun i => (hslots i).2) hbeat
      (hs.alive_locked halive)
  cases hs with
  | @refused i hm ht =>
      have ht : taken w.server.slots m.sender.toList = some i := ht
      rw [keepsFlags_new_iff hm, ht]
      refine iff_of_true ?_ (fun _ hnone => nomatch hnone)
      -- from here on the second pass cannot run
      intro _ hl
      rw [hserver] at hl
      cases hl
  | tableFull hm ht hf =>
      have hf : freeSlot w.server.slots = none := hf
      rw [keepsFlags_new_iff hm, hf]
      refine iff_of_true ?_ (fun _ _ i hi => nomatch hi)
      refine flagsAgree_quiet hc hp halive hbeat (by rw [hserver]; rfl) ?_
      intro i _
      rw [hserver]
      rfl
  | @registered i hm ht hf =>
      rw [keepsFlags_new_iff hm, flagsAgree_registered_iff hc hp hm hopen
        (freeSlot_eq_some hf) (hfree (.inl hm)) (by rw [hserver]; rfl) hbeat
        (by rw [hserver]; rfl)]
      constructor
      · intro hclear hb _ j hj
        obtain rfl : j = i := Option.some.inj (hj.symm.trans hf)
        exact hclear hb
      · intro hclear hb
        exact hclear hb ht i hf
  | @stopped k hm ht =>
      refine iff_of_true ?_
        (keepsFlags_other (MessageType.ne_code hm (by decide)) halive)
      refine flagsAgree_quiet hc hp halive hbeat (by rw [hserver]; rfl) ?_
      intro i hi
      have hik : i ≠ k := by
        rintro rfl
        rw [hserver] at hi
        simp at hi
      rw [hserver]
      exact Function.update_of_ne hik _ _
  | alive hm => exact absurd hm halive
  | spoke hnew =>
      refine iff_of_true ?_ (keepsFlags_other hnew halive)
      refine flagsAgree_quiet hc hp halive hbeat (by rw [hserver]; rfl) ?_
      intro i _
      rw [hserver]
      rfl

/-- One event keeps the flags in agreement exactly if it meets the
condition. -/
theorem flagsAgree_step_iff {e : Event} (hc : Consistent (w, h))
    (hp : FlagsAgree (w, h)) (hstep : w.step e = some w') :
    FlagsAgree (w', record h w e w') ↔ KeepsFlags (w, h) e := by
  cases e with
  | frame env fd m => exact flagsAgree_frame_iff hc hp hstep
  | firstPass env =>
      exact iff_of_true (flagsAgree_firstPass hc hstep) trivial
  | secondPass =>
      obtain ⟨-, -, calls, -, rfl⟩ := World.step_secondPass hstep
      exact iff_of_true (fun hb => nomatch hb) trivial
  | accept fd =>
      obtain ⟨-, -, -, -, rfl⟩ := World.step_accept hstep
      refine iff_of_true (hp.mono rfl rfl ?_) trivial
      intro i hi
      exact ⟨rfl, record_same hc (fun _ _ => rfl) hi hi⟩
  | hangup fd =>
      obtain ⟨c, -, rfl⟩ := World.step_hangup hstep
      refine iff_of_true (hp.mono rfl rfl ?_) trivial
      intro i hi
      exact ⟨rfl, record_same hc (fun _ _ => rfl) hi hi⟩

end Step

/-- **The second pass is right in all states of a run exactly if every
step between the two passes meets the condition**: no slot is taken with
its flag set, and no `CLIENT_ALIVE` clears another flag than those of its
connection. -/
theorem heartbeat_exact_iff {w₀ : World} (h₀ : chat.init w₀)
    {tr : List (Event × World × History)}
    (hrun : chatHistory.Run (w₀, fun _ => none) tr) :
    (∀ x ∈ tr, SecondPassExact x.2) ↔
      System.Meets KeepsFlags (w₀, fun _ => none) tr := by
  obtain ⟨serverSocket, epollFd, rfl⟩ := h₀
  simp only [secondPassExact_iff]
  refine hrun.forall_iff_meets (J := Consistent) (P := FlagsAgree) ?_ ?_
    (consistent_initial serverSocket epollFd) (fun hb => nomatch hb)
  · rintro ⟨w, h⟩ e ⟨w', h'⟩ hc ⟨hstep, hrec⟩
    obtain rfl : h' = record h w e w' := hrec
    exact consistent_step hc hstep
  · rintro ⟨w, h⟩ e ⟨w', h'⟩ hc hp ⟨hstep, hrec⟩
    obtain rfl : h' = record h w e w' := hrec
    exact flagsAgree_step_iff hc hp hstep

/-- Two clients of which one answers, and one that registers between the
passes. -/
theorem heartbeat_three_clients :
    ∃ tr : List (Event × World × History), tr.map Prod.fst =
        [.accept 5, .sent 5 .clientNew "bob", .accept 6,
          .sent 6 .clientNew "eve", .firstPass Env.zeros,
          .sent 6 .clientAlive "eve", .accept 7, .sent 7 .clientNew "joe",
          .secondPass] ∧
      ∀ x ∈ tr, SecondPassExact x.2 := by
  obtain ⟨tr, hrun, hmeets, hlabels⟩ :=
    System.Run.exists_of_runLabels (C := KeepsFlags) nextHistory
      nextHistory_step
      [.accept 5, .sent 5 .clientNew "bob", .accept 6,
        .sent 6 .clientNew "eve", .firstPass Env.zeros,
        .sent 6 .clientAlive "eve", .accept 7, .sent 7 .clientNew "joe",
        .secondPass]
      (s := (World.initial 3 4, fun _ => none)) (by decide +kernel)
  refine ⟨tr, hlabels, ?_⟩
  exact (heartbeat_exact_iff ⟨3, 4, rfl⟩ hrun).mpr hmeets

/-- A client that registers between the passes in the slot of one that was
asked and stopped is removed without having been asked. -/
theorem recycled_slot_evicted :
    ∃ p, chatHistory.Reachable p ∧ ¬ SecondPassExact p := by
  obtain ⟨⟨w, h⟩, hp, hq⟩ :=
    System.ReachableIf.exists_of_runLabels (S := chatHistory)
      (C := fun _ _ => True) nextHistory nextHistory_step
      [.accept 5, .sent 5 .clientNew "bob", .firstPass Env.zeros,
        .sent 5 .clientStop "bob", .accept 5, .sent 5 .clientNew "eve"]
      (p := fun p => (p.1.server.slots 0).valid &&
        (p.2 0).map Registration.asked == some false &&
        (p.1.step .secondPass).any fun w' : World =>
          !(w'.server.slots 0).valid)
      (s := (World.initial 3 4, fun _ => none)) (.init ⟨⟨3, 4, rfl⟩, rfl⟩)
      (by decide +kernel)
  simp only [Bool.and_eq_true, beq_iff_eq, Option.any_eq_true,
    Bool.not_eq_true'] at hq
  obtain ⟨⟨hvalid, hnotAsked⟩, w', hstep, hremoved⟩ := hq
  refine ⟨(w, h), hp, ?_⟩
  intro hexact
  obtain ⟨r, hr, hasked, -⟩ := (hexact w' hstep 0 hvalid).mp hremoved
  rw [show h 0 = some r from hr, Option.map_some, Option.some.injEq, hasked]
    at hnotAsked
  cases hnotAsked

end Sysops.Cw11
