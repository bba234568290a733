import Sysops.Cw11.History

/-!
# Table entries and connections

When the socket of a valid entry is the connection on which that entry was
registered, and what a `CLIENT_STOP` or a `CLIENT_ALIVE` may change.

The error branch of `main` closes a descriptor and leaves the table alone,
and a connection may register twice; both are what the conditions below
rule out. A `CLIENT_STOP` finds its entry by the name in the frame, a
`CLIENT_ALIVE` by the descriptor.
-/

namespace Sysops.Cw11

/-! ## Entries and the connections that made them -/

structure Corresponds (p : World × History) : Prop where
  /-- The socket of a valid entry is open, and is the connection on which
  its `CLIENT_NEW` was received. -/
  owned : ∀ i, (p.1.server.slots i).valid = true → ∃ r, p.2 i = some r ∧
    p.1.fds (p.1.server.slots i).socket = some r.conn
  distinct : ∀ i j, (p.1.server.slots i).valid = true →
    (p.1.server.slots j).valid = true →
    (p.1.server.slots i).socket = (p.1.server.slots j).socket → i = j

/-- A message for a name goes to a connection that registered the name. -/
def DeliversToName (p : World × History) : Prop :=
  ∀ env fd m w', m.type = MessageType.clientToOne.code →
    p.1.step (.frame env fd m) = some w' →
    ∀ d msg, Call.send d msg ∈ w'.server.calls →
    ∃ receiver text i r,
      splitToOne env m.message = .ok (some receiver, text) ∧
      p.2 i = some r ∧ strncmp maxClientName r.name.toList receiver = 0 ∧
      p.1.fds d = some r.conn

/-- No valid entry has the socket. -/
def Unused (t : Clients) (fd : Int) : Prop :=
  ∀ i, (t i).valid = true → (t i).socket ≠ fd

instance (t : Clients) : DecidablePred (Unused t) := fun _ =>
  inferInstanceAs (Decidable (∀ _, _))

/-- What an event must not do: close a descriptor in the error branch, or
register it, while a valid entry has it. -/
def LeavesDescriptors (p : World × History) : Event → Prop
  | .hangup fd => Unused p.1.server.slots fd
  | .frame _ fd m =>
      m.type = MessageType.clientNew.code →
      taken p.1.server.slots m.sender.toList = none →
      (freeSlot p.1.server.slots).isSome →
      Unused p.1.server.slots fd
  | .accept _ | .firstPass _ | .secondPass => True

instance (p : World × History) : DecidablePred (LeavesDescriptors p)
  | .hangup fd => inferInstanceAs (Decidable (Unused p.1.server.slots fd))
  | .frame _ fd _ => inferInstanceAs (Decidable (_ → _ → _ →
      Unused p.1.server.slots fd))
  | .accept _ | .firstPass _ | .secondPass =>
      inferInstanceAs (Decidable True)

section Step

variable {h : History} {w w' : World} {e : Event}

/-- Entries that stay keep the correspondence if their descriptors do. -/
theorem Corresponds.mono (hp : Corresponds (w, h))
    (hkeep : ∀ i, (w'.server.slots i).valid = true →
      (w.server.slots i).valid = true ∧
      (w'.server.slots i).socket = (w.server.slots i).socket ∧
      w'.fds (w.server.slots i).socket = w.fds (w.server.slots i).socket) :
    Corresponds (w', record h w e w') := by
  constructor
  · intro i hi
    obtain ⟨hv, hs, hfd⟩ := hkeep i hi
    obtain ⟨r, hr, hopen⟩ := hp.owned i hv
    refine ⟨_, record_kept hr hi, ?_⟩
    show w'.fds (w'.server.slots i).socket = _
    rw [observe_conn, hs, hfd]
    exact hopen
  · intro i j hi hj hij
    obtain ⟨hvi, hsi, -⟩ := hkeep i hi
    obtain ⟨hvj, hsj, -⟩ := hkeep j hj
    refine hp.distinct i j hvi hvj ?_
    rw [← hsi, ← hsj]
    exact hij

theorem corresponds_accept {fd : Int} (hp : Corresponds (w, h))
    (hstep : w.step (.accept fd) = some w') :
    Corresponds (w', record h w (.accept fd) w') := by
  obtain ⟨-, -, -, hnone, rfl⟩ := World.step_accept hstep
  apply hp.mono
  intro i hi
  refine ⟨hi, rfl, ?_⟩
  obtain ⟨r, -, hopen⟩ := hp.owned i hi
  have hne : (w.server.slots i).socket ≠ fd := by
    intro heq
    rw [show w.fds (w.server.slots i).socket = none from heq ▸ hnone] at hopen
    cases hopen
  exact Function.update_of_ne hne _ _

theorem corresponds_hangup_iff {fd : Int} (hp : Corresponds (w, h))
    (hstep : w.step (.hangup fd) = some w') :
    Corresponds (w', record h w (.hangup fd) w') ↔
      Unused w.server.slots fd := by
  obtain ⟨c, -, rfl⟩ := World.step_hangup hstep
  constructor
  · -- an entry with the closed descriptor would own a closed socket
    intro hp' i hi heq
    obtain ⟨r, -, hopen⟩ := hp'.owned i hi
    simp [heq] at hopen
  · intro hunused
    apply hp.mono
    intro i hi
    exact ⟨hi, rfl, Function.update_of_ne (hunused i hi) _ _⟩

theorem corresponds_firstPass {env : Env} (hp : Corresponds (w, h))
    (hstep : w.step (.firstPass env) = some w') :
    Corresponds (w', record h w (.firstPass env) w') := by
  obtain ⟨-, -, rfl⟩ := World.step_firstPass hstep
  apply hp.mono
  intro i hi
  cases hv : (w.server.slots i).valid <;> simp [hv] at hi ⊢

/-- The entries that are left have sockets other than the closed ones. -/
theorem corresponds_secondPass (hp : Corresponds (w, h))
    (hstep : w.step .secondPass = some w') :
    Corresponds (w', record h w .secondPass w') := by
  obtain ⟨-, -, calls, hcalls, rfl⟩ := World.step_secondPass hstep
  apply hp.mono
  intro i hi
  by_cases hgone : (w.server.slots i).valid &&
      (w.server.slots i).awaitingAliveResponse
  · simp [hgone] at hi
  · have hv : (w.server.slots i).valid = true := by simpa [hgone] using hi
    refine ⟨hv, by simp [hgone], ?_⟩
    show closeFds calls w.fds _ = _
    rw [closeFds_apply, if_neg]
    rw [hcalls]
    rintro ⟨k, hvk, hak, hk⟩
    obtain rfl := hp.distinct i k hv hvk (Call.close.inj hk)
    simp [hvk, hak] at hgone

variable {env : Env} {fd : Int} {m : MessageT} {s : Server}

/-- Frames that leave the table as it is and only send. -/
theorem corresponds_sends (hp : Corresponds (w, h)) {s : Server}
    (hslots : s.slots = w.server.slots)
    (hsends : ∀ k ∈ s.calls, ∃ d msg, k = Call.send d msg) :
    Corresponds ({ w with server := s, fds := closeFds s.calls w.fds },
      record h w e { w with server := s, fds := closeFds s.calls w.fds }) := by
  apply hp.mono
  intro i hi
  rw [hslots] at hi ⊢
  exact ⟨hi, rfl, by rw [closeFds_sends hsends]⟩

/-- A registration keeps the correspondence exactly if no valid entry has
the descriptor yet. -/
theorem corresponds_registered_iff {c : Conn} {i : Fin maxClients}
    (hc : Consistent (w, h)) (hp : Corresponds (w, h))
    (hopen : w.fds fd = some c) (hfree : (w.server.slots i).valid = false)
    (hslots : s.slots = Function.update w.server.slots i
      { w.server.slots i with valid := true, socket := fd,
                              name := m.sender })
    (hfds : w'.fds = w.fds) (hserver : w'.server = s) :
    Corresponds (w', record h w (.frame env fd m) w') ↔
      Unused w.server.slots fd := by
  have hi : w'.server.slots i = { w.server.slots i with
      valid := true, socket := fd, name := m.sender } := by
    rw [hserver, hslots, Function.update_self]
  have hother : ∀ j, j ≠ i → w'.server.slots j = w.server.slots j := by
    intro j hji
    rw [hserver, hslots, Function.update_of_ne hji]
  constructor
  · -- two entries with one socket
    intro hp' j hj hfd
    have hji : j ≠ i := by
      rintro rfl
      exact absurd hj (by simp [hfree])
    refine hji (hp'.distinct j i ?_ ?_ ?_)
    · simpa only [hother j hji] using hj
    · simp only [hi]
    · simpa only [hother j hji, hi] using hfd
  · intro hunused
    have hnone : h i = none := hc.none_of_free hfree
    constructor
    · intro j hj
      by_cases hji : j = i
      · subst hji
        exact ⟨⟨c, m.sender, false, false⟩,
          by simp [record, hi, hnone, Event.arrival, hopen],
          by simp [hi, hfds, hopen]⟩
      · simp only [hother j hji] at hj ⊢
        obtain ⟨r, hr, hfd⟩ := hp.owned j hj
        refine ⟨_, record_kept hr (by rw [hother j hji]; exact hj), ?_⟩
        rw [observe_conn, hfds]
        exact hfd
    · intro j k hj hk hjk
      by_cases hji : j = i <;> by_cases hki : k = i
      · rw [hji, hki]
      · subst hji
        simp only [hother k hki, hi] at hk hjk
        exact absurd hjk.symm (hunused k hk)
      · subst hki
        simp only [hother j hji, hi] at hj hjk
        exact absurd hjk (hunused j hj)
      · simp only [hother j hji, hother k hki] at hj hk hjk
        exact hp.distinct j k hj hk hjk

theorem corresponds_frame_iff (hc : Consistent (w, h))
    (hp : Corresponds (w, h))
    (hstep : w.step (.frame env fd m) = some w') :
    Corresponds (w', record h w (.frame env fd m) w') ↔
      LeavesDescriptors (w, h) (.frame env fd m) := by
  obtain ⟨c, s, hopen, hs, rfl⟩ := World.step_frame hstep
  cases hs with
  | refused _ ht =>
      refine iff_of_true (corresponds_sends hp rfl ?_) ?_
      · simp
      · intro _ ht'
        exact absurd (ht.symm.trans ht') (by simp)
  | tableFull _ _ hf =>
      refine iff_of_true (corresponds_sends hp rfl ?_) ?_
      · simp
      · intro _ _ hf'
        exact absurd hf' (by simp [show freeSlot w.server.slots = none from hf])
  | spoke hm _ _ hsends =>
      refine iff_of_true (corresponds_sends hp rfl ?_) fun hm' =>
        absurd hm' hm
      simpa using hsends
  | @registered i hm ht hf =>
      have hfree : (w.server.slots i).valid = false := freeSlot_eq_some hf
      have hsome : (freeSlot w.server.slots).isSome = true :=
        Option.isSome_of_mem hf
      rw [corresponds_registered_iff hc hp hopen hfree rfl
        (closeFds_sends (by simp) _) rfl]
      constructor
      · intro hunused _ _ _
        exact hunused
      · intro hleaves
        exact hleaves hm ht hsome
  | @stopped k hm ht =>
      refine iff_of_true ?_ fun hm' =>
        absurd hm' (MessageType.ne_code hm (by decide))
      obtain ⟨hvk, -⟩ := taken_eq_some ht
      apply hp.mono
      intro i hi
      by_cases hik : i = k
      · subst hik
        simp at hi
      · have hv : (w.server.slots i).valid = true := by simpa [hik] using hi
        refine ⟨hv, by simp [hik], ?_⟩
        refine (closeFds_apply _ _ _).trans (if_neg ?_)
        intro hclosed
        rw [World.idle_calls, List.nil_append] at hclosed
        split at hclosed
        · exact hik (hp.distinct i k hv hvk
            (Call.close.inj (List.mem_singleton.mp hclosed)))
        · cases hclosed
  | @alive k hm hk =>
      refine iff_of_true ?_ fun hm' =>
        absurd hm' (MessageType.ne_code hm (by decide))
      apply hp.mono
      intro i hi
      by_cases hik : i = k
      · subst hik
        exact ⟨by simpa using hi, by simp, rfl⟩
      · exact ⟨by simpa [hik] using hi, by simp [hik], rfl⟩

/-- One event keeps the correspondence exactly if it leaves the
descriptors of valid entries alone. -/
theorem corresponds_step_iff (hc : Consistent (w, h))
    (hp : Corresponds (w, h)) (hstep : w.step e = some w') :
    Corresponds (w', record h w e w') ↔ LeavesDescriptors (w, h) e := by
  cases e with
  | accept fd => exact iff_of_true (corresponds_accept hp hstep) trivial
  | hangup fd => exact corresponds_hangup_iff hp hstep
  | frame env fd m => exact corresponds_frame_iff hc hp hstep
  | firstPass env =>
      exact iff_of_true (corresponds_firstPass hp hstep) trivial
  | secondPass => exact iff_of_true (corresponds_secondPass hp hstep) trivial

end Step

/-- With the correspondence, the name of a receiver leads to a connection
that registered it. -/
theorem Corresponds.delivers {p : World × History} (hc : Consistent p)
    (hp : Corresponds p) : DeliversToName p := by
  intro env fd m w' hm hstep d msg hsend
  simp only [World.step] at hstep
  split at hstep
  · obtain ⟨s, hrun, rfl⟩ := World.exec_eq_some hstep
    simp only [handleClientMessage, hm] at hrun
    obtain ⟨sends, rfl, -, hsends⟩ := handleToOneMessage_ok env hrun
    obtain ⟨receiver, text, i, msg', hsplit, hvalid, hname, hk⟩ :=
      hsends _ hsend
    obtain ⟨rfl, -⟩ := Call.send.inj hk
    obtain ⟨r, hr, hopen⟩ := hp.owned i hvalid
    refine ⟨receiver, text, i, r, hsplit, hr, ?_, hopen⟩
    rw [hc.name i r hr]
    exact beq_iff_eq.mp hname
  · cases hstep

theorem corresponds_initial (serverSocket epollFd : Int) :
    Corresponds (World.initial serverSocket epollFd, fun _ => none) := by
  constructor
  · intro i hi
    cases hi
  · intro i j hi
    cases hi

/-- **Entries and connections correspond in all states of a run exactly
if no step closes in the error branch, or registers again, a descriptor
that a valid entry has.** Messages for a name then go to a connection that
registered it. -/
theorem correspondence_iff {w₀ : World} (h₀ : chat.init w₀)
    {tr : List (Event × World × History)}
    (hrun : chatHistory.Run (w₀, fun _ => none) tr) :
    (∀ x ∈ tr, Corresponds x.2 ∧ DeliversToName x.2) ↔
      System.Meets LeavesDescriptors (w₀, fun _ => none) tr := by
  obtain ⟨serverSocket, epollFd, rfl⟩ := h₀
  have hc₀ := consistent_initial serverSocket epollFd
  have hp₀ := corresponds_initial serverSocket epollFd
  refine hrun.forall_iff_meets (J := Consistent)
    (P := fun p => Corresponds p ∧ DeliversToName p) ?_ ?_ hc₀
    ⟨hp₀, hp₀.delivers hc₀⟩
  · rintro ⟨w, h⟩ e ⟨w', h'⟩ hc ⟨hstep, hrec⟩
    obtain rfl : h' = record h w e w' := hrec
    exact consistent_step hc hstep
  · rintro ⟨w, h⟩ e ⟨w', h'⟩ hc hp ⟨hstep, hrec⟩
    obtain rfl : h' = record h w e w' := hrec
    rw [← corresponds_step_iff hc hp.1 hstep]
    constructor
    · exact And.left
    · intro hp'
      exact ⟨hp', hp'.delivers (consistent_step hc hstep)⟩

/-- Two clients, of which one stops before its descriptor is used again. -/
theorem correspondence_two_clients :
    ∃ tr : List (Event × World × History), tr.map Prod.fst =
        [.accept 5, .sent 5 .clientNew "bob", .accept 6,
          .sent 6 .clientNew "eve", .sent 6 .clientStop "eve", .accept 6,
          .hangup 6] ∧
      ∀ x ∈ tr, Corresponds x.2 ∧ DeliversToName x.2 := by
  obtain ⟨tr, hrun, hmeets, hlabels⟩ :=
    System.Run.exists_of_runLabels (C := LeavesDescriptors) nextHistory
      nextHistory_step
      [.accept 5, .sent 5 .clientNew "bob", .accept 6,
        .sent 6 .clientNew "eve", .sent 6 .clientStop "eve", .accept 6,
        .hangup 6]
      (s := (World.initial 3 4, fun _ => none)) (by decide +kernel)
  refine ⟨tr, hlabels, ?_⟩
  exact (correspondence_iff ⟨3, 4, rfl⟩ hrun).mpr hmeets

/-- After an error on its connection the entry of "bob" stays, and the
next client gets its descriptor. -/
theorem stale_entry_after_hangup :
    ∃ p, chatHistory.Reachable p ∧ ¬ Corresponds p := by
  obtain ⟨⟨w, h⟩, hp, hstale⟩ :=
    System.ReachableIf.exists_of_runLabels (S := chatHistory)
      (C := fun _ _ => True) nextHistory nextHistory_step
      [.accept 5, .sent 5 .clientNew "bob", .hangup 5, .accept 5]
      (p := fun p => (p.1.server.slots 0).valid &&
        (p.2 0).map Registration.conn == some 0 &&
        p.1.fds (p.1.server.slots 0).socket == some 1)
      (s := (World.initial 3 4, fun _ => none)) (.init ⟨⟨3, 4, rfl⟩, rfl⟩)
      (by decide +kernel)
  simp only [Bool.and_eq_true, beq_iff_eq] at hstale
  obtain ⟨⟨hvalid, hconn⟩, hfd⟩ := hstale
  refine ⟨(w, h), hp, ?_⟩
  intro hc
  obtain ⟨r, hr, hopen⟩ := hc.owned 0 hvalid
  rw [show h 0 = some r from hr, Option.map_some, Option.some.injEq] at hconn
  rw [show w.fds (w.server.slots 0).socket = some r.conn from hopen, hconn]
    at hfd
  cases hfd

/-! ## What a connection can end or refresh -/

/-- A frame from the connection `c` on `fd` changes only entries that `c`
registered, and closes only `fd`. -/
structure TouchesOwn (p : World × History) (fd : Int) (c : Conn)
    (w' : World) : Prop where
  entries : ∀ i, w'.server.slots i ≠ p.1.server.slots i →
    (p.2 i).map Registration.conn = some c
  closes : ∀ d, Call.close d ∈ w'.server.calls → d = fd
  /-- Without a registration nothing changes. -/
  nothing : (∀ i, (p.2 i).map Registration.conn ≠ some c) →
    w'.server.slots = p.1.server.slots

/-- The entry that a `CLIENT_STOP` finds by its name, and the one that a
`CLIENT_ALIVE` finds by its descriptor and refreshes, were registered by
the connection the frame came from. -/
structure FindsOwn (p : World × History) (fd : Int) (c : Conn)
    (m : MessageT) : Prop where
  stop : m.type = MessageType.clientStop.code → ∀ i,
    taken p.1.server.slots m.sender.toList = some i →
    (p.2 i).map Registration.conn = some c
  alive : m.type = MessageType.clientAlive.code → ∀ i,
    holder p.1.server.slots fd = some i →
    (p.1.server.slots i).awaitingAliveResponse = true →
    (p.2 i).map Registration.conn = some c

section Own

variable {h : History} {w w' : World} {env : Env} {fd : Int} {c : Conn}
  {m : MessageT}

/-- If only entries of the connection change, nothing changes without
one. -/
theorem TouchesOwn.of_entries
    (hentries : ∀ i, w'.server.slots i ≠ w.server.slots i →
      (h i).map Registration.conn = some c)
    (hcloses : ∀ d, Call.close d ∈ w'.server.calls → d = fd) :
    TouchesOwn (w, h) fd c w' := by
  refine ⟨hentries, hcloses, ?_⟩
  intro hnone
  funext i
  by_contra hne
  exact hnone i (hentries i hne)

/-- Only the entry `k` changes. -/
theorem touchesOwn_update_iff {k : Fin maxClients} {a : ClientT}
    (hslots : w'.server.slots = Function.update w.server.slots k a)
    (hcloses : (h k).map Registration.conn = some c →
      ∀ d, Call.close d ∈ w'.server.calls → d = fd)
    (hsame : a = w.server.slots k → ∀ d, Call.close d ∉ w'.server.calls) :
    TouchesOwn (w, h) fd c w' ↔
      (a ≠ w.server.slots k → (h k).map Registration.conn = some c) := by
  constructor
  · intro howns hne
    refine howns.entries k ?_
    rw [hslots, Function.update_self]
    exact hne
  · intro hown
    apply TouchesOwn.of_entries
    · intro i hi
      rw [hslots] at hi
      by_cases hik : i = k
      · subst hik
        rw [Function.update_self] at hi
        exact hown hi
      · rw [Function.update_of_ne hik] at hi
        exact absurd rfl hi
    · intro d hd
      by_cases heq : a = w.server.slots k
      · exact absurd hd (hsame heq d)
      · exact hcloses (hown heq) d hd

theorem findsOwn_stop_iff (hm : m.type = MessageType.clientStop.code) :
    FindsOwn (w, h) fd c m ↔ ∀ i,
      taken w.server.slots m.sender.toList = some i →
      (h i).map Registration.conn = some c := by
  constructor
  · intro hfinds
    exact hfinds.stop hm
  · intro hstop
    refine ⟨fun _ => hstop, ?_⟩
    intro hm'
    exact absurd hm' (MessageType.ne_code hm (by decide))

theorem findsOwn_alive_iff (hm : m.type = MessageType.clientAlive.code) :
    FindsOwn (w, h) fd c m ↔ ∀ i, holder w.server.slots fd = some i →
      (w.server.slots i).awaitingAliveResponse = true →
      (h i).map Registration.conn = some c := by
  constructor
  · intro hfinds
    exact hfinds.alive hm
  · intro halive
    refine ⟨?_, fun _ => halive⟩
    intro hm'
    exact absurd hm' (MessageType.ne_code hm (by decide))

/-- **What a `CLIENT_STOP` or a `CLIENT_ALIVE` may change**: in every
reachable state, such a frame touches only what its own connection
registered exactly if the entry it finds is one of these. -/
theorem touchesOwn_iff (hreach : chatHistory.Reachable (w, h))
    (hopen : w.fds fd = some c)
    (hm : m.type = MessageType.clientStop.code ∨
      m.type = MessageType.clientAlive.code)
    (hstep : w.step (.frame env fd m) = some w') :
    TouchesOwn (w, h) fd c w' ↔ FindsOwn (w, h) fd c m := by
  have hc := consistent_of_reachable hreach
  obtain ⟨c', s, hopen', hs, rfl⟩ := World.step_frame hstep
  have hnew : m.type ≠ MessageType.clientNew.code := by
    rcases hm with hm | hm <;> rw [hm] <;> decide
  cases hs with
  | refused hm' | registered hm' | tableFull hm' => exact absurd hm' hnew
  | spoke _ hstop halive hsends =>
      -- nothing was found
      refine iff_of_true (.of_entries ?_ ?_) ⟨?_, ?_⟩
      · intro i hi
        exact absurd rfl hi
      · intro d hd
        obtain ⟨_, _, hk⟩ := hsends _ hd
        cases hk
      · intro hm' i hi
        exact absurd (hi.symm.trans (hstop hm')) (by simp)
      · intro hm' i hi
        exact absurd (hi.symm.trans (halive hm')) (by simp)
  | @stopped k hm' ht =>
      -- the entry that is found always changes
      have hne : ∀ a : ClientT, a.valid = false → a ≠ w.server.slots k := by
        rintro a ha rfl
        exact absurd (taken_eq_some ht).1 (by simp [ha])
      rw [findsOwn_stop_iff hm', touchesOwn_update_iff (k := k) rfl]
      · constructor
        · intro hown i hi
          obtain rfl : i = k := Option.some.inj (hi.symm.trans ht)
          exact hown (hne _ rfl)
        · intro hfinds _
          exact hfinds k ht
      · -- the socket of an entry of the connection is its descriptor
        intro hown d hd
        obtain ⟨r, hr, rfl⟩ := Option.map_eq_some_iff.mp hown
        rw [World.idle_calls, List.nil_append] at hd
        split at hd
        · rw [List.mem_singleton, Call.close.injEq] at hd
          rw [hd]
          exact (hc.home k r hr fd hopen).symm
        · cases hd
      · intro heq
        exact absurd heq (hne _ rfl)
  | @alive k hm' hk =>
      rw [findsOwn_alive_iff hm', touchesOwn_update_iff (k := k) rfl]
      · constructor
        · intro hown i hi hawait
          obtain rfl : i = k := Option.some.inj (hi.symm.trans hk)
          refine hown ?_
          intro heq
          rw [← heq] at hawait
          cases hawait
        · intro hfinds hne
          refine hfinds k hk ?_
          by_contra hawait
          apply hne
          rw [Bool.not_eq_true] at hawait
          rw [← hawait]
          rfl
      · intro _ d hd
        cases hd
      · intro _ d hd
        cases hd

end Own

/-- A client stops and closes its own connection. -/
theorem touchesOwn_own_stop : ∃ w h w',
    chatHistory.Reachable (w, h) ∧ w.fds 5 = some 0 ∧
    w.step (.sent 5 .clientStop "bob") = some w' ∧
    TouchesOwn (w, h) 5 0 w' := by
  obtain ⟨⟨w, h⟩, hp, hq⟩ :=
    System.ReachableIf.exists_of_runLabels (S := chatHistory)
      (C := fun _ _ => True) nextHistory nextHistory_step
      [.accept 5, .sent 5 .clientNew "bob"]
      (p := fun p => p.1.fds 5 == some 0 &&
        taken p.1.server.slots (frameFrom .clientStop "bob").sender.toList
          == some 0 &&
        (p.2 0).map Registration.conn == some 0 &&
        (p.1.step (.sent 5 .clientStop "bob")).isSome)
      (s := (World.initial 3 4, fun _ => none)) (.init ⟨⟨3, 4, rfl⟩, rfl⟩)
      (by decide +kernel)
  simp only [Bool.and_eq_true, beq_iff_eq] at hq
  obtain ⟨⟨⟨hopen, ht⟩, hconn⟩, hsome⟩ := hq
  obtain ⟨w', hstep⟩ := Option.isSome_iff_exists.mp hsome
  refine ⟨w, h, w', hp, hopen, hstep, ?_⟩
  refine (touchesOwn_iff hp hopen (.inl rfl) hstep).mpr ⟨?_, ?_⟩
  · intro _ i hi
    obtain rfl : i = 0 := Option.some.inj (hi.symm.trans ht)
    exact hconn
  · intro hm
    exact absurd hm (by decide)

/-- A second client that is interrupted between `connect` and its
`CLIENT_NEW` sends the `CLIENT_STOP` of its handler, and disconnects the
client that has the name. -/
theorem interrupted_client_stops_other : ∃ w h w',
    chatHistory.Reachable (w, h) ∧ w.fds 6 = some 1 ∧
    w.step (.sent 6 .clientStop "bob") = some w' ∧
    ¬ TouchesOwn (w, h) 6 1 w' := by
  obtain ⟨⟨w, h⟩, hp, hq⟩ :=
    System.ReachableIf.exists_of_runLabels (S := chatHistory)
      (C := fun _ _ => True) nextHistory nextHistory_step
      [.accept 5, .sent 5 .clientNew "bob", .accept 6]
      (p := fun p => p.1.fds 6 == some 1 &&
        (p.1.step (.sent 6 .clientStop "bob")).any fun w' : World =>
          w'.server.calls.contains (Call.close 5))
      (s := (World.initial 3 4, fun _ => none)) (.init ⟨⟨3, 4, rfl⟩, rfl⟩)
      (by decide +kernel)
  rw [Bool.and_eq_true, beq_iff_eq, Option.any_eq_true] at hq
  obtain ⟨hopen, w', hstep, hclose⟩ := hq
  refine ⟨w, h, w', hp, hopen, hstep, ?_⟩
  intro howns
  have h56 : (5 : Int) = 6 := howns.closes 5 (List.contains_iff_mem.mp hclose)
  exact absurd h56 (by decide)

end Sysops.Cw11
