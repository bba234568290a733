import Sysops.Cw11.Conversations

/-!
# Who is in the room

In a run where the server receives what was sent, and where no hangup closes
the descriptor of an entry, the valid entries are clients: each has the name
and the connection of a client that asked for a name, and no client has
two.
-/

namespace Sysops.Cw11

/-! ## Orderly runs -/

namespace ChatRoom

/-- The server receives the next frame of the client, and does not hang up
on an entry of its table. -/
def Orderly (host : ByteOrder) (hosts : Conn → ByteOrder) (s : ChatRoom) :
    RoomEvent → Prop
  | .server (.receive _ fd m) => ∀ c ∈ s.server.fds fd,
      (s.toServer c).map (carried (hosts c) host) = some m
  | .server (.hangup fd) => ∀ i, (s.server.server.slots i).valid = true →
      (s.server.server.slots i).socket ≠ fd
  | _ => True

instance (host : ByteOrder) (hosts : Conn → ByteOrder) (s : ChatRoom) :
    DecidablePred (s.Orderly host hosts)
  | .server (.receive _ _ _) => inferInstanceAs (Decidable (∀ _ ∈ _, _))
  | .server (.hangup _) => inferInstanceAs (Decidable (∀ _, _))
  | .server (.accept _) | .server .locked | .server .call
  | .server (.firstPass _) | .server .secondPass | .sigint _
  | .client _ _ => inferInstanceAs (Decidable True)

/-- The client of the connection has asked for a name. -/
def Asked (s : ChatRoom) (c : Conn) : Prop :=
  ∃ m ∈ framesFrom (s.server.log c), m.type = MessageType.clientNew.code

/-- The descriptor and the name are those of a client. -/
def Owned (s : ChatRoom) (fd : Int) (name : Bytes maxClientName) : Prop :=
  ∃ c, s.server.fds fd = some c ∧ name.toList = (s.client c).signature ∧
    s.Asked c

end ChatRoom

/-- What the clients have said, and what of it has come to the server. -/
structure Spoken (host : ByteOrder) (hosts : Conn → ByteOrder)
    (s : ChatRoom) : Prop where
  asksOnce : ∀ c, (s.client c).sent.countP (·.is .clientNew) ≤
    if (s.client c).main = .register then 0 else 1
  signs : ∀ c, ∀ m ∈ (s.client c).sent, (s.client c).Signs m
  /-- The text of a private message has an end. -/
  ends : ∀ c, ∀ m ∈ (s.client c).sent,
    m.type = MessageType.clientToOne.code → 0 ∈ m.message.toList
  received : ∀ c, framesFrom (s.server.log c) <+:
    (s.client c).sent.map (carried (hosts c) host)

/-- The valid entries are clients, and different ones. -/
structure Seated (s : ChatRoom) : Prop where
  fresh : ∀ fd c, s.server.fds fd = some c → c < s.server.accepted
  injective : ∀ d d' c, s.server.fds d = some c → s.server.fds d' = some c →
    d = d'
  names : UniqueNames s.server.server.slots
  owned : ∀ i, (s.server.server.slots i).valid = true →
    s.Owned (s.server.server.slots i).socket (s.server.server.slots i).name
  alone : ∀ i j, (s.server.server.slots i).valid = true →
    (s.server.server.slots j).valid = true →
    (s.server.server.slots i).socket = (s.server.server.slots j).socket →
    i = j
  /-- Who is about to be registered is not in the table. -/
  asking : ∀ env fd m, s.server.main = .received env fd m →
    m.type = MessageType.clientNew.code → s.Owned fd m.sender ∧
      ∀ i, (s.server.server.slots i).valid = true →
        (s.server.server.slots i).socket ≠ fd
  /-- And neither is the descriptor that is about to be closed. -/
  closing : ∀ fd, Call.close fd ∈ s.server.main.pending →
    ∀ i, (s.server.server.slots i).valid = true →
      (s.server.server.slots i).socket ≠ fd

/-! ## What the clients say -/

section Said

variable {host : ByteOrder} {hosts : Conn → ByteOrder} {s t : ChatRoom}

theorem Client.Acted.adds {c d : Client} {a : ClientAction}
    (h : c.Acted a d) : d.user = c.user ∧ ∃ ms, d.sent = c.sent ++ ms ∧
      ∀ m ∈ ms, c.Signs m ∧
        (m.type = MessageType.clientToOne.code → 0 ∈ m.message.toList) := by
  have hone : ∀ {m : MessageT} {type : MessageType}, m.type = type.code →
      type ≠ .clientToOne → c.Signs m → ∀ x ∈ [m], c.Signs x ∧
        (x.type = MessageType.clientToOne.code → 0 ∈ x.message.toList) := by
    intro m type hm hne hsigned x hx
    obtain rfl := List.mem_singleton.mp hx
    exact ⟨hsigned, fun hx => absurd hx (MessageType.ne_code hm hne)⟩
  cases h with
  | registers _ hm hsigned | stops _ hm hsigned | answers _ hm hsigned
  | leaves _ hm hsigned | listenerLeaves _ hm hsigned =>
      exact ⟨rfl, _, rfl, hone hm (by decide) hsigned⟩
  | commands _ _ hends hsigned =>
      refine ⟨rfl, _, rfl, ?_⟩
      intro x hx
      obtain rfl := List.mem_singleton.mp hx
      refine ⟨hsigned, fun hx => hends ?_⟩
      exact MessageType.ne_code hx (by decide)
  | registered | fails | unknown | listens | receiveFails | interrupted
  | listenerInterrupted | ends =>
      exact ⟨rfl, [], (List.append_nil _).symm, nofun⟩

theorem Client.Signs.of_user {c d : Client} (h : d.user = c.user)
    {m : MessageT} (hm : c.Signs m) : d.Signs m := by
  rw [Client.Signs, Client.signature, h]
  exact hm

theorem Spoken.step {e : RoomEvent} (hs : Spoken host hosts s)
    (horderly : s.Orderly host hosts e) (h : s.Stepped e t) :
    Spoken host hosts t := by
  cases h with
  | @server e u hrunning htook =>
      refine ⟨hs.asksOnce, hs.signs, hs.ends, fun c => ?_⟩
      rcases htook.received c with heq | ⟨env, fd, m, rfl, hfd, heq⟩
      · show framesFrom (u.log c) <+: _
        rw [heq]
        exact hs.received c
      · obtain ⟨x, hx, rfl⟩ := Option.map_eq_some_iff.mp (horderly c hfd)
        show framesFrom (u.log c) <+: _
        rw [heq]
        exact next_received (hs.received c) hx
  | @sigint env hrunning =>
      refine ⟨hs.asksOnce, hs.signs, hs.ends, fun c => ?_⟩
      show framesFrom (s.server.log c ++ itemsTo c s.server.fds _) <+: _
      rw [framesFrom_append, framesFrom_itemsTo, List.append_nil]
      exact hs.received c
  | @client c a x hended hacted =>
      obtain ⟨huser, ms, hsent, hms⟩ := hacted.adds
      refine ⟨fun d => ?_, fun d => ?_, fun d => ?_, fun d => ?_⟩ <;>
        by_cases hdc : d = c
      · subst hdc
        simp only [Function.update_self]
        exact hacted.asksOnce (hs.asksOnce d)
      · simp only [Function.update_of_ne hdc]
        exact hs.asksOnce d
      · subst hdc
        simp only [Function.update_self]
        intro m hm
        rw [hsent, List.mem_append] at hm
        refine Client.Signs.of_user huser ?_
        exact hm.elim (hs.signs d m) fun hm => (hms m hm).1
      · simp only [Function.update_of_ne hdc]
        exact hs.signs d
      · subst hdc
        simp only [Function.update_self]
        intro m hm
        rw [hsent, List.mem_append] at hm
        exact hm.elim (hs.ends d m) fun hm => (hms m hm).2
      · simp only [Function.update_of_ne hdc]
        exact hs.ends d
      · subst hdc
        simp only [Function.update_self, hsent, List.map_append]
        exact (hs.received d).trans (List.prefix_append _ _)
      · simp only [Function.update_of_ne hdc]
        exact hs.received d

/-- Who has asked is not asking again. -/
theorem Spoken.not_asking {c : Conn} {m : MessageT}
    (hs : Spoken host hosts s) (hasked : s.Asked c)
    (hnext : (s.toServer c).map (carried (hosts c) host) = some m) :
    m.type ≠ MessageType.clientNew.code := by
  intro hm
  obtain ⟨x, hx, rfl⟩ := Option.map_eq_some_iff.mp hnext
  obtain ⟨first, hfirst, htype⟩ := hasked
  have hsent := countP_received_le (next_received (hs.received c) hx)
    .clientNew
  have hone : 0 < (framesFrom (s.server.log c)).countP (·.is .clientNew) :=
    List.countP_pos_iff.mpr ⟨first, hfirst, MessageT.is_iff.mpr htype⟩
  rw [List.countP_append, List.countP_singleton, MessageT.is_iff.mpr hm,
    if_pos rfl] at hsent
  have hasks := hs.asksOnce c
  split at hasks <;> omega

end Said

/-! ## The table -/

section Table

variable {host : ByteOrder} {hosts : Conn → ByteOrder} {s t : ChatRoom}
  {env : Env} {fd : Int} {m : MessageT} {u : Server} {ks : List Call}

theorem ChatRoom.Owned.mono {name : Bytes maxClientName}
    (h : s.Owned fd name) (hopen : t.server.fds fd = s.server.fds fd)
    (hclient : ∀ c, (t.client c).signature = (s.client c).signature)
    (hasked : ∀ c, s.Asked c → t.Asked c) : t.Owned fd name := by
  obtain ⟨c, hfd, hname, hc⟩ := h
  exact ⟨c, hopen.trans hfd, by rw [hname, hclient], hasked c hc⟩

/-- A step that registers nobody and opens nothing. -/
theorem Seated.keep (hs : Seated s)
    (hclient : ∀ c, (t.client c).signature = (s.client c).signature)
    (hasked : ∀ c, s.Asked c → t.Asked c)
    (haccepted : t.server.accepted = s.server.accepted)
    (hle : ∀ d c, t.server.fds d = some c → s.server.fds d = some c)
    (hsub : ∀ i, (t.server.server.slots i).valid = true →
      (s.server.server.slots i).valid = true ∧
      (t.server.server.slots i).socket = (s.server.server.slots i).socket ∧
      (t.server.server.slots i).name = (s.server.server.slots i).name)
    (hopen : ∀ i, (t.server.server.slots i).valid = true →
      t.server.fds (t.server.server.slots i).socket =
        s.server.fds (t.server.server.slots i).socket)
    (hasking : ∀ env fd m, t.server.main = .received env fd m →
      m.type = MessageType.clientNew.code → t.Owned fd m.sender ∧
        ∀ i, (t.server.server.slots i).valid = true →
          (t.server.server.slots i).socket ≠ fd)
    (hclosing : ∀ fd, Call.close fd ∈ t.server.main.pending →
      ∀ i, (t.server.server.slots i).valid = true →
        (t.server.server.slots i).socket ≠ fd) : Seated t := by
  refine ⟨?_, ?_, ?_, ?_, ?_, hasking, hclosing⟩
  · intro fd c hfd
    rw [haccepted]
    exact hs.fresh fd c (hle fd c hfd)
  · intro d d' c hd hd'
    exact hs.injective d d' c (hle d c hd) (hle d' c hd')
  · exact hs.names.mono fun i hi => ⟨(hsub i hi).1, (hsub i hi).2.2⟩
  · intro i hi
    obtain ⟨hvalid, hsocket, hname⟩ := hsub i hi
    have howned := (hs.owned i hvalid)
    rw [← hsocket, ← hname] at howned
    exact howned.mono (hopen i hi) hclient hasked
  · intro i j hi hj hij
    obtain ⟨hvi, hsi, -⟩ := hsub i hi
    obtain ⟨hvj, hsj, -⟩ := hsub j hj
    rw [hsi, hsj] at hij
    exact hs.alone i j hvi hvj hij

/-- No critical section closes a descriptor or sends to itself. -/
theorem Locked.fds_eq (h : Locked env fd m s.server.idle u ks) :
    closeFds u.calls s.server.fds = s.server.fds := by
  refine closeFds_sends (fun k hk => ?_) _
  obtain ⟨d, msg, hk, -⟩ := h.chats rfl k hk
  exact ⟨d, msg, hk⟩

/-- The logs grow. -/
theorem ChatRoom.Asked.append {c : Conn} {log : Conn → List Item}
    (h : s.Asked c) (hlog : ∃ rest, framesFrom (log c) =
      framesFrom (s.server.log c) ++ rest) :
    ∃ m ∈ framesFrom (log c), m.type = MessageType.clientNew.code := by
  obtain ⟨rest, hrest⟩ := hlog
  obtain ⟨m, hm, htype⟩ := h
  exact ⟨m, by rw [hrest]; exact List.mem_append_left _ hm, htype⟩

/-- A client that is in no entry gets one, under a name that is not taken. -/
theorem Seated.register (hs : Seated s) {i : Fin maxClients} {x : ClientT}
    (hslots : t.server.server.slots =
      Function.update s.server.server.slots i x)
    (howned : s.Owned x.socket x.name)
    (hfree : ∀ j, (s.server.server.slots j).valid = true →
      (s.server.server.slots j).socket ≠ x.socket)
    (hname : taken s.server.server.slots x.name.toList = none)
    (hfds : t.server.fds = s.server.fds)
    (haccepted : t.server.accepted = s.server.accepted)
    (hsign : ∀ c, (t.client c).signature = (s.client c).signature)
    (hasked : ∀ c, s.Asked c → t.Asked c)
    (hmain : ∀ env fd m, t.server.main ≠ .received env fd m)
    (hcloses : ∀ fd, Call.close fd ∉ t.server.main.pending) : Seated t := by
  refine ⟨?_, ?_, ?_, ?_, ?_, fun env fd m h => absurd h (hmain env fd m),
    fun fd hfd => absurd hfd (hcloses fd)⟩
  · rw [hfds, haccepted]
    exact hs.fresh
  · rw [hfds]
    exact hs.injective
  · rw [hslots]
    exact hs.names.update hname
  · intro j hj
    rw [hslots] at hj ⊢
    by_cases hji : j = i
    · subst hji
      rw [Function.update_self]
      exact howned.mono (congrFun hfds _) hsign hasked
    · rw [Function.update_of_ne hji] at hj ⊢
      exact (hs.owned j hj).mono (congrFun hfds _) hsign hasked
  · intro j k hj hk hjk
    rw [hslots] at hj hk hjk
    by_cases hji : j = i <;> by_cases hki : k = i
    · exact hji.trans hki.symm
    · subst hji
      rw [Function.update_self, Function.update_of_ne hki] at hjk
      rw [Function.update_of_ne hki] at hk
      exact absurd hjk.symm (hfree k hk)
    · subst hki
      rw [Function.update_self, Function.update_of_ne hji] at hjk
      rw [Function.update_of_ne hji] at hj
      exact absurd hjk (hfree j hj)
    · rw [Function.update_of_ne hji] at hj hjk
      rw [Function.update_of_ne hki] at hk hjk
      exact hs.alone j k hj hk hjk

/-- The critical section of a handler. -/
theorem Seated.locked (hs : Seated s)
    (hmain : s.server.main = .received env fd m)
    (hlocked : Locked env fd m s.server.idle u ks)
    (hserver : t.server = { s.server with
      server := u
      fds := closeFds u.calls s.server.fds
      main := Main.calls ks
      log := fun c => s.server.log c ++ itemsTo c s.server.fds u.calls })
    (hclient : t.client = s.client) : Seated t := by
  have hfds : t.server.fds = s.server.fds := by
    rw [hserver]
    exact hlocked.fds_eq
  have hslots : t.server.server.slots = u.slots := by rw [hserver]
  have hcalls : t.server.main = Main.calls ks := by rw [hserver]
  have hasked : ∀ c, s.Asked c → t.Asked c := by
    intro c hc
    refine hc.append ⟨[], ?_⟩
    rw [hserver]
    simp
  have hsign : ∀ c, (t.client c).signature = (s.client c).signature := by
    intro c
    rw [hclient]
  have haccepted : t.server.accepted = s.server.accepted := by rw [hserver]
  have hnone : ∀ env fd m, t.server.main ≠ .received env fd m := by
    intro env fd m h
    rw [hcalls] at h
    cases ks <;> cases h
  -- the sections that register nobody
  have hkeep : (∀ i, (u.slots i).valid = true →
        (s.server.server.slots i).valid = true ∧
        (u.slots i).socket = (s.server.server.slots i).socket ∧
        (u.slots i).name = (s.server.server.slots i).name) →
      (∀ fd, Call.close fd ∈ ks → ∀ i, (u.slots i).valid = true →
        (u.slots i).socket ≠ fd) → Seated t := by
    intro hsub hclosing
    refine hs.keep hsign hasked haccepted (fun d c hd => hfds ▸ hd) ?_ ?_
      (fun env fd m h => absurd h (hnone env fd m)) ?_
    · rw [hslots]
      exact hsub
    · intro i _
      rw [hfds]
    · rw [hcalls, Main.pending_calls, hslots]
      exact hclosing
  cases hlocked
  case refused | tableFull | notFound | toAll | toOne | list | nothing =>
      exact hkeep (fun i hi => ⟨hi, rfl, rfl⟩) (by simp)
  case stopped i _ ht =>
      dsimp only at hkeep
      obtain ⟨hvi, -⟩ := taken_eq_some ht
      have hother : ∀ j, (Function.update s.server.idle.slots i
          { s.server.idle.slots i with
            valid := false
            name := clearName (s.server.idle.slots i).name
            socket := -1 } j).valid = true → j ≠ i := by
        rintro j hj rfl
        simp at hj
      refine hkeep (fun j hj => ?_) (fun d hd j hj => ?_)
      · have hne := hother j hj
        rw [Function.update_of_ne hne] at hj ⊢
        exact ⟨hj, rfl, rfl⟩
      · have hne := hother j hj
        rw [Function.update_of_ne hne] at hj ⊢
        split at hd
        · obtain rfl := Call.close.inj (List.mem_singleton.mp hd)
          exact fun hij => hne (hs.alone j i hj hvi hij)
        · cases hd
  case alive i _ =>
      dsimp only at hkeep
      refine hkeep (fun j hj => ?_) (by simp)
      by_cases hji : j = i
      · subst hji
        rw [Function.update_self] at hj ⊢
        exact ⟨hj, rfl, rfl⟩
      · rw [Function.update_of_ne hji] at hj ⊢
        exact ⟨hj, rfl, rfl⟩
  case registered i reply hm ht hf _ =>
      dsimp only at hslots
      obtain ⟨howned, hfree⟩ := hs.asking env fd m hmain hm
      refine hs.register hslots howned hfree ht hfds haccepted hsign hasked
        hnone fun fd hfd => ?_
      rw [hcalls, Main.pending_calls] at hfd
      simp at hfd

/-- A new descriptor, for a connection that nobody has had. -/
theorem Seated.accept (hs : Seated s) (hmain : s.server.main = .idle)
    (hnone : s.server.fds fd = none) :
    Seated { s with server := { s.server with
      server := { s.server.server with calls := [] }
      fds := Function.update s.server.fds fd (some s.server.accepted)
      accepted := s.server.accepted + 1 } } := by
  have hother : ∀ d c, s.server.fds d = some c →
      Function.update s.server.fds fd (some s.server.accepted) d =
        some c := by
    intro d c hd
    rw [Function.update_of_ne, hd]
    rintro rfl
    rw [hnone] at hd
    cases hd
  refine ⟨?_, ?_, hs.names, ?_, hs.alone, ?_, ?_⟩
  · intro d c hd
    have hd : Function.update s.server.fds fd (some s.server.accepted) d =
      some c := hd
    by_cases hdf : d = fd
    · rw [hdf, Function.update_self, Option.some.injEq] at hd
      exact hd ▸ Nat.lt_succ_self _
    · rw [Function.update_of_ne hdf] at hd
      exact Nat.lt_succ_of_lt (hs.fresh d c hd)
  · intro d d' c hd hd'
    have hd : Function.update s.server.fds fd (some s.server.accepted) d =
      some c := hd
    have hd' : Function.update s.server.fds fd (some s.server.accepted) d' =
      some c := hd'
    by_cases hdf : d = fd <;> by_cases hdf' : d' = fd
    · exact hdf.trans hdf'.symm
    · rw [hdf, Function.update_self, Option.some.injEq] at hd
      rw [Function.update_of_ne hdf'] at hd'
      exact absurd (hs.fresh d' c hd') (hd ▸ Nat.lt_irrefl _)
    · rw [hdf', Function.update_self, Option.some.injEq] at hd'
      rw [Function.update_of_ne hdf] at hd
      exact absurd (hs.fresh d c hd) (hd' ▸ Nat.lt_irrefl _)
    · rw [Function.update_of_ne hdf] at hd
      rw [Function.update_of_ne hdf'] at hd'
      exact hs.injective d d' c hd hd'
  · intro i hi
    obtain ⟨c, hfd, howned⟩ := hs.owned i hi
    exact ⟨c, hother _ c hfd, howned⟩
  · intro env d m h
    have h : s.server.main = .received env d m := h
    rw [hmain] at h
    cases h
  · intro d hd
    have hd : Call.close d ∈ s.server.main.pending := hd
    rw [hmain] at hd
    cases hd

/-- A connection that ends is in no entry: its client has left the table
before, or never was in it. -/
theorem Seated.hangup (hs : Seated s) (hmain : s.server.main = .idle)
    (hgone : ∀ i, (s.server.server.slots i).valid = true →
      (s.server.server.slots i).socket ≠ fd) :
    Seated { s with server := { s.server with
      server := { s.server.server with calls := [.close fd] }
      fds := Function.update s.server.fds fd none } } := by
  refine hs.keep (fun _ => rfl) (fun _ h => h) rfl
    (fun d c => of_update_none) (fun i hi => ⟨hi, rfl, rfl⟩) ?_ ?_ ?_
  · intro i hi
    exact Function.update_of_ne (hgone i hi) _ _
  · intro env d m h
    have h : s.server.main = .received env d m := h
    rw [hmain] at h
    cases h
  · intro d hd
    have hd : Call.close d ∈ s.server.main.pending := hd
    rw [hmain] at hd
    cases hd

/-- A frame is read. If it asks for an entry, its client is in none. -/
theorem Seated.receive {c : Conn} (hspoken : Spoken host hosts s)
    (hs : Seated s) (hc : s.server.fds fd = some c)
    (hnext : (s.toServer c).map (carried (hosts c) host) = some m) :
    Seated { s with server := { s.server with
      main := .received env fd m
      log := Function.update s.server.log c
        (s.server.log c ++ [.received m]) } } := by
  have hasked : ∀ d, s.Asked d → ∃ m' ∈ framesFrom (Function.update
      s.server.log c (s.server.log c ++ [.received m]) d),
      m'.type = MessageType.clientNew.code := by
    intro d hd
    refine hd.append ?_
    by_cases hdc : d = c
    · subst hdc
      exact ⟨[m], by simp⟩
    · exact ⟨[], by simp [Function.update_of_ne hdc]⟩
  refine hs.keep (fun _ => rfl) hasked rfl (fun _ _ h => h)
    (fun i hi => ⟨hi, rfl, rfl⟩) (fun _ _ => rfl) ?_ (by
      intro d hd
      cases hd)
  intro env' fd' m' h hm
  obtain ⟨rfl, rfl, rfl⟩ := Main.received.inj h
  obtain ⟨x, hx, hmx⟩ := Option.map_eq_some_iff.mp hnext
  refine ⟨⟨c, hc, ?_, m, ?_, hm⟩, ?_⟩
  · have hsigned := hspoken.signs c x (List.mem_of_getElem? hx)
    rw [← hmx, carried_sender]
    exact hsigned
  · simp
  · -- an entry with the descriptor is one of a client that has asked
    intro i hi hsocket
    obtain ⟨c', hfd, -, hfirst⟩ := hs.owned i hi
    rw [show (s.server.server.slots i).socket = fd from hsocket] at hfd
    obtain rfl := Option.some.inj (hfd.symm.trans hc)
    exact hspoken.not_asking hfirst hnext hm

/-- A call behind the critical section, which closes nobody's descriptor. -/
theorem Seated.call (hs : Seated s) {k : Call}
    (hmain : s.server.main = .calling k ks) :
    Seated { s with server := { s.server with
      fds := closeFds [k] s.server.fds
      main := Main.calls ks
      log := fun c => s.server.log c ++ itemsTo c s.server.fds [k] } } := by
  have hpending := hs.closing
  rw [hmain] at hpending
  refine hs.keep (fun _ => rfl) ?_ rfl (fun d c => closeFds_le)
    (fun i hi => ⟨hi, rfl, rfl⟩) ?_ ?_ ?_
  · intro c hc
    exact hc.append ⟨[], by simp⟩
  · intro i hi
    show closeFds [k] s.server.fds (s.server.server.slots i).socket = _
    rw [closeFds_apply, if_neg]
    intro hclose
    rw [List.mem_singleton] at hclose
    exact hpending _ (hclose ▸ List.mem_cons_self) i hi rfl
  · intro env d m h
    have h : Main.calls ks = .received env d m := h
    cases ks <;> cases h
  · intro d hd
    have hd : Call.close d ∈ (Main.calls ks).pending := hd
    rw [Main.pending_calls] at hd
    exact hpending d (List.mem_cons_of_mem k hd)

/-- A pass over the table, which removes entries at most. It closes neither
the descriptor of an entry that stays nor that of a client that asks. -/
theorem Seated.pass (hs : Seated s) {beat : Beat}
    (hsub : ∀ i, (u.slots i).valid = true →
      (s.server.server.slots i).valid = true ∧
      (u.slots i).socket = (s.server.server.slots i).socket ∧
      (u.slots i).name = (s.server.server.slots i).name)
    (hstays : ∀ i, (u.slots i).valid = true →
      Call.close (u.slots i).socket ∉ u.calls)
    (hasks : ∀ fd, (∀ i, (s.server.server.slots i).valid = true →
      (s.server.server.slots i).socket ≠ fd) → Call.close fd ∉ u.calls) :
    Seated { s with server := { s.server with
      server := u
      fds := closeFds u.calls s.server.fds
      log := fun c => s.server.log c ++ itemsTo c s.server.fds u.calls
      beat } } := by
  have hfree : ∀ d, (∀ i, (s.server.server.slots i).valid = true →
      (s.server.server.slots i).socket ≠ d) →
      ∀ i, (u.slots i).valid = true → (u.slots i).socket ≠ d := by
    intro d hd i hi
    obtain ⟨hvalid, hsocket, -⟩ := hsub i hi
    rw [hsocket]
    exact hd i hvalid
  refine hs.keep (fun _ => rfl) (fun c hc => hc.append ⟨[], by simp⟩) rfl
    (fun d c => closeFds_le) hsub ?_ ?_ ?_
  · intro i hi
    show closeFds u.calls s.server.fds (u.slots i).socket = _
    rw [closeFds_apply, if_neg (hstays i hi)]
  · intro env d m h hm
    obtain ⟨howned, hd⟩ := hs.asking env d m h hm
    refine ⟨howned.mono ?_ (fun _ => rfl)
      fun c hc => hc.append ⟨[], by simp⟩, hfree d hd⟩
    show closeFds u.calls s.server.fds d = _
    rw [closeFds_apply, if_neg (hasks d hd)]
  · exact fun d hd => hfree d (hs.closing d hd)

theorem Seated.took {e : Turn} {u : Threads} (hspoken : Spoken host hosts s)
    (horderly : s.Orderly host hosts (.server e)) (hs : Seated s)
    (h : s.server.Took e u) : Seated { s with server := u } := by
  cases h with
  | accept hmain hnone => exact hs.accept hmain hnone
  | hangup hmain _ => exact hs.hangup hmain horderly
  | receive _ hc => exact hs.receive hspoken hc (horderly _ hc)
  | locked hmain hlocked => exact hs.locked hmain hlocked rfl rfl
  | call hmain => exact hs.call hmain
  | @firstPass env u hslots hcalls =>
      have hnone : ∀ fd, Call.close fd ∉ u.calls := by
        intro fd hclose
        obtain ⟨i, -, hk⟩ := (hcalls _).mp hclose
        cases hk
      exact hs.pass (fun i hi => ⟨(hslots i).1 ▸ hi, (hslots i).2⟩)
        (fun i _ => hnone _) fun fd _ => hnone fd
  | @secondPass u hslots hcalls =>
      have hvalid : ∀ i, (u.slots i).valid = true →
          (s.server.server.slots i).valid = true := by
        intro i hi
        rw [← hslots i hi]
        exact hi
      refine hs.pass
        (fun i hi => ⟨hvalid i hi, by rw [hslots i hi], by rw [hslots i hi]⟩)
        (fun i hi hclose => ?_) fun fd hfree hclose => ?_
      · -- what is closed was in an entry that is gone, not in this one
        obtain ⟨j, hj, hgone, hk⟩ := hcalls _ hclose
        rw [Call.close.injEq, hslots i hi] at hk
        obtain rfl := hs.alone i j (hvalid i hi) hj hk
        rw [hi] at hgone
        cases hgone
      · obtain ⟨j, hj, -, hk⟩ := hcalls _ hclose
        exact hfree j hj (Call.close.inj hk).symm

/-- The clients do not touch the table. -/
theorem Seated.client {c : Conn} {x : Client} (hs : Seated s)
    (hx : x.user = (s.client c).user) :
    Seated { s with client := Function.update s.client c x } := by
  have hsign : ∀ d, (Function.update s.client c x d).signature =
      (s.client d).signature := by
    intro d
    by_cases hdc : d = c
    · subst hdc
      rw [Function.update_self, Client.signature, Client.signature, hx]
    · rw [Function.update_of_ne hdc]
  refine hs.keep hsign (fun _ h => h) rfl (fun _ _ h => h)
    (fun i hi => ⟨hi, rfl, rfl⟩) (fun _ _ => rfl) ?_ hs.closing
  intro env d m h hm
  obtain ⟨howned, hfree⟩ := hs.asking env d m h hm
  exact ⟨howned.mono rfl hsign fun _ h => h, hfree⟩

/-- What holds in an orderly run. -/
structure RoomInOrder (host : ByteOrder) (hosts : Conn → ByteOrder)
    (s : ChatRoom) : Prop where
  spoken : Spoken host hosts s
  seated : s.running = true → Seated s

theorem RoomInOrder.step {e : RoomEvent} (hs : RoomInOrder host hosts s)
    (horderly : s.Orderly host hosts e) (h : s.Stepped e t) :
    RoomInOrder host hosts t := by
  refine ⟨hs.spoken.step horderly h, fun hrunning => ?_⟩
  cases h with
  | server hrun htook => exact (hs.seated hrun).took hs.spoken horderly htook
  | sigint => cases hrunning
  | client _ hacted => exact (hs.seated hrunning).client hacted.adds.1

theorem roomInOrder_initial (serverSocket epollFd : Int) (user : Conn → UserEnv)
    (stdin : Conn → List Byte) : RoomInOrder host hosts
      (ChatRoom.initial serverSocket epollFd user stdin) := by
  refine ⟨⟨fun c => Nat.le_refl _, nofun, nofun, fun c => List.nil_prefix⟩,
    fun _ => ⟨nofun, nofun, nofun, nofun, nofun, nofun, nofun⟩⟩

end Table

end Sysops.Cw11
