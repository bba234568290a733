import Sysops.Cw11.Membership

/-!
# What everybody hears

In an orderly run the chat is one list of utterances: the frames of the
clients in the order in which the server handled them, each with the names
that were in the table then. What has gone over a connection as chat
messages is this list as its client is to hear it, and what a client has
said is in it in the order in which it was said.
-/

namespace Sysops.Cw11

/-! ## Utterances -/

/-- A frame to be passed on. -/
def MessageT.isTalk (m : MessageT) : Bool :=
  m.is .clientToAll || m.is .clientToOne

/-- The sender and the text of a message, as `wait_for_messages` prints
them. -/
def MessageT.shown (m : MessageT) : List Byte × List Byte :=
  (cstr maxClientName m.sender.toList, fieldText m.message)

/-- What a member of the given name is to be shown of a frame. -/
def MessageT.passedTo (m : MessageT) (name : Bytes maxClientName) :
    Option (List Byte × List Byte) :=
  if m.type = MessageType.clientToAll.code then
    if cstr maxClientName name.toList = cstr maxClientName m.sender.toList
    then none else some m.shown
  else if cstr maxClientName name.toList =
      (firstWord 32 (fieldText m.message)).take maxClientName then
    some (cstr maxClientName m.sender.toList,
      behindWord 32 (fieldText m.message))
  else none

/-- A frame that the server has handled. -/
structure Utterance where
  /-- The connection that it came from. -/
  author : Conn
  frame : MessageT
  /-- The names of the connections that were in the table. -/
  members : Conn → Option (Bytes maxClientName)

def Utterance.heardBy (u : Utterance) (c : Conn) :
    Option (List Byte × List Byte) :=
  (u.members c).bind u.frame.passedTo

namespace ChatRoom

variable (s : ChatRoom)

/-- The name with which the connection is in the table. -/
def member (c : Conn) : Option (Bytes maxClientName) :=
  (Fin.find? fun i => (s.server.server.slots i).valid &&
    decide (s.server.fds (s.server.server.slots i).socket = some c)).map
    fun i => (s.server.server.slots i).name

/-- The chat messages that went over a connection. -/
def transcript (c : Conn) : List (List Byte × List Byte) :=
  ((framesTo (s.server.log c)).filter (·.is .serverChatMessage)).map
    MessageT.shown

end ChatRoom

/-! ## The minutes -/

/-- Who said what, besides the state. -/
structure Minutes where
  /-- The connection of the frame that was received last. -/
  speaker : Conn
  said : List Utterance

def Minutes.record (h : Minutes) (s : ChatRoom) (e : RoomEvent)
    (_t : ChatRoom) : Minutes :=
  match e with
  | .server (.receive _ fd _) =>
      { h with speaker := (s.server.fds fd).getD h.speaker }
  | .server .locked =>
      match s.server.main with
      | .received _ _ m =>
          if m.isTalk then { h with said := h.said ++ [⟨h.speaker, m, s.member⟩] }
          else h
      | _ => h
  | _ => h

/-- The room with its minutes. -/
def recordedRoom (host : ByteOrder) (hosts : Conn → ByteOrder) :
    System (ChatRoom × Minutes) RoomEvent :=
  (chatRoom host hosts).withHistory ⟨0, []⟩ Minutes.record

/-- The frame of `c` that the main thread has received and not handled. -/
def Minutes.pending (h : Minutes) (main : Main) (c : Conn) : List MessageT :=
  match main with
  | .received _ _ m => if h.speaker = c ∧ m.isTalk = true then [m] else []
  | .idle | .calling _ _ => []

/-- The frames of `c` in the minutes. -/
def Minutes.framesOf (h : Minutes) (c : Conn) : List MessageT :=
  (h.said.filter fun u => decide (u.author = c)).map Utterance.frame

/-- The minutes agree with what went over the connections. -/
structure Recorded (p : ChatRoom × Minutes) : Prop where
  heard : ∀ c, p.1.transcript c = p.2.said.filterMap (·.heardBy c)
  talked : ∀ c, p.2.framesOf c ++ p.2.pending p.1.server.main c =
    (framesFrom (p.1.server.log c)).filter MessageT.isTalk
  named : ∀ u ∈ p.2.said, ∀ c name, u.members c = some name →
    name.toList = (p.1.client c).signature
  speaks : ∀ env fd m, p.1.server.main = .received env fd m →
    m ∈ framesFrom (p.1.server.log p.2.speaker)
  /-- Behind a critical section there is no chat message to be sent. -/
  later : ∀ fd m, Call.send fd m ∈ p.1.server.main.pending →
    m.is .serverChatMessage = false

/-! ## The frames of a sweep -/

section Sweep

variable {fds : Int → Option Conn} {c : Conn} {n : Nat}

theorem framesTo_sweep (p : Fin n → Bool) (f : Fin n → Int) (m : MessageT)
    (l : List (Fin n)) :
    framesTo (itemsTo c fds
      (l.flatMap fun i => if p i then [.send (f i) m] else [])) =
    (l.filter fun i => p i && decide (fds (f i) = some c)).map fun _ => m := by
  induction l with
  | nil => rfl
  | cons i l ih =>
      rw [List.flatMap_cons, List.filter_cons]
      by_cases hp : p i = true
      · rw [if_pos hp, List.singleton_append, itemsTo, framesTo_append, ih]
        by_cases hfd : fds (f i) = some c
        · rw [if_pos hfd, if_pos (by simp [hp, hfd])]
          rfl
        · rw [if_neg hfd, if_neg (by simp [hfd])]
          rfl
      · rw [if_neg hp, List.nil_append, ih, if_neg (by simp [hp])]

/-- A property of one slot only. -/
theorem filter_finRange_eq {q : Fin n → Bool} {i : Fin n} (hi : q i = true)
    (hunique : ∀ j, q j = true → j = i) : (List.finRange n).filter q = [i] := by
  have hnodup := (List.nodup_finRange n).filter q
  refine List.perm_singleton.mp
    ((List.perm_ext_iff_of_nodup hnodup (List.nodup_singleton i)).mpr ?_)
  intro j
  rw [List.mem_filter, List.mem_singleton]
  constructor
  · exact fun hj => hunique j hj.2
  · rintro rfl
    exact ⟨List.mem_finRange j, hi⟩

end Sweep

/-! ## Who is shown a frame -/

section Shown

variable {s : ChatRoom} {c : Conn} {m msg : MessageT} {now : Int64}

theorem member_eq_none : s.member c = none ↔
    ∀ i, (s.server.server.slots i).valid = true →
      s.server.fds (s.server.server.slots i).socket ≠ some c := by
  rw [ChatRoom.member, Option.map_eq_none_iff, Fin.find?_eq_none_iff]
  refine forall_congr' fun i => ?_
  simp

theorem exists_of_member {name : Bytes maxClientName}
    (h : s.member c = some name) : ∃ i,
    (s.server.server.slots i).valid = true ∧
      s.server.fds (s.server.server.slots i).socket = some c ∧
      (s.server.server.slots i).name = name := by
  obtain ⟨i, hi, hname⟩ := Option.map_eq_some_iff.mp h
  have hfound := Fin.eq_true_of_find?_eq_some hi
  rw [Bool.and_eq_true, decide_eq_true_eq] at hfound
  exact ⟨i, hfound.1, hfound.2, hname⟩

/-- A connection has one entry. -/
theorem Seated.same (hs : Seated s) {i j : Fin maxClients}
    (hi : (s.server.server.slots i).valid = true)
    (hj : (s.server.server.slots j).valid = true)
    (hic : s.server.fds (s.server.server.slots i).socket = some c)
    (hjc : s.server.fds (s.server.server.slots j).socket = some c) : i = j :=
  hs.alone i j hi hj (hs.injective _ _ c hic hjc)

/-- Messages that are no chat are not shown. -/
theorem filter_chat_nil {ks : List Call} {fds : Int → Option Conn}
    (h : ∀ d msg, Call.send d msg ∈ ks → msg.is .serverChatMessage = false) :
    (framesTo (itemsTo c fds ks)).filter (·.is .serverChatMessage) = [] := by
  rw [List.filter_eq_nil_iff]
  intro msg hmsg
  obtain ⟨d, hk, -⟩ := mem_framesTo_itemsTo hmsg
  rw [h d msg hk]
  exact Bool.false_ne_true

theorem broadcast_is (now : Int64) (m : MessageT) :
    (broadcast now m).is .serverChatMessage = true :=
  MessageT.is_iff.mpr rfl

/-- What `handle_to_all_message` shows. -/
theorem shown_broadcast (hs : Seated s)
    (hm : m.type = MessageType.clientToAll.code) :
    ((framesTo (itemsTo c s.server.fds
      (broadcastCalls now m s.server.server.slots))).filter
        (·.is .serverChatMessage)).map MessageT.shown =
      ((s.member c).bind m.passedTo).toList := by
  rw [broadcastCalls, framesTo_sweep]
  cases hmember : s.member c with
  | none =>
      have hnone : (List.finRange maxClients).filter (fun i =>
          ((s.server.server.slots i).valid &&
            !(s.server.server.slots i).hasName m.sender.toList) &&
            decide (s.server.fds (s.server.server.slots i).socket = some c)) =
          [] := by
        rw [List.filter_eq_nil_iff]
        intro i _ hi
        simp only [Bool.and_eq_true, decide_eq_true_eq] at hi
        exact member_eq_none.mp hmember i hi.1.1 hi.2
      rw [hnone]
      rfl
  | some name =>
      obtain ⟨i, hi, hic, rfl⟩ := exists_of_member hmember
      have hpassed : m.passedTo (s.server.server.slots i).name =
          if (s.server.server.slots i).hasName m.sender.toList then none
          else some m.shown := by
        simp only [MessageT.passedTo, if_pos hm, hasName_iff]
      rw [Option.bind_some, hpassed]
      by_cases hname : (s.server.server.slots i).hasName m.sender.toList = true
      · have hnone : (List.finRange maxClients).filter (fun j =>
            ((s.server.server.slots j).valid &&
              !(s.server.server.slots j).hasName m.sender.toList) &&
              decide (s.server.fds (s.server.server.slots j).socket =
                some c)) = [] := by
          rw [List.filter_eq_nil_iff]
          intro j _ hj
          simp only [Bool.and_eq_true, decide_eq_true_eq,
            Bool.not_eq_true'] at hj
          obtain rfl := hs.same hi hj.1.1 hic hj.2
          rw [hj.1.2] at hname
          cases hname
        rw [hnone, if_pos hname]
        rfl
      · rw [filter_finRange_eq (i := i), if_neg hname]
        · simp only [List.map_cons, List.map_nil, List.filter_cons,
            broadcast_is, if_true, List.filter_nil, Option.toList_some]
          rfl
        · simp [hi, hname, hic]
        · intro j hj
          simp only [Bool.and_eq_true, decide_eq_true_eq] at hj
          exact hs.same hj.1.1 hi hj.2 hic

/-- The message of a private text. -/
theorem shown_initMessageT {text : List Byte} {junk : List Byte}
    (hinit : initMessageT now (some m.sender.toList) .serverChatMessage
      (some (text ++ 0 :: junk)) = .ok msg) (hnul : 0 ∉ text)
    (hsize : text.length < maxMessageText) :
    msg.is .serverChatMessage = true ∧
      msg.shown = (cstr maxClientName m.sender.toList, text) := by
  obtain ⟨htype, -, hsender, htext⟩ := initMessageT_eq_ok hinit
  refine ⟨MessageT.is_iff.mpr htype, ?_⟩
  rw [MessageT.shown, fieldText, hsender, htext, cstr_take, cstr_take,
    cstr_terminated hnul, List.take_of_length_le (Nat.le_of_lt hsize)]

/-- A private message reaches nobody without an entry. -/
theorem framesTo_privateCalls_none {name : List Byte}
    (hmember : s.member c = none) :
    framesTo (itemsTo c s.server.fds
      (privateCalls (some name) msg s.server.server.slots)) = [] := by
  rw [privateCalls, Option.bind_some]
  cases htaken : taken s.server.server.slots name with
  | none => rfl
  | some i =>
      have hi := member_eq_none.mp hmember i (taken_eq_some htaken).1
      simp only [Option.map_some, Option.toList_some, itemsTo, if_neg hi]
      rfl

/-- Of those with an entry, it reaches the one with the name. -/
theorem framesTo_privateCalls (hs : Seated s) {name : List Byte}
    {i : Fin maxClients} (hi : (s.server.server.slots i).valid = true)
    (hic : s.server.fds (s.server.server.slots i).socket = some c) :
    framesTo (itemsTo c s.server.fds
      (privateCalls (some name) msg s.server.server.slots)) =
      if (s.server.server.slots i).hasName name then [msg] else [] := by
  rw [privateCalls, Option.bind_some]
  by_cases hname : (s.server.server.slots i).hasName name = true
  · rw [taken_eq hs.names hi hname, if_pos hname]
    simp only [Option.map_some, Option.toList_some, itemsTo, if_pos hic]
    rfl
  · rw [if_neg hname]
    cases htaken : taken s.server.server.slots name with
    | none => rfl
    | some j =>
        obtain ⟨hj, hnamej⟩ := taken_eq_some htaken
        have hjc : s.server.fds (s.server.server.slots j).socket ≠
            some c := by
          intro hjc
          obtain rfl := hs.same hi hj hic hjc
          exact hname hnamej
        simp only [Option.map_some, Option.toList_some, itemsTo, if_neg hjc]
        rfl

/-- What `handle_to_one_message` shows. -/
theorem shown_private {env : Env} {receiver text : Pointer} (hs : Seated s)
    (hm : m.type = MessageType.clientToOne.code) (hends : 0 ∈ m.message.toList)
    (hsplit : splitToOne env m.message = .ok (receiver, text))
    (hinit : initMessageT now (some m.sender.toList) .serverChatMessage text =
      .ok msg) :
    ((framesTo (itemsTo c s.server.fds
      (privateCalls receiver msg s.server.server.slots))).filter
        (·.is .serverChatMessage)).map MessageT.shown =
      ((s.member c).bind m.passedTo).toList := by
  obtain ⟨junk, hmessage, hnul⟩ := exists_terminated hends
  have hsize : m.message.toList.length = maxMessageText :=
    m.message.toList_length
  rw [hmessage, List.length_append, List.length_cons] at hsize
  rcases splitToOne_field env hmessage hnul with
    ⟨-, receiverName, hnone⟩ | ⟨after, -, hword, hfound⟩
  · -- without a text there is no message
    rw [hsplit, Except.ok.injEq, Prod.mk.injEq] at hnone
    rw [hnone.2, initMessageT, memcpy_toList] at hinit
    cases hinit
  rw [hsplit, Except.ok.injEq, Prod.mk.injEq] at hfound
  obtain ⟨rfl, rfl⟩ := hfound
  have hbehind := length_behindWord_le 32 (fieldText m.message)
  have hbehind0 : 0 ∉ behindWord 32 (fieldText m.message) := by
    intro h
    exact hnul ((List.dropWhile_subset _) ((List.dropWhile_subset _)
      (List.mem_of_mem_tail h)))
  obtain ⟨hchat, hshown⟩ := shown_initMessageT hinit hbehind0 (by omega)
  have hpassed : ∀ i, m.passedTo (s.server.server.slots i).name =
      if (s.server.server.slots i).hasName
        (firstWord 32 (fieldText m.message) ++ 0 :: after) then
        some msg.shown else none := by
    intro i
    have hall : m.type ≠ MessageType.clientToAll.code :=
      MessageType.ne_code hm (by decide)
    simp only [MessageT.passedTo, if_neg hall, addressed_iff hword, Addressed,
      hshown]
  cases hmember : s.member c with
  | none =>
      rw [framesTo_privateCalls_none hmember]
      rfl
  | some name =>
      obtain ⟨i, hi, hic, rfl⟩ := exists_of_member hmember
      rw [Option.bind_some, hpassed, framesTo_privateCalls hs hi hic]
      split
      · simp [hchat]
      · rfl

end Shown

/-! ## Steps -/

section Steps

variable {host : ByteOrder} {hosts : Conn → ByteOrder} {s t : ChatRoom}
  {c : Conn} {h : Minutes} {env : Env} {fd : Int} {m : MessageT}
  {u : Server} {ks : List Call}

theorem MessageT.isTalk_iff : m.isTalk = true ↔
    m.type = MessageType.clientToAll.code ∨
      m.type = MessageType.clientToOne.code := by
  rw [isTalk, Bool.or_eq_true, is_iff, is_iff]

theorem MessageT.not_isTalk {type : MessageType} (hm : m.type = type.code)
    (hall : type ≠ .clientToAll) (hone : type ≠ .clientToOne) :
    m.isTalk = false := by
  rw [isTalk, is_other hm hall, is_other hm hone]
  rfl

theorem transcript_append (hlog : framesTo (t.server.log c) =
      framesTo (s.server.log c) ++ framesTo (itemsTo c s.server.fds ks)) :
    t.transcript c = s.transcript c ++ ((framesTo (itemsTo c s.server.fds
      ks)).filter (·.is .serverChatMessage)).map MessageT.shown := by
  rw [ChatRoom.transcript, hlog, List.filter_append, List.map_append,
    ChatRoom.transcript]

/-- Calls that are no chat. -/
theorem transcript_quiet (ks : List Call) (hlog : framesTo (t.server.log c) =
      framesTo (s.server.log c) ++ framesTo (itemsTo c s.server.fds ks))
    (hquiet : ∀ d msg, Call.send d msg ∈ ks →
      msg.is .serverChatMessage = false) :
    t.transcript c = s.transcript c := by
  rw [transcript_append hlog, filter_chat_nil hquiet, List.map_nil,
    List.append_nil]

/-- A step at which nothing is said and nothing is received. -/
theorem Recorded.quiet (hs : Recorded (s, h))
    (hheard : ∀ c, t.transcript c = s.transcript c)
    (hfrom : ∀ c, framesFrom (t.server.log c) = framesFrom (s.server.log c))
    (hpending : ∀ c, h.pending t.server.main c = h.pending s.server.main c)
    (hspeaks : ∀ env fd m, t.server.main = .received env fd m →
      s.server.main = .received env fd m)
    (hclient : ∀ c, (t.client c).signature = (s.client c).signature)
    (hlater : ∀ fd m, Call.send fd m ∈ t.server.main.pending →
      m.is .serverChatMessage = false) : Recorded (t, h) := by
  refine ⟨fun c => ?_, fun c => ?_, ?_, ?_, hlater⟩
  · exact (hheard c).trans (hs.heard c)
  · simp only [hpending, hfrom]
    exact hs.talked c
  · intro x hx c name hname
    rw [hclient]
    exact hs.named x hx c name hname
  · intro env fd m hmain
    simp only [hfrom]
    exact hs.speaks env fd m (hspeaks env fd m hmain)

/-- What the server sends behind a critical section is no chat. -/
theorem Locked.later_quiet {w : Server} (hlocked : Locked env fd m w u ks) :
    ∀ d msg, Call.send d msg ∈ ks → msg.is .serverChatMessage = false := by
  intro d msg hk
  rcases hlocked.later with ⟨-, reply, rfl, hreply⟩ | ⟨-, hlist⟩
  · obtain ⟨-, rfl⟩ := Call.send.inj (List.mem_singleton.mp hk)
    exact hreply.elim (MessageT.is_other · (by decide))
      (MessageT.is_other · (by decide))
  · exact MessageT.is_other (hlist d msg hk).2 (by decide)

/-- What a critical section shows. -/
theorem Locked.shows (hs : Seated s)
    (hends : m.type = MessageType.clientToOne.code → 0 ∈ m.message.toList)
    (hlocked : Locked env fd m s.server.idle u ks) (c : Conn) :
    ((framesTo (itemsTo c s.server.fds u.calls)).filter
        (·.is .serverChatMessage)).map MessageT.shown =
      if m.isTalk then ((s.member c).bind m.passedTo).toList else [] := by
  have hquiet : ∀ {type : MessageType}, m.type = type.code →
      type ≠ .clientToAll → type ≠ .clientToOne → [] =
        if m.isTalk then ((s.member c).bind m.passedTo).toList else [] := by
    intro type hm hall hone
    rw [MessageT.not_isTalk hm hall hone]
    rfl
  cases hlocked with
  | refused hm | registered hm | tableFull hm | stopped hm | notFound hm
  | list hm | alive hm => exact hquiet hm (by decide) (by decide)
  | nothing _ hall hone =>
      rw [if_neg]
      · rfl
      · rw [MessageT.isTalk_iff]
        exact fun h => h.elim hall hone
  | toAll hm =>
      rw [if_pos (MessageT.isTalk_iff.mpr (.inl hm)), World.idle_calls,
        List.nil_append]
      exact shown_broadcast hs hm
  | toOne hm hsplit hinit =>
      rw [if_pos (MessageT.isTalk_iff.mpr (.inr hm)), World.idle_calls,
        List.nil_append]
      exact shown_private hs hm (hends hm) hsplit hinit

theorem Minutes.framesOf_append (x : Utterance) (c : Conn) :
    Minutes.framesOf { h with said := h.said ++ [x] } c =
      h.framesOf c ++ if x.author = c then [x.frame] else [] := by
  simp only [framesOf, List.filter_append, List.map_append]
  congr 1
  by_cases hc : x.author = c <;> simp [hc]

theorem heardBy_mk (author : Conn) (members : Conn → Option (Bytes maxClientName))
    (c : Conn) : (Utterance.mk author m members).heardBy c =
      (members c).bind m.passedTo := rfl

theorem heard_append (said : List Utterance) (x : Utterance) (c : Conn) :
    (said ++ [x]).filterMap (·.heardBy c) =
      said.filterMap (·.heardBy c) ++ (x.heardBy c).toList := by
  rw [List.filterMap_append]
  cases hx : x.heardBy c <;> simp [hx]

/-- Who is in the table signs with the name of the entry. -/
theorem Seated.member_signature (hs : Seated s) {name : Bytes maxClientName}
    (hname : s.member c = some name) :
    name.toList = (s.client c).signature := by
  obtain ⟨i, hi, hic, hentry⟩ := exists_of_member hname
  obtain ⟨d, hd, hsigned, -⟩ := hs.owned i hi
  rw [hd, Option.some.injEq] at hic
  rw [← hentry, ← hic]
  exact hsigned

/-- The critical section, with what it adds to the minutes. -/
theorem Recorded.locked (hspoken : Spoken host hosts s) (hseated : Seated s)
    (hs : Recorded (s, h)) (hmain : s.server.main = .received env fd m)
    (hlocked : Locked env fd m s.server.idle u ks) :
    Recorded ({ s with server := { s.server with
      server := u
      fds := closeFds u.calls s.server.fds
      main := Main.calls ks
      log := fun c => s.server.log c ++ itemsTo c s.server.fds u.calls } },
      if m.isTalk then { h with said := h.said ++ [⟨h.speaker, m, s.member⟩] }
      else h) := by
  have hends : m.type = MessageType.clientToOne.code →
      0 ∈ m.message.toList := by
    have hsent := (hspoken.received h.speaker).subset
      (hs.speaks env fd m hmain)
    obtain ⟨x, hx, rfl⟩ := List.mem_map.mp hsent
    rw [carried_type, carried_message]
    exact hspoken.ends _ x hx
  have hidle : ∀ (h : Minutes) c, h.pending (Main.calls ks) c = [] := by
    intro h c
    cases ks <;> rfl
  have hadds : ∀ c, framesTo (s.server.log c ++
      itemsTo c s.server.fds u.calls) = framesTo (s.server.log c) ++
        framesTo (itemsTo c s.server.fds u.calls) :=
    fun c => framesTo_append _ _
  refine ⟨fun c => ?_, fun c => ?_, ?_, ?_, ?_⟩
  · rw [transcript_append (s := s) (hadds c), hlocked.shows hseated hends c,
      hs.heard c]
    by_cases htalk : m.isTalk = true
    · simp only [if_pos htalk, heard_append, heardBy_mk]
    · simp only [if_neg htalk, List.append_nil]
  · have htalked := hs.talked c
    simp only [hmain, Minutes.pending] at htalked
    simp only [hidle, framesFrom_append, framesFrom_itemsTo, List.append_nil]
    rw [← htalked]
    by_cases htalk : m.isTalk = true
    · rw [if_pos htalk, Minutes.framesOf_append]
      simp [htalk]
    · simp [htalk]
  · intro x hx c name hname
    by_cases htalk : m.isTalk = true
    · simp only [if_pos htalk, List.mem_append, List.mem_singleton] at hx
      rcases hx with hx | hx
      · exact hs.named x hx c name hname
      · rw [hx] at hname
        dsimp only at hname
        exact hseated.member_signature hname
    · simp only [if_neg htalk] at hx
      exact hs.named x hx c name hname
  · intro env' fd' m' hmain'
    have hmain' : Main.calls ks = .received env' fd' m' := hmain'
    cases ks <;> cases hmain'
  · intro d msg hk
    have hk : Call.send d msg ∈ (Main.calls ks).pending := hk
    rw [Main.pending_calls] at hk
    exact hlocked.later_quiet d msg hk

/-- A step of the server that says nothing as a chat message. -/
theorem Recorded.aside {v : Threads} (hs : Recorded (s, h)) (ks : List Call)
    (hmain : ∀ env fd m, v.main ≠ .received env fd m ∨
      s.server.main = .received env fd m)
    (hnot : ∀ c, h.pending v.main c = h.pending s.server.main c)
    (hlog : v.log = fun c => s.server.log c ++ itemsTo c s.server.fds ks)
    (hquiet : ∀ d msg, Call.send d msg ∈ ks →
      msg.is .serverChatMessage = false)
    (hlater : ∀ fd m, Call.send fd m ∈ v.main.pending →
      m.is .serverChatMessage = false) {running : Bool} :
    Recorded ({ s with
      server := v
      running := running }, h) := by
  refine hs.quiet (fun c => transcript_quiet ks ?_ hquiet) ?_ hnot ?_
    (fun _ => rfl) hlater
  · show framesTo (v.log c) = _
    rw [hlog, framesTo_append]
  · intro c
    show framesFrom (v.log c) = _
    rw [hlog, framesFrom_append, framesFrom_itemsTo, List.append_nil]
  · intro env fd m hv
    exact (hmain env fd m).resolve_left fun hne => hne hv

/-- The server reads a frame. It is said when the handler takes it. -/
theorem Recorded.receive {c : Conn} (hs : Recorded (s, h))
    (hmain : s.server.main = .idle) : Recorded ({ s with
      server := { s.server with
        main := .received env fd m
        log := Function.update s.server.log c
          (s.server.log c ++ [.received m]) } }, { h with speaker := c }) := by
  refine ⟨fun d => ?_, fun d => ?_, hs.named, ?_,
    fun _ _ hk => absurd hk List.not_mem_nil⟩
  · rw [← hs.heard d]
    show ((framesTo (Function.update s.server.log c
      (s.server.log c ++ [.received m]) d)).filter _).map _ = _
    by_cases hdc : d = c
    · subst hdc
      rw [Function.update_self, framesTo_append, framesTo_received,
        List.append_nil]
      rfl
    · rw [Function.update_of_ne hdc]
      rfl
  · have htalked := hs.talked d
    simp only [hmain, Minutes.pending, List.append_nil] at htalked
    show h.framesOf d ++ (if c = d ∧ m.isTalk = true then [m] else []) =
      (framesFrom (Function.update s.server.log c
        (s.server.log c ++ [.received m]) d)).filter MessageT.isTalk
    by_cases hdc : d = c
    · subst hdc
      rw [Function.update_self, framesFrom_append, List.filter_append,
        ← htalked, framesFrom_received]
      cases htalk : m.isTalk <;> simp [htalk]
    · rw [Function.update_of_ne hdc, if_neg (fun h => hdc h.1.symm),
        List.append_nil, ← htalked]
  · intro env' fd' m' h'
    obtain ⟨-, -, rfl⟩ := Main.received.inj h'
    show m ∈ framesFrom (Function.update s.server.log c
      (s.server.log c ++ [.received m]) c)
    simp

theorem Recorded.took {e : Turn} {v : Threads} (hin : RoomInOrder host hosts s)
    (hrunning : s.running = true) (hs : Recorded (s, h))
    (htook : s.server.Took e v) (t : ChatRoom) :
    Recorded ({ s with server := v }, h.record s (.server e) t) := by
  cases htook with
  | accept hmain | hangup hmain =>
      refine hs.aside [] ?_ ?_ ?_ ?_ ?_
      · exact fun _ _ _ => ne_or_eq _ _
      · exact fun _ => rfl
      · simp [itemsTo]
      · exact fun _ _ hk => absurd hk List.not_mem_nil
      · exact hs.later
  | @receive env fd m c hmain hc =>
      have hspeaker : h.record s (.server (.receive env fd m)) t =
          { h with speaker := c } := by
        simp only [Minutes.record, hc, Option.getD_some]
      rw [hspeaker]
      exact hs.receive hmain
  | @locked env fd m u ks hmain hlocked =>
      have hlater := hs.locked hin.spoken (hin.seated hrunning) hmain hlocked
      simpa only [Minutes.record, hmain] using hlater
  | @call k ks hmain =>
      have hlater := hs.later
      rw [hmain] at hlater
      refine hs.aside [k] (fun env fd m => .inl ?_) (fun c => ?_) rfl
        ?_ ?_
      · show Main.calls ks ≠ _
        cases ks <;> exact Main.noConfusion
      · rw [hmain]
        show h.pending (Main.calls ks) c = []
        cases ks <;> rfl
      · intro d msg hk
        refine hlater d msg ?_
        rw [List.mem_singleton.mp hk]
        exact List.mem_cons_self
      · intro d msg hk
        have hk : Call.send d msg ∈ (Main.calls ks).pending := hk
        rw [Main.pending_calls] at hk
        exact hlater d msg (List.mem_cons_of_mem k hk)
  | @firstPass env u _ hcalls =>
      refine hs.aside u.calls ?_ ?_ rfl ?_ ?_
      · exact fun _ _ _ => ne_or_eq _ _
      · exact fun _ => rfl
      · intro d msg hk
        obtain ⟨i, -, heq⟩ := (hcalls _).mp hk
        obtain ⟨-, rfl⟩ := Call.send.inj heq
        rfl
      · exact hs.later
  | @secondPass u _ hcalls =>
      refine hs.aside u.calls ?_ ?_ rfl ?_ ?_
      · exact fun _ _ _ => ne_or_eq _ _
      · exact fun _ => rfl
      · intro d msg hk
        obtain ⟨i, -, -, heq⟩ := hcalls _ hk
        cases heq
      · exact hs.later

theorem Recorded.step {e : RoomEvent} (hin : RoomInOrder host hosts s)
    (hs : Recorded (s, h)) (hstep : s.Stepped e t) :
    Recorded (t, h.record s e t) := by
  cases hstep with
  | server hrunning htook => exact hs.took hin hrunning htook _
  | @sigint env hrunning =>
      refine hs.aside (v := s.server.shutDown env)
        (s.server.shutDown env).server.calls
        (fun _ _ _ => ne_or_eq _ _) (fun _ => rfl) rfl ?_ hs.later
      · intro d msg hk
        obtain ⟨i, -, -, rfl⟩ := mem_shutDown_calls hk
        rfl
  | @client c a x hended hacted =>
      refine hs.quiet (fun _ => rfl) (fun _ => rfl) (fun _ => rfl)
        (fun _ _ _ h => h) (fun d => ?_) hs.later
      show (Function.update s.client c x d).signature = _
      by_cases hdc : d = c
      · subst hdc
        rw [Function.update_self, Client.signature, Client.signature,
          hacted.adds.1]
      · rw [Function.update_of_ne hdc]

theorem recorded_initial (serverSocket epollFd : Int) (user : Conn → UserEnv)
    (stdin : Conn → List Byte) :
    Recorded (ChatRoom.initial serverSocket epollFd user stdin, ⟨0, []⟩) :=
  ⟨fun _ => rfl, fun _ => rfl, nofun, nofun, nofun⟩

theorem recorded_of_reachable {p : ChatRoom × Minutes}
    (h : (recordedRoom host hosts).ReachableIf
      (fun p e => p.1.Orderly host hosts e) p) :
    RoomInOrder host hosts p.1 ∧ Recorded p := by
  refine h.invariant (I := fun p => RoomInOrder host hosts p.1 ∧ Recorded p) ?_ ?_
  · rintro ⟨s, h⟩ ⟨⟨serverSocket, epollFd, user, stdin, rfl⟩, rfl⟩
    exact ⟨roomInOrder_initial serverSocket epollFd user stdin,
      recorded_initial serverSocket epollFd user stdin⟩
  · rintro ⟨s, h⟩ e ⟨t, k⟩ ⟨hin, hs⟩ horderly ⟨hstep, hrecord⟩
    have hstepped := ChatRoom.next_stepped hstep.2
    have hrecord : k = h.record s e t := hrecord
    rw [hrecord]
    exact ⟨hin.step horderly hstepped, hs.step hin hstepped⟩

end Steps

/-! ## The chat -/

section Chat

variable {host : ByteOrder} {hosts : Conn → ByteOrder} {s : ChatRoom}
  {minutes : Minutes} {c : Conn} {m : MessageT}

@[simp] theorem carried_isTalk (a b : ByteOrder) (m : MessageT) :
    (carried a b m).isTalk = m.isTalk := by
  simp only [MessageT.isTalk, carried_is]

/-- **Everybody hears one chat**: in every orderly run the chat messages on
each connection are what its client is to hear of one list of utterances,
and of each client the list has the first of what it has said, once and in
its order. -/
theorem one_chat (h : (recordedRoom host hosts).ReachableIf
      (fun p e => p.1.Orderly host hosts e) (s, minutes)) :
    (∀ c, s.transcript c = minutes.said.filterMap (·.heardBy c)) ∧
      ∀ c, minutes.framesOf c <+: ((s.client c).sent.filter
        MessageT.isTalk).map (carried (hosts c) host) := by
  obtain ⟨hin, hs⟩ := recorded_of_reachable h
  refine ⟨hs.heard, fun c => ?_⟩
  have hreceived : (framesFrom (s.server.log c)).filter MessageT.isTalk <+:
      ((s.client c).sent.map (carried (hosts c) host)).filter
        MessageT.isTalk :=
    (hin.spoken.received c).filter _
  have hsame : MessageT.isTalk ∘ carried (hosts c) host = MessageT.isTalk := by
    funext m
    exact carried_isTalk _ _ m
  rw [List.filter_map, hsame] at hreceived
  refine List.IsPrefix.trans ?_ hreceived
  rw [← hs.talked c]
  exact List.prefix_append _ _

/-- Two users, the first of whom types `to_one b hi`. -/
def UserEnv.named (c : Conn) : UserEnv :=
  if c = 0 then .zeros
  else { UserEnv.zeros with
    clientId := [98]
    id_no_nul := by decide
    id_admitted := by decide }

/-- Both are registered, and the line is passed on. -/
def oneLine : List RoomEvent :=
  RoomEvent.joins 0 5 "c" ++ RoomEvent.joins 1 6 "b" ++
    [.client 0 (.round 0),
      .server (.receive Env.stacked 5 { frameFrom .clientToOne "c" with
        message := Bytes.ofList maxMessageText [98, 32, 104, 105] }),
      .server .locked]

theorem exists_one_line : ∃ s, (chatRoom .little littleEndian).ReachableIf
    (ChatRoom.Orderly .little littleEndian) s ∧
      s.transcript 1 = [([99], [104, 105])] := by
  obtain ⟨s, hs, hp⟩ := System.ReachableIf.exists_of_runLabels
    (S := chatRoom .little littleEndian)
    (C := ChatRoom.Orderly .little littleEndian)
    (ChatRoom.nextExpected _ _) ChatRoom.nextExpected_step oneLine
    (p := fun s => decide (s.transcript 1 = [([99], [104, 105])]))
    (.init (chatRoom_init _ _ UserEnv.named fun _ =>
      (literal "to_one b hi\n").dropLast))
    (by decide +kernel)
  exact ⟨s, hs, of_decide_eq_true hp⟩

theorem one_chat_one_line : ∃ s minutes,
    (recordedRoom .little littleEndian).ReachableIf
      (fun p e => p.1.Orderly .little littleEndian e) (s, minutes) ∧
    s.transcript 1 = [([99], [104, 105])] ∧
    s.transcript 1 = minutes.said.filterMap (·.heardBy 1) := by
  obtain ⟨s, hs, hshown⟩ := exists_one_line
  obtain ⟨minutes, hrecorded⟩ :=
    @System.ReachableIf.recorded _ _ _ _ _ ⟨0, []⟩ Minutes.record _ hs
  exact ⟨s, minutes, hrecorded, hshown, (one_chat hrecorded).1 1⟩

theorem cstr_signature (x : Client) :
    cstr maxClientName x.signature = x.user.clientId := by
  rw [Client.signature, cstr_take, cstr_terminated x.user.id_no_nul,
    List.take_of_length_le (Nat.le_of_lt x.user.id_admitted)]

/-- What is shown was said. -/
theorem passedTo_eq_some {name : Bytes maxClientName}
    {shown : List Byte × List Byte} (h : m.passedTo name = some shown) :
    shown.1 = cstr maxClientName m.sender.toList ∧
      (m.type = MessageType.clientToAll.code ∧
        shown.2 = fieldText m.message ∧
        cstr maxClientName name.toList ≠ cstr maxClientName m.sender.toList ∨
      m.type ≠ MessageType.clientToAll.code ∧
        shown.2 = behindWord 32 (fieldText m.message) ∧
        cstr maxClientName name.toList =
          (firstWord 32 (fieldText m.message)).take maxClientName) := by
  rw [MessageT.passedTo] at h
  split at h
  · rename_i hall
    split at h
    · cases h
    · rename_i hname
      cases h
      exact ⟨rfl, .inl ⟨hall, rfl, hname⟩⟩
  · rename_i hall
    split at h
    · rename_i hname
      cases h
      exact ⟨rfl, .inr ⟨hall, rfl, hname⟩⟩
    · cases h

/-- **No chat message is made up, and what is said to one is shown to no
other**: in every orderly run a chat message has the name of the client that
said it, and its text was said to all others, or it is what followed the
name of the client on whose connection it went out. -/
theorem chat_has_author
    (h : (chatRoom host hosts).ReachableIf (ChatRoom.Orderly host hosts) s)
    (hm : m ∈ framesTo (s.server.log c))
    (htype : m.type = MessageType.serverChatMessage.code) :
    ∃ d, ∃ x ∈ (s.client d).sent,
      cstr maxClientName m.sender.toList = (s.client d).user.clientId ∧
      (x.type = MessageType.clientToAll.code ∧
          fieldText m.message = fieldText x.message ∧
          (s.client c).user.clientId ≠ (s.client d).user.clientId ∨
        x.type = MessageType.clientToOne.code ∧
          fieldText m.message = behindWord 32 (fieldText x.message) ∧
          (s.client c).user.clientId =
            (firstWord 32 (fieldText x.message)).take maxClientName) := by
  obtain ⟨minutes, hrecorded⟩ :=
    @System.ReachableIf.recorded _ _ _ _ _ ⟨0, []⟩ Minutes.record _ h
  obtain ⟨hin, hs⟩ := recorded_of_reachable hrecorded
  have hshown : m.shown ∈ s.transcript c :=
    List.mem_map_of_mem (List.mem_filter.mpr ⟨hm, MessageT.is_iff.mpr htype⟩)
  rw [hs.heard c, List.mem_filterMap] at hshown
  obtain ⟨u, hu, hheard⟩ := hshown
  obtain ⟨name, hname, hpassed⟩ := Option.bind_eq_some_iff.mp hheard
  -- the frame is one that its author has sent
  have hframe : u.frame ∈ minutes.framesOf u.author :=
    List.mem_map_of_mem (List.mem_filter.mpr ⟨hu, decide_eq_true rfl⟩)
  have htalk : u.frame ∈ (framesFrom (s.server.log u.author)).filter
      MessageT.isTalk := by
    have hall := List.mem_append_left
      (minutes.pending s.server.main u.author) hframe
    rw [hs.talked] at hall
    exact hall
  obtain ⟨hfrom, htalks⟩ := List.mem_filter.mp htalk
  obtain ⟨x, hx, hcarried⟩ := List.mem_map.mp
    ((hin.spoken.received u.author).subset hfrom)
  have hsender : u.frame.sender = x.sender := by rw [← hcarried, carried_sender]
  have htext : u.frame.message = x.message := by
    rw [← hcarried, carried_message]
  have hkind : u.frame.type = x.type := by rw [← hcarried, carried_type]
  have hauthor : cstr maxClientName u.frame.sender.toList =
      (s.client u.author).user.clientId := by
    rw [hsender, hin.spoken.signs u.author x hx, cstr_signature]
  have hmember : cstr maxClientName name.toList =
      (s.client c).user.clientId := by
    rw [hs.named u hu c name hname, cstr_signature]
  obtain ⟨hfirst, hrest⟩ := passedTo_eq_some hpassed
  rw [hauthor, hmember, hkind, htext] at hrest
  refine ⟨u.author, x, hx, hfirst.trans hauthor, hrest.imp_right ?_⟩
  rintro ⟨hall, hbehind, hword⟩
  rw [MessageT.isTalk_iff, hkind] at htalks
  exact ⟨htalks.resolve_left hall, hbehind, hword⟩

theorem chat_has_author_one_line : ∃ s,
    (chatRoom .little littleEndian).ReachableIf
      (ChatRoom.Orderly .little littleEndian) s ∧
    ∃ m ∈ framesTo (s.server.log 1), ∃ d, ∃ x ∈ (s.client d).sent,
      cstr maxClientName m.sender.toList = (s.client d).user.clientId ∧
      x.isTalk = true := by
  obtain ⟨s, hs, hshown⟩ := exists_one_line
  have hfirst : ([99], [104, 105]) ∈ s.transcript 1 := by
    rw [hshown]
    exact List.mem_cons_self
  obtain ⟨m, hm, -⟩ := List.mem_map.mp hfirst
  obtain ⟨hm, htype⟩ := List.mem_filter.mp hm
  obtain ⟨d, x, hx, hauthor, hsaid⟩ :=
    chat_has_author hs hm (MessageT.is_iff.mp htype)
  refine ⟨s, hs, m, hm, d, x, hx, hauthor, MessageT.isTalk_iff.mpr ?_⟩
  exact hsaid.imp (fun h => h.1) fun h => h.1

end Chat

end Sysops.Cw11
