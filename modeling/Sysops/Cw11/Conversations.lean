import Sysops.Cw11.ChatRoom

/-!
# Conversations

What the server and a client may expect of each other in every run of the
chat room: a client asks for a name once, so it is answered once, and its
listener never meets a message that it does not know; and a `CLIENT_ALIVE`
never comes unasked.
-/

namespace Sysops.Cw11

/-! ## Counting messages -/

def MessageT.is (m : MessageT) (type : MessageType) : Bool :=
  m.type == type.code

theorem MessageT.is_iff {m : MessageT} {type : MessageType} :
    m.is type = true ↔ m.type = type.code :=
  beq_iff_eq

theorem MessageT.is_other {m : MessageT} {type other : MessageType}
    (h : m.type = type.code) (hne : type ≠ other) : m.is other = false := by
  rw [← Bool.not_eq_true, MessageT.is_iff]
  exact MessageType.ne_code h hne

@[simp] theorem carried_is (a b : ByteOrder) (m : MessageT)
    (type : MessageType) : (carried a b m).is type = m.is type := by
  rw [MessageT.is, carried_type, MessageT.is]

def MessageT.isReply (m : MessageT) : Bool :=
  m.is .serverOkRegister || m.is .serverFailureRegister

theorem MessageT.isReply_iff {m : MessageT} :
    m.isReply = true ↔ IsReply m := by
  rw [isReply, Bool.or_eq_true, is_iff, is_iff, IsReply]

@[simp] theorem carried_isReply (a b : ByteOrder) (m : MessageT) :
    (carried a b m).isReply = m.isReply := by
  simp only [MessageT.isReply, carried_is]

theorem MessageT.not_isReply {m : MessageT} {type : MessageType}
    (h : m.type = type.code) (hok : type ≠ .serverOkRegister)
    (hfailure : type ≠ .serverFailureRegister) : m.isReply = false := by
  rw [isReply, is_other h hok, is_other h hfailure]
  rfl

/-! ## Logs -/

@[simp] theorem framesTo_append (log log' : List Item) :
    framesTo (log ++ log') = framesTo log ++ framesTo log' :=
  List.filterMap_append

@[simp] theorem framesFrom_append (log log' : List Item) :
    framesFrom (log ++ log') = framesFrom log ++ framesFrom log' :=
  List.filterMap_append

@[simp] theorem framesTo_received (m : MessageT) :
    framesTo [.received m] = [] := rfl

@[simp] theorem framesFrom_received (m : MessageT) :
    framesFrom [.received m] = [m] := rfl

@[simp] theorem framesFrom_itemsTo (c : Conn) (fds : Int → Option Conn)
    (ks : List Call) : framesFrom (itemsTo c fds ks) = [] := by
  rw [framesFrom, List.filterMap_eq_nil_iff]
  intro x hx
  obtain ⟨fd, m, rfl, -, -⟩ := mem_itemsTo hx
  rfl

theorem mem_framesTo_itemsTo {c : Conn} {fds : Int → Option Conn}
    {ks : List Call} {m : MessageT} (h : m ∈ framesTo (itemsTo c fds ks)) :
    ∃ fd, Call.send fd m ∈ ks ∧ fds fd = some c := by
  rw [framesTo, List.mem_filterMap] at h
  obtain ⟨x, hx, hm⟩ := h
  obtain ⟨fd, m', rfl, hmem, hfd⟩ := mem_itemsTo hx
  obtain rfl := Option.some.inj hm
  exact ⟨fd, hmem, hfd⟩

theorem itemsTo_cons (c : Conn) (fds : Int → Option Conn) (k : Call)
    (ks : List Call) : itemsTo c fds (k :: ks) =
      itemsTo c fds [k] ++ itemsTo c (closeFds [k] fds) ks := by
  cases k with
  | send fd m => simp [itemsTo, closeFds]
  | close fd => rfl

/-- Closing descriptors takes calls away from a connection. -/
theorem countP_itemsTo_le {p : MessageT → Bool} {c : Conn}
    {fds fds' : Int → Option Conn} (hle : ∀ d c, fds' d = some c → fds d = some c)
    (ks : List Call) : (framesTo (itemsTo c fds' ks)).countP p ≤
      (framesTo (itemsTo c fds ks)).countP p := by
  induction ks generalizing fds fds' with
  | nil => exact Nat.le_refl _
  | cons k ks ih =>
      cases k with
      | send fd m =>
          simp only [itemsTo, framesTo_append, List.countP_append]
          refine Nat.add_le_add ?_ (ih hle)
          split
          · rename_i hfd
            rw [if_pos (hle fd c hfd)]
          · exact Nat.zero_le _
      | close fd =>
          refine ih ?_
          intro d c hd
          by_cases hdf : d = fd
          · rw [hdf, Function.update_self] at hd
            cases hd
          · rw [Function.update_of_ne hdf] at hd ⊢
            exact hle d c hd

/-! ## What the server says -/

/-- A message that `wait_for_messages` knows. -/
def Known (m : MessageT) : Prop :=
  m.type = MessageType.serverChatMessage.code ∨
    m.type = MessageType.serverListMessage.code ∨
    m.type = MessageType.serverCheckAlive.code ∨
    m.type = MessageType.serverShutdown.code

theorem Known.not_isReply {m : MessageT} (h : Known m) :
    m.isReply = false := by
  rcases h with h | h | h | h <;>
    exact MessageT.not_isReply h (by decide) (by decide)

/-- How many replies the main thread has still to send on `c`. -/
def Main.owes (fds : Int → Option Conn) (c : Conn) : Main → Nat
  | .idle => 0
  | .received _ fd m =>
      if m.is .clientNew = true ∧ fds fd = some c then 1 else 0
  | .calling k ks =>
      (framesTo (itemsTo c fds (k :: ks))).countP MessageT.isReply

@[simp] theorem Main.owes_calls (fds : Int → Option Conn) (c : Conn)
    (ks : List Call) : (Main.calls ks).owes fds c =
      (framesTo (itemsTo c fds ks)).countP MessageT.isReply := by
  cases ks <;> rfl

@[simp] theorem Main.owes_received (fds : Int → Option Conn) (c : Conn)
    (env : Env) (fd : Int) (m : MessageT) :
    (Main.received env fd m).owes fds c =
      if m.is .clientNew = true ∧ fds fd = some c then 1 else 0 := rfl

theorem Main.owes_le {fds fds' : Int → Option Conn}
    (hle : ∀ d c, fds' d = some c → fds d = some c) (c : Conn)
    (main : Main) : main.owes fds' c ≤ main.owes fds c := by
  cases main with
  | idle => exact Nat.le_refl _
  | received env fd m =>
      simp only [owes]
      split
      · rename_i h
        rw [if_pos ⟨h.1, hle fd c h.2⟩]
      · exact Nat.zero_le _
  | calling k ks => exact countP_itemsTo_le hle (k :: ks)

structure ServerTalks (s : Threads) : Prop where
  /-- There is no reply without a request. -/
  once : ∀ c, (framesTo (s.log c)).countP MessageT.isReply +
    s.main.owes s.fds c ≤ (framesFrom (s.log c)).countP (·.is .clientNew)
  spoken : ∀ c, ∀ m ∈ framesTo (s.log c), IsReply m ∨ Known m
  pending : ∀ fd m, Call.send fd m ∈ s.main.pending → IsReply m ∨ Known m

section Server

variable {s t : Threads} {env : Env} {fd : Int} {m : MessageT} {u : Server}
  {ks : List Call}

/-- Calls that send no reply. -/
theorem countP_isReply_itemsTo {fds : Int → Option Conn} (c : Conn)
    (h : ∀ d msg, Call.send d msg ∈ ks → Known msg) :
    (framesTo (itemsTo c fds ks)).countP MessageT.isReply = 0 := by
  rw [List.countP_eq_zero]
  intro msg hmsg
  obtain ⟨d, hk, -⟩ := mem_framesTo_itemsTo hmsg
  simp [(h d msg hk).not_isReply]

/-- What the server says goes on being answers and known messages. -/
theorem spoken_append (hs : ServerTalks s) {fds : Int → Option Conn}
    (h : ∀ d msg, Call.send d msg ∈ ks → IsReply msg ∨ Known msg) (c : Conn) :
    ∀ msg ∈ framesTo (s.log c ++ itemsTo c fds ks),
      IsReply msg ∨ Known msg := by
  intro msg hmsg
  rw [framesTo_append, List.mem_append] at hmsg
  rcases hmsg with hmsg | hmsg
  · exact hs.spoken c msg hmsg
  · obtain ⟨d, hk, -⟩ := mem_framesTo_itemsTo hmsg
    exact h d msg hk

/-- The heartbeat, or the end: calls that send no reply and open nothing. -/
theorem ServerTalks.aside (hs : ServerTalks s) {fds : Int → Option Conn}
    (ks : List Call) (h : ∀ d msg, Call.send d msg ∈ ks → Known msg)
    (hle : ∀ d c, t.fds d = some c → s.fds d = some c)
    (hmain : t.main = s.main)
    (hlog : t.log = fun c => s.log c ++ itemsTo c fds ks) :
    ServerTalks t := by
  refine ⟨fun c => ?_, fun c => ?_, ?_⟩
  · have honce := hs.once c
    have howes := Main.owes_le hle c s.main
    simp only [hlog, hmain, framesTo_append, framesFrom_append,
      framesFrom_itemsTo, List.append_nil, List.countP_append,
      countP_isReply_itemsTo c h]
    omega
  · rw [hlog]
    exact spoken_append hs (fun d msg hk => .inr (h d msg hk)) c
  · rw [hmain]
    exact hs.pending

theorem ServerTalks.locked (hs : ServerTalks s)
    (hmain : s.main = .received env fd m)
    (hlocked : Locked env fd m s.idle u ks) :
    ServerTalks { s with
      server := u
      fds := closeFds u.calls s.fds
      main := Main.calls ks
      log := fun c => s.log c ++ itemsTo c s.fds u.calls } := by
  have hchats := hlocked.chats rfl
  have hknown : ∀ d msg, Call.send d msg ∈ u.calls → Known msg := by
    intro d msg hk
    obtain ⟨d', msg', heq, hmsg⟩ := hchats _ hk
    obtain ⟨-, rfl⟩ := Call.send.inj heq
    exact .inl hmsg
  have hfds : closeFds u.calls s.fds = s.fds := closeFds_sends
    (fun k hk => by
      obtain ⟨d, msg, heq, -⟩ := hchats k hk
      exact ⟨d, msg, heq⟩) s.fds
  refine ⟨fun c => ?_, spoken_append hs fun d msg hk => .inr (hknown d msg hk),
    ?_⟩
  · have honce := hs.once c
    rw [hmain] at honce
    simp only [hfds, framesTo_append, framesFrom_append, framesFrom_itemsTo,
      List.append_nil, List.countP_append, countP_isReply_itemsTo c hknown,
      Main.owes_calls, Main.owes_received] at honce ⊢
    rcases hlocked.later with ⟨hnew, reply, rfl, hreply⟩ | ⟨hnew, hlist⟩
    · have hone : (framesTo (itemsTo c s.fds [.send fd reply])).countP
          MessageT.isReply = if s.fds fd = some c then 1 else 0 := by
        simp only [itemsTo, List.append_nil]
        split
        · simp [framesTo, MessageT.isReply_iff.mpr hreply]
        · rfl
      rw [hone]
      simpa only [MessageT.is_iff.mpr hnew, true_and, Nat.add_zero]
        using honce
    · rw [countP_isReply_itemsTo c fun d msg hk => .inr (.inl (hlist d msg hk).2)]
      omega
  · intro d msg hk
    rw [Main.pending_calls] at hk
    rcases hlocked.later with ⟨-, reply, rfl, hreply⟩ | ⟨-, hlist⟩
    · obtain ⟨-, rfl⟩ := Call.send.inj (List.mem_singleton.mp hk)
      exact .inl hreply
    · exact .inr (.inr (.inl (hlist d msg hk).2))

theorem ServerTalks.took {e : Turn} (hs : ServerTalks s)
    (h : s.Took e t) : ServerTalks t := by
  cases h with
  | accept hmain | hangup hmain =>
      refine ⟨fun c => ?_, hs.spoken, hs.pending⟩
      have honce := hs.once c
      rw [hmain] at honce
      simp only [hmain]
      exact honce
  | @receive env fd m c hmain hc =>
      refine ⟨fun d => ?_, fun d => ?_, by simp [Main.pending]⟩
      · have honce := hs.once d
        rw [hmain] at honce
        simp only [Main.owes] at honce ⊢
        by_cases hd : d = c
        · subst hd
          simp only [Function.update_self, framesTo_append, framesFrom_append,
            framesTo_received, framesFrom_received, List.append_nil,
            List.countP_append, List.countP_singleton, hc, and_true]
          omega
        · simp only [Function.update_of_ne hd, hc, Option.some.injEq,
            Ne.symm hd, and_false, if_false]
          exact honce
      · by_cases hd : d = c
        · subst hd
          simp only [Function.update_self, framesTo_append, framesTo_received,
            List.append_nil]
          exact hs.spoken d
        · simp only [Function.update_of_ne hd]
          exact hs.spoken d
  | locked hmain hlocked => exact hs.locked hmain hlocked
  | @call k ks hmain =>
      have hpending := hs.pending
      rw [hmain] at hpending
      refine ⟨fun c => ?_, spoken_append hs fun d msg hk => hpending d msg ?_,
        fun d msg hk => hpending d msg ?_⟩
      · have honce := hs.once c
        rw [hmain, Main.owes, itemsTo_cons] at honce
        simp only [framesTo_append, framesFrom_append, framesFrom_itemsTo,
          List.append_nil, List.countP_append, Main.owes_calls] at honce ⊢
        omega
      · rw [List.mem_singleton.mp hk]
        exact List.mem_cons_self
      · rw [Main.pending_calls] at hk
        exact List.mem_cons_of_mem k hk
  | firstPass _ hcalls =>
      refine hs.aside _ ?_ (fun d c => closeFds_le) rfl rfl
      intro d msg hk
      obtain ⟨i, -, heq⟩ := (hcalls _).mp hk
      obtain ⟨-, rfl⟩ := Call.send.inj heq
      exact .inr (.inr (.inl rfl))
  | secondPass _ hcalls =>
      refine hs.aside _ ?_ (fun d c => closeFds_le) rfl rfl
      intro d msg hk
      obtain ⟨i, -, -, heq⟩ := hcalls _ hk
      cases heq

/-- What `cleanup` sends. -/
theorem mem_shutDown_calls {d : Int} {msg : MessageT}
    (h : Call.send d msg ∈ (s.shutDown env).server.calls) :
    ∃ i, (s.server.slots i).valid = true ∧ d = (s.server.slots i).socket ∧
      msg = env.serverMessage i .serverShutdown "" := by
  rcases List.mem_append.mp h with h | h
  · obtain ⟨i, -, h⟩ := List.mem_flatMap.mp h
    rw [Env.shutdownCalls] at h
    split at h
    · rename_i hvalid
      simp only [List.mem_cons, Call.send.injEq, reduceCtorEq,
        List.not_mem_nil, or_false] at h
      exact ⟨i, hvalid, h.1, h.2⟩
    · cases h
  · simp at h

theorem ServerTalks.shutDown (hs : ServerTalks s) (env : Env) :
    ServerTalks (s.shutDown env) := by
  refine hs.aside (s.shutDown env).server.calls ?_ ?_ rfl rfl
  · intro d msg hk
    obtain ⟨i, -, -, rfl⟩ := mem_shutDown_calls hk
    exact .inr (.inr (.inr rfl))
  · intro d c hd
    cases hd

end Server

/-! ## What a step of the server adds to a connection -/

/-- The server goes on from `s` to `t`, and on a connection that is closed
says nothing more. -/
structure Onward (s t : Threads) (c : Conn) : Prop where
  adds : ∃ ms, framesTo (t.log c) = framesTo (s.log c) ++ ms ∧
    (s.Closed c → ms = [])
  closed : s.Closed c → t.Closed c

/-- What the server has received after a step. -/
def Received (s t : Threads) (e : Turn) (c : Conn) : Prop :=
  framesFrom (t.log c) = framesFrom (s.log c) ∨
    ∃ env fd m, e = .receive env fd m ∧ s.fds fd = some c ∧
      framesFrom (t.log c) = framesFrom (s.log c) ++ [m]

section Onward

variable {s t : Threads} {e : Turn} {c : Conn}

/-- Calls are made, and nothing is opened. -/
theorem Onward.of_calls {ks : List Call}
    (hle : ∀ d c, t.fds d = some c → s.fds d = some c)
    (haccepted : t.accepted = s.accepted)
    (hlog : t.log c = s.log c ++ itemsTo c s.fds ks) : Onward s t c := by
  refine ⟨⟨framesTo (itemsTo c s.fds ks), ?_, ?_⟩, ?_⟩
  · rw [hlog, framesTo_append]
  · intro hclosed
    rw [itemsTo_closed hclosed.2]
    rfl
  · rintro ⟨hless, hnone⟩
    rw [Threads.Closed, haccepted]
    exact ⟨hless, fun fd hfd => hnone fd (hle fd c hfd)⟩

theorem Threads.Took.onward (h : s.Took e t) (c : Conn) : Onward s t c := by
  cases h with
  | @accept fd hmain hnone =>
      refine ⟨⟨[], (List.append_nil _).symm, fun _ => rfl⟩, ?_⟩
      rintro ⟨hless, hclosed⟩
      refine ⟨Nat.lt_succ_of_lt hless, ?_⟩
      intro d hd
      have hd : Function.update s.fds fd (some s.accepted) d = some c := hd
      by_cases hdf : d = fd
      · rw [hdf, Function.update_self, Option.some.injEq] at hd
        exact Nat.ne_of_gt hless hd
      · rw [Function.update_of_ne hdf] at hd
        exact hclosed d hd
  | hangup =>
      refine ⟨⟨[], (List.append_nil _).symm, fun _ => rfl⟩, ?_⟩
      rintro ⟨hless, hclosed⟩
      exact ⟨hless, fun d hd => hclosed d (of_update_none hd)⟩
  | @receive env fd m c' hmain hc =>
      refine ⟨⟨[], ?_, fun _ => rfl⟩, fun hclosed => hclosed⟩
      by_cases hcc : c = c'
      · subst hcc
        simp
      · simp [Function.update_of_ne hcc]
  | locked | call | firstPass | secondPass =>
      exact .of_calls (fun d c => closeFds_le) rfl rfl

theorem Threads.Took.received (h : s.Took e t) (c : Conn) :
    Received s t e c := by
  cases h with
  | accept | hangup => exact .inl rfl
  | @receive env fd m c' hmain hc =>
      by_cases hcc : c = c'
      · subst hcc
        exact .inr ⟨env, fd, m, rfl, hc, by simp⟩
      · exact .inl (by simp [Function.update_of_ne hcc])
  | locked | call | firstPass | secondPass => exact .inl (by simp)

theorem onward_shutDown (env : Env) (c : Conn) :
    Onward s (s.shutDown env) c :=
  .of_calls (by intro d c hd; cases hd) rfl rfl

end Onward

/-! ## The room -/

/-- Nothing comes to the client any more. -/
def ChatRoom.Silent (s : ChatRoom) (c : Conn) : Prop :=
  s.server.Closed c ∧ s.toClient c = none

/-- How many of the messages that the client has received have the
property. -/
def ChatRoom.got (s : ChatRoom) (c : Conn) (p : MessageT → Bool) : Nat :=
  ((framesTo (s.server.log c)).take (s.client c).read).countP p

/-- The answer that the listener has still to send. -/
def Listener.owes (listener : Listener) : Nat :=
  if listener = .answer then 1 else 0

/-- What holds of a client that has not ended and of its connection. -/
structure Converses (host : ByteOrder) (hosts : Conn → ByteOrder)
    (s : ChatRoom) (c : Conn) : Prop where
  /-- The listener is created behind `register_on_server`. -/
  waits : (s.client c).main = .register ∨ (s.client c).main = .awaitReply →
    (s.client c).listener = .notCreated
  /-- What the server has received was sent. -/
  received : framesFrom (s.server.log c) <+:
    (s.client c).sent.map (carried (hosts c) host)
  /-- A client with a listener has received its reply. -/
  registered : (s.client c).listener ≠ .notCreated →
    s.Silent c ∨ 1 ≤ s.got c MessageT.isReply
  /-- It does not answer what it was not asked. -/
  answers : s.Silent c ∨
    (s.client c).sent.countP (·.is .clientAlive) +
      (s.client c).listener.owes ≤ s.got c (·.is .serverCheckAlive)
  asked : (framesFrom (s.server.log c)).countP (·.is .clientAlive) ≤
    (framesTo (s.server.log c)).countP (·.is .serverCheckAlive)

structure Converse (host : ByteOrder) (hosts : Conn → ByteOrder)
    (s : ChatRoom) : Prop where
  server : ServerTalks s.server
  /-- A client asks for its name once. -/
  asksOnce : ∀ c, (s.client c).sent.countP (·.is .clientNew) ≤
    if (s.client c).main = .register then 0 else 1
  clients : ∀ c, (s.client c).ended = false → Converses host hosts s c

section Room

variable {host : ByteOrder} {hosts : Conn → ByteOrder} {s t : ChatRoom}
  {c : Conn} {p : MessageT → Bool}

theorem got_le (s : ChatRoom) (c : Conn) (p : MessageT → Bool) :
    s.got c p ≤ (framesTo (s.server.log c)).countP p :=
  (List.take_sublist _ _).countP_le

/-! ### Steps of the server -/

theorem Onward.silent (h : Onward s.server t.server c)
    (hclient : t.client = s.client) (hs : s.Silent c) : t.Silent c := by
  obtain ⟨ms, heq, hms⟩ := h.adds
  refine ⟨h.closed hs.1, ?_⟩
  rw [ChatRoom.toClient, heq, hms hs.1, List.append_nil, hclient]
  exact hs.2

theorem Onward.got_le (h : Onward s.server t.server c)
    (hclient : t.client = s.client) : s.got c p ≤ t.got c p := by
  obtain ⟨ms, heq, -⟩ := h.adds
  rw [ChatRoom.got, ChatRoom.got, heq, hclient, List.take_append,
    List.countP_append]
  exact Nat.le_add_right _ _

/-- What the server receives next is what the client sent next. -/
theorem next_received {x : MessageT}
    (hreceived : framesFrom (s.server.log c) <+:
      (s.client c).sent.map (carried (hosts c) host))
    (hnext : s.toServer c = some x) :
    framesFrom (s.server.log c) ++ [carried (hosts c) host x] <+:
      (s.client c).sent.map (carried (hosts c) host) := by
  obtain ⟨rest, hrest⟩ := hreceived
  rw [ChatRoom.toServer] at hnext
  have hmap : ((s.client c).sent.map (carried (hosts c) host))[
      (framesFrom (s.server.log c)).length]? =
      some (carried (hosts c) host x) := by
    rw [List.getElem?_map, hnext]
    rfl
  rw [← hrest, List.getElem?_append_right (Nat.le_refl _), Nat.sub_self]
    at hmap
  obtain ⟨tail, rfl⟩ : ∃ tail, rest = carried (hosts c) host x :: tail := by
    cases rest with
    | nil => cases hmap
    | cons y tail =>
        obtain rfl := Option.some.inj hmap
        exact ⟨tail, rfl⟩
  exact ⟨tail, by rw [← hrest, List.append_assoc]; rfl⟩

/-- How many messages of a kind have been received, against how many were
sent. -/
theorem countP_received_le {frames : List MessageT}
    (h : frames <+: (s.client c).sent.map (carried (hosts c) host))
    (type : MessageType) : frames.countP (·.is type) ≤
      (s.client c).sent.countP (·.is type) := by
  have hsent := h.sublist.countP_le (p := fun m => m.is type)
  rw [List.countP_map] at hsent
  have hsame : (fun m : MessageT => m.is type) ∘ carried (hosts c) host =
      fun m => m.is type := by
    funext m
    exact carried_is _ _ m _
  rwa [hsame] at hsent

/-- The server steps, and has received nothing on the connection or the
next frame of the client. -/
theorem Converses.server (hs : Converses host hosts s c)
    (honward : Onward s.server t.server c) (hclient : t.client = s.client)
    (hreceived : framesFrom (t.server.log c) = framesFrom (s.server.log c) ∨
      ∃ x fd, s.toServer c = some x ∧ s.server.fds fd = some c ∧
        framesFrom (t.server.log c) =
          framesFrom (s.server.log c) ++ [carried (hosts c) host x]) :
    Converses host hosts t c := by
  have hsays : (framesTo (s.server.log c)).countP (·.is .serverCheckAlive) ≤
      (framesTo (t.server.log c)).countP (·.is .serverCheckAlive) := by
    obtain ⟨ms, heq, -⟩ := honward.adds
    rw [heq, List.countP_append]
    exact Nat.le_add_right _ _
  refine ⟨by rw [hclient]; exact hs.waits, ?_, ?_, ?_, ?_⟩
  · rw [hclient]
    rcases hreceived with heq | ⟨x, fd, hnext, -, heq⟩
    · rw [heq]
      exact hs.received
    · rw [heq]
      exact next_received hs.received hnext
  · rw [hclient]
    intro hlistener
    rcases hs.registered hlistener with hsilent | hreply
    · exact .inl (honward.silent hclient hsilent)
    · exact .inr (Nat.le_trans hreply (honward.got_le hclient))
  · rw [hclient]
    rcases hs.answers with hsilent | hanswers
    · exact .inl (honward.silent hclient hsilent)
    · exact .inr (Nat.le_trans hanswers (honward.got_le hclient))
  · rcases hreceived with heq | ⟨x, fd, hnext, hfd, heq⟩
    · rw [heq]
      exact Nat.le_trans hs.asked hsays
    · -- the connection is open, so the client was asked for what it sent
      rcases hs.answers with hsilent | hanswers
      · exact absurd hfd (hsilent.1.2 fd)
      · have hsent := countP_received_le (next_received hs.received hnext)
          .clientAlive
        have hgot := got_le s c (·.is .serverCheckAlive)
        rw [heq]
        omega

/-! ### Steps of a client -/

/-- A client steps without receiving anything. -/
theorem Converses.speaks (hs : Converses host hosts s c)
    (hserver : t.server = s.server)
    (hread : (t.client c).read = (s.client c).read) {ms : List MessageT}
    (hsent : (t.client c).sent = (s.client c).sent ++ ms)
    (hlistener : (t.client c).listener ≠ .notCreated →
      (s.client c).listener ≠ .notCreated)
    (hwaits : (t.client c).main = .register ∨
        (t.client c).main = .awaitReply →
      (t.client c).listener = .notCreated)
    (howes : ms.countP (·.is .clientAlive) + (t.client c).listener.owes ≤
      (s.client c).listener.owes) : Converses host hosts t c := by
  have hgot : ∀ p, t.got c p = s.got c p := by
    intro p
    rw [ChatRoom.got, ChatRoom.got, hserver, hread]
  have hsilent : s.Silent c → t.Silent c := by
    rw [ChatRoom.Silent, ChatRoom.Silent, ChatRoom.toClient,
      ChatRoom.toClient, hserver, hread]
    exact id
  refine ⟨hwaits, ?_, ?_, ?_, ?_⟩
  · rw [hserver, hsent, List.map_append]
    exact hs.received.trans (List.prefix_append _ _)
  · intro hcreated
    rw [hgot]
    exact (hs.registered (hlistener hcreated)).imp_left hsilent
  · rw [hgot, hsent, List.countP_append]
    refine hs.answers.imp hsilent fun hanswers => ?_
    omega
  · rw [hserver]
    exact hs.asked

/-- A client steps without receiving or sending anything. -/
theorem Converses.quiet (hs : Converses host hosts s c)
    (hserver : t.server = s.server)
    (hread : (t.client c).read = (s.client c).read)
    (hsent : (t.client c).sent = (s.client c).sent)
    (hlistener : (t.client c).listener ≠ .notCreated →
      (s.client c).listener ≠ .notCreated)
    (hwaits : (t.client c).main = .register ∨
        (t.client c).main = .awaitReply →
      (t.client c).listener = .notCreated)
    (howes : (t.client c).listener.owes ≤ (s.client c).listener.owes) :
    Converses host hosts t c :=
  hs.speaks hserver hread (hsent.trans (List.append_nil _).symm) hlistener
    hwaits (by rwa [List.countP_nil, Nat.zero_add])

/-- Another client steps. -/
theorem Converses.elsewhere (hs : Converses host hosts s c)
    (hserver : t.server = s.server) (hclient : t.client c = s.client c) :
    Converses host hosts t c := by
  refine hs.quiet hserver (by rw [hclient]) (by rw [hclient])
    (by rw [hclient]; exact id) ?_ (by rw [hclient])
  rw [hclient]
  exact hs.waits

/-- A client receives: the connection is silent, or the message is the next
one of the server. -/
theorem got_received {m : MessageT} (hdelivers : s.Delivers host hosts c m)
    (hserver : t.server = s.server)
    (hread : (t.client c).read = (s.client c).read + 1) :
    t.Silent c ∨ ∃ x, s.toClient c = some x ∧ m = carried host (hosts c) x ∧
      ∀ p, t.got c p = s.got c p + if p x then 1 else 0 := by
  rcases hdelivers with ⟨x, hx, hm⟩ | ⟨hnone, hclosed⟩
  · refine .inr ⟨x, hx, hm, ?_⟩
    intro p
    rw [ChatRoom.toClient] at hx
    rw [ChatRoom.got, ChatRoom.got, hserver, hread, List.take_add_one, hx,
      List.countP_append, Option.toList_some, List.countP_singleton]
  · refine .inl ⟨?_, ?_⟩
    · rw [hserver]
      exact hclosed
    · rw [ChatRoom.toClient, List.getElem?_eq_none_iff] at hnone ⊢
      rw [hserver, hread]
      exact Nat.le_succ_of_le hnone

/-- A client receives, and sends nothing. -/
theorem Converses.receives (hs : Converses host hosts s c) {m : MessageT}
    (hdelivers : s.Delivers host hosts c m) (hserver : t.server = s.server)
    (hread : (t.client c).read = (s.client c).read + 1)
    (hsent : (t.client c).sent = (s.client c).sent)
    (hcreated : (s.client c).listener = .notCreated → IsReply m)
    (hwaits : (t.client c).main = .register ∨
        (t.client c).main = .awaitReply →
      (t.client c).listener = .notCreated)
    (howes : (s.client c).listener.owes = 0)
    (howes' : (t.client c).listener.owes ≤
      if m.is .serverCheckAlive then 1 else 0) :
    Converses host hosts t c := by
  have hreceived := got_received hdelivers hserver hread
  refine ⟨hwaits, ?_, ?_, ?_, ?_⟩
  · rw [hserver, hsent]
    exact hs.received
  · intro _
    refine hreceived.imp_right ?_
    rintro ⟨x, hx, rfl, hgot⟩
    rw [hgot]
    by_cases hlistener : (s.client c).listener = .notCreated
    · have hreply := MessageT.isReply_iff.mpr (hcreated hlistener)
      rw [carried_isReply] at hreply
      rw [if_pos hreply]
      omega
    · rcases hs.registered hlistener with hsilent | hone
      · rw [hsilent.2] at hx
        cases hx
      · omega
  · rcases hreceived with hsilent | ⟨x, hx, rfl, hgot⟩
    · exact .inl hsilent
    · rcases hs.answers with hsilent | hanswers
      · rw [hsilent.2] at hx
        cases hx
      · refine .inr ?_
        rw [carried_is] at howes'
        rw [hgot, hsent]
        omega
  · rw [hserver]
    exact hs.asked

theorem Listener.owes_handle (m : MessageT) :
    (Listener.handle m).owes ≤ if m.is .serverCheckAlive then 1 else 0 := by
  rw [Listener.handle]
  split
  · exact Nat.zero_le _
  split
  · exact Nat.zero_le _
  split
  · rename_i hm
    rw [MessageT.is_iff.mpr hm]
    exact Nat.le_refl _
  split <;> exact Nat.zero_le _

theorem isReply_of_registered {m : MessageT}
    (h : registerOnServer m = .registered) : IsReply m := by
  rw [registerOnServer] at h
  split at h
  · cases h
  split at h
  · cases h
  · rename_i hok
    exact .inl (not_not.mp hok)

/-- With a listener, the client is registered. -/
theorem Converses.not_waiting (hs : Converses host hosts s c)
    (hcreated : (s.client c).listener ≠ .notCreated) :
    ¬ ((s.client c).main = .register ∨ (s.client c).main = .awaitReply) :=
  fun hmain => hcreated (hs.waits hmain)

/-- One step of a client that has not ended after it. -/
theorem Converses.acted {a : ClientAction} {x : Client}
    (hs : Converses host hosts s c) (h : (s.client c).Acted a x)
    (hallows : s.Allows host hosts (.client c a)) (hended : x.ended = false)
    (hserver : t.server = s.server) (hclient : t.client c = x) :
    Converses host hosts t c := by
  have hother : ∀ {m : MessageT} {type : MessageType}, m.type = type.code →
      type ≠ .clientAlive → [m].countP (·.is .clientAlive) = 0 := by
    intro m type hm hne
    rw [List.countP_singleton, MessageT.is_other hm hne]
    rfl
  have hwaits := hs.waits
  cases h with
  | registers hmain hm =>
      refine hs.speaks hserver (by rw [hclient]) (by rw [hclient])
        (by rw [hclient]; exact id) ?_ ?_
      · rw [hclient]
        exact fun _ => hwaits (.inl hmain)
      · rw [hclient, hother hm (by decide), Nat.zero_add]
  | @registered m line stdin hmain hreply =>
      have hnot := hwaits (.inr hmain)
      refine hs.receives hallows hserver (by rw [hclient]) (by rw [hclient])
        (fun _ => isReply_of_registered hreply) ?_ (by rw [hnot]; rfl) ?_
      · rw [hclient]
        simp
      · rw [hclient]
        exact Nat.zero_le _
  | fails => cases hended
  | commands _ hm =>
      have hcount := hm.elim (hother · (by decide)) fun hm =>
        hm.elim (hother · (by decide)) (hother · (by decide))
      refine hs.speaks hserver (by rw [hclient]) (by rw [hclient])
        (by rw [hclient]; exact id) (by rw [hclient]; simp) ?_
      rw [hclient, hcount, Nat.zero_add]
  | stops _ hm | leaves _ hm =>
      refine hs.speaks hserver (by rw [hclient]) (by rw [hclient])
        (by rw [hclient]; exact id) (by rw [hclient]; simp) ?_
      rw [hclient, hother hm (by decide), Nat.zero_add]
  | unknown | interrupted =>
      exact hs.quiet hserver (by rw [hclient]) (by rw [hclient])
        (by rw [hclient]; exact id) (by rw [hclient]; simp) (by rw [hclient])
  | @listens m hlistener =>
      have hcreated : (s.client c).listener ≠ .notCreated := by
        rw [hlistener]
        decide
      refine hs.receives hallows hserver (by rw [hclient]) (by rw [hclient])
        ?_ ?_ (by rw [hlistener]; rfl)
        (by rw [hclient]; exact Listener.owes_handle m)
      · exact fun h => absurd h hcreated
      · rw [hclient]
        exact fun hmain => absurd hmain (hs.not_waiting hcreated)
  | receiveFails hlistener =>
      have hcreated : (s.client c).listener ≠ .notCreated := by
        rw [hlistener]
        decide
      refine hs.quiet hserver (by rw [hclient]) (by rw [hclient])
        (fun _ => hcreated) ?_ ?_
      · rw [hclient]
        exact fun hmain => absurd hmain (hs.not_waiting hcreated)
      · rw [hclient]
        exact Nat.zero_le _
  | answers hlistener hm =>
      have hcreated : (s.client c).listener ≠ .notCreated := by
        rw [hlistener]
        decide
      refine hs.speaks hserver (by rw [hclient]) (by rw [hclient])
        (fun _ => hcreated) ?_ ?_
      · rw [hclient]
        exact fun hmain => absurd hmain (hs.not_waiting hcreated)
      · rw [hclient, hlistener, List.countP_singleton,
          MessageT.is_iff.mpr hm]
        exact Nat.le_refl 1
  | listenerInterrupted hcreated =>
      refine hs.quiet hserver (by rw [hclient]) (by rw [hclient])
        (fun _ => hcreated) ?_ ?_
      · rw [hclient]
        exact fun hmain => absurd hmain (hs.not_waiting hcreated)
      · rw [hclient]
        exact Nat.zero_le _
  | listenerLeaves hlistener hm =>
      have hcreated : (s.client c).listener ≠ .notCreated := by
        rw [hlistener]
        simp
      refine hs.speaks hserver (by rw [hclient]) (by rw [hclient])
        (fun _ => hcreated) ?_ ?_
      · rw [hclient]
        exact fun hmain => absurd hmain (hs.not_waiting hcreated)
      · rw [hclient, hother hm (by decide)]
        exact Nat.zero_le _
  | ends => cases hended

/-! ### Runs -/

/-- A client asks for its name before anything else, and only then. -/
theorem Client.Acted.asksOnce {d : Client} {x : Client} {a : ClientAction}
    (h : d.Acted a x) (hd : d.sent.countP (·.is .clientNew) ≤
      if d.main = .register then 0 else 1) :
    x.sent.countP (·.is .clientNew) ≤
      if x.main = .register then 0 else 1 := by
  have hone : d.sent.countP (·.is .clientNew) ≤ 1 := by
    refine Nat.le_trans hd ?_
    split <;> omega
  have hsame : ∀ {m : MessageT} {type : MessageType}, m.type = type.code →
      type ≠ .clientNew → (d.sent ++ [m]).countP (·.is .clientNew) =
        d.sent.countP (·.is .clientNew) := by
    intro m type hm hne
    rw [List.countP_append, List.countP_singleton, MessageT.is_other hm hne]
    rfl
  cases h with
  | registers hmain hm =>
      rw [if_pos hmain] at hd
      rw [List.countP_append, List.countP_singleton, MessageT.is_iff.mpr hm]
      simpa using hd
  | commands _ hm =>
      have hcount := hm.elim (hsame · (by decide)) fun hm =>
        hm.elim (hsame · (by decide)) (hsame · (by decide))
      rw [hcount]
      simpa using hone
  | stops _ hm | leaves _ hm =>
      rw [hsame hm (by decide)]
      simpa using hone
  | answers _ hm | listenerLeaves _ hm =>
      rw [hsame hm (by decide)]
      exact hd
  | registered | unknown | interrupted => simpa using hone
  | fails | listens | receiveFails | listenerInterrupted | ends => exact hd

theorem Converse.step {e : RoomEvent} (hs : Converse host hosts s)
    (hallows : s.Allows host hosts e) (h : s.Stepped e t) :
    Converse host hosts t := by
  cases h with
  | @server e u hrunning htook =>
      refine ⟨hs.server.took htook, hs.asksOnce, fun c hended => ?_⟩
      refine (hs.clients c hended).server (htook.onward c) rfl ?_
      rcases htook.received c with heq | ⟨env, fd, m, rfl, hfd, heq⟩
      · exact .inl heq
      · rcases hallows c hfd with ⟨x, hx, rfl⟩ | ⟨-, hdead⟩
        · exact .inr ⟨x, fd, hx, hfd, heq⟩
        · have hended : (s.client c).ended = false := hended
          rw [hended] at hdead
          cases hdead
  | @sigint env hrunning =>
      refine ⟨hs.server.shutDown env, hs.asksOnce, fun c hended => ?_⟩
      refine (hs.clients c hended).server (onward_shutDown env c) rfl
        (.inl ?_)
      simp [Threads.shutDown]
  | @client c a x hended hacted =>
      refine ⟨hs.server, fun d => ?_, fun d hended' => ?_⟩
      · by_cases hdc : d = c
        · subst hdc
          simp only [Function.update_self]
          exact hacted.asksOnce (hs.asksOnce d)
        · simp only [Function.update_of_ne hdc]
          exact hs.asksOnce d
      · by_cases hdc : d = c
        · subst hdc
          simp only [Function.update_self] at hended'
          exact (hs.clients d hended).acted hacted hallows hended' rfl
            (Function.update_self d x s.client)
        · simp only [Function.update_of_ne hdc] at hended'
          exact (hs.clients d hended').elsewhere rfl
            (Function.update_of_ne hdc x s.client)

theorem converse_initial (serverSocket epollFd : Int) (user : Conn → UserEnv)
    (stdin : Conn → List Byte) : Converse host hosts
      (ChatRoom.initial serverSocket epollFd user stdin) := by
  refine ⟨⟨fun c => Nat.le_refl _, fun c m hm => ?_, fun fd m hm => ?_⟩,
    fun c => Nat.le_refl _, fun c _ => ⟨fun _ => rfl, ?_, ?_, ?_, ?_⟩⟩
  · cases hm
  · cases hm
  · exact List.nil_prefix
  · exact fun h => absurd rfl h
  · exact .inr (Nat.le_refl _)
  · exact Nat.le_refl _

theorem converse_of_reachable (h : (chatRoom host hosts).Reachable s) :
    Converse host hosts s := by
  refine h.invariant (I := Converse host hosts) ?_ ?_
  · rintro s ⟨serverSocket, epollFd, user, stdin, rfl⟩
    exact converse_initial serverSocket epollFd user stdin
  · exact fun s e t hs _ hst => hs.step hst.1 (ChatRoom.next_stepped hst.2)

/-- **A listener knows every message of the server that it receives**, for
every order of the steps of the server and of all clients: behind the reply
to its `CLIENT_NEW` there is no second one. -/
theorem listener_knows (h : (chatRoom host hosts).Reachable s)
    (hended : (s.client c).ended = false)
    (hlistener : (s.client c).listener = .receive) {x : MessageT}
    (hnext : s.toClient c = some x) : Known x := by
  have hs := converse_of_reachable h
  have hc := hs.clients c hended
  have hone : (framesTo (s.server.log c)).countP MessageT.isReply ≤ 1 := by
    have honce := hs.server.once c
    have hasks := hs.asksOnce c
    have hsent := countP_received_le hc.received .clientNew
    split at hasks <;> omega
  rcases hc.registered (by rw [hlistener]; decide) with hsilent | hreply
  · rw [hsilent.2] at hnext
    cases hnext
  · -- all replies are among the messages that it has received
    rw [ChatRoom.toClient] at hnext
    have hmem := List.mem_of_getElem? hnext
    refine (hs.server.spoken c x hmem).resolve_left ?_
    intro his
    have hsplit := List.take_append_drop (s.client c).read
      (framesTo (s.server.log c))
    rw [← hsplit, List.countP_append] at hone
    have hdrop : x ∈ (framesTo (s.server.log c)).drop (s.client c).read := by
      refine List.mem_of_getElem? (i := 0) ?_
      rw [List.getElem?_drop, Nat.add_zero, hnext]
    have hpos : 0 < ((framesTo (s.server.log c)).drop
        (s.client c).read).countP MessageT.isReply :=
      List.countP_pos_iff.mpr ⟨x, hdrop, MessageT.isReply_iff.mpr his⟩
    rw [ChatRoom.got] at hreply
    omega

/-- A client is registered and asked whether it is alive. -/
theorem listener_knows_check_alive : ∃ s x,
    (chatRoom .little littleEndian).Reachable s ∧
      s.toClient 0 = some x ∧ Known x := by
  obtain ⟨s, hs, hp⟩ := System.ReachableIf.exists_of_runLabels
    (S := chatRoom .little littleEndian) (C := fun _ _ => True)
    (ChatRoom.nextExpected _ _) ChatRoom.nextExpected_step
    (RoomEvent.joins 0 5 "c" ++ [.server (.firstPass Env.zeros)])
    (p := fun s => !(s.client 0).ended &&
      (decide ((s.client 0).listener = .receive) && (s.toClient 0).isSome))
    (.init (chatRoom_init _ _ (fun _ => UserEnv.zeros) fun _ => []))
    (by decide +kernel)
  simp only [Bool.and_eq_true, Bool.not_eq_true', decide_eq_true_eq] at hp
  obtain ⟨hended, hlistener, hsome⟩ := hp
  obtain ⟨x, hx⟩ := Option.isSome_iff_exists.mp hsome
  exact ⟨s, x, hs, hx, listener_knows hs hended hlistener hx⟩

/-- **A `CLIENT_ALIVE` never comes unasked**: as long as a client has not
ended, the server has received no more of them on its connection than it
has sent `SERVER_CHECK_ALIVE`. -/
theorem alive_asked (h : (chatRoom host hosts).Reachable s)
    (hended : (s.client c).ended = false) :
    (framesFrom (s.server.log c)).countP (·.is .clientAlive) ≤
      (framesTo (s.server.log c)).countP (·.is .serverCheckAlive) :=
  ((converse_of_reachable h).clients c hended).asked

/-- A client answers the heartbeat. -/
theorem alive_asked_once : ∃ s,
    (chatRoom .little littleEndian).Reachable s ∧
    (framesFrom (s.server.log 0)).countP (·.is .clientAlive) = 1 ∧
    (framesFrom (s.server.log 0)).countP (·.is .clientAlive) ≤
      (framesTo (s.server.log 0)).countP (·.is .serverCheckAlive) := by
  obtain ⟨s, hs, hp⟩ := System.ReachableIf.exists_of_runLabels
    (S := chatRoom .little littleEndian) (C := fun _ _ => True)
    (ChatRoom.nextExpected _ _) ChatRoom.nextExpected_step
    (RoomEvent.joins 0 5 "c" ++ [.server (.firstPass Env.zeros),
      .client 0 (.listen (Env.zeros.serverMessage 0 .serverCheckAlive "")),
      .client 0 (.answer 0),
      .server (.receive Env.zeros 5 (frameFrom .clientAlive "c"))])
    (p := fun s => !(s.client 0).ended &&
      decide ((framesFrom (s.server.log 0)).countP (·.is .clientAlive) = 1))
    (.init (chatRoom_init _ _ (fun _ => UserEnv.zeros) fun _ => []))
    (by decide +kernel)
  simp only [Bool.and_eq_true, Bool.not_eq_true', decide_eq_true_eq] at hp
  exact ⟨s, hs, hp.2, alive_asked hs hp.1⟩

end Room

end Sysops.Cw11
