import Sysops.Cw11.Client
import Sysops.Cw11.ServerSteps

/-!
# The chat room

The server, and for each connection the client at its other end, in any
order of their steps. What a client sends goes over the wire in whole frames
and in order, and so does what the server sends. When the other end is
closed and everything has been read, `recv` returns 0, and `receive_message`
makes a message of whatever its buffer holds.
-/

namespace Sysops.Cw11

/-! ## The connections -/

/-- The messages that the server sent on a connection. -/
def framesTo (log : List Item) : List MessageT :=
  log.filterMap fun
    | .sent m => some m
    | .received _ => none

/-- The messages that the server received on a connection. -/
def framesFrom (log : List Item) : List MessageT :=
  log.filterMap fun
    | .received m => some m
    | .sent _ => none

/-- A message on the other side of the wire; the buffers hold zeros. -/
def carried (a b : ByteOrder) (m : MessageT) : MessageT :=
  deserializeMessageT b
    (serializeMessageT a m (Bytes.ofList maxMsgNetBuf [])) encodedLength_le

theorem carried_eq (a b : ByteOrder) (m : MessageT) : carried a b m =
    { m with timestamp := receivedTimestamp a b m.timestamp } :=
  deserialize_of_encoding a b m encodedLength_le
    ⟨_, (toList_serializeMessageT a m _).symm⟩

@[simp] theorem carried_type (a b : ByteOrder) (m : MessageT) :
    (carried a b m).type = m.type := by
  rw [carried_eq]

@[simp] theorem carried_sender (a b : ByteOrder) (m : MessageT) :
    (carried a b m).sender = m.sender := by
  rw [carried_eq]

@[simp] theorem carried_message (a b : ByteOrder) (m : MessageT) :
    (carried a b m).message = m.message := by
  rw [carried_eq]

/-- The server's end of the connection is closed. -/
def Threads.Closed (s : Threads) (c : Conn) : Prop :=
  c < s.accepted ∧ ∀ fd, s.fds fd ≠ some c

/-! ## The system -/

/-- `client c` is the process whose connection is the `c`-th to be
accepted. -/
structure ChatRoom where
  server : Threads
  /-- The server process has not ended. -/
  running : Bool
  client : Conn → Client

inductive RoomEvent where
  | server (e : Turn)
  /-- The server gets a `SIGINT` between two of its steps, and its handler
  runs undisturbed: no other thread goes on, no second signal comes and no
  send fails before `exit`. -/
  | sigint (env : Env)
  | client (c : Conn) (a : ClientAction)

namespace ChatRoom

variable (host : ByteOrder) (hosts : Conn → ByteOrder) (s : ChatRoom)

/-- The next message of the client that the server has not received. -/
def toServer (c : Conn) : Option MessageT :=
  (s.client c).sent[(framesFrom (s.server.log c)).length]?

/-- The next message of the server that the client has not received. -/
def toClient (c : Conn) : Option MessageT :=
  (framesTo (s.server.log c))[(s.client c).read]?

/-- What `receive_message` of the server may return. -/
def Arrives (fd : Int) (m : MessageT) : Prop :=
  ∀ c, s.server.fds fd = some c →
    (∃ x, s.toServer c = some x ∧ m = carried (hosts c) host x) ∨
      (s.toServer c = none ∧ (s.client c).ended = true)

/-- What `receive_message` of a client may return. -/
def Delivers (c : Conn) (m : MessageT) : Prop :=
  (∃ x, s.toClient c = some x ∧ m = carried host (hosts c) x) ∨
    (s.toClient c = none ∧ s.server.Closed c)

/-- The messages that are received have been sent. -/
def Allows : RoomEvent → Prop
  | .server (.receive _ fd m) => s.Arrives host hosts fd m
  | .client c (.reply m _) | .client c (.listen m) => s.Delivers host hosts c m
  | _ => True

/-- Everybody who receives gets the next frame that was sent to him. -/
def Expected : RoomEvent → Prop
  | .server (.receive _ fd m) => ∀ c ∈ s.server.fds fd,
      (s.toServer c).map (carried (hosts c) host) = some m
  | .client c (.reply m _) | .client c (.listen m) =>
      (s.toClient c).map (carried host (hosts c)) = some m
  | _ => True

instance : DecidablePred (s.Expected host hosts)
  | .server (.receive _ _ _) => inferInstanceAs (Decidable (∀ _ ∈ _, _))
  | .client _ (.reply _ _) | .client _ (.listen _) =>
      inferInstanceAs (Decidable (_ = _))
  | .server (.accept _) | .server (.hangup _) | .server .locked
  | .server .call | .server (.firstPass _) | .server .secondPass
  | .sigint _ | .client _ (.register _) | .client _ (.round _)
  | .client _ .receiveFails | .client _ (.answer _) | .client _ (.sigint _)
  | .client _ (.cleanExit _ _) | .client _ (.exits _) | .client _ .dies =>
      inferInstanceAs (Decidable True)

/-- The handler of `SIGINT` from its start to `exit`, as one step although
`trylock` may have left the mutex to the other thread: what that thread could
send meanwhile is not here. With the process all its descriptors are
closed. -/
def shutdown (env : Env) : Option ChatRoom :=
  (s.server.exec (cleanup env s.server.serverSocket s.server.epollFd)).map
    fun (_, t) => { s with
      server := { t with fds := fun _ => none }
      running := false }

def next : RoomEvent → Option ChatRoom
  | .server e =>
      if s.running then (s.server.step e).map fun t => { s with server := t }
      else none
  | .sigint env => if s.running then s.shutdown env else none
  | .client c a => ((s.client c).step a).map fun x =>
      { s with client := Function.update s.client c x }

def initial (serverSocket epollFd : Int) (user : Conn → UserEnv)
    (stdin : Conn → List Byte) : ChatRoom where
  server := Threads.initial serverSocket epollFd
  running := true
  client c := Client.initial (user c) (stdin c)

end ChatRoom

/-- The server and its clients, on hosts of the given byte orders. -/
def chatRoom (host : ByteOrder) (hosts : Conn → ByteOrder) :
    System ChatRoom RoomEvent where
  init s := ∃ serverSocket epollFd user stdin,
    s = ChatRoom.initial serverSocket epollFd user stdin
  step s e t := s.Allows host hosts e ∧ s.next e = some t

theorem ChatRoom.Expected.allows {host : ByteOrder}
    {hosts : Conn → ByteOrder} {s : ChatRoom} {e : RoomEvent}
    (h : s.Expected host hosts e) : s.Allows host hosts e := by
  unfold ChatRoom.Expected at h
  split at h
  · intro c hc
    obtain ⟨x, hx, rfl⟩ := Option.map_eq_some_iff.mp (h c hc)
    exact .inl ⟨x, hx, rfl⟩
  · obtain ⟨x, hx, rfl⟩ := Option.map_eq_some_iff.mp h
    exact .inl ⟨x, hx, rfl⟩
  · obtain ⟨x, hx, rfl⟩ := Option.map_eq_some_iff.mp h
    exact .inl ⟨x, hx, rfl⟩
  · unfold ChatRoom.Allows
    split <;> simp_all

/-! ## What one step can do -/

/-- The server after `cleanup`. -/
def Threads.shutDown (s : Threads) (env : Env) : Threads :=
  let calls := (List.finRange maxClients).flatMap (fun i =>
      env.shutdownCalls i (s.server.slots i)) ++
    [.close s.serverSocket, .close s.epollFd]
  { s with
    server := { s.idle with locked := true, calls := calls }
    fds := fun _ => none
    log := fun c => s.log c ++ itemsTo c s.fds calls }

/-- `Stepped s e t`: the room steps from `s` to `t`. -/
inductive ChatRoom.Stepped (s : ChatRoom) : RoomEvent → ChatRoom → Prop where
  | server {e t} : s.running = true → s.server.Took e t →
      Stepped s (.server e) { s with server := t }
  | sigint {env} : s.running = true → Stepped s (.sigint env) { s with
      server := s.server.shutDown env
      running := false }
  | client {c a x} : (s.client c).ended = false → (s.client c).Acted a x →
      Stepped s (.client c a) { s with
        client := Function.update s.client c x }

theorem ChatRoom.next_stepped {s t : ChatRoom} {e : RoomEvent}
    (h : s.next e = some t) : s.Stepped e t := by
  cases e with
  | server e =>
      simp only [ChatRoom.next] at h
      split at h
      · rename_i hrunning
        obtain ⟨u, hu, rfl⟩ := Option.map_eq_some_iff.mp h
        exact .server hrunning (Threads.step_took hu)
      · cases h
  | sigint env =>
      simp only [ChatRoom.next, ChatRoom.shutdown] at h
      split at h
      · rename_i hrunning
        obtain ⟨⟨⟨⟩, t⟩, hexec, rfl⟩ := Option.map_eq_some_iff.mp h
        obtain ⟨u, hrun, rfl⟩ := Threads.exec_eq hexec
        rw [run_cleanup, Except.ok.injEq, Prod.mk.injEq] at hrun
        obtain ⟨-, rfl⟩ := hrun
        exact .sigint hrunning
      · cases h
  | client c a =>
      obtain ⟨x, hx, rfl⟩ := Option.map_eq_some_iff.mp h
      obtain ⟨hended, hacted⟩ := Client.step_acted hx
      exact .client hended hacted

/-! ## Runs that are computed -/

/-- One step, when everybody receives what was sent to him. -/
def ChatRoom.nextExpected (host : ByteOrder) (hosts : Conn → ByteOrder)
    (s : ChatRoom) (e : RoomEvent) : Option ChatRoom :=
  if s.Expected host hosts e then s.next e else none

theorem ChatRoom.nextExpected_step {host : ByteOrder}
    {hosts : Conn → ByteOrder} (s : ChatRoom) (e : RoomEvent) (t : ChatRoom)
    (h : s.nextExpected host hosts e = some t) :
    (chatRoom host hosts).step s e t := by
  rw [ChatRoom.nextExpected] at h
  split at h
  · rename_i hexpected
    exact ⟨hexpected.allows, h⟩
  · cases h

abbrev littleEndian : Conn → ByteOrder := fun _ => .little

/-- A room of clients with the given names and inputs. -/
def ChatRoom.ofClients (user : Conn → UserEnv) (stdin : Conn → List Byte) :
    ChatRoom :=
  ChatRoom.initial 3 4 user stdin

theorem chatRoom_init (host : ByteOrder) (hosts : Conn → ByteOrder)
    (user : Conn → UserEnv) (stdin : Conn → List Byte) :
    (chatRoom host hosts).init (ChatRoom.ofClients user stdin) :=
  ⟨3, 4, user, stdin, rfl⟩

/-- The client connects and is registered. -/
def RoomEvent.joins (c : Conn) (fd : Int) (name : String) : List RoomEvent :=
  [.server (.accept fd), .client c (.register 0),
    .server (.receive Env.zeros fd (frameFrom .clientNew name)),
    .server .locked, .server .call,
    .client c (.reply (Env.zeros.serverMessage 0 .serverOkRegister
      "successfully registered") true)]

end Sysops.Cw11
