import Sysops.Cw11.World

/-!
# The two threads of the server

The main thread and the heartbeat thread step by step: a handler receives
its frame, runs its critical section, and then makes the calls that are
left, and the heartbeat may run between any two of these. What goes over
each connection is kept, as `register_on_server` depends on it.
-/

namespace Sysops.Cw11

open SlotM

/-! ## `register_on_server` -/

inductive RegisterResult where
  | registered
  | nameAlreadyTaken
  | unexpectedMessageType
  deriving DecidableEq

/-- What `register_on_server` makes of the first frame it receives. -/
def registerOnServer (newClientResponse : MessageT) : RegisterResult :=
  if newClientResponse.type = MessageType.serverFailureRegister.code then
    .nameAlreadyTaken
  else if newClientResponse.type ≠ MessageType.serverOkRegister.code then
    .unexpectedMessageType
  else .registered

/-! ## Handlers cut at the release of the mutex -/

/-- `handle_client_message` up to the release of the mutex, with the calls
it makes after that. -/
def criticalSection (env : Env) (clientFd : Int) (message : MessageT) :
    ServerM (List Call) :=
  if message.type = MessageType.clientNew.code then do
    let okay := (← addClient message.sender clientFd) == 0
    let response ← initMessageT (env.time 0) (env.literal "SERVER")
      (if okay then .serverOkRegister else .serverFailureRegister)
      (env.literal
        (if okay then "successfully registered"
          else "identifier already taken"))
    return [.send clientFd response]
  else if message.type = MessageType.clientStop.code then do
    let toClose ← lockedDelete message.sender
    return if toClose ≠ -1 then [.close toClose] else []
  else if message.type = MessageType.clientToAll.code then do
    handleToAllMessage env message.sender message.message
    return []
  else if message.type = MessageType.clientToOne.code then do
    handleToOneMessage env message.sender message.message
    return []
  else if message.type = MessageType.clientList.code then do
    let buffer ← lockedList env
    let listResponse ← initMessageT (env.time 0) (env.literal "SERVER")
      .serverListMessage (some buffer.toList)
    return [.send clientFd listResponse]
  else if message.type = MessageType.clientAlive.code then do
    handleGotAliveMessage clientFd
    return []
  else return []

/-- Put together again, the pieces are the handler. -/
theorem handleClientMessage_eq (env : Env) (fd : Int) (m : MessageT) :
    handleClientMessage env fd (some m) =
      criticalSection env fd m >>= fun ks => ks.forM call := by
  simp only [handleClientMessage, criticalSection]
  split
  · simp [handleNewClient, sendMessage]
  split
  · simp only [handleClientDelete, close, bind_assoc, pure_bind]
    congr 1
    funext toClose
    split <;> simp
  split
  · simp
  split
  · simp
  split
  · simp [handleListRequest, sendMessage]
  split <;> simp

/-! ## The system of the two threads -/

/-- What goes over a connection, as the server's calls return. -/
inductive Item where
  | received (m : MessageT)
  | sent (m : MessageT)

/-- How a connection stands with its first `CLIENT_NEW`. -/
inductive Answer where
  | noRequest
  | waiting
  /-- The first frame that was sent after it. -/
  | first (m : MessageT)
  deriving DecidableEq

def Answer.next : Answer → Item → Answer
  | .noRequest, .received m =>
      if m.type = MessageType.clientNew.code then .waiting else .noRequest
  | .noRequest, .sent _ => .noRequest
  | .waiting, .received _ => .waiting
  | .waiting, .sent m => .first m
  | .first m, _ => .first m

def answer (log : List Item) : Answer :=
  log.foldl Answer.next .noRequest

/-- Where the main thread is. -/
inductive Main where
  /-- Between two events. -/
  | idle
  /-- `receive_message` has returned. -/
  | received (env : Env) (fd : Int) (m : MessageT)
  /-- Past the critical section, with calls to make. -/
  | calling (k : Call) (ks : List Call)

def Main.calls : List Call → Main
  | [] => .idle
  | k :: ks => .calling k ks

structure Threads extends World where
  main : Main
  log : Conn → List Item

/-- One step of one of the threads. -/
inductive Turn where
  | accept (fd : Int)
  | hangup (fd : Int)
  | receive (env : Env) (fd : Int) (m : MessageT)
  /-- The main thread runs the critical section of its handler. -/
  | locked
  /-- The main thread makes its next call. -/
  | call
  | firstPass (env : Env)
  | secondPass

namespace Threads

variable (s : Threads)

/-- Append to what went over the connection behind the descriptor. -/
def append (fd : Int) (x : Item) : Threads :=
  match s.fds fd with
  | some c => { s with log := Function.update s.log c (s.log c ++ [x]) }
  | none => s

def perform : Call → Threads
  | .send fd m => s.append fd (.sent m)
  | .close fd => { s with fds := Function.update s.fds fd none }

/-- A thread runs code that holds the mutex, with the calls in it. -/
def exec {α : Type} (code : ServerM α) : Option (α × Threads) :=
  match code.run s.idle with
  | .ok (a, t) =>
      some (a, t.calls.foldl perform { s with server := t })
  | .error _ => none

def step : Turn → Option Threads
  | .accept fd =>
      match s.main with
      | .idle => (s.toWorld.step (.accept fd)).map fun w =>
          { s with toWorld := w }
      | _ => none
  | .hangup fd =>
      match s.main with
      | .idle => (s.toWorld.step (.hangup fd)).map fun w =>
          { s with toWorld := w }
      | _ => none
  | .receive env fd m =>
      match s.main with
      | .idle =>
          if (s.fds fd).isSome then
            some { s.append fd (.received m) with main := .received env fd m }
          else none
      | _ => none
  | .locked =>
      match s.main with
      | .received env fd m => (s.exec (criticalSection env fd m)).map
          fun (ks, t) => { t with main := Main.calls ks }
      | _ => none
  | .call =>
      match s.main with
      | .calling k ks => some { s.perform k with main := Main.calls ks }
      | _ => none
  | .firstPass env =>
      if s.beat = .first then
        (s.exec (checkAliveFirstPass env)).map fun (_, t) =>
          { t with beat := .second }
      else none
  | .secondPass =>
      if s.beat = .second then
        (s.exec checkAliveSecondPass).map fun (_, t) =>
          { t with beat := .first }
      else none

def initial (serverSocket epollFd : Int) : Threads where
  toWorld := World.initial serverSocket epollFd
  main := .idle
  log _ := []

end Threads

def threads : System Threads Turn where
  init s := ∃ serverSocket epollFd, s = Threads.initial serverSocket epollFd
  step s e t := s.step e = some t

/-! ## Logs -/

@[simp] theorem answer_append (log : List Item) (x : Item) :
    answer (log ++ [x]) = (answer log).next x := by
  simp [answer]

/-- A frame that is sent matters to a connection that waits only. -/
theorem next_sent {a : Answer} (h : a ≠ .waiting) (m : MessageT) :
    a.next (.sent m) = a := by
  cases a with
  | noRequest => rfl
  | waiting => exact absurd rfl h
  | first m' => rfl

theorem next_sent_ne_waiting (a : Answer) (m : MessageT) :
    a.next (.sent m) ≠ .waiting := by
  cases a <;> simp [Answer.next]

/-- A frame that is received makes wait only who asks for a name. -/
theorem Answer.next_received_waiting {a : Answer} {m : MessageT}
    (h : a.next (.received m) = .waiting) :
    a = .waiting ∨ m.type = MessageType.clientNew.code := by
  cases a with
  | waiting => exact .inl rfl
  | first m' => cases h
  | noRequest =>
      rw [Answer.next] at h
      split at h
      · rename_i hm
        exact .inr hm
      · cases h

/-- And answers nobody. -/
theorem Answer.next_received_first {a : Answer} {m m' : MessageT}
    (h : a.next (.received m) = .first m') : a = .first m' := by
  cases a with
  | waiting => cases h
  | first m'' => exact h
  | noRequest =>
      rw [Answer.next] at h
      split at h <;> cases h

namespace Threads

variable {s : Threads}

@[simp] theorem perform_send (fd : Int) (m : MessageT) :
    s.perform (.send fd m) = s.append fd (.sent m) := rfl

theorem exec_eq_some {α : Type} {code : ServerM α} {a : α} {t : Threads}
    (h : s.exec code = some (a, t)) :
    ∃ u, code.run s.idle = .ok (a, u) ∧
      t = u.calls.foldl perform { s with server := u } := by
  unfold exec at h
  split at h
  · rename_i b u hrun
    rw [Option.some.injEq, Prod.mk.injEq] at h
    obtain ⟨rfl, rfl⟩ := h
    exact ⟨u, hrun, rfl⟩
  · cases h

end Threads

/-- The message is a reply to a `CLIENT_NEW`. -/
def IsReply (m : MessageT) : Prop :=
  m.type = MessageType.serverOkRegister.code ∨
    m.type = MessageType.serverFailureRegister.code

end Sysops.Cw11
