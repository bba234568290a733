import Sysops.Cw11.InputLoop
import Sysops.Cw11.Threads

/-!
# `cw11/client.c`: the client process

The main thread registers, starts the listener and reads the user's input;
the listener waits for the server's messages and answers the heartbeat.
Both leave through `clean_exit`, and so does the handler of `SIGINT` in
whichever thread it runs.
-/

namespace Sysops.Cw11

/-! ## The process -/

/-- Where the main thread is. -/
inductive ClientMain where
  /-- Before the send of `register_on_server`. -/
  | register
  /-- In its `receive_message`. -/
  | awaitReply
  /-- Before a round of `handle_user_input`: the array `line`, and what is
  left of the input. -/
  | input (line : Bytes maxMessageText) (stdin : List Byte)
  /-- In `clean_exit`, before its send; in the handler or not. -/
  | cleanExit (inHandler : Bool)
  /-- About to end the process. -/
  | exits (inHandler : Bool)
  deriving DecidableEq

/-- Where `wait_for_messages` is. -/
inductive Listener where
  | notCreated
  /-- In `receive_message`. -/
  | receive
  /-- Behind a `SERVER_CHECK_ALIVE`, before the send. -/
  | answer
  | cleanExit (inHandler : Bool)
  | exits (inHandler : Bool)
  deriving DecidableEq

/-- The thread is in the handler of `SIGINT`, where the signal is
blocked. -/
def ClientMain.blocked : ClientMain → Bool
  | .cleanExit inHandler | .exits inHandler => inHandler
  | .register | .awaitReply | .input _ _ => false

def Listener.blocked : Listener → Bool
  | .cleanExit inHandler | .exits inHandler => inHandler
  | .notCreated | .receive | .answer => false

structure Client where
  /-- The arguments and the memory of the process; its clock comes with
  each step. -/
  user : UserEnv
  /-- The standard input, as far as it is not read. -/
  stdin : List Byte
  main : ClientMain
  listener : Listener
  ended : Bool
  /-- What was handed to `send`, in order. -/
  sent : List MessageT
  /-- How many messages of the server were received. -/
  read : Nat

/-- A client that has connected. -/
def Client.initial (user : UserEnv) (stdin : List Byte) : Client where
  user := user
  stdin := stdin
  main := .register
  listener := .notCreated
  ended := false
  sent := []
  read := 0

/-- Which of the two threads. -/
inductive Thread where
  | main
  | listener
  deriving DecidableEq

/-- One step of one of the threads. -/
inductive ClientAction where
  | register (now : Int64)
  /-- `receive_message` in `register_on_server`, and whether the listener
  can be created. -/
  | reply (m : MessageT) (created : Bool)
  /-- A round of `handle_user_input`. -/
  | round (now : Int64)
  /-- `receive_message` in `wait_for_messages`. -/
  | listen (m : MessageT)
  | receiveFails
  | answer (now : Int64)
  | sigint (thread : Thread)
  /-- The send of `clean_exit`. -/
  | cleanExit (thread : Thread) (now : Int64)
  /-- `exit`, or the end of `main`. -/
  | exits (thread : Thread)
  /-- A call fails in `main` before the listener is there, a fault, or a
  signal that is not handled. -/
  | dies

/-- Where `wait_for_messages` goes with a message. -/
def Listener.handle (m : MessageT) : Listener :=
  if m.type = MessageType.serverChatMessage.code then .receive
  else if m.type = MessageType.serverListMessage.code then .receive
  else if m.type = MessageType.serverCheckAlive.code then .answer
  else if m.type = MessageType.serverShutdown.code then .cleanExit false
  -- "unexpected message type"
  else .cleanExit false

namespace Client

variable (c : Client)

/-- `init_message_t` and `send_message` without a text. -/
def send (type : MessageType) (now : Int64) : Option Client :=
  match { c.user with now := now }.initMessageT type c.user.noText with
  | .ok m => some { c with sent := c.sent ++ [m] }
  | .error _ => none

/-- A round of `handle_user_input`. -/
def round (now : Int64) (line : Bytes maxMessageText) (stdin : List Byte) :
    Option Client :=
  let env : UserEnv := { c.user with now := now, line := line }
  let rest := (fgets line stdin).2
  match handleUserInput env stdin, env.lineLeft stdin with
  | .ok (.stops m), _ =>
      some { c with sent := c.sent ++ [m], main := .exits false }
  | .ok (.sends m), .ok line =>
      some { c with sent := c.sent ++ [m], main := .input line rest }
  | .ok .unknownCommand, .ok line => some { c with main := .input line rest }
  | .error _, _ | _, .error _ => none

def running : ClientAction → Option Client
  | .register now =>
      match c.main with
      | .register => (c.send .clientNew now).map fun c =>
          { c with main := .awaitReply }
      | _ => none
  | .reply m created =>
      match c.main with
      | .awaitReply => some (
          let c := { c with read := c.read + 1 }
          match registerOnServer m with
          | .registered =>
              if created then { c with
                main := .input c.user.line c.stdin, listener := .receive }
              else { c with ended := true }
          | .nameAlreadyTaken | .unexpectedMessageType =>
              { c with ended := true })
      | _ => none
  | .round now =>
      match c.main with
      | .input line stdin => c.round now line stdin
      | _ => none
  | .listen m =>
      match c.listener with
      | .receive => some { c with
          read := c.read + 1, listener := Listener.handle m }
      | _ => none
  | .receiveFails =>
      match c.listener with
      | .receive => some { c with listener := .cleanExit false }
      | _ => none
  | .answer now =>
      match c.listener with
      | .answer => (c.send .clientAlive now).map fun c =>
          { c with listener := .receive }
      | _ => none
  | .sigint .main =>
      if c.main.blocked then none
      else some { c with main := .cleanExit true }
  | .sigint .listener =>
      if c.listener = .notCreated ∨ c.listener.blocked then none
      else some { c with listener := .cleanExit true }
  | .cleanExit .main now =>
      match c.main with
      | .cleanExit inHandler => (c.send .clientStop now).map fun c =>
          { c with main := .exits inHandler }
      | _ => none
  | .cleanExit .listener now =>
      match c.listener with
      | .cleanExit inHandler => (c.send .clientStop now).map fun c =>
          { c with listener := .exits inHandler }
      | _ => none
  | .exits .main =>
      match c.main with
      | .exits _ => some { c with ended := true }
      | _ => none
  | .exits .listener =>
      match c.listener with
      | .exits _ => some { c with ended := true }
      | _ => none
  | .dies => some { c with ended := true }

/-- A process that has ended does nothing. -/
def step (a : ClientAction) : Option Client :=
  if c.ended then none else c.running a

end Client

/-! ## What a client can do -/

/-- A command of the user that the client passes on. -/
def IsCommand (m : MessageT) : Prop :=
  m.type = MessageType.clientList.code ∨
    m.type = MessageType.clientToAll.code ∨
    m.type = MessageType.clientToOne.code

/-- What a client writes into the sender field: its name, and whatever lies
behind it. -/
def Client.signature (c : Client) : List Byte :=
  (c.user.clientId ++ 0 :: c.user.afterId.toList).take maxClientName

def Client.Signs (c : Client) (m : MessageT) : Prop :=
  m.sender.toList = c.signature

inductive Client.Acted (c : Client) : ClientAction → Client → Prop where
  | registers {now m} : c.main = .register →
      m.type = MessageType.clientNew.code → c.Signs m →
      Acted c (.register now)
        { c with sent := c.sent ++ [m], main := .awaitReply }
  | registered {m line stdin} : c.main = .awaitReply →
      registerOnServer m = .registered →
      Acted c (.reply m true) { c with
        read := c.read + 1, main := .input line stdin, listener := .receive }
  /-- The process ends without being registered. -/
  | fails {m created} : c.main = .awaitReply →
      Acted c (.reply m created)
        { c with read := c.read + 1, ended := true }
  | commands {now m line stdin line' stdin'} : c.main = .input line stdin →
      IsCommand m →
      (m.type ≠ MessageType.clientList.code → 0 ∈ m.message.toList) →
      c.Signs m → Acted c (.round now)
        { c with sent := c.sent ++ [m], main := .input line' stdin' }
  | stops {now m line stdin} : c.main = .input line stdin →
      m.type = MessageType.clientStop.code → c.Signs m →
      Acted c (.round now)
        { c with sent := c.sent ++ [m], main := .exits false }
  | unknown {now line stdin line' stdin'} : c.main = .input line stdin →
      Acted c (.round now) { c with main := .input line' stdin' }
  | listens {m} : c.listener = .receive → Acted c (.listen m)
      { c with read := c.read + 1, listener := Listener.handle m }
  | receiveFails : c.listener = .receive →
      Acted c .receiveFails { c with listener := .cleanExit false }
  | answers {now m} : c.listener = .answer →
      m.type = MessageType.clientAlive.code → c.Signs m →
      Acted c (.answer now)
        { c with sent := c.sent ++ [m], listener := .receive }
  | interrupted : c.main.blocked = false →
      Acted c (.sigint .main) { c with main := .cleanExit true }
  | listenerInterrupted : c.listener ≠ .notCreated →
      c.listener.blocked = false →
      Acted c (.sigint .listener) { c with listener := .cleanExit true }
  | leaves {now m inHandler} : c.main = .cleanExit inHandler →
      m.type = MessageType.clientStop.code → c.Signs m →
      Acted c (.cleanExit .main now)
        { c with sent := c.sent ++ [m], main := .exits inHandler }
  | listenerLeaves {now m inHandler} : c.listener = .cleanExit inHandler →
      m.type = MessageType.clientStop.code → c.Signs m →
      Acted c (.cleanExit .listener now)
        { c with sent := c.sent ++ [m], listener := .exits inHandler }
  | ends {a} : (a = .exits .main ∨ a = .exits .listener ∨ a = .dies) →
      Acted c a { c with ended := true }

section Acted

variable {c d : Client} {a : ClientAction}

theorem UserEnv.initMessageT_ok {env : UserEnv} {type : MessageType}
    {text : Pointer} {m : MessageT} (h : env.initMessageT type text = .ok m) :
    m.type = type.code ∧ m.sender.toList =
      (env.clientId ++ 0 :: env.afterId.toList).take maxClientName := by
  have htype := initMessageT_type h
  cases text with
  | none =>
      rw [UserEnv.initMessageT, Cw11.initMessageT] at h
      obtain ⟨sender, -, h⟩ := bind_eq_ok.mp h
      cases h
  | some text => exact ⟨htype, (initMessageT_eq_ok h).2.2.1⟩

theorem Client.send_eq_some {type : MessageType} {now : Int64}
    (h : c.send type now = some d) :
    ∃ m, m.type = type.code ∧ c.Signs m ∧
      d = { c with sent := c.sent ++ [m] } := by
  rw [Client.send] at h
  split at h
  · rename_i m hm
    obtain ⟨htype, hsender⟩ := UserEnv.initMessageT_ok hm
    exact ⟨m, htype, hsender, (Option.some.inj h).symm⟩
  · cases h

theorem zero_mem_chopLast {n : Nat} {line chopped : Bytes n}
    (h : chopLast line = .ok chopped) : 0 ∈ chopped.toList := by
  simp only [chopLast] at h
  split at h
  · rename_i hlen
    cases h
    rw [Bytes.toList_write]
    simp
  · cases h

/-- The text of a command has an end. -/
theorem zero_mem_message {env : UserEnv} {stdin : List Byte} {m : MessageT}
    (h : handleUserInput env stdin = .ok (.sends m))
    (hlist : m.type ≠ MessageType.clientList.code) : 0 ∈ m.message.toList := by
  obtain ⟨line, hchop, -⟩ := bind_eq_ok.mp h
  obtain ⟨text, behind, hline, htext, hbehind⟩ :=
    exists_word [0] line.toList
  have hnul : 0 ∉ text := fun h0 => htext 0 h0 (by simp)
  rcases hbehind with rfl | ⟨b, junk, rfl, hb⟩
  · have hzero := zero_mem_chopLast hchop
    rw [hline, List.append_nil] at hzero
    exact absurd hzero hnul
  · obtain rfl := List.mem_singleton.mp hb
    have houtcome := handleUserInput_outcome hchop hline hnul
    rw [h] at houtcome
    have hends : ∀ {t : List Byte}, m.message.Holds t →
        0 ∈ m.message.toList := by
      rintro t ⟨-, junk, hjunk⟩
      rw [hjunk]
      simp
    generalize request text = r at houtcome
    cases houtcome with
    | sends hstop _ _ hanswered =>
        cases r with
        | list => exact absurd hanswered hlist
        | toAll | toOne => exact hends hanswered.2
        | stop => exact absurd rfl hstop
        | nothing | unknown => exact absurd hanswered id

/-- What a round of `handle_user_input` sends. -/
theorem handleUserInput_ok {env : UserEnv} {stdin : List Byte}
    {r : UserInput} (h : handleUserInput env stdin = .ok r) :
    match r with
    | .sends m => IsCommand m ∧ m.sender.toList =
        (env.clientId ++ 0 :: env.afterId.toList).take maxClientName
    | .stops m => m.type = MessageType.clientStop.code ∧ m.sender.toList =
        (env.clientId ++ 0 :: env.afterId.toList).take maxClientName
    | .unknownCommand => True := by
  rw [handleUserInput] at h
  obtain ⟨line, -, h⟩ := bind_eq_ok.mp h
  obtain ⟨command, -, h⟩ := bind_eq_ok.mp h
  cases hstart : command.start with
  | none =>
      rw [hstart] at h
      cases h
  | some start =>
      simp only [hstart] at h
      split at h
      · obtain ⟨m, hm, h⟩ := bind_eq_ok.mp h
        cases h
        obtain ⟨htype, hsender⟩ := UserEnv.initMessageT_ok hm
        exact ⟨.inl htype, hsender⟩
      split at h
      · obtain ⟨text, -, h⟩ := bind_eq_ok.mp h
        obtain ⟨m, hm, h⟩ := bind_eq_ok.mp h
        cases h
        obtain ⟨htype, hsender⟩ := UserEnv.initMessageT_ok hm
        exact ⟨.inr (.inl htype), hsender⟩
      split at h
      · obtain ⟨text, -, h⟩ := bind_eq_ok.mp h
        obtain ⟨m, hm, h⟩ := bind_eq_ok.mp h
        cases h
        obtain ⟨htype, hsender⟩ := UserEnv.initMessageT_ok hm
        exact ⟨.inr (.inr htype), hsender⟩
      split at h
      · obtain ⟨m, hm, h⟩ := bind_eq_ok.mp h
        cases h
        exact UserEnv.initMessageT_ok hm
      · cases h
        trivial

theorem Client.round_eq_some {now : Int64} {line : Bytes maxMessageText}
    {stdin : List Byte} (hmain : c.main = .input line stdin)
    (h : c.round now line stdin = some d) : c.Acted (.round now) d := by
  simp only [Client.round] at h
  split at h
  · rename_i m hinput
    obtain ⟨htype, hsigned⟩ := handleUserInput_ok hinput
    obtain rfl := Option.some.inj h
    exact .stops hmain htype hsigned
  · rename_i m line' hinput hline
    obtain ⟨hcommand, hsigned⟩ := handleUserInput_ok hinput
    obtain rfl := Option.some.inj h
    exact .commands hmain hcommand (zero_mem_message hinput) hsigned
  · obtain rfl := Option.some.inj h
    exact .unknown hmain
  · cases h
  · cases h

/-- **What one step of a client can do.** -/
theorem Client.step_acted (h : c.step a = some d) :
    c.ended = false ∧ c.Acted a d := by
  rw [Client.step] at h
  split at h
  · cases h
  rename_i hended
  refine ⟨by simpa using hended, ?_⟩
  cases a with
  | register now =>
      simp only [Client.running] at h
      split at h
      · rename_i hmain
        obtain ⟨e, he, rfl⟩ := Option.map_eq_some_iff.mp h
        obtain ⟨m, htype, hsigned, rfl⟩ := Client.send_eq_some he
        exact .registers hmain htype hsigned
      · cases h
  | reply m created =>
      simp only [Client.running] at h
      split at h
      · rename_i hmain
        obtain rfl := Option.some.inj h
        split
        · rename_i hreply
          cases created with
          | true => exact .registered hmain hreply
          | false => exact .fails hmain
        · exact .fails hmain
        · exact .fails hmain
      · cases h
  | round now =>
      simp only [Client.running] at h
      split at h
      · rename_i line stdin hmain
        exact Client.round_eq_some hmain h
      · cases h
  | listen m =>
      simp only [Client.running] at h
      split at h
      · rename_i hlistener
        obtain rfl := Option.some.inj h
        exact .listens hlistener
      · cases h
  | receiveFails =>
      simp only [Client.running] at h
      split at h
      · rename_i hlistener
        obtain rfl := Option.some.inj h
        exact .receiveFails hlistener
      · cases h
  | answer now =>
      simp only [Client.running] at h
      split at h
      · rename_i hlistener
        obtain ⟨e, he, rfl⟩ := Option.map_eq_some_iff.mp h
        obtain ⟨m, htype, hsigned, rfl⟩ := Client.send_eq_some he
        exact .answers hlistener htype hsigned
      · cases h
  | sigint thread =>
      cases thread with
      | main =>
          simp only [Client.running] at h
          split at h
          · cases h
          · rename_i hblocked
            obtain rfl := Option.some.inj h
            exact .interrupted (by simpa using hblocked)
      | listener =>
          simp only [Client.running] at h
          split at h
          · cases h
          · rename_i hblocked
            obtain rfl := Option.some.inj h
            simp only [not_or, Bool.not_eq_true] at hblocked
            exact .listenerInterrupted hblocked.1 hblocked.2
  | cleanExit thread now =>
      cases thread with
      | main =>
          simp only [Client.running] at h
          split at h
          · rename_i inHandler hmain
            obtain ⟨e, he, rfl⟩ := Option.map_eq_some_iff.mp h
            obtain ⟨m, htype, hsigned, rfl⟩ := Client.send_eq_some he
            exact .leaves hmain htype hsigned
          · cases h
      | listener =>
          simp only [Client.running] at h
          split at h
          · rename_i inHandler hlistener
            obtain ⟨e, he, rfl⟩ := Option.map_eq_some_iff.mp h
            obtain ⟨m, htype, hsigned, rfl⟩ := Client.send_eq_some he
            exact .listenerLeaves hlistener htype hsigned
          · cases h
  | exits thread =>
      cases thread with
      | main =>
          simp only [Client.running] at h
          split at h
          · obtain rfl := Option.some.inj h
            exact .ends (.inl rfl)
          · cases h
      | listener =>
          simp only [Client.running] at h
          split at h
          · obtain rfl := Option.some.inj h
            exact .ends (.inr (.inl rfl))
          · cases h
  | dies =>
      obtain rfl := Option.some.inj h
      exact .ends (.inr (.inr rfl))

end Acted

end Sysops.Cw11
