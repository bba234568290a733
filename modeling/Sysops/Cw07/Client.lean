import Sysops.Cw07.Server
import Sysops.Library.MessageQueue

/-!
# `cw07/client.c`

The main process of a client and the listener that it forks, from one call
to the next. What a step needs of the outside, a name or a place in the
queue of the server, is its effect; the client's own queue is part of its
state, beside a record of what has been put into it, what its processes
have received, and the texts that the server queue has accepted.
-/

namespace Sysops.Cw07

/-! ## One line of the input -/

/-- What a round of `handle_text_input` comes to. -/
inductive Round where
  | again
  | leaves
  | sends
  deriving DecidableEq

def strlen {n : Nat} (buf : Bytes n) : Nat :=
  (buf.toList.takeWhile (· ≠ 0)).length

/-- `strcspn(buf, "\n")`. -/
def strcspnNewline {n : Nat} (buf : Bytes n) : Nat :=
  (buf.toList.takeWhile fun b => b ≠ 0 && b ≠ 10).length

theorem strcspnNewline_le {n : Nat} (buf : Bytes n) :
    strcspnNewline buf ≤ strlen buf := by
  unfold strcspnNewline strlen
  induction buf.toList with
  | nil => exact Nat.le_refl _
  | cons b l ih =>
      by_cases hb : b = 0
      · simp [hb]
      · by_cases hnl : b = 10
        · simp [hnl]
        · simpa [hb, hnl] using ih

/-- One round of the loop, up to the `mq_send`. The array is new in each
round, so it may hold anything before. -/
def handleTextInput (buf : Bytes maxMsgBufSize) (stdin : List Byte) :
    Bytes maxMsgBufSize × Round :=
  let buf := (fgets buf stdin).1
  if stdin = [] then (buf, .again)
  else if h : strlen buf + 1 > maxMsgBufSize then (buf, .again)
  else
    let buf := buf.write (strcspnNewline buf) [0] (by
      have hle := strcspnNewline_le buf
      simp only [List.length_singleton]
      omega)
    if strncmp maxMsgBufSize buf.toList (literal ":exit") = 0 then
      (buf, .leaves)
    else (buf, .sends)

/-! ## The processes of a client -/

/-- Where the main process is: the call it makes next. -/
inductive Place where
  /-- The program has not started. -/
  | openQueue
  | sendInit
  | receiveId
  | installHandlers
  | fork
  -- `handle_text_input`
  | test
  | readLine
  | sendText
  -- and behind it
  | killListener
  | sendExit
  | cleanup
  | returned
  /-- Ended without `cleanup`. -/
  | died
  deriving DecidableEq

/-- Where the listener is. -/
inductive Listener where
  | notForked
  | test
  | receive
  | ended
  deriving DecidableEq

structure Client where
  place : Place
  isRunning : Bool
  /-- `client_id`. -/
  id : Int
  /-- `buf` of `handle_text_input`. -/
  buf : Bytes maxMsgBufSize
  listener : Listener
  /-- `is_running` in the process of the listener. -/
  listenerRunning : Bool
  queue : MessageQueue MsgT
  /-- What the server has put into the queue. -/
  puts : List MsgT
  /-- What the two processes have received. -/
  received : List MsgT
  /-- The texts that the queue of the server has accepted. -/
  accepted : List MsgT

/-- Before `main`. The variables are written before they are read. -/
def Client.start : Client where
  place := .openQueue
  isRunning := true
  id := 0
  buf := Bytes.ofList maxMsgBufSize []
  listener := .notForked
  listenerRunning := true
  queue := []
  puts := []
  received := []
  accepted := []

/-- What a step needs of the outside. -/
inductive Effect where
  | none
  | opensQueue
  | sends (priority : Nat) (message : MsgT)
  | unlinksQueue

/-- What happens to a client. -/
inductive Action where
  /-- The next step of the main process. A line that is read comes from
  `stdin`, into an array that holds `memory`. -/
  | main (memory : Bytes maxMsgBufSize) (stdin : List Byte)
  | listener
  | forkFails
  /-- `SIGINT` or `SIGTERM`, to the main process or to the listener. -/
  | signal
  | signalListener

namespace Client

variable (clientQName : Bytes maxMsgBufSize) (x : Client)

/-- The oldest message is taken. -/
def receive : Option (MsgT × Client) :=
  (MessageQueue.receive x.queue).map fun r => (r.1.2,
    { x with queue := r.2, received := x.received ++ [r.1.2] })

/-- `main`. -/
def main (memory : Bytes maxMsgBufSize) (stdin : List Byte) :
    Option (Effect × Client) :=
  match x.place with
  | .openQueue => some (.opensQueue, { x with place := .sendInit })
  | .sendInit => some (.sends 1 ⟨MsgType.init.code, -1, clientQName⟩,
      { x with place := .receiveId })
  | .receiveId => x.receive.map fun r =>
      (.none, { r.2 with id := r.1.id, place := .installHandlers })
  | .installHandlers => some (.none, { x with place := .fork })
  | .fork => some (.none, { x with
      listener := .test
      listenerRunning := x.isRunning
      place := .test })
  | .test => some (.none,
      { x with place := if x.isRunning then .readLine else .killListener })
  | .readLine =>
      let r := handleTextInput memory stdin
      some (.none, { x with
        buf := r.1
        place :=
          match r.2 with
          | .again => .test
          | .leaves => .killListener
          | .sends => .sendText })
  | .sendText =>
      let message : MsgT := ⟨MsgType.text.code, x.id, x.buf⟩
      some (.sends 1 message,
        { x with accepted := x.accepted ++ [message], place := .test })
  | .killListener =>
      some (.none, { x with listener := .ended, place := .sendExit })
  | .sendExit => some (.sends 2 (.withoutText .clientExit x.id),
      { x with place := .cleanup })
  | .cleanup => some (.unlinksQueue, { x with place := .returned })
  | .returned | .died => none

/-- `listen_for_messages`. -/
def listen : Option Client :=
  match x.listener with
  | .test => some
      { x with listener := if x.listenerRunning then .receive else .ended }
  | .receive => x.receive.map fun r => { r.2 with listener := .test }
  | .notForked | .ended => none

/-- `sig_handler`, or the death of the process before it is installed. A
call that the handler interrupts is started again. -/
def signal : Option Client :=
  match x.place with
  | .openQueue | .returned | .died => none
  | .sendInit | .receiveId | .installHandlers =>
      some { x with place := .died }
  | .fork | .test | .readLine | .sendText | .killListener | .sendExit
  | .cleanup => some { x with isRunning := false }

def signalListener : Option Client :=
  match x.listener with
  | .test | .receive => some { x with listenerRunning := false }
  | .notForked | .ended => none

def act : Action → Option (Effect × Client)
  | .main memory stdin => x.main clientQName memory stdin
  | .listener => x.listen.map fun y => (.none, y)
  | .forkFails =>
      if x.place = .fork then some (.none, { x with place := .died }) else none
  | .signal => x.signal.map fun y => (.none, y)
  | .signalListener => x.signalListener.map fun y => (.none, y)

end Client

end Sysops.Cw07
