import Sysops.Cw11.SocketUtils
import Sysops.Library.SlotTable

/-!
# `cw11/server.c`: the client table and its handlers

The handlers of the chat server as programs over the table of clients,
which `clients_mutex` guards. Sends and closes are the calls they make;
the result of a send only decides whether a line goes to the standard
error stream, so it is not modelled here.

What a handler reads besides its arguments is an `Env`: the clock, and the
bytes that lie behind string literals, behind the text field of the frame
on the stack, and behind the names in the table. `init_message_t`,
`strtok` and `strcat` read on into them.
-/

namespace Sysops.Cw11

abbrev maxClients : Nat := 100

/-- `client_t`. -/
structure ClientT where
  name : Bytes maxClientName
  socket : Int
  valid : Bool
  awaitingAliveResponse : Bool
  deriving DecidableEq

/-- System calls of the handlers. -/
inductive Call where
  | send (fd : Int) (message : MessageT)
  | close (fd : Int)
  deriving DecidableEq

/-- `clients`, `clients_mutex` and the calls of the running handler. -/
abbrev Server := SlotTable maxClients ClientT Call

abbrev ServerM := SlotM maxClients ClientT Call

structure Env where
  /-- The results of `time(NULL)` within one handler. -/
  time : Nat → Int64
  /-- The bytes behind the terminator of a string literal. -/
  rodata : String → Bytes maxMessageText
  /-- The bytes behind the text field of the frame, up to the end of the
  stack. -/
  stack : List Byte
  /-- What the buffer of `handle_list_request` holds before it is used. -/
  listBuffer : Bytes maxMessageText
  /-- The bytes behind the name in a slot. -/
  afterName : Fin maxClients → List Byte

/-- A string literal as an argument. -/
def Env.literal (env : Env) (s : String) : Pointer :=
  some (Sysops.literal s ++ (env.rodata s).toList)

open SlotM

/-- `send_message`, as the handlers use it. -/
def sendMessage (socket : Int) (message : MessageT) : ServerM Unit :=
  call (.send socket message)

def close (fd : Int) : ServerM Unit :=
  call (.close fd)

/-- `strncmp(clients[i].name, name, MAX_CLIENT_NAME) == 0`. -/
def ClientT.hasName (c : ClientT) (name : List Byte) : Bool :=
  strncmp maxClientName c.name.toList name == 0

/-- `name[0] = '\0'`. -/
def clearName (name : Bytes maxClientName) : Bytes maxClientName :=
  name.write 0 [0] (by decide)

def initClients : ServerM Unit := do
  lock
  forEachSlot fun i => modifySlot i fun c =>
    { name := clearName c.name, socket := -1, valid := false,
      awaitingAliveResponse := false }
  unlock

/-- The duplicate exit returns before the mutex is released; the other
exit reports success whether or not a slot was free. -/
def addClient (name : Bytes maxClientName) (socket : Int) :
    ServerM Int := do
  lock
  let taken ← findSlot fun c => c.valid && c.hasName name.toList
  if taken.isSome then
    return -1
  let free ← findSlot fun c => !c.valid
  if let some i := free then
    modifySlot i fun c =>
      { c with valid := true, socket := socket, name := name }
  unlock
  return 0

/-- `handle_client_delete` up to the release of the mutex. -/
def lockedDelete (name : Bytes maxClientName) : ServerM Int := do
  lock
  let found ← findSlot fun c => c.valid && c.hasName name.toList
  let toClose ← match found with
    | some i => do
        let c ← slot i
        modifySlot i fun c =>
          { c with valid := false, name := clearName c.name, socket := -1 }
        pure c.socket
    | none => pure (-1)
  unlock
  return toClose

def handleClientDelete (name : Bytes maxClientName) : ServerM Unit := do
  let toClose ← lockedDelete name
  if toClose ≠ -1 then close toClose

def handleToAllMessage (env : Env) (sender : Bytes maxClientName)
    (message : Bytes maxMessageText) : ServerM Unit := do
  let response ← initMessageT (env.time 0) (some sender.toList)
    .serverChatMessage (some message.toList)
  lock
  forEachSlot fun i => do
    let c ← slot i
    if c.valid && !c.hasName sender.toList then
      sendMessage c.socket response
  unlock

/-- The two `strtok` calls of `handle_to_one_message`: the name of the
receiver and the text. -/
def splitToOne (env : Env) (message : Bytes maxMessageText) :
    Except Fault (Pointer × Pointer) := do
  let first ← strtok maxMessageText (message.toList ++ env.stack) 0 [32]
  let second ← strtok maxMessageText first.memory first.saved []
  return (first.start.map second.memory.drop,
    second.start.map second.memory.drop)

/-- The loop of `handle_to_one_message`. -/
def sendToOne (receiverName : Pointer) (msg : MessageT) : ServerM Unit :=
  match receiverName with
  | some receiver => do
      let found ← findSlot fun c => c.valid && c.hasName receiver
      if let some i := found then
        let c ← slot i
        sendMessage c.socket msg
  | none => do
      -- the null pointer is compared with as soon as a slot is valid
      let used ← findSlot fun c => c.valid
      if used.isSome then throw .nullPointer

def handleToOneMessage (env : Env) (sender : Bytes maxClientName)
    (message : Bytes maxMessageText) : ServerM Unit := do
  let (receiverName, messageText) ← splitToOne env message
  let msg ← initMessageT (env.time 0) (some sender.toList)
    .serverChatMessage messageText
  lock
  sendToOne receiverName msg
  unlock

def handleNewClient (env : Env) (sender : Bytes maxClientName)
    (clientFd : Int) : ServerM Unit := do
  let okay := (← addClient sender clientFd) == 0
  let response ← initMessageT (env.time 0) (env.literal "SERVER")
    (if okay then .serverOkRegister else .serverFailureRegister)
    (env.literal
      (if okay then "successfully registered" else "identifier already taken"))
  sendMessage clientFd response

/-- The loop of `handle_list_request` over the buffer. -/
def listClients (env : Env) (clients : Fin maxClients → ClientT) :
    Except Fault (Bytes maxMessageText) :=
  (List.finRange maxClients).foldlM (fun buffer i =>
    if (clients i).valid then do
      let buffer ← strcat buffer
        ((clients i).name.toList ++ env.afterName i)
      strcat buffer (literal "\n")
    else pure buffer)
    (env.listBuffer.write 0 [0] (by decide))

/-- `handle_list_request` up to the release of the mutex. -/
def lockedList (env : Env) : ServerM (Bytes maxMessageText) := do
  lock
  let buffer ← listClients env (← get).slots
  unlock
  return buffer

def handleListRequest (env : Env) (clientFd : Int) : ServerM Unit := do
  let buffer ← lockedList env
  let listResponse ← initMessageT (env.time 0) (env.literal "SERVER")
    .serverListMessage (some buffer.toList)
  sendMessage clientFd listResponse

/-- The slot is looked for by its socket alone, used or not. -/
def handleGotAliveMessage (clientFd : Int) : ServerM Unit := do
  lock
  let found ← findSlot fun c => c.socket == clientFd
  if let some i := found then
    modifySlot i fun c => { c with awaitingAliveResponse := false }
  unlock

/-- `handle_client_message`; `received` is the message if
`receive_message` did not report an error. -/
def handleClientMessage (env : Env) (clientFd : Int)
    (received : Option MessageT) : ServerM Unit :=
  match received with
  | none => pure ()
  | some message =>
      if message.type = MessageType.clientNew.code then
        handleNewClient env message.sender clientFd
      else if message.type = MessageType.clientStop.code then
        handleClientDelete message.sender
      else if message.type = MessageType.clientToAll.code then
        handleToAllMessage env message.sender message.message
      else if message.type = MessageType.clientToOne.code then
        handleToOneMessage env message.sender message.message
      else if message.type = MessageType.clientList.code then
        handleListRequest env clientFd
      else if message.type = MessageType.clientAlive.code then
        handleGotAliveMessage clientFd
      else pure ()

/-! ## The two passes of `check_if_clients_are_alive` -/

def checkAliveFirstPass (env : Env) : ServerM Unit := do
  lock
  forEachSlot fun i => do
    let c ← slot i
    if c.valid then
      let message ← initMessageT (env.time i) (env.literal "SERVER")
        .serverCheckAlive (env.literal "")
      sendMessage c.socket message
      modifySlot i fun c => { c with awaitingAliveResponse := true }
  unlock

def checkAliveSecondPass : ServerM Unit := do
  lock
  forEachSlot fun i => do
    let c ← slot i
    if c.valid && c.awaitingAliveResponse then
      close c.socket
      modifySlot i fun c =>
        { c with valid := false, awaitingAliveResponse := false }
  unlock

end Sysops.Cw11
