import Sysops.Cw07.Service
import Sysops.Cw07.Client
import Sysops.Library.Runs

/-!
# The message-queue chat

The server and any clients around the queue of the server, in any order of
their steps. A send waits while the queue has no room, a receive while it
is empty; the server opens a client queue by the name that is in the
`INIT`. A name can be used again once its queue is unlinked.
-/

namespace Sysops.Cw07

/-- A message in the queue of the server, with the client that sent it. -/
structure Letter (C : Type) where
  author : C
  message : MsgT

structure World (C : Type) where
  service : Service C
  serverQueue : MessageQueue (Letter C)
  /-- The client queue of each name that is in use. -/
  names : List Byte → Option C
  clients : C → Client

/-- What happens next. -/
inductive Event (C : Type) where
  /-- The server makes its next call, or takes a message; `opened` is the
  result if it has to open a queue. -/
  | server (opened : Int)
  | client (c : C) (action : Action)

/-- The server is in its loop, and no client has started. -/
def World.initial (C : Type) : World C where
  service := Service.initial C
  serverQueue := []
  names _ := none
  clients _ := Client.start

/-- The name in an `INIT`. -/
def MsgT.name (message : MsgT) : List Byte :=
  cstr maxMsgBufSize message.text.toList

/-- The letter as it is handled. -/
def Letter.handled {C : Type} (l : Letter C) (opened : Int) : Handled C :=
  ⟨l.author, l.message, opened⟩

namespace World

variable {C : Type} [DecidableEq C] (w : World C)

/-- The server takes a message from its queue. A queue is opened only
under a name that is in use, with a descriptor that is free. -/
def take (opened : Int) : Option (World C) :=
  match MessageQueue.receive w.serverQueue with
  | none => none
  | some ((_, l), queue) =>
      let target := w.names l.message.name
      if (l.handled opened).joins →
          w.service.descr opened = none ∧ target.isSome then
        (w.service.dispatch (l.handled opened) target).map fun service =>
          { w with service := service, serverQueue := queue }
      else none

/-- The next call of the handler at work. A send to a queue that is not
open fails at once. -/
def perform (rest : List Call) : Call → Option (World C)
  | .send q message =>
      match w.service.descr q with
      | none => some { w with service := { w.service with pending := rest } }
      | some c =>
          (MessageQueue.send maxMessages (w.clients c).queue (1, message)).map
            fun queue =>
              { w with
                service := { w.service with pending := rest }
                clients := Function.update w.clients c
                  { w.clients c with
                    queue := queue
                    puts := (w.clients c).puts ++ [message] } }
  | .close q => some
      { w with
        service :=
          { w.service with
            pending := rest
            descr := Function.update w.service.descr q none } }

/-- The next step of the server. -/
def serve (opened : Int) : Option (World C) :=
  match w.service.pending with
  | [] => w.take opened
  | call :: rest => w.perform rest call

/-- A step of a client and its effect. -/
def act (clientQName : C → Bytes maxMsgBufSize) (c : C) (action : Action) :
    Option (World C) :=
  let name := cstr maxMsgBufSize (clientQName c).toList
  match (w.clients c).act (clientQName c) action with
  | none => none
  | some (effect, x) =>
      let w' := { w with clients := Function.update w.clients c x }
      match effect with
      | .none => some w'
      | .opensQueue =>
          if w.names name = none then
            some { w' with names := Function.update w.names name (some c) }
          else none
      | .sends priority message =>
          (MessageQueue.send maxMessages w.serverQueue
            (priority, ⟨c, message⟩)).map fun queue =>
              { w' with serverQueue := queue }
      | .unlinksQueue =>
          some { w' with names := Function.update w.names name none }

def step (clientQName : C → Bytes maxMsgBufSize) (w : World C) :
    Event C → Option (World C)
  | .server opened => w.serve opened
  | .client c action => w.act clientQName c action

end World

/-- The chat of clients whose `client_q_name` is, after the `sprintf`, the
given array. -/
def chat {C : Type} [DecidableEq C] (clientQName : C → Bytes maxMsgBufSize) :
    System (World C) (Event C) where
  init w := w = World.initial C
  step w e w' := w.step clientQName e = some w'

/-! ## What one step can do -/

section Step

variable {C : Type} {w w' : World C}

theorem take_eq_some {opened : Int} (h : w.take opened = some w') :
    ∃ p l queue service,
      MessageQueue.receive w.serverQueue = some ((p, l), queue) ∧
      ((l.handled opened).joins = true → w.service.descr opened = none) ∧
      w.service.dispatch (l.handled opened) (w.names l.message.name) =
        some service ∧
      w' = { w with service := service, serverQueue := queue } := by
  unfold World.take at h
  split at h
  · cases h
  · rename_i p l queue hreceive
    simp only at h
    split at h
    · rename_i hopen
      obtain ⟨service, hservice, rfl⟩ := Option.map_eq_some_iff.mp h
      exact ⟨p, l, queue, service, hreceive, fun hj => (hopen hj).1,
        hservice, rfl⟩
    · cases h

variable [DecidableEq C]

/-- A send that the handler at work makes to an open queue. -/
theorem perform_send {rest : List Call} {q : Int} {message : MsgT} {c : C}
    (hq : w.service.descr q = some c)
    (h : w.perform rest (.send q message) = some w') :
    (w.clients c).queue.length < maxMessages ∧
    w' = { w with
      service := { w.service with pending := rest }
      clients := Function.update w.clients c
        { w.clients c with
          queue := (w.clients c).queue ++ [(1, message)]
          puts := (w.clients c).puts ++ [message] } } := by
  simp only [World.perform, hq] at h
  obtain ⟨queue, hsend, rfl⟩ := Option.map_eq_some_iff.mp h
  obtain ⟨hroom, rfl⟩ := MessageQueue.send_eq_some.mp hsend
  exact ⟨hroom, rfl⟩

/-- The letters of an effect. -/
def Effect.letters : Effect → MessageQueue MsgT
  | .sends priority message => [(priority, message)]
  | .none | .opensQueue | .unlinksQueue => []

/-- A client changes itself, sends its letters and changes what its own
name stands for; the server is as before. -/
theorem act_eq_some {clientQName : C → Bytes maxMsgBufSize} {c : C}
    {action : Action} (h : w.act clientQName c action = some w') :
    ∃ effect x, (w.clients c).act (clientQName c) action = some (effect, x) ∧
      w'.clients = Function.update w.clients c x ∧
      w'.service = w.service ∧
      w'.serverQueue = w.serverQueue ++
        effect.letters.map (fun y => (y.1, ⟨c, y.2⟩)) ∧
      w'.names = match effect with
        | .none | .sends _ _ => w.names
        | .opensQueue => Function.update w.names
            (cstr maxMsgBufSize (clientQName c).toList) (some c)
        | .unlinksQueue => Function.update w.names
            (cstr maxMsgBufSize (clientQName c).toList) none := by
  unfold World.act at h
  split at h
  · cases h
  · rename_i effect x hact
    refine ⟨effect, x, hact, ?_⟩
    cases effect with
    | none =>
        obtain rfl := Option.some.inj h
        exact ⟨rfl, rfl, (List.append_nil _).symm, rfl⟩
    | opensQueue =>
        simp only at h
        split at h
        · obtain rfl := Option.some.inj h
          exact ⟨rfl, rfl, (List.append_nil _).symm, rfl⟩
        · cases h
    | sends priority message =>
        obtain ⟨queue, hsend, rfl⟩ := Option.map_eq_some_iff.mp h
        obtain ⟨-, rfl⟩ := MessageQueue.send_eq_some.mp hsend
        exact ⟨rfl, rfl, rfl, rfl⟩
    | unlinksQueue =>
        obtain rfl := Option.some.inj h
        exact ⟨rfl, rfl, (List.append_nil _).symm, rfl⟩

/-- A queue is opened only under a name that is not in use. -/
theorem name_free_of_opens {clientQName : C → Bytes maxMsgBufSize} {c : C}
    {action : Action} {x : Client}
    (h : w.act clientQName c action = some w')
    (hact : (w.clients c).act (clientQName c) action =
      some (.opensQueue, x)) :
    w.names (cstr maxMsgBufSize (clientQName c).toList) = none := by
  simp only [World.act, hact] at h
  split at h
  · assumption
  · cases h

end Step

end Sysops.Cw07
