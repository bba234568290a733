import Sysops.Cw11.World

/-!
# The event loop of `main`

`epoll_wait` under edge-triggered polling, the loop over the events it
reports, and the accept loop, with frames and connections that arrive at
any time. A handler reads one frame for one event, however many frames the
event stands for; the accept loop goes on until there is nothing to
accept, or until `accept` fails for another reason.
-/

namespace Sysops.Cw11

abbrev maxEvents : Nat := 100

/-- Where `main` is. -/
inductive Loop where
  /-- About to call `epoll_wait`. -/
  | waiting
  /-- At the event of the descriptor, with more events behind it. -/
  | handling (fd : Int) (events : List Int)
  /-- In `accept_new_connection_requests`. -/
  | accepting (events : List Int)
  deriving DecidableEq

/-- On to the next event. -/
def Loop.next : List Int → Loop
  | [] => .waiting
  | fd :: events => .handling fd events

/-- The events that have not been handled. -/
def Loop.events : Loop → List Int
  | .waiting => []
  | .handling fd events => fd :: events
  | .accepting events => events

/-- The descriptor whose event is being handled. -/
def Loop.current : Loop → Option Int
  | .handling fd _ => some fd
  | .waiting | .accepting _ => none

@[simp] theorem Loop.events_next (events : List Int) :
    (Loop.next events).events = events := by
  cases events <;> rfl

structure Poll extends World where
  /-- The whole frames that wait on each descriptor. -/
  unread : Int → List MessageT
  /-- The ready list of `epoll_fd`. -/
  ready : Int → Bool
  /-- The connections that wait to be accepted, each with the frames that
  wait on it. -/
  backlog : List (List MessageT)
  loop : Loop

inductive PollEvent where
  /-- A frame arrives on a descriptor. -/
  | arrive (fd : Int) (m : MessageT)
  /-- A frame arrives on a connection that waits to be accepted. -/
  | arriveEarly (k : Nat) (m : MessageT)
  /-- A connection is made. -/
  | connect
  /-- `epoll_wait` returns these events. -/
  | wait (events : List Int)
  /-- `accept` returns the descriptor. -/
  | accept (fd : Int)
  /-- `accept` returns `-1`, with `EAGAIN` or with another error. -/
  | acceptFails
  /-- `main` gets to its next event. -/
  | handle (env : Env)
  /-- The event has one of the error flags. -/
  | error
  | firstPass (env : Env)
  | secondPass

namespace Poll

variable (s : Poll)

/-- A descriptor that was closed is off the ready list, and what waited on
it is gone. -/
def settle : Poll :=
  { s with
    unread := fun d => if (s.fds d).isSome then s.unread d else []
    ready := fun d =>
      (d == s.serverSocket || (s.fds d).isSome) && s.ready d }

/-- An event of the server as a whole. -/
def exec (e : Event) : Option Poll :=
  (s.toWorld.step e).map fun w => settle { s with toWorld := w }

def step : PollEvent → Option Poll
  | .arrive fd m =>
      if (s.fds fd).isSome then
        some { s with
          unread := Function.update s.unread fd (s.unread fd ++ [m])
          ready := Function.update s.ready fd true }
      else none
  | .arriveEarly k m =>
      some { s with backlog := s.backlog.modify k fun ms => ms ++ [m] }
  | .connect =>
      some { s with
        backlog := s.backlog ++ [[]]
        ready := Function.update s.ready s.serverSocket true }
  | .wait events =>
      if s.loop = .waiting ∧ events ≠ [] ∧ events.length ≤ maxEvents ∧
          events.Nodup ∧ ∀ fd ∈ events, s.ready fd = true then
        some { s with
          ready := fun fd => s.ready fd && !events.contains fd
          loop := Loop.next events }
      else none
  | .accept fd =>
      match s.loop, s.backlog with
      | .accepting _, frames :: backlog =>
          (s.exec (.accept fd)).map fun t =>
            -- `epoll_ctl` finds the data that is already there
            { t with
              unread := Function.update t.unread fd frames
              ready := Function.update t.ready fd (!frames.isEmpty)
              backlog := backlog }
      | _, _ => none
  | .acceptFails =>
      match s.loop with
      | .accepting events => some { s with loop := Loop.next events }
      | _ => none
  | .handle env =>
      match s.loop with
      | .handling fd events =>
          if fd = s.serverSocket then
            some { s with loop := .accepting events }
          else
            match s.unread fd with
            | m :: ms =>
                (exec { s with unread := Function.update s.unread fd ms,
                               loop := Loop.next events }
                  (.frame env fd m))
            -- `receive_message` reports an error
            | [] => some { s with loop := Loop.next events }
      | _ => none
  | .error =>
      match s.loop with
      | .handling fd events =>
          if fd = s.serverSocket then none
          else if (s.fds fd).isSome then
            exec { s with loop := Loop.next events } (.hangup fd)
          else some { s with loop := Loop.next events }
      | _ => none
  | .firstPass env => s.exec (.firstPass env)
  | .secondPass => s.exec .secondPass

/-- Before the first `epoll_wait`; connections may be waiting already. -/
def initial (serverSocket epollFd : Int) (backlog : List (List MessageT)) :
    Poll where
  toWorld := World.initial serverSocket epollFd
  unread _ := []
  ready fd := fd == serverSocket && !backlog.isEmpty
  backlog := backlog
  loop := .waiting

end Poll

def polling : System Poll PollEvent where
  init s := ∃ serverSocket epollFd backlog,
    s = Poll.initial serverSocket epollFd backlog
  step s e t := s.step e = some t

/-- Nothing that waits is forgotten: before `epoll_wait`, every descriptor
with a whole frame to read is on the ready list, and so is the listening
socket if a connection waits. -/
structure NoneStranded (s : Poll) : Prop where
  clients : s.loop = .waiting → ∀ fd, (s.fds fd).isSome →
    s.unread fd ≠ [] → s.ready fd = true
  listener : s.loop = .waiting → s.backlog ≠ [] →
    s.ready s.serverSocket = true

/-- The next frame on the descriptor is a `CLIENT_STOP` that closes it. -/
def Poll.stopsItself (s : Poll) (fd : Int) : Bool :=
  (s.unread fd).head?.any fun m =>
    m.type == MessageType.clientStop.code &&
      (taken s.server.slots m.sender.toList).any fun i =>
        (s.server.slots i).socket == fd

/-- An event stands for one frame at most, or the descriptor is on the
ready list again; and the accept loop ends with nothing to accept. -/
def Drains (s : Poll) : PollEvent → Prop
  | .handle _ => ∀ fd ∈ s.loop.current, (s.unread fd).length ≤ 1 ∨
      s.ready fd = true ∨ s.stopsItself fd = true
  | .acceptFails => s.backlog = [] ∨ s.ready s.serverSocket = true
  | _ => True

instance (s : Poll) : DecidablePred (Drains s)
  | .handle _ => inferInstanceAs (Decidable (∀ _ ∈ _, _))
  | .acceptFails => inferInstanceAs (Decidable (_ ∨ _))
  | .arrive _ _ | .arriveEarly _ _ | .connect | .wait _ | .accept _ | .error
  | .firstPass _ | .secondPass => inferInstanceAs (Decidable True)

/-! ## Whatever waits is on a list -/

/-- What holds at all points of the loop: whatever waits is on the ready
list or among the events that are still to be handled. -/
structure Covered (s : Poll) : Prop where
  listening : s.fds s.serverSocket = none
  opened : ∀ fd c, s.fds fd = some c → 0 ≤ fd
  closed : ∀ fd, s.fds fd = none → s.unread fd = []
  clients : ∀ fd, s.unread fd ≠ [] →
    s.ready fd = true ∨ fd ∈ s.loop.events
  listener : s.backlog ≠ [] → s.ready s.serverSocket = true ∨
    s.serverSocket ∈ s.loop.events ∨
    ∃ events, s.loop = .accepting events

theorem Covered.noneStranded {s : Poll} (hs : Covered s) :
    NoneStranded s := by
  constructor
  · intro hloop fd _ hunread
    rcases hs.clients fd hunread with hready | hevent
    · exact hready
    · rw [hloop] at hevent
      cases hevent
  · intro hloop hbacklog
    rcases hs.listener hbacklog with hready | hevent | ⟨events, haccepting⟩
    · exact hready
    · rw [hloop] at hevent
      cases hevent
    · rw [hloop] at haccepting
      cases haccepting

section Exec

variable {s t : Poll} {e : Event}

theorem Poll.exec_eq_some (h : s.exec e = some t) :
    ∃ w, s.toWorld.step e = some w ∧
      t = Poll.settle { s with toWorld := w } := by
  obtain ⟨w, hw, rfl⟩ := Option.map_eq_some_iff.mp h
  exact ⟨w, hw, rfl⟩

/-- An event of the server that opens nothing keeps a descriptor covered,
if it was covered or is closed. -/
theorem covered_exec (h : s.exec e = some t) (he : ∀ fd, e ≠ .accept fd)
    (hlistening : s.fds s.serverSocket = none)
    (hopened : ∀ fd c, s.fds fd = some c → 0 ≤ fd)
    (hclients : ∀ fd, (t.fds fd).isSome → s.unread fd ≠ [] →
      s.ready fd = true ∨ fd ∈ s.loop.events)
    (hlistener : s.backlog ≠ [] → s.ready s.serverSocket = true ∨
      s.serverSocket ∈ s.loop.events ∨
      ∃ events, s.loop = .accepting events) : Covered t := by
  obtain ⟨w, hw, rfl⟩ := Poll.exec_eq_some h
  have hserver : w.serverSocket = s.serverSocket := serverSocket_eq hw
  have hfds : ∀ d c, w.fds d = some c → s.fds d = some c := by
    intro d c hd
    rcases fds_before hw hd with hd | ⟨heq, -⟩
    · exact hd
    · exact absurd heq (he d)
  constructor
  · show w.fds w.serverSocket = none
    rw [hserver]
    cases hd : w.fds s.serverSocket with
    | none => rfl
    | some c =>
        have hold := hfds _ c hd
        rw [hlistening] at hold
        cases hold
  · intro d c hd
    exact hopened d c (hfds d c hd)
  · intro d hd
    have hd : w.fds d = none := hd
    simp [Poll.settle, hd]
  · intro d hd
    -- what waits on a descriptor waits on an open one
    cases hopen : w.fds d with
    | none => simp [Poll.settle, hopen] at hd
    | some c =>
        have hunread : s.unread d ≠ [] := by
          simpa [Poll.settle, hopen] using hd
        rcases hclients d (by simp [Poll.settle, hopen]) hunread with
          hready | hevent
        · exact .inl (by simp [Poll.settle, hopen, hready])
        · exact .inr hevent
  · intro hbacklog
    rcases hlistener hbacklog with hready | hrest
    · refine .inl ?_
      simp [Poll.settle, hserver, hready]
    · refine .inr ?_
      show w.serverSocket ∈ _ ∨ _
      rw [hserver]
      exact hrest

end Exec

section Step

variable {s t : Poll}

theorem covered_arrive {fd : Int} {m : MessageT} (hs : Covered s)
    (h : s.step (.arrive fd m) = some t) : Covered t := by
  simp only [Poll.step] at h
  split at h
  case isFalse => cases h
  case isTrue hopen =>
  obtain rfl := Option.some.inj h
  have hne : s.serverSocket ≠ fd := by
    rintro rfl
    rw [hs.listening] at hopen
    cases hopen
  refine ⟨hs.listening, hs.opened, ?_, ?_, ?_⟩
  · intro d hd
    have hdf : d ≠ fd := by
      rintro rfl
      rw [show s.fds d = none from hd] at hopen
      cases hopen
    exact (Function.update_of_ne hdf _ _).trans (hs.closed d hd)
  · intro d hd
    by_cases hdf : d = fd
    · rw [hdf]
      exact .inl (Function.update_self _ _ _)
    · simp only [Function.update_of_ne hdf] at hd ⊢
      exact hs.clients d hd
  · intro hbacklog
    simp only [Function.update_of_ne hne]
    exact hs.listener hbacklog

theorem covered_wait {events : List Int} (hs : Covered s)
    (h : s.step (.wait events) = some t) : Covered t := by
  simp only [Poll.step] at h
  split at h
  case isFalse => cases h
  case isTrue hwait =>
  obtain rfl := Option.some.inj h
  obtain ⟨hloop, -, -, -, -⟩ := hwait
  -- what was on the ready list is there still, or was reported
  have hmoved : ∀ d, s.ready d = true →
      (s.ready d && !events.contains d) = true ∨
        d ∈ (Loop.next events).events := by
    intro d hd
    by_cases hmem : d ∈ events
    · exact .inr (by simpa using hmem)
    · exact .inl (by simp [hd, hmem])
  refine ⟨hs.listening, hs.opened, hs.closed, ?_, ?_⟩
  · intro d hd
    rcases hs.clients d hd with hready | hevent
    · exact hmoved d hready
    · rw [hloop] at hevent
      cases hevent
  · intro hbacklog
    rcases hs.listener hbacklog with hready | hevent | ⟨_, haccepting⟩
    · rcases hmoved _ hready with h | h
      · exact .inl h
      · exact .inr (.inl h)
    · rw [hloop] at hevent
      cases hevent
    · rw [hloop] at haccepting
      cases haccepting

theorem covered_accept {fd : Int} (hs : Covered s)
    (h : s.step (.accept fd) = some t) : Covered t := by
  simp only [Poll.step] at h
  split at h
  case h_2 => cases h
  case h_1 events frames backlog hloop hbacklog =>
  obtain ⟨u, hu, rfl⟩ := Option.map_eq_some_iff.mp h
  obtain ⟨w, hw, rfl⟩ := Poll.exec_eq_some hu
  obtain ⟨hpos, hserver, -, -, rfl⟩ := World.step_accept hw
  have hother : ∀ d, d ≠ fd →
      Function.update s.fds fd (some s.accepted) d = s.fds d :=
    fun d hdf => Function.update_of_ne hdf _ _
  refine ⟨?_, ?_, ?_, ?_, ?_⟩
  · exact (hother _ (Ne.symm hserver)).trans hs.listening
  · intro d c hd
    by_cases hdf : d = fd
    · rw [hdf]
      exact hpos
    · exact hs.opened d c ((hother d hdf).symm.trans hd)
  · intro d hd
    by_cases hdf : d = fd
    · rw [hdf] at hd
      exact absurd hd (by simp [Poll.settle])
    · have hd : s.fds d = none := (hother d hdf).symm.trans hd
      simp [Poll.settle, Function.update_of_ne hdf, hd]
  · intro d hd
    by_cases hdf : d = fd
    · subst hdf
      simp only [Function.update_self] at hd ⊢
      exact .inl (by simpa using hd)
    · simp only [Function.update_of_ne hdf] at hd ⊢
      cases hopen : s.fds d with
      | none => simp [Poll.settle, hdf, hopen] at hd
      | some c =>
          have hunread : s.unread d ≠ [] := by
            simpa [Poll.settle, hdf, hopen] using hd
          rcases hs.clients d hunread with hready | hevent
          · exact .inl (by simp [Poll.settle, hdf, hopen, hready])
          · exact .inr hevent
  · intro _
    exact .inr (.inr ⟨events, hloop⟩)

theorem covered_acceptFails (hs : Covered s)
    (hdrains : Drains s .acceptFails)
    (h : s.step .acceptFails = some t) : Covered t := by
  simp only [Poll.step] at h
  split at h
  case h_2 => cases h
  case h_1 events hloop =>
  obtain rfl := Option.some.inj h
  refine ⟨hs.listening, hs.opened, hs.closed, ?_, ?_⟩
  · intro d hd
    rcases hs.clients d hd with hready | hevent
    · exact .inl hready
    · rw [hloop] at hevent
      refine .inr ?_
      rw [Loop.events_next]
      exact hevent
  · intro hbacklog
    rcases hdrains with hempty | hready
    · exact absurd hempty hbacklog
    · exact .inl hready

/-- A `CLIENT_STOP` that finds its own descriptor closes it. -/
theorem closed_of_stopsItself {w w' : World} {env : Env} {fd : Int}
    {m : MessageT} {i : Fin maxClients} (hpos : 0 ≤ fd)
    (hm : m.type = MessageType.clientStop.code)
    (ht : taken w.server.slots m.sender.toList = some i)
    (hsocket : (w.server.slots i).socket = fd)
    (h : w.step (.frame env fd m) = some w') : w'.fds fd = none := by
  obtain ⟨c, s, -, hs, rfl⟩ := World.step_frame h
  cases hs with
  | refused hm' | registered hm' | tableFull hm' | alive hm' =>
      exact absurd hm' (MessageType.ne_code hm (by decide))
  | spoke _ hstop =>
      exact absurd (ht.symm.trans (hstop hm)) (by simp)
  | @stopped k _ hk =>
      obtain rfl : i = k := Option.some.inj (ht.symm.trans hk)
      refine (closeFds_apply _ _ _).trans (if_pos ?_)
      have hne : fd ≠ -1 := by omega
      simp [hsocket, hne]

/-- What stays covered when the event of `fd` is taken from the list. -/
theorem Covered.others {fd : Int} {events : List Int} (hs : Covered s)
    (hloop : s.loop = .handling fd events) :
    ∀ d, d ≠ fd → s.unread d ≠ [] →
      s.ready d = true ∨ d ∈ (Loop.next events).events := by
  intro d hdf hd
  rcases hs.clients d hd with hready | hevent
  · exact .inl hready
  · rw [hloop] at hevent
    rw [Loop.events_next]
    exact .inr (List.mem_of_ne_of_mem hdf hevent)

theorem Covered.backlog {fd : Int} {events : List Int} (hs : Covered s)
    (hloop : s.loop = .handling fd events) (hfd : fd ≠ s.serverSocket) :
    s.backlog ≠ [] → s.ready s.serverSocket = true ∨
      s.serverSocket ∈ (Loop.next events).events ∨
      ∃ evs, Loop.next events = .accepting evs := by
  intro hbacklog
  rcases hs.listener hbacklog with hready | hevent | ⟨_, haccepting⟩
  · exact .inl hready
  · rw [hloop] at hevent
    refine .inr (.inl ?_)
    rw [Loop.events_next]
    exact List.mem_of_ne_of_mem (Ne.symm hfd) hevent
  · rw [hloop] at haccepting
    cases haccepting

theorem covered_handle {env : Env} (hs : Covered s)
    (hdrains : Drains s (.handle env))
    (h : s.step (.handle env) = some t) : Covered t := by
  simp only [Poll.step] at h
  split at h
  case h_2 => cases h
  case h_1 fd events hloop =>
  have hdrains := hdrains fd (by rw [hloop]; rfl)
  have hclients := hs.others hloop
  split at h
  case isTrue hfd =>
    -- on to the accept loop
    obtain rfl := Option.some.inj h
    refine ⟨hs.listening, hs.opened, hs.closed, ?_, ?_⟩
    · intro d hd
      have hcovered := hclients d ?_ hd
      · rwa [Loop.events_next] at hcovered
      rintro rfl
      exact hd (hs.closed d (hfd ▸ hs.listening))
    · intro _
      exact .inr (.inr ⟨events, rfl⟩)
  case isFalse hfd =>
  have hlistener := hs.backlog hloop hfd
  split at h
  · rename_i m ms hunread
    refine covered_exec h (by simp) hs.listening hs.opened ?_ hlistener
    intro d hopen hd
    by_cases hdf : d = fd
    · subst hdf
      have hms : ms ≠ [] := by simpa using hd
      rcases hdrains with hone | hready | hstop
      · rw [hunread] at hone
        exact absurd (List.length_eq_zero_iff.mp
          (Nat.le_zero.mp (Nat.le_of_succ_le_succ hone))) hms
      · exact .inl hready
      · -- the handler has closed the descriptor
        obtain ⟨w, hw, rfl⟩ := Poll.exec_eq_some h
        rw [Poll.stopsItself, hunread, List.head?_cons, Option.any_some,
          Bool.and_eq_true, beq_iff_eq, Option.any_eq_true] at hstop
        obtain ⟨hm, i, ht, hsocket⟩ := hstop
        obtain ⟨c, _, hc, -⟩ := World.step_frame hw
        have hclosed := closed_of_stopsItself (hs.opened d c hc) hm ht
          (beq_iff_eq.mp hsocket) hw
        rw [show (Poll.settle _).fds d = w.fds d from rfl, hclosed] at hopen
        cases hopen
    · refine hclients d hdf ?_
      simpa [Function.update_of_ne hdf] using hd
  · rename_i hunread
    obtain rfl := Option.some.inj h
    refine ⟨hs.listening, hs.opened, hs.closed, ?_, hlistener⟩
    intro d hd
    refine hclients d ?_ hd
    rintro rfl
    exact hd hunread

theorem covered_error (hs : Covered s) (h : s.step .error = some t) :
    Covered t := by
  simp only [Poll.step] at h
  split at h
  case h_2 => cases h
  case h_1 fd events hloop =>
  split at h
  case isTrue => cases h
  case isFalse hfd =>
  have hclients := hs.others hloop
  have hlistener := hs.backlog hloop hfd
  split at h
  case isTrue hopen =>
    refine covered_exec h (by simp) hs.listening hs.opened ?_ hlistener
    intro d hopen' hd
    refine hclients d ?_ hd
    rintro rfl
    obtain ⟨w, hw, rfl⟩ := Poll.exec_eq_some h
    obtain ⟨c, -, rfl⟩ := World.step_hangup hw
    exact absurd hopen' (by simp [Poll.settle])
  case isFalse hclosed =>
    obtain rfl := Option.some.inj h
    refine ⟨hs.listening, hs.opened, hs.closed, ?_, hlistener⟩
    intro d hd
    refine hclients d ?_ hd
    rintro rfl
    exact hd (hs.closed d (by simpa using hclosed))

theorem covered_step {e : PollEvent} (hs : Covered s)
    (hdrains : Drains s e) (h : s.step e = some t) : Covered t := by
  cases e with
  | arrive fd m => exact covered_arrive hs h
  | wait events => exact covered_wait hs h
  | accept fd => exact covered_accept hs h
  | acceptFails => exact covered_acceptFails hs hdrains h
  | handle env => exact covered_handle hs hdrains h
  | error => exact covered_error hs h
  | firstPass env | secondPass =>
      exact covered_exec h (by simp) hs.listening hs.opened
        (fun d _ => hs.clients d) hs.listener
  | arriveEarly k m =>
      obtain rfl := Option.some.inj h
      refine ⟨hs.listening, hs.opened, hs.closed, hs.clients, ?_⟩
      intro hbacklog
      refine hs.listener ?_
      rintro hempty
      rw [hempty] at hbacklog
      simp at hbacklog
  | connect =>
      obtain rfl := Option.some.inj h
      refine ⟨hs.listening, hs.opened, hs.closed, ?_, ?_⟩
      · intro d hd
        by_cases hdf : d = s.serverSocket
        · exact absurd (hs.closed d (hdf ▸ hs.listening)) hd
        · simp only [Function.update_of_ne hdf]
          exact hs.clients d hd
      · intro _
        exact .inl (Function.update_self _ _ _)

end Step

/-- **Nothing is stranded in any run in which every event is drained.** -/
theorem none_stranded_of_drains {s : Poll}
    (h : polling.ReachableIf Drains s) : NoneStranded s := by
  refine Covered.noneStranded (h.invariant (I := Covered) ?_ ?_)
  · rintro s ⟨serverSocket, epollFd, backlog, rfl⟩
    refine ⟨rfl, ?_, fun _ _ => rfl, ?_, ?_⟩
    · intro fd c hfd
      cases hfd
    · intro fd hfd
      exact absurd rfl hfd
    · intro hbacklog
      exact .inl (by simpa [Poll.initial, World.initial] using hbacklog)
  · intro s e t hs hdrains hstep
    exact covered_step hs hdrains hstep

/-- A step of the event loop is one event of the server, or none. -/
theorem polling_step {s t : Poll} {e : PollEvent} (h : s.step e = some t) :
    t.toWorld = s.toWorld ∨ ∃ e', s.toWorld.step e' = some t.toWorld := by
  have hexec : ∀ {u v : Poll} {e : Event}, u.exec e = some v →
      u.toWorld = s.toWorld →
      ∃ e', s.toWorld.step e' = some v.toWorld := by
    intro u v e hv hu
    obtain ⟨w, hw, rfl⟩ := Poll.exec_eq_some hv
    exact ⟨e, hu ▸ hw⟩
  cases e with
  | arrive fd m =>
      simp only [Poll.step] at h
      split at h
      · obtain rfl := Option.some.inj h
        exact .inl rfl
      · cases h
  | arriveEarly k m | connect =>
      obtain rfl := Option.some.inj h
      exact .inl rfl
  | wait events =>
      simp only [Poll.step] at h
      split at h
      · obtain rfl := Option.some.inj h
        exact .inl rfl
      · cases h
  | accept fd =>
      simp only [Poll.step] at h
      split at h
      · obtain ⟨u, hu, rfl⟩ := Option.map_eq_some_iff.mp h
        have hworld := hexec hu rfl
        exact .inr hworld
      · cases h
  | acceptFails =>
      simp only [Poll.step] at h
      split at h
      · obtain rfl := Option.some.inj h
        exact .inl rfl
      · cases h
  | handle env =>
      simp only [Poll.step] at h
      split at h
      · split at h
        · obtain rfl := Option.some.inj h
          exact .inl rfl
        · split at h
          · exact .inr (hexec h rfl)
          · obtain rfl := Option.some.inj h
            exact .inl rfl
      · cases h
  | error =>
      simp only [Poll.step] at h
      split at h
      · split at h
        · cases h
        · split at h
          · exact .inr (hexec h rfl)
          · obtain rfl := Option.some.inj h
            exact .inl rfl
      · cases h
  | firstPass env | secondPass => exact .inr (hexec h rfl)

/-- The event loop takes the chat server through states of its runs
only. -/
theorem chat_of_polling {s : Poll} (h : polling.Reachable s) :
    chat.Reachable s.toWorld := by
  induction h with
  | init hinit =>
      obtain ⟨serverSocket, epollFd, backlog, rfl⟩ := hinit
      exact .init ⟨serverSocket, epollFd, rfl⟩
  | step _ _ hstep ih =>
      rcases polling_step hstep with heq | ⟨e, hworld⟩
      · rw [heq]
        exact ih
      · exact ih.step hworld

/-- Two clients, one frame for each event. -/
theorem none_stranded_two_clients : ∃ s, polling.Reachable s ∧
    (s.server.slots 1).valid = true ∧ NoneStranded s := by
  obtain ⟨s, hs, hvalid⟩ :=
    System.ReachableIf.exists_of_runLabels (S := polling) (C := Drains)
      Poll.step (fun _ _ _ h => h)
      [.connect, .connect, .arriveEarly 0 (frameFrom .clientNew "bob"),
        .wait [3], .handle Env.zeros, .accept 5, .accept 6, .acceptFails,
        .arrive 6 (frameFrom .clientNew "eve"), .wait [6, 5],
        .handle Env.zeros, .handle Env.zeros]
      (p := fun s => (s.server.slots 1).valid)
      (s := Poll.initial 3 4 []) (.init ⟨3, 4, [], rfl⟩) (by decide +kernel)
  exact ⟨s, hs.reachable, hvalid, none_stranded_of_drains hs⟩

/-- Two frames that arrive before one `epoll_wait`: the second stays
behind. -/
theorem second_frame_stranded :
    ∃ s, polling.Reachable s ∧ ¬ NoneStranded s := by
  obtain ⟨s, hs, hq⟩ :=
    System.ReachableIf.exists_of_runLabels (S := polling)
      (C := fun _ _ => True) Poll.step (fun _ _ _ h => h)
      [.connect, .wait [3], .handle Env.zeros, .accept 5, .acceptFails,
        .arrive 5 (frameFrom .clientNew "bob"),
        .arrive 5 (frameFrom .clientList "bob"), .wait [5],
        .handle Env.zeros]
      (p := fun s => s.loop == .waiting && (s.fds 5).isSome &&
        !(s.unread 5).isEmpty && !s.ready 5)
      (s := Poll.initial 3 4 []) (.init ⟨3, 4, [], rfl⟩) (by decide +kernel)
  simp only [Bool.and_eq_true, beq_iff_eq, Bool.not_eq_true',
    List.isEmpty_eq_false_iff] at hq
  obtain ⟨⟨⟨hloop, hopen⟩, hunread⟩, hready⟩ := hq
  refine ⟨s, hs, ?_⟩
  intro hnone
  rw [hnone.clients hloop 5 hopen hunread] at hready
  cases hready

end Sysops.Cw11
