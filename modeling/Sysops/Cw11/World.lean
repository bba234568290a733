import Sysops.Cw11.Handlers
import Sysops.Library.Runs

/-!
# Runs of the `cw11` server

The server process with its descriptor table, stepping from one handled
event to the next: an accept, a frame, the error branch of `main`, and the
two passes of the heartbeat thread, in any order. Each connection that is
accepted gets a number of its own, so that a descriptor that the kernel
hands out again can be told from its earlier use.

Beside the state runs a history that the server does not have: for each
entry of the table, the connection and the name of the `CLIENT_NEW` that
made it, and what the heartbeat has asked and heard since. It is read off
the events and the two tables around them, never off the code.
-/

namespace Sysops.Cw11

/-- Connections, numbered as they are accepted. -/
abbrev Conn := Nat

/-- Which pass of `check_if_clients_are_alive` comes next. -/
inductive Beat where
  | first
  | second
  deriving DecidableEq, Repr

structure World where
  server : Server
  /-- The connection that each open client descriptor stands for. -/
  fds : Int → Option Conn
  /-- How many connections have been accepted. -/
  accepted : Nat
  beat : Beat
  /-- The global variables `server_socket` and `epoll_fd`. -/
  serverSocket : Int
  epollFd : Int

/-- The table `init_clients` leaves, with the mutex free. The names are
what the zeroed memory of the program and `name[0] = '\0'` make them. -/
def Server.initial : Server where
  slots _ := ⟨clearName (Bytes.ofList maxClientName []), -1, false, false⟩
  locked := false
  calls := []

/-- The memory of the global variables when the program starts. -/
def Server.zeroed : Server where
  slots _ := ⟨Bytes.ofList maxClientName [], 0, false, false⟩
  locked := false
  calls := []

theorem run_initClients :
    initClients.run Server.zeroed = .ok ((), Server.initial) := by
  simp only [initClients, StateT.run_bind,
    SlotM.run_lock_free Server.zeroed rfl, ok_bind]
  rw [SlotM.run_forEachSlot (f := fun _ c =>
      { name := clearName c.name, socket := -1, valid := false,
        awaitingAliveResponse := false }) (g := fun _ _ => [])]
  · simp [Server.zeroed, Server.initial]
  · intro i s
    simp

/-- When `main` enters its loop. -/
def World.initial (serverSocket epollFd : Int) : World where
  server := Server.initial
  fds _ := none
  accepted := 0
  beat := .first
  serverSocket := serverSocket
  epollFd := epollFd

/-- What the program does between two points where nothing is going on. -/
inductive Event where
  /-- `accept` returns the descriptor. -/
  | accept (fd : Int)
  /-- `handle_client_message` gets a whole frame on the descriptor. -/
  | frame (env : Env) (fd : Int) (m : MessageT)
  /-- The error branch of `main` closes the descriptor. -/
  | hangup (fd : Int)
  | firstPass (env : Env)
  | secondPass

/-- The descriptors that are open after some calls. -/
def closeFds : List Call → (Int → Option Conn) → Int → Option Conn
  | [], fds => fds
  | .close fd :: ks, fds => closeFds ks (Function.update fds fd none)
  | .send _ _ :: ks, fds => closeFds ks fds

namespace World

variable (w : World)

/-- The table before a handler runs: the calls of earlier events are
behind it. -/
def idle : Server := { w.server with calls := [] }

@[simp] theorem idle_slots : w.idle.slots = w.server.slots := rfl

@[simp] theorem idle_calls : w.idle.calls = [] := rfl

/-- Let the server run a handler; it may not return. -/
def exec (handler : ServerM Unit) : Option World :=
  match handler.run w.idle with
  | .ok (_, s) => some { w with server := s, fds := closeFds s.calls w.fds }
  | .error _ => none

/-- One event; `none` where it cannot happen or is never over. -/
def step : Event → Option World
  | .accept fd =>
      if 0 ≤ fd ∧ fd ≠ w.serverSocket ∧ fd ≠ w.epollFd ∧ w.fds fd = none then
        some { w with
          server := { w.server with calls := [] }
          fds := Function.update w.fds fd (some w.accepted)
          accepted := w.accepted + 1 }
      else none
  | .frame env fd m =>
      if (w.fds fd).isSome then w.exec (handleClientMessage env fd (some m))
      else none
  | .hangup fd =>
      if (w.fds fd).isSome then
        some { w with
          server := { w.server with calls := [.close fd] }
          fds := Function.update w.fds fd none }
      else none
  | .firstPass env =>
      if w.beat = .first then
        (w.exec (checkAliveFirstPass env)).map fun w =>
          { w with beat := .second }
      else none
  | .secondPass =>
      if w.beat = .second then
        (w.exec checkAliveSecondPass).map fun w => { w with beat := .first }
      else none

end World

/-- The chat server, from any pair of descriptors of its own. -/
def chat : System World Event where
  init w := ∃ serverSocket epollFd, w = World.initial serverSocket epollFd
  step w e w' := w.step e = some w'

/-! ## Concrete events -/

/-- Surroundings in which only zeros lie behind the texts. -/
def Env.zeros : Env where
  time _ := 0
  rodata _ := Bytes.ofList maxMessageText []
  stack := []
  listBuffer := Bytes.ofList maxMessageText []
  afterName _ := []

/-- The arrival of a frame with the given name. -/
def Event.sent (fd : Int) (type : MessageType) (name : String) : Event :=
  .frame Env.zeros fd (frameFrom type name)

/-! ## What one event can do -/

theorem closeFds_sends {ks : List Call}
    (h : ∀ k ∈ ks, ∃ d msg, k = Call.send d msg) (fds : Int → Option Conn) :
    closeFds ks fds = fds := by
  induction ks with
  | nil => rfl
  | cons k ks ih =>
      obtain ⟨d, msg, rfl⟩ := h k (by simp)
      exact ih fun k hk => h k (by simp [hk])

theorem closeFds_apply (ks : List Call) (fds : Int → Option Conn) (d : Int) :
    closeFds ks fds d = if Call.close d ∈ ks then none else fds d := by
  induction ks generalizing fds with
  | nil => simp [closeFds]
  | cons k ks ih =>
      cases k with
      | send fd msg => simp [closeFds, ih]
      | close fd =>
          simp only [closeFds, ih, List.mem_cons, Call.close.injEq]
          by_cases hd : d = fd
          · subst hd
            simp
          · simp [hd]

/-- What is open after a close was open before. -/
theorem of_update_none {fds : Int → Option Conn} {fd d : Int} {c : Conn}
    (h : Function.update fds fd none d = some c) : fds d = some c := by
  by_cases hd : d = fd
  · rw [hd, Function.update_self] at h
    cases h
  · rwa [Function.update_of_ne hd] at h

namespace World

variable {w w' : World}

/-- A successful run of a handler. -/
theorem exec_eq_some {handler : ServerM Unit} (h : w.exec handler = some w') :
    ∃ s, handler.run w.idle = .ok ((), s) ∧
      w' = { w with server := s, fds := closeFds s.calls w.fds } := by
  unfold exec at h
  split at h
  · rename_i s hs
    exact ⟨s, hs, (Option.some.inj h).symm⟩
  · cases h

theorem exec_of_ok {handler : ServerM Unit} {s : Server}
    (h : handler.run w.idle = .ok ((), s)) :
    w.exec handler =
      some { w with server := s, fds := closeFds s.calls w.fds } := by
  unfold exec
  rw [h]

/-- A handled frame. -/
theorem step_frame {env : Env} {fd : Int} {m : MessageT}
    (h : w.step (.frame env fd m) = some w') :
    ∃ c s, w.fds fd = some c ∧
      Handled env fd m w.idle s ∧
      w' = { w with server := s, fds := closeFds s.calls w.fds } := by
  simp only [step] at h
  split at h
  · rename_i hopen
    obtain ⟨c, hc⟩ := Option.isSome_iff_exists.mp hopen
    obtain ⟨s, hs, rfl⟩ := exec_eq_some h
    exact ⟨c, s, hc, handled_of_ok hs, rfl⟩
  · cases h

/-- The first pass closes nothing, and asks exactly the valid entries. -/
theorem step_firstPass {env : Env} (h : w.step (.firstPass env) = some w') :
    w.beat = .first ∧ w.server.locked = false ∧
      w' = { w with
        server := { w.server with
          slots := fun i =>
            if (w.server.slots i).valid then
              { w.server.slots i with awaitingAliveResponse := true }
            else w.server.slots i
          calls := (List.finRange maxClients).flatMap fun i =>
            if (w.server.slots i).valid then
              [.send (w.server.slots i).socket
                (env.serverMessage i .serverCheckAlive "")]
            else [] }
        beat := .second } := by
  simp only [step] at h
  split at h
  · rename_i hbeat
    obtain ⟨v, hv, rfl⟩ := Option.map_eq_some_iff.mp h
    obtain ⟨s, hs, rfl⟩ := exec_eq_some hv
    have hfree : w.idle.locked = false := free_of_checkAliveFirstPass hs
    rw [run_checkAliveFirstPass env hfree, Except.ok.injEq,
      Prod.mk.injEq] at hs
    obtain ⟨-, rfl⟩ := hs
    refine ⟨hbeat, hfree, ?_⟩
    rw [closeFds_sends]
    · rfl
    · intro k hk
      obtain ⟨i, -, rfl⟩ := SlotM.mem_sweep.mp hk
      exact ⟨_, _, rfl⟩
  · cases h

/-- The second pass removes the marked entries and closes their
sockets. -/
theorem step_secondPass (h : w.step .secondPass = some w') :
    w.beat = .second ∧ w.server.locked = false ∧
      ∃ calls : List Call,
        (∀ k, k ∈ calls ↔ ∃ i, (w.server.slots i).valid = true ∧
          (w.server.slots i).awaitingAliveResponse = true ∧
          k = .close (w.server.slots i).socket) ∧
        w' = { w with
          server := { w.server with
            slots := fun i =>
              if (w.server.slots i).valid &&
                  (w.server.slots i).awaitingAliveResponse then
                { w.server.slots i with
                  valid := false
                  awaitingAliveResponse := false }
              else w.server.slots i
            calls := calls }
          fds := closeFds calls w.fds
          beat := .first } := by
  simp only [step] at h
  split at h
  · rename_i hbeat
    obtain ⟨v, hv, rfl⟩ := Option.map_eq_some_iff.mp h
    obtain ⟨s, hs, rfl⟩ := exec_eq_some hv
    have hfree : w.idle.locked = false := free_of_checkAliveSecondPass hs
    rw [run_checkAliveSecondPass hfree, Except.ok.injEq, Prod.mk.injEq] at hs
    obtain ⟨-, rfl⟩ := hs
    refine ⟨hbeat, hfree, _, ?_, rfl⟩
    intro k
    rw [idle_calls, List.nil_append, SlotM.mem_sweep]
    simp only [Bool.and_eq_true, and_assoc]
    rfl
  · cases h

theorem step_accept {fd : Int} (h : w.step (.accept fd) = some w') :
    0 ≤ fd ∧ fd ≠ w.serverSocket ∧ fd ≠ w.epollFd ∧ w.fds fd = none ∧
      w' = { w with
        server := { w.server with calls := [] }
        fds := Function.update w.fds fd (some w.accepted)
        accepted := w.accepted + 1 } := by
  simp only [step] at h
  split at h
  · rename_i hfd
    exact ⟨hfd.1, hfd.2.1, hfd.2.2.1, hfd.2.2.2, (Option.some.inj h).symm⟩
  · cases h

theorem step_hangup {fd : Int} (h : w.step (.hangup fd) = some w') :
    ∃ c, w.fds fd = some c ∧
      w' = { w with
        server := { w.server with calls := [.close fd] }
        fds := Function.update w.fds fd none } := by
  simp only [step] at h
  split at h
  · rename_i hopen
    obtain ⟨c, hc⟩ := Option.isSome_iff_exists.mp hopen
    exact ⟨c, hc, (Option.some.inj h).symm⟩
  · cases h

end World

/-! ## What one event does to the descriptors -/

/-- What an event can do to a descriptor. -/
inductive FdStep (w : World) (e : Event) (w' : World) (d : Int) : Prop where
  | kept : w'.fds d = w.fds d → FdStep w e w' d
  | closed : w'.fds d = none → FdStep w e w' d
  | opened : e = .accept d → 0 ≤ d → w.fds d = none →
      w'.fds d = some w.accepted → w'.accepted = w.accepted + 1 →
      FdStep w e w' d

theorem fdStep_closeFds {w w' : World} {e : Event} {ks : List Call}
    (h : w'.fds = closeFds ks w.fds) (d : Int) : FdStep w e w' d := by
  by_cases hd : Call.close d ∈ ks
  · exact .closed (by rw [h, closeFds_apply, if_pos hd])
  · exact .kept (by rw [h, closeFds_apply, if_neg hd])

theorem fdStep {w w' : World} {e : Event} (h : w.step e = some w')
    (d : Int) : FdStep w e w' d := by
  cases e with
  | accept fd =>
      obtain ⟨hpos, -, -, hnone, rfl⟩ := World.step_accept h
      by_cases hd : d = fd
      · subst hd
        exact .opened rfl hpos hnone (by simp) rfl
      · exact .kept (by simp [hd])
  | hangup fd =>
      obtain ⟨c, -, rfl⟩ := World.step_hangup h
      by_cases hd : d = fd
      · exact .closed (by simp [hd])
      · exact .kept (by simp [hd])
  | firstPass env =>
      obtain ⟨-, -, rfl⟩ := World.step_firstPass h
      exact .kept rfl
  | secondPass =>
      obtain ⟨-, -, calls, -, rfl⟩ := World.step_secondPass h
      exact fdStep_closeFds rfl d
  | frame env fd m =>
      obtain ⟨c, s, -, -, rfl⟩ := World.step_frame h
      exact fdStep_closeFds rfl d

theorem accepted_le {w w' : World} {e : Event} (h : w.step e = some w') :
    w.accepted ≤ w'.accepted := by
  cases e with
  | accept fd =>
      obtain ⟨-, -, -, -, rfl⟩ := World.step_accept h
      exact Nat.le_succ _
  | hangup fd =>
      obtain ⟨c, -, rfl⟩ := World.step_hangup h
      exact Nat.le_refl _
  | firstPass env =>
      obtain ⟨-, -, rfl⟩ := World.step_firstPass h
      exact Nat.le_refl _
  | secondPass =>
      obtain ⟨-, -, calls, -, rfl⟩ := World.step_secondPass h
      exact Nat.le_refl _
  | frame env fd m =>
      obtain ⟨c, s, -, -, rfl⟩ := World.step_frame h
      exact Nat.le_refl _

/-- A connection that is open after an event was open before on the same
descriptor, or is the one just accepted. -/
theorem fds_before {w w' : World} {e : Event} (hstep : w.step e = some w')
    {d : Int} {c : Conn} (hd : w'.fds d = some c) :
    w.fds d = some c ∨ (e = .accept d ∧ 0 ≤ d ∧ c = w.accepted ∧
      w'.accepted = w.accepted + 1) := by
  cases fdStep hstep d with
  | kept h => exact .inl (h ▸ hd)
  | closed h =>
      rw [h] at hd
      cases hd
  | opened he hpos _ hnew hacc =>
      rw [hnew] at hd
      exact .inr ⟨he, hpos, (Option.some.inj hd).symm, hacc⟩

theorem serverSocket_eq {w w' : World} {e : Event}
    (h : w.step e = some w') : w'.serverSocket = w.serverSocket := by
  cases e with
  | accept fd =>
      obtain ⟨-, -, -, -, rfl⟩ := World.step_accept h
      rfl
  | hangup fd =>
      obtain ⟨c, -, rfl⟩ := World.step_hangup h
      rfl
  | firstPass env =>
      obtain ⟨-, -, rfl⟩ := World.step_firstPass h
      rfl
  | secondPass =>
      obtain ⟨-, -, calls, -, rfl⟩ := World.step_secondPass h
      rfl
  | frame env fd m =>
      obtain ⟨c, s, -, -, rfl⟩ := World.step_frame h
      rfl

end Sysops.Cw11
