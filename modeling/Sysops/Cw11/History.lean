import Sysops.Cw11.World

/-!
# The history beside a run of the `cw11` server

`History` remembers, for each valid entry, the `CLIENT_NEW` that made it
and how the heartbeat stands with it. `Consistent` is what holds of a
state and its history in every run, whatever the frames are.
-/

namespace Sysops.Cw11

/-- What is remembered of a `CLIENT_NEW` that made an entry. -/
structure Registration where
  /-- The connection on which it was received. -/
  conn : Conn
  name : Bytes maxClientName
  /-- The first pass of the current cycle sent a `SERVER_CHECK_ALIVE` to
  its entry. -/
  asked : Bool
  /-- A `CLIENT_ALIVE` from its connection was handled since then. -/
  answered : Bool
  deriving DecidableEq

abbrev History := Fin maxClients → Option Registration

/-- The frame an event delivers, with the connection it comes from. -/
def Event.arrival (w : World) : Event → Option (Conn × MessageT)
  | .frame _ fd m => (w.fds fd).map fun c => (c, m)
  | _ => none

/-- The call sends a `SERVER_CHECK_ALIVE` to the socket. -/
def Call.asks (socket : Int) : Call → Bool
  | .send fd m => fd == socket && m.type == MessageType.serverCheckAlive.code
  | .close _ => false

/-- What an event from `w` to `w'` tells about the registration behind the
slot with the given socket. -/
def Registration.observe (r : Registration) (w : World) (socket : Int)
    (e : Event) (w' : World) : Registration :=
  match e with
  | .firstPass _ =>
      { r with asked := w'.server.calls.any (Call.asks socket),
               answered := false }
  | .secondPass => { r with asked := false, answered := false }
  | .frame _ _ _ =>
      match e.arrival w with
      | some (c, m) =>
          if c = r.conn ∧ m.type = MessageType.clientAlive.code then
            { r with answered := true }
          else r
      | none => r
  | .accept _ => r
  | .hangup _ => r

/-- An entry that appears was registered by the frame that arrived. -/
def record (h : History) (w : World) (e : Event) (w' : World) : History :=
  fun i =>
    if (w'.server.slots i).valid then
      match h i with
      | some r => some (r.observe w (w.server.slots i).socket e w')
      | none => (e.arrival w).map fun (c, m) => ⟨c, m.sender, false, false⟩
    else none

/-- The server with the history of its runs. -/
def chatHistory : System (World × History) Event :=
  chat.withHistory (fun _ => none) record

/-- One step of the server with its history. -/
def nextHistory (p : World × History) (e : Event) :
    Option (World × History) :=
  (p.1.step e).map fun w' => (w', record p.2 p.1 e w')

theorem nextHistory_step (p : World × History) (e : Event)
    (q : World × History) (h : nextHistory p e = some q) :
    chatHistory.step p e q := by
  obtain ⟨w', hw', rfl⟩ := Option.map_eq_some_iff.mp h
  exact ⟨hw', rfl⟩

section Observe

variable (r : Registration) (w w' : World) (socket : Int) (e : Event)

@[simp] theorem observe_conn : (r.observe w socket e w').conn = r.conn := by
  cases e with
  | frame env fd m =>
      simp only [Registration.observe]
      split
      · split <;> rfl
      · rfl
  | _ => rfl

@[simp] theorem observe_name : (r.observe w socket e w').name = r.name := by
  cases e with
  | frame env fd m =>
      simp only [Registration.observe]
      split
      · split <;> rfl
      · rfl
  | _ => rfl

theorem observe_frame_other {env : Env} {fd : Int} {m : MessageT}
    (hm : m.type ≠ MessageType.clientAlive.code) :
    r.observe w socket (.frame env fd m) w' = r := by
  simp only [Registration.observe, Event.arrival]
  cases w.fds fd with
  | none => rfl
  | some c => simp [hm]

theorem observe_alive {env : Env} {fd : Int} {m : MessageT} {c : Conn}
    (hm : m.type = MessageType.clientAlive.code) (hfd : w.fds fd = some c) :
    r.observe w socket (.frame env fd m) w' =
      if c = r.conn then { r with answered := true } else r := by
  simp only [Registration.observe, Event.arrival, hfd, Option.map_some]
  simp [hm]

end Observe

theorem record_kept {h : History} {w w' : World} {e : Event}
    {i : Fin maxClients} {r : Registration} (hr : h i = some r)
    (hv : (w'.server.slots i).valid = true) :
    record h w e w' i =
      some (r.observe w (w.server.slots i).socket e w') := by
  simp [record, hv, hr]

/-! ## What one event does to a slot -/

/-- What an event can do to a slot, the heartbeat flag apart. -/
inductive SlotStep (w : World) (e : Event) (w' : World)
    (i : Fin maxClients) : Prop where
  | kept : (w'.server.slots i).valid = (w.server.slots i).valid →
      (w'.server.slots i).name = (w.server.slots i).name →
      (w'.server.slots i).socket = (w.server.slots i).socket →
      SlotStep w e w' i
  | dropped : (w.server.slots i).valid = true →
      (w'.server.slots i).valid = false → SlotStep w e w' i
  | taken {env fd m c} : e = .frame env fd m →
      m.type = MessageType.clientNew.code → w.fds fd = some c →
      (w.server.slots i).valid = false →
      w'.server.slots i =
        { w.server.slots i with valid := true, socket := fd,
                                name := m.sender } →
      SlotStep w e w' i

theorem SlotStep.of_eq {w w' : World} {e : Event} {i : Fin maxClients}
    (h : w'.server.slots i = w.server.slots i) : SlotStep w e w' i :=
  .kept (by rw [h]) (by rw [h]) (by rw [h])

theorem slotStep {w w' : World} {e : Event} (h : w.step e = some w')
    (i : Fin maxClients) : SlotStep w e w' i := by
  cases e with
  | accept fd =>
      obtain ⟨-, -, -, -, rfl⟩ := World.step_accept h
      exact .of_eq rfl
  | hangup fd =>
      obtain ⟨c, -, rfl⟩ := World.step_hangup h
      exact .of_eq rfl
  | firstPass env =>
      obtain ⟨-, -, rfl⟩ := World.step_firstPass h
      by_cases hi : (w.server.slots i).valid = true
      · exact .kept (by simp [hi]) (by simp [hi]) (by simp [hi])
      · exact .of_eq (by simp [hi])
  | secondPass =>
      obtain ⟨-, -, calls, -, rfl⟩ := World.step_secondPass h
      by_cases hi : (w.server.slots i).valid = true ∧
          (w.server.slots i).awaitingAliveResponse = true
      · exact .dropped hi.1 (by simp [hi])
      · exact .of_eq (by simp [hi])
  | frame env fd m =>
      obtain ⟨c, s, hc, hs, rfl⟩ := World.step_frame h
      cases hs with
      | refused | tableFull | spoke => exact .of_eq rfl
      | @registered j hm _ hfree =>
          by_cases hij : i = j
          · subst hij
            exact .taken rfl hm hc (freeSlot_eq_some hfree) (by simp)
          · exact .of_eq (by simp [hij])
      | @stopped j hm hj =>
          by_cases hij : i = j
          · subst hij
            exact .dropped (taken_eq_some hj).1 (by simp)
          · exact .of_eq (by simp [hij])
      | @alive j hm hj =>
          by_cases hij : i = j
          · subst hij
            exact .kept (by simp) (by simp) (by simp)
          · exact .of_eq (by simp [hij])

/-! ## The history agrees with the state -/

structure Consistent (p : World × History) : Prop where
  recorded : ∀ i, (p.2 i).isSome = (p.1.server.slots i).valid
  name : ∀ i r, p.2 i = some r → r.name = (p.1.server.slots i).name
  older : ∀ i r, p.2 i = some r → r.conn < p.1.accepted
  /-- While the connection of an entry is open, its descriptor is the
  entry's socket. -/
  home : ∀ i r, p.2 i = some r → ∀ fd, p.1.fds fd = some r.conn →
    fd = (p.1.server.slots i).socket
  opened : ∀ fd c, p.1.fds fd = some c → 0 ≤ fd ∧ c < p.1.accepted
  injective : ∀ fd fd' c, p.1.fds fd = some c → p.1.fds fd' = some c →
    fd = fd'

section Recorded

variable {h : History} {w : World} {i : Fin maxClients}

theorem Consistent.some_of_valid (hc : Consistent (w, h))
    (hv : (w.server.slots i).valid = true) : ∃ r, h i = some r :=
  Option.isSome_iff_exists.mp ((hc.recorded i).trans hv)

theorem Consistent.none_of_free (hc : Consistent (w, h))
    (hv : (w.server.slots i).valid = false) : h i = none := by
  have hnone : (h i).isSome = false := (hc.recorded i).trans hv
  simpa using hnone

end Recorded

/-- Where a remembered registration comes from. -/
theorem record_eq_some {h : History} {w w' : World} {e : Event}
    (hc : Consistent (w, h)) (hstep : w.step e = some w')
    {i : Fin maxClients} {r' : Registration}
    (hr : record h w e w' i = some r') :
    (∃ r, h i = some r ∧
      r' = r.observe w (w.server.slots i).socket e w' ∧
      (w'.server.slots i).name = (w.server.slots i).name ∧
      (w'.server.slots i).socket = (w.server.slots i).socket) ∨
    (∃ env fd m c, e = .frame env fd m ∧
      m.type = MessageType.clientNew.code ∧ w.fds fd = some c ∧
      r' = ⟨c, m.sender, false, false⟩ ∧ (w.server.slots i).valid = false ∧
      w'.server.slots i =
        { w.server.slots i with valid := true, socket := fd,
                                name := m.sender }) := by
  have hvalid : (w'.server.slots i).valid = true := by
    by_contra hv
    simp [record, hv] at hr
  simp only [record, hvalid, if_true] at hr
  cases slotStep hstep i with
  | kept hv hn hs =>
      obtain ⟨r, hri⟩ := hc.some_of_valid (hv.symm.trans hvalid)
      rw [hri] at hr
      exact .inl ⟨r, hri, (Option.some.inj hr).symm, hn, hs⟩
  | dropped _ hv => exact absurd hvalid (by simp [hv])
  | @taken env fd m c he hm hfd hv hslot =>
      subst he
      rw [hc.none_of_free hv] at hr
      simp only [Event.arrival, hfd, Option.map_some, Option.some.injEq] at hr
      exact .inr ⟨env, fd, m, c, rfl, hm, hfd, hr.symm, hv, hslot⟩

theorem consistent_initial (serverSocket epollFd : Int) :
    Consistent (World.initial serverSocket epollFd, fun _ => none) := by
  constructor
  · intro i
    rfl
  all_goals
    intros
    contradiction

theorem consistent_step {h : History} {w w' : World} {e : Event}
    (hc : Consistent (w, h)) (hstep : w.step e = some w') :
    Consistent (w', record h w e w') := by
  have hacc := accepted_le hstep
  constructor
  case recorded =>
    intro i
    cases slotStep hstep i with
    | kept hv hn hs =>
        cases hvalid : (w.server.slots i).valid with
        | false =>
            rw [hvalid] at hv
            simp [record, hv]
        | true =>
            obtain ⟨r, hr⟩ := hc.some_of_valid hvalid
            rw [hvalid] at hv
            simp [record, hv, hr]
    | dropped _ hv => simp [record, hv]
    | taken he hm hfd hv hslot =>
        subst he
        simp [record, hslot, hc.none_of_free hv, Event.arrival, hfd]
  case name =>
    intro i r' hr
    rcases record_eq_some hc hstep hr with
      ⟨r, hri, rfl, hn, -⟩ | ⟨env, fd, m, c, -, -, -, rfl, -, hslot⟩
    · rw [observe_name, hn]
      exact hc.name i r hri
    · rw [hslot]
  case older =>
    intro i r' hr
    rcases record_eq_some hc hstep hr with
      ⟨r, hri, rfl, -, -⟩ | ⟨env, fd, m, c, -, -, hfd, rfl, -, -⟩
    · rw [observe_conn]
      exact Nat.lt_of_lt_of_le (hc.older i r hri) hacc
    · exact Nat.lt_of_lt_of_le (hc.opened fd c hfd).2 hacc
  case home =>
    intro i r' hr d hd
    rcases record_eq_some hc hstep hr with
      ⟨r, hri, rfl, -, hs⟩ | ⟨env, fd, m, c, he, -, hfd, rfl, -, hslot⟩
    · rw [observe_conn] at hd
      rw [hs]
      rcases fds_before hstep hd with hd | ⟨-, -, hnew, -⟩
      · exact hc.home i r hri d hd
      · have hlt : r.conn < w.accepted := hc.older i r hri
        exact absurd hnew (Nat.ne_of_lt hlt)
    · rcases fds_before hstep hd with hd | ⟨he', -⟩
      · rw [hslot]
        exact hc.injective d fd c hd hfd
      · rw [he] at he'
        cases he'
  case opened =>
    intro d c hd
    rcases fds_before hstep hd with hd | ⟨-, hpos, rfl, hnew⟩
    · obtain ⟨hpos, hlt⟩ := hc.opened d c hd
      exact ⟨hpos, Nat.lt_of_lt_of_le hlt hacc⟩
    · refine ⟨hpos, ?_⟩
      show w.accepted < w'.accepted
      omega
  case injective =>
    intro d d' c hd hd'
    rcases fds_before hstep hd with hd | ⟨he, -, hnew, -⟩ <;>
      rcases fds_before hstep hd' with hd' | ⟨he', -, hnew', -⟩
    · exact hc.injective d d' c hd hd'
    · have hlt : c < w.accepted := (hc.opened d c hd).2
      exact absurd hnew' (Nat.ne_of_lt hlt)
    · have hlt : c < w.accepted := (hc.opened d' c hd').2
      exact absurd hnew (Nat.ne_of_lt hlt)
    · rw [he] at he'
      exact Event.accept.inj he'

/-- The history beside the server neither stops a run nor adds one. -/
theorem reachable_iff_history {w : World} :
    chat.Reachable w ↔ ∃ h, chatHistory.Reachable (w, h) := by
  constructor
  · exact System.ReachableIf.recorded
  · rintro ⟨h, hw⟩
    exact System.ReachableIf.forget (S := chat) (C := fun _ _ => True) hw

/-- **The history agrees with the state in every run.** -/
theorem consistent_of_reachable {p : World × History}
    (h : chatHistory.Reachable p) : Consistent p := by
  refine h.invariant (I := Consistent) ?_ ?_
  · rintro ⟨w, h⟩ ⟨⟨serverSocket, epollFd, hw⟩, hh⟩
    obtain rfl : w = World.initial serverSocket epollFd := hw
    obtain rfl : h = fun _ => none := hh
    exact consistent_initial serverSocket epollFd
  · rintro ⟨w, h⟩ e ⟨w', h'⟩ hc - ⟨hstep, hrec⟩
    obtain rfl : h' = record h w e w' := hrec
    exact consistent_step hc hstep

end Sysops.Cw11
