import Sysops.Cw07.Broadcast

/-!
# Who may still read a client queue

The main process of a client reads its queue once, for the number of its
slot; then the listener does. A client whose processes will not read again
is found from its state alone, and that is exact: otherwise a few steps of
the client, without anyone else, read a message.
-/

namespace Sysops.Cw07

/-- A process of the client may still read its queue. -/
def Client.mayRead (x : Client) : Bool :=
  match x.place with
  | .openQueue | .sendInit | .receiveId => true
  | .installHandlers | .fork => x.isRunning
  | _ =>
      match x.listener with
      | .receive => true
      | .test => x.listenerRunning
      | .notForked | .ended => false

/-- The step ends the last process that may read. -/
def Client.endsReader (x : Client) : Action → Bool
  | .main _ _ => x.place = .killListener && x.mayRead
  | .listener => false
  | .forkFails => x.place = .fork && x.mayRead
  | .signal => !x.place.hasForked && x.mayRead
  | .signalListener => x.listener = .test && x.mayRead

/-! ## One step of a client -/

section Client

variable {clientQName : Bytes maxMsgBufSize} {x y : Client} {action : Action}
  {effect : Effect}

theorem receive_length {r : MsgT × Client} (h : x.receive = some r) :
    r.2.queue.length + 1 = x.queue.length ∧
      r.2.received.length = x.received.length + 1 := by
  obtain ⟨l, hl, rfl⟩ := Option.map_eq_some_iff.mp h
  have hperm := (MessageQueue.receive_perm hl).length_eq
  simp only [List.length_cons] at hperm
  exact ⟨hperm.symm, by simp⟩

/-- What a step does to the queue and to the readers. -/
inductive Reads (x : Client) (action : Action) (y : Client) : Prop where
  | none : y.queue = x.queue → y.received = x.received →
      y.mayRead = (x.mayRead && !x.endsReader action) → Reads x action y
  | one : y.queue.length + 1 = x.queue.length → x.mayRead = true →
      x.endsReader action = false → Reads x action y

theorem main_reads {memory : Bytes maxMsgBufSize} {stdin : List Byte}
    (h : x.main clientQName memory stdin = some (effect, y)) :
    Reads x (.main memory stdin) y := by
  simp only [Client.main] at h
  cases hp : x.place <;>
    simp only [hp, Option.some.injEq, Prod.mk.injEq, reduceCtorEq] at h
  case receiveId =>
    obtain ⟨r, hr, heq⟩ := Option.map_eq_some_iff.mp h
    obtain ⟨rfl, rfl⟩ := Prod.mk.inj heq
    exact .one (receive_length hr).1 (by simp [Client.mayRead, hp])
      (by simp [Client.endsReader, hp])
  case readLine =>
    obtain ⟨rfl, rfl⟩ := h
    refine .none rfl rfl ?_
    simp only [Client.endsReader, Client.mayRead, hp]
    cases (handleTextInput memory stdin).2 <;> simp
  case test =>
    obtain ⟨rfl, rfl⟩ := h
    refine .none rfl rfl ?_
    simp only [Client.endsReader, Client.mayRead, hp]
    cases x.isRunning <;> simp
  all_goals
    obtain ⟨rfl, rfl⟩ := h
    exact .none rfl rfl (by simp [Client.endsReader, Client.mayRead, hp])

/-- A listener runs only behind the fork. -/
theorem mayRead_of_forked (hp : x.place.hasForked = true) :
    x.mayRead = match x.listener with
      | .receive => true
      | .test => x.listenerRunning
      | .notForked | .ended => false := by
  cases hplace : x.place <;> rw [hplace] at hp
  case openQueue | sendInit | receiveId | installHandlers | fork | died =>
    cases hp
  all_goals simp only [Client.mayRead, hplace]

theorem listen_reads
    (hforked : x.place.hasForked = true ↔ x.listener ≠ .notForked)
    (h : x.listen = some y) : Reads x .listener y := by
  unfold Client.listen at h
  split at h
  · rename_i hl
    have hp := hforked.mpr (by simp [hl])
    obtain rfl := Option.some.inj h
    refine .none rfl rfl ?_
    rw [mayRead_of_forked hp, mayRead_of_forked (x := { x with
      listener := if x.listenerRunning then .receive else .ended }) hp, hl]
    cases x.listenerRunning <;> rfl
  · rename_i hl
    have hp := hforked.mpr (by simp [hl])
    obtain ⟨r, hr, rfl⟩ := Option.map_eq_some_iff.mp h
    exact .one (receive_length hr).1 (by rw [mayRead_of_forked hp, hl]) rfl
  · cases h
  · cases h

theorem signal_reads
    (hforked : x.place.hasForked = true ↔ x.listener ≠ .notForked)
    (h : x.signal = some y) : Reads x .signal y := by
  have hdead : x.place.hasForked = false →
      ({ x with place := .died } : Client).mayRead = false := by
    intro hp
    have hl : x.listener = .notForked := by
      by_contra hne
      rw [hforked.mpr hne] at hp
      cases hp
    simp only [Client.mayRead, hl]
  simp only [Client.signal] at h
  cases hp : x.place <;> simp only [hp, Option.some.injEq, reduceCtorEq] at h
  case sendInit | receiveId | installHandlers =>
    subst h
    refine .none rfl rfl ?_
    rw [hdead (by rw [hp]; rfl)]
    simp [Client.endsReader, hp, Place.hasForked]
  all_goals
    subst h
    exact .none rfl rfl
      (by simp [Client.endsReader, Client.mayRead, hp, Place.hasForked])

theorem signalListener_reads
    (hforked : x.place.hasForked = true ↔ x.listener ≠ .notForked)
    (h : x.signalListener = some y) : Reads x .signalListener y := by
  unfold Client.signalListener at h
  split at h
  · rename_i hl
    have hp := hforked.mpr (by simp [hl])
    obtain rfl := Option.some.inj h
    refine .none rfl rfl ?_
    rw [mayRead_of_forked hp,
      mayRead_of_forked (x := { x with listenerRunning := false }) hp,
      Client.endsReader, hl, mayRead_of_forked hp, hl]
    simp
  · rename_i hl
    have hp := hforked.mpr (by simp [hl])
    obtain rfl := Option.some.inj h
    refine .none rfl rfl ?_
    rw [mayRead_of_forked hp,
      mayRead_of_forked (x := { x with listenerRunning := false }) hp,
      Client.endsReader, hl]
    simp
  · cases h
  · cases h

/-- **What one step of a client does to its readers.** -/
theorem act_reads
    (hforked : x.place.hasForked = true ↔ x.listener ≠ .notForked)
    (h : x.act clientQName action = some (effect, y)) : Reads x action y := by
  cases action with
  | main memory stdin => exact main_reads h
  | listener =>
      obtain ⟨z, hz, heq⟩ := Option.map_eq_some_iff.mp h
      obtain ⟨-, rfl⟩ := Prod.mk.inj heq
      exact listen_reads hforked hz
  | forkFails =>
      simp only [Client.act] at h
      split at h
      · rename_i hp
        have hl : x.listener = .notForked := by
          by_contra hne
          have hno := hforked.mpr hne
          rw [hp] at hno
          cases hno
        obtain ⟨-, rfl⟩ := Prod.mk.inj (Option.some.inj h)
        exact .none rfl rfl (by simp [Client.endsReader, Client.mayRead, hp, hl])
      · cases h
  | signal =>
      obtain ⟨z, hz, heq⟩ := Option.map_eq_some_iff.mp h
      obtain ⟨-, rfl⟩ := Prod.mk.inj heq
      exact signal_reads hforked hz
  | signalListener =>
      obtain ⟨z, hz, heq⟩ := Option.map_eq_some_iff.mp h
      obtain ⟨-, rfl⟩ := Prod.mk.inj heq
      exact signalListener_reads hforked hz

end Client

/-! ## A client that goes on alone -/

section Alone

variable {C : Type} [DecidableEq C] {clientQName : C → Bytes maxMsgBufSize}
  {w w' : World C} {c : C}

/-- Only the client `c` has made steps, and one message has been read. -/
structure ReadsOne (clientQName : C → Bytes maxMsgBufSize) (w : World C)
    (c : C) (w' : World C) : Prop where
  reach : ((chat clientQName).startingAt w).Reachable w'
  service : w'.service = w.service
  others : ∀ d, d ≠ c → w'.clients d = w.clients d
  queue : (w'.clients c).queue.length + 1 = (w.clients c).queue.length
  received : (w'.clients c).received.length =
    (w.clients c).received.length + 1

/-- The world with one client changed. -/
def World.withClient (w : World C) (c : C) (x : Client) : World C :=
  { w with clients := Function.update w.clients c x }

@[simp] theorem withClient_self (w : World C) (c : C) (x : Client) :
    (w.withClient c x).clients c = x := Function.update_self ..

theorem withClient_other (w : World C) {c d : C} (x : Client) (hd : d ≠ c) :
    (w.withClient c x).clients d = w.clients d := Function.update_of_ne hd ..

theorem step_of_act {action : Action} {x : Client}
    (h : (w.clients c).act (clientQName c) action = some (.none, x)) :
    w.step clientQName (.client c action) = some (w.withClient c x) := by
  simp only [World.step, World.act, h]
  rfl

/-- A step that reads. -/
theorem ReadsOne.of_receive {action : Action} {r : MsgT × Client} {x : Client}
    (hact : (w.clients c).act (clientQName c) action = some (.none, x))
    (hr : (w.clients c).receive = some r) (hqueue : x.queue = r.2.queue)
    (hreceived : x.received = r.2.received) :
    ReadsOne clientQName w c (w.withClient c x) where
  reach := (System.Reachable.refl (chat clientQName) w).step
    (step_of_act hact)
  service := rfl
  others d hd := withClient_other w x hd
  queue := by
    rw [withClient_self, hqueue]
    exact (receive_length hr).1
  received := by
    rw [withClient_self, hreceived]
    exact (receive_length hr).2

/-- A step before. -/
theorem ReadsOne.after {action : Action} {x : Client}
    (hact : (w.clients c).act (clientQName c) action = some (.none, x))
    (hqueue : x.queue = (w.clients c).queue)
    (hreceived : x.received = (w.clients c).received)
    (h : ReadsOne clientQName (w.withClient c x) c w') :
    ReadsOne clientQName w c w' where
  reach := ((System.Reachable.refl (chat clientQName) w).step
    (step_of_act hact)).trans h.reach
  service := h.service
  others d hd := (h.others d hd).trans (withClient_other w x hd)
  queue := by rw [h.queue, withClient_self, hqueue]
  received := by rw [h.received, withClient_self, hreceived]

theorem receive_isSome {x : Client} (hqueue : x.queue ≠ []) :
    ∃ r, x.receive = some r := by
  obtain ⟨l, queue, h⟩ := MessageQueue.receive_isSome hqueue
  exact ⟨_, Option.map_eq_some_iff.mpr ⟨_, h, rfl⟩⟩

/-- A listener that waits. -/
theorem readsOne_of_receiving (hl : (w.clients c).listener = .receive)
    (hqueue : (w.clients c).queue ≠ []) :
    ∃ w', ReadsOne clientQName w c w' := by
  obtain ⟨r, hr⟩ := receive_isSome hqueue
  have hact : (w.clients c).act (clientQName c) .listener =
      some (.none, { r.2 with listener := .test }) := by
    simp [Client.act, Client.listen, hl, hr]
  exact ⟨_, .of_receive hact hr rfl rfl⟩

/-- A listener that is about to wait. -/
theorem readsOne_of_testing (hl : (w.clients c).listener = .test)
    (hrunning : (w.clients c).listenerRunning = true)
    (hqueue : (w.clients c).queue ≠ []) :
    ∃ w', ReadsOne clientQName w c w' := by
  have hact : (w.clients c).act (clientQName c) .listener =
      some (.none, { w.clients c with listener := .receive }) := by
    simp [Client.act, Client.listen, hl, hrunning]
  obtain ⟨w', h⟩ : ∃ w', ReadsOne clientQName
      (w.withClient c { w.clients c with listener := .receive }) c w' :=
    readsOne_of_receiving (by rw [withClient_self]) (by rwa [withClient_self])
  exact ⟨w', h.after hact rfl rfl⟩

/-- A main process that is about to fork. -/
theorem readsOne_of_fork (hp : (w.clients c).place = .fork)
    (hrunning : (w.clients c).isRunning = true)
    (hqueue : (w.clients c).queue ≠ []) :
    ∃ w', ReadsOne clientQName w c w' := by
  have hact : (w.clients c).act (clientQName c)
      (.main (Bytes.ofList _ []) []) = some (.none, { w.clients c with
        listener := .test
        listenerRunning := (w.clients c).isRunning
        place := .test }) := by
    simp [Client.act, Client.main, hp]
  obtain ⟨w', h⟩ : ∃ w', ReadsOne clientQName (w.withClient c
      { w.clients c with
        listener := .test
        listenerRunning := (w.clients c).isRunning
        place := .test }) c w' :=
    readsOne_of_testing (by rw [withClient_self]) (by rwa [withClient_self])
      (by rwa [withClient_self])
  exact ⟨w', h.after hact rfl rfl⟩

/-- **Who may read does, if it goes on.** -/
theorem Inv.readsOne (h : Inv clientQName w)
    (hmay : (w.clients c).mayRead = true)
    (hqueue : (w.clients c).queue ≠ []) :
    ∃ w', ReadsOne clientQName w c w' := by
  have hf := h.follows c
  have hplace : (w.clients c).place.inits ≠ 0 := by
    -- a client that has been sent something has joined
    intro hzero
    have hputs : (w.clients c).puts ≠ [] := by
      rw [← hf.fifo]
      simp [hqueue]
    have hc : c ∈ owners w.service.handled := by
      by_contra hc
      have hprefix := h.puts_prefix c
      rw [expected_eq_nil hc, List.prefix_nil] at hprefix
      exact hputs hprefix
    have hle := one_le_countSent_of_mem hc (lettersOf c w.serverQueue)
    have hinits := hf.inits
    omega
  cases hp : (w.clients c).place <;> rw [hp] at hplace
  case openQueue | sendInit => exact absurd rfl hplace
  case receiveId =>
    obtain ⟨r, hr⟩ := receive_isSome hqueue
    have hact : (w.clients c).act (clientQName c)
        (.main (Bytes.ofList _ []) []) = some (.none,
          { r.2 with id := r.1.id, place := .installHandlers }) := by
      simp [Client.act, Client.main, hp, hr]
    exact ⟨_, .of_receive hact hr rfl rfl⟩
  case installHandlers =>
    have hrunning : (w.clients c).isRunning = true := by
      simpa [Client.mayRead, hp] using hmay
    have hact : (w.clients c).act (clientQName c)
        (.main (Bytes.ofList _ []) []) =
          some (.none, { w.clients c with place := .fork }) := by
      simp [Client.act, Client.main, hp]
    obtain ⟨w', h⟩ : ∃ w', ReadsOne clientQName
        (w.withClient c { w.clients c with place := .fork }) c w' :=
      readsOne_of_fork (by rw [withClient_self]) (by rwa [withClient_self])
        (by rwa [withClient_self])
    exact ⟨w', h.after hact rfl rfl⟩
  case fork =>
    exact readsOne_of_fork hp (by simpa [Client.mayRead, hp] using hmay) hqueue
  all_goals
    cases hl : (w.clients c).listener <;>
      simp only [Client.mayRead, hp, hl, Bool.false_eq_true] at hmay
    · exact readsOne_of_testing hl hmay hqueue
    · exact readsOne_of_receiving hl hqueue

end Alone

end Sysops.Cw07
