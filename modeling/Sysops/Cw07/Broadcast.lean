import Sysops.Cw07.Follows

/-!
# Total order broadcast

The invariant of the whole chat: the server serves, every client follows
its program, and the names in use are those of the queues that are not
unlinked. From it, what is put into a client queue in any run.
-/

namespace Sysops.Cw07

/-! ## The letters of one client -/

section Letters

variable {C : Type} [DecidableEq C]

/-- The letters of a client in the queue of the server. -/
def lettersOf (c : C) (q : MessageQueue (Letter C)) : MessageQueue MsgT :=
  (q.filter fun y => y.2.author = c).map fun y => (y.1, y.2.message)

theorem lettersOf_append (c d : C) (q : MessageQueue (Letter C))
    (letters : MessageQueue MsgT) :
    lettersOf c (q ++ letters.map fun y => (y.1, ⟨d, y.2⟩)) =
      lettersOf c q ++ if d = c then letters else [] := by
  rw [lettersOf, List.filter_append, List.map_append, lettersOf]
  congr 1
  by_cases hdc : d = c
  · simp [hdc, List.filter_map, Function.comp_def]
  · simp [hdc, List.filter_map, Function.comp_def]

variable {q r : MessageQueue (Letter C)} {p : Nat} {l : Letter C}

/-- The server takes a letter of another client. -/
theorem lettersOf_receive_other
    (h : MessageQueue.receive q = some ((p, l), r)) {c : C}
    (hc : l.author ≠ c) : lettersOf c r = lettersOf c q := by
  obtain ⟨before, after, rfl, rfl, -, -⟩ := MessageQueue.receive_eq_some h
  simp [lettersOf, hc]

/-- The server takes a letter of this client. -/
theorem lettersOf_receive_own
    (h : MessageQueue.receive q = some ((p, l), r)) :
    (lettersOf l.author q).Perm
      ((p, l.message) :: lettersOf l.author r) := by
  have hperm := ((MessageQueue.receive_perm h).filter
    fun y => decide (y.2.author = l.author)).map
      fun y : Nat × Letter C => (y.1, y.2.message)
  simpa [lettersOf] using hperm

/-- The texts of a client are taken in their order: they all have one
priority. -/
theorem textsIn_receive (h : MessageQueue.receive q = some ((p, l), r))
    (hone : ∀ y ∈ lettersOf l.author q, y.2.is .text = true → y.1 = 1) :
    textsIn (lettersOf l.author q) =
      textsIn [(p, l.message)] ++ textsIn (lettersOf l.author r) := by
  have hfifo := MessageQueue.receive_filter
    (p := fun y => decide (y.2.author = l.author) && y.2.message.is .text)
    (k := 1) ?_ h
  · have hmap := congrArg
      (List.map fun y : Nat × Letter C => y.2.message) hfifo
    cases ht : l.message.is .text <;>
      simpa [textsIn, lettersOf, List.filter_map, List.filter_filter,
        Function.comp_def, Bool.and_comm, ht] using hmap
  · intro y hy hp
    rw [Bool.and_eq_true, decide_eq_true_eq] at hp
    refine hone (y.1, y.2.message) ?_ hp.2
    rw [lettersOf, List.mem_map]
    exact ⟨y, List.mem_filter.mpr ⟨hy, by simpa using hp.1⟩, rfl⟩

end Letters

/-! ## The invariant -/

section Invariant

variable {C : Type} [DecidableEq C] {clientQName : C → Bytes maxMsgBufSize}
  {w w' : World C}

structure Inv (clientQName : C → Bytes maxMsgBufSize) (w : World C) :
    Prop where
  serves : Serves w.service fun c => (w.clients c).puts
  follows : ∀ c, Follows w.service.handled c (clientQName c) (w.clients c)
    (lettersOf c w.serverQueue)
  named : ∀ c, (w.clients c).place.named = true →
    w.names (cstr maxMsgBufSize (clientQName c).toList) = some c

theorem Inv.initial : Inv clientQName (World.initial C) where
  serves := serves_initial
  follows _ := Follows.start
  named c hc := by cases hc

/-- What has been put into a queue is the beginning of what is to be. -/
theorem Inv.puts_prefix (h : Inv clientQName w) (c : C) :
    (w.clients c).puts <+: expected c w.service.handled :=
  ⟨_, h.serves.puts c⟩

/-- A step changes the name of its client only where it says so. -/
theorem named_act {x y : Client} {name : Bytes maxMsgBufSize}
    {action : Action} {effect : Effect}
    (h : x.act name action = some (effect, y)) :
    match effect with
    | .none | .sends _ _ => y.place.named = true → x.place.named = true
    | .opensQueue => y.place.named = true
    | .unlinksQueue => x.place.named = true ∧ y.place.named = false := by
  cases action with
  | main memory stdin =>
      simp only [Client.act, Client.main] at h
      cases hp : x.place <;>
        simp only [hp, Option.some.injEq, Prod.mk.injEq, reduceCtorEq] at h
      case receiveId =>
        obtain ⟨r, -, hr⟩ := Option.map_eq_some_iff.mp h
        obtain ⟨rfl, rfl⟩ := Prod.mk.inj hr
        exact fun _ => rfl
      all_goals
        obtain ⟨rfl, rfl⟩ := h
        simp [Place.named]
  | listener =>
      obtain ⟨z, hz, heq⟩ := Option.map_eq_some_iff.mp h
      obtain ⟨rfl, rfl⟩ := Prod.mk.inj heq
      intro hnamed
      unfold Client.listen at hz
      split at hz
      · obtain rfl := Option.some.inj hz
        exact hnamed
      · obtain ⟨r, hr, rfl⟩ := Option.map_eq_some_iff.mp hz
        obtain ⟨l, -, rfl⟩ := Option.map_eq_some_iff.mp hr
        exact hnamed
      · cases hz
      · cases hz
  | forkFails =>
      simp only [Client.act] at h
      split at h
      · rename_i hp
        obtain ⟨rfl, rfl⟩ := Prod.mk.inj (Option.some.inj h)
        rw [hp]
        exact fun _ => rfl
      · cases h
  | signal =>
      obtain ⟨z, hz, heq⟩ := Option.map_eq_some_iff.mp h
      obtain ⟨rfl, rfl⟩ := Prod.mk.inj heq
      simp only [Client.signal] at hz
      cases hp : x.place <;>
        simp only [hp, Option.some.injEq, reduceCtorEq] at hz
      all_goals exact fun _ => rfl
  | signalListener =>
      obtain ⟨z, hz, heq⟩ := Option.map_eq_some_iff.mp h
      obtain ⟨rfl, rfl⟩ := Prod.mk.inj heq
      unfold Client.signalListener at hz
      split at hz <;> cases hz
      · exact id
      · exact id

/-- Names go on to stand for the queues of their clients. -/
theorem Inv.named_of_act (h : Inv clientQName w) {c d : C} {action : Action}
    (hact : w.act clientQName c action = some w')
    (hd : (w'.clients d).place.named = true) :
    w'.names (cstr maxMsgBufSize (clientQName d).toList) = some d := by
  obtain ⟨effect, x, hx, hclients, -, -, hnames⟩ := act_eq_some hact
  have hname := named_act hx
  rw [hnames]
  by_cases hdc : d = c
  · subst hdc
    rw [hclients, Function.update_self] at hd
    cases effect with
    | none | sends _ _ => exact h.named d (hname hd)
    | opensQueue => exact Function.update_self ..
    | unlinksQueue =>
        rw [hname.2] at hd
        cases hd
  · rw [hclients, Function.update_of_ne hdc] at hd
    have hnamed := h.named d hd
    -- the two names differ, because `d` has its own
    cases effect with
    | none | sends _ _ => exact hnamed
    | opensQueue =>
        have hfree := name_free_of_opens hact hx
        simp only
        rw [Function.update_of_ne, hnamed]
        intro heq
        rw [heq, hfree] at hnamed
        cases hnamed
    | unlinksQueue =>
        simp only
        rw [Function.update_of_ne, hnamed]
        intro heq
        rw [heq, h.named c hname.1] at hnamed
        exact hdc (Option.some.inj hnamed).symm

/-- A step of a client. -/
theorem Inv.act (h : Inv clientQName w) {c : C} {action : Action}
    (hact : w.act clientQName c action = some w') : Inv clientQName w' := by
  obtain ⟨effect, x, hx, hclients, hservice, hqueue, -⟩ := act_eq_some hact
  obtain ⟨hfollows, hputs⟩ := (h.follows c).act (h.puts_prefix c) hx
  have hother : ∀ d, d ≠ c → w'.clients d = w.clients d := by
    intro d hd
    rw [hclients, Function.update_of_ne hd]
  have hself : w'.clients c = x := by
    rw [hclients, Function.update_self]
  refine ⟨?_, ?_, fun d hd => h.named_of_act hact hd⟩
  · have hsame : (fun d => (w'.clients d).puts) =
        fun d => (w.clients d).puts := by
      ext1 d
      by_cases hd : d = c
      · rw [hd, hself, hputs]
      · rw [hother d hd]
    rw [hservice, hsame]
    exact h.serves
  · intro d
    rw [hservice, hqueue, lettersOf_append]
    by_cases hd : d = c
    · subst hd
      rw [hself, if_pos rfl]
      exact hfollows
    · rw [hother d hd, if_neg (fun heq => hd heq.symm), List.append_nil]
      exact h.follows d

/-- An `INIT` in the queue of the server has the name of an open queue of
its author. -/
theorem Inv.target (h : Inv clientQName w) {p : Nat} {l : Letter C}
    (hl : (p, l.message) ∈ lettersOf l.author w.serverQueue)
    (hinit : l.message.type = MsgType.init.code) :
    w.names l.message.name = some l.author := by
  have hletter := (h.follows l.author).letter _ hl
  generalize hm : (p, l.message) = m at hletter
  cases hletter with
  | init hp =>
      obtain ⟨-, hmessage⟩ := Prod.mk.inj hm
      rw [MsgT.name, hmessage]
      refine h.named l.author ?_
      cases hplace : (w.clients l.author).place <;> rw [hplace] at hp <;>
        cases hp
      · rfl
      · rfl
  | text message htype =>
      obtain ⟨-, hmessage⟩ := Prod.mk.inj hm
      rw [← hmessage, hinit] at htype
      cases htype
  | clientExit k _ =>
      obtain ⟨-, hmessage⟩ := Prod.mk.inj hm
      rw [hmessage] at hinit
      cases hinit

theorem Inv.priority_text (h : Inv clientQName w) (c : C) :
    ∀ y ∈ lettersOf c w.serverQueue, y.2.is .text = true → y.1 = 1 := by
  intro y hy htext
  cases (h.follows c).letter y hy with
  | init _ => rfl
  | text _ _ => rfl
  | clientExit _ _ => cases htext

/-- The server takes a message. -/
theorem Inv.take (h : Inv clientQName w) (hidle : w.service.pending = [])
    {opened : Int} (htake : w.take opened = some w') : Inv clientQName w' := by
  obtain ⟨p, l, queue, service, hreceive, hfresh, hdispatch, rfl⟩ :=
    take_eq_some htake
  have hperm := lettersOf_receive_own hreceive
  have hmem : (p, l.message) ∈ lettersOf l.author w.serverQueue :=
    hperm.mem_iff.mpr (.head _)
  have hdue : (l.handled opened).Due w.service.handled :=
    (h.follows l.author).due hmem rfl rfl
  have hopen : (l.handled opened).joins = true →
      w.service.descr opened = none ∧
        w.names l.message.name = some l.author := by
    intro hjoins
    exact ⟨hfresh hjoins, h.target hmem (of_decide_eq_true hjoins : _ ∧ _).1⟩
  have hserves := h.serves.dispatch hidle hdue hopen hdispatch
  obtain ⟨_, _, -, rfl⟩ := dispatch_eq_some hdispatch
  refine ⟨hserves, ?_, h.named⟩
  intro c
  by_cases hc : l.author = c
  · subst hc
    exact (h.follows l.author).handledOwn hperm
      (textsIn_receive hreceive (h.priority_text l.author)) rfl rfl
  · change Follows _ c _ _ (lettersOf c queue)
    rw [lettersOf_receive_other hreceive hc]
    exact (h.follows c).handledOther hc

/-- What a step of the server can be. -/
inductive ServerStep (w : World C) (opened : Int) (w' : World C) : Prop where
  | take : w.service.pending = [] → w.take opened = some w' →
      ServerStep w opened w'
  | send (q : Int) (message : MsgT) (rest : List Call) (c : C) :
      w.service.pending = .send q message :: rest →
      w.service.descr q = some c →
      (w.clients c).queue.length < maxMessages →
      w' = { w with
        service := { w.service with pending := rest }
        clients := Function.update w.clients c
          { w.clients c with
            queue := (w.clients c).queue ++ [(1, message)]
            puts := (w.clients c).puts ++ [message] } } →
      ServerStep w opened w'
  | close (q : Int) (rest : List Call) :
      w.service.pending = .close q :: rest →
      w' = { w with
        service :=
          { w.service with
            pending := rest
            descr := Function.update w.service.descr q none } } →
      ServerStep w opened w'

/-- Every send of the server goes to a queue that is open. -/
theorem Inv.descr_of_send (h : Inv clientQName w) {q : Int} {message : MsgT}
    {rest : List Call}
    (hpending : w.service.pending = .send q message :: rest) :
    ∃ c, w.service.descr q = some c := by
  rcases h.serves.pendingOpen with hsends | ⟨_, _, hclose, -⟩
  · obtain ⟨q', m, c, hcall, hq⟩ :=
      hsends (.send q message) (hpending ▸ .head _)
    obtain ⟨rfl, -⟩ := Call.send.inj hcall
    exact ⟨c, hq⟩
  · rw [hclose] at hpending
    cases hpending

theorem Inv.serverStep (h : Inv clientQName w) {opened : Int}
    (hserve : w.serve opened = some w') : ServerStep w opened w' := by
  simp only [World.serve] at hserve
  split at hserve
  · rename_i hidle
    exact .take hidle hserve
  · rename_i call rest hpending
    cases call with
    | close q => exact .close q rest hpending (Option.some.inj hserve).symm
    | send q message =>
        obtain ⟨c, hq⟩ := h.descr_of_send hpending
        obtain ⟨hroom, hw'⟩ := perform_send hq hserve
        exact .send q message rest c hpending hq hroom hw'

/-- The server puts a message into a client queue. -/
theorem Inv.send (h : Inv clientQName w) {q : Int} {message : MsgT}
    {rest : List Call} {c : C}
    (hpending : w.service.pending = .send q message :: rest)
    (hq : w.service.descr q = some c) :
    Inv clientQName { w with
      service := { w.service with pending := rest }
      clients := Function.update w.clients c
        { w.clients c with
          queue := (w.clients c).queue ++ [(1, message)]
          puts := (w.clients c).puts ++ [message] } } := by
  refine ⟨?_, ?_, ?_⟩
  · have hputs : (fun d => (Function.update w.clients c
        { w.clients c with
          queue := (w.clients c).queue ++ [(1, message)]
          puts := (w.clients c).puts ++ [message] } d).puts) =
        Function.update (fun d => (w.clients d).puts) c
          ((w.clients c).puts ++ [message]) := by
      ext1 d
      by_cases hd : d = c
      · subst hd
        rw [Function.update_self, Function.update_self]
      · rw [Function.update_of_ne hd, Function.update_of_ne hd]
    simp only [hputs]
    exact h.serves.sent hpending hq
  · intro d
    by_cases hd : d = c
    · subst hd
      simp only [Function.update_self]
      exact (h.follows d).gets message
    · simp only [Function.update_of_ne hd]
      exact h.follows d
  · intro d hd
    refine h.named d ?_
    by_cases hdc : d = c
    · subst hdc
      simpa only [Function.update_self] using hd
    · simpa only [Function.update_of_ne hdc] using hd

/-- **Every step keeps the invariant.** -/
theorem Inv.step (h : Inv clientQName w) {e : Event C}
    (hstep : w.step clientQName e = some w') : Inv clientQName w' := by
  cases e with
  | client c action => exact h.act hstep
  | server opened =>
      cases h.serverStep hstep with
      | take hidle htake => exact h.take hidle htake
      | send q message rest c hpending hq _ hw' =>
          rw [hw']
          exact h.send hpending hq
      | close q rest hpending hw' =>
          rw [hw']
          exact ⟨h.serves.closed hpending, h.follows, h.named⟩

theorem Inv.of_reachable (h : (chat clientQName).Reachable w) :
    Inv clientQName w := by
  refine System.ReachableIf.invariant ?_ ?_ h
  · rintro _ rfl
    exact .initial
  · intro w e w' hw _ hstep
    exact hw.step hstep

end Invariant

/-! ## Total order broadcast -/

section TotalOrder

variable {C : Type}

/-- Every slot in use was made by an `INIT`. -/
theorem owners_length_le (h : List (Handled C)) :
    (owners h).length ≤ h.countP fun e => e.message.is .init := by
  rw [owners, List.length_map, ← List.countP_eq_length_filter]
  refine List.countP_mono_left ?_
  intro e _ hjoins
  have hinit := (of_decide_eq_true hjoins : _ ∧ _).1
  exact decide_eq_true hinit

variable [DecidableEq C] {clientQName : C → Bytes maxMsgBufSize}
  {w w' : World C}

/-- How many `INIT` have been sent, handled or not. -/
def World.inits (w : World C) : Nat :=
  w.serverQueue.countP (fun y => y.2.message.is .init) +
    w.service.handled.countP fun e => e.message.is .init

/-- What holds of the queues of all clients, whatever has happened. -/
structure TotalOrder (w : World C) : Prop where
  /-- What has been put into the queue of a client, and what the handler at
  work has still to put: the number of its slot, then the texts that were
  handled between its `INIT` and its `CLIENT_EXIT`. -/
  puts : ∀ c, (w.clients c).puts ++ w.service.pendingFor c =
    expected c w.service.handled
  idle : w.service.pending = [] → ∀ c,
    (w.clients c).puts = expected c w.service.handled
  /-- The number is that of the slot with the client's queue. -/
  slot : ∀ c ∈ owners w.service.handled,
    w.service.SlotOf ((owners w.service.handled).idxOf c) c
  /-- The client receives it in this order. -/
  received : ∀ c, (w.clients c).received ++
    (w.clients c).queue.map Prod.snd = (w.clients c).puts
  /-- The texts of every client are one piece of the same sequence. -/
  oneOrder : ∀ c, (w.clients c).puts.tail <:+: texts w.service.handled
  /-- Those of one author are in the order in which it sent them. -/
  authorOrder : ∀ a c, textsBy a (between c w.service.handled) <:+:
    (w.clients a).accepted
  /-- A text that was accepted has been handled or is still in the queue,
  also when its author has left. -/
  accepted : ∀ a, textsBy a w.service.handled ++
    textsIn (lettersOf a w.serverQueue) = (w.clients a).accepted
  /-- When it is taken it is for everyone in the table, whoever sent it. -/
  broadcast : ∀ p l queue opened w', w.service.pending = [] →
    MessageQueue.receive w.serverQueue = some ((p, l), queue) →
    l.message.is .text = true → w.take opened = some w' →
    ∀ c, w'.service.pendingFor c =
      if c ∈ owners w.service.handled ∧ left c w.service.handled = false then
        [l.message]
      else []
  /-- Between two messages the server can take the next one. -/
  goesOn : ∀ opened, w.service.pending = [] → w.serverQueue ≠ [] →
    w.service.descr opened = none → (w.take opened).isSome

theorem Inv.oneOrder (h : Inv clientQName w) (c : C) :
    (w.clients c).puts.tail <:+: texts w.service.handled := by
  by_cases hc : c ∈ owners w.service.handled
  · have hputs := h.puts_prefix c
    rw [expected, if_pos hc] at hputs
    cases hq : (w.clients c).puts with
    | nil => exact List.nil_infix
    | cons m l =>
        rw [hq, List.cons_prefix_cons] at hputs
        exact hputs.2.isInfix.trans (texts_between_isInfix c _)
  · have hputs := h.puts_prefix c
    rw [expected_eq_nil hc, List.prefix_nil] at hputs
    rw [hputs]
    exact List.nil_infix

theorem Inv.authorOrder (h : Inv clientQName w) (a c : C) :
    textsBy a (between c w.service.handled) <:+: (w.clients a).accepted := by
  have hwindow : textsBy a (between c w.service.handled) <:+:
      textsBy a w.service.handled :=
    (((Window.window_isInfix _ _ _).filter _).filter _).map _
  have hprefix : textsBy a w.service.handled <+: (w.clients a).accepted :=
    ⟨_, (h.follows a).accepted⟩
  exact hwindow.trans hprefix.isInfix

/-- A text is broadcast when it is taken. -/
theorem Inv.broadcast (h : Inv clientQName w) {p : Nat} {l : Letter C}
    {queue : MessageQueue (Letter C)} {opened : Int}
    (hreceive : MessageQueue.receive w.serverQueue = some ((p, l), queue))
    (htext : l.message.is .text = true) (htake : w.take opened = some w')
    (c : C) : w'.service.pendingFor c =
      if c ∈ owners w.service.handled ∧ left c w.service.handled = false then
        [l.message]
      else [] := by
  obtain ⟨p', l', queue', service, hreceive', -, hdispatch, rfl⟩ :=
    take_eq_some htake
  rw [hreceive, Option.some.injEq, Prod.mk.injEq, Prod.mk.injEq] at hreceive'
  obtain ⟨⟨rfl, rfl⟩, rfl⟩ := hreceive'
  obtain ⟨server, calls, hok, rfl⟩ := dispatch_eq_some hdispatch
  have htype : l.message.type = MsgType.text.code := of_decide_eq_true htext
  have hjoins : (l.handled opened).joins = false :=
    not_joins_of_isText (e := l.handled opened) htext
  rw [dispatchMessageType, Letter.handled,
    if_neg (by simp [htype, MsgType.code]), if_pos htype,
    handleTextMessage_eq h.serves.inRange, Except.ok.injEq,
    Prod.mk.injEq] at hok
  obtain ⟨rfl, rfl⟩ := hok
  rw [← h.serves.broadcast_for l.message c, Service.pendingFor, hjoins,
    if_neg Bool.false_ne_true]

/-- While there are not too many clients, nothing stops the server. -/
theorem Inv.goesOn (h : Inv clientQName w) (hinits : w.inits ≤ maxClients)
    (opened : Int) (hqueue : w.serverQueue ≠ [])
    (hfree : w.service.descr opened = none) : (w.take opened).isSome := by
  obtain ⟨⟨p, l⟩, queue, hreceive⟩ := MessageQueue.receive_isSome hqueue
  have hmem : (p, l.message) ∈ lettersOf l.author w.serverQueue :=
    (lettersOf_receive_own hreceive).mem_iff.mpr (.head _)
  have hroom : l.message.type = MsgType.init.code →
      w.service.server.currMaxClientNum < maxClients := by
    intro hinit
    have hcounted : 0 < w.serverQueue.countP fun y => y.2.message.is .init :=
      List.countP_pos_iff.mpr ⟨(p, l),
        (MessageQueue.receive_perm hreceive).mem_iff.mpr (.head _),
        decide_eq_true hinit⟩
    have hle := owners_length_le w.service.handled
    have hcounter := h.serves.counter
    unfold World.inits at hinits
    omega
  obtain ⟨server, calls, hok, -⟩ :=
    dispatch_curr (l.message, opened) h.serves.inRange hroom
  have hopen : (l.handled opened).joins = true →
      w.service.descr opened = none ∧
        (w.names l.message.name).isSome = true := by
    intro hjoins
    rw [h.target hmem (of_decide_eq_true hjoins : _ ∧ _).1]
    exact ⟨hfree, rfl⟩
  unfold World.take
  rw [hreceive]
  simp only
  rw [if_pos hopen, Option.isSome_map]
  exact dispatch_isSome hok

/-- **Total order broadcast**, in every state that the server and any
clients reach by any order of their steps. An `INIT` whose queue cannot be
opened lets nobody join. -/
theorem total_order_broadcast (hreach : (chat clientQName).Reachable w)
    (hinits : w.inits ≤ maxClients) : TotalOrder w := by
  have h := Inv.of_reachable hreach
  exact {
    puts := h.serves.puts
    idle := fun hidle c => h.serves.puts_eq hidle c
    slot := fun c hc => h.serves.slot _ c (List.getElem?_idxOf hc)
    received := fun c => (h.follows c).fifo
    oneOrder := h.oneOrder
    authorOrder := h.authorOrder
    accepted := fun a => (h.follows a).accepted
    broadcast := fun _ _ _ _ _ _ hreceive htext htake =>
      h.broadcast hreceive htext htake
    goesOn := fun opened _ => h.goesOn hinits opened }

/-- Two clients. The `CLIENT_EXIT` of the first is handled before its
text, which the second gets all the same. -/
theorem text_overtaken_by_exit : ∃ w : World Bool,
    (chat fun c => Bytes.ofList _ [c.toNat.toUInt8]).Reachable w ∧
      TotalOrder w ∧ (w.clients false).puts.map MsgT.id = [0] ∧
      (w.clients true).puts.map MsgT.id = [1, 0] := by
  let main (c : Bool) (stdin : List Byte) : Event Bool :=
    .client c (.main (Bytes.ofList _ []) stdin)
  obtain ⟨w, hw, hputs⟩ := System.ReachableIf.exists_of_runLabels
    (S := chat fun c : Bool => Bytes.ofList _ [c.toNat.toUInt8])
    (C := fun _ _ => True) (World.step _) (fun _ _ _ h => h)
    ([main false [], main false [], main true [], main true [], .server 3,
      .server 0, .server 4, .server 0] ++
      List.replicate 4 (main false []) ++
      [main false [97, 10], main false [], main false [],
        main false [58, 101, 120, 105, 116, 10], main false [],
        main false []] ++
      List.replicate 4 (.server 0))
    (p := fun w => w.inits ≤ maxClients ∧
      (w.clients false).puts.map MsgT.id = [0] ∧
      (w.clients true).puts.map MsgT.id = [1, 0])
    (s := World.initial Bool) (.init rfl) (by decide +kernel)
  obtain ⟨hinits, hfirst, hsecond⟩ := of_decide_eq_true hputs
  exact ⟨w, hw, total_order_broadcast hw hinits, hfirst, hsecond⟩

end TotalOrder

end Sysops.Cw07
