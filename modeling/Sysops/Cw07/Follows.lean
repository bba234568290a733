import Sysops.Cw07.Chat

/-!
# What a client that follows its program has sent

One client, with its letters in the queue of the server and the messages of
it that the server has handled: at most one `INIT` and one `CLIENT_EXIT`,
the second with the number of its own slot, and all the texts that were
accepted, in their order. Every step of the client and every message that
the server handles keeps this.
-/

namespace Sysops.Cw07

/-! ## The messages of one client -/

def MsgT.is (t : MsgType) (message : MsgT) : Bool := message.type = t.code

section Counts

variable {C : Type} [DecidableEq C]

def Handled.isBy (t : MsgType) (c : C) (e : Handled C) : Bool :=
  e.message.is t && e.author = c

/-- The messages of one type that a client has sent, handled or not. -/
def countSent (t : MsgType) (c : C) (h : List (Handled C))
    (letters : MessageQueue MsgT) : Nat :=
  letters.countP (fun y => y.2.is t) + h.countP (Handled.isBy t c)

/-- The texts of a client that have been handled. -/
def textsBy (c : C) (h : List (Handled C)) : List MsgT :=
  texts (h.filter fun e => e.author = c)

/-- The texts among some letters. -/
def textsIn (letters : MessageQueue MsgT) : List MsgT :=
  (letters.filter fun y => y.2.is .text).map Prod.snd

@[simp] theorem textsIn_append (l m : MessageQueue MsgT) :
    textsIn (l ++ m) = textsIn l ++ textsIn m := by
  simp [textsIn]

end Counts

/-! ## Places -/

/-- Nothing has been received. -/
def Place.waits : Place → Bool
  | .openQueue | .sendInit | .receiveId => true
  | _ => false

/-- `client_id` has been received. -/
def Place.hasId : Place → Bool
  | .openQueue | .sendInit | .receiveId | .died => false
  | _ => true

def Place.hasForked : Place → Bool
  | .openQueue | .sendInit | .receiveId | .installHandlers | .fork
  | .died => false
  | _ => true

/-- The `INIT` may still be in the queue of the server. -/
def Place.initOnItsWay : Place → Bool
  | .receiveId | .died => true
  | _ => false

/-- The queue has been opened and not been unlinked. -/
def Place.named : Place → Bool
  | .openQueue | .returned => false
  | _ => true

/-- How many `INIT` may have been sent. -/
def Place.inits : Place → Nat
  | .openQueue | .sendInit => 0
  | _ => 1

/-- How many `CLIENT_EXIT` may have been sent. -/
def Place.exits : Place → Nat
  | .cleanup | .returned => 1
  | _ => 0

/-- A move that needs nothing but the place before it. -/
@[mk_iff]
structure Place.Moves (p q : Place) : Prop where
  waits : q.waits = true → p.waits = true
  hasId : q.hasId = true → p.hasId = true
  inits : p.inits ≤ q.inits
  exits : p.exits ≤ q.exits
  initOnItsWay : p.initOnItsWay = true → q.initOnItsWay = true

instance (p q : Place) : Decidable (p.Moves q) :=
  decidable_of_iff _ (Place.moves_iff p q).symm

theorem Place.Moves.refl (p : Place) : p.Moves p :=
  ⟨id, id, Nat.le_refl _, Nat.le_refl _, id⟩

/-! ## The invariant of one client -/

section Follows

variable {C : Type}

/-- What a letter of the client `c` can be. -/
inductive LetterOf (h : List (Handled C)) (c : C)
    (clientQName : Bytes maxMsgBufSize) (p : Place) : Nat × MsgT → Prop where
  | init : p.initOnItsWay = true →
      LetterOf h c clientQName p (1, ⟨MsgType.init.code, -1, clientQName⟩)
  | text (message : MsgT) : message.type = MsgType.text.code →
      LetterOf h c clientQName p (1, message)
  | clientExit (k : Nat) : (owners h)[k]? = some c →
      LetterOf h c clientQName p (2, .withoutText .clientExit k)

theorem LetterOf.mono {h h' : List (Handled C)} {c : C}
    {clientQName : Bytes maxMsgBufSize} {p q : Place} {l : Nat × MsgT}
    (hl : LetterOf h c clientQName p l)
    (hown : ∀ k : Nat, (owners h)[k]? = some c → (owners h')[k]? = some c)
    (hplace : p.initOnItsWay = true → q.initOnItsWay = true) :
    LetterOf h' c clientQName q l := by
  cases hl with
  | init hp => exact .init (hplace hp)
  | text m hm => exact .text m hm
  | clientExit k hk => exact .clientExit k (hown k hk)

variable [DecidableEq C]

/-- The client follows its program, where `h` has been handled and
`letters` are its letters in the queue of the server. -/
structure Follows (h : List (Handled C)) (c : C)
    (clientQName : Bytes maxMsgBufSize) (x : Client)
    (letters : MessageQueue MsgT) : Prop where
  priority : ∀ y ∈ x.queue, y.1 = 1
  fifo : x.received ++ x.queue.map Prod.snd = x.puts
  waiting : x.place.waits = true → x.received = []
  id : x.place.hasId = true → ∃ k : Nat, (owners h)[k]? = some c ∧ x.id = k
  forked : x.place.hasForked = true ↔ x.listener ≠ .notForked
  letter : ∀ y ∈ letters, LetterOf h c clientQName x.place y
  inits : countSent .init c h letters ≤ x.place.inits
  exits : countSent .clientExit c h letters ≤ x.place.exits
  accepted : textsBy c h ++ textsIn letters = x.accepted

variable {h : List (Handled C)} {c : C} {clientQName : Bytes maxMsgBufSize}
  {x y : Client} {letters : MessageQueue MsgT}

theorem Follows.start : Follows [] c clientQName Client.start [] where
  priority y hy := by cases hy
  fifo := rfl
  waiting _ := rfl
  id hp := by cases hp
  forked := by simp [Client.start, Place.hasForked]
  letter y hy := by cases hy
  inits := Nat.le_refl 0
  exits := Nat.le_refl 0
  accepted := rfl

/-- A step of the main process without a letter. -/
theorem Follows.moves (hf : Follows h c clientQName x letters) {p : Place}
    (q : Place) (hp : x.place = p) (hq : y.place = q) (hplace : p.Moves q)
    (hforked : y.place.hasForked = true ↔ y.listener ≠ .notForked)
    (hqueue : y.queue = x.queue) (hputs : y.puts = x.puts)
    (hreceived : y.received = x.received) (hid : y.id = x.id)
    (haccepted : y.accepted = x.accepted) :
    Follows h c clientQName y letters where
  priority := hqueue ▸ hf.priority
  fifo := by rw [hreceived, hqueue, hputs, hf.fifo]
  waiting hw := hreceived ▸ hf.waiting (hp ▸ hplace.waits (hq ▸ hw))
  id hi := hid ▸ hf.id (hp ▸ hplace.hasId (hq ▸ hi))
  forked := hforked
  letter l hl := (hf.letter l hl).mono (fun _ hk => hk)
    (hp ▸ hq ▸ hplace.initOnItsWay)
  inits := hf.inits.trans (hp ▸ hq ▸ hplace.inits)
  exits := hf.exits.trans (hp ▸ hq ▸ hplace.exits)
  accepted := haccepted ▸ hf.accepted

theorem countSent_append (t : MsgType) (c : C) (h : List (Handled C))
    (letters : MessageQueue MsgT) (l : Nat × MsgT) :
    countSent t c h (letters ++ [l]) =
      countSent t c h letters + (l.2.is t).toNat := by
  simp only [countSent, List.countP_append, List.countP_singleton]
  cases l.2.is t
  · simp
  · simp
    omega

/-- A step of the main process with a letter. -/
theorem Follows.sends (hf : Follows h c clientQName x letters)
    {l : Nat × MsgT} {p : Place} (q : Place) (hp : x.place = p)
    (hq : y.place = q) (hplace : p.Moves q)
    (hforked : y.place.hasForked = true ↔ y.listener ≠ .notForked)
    (hqueue : y.queue = x.queue) (hputs : y.puts = x.puts)
    (hreceived : y.received = x.received) (hid : y.id = x.id)
    (hl : LetterOf h c clientQName y.place l)
    (hinits : p.inits + (l.2.is .init).toNat ≤ q.inits)
    (hexits : p.exits + (l.2.is .clientExit).toNat ≤ q.exits)
    (haccepted : y.accepted = x.accepted ++ textsIn [l]) :
    Follows h c clientQName y (letters ++ [l]) where
  priority := hqueue ▸ hf.priority
  fifo := by rw [hreceived, hqueue, hputs, hf.fifo]
  waiting hw := hreceived ▸ hf.waiting (hp ▸ hplace.waits (hq ▸ hw))
  id hi := hid ▸ hf.id (hp ▸ hplace.hasId (hq ▸ hi))
  forked := hforked
  letter m hm := by
    rw [List.mem_append, List.mem_singleton] at hm
    rcases hm with hm | rfl
    · exact (hf.letter m hm).mono (fun _ hk => hk)
        (hp ▸ hq ▸ hplace.initOnItsWay)
    · exact hl
  inits := by
    have hle := hf.inits
    rw [hp] at hle
    rw [countSent_append, hq]
    omega
  exits := by
    have hle := hf.exits
    rw [hp] at hle
    rw [countSent_append, hq]
    omega
  accepted := by
    rw [textsIn_append, ← List.append_assoc, hf.accepted, haccepted]

/-- What a client has got first is the number of its slot. -/
theorem first_of_puts {message : MsgT} {l : List MsgT}
    (hputs : message :: l <+: expected c h) :
    c ∈ owners h ∧ message = .withoutText .receiveId ((owners h).idxOf c) := by
  by_cases hc : c ∈ owners h
  · rw [expected, if_pos hc, List.cons_prefix_cons] at hputs
    exact ⟨hc, hputs.1⟩
  · rw [expected_eq_nil hc, List.prefix_nil] at hputs
    cases hputs

theorem one_le_countSent_of_mem (hc : c ∈ owners h)
    (letters : MessageQueue MsgT) :
    letters.countP (fun y => y.2.is .init) + 1 ≤
      countSent .init c h letters := by
  obtain ⟨e, he, hjoins⟩ := List.any_eq_true.mp (mem_owners_iff.mp hc)
  have hinit : e.isBy .init c = true := by
    simp only [Handled.joinsAs, Handled.joins, Joins, Bool.and_eq_true,
      decide_eq_true_eq] at hjoins
    simp [Handled.isBy, MsgT.is, hjoins]
  have hpos := List.countP_pos_iff.mpr ⟨e, he, hinit⟩
  unfold countSent
  omega

/-- A client with a slot has no `INIT` on its way. -/
theorem Follows.letter_handled (hf : Follows h c clientQName x letters)
    (hc : c ∈ owners h) {l : Nat × MsgT} (hl : l ∈ letters) :
    l.2.is .init = false := by
  have hle := one_le_countSent_of_mem hc letters
  have hinits := hf.inits
  have hone : x.place.inits ≤ 1 := by cases x.place <;> decide
  have hzero : letters.countP (fun y => y.2.is .init) = 0 := by omega
  simpa using List.countP_eq_zero.mp hzero l hl

/-! ## One step of a client -/

/-- A client takes the oldest message of its queue. -/
theorem Follows.receive_eq_some (hf : Follows h c clientQName x letters)
    {r : MsgT × Client} (h : x.receive = some r) : ∃ queue,
      x.queue = (1, r.1) :: queue ∧
      r.2 = { x with queue := queue, received := x.received ++ [r.1] } := by
  obtain ⟨⟨l, queue⟩, hreceive, rfl⟩ := Option.map_eq_some_iff.mp h
  have hqueue := MessageQueue.receive_same hf.priority hreceive
  have hl : l.1 = 1 := hf.priority l (by simp [hqueue])
  refine ⟨queue, ?_, rfl⟩
  rw [hqueue, ← hl]

/-- The number of the slot is received. -/
theorem Follows.receivesId (hf : Follows h c clientQName x letters)
    (hputs : x.puts <+: expected c h) (hp : x.place = .receiveId)
    {r : MsgT × Client} (hr : x.receive = some r)
    (hy : y = { r.2 with id := r.1.id, place := .installHandlers }) :
    Follows h c clientQName y letters ∧ y.puts = x.puts := by
  obtain ⟨queue, hqueue, hx⟩ := hf.receive_eq_some hr
  rw [hx] at hy
  subst hy
  have hreceived : x.received = [] := hf.waiting (by rw [hp]; rfl)
  have hxputs : x.puts = r.1 :: queue.map Prod.snd := by
    rw [← hf.fifo, hreceived, hqueue]
    rfl
  obtain ⟨hc, hfirst⟩ := first_of_puts (hxputs ▸ hputs)
  have hforked := hf.forked
  have hexits := hf.exits
  rw [hp] at hforked hexits
  refine ⟨⟨?_, ?_, ?_, ?_, hforked, ?_, ?_, hexits, hf.accepted⟩, rfl⟩
  · intro l hl
    exact hf.priority l (hqueue ▸ .tail _ hl)
  · change (x.received ++ [r.1]) ++ queue.map Prod.snd = x.puts
    rw [hxputs, hreceived]
    rfl
  · intro hw
    cases hw
  · intro _
    refine ⟨(owners h).idxOf c, List.getElem?_idxOf hc, ?_⟩
    rw [hfirst]
    rfl
  · intro l hl
    have hnot := hf.letter_handled hc hl
    cases hf.letter l hl with
    | init _ => cases hnot
    | text m hm => exact .text m hm
    | clientExit k hk => exact .clientExit k hk
  · exact hp ▸ hf.inits

/-- A step of the main process. -/
theorem Follows.main (hf : Follows h c clientQName x letters)
    (hputs : x.puts <+: expected c h) {memory : Bytes maxMsgBufSize}
    {stdin : List Byte} {effect : Effect}
    (hmain : x.main clientQName memory stdin = some (effect, y)) :
    Follows h c clientQName y (letters ++ effect.letters) ∧
      y.puts = x.puts := by
  have hforked := hf.forked
  cases hp : x.place <;> rw [hp] at hforked <;>
    simp only [Client.main, hp, Option.some.injEq, Prod.mk.injEq,
      reduceCtorEq] at hmain
  case receiveId =>
    obtain ⟨r, hr, hry⟩ := Option.map_eq_some_iff.mp hmain
    obtain ⟨rfl, hy⟩ := Prod.mk.inj hry
    rw [Effect.letters, List.append_nil]
    exact hf.receivesId hputs hp hr hy.symm
  all_goals obtain ⟨rfl, rfl⟩ := hmain
  case sendInit =>
    refine ⟨hf.sends .receiveId hp rfl (by decide) hforked rfl rfl rfl rfl (.init rfl)
      (Nat.le_refl 1) (Nat.le_refl 0) ?_, rfl⟩
    simp [textsIn, MsgT.is, MsgType.code]
  case sendText =>
    refine ⟨hf.sends .test hp rfl (by decide) hforked rfl rfl rfl rfl (.text _ rfl)
      (Nat.le_refl 1) (Nat.le_refl 0) ?_, rfl⟩
    simp [textsIn, MsgT.is]
  case sendExit =>
    obtain ⟨k, hk, hid⟩ := hf.id (by rw [hp]; rfl)
    refine ⟨hf.sends .cleanup hp rfl (by decide) hforked rfl rfl rfl rfl ?_
      (Nat.le_refl 1) (Nat.le_refl 1) ?_, rfl⟩
    · rw [hid]
      exact .clientExit k hk
    · simp [textsIn, MsgT.is, MsgT.withoutText, MsgType.code]
  all_goals rw [Effect.letters, List.append_nil]
  case openQueue =>
    exact ⟨hf.moves .sendInit hp rfl (by decide) hforked rfl rfl rfl rfl rfl, rfl⟩
  case installHandlers =>
    exact ⟨hf.moves .fork hp rfl (by decide) hforked rfl rfl rfl rfl rfl, rfl⟩
  case fork =>
    exact ⟨hf.moves .test hp rfl (by decide) ⟨by simp, fun _ => rfl⟩
      rfl rfl rfl rfl rfl, rfl⟩
  case test =>
    refine ⟨?_, rfl⟩
    cases hrunning : x.isRunning with
    | false =>
        exact hf.moves .killListener hp rfl (by decide) hforked rfl rfl rfl rfl rfl
    | true =>
        exact hf.moves .readLine hp rfl (by decide) hforked rfl rfl rfl rfl rfl
  case readLine =>
    refine ⟨?_, rfl⟩
    cases hround : (handleTextInput memory stdin).2 with
    | again =>
        exact hf.moves .test hp rfl (by decide) hforked rfl rfl rfl rfl rfl
    | leaves =>
        exact hf.moves .killListener hp rfl (by decide) hforked rfl rfl rfl rfl rfl
    | sends =>
        exact hf.moves .sendText hp rfl (by decide) hforked rfl rfl rfl rfl rfl
  case killListener =>
    exact ⟨hf.moves .sendExit hp rfl (by decide) ⟨by simp, fun _ => rfl⟩
      rfl rfl rfl rfl rfl, rfl⟩
  case cleanup =>
    exact ⟨hf.moves .returned hp rfl (by decide) hforked rfl rfl rfl rfl rfl, rfl⟩

/-- A step of the listener. -/
theorem Follows.listen (hf : Follows h c clientQName x letters)
    (hlisten : x.listen = some y) :
    Follows h c clientQName y letters ∧ y.puts = x.puts := by
  have hforked := hf.forked
  cases hl : x.listener <;> rw [hl] at hforked <;>
    simp only [Client.listen, hl, Option.some.injEq, reduceCtorEq] at hlisten
  case test =>
    subst hlisten
    refine ⟨hf.moves x.place rfl rfl (.refl _) ?_ rfl rfl rfl rfl rfl, rfl⟩
    rw [hforked]
    split <;> simp
  case receive =>
    obtain ⟨r, hr, rfl⟩ := Option.map_eq_some_iff.mp hlisten
    obtain ⟨queue, hqueue, hx⟩ := hf.receive_eq_some hr
    rw [hx]
    refine ⟨⟨?_, ?_, ?_, hf.id, ?_, hf.letter, hf.inits, hf.exits,
      hf.accepted⟩, rfl⟩
    · intro l hl
      exact hf.priority l (hqueue ▸ .tail _ hl)
    · rw [← hf.fifo, hqueue]
      simp
    · -- the listener runs only behind the fork
      intro hwaits
      have hplace := hforked.mpr (by simp)
      change x.place.waits = true at hwaits
      cases hp : x.place <;> rw [hp] at hplace hwaits <;> cases hplace <;>
        cases hwaits
    · rw [hforked]
      simp

/-- A signal to the main process. -/
theorem Follows.signal (hf : Follows h c clientQName x letters)
    (hsignal : x.signal = some y) :
    Follows h c clientQName y letters ∧ y.puts = x.puts := by
  have hforked := hf.forked
  cases hp : x.place <;> rw [hp] at hforked <;>
    simp only [Client.signal, hp, Option.some.injEq, reduceCtorEq] at hsignal
  case sendInit | receiveId | installHandlers =>
    subst hsignal
    exact ⟨hf.moves .died hp rfl (by decide) hforked rfl rfl rfl rfl rfl, rfl⟩
  all_goals
    subst hsignal
    exact ⟨hf.moves _ hp rfl (.refl _) hforked rfl rfl rfl rfl rfl, rfl⟩

/-- **Every step of a client keeps its invariant**, and it puts nothing
into the client's queue. -/
theorem Follows.act (hf : Follows h c clientQName x letters)
    (hputs : x.puts <+: expected c h) {action : Action} {effect : Effect}
    (hact : x.act clientQName action = some (effect, y)) :
    Follows h c clientQName y (letters ++ effect.letters) ∧
      y.puts = x.puts := by
  cases action with
  | main memory stdin => exact hf.main hputs hact
  | listener =>
      obtain ⟨z, hz, heq⟩ := Option.map_eq_some_iff.mp hact
      obtain ⟨rfl, rfl⟩ := Prod.mk.inj heq
      rw [Effect.letters, List.append_nil]
      exact hf.listen hz
  | forkFails =>
      simp only [Client.act] at hact
      split at hact
      · rename_i hp
        have hforked := hf.forked
        rw [hp] at hforked
        obtain ⟨rfl, rfl⟩ := Prod.mk.inj (Option.some.inj hact)
        rw [Effect.letters, List.append_nil]
        exact ⟨hf.moves .died hp rfl (by decide) hforked rfl rfl rfl rfl rfl, rfl⟩
      · cases hact
  | signal =>
      obtain ⟨z, hz, heq⟩ := Option.map_eq_some_iff.mp hact
      obtain ⟨rfl, rfl⟩ := Prod.mk.inj heq
      rw [Effect.letters, List.append_nil]
      exact hf.signal hz
  | signalListener =>
      obtain ⟨z, hz, heq⟩ := Option.map_eq_some_iff.mp hact
      obtain ⟨rfl, rfl⟩ := Prod.mk.inj heq
      rw [Effect.letters, List.append_nil]
      unfold Client.signalListener at hz
      split at hz <;> cases hz
      · exact ⟨hf.moves x.place rfl rfl (.refl _) hf.forked rfl rfl rfl rfl
          rfl, rfl⟩
      · exact ⟨hf.moves x.place rfl rfl (.refl _) hf.forked rfl rfl rfl rfl
          rfl, rfl⟩

/-! ## One step of the server -/

/-- The server puts a message into the queue of the client. -/
theorem Follows.gets (hf : Follows h c clientQName x letters)
    (message : MsgT) :
    Follows h c clientQName
      { x with
        queue := x.queue ++ [(1, message)]
        puts := x.puts ++ [message] } letters where
  priority l hl := by
    rw [List.mem_append, List.mem_singleton] at hl
    rcases hl with hl | rfl
    · exact hf.priority l hl
    · rfl
  fifo := by
    rw [← hf.fifo]
    simp
  waiting := hf.waiting
  id := hf.id
  forked := hf.forked
  letter := hf.letter
  inits := hf.inits
  exits := hf.exits
  accepted := hf.accepted

variable {e : Handled C}

theorem countSent_handled (t : MsgType) (c : C) (h : List (Handled C))
    (letters : MessageQueue MsgT) (e : Handled C) :
    countSent t c (h ++ [e]) letters =
      countSent t c h letters + (e.isBy t c).toNat := by
  simp only [countSent, List.countP_append, List.countP_singleton]
  cases e.isBy t c
  · simp
  · simp
    omega

theorem textsBy_append (c : C) (h : List (Handled C)) (e : Handled C) :
    textsBy c (h ++ [e]) = textsBy c h ++
      if e.author = c ∧ e.isText = true then [e.message] else [] := by
  by_cases hc : e.author = c
  · cases ht : e.isText <;> simp [textsBy, texts, hc, ht]
  · simp [textsBy, texts, hc]

/-- The server handles a message of another client. -/
theorem Follows.handledOther (hf : Follows h c clientQName x letters)
    (he : e.author ≠ c) : Follows (h ++ [e]) c clientQName x letters where
  priority := hf.priority
  fifo := hf.fifo
  waiting := hf.waiting
  id hi := by
    obtain ⟨k, hk, hid⟩ := hf.id hi
    exact ⟨k, getElem?_owners_append hk e, hid⟩
  forked := hf.forked
  letter l hl :=
    (hf.letter l hl).mono (fun _ hk => getElem?_owners_append hk e) fun hi => hi
  inits := by
    rw [countSent_handled]
    simpa [Handled.isBy, he] using hf.inits
  exits := by
    rw [countSent_handled]
    simpa [Handled.isBy, he] using hf.exits
  accepted := by
    rw [textsBy_append]
    simpa [he] using hf.accepted

/-- The server handles a message of this client. -/
theorem Follows.handledOwn (hf : Follows h c clientQName x letters)
    {l : Nat × MsgT} {rest : MessageQueue MsgT}
    (hperm : letters.Perm (l :: rest))
    (htexts : textsIn letters = textsIn [l] ++ textsIn rest)
    (hauthor : e.author = c) (hmessage : e.message = l.2) :
    Follows (h ++ [e]) c clientQName x rest := by
  have hcount : ∀ t, countSent t c (h ++ [e]) rest = countSent t c h letters := by
    intro t
    rw [countSent_handled, countSent, countSent, hperm.countP_eq,
      List.countP_cons, Handled.isBy, hmessage]
    cases l.2.is t
    · simp
    · simp [hauthor]
      omega
  refine ⟨hf.priority, hf.fifo, hf.waiting, ?_, hf.forked, ?_, ?_, ?_, ?_⟩
  · intro hi
    obtain ⟨k, hk, hid⟩ := hf.id hi
    exact ⟨k, getElem?_owners_append hk e, hid⟩
  · intro m hm
    exact (hf.letter m (hperm.mem_iff.mpr (.tail _ hm))).mono
      (fun _ hk => getElem?_owners_append hk e) fun hi => hi
  · rw [hcount]
    exact hf.inits
  · rw [hcount]
    exact hf.exits
  · have hone : (if e.author = c ∧ e.isText = true then [e.message] else []) =
        textsIn [l] := by
      rw [Handled.isText, hmessage]
      by_cases ht : l.2.type = MsgType.text.code <;>
        simp [hauthor, textsIn, MsgT.is, ht]
    rw [← hf.accepted, htexts, textsBy_append, hone, List.append_assoc]

/-- A letter of the client is a message that is due. -/
theorem Follows.due (hf : Follows h c clientQName x letters)
    {l : Nat × MsgT} (hl : l ∈ letters) (hauthor : e.author = c)
    (hmessage : e.message = l.2) : e.Due h := by
  cases hf.letter l hl with
  | init hp =>
      refine .init (by rw [hmessage]) ?_
      intro hc
      have hnot := hf.letter_handled (hauthor ▸ hc) hl
      cases hnot
  | text m hm => exact .text (by simp [Handled.isText, hmessage, hm])
  | clientExit k hk =>
      refine .clientExit k ?_ ?_ (hauthor ▸ hk) ?_
      · rw [hmessage]
        rfl
      · rw [hmessage]
        rfl
      · -- the only `CLIENT_EXIT` of the client has not been handled
        rw [hauthor]
        by_contra hgone
        have hleft : left c h = true := by simpa using hgone
        have hhandled : 0 < h.countP (Handled.isBy .clientExit c) := by
          obtain ⟨e', he', hleaves⟩ :=
            List.any_eq_true.mp (any_leavesAs_of_left hleft)
          exact List.countP_pos_iff.mpr ⟨e', he', hleaves⟩
        have hqueued : 0 < letters.countP (fun y => y.2.is .clientExit) :=
          List.countP_pos_iff.mpr ⟨_, hl, rfl⟩
        have hexits := hf.exits
        have hone : x.place.exits ≤ 1 := by cases x.place <;> decide
        unfold countSent at hexits
        omega

end Follows

end Sysops.Cw07
