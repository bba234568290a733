import Sysops.Cw07.Readers

/-!
# When the chat server is stuck

The server sends to one client after the other and waits where a queue is
full. It is stuck where nobody will read that queue again. Whether it can
still get through the broadcast it is in is found from the clients that are
still to get the message: none of them may have a full queue and no reader.
-/

namespace Sysops.Cw07

section Takes

variable {C : Type} {w : World C}

/-- The server is about to take a text. -/
def World.takesText (w : World C) : Bool :=
  w.service.pending.isEmpty &&
    (MessageQueue.receive w.serverQueue).any fun r => r.1.2.message.is .text

theorem takesText_iff {p : Nat} {l : Letter C}
    {queue : MessageQueue (Letter C)} (hidle : w.service.pending = [])
    (hreceive : MessageQueue.receive w.serverQueue = some ((p, l), queue)) :
    w.takesText = l.message.is .text := by
  rw [World.takesText, hidle, hreceive]
  rfl

theorem takesText_of_pending {call : Call} {rest : List Call}
    (hpending : w.service.pending = call :: rest) : w.takesText = false := by
  rw [World.takesText, hpending]
  rfl

end Takes

section Stuck

variable {C : Type} [DecidableEq C] {clientQName : C → Bytes maxMsgBufSize}
  {w w' : World C} {c : C}

/-- A full queue, and no process that may read it. -/
def Client.Abandoned (x : Client) : Prop :=
  maxMessages ≤ x.queue.length ∧ x.mayRead = false

instance (x : Client) : Decidable x.Abandoned :=
  inferInstanceAs (Decidable (_ ∧ _))

/-- No process will ever read the queue of the client again. -/
def NeverRead (clientQName : C → Bytes maxMsgBufSize) (w : World C) (c : C) :
    Prop :=
  ∀ w', ((chat clientQName).startingAt w).Reachable w' →
    (w'.clients c).received = (w.clients c).received

/-- The server is blocked sending to a full queue that no process will ever
read again. -/
def Stuck (clientQName : C → Bytes maxMsgBufSize) (w : World C) : Prop :=
  ∃ q message rest c, w.service.pending = .send q message :: rest ∧
    w.service.descr q = some c ∧
    maxMessages ≤ (w.clients c).queue.length ∧ NeverRead clientQName w c

/-- The server can still make all the calls of the handler at work. -/
def CanFinish (clientQName : C → Bytes maxMsgBufSize) (w : World C) : Prop :=
  ∃ w', ((chat clientQName).startingAt w).Reachable w' ∧
    w'.service.pending = []

/-- The handler at work has still to send to an abandoned client. -/
def Doomed (w : World C) : Prop :=
  ∃ c, w.service.pendingFor c ≠ [] ∧ (w.clients c).Abandoned

/-- The invariant, and queues that hold no more than they can. -/
structure Sound (clientQName : C → Bytes maxMsgBufSize) (w : World C) :
    Prop where
  inv : Inv clientQName w
  bounded : ∀ c, (w.clients c).queue.length ≤ maxMessages

/-! ## What one step does to the readers -/

/-- A step of a client changes only that client, and not the server. -/
theorem Inv.act_reads (h : Inv clientQName w) {action : Action}
    (hact : w.act clientQName c action = some w') :
    w'.service = w.service ∧ (∀ d, d ≠ c → w'.clients d = w.clients d) ∧
      Reads (w.clients c) action (w'.clients c) := by
  obtain ⟨effect, x, hx, hclients, hservice, -, -⟩ := act_eq_some hact
  refine ⟨hservice, ?_, ?_⟩
  · intro d hd
    rw [hclients, Function.update_of_ne hd]
  · rw [hclients, Function.update_self]
    exact Cw07.act_reads (h.follows c).forked hx

/-- A step of the server changes nothing but what is in the queues. -/
theorem serve_client {opened : Int} (h : ServerStep w opened w') (d : C) :
    (w'.clients d).mayRead = (w.clients d).mayRead ∧
      (w'.clients d).received = (w.clients d).received := by
  cases h with
  | take _ htake =>
      obtain ⟨p, l, queue, service, -, -, -, rfl⟩ := take_eq_some htake
      exact ⟨rfl, rfl⟩
  | close q rest _ hw' =>
      rw [hw']
      exact ⟨rfl, rfl⟩
  | send q message rest c _ _ _ hw' =>
      rw [hw']
      by_cases hd : d = c
      · subst hd
        simp only [Function.update_self, and_true]
        rfl
      · simp only [Function.update_of_ne hd, and_self]

/-- **A client without a reader stays without one**, and nothing is read
any more. -/
theorem Inv.mayRead_false (h : Inv clientQName w) {e : Event C}
    (hstep : w.step clientQName e = some w')
    (hc : (w.clients c).mayRead = false) :
    (w'.clients c).mayRead = false ∧
      (w'.clients c).received = (w.clients c).received := by
  cases e with
  | server opened =>
      have hserve := serve_client (h.serverStep hstep) c
      exact ⟨hserve.1.trans hc, hserve.2⟩
  | client d action =>
      obtain ⟨-, hothers, hreads⟩ := h.act_reads hstep
      by_cases hd : c = d
      · subst hd
        cases hreads with
        | none _ hreceived hmay =>
            rw [hc] at hmay
            exact ⟨hmay, hreceived⟩
        | one _ hmay _ =>
            rw [hc] at hmay
            cases hmay
      · rw [hothers c hd]
        exact ⟨hc, rfl⟩

theorem Sound.step (h : Sound clientQName w) {e : Event C}
    (hstep : w.step clientQName e = some w') : Sound clientQName w' := by
  refine ⟨h.inv.step hstep, ?_⟩
  intro d
  have hd := h.bounded d
  cases e with
  | client c action =>
      obtain ⟨-, hothers, hreads⟩ := h.inv.act_reads hstep
      by_cases hdc : d = c
      · subst hdc
        cases hreads with
        | none hqueue _ _ => rwa [hqueue]
        | one hqueue _ _ => omega
      · rwa [hothers d hdc]
  | server opened =>
      cases h.inv.serverStep hstep with
      | take _ htake =>
          obtain ⟨p, l, queue, service, -, -, -, rfl⟩ := take_eq_some htake
          exact hd
      | close q rest _ hw' =>
          rw [hw']
          exact hd
      | send q message rest c _ _ hroom hw' =>
          rw [hw']
          by_cases hdc : d = c
          · subst hdc
            simp only [Function.update_self, List.length_append,
              List.length_singleton]
            exact hroom
          · simpa only [Function.update_of_ne hdc] using hd

theorem Sound.initial : Sound clientQName (World.initial C) :=
  ⟨.initial, fun _ => Nat.zero_le _⟩

theorem Sound.of_startingAt (h : Sound clientQName w)
    (hreach : ((chat clientQName).startingAt w).Reachable w') :
    Sound clientQName w' :=
  hreach.keeps (fun _ _ _ hv hstep => hv.step hstep) h

theorem Sound.of_reachable (h : (chat clientQName).Reachable w) :
    Sound clientQName w := by
  refine h.invariant ?_ fun _ _ _ hv _ hstep => hv.step hstep
  rintro _ rfl
  exact .initial

/-- **Who will never read is found from the state.** -/
theorem Inv.neverRead_iff (h : Inv clientQName w)
    (hqueue : (w.clients c).queue ≠ []) :
    NeverRead clientQName w c ↔ (w.clients c).mayRead = false := by
  constructor
  · intro hnever
    by_contra hmay
    obtain ⟨w', hw'⟩ := h.readsOne (by simpa using hmay) hqueue
    have hlength := hw'.received
    rw [hnever w' hw'.reach] at hlength
    omega
  · intro hmay w' hreach
    have hall : Inv clientQName w' ∧ (w'.clients c).mayRead = false ∧
        (w'.clients c).received = (w.clients c).received := by
      refine hreach.keeps (I := fun v =>
        Inv clientQName v ∧ (v.clients c).mayRead = false ∧
          (v.clients c).received = (w.clients c).received) ?_ ⟨h, hmay, rfl⟩
      rintro v e v' ⟨hv, hvmay, hvreceived⟩ hstep
      obtain ⟨hmay', hreceived'⟩ := hv.mayRead_false hstep hvmay
      exact ⟨hv.step hstep, hmay', hreceived'.trans hvreceived⟩
    exact hall.2.2

/-! ## The handler at work gets through or not -/

theorem pendingFor_idle (hidle : w.service.pending = []) (c : C) :
    w.service.pendingFor c = [] := by
  rw [Service.pendingFor, hidle]
  rfl

theorem pendingFor_of_send {q : Int} {message : MsgT} {rest : List Call}
    (hpending : w.service.pending = .send q message :: rest)
    (hq : w.service.descr q = some c) : w.service.pendingFor c ≠ [] := by
  rw [pendingFor_send hpending hq c, if_pos rfl]
  exact List.cons_ne_nil _ _

/-- **An abandoned client that is still to get a message blocks the server
for ever**: no further message is handled. -/
theorem Sound.doomed_step (h : Sound clientQName w) {e : Event C}
    (hstep : w.step clientQName e = some w')
    (hfor : w.service.pendingFor c ≠ []) (hc : (w.clients c).Abandoned) :
    w'.service.pendingFor c ≠ [] ∧ (w'.clients c).Abandoned := by
  have hmay := (h.inv.mayRead_false hstep hc.2).1
  cases e with
  | client d action =>
      obtain ⟨hservice, hothers, hreads⟩ := h.inv.act_reads hstep
      rw [hservice]
      refine ⟨hfor, ?_, hmay⟩
      by_cases hd : c = d
      · subst hd
        cases hreads with
        | none hqueue _ _ => exact hqueue ▸ hc.1
        | one _ hreader _ =>
            rw [hc.2] at hreader
            cases hreader
      · rw [hothers c hd]
        exact hc.1
  | server opened =>
      cases h.inv.serverStep hstep with
      | take hidle _ => exact absurd (pendingFor_idle hidle c) hfor
      | close q rest hpending _ =>
          exact absurd (h.inv.serves.pendingFor_close hpending c) hfor
      | send q message rest d hpending hq hroom hw' =>
          have hfull := hc.1
          have hdc : d ≠ c := by
            rintro rfl
            omega
          rw [pendingFor_send hpending hq c, if_neg hdc] at hfor
          subst hw'
          refine ⟨hfor, ?_, hmay⟩
          simpa only [Function.update_of_ne hdc.symm] using hc.1

theorem Sound.not_canFinish (h : Sound clientQName w) (hdoomed : Doomed w) :
    ¬ CanFinish clientQName w := by
  obtain ⟨c, hfor, hc⟩ := hdoomed
  rintro ⟨w', hreach, hidle⟩
  have hall : Sound clientQName w' ∧ w'.service.pendingFor c ≠ [] ∧
      (w'.clients c).Abandoned := by
    refine hreach.keeps (I := fun v =>
      Sound clientQName v ∧ v.service.pendingFor c ≠ [] ∧
        (v.clients c).Abandoned) ?_ ⟨h, hfor, hc⟩
    rintro v e v' ⟨hv, hvfor, hvc⟩ hstep
    exact ⟨hv.step hstep, hv.doomed_step hstep hvfor hvc⟩
  exact hall.2.1 (pendingFor_idle hidle c)

/-- A message that was put dooms nobody and saves nobody. -/
theorem doomed_send_iff (h : Inv clientQName w) {q : Int} {message : MsgT}
    {rest : List Call}
    (hpending : w.service.pending = .send q message :: rest)
    (hq : w.service.descr q = some c)
    (hservice : w'.service = { w.service with pending := rest })
    (hothers : ∀ d, d ≠ c → w'.clients d = w.clients d)
    (hc : ¬ (w.clients c).Abandoned) : Doomed w' ↔ Doomed w := by
  have hfor : ∀ d, d ≠ c →
      w'.service.pendingFor d = w.service.pendingFor d := by
    intro d hd
    rw [hservice, pendingFor_send hpending hq d,
      if_neg (fun heq => hd heq.symm)]
    rfl
  constructor
  · rintro ⟨d, hdfor, hd⟩
    have hdc : d ≠ c := by
      rintro rfl
      rw [hservice] at hdfor
      exact hdfor (h.serves.pendingFor_rest hpending hq)
    exact ⟨d, hfor d hdc ▸ hdfor, hothers d hdc ▸ hd⟩
  · rintro ⟨d, hdfor, hd⟩
    have hdc : d ≠ c := by
      rintro rfl
      exact hc hd
    exact ⟨d, (hfor d hdc).symm ▸ hdfor, (hothers d hdc).symm ▸ hd⟩

theorem queue_of_full {queue : MessageQueue MsgT}
    (h : maxMessages ≤ queue.length) : queue ≠ [] := by
  rintro rfl
  cases h

/-- A client that is not abandoned makes room, if it goes on. -/
theorem Sound.makesRoom (h : Sound clientQName w)
    (hc : ¬ (w.clients c).Abandoned) :
    ∃ v, ((chat clientQName).startingAt w).Reachable v ∧
      v.service = w.service ∧ (∀ d, d ≠ c → v.clients d = w.clients d) ∧
      (v.clients c).queue.length < maxMessages := by
  by_cases hfull : maxMessages ≤ (w.clients c).queue.length
  · have hmay : (w.clients c).mayRead = true := by
      by_contra hno
      exact hc ⟨hfull, by simpa using hno⟩
    obtain ⟨v, hv⟩ := h.inv.readsOne hmay (queue_of_full hfull)
    have hbounded := h.bounded c
    have hlength := hv.queue
    exact ⟨v, hv.reach, hv.service, hv.others, by omega⟩
  · exact ⟨w, .refl _ w, rfl, fun _ _ => rfl, Nat.lt_of_not_le hfull⟩

/-- **The handler at work gets through, or the server gets stuck**, by what
the state has in it already. -/
theorem Sound.settles (h : Sound clientQName w) :
    ∃ y, ((chat clientQName).startingAt w).Reachable y ∧
      (¬ Doomed w ∧ y.service.pending = [] ∨
        Doomed w ∧ Stuck clientQName y) := by
  generalize hpending : w.service.pending = pending
  induction pending generalizing w with
  | nil =>
      refine ⟨w, .refl _ w, .inl ⟨?_, hpending⟩⟩
      rintro ⟨c, hfor, -⟩
      exact hfor (pendingFor_idle hpending c)
  | cons call rest ih =>
      cases call with
      | close q =>
          have hstep : w.step clientQName (.server 0) = some { w with
              service :=
                { w.service with
                  pending := rest
                  descr := Function.update w.service.descr q none } } := by
            simp only [World.step, World.serve, hpending]
            rfl
          refine ⟨_, (System.Reachable.refl (chat clientQName) w).step hstep,
            .inl ⟨?_, h.inv.serves.close_alone hpending⟩⟩
          rintro ⟨c, hfor, -⟩
          exact hfor (h.inv.serves.pendingFor_close hpending c)
      | send q message =>
          obtain ⟨c, hq⟩ := h.inv.descr_of_send hpending
          by_cases hc : (w.clients c).Abandoned
          · have hnever : NeverRead clientQName w c :=
              (h.inv.neverRead_iff (queue_of_full hc.1)).mpr hc.2
            exact ⟨w, .refl _ w, .inr
              ⟨⟨c, pendingFor_of_send hpending hq, hc⟩,
                q, message, rest, c, hpending, hq, hc.1, hnever⟩⟩
          · obtain ⟨v, hv, hservice, hothers, hroom⟩ := h.makesRoom hc
            have hstep : v.step clientQName (.server 0) = some { v with
                service := { v.service with pending := rest }
                clients := Function.update v.clients c
                  { v.clients c with
                    queue := (v.clients c).queue ++ [(1, message)]
                    puts := (v.clients c).puts ++ [message] } } := by
              have hvpending : v.service.pending = .send q message :: rest :=
                hservice ▸ hpending
              have hvq : v.service.descr q = some c := hservice ▸ hq
              simp only [World.step, World.serve, hvpending, World.perform,
                hvq, MessageQueue.send, if_pos hroom]
              rfl
            have hreach := hv.step (S := (chat clientQName).startingAt w) hstep
            obtain ⟨y, hy, hends⟩ := ih (h.of_startingAt hreach) rfl
            rw [doomed_send_iff h.inv hpending hq (by rw [hservice])
              (fun d hd => ?_) hc] at hends
            · exact ⟨y, hreach.trans hy, hends⟩
            · exact (Function.update_of_ne hd ..).trans (hothers d hd)

/-- What the server can still do is found from the state. -/
theorem Sound.canFinish_iff (h : Sound clientQName w) :
    CanFinish clientQName w ↔ ¬ Doomed w := by
  constructor
  · intro hfinish hdoomed
    exact h.not_canFinish hdoomed hfinish
  · intro hfree
    obtain ⟨y, hy, ⟨-, hidle⟩ | ⟨hdoomed, -⟩⟩ := h.settles
    · exact ⟨y, hy, hidle⟩
    · exact absurd hdoomed hfree

theorem Sound.doomed_of_stuck (h : Sound clientQName w)
    (hstuck : Stuck clientQName w) : Doomed w := by
  obtain ⟨q, message, rest, c, hpending, hq, hfull, hnever⟩ := hstuck
  exact ⟨c, pendingFor_of_send hpending hq, hfull,
    (h.inv.neverRead_iff (queue_of_full hfull)).mp hnever⟩

/-! ## When a run gets there -/

/-- No client loses its last reader while it is still to get a message and
its queue is full, and no text is taken while a client in the table is
abandoned. -/
def ReadersStay (w : World C) : Event C → Prop
  | .client c action => (w.clients c).endsReader action = true →
      w.service.pendingFor c ≠ [] →
        (w.clients c).queue.length < maxMessages
  | .server _ => w.takesText = true → ∀ c ∈ owners w.service.handled,
      left c w.service.handled = false → ¬ (w.clients c).Abandoned

/-- A message that is no text is answered only to a client that has got
nothing before. -/
theorem Inv.queue_of_take (h : Inv clientQName w)
    (hidle : w.service.pending = []) {opened : Int}
    (htake : w.take opened = some w') (htext : w.takesText = false)
    (hfor : w'.service.pendingFor c ≠ []) : (w.clients c).queue = [] := by
  have hputs := (h.take hidle htake).serves.puts c
  obtain ⟨p, l, queue, service, hreceive, -, hdispatch, rfl⟩ :=
    take_eq_some htake
  rw [takesText_iff hidle hreceive] at htext
  have hmem : (p, l.message) ∈ lettersOf l.author w.serverQueue :=
    (lettersOf_receive_own hreceive).mem_iff.mpr (.head _)
  have hdue : (l.handled opened).Due w.service.handled :=
    (h.follows l.author).due hmem rfl rfl
  obtain ⟨server, calls, -, rfl⟩ := dispatch_eq_some hdispatch
  simp only [h.serves.puts_eq hidle c] at hputs
  cases hjoins : (l.handled opened).joins with
  | false =>
      rw [expected_append_other (e := l.handled opened) htext hjoins] at hputs
      exact absurd (List.append_right_eq_self.mp hputs) hfor
  | true =>
      have hnew : (l.handled opened).author ∉ owners w.service.handled := by
        have hinit := (of_decide_eq_true hjoins : _ ∧ _).1
        cases hdue with
        | init _ hnew => exact hnew
        | text hl =>
            rw [not_joins_of_isText hl] at hjoins
            cases hjoins
        | clientExit k hexit =>
            change (l.handled opened).message.type = _ at hinit
            rw [hexit] at hinit
            cases hinit
      rw [expected_append_join hjoins hnew, List.append_cancel_left_eq] at hputs
      by_cases hc : c = (l.handled opened).author
      · have hempty := (h.follows c).fifo
        rw [h.serves.puts_eq hidle c, expected_eq_nil (hc ▸ hnew),
          List.append_eq_nil_iff, List.map_eq_nil_iff] at hempty
        exact hempty.2
      · rw [if_neg hc] at hputs
        exact absurd hputs hfor

/-- One step of a client. -/
theorem Sound.act_iff (h : Sound clientQName w) (hw : ¬ Doomed w)
    {action : Action} (hact : w.act clientQName c action = some w') :
    ¬ Doomed w' ↔ ReadersStay w (.client c action) := by
  obtain ⟨hservice, hothers, hreads⟩ := h.inv.act_reads hact
  have hlocal : ¬ Doomed w' ↔
      (w.service.pendingFor c ≠ [] → ¬ (w'.clients c).Abandoned) := by
    constructor
    · intro hno hfor hc
      exact hno ⟨c, hservice ▸ hfor, hc⟩
    · rintro hno ⟨d, hfor, hd⟩
      rw [hservice] at hfor
      by_cases hdc : d = c
      · subst hdc
        exact hno hfor hd
      · exact hw ⟨d, hfor, hothers d hdc ▸ hd⟩
  rw [hlocal, ReadersStay]
  cases hreads with
  | none hqueue _ hmay =>
      rw [Client.Abandoned, hqueue, hmay]
      constructor
      · intro hno hends hfor
        by_contra hfull
        refine hno hfor ⟨Nat.le_of_not_lt hfull, ?_⟩
        rw [hends]
        simp
      · rintro hstay hfor ⟨hfull, hnone⟩
        cases hends : (w.clients c).endsReader action with
        | true =>
            have hroom := hstay hends hfor
            omega
        | false =>
            rw [hends] at hnone
            exact hw ⟨c, hfor, hfull, by simpa using hnone⟩
  | one hqueue _ hends =>
      have hbounded := h.bounded c
      constructor
      · intro _ hyes
        rw [hends] at hyes
        cases hyes
      · rintro - - ⟨hfull, -⟩
        omega

/-- One step of the server. -/
theorem Sound.serve_iff (h : Sound clientQName w) (hw : ¬ Doomed w)
    {opened : Int} (hserve : w.serve opened = some w') :
    ¬ Doomed w' ↔ ReadersStay w (.server opened) := by
  cases h.inv.serverStep hserve with
  | close q rest hpending hw' =>
      rw [ReadersStay, takesText_of_pending hpending, hw']
      refine iff_of_true ?_ fun hno => by cases hno
      rintro ⟨c, hfor, -⟩
      refine hfor (pendingFor_idle ?_ c)
      exact h.inv.serves.close_alone hpending
  | send q message rest c hpending hq hroom hw' =>
      rw [ReadersStay, takesText_of_pending hpending]
      refine iff_of_true ?_ fun hno => by cases hno
      have hc : ¬ (w.clients c).Abandoned := by
        rintro ⟨hfull, -⟩
        omega
      rw [doomed_send_iff h.inv hpending hq (by rw [hw']) (fun d hd => ?_) hc]
      · exact hw
      · rw [hw']
        exact Function.update_of_ne hd ..
  | take hidle htake =>
      have hclients : w'.clients = w.clients := by
        obtain ⟨_, _, _, _, -, -, -, rfl⟩ := take_eq_some htake
        rfl
      cases htext : w.takesText with
      | false =>
          rw [ReadersStay, htext]
          refine iff_of_true ?_ fun hno => by cases hno
          rintro ⟨c, hfor, hc⟩
          rw [hclients] at hc
          exact queue_of_full hc.1 (h.inv.queue_of_take hidle htake htext hfor)
      | true =>
          obtain ⟨p, l, queue, _, hreceive, -⟩ := take_eq_some htake
          have hl := htext
          rw [takesText_iff hidle hreceive] at hl
          have hfor := h.inv.broadcast hreceive hl htake
          rw [ReadersStay, htext]
          constructor
          · intro hno _ c hc hin habandoned
            refine hno ⟨c, ?_, hclients ▸ habandoned⟩
            rw [hfor c, if_pos ⟨hc, hin⟩]
            exact List.cons_ne_nil _ _
          · rintro hstay ⟨c, hcfor, hc⟩
            rw [hfor c] at hcfor
            split at hcfor
            · rename_i hin
              exact hstay rfl c hin.1 hin.2 (hclients ▸ hc)
            · exact hcfor rfl

theorem Sound.step_iff (h : Sound clientQName w) (hw : ¬ Doomed w)
    {e : Event C} (hstep : w.step clientQName e = some w') :
    ¬ Doomed w' ↔ ReadersStay w e := by
  cases e with
  | client c action => exact h.act_iff hw hstep
  | server opened => exact h.serve_iff hw hstep

/-- **When the server gets stuck.** In a run whose steps all keep the
readers it never is, and at no other time can it always get through the
broadcast it is in: a step that does not keep them leaves a state from
which the server only gets stuck. -/
theorem never_stuck_iff (hinit : (chat clientQName).init w)
    {tr : List (Event C × World C)} (hrun : (chat clientQName).Run w tr) :
    (System.Meets ReadersStay w tr ↔ ∀ x ∈ tr, CanFinish clientQName x.2) ∧
    (System.Meets ReadersStay w tr → ∀ x ∈ tr, ¬ Stuck clientQName x.2) ∧
    ∀ x ∈ tr, ¬ CanFinish clientQName x.2 → ∃ y,
      ((chat clientQName).startingAt x.2).Reachable y ∧
        Stuck clientQName y := by
  have hsound : Sound clientQName w := by
    rw [show w = World.initial C from hinit]
    exact .initial
  have hstart : ¬ Doomed w := by
    rw [show w = World.initial C from hinit]
    rintro ⟨c, hfor, -⟩
    exact hfor rfl
  have hall : ∀ x ∈ tr, Sound clientQName x.2 :=
    hrun.invariant (fun _ _ _ hv hstep => hv.step hstep) hsound
  have hexact := hrun.forall_iff_meets (P := fun v => ¬ Doomed v)
    (fun _ _ _ hv hstep => hv.step hstep)
    (fun _ _ _ hv hno hstep => hv.step_iff hno hstep) hsound hstart
  refine ⟨?_, ?_, ?_⟩
  · rw [← hexact]
    exact forall₂_congr fun x hx => (hall x hx).canFinish_iff.symm
  · intro hmeets x hx hstuck
    exact hexact.mpr hmeets x hx ((hall x hx).doomed_of_stuck hstuck)
  · intro x hx hno
    obtain ⟨y, hy, ⟨hfree, -⟩ | ⟨-, hstuck⟩⟩ := (hall x hx).settles
    · exact absurd ((hall x hx).canFinish_iff.mpr hfree) hno
    · exact ⟨y, hy, hstuck⟩

instance (w : World C) (e : Event C) : Decidable (ReadersStay w e) :=
  match e with
  | .client _ _ => inferInstanceAs (Decidable (_ → _ → _))
  | .server _ => inferInstanceAs (Decidable (_ → ∀ c ∈ _, _ → ¬ _))

end Stuck

/-! ## One client -/

/-- The steps of one client that joins. -/
def joining : List (Event Unit) :=
  List.replicate 2 (.client () (.main (Bytes.ofList _ []) [])) ++
    [.server 3, .server 0] ++
    List.replicate 4 (.client () (.main (Bytes.ofList _ []) []))

/-- A line is read and sent, and the server takes it. -/
def posting (line : List Byte) : List (Event Unit) :=
  [.client () (.main (Bytes.ofList _ []) line),
    .client () (.main (Bytes.ofList _ []) []),
    .client () (.main (Bytes.ofList _ []) []), .server 0]

/-- A client gets its own text back. -/
theorem text_comes_back : ∃ tr : List (Event Unit × World Unit),
    (chat fun _ => Bytes.ofList _ []).Run (World.initial Unit) tr ∧
      tr.length = 15 ∧
      ∀ x ∈ tr, ¬ Stuck (fun _ => Bytes.ofList _ []) x.2 := by
  obtain ⟨tr, hrun, hmeets, hlabels⟩ := System.Run.exists_of_runLabels
    (S := chat fun _ : Unit => Bytes.ofList _ []) (C := ReadersStay)
    (World.step _) (fun _ _ _ h => h)
    (joining ++ posting [97, 10] ++ [.server 0, .client () .listener,
      .client () .listener]) (s := World.initial Unit) (by decide +kernel)
  refine ⟨tr, hrun, ?_, (never_stuck_iff rfl hrun).2.1 hmeets⟩
  rw [← List.length_map (f := Prod.fst), hlabels]
  rfl

/-- Eleven texts of a client whose listener does not get to run, and then
its exit: the server is in the middle of the eleventh broadcast when the
client is gone. -/
theorem stuck_on_departed_client : ∃ w : World Unit,
    (chat fun _ => Bytes.ofList _ []).Reachable w ∧
      (w.clients ()).place = .returned ∧
      Stuck (fun _ => Bytes.ofList _ []) w := by
  obtain ⟨w, hw, hp⟩ := System.ReachableIf.exists_of_runLabels
    (S := chat fun _ : Unit => Bytes.ofList _ []) (C := fun _ _ => True)
    (World.step _) (fun _ _ _ h => h)
    (joining ++
      (List.replicate 10 (posting [97, 10] ++ [.server 0])).flatten ++
      posting [97, 10] ++
      List.replicate 4 (.client () (.main (Bytes.ofList _ [])
        [58, 101, 120, 105, 116, 10])))
    (p := fun w => decide ((w.clients ()).place = .returned) &&
      (decide (w.clients ()).Abandoned &&
        (w.service.pending.head?.bind
          (Call.messageFor w.service.descr ())).isSome))
    (s := World.initial Unit) (.init rfl) (by decide +kernel)
  simp only [Bool.and_eq_true, decide_eq_true_eq, Option.isSome_iff_exists,
    Option.bind_eq_some_iff, Call.messageFor_eq_some] at hp
  obtain ⟨hplace, hc, message, _, hhead, q, rfl, hq⟩ := hp
  obtain ⟨rest, hpending⟩ := List.head?_eq_some_iff.mp hhead
  have hnever := ((Sound.of_reachable hw).inv.neverRead_iff
    (queue_of_full hc.1)).mpr hc.2
  exact ⟨w, hw, hplace, q, message, rest, (), hpending, hq, hc.1, hnever⟩

end Sysops.Cw07
