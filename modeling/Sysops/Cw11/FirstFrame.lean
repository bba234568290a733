import Sysops.Cw11.ServerSteps
import Sysops.Cw11.ToAll

/-!
# The first frame on a connection

`register_on_server` reads one frame, and what it reads is the first frame
that ever went over the connection. That need not be a reply to the
`CLIENT_NEW`: an entry can have the descriptor of a client that still waits
for its reply, and an entry whose socket was closed behind its back can have
that of a client that has just been accepted. So the frames count from the
`accept` on.
-/

namespace Sysops.Cw11

open SlotM

/-- What a client that begins with `register_on_server` makes of its
connection. -/
inductive Opening where
  /-- Nothing was received, and nothing sent. -/
  | silent
  /-- Its `CLIENT_NEW` was received, and nothing sent. -/
  | asked
  /-- The first frame that was sent, which is the one it reads. -/
  | first (m : MessageT)
  /-- It began with another frame: this is no such client. -/
  | other
  deriving DecidableEq

def Opening.next : Opening → Item → Opening
  | .silent, .received m =>
      if m.type = MessageType.clientNew.code then .asked else .other
  | .asked, .received _ => .asked
  | .silent, .sent m | .asked, .sent m => .first m
  | .first m, _ => .first m
  | .other, _ => .other

def opening (log : List Item) : Opening :=
  log.foldl Opening.next .silent

/-- The reply to a connection's first `CLIENT_NEW` is the first frame that
is sent after it, and on no connection does `register_on_server` read
anything else, whatever was sent before. -/
structure RepliesFirst (s : Threads) : Prop where
  reply : ∀ c m, answer (s.log c) = .first m → IsReply m
  expected : ∀ c m, opening (s.log c) = .first m →
    registerOnServer m ≠ .unexpectedMessageType

/-! ## When a frame must not be sent -/

/-- The next frame that is sent has to be the reply: the connection waits
for it, or nothing has gone over it. -/
def AwaitsReply (log : List Item) : Prop :=
  answer log = .waiting ∨ log = []

instance : DecidablePred AwaitsReply := fun _ =>
  inferInstanceAs (Decidable (_ ∨ _))

/-- The entry's socket is not the descriptor of such a connection. -/
def Threads.Spares (s : Threads) (i : Fin maxClients) : Prop :=
  ∀ c ∈ s.fds (s.server.slots i).socket, ¬ AwaitsReply (s.log c)

instance (s : Threads) : DecidablePred s.Spares := fun _ =>
  inferInstanceAs (Decidable (∀ c ∈ s.fds _, _))

/-- The entries to which the frame that is being handled is passed on. -/
def Main.addressees (t : Clients) : Main → List (Fin maxClients)
  | .received env _ m =>
      if m.type = MessageType.clientToAll.code then recipients t m.sender
      else if m.type = MessageType.clientToOne.code then
        match splitToOne env m.message with
        | .ok (receiver, _) => (receiver.bind (taken t)).toList
        | .error _ => []
      else []
  | .idle | .calling _ _ => []

/-- Neither the first pass nor a chat message goes to an entry whose socket
is the descriptor of a connection that is to get a reply first. -/
def SparesWaiting (s : Threads) : Turn → Prop
  | .firstPass _ => ∀ i, (s.server.slots i).valid = true → s.Spares i
  | .locked => ∀ i ∈ s.main.addressees s.server.slots, s.Spares i
  | .accept _ | .hangup _ | .receive _ _ _ | .call | .secondPass => True

instance (s : Threads) : DecidablePred (SparesWaiting s)
  | .firstPass _ => inferInstanceAs (Decidable (∀ _, _))
  | .locked => inferInstanceAs (Decidable (∀ i ∈ s.main.addressees _, _))
  | .accept _ | .hangup _ | .receive _ _ _ | .call | .secondPass =>
      inferInstanceAs (Decidable True)

/-! ## Logs -/

theorem registerOnServer_expected {m : MessageT} :
    registerOnServer m ≠ .unexpectedMessageType ↔ IsReply m := by
  unfold registerOnServer IsReply
  split
  · rename_i hfailure
    simp [hfailure]
  · rename_i hfailure
    split <;> simp_all

/-- What is good about a log. -/
structure Expected (log : List Item) : Prop where
  reply : ∀ m, answer log = .first m → IsReply m
  expected : ∀ m, opening log = .first m → IsReply m

theorem repliesFirst_iff {s : Threads} :
    RepliesFirst s ↔ ∀ c, Expected (s.log c) := by
  constructor
  · intro h c
    refine ⟨h.reply c, ?_⟩
    intro m hm
    exact registerOnServer_expected.mp (h.expected c m hm)
  · intro h
    refine ⟨fun c => (h c).reply, ?_⟩
    intro c m hm
    exact registerOnServer_expected.mpr ((h c).expected m hm)

@[simp] theorem opening_append (log : List Item) (x : Item) :
    opening (log ++ [x]) = (opening log).next x := by
  simp [opening]

theorem opening_eq_silent {log : List Item} (h : opening log = .silent) :
    log = [] := by
  induction log using List.reverseRecOn with
  | nil => rfl
  | append_singleton log x _ =>
      rw [opening_append] at h
      cases hlog : opening log <;> cases x <;> rw [hlog, Opening.next] at h
      case silent.received =>
          split at h <;> cases h
      all_goals cases h

/-- A connection that asked and was sent nothing waits. -/
theorem answer_of_opening_asked {log : List Item}
    (h : opening log = .asked) : answer log = .waiting := by
  induction log using List.reverseRecOn with
  | nil => cases h
  | append_singleton log x ih =>
      rw [opening_append] at h
      rw [answer_append]
      cases hlog : opening log <;> cases x <;> rw [hlog, Opening.next] at h
      case asked.received m =>
          rw [ih hlog]
          rfl
      case silent.received m =>
          rw [opening_eq_silent hlog]
          split at h
          · rename_i hm
            exact if_pos hm
          · cases h
      all_goals cases h

/-- What is read first is known for good. -/
theorem expected_of_append {log : List Item} {x : Item}
    (h : Expected (log ++ [x])) : Expected log := by
  constructor
  · intro m hm
    refine h.reply m ?_
    rw [answer_append, hm]
    rfl
  · intro m hm
    refine h.expected m ?_
    rw [opening_append, hm]
    rfl

theorem expected_received {log : List Item} (h : Expected log)
    (m : MessageT) : Expected (log ++ [.received m]) := by
  constructor
  · intro m' hm'
    rw [answer_append] at hm'
    exact h.reply m' (Answer.next_received_first hm')
  · intro m' hm'
    rw [opening_append] at hm'
    cases hlog : opening log with
    | silent =>
        rw [hlog, Opening.next] at hm'
        split at hm' <;> cases hm'
    | asked | other =>
        rw [hlog] at hm'
        cases hm'
    | first m'' =>
        rw [hlog] at hm'
        exact h.expected m' (hlog.trans hm')

theorem not_awaitsReply_sent (log : List Item) (m : MessageT) :
    ¬ AwaitsReply (log ++ [.sent m]) := by
  rintro (hwaiting | hempty)
  · rw [answer_append] at hwaiting
    cases hlog : answer log <;> rw [hlog] at hwaiting <;> cases hwaiting
  · simp at hempty

/-- A frame that is sent matters only where a reply is awaited. -/
theorem expected_sent_iff {log : List Item} (h : Expected log)
    (m : MessageT) :
    Expected (log ++ [.sent m]) ↔ (AwaitsReply log → IsReply m) := by
  constructor
  · rintro hsent (hwaiting | rfl)
    · refine hsent.reply m ?_
      rw [answer_append, hwaiting]
      rfl
    · exact hsent.expected m rfl
  · intro hreply
    constructor
    · intro m' hm'
      rw [answer_append] at hm'
      by_cases hwaiting : answer log = .waiting
      · rw [hwaiting] at hm'
        obtain rfl := Answer.first.inj hm'
        exact hreply (.inl hwaiting)
      · rw [next_sent hwaiting] at hm'
        exact h.reply m' hm'
    · intro m' hm'
      rw [opening_append] at hm'
      cases hlog : opening log with
      | silent =>
          rw [hlog] at hm'
          obtain rfl := Opening.first.inj hm'
          exact hreply (.inr (opening_eq_silent hlog))
      | asked =>
          rw [hlog] at hm'
          obtain rfl := Opening.first.inj hm'
          exact hreply (.inl (answer_of_opening_asked hlog))
      | first m'' =>
          rw [hlog] at hm'
          exact h.expected m' (hlog.trans hm')
      | other =>
          rw [hlog] at hm'
          cases hm'

/-- Frames that are no replies must not go where a reply is awaited. -/
theorem expected_append_iff {log l : List Item} (h : Expected log)
    (hl : ∀ x ∈ l, ∃ m, x = .sent m ∧ ¬ IsReply m) :
    Expected (log ++ l) ↔ (AwaitsReply log → l = []) := by
  induction l using List.reverseRecOn with
  | nil => simpa using h
  | append_singleton l x ih =>
      obtain ⟨m, rfl, hm⟩ := hl x (by simp)
      have ih := ih fun y hy => hl y (by simp [hy])
      rw [← List.append_assoc]
      constructor
      · intro hexpected hawaits
        have hbefore := expected_of_append hexpected
        obtain rfl := ih.mp hbefore hawaits
        rw [List.append_nil] at hexpected
        exact absurd ((expected_sent_iff h m).mp hexpected hawaits) hm
      · intro hnone
        have hquiet : ¬ AwaitsReply log := by
          intro hawaits
          simpa using hnone hawaits
        have hbefore := ih.mpr fun hawaits => absurd hawaits hquiet
        refine (expected_sent_iff hbefore m).mpr ?_
        intro hawaits
        rcases l.eq_nil_or_concat with rfl | ⟨l, y, rfl⟩
        · rw [List.append_nil] at hawaits
          exact absurd hawaits hquiet
        · obtain ⟨m', rfl, -⟩ := hl y (by simp)
          rw [List.concat_eq_append, ← List.append_assoc] at hawaits
          exact absurd hawaits (not_awaitsReply_sent _ m')

/-! ## One step -/

/-- The main thread has a frame from the descriptor, or a frame for it. -/
def Main.Serves (fd : Int) : Main → Prop
  | .idle => False
  | .received _ fd' _ => fd' = fd
  | .calling k ks => ∃ m, .send fd m ∈ k :: ks

@[simp] theorem Main.serves_calls (fd : Int) (ks : List Call) :
    (Main.calls ks).Serves fd ↔ ∃ m, Call.send fd m ∈ ks := by
  cases ks with
  | nil => simp [Main.calls, Main.Serves]
  | cons k ks => rfl

/-- Nothing goes over a connection that none of the sends is for. -/
theorem itemsTo_eq_nil_iff {c : Conn} {fds : Int → Option Conn}
    {ks : List Call} (h : ∀ k ∈ ks, ∃ d msg, k = Call.send d msg) :
    itemsTo c fds ks = [] ↔
      ∀ d msg, Call.send d msg ∈ ks → fds d ≠ some c := by
  induction ks with
  | nil => simp [itemsTo]
  | cons k ks ih =>
      obtain ⟨d, msg, rfl⟩ := h k (by simp)
      have ih := ih fun k hk => h k (by simp [hk])
      rw [itemsTo, List.append_eq_nil_iff, ih]
      constructor
      · rintro ⟨hhead, htail⟩ d' msg' hmem hd'
        rcases List.mem_cons.mp hmem with heq | hmem
        · obtain ⟨rfl, rfl⟩ := Call.send.inj heq
          rw [if_pos hd'] at hhead
          cases hhead
        · exact htail d' msg' hmem hd'
      · intro hall
        refine ⟨if_neg (hall d msg (by simp)), ?_⟩
        intro d' msg' hmem
        exact hall d' msg' (by simp [hmem])

/-- While a handler runs, the frame that it got has gone over the
connection on which it is going to reply. -/
def Heard (s : Threads) : Prop :=
  ∀ d c, s.main.Serves d → s.fds d = some c → s.log c ≠ []

section Step

variable {s t : Threads}

/-- The same message to the sockets of some entries, which is no reply. -/
theorem repliesFirst_sends_iff {ks : List Call} {p : Fin maxClients → Prop}
    (msg : Fin maxClients → MessageT) (hp : RepliesFirst s)
    (hks : ∀ k, k ∈ ks ↔ ∃ i, p i ∧
      k = .send (s.server.slots i).socket (msg i))
    (hmsg : ∀ i, ¬ IsReply (msg i))
    (hlog : ∀ c, t.log c = s.log c ++ itemsTo c s.fds ks) :
    RepliesFirst t ↔ ∀ i, p i → s.Spares i := by
  rw [repliesFirst_iff] at hp ⊢
  have hitems : ∀ c, ∀ x ∈ itemsTo c s.fds ks,
      ∃ m, x = .sent m ∧ ¬ IsReply m := by
    intro c x hx
    obtain ⟨fd, m, rfl, hmem, -⟩ := mem_itemsTo hx
    obtain ⟨i, -, hk⟩ := (hks _).mp hmem
    obtain ⟨-, rfl⟩ := Call.send.inj hk
    exact ⟨_, rfl, hmsg i⟩
  have hstep : ∀ c, Expected (t.log c) ↔
      (AwaitsReply (s.log c) → itemsTo c s.fds ks = []) := by
    intro c
    rw [hlog]
    exact expected_append_iff (hp c) (hitems c)
  have hnil : ∀ c, itemsTo c s.fds ks = [] ↔
      ∀ i, p i → s.fds (s.server.slots i).socket ≠ some c := by
    intro c
    rw [itemsTo_eq_nil_iff]
    · constructor
      · intro h i hi
        exact h _ _ ((hks _).mpr ⟨i, hi, rfl⟩)
      · intro h fd m hmem
        obtain ⟨i, hi, hk⟩ := (hks _).mp hmem
        obtain ⟨rfl, -⟩ := Call.send.inj hk
        exact h i hi
    · intro k hk
      obtain ⟨i, -, rfl⟩ := (hks k).mp hk
      exact ⟨_, _, rfl⟩
  simp only [hstep, hnil]
  constructor
  · intro h i hi c hc hawaits
    exact h c hawaits i hi hc
  · intro h c hawaits i hi hc
    exact h i hi c hc hawaits

/-- Where nothing is sent the replies stay first. -/
theorem repliesFirst_of_log (hp : RepliesFirst s)
    (hlog : ∀ c, t.log c = s.log c) : RepliesFirst t := by
  rw [repliesFirst_iff] at hp ⊢
  intro c
  rw [hlog]
  exact hp c

theorem heard_step {e : Turn} (hs : Heard s) (h : s.step e = some t) :
    Heard t := by
  cases Threads.step_took h with
  | accept hmain | hangup hmain =>
      intro d c hd
      change s.main.Serves d at hd
      rw [hmain] at hd
      cases hd
  | @receive env fd m c hmain hc =>
      intro d c' hd hc'
      obtain rfl : fd = d := hd
      obtain rfl : c = c' := Option.some.inj (hc.symm.trans hc')
      simp
  | @locked env fd m u ks hmain hlocked =>
      intro d c hd hc hempty
      refine hs d c ?_ (closeFds_le hc) (List.append_eq_nil_iff.mp hempty).1
      rw [hmain]
      obtain ⟨msg, hk⟩ := (Main.serves_calls d ks).mp hd
      rcases hlocked.later with ⟨-, reply, rfl, -⟩ | ⟨-, hlist⟩
      · obtain ⟨rfl, -⟩ := Call.send.inj (List.mem_singleton.mp hk)
        rfl
      · exact (hlist d msg hk).1.symm
  | @call k ks hmain =>
      intro d c hd hc hempty
      refine hs d c ?_ (closeFds_le hc) (List.append_eq_nil_iff.mp hempty).1
      rw [hmain]
      obtain ⟨msg, hk⟩ := (Main.serves_calls d ks).mp hd
      exact ⟨msg, List.mem_cons_of_mem k hk⟩
  | firstPass | secondPass =>
      intro d c hd hc hempty
      exact hs d c hd (closeFds_le hc) (List.append_eq_nil_iff.mp hempty).1

theorem not_isReply_of_chat {m : MessageT}
    (h : m.type = MessageType.serverChatMessage.code) : ¬ IsReply m := by
  rintro (hm | hm) <;> (rw [h] at hm; cases hm)

/-- A critical section sends to the addressees of the frame. -/
theorem repliesFirst_locked_iff (hp : RepliesFirst s)
    (h : s.step .locked = some t) :
    RepliesFirst t ↔ SparesWaiting s .locked := by
  cases Threads.step_took h with
  | @locked env fd m u ks hmain hlocked =>
      rw [SparesWaiting, hmain]
      -- a handler of another frame sends nothing here
      have hnobody (hall : m.type ≠ MessageType.clientToAll.code)
          (hone : m.type ≠ MessageType.clientToOne.code) :
          ∀ i ∈ (Main.received env fd m).addressees s.server.slots,
            s.Spares i := by
        simp [Main.addressees, hall, hone]
      cases hlocked with
      | toAll hm =>
          rw [Main.addressees, if_pos hm]
          refine repliesFirst_sends_iff
            (fun _ => broadcast (env.time 0) m) hp ?_
            (fun i => not_isReply_of_chat rfl) (fun c => rfl)
          intro k
          rw [World.idle_calls, List.nil_append, broadcastCalls, mem_sweep]
          simp only [recipients, List.mem_filter, List.mem_finRange, true_and]
          rfl
      | @toOne receiver text msg hm hsplit hinit =>
          rw [Main.addressees, if_neg (MessageType.ne_code hm (by decide)),
            if_pos hm, hsplit]
          refine repliesFirst_sends_iff (fun _ => msg) hp ?_
            (fun i => not_isReply_of_chat (initMessageT_type hinit))
            (fun c => rfl)
          intro k
          rw [World.idle_calls, List.nil_append, mem_privateCalls]
          simp
      | refused hm | registered hm | tableFull hm | stopped hm | notFound hm
      | list hm | alive hm =>
          exact iff_of_true
            (repliesFirst_of_log hp fun c => List.append_nil _)
            (hnobody (MessageType.ne_code hm (by decide))
              (MessageType.ne_code hm (by decide)))
      | nothing _ hall hone =>
          exact iff_of_true
            (repliesFirst_of_log hp fun c => List.append_nil _)
            (hnobody hall hone)

/-- The first pass asks every valid entry. -/
theorem repliesFirst_firstPass_iff {env : Env} (hp : RepliesFirst s)
    (h : s.step (.firstPass env) = some t) :
    RepliesFirst t ↔ SparesWaiting s (.firstPass env) := by
  cases Threads.step_took h with
  | firstPass _ hcalls =>
      refine repliesFirst_sends_iff _ hp hcalls ?_ fun c => rfl
      rintro i (hm | hm) <;> cases hm

/-- Who awaits a reply when a frame is sent behind the critical section is
sent that reply. -/
theorem repliesFirst_call (hs : Sound s) (hheard : Heard s)
    (hp : RepliesFirst s) (h : s.step .call = some t) : RepliesFirst t := by
  rw [repliesFirst_iff] at hp ⊢
  intro c
  cases Threads.step_took h with
  | @call k ks hmain =>
  show Expected (s.log c ++ itemsTo c s.fds [k])
  cases k with
  | close fd =>
      rw [itemsTo, itemsTo, List.append_nil]
      exact hp c
  | send fd m =>
      rw [itemsTo, itemsTo, List.append_nil]
      split
      case isFalse =>
          rw [List.append_nil]
          exact hp c
      case isTrue hfd =>
          refine (expected_sent_iff (hp c) m).mpr ?_
          rintro (hwaiting | hempty)
          · have hregisters := hs.window fd c hfd hwaiting
            rw [hmain] at hregisters
            obtain ⟨-, reply, hk, hreply⟩ := hregisters
            obtain ⟨-, rfl⟩ := Call.send.inj hk
            exact hreply
          · refine absurd hempty (hheard fd c ?_ hfd)
            rw [hmain]
            exact ⟨m, List.mem_cons_self⟩

/-- One step keeps the replies first exactly if it spares who waits. -/
theorem repliesFirst_step_iff {e : Turn} (hs : Sound s) (hheard : Heard s)
    (hp : RepliesFirst s) (h : s.step e = some t) :
    RepliesFirst t ↔ SparesWaiting s e := by
  cases e with
  | locked => exact repliesFirst_locked_iff hp h
  | firstPass env => exact repliesFirst_firstPass_iff hp h
  | call => exact iff_of_true (repliesFirst_call hs hheard hp h) trivial
  | accept fd | hangup fd =>
      refine iff_of_true ?_ trivial
      cases Threads.step_took h
      exact repliesFirst_of_log hp fun c => rfl
  | receive env fd m =>
      refine iff_of_true ?_ trivial
      cases Threads.step_took h with
      | @receive _ _ _ c _ hc =>
          rw [repliesFirst_iff] at hp ⊢
          intro c'
          by_cases hcc : c' = c
          · subst hcc
            simp only [Function.update_self]
            exact expected_received (hp c') m
          · simp only [Function.update_of_ne hcc]
            exact hp c'
  | secondPass =>
      refine iff_of_true ?_ trivial
      cases Threads.step_took h with
      | @secondPass u _ hcloses =>
          refine repliesFirst_of_log hp fun c => ?_
          have hnone : itemsTo c s.fds u.calls = [] := by
            rw [List.eq_nil_iff_forall_not_mem]
            intro x hx
            obtain ⟨fd, m, -, hk, -⟩ := mem_itemsTo hx
            obtain ⟨i, -, -, heq⟩ := hcloses _ hk
            cases heq
          simp [hnone]

end Step

end Sysops.Cw11
