import Sysops.Cw07.Handled

/-!
# The server between two messages

What the server process holds while it handles one message after the
other: its table, the calls that the handler at work has still to make, the
client queues it has open, and the messages handled so far. The invariant
says what each slot and each queue has, in terms of the handled messages.
-/

namespace Sysops.Cw07

structure Service (C : Type) where
  server : Server
  /-- The calls that the handler at work has still to make. -/
  pending : List Call
  /-- The client whose queue an open descriptor stands for. -/
  descr : Int → Option C
  handled : List (Handled C)

/-- Before the first message. -/
def Service.initial (C : Type) : Service C where
  server := Server.initial
  pending := []
  descr _ := none
  handled := []

/-- The message that a call puts into the queue of a client. -/
def Call.messageFor {C : Type} [DecidableEq C] (descr : Int → Option C)
    (c : C) : Call → Option MsgT
  | .send q message => if descr q = some c then some message else none
  | .close _ => none

theorem Call.messageFor_eq_some {C : Type} [DecidableEq C]
    {descr : Int → Option C} {c : C} {call : Call} {m : MsgT} :
    call.messageFor descr c = some m ↔
      ∃ q, call = .send q m ∧ descr q = some c := by
  cases call with
  | send q message => simp [messageFor, and_comm]
  | close q => simp [messageFor]

namespace Service

variable {C : Type} (s : Service C)

/-- A message is dispatched; `target` is the client whose queue has the
name that is in it. -/
def dispatch (e : Handled C) (target : Option C) : Option (Service C) :=
  match dispatchMessageType e.opened s.server e.message with
  | .error _ => none
  | .ok (server, calls) => some
      { server := server
        pending := calls
        descr :=
          if e.joins then Function.update s.descr e.opened target else s.descr
        handled := s.handled ++ [e] }

variable [DecidableEq C]

/-- The messages that a client is still to get from the handler at work. -/
def pendingFor (c : C) : List MsgT :=
  s.pending.filterMap (Call.messageFor s.descr c)

/-- What the entry `k`, made for the client `c`, holds. -/
def SlotOf (k : Nat) (c : C) : Prop :=
  (left c s.handled = true ∧ s.server.entry k = -1) ∨
  (left c s.handled = false ∧ 0 ≤ s.server.entry k ∧
    s.descr (s.server.entry k) = some c)

/-- The handler at work sends to queues that are open, or it closes the
queue of a client that has left. -/
def PendingOpen : Prop :=
  (∀ call ∈ s.pending, ∃ q message c,
    call = .send q message ∧ s.descr q = some c) ∨
  ∃ q c, s.pending = [.close q] ∧ s.descr q = some c ∧
    left c s.handled = true

end Service

/-- The invariant of the server, where `puts` is what has been put into
each client queue. -/
structure Serves {C : Type} [DecidableEq C] (s : Service C)
    (puts : C → List MsgT) : Prop where
  counter : s.server.currMaxClientNum = (owners s.handled).length
  inRange : s.server.currMaxClientNum ≤ maxClients
  nodup : (owners s.handled).Nodup
  slot : ∀ k c, (owners s.handled)[k]? = some c → s.SlotOf k c
  pendingOpen : s.PendingOpen
  puts : ∀ c, puts c ++ s.pendingFor c = expected c s.handled
  once : ∀ c, (s.pendingFor c).length ≤ 1

/-! ## A broadcast -/

section Broadcast

variable {C : Type} [DecidableEq C]

/-- A loop over the indices is a loop over the entries. -/
theorem range_flatMap {α β : Type} (l : List α) (f : Option α → List β) :
    (List.range l.length).flatMap (fun i => f l[i]?) =
      l.flatMap fun x => f (some x) := by
  induction l with
  | nil => rfl
  | cons x l ih =>
      rw [List.length_cons, List.range_succ_eq_map, List.flatMap_cons,
        List.flatMap_map, List.flatMap_cons, ← ih]
      rfl

/-- In a list without repetitions a client comes once. -/
theorem nodup_flatMap {β : Type} {l : List C} (hl : l.Nodup) (c : C)
    (x : List β) :
    (l.flatMap fun d => if d = c then x else []) = if c ∈ l then x else [] := by
  induction l with
  | nil => rfl
  | cons d l ih =>
      obtain ⟨hd, hl⟩ := List.nodup_cons.mp hl
      rw [List.flatMap_cons, ih hl]
      by_cases hdc : d = c
      · subst hdc
        simp [hd]
      · have hcd : c ≠ d := fun h => hdc h.symm
        simp [hdc, hcd]

variable {s : Service C} {puts : C → List MsgT}

/-- What one entry contributes to a broadcast. -/
theorem Service.SlotOf.messageFor {k : Nat} {d : C} (h : s.SlotOf k d)
    (message : MsgT) (c : C) :
    (if s.server.entry k = -1 then []
      else [Call.send (s.server.entry k) message]).filterMap
        (Call.messageFor s.descr c) =
      if d = c then (if left c s.handled then [] else [message]) else [] := by
  rcases h with ⟨hleft, hentry⟩ | ⟨hleft, hpos, hdescr⟩
  · rw [if_pos hentry]
    by_cases hdc : d = c
    · subst hdc
      simp [hleft]
    · simp [hdc]
  · rw [if_neg (by omega)]
    by_cases hdc : d = c
    · subst hdc
      simp [Call.messageFor, hdescr, hleft]
    · simp [Call.messageFor, hdescr, hdc]

/-- **A broadcast has one message for each client in the table.** -/
theorem Serves.broadcast_for (h : Serves s puts) (message : MsgT) (c : C) :
    (s.server.broadcast message).filterMap (Call.messageFor s.descr c) =
      if c ∈ owners s.handled ∧ left c s.handled = false then [message]
      else [] := by
  have hentry : ∀ i ∈ List.range (owners s.handled).length,
      (if s.server.entry i = -1 then []
        else [Call.send (s.server.entry i) message]).filterMap
          (Call.messageFor s.descr c) =
        if (owners s.handled)[i]? = some c then
          (if left c s.handled then [] else [message]) else [] := by
    intro i hi
    have hd := List.getElem?_eq_getElem (List.mem_range.mp hi)
    rw [(h.slot i _ hd).messageFor, hd]
    simp only [Option.some.injEq]
  rw [Server.broadcast, List.filterMap_flatMap, h.counter,
    List.flatMap_congr hentry,
    range_flatMap (owners s.handled) fun o =>
      if o = some c then (if left c s.handled then [] else [message]) else []]
  simp only [Option.some.injEq]
  rw [nodup_flatMap h.nodup]
  by_cases hc : c ∈ owners s.handled
  · cases left c s.handled <;> simp [hc]
  · simp [hc]

/-- Every call of a broadcast is a send to an open queue. -/
theorem Serves.broadcast_open (h : Serves s puts) {message : MsgT}
    {call : Call} (hcall : call ∈ s.server.broadcast message) :
    ∃ q c, call = .send q message ∧ s.descr q = some c := by
  obtain ⟨i, hi, hcall⟩ := List.mem_flatMap.mp hcall
  rw [List.mem_range, h.counter] at hi
  split at hcall
  · cases hcall
  · rename_i hentry
    rw [List.mem_singleton] at hcall
    rcases h.slot i _ (List.getElem?_eq_getElem hi) with
      ⟨-, hfree⟩ | ⟨-, -, hdescr⟩
    · exact absurd hfree hentry
    · exact ⟨_, _, hcall, hdescr⟩

end Broadcast

/-! ## One step of the server -/

theorem dispatch_eq_some {C : Type} {s t : Service C} {e : Handled C}
    {target : Option C}
    (h : s.dispatch e target = some t) : ∃ server calls,
      dispatchMessageType e.opened s.server e.message = .ok (server, calls) ∧
      t = { server := server
            pending := calls
            descr :=
              if e.joins then Function.update s.descr e.opened target
              else s.descr
            handled := s.handled ++ [e] } := by
  unfold Service.dispatch at h
  split at h
  · cases h
  · rename_i server calls heq
    exact ⟨server, calls, heq, (Option.some.inj h).symm⟩

theorem dispatch_isSome {C : Type} {s : Service C} {e : Handled C}
    {target : Option C} {r : Server × List Call}
    (h : dispatchMessageType e.opened s.server e.message = .ok r) :
    (s.dispatch e target).isSome := by
  rw [Service.dispatch, h]
  rfl

section Step

variable {C : Type} [DecidableEq C] {s t : Service C}
  {puts : C → List MsgT}

theorem serves_initial : Serves (Service.initial C) fun _ => [] where
  counter := rfl
  inRange := Nat.zero_le _
  nodup := List.nodup_nil
  slot k c hk := by simp [Service.initial, owners] at hk
  pendingOpen := .inl fun call hcall => by cases hcall
  puts c := (expected_eq_nil (by simp [Service.initial, owners])).symm
  once c := Nat.zero_le _

/-- A call that sends takes its message off what its client is to get. -/
theorem pendingFor_send {q : Int} {message : MsgT} {rest : List Call}
    (hpending : s.pending = .send q message :: rest) {c : C}
    (hq : s.descr q = some c) (d : C) :
    s.pendingFor d = (if c = d then [message] else []) ++
      ({ s with pending := rest } : Service C).pendingFor d := by
  rw [Service.pendingFor, hpending, List.filterMap_cons]
  by_cases hcd : c = d
  · subst hcd
    simp [Call.messageFor, hq, Service.pendingFor]
  · simp [Call.messageFor, hq, hcd, Service.pendingFor]

/-- A call that sends. -/
theorem Serves.sent (h : Serves s puts) {q : Int} {message : MsgT}
    {rest : List Call} (hpending : s.pending = .send q message :: rest)
    {c : C} (hq : s.descr q = some c) :
    Serves { s with pending := rest }
      (Function.update puts c (puts c ++ [message])) := by
  have hfor := pendingFor_send hpending hq
  refine ⟨h.counter, h.inRange, h.nodup, h.slot, ?_, ?_, ?_⟩
  · rcases h.pendingOpen with hsend | ⟨q', c', hclose, -⟩
    · exact .inl fun call hcall => hsend call (hpending ▸ .tail _ hcall)
    · rw [hclose] at hpending
      cases hpending
  · intro d
    rw [← h.puts d, hfor d]
    by_cases hcd : c = d
    · subst hcd
      simp
    · rw [Function.update_of_ne (fun heq => hcd heq.symm), if_neg hcd]
      rfl
  · intro d
    have honce := h.once d
    rw [hfor d, List.length_append] at honce
    omega

/-- A client gets a message only once from one handler. -/
theorem Serves.pendingFor_rest (h : Serves s puts) {q : Int}
    {message : MsgT} {rest : List Call}
    (hpending : s.pending = .send q message :: rest) {c : C}
    (hq : s.descr q = some c) :
    ({ s with pending := rest } : Service C).pendingFor c = [] := by
  have honce := h.once c
  rw [pendingFor_send hpending hq c, if_pos rfl, List.length_append,
    List.length_singleton] at honce
  exact List.eq_nil_of_length_eq_zero (by omega)

/-- A handler that closes makes no other call. -/
theorem Serves.close_alone (h : Serves s puts) {q : Int} {rest : List Call}
    (hpending : s.pending = .close q :: rest) : rest = [] := by
  rcases h.pendingOpen with hsend | ⟨q', c, hclose, -⟩
  · obtain ⟨_, _, _, hcall, -⟩ := hsend (.close q) (hpending ▸ .head _)
    cases hcall
  · rw [hclose] at hpending
    exact (List.cons.inj hpending).2.symm

theorem Serves.pendingFor_close (h : Serves s puts) {q : Int}
    {rest : List Call} (hpending : s.pending = .close q :: rest) (c : C) :
    s.pendingFor c = [] := by
  rw [Service.pendingFor, hpending, h.close_alone hpending]
  rfl

/-- A call that closes. It is the only one of its handler. -/
theorem Serves.closed (h : Serves s puts) {q : Int} {rest : List Call}
    (hpending : s.pending = .close q :: rest) :
    Serves { s with pending := rest
                    descr := Function.update s.descr q none } puts := by
  rcases h.pendingOpen with hsend | ⟨q', c, hclose, hq, hleft⟩
  · obtain ⟨_, _, _, hcall, -⟩ := hsend (.close q) (hpending ▸ .head _)
    cases hcall
  rw [hclose] at hpending
  obtain ⟨rfl, rfl⟩ : q' = q ∧ rest = [] := by simpa [eq_comm] using hpending
  have hfor : ∀ d, s.pendingFor d = [] := by
    intro d
    rw [Service.pendingFor, hclose]
    rfl
  refine ⟨h.counter, h.inRange, h.nodup, ?_, .inl fun call hcall => ?_, ?_, ?_⟩
  · -- a slot in use belongs to another client than the one that has left
    intro k d hk
    rcases h.slot k d hk with hfree | ⟨hin, hpos, hdescr⟩
    · exact .inl hfree
    · refine .inr ⟨hin, hpos, ?_⟩
      change Function.update s.descr q' none (s.server.entry k) = some d
      rw [Function.update_of_ne, hdescr]
      intro hentry
      rw [hentry, hq] at hdescr
      obtain rfl := Option.some.inj hdescr
      rw [hleft] at hin
      cases hin
  · cases hcall
  · intro d
    rw [← h.puts d, hfor d]
    rfl
  · intro d
    exact Nat.zero_le _

/-- Between two messages every client has got what it is to get. -/
theorem Serves.puts_eq (h : Serves s puts) (hidle : s.pending = []) (c : C) :
    puts c = expected c s.handled := by
  rw [← h.puts c, Service.pendingFor, hidle, List.filterMap_nil,
    List.append_nil]

/-- A slot stays as it is when its entry and the descriptor in it do, and
its client does not leave. -/
theorem Service.SlotOf.mono {k : Nat} {c : C} {e : Handled C}
    (h : s.SlotOf k c) (hhandled : t.handled = s.handled ++ [e])
    (he : e.leavesAs c = false)
    (hentry : t.server.entry k = s.server.entry k)
    (hdescr : ∀ q, s.descr q = some c → t.descr q = some c) :
    t.SlotOf k c := by
  have hleft : left c t.handled = left c s.handled := by
    rw [hhandled, left_append, he]
    simp
  rcases h with ⟨hfree, hk⟩ | ⟨hin, hpos, hk⟩
  · exact .inl ⟨hleft.trans hfree, hentry.trans hk⟩
  · exact .inr ⟨hleft.trans hin, hentry ▸ hpos, hdescr _ (hentry ▸ hk)⟩

variable {e : Handled C}

/-- After an `INIT` of a client whose queue is opened. -/
def Service.afterJoin (s : Service C) (e : Handled C)
    (hroom : s.server.currMaxClientNum < maxClients) : Service C where
  server :=
    { s.server.withEntry ⟨_, hroom⟩ e.opened with
      currMaxClientNum := s.server.currMaxClientNum + 1 }
  pending :=
    [.send e.opened (.withoutText .receiveId s.server.currMaxClientNum)]
  descr := Function.update s.descr e.opened (some e.author)
  handled := s.handled ++ [e]

/-- The slots in use stay as they are. -/
theorem Service.SlotOf.afterJoin {k : Nat} {c : C} (h : s.SlotOf k c)
    (he : e.joins = true) (hfresh : s.descr e.opened = none)
    (hroom : s.server.currMaxClientNum < maxClients)
    (hk : k ≠ s.server.currMaxClientNum) :
    (s.afterJoin e hroom).SlotOf k c := by
  refine h.mono rfl (not_leavesAs_of_joins he c) ?_ ?_
  · exact (entry_withEntry _ _ _ _).trans (if_neg hk)
  · intro q hq
    show Function.update s.descr e.opened (some e.author) q = some c
    rw [Function.update_of_ne, hq]
    rintro rfl
    rw [hfresh] at hq
    cases hq

/-- The next slot is that of the new client. -/
theorem slotOf_afterJoin (he : e.joins = true)
    (hnew : e.author ∉ owners s.handled)
    (hroom : s.server.currMaxClientNum < maxClients) :
    (s.afterJoin e hroom).SlotOf s.server.currMaxClientNum e.author := by
  have hopened : 0 ≤ e.opened := (of_decide_eq_true he : _ ∧ _).2
  have hentry : (s.afterJoin e hroom).server.entry s.server.currMaxClientNum =
      e.opened :=
    (entry_withEntry _ _ _ _).trans (if_pos rfl)
  refine .inr ⟨?_, ?_, ?_⟩
  · show left e.author (s.handled ++ [e]) = false
    rw [left_append, left_eq_false hnew, not_leavesAs_of_joins he]
    simp
  · rw [hentry]
    exact hopened
  · rw [hentry]
    exact Function.update_self ..

/-- An `INIT` of a new client whose queue is opened. -/
theorem Serves.joined (h : Serves s puts) (hidle : s.pending = [])
    (he : e.joins = true) (hnew : e.author ∉ owners s.handled)
    (hfresh : s.descr e.opened = none)
    (hroom : s.server.currMaxClientNum < maxClients) :
    Serves (s.afterJoin e hroom) puts := by
  have hown : owners (s.afterJoin e hroom).handled =
      owners s.handled ++ [e.author] :=
    owners_append_join he
  refine ⟨?_, hroom, ?_, ?_, .inl ?_, ?_, ?_⟩
  · rw [hown, List.length_append, ← h.counter]
    rfl
  · rw [hown]
    exact List.nodup_append.mpr ⟨h.nodup, List.nodup_singleton _,
      fun c hc d hd hcd => hnew (by
        rwa [hcd, List.mem_singleton.mp hd] at hc)⟩
  · intro k c hk
    rw [hown, List.getElem?_append] at hk
    split at hk
    · rename_i hlt
      rw [← h.counter] at hlt
      exact (h.slot k c hk).afterJoin he hfresh hroom (Nat.ne_of_lt hlt)
    · rename_i hge
      rw [← h.counter] at hge hk
      rw [List.getElem?_singleton] at hk
      split at hk
      · rename_i hzero
        obtain rfl : k = s.server.currMaxClientNum := by omega
        obtain rfl := Option.some.inj hk
        exact slotOf_afterJoin he hnew hroom
      · cases hk
  · intro call hcall
    obtain rfl := List.mem_singleton.mp hcall
    exact ⟨_, _, e.author, rfl, Function.update_self ..⟩
  · intro c
    show _ = expected c (s.handled ++ [e])
    rw [expected_append_join he hnew, ← h.puts_eq hidle c, ← h.counter]
    by_cases hca : c = e.author
    · subst hca
      simp [Service.afterJoin, Service.pendingFor, Call.messageFor]
    · have hac : e.author ≠ c := fun heq => hca heq.symm
      simp [Service.afterJoin, Service.pendingFor, Call.messageFor, hca, hac]
  · intro c
    exact (List.length_filterMap_le _ _).trans (Nat.le_refl 1)

/-- A handled message that lets nobody join, and makes nobody leave who
had not left. -/
theorem Serves.quiet (h : Serves s puts) (he : e.joins = false)
    (hhandled : t.handled = s.handled ++ [e])
    (hcounter : t.server.currMaxClientNum = s.server.currMaxClientNum)
    (hslot : ∀ k c, (owners s.handled)[k]? = some c → t.SlotOf k c)
    (hpending : t.PendingOpen)
    (hputs : ∀ c, puts c ++ t.pendingFor c = expected c t.handled)
    (honce : ∀ c, (t.pendingFor c).length ≤ 1) : Serves t puts := by
  have hown : owners t.handled = owners s.handled := by
    rw [hhandled, owners_append_other he]
  refine ⟨?_, ?_, ?_, ?_, hpending, hputs, honce⟩
  · rw [hcounter, hown, h.counter]
  · rw [hcounter]
    exact h.inRange
  · rw [hown]
    exact h.nodup
  · rw [hown]
    exact hslot

/-- An `INIT` with a name that cannot be opened. The entry that is written
is behind all slots. -/
theorem Serves.notOpened (h : Serves s puts) (hidle : s.pending = [])
    (hinit : e.message.type = MsgType.init.code) (hopened : e.opened < 0)
    (hroom : s.server.currMaxClientNum < maxClients) :
    Serves { s with server := s.server.withEntry ⟨_, hroom⟩ e.opened
                    handled := s.handled ++ [e] } puts := by
  have he : e.joins = false := by
    simp [Handled.joins, Joins, hopened]
  have htext : e.isText = false := by
    simp [Handled.isText, hinit, MsgType.code]
  refine h.quiet he rfl rfl ?_ (.inl ?_) ?_ ?_
  · intro k c hk
    have hlt := (List.getElem?_eq_some_iff.mp hk).1
    refine (h.slot k c hk).mono rfl ?_ ?_ fun q hq => hq
    · simp [Handled.leavesAs, hinit, MsgType.code]
    · have hne : k ≠ s.server.currMaxClientNum := by
        rw [h.counter]
        omega
      exact (entry_withEntry _ _ _ _).trans (if_neg hne)
  · intro call hcall
    rw [hidle] at hcall
    cases hcall
  · intro c
    rw [expected_append_other htext he, ← h.puts c]
    rfl
  · exact h.once

/-- A text. -/
theorem Serves.texted (h : Serves s puts) (hidle : s.pending = [])
    (he : e.isText = true) :
    Serves { s with pending := s.server.broadcast e.message
                    handled := s.handled ++ [e] } puts := by
  have hjoins := not_joins_of_isText he
  refine h.quiet hjoins rfl rfl ?_ (.inl ?_) ?_ ?_
  · intro k c hk
    exact (h.slot k c hk).mono rfl (not_leavesAs_of_isText he c) rfl
      fun q hq => hq
  · intro call hcall
    obtain ⟨q, c, rfl, hq⟩ := h.broadcast_open hcall
    exact ⟨q, _, c, rfl, hq⟩
  · intro c
    rw [expected_append_text he, h.puts_eq hidle c, Service.pendingFor,
      h.broadcast_for]
  · intro c
    rw [Service.pendingFor, h.broadcast_for]
    split
    · exact Nat.le_refl 1
    · exact Nat.zero_le 1

/-- A `CLIENT_EXIT` with the number of the client's slot. -/
theorem Serves.exited (h : Serves s puts) (hidle : s.pending = [])
    (hexit : e.message.type = MsgType.clientExit.code) {k : Nat}
    (hk : (owners s.handled)[k]? = some e.author)
    (hin : left e.author s.handled = false) (hrange : k < maxClients) :
    Serves { s with server := s.server.withEntry ⟨k, hrange⟩ (-1)
                    pending := [.close (s.server.entry k)]
                    handled := s.handled ++ [e] } puts := by
  have he : e.joins = false := by
    simp [Handled.joins, Joins, hexit, MsgType.code]
  have htext : e.isText = false := by
    simp [Handled.isText, hexit, MsgType.code]
  have hleaves : e.leavesAs e.author = true := by
    simp [Handled.leavesAs, hexit]
  have hmem : e.author ∈ owners s.handled := List.mem_of_getElem? hk
  have hleft : left e.author (s.handled ++ [e]) = true := by
    rw [left_append, hleaves]
    simp [hmem]
  have hfor : ∀ c, ({ s with
      server := s.server.withEntry ⟨k, hrange⟩ (-1)
      pending := [.close (s.server.entry k)]
      handled := s.handled ++ [e] } : Service C).pendingFor c = [] :=
    fun c => rfl
  refine h.quiet he rfl rfl ?_ (.inr ?_) ?_ ?_
  · intro i c hi
    by_cases hik : i = k
    · -- the slot that gets free
      subst hik
      obtain rfl : e.author = c := Option.some.inj (hk.symm.trans hi)
      exact .inl ⟨hleft, (entry_withEntry _ _ _ _).trans (if_pos rfl)⟩
    · have hother : c ≠ e.author := by
        rintro rfl
        have hlt := (List.getElem?_eq_some_iff.mp hi).1
        exact hik ((List.getElem?_inj hlt h.nodup).mp (hi.trans hk.symm))
      refine (h.slot i c hi).mono rfl ?_ ?_ fun q hq => hq
      · simp [Handled.leavesAs, hother.symm]
      · exact (entry_withEntry _ _ _ _).trans (if_neg hik)
  · rcases h.slot k _ hk with ⟨hgone, -⟩ | ⟨-, -, hdescr⟩
    · rw [hin] at hgone
      cases hgone
    · exact ⟨_, _, rfl, hdescr, hleft⟩
  · intro c
    rw [hfor, List.append_nil, expected_append_other htext he,
      h.puts_eq hidle c]
  · intro c
    exact Nat.zero_le 1

/-- The messages that come from a client that follows its program: `h` has
been handled before. -/
inductive Handled.Due (h : List (Handled C)) (e : Handled C) : Prop where
  | init : e.message.type = MsgType.init.code → e.author ∉ owners h → Due h e
  | text : e.isText = true → Due h e
  | clientExit (k : Nat) : e.message.type = MsgType.clientExit.code →
      e.message.id = k → (owners h)[k]? = some e.author →
      left e.author h = false → Due h e

/-- **Handling a message keeps the invariant.** -/
theorem Serves.dispatch (h : Serves s puts) (hidle : s.pending = [])
    (hdue : e.Due s.handled) {target : Option C}
    (hopen : e.joins = true →
      s.descr e.opened = none ∧ target = some e.author)
    (hstep : s.dispatch e target = some t) : Serves t puts := by
  obtain ⟨server, calls, hok, rfl⟩ := dispatch_eq_some hstep
  cases hdue with
  | init hinit hnew =>
      rw [dispatchMessageType, if_pos hinit] at hok
      by_cases hroom : s.server.currMaxClientNum < maxClients
      · by_cases hopened : 0 ≤ e.opened
        · have he : e.joins = true := by
            simp [Handled.joins, Joins, hinit, hopened]
          rw [handleInitMessage_opened hopened hroom, Except.ok.injEq,
            Prod.mk.injEq] at hok
          obtain ⟨rfl, rfl⟩ := hok
          rw [if_pos he, (hopen he).2]
          exact h.joined hidle he hnew (hopen he).1 hroom
        · have he : e.joins = false := by
            simp [Handled.joins, Joins, hopened]
          rw [handleInitMessage_failed (Int.not_le.mp hopened) hroom,
            Except.ok.injEq, Prod.mk.injEq] at hok
          obtain ⟨rfl, rfl⟩ := hok
          rw [he, if_neg Bool.false_ne_true, ← hidle]
          exact h.notOpened hidle hinit (Int.not_le.mp hopened) hroom
      · rw [handleInitMessage_full _ (Nat.le_of_not_lt hroom)] at hok
        cases hok
  | text he =>
      have htype : e.message.type = MsgType.text.code := of_decide_eq_true he
      rw [dispatchMessageType, if_neg (by simp [htype, MsgType.code]),
        if_pos htype, handleTextMessage_eq h.inRange, Except.ok.injEq,
        Prod.mk.injEq] at hok
      obtain ⟨rfl, rfl⟩ := hok
      rw [not_joins_of_isText he, if_neg Bool.false_ne_true]
      exact h.texted hidle he
  | clientExit k hexit hid hk hin =>
      have hlt := (List.getElem?_eq_some_iff.mp hk).1
      have hrange : k < maxClients := by
        rw [← h.counter] at hlt
        exact Nat.lt_of_lt_of_le hlt h.inRange
      rw [dispatchMessageType, if_neg (by simp [hexit, MsgType.code]),
        if_neg (by simp [hexit, MsgType.code]), if_pos hexit,
        handleClientExitMessage_eq hid hrange, Except.ok.injEq,
        Prod.mk.injEq] at hok
      obtain ⟨rfl, rfl⟩ := hok
      rw [show e.joins = false by
        simp [Handled.joins, Joins, hexit, MsgType.code],
        if_neg Bool.false_ne_true]
      exact h.exited hidle hexit hk hin hrange

end Step

end Sysops.Cw07
