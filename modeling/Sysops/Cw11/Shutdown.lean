import Sysops.Cw11.Conversations

/-!
# The end of the server

What the handler of `SIGINT` in the server sends when nothing disturbs it
(the other thread stands still, no second signal comes, no send fails): on
the connection of every valid entry one `SERVER_SHUTDOWN`, behind which
nothing follows, and nothing on any other, even if two entries have one
socket.
-/

namespace Sysops.Cw11

/-! ## What `cleanup` sends -/

section Cleanup

variable {fds : Int → Option Conn} {c : Conn}

theorem itemsTo_append (c : Conn) (fds : Int → Option Conn)
    (ks ks' : List Call) : itemsTo c fds (ks ++ ks') =
      itemsTo c fds ks ++ itemsTo c (closeFds ks fds) ks' := by
  induction ks generalizing fds with
  | nil => rfl
  | cons k ks ih =>
      cases k with
      | send fd m =>
          rw [List.cons_append, itemsTo, itemsTo, ih, List.append_assoc]
          rfl
      | close fd => exact ih _

/-- The loop over the entries. -/
theorem framesTo_shutdownCalls (env : Env) (slots : Clients)
    (hinj : ∀ d d' c, fds d = some c → fds d' = some c → d = d')
    (l : List (Fin maxClients)) :
    (∃ i ∈ l, (slots i).valid = true ∧ fds (slots i).socket = some c ∧
      framesTo (itemsTo c fds
        (l.flatMap fun i => env.shutdownCalls i (slots i))) =
        [env.serverMessage i .serverShutdown ""]) ∨
    ((∀ i ∈ l, (slots i).valid = true → fds (slots i).socket ≠ some c) ∧
      framesTo (itemsTo c fds
        (l.flatMap fun i => env.shutdownCalls i (slots i))) = []) := by
  induction l generalizing fds with
  | nil => exact .inr ⟨nofun, rfl⟩
  | cons i l ih =>
      rw [List.flatMap_cons, Env.shutdownCalls]
      by_cases hi : (slots i).valid = true
      · rw [if_pos hi]
        simp only [List.cons_append, List.nil_append, itemsTo, framesTo_append]
        by_cases hc : fds (slots i).socket = some c
        · -- it is closed behind the first message
          have hclosed : ∀ d, Function.update fds (slots i).socket none d ≠
              some c := by
            intro d hd
            by_cases hdi : d = (slots i).socket
            · rw [hdi, Function.update_self] at hd
              cases hd
            · rw [Function.update_of_ne hdi] at hd
              exact hdi (hinj _ _ c hd hc)
          refine .inl ⟨i, List.mem_cons_self, hi, hc, ?_⟩
          rw [if_pos hc, itemsTo_closed hclosed]
          rfl
        · rw [if_neg hc]
          have hinj' : ∀ d d' e,
              Function.update fds (slots i).socket none d = some e →
              Function.update fds (slots i).socket none d' = some e →
              d = d' :=
            fun d d' e hd hd' =>
              hinj d d' e (of_update_none hd) (of_update_none hd')
          have hkept : ∀ d, fds d = some c →
              Function.update fds (slots i).socket none d = some c := by
            intro d hd
            rw [Function.update_of_ne, hd]
            rintro rfl
            exact hc hd
          rcases ih hinj' with ⟨j, hj, hvalid, hjc, heq⟩ | ⟨hnone, heq⟩
          · exact .inl ⟨j, List.mem_cons_of_mem i hj, hvalid,
              of_update_none hjc, heq⟩
          · refine .inr ⟨?_, heq⟩
            intro j hj hvalid hjc
            rcases List.mem_cons.mp hj with rfl | hj
            · exact hc hjc
            · exact hnone j hj hvalid (hkept _ hjc)
      · rw [if_neg hi, List.nil_append]
        rcases ih hinj with ⟨j, hj, hrest⟩ | ⟨hnone, heq⟩
        · exact .inl ⟨j, List.mem_cons_of_mem i hj, hrest⟩
        · refine .inr ⟨?_, heq⟩
          intro j hj hvalid
          rcases List.mem_cons.mp hj with rfl | hj
          · exact absurd hvalid hi
          · exact hnone j hj hvalid

theorem framesTo_shutDown (s : Threads) (hs : Sound s) (env : Env) (c : Conn) :
    (∃ i, (s.server.slots i).valid = true ∧
      s.fds (s.server.slots i).socket = some c ∧
      framesTo ((s.shutDown env).log c) = framesTo (s.log c) ++
        [env.serverMessage i .serverShutdown ""]) ∨
    ((∀ i, (s.server.slots i).valid = true →
        s.fds (s.server.slots i).socket ≠ some c) ∧
      framesTo ((s.shutDown env).log c) = framesTo (s.log c)) := by
  have hlog : framesTo ((s.shutDown env).log c) = framesTo (s.log c) ++
      framesTo (itemsTo c s.fds ((List.finRange maxClients).flatMap fun i =>
        env.shutdownCalls i (s.server.slots i))) := by
    rw [Threads.shutDown]
    dsimp only
    rw [itemsTo_append, framesTo_append, framesTo_append]
    exact congrArg _ (List.append_nil _)
  rw [hlog]
  rcases framesTo_shutdownCalls env s.server.slots
      (c := c) hs.injective (List.finRange maxClients) with
    ⟨i, -, hi, hic, heq⟩ | ⟨hnone, heq⟩
  · exact .inl ⟨i, hi, hic, by rw [heq]⟩
  · exact .inr ⟨fun i => hnone i (List.mem_finRange i), by
      rw [heq, List.append_nil]⟩

end Cleanup

/-! ## Runs -/

section Runs

variable {host : ByteOrder} {hosts : Conn → ByteOrder} {s t u : ChatRoom}
  {v : Threads} {env : Env} {c : Conn}

/-- The server has told nobody that it ends. -/
structure Going (s : Threads) : Prop where
  sound : Sound s
  said : ∀ c, ∀ m ∈ framesTo (s.log c), m.is .serverShutdown = false
  pending : ∀ fd m, Call.send fd m ∈ s.main.pending →
    m.is .serverShutdown = false

theorem Going.append {s : Threads} {ks : List Call} (hs : Going s)
    (hks : ∀ d msg, Call.send d msg ∈ ks → msg.is .serverShutdown = false)
    (c : Conn) : ∀ m ∈ framesTo (s.log c ++ itemsTo c s.fds ks),
      m.is .serverShutdown = false := by
  intro m hm
  rw [framesTo_append, List.mem_append] at hm
  rcases hm with hm | hm
  · exact hs.said c m hm
  · obtain ⟨d, hk, -⟩ := mem_framesTo_itemsTo hm
    exact hks d m hk

theorem Going.step {s : Threads} {e : Turn} (hs : Going s)
    (h : s.step e = some v) : Going v := by
  have hsound := sound_step hs.sound h
  cases Threads.step_took h with
  | accept | hangup => exact ⟨hsound, hs.said, hs.pending⟩
  | @receive env fd m c hmain hc =>
      refine ⟨hsound, fun d => ?_, nofun⟩
      by_cases hd : d = c
      · subst hd
        simp only [Function.update_self, framesTo_append, framesTo_received,
          List.append_nil]
        exact hs.said d
      · simp only [Function.update_of_ne hd]
        exact hs.said d
  | @locked env fd m u ks hmain hlocked =>
      refine ⟨hsound, hs.append fun d msg hk => ?_, fun d msg hk => ?_⟩
      · obtain ⟨d', msg', heq, hmsg⟩ := hlocked.chats rfl _ hk
        obtain ⟨-, rfl⟩ := Call.send.inj heq
        exact MessageT.is_other hmsg (by decide)
      · rw [Main.pending_calls] at hk
        rcases hlocked.later with ⟨-, reply, rfl, hreply⟩ | ⟨-, hlist⟩
        · obtain ⟨-, rfl⟩ := Call.send.inj (List.mem_singleton.mp hk)
          exact hreply.elim (MessageT.is_other · (by decide))
            (MessageT.is_other · (by decide))
        · exact MessageT.is_other (hlist d msg hk).2 (by decide)
  | @call k ks hmain =>
      have hpending := hs.pending
      rw [hmain] at hpending
      refine ⟨hsound, hs.append fun d msg hk => hpending d msg ?_,
        fun d msg hk => hpending d msg ?_⟩
      · rw [List.mem_singleton.mp hk]
        exact List.mem_cons_self
      · rw [Main.pending_calls] at hk
        exact List.mem_cons_of_mem k hk
  | firstPass _ hcalls =>
      refine ⟨hsound, hs.append fun d msg hk => ?_, hs.pending⟩
      obtain ⟨i, -, heq⟩ := (hcalls _).mp hk
      obtain ⟨-, rfl⟩ := Call.send.inj heq
      rfl
  | secondPass _ hcalls =>
      refine ⟨hsound, hs.append fun d msg hk => ?_, hs.pending⟩
      obtain ⟨i, -, -, heq⟩ := hcalls _ hk
      cases heq

theorem going_of_reachable (h : (chatRoom host hosts).Reachable s) :
    s.running = true → Going s.server := by
  refine h.invariant (I := fun s => s.running = true → Going s.server) ?_ ?_
  · rintro s ⟨serverSocket, epollFd, user, stdin, rfl⟩ _
    exact ⟨⟨fun _ _ => rfl, nofun, nofun, nofun⟩, nofun, nofun⟩
  · rintro s e t hs _ ⟨-, hst⟩ hrunning
    cases e with
    | server e =>
        simp only [ChatRoom.next] at hst
        split at hst
        · rename_i hrun
          obtain ⟨v, hv, rfl⟩ := Option.map_eq_some_iff.mp hst
          exact (hs hrun).step hv
        · cases hst
    | sigint env =>
        cases ChatRoom.next_stepped hst with
        | sigint => cases hrunning
    | client c a =>
        cases ChatRoom.next_stepped hst with
        | client => exact hs hrunning

/-- A server that has ended stays as it is. -/
theorem server_of_ended (hs : s.running = false)
    (h : ((chatRoom host hosts).startingAt s).Reachable t) :
    t.running = false ∧ t.server = s.server := by
  refine System.Reachable.keeps
    (I := fun t => t.running = false ∧ t.server = s.server) ?_ ⟨hs, rfl⟩ h
  rintro t e u ⟨hrunning, hserver⟩ ⟨-, hst⟩
  cases ChatRoom.next_stepped hst with
  | server hrun | sigint hrun =>
      rw [hrunning] at hrun
      cases hrun
  | client => exact ⟨hrunning, hserver⟩

/-- **The last thing that a server says**: whatever is in its table when it
is interrupted, where its handler runs undisturbed, on the connection of every valid entry the message behind
all others is one `SERVER_SHUTDOWN`, on the other connections there is none,
and nothing comes after it in any run. -/
theorem shutdown_said_last (h : (chatRoom host hosts).Reachable s)
    (hstep : (chatRoom host hosts).step s (.sigint env) t)
    (hlater : ((chatRoom host hosts).startingAt t).Reachable u) (c : Conn) :
    (∀ m ∈ framesTo (s.server.log c), m.is .serverShutdown = false) ∧
    (((∃ i, (s.server.server.slots i).valid = true ∧
        s.server.fds (s.server.server.slots i).socket = some c) ∧
      ∃ m, m.is .serverShutdown = true ∧
        framesTo (u.server.log c) = framesTo (s.server.log c) ++ [m]) ∨
    ((∀ i, (s.server.server.slots i).valid = true →
        s.server.fds (s.server.server.slots i).socket ≠ some c) ∧
      framesTo (u.server.log c) = framesTo (s.server.log c))) := by
  cases ChatRoom.next_stepped hstep.2 with
  | sigint hrunning =>
      have hgoing := going_of_reachable h hrunning
      obtain ⟨-, hserver⟩ := server_of_ended rfl hlater
      refine ⟨hgoing.said c, ?_⟩
      rw [hserver]
      rcases framesTo_shutDown s.server hgoing.sound env c with
        ⟨i, hi, hic, heq⟩ | hnone
      · exact .inl ⟨⟨i, hi, hic⟩, _, rfl, heq⟩
      · exact .inr hnone

/-- With a client that is registered. -/
theorem shutdown_said_last_one_client : ∃ s t : ChatRoom,
    (chatRoom .little littleEndian).step s (.sigint Env.zeros) t ∧
    (∀ m ∈ framesTo (s.server.log 0), m.is .serverShutdown = false) ∧
    ∃ m, m.is .serverShutdown = true ∧
      framesTo (t.server.log 0) = framesTo (s.server.log 0) ++ [m] := by
  obtain ⟨s, hs, hp⟩ := System.ReachableIf.exists_of_runLabels
    (S := chatRoom .little littleEndian) (C := fun _ _ => True)
    (ChatRoom.nextExpected _ _) ChatRoom.nextExpected_step
    (RoomEvent.joins 0 5 "c")
    (p := fun s => (s.next (.sigint Env.zeros)).isSome &&
      ((s.server.server.slots 0).valid &&
        decide (s.server.fds (s.server.server.slots 0).socket = some 0)))
    (.init (chatRoom_init _ _ (fun _ => UserEnv.zeros) fun _ => []))
    (by decide +kernel)
  simp only [Bool.and_eq_true, decide_eq_true_eq] at hp
  obtain ⟨hsome, hvalid, hopen⟩ := hp
  obtain ⟨t, ht⟩ := Option.isSome_iff_exists.mp hsome
  have hstep : (chatRoom .little littleEndian).step s (.sigint Env.zeros) t :=
    ⟨trivial, ht⟩
  obtain ⟨hbefore, ⟨-, hlast⟩ | ⟨hnone, -⟩⟩ :=
    shutdown_said_last hs hstep (System.Reachable.refl _ t) 0
  · exact ⟨s, t, hstep, hbefore, hlast⟩
  · exact absurd hopen (hnone 0 hvalid)

end Runs

end Sysops.Cw11
