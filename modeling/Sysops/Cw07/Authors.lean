import Sysops.Cw07.Broadcast

/-!
# Whose text it is

A client signs its texts with the number of its slot. No two clients have
one number, so that the number in a text says who typed it.
-/

namespace Sysops.Cw07

/-! ## What a client has signed -/

/-- From its loop on a client gets to no other place than those behind it,
and there it adds to its accepted texts in one place, under its number. -/
theorem accepted_act {x y : Client} {name : Bytes maxMsgBufSize}
    {action : Action} {effect : Effect}
    (h : x.act name action = some (effect, y)) :
    (x.place.hasForked = true → y.place.hasForked = true) ∧
      (y.accepted = x.accepted ∨ x.place.hasForked = true ∧
        ∃ m : MsgT, m.id = x.id ∧ y.accepted = x.accepted ++ [m]) := by
  cases action with
  | main memory stdin =>
      simp only [Client.act, Client.main] at h
      cases hp : x.place <;>
        simp only [hp, Option.some.injEq, Prod.mk.injEq, reduceCtorEq] at h
      case receiveId =>
        obtain ⟨r, hr, heq⟩ := Option.map_eq_some_iff.mp h
        obtain ⟨z, -, rfl⟩ := Option.map_eq_some_iff.mp hr
        obtain ⟨rfl, rfl⟩ := Prod.mk.inj heq
        exact ⟨fun hx => absurd hx (by decide), .inl rfl⟩
      case sendText =>
        -- the only place where a text is accepted
        obtain ⟨rfl, rfl⟩ := h
        exact ⟨fun _ => rfl, .inr ⟨rfl, _, rfl, rfl⟩⟩
      case test | readLine =>
        obtain ⟨rfl, rfl⟩ := h
        refine ⟨fun _ => ?_, .inl rfl⟩
        dsimp only
        split <;> rfl
      all_goals
        obtain ⟨rfl, rfl⟩ := h
        refine ⟨fun hx => ?_, .inl rfl⟩
        first
          | rfl
          | cases hx
  | listener =>
      obtain ⟨z, hz, heq⟩ := Option.map_eq_some_iff.mp h
      obtain ⟨rfl, rfl⟩ := Prod.mk.inj heq
      unfold Client.listen at hz
      cases hl : x.listener <;>
        simp only [hl, Option.some.injEq, reduceCtorEq] at hz
      case test =>
        subst hz
        exact ⟨id, .inl rfl⟩
      case receive =>
        obtain ⟨r, hr, rfl⟩ := Option.map_eq_some_iff.mp hz
        obtain ⟨v, -, rfl⟩ := Option.map_eq_some_iff.mp hr
        exact ⟨id, .inl rfl⟩
  | forkFails =>
      simp only [Client.act] at h
      split at h
      · rename_i hfork
        obtain ⟨rfl, rfl⟩ := Prod.mk.inj (Option.some.inj h)
        rw [hfork]
        exact ⟨fun hx => absurd hx (by decide), .inl rfl⟩
      · cases h
  | signal =>
      obtain ⟨z, hz, heq⟩ := Option.map_eq_some_iff.mp h
      obtain ⟨rfl, rfl⟩ := Prod.mk.inj heq
      unfold Client.signal at hz
      cases hp : x.place <;>
        simp only [hp, Option.some.injEq, reduceCtorEq] at hz
      all_goals
        subst hz
        refine ⟨fun hx => ?_, .inl rfl⟩
        first
          | rfl
          | cases hx
  | signalListener =>
      obtain ⟨z, hz, heq⟩ := Option.map_eq_some_iff.mp h
      obtain ⟨rfl, rfl⟩ := Prod.mk.inj heq
      unfold Client.signalListener at hz
      cases hl : x.listener <;>
        simp only [hl, Option.some.injEq, reduceCtorEq] at hz
      all_goals
        subst hz
        exact ⟨id, .inl rfl⟩

theorem Place.hasId_of_hasForked {p : Place} (h : p.hasForked = true) :
    p.hasId = true := by
  cases p <;> first
    | rfl
    | cases h

section Authors

variable {C : Type} [DecidableEq C] {clientQName : C → Bytes maxMsgBufSize}
  {w w' : World C} {c d : C} {m : MsgT}

/-- The slot of a client, by its number. -/
def World.Slot (w : World C) (c : C) (id : Int) : Prop :=
  ∃ k : Nat, (owners w.service.handled)[k]? = some c ∧ id = k

omit [DecidableEq C] in
/-- A number is that of one client. -/
theorem slot_owner {id : Int} (hc : w.Slot c id) (hd : w.Slot d id) :
    c = d := by
  obtain ⟨k, hk, rfl⟩ := hc
  obtain ⟨k', hk', hkk⟩ := hd
  obtain rfl := Int.ofNat_inj.mp hkk
  exact Option.some.inj (hk.symm.trans hk')

/-- And a client has one number. -/
theorem Inv.slot_id (h : Inv clientQName w) {id id' : Int}
    (hid : w.Slot c id) (hid' : w.Slot c id') : id = id' := by
  obtain ⟨k, hk, rfl⟩ := hid
  obtain ⟨k', hk', rfl⟩ := hid'
  have hlt := (List.getElem?_eq_some_iff.mp hk).1
  rw [(List.getElem?_inj hlt h.serves.nodup).mp (hk.trans hk'.symm)]

/-- Every text is signed with the slot of its author, who is in its loop or
behind it. -/
def Signed (w : World C) : Prop :=
  ∀ a, ∀ m ∈ (w.clients a).accepted,
    w.Slot a m.id ∧ (w.clients a).place.hasForked = true

omit [DecidableEq C] in
/-- The slots in use stay, and nothing is accepted. -/
theorem Signed.mono (hs : Signed w)
    (hslots : ∀ a id, w.Slot a id → w'.Slot a id)
    (hsame : ∀ a, (w'.clients a).accepted = (w.clients a).accepted ∧
      (w'.clients a).place = (w.clients a).place) : Signed w' := by
  intro a m hm
  rw [(hsame a).1] at hm
  obtain ⟨hslot, hforked⟩ := hs a m hm
  refine ⟨hslots a m.id hslot, ?_⟩
  rw [(hsame a).2]
  exact hforked

theorem Signed.act (hs : Signed w) (h : Inv clientQName w) {action : Action}
    (hact : w.act clientQName c action = some w') : Signed w' := by
  obtain ⟨effect, x, hx, hclients, hservice, -, -⟩ := act_eq_some hact
  have hslots : ∀ a id, w.Slot a id → w'.Slot a id := by
    intro a id hslot
    rwa [World.Slot, hservice]
  intro a m hm
  rw [hclients] at hm ⊢
  -- only the client that acts can have signed anything
  by_cases hac : a = c
  · subst hac
    rw [Function.update_self] at hm ⊢
    obtain ⟨hstays, hadded⟩ := accepted_act hx
    have hold : m ∈ (w.clients a).accepted →
        w'.Slot a m.id ∧ x.place.hasForked = true := by
      intro hm
      obtain ⟨hslot, hforked⟩ := hs a m hm
      exact ⟨hslots a m.id hslot, hstays hforked⟩
    rcases hadded with hsame | ⟨hforked, text, htext, hadds⟩
    · exact hold (hsame ▸ hm)
    · rw [hadds, List.mem_append, List.mem_singleton] at hm
      rcases hm with hm | rfl
      · exact hold hm
      · refine ⟨hslots a m.id ?_, hstays hforked⟩
        rw [htext]
        exact (h.follows a).id (Place.hasId_of_hasForked hforked)
  · rw [Function.update_of_ne hac] at hm ⊢
    obtain ⟨hslot, hforked⟩ := hs a m hm
    exact ⟨hslots a m.id hslot, hforked⟩

theorem Signed.step (hs : Signed w) (h : Inv clientQName w) {e : Event C}
    (hstep : w.step clientQName e = some w') : Signed w' := by
  cases e with
  | client c action => exact hs.act h hstep
  | server opened =>
      cases h.serverStep hstep with
      | take hidle htake =>
          obtain ⟨p, l, queue, service, -, -, hdispatch, rfl⟩ :=
            take_eq_some htake
          obtain ⟨server, calls, -, rfl⟩ := dispatch_eq_some hdispatch
          -- the server only appends to the slots
          refine hs.mono ?_ fun _ => ⟨rfl, rfl⟩
          rintro a id ⟨k, hk, rfl⟩
          exact ⟨k, getElem?_owners_append hk _, rfl⟩
      | send q message rest d hpending hq _ hw' =>
          subst hw'
          refine hs.mono (fun _ _ => id) fun a => ?_
          show (Function.update w.clients d _ a).accepted = _ ∧
            (Function.update w.clients d _ a).place = _
          by_cases had : a = d
          · rw [had, Function.update_self]
            exact ⟨rfl, rfl⟩
          · rw [Function.update_of_ne had]
            exact ⟨rfl, rfl⟩
      | close q rest hpending hw' =>
          subst hw'
          exact hs.mono (fun _ _ => id) fun _ => ⟨rfl, rfl⟩

theorem signed_of_reachable (h : (chat clientQName).Reachable w) :
    Inv clientQName w ∧ Signed w := by
  refine h.invariant (I := fun w => Inv clientQName w ∧ Signed w) ?_ ?_
  · rintro w rfl
    exact ⟨.initial, fun a m hm => absurd hm List.not_mem_nil⟩
  · rintro w e w' ⟨hw, hs⟩ - hstep
    exact ⟨hw.step hstep, hs.step hw hstep⟩

/-- A text that a client has received was accepted from somebody. -/
theorem Inv.exists_author (h : Inv clientQName w)
    (hm : m ∈ (w.clients c).received)
    (htext : m.type = MsgType.text.code) :
    ∃ a, m ∈ (w.clients a).accepted := by
  have hputs : m ∈ (w.clients c).puts := by
    rw [← (h.follows c).fifo]
    exact List.mem_append_left _ hm
  have hexpected := (h.puts_prefix c).subset hputs
  rw [expected] at hexpected
  split at hexpected
  case isFalse => cases hexpected
  case isTrue =>
    rcases List.mem_cons.mp hexpected with rfl | hbetween
    · -- the number of its slot is no text
      cases htext
    · have hhandled := (texts_between_isInfix c _).subset hbetween
      obtain ⟨e, he, rfl⟩ := List.mem_map.mp hhandled
      obtain ⟨hmem, hisText⟩ := List.mem_filter.mp he
      refine ⟨e.author, ?_⟩
      rw [← (h.follows e.author).accepted]
      refine List.mem_append_left _ (List.mem_map_of_mem ?_)
      exact List.mem_filter.mpr
        ⟨List.mem_filter.mpr ⟨hmem, decide_eq_true rfl⟩, hisText⟩

/-- **The number in a text names its author**: no two clients use one
number, and a text that a client receives was accepted from a client that
has, of all that have one, the number in it. -/
theorem text_names_author (hreach : (chat clientQName).Reachable w) :
    (∀ c d, (w.clients c).place.hasId = true →
      (w.clients d).place.hasId = true →
      (w.clients c).id = (w.clients d).id → c = d) ∧
    ∀ c, ∀ m ∈ (w.clients c).received, m.type = MsgType.text.code →
      ∃ a, m ∈ (w.clients a).accepted ∧
        (w.clients a).place.hasId = true ∧
        ∀ d, (w.clients d).place.hasId = true →
          ((w.clients d).id = m.id ↔ d = a) := by
  obtain ⟨h, hs⟩ := signed_of_reachable hreach
  have hslot : ∀ d, (w.clients d).place.hasId = true →
      w.Slot d (w.clients d).id := fun d hd => (h.follows d).id hd
  constructor
  · intro c d hc hd heq
    exact slot_owner (hslot c hc) (heq ▸ hslot d hd)
  · intro c m hm htext
    obtain ⟨a, ha⟩ := h.exists_author hm htext
    obtain ⟨hsigned, hforked⟩ := hs a m ha
    refine ⟨a, ha, Place.hasId_of_hasForked hforked, fun d hd => ?_⟩
    constructor
    · intro heq
      exact slot_owner (hslot d hd) (heq ▸ hsigned)
    · rintro rfl
      exact h.slot_id (hslot d hd) hsigned

end Authors

/-- Two clients. The second receives its own number, and then a text with
that of the first. -/
theorem text_names_author_two : ∃ w : World Bool,
    (chat fun c => Bytes.ofList _ [c.toNat.toUInt8]).Reachable w ∧
      (w.clients true).received.map MsgT.id = [1, 0] ∧
      ∀ c d, (w.clients c).place.hasId = true →
        (w.clients d).place.hasId = true →
        (w.clients c).id = (w.clients d).id → c = d := by
  let main (c : Bool) (stdin : List Byte) : Event Bool :=
    .client c (.main (Bytes.ofList _ []) stdin)
  obtain ⟨w, hw, hreceived⟩ := System.ReachableIf.exists_of_runLabels
    (S := chat fun c : Bool => Bytes.ofList _ [c.toNat.toUInt8])
    (C := fun _ _ => True) (World.step _) (fun _ _ _ h => h)
    ([main false [], main false [], main true [], main true [], .server 3,
      .server 0, .server 4, .server 0] ++
      List.replicate 4 (main false []) ++ [main false [97, 10], main false []] ++
      List.replicate 3 (main true []) ++ [.client true .listener] ++
      List.replicate 3 (.server 0) ++ [.client true .listener])
    (p := fun w => decide ((w.clients true).received.map MsgT.id = [1, 0]))
    (s := World.initial Bool) (.init rfl) (by decide +kernel)
  exact ⟨w, hw, of_decide_eq_true hreceived, (text_names_author hw).1⟩

end Sysops.Cw07
