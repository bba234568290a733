import Sysops.Cw07.Server
import Sysops.Library.Window

/-!
# What the chat server has handled

The messages that the server has taken from its queue, in their order, and
what a client is to get of them: the number of its slot and then the texts
between its `INIT` and its `CLIENT_EXIT`. Everything here is read off the
sequence of messages alone, never off the table or the queues.
-/

namespace Sysops.Cw07

/-- A handled message, with the client that sent it and the result that
`mq_open` had if it is an `INIT`. -/
structure Handled (C : Type) where
  author : C
  message : MsgT
  opened : Int

namespace Handled

variable {C : Type}

/-- The `INIT` of a client whose queue could be opened. -/
def joins (e : Handled C) : Bool := Joins (e.message, e.opened)

def isText (e : Handled C) : Bool := e.message.type = MsgType.text.code

variable [DecidableEq C]

def joinsAs (c : C) (e : Handled C) : Bool := e.joins && e.author = c

/-- The `CLIENT_EXIT` of a client. -/
def leavesAs (c : C) (e : Handled C) : Bool :=
  e.message.type = MsgType.clientExit.code && e.author = c

end Handled

section Record

variable {C : Type}

/-- The clients that have joined, in the order of their slots. -/
def owners (h : List (Handled C)) : List C :=
  (h.filter Handled.joins).map Handled.author

def texts (h : List (Handled C)) : List MsgT :=
  (h.filter Handled.isText).map Handled.message

variable [DecidableEq C]

/-- The `CLIENT_EXIT` of a client that had joined. -/
def left (c : C) (h : List (Handled C)) : Bool :=
  Window.closed (Handled.joinsAs c) (Handled.leavesAs c) h

/-- What is handled between `INIT` and `CLIENT_EXIT` of a client. -/
def between (c : C) (h : List (Handled C)) : List (Handled C) :=
  Window.window (Handled.joinsAs c) (Handled.leavesAs c) h

/-- What is to be put into the queue of a client. -/
def expected (c : C) (h : List (Handled C)) : List MsgT :=
  if c ∈ owners h then
    .withoutText .receiveId ((owners h).idxOf c) :: texts (between c h)
  else []

end Record

/-! ## One message more -/

section Entry

variable {C : Type} {h : List (Handled C)} {e : Handled C}

theorem owners_append_join (he : e.joins = true) :
    owners (h ++ [e]) = owners h ++ [e.author] := by
  simp [owners, he]

theorem owners_append_other (he : e.joins = false) :
    owners (h ++ [e]) = owners h := by
  simp [owners, he]

theorem owners_prefix (h : List (Handled C)) (e : Handled C) :
    owners h <+: owners (h ++ [e]) := by
  cases he : e.joins with
  | true => exact ⟨_, (owners_append_join he).symm⟩
  | false => exact owners_append_other he ▸ List.prefix_rfl

/-- A slot keeps its owner. -/
theorem getElem?_owners_append {c : C} {k : Nat} (hk : (owners h)[k]? = some c)
    (e : Handled C) : (owners (h ++ [e]))[k]? = some c := by
  obtain ⟨l, hl⟩ := owners_prefix h e
  have hlt := (List.getElem?_eq_some_iff.mp hk).1
  rw [← hl, List.getElem?_append_left hlt, hk]

theorem texts_append (h g : List (Handled C)) :
    texts (h ++ g) = texts h ++ texts g := by
  simp [texts]

theorem not_joins_of_isText (he : e.isText = true) : e.joins = false := by
  have htype : e.message.type = MsgType.text.code := of_decide_eq_true he
  simp [Handled.joins, Joins, htype, MsgType.code]

end Entry

section Record

variable {C : Type} [DecidableEq C] {c : C} {h : List (Handled C)}
  {e : Handled C}

theorem mem_owners_iff : c ∈ owners h ↔ h.any (Handled.joinsAs c) = true := by
  simp only [owners, List.mem_map, List.mem_filter, List.any_eq_true,
    Handled.joinsAs, Bool.and_eq_true, decide_eq_true_eq]
  constructor
  · rintro ⟨e, ⟨he, hjoins⟩, hc⟩
    exact ⟨e, he, hjoins, hc⟩
  · rintro ⟨e, he, hjoins, hc⟩
    exact ⟨e, ⟨he, hjoins⟩, hc⟩

theorem not_mem_owners_iff :
    c ∉ owners h ↔ h.any (Handled.joinsAs c) = false := by
  rw [mem_owners_iff, Bool.not_eq_true]

theorem left_eq_false (hc : c ∉ owners h) : left c h = false :=
  Window.closed_eq_false (not_mem_owners_iff.mp hc)

theorem left_append : left c (h ++ [e]) =
    (left c h || (decide (c ∈ owners h) && e.leavesAs c)) := by
  rw [left, Window.closed_append, left]
  congr 2
  rw [Bool.eq_iff_iff, decide_eq_true_iff, mem_owners_iff]

/-- Who has left has sent a `CLIENT_EXIT`. -/
theorem any_leavesAs_of_left (hleft : left c h = true) :
    h.any (Handled.leavesAs c) = true := by
  obtain ⟨e, he, hleaves⟩ := List.any_eq_true.mp hleft
  have hmem : e ∈ h :=
    ((List.tail_suffix _).trans (List.dropWhile_suffix _)).subset he
  exact List.any_eq_true.mpr ⟨e, hmem, hleaves⟩

theorem not_leavesAs_of_isText (he : e.isText = true) (c : C) :
    e.leavesAs c = false := by
  have htype : e.message.type = MsgType.text.code := of_decide_eq_true he
  simp [Handled.leavesAs, htype, MsgType.code]

theorem not_leavesAs_of_joins (he : e.joins = true) (c : C) :
    e.leavesAs c = false := by
  have htype : e.message.type = MsgType.init.code :=
    (of_decide_eq_true he : _ ∧ _).1
  simp [Handled.leavesAs, htype, MsgType.code]

theorem texts_between_append (hc : c ∈ owners h) (e : Handled C) :
    texts (between c (h ++ [e])) = texts (between c h) ++
      if e.isText && !left c h then [e.message] else [] := by
  rw [between, Window.window_append (mem_owners_iff.mp hc), texts_append]
  congr 1
  change texts (if left c h || e.leavesAs c then [] else [e]) = _
  cases he : e.isText with
  | true =>
      rw [not_leavesAs_of_isText he]
      cases left c h <;> simp [texts, he]
  | false =>
      split <;> simp [texts, he]

theorem idxOf_append (hc : c ∈ owners h) (e : Handled C) :
    (owners (h ++ [e])).idxOf c = (owners h).idxOf c := by
  obtain ⟨l, hl⟩ := owners_prefix h e
  rw [← hl, List.idxOf_append_of_mem hc]

/-- A text is for everyone who has joined and not left. -/
theorem expected_append_text (he : e.isText = true) (c : C) :
    expected c (h ++ [e]) = expected c h ++
      if c ∈ owners h ∧ left c h = false then [e.message] else [] := by
  have hown := owners_append_other (h := h) (not_joins_of_isText he)
  by_cases hc : c ∈ owners h
  · rw [expected, hown, if_pos hc, expected, if_pos hc,
      texts_between_append hc, he]
    cases left c h <;> simp [hc]
  · rw [expected, hown, if_neg hc, expected, if_neg hc, if_neg (by simp [hc])]
    rfl

/-- A client that joins is told its number, which is the next one. -/
theorem expected_append_join (he : e.joins = true)
    (hnew : e.author ∉ owners h) (c : C) :
    expected c (h ++ [e]) = expected c h ++
      if c = e.author then
        [.withoutText .receiveId ((owners h).length : Nat)] else [] := by
  have hown := owners_append_join (h := h) he
  have htext : e.isText = false := by
    cases ht : e.isText with
    | false => rfl
    | true =>
        rw [not_joins_of_isText ht] at he
        cases he
  by_cases hc : c ∈ owners h
  · have hne : c ≠ e.author := fun heq => hnew (heq ▸ hc)
    rw [expected, if_pos (hown ▸ List.mem_append_left _ hc), expected,
      if_pos hc, texts_between_append hc, idxOf_append hc, if_neg hne, htext]
    simp
  · rw [expected, hown, expected, if_neg hc]
    by_cases hca : c = e.author
    · subst hca
      rw [if_pos (by simp), if_pos rfl, List.idxOf_append_of_notMem hc,
        between, Window.window_append_of_not (not_mem_owners_iff.mp hc)]
      simp [texts]
    · rw [if_neg, if_neg hca]
      · rfl
      · simpa [hc] using hca

/-- Nothing else is sent to anyone. -/
theorem expected_append_other (htext : e.isText = false)
    (hjoins : e.joins = false) (c : C) :
    expected c (h ++ [e]) = expected c h := by
  have hown := owners_append_other (h := h) hjoins
  by_cases hc : c ∈ owners h
  · rw [expected, hown, if_pos hc, expected, if_pos hc,
      texts_between_append hc, htext]
    simp
  · rw [expected, hown, if_neg hc, expected, if_neg hc]

theorem expected_eq_nil (hc : c ∉ owners h) : expected c h = [] := by
  rw [expected, if_neg hc]

/-- What a client gets is one piece of what all get. -/
theorem texts_between_isInfix (c : C) (h : List (Handled C)) :
    texts (between c h) <:+: texts h :=
  ((Window.window_isInfix _ _ h).filter _).map _

end Record

end Sysops.Cw07
