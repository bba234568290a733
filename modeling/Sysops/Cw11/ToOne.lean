import Sysops.Cw11.PrivateMessage

/-!
# `CLIENT_TO_ONE` on any payload

What `handle_to_one_message` does with any 512 bytes. Its two calls of
`strtok` need a terminator in the field, and the copy behind them needs a
text: nothing of this is tested.
-/

namespace Sysops.Cw11

open SlotM

/-! ## What a payload is to do -/

/-- The text in the field. -/
def fieldText (message : Bytes maxMessageText) : List Byte :=
  cstr maxMessageText message.toList

/-- The first word of the text is the name of the entry, as far as the
`MAX_CLIENT_NAME` bytes of a name go. -/
def Addressed (message : Bytes maxMessageText) (c : ClientT) : Prop :=
  cstr maxClientName c.name.toList =
    (firstWord 32 (fieldText message)).take maxClientName

/-- The safety of the handler with the table `t` and the mutex free. -/
structure ToOneSafe (env : Env) (t : Clients) (sender : Bytes maxClientName)
    (message : Bytes maxMessageText) : Prop where
  /-- The field can be split with nothing readable behind it. -/
  inside : ∃ r, splitToOne { env with stack := [] } message = .ok r
  notNull : (handleToOneMessage env sender message).run ⟨t, false, []⟩ ≠
    .error .nullPointer
  returns : ∃ sends, (handleToOneMessage env sender message).run
      ⟨t, false, []⟩ = .ok ((), ⟨t, false, sends⟩) ∧
    sends.length ≤ 1 ∧
    (sends.length = 1 ↔ behindWord 32 (fieldText message) ≠ [] ∧
      ∃ i, (t i).valid = true ∧ Addressed message (t i))

/-! ## Splitting -/

section Split

variable {env : Env} {message : Bytes maxMessageText}

theorem fieldText_eq {word junk : List Byte}
    (hmessage : message.toList = word ++ 0 :: junk) (hnul : 0 ∉ word) :
    fieldText message = word := by
  have hsize : message.toList.length = maxMessageText := message.toList_length
  rw [hmessage, List.length_append] at hsize
  rw [fieldText, hmessage, cstr_terminated hnul,
    List.take_of_length_le (by omega)]

/-- The text in front of the first terminator. -/
theorem exists_terminated (h : 0 ∈ message.toList) :
    ∃ junk, message.toList = fieldText message ++ 0 :: junk ∧
      0 ∉ fieldText message := by
  obtain ⟨word, rest, hmessage, hword, hrest⟩ :=
    exists_word [0] message.toList
  have hnul : 0 ∉ word := fun h => hword 0 h (by simp)
  rcases hrest with rfl | ⟨c, junk, rfl, hc⟩
  · rw [List.append_nil] at hmessage
    exact absurd (hmessage ▸ h) hnul
  · obtain rfl := List.mem_singleton.mp hc
    rw [fieldText_eq hmessage hnul]
    exact ⟨junk, hmessage, hnul⟩

/-- Without a terminator, one of the two calls leaves the field. -/
theorem splitToOne_unterminated (h : 0 ∉ message.toList) :
    splitToOne { env with stack := [] } message = .error .outOfBounds := by
  have hbytes : ∀ l : List Byte, l ⊆ message.toList → ∀ b ∈ l, b ≠ 0 :=
    fun l hl b hb h0 => h (h0 ▸ hl hb)
  rcases exists_token [32] message.toList with hblank |
    ⟨skipped, token, rest, hmessage, hskipped, htoken, hword, hrest⟩
  · have hrun := strtok_unterminated maxMessageText [32] [] [] _
      (fun b hb => ⟨hblank b hb, hbytes _ (List.Subset.refl _) b hb⟩)
      (by simp)
    rw [splitToOne]
    simp only [List.append_nil] at hrun ⊢
    rw [List.length_nil, List.nil_append] at hrun
    rw [hrun]
    rfl
  · have hskipped' : ∀ b ∈ skipped, b ∈ ([32] : List Byte) ∧ b ≠ 0 :=
      fun b hb => ⟨hskipped b hb, hbytes skipped (by rw [hmessage]; simp) b hb⟩
    have htoken' : ∀ b ∈ token, b ∉ ([32] : List Byte) ∧ b ≠ 0 :=
      fun b hb => ⟨hword b hb, hbytes token (by rw [hmessage]; simp) b hb⟩
    rcases hrest with rfl | ⟨c, text, rfl, hc⟩
    · -- one word up to the end of the field
      have hrun := strtok_unterminated maxMessageText [32] [] _ _ hskipped'
        htoken'
      rw [List.length_nil, List.nil_append] at hrun
      rw [List.append_nil] at hmessage
      rw [splitToOne]
      simp only [hmessage, List.append_nil]
      rw [hrun]
      rfl
    · -- the second call looks for the end of the text
      have hsize : message.toList.length = maxMessageText :=
        message.toList_length
      rw [hmessage] at hsize
      simp only [List.length_append, List.length_cons] at hsize
      have hc0 : c ≠ 0 := by
        rw [List.mem_singleton.mp hc]
        decide
      have htext : ∀ b ∈ text, b ∉ ([] : List Byte) ∧ b ≠ 0 :=
        fun b hb => ⟨List.not_mem_nil, hbytes text
          (fun x hx => by rw [hmessage]; simp [hx]) b hb⟩
      have hskip := strtok_skip maxMessageText _ [] (token ++ c :: text) hskipped
      have hfirst := strtok_token maxMessageText [32] skipped token text
        htoken htoken' (.inr hc) (by omega)
      have hsecond := strtok_unterminated maxMessageText []
        (skipped ++ (token ++ [0])) text [] (by simp) htext
      have hsaved : skipped.length + token.length + 1 =
          (skipped ++ (token ++ [0])).length := by
        simp only [List.length_append, List.length_singleton]
        omega
      have hcut : skipped ++ (token ++ 0 :: text) =
          skipped ++ (token ++ [0]) ++ ([] ++ text) := by
        simp
      rw [List.length_nil, List.nil_append] at hskip
      rw [if_neg hc0] at hfirst
      rw [splitToOne]
      simp only [hmessage, List.append_nil]
      rw [hskip, List.nil_append, hfirst]
      simp only [ok_bind]
      rw [hcut, hsaved, hsecond]
      rfl

theorem splitToOne_inside_iff :
    (∃ r, splitToOne { env with stack := [] } message = .ok r) ↔
      0 ∈ message.toList := by
  constructor
  · rintro ⟨r, hr⟩
    by_contra h
    rw [splitToOne_unterminated h] at hr
    cases hr
  · intro h
    obtain ⟨junk, hmessage, hnul⟩ := exists_terminated h
    rcases splitToOne_cases { env with stack := [] } hmessage hnul with
      ⟨receiverName, hsplit⟩ | ⟨_, _, _, _, _, _, _, hsplit⟩
    · exact ⟨_, hsplit⟩
    · exact ⟨_, hsplit⟩

/-- What the calls find in a terminated text. -/
theorem splitToOne_field (env : Env) {junk : List Byte}
    (hmessage : message.toList = fieldText message ++ 0 :: junk)
    (hnul : 0 ∉ fieldText message) :
    (behindWord 32 (fieldText message) = [] ∧
      ∃ receiverName, splitToOne env message = .ok (receiverName, none)) ∨
    ∃ after, behindWord 32 (fieldText message) ≠ [] ∧
      0 ∉ firstWord 32 (fieldText message) ∧
      splitToOne env message = .ok
        (some (firstWord 32 (fieldText message) ++ 0 :: after),
          some (behindWord 32 (fieldText message) ++
            0 :: (junk ++ env.stack))) := by
  rcases words_cases 32 (fieldText message) with ⟨hblank, -, hbehind⟩ |
    ⟨skipped, rest, htext, hskipped, hword, hsep, hrest⟩
  · refine .inl ⟨hbehind, none, splitToOne_blank env hmessage ?_⟩
    intro b hb
    exact List.mem_singleton.mpr (hblank b hb)
  · have hword0 : 0 ∉ firstWord 32 (fieldText message) := by
      intro h
      apply hnul
      rw [htext]
      simp [h]
    have hskipped' : ∀ b ∈ skipped, b ∈ ([32] : List Byte) :=
      fun b hb => List.mem_singleton.mpr (hskipped b hb)
    have hbytes : ∀ b ∈ firstWord 32 (fieldText message),
        b ∉ ([32] : List Byte) ∧ b ≠ 0 := by
      intro b hb
      refine ⟨fun h => hsep ?_, fun h => hword0 (h ▸ hb)⟩
      rwa [List.mem_singleton.mp h] at hb
    rcases hrest with ⟨rfl, hbehind⟩ | hrest
    · rw [List.append_nil] at htext
      rw [htext] at hmessage
      exact .inl ⟨hbehind, splitToOne_word env hmessage hskipped' hword hbytes⟩
    · have hbehind0 : 0 ∉ behindWord 32 (fieldText message) := by
        intro h
        apply hnul
        rw [htext, hrest]
        simp [h]
      have hpieces : message.toList =
          skipped ++ (firstWord 32 (fieldText message) ++
            32 :: behindWord 32 (fieldText message)) ++ 0 :: junk := by
        rw [← hrest, ← htext]
        exact hmessage
      have hsplit := splitToOne_text env hpieces hskipped' hword hbytes
        hbehind0
      by_cases hempty : behindWord 32 (fieldText message) = []
      · rw [if_pos hempty] at hsplit
        exact .inl ⟨hempty, _, hsplit⟩
      · rw [if_neg hempty] at hsplit
        exact .inr ⟨_, hempty, hword0, hsplit⟩

end Split

/-! ## The handler -/

section Handler

variable {env : Env} {s : Server} {t : Clients} {message : Bytes maxMessageText}
  (sender : Bytes maxClientName)

theorem run_sendToOne (receiver : List Byte) (msg : MessageT) :
    (sendToOne (some receiver) msg).run s = .ok ((),
      { s with calls := s.calls ++ ((taken s.slots receiver).map fun i =>
        Call.send (s.slots i).socket msg).toList }) := by
  simp only [sendToOne, StateT.run_bind, run_findTaken, ok_bind]
  cases taken s.slots receiver with
  | none => simp
  | some i =>
      simp only [StateT.run_bind, run_slot, ok_bind, sendMessage, run_call]
      rfl

/-- With a name and a text it sends at most once, and to the entry that the
search finds. -/
theorem run_handleToOneMessage {receiver text : List Byte}
    (hsplit : splitToOne env message = .ok (some receiver, some text))
    (hlong : maxMessageText ≤ text.length) (hfree : s.locked = false) :
    ∃ m, (handleToOneMessage env sender message).run s = .ok ((),
      { s with calls := s.calls ++ ((taken s.slots receiver).map fun i =>
        Call.send (s.slots i).socket m).toList }) := by
  have hsize : maxClientName ≤ sender.toList.length := by simp
  obtain ⟨m, hm⟩ :=
    exists_initMessageT (env.time 0) .serverChatMessage hsize hlong
  refine ⟨m, ?_⟩
  simp only [handleToOneMessage, hsplit, hm, StateT.run_bind,
    StateT.run_monadLift, monadLift_self, ok_bind, pure_eq_ok,
    run_lock_free s hfree, run_sendToOne, run_unlock]
  rw [← hfree]

theorem addressed_iff {c : ClientT} {after : List Byte}
    (hnul : 0 ∉ firstWord 32 (fieldText message)) :
    c.hasName (firstWord 32 (fieldText message) ++ 0 :: after) = true ↔
      Addressed message c := by
  rw [hasName_iff, cstr_terminated hnul, Addressed]

/-- The search finds an entry exactly if one is addressed. -/
theorem taken_ne_none_iff (t : Clients) (receiver : List Byte) :
    taken t receiver ≠ none ↔
      ∃ i, (t i).valid = true ∧ (t i).hasName receiver = true := by
  rw [Ne, taken_eq_none]
  simp

/-- **The handler is safe exactly on the payloads with a terminator and,
before it, a word, a blank and something behind the blank**, whoever is in
the table. -/
theorem toOne_safe_iff (env : Env) (t : Clients)
    (sender : Bytes maxClientName) (message : Bytes maxMessageText)
    (hstack : maxMessageText ≤ env.stack.length) :
    ToOneSafe env t sender message ↔
      0 ∈ message.toList ∧ behindWord 32 (fieldText message) ≠ [] := by
  constructor
  · intro hsafe
    have hterminated := splitToOne_inside_iff.mp hsafe.inside
    refine ⟨hterminated, ?_⟩
    obtain ⟨junk, hmessage, hnul⟩ := exists_terminated hterminated
    rcases splitToOne_field env hmessage hnul with
      ⟨-, receiverName, hsplit⟩ | ⟨after, hbehind, -, -⟩
    · -- the copy of the text that is missing
      exact absurd (handleToOneMessage_no_text env sender hsplit) hsafe.notNull
    · exact hbehind
  · rintro ⟨hterminated, hbehind⟩
    obtain ⟨junk, hmessage, hnul⟩ := exists_terminated hterminated
    rcases splitToOne_field env hmessage hnul with
      ⟨hempty, -⟩ | ⟨after, -, hword, hsplit⟩
    · exact absurd hempty hbehind
    · have hlong : maxMessageText ≤ (behindWord 32 (fieldText message) ++
          0 :: (junk ++ env.stack)).length := by
        simp only [List.length_append, List.length_cons]
        omega
      obtain ⟨m, hrun⟩ := run_handleToOneMessage sender (s := ⟨t, false, []⟩)
        hsplit hlong rfl
      refine ⟨splitToOne_inside_iff.mpr hterminated, ?_, _, hrun, ?_, ?_⟩
      · rw [hrun]
        nofun
      · cases taken t _ <;> simp
      · have hfound := taken_ne_none_iff t
          (firstWord 32 (fieldText message) ++ 0 :: after)
        simp only [addressed_iff hword] at hfound
        rw [and_iff_right hbehind, ← hfound]
        cases taken t (firstWord 32 (fieldText message) ++ 0 :: after) <;> simp

end Handler

/-! ## Payloads -/

/-- A private message for `bob` without a text. -/
def onlyBob : Bytes maxMessageText := Bytes.ofList maxMessageText [98, 111, 98]

/-- And with one. -/
def bobHi : Bytes maxMessageText :=
  Bytes.ofList maxMessageText [98, 111, 98, 32, 104, 105]

/-- With room behind the field. -/
def Env.stacked : Env := { Env.zeros with stack := List.replicate 512 0 }

theorem toOne_safe_bobHi : ToOneSafe Env.stacked
    (twoClients [97] [98, 111, 98]).slots (Bytes.ofList maxClientName [97])
    bobHi :=
  (toOne_safe_iff _ _ _ _ List.length_replicate.ge).mpr (by decide +kernel)

/-- With the name alone, the text is the null pointer. -/
theorem toOne_unsafe_onlyBob : ¬ ToOneSafe Env.stacked
    (twoClients [97] [98, 111, 98]).slots (Bytes.ofList maxClientName [97])
    onlyBob := by
  intro hsafe
  have honly : onlyBob.toList =
      [] ++ [98, 111, 98] ++ 0 :: List.replicate 508 0 := rfl
  have hword : ∀ b ∈ ([98, 111, 98] : List Byte),
      b ∉ ([32] : List Byte) ∧ b ≠ 0 := by
    intro b hb
    simp only [List.mem_cons, List.not_mem_nil, or_false] at hb
    rcases hb with rfl | rfl | rfl <;> decide
  obtain ⟨receiverName, hsplit⟩ := splitToOne_word Env.stacked honly nofun
    nofun hword
  exact hsafe.notNull (handleToOneMessage_no_text _ _ hsplit)

end Sysops.Cw11
