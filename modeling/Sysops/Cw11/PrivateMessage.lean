import Sysops.Cw11.Names

/-!
# A private message from the keyboard to its receiver

One round of the loop of `handle_user_input` in `cw11/client.c`, the frame
it makes of a line `to_one n t`, and what `handle_to_one_message` makes of
that frame. The client splits the line with one scheme, the server splits
the rest with another.
-/

namespace Sysops.Cw11

open SlotM

abbrev maxCommandLength : Nat := 10

/-! ## The client -/

/-- What `handle_user_input` reads besides the standard input. -/
structure UserEnv where
  /-- The result of `time(NULL)`. -/
  now : Int64
  /-- `client_id`, up to its terminator. -/
  clientId : List Byte
  /-- The bytes behind the terminator of `client_id`. -/
  afterId : Bytes maxClientName
  /-- The bytes behind the terminator of the literal `""`. -/
  rodata : Bytes maxMessageText
  /-- What the array `line` holds before. -/
  line : Bytes maxMessageText
  /-- The bytes behind the array `line`. -/
  afterLine : Bytes maxMessageText
  id_no_nul : 0 ∉ clientId
  /-- `main` checks the length. -/
  id_admitted : clientId.length < maxClientName

/-- What one round of the loop does. -/
inductive UserInput where
  | sends (message : MessageT)
  /-- The round that ends the loop. -/
  | stops (message : MessageT)
  | unknownCommand

/-- `line[strlen(line) - 1] = '\0'`. -/
def chopLast {n : Nat} (line : Bytes n) : Except Fault (Bytes n) :=
  let len := (line.toList.takeWhile (· ≠ 0)).length
  if h : 0 < len ∧ len < n then
    .ok (line.write (len - 1) [0] (by simp; omega))
  else .error .outOfBounds

def UserEnv.initMessageT (env : UserEnv) (type : MessageType)
    (messageText : Pointer) : Except Fault MessageT :=
  Cw11.initMessageT env.now
    (some (env.clientId ++ 0 :: env.afterId.toList)) type messageText

/-- `""`. -/
def UserEnv.noText (env : UserEnv) : Pointer :=
  some (0 :: env.rodata.toList)

/-- `strtok(NULL, "")`: the rest of the line. -/
def messageText (command : Token) : Except Fault Pointer := do
  let rest ← strtok maxMessageText command.memory command.saved []
  return rest.start.map rest.memory.drop

/-- One round of the loop of `handle_user_input`. -/
def handleUserInput (env : UserEnv) (stdin : List Byte) :
    Except Fault UserInput := do
  let line ← chopLast (fgets env.line stdin).1
  let command ← strtok maxMessageText (line.toList ++ env.afterLine.toList)
    0 [32]
  match command.start with
  | none => throw .nullPointer
  | some start =>
      let word := command.memory.drop start
      if strncmp maxCommandLength word (literal "list") = 0 then
        return .sends (← env.initMessageT .clientList env.noText)
      else if strncmp maxCommandLength word (literal "to_all") = 0 then
        return .sends (← env.initMessageT .clientToAll (← messageText command))
      else if strncmp maxCommandLength word (literal "to_one") = 0 then
        return .sends (← env.initMessageT .clientToOne (← messageText command))
      else if strncmp maxCommandLength word (literal "stop") = 0 then
        return .stops (← env.initMessageT .clientStop env.noText)
      else
        return .unknownCommand

/-- What the server does with the frame of one round. The hosts have the
byte orders `a` and `b`, and `buffer` is the array of `send_message`. -/
def relay (a b : ByteOrder) (user : UserEnv) (buffer : Bytes maxMsgNetBuf)
    (env : Env) (fd : Int) (stdin : List Byte) : ServerM Unit := do
  match ← handleUserInput user stdin with
  | .sends message | .stops message =>
      let received := deserializeMessageT b
        (serializeMessageT a message buffer) encodedLength_le
      handleClientMessage env fd (some received)
  | .unknownCommand => pure ()

/-! ## The request and what it is to do -/

/-- `to_one` and the blank behind it. -/
abbrev toOne : List Byte := [116, 111, 95, 111, 110, 101, 32]

/-- A private message that fits into the line: to a name that `main` of
the client admits, a text that is not empty. -/
structure PrivateMessage where
  name : List Byte
  text : List Byte
  name_no_nul : 0 ∉ name
  name_admitted : name.length < maxClientName
  text_ne_nil : text ≠ []
  text_no_nul : 0 ∉ text
  text_no_newline : 10 ∉ text
  fits : (toOne ++ (name ++ 32 :: text)).length + 1 ≤ maxMessageText

/-- The line `to_one n t`. -/
def PrivateMessage.line (p : PrivateMessage) : List Byte :=
  toOne ++ (p.name ++ 32 :: p.text)

/-- The table with other sockets. -/
def withSockets (s : Server) (sockets : Fin maxClients → Int) : Server :=
  { s with slots := fun i => { s.slots i with socket := sockets i } }

/-- The frame that the receiver is to get. -/
def PrivateMessage.IsFrame (p : PrivateMessage) (user : UserEnv)
    (m : MessageT) : Prop :=
  m.type = MessageType.serverChatMessage.code ∧
    cstr maxClientName m.sender.toList = user.clientId ∧
    cstr maxMessageText m.message.toList = p.text

/-- The handler sends exactly one frame, and to the entry `i` itself: two
entries may have the same socket, so it is sent to the socket of `i`
whatever the sockets in the table are. -/
def PrivateMessage.Reaches (p : PrivateMessage) (user : UserEnv)
    (handler : ServerM Unit) (s : Server) (i : Fin maxClients) : Prop :=
  ∀ sockets, ∃ m, p.IsFrame user m ∧
    handler.run (withSockets s sockets) = .ok ((),
      { withSockets s sockets with
        calls := s.calls ++ [.send (sockets i) m] })

/-! ## The line at the client -/

theorem chopLast_ok {n : Nat} {line : Bytes n} {text junk : List Byte}
    {c : Byte} (hline : line.toList = text ++ c :: 0 :: junk)
    (htext : 0 ∉ text) (hc : c ≠ 0) :
    ∃ chopped, chopLast line = .ok chopped ∧
      chopped.toList = text ++ 0 :: 0 :: junk := by
  have hlen : (line.toList.takeWhile (fun b => decide (b ≠ 0))).length =
      text.length + 1 := by
    rw [hline, List.takeWhile_append_of_pos]
    · simp [hc]
    · intro b hb
      have hne : b ≠ 0 := fun h0 => htext (h0 ▸ hb)
      simpa using hne
  have hsize : line.toList.length = n := line.toList_length
  rw [hline] at hsize
  simp only [List.length_append, List.length_cons] at hsize
  simp only [chopLast, hlen, Nat.add_one_sub_one]
  rw [dif_pos (by omega)]
  refine ⟨_, rfl, ?_⟩
  rw [Bytes.toList_write_append hline rfl]
  simp

/-- The line that is read, cut to what fits with its newline. -/
theorem read_line {n : Nat} (line : Bytes (n + 2)) (text rest : List Byte)
    (hnewline : 10 ∉ text) (hnul : 0 ∉ text) :
    ∃ chopped junk, chopLast (fgets line (text ++ 10 :: rest)).1 =
        .ok chopped ∧ chopped.toList = text.take n ++ 0 :: junk := by
  obtain ⟨junk, hread⟩ := fgets_line line rest hnewline
  obtain ⟨c, hc, hlast⟩ : ∃ c, c ≠ 0 ∧
      (text ++ [10]).take (n + 1) = text.take n ++ [c] := by
    by_cases hn : n < text.length
    · refine ⟨text[n], fun h0 => hnul (h0 ▸ List.getElem_mem hn), ?_⟩
      rw [List.take_append_of_le_length (by omega), List.take_succ_eq_append_getElem hn]
    · refine ⟨10, by decide, ?_⟩
      rw [List.take_of_length_le (l := text) (by omega),
        List.take_of_length_le (by simp; omega)]
  rw [hlast, List.append_assoc] at hread
  obtain ⟨chopped, hchop, htext⟩ := chopLast_ok hread
    (fun h => hnul (List.mem_of_mem_take h)) hc
  exact ⟨chopped, 0 :: junk, hchop, htext⟩

/-- The name and the text of the line, as far as they are read. -/
theorem PrivateMessage.exists_word (p : PrivateMessage)
    (rest : List Byte) : ∃ word rest', 10 ∉ word ∧
      word <+: p.name ++ 32 :: p.text ∧
      (10 ∉ p.name → word = p.name ++ 32 :: p.text) ∧
      p.line ++ 10 :: rest = toOne ++ word ++ 10 :: rest' := by
  obtain ⟨word, behind, heq, hword, hbehind⟩ :=
    Sysops.exists_word [10] (p.name ++ 32 :: p.text)
  have hword : 10 ∉ word := fun h => hword 10 h (by simp)
  rcases hbehind with rfl | ⟨c, behind, rfl, hc⟩
  · rw [List.append_nil] at heq
    refine ⟨word, rest, hword, heq ▸ List.prefix_rfl, fun _ => heq.symm, ?_⟩
    rw [line, heq]
  · obtain rfl := List.mem_singleton.mp hc
    refine ⟨word, behind ++ 10 :: rest, hword, ⟨_, heq.symm⟩, ?_, ?_⟩
    · -- the newline is in the name: there is none in the text
      intro hname
      have hmem : (10 : Byte) ∈ p.name ++ 32 :: p.text := by
        rw [heq]
        simp
      simp [hname, p.text_no_newline] at hmem
    · rw [line, heq]
      simp

theorem messageText_eq (command : Token) (before : List Byte)
    {word junk : List Byte}
    (hmemory : command.memory = before ++ (word ++ 0 :: junk))
    (hsaved : command.saved = before.length) (hword : 0 ∉ word)
    (hsize : before.length + word.length < maxMessageText) :
    messageText command =
      .ok (if word = [] then none else some (word ++ 0 :: junk)) := by
  rw [messageText, hmemory, hsaved, strtok_rest _ _ _ _ hword hsize]
  simp only [ok_bind]
  split
  · rfl
  · rw [Option.map_some, List.drop_left]
    rfl

theorem UserEnv.initMessageT_null (user : UserEnv) (type : MessageType) :
    user.initMessageT type none = .error .nullPointer := by
  have hlong : maxClientName ≤
      (user.clientId ++ 0 :: user.afterId.toList).length := by
    simp
    omega
  obtain ⟨sender, hsender⟩ := exists_memcpy_eq_ok hlong
  rw [UserEnv.initMessageT, Cw11.initMessageT, hsender]
  rfl

theorem UserEnv.exists_initMessageT (user : UserEnv) (type : MessageType)
    {text : List Byte} (htext : maxMessageText ≤ text.length) :
    ∃ m, user.initMessageT type (some text) = .ok m ∧ m.type = type.code ∧
      m.sender.toList =
        (user.clientId ++ 0 :: user.afterId.toList).take maxClientName ∧
      m.message.toList = text.take maxMessageText := by
  have hlong : maxClientName ≤
      (user.clientId ++ 0 :: user.afterId.toList).length := by
    simp
    omega
  obtain ⟨m, hm⟩ := Cw11.exists_initMessageT user.now type hlong htext
  obtain ⟨htype, -, hsender, htext⟩ := initMessageT_eq_ok hm
  exact ⟨m, hm, htype, hsender, htext⟩

/-- What the client makes of a line that starts with `to_one`. -/
theorem handleUserInput_toOne (user : UserEnv) {stdin word junk : List Byte}
    {line : Bytes maxMessageText}
    (hchop : chopLast (fgets user.line stdin).1 = .ok line)
    (hline : line.toList = toOne ++ (word ++ 0 :: junk)) (hword : 0 ∉ word) :
    handleUserInput user stdin = UserInput.sends <$>
      user.initMessageT .clientToOne (if word = [] then none
        else some (word ++ 0 :: (junk ++ user.afterLine.toList))) := by
  have hsize : line.toList.length = maxMessageText := line.toList_length
  rw [hline] at hsize
  simp only [List.length_append, List.length_cons, List.length_nil] at hsize
  have hmemory : line.toList ++ user.afterLine.toList =
      [] ++ ([116, 111, 95, 111, 110, 101] ++ 32 ::
        (word ++ 0 :: (junk ++ user.afterLine.toList))) := by
    rw [hline]
    simp [toOne]
  have hletters : ∀ b ∈ ([116, 111, 95, 111, 110, 101] : List Byte),
      b ∉ ([32] : List Byte) ∧ b ≠ 0 := by
    simp
  have hfirst := strtok_token maxMessageText [32] [] _
    (word ++ 0 :: (junk ++ user.afterLine.toList)) (c := 32)
    (List.cons_ne_nil _ _) hletters (by decide) (by decide)
  have hcommand : ∀ s : String,
      strncmp maxCommandLength ([116, 111, 95, 111, 110, 101] ++ 0 ::
        (word ++ 0 :: (junk ++ user.afterLine.toList))) (literal s) = 0 ↔
      [116, 111, 95, 111, 110, 101] = cstr maxCommandLength (literal s) := by
    intro s
    rw [strncmp_eq_zero_iff, cstr_terminated (by decide)]
    rfl
  have hrest := messageText_eq
    ⟨some 0, [116, 111, 95, 111, 110, 101] ++ 0 ::
      (word ++ 0 :: (junk ++ user.afterLine.toList)), 7⟩
    [116, 111, 95, 111, 110, 101, 0] rfl rfl hword
    (by simp only [List.length_cons, List.length_nil]; omega)
  rw [List.length_nil, if_neg (by decide)] at hfirst
  simp only [handleUserInput, hchop, ok_bind, hmemory, hfirst]
  simp only [List.drop_zero, List.nil_append, hcommand]
  rw [if_neg (by decide), if_neg (by decide), if_pos (by decide)]
  simp only [List.length_nil, List.length_cons, Nat.zero_add, hrest, ok_bind]
  rfl

/-- **The frame that the client makes of the line**: its text is what was
read of the name and the text, unless there is nothing. -/
theorem PrivateMessage.frame_of_line (p : PrivateMessage) (user : UserEnv)
    (rest : List Byte) : ∃ word, 0 ∉ word ∧ 10 ∉ word ∧ word.length ≤ 503 ∧
      (10 ∉ p.name → word = (p.name ++ 32 :: p.text).take 503) ∧
      (word = [] → handleUserInput user (p.line ++ 10 :: rest) =
        .error .nullPointer) ∧
      (word ≠ [] → ∃ m junk,
        handleUserInput user (p.line ++ 10 :: rest) = .ok (.sends m) ∧
        m.type = MessageType.clientToOne.code ∧
        m.sender.toList =
          (user.clientId ++ 0 :: user.afterId.toList).take maxClientName ∧
        m.message.toList = word ++ 0 :: junk) := by
  obtain ⟨word, rest', hnewline, hprefix, hword, hline⟩ := p.exists_word rest
  have hnul : 0 ∉ word := by
    intro h
    have hmem := hprefix.subset h
    simp [p.name_no_nul, p.text_no_nul] at hmem
  obtain ⟨line, junk, hchop, hread⟩ := read_line (n := 510) user.line
    (toOne ++ word) rest' (by simp [toOne, hnewline])
    (by simp [toOne, hnul])
  have hshort : (toOne ++ word).take 510 = toOne ++ word.take 503 := by
    rw [List.take_append, List.take_of_length_le (by decide)]
    rfl
  rw [hshort, List.append_assoc] at hread
  have hnul' : 0 ∉ word.take 503 := fun h => hnul (List.mem_of_mem_take h)
  have hinput := handleUserInput_toOne user hchop hread hnul'
  have hsize : line.toList.length = maxMessageText := line.toList_length
  rw [hread] at hsize
  refine ⟨word.take 503, hnul', fun h => hnewline (List.mem_of_mem_take h),
    by simp, fun h => by rw [hword h], ?_, ?_⟩
  · intro hempty
    rw [hline, hinput, if_pos hempty, user.initMessageT_null]
    rfl
  · intro hne
    have hlong : maxMessageText ≤ (word.take 503 ++ 0 ::
        (junk ++ user.afterLine.toList)).length := by
      simp
      omega
    obtain ⟨m, hm, htype, hsender, htext⟩ :=
      user.exists_initMessageT .clientToOne hlong
    have hshort : (word.take 503).length ≤ 511 := by
      rw [List.length_take]
      omega
    rw [take_terminated hshort] at htext
    refine ⟨m, _, ?_, htype, hsender, htext⟩
    rw [hline, hinput, if_neg hne, hm]
    rfl

/-! ## The frame at the server -/

theorem relay_of_fault (a b : ByteOrder) {user : UserEnv}
    {buffer : Bytes maxMsgNetBuf} {env : Env} {fd : Int} {stdin : List Byte}
    {f : Fault} (h : handleUserInput user stdin = .error f) (s : Server) :
    (relay a b user buffer env fd stdin).run s = .error f := by
  rw [relay, h]
  rfl

theorem relay_of_sends (a b : ByteOrder) {user : UserEnv}
    {buffer : Bytes maxMsgNetBuf} {env : Env} {fd : Int} {stdin : List Byte}
    {m : MessageT} (h : handleUserInput user stdin = .ok (.sends m))
    (htype : m.type = MessageType.clientToOne.code) :
    relay a b user buffer env fd stdin =
      handleToOneMessage env m.sender m.message := by
  have hreceived : deserializeMessageT b (serializeMessageT a m buffer)
      encodedLength_le = { m with
        timestamp := receivedTimestamp a b m.timestamp } :=
    deserialize_of_encoding a b m _ ⟨_, (toList_serializeMessageT a m buffer).symm⟩
  rw [relay, h]
  show handleClientMessage env fd (some (deserializeMessageT b
    (serializeMessageT a m buffer) encodedLength_le)) = _
  rw [hreceived]
  simp [handleClientMessage, htype, MessageType.code]

section Split

variable (env : Env) {message : Bytes maxMessageText}
  {skipped token text junk : List Byte}

/-- The name and the text that the server splits off. -/
theorem splitToOne_text
    (hmessage : message.toList =
      skipped ++ (token ++ 32 :: text) ++ 0 :: junk)
    (hskipped : ∀ b ∈ skipped, b ∈ ([32] : List Byte)) (htoken : token ≠ [])
    (hbytes : ∀ b ∈ token, b ∉ ([32] : List Byte) ∧ b ≠ 0) (htext : 0 ∉ text) :
    splitToOne env message = .ok
      (some (token ++ 0 :: (text ++ 0 :: (junk ++ env.stack))),
        if text = [] then none
        else some (text ++ 0 :: (junk ++ env.stack))) := by
  have hsize : message.toList.length = maxMessageText := message.toList_length
  rw [hmessage] at hsize
  simp only [List.length_append, List.length_cons] at hsize
  have hmemory : message.toList ++ env.stack = [] ++ (skipped ++
      (token ++ 32 :: (text ++ 0 :: (junk ++ env.stack)))) := by
    rw [hmessage]
    simp
  have hfirst := strtok_token maxMessageText _ skipped _
    (text ++ 0 :: (junk ++ env.stack)) htoken hbytes
    (.inr (List.mem_singleton_self 32)) (by omega)
  have hsecond := strtok_rest maxMessageText (skipped ++ (token ++ [0])) _
    (junk ++ env.stack) htext
    (by simp only [List.length_append, List.length_singleton]; omega)
  have hterminated : skipped ++ (token ++ 0 :: (text ++ 0 ::
      (junk ++ env.stack))) = skipped ++ (token ++ [0]) ++
        (text ++ 0 :: (junk ++ env.stack)) := by
    simp
  have hsaved : skipped.length + token.length + 1 =
      (skipped ++ (token ++ [0])).length := by
    simp only [List.length_append, List.length_singleton]
    omega
  have hskip := strtok_skip maxMessageText _ []
    (token ++ 32 :: (text ++ 0 :: (junk ++ env.stack))) hskipped
  rw [if_neg (by decide)] at hfirst
  rw [splitToOne, hmemory]
  rw [List.length_nil] at hskip
  rw [hskip, List.nil_append, hfirst]
  simp only [ok_bind]
  rw [hterminated, hsaved, hsecond]
  simp only [ok_bind, pure_eq_ok, Option.map_some]
  split
  · rw [← hterminated, List.drop_left]
    rfl
  · rw [Option.map_some, List.drop_left, ← hterminated, List.drop_left]

/-- Without a word the server finds neither a name nor a text. -/
theorem splitToOne_blank (hmessage : message.toList = skipped ++ 0 :: junk)
    (hskipped : ∀ b ∈ skipped, b ∈ ([32] : List Byte)) :
    splitToOne env message = .ok (none, none) := by
  have hmemory : message.toList ++ env.stack =
      [] ++ (skipped ++ 0 :: (junk ++ env.stack)) := by
    rw [hmessage]
    simp
  have hskip := strtok_skip maxMessageText _ []
    (0 :: (junk ++ env.stack)) hskipped
  have hfirst := strtok_end maxMessageText [32] skipped (junk ++ env.stack)
    (by decide)
  have hsecond := strtok_end maxMessageText [] skipped (junk ++ env.stack)
    (by decide)
  rw [List.length_nil] at hskip
  rw [splitToOne, hmemory, hskip, List.nil_append, hfirst]
  simp only [ok_bind]
  rw [hsecond]
  rfl

/-- With one word only it finds no text. -/
theorem splitToOne_word
    (hmessage : message.toList = skipped ++ token ++ 0 :: junk)
    (hskipped : ∀ b ∈ skipped, b ∈ ([32] : List Byte)) (htoken : token ≠ [])
    (hbytes : ∀ b ∈ token, b ∉ ([32] : List Byte) ∧ b ≠ 0) :
    ∃ receiverName, splitToOne env message = .ok (receiverName, none) := by
  have hsize : message.toList.length = maxMessageText := message.toList_length
  rw [hmessage] at hsize
  simp only [List.length_append, List.length_cons] at hsize
  have hmemory : message.toList ++ env.stack =
      [] ++ (skipped ++ (token ++ 0 :: (junk ++ env.stack))) := by
    rw [hmessage]
    simp
  have hskip := strtok_skip maxMessageText _ []
    (token ++ 0 :: (junk ++ env.stack)) hskipped
  have hfirst := strtok_token maxMessageText _ skipped _ (junk ++ env.stack)
    htoken hbytes (.inl rfl) (by omega)
  have hsecond := strtok_end maxMessageText [] (skipped ++ token)
    (junk ++ env.stack) (by decide)
  rw [List.length_nil] at hskip
  rw [if_pos rfl] at hfirst
  rw [List.append_assoc, List.length_append] at hsecond
  rw [splitToOne, hmemory, hskip, List.nil_append, hfirst]
  simp only [ok_bind]
  rw [hsecond]
  exact ⟨_, rfl⟩

/-- What the server finds in a text: no text, or a name and a text that
are the first word and what is behind the blank that follows it. -/
theorem splitToOne_cases {word : List Byte}
    (hmessage : message.toList = word ++ 0 :: junk) (hnul : 0 ∉ word) :
    (∃ receiverName, splitToOne env message = .ok (receiverName, none)) ∨
      ∃ skipped token text, word = skipped ++ (token ++ 32 :: text) ∧
        token ≠ [] ∧ 32 ∉ token ∧ text ≠ [] ∧
        splitToOne env message = .ok
          (some (token ++ 0 :: (text ++ 0 :: (junk ++ env.stack))),
            some (text ++ 0 :: (junk ++ env.stack))) := by
  rcases exists_token [32] word with hblank |
    ⟨skipped, token, rest, rfl, hskipped, htoken, hbytes, hrest⟩
  · exact .inl ⟨none, splitToOne_blank env hmessage hblank⟩
  · have hbytes' : ∀ b ∈ token, b ∉ ([32] : List Byte) ∧ b ≠ 0 := by
      intro b hb
      refine ⟨hbytes b hb, fun h0 => hnul ?_⟩
      simp [← h0, hb]
    rcases hrest with rfl | ⟨c, text, rfl, hc⟩
    · rw [List.append_nil] at hmessage
      exact .inl (splitToOne_word env hmessage hskipped htoken hbytes')
    · obtain rfl := List.mem_singleton.mp hc
      have hsplit := splitToOne_text env hmessage hskipped htoken hbytes'
        (fun h => hnul (by simp [h]))
      by_cases htext : text = []
      · rw [if_pos htext] at hsplit
        exact .inl ⟨_, hsplit⟩
      · rw [if_neg htext] at hsplit
        exact .inr ⟨skipped, token, text, rfl, htoken,
          fun h => hbytes 32 h (by simp), htext, hsplit⟩

end Split

/-! ## The handler -/

section Handler

variable (env : Env) {s : Server} (sender : Bytes maxClientName)
  {message : Bytes maxMessageText}

/-- Without a text the handler copies from the null pointer. -/
theorem handleToOneMessage_no_text {receiverName : Pointer}
    (hsplit : splitToOne env message = .ok (receiverName, none)) :
    (handleToOneMessage env sender message).run s = .error .nullPointer := by
  have hinit : initMessageT (env.time 0) (some sender.toList)
      .serverChatMessage none = .error .nullPointer := by
    rw [initMessageT, memcpy_toList]
    rfl
  simp only [handleToOneMessage, hsplit, hinit, StateT.run_bind,
    StateT.run_monadLift, monadLift_self, ok_bind, pure_eq_ok]
  rfl

/-- With a name and a text it sends the text to the first valid entry with
the name. -/
theorem handleToOneMessage_text {receiver text : List Byte}
    (hsplit : splitToOne env message = .ok (some receiver, some text))
    (hlong : maxMessageText ≤ text.length) (hfree : s.locked = false)
    {i : Fin maxClients} (hi : taken s.slots receiver = some i) :
    ∃ m : MessageT, m.type = MessageType.serverChatMessage.code ∧
      m.sender = sender ∧ m.message.toList = text.take maxMessageText ∧
      (handleToOneMessage env sender message).run s = .ok ((),
        { s with calls := s.calls ++ [.send (s.slots i).socket m] }) := by
  have hsize : maxClientName ≤ sender.toList.length := by simp
  obtain ⟨m, hm⟩ :=
    exists_initMessageT (env.time 0) .serverChatMessage hsize hlong
  obtain ⟨htype, -, hsender, htext⟩ := initMessageT_eq_ok hm
  rw [List.take_of_length_le (by simp)] at hsender
  refine ⟨m, htype, List.Vector.eq _ _ hsender, htext, ?_⟩
  simp only [handleToOneMessage, hsplit, hm, StateT.run_bind,
    StateT.run_monadLift, monadLift_self, ok_bind, pure_eq_ok,
    run_lock_free s hfree, sendToOne, run_findTaken, hi, run_slot, sendMessage,
    run_call, run_unlock]
  rw [← hfree]

end Handler

/-! ## From the line to the receiver -/

section Relay

variable {s : Server} {i : Fin maxClients}

/-- With unique names, the entry that is looked for is the one with the
name. -/
theorem taken_eq (hunique : UniqueNames s.slots) {receiver : List Byte}
    (hvalid : (s.slots i).valid = true)
    (hname : (s.slots i).hasName receiver = true) :
    taken s.slots receiver = some i := by
  cases htaken : taken s.slots receiver with
  | none =>
      rw [taken_eq_none.mp htaken i hvalid] at hname
      cases hname
  | some k =>
      obtain ⟨hk, hknown⟩ := taken_eq_some htaken
      rw [hunique.eq hk hvalid hknown hname]

theorem uniqueNames_withSockets (hunique : UniqueNames s.slots)
    (sockets : Fin maxClients → Int) :
    UniqueNames (withSockets s sockets).slots :=
  hunique.mono fun _ hi => ⟨hi, rfl⟩

variable (a b : ByteOrder) (user : UserEnv) (buffer : Bytes maxMsgNetBuf)
  (env : Env) (fd : Int) (rest : List Byte) (p : PrivateMessage)

/-- A name of one word finds its entry, and the frame for it carries the
text as far as it was read. -/
theorem PrivateMessage.delivered (hunique : UniqueNames s.slots)
    (hvalid : (s.slots i).valid = true)
    (hname : cstr maxClientName (s.slots i).name.toList = p.name)
    (hstack : maxClientName ≤ env.stack.length) (hfree : s.locked = false)
    (hne : p.name ≠ []) (hblank : 32 ∉ p.name) (hnewline : 10 ∉ p.name) :
    ∃ m : MessageT, m.type = MessageType.serverChatMessage.code ∧
      cstr maxClientName m.sender.toList = user.clientId ∧
      cstr maxMessageText m.message.toList =
        p.text.take (502 - p.name.length) ∧
      (relay a b user buffer env fd (p.line ++ 10 :: rest)).run s = .ok ((),
        { s with calls := s.calls ++ [.send (s.slots i).socket m] }) := by
  have hadmitted : p.name.length < 64 := p.name_admitted
  have hbehind : 64 ≤ env.stack.length := hstack
  obtain ⟨word, -, -, -, hword, -, hsends⟩ := p.frame_of_line user rest
  have hword := hword hnewline
  rw [take_terminated (by omega)] at hword
  obtain ⟨m, junk, hinput, htype, hsender, hmessage⟩ :=
    hsends (by simp [hword])
  have hnul : 0 ∉ p.text.take (502 - p.name.length) :=
    fun h => p.text_no_nul (List.mem_of_mem_take h)
  have htext : p.text.take (502 - p.name.length) ≠ [] := by
    have hpos := List.length_pos_iff.mpr p.text_ne_nil
    intro h
    have := congrArg List.length h
    simp only [List.length_take, List.length_nil] at this
    omega
  have hbytes : ∀ c ∈ p.name, c ∉ ([32] : List Byte) ∧ c ≠ 0 := by
    intro c hc
    refine ⟨fun h => hblank ?_, fun h => p.name_no_nul (h ▸ hc)⟩
    rwa [List.mem_singleton.mp h] at hc
  have htaken : m.message.toList = [] ++ (p.name ++ 32 ::
      p.text.take (502 - p.name.length)) ++ 0 :: junk := by
    rw [hmessage, hword]
    rfl
  have hsplit := splitToOne_text env htaken (by simp) hne hbytes hnul
  rw [if_neg htext] at hsplit
  have hsize : m.message.toList.length = maxMessageText :=
    m.message.toList_length
  rw [hmessage, hword] at hsize
  simp only [List.length_append, List.length_cons] at hsize
  have hshort : (p.text.take (502 - p.name.length)).length ≤ 512 := by
    rw [List.length_take]
    omega
  have hfound : taken s.slots (p.name ++ 0 :: (p.text.take
      (502 - p.name.length) ++ 0 :: (junk ++ env.stack))) = some i := by
    apply taken_eq hunique hvalid
    rw [hasName_iff, hname, cstr_terminated p.name_no_nul,
      List.take_of_length_le p.name_admitted.le]
  obtain ⟨sent, hsenttype, hsentsender, hsenttext, hrun⟩ :=
    handleToOneMessage_text env m.sender hsplit
      (by simp only [List.length_append, List.length_cons]; omega) hfree hfound
  refine ⟨sent, hsenttype, ?_, ?_, ?_⟩
  · have hid := user.id_admitted
    rw [hsentsender, hsender, cstr_take, cstr_terminated user.id_no_nul,
      List.take_of_length_le (by omega)]
  · rw [hsenttext, cstr_take, cstr_terminated hnul,
      List.take_of_length_le hshort]
  · rw [relay_of_sends a b hinput htype, hrun]

/-- Whatever frame goes out for the line, the name that it goes to is a
word of the line. -/
theorem PrivateMessage.word_of_sent {s' : Server} {fd' : Int} {m : MessageT}
    (hrun : (relay a b user buffer env fd (p.line ++ 10 :: rest)).run s =
      .ok ((), { s' with calls := s.calls ++ [.send fd' m] })) :
    s.locked = false ∧ ∃ token k, token ≠ [] ∧ 32 ∉ token ∧ 10 ∉ token ∧
      fd' = (s.slots k).socket ∧
      cstr maxClientName (s.slots k).name.toList =
        token.take maxClientName := by
  obtain ⟨word, hnul, hnewline, -, -, hempty, hsends⟩ :=
    p.frame_of_line user rest
  by_cases hword : word = []
  · rw [relay_of_fault a b (hempty hword)] at hrun
    cases hrun
  obtain ⟨sent, junk, hinput, htype, -, hmessage⟩ := hsends hword
  rw [relay_of_sends a b hinput htype] at hrun
  rcases splitToOne_cases env hmessage hnul with ⟨receiverName, hsplit⟩ |
    ⟨skipped, token, text, hpieces, htoken, hblank, -, hsplit⟩
  · rw [handleToOneMessage_no_text env _ hsplit] at hrun
    cases hrun
  · obtain ⟨sends, hs, -, hmem⟩ := handleToOneMessage_ok env hrun
    have hsends : [Call.send fd' m] = sends :=
      List.append_cancel_left (congrArg SlotTable.calls hs)
    obtain ⟨receiver, _, k, _, hsplit', -, hk, hcall⟩ :=
      hmem _ (hsends ▸ List.mem_singleton_self _)
    rw [hsplit] at hsplit'
    cases hsplit'
    cases hcall
    refine ⟨free_of_handleToOneMessage hrun, token, k, htoken, hblank, ?_, rfl,
      ?_⟩
    · intro h
      exact hnewline (by simp [hpieces, h])
    · rw [hasName_iff, cstr_terminated] at hk
      · exact hk
      · exact fun h => hnul (by simp [hpieces, h])

/-- **A private message reaches its receiver exactly if the mutex is free,
the name is one word of the line, and the line fits with its newline and
its terminator.** -/
theorem private_message_reaches_iff (hunique : UniqueNames s.slots)
    (hvalid : (s.slots i).valid = true)
    (hname : cstr maxClientName (s.slots i).name.toList = p.name)
    (hstack : maxClientName ≤ env.stack.length) :
    p.Reaches user (relay a b user buffer env fd (p.line ++ 10 :: rest)) s i ↔
      s.locked = false ∧ p.name ≠ [] ∧ 32 ∉ p.name ∧ 10 ∉ p.name ∧
        p.line.length + 1 < maxMessageText := by
  have hlength : p.line.length = 8 + p.name.length + p.text.length := by
    simp only [PrivateMessage.line, List.length_append, List.length_cons,
      List.length_nil]
    omega
  constructor
  · intro h
    -- sockets that tell the entries apart
    obtain ⟨m, hframe, hrun⟩ := h fun k => (k : Nat)
    obtain ⟨hfree, token, k, htoken, hblank, hnewline, hk, hword⟩ :=
      p.word_of_sent a b user buffer env fd rest hrun
    have hik : i = k := Fin.ext (Int.ofNat_inj.mp hk)
    have hword : p.name = token.take maxClientName := by
      rw [← hname, hik]
      exact hword
    have hne : p.name ≠ [] := by
      rw [hword]
      simpa using htoken
    have hblank : 32 ∉ p.name := by
      rw [hword]
      exact fun h => hblank (List.mem_of_mem_take h)
    have hnewline : 10 ∉ p.name := by
      rw [hword]
      exact fun h => hnewline (List.mem_of_mem_take h)
    refine ⟨hfree, hne, hblank, hnewline, ?_⟩
    obtain ⟨m', -, -, htext, hrun'⟩ := p.delivered a b user buffer env fd rest
      (s := withSockets s fun k => (k : Nat))
      (uniqueNames_withSockets hunique _) hvalid hname hstack hfree hne hblank
      hnewline
    rw [hrun, Except.ok.injEq, Prod.mk.injEq] at hrun'
    have hcall := List.append_cancel_left
      (congrArg SlotTable.calls hrun'.2)
    cases hcall
    have hcut := congrArg List.length (hframe.2.2.symm.trans htext)
    rw [List.length_take] at hcut
    rw [hlength]
    show 8 + p.name.length + p.text.length + 1 < 512
    have hpos := List.length_pos_iff.mpr p.text_ne_nil
    omega
  · rintro ⟨hfree, hne, hblank, hnewline, hfits⟩ sockets
    obtain ⟨m, htype, hsender, htext, hrun⟩ :=
      p.delivered a b user buffer env fd rest
        (uniqueNames_withSockets hunique sockets) hvalid hname hstack hfree hne
        hblank hnewline
    refine ⟨m, ⟨htype, hsender, ?_⟩, hrun⟩
    rw [htext, List.take_of_length_le]
    have hfits : p.line.length + 1 < 512 := hfits
    omega

end Relay

/-! ## Two clients -/

/-- The client `c` with zeros in the memory around it. -/
def UserEnv.zeros : UserEnv where
  now := 0
  clientId := [99]
  afterId := Bytes.ofList maxClientName []
  rodata := Bytes.ofList maxMessageText []
  line := Bytes.ofList maxMessageText []
  afterLine := Bytes.ofList maxMessageText []
  id_no_nul := by decide
  id_admitted := by decide

/-- A table with two clients. -/
def twoClients (first second : List Byte) : Server where
  slots i :=
    { name := Bytes.ofList maxClientName (if i.val = 0 then first else second)
      socket := i
      valid := i.val < 2
      awaitingAliveResponse := false }
  locked := false
  calls := []

/-- A word as a name. -/
def helloBob : PrivateMessage where
  name := [98, 111, 98]
  text := [32, 104, 105]
  name_no_nul := by decide
  name_admitted := by decide
  text_ne_nil := by decide
  text_no_nul := by decide
  text_no_newline := by decide
  fits := by decide

/-- A name with a blank. -/
def helloAB : PrivateMessage where
  name := [97, 32, 98]
  text := [104, 105]
  name_no_nul := by decide
  name_admitted := by decide
  text_ne_nil := by decide
  text_no_nul := by decide
  text_no_newline := by decide
  fits := by decide

theorem uniqueNames_twoClients {first second : List Byte}
    (h : strncmp maxClientName (Bytes.ofList maxClientName first).toList
      (Bytes.ofList maxClientName second).toList ≠ 0)
    (h' : strncmp maxClientName (Bytes.ofList maxClientName second).toList
      (Bytes.ofList maxClientName first).toList ≠ 0) :
    UniqueNames (twoClients first second).slots := by
  intro i j hi hj hij
  simp only [twoClients, decide_eq_true_eq] at hi hj hij
  by_cases hi0 : i.val = 0 <;> by_cases hj0 : j.val = 0
  · exact Fin.ext (hi0.trans hj0.symm)
  · rw [if_pos hi0, if_neg hj0] at hij
    exact absurd hij h
  · rw [if_neg hi0, if_pos hj0] at hij
    exact absurd hij h'
  · exact Fin.ext (by omega)

theorem private_message_to_bob :
    helloBob.Reaches .zeros (relay .little .little .zeros (Bytes.ofList _ [])
      { Env.zeros with stack := List.replicate 64 0 } 7
      (helloBob.line ++ 10 :: [])) (twoClients [97] [98, 111, 98]) 1 :=
  (private_message_reaches_iff .little .little .zeros _ _ 7 [] helloBob
    (uniqueNames_twoClients (by decide) (by decide)) (by decide) (by decide)
    (by decide)).mpr (by decide)

/-- With a client `a` in the table, a message to `a b` goes to `a`. -/
theorem private_message_to_name_with_blank :
    ¬ helloAB.Reaches .zeros (relay .little .little .zeros (Bytes.ofList _ [])
      { Env.zeros with stack := List.replicate 64 0 } 7
      (helloAB.line ++ 10 :: [])) (twoClients [97] [97, 32, 98]) 1 := by
  intro h
  obtain ⟨m, -, hrun⟩ := h fun k => (k : Nat)
  obtain ⟨-, token, k, -, hblank, -, hk, hword⟩ :=
    helloAB.word_of_sent _ _ _ _ _ _ _ hrun
  obtain rfl : 1 = k := Fin.ext (Int.ofNat_inj.mp hk)
  have hname : (32 : Byte) ∈ token.take maxClientName := by
    rw [← hword]
    decide
  exact hblank (List.mem_of_mem_take hname)

end Sysops.Cw11
