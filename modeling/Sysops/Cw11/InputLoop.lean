import Sysops.Cw11.PrivateMessage
import Sysops.Library.Loop

/-!
# The input loop of the chat client

`handle_user_input` on a whole input. `fgets` cuts the input into pieces
that end with a newline or fill the array, a round takes the last byte off
its piece and treats the rest as a line, and nothing tests whether `fgets`
or `strtok` found anything.
-/

namespace Sysops.Cw11

/-! ## What a line asks for -/

/-- The commands, with the text that comes with them. -/
inductive Request where
  /-- A line without a word. -/
  | nothing
  | list
  | toAll (text : List Byte)
  | toOne (text : List Byte)
  | stop
  | unknown
  deriving DecidableEq

/-- What the first word of a line and its remainder ask for. -/
def request (line : List Byte) : Request :=
  let word := firstWord 32 line
  if word = [] then .nothing
  else if word ++ [0] = literal "list" then .list
  else if word ++ [0] = literal "to_all" then .toAll (behindWord 32 line)
  else if word ++ [0] = literal "to_one" then .toOne (behindWord 32 line)
  else if word ++ [0] = literal "stop" then .stop
  else .unknown

/-- The message is the one that was asked for. -/
def Request.Answered (m : MessageT) : Request → Prop
  | .list => m.type = MessageType.clientList.code
  | .toAll text => m.type = MessageType.clientToAll.code ∧
      m.message.Holds text
  | .toOne text => m.type = MessageType.clientToOne.code ∧
      m.message.Holds text
  | .stop => m.type = MessageType.clientStop.code
  | .nothing | .unknown => False

/-- What one round makes of a request. -/
inductive Request.Outcome : Request → Except Fault UserInput → Prop where
  | nothing : Outcome .nothing (.error .nullPointer)
  | noTextToAll : Outcome (.toAll []) (.error .nullPointer)
  | noTextToOne : Outcome (.toOne []) (.error .nullPointer)
  | sends {r : Request} {m : MessageT} : r ≠ .stop → r ≠ .toAll [] →
      r ≠ .toOne [] → r.Answered m → Outcome r (.ok (.sends m))
  | stops {m : MessageT} : Request.stop.Answered m →
      Outcome .stop (.ok (.stops m))
  | unknown : Outcome .unknown (.ok .unknownCommand)

/-! ## One round -/

section Round

variable {env : UserEnv} {stdin text junk : List Byte}
  {line : Bytes maxMessageText}

/-- The command that the first `strtok` finds, and the text that the second
one finds behind it. -/
theorem strtok_command (after : List Byte) (htext : 0 ∉ text)
    (hsize : text.length < maxMessageText) : ∃ command,
    strtok maxMessageText (text ++ 0 :: after) 0 [32] = .ok command ∧
    ((firstWord 32 text = [] ∧ command.start = none) ∨
      ∃ start behind, firstWord 32 text ≠ [] ∧ 0 ∉ firstWord 32 text ∧
        command.start = some start ∧
        command.memory.drop start = firstWord 32 text ++ 0 :: behind ∧
        messageText command = .ok (if behindWord 32 text = [] then none
          else some (behindWord 32 text ++ 0 :: after)) ∧
        0 ∉ behindWord 32 text) := by
  rcases words_cases 32 text with ⟨hblank, hword, -⟩ |
    ⟨skipped, rest, hpieces, hskipped, hword, hsep, hrest⟩
  · have hskip := strtok_skip maxMessageText [32] [] (0 :: after)
      (fun b hb => List.mem_singleton.mpr (hblank b hb))
    have hend := strtok_end maxMessageText [32] text after (by decide)
    rw [List.length_nil, List.nil_append, List.nil_append, hend] at hskip
    exact ⟨_, hskip, .inl ⟨hword, rfl⟩⟩
  · have hword0 : 0 ∉ firstWord 32 text := by
      intro h
      apply htext
      rw [hpieces]
      simp [h]
    have hbytes : ∀ b ∈ firstWord 32 text, b ∉ ([32] : List Byte) ∧ b ≠ 0 := by
      intro b hb
      refine ⟨fun h => hsep ?_, fun h => hword0 (h ▸ hb)⟩
      rwa [List.mem_singleton.mp h] at hb
    have hlength := congrArg List.length hpieces
    simp only [List.length_append] at hlength
    have hmemory : text ++ 0 :: after =
        skipped ++ (firstWord 32 text ++ (rest ++ 0 :: after)) := by
      rw [hpieces]
      simp only [List.append_assoc]
      rw [← hpieces]
    have hskip := strtok_skip maxMessageText [32] []
      (firstWord 32 text ++ (rest ++ 0 :: after))
      (fun b hb => List.mem_singleton.mpr (hskipped b hb))
    rw [List.length_nil, List.nil_append, List.nil_append, ← hmemory] at hskip
    rcases hrest with ⟨rfl, hbehind⟩ | hrest
    · -- the line ends with its first word
      have hfirst := strtok_token maxMessageText [32] skipped _ after hword
        hbytes (.inl rfl) (by omega)
      rw [if_pos rfl] at hfirst
      rw [List.nil_append] at hmemory
      refine ⟨_, hskip.trans (by rw [hmemory, hfirst]), .inr ⟨skipped.length, after, hword, hword0,
        rfl, List.drop_left, ?_, by simp [hbehind]⟩⟩
      rw [hbehind]
      refine messageText_eq _ (skipped ++ firstWord 32 text) ?_ ?_
        List.not_mem_nil ?_
      · simp
      · simp
      · rw [List.length_append, List.length_nil]
        rw [List.length_nil] at hlength
        omega
    · have hbehind0 : 0 ∉ behindWord 32 text := by
        intro h
        apply htext
        rw [hpieces, hrest]
        simp [h]
      have hfirst := strtok_token maxMessageText [32] skipped _
        (behindWord 32 text ++ 0 :: after) hword hbytes
        (.inr (List.mem_singleton_self 32)) (by omega)
      rw [if_neg (by decide)] at hfirst
      rw [hrest, List.length_cons] at hlength
      rw [hrest, List.cons_append] at hmemory
      refine ⟨_, hskip.trans (by rw [hmemory, hfirst]), .inr ⟨skipped.length,
        behindWord 32 text ++ 0 :: after, hword, hword0, rfl, List.drop_left,
        ?_, hbehind0⟩⟩
      refine messageText_eq _ (skipped ++ (firstWord 32 text ++ [0])) ?_ ?_
        hbehind0 ?_
      · simp
      · simp only [List.length_append, List.length_singleton]
        omega
      · simp only [List.length_append, List.length_singleton]
        omega

/-- The comparison with a command, which is shorter than what it compares. -/
theorem command_iff {word letters : List Byte} (behind : List Byte)
    (hword : 0 ∉ word) {s : String} (hs : literal s = letters ++ [0])
    (hletters : 0 ∉ letters) (hshort : letters.length < maxCommandLength) :
    strncmp maxCommandLength (word ++ 0 :: behind) (literal s) = 0 ↔
      word ++ [0] = literal s := by
  rw [hs, strncmp_short behind [] hword hletters hshort,
    List.append_left_inj]

/-- A message without a text. -/
theorem UserEnv.exists_noText (env : UserEnv) (type : MessageType) :
    ∃ m, env.initMessageT type env.noText = .ok m ∧ m.type = type.code := by
  have hlong : maxMessageText ≤ (0 :: env.rodata.toList).length := by simp
  obtain ⟨m, hm, htype, -, -⟩ := env.exists_initMessageT type hlong
  exact ⟨m, hm, htype⟩

/-- A message with the text that the second `strtok` found. -/
theorem UserEnv.exists_text (env : UserEnv) (type : MessageType)
    {behind after : List Byte} (hnul : 0 ∉ behind)
    (hsize : behind.length < maxMessageText)
    (hafter : maxMessageText ≤ after.length) :
    ∃ m, env.initMessageT type (some (behind ++ 0 :: after)) = .ok m ∧
      m.type = type.code ∧ m.message.Holds behind := by
  have hlong : maxMessageText ≤ (behind ++ 0 :: after).length := by
    rw [List.length_append, List.length_cons]
    omega
  obtain ⟨m, hm, htype, -, hmessage⟩ := env.exists_initMessageT type hlong
  have hshort : behind.length ≤ 511 := Nat.le_of_lt_succ hsize
  rw [take_terminated hshort] at hmessage
  exact ⟨m, hm, htype, hnul, _, hmessage⟩

theorem length_behindWord_le (sep : Byte) (text : List Byte) :
    (behindWord sep text).length ≤ text.length := by
  rw [behindWord, List.length_tail]
  have hword := List.length_dropWhile_le (fun b => decide (b ≠ sep))
    (text.dropWhile fun b => decide (b = sep))
  have hblanks := List.length_dropWhile_le (fun b => decide (b = sep)) text
  omega

/-- **One round** on a line that was cut to a text. -/
theorem handleUserInput_outcome
    (hchop : chopLast (fgets env.line stdin).1 = .ok line)
    (hline : line.toList = text ++ 0 :: junk) (htext : 0 ∉ text) :
    (request text).Outcome (handleUserInput env stdin) := by
  have hsize : line.toList.length = maxMessageText := line.toList_length
  rw [hline, List.length_append, List.length_cons] at hsize
  have hmemory : line.toList ++ env.afterLine.toList =
      text ++ 0 :: (junk ++ env.afterLine.toList) := by
    rw [hline]
    simp
  have hbehind := length_behindWord_le 32 text
  have hafter : maxMessageText ≤ (junk ++ env.afterLine.toList).length := by
    simp
  obtain ⟨command, hcommand, ⟨hword, hstart⟩ |
    ⟨start, behind, hword, hword0, hstart, hfirst, hrest, hrest0⟩⟩ :=
      strtok_command (junk ++ env.afterLine.toList) htext (by omega)
  · simp only [handleUserInput, hchop, ok_bind, hmemory, hcommand, hstart]
    rw [request, if_pos hword]
    exact .nothing
  · simp only [handleUserInput, hchop, ok_bind, hmemory, hcommand, hstart,
      hfirst, hrest]
    have hcompare : ∀ s ∈ ["list", "to_all", "to_one", "stop"],
        (strncmp maxCommandLength (firstWord 32 text ++ 0 :: behind)
          (literal s) = 0 ↔ firstWord 32 text ++ [0] = literal s) := by
      intro s hs
      apply command_iff behind hword0 rfl
      · revert s
        decide
      · revert s
        decide
    simp only [hcompare "list" (by simp), hcompare "to_all" (by simp),
      hcompare "to_one" (by simp), hcompare "stop" (by simp)]
    simp only [request, if_neg hword]
    split
    · -- list
      obtain ⟨m, hm, htype⟩ := env.exists_noText .clientList
      rw [hm]
      exact .sends (by simp) (by simp) (by simp) htype
    split
    · -- to_all
      by_cases hempty : behindWord 32 text = []
      · rw [if_pos hempty, env.initMessageT_null, hempty]
        exact .noTextToAll
      · obtain ⟨m, hm, hanswer⟩ := env.exists_text .clientToAll hrest0
          (by omega) hafter
        rw [if_neg hempty, hm]
        exact .sends (by simp) (by simpa using hempty) (by simp) hanswer
    split
    · -- to_one
      by_cases hempty : behindWord 32 text = []
      · rw [if_pos hempty, env.initMessageT_null, hempty]
        exact .noTextToOne
      · obtain ⟨m, hm, hanswer⟩ := env.exists_text .clientToOne hrest0
          (by omega) hafter
        rw [if_neg hempty, hm]
        exact .sends (by simp) (by simp) (by simpa using hempty) hanswer
    split
    · -- stop
      obtain ⟨m, hm, htype⟩ := env.exists_noText .clientStop
      rw [hm]
      exact .stops htype
    · exact .unknown

/-- What one round takes from the input, without its last byte. -/
def roundText (stdin : List Byte) : List Byte :=
  (linePiece maxMessageText stdin).dropLast

/-- What it leaves. -/
def behindRound (stdin : List Byte) : List Byte :=
  stdin.drop (linePiece maxMessageText stdin).length

/-- A round before the end of the input. -/
theorem round_outcome (env : UserEnv) (h : stdin ≠ []) (hnul : 0 ∉ stdin) :
    (request (roundText stdin)).Outcome (handleUserInput env stdin) ∧
      (fgets env.line stdin).2 = behindRound stdin := by
  obtain ⟨⟨junk, hread⟩, hrest⟩ := fgets_eq (n := 510) env.line h
  have hne := linePiece_ne_nil (n := 510) h
  have hpiece : linePiece maxMessageText stdin =
      roundText stdin ++ [(linePiece maxMessageText stdin).getLast hne] :=
    (List.dropLast_append_getLast hne).symm
  have hbytes : 0 ∉ linePiece maxMessageText stdin :=
    fun h0 => hnul (List.mem_of_mem_take h0)
  have htext : 0 ∉ roundText stdin :=
    fun h0 => hbytes (List.dropLast_subset _ h0)
  have hlast : (linePiece maxMessageText stdin).getLast hne ≠ 0 :=
    fun h0 => hbytes (h0 ▸ List.getLast_mem hne)
  have hline : (fgets env.line stdin).1.toList = roundText stdin ++
      (linePiece maxMessageText stdin).getLast hne :: 0 :: junk := by
    rw [hread]
    conv_lhs => rw [hpiece]
    simp
  obtain ⟨chopped, hchop, hchopped⟩ := chopLast_ok hline htext hlast
  exact ⟨handleUserInput_outcome hchop hchopped htext, hrest⟩

end Round

/-! ## The loop -/

/-- A frame, with the input that the round found which sent it. -/
structure Sent where
  stdin : List Byte
  message : MessageT

structure InputState where
  line : Bytes maxMessageText
  stdin : List Byte
  rounds : Nat
  sent : List Sent

/-- The array `line` after a round: `strtok` has ended the command. -/
def UserEnv.lineLeft (env : UserEnv) (stdin : List Byte) :
    Except Fault (Bytes maxMessageText) := do
  let line ← chopLast (fgets env.line stdin).1
  let command ← strtok maxMessageText (line.toList ++ env.afterLine.toList)
    0 [32]
  return Bytes.ofList maxMessageText command.memory

/-- What the round meets. -/
def UserEnv.inRound (user : UserEnv) (now : Nat → Int64) (s : InputState) :
    UserEnv :=
  { user with now := now s.rounds, line := s.line }

/-- One round. The loop is left with the frames that were sent, or by a
fault; whether a send fails is printed only. -/
def inputTurn (user : UserEnv) (now : Nat → Int64) (s : InputState) :
    Except (Except Fault (List Sent)) InputState :=
  let env := user.inRound now s
  match handleUserInput env s.stdin, env.lineLeft s.stdin with
  | .ok (.stops message), _ => .error (.ok (s.sent ++ [⟨s.stdin, message⟩]))
  | .ok (.sends message), .ok line => .ok
      { line := line
        stdin := (fgets s.line s.stdin).2
        rounds := s.rounds + 1
        sent := s.sent ++ [⟨s.stdin, message⟩] }
  | .ok .unknownCommand, .ok line => .ok
      { line := line
        stdin := (fgets s.line s.stdin).2
        rounds := s.rounds + 1
        sent := s.sent }
  | .error fault, _ | _, .error fault => .error (.error fault)

/-- The loop of `handle_user_input`; its condition is `1`. -/
def inputLoop (user : UserEnv) (now : Nat → Int64) (fuel : Nat)
    (s : InputState) : Option (Except (Except Fault (List Sent)) InputState) :=
  loop (fun _ => True) (inputTurn user now) fuel s

/-- Before the first round. -/
def InputState.initial (user : UserEnv) (input : List Byte) : InputState :=
  ⟨user.line, input, 0, []⟩

/-! ## What the loop is to do -/

/-- The rest of the input starts with a line of it. -/
def LineStart (input rest : List Byte) : Prop :=
  rest = input ∨ (10 :: rest) <:+ input

/-- The frame is what a line of the input asks for. -/
def Sent.Answers (input : List Byte) (x : Sent) : Prop :=
  LineStart input x.stdin ∧ (request (lineAt x.stdin)).Answered x.message

/-- The loop ends without a fault; each frame is what one line of the input
asks for, and the lines are in order. -/
def InputServed (user : UserEnv) (now : Nat → Int64) (input : List Byte) :
    Prop :=
  ∃ fuel sent, inputLoop user now fuel (.initial user input) =
      some (.error (.ok sent)) ∧
    (∀ x ∈ sent, x.Answers input) ∧
    (sent.map fun x => x.stdin.length).Pairwise (· > ·)

/-! ## When it does that -/

/-- The round starts at a line, and what it takes asks for what the line
asks for. -/
def Faithful (input rest : List Byte) : Prop :=
  LineStart input rest ∧ request (roundText rest) = request (lineAt rest)

/-- The requests that are answered by a frame and do not end the loop. -/
def Request.Sends : Request → Prop
  | .list => True
  | .toAll text | .toOne text => text ≠ []
  | .nothing | .stop | .unknown => False

/-- The rounds from `rest` on: each takes a command, with its text, that is
a line of the input, or an unknown word, up to one that takes `stop`. -/
inductive Accepted (input : List Byte) : List Byte → Prop where
  | stops {rest} : rest ≠ [] → request (roundText rest) = .stop →
      Faithful input rest → Accepted input rest
  | sends {rest} : rest ≠ [] → (request (roundText rest)).Sends →
      Faithful input rest → Accepted input (behindRound rest) →
      Accepted input rest
  | passes {rest} : rest ≠ [] → request (roundText rest) = .unknown →
      Accepted input (behindRound rest) → Accepted input rest

section Served

variable {user : UserEnv} {now : Nat → Int64} {input : List Byte}

/-- A message answers one request only. -/
theorem Request.Answered.unique {m : MessageT} {q r : Request}
    (hq : q.Answered m) (hr : r.Answered m) : q = r := by
  have hcode : ∀ {a b : MessageType}, m.type = a.code → m.type = b.code →
      a = b := fun ha hb => MessageType.code_inj (ha.symm.trans hb)
  cases q <;> cases r <;> simp only [Request.Answered] at hq hr
  case list.list => rfl
  case stop.stop => rfl
  case toAll.toAll s t =>
    rw [← hq.2.cstr_eq, hr.2.cstr_eq]
  case toOne.toOne s t =>
    rw [← hq.2.cstr_eq, hr.2.cstr_eq]
  all_goals first
    | exact absurd (hcode hq hr) (by decide)
    | exact absurd (hcode hq.1 hr) (by decide)
    | exact absurd (hcode hq hr.1) (by decide)
    | exact absurd (hcode hq.1 hr.1) (by decide)

theorem lineLeft_ok {env : UserEnv} {stdin : List Byte} {r : UserInput}
    (h : handleUserInput env stdin = .ok r) :
    ∃ line, env.lineLeft stdin = .ok line := by
  rw [handleUserInput] at h
  obtain ⟨line, hline, h⟩ := bind_eq_ok.mp h
  obtain ⟨command, hcommand, -⟩ := bind_eq_ok.mp h
  rw [UserEnv.lineLeft, hline, ok_bind, hcommand, ok_bind]
  exact ⟨_, rfl⟩

section Turn

variable {s : InputState} {m : MessageT}

theorem inputTurn_fault {fault : Fault}
    (h : handleUserInput (user.inRound now s) s.stdin = .error fault) :
    inputTurn user now s = .error (.error fault) := by
  simp only [inputTurn, h]

theorem inputTurn_stops
    (h : handleUserInput (user.inRound now s) s.stdin = .ok (.stops m)) :
    inputTurn user now s = .error (.ok (s.sent ++ [⟨s.stdin, m⟩])) := by
  simp only [inputTurn, h]

theorem inputTurn_sends
    (h : handleUserInput (user.inRound now s) s.stdin = .ok (.sends m)) :
    ∃ line, inputTurn user now s = .ok ⟨line, (fgets s.line s.stdin).2,
      s.rounds + 1, s.sent ++ [⟨s.stdin, m⟩]⟩ := by
  obtain ⟨line, hline⟩ := lineLeft_ok h
  simp only [inputTurn, h, hline]
  exact ⟨line, rfl⟩

theorem inputTurn_unknown
    (h : handleUserInput (user.inRound now s) s.stdin = .ok .unknownCommand) :
    ∃ line, inputTurn user now s = .ok ⟨line, (fgets s.line s.stdin).2,
      s.rounds + 1, s.sent⟩ := by
  obtain ⟨line, hline⟩ := lineLeft_ok h
  simp only [inputTurn, h, hline]
  exact ⟨line, rfl⟩

end Turn

/-! What a round does says what was asked for, and the other way round. -/

section Asked

variable {env : UserEnv} {stdin : List Byte} {m : MessageT}

theorem request_of_stops (hne : stdin ≠ []) (hnul : 0 ∉ stdin)
    (h : handleUserInput env stdin = .ok (.stops m)) :
    request (roundText stdin) = .stop ∧
      (request (roundText stdin)).Answered m := by
  obtain ⟨houtcome, -⟩ := round_outcome env hne hnul
  rw [h] at houtcome
  generalize request (roundText stdin) = r at houtcome ⊢
  cases houtcome with
  | stops hanswered => exact ⟨rfl, hanswered⟩

theorem request_of_sends (hne : stdin ≠ []) (hnul : 0 ∉ stdin)
    (h : handleUserInput env stdin = .ok (.sends m)) :
    (request (roundText stdin)).Sends ∧
      (request (roundText stdin)).Answered m := by
  obtain ⟨houtcome, -⟩ := round_outcome env hne hnul
  rw [h] at houtcome
  generalize request (roundText stdin) = r at houtcome ⊢
  cases houtcome with
  | sends hstop htoAll htoOne hanswered =>
      refine ⟨?_, hanswered⟩
      cases r with
      | list => trivial
      | toAll text => exact fun h => htoAll (h ▸ rfl)
      | toOne text => exact fun h => htoOne (h ▸ rfl)
      | stop => exact hstop rfl
      | nothing | unknown => exact hanswered

theorem request_of_unknown (hne : stdin ≠ []) (hnul : 0 ∉ stdin)
    (h : handleUserInput env stdin = .ok .unknownCommand) :
    request (roundText stdin) = .unknown := by
  obtain ⟨houtcome, -⟩ := round_outcome env hne hnul
  rw [h] at houtcome
  generalize request (roundText stdin) = r at houtcome ⊢
  cases houtcome with
  | unknown => rfl

theorem exists_stops (hne : stdin ≠ []) (hnul : 0 ∉ stdin)
    (h : request (roundText stdin) = .stop) :
    ∃ m, handleUserInput env stdin = .ok (.stops m) ∧
      (request (roundText stdin)).Answered m := by
  obtain ⟨houtcome, -⟩ := round_outcome env hne hnul
  rw [h] at houtcome ⊢
  generalize handleUserInput env stdin = x at houtcome ⊢
  cases houtcome with
  | sends hstop => exact absurd rfl hstop
  | stops hanswered => exact ⟨_, rfl, hanswered⟩

theorem exists_sends (hne : stdin ≠ []) (hnul : 0 ∉ stdin)
    (h : (request (roundText stdin)).Sends) :
    ∃ m, handleUserInput env stdin = .ok (.sends m) ∧
      (request (roundText stdin)).Answered m := by
  obtain ⟨houtcome, -⟩ := round_outcome env hne hnul
  generalize request (roundText stdin) = r at houtcome h ⊢
  generalize handleUserInput env stdin = x at houtcome ⊢
  cases houtcome with
  | nothing | stops | unknown => exact h.elim
  | noTextToAll | noTextToOne => exact absurd rfl h
  | sends _ _ _ hanswered => exact ⟨_, rfl, hanswered⟩

theorem unknown_of_request (hne : stdin ≠ []) (hnul : 0 ∉ stdin)
    (h : request (roundText stdin) = .unknown) :
    handleUserInput env stdin = .ok .unknownCommand := by
  obtain ⟨houtcome, -⟩ := round_outcome env hne hnul
  rw [h] at houtcome
  generalize handleUserInput env stdin = x at houtcome ⊢
  cases houtcome with
  | sends _ _ _ hanswered => exact hanswered.elim
  | unknown => rfl

/-- What a round leaves of the input. -/
theorem rest_of_round {line : Bytes maxMessageText} (hne : stdin ≠ []) :
    (fgets line stdin).2 = behindRound stdin :=
  (fgets_eq (n := 510) line hne).2

end Asked

/-- At the end of the input there is no line to answer. -/
theorem ne_nil_of_answers {stdin : List Byte} {m : MessageT}
    (h : (⟨stdin, m⟩ : Sent).Answers input) : stdin ≠ [] := by
  rintro rfl
  exact h.2

/-- The line asks for what the round took, if one frame answers both. -/
theorem faithful_of_answered {stdin : List Byte} {m : MessageT}
    (h : (⟨stdin, m⟩ : Sent).Answers input)
    (hround : (request (roundText stdin)).Answered m) : Faithful input stdin :=
  ⟨h.1, hround.unique h.2⟩

theorem Faithful.answers {stdin : List Byte} {m : MessageT}
    (h : Faithful input stdin)
    (hround : (request (roundText stdin)).Answered m) :
    (⟨stdin, m⟩ : Sent).Answers input :=
  ⟨h.1, h.2 ▸ hround⟩

theorem not_mem_rest {line : Bytes maxMessageText} {stdin : List Byte}
    (hnul : 0 ∉ stdin) : 0 ∉ (fgets line stdin).2 := by
  by_cases h : stdin = []
  · rw [h, fgets_nil]
    exact List.not_mem_nil
  · rw [rest_of_round h]
    exact fun h0 => hnul (List.mem_of_mem_drop h0)

/-- A run whose frames are all lines of the input took what it should in
every round. -/
theorem accepted_of_run {fuel : Nat} {s : InputState} {sent : List Sent}
    (hnul : 0 ∉ s.stdin)
    (hrun : inputLoop user now fuel s = some (.error (.ok sent)))
    (hall : ∀ x ∈ sent, x.Answers input) :
    s.sent ⊆ sent ∧ Accepted input s.stdin := by
  induction fuel generalizing s with
  | zero => cases hrun
  | succ fuel ih =>
      cases hinput : handleUserInput (user.inRound now s) s.stdin with
      | error fault =>
          rw [inputLoop, loop_of_error trivial (inputTurn_fault hinput)]
            at hrun
          cases hrun
      | ok result =>
          cases result with
          | stops m =>
              rw [inputLoop, loop_of_error trivial (inputTurn_stops hinput)]
                at hrun
              cases hrun
              have hanswers : (⟨s.stdin, m⟩ : Sent).Answers input :=
                hall _ (by simp)
              have hne := ne_nil_of_answers hanswers
              obtain ⟨hrequest, hround⟩ := request_of_stops hne hnul hinput
              exact ⟨List.subset_append_left _ _,
                .stops hne hrequest (faithful_of_answered hanswers hround)⟩
          | sends m =>
              obtain ⟨line, hturn⟩ := inputTurn_sends hinput
              rw [inputLoop, loop_of_ok trivial hturn] at hrun
              obtain ⟨hsub, hrest⟩ := ih (not_mem_rest hnul) hrun
              have hanswers : (⟨s.stdin, m⟩ : Sent).Answers input :=
                hall _ (hsub (by simp))
              have hne := ne_nil_of_answers hanswers
              obtain ⟨hsends, hround⟩ := request_of_sends hne hnul hinput
              exact ⟨fun x hx => hsub (List.mem_append_left _ hx),
                .sends hne hsends (faithful_of_answered hanswers hround)
                  (rest_of_round hne ▸ hrest)⟩
          | unknownCommand =>
              obtain ⟨line, hturn⟩ := inputTurn_unknown hinput
              rw [inputLoop, loop_of_ok trivial hturn] at hrun
              obtain ⟨hsub, hrest⟩ := ih (not_mem_rest hnul) hrun
              refine ⟨hsub, ?_⟩
              by_cases hne : s.stdin = []
              · have hrest : Accepted input (fgets s.line s.stdin).2 := hrest
                rw [hne, fgets_nil] at hrest
                rwa [hne]
              · exact .passes hne (request_of_unknown hne hnul hinput)
                  (rest_of_round hne ▸ hrest)

theorem length_behindRound_lt {rest : List Byte} (h : rest ≠ []) :
    (behindRound rest).length < rest.length := by
  have hpiece : 0 < (linePiece maxMessageText rest).length :=
    List.length_pos_iff.mpr (linePiece_ne_nil h)
  have hpos := List.length_pos_iff.mpr h
  rw [behindRound, List.length_drop]
  omega

/-- What was sent before a round: lines of the input, in order, all of
them before the rest. -/
structure Served (input rest : List Byte) (sent : List Sent) : Prop where
  answers : ∀ x ∈ sent, x.Answers input
  before : ∀ x ∈ sent, rest.length < x.stdin.length
  order : (sent.map fun x => x.stdin.length).Pairwise (· > ·)

theorem Served.mono {rest rest' : List Byte} {sent : List Sent}
    (h : Served input rest sent) (hle : rest'.length ≤ rest.length) :
    Served input rest' sent :=
  ⟨h.answers, fun x hx => Nat.lt_of_le_of_lt hle (h.before x hx), h.order⟩

/-- The frame of one more line. -/
theorem Served.append {rest rest' : List Byte} {sent : List Sent}
    {m : MessageT} (h : Served input rest sent)
    (hm : (⟨rest, m⟩ : Sent).Answers input)
    (hlt : rest'.length < rest.length) :
    Served input rest' (sent ++ [⟨rest, m⟩]) := by
  have hbefore : ∀ n ∈ sent.map (fun x => x.stdin.length),
      rest.length < n := by
    intro n hn
    obtain ⟨x, hx, rfl⟩ := List.mem_map.mp hn
    exact h.before x hx
  refine ⟨?_, ?_, ?_⟩
  · intro x hx
    rcases List.mem_append.mp hx with hx | hx
    · exact h.answers x hx
    · rw [List.mem_singleton.mp hx]
      exact hm
  · intro x hx
    rcases List.mem_append.mp hx with hx | hx
    · exact Nat.lt_trans hlt (h.before x hx)
    · rw [List.mem_singleton.mp hx]
      exact hlt
  · rw [List.map_append, List.pairwise_append]
    refine ⟨h.order, List.pairwise_singleton _ _, ?_⟩
    intro n hn k hk
    rw [List.map_singleton, List.mem_singleton] at hk
    rw [hk]
    exact hbefore n hn

/-- The loop ends when every round takes what it should. -/
theorem run_of_accepted (user : UserEnv) (now : Nat → Int64)
    {rest : List Byte} (h : Accepted input rest)
    (hnul : 0 ∉ rest) {s : InputState} (hs : s.stdin = rest)
    (hserved : Served input rest s.sent) :
    ∃ fuel sent, inputLoop user now fuel s = some (.error (.ok sent)) ∧
      Served input [] sent := by
  induction h generalizing s with
  | @stops rest hne hrequest hfaithful =>
      subst hs
      obtain ⟨m, hinput, hround⟩ := exists_stops hne hnul hrequest
      exact ⟨1, _, loop_of_error trivial (inputTurn_stops hinput) 0,
        hserved.append (hfaithful.answers hround)
          (List.length_pos_iff.mpr hne)⟩
  | @sends rest hne hsends hfaithful _ ih =>
      subst hs
      obtain ⟨m, hinput, hround⟩ := exists_sends hne hnul hsends
      obtain ⟨line, hturn⟩ := inputTurn_sends hinput
      obtain ⟨fuel, sent, hrun, hsent⟩ := ih
        (s := ⟨line, _, s.rounds + 1, s.sent ++ [⟨s.stdin, m⟩]⟩)
        (fun h0 => hnul (List.mem_of_mem_drop h0)) (rest_of_round hne)
        (hserved.append (hfaithful.answers hround)
          (length_behindRound_lt hne))
      refine ⟨fuel + 1, sent, ?_, hsent⟩
      rw [inputLoop, loop_of_ok trivial hturn]
      exact hrun
  | @passes rest hne hrequest _ ih =>
      subst hs
      obtain ⟨line, hturn⟩ :=
        inputTurn_unknown (unknown_of_request hne hnul hrequest)
      obtain ⟨fuel, sent, hrun, hsent⟩ := ih
        (s := ⟨line, _, s.rounds + 1, s.sent⟩)
        (fun h0 => hnul (List.mem_of_mem_drop h0)) (rest_of_round hne)
        (hserved.mono (Nat.le_of_lt (length_behindRound_lt hne)))
      refine ⟨fuel + 1, sent, ?_, hsent⟩
      rw [inputLoop, loop_of_ok trivial hturn]
      exact hrun

/-- A line that fits is taken whole. -/
theorem round_line {line : List Byte} (rest : List Byte) (h : 10 ∉ line)
    (hfits : line.length ≤ 510) :
    roundText (line ++ 10 :: rest) = line ∧
      lineAt (line ++ 10 :: rest) = line ∧
      behindRound (line ++ 10 :: rest) = rest := by
  obtain ⟨hpiece, hline⟩ := linePiece_line (n := 510) rest h hfits
  have hpiece : linePiece maxMessageText (line ++ 10 :: rest) =
      line ++ [10] := hpiece
  have hsplit : line ++ 10 :: rest = (line ++ [10]) ++ rest := by simp
  refine ⟨?_, hline, ?_⟩
  · rw [roundText, hpiece, List.dropLast_concat]
  · rw [behindRound, hpiece, hsplit, List.drop_left]

theorem LineStart.next {line rest : List Byte}
    (h : LineStart input (line ++ 10 :: rest)) : LineStart input rest := by
  have hsuffix : (10 :: rest) <:+ line ++ 10 :: rest := ⟨line, rfl⟩
  rcases h with h | h
  · exact .inr (h ▸ hsuffix)
  · exact .inr (hsuffix.trans ((List.suffix_cons 10 _).trans h))

/-- Lines that fit into a round, each with a word, and with a text where
the command takes one; then a line that starts with `stop`. -/
theorem accepted_of_lines (lines : List (List Byte)) (last rest : List Byte)
    (hlines : ∀ line ∈ lines, 10 ∉ line ∧ line.length ≤ 510 ∧
      ((request line).Sends ∨ request line = .unknown))
    (hlast : 10 ∉ last) (hfits : last.length ≤ 510)
    (hstop : request last = .stop)
    (hstart : LineStart input
      (lines.flatMap (fun line => line ++ [10]) ++ (last ++ 10 :: rest))) :
    Accepted input
      (lines.flatMap (fun line => line ++ [10]) ++ (last ++ 10 :: rest)) := by
  induction lines with
  | nil =>
      obtain ⟨htext, hline, -⟩ := round_line rest hlast hfits
      rw [List.flatMap_nil, List.nil_append] at hstart ⊢
      refine .stops (by simp) (by rw [htext, hstop]) ⟨hstart, ?_⟩
      rw [htext, hline]
  | cons line lines ih =>
      rw [List.forall_mem_cons] at hlines
      obtain ⟨⟨hnewline, hshort, hrequest⟩, hlines⟩ := hlines
      have hnext : (line :: lines).flatMap (fun line => line ++ [10]) ++
          (last ++ 10 :: rest) = line ++ 10 ::
            (lines.flatMap (fun line => line ++ [10]) ++
              (last ++ 10 :: rest)) := by
        simp
      rw [hnext] at hstart ⊢
      obtain ⟨htext, hline, hbehind⟩ := round_line
        (lines.flatMap (fun line => line ++ [10]) ++ (last ++ 10 :: rest))
        hnewline hshort
      have haccepted := ih hlines hstart.next
      rw [← hbehind] at haccepted
      rcases hrequest with hsends | hunknown
      · refine .sends (by simp) (by rwa [htext]) ⟨hstart, ?_⟩ haccepted
        rw [htext, hline]
      · exact .passes (by simp) (by rw [htext, hunknown]) haccepted

/-- **The input is served exactly if each round up to one that takes a
`stop` takes a word, and takes a command only from a line of its own.** -/
theorem input_served_iff (user : UserEnv) (now : Nat → Int64)
    (input : List Byte) (hnul : 0 ∉ input) :
    InputServed user now input ↔ Accepted input input := by
  constructor
  · rintro ⟨fuel, sent, hrun, hall, -⟩
    exact (accepted_of_run hnul hrun hall).2
  · intro h
    obtain ⟨fuel, sent, hrun, hserved⟩ := run_of_accepted user now h hnul
      (s := .initial user input) rfl
      ⟨by simp [InputState.initial], by simp [InputState.initial],
        List.Pairwise.nil⟩
    exact ⟨fuel, sent, hrun, hserved.answers, hserved.order⟩

end Served

/-- `list` and `stop`. -/
theorem input_served_list_stop : InputServed UserEnv.zeros (fun _ => 0)
    [108, 105, 115, 116, 10, 115, 116, 111, 112, 10] := by
  apply (input_served_iff _ _ _ (by decide)).mpr
  refine accepted_of_lines [[108, 105, 115, 116]] [115, 116, 111, 112] []
    ?_ (by decide) (by decide) (by decide) (.inl rfl)
  intro line hline
  obtain rfl := List.mem_singleton.mp hline
  exact ⟨by decide, by decide, .inl trivial⟩

/-- An empty line has no command to compare, and an input that ends without
a `stop` has no next line. -/
theorem input_unserved :
    ¬ InputServed UserEnv.zeros (fun _ => 0) [10] ∧
      ¬ InputServed UserEnv.zeros (fun _ => 0) [108, 105, 115, 116, 10] := by
  have hempty : request (roundText [10]) = .nothing := by decide
  have hlist : request (roundText [108, 105, 115, 116, 10]) = .list := by
    decide
  constructor
  · rintro ⟨fuel, sent, hrun, hall, -⟩
    have haccepted : Accepted [10] [10] :=
      (accepted_of_run (by decide) hrun hall).2
    cases haccepted with
    | stops _ hstop =>
        rw [hempty] at hstop
        cases hstop
    | sends _ hsends =>
        rw [hempty] at hsends
        exact hsends
    | passes _ hunknown =>
        rw [hempty] at hunknown
        cases hunknown
  · rintro ⟨fuel, sent, hrun, hall, -⟩
    have haccepted : Accepted [108, 105, 115, 116, 10]
        [108, 105, 115, 116, 10] := (accepted_of_run (by decide) hrun hall).2
    cases haccepted with
    | stops _ hstop =>
        rw [hlist] at hstop
        cases hstop
    | passes _ hunknown =>
        rw [hlist] at hunknown
        cases hunknown
    | sends _ _ _ hrest =>
        -- nothing is left to be taken
        have hend : behindRound [108, 105, 115, 116, 10] = [] := by decide
        rw [hend] at hrest
        cases hrest <;> contradiction

end Sysops.Cw11
