import Sysops.Cw07.Client
import Sysops.Library.Loop

/-!
# The input loop of `cw07/client.c`

`handle_text_input` on a whole input, with no signal and no failing
`mq_send`. Each round sees one piece of a line, and the end of the input is
a round like any other: the loop is left by `:exit` only.
-/

namespace Sysops.Cw07

/-! ## The loop -/

structure InputState where
  stdin : List Byte
  rounds : Nat
  /-- The messages that the queue of the server has got. -/
  sent : List MsgT

/-- One round of `handle_text_input` with what is sent at its end. The array
holds `memory` before. -/
def inputTurn (memory : Nat → Bytes maxMsgBufSize) (clientId : Int)
    (s : InputState) : Except (List MsgT) InputState :=
  let r := handleTextInput (memory s.rounds) s.stdin
  let stdin := (fgets (memory s.rounds) s.stdin).2
  match r.2 with
  | .again => .ok ⟨stdin, s.rounds + 1, s.sent⟩
  | .leaves => .error s.sent
  | .sends => .ok ⟨stdin, s.rounds + 1,
      s.sent ++ [⟨MsgType.text.code, clientId, r.1⟩]⟩

/-- The loop; `is_running` stays `1`. -/
def inputLoop (memory : Nat → Bytes maxMsgBufSize) (clientId : Int)
    (fuel : Nat) (s : InputState) :
    Option (Except (List MsgT) InputState) :=
  loop (fun _ => True) (inputTurn memory clientId) fuel s

/-! ## What it is to do -/

/-- `:exit`. -/
abbrev exitLine : List Byte := [58, 101, 120, 105, 116]

/-- A line that fits into the array with its newline. -/
def Fits (line : List Byte) : Prop :=
  line.length + 1 ≤ maxMsgBufSize - 1

instance (line : List Byte) : Decidable (Fits line) :=
  inferInstanceAs (Decidable (_ ≤ _))

/-- The lines before the first `:exit`. -/
def linesBefore (input : List Byte) : List (List Byte) :=
  (linesOf input).takeWhile (· ≠ exitLine)

/-- The message carries the line. -/
def Carries (clientId : Int) (m : MsgT) (line : List Byte) : Prop :=
  m.type = MsgType.text.code ∧ m.id = clientId ∧ m.text.Holds line

/-- The loop ends, and what it sent are the lines before the first `:exit`
that fit, in order and each once. -/
def TextInputServed (memory : Nat → Bytes maxMsgBufSize) (clientId : Int)
    (input : List Byte) : Prop :=
  ∃ fuel sent, inputLoop memory clientId fuel ⟨input, 0, []⟩ =
      some (.error sent) ∧
    List.Forall₂ (Carries clientId) sent ((linesBefore input).filter Fits)

/-! ## One round -/

section Round

variable {stdin : List Byte} {buf : Bytes maxMsgBufSize}

theorem strlen_eq {text junk : List Byte} (hbuf : buf.toList = text ++ 0 :: junk)
    (hnul : 0 ∉ text) : strlen buf = text.length := by
  rw [strlen, hbuf, takeWhile_terminated hnul]

/-- Up to the newline, or to the end of the text. -/
theorem strcspnNewline_eq {text rest : List Byte} {c : Byte}
    (hbuf : buf.toList = text ++ c :: rest) (hnul : 0 ∉ text)
    (hnewline : 10 ∉ text) (hc : c = 0 ∨ c = 10) :
    strcspnNewline buf = text.length := by
  rw [strcspnNewline, hbuf, List.takeWhile_append_of_pos]
  · rcases hc with rfl | rfl <;> simp
  · intro b hb
    have hb0 : b ≠ 0 := fun h => hnul (h ▸ hb)
    have hb10 : b ≠ 10 := fun h => hnewline (h ▸ hb)
    simp [hb0, hb10]

/-- The end of the input is a round that does nothing. -/
theorem handleTextInput_nil (memory : Bytes maxMsgBufSize) :
    (handleTextInput memory []).2 = .again := by
  simp [handleTextInput]

/-- A round before the end takes what fits of a line. -/
theorem handleTextInput_eq (memory : Bytes maxMsgBufSize) (hne : stdin ≠ [])
    (hnul : 0 ∉ stdin) : ∃ buf,
    handleTextInput memory stdin =
      (buf, if (lineAt stdin).take 1023 = exitLine then .leaves
        else .sends) ∧
      buf.Holds ((lineAt stdin).take 1023) := by
  obtain ⟨⟨junk, hread⟩, -⟩ := fgets_eq (n := 1022) memory hne
  have hpiece0 : 0 ∉ linePiece (1022 + 2) stdin :=
    fun h => hnul (List.mem_of_mem_take h)
  have hlength : (linePiece (1022 + 2) stdin).length ≤ 1023 := by
    rw [linePiece, List.length_take]
    omega
  have hlen := strlen_eq hread hpiece0
  have hnotLong : ¬ strlen (fgets memory stdin).1 + 1 > maxMsgBufSize := by
    rw [hlen]
    exact Nat.not_lt.mpr (Nat.succ_le_succ hlength)
  -- the piece is its line, and behind it a newline or nothing
  obtain ⟨hsplit, hnewline, hbehind⟩ := lineAt_eq (linePiece (1022 + 2) stdin)
  have hline : lineAt (linePiece (1022 + 2) stdin) = (lineAt stdin).take 1023 :=
    lineAt_linePiece _ _
  rw [hline] at hsplit hnewline hbehind
  have hline0 : 0 ∉ (lineAt stdin).take 1023 := by
    intro h
    apply hpiece0
    rw [hsplit]
    exact List.mem_append_left _ h
  obtain ⟨c, rest, hbuf, hc⟩ : ∃ c rest, (fgets memory stdin).1.toList =
      (lineAt stdin).take 1023 ++ c :: rest ∧ (c = 0 ∨ c = 10) := by
    rw [hread, hsplit]
    rcases hbehind with hend | ⟨rest, hend⟩
    · exact ⟨0, junk, by rw [hend, List.append_nil], .inl rfl⟩
    · exact ⟨10, rest ++ 0 :: junk, by rw [hend]; simp, .inr rfl⟩
  have hcspn := strcspnNewline_eq hbuf hline0 hnewline hc
  have hroom : strcspnNewline (fgets memory stdin).1 + [(0 : Byte)].length ≤
      maxMsgBufSize := by
    have hle := strcspnNewline_le (fgets memory stdin).1
    rw [List.length_singleton]
    omega
  have hholds : ((fgets memory stdin).1.write
      (strcspnNewline (fgets memory stdin).1) [0] hroom).Holds
        ((lineAt stdin).take 1023) := by
    refine ⟨hline0, rest, ?_⟩
    rw [Bytes.toList_write_append hbuf hcspn.symm]
    simp
  have hexit : strncmp maxMsgBufSize ((fgets memory stdin).1.write
      (strcspnNewline (fgets memory stdin).1) [0] hroom).toList
        (literal ":exit") = 0 ↔ (lineAt stdin).take 1023 = exitLine := by
    obtain ⟨hnul, after, hheld⟩ := hholds
    rw [hheld]
    exact strncmp_short after [] hnul (by decide) (by decide)
  refine ⟨_, ?_, hholds⟩
  simp only [handleTextInput, if_neg hne, dif_neg hnotLong, hexit]
  split <;> rfl

/-- After a line that fits, the next round starts behind it. -/
theorem rest_of_fits (memory : Bytes maxMsgBufSize) (hne : stdin ≠ [])
    (hfits : Fits (lineAt stdin)) : (fgets memory stdin).2 =
      stdin.drop ((lineAt stdin).length + 1) := by
  have hfits : (lineAt stdin).length + 1 ≤ 1023 := hfits
  have hpiece : linePiece (1022 + 2) stdin =
      stdin.take ((lineAt stdin).length + 1) := by
    show stdin.take (min 1023 ((lineAt stdin).length + 1)) = _
    rw [Nat.min_eq_right hfits]
  rw [(fgets_eq (n := 1022) memory hne).2, hpiece, List.length_take]
  by_cases hend : (lineAt stdin).length + 1 ≤ stdin.length
  · rw [Nat.min_eq_left hend]
  · rw [Nat.min_eq_right (by omega), List.drop_length,
      List.drop_eq_nil_of_le (by omega)]

end Round

/-! ## When the loop does that -/

/-- There is a line `:exit`, and all lines before it fit. -/
def ExitsInTime (input : List Byte) : Prop :=
  exitLine ∈ linesOf input ∧ ∀ line ∈ linesBefore input, Fits line

section Served

variable {stdin : List Byte} {memory : Nat → Bytes maxMsgBufSize}
  {clientId : Int}

theorem linesBefore_eq (hne : stdin ≠ []) : linesBefore stdin =
    if lineAt stdin = exitLine then []
    else lineAt stdin ::
      linesBefore (stdin.drop ((lineAt stdin).length + 1)) := by
  rw [linesBefore, linesOf_eq hne]
  by_cases h : lineAt stdin = exitLine
  · rw [if_pos h, List.takeWhile_cons_of_neg (by simpa using h)]
  · rw [if_neg h, List.takeWhile_cons_of_pos (by simpa using h)]
    rfl

theorem exitsInTime_of_exit (hne : stdin ≠ [])
    (h : lineAt stdin = exitLine) : ExitsInTime stdin := by
  constructor
  · rw [linesOf_eq hne, h]
    exact List.mem_cons_self ..
  · rw [linesBefore_eq hne, if_pos h]
    exact fun line hline => absurd hline List.not_mem_nil

theorem exitsInTime_of_ne (hne : stdin ≠ []) (h : lineAt stdin ≠ exitLine) :
    ExitsInTime stdin ↔ Fits (lineAt stdin) ∧
      ExitsInTime (stdin.drop ((lineAt stdin).length + 1)) := by
  rw [ExitsInTime, ExitsInTime, linesBefore_eq hne, if_neg h, linesOf_eq hne,
    List.mem_cons, List.forall_mem_cons, or_iff_right h.symm]
  exact and_left_comm

/-- A short piece that is `:exit` is the whole line. -/
theorem take_eq_exit_iff (line : List Byte) :
    line.take 1023 = exitLine ↔ line = exitLine := by
  constructor
  · intro h
    have hlength := congrArg List.length h
    rw [List.length_take] at hlength
    simp only [List.length_cons, List.length_nil] at hlength
    rwa [List.take_of_length_le (by omega)] at h
  · rintro rfl
    rfl

theorem Carries.eq {m : MsgT} {line line' : List Byte}
    (h : Carries clientId m line) (h' : Carries clientId m line') :
    line = line' := by
  rw [← h.2.2.cstr_eq, h'.2.2.cstr_eq]

section Turn

variable (memory clientId) {s : InputState}

theorem inputTurn_again (h : s.stdin = []) :
    inputTurn memory clientId s = .ok ⟨[], s.rounds + 1, s.sent⟩ := by
  simp only [inputTurn, h, handleTextInput_nil, fgets_nil]

theorem inputTurn_leaves (hne : s.stdin ≠ []) (hnul : 0 ∉ s.stdin)
    (h : lineAt s.stdin = exitLine) :
    inputTurn memory clientId s = .error s.sent := by
  obtain ⟨buf, hround, -⟩ := handleTextInput_eq (memory s.rounds) hne hnul
  rw [if_pos ((take_eq_exit_iff _).mpr h)] at hround
  simp only [inputTurn, hround]

theorem inputTurn_sends (hne : s.stdin ≠ []) (hnul : 0 ∉ s.stdin)
    (h : lineAt s.stdin ≠ exitLine) :
    ∃ m, inputTurn memory clientId s =
        .ok ⟨(fgets (memory s.rounds) s.stdin).2, s.rounds + 1,
          s.sent ++ [m]⟩ ∧
      Carries clientId m ((lineAt s.stdin).take 1023) := by
  obtain ⟨buf, hround, hholds⟩ :=
    handleTextInput_eq (memory s.rounds) hne hnul
  rw [if_neg fun hexit => h ((take_eq_exit_iff _).mp hexit)] at hround
  exact ⟨⟨MsgType.text.code, clientId, buf⟩, by simp only [inputTurn, hround],
    rfl, rfl, hholds⟩

end Turn

theorem not_mem_rest (buf : Bytes maxMsgBufSize) (hnul : 0 ∉ stdin) :
    0 ∉ (fgets buf stdin).2 := by
  by_cases h : stdin = []
  · rw [h, fgets_nil]
    exact List.not_mem_nil
  · rw [(fgets_eq (n := 1022) buf h).2]
    exact fun h0 => hnul (List.mem_of_mem_drop h0)

/-- A run that sent the lines it should has met an `:exit` in time. -/
theorem exitsInTime_of_run {fuel : Nat} {s : InputState} {sent : List MsgT}
    (hnul : 0 ∉ s.stdin)
    (hrun : inputLoop memory clientId fuel s = some (.error sent)) :
    ∃ more, sent = s.sent ++ more ∧
      (List.Forall₂ (Carries clientId) more
        ((linesBefore s.stdin).filter Fits) → ExitsInTime s.stdin) := by
  induction fuel generalizing s with
  | zero => cases hrun
  | succ fuel ih =>
      by_cases hne : s.stdin = []
      · -- the same round again
        rw [inputLoop, loop_of_ok trivial (inputTurn_again memory clientId hne)] at hrun
        obtain ⟨more, hsent, hmore⟩ := ih List.not_mem_nil hrun
        rw [hne]
        exact ⟨more, hsent, hmore⟩
      by_cases hexit : lineAt s.stdin = exitLine
      · rw [inputLoop, loop_of_error trivial
          (inputTurn_leaves memory clientId hne hnul hexit)] at hrun
        cases hrun
        exact ⟨[], (List.append_nil _).symm,
          fun _ => exitsInTime_of_exit hne hexit⟩
      · obtain ⟨m, hturn, hcarries⟩ :=
          inputTurn_sends memory clientId hne hnul hexit
        rw [inputLoop, loop_of_ok trivial hturn] at hrun
        obtain ⟨more, hsent, hmore⟩ := ih (not_mem_rest _ hnul) hrun
        refine ⟨m :: more, by rw [hsent]; simp, ?_⟩
        rw [linesBefore_eq hne, if_neg hexit, exitsInTime_of_ne hne hexit]
        by_cases hfits : Fits (lineAt s.stdin)
        · rw [List.filter_cons_of_pos (by simpa using hfits)]
          intro hall
          have hrest : (fgets (memory s.rounds) s.stdin).2 = _ :=
            rest_of_fits (memory s.rounds) hne hfits
          simp only [hrest] at hmore
          exact ⟨hfits, hmore (List.forall₂_cons.mp hall).2⟩
        · -- a piece of the line has been sent, and no line is that long
          intro hall
          rw [List.filter_cons_of_neg (by simpa using hfits)] at hall
          obtain ⟨line, lines, hline, -, hlines⟩ :=
            List.forall₂_cons_left_iff.mp hall
          have hmem : line ∈ (linesBefore (s.stdin.drop
              ((lineAt s.stdin).length + 1))).filter Fits := by
            rw [hlines]
            exact List.mem_cons_self ..
          have hshort : line.length + 1 ≤ 1023 := by
            simpa [Fits] using (List.mem_filter.mp hmem).2
          have hlong : ¬ (lineAt s.stdin).length + 1 ≤ 1023 := hfits
          rw [hline.eq hcarries, List.length_take] at hshort
          omega

/-- An `:exit` in time ends the loop. -/
theorem run_of_exitsInTime {s : InputState} (hnul : 0 ∉ s.stdin)
    (h : ExitsInTime s.stdin) : ∃ fuel more,
    inputLoop memory clientId fuel s = some (.error (s.sent ++ more)) ∧
      List.Forall₂ (Carries clientId) more
        ((linesBefore s.stdin).filter Fits) := by
  induction hn : s.stdin.length using Nat.strongRecOn generalizing s with
  | ind n ih =>
      have hne : s.stdin ≠ [] := by
        intro hnil
        rw [hnil] at h
        exact absurd h.1 List.not_mem_nil
      by_cases hexit : lineAt s.stdin = exitLine
      · refine ⟨1, [], ?_, ?_⟩
        · rw [inputLoop, loop_of_error trivial
            (inputTurn_leaves memory clientId hne hnul hexit),
            List.append_nil]
        · rw [linesBefore_eq hne, if_pos hexit]
          exact .nil
      · obtain ⟨hfits, hrest⟩ := (exitsInTime_of_ne hne hexit).mp h
        obtain ⟨m, hturn, hcarries⟩ :=
          inputTurn_sends memory clientId hne hnul hexit
        have hbehind := rest_of_fits (memory s.rounds) hne hfits
        have hlength : (lineAt s.stdin).length + 1 ≤ 1023 := hfits
        rw [List.take_of_length_le (by omega)] at hcarries
        have hpos := List.length_pos_iff.mpr hne
        rw [hbehind] at hturn
        obtain ⟨fuel, more, hrun, hmore⟩ := ih
          (s.stdin.drop ((lineAt s.stdin).length + 1)).length
          (by rw [List.length_drop]; omega)
          (s := ⟨_, s.rounds + 1, s.sent ++ [m]⟩)
          (fun h0 => hnul (List.mem_of_mem_drop h0)) hrest rfl
        refine ⟨fuel + 1, m :: more, ?_, ?_⟩
        · rw [List.append_cons s.sent, inputLoop, loop_of_ok trivial hturn]
          exact hrun
        · rw [linesBefore_eq hne, if_neg hexit,
            List.filter_cons_of_pos (by simpa using hfits)]
          exact .cons hcarries hmore

/-- **The loop does what it is to do exactly on the inputs with a line
`:exit` before which all lines fit.** -/
theorem text_input_served_iff (memory : Nat → Bytes maxMsgBufSize)
    (clientId : Int) (input : List Byte) (hnul : 0 ∉ input) :
    TextInputServed memory clientId input ↔ ExitsInTime input := by
  constructor
  · rintro ⟨fuel, sent, hrun, hall⟩
    obtain ⟨more, rfl, hmore⟩ :=
      exitsInTime_of_run (s := ⟨input, 0, []⟩) hnul hrun
    exact hmore hall
  · intro h
    exact run_of_exitsInTime (s := ⟨input, 0, []⟩) hnul h

end Served

/-! ## An input with an `:exit`, and two without -/

/-- Arrays of zeros. -/
def zeroed (_ : Nat) : Bytes maxMsgBufSize := Bytes.ofList maxMsgBufSize []

/-- `hi` and `:exit`. -/
theorem text_input_served_hi : TextInputServed zeroed 0
    [104, 105, 10, 58, 101, 120, 105, 116, 10] :=
  (text_input_served_iff _ _ _ (by decide)).mpr (by
    constructor <;> decide)

/-- The end of the input does not end the loop. -/
theorem text_input_never_ends :
    ¬ TextInputServed zeroed 0 [104, 105, 10] := by
  rintro ⟨fuel, sent, hrun, hall⟩
  obtain ⟨more, rfl, hmore⟩ :=
    exitsInTime_of_run (s := ⟨[104, 105, 10], 0, []⟩) (by decide) hrun
  exact absurd (hmore hall).1 (by decide)

end Sysops.Cw07
