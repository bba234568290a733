import Sysops.Cw03.Reverse

/-!
# The walk of `reverse_file` byte by byte

Where each turn of the loop reads, from the seeks that fail alone, on a file
that stays as it is. The loop goes as many turns as the file has bytes, and
a read at the end of the file gives a byte as well.
-/

namespace Sysops.Cw03.Bytes

open Stdio

section Walk

variable (env : Env)

/-- Where the stream stands before turn `j`: two bytes back after each byte
read, where the seek works. At the end of the file no byte is read. -/
def place : Nat → Nat
  | 0 => (env.file 0).length - 1
  | j + 1 =>
      let after := min (place j + 1) (env.file 0).length
      if env.fault (3 * j + 3) = none ∧ 2 ≤ after then after - 2 else after

/-- Where the bytes written before turn `j` come from. -/
def sources (j : Nat) : List Nat :=
  (List.range j).map (place env)

/-- The calls of turn `j` that are tested succeed. -/
def Succeeds (j : Nat) : Prop :=
  env.fault (3 * j + 1) = none ∧ env.fault (3 * j + 2) = none

end Walk

section States

variable {env : Env} {bytes : List UInt8} {j : Nat} {s : Locals}

/-- Before turn `j`. Behind the last byte `fputc` writes what is left of
`EOF`. -/
structure At (env : Env) (bytes : List UInt8) (j : Nat) (s : Locals) :
    Prop where
  remaining : s.bytesRemaining = (bytes.length : Int) - j
  pos : s.io.pos = place env j
  eof : s.io.eof = true → bytes.length ≤ place env j
  error : s.io.error = false
  written : s.io.written = (sources env j).map fun p => bytes.getD p 255
  calls : s.io.calls = 3 * j + 1

theorem place_le (hfile : ∀ i, env.file i = bytes) :
    place env j ≤ bytes.length := by
  cases j with
  | zero =>
      rw [place, hfile]
      exact Nat.sub_le _ _
  | succ j =>
      rw [place, hfile]
      split <;> omega

theorem unread_at (hfile : ∀ i, env.file i = bytes) (h : At env bytes j s) :
    unread env s.io = bytes.drop (place env j) := by
  rw [unread, hfile, h.pos]
  split
  · rename_i heof
    exact (List.drop_eq_nil_of_le (h.eof heof)).symm
  · rfl

theorem written_succ (h : At env bytes j s) :
    s.io.written ++ [bytes.getD (place env j) 255] =
      (sources env (j + 1)).map fun p => bytes.getD p 255 := by
  rw [h.written, sources, sources, List.range_succ, List.map_append,
    List.map_append]
  rfl

theorem turn_at (hfile : ∀ i, env.file i = bytes)
    (hlong : bytes.length < 2 ^ 63) (h : At env bytes j s)
    (hcalls : Succeeds env j) :
    ∃ t, turn env s = .ok t ∧ At env bytes (j + 1) t := by
  have hle : place env j ≤ bytes.length := place_le hfile
  have hunread := unread_at hfile h
  have hbyte : (unread env s.io).headD 255 = bytes.getD (place env j) 255 := by
    rw [hunread, List.headD_eq_head?_getD, List.head?_drop,
      List.getD_eq_getElem?_getD]
  have hafter : s.io.pos + ((unread env s.io).take 1).length =
      min (place env j + 1) bytes.length := by
    rw [hunread, h.pos, List.length_take, List.length_drop]
    omega
  have hcount : (copied env 1 [(unread env s.io).headD 255] s.io).calls =
      3 * j + 3 := by
    rw [copied, h.calls]
  have hturn := turn_ok h.error (by rw [h.calls]; exact hcalls.1)
    (by rw [h.calls]; exact hcalls.2)
  rw [fseek_back (p := min (place env j + 1) bytes.length) (n := 2) ?_
    (by omega)] at hturn
  · refine ⟨_, hturn, ?_, ?_, ?_, ?_, ?_, ?_⟩
    · show s.bytesRemaining - 1 = _
      rw [h.remaining]
      omega
    · rw [seekBack_pos hcount, place, hfile]
      show (if _ then _ else
        s.io.pos + ((unread env s.io).take 1).length) = _
      rw [hafter]
    · -- the end was met before, or in this turn, and the seek failed
      intro heof
      obtain ⟨hfails, heof⟩ := seekBack_eof hcount heof
      rw [place, hfile, if_neg hfails]
      rcases Bool.or_eq_true_iff.mp heof with heof | hshort
      · have hend := h.eof heof
        omega
      · have hnone := of_decide_eq_true hshort
        rw [h.pos] at hafter
        omega
    · rw [seekBack_error]
      exact h.error
    · rw [seekBack_written]
      show s.io.written ++ [(unread env s.io).headD 255] = _
      rw [hbyte, written_succ h]
    · rw [seekBack_calls, hcount]
      omega
  · show ((s.io.pos + ((unread env s.io).take 1).length : Nat) : Int) + -2 = _
    rw [hafter]
    rfl

theorem turn_fails (h : At env bytes j s) (hcalls : ¬ Succeeds env j) :
    ∃ io, turn env s = .error (-1, io) := by
  by_cases hread : env.fault s.io.calls = none
  · obtain ⟨c, hc, -⟩ := fgetc_ok hread
    rw [fread_ok hread] at hc
    have hwrite : env.fault (s.io.calls + 1) ≠ none := by
      rw [h.calls] at hread ⊢
      exact fun hwrite => hcalls ⟨hread, hwrite⟩
    have hput : ∀ io : Streams, io.calls = s.io.calls + 1 →
        (fputc env c io).1 = eof :=
      fun io hio => fputc_fails (hio ▸ hwrite) c
    refine ⟨(fputc env c (fgetc env s.io).2).2, ?_⟩
    simp only [turn, hc, ferror, h.error, hput, Bool.false_eq_true, if_false,
      if_true]
  · have herror : (fgetc env s.io).2.error = true := fgetc_fails hread
    refine ⟨(fgetc env s.io).2, ?_⟩
    simp only [turn, ferror, herror, if_true]

/-- The loop goes along the walk. -/
theorem loopWalk (hfile : ∀ i, env.file i = bytes)
    (hlong : bytes.length < 2 ^ 63) :
    LoopWalk Locals.Continues (turn env) (At env bytes)
      (fun j => j < bytes.length) (Succeeds env) fun r => r.1 = -1 where
  cond_iff j s h := by
    rw [Locals.Continues, h.remaining]
    omega
  turn j s h _ hcalls := turn_at hfile hlong h hcalls
  fail j s h _ hcalls := by
    obtain ⟨io, hio⟩ := turn_fails h hcalls
    exact ⟨_, hio, rfl⟩

end States

/-! ## What `reverse_file` returns -/

section Outcomes

variable {env : Env} {bytes : List UInt8} {j n : Nat}

theorem reverseFile_of_fault (hfault : env.fault 0 ≠ none) :
    ∃ io, ∀ fuel, reverseFile env fuel .opened = some (-1, io) := by
  have hseek : fseek env (-1) .end .opened = (-1, ⟨0, false, false, [], 1⟩) :=
    fseek_fails (.inl hfault)
  refine ⟨⟨0, false, false, [], 1⟩, fun fuel => ?_⟩
  simp only [reverseFile, hseek]
  rfl

/-- The state before the first turn. -/
theorem reverseFile_of_enters (hfile : ∀ i, env.file i = bytes)
    (hlong : bytes.length < 2 ^ 63) (hne : 0 < bytes.length)
    (hfault : env.fault 0 = none) :
    ∃ s, At env bytes 0 s ∧ ∀ fuel, reverseFile env fuel .opened =
      (loop Locals.Continues (turn env) fuel s).map returned := by
  have hseek : fseek env (-1) .end .opened =
      (0, ⟨(env.file 0).length - 1, false, false, [], 1⟩) :=
    fseek_end (n := 1) hfault rfl (by rw [hfile]; exact hne)
      (by rw [hfile]; exact hlong)
  rw [hfile] at hseek
  refine ⟨⟨ftell ⟨bytes.length - 1, false, false, [], 1⟩ + 1,
    ⟨bytes.length - 1, false, false, [], 1⟩⟩,
    ⟨?_, ?_, nofun, rfl, rfl, rfl⟩, fun fuel => ?_⟩
  · show ((bytes.length - 1 : Nat) : Int) + 1 = _
    omega
  · rw [place, hfile]
  · simp only [reverseFile, hseek, ne_eq, not_true, if_false]

/-- All turns succeed. -/
theorem reverseFile_ends (hfile : ∀ i, env.file i = bytes)
    (hlong : bytes.length < 2 ^ 63) (hne : 0 < bytes.length)
    (hfault : env.fault 0 = none)
    (hgo : ∀ j < bytes.length, Succeeds env j) :
    ∃ fuel io, reverseFile env fuel .opened = some (0, io) ∧
      io.written =
        (sources env bytes.length).map fun p => bytes.getD p 255 := by
  obtain ⟨s, hs, hrun⟩ := reverseFile_of_enters hfile hlong hne hfault
  obtain ⟨t, ht, hloop⟩ := (loopWalk hfile hlong).ends hs
    (fun j hj => ⟨hj, hgo j hj⟩) (Nat.lt_irrefl _)
  refine ⟨bytes.length, t.io, ?_, ht.written⟩
  rw [hrun, hloop]
  rfl

/-- Turn `n` meets a failure that is tested. -/
theorem reverseFile_fails (hfile : ∀ i, env.file i = bytes)
    (hlong : bytes.length < 2 ^ 63) (hne : 0 < bytes.length)
    (hfault : env.fault 0 = none) (hgo : ∀ j < n, Succeeds env j)
    (hn : n < bytes.length) (hfails : ¬ Succeeds env n) :
    ∃ fuel io, reverseFile env fuel .opened = some (-1, io) := by
  obtain ⟨s, hs, hrun⟩ := reverseFile_of_enters hfile hlong hne hfault
  obtain ⟨⟨_, io⟩, rfl, hloop⟩ := (loopWalk hfile hlong).fails hs
    (fun j hj => ⟨Nat.lt_trans hj hn, hgo j hj⟩) hn hfails
  refine ⟨n + 1, io, ?_⟩
  rw [hrun, hloop]
  rfl

/-- Two bytes back after each byte. -/
theorem place_of_seeks (hfile : ∀ i, env.file i = bytes)
    (hseeks : ∀ i < j, env.fault (3 * i + 3) = none)
    (hj : j < bytes.length) : place env j = bytes.length - 1 - j := by
  induction j with
  | zero =>
      rw [place, hfile]
      rfl
  | succ j ih =>
      have hbefore := ih (fun i hi => hseeks i (Nat.lt_succ_of_lt hi))
        (Nat.lt_of_succ_lt hj)
      rw [place, hbefore, hfile,
        if_pos ⟨hseeks j (Nat.lt_succ_self j), by omega⟩]
      omega

/-- Where the seeks work, the bytes come from the end of the file. -/
theorem sources_of_seeks (hfile : ∀ i, env.file i = bytes)
    (hseeks : ∀ i, i + 1 < j → env.fault (3 * i + 3) = none)
    (hj : j ≤ bytes.length) :
    sources env j = (List.range' (bytes.length - j) j).reverse := by
  rw [List.reverse_range', sources]
  refine List.map_congr_left fun i hi => ?_
  have hi := List.mem_range.mp hi
  rw [place_of_seeks hfile (fun k hk => hseeks k (by omega)) (by omega)]
  omega

theorem reverseFile_unique {m n : Nat} {io : Streams} {x y : Int × Streams}
    (hx : reverseFile env m io = some x) (hy : reverseFile env n io = some y) :
    x = y := by
  simp only [reverseFile] at hx hy
  split at hx
  · rename_i hseek
    rw [if_pos hseek, hx] at hy
    exact Option.some.inj hy
  · rename_i hseek
    rw [if_neg hseek] at hy
    exact returned_unique hx hy

end Outcomes

end Sysops.Cw03.Bytes
