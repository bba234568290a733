import Sysops.Library.Loop
import Sysops.Library.Stdio
import Mathlib.Data.List.GetD

/-!
# `cw03/zad1/reverse.c`

The two versions of `reverse_file`: without `BLOCK_SIZE` byte by byte, with
it in blocks. Both move through the input from its end by relative seeks,
and both end with a seek that fails. On a file that is not empty they write
the same; the empty one has no last byte to seek to, and only the version
with blocks reverses it.
-/

namespace Sysops.Cw03

open Stdio

/-- What `unsigned long` arithmetic leaves of a value, as a `long`. -/
def longOf (x : Int) : Int := x.bmod (2 ^ 64)

theorem longOf_eq {x : Int} (hlow : -2 ^ 63 ≤ x) (hhigh : x < 2 ^ 63) :
    longOf x = x :=
  Int.bmod_eq_of_le hlow hhigh

/-- What the loops of `reverse_file` work on. -/
structure Locals where
  bytesRemaining : Int
  io : Streams

def Locals.Continues (s : Locals) : Prop :=
  0 < s.bytesRemaining

instance : DecidablePred Locals.Continues := fun s =>
  inferInstanceAs (Decidable (0 < s.bytesRemaining))

/-- What `reverse_file` returns after its loop or out of it. -/
def returned : Except (Int × Streams) Locals → Int × Streams
  | .error result => result
  | .ok s => (0, s.io)

/-! ## Byte by byte -/

namespace Bytes

/-- One turn of the loop. -/
def turn (env : Env) (s : Locals) : Except (Int × Streams) Locals :=
  let c := fgetc env s.io
  if ferror c.2 then .error (-1, c.2)
  else
    let put := fputc env c.1 c.2
    if put.1 = eof then .error (-1, put.2)
    -- whether this seek works is not tested, and the last one does not
    else .ok ⟨s.bytesRemaining - 1, (fseek env (-2) .cur put.2).2⟩

def reverseFile (env : Env) (fuel : Nat) (io : Streams) :
    Option (Int × Streams) :=
  let seek := fseek env (-1) .end io
  if seek.1 ≠ 0 then some (-1, seek.2)
  else
    (loop Locals.Continues (turn env) fuel
      ⟨ftell seek.2 + 1, seek.2⟩).map returned

end Bytes

/-! ## In blocks -/

namespace Blocks

/-- `text[i]` and `text[j]` change places. -/
def swap (text : List UInt8) (i j : Nat) : List UInt8 :=
  let temp := text.getD i 0
  (text.set i (text.getD j 0)).set j temp

def reverseText (text : List UInt8) (length : Nat) : List UInt8 :=
  (List.range (length / 2)).foldl
    (fun text i => swap text i (length - i - 1)) text

/-- `-BLOCK_SIZE - bytes_read`, which is a `size_t`, as the `long` that
`fseek` takes. -/
def offset (blockSize bytesRead : Nat) : Int :=
  longOf (-(blockSize : Int) - bytesRead)

/-- One turn of the loop. -/
def turn (env : Env) (blockSize : Nat) (s : Locals) :
    Except (Int × Streams) Locals :=
  let buf := fread env blockSize s.io
  if ferror buf.2 then .error (-1, buf.2)
  else
    let bytesRead := buf.1.length
    let written := fwrite env (reverseText buf.1 bytesRead) buf.2
    if written.1 < bytesRead then .error (-1, written.2)
    else .ok ⟨longOf (s.bytesRemaining - bytesRead),
      (fseek env (offset blockSize bytesRead) .cur written.2).2⟩

def reverseFile (env : Env) (blockSize fuel : Nat) (io : Streams) :
    Option (Int × Streams) :=
  let seek := fseek env 0 .end io
  if seek.1 ≠ 0 then some (-1, seek.2)
  else
    let bytesRemaining := ftell seek.2
    -- before the bytes that are over after whole blocks
    let seek := fseek env (bytesRemaining.tmod blockSize * -1) .end seek.2
    if seek.1 ≠ 0 then some (-1, seek.2)
    else
      (loop Locals.Continues (turn env blockSize) fuel
        ⟨bytesRemaining, seek.2⟩).map returned

end Blocks

/-! ## `reverse_text` reverses -/

namespace Blocks

@[simp] theorem length_swap (text : List UInt8) (i j : Nat) :
    (swap text i j).length = text.length := by
  simp [swap]

theorem getD_swap {text : List UInt8} {i j : Nat} (hi : i < text.length)
    (hj : j < text.length) (n : Nat) : (swap text i j).getD n 0 =
      if n = j then text.getD i 0
      else if n = i then text.getD j 0 else text.getD n 0 := by
  simp only [swap, List.getD_eq_getElem?_getD, List.getElem?_set,
    List.length_set, if_pos hi, if_pos hj]
  by_cases hnj : n = j
  · simp [hnj]
  · by_cases hni : n = i
    · subst hni
      simp [hnj, Ne.symm hnj]
    · simp [hni, hnj, Ne.symm hni, Ne.symm hnj]

/-- The first `m` turns. -/
def swaps (text : List UInt8) (m : Nat) : List UInt8 :=
  (List.range m).foldl (fun t i => swap t i (text.length - i - 1)) text

theorem swaps_succ (text : List UInt8) (m : Nat) : swaps text (m + 1) =
    swap (swaps text m) m (text.length - m - 1) := by
  rw [swaps, List.range_succ, List.foldl_append]
  rfl

theorem length_swaps (text : List UInt8) (m : Nat) :
    (swaps text m).length = text.length := by
  induction m with
  | zero => rfl
  | succ m ih => rw [swaps_succ, length_swap, ih]

/-- The outer `m` bytes on each side have changed places. -/
theorem getD_swaps {text : List UInt8} {m n : Nat}
    (hm : m ≤ text.length / 2) (hn : n < text.length) :
    (swaps text m).getD n 0 =
      if n < m ∨ text.length - m ≤ n then text.getD (text.length - 1 - n) 0
      else text.getD n 0 := by
  induction m generalizing n with
  | zero =>
      rw [if_neg (by omega)]
      rfl
  | succ m ih =>
      have hlength := length_swaps text m
      rw [swaps_succ, getD_swap (by omega) (by omega)]
      split
      · rename_i hlast
        rw [ih (by omega) (by omega), if_neg (by omega), if_pos (by omega)]
        congr 1
        omega
      · split
        · rename_i hne hfirst
          rw [ih (by omega) (by omega), if_neg (by omega), if_pos (by omega)]
          congr 1
          omega
        · rename_i hlast hfirst
          rw [ih (by omega) hn]
          by_cases hold : n < m ∨ text.length - m ≤ n
          · rw [if_pos hold, if_pos (by omega)]
          · rw [if_neg hold, if_neg (by omega)]

theorem reverseText_eq (text : List UInt8) :
    reverseText text text.length = text.reverse := by
  have hlength : (swaps text (text.length / 2)).length = text.length :=
    length_swaps text _
  show swaps text (text.length / 2) = text.reverse
  refine List.ext_getElem (by rw [hlength, List.length_reverse]) ?_
  intro n hn hr
  rw [hlength] at hn
  have hswaps := getD_swaps (Nat.le_refl _) hn
  rw [List.getElem_reverse, ← List.getD_eq_getElem _ 0, hswaps,
    ← List.getD_eq_getElem _ 0]
  split
  · rfl
  · -- the byte in the middle
    congr 1
    omega

end Blocks

/-! ## One turn -/

section Turn

variable {env : Env} {b : Nat} {s : Locals}

/-- The streams when what was read is written, before the seek. -/
def copied (env : Env) (size : Nat) (out : List UInt8) (io : Streams) :
    Streams :=
  { io with
    pos := io.pos + ((unread env io).take size).length
    eof := io.eof || decide (((unread env io).take size).length < size)
    written := io.written ++ out
    calls := io.calls + 2 }

/-- A turn whose calls succeed; at the end of the file there is a byte all
the same. -/
theorem Bytes.turn_ok (herror : s.io.error = false)
    (hread : env.fault s.io.calls = none)
    (hwrite : env.fault (s.io.calls + 1) = none) :
    turn env s = .ok ⟨s.bytesRemaining - 1, (fseek env (-2) .cur
      (copied env 1 [(unread env s.io).headD 255] s.io)).2⟩ := by
  obtain ⟨c, hc, hbyte⟩ := fgetc_ok hread
  have hput : ((((unread env s.io).headD 255).toNat : Nat) : Int) ≠ eof := by
    unfold eof
    omega
  have hfputc : ∀ io : Streams, io.calls = s.io.calls + 1 →
      fputc env c io = (((UInt8.ofInt c).toNat : Int), { io with
        written := io.written ++ [UInt8.ofInt c], calls := io.calls + 1 }) :=
    fun io hcalls => fputc_ok (hcalls ▸ hwrite) c
  rw [fread_ok hread] at hc
  simp only [turn, hc, ferror, herror, hfputc, hbyte, if_neg hput,
    Bool.false_eq_true, if_false, copied]

/-- A turn whose calls succeed, or which has nothing to write. -/
theorem Blocks.turn_ok (herror : s.io.error = false)
    (hread : env.fault s.io.calls = none)
    (hwrite : env.fault (s.io.calls + 1) = none ∨
      (unread env s.io).take b = []) :
    turn env b s = .ok
      ⟨longOf (s.bytesRemaining - ((unread env s.io).take b).length),
        (fseek env (offset b ((unread env s.io).take b).length) .cur
          (copied env b ((unread env s.io).take b).reverse s.io)).2⟩ := by
  have hall : ¬ ((unread env s.io).take b).reverse.length <
      ((unread env s.io).take b).length := by
    rw [List.length_reverse]
    exact Nat.lt_irrefl _
  have hwrite' : env.fault (s.io.calls + 1) = none ∨
      ((unread env s.io).take b).reverse = [] :=
    hwrite.imp_right List.reverse_eq_nil_iff.mpr
  have hfwrite : ∀ io : Streams, io.calls = s.io.calls + 1 →
      fwrite env ((unread env s.io).take b).reverse io =
        (((unread env s.io).take b).reverse.length, { io with
          written := io.written ++ ((unread env s.io).take b).reverse
          calls := io.calls + 1 }) :=
    fun io hcalls => fwrite_ok (hcalls ▸ hwrite')
  simp only [turn, fread_ok hread, ferror, herror, reverseText_eq,
    hfwrite, if_neg hall, Bool.false_eq_true, if_false, copied]

end Turn

/-! ## Both reverse the file -/

/-- A regular file: its size fits in a `long`. -/
structure RegularFile where
  bytes : List UInt8
  size_lt : bytes.length < 2 ^ 63

section Reversal

variable {bytes : List UInt8} {b k : Nat} {s : Locals}

/-- Before a turn, with `k` whole blocks left: the last of them is the next
to be read, and what is behind them is written. -/
structure Reversed (bytes : List UInt8) (b k : Nat) (s : Locals) : Prop where
  remaining : s.bytesRemaining = (k * b : Nat)
  le : k * b ≤ bytes.length
  pos : 1 ≤ k → s.io.pos = (k - 1) * b
  eof : 1 ≤ k → s.io.eof = false
  error : s.io.error = false
  written : s.io.written = (bytes.drop (k * b)).reverse

theorem reverse_drop (bytes : List UInt8) (a n : Nat) :
    (bytes.drop a).reverse =
      (bytes.drop (a + n)).reverse ++ ((bytes.drop a).take n).reverse := by
  rw [← List.reverse_append, ← List.drop_drop, List.take_append_drop]

/-- The seek at the end of a turn; the last one fails. -/
theorem reversed_of_seek (hlong : bytes.length < 2 ^ 63)
    (hle : k * b ≤ bytes.length) {io : Streams} {offset : Int}
    (herror : io.error = false)
    (hwritten : io.written = (bytes.drop (k * b)).reverse)
    (hoffset : 1 ≤ k → (io.pos : Int) + offset = ((k - 1) * b : Nat)) :
    Reversed bytes b k
      ⟨(k * b : Nat), (fseek (.calm bytes) offset .cur io).2⟩ := by
  have hseek : 1 ≤ k → (fseek (.calm bytes) offset .cur io).2 =
      { io with pos := (k - 1) * b, eof := false, calls := io.calls + 1 } := by
    intro hk
    have hless : (k - 1) * b ≤ k * b := Nat.mul_le_mul_right b (Nat.sub_le k 1)
    have htarget : (io.pos : Int) + offset =
        ((k - 1) * b : Nat) - (0 : Nat) := by
      rw [hoffset hk, Int.natCast_zero, Int.sub_zero]
    rw [fseek_back htarget (by omega), seekBack,
      if_pos ⟨rfl, Nat.zero_le _⟩, Nat.sub_zero]
  refine ⟨rfl, hle, fun hk => ?_, fun hk => ?_, ?_, ?_⟩
  · rw [hseek hk]
  · rw [hseek hk]
  · rw [fseek_error]
    exact herror
  · rw [fseek_written]
    exact hwritten

/-- A run that ends, succeeds and has written the file in reverse. -/
def Reverses (bytes : List UInt8) (x : Int × Streams) : Prop :=
  x.1 = 0 ∧ x.2.written = bytes.reverse

/-- The loop goes on until nothing is left. -/
theorem loop_reverses {turn : Locals → Except (Int × Streams) Locals}
    (hb : 1 ≤ b)
    (hturn : ∀ k s, Reversed bytes b (k + 1) s →
      ∃ t, turn s = .ok t ∧ Reversed bytes b k t) (hs : Reversed bytes b k s) :
    ∃ fuel x, loop Locals.Continues turn fuel s = some x ∧
      Reverses bytes (returned x) := by
  refine loop_total (I := fun s => ∃ k, Reversed bytes b k s)
    (Q := fun x => Reverses bytes (returned x))
    (fun s => s.bytesRemaining.toNat) ?_ ?_ ⟨k, hs⟩
  · rintro s ⟨k, hs⟩ hcontinues
    unfold Locals.Continues at hcontinues
    cases k with
    | zero =>
        rw [hs.remaining, Nat.zero_mul] at hcontinues
        exact absurd hcontinues (Int.lt_irrefl _)
    | succ k =>
        obtain ⟨t, ht, hreversed⟩ := hturn k s hs
        refine .inr ⟨t, ht, ⟨k, hreversed⟩, ?_⟩
        rw [hs.remaining, hreversed.remaining, Int.toNat_natCast,
          Int.toNat_natCast, Nat.succ_mul]
        omega
  · -- nothing remains, so all is written
    rintro s ⟨k, hs⟩ hcontinues
    have hzero : k * b = 0 := by
      unfold Locals.Continues at hcontinues
      rw [hs.remaining] at hcontinues
      omega
    refine ⟨rfl, ?_⟩
    show s.io.written = _
    rw [hs.written, hzero, List.drop_zero]

namespace Bytes

theorem turn_calm (hs : Reversed bytes 1 (k + 1) s)
    (hlong : bytes.length < 2 ^ 63) :
    ∃ t, turn (.calm bytes) s = .ok t ∧ Reversed bytes 1 k t := by
  have hle := hs.le
  have hpos : s.io.pos = k := by
    rw [hs.pos (by omega)]
    omega
  have hunread : unread (.calm bytes) s.io = bytes[k] :: bytes.drop (k + 1) := by
    rw [unread, hs.eof (by omega), if_neg Bool.false_ne_true, hpos]
    show bytes.drop k = _
    exact List.drop_eq_getElem_cons (by omega)
  have hremaining : s.bytesRemaining - 1 = (k * 1 : Nat) := by
    rw [hs.remaining]
    omega
  refine ⟨_, turn_ok hs.error rfl rfl, ?_⟩
  rw [hremaining, hunread]
  refine reversed_of_seek hlong (by omega) hs.error ?_ ?_
  · show s.io.written ++ [bytes[k]] = _
    rw [hs.written, Nat.mul_one, Nat.mul_one,
      List.drop_eq_getElem_cons (i := k) (by omega), List.reverse_cons]
  · intro hone
    show ((s.io.pos + ((unread (.calm bytes) s.io).take 1).length : Nat) : Int) +
      -2 = _
    rw [hunread, hpos, List.take_succ_cons, List.take_zero,
      List.length_singleton]
    omega

theorem reverseFile_calm (f : RegularFile) (hne : f.bytes ≠ []) :
    ∃ fuel x, reverseFile (.calm f.bytes) fuel .opened = some x ∧
      Reverses f.bytes x := by
  obtain ⟨bytes, hlong⟩ := f
  have hpositive : 0 < bytes.length := List.length_pos_iff.mpr hne
  have hseek : fseek (.calm bytes) (-1) .end .opened =
      (0, ⟨bytes.length - 1, false, false, [], 1⟩) :=
    fseek_end rfl rfl hpositive hlong
  have hstart : Reversed bytes 1 bytes.length
      ⟨ftell ⟨bytes.length - 1, false, false, [], 1⟩ + 1,
        ⟨bytes.length - 1, false, false, [], 1⟩⟩ := by
    refine ⟨?_, by omega, fun _ => (Nat.mul_one _).symm, fun _ => rfl, rfl, ?_⟩
    · show ((bytes.length - 1 : Nat) : Int) + 1 = _
      omega
    · rw [Nat.mul_one, List.drop_length]
      rfl
  obtain ⟨fuel, x, hx, hreverses⟩ := loop_reverses (Nat.le_refl 1)
    (fun k s hs => turn_calm hs hlong) hstart
  refine ⟨fuel, returned x, ?_, hreverses⟩
  simp only [reverseFile, hseek, ne_eq, not_true, if_false]
  rw [hx]
  rfl

end Bytes

namespace Blocks

/-- A turn that reads `n` bytes. -/
theorem turn_calm {n : Nat} (herror : s.io.error = false)
    (heof : s.io.eof = false)
    (hn : ((bytes.drop s.io.pos).take b).length = n) :
    turn (.calm bytes) b s = .ok ⟨longOf (s.bytesRemaining - n),
      (fseek (.calm bytes) (offset b n) .cur
        { s.io with
          pos := s.io.pos + n
          eof := decide (n < b)
          written := s.io.written ++
            ((bytes.drop s.io.pos).take b).reverse
          calls := s.io.calls + 2 }).2⟩ := by
  have hunread : unread (.calm bytes) s.io = bytes.drop s.io.pos := by
    rw [unread, heof]
    rfl
  rw [turn_ok herror rfl (.inl rfl), copied, hunread, hn, heof]
  rfl

/-- A turn that reads a whole block. -/
theorem turn_block (hb : 1 ≤ b) (hs : Reversed bytes b (k + 1) s)
    (hlong : bytes.length < 2 ^ 63) :
    ∃ t, turn (.calm bytes) b s = .ok t ∧ Reversed bytes b k t := by
  have hle := hs.le
  have hsucc : (k + 1) * b = k * b + b := Nat.succ_mul k b
  have hpos : s.io.pos = k * b := by
    rw [hs.pos (by omega), Nat.add_sub_cancel]
  have hn : ((bytes.drop s.io.pos).take b).length = b := by
    rw [hpos, List.length_take, List.length_drop]
    omega
  have hremaining : longOf (s.bytesRemaining - b) = (k * b : Nat) := by
    rw [hs.remaining, longOf_eq (by omega) (by omega)]
    omega
  refine ⟨_, turn_calm hs.error (hs.eof (by omega)) hn, ?_⟩
  rw [hremaining]
  refine reversed_of_seek hlong (by omega) hs.error ?_ ?_
  · show s.io.written ++ ((bytes.drop s.io.pos).take b).reverse = _
    rw [hs.written, hpos, hsucc, ← reverse_drop]
  · intro hk
    obtain ⟨j, rfl⟩ : ∃ j, k = j + 1 := ⟨k - 1, by omega⟩
    have hj : (j + 1) * b = j * b + b := Nat.succ_mul j b
    show ((s.io.pos + b : Nat) : Int) + offset b b = _
    rw [offset, longOf_eq (by omega) (by omega), hpos, Nat.add_sub_cancel]
    omega

/-- The first turn, which reads what is over after whole blocks. -/
theorem turn_first (hb : 1 ≤ b) (hlong : bytes.length < 2 ^ 63)
    (hremaining : s.bytesRemaining = bytes.length)
    (hpos : s.io.pos = bytes.length - bytes.length % b)
    (heof : s.io.eof = false)
    (herror : s.io.error = false) (hwritten : s.io.written = []) :
    ∃ t, turn (.calm bytes) b s = .ok t ∧
      Reversed bytes b (bytes.length / b) t := by
  have hlt : bytes.length % b < b := Nat.mod_lt _ hb
  have hdiv : bytes.length / b * b + bytes.length % b = bytes.length := by
    rw [Nat.mul_comm]
    exact Nat.div_add_mod _ _
  have hn : ((bytes.drop s.io.pos).take b).length = bytes.length % b := by
    rw [hpos, List.length_take, List.length_drop]
    omega
  -- the bytes read, fewer than a block, are those behind whole blocks
  have hrest : longOf (s.bytesRemaining - (bytes.length % b : Nat)) =
      (bytes.length / b * b : Nat) := by
    rw [hremaining, longOf_eq (by omega) (by omega)]
    omega
  refine ⟨_, turn_calm herror heof hn, ?_⟩
  rw [hrest]
  refine reversed_of_seek hlong (by omega) herror ?_ ?_
  · show s.io.written ++ ((bytes.drop s.io.pos).take b).reverse = _
    rw [hwritten, List.nil_append, hpos]
    have hall : (bytes.drop (bytes.length - bytes.length % b)).length ≤ b := by
      rw [List.length_drop]
      omega
    rw [List.take_of_length_le hall]
    congr 2
    omega
  · -- with a block left before, the `long` holds the offset
    intro hk
    obtain ⟨j, hj⟩ : ∃ j, bytes.length / b = j + 1 :=
      ⟨bytes.length / b - 1, by omega⟩
    rw [hj, Nat.succ_mul] at hdiv
    rw [hj, Nat.add_sub_cancel]
    show ((s.io.pos + bytes.length % b : Nat) : Int) +
      offset b (bytes.length % b) = _
    rw [offset, longOf_eq (by omega) (by omega), hpos]
    omega

theorem reverseFile_calm (f : RegularFile) (hb : 1 ≤ b) :
    ∃ fuel x, reverseFile (.calm f.bytes) b fuel .opened = some x ∧
      Reverses f.bytes x := by
  obtain ⟨bytes, hlong⟩ := f
  have hle : bytes.length % b ≤ bytes.length := Nat.mod_le _ _
  have hend : fseek (.calm bytes) 0 .end .opened =
      (0, ⟨bytes.length, false, false, [], 1⟩) :=
    fseek_end (n := 0) rfl rfl (Nat.zero_le _) hlong
  have hseek : fseek (.calm bytes) ((bytes.length : Int).tmod b * -1) .end
      ⟨bytes.length, false, false, [], 1⟩ =
      (0, ⟨bytes.length - bytes.length % b, false, false, [], 2⟩) := by
    refine fseek_end rfl ?_ hle hlong
    rw [← Int.ofNat_tmod]
    omega
  obtain ⟨t, ht, hreversed⟩ := turn_first (s := ⟨bytes.length,
    ⟨bytes.length - bytes.length % b, false, false, [], 2⟩⟩) hb hlong rfl rfl rfl rfl
    rfl
  have hloop : ∃ fuel x, loop Locals.Continues (turn (.calm bytes) b) fuel
      ⟨bytes.length, ⟨bytes.length - bytes.length % b, false, false, [], 2⟩⟩ =
        some x ∧ Reverses bytes (returned x) := by
    by_cases hcontinues : 0 < bytes.length
    · obtain ⟨fuel, x, hx, hreverses⟩ := loop_reverses hb
        (fun k s hs => turn_block hb hs hlong) hreversed
      refine ⟨fuel + 1, x, ?_, hreverses⟩
      have hstart : Locals.Continues ⟨bytes.length,
          ⟨bytes.length - bytes.length % b, false, false, [], 2⟩⟩ :=
        Int.natCast_pos.mpr hcontinues
      rw [loop_of_ok hstart ht, hx]
    · -- the loop of the empty file has no turns
      have hnil : bytes = [] := List.length_eq_zero_iff.mp (by omega)
      refine ⟨0, _, loop_of_not ?_ 0, rfl, ?_⟩
      · exact fun h => hcontinues (Int.natCast_pos.mp h)
      · rw [hnil]
        rfl
  obtain ⟨fuel, x, hx, hreverses⟩ := hloop
  refine ⟨fuel, returned x, ?_, hreverses⟩
  simp only [reverseFile, hend, ftell, hseek, ne_eq, not_true, if_false]
  rw [hx]
  rfl

end Blocks

end Reversal

/-! ## Where the two versions agree -/

/-- There is no last byte to seek to. -/
theorem Bytes.reverseFile_nil (fuel : Nat) :
    Bytes.reverseFile (.calm []) fuel .opened =
      some (-1, ⟨0, false, false, [], 1⟩) := by
  have hseek : fseek (.calm []) (-1) .end .opened =
      (-1, ⟨0, false, false, [], 1⟩) :=
    fseek_fails (.inr (by decide))
  simp only [Bytes.reverseFile, hseek]
  rfl

/-- The fuel does not change what is returned. -/
theorem returned_unique {turn : Locals → Except (Int × Streams) Locals}
    {m n : Nat} {s : Locals} {x y : Int × Streams}
    (hx : (loop Locals.Continues turn m s).map returned = some x)
    (hy : (loop Locals.Continues turn n s).map returned = some y) : x = y := by
  obtain ⟨u, hu, rfl⟩ := Option.map_eq_some_iff.mp hx
  obtain ⟨v, hv, rfl⟩ := Option.map_eq_some_iff.mp hy
  rw [loop_unique hu hv]

theorem Blocks.reverseFile_unique {env : Env} {b m n : Nat} {io : Streams}
    {x y : Int × Streams} (hx : Blocks.reverseFile env b m io = some x)
    (hy : Blocks.reverseFile env b n io = some y) : x = y := by
  simp only [Blocks.reverseFile] at hx hy
  split at hx
  · rename_i hseek
    rw [if_pos hseek, hx] at hy
    exact Option.some.inj hy
  · rename_i hseek
    rw [if_neg hseek] at hy
    split at hx
    · rename_i hseek
      rw [if_pos hseek, hx] at hy
      exact Option.some.inj hy
    · rename_i hseek
      rw [if_neg hseek] at hy
      exact returned_unique hx hy

/-- Both versions end, with one status and the same bytes written. -/
def Agree (f : RegularFile) (blockSize : Nat) : Prop :=
  ∃ m n x y, Bytes.reverseFile (.calm f.bytes) m .opened = some x ∧
    Blocks.reverseFile (.calm f.bytes) blockSize n .opened = some y ∧
    x.1 = y.1 ∧ x.2.written = y.2.written

theorem not_agree_of_nil {f : RegularFile} {blockSize : Nat}
    (hb : 1 ≤ blockSize) (hnil : f.bytes = []) : ¬ Agree f blockSize := by
  rintro ⟨m, n, x, y, hx, hy, hstatus, -⟩
  obtain ⟨fuel, z, hz, hreverses⟩ := Blocks.reverseFile_calm f hb
  rw [hnil, Bytes.reverseFile_nil] at hx
  obtain rfl := Option.some.inj hx
  obtain rfl := Blocks.reverseFile_unique hy hz
  rw [hreverses.1] at hstatus
  exact absurd hstatus (by decide)

/-- **The two versions agree exactly on the files that are not empty.** -/
theorem agree_iff (f : RegularFile) {blockSize : Nat} (hb : 1 ≤ blockSize) :
    Agree f blockSize ↔ f.bytes ≠ [] := by
  constructor
  · intro hagree hnil
    exact not_agree_of_nil hb hnil hagree
  · intro hne
    obtain ⟨m, x, hx, hxreverses⟩ := Bytes.reverseFile_calm f hne
    obtain ⟨n, y, hy, hyreverses⟩ := Blocks.reverseFile_calm f hb
    refine ⟨m, n, x, y, hx, hy, ?_, ?_⟩
    · rw [hxreverses.1, hyreverses.1]
    · rw [hxreverses.2, hyreverses.2]

theorem agree_two_bytes :
    ∃ f : RegularFile, f.bytes = [104, 105] ∧ Agree f 1024 :=
  ⟨⟨[104, 105], by decide⟩, rfl, (agree_iff _ (by decide)).mpr (by decide)⟩

theorem empty_file_differs :
    ¬ ∀ (f : RegularFile) (blockSize : Nat), 1 ≤ blockSize →
      Agree f blockSize := fun hclaim =>
  not_agree_of_nil (f := ⟨[], by decide⟩) (by decide) rfl
    (hclaim _ 1024 (by decide))

end Sysops.Cw03
