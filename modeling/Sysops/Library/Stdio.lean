import Mathlib.Algebra.Group.Int.Defs
import Mathlib.Algebra.Group.Nat.Defs
import Mathlib.Data.List.Basic

/-!
# Streams of the standard library on regular files

One stream that is read and one that is written. What the stream that is
read shows of its file at each call, out of its buffer or out of the file,
and which calls fail, is an argument: an `Env`.
-/

namespace Sysops.Stdio

/-- What the calls meet, by their number. -/
structure Env where
  /-- What the stream shows of the file that is read: its length to a seek
  from the end, and its bytes to a read. -/
  file : Nat → List UInt8
  /-- A call that fails, and how many bytes it moves before. -/
  fault : Nat → Option Nat

/-- The stream that is read, and what was written to the other. -/
structure Streams where
  pos : Nat
  /-- The end-of-file indicator of the stream that is read. -/
  eof : Bool
  error : Bool
  written : List UInt8
  calls : Nat

inductive Whence where
  | cur | «end»

def eof : Int := -1

def Whence.base (env : Env) (io : Streams) : Whence → Nat
  | .cur => io.pos
  | .end => (env.file io.calls).length

/-- There are no positions before the start of a file, and none that do not
fit in a `long`. -/
def fseek (env : Env) (offset : Int) (whence : Whence) (io : Streams) :
    Int × Streams :=
  let target := whence.base env io + offset
  if env.fault io.calls = none ∧ 0 ≤ target ∧ target < 2 ^ 63 then
    (0, { io with pos := target.toNat, eof := false, calls := io.calls + 1 })
  else (-1, { io with calls := io.calls + 1 })

def ftell (io : Streams) : Int := io.pos

/-- What there is to read: nothing once the end was met, until a seek. -/
def unread (env : Env) (io : Streams) : List UInt8 :=
  if io.eof then [] else (env.file io.calls).drop io.pos

/-- `fread` of `size` bytes: the bytes that it moves to the buffer. -/
def fread (env : Env) (size : Nat) (io : Streams) : List UInt8 × Streams :=
  let data := (unread env io).take size
  match env.fault io.calls with
  | none => (data, { io with
      pos := io.pos + data.length
      eof := io.eof || decide (data.length < size)
      calls := io.calls + 1 })
  | some k =>
      -- fewer bytes than were asked for
      let data := data.take (min k (size - 1))
      (data, { io with
        pos := io.pos + data.length, error := true, calls := io.calls + 1 })

def fgetc (env : Env) (io : Streams) : Int × Streams :=
  match env.fault io.calls with
  | none =>
      match (unread env io).head? with
      | none => (eof, { io with eof := true, calls := io.calls + 1 })
      | some b => (b.toNat, { io with
          pos := io.pos + 1, calls := io.calls + 1 })
  | some _ => (eof, { io with error := true, calls := io.calls + 1 })

def ferror (io : Streams) : Bool := io.error

def fputc (env : Env) (c : Int) (io : Streams) : Int × Streams :=
  match env.fault io.calls with
  | none => ((UInt8.ofInt c).toNat, { io with
      written := io.written ++ [UInt8.ofInt c], calls := io.calls + 1 })
  | some _ => (eof, { io with calls := io.calls + 1 })

/-- The number of bytes written. -/
def fwrite (env : Env) (data : List UInt8) (io : Streams) : Nat × Streams :=
  match env.fault io.calls with
  | none => (data.length, { io with
      written := io.written ++ data, calls := io.calls + 1 })
  | some k =>
      let data := data.take (min k (data.length - 1))
      (data.length, { io with
        written := io.written ++ data, calls := io.calls + 1 })

/-- What is in the file that was written: where `fclose` cannot write what is
left in the buffer, only so many bytes. -/
def fclose (failure : Option Nat) (io : Streams) : Int × List UInt8 :=
  match failure with
  | none => (0, io.written)
  | some kept => (eof, io.written.take kept)

/-- Both streams just opened. -/
def Streams.opened : Streams := ⟨0, false, false, [], 0⟩

/-- A seek moves the position only, if anything. -/
@[simp] theorem fseek_error (env : Env) (offset : Int) (whence : Whence)
    (io : Streams) : (fseek env offset whence io).2.error = io.error := by
  rw [fseek]
  split <;> rfl

@[simp] theorem fseek_written (env : Env) (offset : Int) (whence : Whence)
    (io : Streams) : (fseek env offset whence io).2.written = io.written := by
  rw [fseek]
  split <;> rfl

section Calls

variable {env : Env} {io : Streams}

/-- A seek to `n` bytes before the end. -/
theorem fseek_end {offset : Int} {n : Nat} (hfault : env.fault io.calls = none)
    (hoffset : offset = -n) (hn : n ≤ (env.file io.calls).length)
    (hlong : (env.file io.calls).length < 2 ^ 63) :
    fseek env offset .end io = (0, { io with
      pos := (env.file io.calls).length - n
      eof := false
      calls := io.calls + 1 }) := by
  have hbase : (Whence.end.base env io : Int) + offset =
      ((env.file io.calls).length - n : Nat) := by
    show ((env.file io.calls).length : Int) + offset = _
    omega
  rw [fseek, if_pos ⟨hfault, by omega, by omega⟩, hbase, Int.toNat_natCast]

/-- A seek that fails, or would go before the start. -/
theorem fseek_fails {offset : Int} {whence : Whence}
    (h : env.fault io.calls ≠ none ∨ whence.base env io + offset < 0) :
    fseek env offset whence io =
      (-1, { io with calls := io.calls + 1 }) := by
  refine if_neg fun hgood => ?_
  rcases h with hfault | hneg
  · exact hfault hgood.1
  · exact absurd hgood.2.1 (Int.not_le.mpr hneg)

/-- A seek to `n` bytes before a place in the file; it may fail. -/
def seekBack (env : Env) (place n : Nat) (io : Streams) : Streams :=
  if env.fault io.calls = none ∧ n ≤ place then
    { io with pos := place - n, eof := false, calls := io.calls + 1 }
  else { io with calls := io.calls + 1 }

theorem seekBack_pos {c : Nat} (hcalls : io.calls = c) (p n : Nat) :
    (seekBack env p n io).pos =
      if env.fault c = none ∧ n ≤ p then p - n else io.pos := by
  subst hcalls
  rw [seekBack]
  split <;> rfl

/-- The end is forgotten by a seek that works only. -/
theorem seekBack_eof {c p n : Nat} (hcalls : io.calls = c)
    (h : (seekBack env p n io).eof = true) :
    ¬ (env.fault c = none ∧ n ≤ p) ∧ io.eof = true := by
  subst hcalls
  rw [seekBack] at h
  split at h
  · cases h
  · rename_i hfails
    exact ⟨hfails, h⟩

@[simp] theorem seekBack_error (p n : Nat) :
    (seekBack env p n io).error = io.error := by
  rw [seekBack]
  split <;> rfl

@[simp] theorem seekBack_written (p n : Nat) :
    (seekBack env p n io).written = io.written := by
  rw [seekBack]
  split <;> rfl

@[simp] theorem seekBack_calls (p n : Nat) :
    (seekBack env p n io).calls = io.calls + 1 := by
  rw [seekBack]
  split <;> rfl

theorem fseek_back {offset : Int} {p n : Nat}
    (htarget : (io.pos : Int) + offset = p - n) (hlong : p < 2 ^ 63) :
    (fseek env offset .cur io).2 = seekBack env p n io := by
  have hbase : (Whence.cur.base env io : Int) + offset = p - n := htarget
  rw [seekBack]
  split
  · rename_i h
    have hpos : ((p : Int) - n).toNat = p - n := by omega
    rw [fseek, if_pos ⟨h.1, by omega, by omega⟩, hbase, hpos]
  · rename_i h
    rw [fseek_fails]
    by_cases hfault : env.fault io.calls = none
    · refine .inr ?_
      have hless : ¬ n ≤ p := fun hle => h ⟨hfault, hle⟩
      omega
    · exact .inl hfault

theorem fread_ok (hfault : env.fault io.calls = none) (size : Nat) :
    fread env size io = ((unread env io).take size, { io with
      pos := io.pos + ((unread env io).take size).length
      eof := io.eof || decide (((unread env io).take size).length < size)
      calls := io.calls + 1 }) := by
  simp only [fread, hfault]

theorem fread_fails (hfault : env.fault io.calls ≠ none) (size : Nat) :
    (fread env size io).2.error = true := by
  obtain ⟨k, hk⟩ := Option.ne_none_iff_exists'.mp hfault
  simp only [fread, hk]

/-- `fgetc` reads like `fread`; at the end there is a byte all the same. -/
theorem fgetc_ok (hfault : env.fault io.calls = none) :
    ∃ c, fgetc env io = (c, (fread env 1 io).2) ∧
      UInt8.ofInt c = (unread env io).headD 255 := by
  rw [fread_ok hfault]
  cases hdata : unread env io with
  | nil =>
      refine ⟨eof, ?_, by decide⟩
      simp only [fgetc, hfault, hdata, List.head?_nil]
      simp
  | cons b rest =>
      refine ⟨b.toNat, ?_, ?_⟩
      · simp only [fgetc, hfault, hdata, List.head?_cons]
        simp
      · rw [UInt8.ofInt, Int.emod_eq_of_lt (Int.natCast_nonneg _)
          (by exact_mod_cast b.toNat_lt)]
        exact UInt8.ofNat_toNat

theorem fgetc_fails (hfault : env.fault io.calls ≠ none) :
    (fgetc env io).2.error = true := by
  obtain ⟨k, hk⟩ := Option.ne_none_iff_exists'.mp hfault
  simp only [fgetc, hk]

theorem fputc_ok (hfault : env.fault io.calls = none) (c : Int) :
    fputc env c io = (((UInt8.ofInt c).toNat : Int), { io with
      written := io.written ++ [UInt8.ofInt c], calls := io.calls + 1 }) := by
  simp only [fputc, hfault]

theorem fputc_fails (hfault : env.fault io.calls ≠ none) (c : Int) :
    (fputc env c io).1 = eof := by
  obtain ⟨k, hk⟩ := Option.ne_none_iff_exists'.mp hfault
  simp only [fputc, hk]

/-- That no byte is written cannot fail. -/
theorem fwrite_ok {data : List UInt8}
    (hfault : env.fault io.calls = none ∨ data = []) :
    fwrite env data io = (data.length, { io with
      written := io.written ++ data, calls := io.calls + 1 }) := by
  cases hcall : env.fault io.calls with
  | none => simp only [fwrite, hcall]
  | some k =>
      have hnil : data = [] := by
        rcases hfault with hfault | hnil
        · rw [hfault] at hcall
          cases hcall
        · exact hnil
      simp only [fwrite, hcall, hnil, List.take_nil]

theorem fwrite_fails {data : List UInt8} (hfault : env.fault io.calls ≠ none)
    (hdata : data ≠ []) : (fwrite env data io).1 < data.length := by
  obtain ⟨k, hk⟩ := Option.ne_none_iff_exists'.mp hfault
  have hpos : 0 < data.length := List.length_pos_iff.mpr hdata
  simp only [fwrite, hk, List.length_take]
  omega

end Calls

/-! ## Files that do not change, calls that do not fail -/

/-- The file stays as it is, and no call fails. -/
def Env.calm (file : List UInt8) : Env where
  file _ := file
  fault _ := none

end Sysops.Stdio
