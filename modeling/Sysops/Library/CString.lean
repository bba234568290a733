import Sysops.Library.ByteOrder
import Sysops.Library.Result
import Mathlib.Data.Vector.Basic
import Mathlib.Data.List.TakeWhile

/-!
# Byte arrays and C strings

`char[n]` as a vector, pointers as the list of the bytes from the pointer
to the end of what is mapped, and the `string.h` functions over them. A
function that leaves the memory it was given ends in a fault.
-/

namespace Sysops

/-- Ways in which a call ends without returning. -/
inductive Fault where
  | nullPointer
  | outOfBounds
  /-- A result that its signed type cannot hold. -/
  | overflow
  /-- Waiting for a mutex that nobody is going to release. -/
  | deadlock
  /-- The signal for what nobody is going to read, and no handler for it. -/
  | sigpipe
  deriving DecidableEq, Repr

/-- `char[n]`. -/
abbrev Bytes (n : Nat) := List.Vector Byte n

namespace Bytes

variable {n : Nat}

/-- The `len` bytes at offset `off`. -/
def read (buf : Bytes n) (off len : Nat) (h : off + len ≤ n) : Bytes len :=
  ⟨(buf.toList.drop off).take len, by simp; omega⟩

/-- `memcpy(buf + off, src, src.length)`. -/
def write (buf : Bytes n) (off : Nat) (src : List Byte)
    (h : off + src.length ≤ n) : Bytes n :=
  ⟨buf.toList.take off ++ src ++ buf.toList.drop (off + src.length), by
    simp; omega⟩

@[simp] theorem toList_read (buf : Bytes n) (off len : Nat)
    (h : off + len ≤ n) :
    (buf.read off len h).toList = (buf.toList.drop off).take len := rfl

theorem toList_write (buf : Bytes n) (off : Nat) (src : List Byte)
    (h : off + src.length ≤ n) :
    (buf.write off src h).toList =
      buf.toList.take off ++ src ++ buf.toList.drop (off + src.length) := rfl

/-- Writing right behind a known prefix extends the prefix. -/
theorem toList_write_append {buf : Bytes n} {p rest src : List Byte}
    (hbuf : buf.toList = p ++ rest) {k : Nat} (hk : p.length = k)
    (h : k + src.length ≤ n) :
    (buf.write k src h).toList = (p ++ src) ++ rest.drop src.length := by
  subst hk
  rw [toList_write, hbuf, List.take_left, List.drop_append]
  simp

/-- Reading behind a known prefix. -/
theorem toList_read_append {buf : Bytes n} {p mid rest : List Byte}
    (hbuf : buf.toList = p ++ (mid ++ rest)) {k len : Nat}
    (hk : p.length = k) (hlen : mid.length = len)
    (h : k + len ≤ n) : (buf.read k len h).toList = mid := by
  subst hk hlen
  rw [toList_read, hbuf, List.drop_left, List.take_left]

/-- Reading inside what was read. -/
theorem read_read (buf : Bytes n) {off len i k : Nat} (h : off + len ≤ n)
    (hik : i + k ≤ len) :
    (buf.read off len h).read i k hik = buf.read (off + i) k (by omega) := by
  apply List.Vector.eq
  simp only [toList_read, List.drop_take, List.drop_drop, List.take_take]
  rw [Nat.min_eq_left (by omega)]

/-- The text, cut or filled up with zero bytes to the size of the array. -/
def ofList (n : Nat) (l : List Byte) : Bytes n :=
  ⟨l.take n ++ List.replicate (n - l.length) 0, by simp; omega⟩

end Bytes

/-- The bytes of a string literal, its terminator included. -/
def literal (s : String) : List Byte :=
  s.toList.map (fun c => UInt8.ofNat c.toNat) ++ [0]

/-- `none` is the null pointer. -/
abbrev Pointer := Option (List Byte)

/-- What `memcpy(_, src, n)` copies. -/
def memcpy (n : Nat) : Pointer → Except Fault (Bytes n)
  | none => .error .nullPointer
  | some src =>
      if h : n ≤ src.length then .ok ⟨src.take n, by simp [h]⟩
      else .error .outOfBounds

theorem memcpy_eq_ok {n : Nat} {src : List Byte} {v : Bytes n} :
    memcpy n (some src) = .ok v ↔ v.toList <+: src := by
  have hlen : v.toList.length = n := v.toList_length
  rw [memcpy]
  constructor
  · intro h
    split at h
    · cases h
      exact List.take_prefix n src
    · cases h
  · intro h
    have hle : n ≤ src.length := hlen ▸ h.length_le
    rw [dif_pos hle]
    congr 1
    apply List.Vector.eq
    rw [List.Vector.toList_mk, List.prefix_iff_eq_take.mp h, hlen]

@[simp] theorem memcpy_toList {n : Nat} (v : Bytes n) :
    memcpy n (some v.toList) = .ok v :=
  memcpy_eq_ok.mpr List.prefix_rfl

theorem toList_memcpy {n : Nat} {src : List Byte} {v : Bytes n}
    (h : memcpy n (some src) = .ok v) : v.toList = src.take n := by
  have hcopy := List.prefix_iff_eq_take.mp (memcpy_eq_ok.mp h)
  rwa [List.Vector.toList_length] at hcopy

theorem exists_memcpy_eq_ok {n : Nat} {src : List Byte}
    (h : n ≤ src.length) : ∃ v, memcpy n (some src) = .ok v :=
  ⟨_, dif_pos h⟩

theorem memcpy_ne_deadlock (n : Nat) (src : Pointer) :
    memcpy n src ≠ .error .deadlock := by
  cases src with
  | none => simp [memcpy]
  | some src =>
      intro h
      simp only [memcpy] at h
      split at h <;> cases h

/-- A copy of `n + 1` bytes that reaches behind a string and the byte
that ends it. -/
theorem take_terminated {n : Nat} {s : List Byte} (hs : s.length ≤ n)
    (c : Byte) (a : List Byte) :
    (s ++ c :: a).take (n + 1) = s ++ c :: a.take (n - s.length) := by
  rw [List.take_append, List.take_of_length_le (by omega), Nat.succ_sub hs,
    List.take_succ_cons]

/-- What such a copy takes from behind the terminator. -/
theorem take_terminated_eq_iff (n : Nat) (s a b : List Byte) :
    (s ++ 0 :: a).take (n + 1) = (s ++ 0 :: b).take (n + 1) ↔
      a.take (n - s.length) = b.take (n - s.length) := by
  by_cases hs : s.length ≤ n
  · rw [take_terminated hs, take_terminated hs, List.append_cancel_left_eq,
      List.cons.injEq, and_iff_right rfl]
  · -- the string alone is longer than the copy
    rw [List.take_append, List.take_append,
      show n + 1 - s.length = 0 by omega, show n - s.length = 0 by omega]
    simp

/-! ## `strncmp` -/

/-- `strncmp`: the difference of the first bytes that differ, zero if `n`
bytes agree or both strings end before. -/
def strncmp : Nat → List Byte → List Byte → Int
  | 0, _, _ => 0
  | n + 1, a, b =>
      let x := a.headD 0
      let y := b.headD 0
      if x ≠ y then (x.toNat : Int) - y.toNat
      else if x = 0 then 0
      else strncmp n a.tail b.tail

/-- The bytes of a C string that a comparison of at most `n` looks at. -/
def cstr (n : Nat) (a : List Byte) : List Byte :=
  (a.take n).takeWhile (· ≠ 0)

theorem cstr_succ (n : Nat) (a : List Byte) :
    cstr (n + 1) a =
      if a.headD 0 = 0 then [] else a.headD 0 :: cstr n a.tail := by
  cases a with
  | nil => rfl
  | cons x a =>
      by_cases hx : x = 0 <;> simp [cstr, hx]

@[simp] theorem cstr_take (n : Nat) (a : List Byte) :
    cstr n (a.take n) = cstr n a := by
  rw [cstr, cstr, List.take_take, Nat.min_self]

/-- Of a terminated string. -/
theorem cstr_terminated {n : Nat} {s rest : List Byte} (hs : 0 ∉ s) :
    cstr n (s ++ 0 :: rest) = s.take n := by
  have hstop : ∀ k, ((0 :: rest).take k).takeWhile (fun b : Byte => b ≠ 0)
      = [] := by
    intro k
    cases k with
    | zero => rfl
    | succ k => rfl
  rw [cstr, List.take_append, List.takeWhile_append_of_pos, hstop,
    List.append_nil]
  intro b hb
  have hne : b ≠ 0 := fun h0 => hs (h0 ▸ List.mem_of_mem_take hb)
  simpa using hne

/-- **Comparing equal is an equality**: of the strings up to their
terminators. -/
theorem strncmp_eq_zero_iff (n : Nat) (a b : List Byte) :
    strncmp n a b = 0 ↔ cstr n a = cstr n b := by
  induction n generalizing a b with
  | zero => simp [strncmp, cstr]
  | succ n ih =>
      simp only [strncmp, cstr_succ]
      generalize a.headD 0 = x
      generalize b.headD 0 = y
      by_cases hxy : x = y
      · subst hxy
        by_cases hx : x = 0
        · simp [hx]
        · simp [hx, ih]
      · have hne : (x.toNat : Int) - y.toNat ≠ 0 := by
          intro h
          apply hxy
          apply UInt8.toNat_inj.mp
          omega
        rw [if_pos hxy, iff_false_left hne]
        by_cases hx : x = 0 <;> by_cases hy : y = 0
        · exact absurd (hx.trans hy.symm) hxy
        · rw [if_pos hx, if_neg hy]
          exact (List.cons_ne_nil _ _).symm
        · rw [if_neg hx, if_pos hy]
          exact List.cons_ne_nil _ _
        · rw [if_neg hx, if_neg hy]
          exact fun h => hxy (List.cons.inj h).1

/-- Comparing with a string that is shorter than what is compared. -/
theorem strncmp_short {n : Nat} {a b : List Byte} (after rest : List Byte)
    (ha : 0 ∉ a) (hb : 0 ∉ b) (hlen : b.length < n) :
    strncmp n (a ++ 0 :: after) (b ++ 0 :: rest) = 0 ↔ a = b := by
  rw [strncmp_eq_zero_iff, cstr_terminated ha, cstr_terminated hb,
    List.take_of_length_le (Nat.le_of_lt hlen)]
  constructor
  · intro h
    have hlength := congrArg List.length h
    rw [List.length_take] at hlength
    rwa [List.take_of_length_le (by omega)] at h
  · rintro rfl
    exact List.take_of_length_le (Nat.le_of_lt hlen)

/-! ## `strcat` and `strtok` -/

/-- `strcat(buf, src)`: the terminated text at `src`, terminator included,
over the terminator of the text in `buf`. -/
def strcat {n : Nat} (buf : Bytes n) (src : List Byte) :
    Except Fault (Bytes n) :=
  let used := (buf.toList.takeWhile (· ≠ 0)).length
  let text := src.takeWhile (· ≠ 0)
  if text.length < src.length then
    if h : used + (text ++ [0]).length ≤ n then
      .ok (buf.write used (text ++ [0]) h)
    else .error .outOfBounds
  else .error .outOfBounds

theorem strcat_ne_deadlock {n : Nat} (buf : Bytes n) (src : List Byte) :
    strcat buf src ≠ .error .deadlock := by
  intro h
  simp only [strcat] at h
  split at h
  · split at h <;> cases h
  · cases h

/-- The array holds the text and behind it a terminator. -/
def Bytes.Holds {n : Nat} (buf : Bytes n) (text : List Byte) : Prop :=
  0 ∉ text ∧ ∃ rest, buf.toList = text ++ 0 :: rest

section Strcat

variable {n : Nat} {buf : Bytes n} {text : List Byte} (src after : List Byte)

theorem Bytes.Holds.length_lt (h : buf.Holds text) : text.length < n := by
  obtain ⟨-, rest, hbuf⟩ := h
  have hsize : buf.toList.length = n := buf.toList_length
  rw [hbuf, List.length_append, List.length_cons] at hsize
  omega

theorem Bytes.Holds.cstr_eq (h : buf.Holds text) :
    cstr n buf.toList = text := by
  have hlt := h.length_lt
  obtain ⟨hnul, rest, hbuf⟩ := h
  rw [hbuf, cstr_terminated hnul, List.take_of_length_le (by omega)]

theorem takeWhile_terminated (h : 0 ∉ text) (rest : List Byte) :
    (text ++ 0 :: rest).takeWhile (fun b => decide (b ≠ 0)) = text := by
  rw [List.takeWhile_append_of_pos]
  · simp
  · intro b hb
    have hne : b ≠ 0 := fun h0 => h (h0 ▸ hb)
    simpa using hne

theorem strcat_terminated (h : buf.Holds text) (hsrc : 0 ∉ src) :
    strcat buf (src ++ 0 :: after) =
      if hfits : text.length + (src ++ [0]).length ≤ n then
        .ok (buf.write text.length (src ++ [0]) hfits)
      else .error .outOfBounds := by
  obtain ⟨hnul, rest, hbuf⟩ := h
  have hshort : src.length < (src ++ 0 :: after).length := by simp
  simp only [strcat, hbuf, takeWhile_terminated hnul,
    takeWhile_terminated hsrc, if_pos hshort]

/-- The two texts fit into the array with a terminator. -/
theorem strcat_fits (h : buf.Holds text) (hsrc : 0 ∉ src)
    (hfits : text.length + src.length < n) :
    ∃ buf', strcat buf (src ++ 0 :: after) = .ok buf' ∧
      buf'.Holds (text ++ src) := by
  have hfits' : text.length + (src ++ [0]).length ≤ n := by
    rw [List.length_append]
    exact hfits
  obtain ⟨hnul, rest, hbuf⟩ := id h
  refine ⟨_, (strcat_terminated src after h hsrc).trans (dif_pos hfits'), ?_,
    (0 :: rest).drop (src ++ [0]).length, ?_⟩
  · rw [List.mem_append]
    exact fun hmem => hmem.elim hnul hsrc
  · rw [Bytes.toList_write_append hbuf rfl]
    simp only [List.append_assoc, List.singleton_append]

theorem strcat_overflow (h : buf.Holds text) (hsrc : 0 ∉ src)
    (hlong : n ≤ text.length + src.length) :
    strcat buf (src ++ 0 :: after) = .error .outOfBounds := by
  rw [strcat_terminated src after h hsrc, dif_neg]
  rw [List.length_append, List.length_singleton]
  omega

end Strcat

/-- What a call of `strtok` leaves. -/
structure Token where
  /-- Where the token starts; no token is the null pointer. -/
  start : Option Nat
  /-- The memory, with the token terminated. -/
  memory : List Byte
  /-- Where the next call with a null pointer goes on. -/
  saved : Nat

/-- `strtok` on `memory` from the offset `cursor`, with `delim` the bytes
of its second argument. It may write the first `size` bytes only. -/
def strtok (size : Nat) (memory : List Byte) (cursor : Nat)
    (delim : List Byte) : Except Fault Token :=
  let start := cursor + ((memory.drop cursor).takeWhile (· ∈ delim)).length
  match memory[start]? with
  | none => .error .outOfBounds
  | some b =>
      if b = 0 then .ok ⟨none, memory, start⟩
      else
        let stop := start +
          ((memory.drop start).takeWhile fun b => b ∉ delim ∧ b ≠ 0).length
        match memory[stop]? with
        | none => .error .outOfBounds
        | some c =>
            if c = 0 then .ok ⟨some start, memory, stop⟩
            else if stop < size then
              .ok ⟨some start, memory.set stop 0, stop + 1⟩
            else .error .outOfBounds

theorem strtok_ne_deadlock (size : Nat) (memory : List Byte) (cursor : Nat)
    (delim : List Byte) :
    strtok size memory cursor delim ≠ .error .deadlock := by
  intro h
  simp only [strtok] at h
  split at h
  · cases h
  · split at h
    · cases h
    · split at h
      · cases h
      · split at h
        · cases h
        · split at h <;> cases h

section Strtok

variable (size : Nat) (delim p token rest : List Byte) {c : Byte}

/-- No more tokens. -/
theorem strtok_end (h : 0 ∉ delim) :
    strtok size (p ++ 0 :: rest) p.length delim =
      .ok ⟨none, p ++ 0 :: rest, p.length⟩ := by
  simp [strtok, h]

/-- A token from its start to the byte behind it. -/
theorem strtok_token (htoken : token ≠ [])
    (hbytes : ∀ b ∈ token, b ∉ delim ∧ b ≠ 0) (hc : c = 0 ∨ c ∈ delim)
    (hsize : p.length + token.length < size) :
    strtok size (p ++ (token ++ c :: rest)) p.length delim = .ok
      (if c = 0 then
        ⟨some p.length, p ++ (token ++ c :: rest), p.length + token.length⟩
      else ⟨some p.length, p ++ (token ++ 0 :: rest),
        p.length + token.length + 1⟩) := by
  obtain ⟨x, xs, rfl⟩ := List.exists_cons_of_ne_nil htoken
  obtain ⟨hx, hx0⟩ := hbytes x (List.mem_cons_self ..)
  have hstart : ((p ++ (x :: xs ++ c :: rest)).drop p.length).takeWhile
      (fun b => decide (b ∈ delim)) = [] := by
    simp [hx]
  have hstop : ((p ++ (x :: xs ++ c :: rest)).drop p.length).takeWhile
      (fun b => decide (b ∉ delim ∧ b ≠ 0)) = x :: xs := by
    rw [List.drop_left, List.takeWhile_append_of_pos]
    · have hend : (c :: rest).takeWhile
          (fun b => decide (b ∉ delim ∧ b ≠ 0)) = [] := by
        rw [List.takeWhile_cons_of_neg]
        rcases hc with rfl | hc
        · simp
        · simp [hc]
      rw [hend, List.append_nil]
    · intro b hb
      simpa using hbytes b hb
  have hfirst : (p ++ (x :: xs ++ c :: rest))[p.length]? = some x := by
    simp
  have hnext : (p ++ (x :: xs ++ c :: rest))[p.length + (x :: xs).length]?
      = some c := by
    simp
  have hset : (p ++ (x :: xs ++ c :: rest)).set
      (p.length + (x :: xs).length) 0 = p ++ (x :: xs ++ 0 :: rest) := by
    simp
  simp only [strtok, hstart, List.length_nil, Nat.add_zero, hfirst, hx0,
    if_false, hstop, hnext, hset, hsize, if_true]
  split <;> rfl

/-- Without a terminator `strtok` leaves the memory: while it skips
delimiters, or in the token behind them. -/
theorem strtok_unterminated (skipped : List Byte)
    (hskipped : ∀ b ∈ skipped, b ∈ delim ∧ b ≠ 0)
    (htoken : ∀ b ∈ token, b ∉ delim ∧ b ≠ 0) :
    strtok size (p ++ (skipped ++ token)) p.length delim =
      .error .outOfBounds := by
  have hskip : (skipped ++ token).takeWhile (fun b => decide (b ∈ delim)) =
      skipped := by
    rw [List.takeWhile_append_of_pos fun b hb => by simpa using
      (hskipped b hb).1]
    cases token with
    | nil => simp
    | cons b token =>
        have hb := (htoken b (List.mem_cons_self ..)).1
        simp [hb]
  have hbehind : (p ++ (skipped ++ token)).drop (p.length + skipped.length) =
      token := by
    rw [← List.append_assoc, ← List.length_append, List.drop_left]
  have hall : token.takeWhile (fun b => decide (b ∉ delim ∧ b ≠ 0)) =
      token := by
    rw [List.takeWhile_eq_self_iff]
    intro b hb
    simpa using htoken b hb
  have hend : (p ++ (skipped ++ token))[p.length + skipped.length +
      token.length]? = none := by
    rw [List.getElem?_eq_none]
    simp only [List.length_append]
    omega
  simp only [strtok, List.drop_left, hskip, hbehind, hall, hend]
  cases htok : token with
  | nil => simp
  | cons b token' =>
      have hb := (htoken b (by simp [htok])).2
      simp [hb]

/-- Without delimiters, the rest of the string. -/
theorem strtok_rest (h : 0 ∉ token) (hsize : p.length + token.length < size) :
    strtok size (p ++ (token ++ 0 :: rest)) p.length [] =
      .ok ⟨if token = [] then none else some p.length,
        p ++ (token ++ 0 :: rest), p.length + token.length⟩ := by
  by_cases htoken : token = []
  · subst htoken
    exact strtok_end size [] p rest (by simp)
  · have hbytes : ∀ b ∈ token, b ∉ ([] : List Byte) ∧ b ≠ 0 := by
      intro b hb
      exact ⟨List.not_mem_nil, fun h0 => h (h0 ▸ hb)⟩
    rw [strtok_token size [] p token rest htoken hbytes (.inl rfl) hsize,
      if_pos rfl, if_neg htoken]

/-- Delimiters in front of a token are skipped. -/
theorem strtok_skip {skipped : List Byte} (h : ∀ b ∈ skipped, b ∈ delim) :
    strtok size (p ++ (skipped ++ rest)) p.length delim =
      strtok size (p ++ skipped ++ rest) (p ++ skipped).length delim := by
  have hbehind : (p ++ (skipped ++ rest)).drop (p ++ skipped).length = rest := by
    rw [← List.append_assoc, List.drop_left]
  have hskip : (skipped ++ rest).takeWhile (fun b => decide (b ∈ delim)) =
      skipped ++ rest.takeWhile (fun b => decide (b ∈ delim)) := by
    apply List.takeWhile_append_of_pos
    intro b hb
    simpa using h b hb
  have hstart : p.length +
        (skipped ++ rest.takeWhile (fun b => decide (b ∈ delim))).length =
      (p ++ skipped).length +
        (rest.takeWhile (fun b => decide (b ∈ delim))).length := by
    simp only [List.length_append]
    omega
  rw [List.append_assoc, strtok, strtok, hbehind, List.drop_left, hskip,
    hstart]

/-- The bytes up to the first delimiter. -/
theorem exists_word (delim text : List Byte) :
    ∃ token rest, text = token ++ rest ∧ (∀ b ∈ token, b ∉ delim) ∧
      (rest = [] ∨ ∃ c rest', rest = c :: rest' ∧ c ∈ delim) := by
  induction text with
  | nil => exact ⟨[], [], rfl, by simp, .inl rfl⟩
  | cons b text ih =>
      by_cases hb : b ∈ delim
      · exact ⟨[], b :: text, rfl, by simp, .inr ⟨b, text, rfl, hb⟩⟩
      · obtain ⟨token, rest, rfl, htoken, hrest⟩ := ih
        exact ⟨b :: token, rest, rfl,
          List.forall_mem_cons.mpr ⟨hb, htoken⟩, hrest⟩

/-- A text has no token, or a first token with a delimiter or nothing
behind it. -/
theorem exists_token (delim text : List Byte) :
    (∀ b ∈ text, b ∈ delim) ∨ ∃ skipped token rest,
      text = skipped ++ (token ++ rest) ∧ (∀ b ∈ skipped, b ∈ delim) ∧
      token ≠ [] ∧ (∀ b ∈ token, b ∉ delim) ∧
      (rest = [] ∨ ∃ c rest', rest = c :: rest' ∧ c ∈ delim) := by
  induction text with
  | nil => exact .inl (by simp)
  | cons b text ih =>
      by_cases hb : b ∈ delim
      · rcases ih with h | ⟨skipped, token, rest, rfl, hskipped, htoken⟩
        · exact .inl (List.forall_mem_cons.mpr ⟨hb, h⟩)
        · exact .inr ⟨b :: skipped, token, rest, rfl,
            List.forall_mem_cons.mpr ⟨hb, hskipped⟩, htoken⟩
      · obtain ⟨token, rest, rfl, htoken, hrest⟩ := exists_word delim text
        exact .inr ⟨[], b :: token, rest, rfl, by simp,
          List.cons_ne_nil b token, List.forall_mem_cons.mpr ⟨hb, htoken⟩,
          hrest⟩

end Strtok

/-! ## Words -/

/-- The first word of a text whose words are separated by `sep`. -/
def firstWord (sep : Byte) (text : List Byte) : List Byte :=
  (text.dropWhile (· = sep)).takeWhile (· ≠ sep)

/-- The text behind the separator that ends the first word. -/
def behindWord (sep : Byte) (text : List Byte) : List Byte :=
  ((text.dropWhile (· = sep)).dropWhile (· ≠ sep)).tail

section Words

variable {sep : Byte} {text : List Byte}

theorem firstWord_of_blank (h : ∀ b ∈ text, b = sep) :
    firstWord sep text = [] ∧ behindWord sep text = [] := by
  have hnone : text.dropWhile (fun b => decide (b = sep)) = [] := by
    rw [List.dropWhile_eq_nil_iff]
    simpa using h
  rw [firstWord, behindWord, hnone]
  exact ⟨rfl, rfl⟩

theorem firstWord_append {skipped token rest : List Byte}
    (hskipped : ∀ b ∈ skipped, b = sep) (htoken : token ≠ [])
    (hbytes : sep ∉ token) (hrest : rest = [] ∨ ∃ t, rest = sep :: t) :
    firstWord sep (skipped ++ (token ++ rest)) = token ∧
      behindWord sep (skipped ++ (token ++ rest)) = rest.tail := by
  have hskip : (skipped ++ (token ++ rest)).dropWhile
      (fun b => decide (b = sep)) = token ++ rest := by
    rw [List.dropWhile_append_of_pos (by simpa using hskipped)]
    obtain ⟨b, token, rfl⟩ := List.exists_cons_of_ne_nil htoken
    have hb : b ≠ sep := fun h => hbytes (by simp [h])
    rw [List.cons_append, List.dropWhile_cons_of_neg (by simpa using hb)]
  have hword : ∀ b ∈ token, decide (b ≠ sep) = true := by
    intro b hb
    have hne : b ≠ sep := fun h => hbytes (h ▸ hb)
    simpa using hne
  rw [firstWord, behindWord, hskip, List.takeWhile_append_of_pos hword,
    List.dropWhile_append_of_pos hword]
  rcases hrest with rfl | ⟨t, rfl⟩ <;> simp

/-- A text is blank, or blanks, its first word, and what is behind it. -/
theorem words_cases (sep : Byte) (text : List Byte) :
    ((∀ b ∈ text, b = sep) ∧ firstWord sep text = [] ∧
      behindWord sep text = []) ∨
    ∃ skipped rest, text = skipped ++ (firstWord sep text ++ rest) ∧
      (∀ b ∈ skipped, b = sep) ∧ firstWord sep text ≠ [] ∧
      sep ∉ firstWord sep text ∧
      (rest = [] ∧ behindWord sep text = [] ∨
        rest = sep :: behindWord sep text) := by
  rcases exists_token [sep] text with hblank |
    ⟨skipped, token, rest, htext, hskipped, htoken, hbytes, hrest⟩
  · have hblank : ∀ b ∈ text, b = sep :=
      fun b hb => List.mem_singleton.mp (hblank b hb)
    exact .inl ⟨hblank, firstWord_of_blank hblank⟩
  · have hskipped : ∀ b ∈ skipped, b = sep :=
      fun b hb => List.mem_singleton.mp (hskipped b hb)
    have hbytes : sep ∉ token := fun h => hbytes sep h (by simp)
    have hrest : rest = [] ∨ ∃ t, rest = sep :: t := by
      rcases hrest with rfl | ⟨c, t, rfl, hc⟩
      · exact .inl rfl
      · rw [List.mem_singleton.mp hc]
        exact .inr ⟨t, rfl⟩
    obtain ⟨hword, hbehind⟩ :=
      firstWord_append hskipped htoken hbytes hrest
    rw [← htext] at hword hbehind
    rw [hword, hbehind]
    refine .inr ⟨skipped, rest, htext, hskipped, htoken, hbytes, ?_⟩
    rcases hrest with rfl | ⟨t, rfl⟩
    · exact .inl ⟨rfl, rfl⟩
    · exact .inr rfl

end Words

/-! ## `fgets` -/

/-- `fgets(line, n, stdin)`: the input up to the next newline, newline
included, but at most `n - 1` bytes. At the end of the input the array is
not written. -/
def fgets {n : Nat} (line : Bytes n) (stdin : List Byte) :
    Bytes n × List Byte :=
  let got := stdin.take
    (min (n - 1) ((stdin.takeWhile (· ≠ 10)).length + 1))
  if h : got = [] then (line, stdin)
  else
    (line.write 0 (got ++ [0]) (by
      have hpos := List.length_pos_iff.mpr h
      simp only [got, List.length_append, List.length_take,
        List.length_singleton] at hpos ⊢
      omega), stdin.drop got.length)

/-- What `fgets` takes from the input. -/
def linePiece (n : Nat) (stdin : List Byte) : List Byte :=
  stdin.take (min (n - 1) ((stdin.takeWhile (· ≠ 10)).length + 1))

/-- The first line of the input. -/
def lineAt (stdin : List Byte) : List Byte :=
  stdin.takeWhile (· ≠ 10)

/-- The lines of a text. The last one need not end with a newline. -/
def linesOf : List Byte → List (List Byte)
  | [] => []
  | b :: rest =>
      if b = 10 then [] :: linesOf rest
      else
        match linesOf rest with
        | [] => [[b]]
        | line :: lines => (b :: line) :: lines

theorem linesOf_eq {text : List Byte} (h : text ≠ []) :
    linesOf text = lineAt text ::
      linesOf (text.drop ((lineAt text).length + 1)) := by
  induction text with
  | nil => exact absurd rfl h
  | cons b rest ih =>
      by_cases hb : b = 10
      · simp [linesOf, lineAt, hb]
      · have hline : lineAt (b :: rest) = b :: lineAt rest := by
          simp [lineAt, hb]
        rw [hline, List.length_cons, List.drop_succ_cons, linesOf, if_neg hb]
        by_cases hrest : rest = []
        · subst hrest
          rfl
        · rw [ih hrest]

section LinePiece

variable {n : Nat} {stdin : List Byte}

theorem fgets_nil (line : Bytes n) : fgets line [] = (line, []) := by
  simp [fgets]

theorem linePiece_ne_nil (h : stdin ≠ []) : linePiece (n + 2) stdin ≠ [] := by
  obtain ⟨b, stdin, rfl⟩ := List.exists_cons_of_ne_nil h
  rw [linePiece, Nat.add_one_sub_one, Nat.add_min_add_right,
    List.take_succ_cons]
  exact List.cons_ne_nil _ _

theorem fgets_eq (line : Bytes (n + 2)) (h : stdin ≠ []) :
    (∃ junk, (fgets line stdin).1.toList =
      linePiece (n + 2) stdin ++ 0 :: junk) ∧
      (fgets line stdin).2 =
        stdin.drop (linePiece (n + 2) stdin).length := by
  have hne : stdin.take (min (n + 2 - 1)
      ((stdin.takeWhile fun b => decide (b ≠ 10)).length + 1)) ≠ [] :=
    linePiece_ne_nil h
  simp only [fgets, dif_neg hne, Bytes.toList_write, List.take_zero,
    List.nil_append, List.append_assoc, List.singleton_append]
  exact ⟨⟨_, rfl⟩, rfl⟩

theorem lineAt_eq (stdin : List Byte) :
    stdin = lineAt stdin ++ stdin.drop (lineAt stdin).length ∧
      10 ∉ lineAt stdin ∧ (stdin.drop (lineAt stdin).length = [] ∨
        ∃ rest, stdin.drop (lineAt stdin).length = 10 :: rest) := by
  obtain ⟨line, rest, hpieces, hline, hrest⟩ := exists_word [10] stdin
  have hnewline : 10 ∉ line := fun h => hline 10 h (by simp)
  have hall : ∀ b ∈ line, decide (b ≠ 10) = true := by
    intro b hb
    have hne : b ≠ 10 := fun h => hnewline (h ▸ hb)
    simpa using hne
  have heq : lineAt stdin = line := by
    rw [hpieces, lineAt, List.takeWhile_append_of_pos hall]
    rcases hrest with rfl | ⟨c, rest, rfl, hc⟩
    · simp
    · simp [List.mem_singleton.mp hc]
  rw [heq, hpieces, List.drop_left]
  refine ⟨rfl, hnewline, ?_⟩
  rcases hrest with rfl | ⟨c, rest, rfl, hc⟩
  · exact .inl rfl
  · rw [List.mem_singleton.mp hc]
    exact .inr ⟨rest, rfl⟩

/-- A piece ends where the line does, or before. -/
theorem lineAt_linePiece (n : Nat) (stdin : List Byte) :
    lineAt (linePiece n stdin) = (lineAt stdin).take (n - 1) := by
  have htake : ∀ (l : List Byte) (k : Nat), lineAt (l.take k) =
      (lineAt l).take k := by
    intro l
    induction l with
    | nil => simp [lineAt]
    | cons b l ih =>
        intro k
        cases k with
        | zero => rfl
        | succ k =>
            by_cases hb : b = 10
            · simp [lineAt, hb]
            · have hcons : ∀ l, lineAt (b :: l) = b :: lineAt l := by
                intro l
                simp [lineAt, hb]
              rw [List.take_succ_cons, hcons, hcons, ih, List.take_succ_cons]
  rw [linePiece, htake, ← List.take_take]
  congr 1
  exact List.take_of_length_le (Nat.le_succ _)

/-- The text before the first newline. -/
theorem takeWhile_line {text : List Byte} (rest : List Byte) (h : 10 ∉ text) :
    (text ++ 10 :: rest).takeWhile (fun b => decide (b ≠ 10)) = text := by
  rw [List.takeWhile_append_of_pos]
  · simp
  · intro b hb
    have hne : b ≠ 10 := fun h10 => h (h10 ▸ hb)
    simpa using hne

/-- A whole line that fits with its newline. -/
theorem linePiece_line {text : List Byte} (rest : List Byte) (h : 10 ∉ text)
    (hfits : text.length ≤ n) :
    linePiece (n + 2) (text ++ 10 :: rest) = text ++ [10] ∧
      lineAt (text ++ 10 :: rest) = text := by
  have hfirst := takeWhile_line rest h
  refine ⟨?_, hfirst⟩
  rw [linePiece, hfirst, Nat.min_eq_right (by omega),
    show text ++ 10 :: rest = (text ++ [10]) ++ rest by simp,
    show text.length + 1 = (text ++ [10]).length by simp, List.take_left]

end LinePiece

/-- A line of the input, as far as it fits. -/
theorem fgets_line {n : Nat} (line : Bytes (n + 2)) {text : List Byte}
    (rest : List Byte) (h : 10 ∉ text) : ∃ junk, (fgets line (text ++ 10 :: rest)).1.toList =
      (text ++ [10]).take (n + 1) ++ 0 :: junk := by
  have hfirst := takeWhile_line rest h
  have hgot : (text ++ 10 :: rest).take (min (n + 1) (text.length + 1)) =
      (text ++ [10]).take (n + 1) := by
    rw [← List.take_take, show text ++ 10 :: rest = (text ++ [10]) ++ rest by
      simp, show text.length + 1 = (text ++ [10]).length by simp,
      List.take_left]
  have hne : (text ++ [10]).take (n + 1) ≠ [] := by
    simp
  simp only [fgets, hfirst, Nat.add_one_sub_one, hgot, dif_neg hne,
    Bytes.toList_write, List.take_zero, List.nil_append, List.append_assoc,
    List.singleton_append]
  exact ⟨_, rfl⟩

end Sysops
