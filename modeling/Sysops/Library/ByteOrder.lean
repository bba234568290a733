import Mathlib.Data.List.Basic
import Mathlib.Tactic.Ring
import Mathlib.Tactic.NormNum

/-!
# Host and network byte order

The bytes of a number of a fixed width as a host of either byte order
keeps them in memory, the number a host reads back from bytes, and the
conversions of a 32-bit number between host and network (big-endian)
order.
-/

namespace Sysops

abbrev Byte := UInt8

/-- The `w` bytes of `n`, least significant first; higher bits are lost. -/
def toLittle : Nat → Nat → List Byte
  | 0, _ => []
  | w + 1, n => UInt8.ofNat n :: toLittle w (n / 256)

/-- The number whose bytes are given, least significant first. -/
def ofLittle : List Byte → Nat
  | [] => 0
  | b :: bs => b.toNat + 256 * ofLittle bs

@[simp] theorem length_toLittle (w n : Nat) : (toLittle w n).length = w := by
  induction w generalizing n with
  | zero => rfl
  | succ w ih => simp [toLittle, ih]

theorem ofLittle_toLittle (w n : Nat) :
    ofLittle (toLittle w n) = n % 256 ^ w := by
  induction w generalizing n with
  | zero => simp [toLittle, ofLittle, Nat.mod_one]
  | succ w ih =>
      have hsplit : n % 256 ^ (w + 1) = n % 256 + 256 * (n / 256 % 256 ^ w) := by
        rw [pow_succ', Nat.mod_mul]
      rw [toLittle, ofLittle, ih, UInt8.toNat_ofNat', hsplit]

theorem toLittle_ofLittle (bs : List Byte) :
    toLittle bs.length (ofLittle bs) = bs := by
  induction bs with
  | nil => rfl
  | cons b bs ih =>
      have hb : b.toNat < 256 := b.toNat_lt
      have hlow : UInt8.ofNat (b.toNat + 256 * ofLittle bs) = b := by
        apply UInt8.toNat_inj.mp
        rw [UInt8.toNat_ofNat', Nat.add_mul_mod_self_left,
          Nat.mod_eq_of_lt hb]
      have hhigh : (b.toNat + 256 * ofLittle bs) / 256 = ofLittle bs := by
        omega
      rw [List.length_cons, ofLittle, toLittle, hlow, hhigh, ih]

theorem ofLittle_lt (bs : List Byte) : ofLittle bs < 256 ^ bs.length := by
  induction bs with
  | nil => simp [ofLittle]
  | cons b bs ih =>
      have hb : b.toNat < 256 := b.toNat_lt
      rw [ofLittle, List.length_cons, pow_succ]
      omega

theorem ofLittle_append (as bs : List Byte) :
    ofLittle (as ++ bs) = ofLittle as + 256 ^ as.length * ofLittle bs := by
  induction as with
  | nil => simp [ofLittle]
  | cons a as ih =>
      rw [List.cons_append, ofLittle, ofLittle, ih, List.length_cons, pow_succ]
      ring

/-- The high bytes of a number that the low ones already hold are zero. -/
theorem toLittle_add_of_lt {v w n : Nat} (h : n < 256 ^ v) :
    toLittle (v + w) n = toLittle v n ++ List.replicate w 0 := by
  induction v generalizing n with
  | zero =>
      have hn : n = 0 := by simpa using h
      subst hn
      induction w with
      | zero => rfl
      | succ w ih => simpa [toLittle, List.replicate_succ] using ih
  | succ v ih =>
      have hlt : n / 256 < 256 ^ v := by
        rw [Nat.div_lt_iff_lt_mul (by norm_num), ← pow_succ]
        exact h
      rw [Nat.add_right_comm, toLittle, ih hlt]
      rfl

theorem ofLittle_replicate_zero (w : Nat) :
    ofLittle (List.replicate w 0) = 0 := by
  induction w with
  | zero => rfl
  | succ w ih => simp [List.replicate_succ, ofLittle, ih]

/-! ## The two orders -/

inductive ByteOrder where
  | little
  | big
  deriving DecidableEq, Repr

namespace ByteOrder

/-- The `w` bytes of `n` in the memory of a host of this order. -/
def bytes (o : ByteOrder) (w n : Nat) : List Byte :=
  match o with
  | little => toLittle w n
  | big => (toLittle w n).reverse

/-- The number such a host reads from the bytes. -/
def value (o : ByteOrder) (bs : List Byte) : Nat :=
  match o with
  | little => ofLittle bs
  | big => ofLittle bs.reverse

@[simp] theorem length_bytes (o : ByteOrder) (w n : Nat) :
    (o.bytes w n).length = w := by
  cases o <;> simp [bytes]

theorem value_bytes (o : ByteOrder) (w n : Nat) :
    o.value (o.bytes w n) = n % 256 ^ w := by
  cases o <;> simp [bytes, value, ofLittle_toLittle]

theorem bytes_value (o : ByteOrder) (bs : List Byte) :
    o.bytes bs.length (o.value bs) = bs := by
  cases o with
  | little => exact toLittle_ofLittle bs
  | big =>
      have h := toLittle_ofLittle bs.reverse
      rw [List.length_reverse] at h
      simp [bytes, value, h]

theorem value_lt (o : ByteOrder) (bs : List Byte) :
    o.value bs < 256 ^ bs.length := by
  cases o with
  | little => exact ofLittle_lt bs
  | big => simpa [value] using ofLittle_lt bs.reverse

/-- **The low half across orders**: what a host of the other order reads
in the low half of `2 * w` bytes is zero if the writer's number fits the
low half. -/
theorem value_bytes_other {a b : ByteOrder} (hab : a ≠ b) {w n : Nat}
    (h : n < 256 ^ w) : b.value (a.bytes (w + w) n) % 256 ^ w = 0 := by
  have hzero := ofLittle_replicate_zero w
  cases a <;> cases b <;> try exact absurd rfl hab
  all_goals
    simp [bytes, value, toLittle_add_of_lt h, ofLittle_append, hzero]

end ByteOrder

/-! ## Network order -/

/-- The 32-bit number that a host of order `o` keeps in memory as the
big-endian bytes of `x`. -/
def htonl (o : ByteOrder) (x : UInt32) : UInt32 :=
  UInt32.ofNat (o.value (ByteOrder.big.bytes 4 x.toNat))

/-- The number whose big-endian bytes are those a host of order `o` keeps
for `x`. -/
def ntohl (o : ByteOrder) (x : UInt32) : UInt32 :=
  UInt32.ofNat (ByteOrder.big.value (o.bytes 4 x.toNat))

theorem toNat_ofNat_value (o : ByteOrder) {bs : List Byte}
    (h : bs.length = 4) : (UInt32.ofNat (o.value bs)).toNat = o.value bs := by
  have hlt := o.value_lt bs
  rw [h] at hlt
  rw [UInt32.toNat_ofNat']
  exact Nat.mod_eq_of_lt hlt

theorem bytes_htonl (o : ByteOrder) (x : UInt32) :
    o.bytes 4 (htonl o x).toNat = ByteOrder.big.bytes 4 x.toNat := by
  have hlen : (ByteOrder.big.bytes 4 x.toNat).length = 4 := by simp
  rw [htonl, toNat_ofNat_value o hlen]
  have h := o.bytes_value (ByteOrder.big.bytes 4 x.toNat)
  rwa [hlen] at h

@[simp] theorem ntohl_htonl (o : ByteOrder) (x : UInt32) :
    ntohl o (htonl o x) = x := by
  rw [ntohl, bytes_htonl, ByteOrder.value_bytes]
  apply UInt32.toNat_inj.mp
  rw [UInt32.toNat_ofNat']
  have := x.toNat_lt
  omega

@[simp] theorem ntohl_zero (o : ByteOrder) : ntohl o 0 = 0 := by
  cases o <;> rfl

end Sysops
