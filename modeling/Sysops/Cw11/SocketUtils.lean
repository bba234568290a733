import Sysops.Library.CString
import Mathlib.Data.Set.Operations

/-!
# `cw11/socket_utils.c`: messages and their wire format

`message_t`, its construction from pointers, and the encoder and decoder
with their hand-kept offsets. `char` is a byte, `time_t` a signed 64-bit
number, the enumeration a 32-bit one, and the byte order of the host is a
parameter.
-/

namespace Sysops.Cw11

abbrev maxClientName : Nat := 64
abbrev maxMessageText : Nat := 512
abbrev maxMsgNetBuf : Nat := 1024

/-- `message_type_t`. -/
inductive MessageType where
  | clientNew
  | clientList
  | clientToAll
  | clientToOne
  | clientStop
  | clientAlive
  | serverOkRegister
  | serverFailureRegister
  | serverChatMessage
  | serverListMessage
  | serverCheckAlive
  | serverShutdown
  deriving DecidableEq, Repr

/-- The number of the enumeration constant. -/
def MessageType.code : MessageType → UInt32
  | clientNew => 0
  | clientList => 1
  | clientToAll => 2
  | clientToOne => 3
  | clientStop => 4
  | clientAlive => 5
  | serverOkRegister => 6
  | serverFailureRegister => 7
  | serverChatMessage => 8
  | serverListMessage => 9
  | serverCheckAlive => 10
  | serverShutdown => 11

theorem MessageType.code_inj {s t : MessageType} (h : s.code = t.code) :
    s = t := by
  cases s <;> cases t <;> first | rfl | exact absurd h (by decide)

theorem MessageType.ne_code {n : UInt32} {s t : MessageType}
    (hs : n = s.code) (hst : s ≠ t) : n ≠ t.code := by
  intro ht
  exact hst (code_inj (hs.symm.trans ht))

/-- `message_t`. A frame may carry any number in its type field. -/
structure MessageT where
  sender : Bytes maxClientName
  type : UInt32
  message : Bytes maxMessageText
  timestamp : Int64
  deriving DecidableEq

/-- `init_message_t`; `now` is the result of `time(NULL)`. Both texts are
copied with fixed lengths, whatever lies behind their terminators. -/
def initMessageT (now : Int64) (sender : Pointer) (type : MessageType)
    (messageText : Pointer) : Except Fault MessageT := do
  let senderBytes ← memcpy maxClientName sender
  let textBytes ← memcpy maxMessageText messageText
  return { timestamp := now, sender := senderBytes, type := type.code,
           message := textBytes }

theorem initMessageT_eq_ok {now : Int64} {sender text : List Byte}
    {type : MessageType} {m : MessageT}
    (h : initMessageT now (some sender) type (some text) = .ok m) :
    m.type = type.code ∧ m.timestamp = now ∧
      m.sender.toList = sender.take maxClientName ∧
      m.message.toList = text.take maxMessageText := by
  obtain ⟨senderBytes, hsender, h⟩ := bind_eq_ok.mp h
  obtain ⟨textBytes, htext, h⟩ := bind_eq_ok.mp h
  cases h
  exact ⟨rfl, rfl, toList_memcpy hsender, toList_memcpy htext⟩

theorem exists_initMessageT (now : Int64) (type : MessageType)
    {sender text : List Byte} (hsender : maxClientName ≤ sender.length)
    (htext : maxMessageText ≤ text.length) :
    ∃ m, initMessageT now (some sender) type (some text) = .ok m := by
  obtain ⟨senderBytes, hsender⟩ := exists_memcpy_eq_ok hsender
  obtain ⟨textBytes, htext⟩ := exists_memcpy_eq_ok htext
  rw [initMessageT, hsender, htext]
  exact ⟨_, rfl⟩

/-- A message with the given name and an empty text. -/
def frameFrom (type : MessageType) (name : String) : MessageT where
  sender := Bytes.ofList maxClientName (literal name)
  type := type.code
  message := Bytes.ofList maxMessageText []
  timestamp := 0

/-! ## Encoder and decoder -/

/-- The bytes of the buffer that carry a message. -/
abbrev encodedLength : Nat := maxClientName + 4 + maxMessageText + 8

theorem encodedLength_le : encodedLength ≤ maxMsgNetBuf := by
  decide

def serializeMessageT (o : ByteOrder) (input : MessageT)
    (buffer : Bytes maxMsgNetBuf) : Bytes maxMsgNetBuf :=
  let netType : UInt32 := htonl o input.type
  -- widened to 64 bits before it is copied
  let netTimestamp : UInt64 :=
    (htonl o input.timestamp.toUInt64.toUInt32).toUInt64
  let buffer := buffer.write 0 input.sender.toList (by simp; decide)
  let buffer := buffer.write maxClientName (o.bytes 4 netType.toNat)
    (by simp; decide)
  let buffer := buffer.write (maxClientName + 4) input.message.toList
    (by simp; decide)
  buffer.write (maxClientName + 4 + maxMessageText)
    (o.bytes 8 netTimestamp.toNat) (by simp; decide)

/-- The buffer may be any array that is long enough for the four reads. -/
def deserializeMessageT (o : ByteOrder) {n : Nat} (buffer : Bytes n)
    (h : encodedLength ≤ n) : MessageT :=
  let sender := buffer.read 0 maxClientName (Nat.le_trans (by decide) h)
  let netType := UInt32.ofNat (o.value
    (buffer.read maxClientName 4 (Nat.le_trans (by decide) h)).toList)
  let message := buffer.read (maxClientName + 4) maxMessageText
    (Nat.le_trans (by decide) h)
  let netTimestamp := UInt64.ofNat
    (o.value (buffer.read (maxClientName + 4 + maxMessageText) 8 h).toList)
  { sender := sender
    type := ntohl o netType
    message := message
    -- the argument of `ntohl` is 32 bits wide
    timestamp := (ntohl o netTimestamp.toUInt32).toUInt64.toInt64 }

/-- The bytes of a message on the wire. -/
def encoding (o : ByteOrder) (m : MessageT) : List Byte :=
  m.sender.toList ++ (o.bytes 4 (htonl o m.type).toNat ++
    (m.message.toList ++
      o.bytes 8 (htonl o m.timestamp.toUInt64.toUInt32).toUInt64.toNat))

@[simp] theorem length_encoding (o : ByteOrder) (m : MessageT) :
    (encoding o m).length = encodedLength := by
  simp only [encoding, List.length_append, List.Vector.toList_length,
    ByteOrder.length_bytes]
  rfl

/-- **What the encoder leaves in the buffer.** -/
theorem toList_serializeMessageT (o : ByteOrder) (m : MessageT)
    (buffer : Bytes maxMsgNetBuf) :
    (serializeMessageT o m buffer).toList =
      encoding o m ++ buffer.toList.drop encodedLength := by
  have h₁ := Bytes.toList_write_append (p := []) (k := 0)
    (List.nil_append buffer.toList).symm rfl
    (show 0 + m.sender.toList.length ≤ maxMsgNetBuf by simp; decide)
  have h₂ := Bytes.toList_write_append (k := maxClientName) h₁ (by simp)
    (show _ + (o.bytes 4 (htonl o m.type).toNat).length ≤ maxMsgNetBuf by
      simp; decide)
  have h₃ := Bytes.toList_write_append (k := maxClientName + 4) h₂
    (by simp) (show _ + m.message.toList.length ≤ maxMsgNetBuf by
      simp; decide)
  have h₄ := Bytes.toList_write_append
    (k := maxClientName + 4 + maxMessageText) h₃ (by simp; rfl)
    (show _ + (o.bytes 8 (htonl o m.timestamp.toUInt64.toUInt32).toUInt64.toNat
      ).length ≤ maxMsgNetBuf by simp; decide)
  rw [serializeMessageT, h₄]
  simp only [encoding, List.drop_drop, List.nil_append, List.append_assoc,
    List.Vector.toList_length, ByteOrder.length_bytes]

/-- The time stamp that comes out at a host of order `b` for one that a
host of order `a` put in. -/
def receivedTimestamp (a b : ByteOrder) (t : Int64) : Int64 :=
  if a = b then t.toUInt64.toUInt32.toUInt64.toInt64 else 0

theorem ntohl_netTimestamp (a b : ByteOrder) (x : UInt32) :
    ntohl b (UInt64.ofNat (b.value (a.bytes 8 (htonl a x).toUInt64.toNat))
      ).toUInt32 = if a = b then x else 0 := by
  have hlt : (htonl a x).toNat < 4294967296 := (htonl a x).toNat_lt
  rw [UInt32.toNat_toUInt64]
  split
  · rename_i hab
    subst hab
    have hx : (UInt64.ofNat (a.value (a.bytes 8 (htonl a x).toNat))).toUInt32
        = htonl a x := by
      apply UInt32.toNat_inj.mp
      rw [ByteOrder.value_bytes, UInt64.toNat_toUInt32, UInt64.toNat_ofNat']
      omega
    rw [hx, ntohl_htonl]
  · rename_i hab
    have hlow : b.value (a.bytes 8 (htonl a x).toNat) % 4294967296 = 0 :=
      ByteOrder.value_bytes_other hab (w := 4) hlt
    have hx : (UInt64.ofNat (b.value (a.bytes 8 (htonl a x).toNat))).toUInt32
        = 0 := by
      apply UInt32.toNat_inj.mp
      rw [UInt64.toNat_toUInt32, UInt64.toNat_ofNat', UInt32.toNat_zero]
      omega
    rw [hx, ntohl_zero]

/-- **Decoding an encoded message**, on hosts of any two byte orders and
with anything behind the message: all but the time stamp survives. -/
theorem deserialize_of_encoding (a b : ByteOrder) (m : MessageT) {n : Nat}
    {buffer : Bytes n} (h : encodedLength ≤ n)
    (hpre : encoding a m <+: buffer.toList) :
    deserializeMessageT b buffer h =
      { m with timestamp := receivedTimestamp a b m.timestamp } := by
  obtain ⟨rest, hrest⟩ := hpre
  let typeBytes := a.bytes 4 (htonl a m.type).toNat
  let timeBytes :=
    a.bytes 8 (htonl a m.timestamp.toUInt64.toUInt32).toUInt64.toNat
  have hlay : buffer.toList = m.sender.toList ++ (typeBytes ++
      (m.message.toList ++ (timeBytes ++ rest))) := by
    rw [← hrest, encoding]
    simp only [List.append_assoc]
    rfl
  have hsender : buffer.read 0 maxClientName (Nat.le_trans (by decide) h)
      = m.sender :=
    List.Vector.eq _ _ (Bytes.toList_read_append (p := []) hlay rfl
      (by simp) _)
  have htype :
      (buffer.read maxClientName 4 (Nat.le_trans (by decide) h)).toList
      = typeBytes :=
    Bytes.toList_read_append hlay (by simp) (by simp [typeBytes]) _
  have hmessage : buffer.read (maxClientName + 4) maxMessageText
      (Nat.le_trans (by decide) h) = m.message := by
    rw [← List.append_assoc] at hlay
    exact List.Vector.eq _ _ (Bytes.toList_read_append hlay
      (by simp [typeBytes]) (by simp) _)
  have htime : (buffer.read (maxClientName + 4 + maxMessageText) 8 h).toList
      = timeBytes := by
    rw [← List.append_assoc, ← List.append_assoc] at hlay
    exact Bytes.toList_read_append hlay (by simp [typeBytes]; rfl)
      (by simp [timeBytes]) _
  have htype' : ntohl b (UInt32.ofNat
      (b.value (a.bytes 4 (htonl a m.type).toNat))) = m.type := by
    rw [bytes_htonl]
    exact ntohl_htonl b m.type
  simp only [deserializeMessageT, hsender, htype, hmessage, htime, typeBytes,
    timeBytes, ntohl_netTimestamp, htype', receivedTimestamp]
  split <;> rfl

/-- The decoder does not look behind the encoded message. -/
theorem deserialize_first (o : ByteOrder) {n : Nat} (buffer : Bytes n)
    (h : encodedLength ≤ n) :
    deserializeMessageT o buffer h =
      deserializeMessageT o (buffer.read 0 encodedLength (by omega))
        (Nat.le_refl _) := by
  simp only [deserializeMessageT, Bytes.read_read, Nat.zero_add]

/-! ## Time stamps -/

theorem toInt_widen (x : UInt32) : x.toUInt64.toInt64.toInt = x.toNat := by
  have hx := x.toNat_lt
  have hnat : x.toUInt64.toBitVec.toNat = x.toNat := UInt32.toNat_toUInt64 x
  show x.toUInt64.toBitVec.toInt = x.toNat
  rw [BitVec.toInt_eq_toNat_of_lt (by omega), hnat]

theorem toInt_low_half (t : Int64) :
    t.toUInt64.toUInt32.toUInt64.toInt64.toInt = t.toInt % 2 ^ 32 := by
  have hint : t.toInt = if 2 * t.toUInt64.toNat < 2 ^ 64
      then (t.toUInt64.toNat : Int) else t.toUInt64.toNat - 2 ^ 64 :=
    BitVec.toInt_eq_toNat_cond t.toBitVec
  rw [toInt_widen, UInt64.toNat_toUInt32, hint]
  split <;> omega

theorem low_half_eq_self_iff (t : Int64) :
    t.toUInt64.toUInt32.toUInt64.toInt64 = t ↔
      0 ≤ t.toInt ∧ t.toInt < 2 ^ 32 := by
  rw [← Int64.toInt_inj, toInt_low_half]
  omega

/-- **The wire format on one host**: everything but the high half of the
time stamp comes back, so a message survives exactly when its time stamp
is a 32-bit number; and both directions use the first `encodedLength`
bytes of the buffer only. -/
theorem wire_round_trip (o : ByteOrder) (m : MessageT)
    (buffer : Bytes maxMsgNetBuf) :
    let written := serializeMessageT o m buffer
    let received := deserializeMessageT o written (by decide)
    received.sender = m.sender ∧ received.type = m.type ∧
      received.message = m.message ∧
      received.timestamp.toInt = m.timestamp.toInt % 2 ^ 32 ∧
      (received = m ↔ 0 ≤ m.timestamp.toInt ∧ m.timestamp.toInt < 2 ^ 32) ∧
      written.toList.drop encodedLength = buffer.toList.drop encodedLength ∧
      encodedLength = 588 ∧
      ∀ buf : Bytes maxMsgNetBuf, deserializeMessageT o buf (by decide) =
        deserializeMessageT o (buf.read 0 encodedLength (by decide))
          (Nat.le_refl _) := by
  intro written received
  have hwritten : written.toList = _ := toList_serializeMessageT o m buffer
  have hreceived : received =
      { m with timestamp := m.timestamp.toUInt64.toUInt32.toUInt64.toInt64 } := by
    have hpre : encoding o m <+: written.toList := ⟨_, hwritten.symm⟩
    have h := deserialize_of_encoding o o m (by decide) hpre
    rwa [receivedTimestamp, if_pos rfl] at h
  rw [hreceived]
  refine ⟨rfl, rfl, rfl, toInt_low_half m.timestamp, ?_, ?_, rfl,
    fun buf => deserialize_first o buf _⟩
  · rw [← low_half_eq_self_iff]
    constructor
    · intro h
      exact congrArg MessageT.timestamp h
    · intro h
      rw [h]
  · rw [hwritten]
    exact List.drop_left' (length_encoding o m)

end Sysops.Cw11
