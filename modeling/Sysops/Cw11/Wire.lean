import Sysops.Cw11.Framing

/-!
# What a message is on the wire

The 1024 bytes of a message between hosts of any two byte orders, and what
gets into them beside the message: `init_message_t` copies behind the
terminators of its strings, and `send_message` sends the end of its array
as it found it.
-/

namespace Sysops.Cw11

/-! ## Between hosts -/

/-- **A message that a host of order `a` wrote and one of order `b` reads
is the same message exactly if the orders are the same or its time stamp
is zero.** -/
theorem same_message_across_hosts_iff (a b : ByteOrder) (m : MessageT)
    (buffer : Bytes maxMsgNetBuf)
    (hm : 0 ≤ m.timestamp.toInt ∧ m.timestamp.toInt < 2 ^ 32) :
    deserializeMessageT b (serializeMessageT a m buffer) (by decide) = m ↔
      a = b ∨ m.timestamp = 0 := by
  have hpre : encoding a m <+: (serializeMessageT a m buffer).toList :=
    ⟨_, (toList_serializeMessageT a m buffer).symm⟩
  rw [deserialize_of_encoding a b m (by decide) hpre]
  have hstamp : { m with timestamp := receivedTimestamp a b m.timestamp } = m ↔
      Survives a b m.timestamp := by
    rw [← receivedTimestamp_eq_iff]
    constructor
    · intro h
      exact congrArg MessageT.timestamp h
    · intro h
      rw [h]
  rw [hstamp, Survives]
  by_cases hab : a = b
  · rw [if_pos hab]
    exact iff_of_true hm (.inl hab)
  · simp [hab]

/-- With the time stamp 5 between two little-endian hosts, and with 0 also
from a little-endian to a big-endian one. -/
theorem same_message_five_and_zero :
    (let m := { frameFrom .clientNew "bob" with timestamp := 5 }
     deserializeMessageT .little
       (serializeMessageT .little m (Bytes.ofList _ [])) (by decide) = m) ∧
    let m := { frameFrom .clientNew "bob" with timestamp := 0 }
    deserializeMessageT .big
      (serializeMessageT .little m (Bytes.ofList _ [])) (by decide) = m :=
  ⟨(same_message_across_hosts_iff .little .little _ _ (by decide)).mpr
      (.inl rfl),
    (same_message_across_hosts_iff .little .big _ _ (by decide)).mpr
      (.inr rfl)⟩

/-- From a little-endian to a big-endian host it loses its time stamp. -/
theorem timestamp_lost_across_hosts :
    let m := { frameFrom .clientNew "bob" with timestamp := 5 }
    deserializeMessageT .big
      (serializeMessageT .little m (Bytes.ofList _ [])) (by decide) ≠ m := by
  decide +kernel

/-! ## Beside the message -/

/-- Memory that is no part of a message: the bytes behind the terminators
of the two strings, and what the array of `send_message` holds before. -/
structure Beside where
  afterSender : List Byte
  afterText : List Byte
  buffer : Bytes maxMsgNetBuf

/-- The bytes that `send` gets for a message made by `init_message_t`, the
strings given up to their terminators. -/
def sentBytes (o : ByteOrder) (now : Int64) (sender : List Byte)
    (type : MessageType) (text : List Byte) (beside : Beside) :
    Except Fault (List Byte) := do
  let message ← initMessageT now (some (sender ++ 0 :: beside.afterSender))
    type (some (text ++ 0 :: beside.afterText))
  return sendMessageBytes o message beside.buffer

/-- Memory with the same byte everywhere. -/
def Beside.filled (b : Byte) : Beside where
  afterSender := List.replicate maxClientName b
  afterText := List.replicate maxMessageText b
  buffer := List.Vector.replicate maxMsgNetBuf b

/-- The parts of the memory beside a message that the copies reach. -/
structure Beside.Agrees (x y : Beside) (sender text : List Byte) : Prop where
  afterSender : x.afterSender.take (63 - sender.length) =
    y.afterSender.take (63 - sender.length)
  afterText : x.afterText.take (511 - text.length) =
    y.afterText.take (511 - text.length)
  buffer : x.buffer.toList.drop encodedLength =
    y.buffer.toList.drop encodedLength

section Sent

variable {o : ByteOrder} {now : Int64} {sender text : List Byte}
  {type : MessageType} {x y : Beside} {v w : List Byte}

/-- The message that is on the wire, and the end of the array behind it. -/
theorem sentBytes_eq_ok (h : sentBytes o now sender type text x = .ok v) :
    ∃ m : MessageT, m.type = type.code ∧ m.timestamp = now ∧
      m.sender.toList = (sender ++ 0 :: x.afterSender).take maxClientName ∧
      m.message.toList = (text ++ 0 :: x.afterText).take maxMessageText ∧
      v = encoding o m ++ x.buffer.toList.drop encodedLength := by
  obtain ⟨m, hinit, hv⟩ := bind_eq_ok.mp h
  obtain ⟨htype, htime, hsender, htext⟩ := initMessageT_eq_ok hinit
  cases hv
  exact ⟨m, htype, htime, hsender, htext, toList_serializeMessageT _ _ _⟩

/-- Messages of one type and time have the same encoding exactly if they
have the same sender and text. -/
theorem encoding_eq_iff {m n : MessageT} (htype : m.type = n.type)
    (htime : m.timestamp = n.timestamp) :
    encoding o m = encoding o n ↔
      m.sender.toList = n.sender.toList ∧
        m.message.toList = n.message.toList := by
  rw [encoding, encoding, htype, htime]
  constructor
  · intro h
    obtain ⟨hsender, h⟩ := List.append_inj h (by simp)
    rw [List.append_cancel_left_eq, List.append_cancel_right_eq] at h
    exact ⟨hsender, h⟩
  · rintro ⟨hsender, htext⟩
    rw [hsender, htext]

/-- **Two executions send the same bytes for one message exactly if they
agree on the memory beside it that the copies reach.** -/
theorem sent_bytes_eq_iff (hx : sentBytes o now sender type text x = .ok v)
    (hy : sentBytes o now sender type text y = .ok w) :
    v = w ↔ x.Agrees y sender text := by
  obtain ⟨m, hmtype, hmtime, hmsender, hmtext, rfl⟩ := sentBytes_eq_ok hx
  obtain ⟨n, hntype, hntime, hnsender, hntext, rfl⟩ := sentBytes_eq_ok hy
  have hparts : encoding o m ++ x.buffer.toList.drop encodedLength =
        encoding o n ++ y.buffer.toList.drop encodedLength ↔
      encoding o m = encoding o n ∧ x.buffer.toList.drop encodedLength =
        y.buffer.toList.drop encodedLength := by
    constructor
    · intro h
      exact List.append_inj h (by simp)
    · rintro ⟨hencoding, hbuffer⟩
      rw [hencoding, hbuffer]
  rw [hparts, encoding_eq_iff (hmtype.trans hntype.symm)
    (hmtime.trans hntime.symm), hmsender, hnsender, hmtext, hntext,
    take_terminated_eq_iff, take_terminated_eq_iff]
  constructor
  · rintro ⟨⟨hsender, htext⟩, hbuffer⟩
    exact ⟨hsender, htext, hbuffer⟩
  · rintro ⟨hsender, htext, hbuffer⟩
    exact ⟨⟨hsender, htext⟩, hbuffer⟩

/-- Every message can be sent from memory that is long enough. -/
theorem exists_sentBytes (hsender : maxClientName ≤ x.afterSender.length)
    (htext : maxMessageText ≤ x.afterText.length) :
    ∃ v, sentBytes o now sender type text x = .ok v := by
  have hsender' : maxClientName ≤ (sender ++ 0 :: x.afterSender).length := by
    simp
    omega
  have htext' : maxMessageText ≤ (text ++ 0 :: x.afterText).length := by
    simp
    omega
  obtain ⟨m, hm⟩ := exists_initMessageT now type hsender' htext'
  simp only [sentBytes, hm]
  exact ⟨_, rfl⟩

theorem sentBytes_filled (b : Byte) :
    ∃ v, sentBytes o now sender type text (.filled b) = .ok v :=
  exists_sentBytes (Nat.le_of_eq (List.length_replicate ..).symm)
    (Nat.le_of_eq (List.length_replicate ..).symm)

/-- **For no message are the bytes on the wire a function of the message**:
whatever is in memory beside it shows at the end. -/
theorem sentBytes_filled_ne {b c : Byte} (hbc : b ≠ c)
    (hv : sentBytes o now sender type text (.filled b) = .ok v)
    (hw : sentBytes o now sender type text (.filled c) = .ok w) : v ≠ w := by
  obtain ⟨m, -, -, -, -, rfl⟩ := sentBytes_eq_ok hv
  obtain ⟨n, -, -, -, -, rfl⟩ := sentBytes_eq_ok hw
  intro h
  have htail := List.append_inj_right h (by simp)
  change (List.replicate _ b).drop _ = (List.replicate _ c).drop _ at htail
  rw [List.drop_replicate, List.drop_replicate] at htail
  exact hbc (List.replicate_right_injective (by decide) htail)

end Sent

/-- Like `filled 7` where the copies of a name and a text of one character
reach, and nowhere else. -/
def Beside.elsewhere : Beside where
  afterSender := List.replicate 62 7 ++ [9, 9]
  afterText := List.replicate 510 7 ++ [9, 9]
  buffer := ⟨List.replicate encodedLength 9 ++
    List.replicate (maxMsgNetBuf - encodedLength) 7, by
      rw [List.length_append, List.length_replicate, List.length_replicate]
      rfl⟩

/-- Two executions whose memory differs behind what is copied, and in the
part of the array that is written before it is sent. -/
theorem sent_bytes_elsewhere :
    ∃ v w, sentBytes .little 5 [98] .clientToAll [104] (.filled 7) = .ok v ∧
      sentBytes .little 5 [98] .clientToAll [104] .elsewhere = .ok w ∧
      (Beside.filled 7).afterSender ≠ Beside.elsewhere.afterSender ∧
      (Beside.filled 7).afterText ≠ Beside.elsewhere.afterText ∧
      (Beside.filled 7).buffer ≠ Beside.elsewhere.buffer ∧ v = w := by
  obtain ⟨v, hv⟩ := sentBytes_filled (b := 7)
  obtain ⟨w, hw⟩ := exists_sentBytes (x := .elsewhere) (by decide)
    (by decide +kernel)
  have hagrees : (Beside.filled 7).Agrees .elsewhere [98] [104] := by
    constructor <;> decide +kernel
  refine ⟨v, w, hv, hw, by decide +kernel, by decide +kernel, ?_,
    (sent_bytes_eq_iff hv hw).mpr hagrees⟩
  intro hbuffer
  have hfirst := congrArg List.Vector.head hbuffer
  exact absurd hfirst (by decide)

/-- The text `h` of `b` goes out with whatever bytes the memory had. -/
theorem memory_beside_message_sent :
    ∃ v w, sentBytes .little 5 [98] .clientToAll [104] (.filled 7) = .ok v ∧
      sentBytes .little 5 [98] .clientToAll [104] (.filled 9) = .ok w ∧
      v ≠ w := by
  obtain ⟨v, hv⟩ := sentBytes_filled (b := 7)
  obtain ⟨w, hw⟩ := sentBytes_filled (b := 9)
  exact ⟨v, w, hv, hw, sentBytes_filled_ne (by decide) hv hw⟩

end Sysops.Cw11
