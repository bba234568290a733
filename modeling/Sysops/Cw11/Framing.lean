import Sysops.Cw11.SocketUtils
import Sysops.Library.ByteStream
import Sysops.Library.Runs

/-!
# Messages over a stream

`send_message` and `receive_message` over one direction of a connection,
for every way the bytes are taken and arrive. The sender takes a `send` of
some of the bytes for a message sent (the sockets of the server do not
block), and the receiver whatever one `recv` returns for a message. So what
they need is that a `send` takes all bytes, and that a `recv` starts where a
message starts, returns all its bytes, and is not made at the end of the
stream.
-/

namespace Sysops.Cw11

/-- The bytes `send_message` hands to `send`; `buffer` is what its array
holds before. -/
def sendMessageBytes (o : ByteOrder) (message : MessageT)
    (buffer : Bytes maxMsgNetBuf) : List Byte :=
  (serializeMessageT o message buffer).toList

/-- `receive_message`: `received` is what `recv` put at the start of the
buffer, `none` if it reported an error. There is a message whenever the
result is not `-1`. -/
def receiveMessage (o : ByteOrder) (buffer : Bytes maxMsgNetBuf)
    (received : Option (Chunk maxMsgNetBuf)) : Option MessageT :=
  received.map fun bytes =>
    deserializeMessageT o (buffer.write 0 bytes.val (by
      rw [Nat.zero_add]
      exact bytes.property)) (by decide)

/-- The two ends of one direction. -/
structure Channel where
  stream : ByteStream
  /-- The messages for which `send_message` returned `0`. -/
  sent : List MessageT
  /-- The messages for which `receive_message` returned `0`. -/
  received : List MessageT
  /-- One of these was returned by a read at the end of the stream. -/
  receivedAtEnd : Bool

inductive ChannelEvent where
  /-- `send_message`, with a `send` that takes `n` bytes. -/
  | send (message : MessageT) (buffer : Bytes maxMsgNetBuf) (n : Nat)
  | close
  /-- `receive_message`, with a `recv` that returns `n` bytes. -/
  | receive (n : Nat) (buffer : Bytes maxMsgNetBuf)

namespace Channel

/-- One event, with a sender of byte order `a` and a receiver of byte
order `b`. -/
def step (a b : ByteOrder) (s : Channel) : ChannelEvent → Option Channel
  | .send message buffer n =>
      if 0 < n ∧ n ≤ maxMsgNetBuf then
        (s.stream.write ((sendMessageBytes a message buffer).take n)).map
          fun stream =>
            { s with stream := stream, sent := s.sent ++ [message] }
      else none
  | .close => some { s with stream := s.stream.close }
  | .receive n buffer =>
      (s.stream.read maxMsgNetBuf n).bind fun (bytes, stream) =>
        (receiveMessage b buffer (some bytes)).map fun message =>
          { stream := stream
            sent := s.sent
            received := s.received ++ [message]
            receivedAtEnd := s.receivedAtEnd || s.stream.AtEnd }

def initial : Channel := ⟨ByteStream.empty, [], [], false⟩

end Channel

def channel (a b : ByteOrder) : System Channel ChannelEvent where
  init s := s = Channel.initial
  step s e t := s.step a b e = some t

/-- What the receiver should have got: a prefix of what was sent, and
nothing once the stream has ended. -/
structure InOrder (s : Channel) : Prop where
  isPrefix : s.received <+: s.sent
  nothingAtEnd : s.receivedAtEnd = false

/-- A time stamp that the wire format keeps. -/
def Survives (a b : ByteOrder) (t : Int64) : Prop :=
  if a = b then 0 ≤ t.toInt ∧ t.toInt < 2 ^ 32 else t = 0

instance (a b : ByteOrder) : DecidablePred (Survives a b) := fun _ =>
  inferInstanceAs (Decidable (if a = b then _ else _))

/-- A send that takes all bytes; a read that starts where a message starts
and returns all its encoded bytes, and a message whose time stamp the wire
format keeps. -/
def WholeMessage (a b : ByteOrder) (s : Channel) : ChannelEvent → Prop
  | .send _ _ n => n = maxMsgNetBuf
  | .receive n _ => s.stream.consumed % maxMsgNetBuf = 0 ∧
      encodedLength ≤ n ∧
      ∀ m ∈ s.sent[s.stream.consumed / maxMsgNetBuf]?,
        Survives a b m.timestamp
  | .close => True

instance (a b : ByteOrder) (s : Channel) : DecidablePred (WholeMessage a b s)
  | .send _ _ _ => inferInstanceAs (Decidable (_ = _))
  | .receive _ _ => inferInstanceAs (Decidable (_ ∧ _))
  | .close => inferInstanceAs (Decidable True)

section Receive

variable {a b : ByteOrder}

theorem receivedTimestamp_eq_iff (t : Int64) :
    receivedTimestamp a b t = t ↔ Survives a b t := by
  unfold receivedTimestamp Survives
  split
  · exact low_half_eq_self_iff t
  · exact eq_comm

/-- What was written for a message is one block of the stream. -/
theorem sendMessageBytes_block (o : ByteOrder) (m : MessageT)
    (buffer : Bytes maxMsgNetBuf) :
    (sendMessageBytes o m buffer).length = maxMsgNetBuf ∧
      encoding o m <+: sendMessageBytes o m buffer := by
  refine ⟨List.Vector.toList_length _, ?_⟩
  rw [sendMessageBytes, toList_serializeMessageT]
  exact List.prefix_append _ _

/-- A read of at least the encoded bytes of a message gives the message,
the time stamp apart. -/
theorem receiveMessage_whole {m : MessageT} {buffer : Bytes maxMsgNetBuf}
    {bytes : Chunk maxMsgNetBuf} {rest : List Byte} {n : Nat}
    (hbytes : bytes.val = rest.take n) (hn : encodedLength ≤ n)
    (hrest : encoding a m <+: rest) :
    receiveMessage b buffer (some bytes) =
      some { m with timestamp := receivedTimestamp a b m.timestamp } := by
  rw [receiveMessage, Option.map_some, Option.some.injEq]
  apply deserialize_of_encoding
  rw [Bytes.toList_write, hbytes, List.take_zero, List.nil_append]
  refine List.IsPrefix.trans ?_ (List.prefix_append _ _)
  rw [List.prefix_take_iff]
  exact ⟨hrest, by rw [length_encoding]; exact hn⟩

end Receive

/-- What holds while all messages are sent and received whole. -/
structure Framed (a : ByteOrder) (s : Channel) : Prop where
  blocks : ByteStream.Blocks maxMsgNetBuf (encoding a) s.sent
    s.stream.written
  isPrefix : s.received <+: s.sent
  nothingAtEnd : s.receivedAtEnd = false
  /-- Where a message starts, all messages before it were received. -/
  aligned : s.stream.consumed % maxMsgNetBuf = 0 →
    s.stream.consumed = maxMsgNetBuf * s.received.length

section Step

variable {a b : ByteOrder} {s t : Channel}

/-- A send that takes all bytes adds one block. -/
theorem framed_send {message : MessageT} {buffer : Bytes maxMsgNetBuf}
    (hs : Framed a s)
    (h : s.step a b (.send message buffer maxMsgNetBuf) = some t) :
    Framed a t := by
  obtain ⟨hlength, hblock⟩ := sendMessageBytes_block a message buffer
  rw [Channel.step, if_pos (by decide), ← hlength, List.take_length] at h
  obtain ⟨stream, hstream, rfl⟩ := Option.map_eq_some_iff.mp h
  obtain rfl := ByteStream.write_eq_some hstream
  refine ⟨hs.blocks.append hlength hblock, ?_, hs.nothingAtEnd, hs.aligned⟩
  exact hs.isPrefix.trans (List.prefix_append _ _)

/-- A whole read at the start of message `k` receives it. -/
theorem framed_receive {n : Nat} {buffer : Bytes maxMsgNetBuf}
    (hs : Framed a s) (hwhole : WholeMessage a b s (.receive n buffer))
    (h : s.step a b (.receive n buffer) = some t) : Framed a t := by
  obtain ⟨hstart, hn, hsurvives⟩ := hwhole
  obtain ⟨⟨bytes, stream⟩, hread, h⟩ := Option.bind_eq_some_iff.mp h
  obtain ⟨message, hmessage, rfl⟩ := Option.map_eq_some_iff.mp h
  obtain ⟨-, hlen, -, hbytes, rfl⟩ := ByteStream.read_eq_some hread
  have hat := hs.aligned hstart
  have hindex : s.stream.consumed / maxMsgNetBuf = s.received.length := by
    rw [hat]
    exact Nat.mul_div_cancel_left _ (by decide)
  -- there are bytes to read, so there is a message that was not received
  have hpos : 0 < n := Nat.lt_of_lt_of_le (by decide) hn
  have hrest : s.stream.consumed < s.stream.written.length := by
    rw [ByteStream.rest, List.length_drop] at hlen
    omega
  obtain ⟨m, hm⟩ := hs.blocks.exists_block (hat ▸ hrest)
  have hblock := hs.blocks.block _ m hm
  rw [← hat] at hblock
  rw [receiveMessage_whole hbytes hn hblock, Option.some.injEq,
    (receivedTimestamp_eq_iff _).mpr (hsurvives m (hindex ▸ hm))] at hmessage
  obtain rfl : m = message := hmessage
  have hnotEnd : ¬ s.stream.AtEnd := by
    rintro ⟨-, hempty⟩
    rw [hempty, List.length_nil] at hlen
    omega
  refine ⟨hs.blocks, ?_, ?_, ?_⟩
  · obtain ⟨tail, htail⟩ := hs.isPrefix
    rw [← htail, List.getElem?_append_right (Nat.le_refl _),
      Nat.sub_self] at hm
    obtain ⟨tail', rfl⟩ := List.head?_eq_some_iff.mp
      (List.head?_eq_getElem?.trans hm)
    exact ⟨tail', by rw [← htail]; simp⟩
  · show (s.receivedAtEnd || decide s.stream.AtEnd) = false
    simp [hs.nothingAtEnd, hnotEnd]
  · intro haligned
    show s.stream.consumed + n = 1024 * (s.received ++ [m]).length
    have hle : n ≤ 1024 := (ByteStream.read_eq_some hread).1
    have haligned : (s.stream.consumed + n) % 1024 = 0 := haligned
    have hat : s.stream.consumed = 1024 * s.received.length := hat
    rw [List.length_append, List.length_singleton]
    -- only a read of a full buffer ends where the next message starts
    omega

theorem framed_step {e : ChannelEvent} (hs : Framed a s)
    (hwhole : WholeMessage a b s e) (h : s.step a b e = some t) :
    Framed a t := by
  cases e with
  | send message buffer n =>
      obtain rfl : n = maxMsgNetBuf := hwhole
      exact framed_send hs h
  | receive n buffer => exact framed_receive hs hwhole h
  | close =>
      obtain rfl := Option.some.inj h
      exact ⟨hs.blocks, hs.isPrefix, hs.nothingAtEnd, hs.aligned⟩

end Step

/-- **Messages arrive in order, and none after the end, in every run
whose sends and reads are whole.** -/
theorem in_order_of_wholeMessage (a b : ByteOrder) {s : Channel}
    (h : (channel a b).ReachableIf (WholeMessage a b) s) : InOrder s := by
  have hs : Framed a s := by
    refine h.invariant (I := Framed a) ?_ ?_
    · intro s hinit
      obtain rfl : s = Channel.initial := hinit
      exact ⟨.nil, List.prefix_rfl, rfl, fun _ => rfl⟩
    · intro s e t hs hwhole hstep
      exact framed_step hs hwhole hstep
  exact ⟨hs.isPrefix, hs.nothingAtEnd⟩

/-- Two messages and the end of the stream. -/
theorem in_order_two_messages :
    ∃ s, (channel .little .little).Reachable s ∧ s.received.length = 2 ∧
      InOrder s := by
  obtain ⟨s, hs, hlength⟩ :=
    System.ReachableIf.exists_of_runLabels
      (S := channel .little .little) (C := WholeMessage .little .little)
      (Channel.step .little .little) (fun _ _ _ h => h)
      [.send (frameFrom .clientNew "bob") (Bytes.ofList _ []) 1024,
        .send (frameFrom .clientStop "bob") (Bytes.ofList _ []) 1024, .close,
        .receive 1024 (Bytes.ofList _ []), .receive 600 (Bytes.ofList _ [])]
      (p := fun s => s.received.length == 2) (s := Channel.initial)
      (.init rfl) (by decide +kernel)
  exact ⟨s, hs.reachable, beq_iff_eq.mp hlength,
    in_order_of_wholeMessage .little .little hs⟩

/-- A message that arrives in two pieces is received as two, a read at the
end of the stream gives one more, and a full read mixes a message of which
only 500 bytes were taken with the next one. -/
theorem message_in_two_pieces :
    (∃ s, (channel .little .little).Reachable s ∧ ¬ s.received <+: s.sent) ∧
      (∃ s, (channel .little .little).Reachable s ∧
        s.receivedAtEnd = true) ∧
      ∃ s, (channel .little .little).Reachable s ∧
        s.stream.consumed = maxMsgNetBuf ∧ s.received.length = 1 ∧
        ¬ s.received <+: s.sent := by
  refine ⟨?_, ?_, ?_⟩
  · obtain ⟨s, hs, hlength⟩ :=
      System.ReachableIf.exists_of_runLabels
        (S := channel .little .little) (C := fun _ _ => True)
        (Channel.step .little .little) (fun _ _ _ h => h)
        [.send (frameFrom .clientNew "bob") (Bytes.ofList _ []) 1024,
          .receive 600 (Bytes.ofList _ []), .receive 424 (Bytes.ofList _ [])]
        (p := fun s => s.sent.length < s.received.length)
        (s := Channel.initial) (.init rfl) (by decide +kernel)
    refine ⟨s, hs, ?_⟩
    intro hprefix
    exact absurd hprefix.length_le (Nat.not_le.mpr (of_decide_eq_true hlength))
  · exact System.ReachableIf.exists_of_runLabels
      (S := channel .little .little) (C := fun _ _ => True)
      (Channel.step .little .little) (fun _ _ _ h => h)
      [.close, .receive 0 (Bytes.ofList _ [])] (p := Channel.receivedAtEnd)
      (s := Channel.initial) (.init rfl) (by decide +kernel)
  · obtain ⟨s, hs, hmixed⟩ :=
      System.ReachableIf.exists_of_runLabels
        (S := channel .little .little) (C := fun _ _ => True)
        (Channel.step .little .little) (fun _ _ _ h => h)
        [.send (frameFrom .clientNew "bob") (Bytes.ofList _ []) 500,
          .send (frameFrom .clientStop "bob") (Bytes.ofList _ []) 1024,
          .receive 1024 (Bytes.ofList _ [])]
        (p := fun s => s.stream.consumed = 1024 ∧ s.received.length = 1 ∧
          s.received.head? ≠ s.sent.head?)
        (s := Channel.initial) (.init rfl) (by decide +kernel)
    obtain ⟨hconsumed, hlength, hhead⟩ := of_decide_eq_true hmixed
    refine ⟨s, hs, hconsumed, hlength, ?_⟩
    rintro ⟨tail, htail⟩
    obtain ⟨m, hm⟩ := List.length_eq_one_iff.mp hlength
    rw [← htail, hm] at hhead
    exact hhead rfl

end Sysops.Cw11
