-- A connection that breaks. The socket may fail after any byte, and what was
-- written may be lost from any byte on: the reader gives the messages that came
-- whole, in their order, and nothing that was not sent.
import Pemrix.Tcp

namespace Pemrix.TcpTransport

open Frames

/-! ## What a socket takes -/

theorem length_frame (message : Message) :
    (frame message).length = 4 + (encode message).length := by
  rw [frame, List.length_append]
  rfl

theorem write_message_cut (written : Bytes) (room : Nat) (message : Message) :
    ((frame message).length ≤ room ∧ write_message ⟨written, some room⟩ message =
      (.ok (), ⟨written ++ frame message, some (room - (frame message).length)⟩)) ∨
    (room < (frame message).length ∧ ∃ e, write_message ⟨written, some room⟩ message =
      (.error e, ⟨written ++ (frame message).take room, some 0⟩)) := by
  have hlen : (to_be_bytes (UInt32.ofNat (encode message).length)).length = 4 := rfl
  rw [length_frame]
  unfold write_message Writer.write_all frame
  dsimp only
  rw [hlen]
  by_cases hhead : 4 ≤ room
  · rw [if_pos hhead]
    dsimp only
    by_cases hpayload : (encode message).length ≤ room - 4
    · rw [if_pos hpayload]
      refine Or.inl ⟨by omega, ?_⟩
      rw [List.append_assoc, Nat.sub_sub]
    · rw [if_neg hpayload]
      refine Or.inr ⟨by omega, "write payload failed", ?_⟩
      have hall : (to_be_bytes (UInt32.ofNat (encode message).length)).take room =
          to_be_bytes (UInt32.ofNat (encode message).length) :=
        List.take_of_length_le (by rw [hlen]; exact hhead)
      rw [List.take_append, hall, hlen, List.append_assoc]
  · rw [if_neg hhead]
    refine Or.inr ⟨by omega, "write length failed", ?_⟩
    rw [List.take_append_of_le_length (by omega)]

/-- The socket takes the bytes of the messages up to where it fails. -/
theorem outbound_cut (written : Bytes) (room : Nat) (messages : List Message) :
    (outbound ⟨written, some room⟩ messages).2.written =
      written ++ (messages.flatMap frame).take room ∧
    ((outbound ⟨written, some room⟩ messages).1 = .ok () ↔
      (messages.flatMap frame).length ≤ room) := by
  induction messages generalizing written room with
  | nil => simp [outbound]
  | cons message messages ih =>
    rw [List.flatMap_cons, List.length_append, outbound]
    rcases write_message_cut written room message with ⟨hfits, hw⟩ | ⟨hcut, e, hw⟩
    · rw [hw]
      obtain ⟨hwritten, hok⟩ := ih (written ++ frame message) (room - (frame message).length)
      refine ⟨?_, hok.trans ?_⟩
      · dsimp only
        rw [hwritten, List.take_append, List.take_of_length_le hfits, List.append_assoc]
      · omega
    · rw [hw]
      refine ⟨?_, iff_of_false ?_ (by omega)⟩
      · dsimp only
        rw [List.take_append_of_le_length (Nat.le_of_lt hcut)]
      · intro hok
        cases hok

/-- What a socket takes is the start of what is sent, and all of it if nothing fails. -/
theorem outbound_prefix (room : Option Nat) (messages : List Message) :
    (outbound ⟨[], room⟩ messages).2.written <+: messages.flatMap frame ∧
      ((outbound ⟨[], room⟩ messages).1 = .ok () →
        (outbound ⟨[], room⟩ messages).2.written = messages.flatMap frame) := by
  cases room with
  | none =>
    rw [outbound_open, List.nil_append]
    exact ⟨List.prefix_refl _, fun _ => rfl⟩
  | some room =>
    obtain ⟨hwritten, hok⟩ := outbound_cut [] room messages
    rw [hwritten, List.nil_append]
    exact ⟨List.take_prefix _ _, fun h => List.take_of_length_le (hok.mp h)⟩

/-! ## What the reader makes of it -/

section Reader

variable {remote_id : PeerId} {reader : List Bytes} {head : Bytes}

/-- The stream ends within a length. -/
theorem read_messages_cut_length (h : reader.flatten.length < 4) :
    read_messages remote_id reader = ⟨[], "read length failed", reader⟩ := by
  have hread : read_exact 4 reader = none := read_exact_eof h
  unfold read_messages
  split
  · rfl
  · rename_i hlen
    rw [hread] at hlen
    cases hlen

/-- The stream ends within a payload. -/
theorem read_messages_cut_payload {part : Bytes} (h : reader.flatten = head ++ part)
    (hlen : head.length = 4) (hfits : from_be_bytes head ≤ 8 * 1024 * 1024)
    (hcut : part.length < from_be_bytes head) :
    read_messages remote_id reader = ⟨[], "read payload failed", reader⟩ := by
  obtain ⟨reader', hread, hrest⟩ := read_exact_append h hlen
  have hpayload : read_exact (from_be_bytes head) reader' = none :=
    read_exact_eof (by rw [hrest]; exact hcut)
  unfold read_messages
  split
  · rename_i hnone
    rw [hread] at hnone
    cases hnone
  rename_i hsome
  rw [hread] at hsome
  cases hsome
  rw [if_neg (by omega)]
  split
  · rfl
  · rename_i hbuf
    rw [hpayload] at hbuf
    cases hbuf

end Reader

theorem from_be_bytes_length {message : Message}
    (hfits : (encode message).length ≤ 8 * 1024 * 1024) :
    from_be_bytes (to_be_bytes (UInt32.ofNat (encode message).length)) =
      (encode message).length := by
  rw [from_be_bytes_to_be_bytes, UInt32.toNat_ofNat']
  omega

/-- How the reader ends when the last bytes that came are the start of a frame. -/
def cut_error (left : Nat) : String :=
  if left < 4 then "read length failed" else "read payload failed"

/-- The start of one frame. -/
theorem read_messages_cut_frame (remote_id : PeerId) {message : Message} {reader : List Bytes}
    (hfits : (encode message).length ≤ 8 * 1024 * 1024) (h : reader.flatten <+: frame message)
    (hcut : reader.flatten.length < (frame message).length) :
    read_messages remote_id reader = ⟨[], cut_error reader.flatten.length, reader⟩ := by
  unfold cut_error
  split
  · rename_i hlt
    exact read_messages_cut_length hlt
  · rename_i hge
    rw [length_frame] at hcut
    rw [List.prefix_iff_eq_take, frame, List.take_append, List.take_of_length_le (by
      rw [show (to_be_bytes (UInt32.ofNat (encode message).length)).length = 4 from rfl]
      omega)] at h
    refine read_messages_cut_payload h rfl ?_ ?_
    · rw [from_be_bytes_length hfits]
      exact hfits
    · rw [from_be_bytes_length hfits, List.length_take]
      rw [show (to_be_bytes (UInt32.ofNat (encode message).length)).length = 4 from rfl]
      omega

/-- A whole frame is read, and the rest of the stream decides. -/
theorem read_messages_frame (remote_id : PeerId) {message : Message} {reader : List Bytes}
    {rest : Bytes} (hfits : (encode message).length ≤ 8 * 1024 * 1024)
    (h : reader.flatten = frame message ++ rest) :
    ∃ reader', reader'.flatten = rest ∧ read_messages remote_id reader =
      { read_messages remote_id reader' with
        events := .MessageReceived remote_id message ::
          (read_messages remote_id reader').events } := by
  rw [frame, List.append_assoc] at h
  obtain ⟨reader', hrest, -, hmessage⟩ :=
    read_messages_payload remote_id h rfl (from_be_bytes_length hfits) hfits
  exact ⟨reader', hrest, hmessage message (decode_encode_message message)⟩

/-- The first `k` messages came whole, with some bytes of the next one. -/
structure Arrived (messages : List Message) (bytes : Nat) (k : Nat) : Prop where
  known : k ≤ messages.length
  whole : ((messages.take k).flatMap frame).length ≤ bytes
  cut : k < messages.length → bytes < ((messages.take (k + 1)).flatMap frame).length

theorem Arrived.cons {message : Message} {messages : List Message} {bytes k : Nat}
    (h : Arrived messages bytes k) :
    Arrived (message :: messages) ((frame message).length + bytes) (k + 1) := by
  refine ⟨Nat.succ_le_succ h.known, ?_, fun hlt => ?_⟩
  · have hwhole := h.whole
    rw [List.take_succ_cons, List.flatMap_cons, List.length_append]
    omega
  · have hcut := h.cut (Nat.lt_of_succ_lt_succ hlt)
    rw [List.take_succ_cons, List.flatMap_cons, List.length_append]
    omega

/-- The reader of the start of a stream of messages that fit. -/
theorem read_messages_prefix (remote_id : PeerId) (messages : List Message) {reader : List Bytes}
    (hfits : ∀ message ∈ messages, (encode message).length ≤ 8 * 1024 * 1024)
    (h : reader.flatten <+: messages.flatMap frame) :
    ∃ k, Arrived messages reader.flatten.length k ∧
      (read_messages remote_id reader).events =
        (messages.take k).map (.MessageReceived remote_id) ∧
      (read_messages remote_id reader).error =
        cut_error (reader.flatten.length - ((messages.take k).flatMap frame).length) := by
  induction messages generalizing reader with
  | nil =>
    have hnil : reader.flatten = [] := List.prefix_nil.mp h
    refine ⟨0, ⟨Nat.le_refl 0, Nat.zero_le _, fun hlt => absurd hlt (Nat.lt_irrefl 0)⟩, ?_⟩
    rw [read_messages_eof hnil, hnil]
    exact ⟨rfl, rfl⟩
  | cons message messages ih =>
    rw [List.forall_mem_cons] at hfits
    rw [List.flatMap_cons] at h
    by_cases hcut : reader.flatten.length < (frame message).length
    · have hstart : reader.flatten <+: frame message :=
        List.prefix_of_prefix_length_le h (List.prefix_append _ _) (Nat.le_of_lt hcut)
      refine ⟨0, ⟨Nat.zero_le _, Nat.zero_le _, fun _ => ?_⟩, ?_⟩
      · rw [List.take_succ_cons, List.take_zero, List.flatMap_cons, List.flatMap_nil,
          List.append_nil]
        exact hcut
      · rw [read_messages_cut_frame remote_id hfits.1 hstart hcut]
        exact ⟨rfl, rfl⟩
    · obtain ⟨rest, hrest⟩ : frame message <+: reader.flatten :=
        List.prefix_of_prefix_length_le (List.prefix_append _ _) h (Nat.le_of_not_lt hcut)
      obtain ⟨reader', hreader', hread⟩ := read_messages_frame remote_id hfits.1 hrest.symm
      rw [← hrest, List.prefix_append_right_inj, ← hreader'] at h
      obtain ⟨k, harrived, hevents, herror⟩ := ih hfits.2 h
      have hlength : reader.flatten.length = (frame message).length + reader'.flatten.length := by
        rw [← hrest, List.length_append, hreader']
      refine ⟨k + 1, ?_, ?_, ?_⟩
      · rw [hlength]
        exact harrived.cons
      · rw [hread, List.take_succ_cons, List.map_cons, ← hevents]
      · rw [hread, List.take_succ_cons, List.flatMap_cons, List.length_append, hlength,
          Nat.add_sub_add_left]
        exact herror

/-- Wherever a connection breaks, the receiver gets exactly the messages whose frames came whole,
in the order in which they were sent, and then stops with an error about the frame that is
missing. If the socket took everything and all of it came, that is every message. -/
theorem broken_stream_delivers_the_whole_frames (remote_id : PeerId) (messages : List Message)
    (hfits : ∀ message ∈ messages, (encode message).length ≤ 8 * 1024 * 1024)
    (room : Option Nat) (reader : List Bytes)
    (h : reader.flatten <+: (outbound ⟨[], room⟩ messages).2.written) :
    ∃ k, Arrived messages reader.flatten.length k ∧
      (read_messages remote_id reader).events =
        (messages.take k).map (.MessageReceived remote_id) ∧
      (read_messages remote_id reader).error =
        cut_error (reader.flatten.length - ((messages.take k).flatMap frame).length) ∧
      ((outbound ⟨[], room⟩ messages).1 = .ok () →
        reader.flatten = (outbound ⟨[], room⟩ messages).2.written → k = messages.length) := by
  obtain ⟨hpre, hall⟩ := outbound_prefix room messages
  obtain ⟨k, harrived, hevents, herror⟩ :=
    read_messages_prefix remote_id messages hfits (h.trans hpre)
  refine ⟨k, harrived, hevents, herror, ?_⟩
  intro hok hcame
  by_contra hne
  have hlt : k < messages.length := Nat.lt_of_le_of_ne harrived.known hne
  have hcut := harrived.cut hlt
  rw [hcame, hall hok] at hcut
  have hle : ((messages.take (k + 1)).flatMap frame).length ≤ (messages.flatMap frame).length := by
    rw [← List.take_append_drop (k + 1) messages, List.flatMap_append, List.length_append,
      List.take_append_drop]
    exact Nat.le_add_right _ _
  omega

/-- A ping comes whole, and two bytes of the pong are lost. -/
theorem ping_comes_without_pong :
    (read_messages ⟨Vector.replicate 32 7⟩
      [[0, 0, 0], [6, 34, 80, 105, 110, 103, 34, 0, 0, 0, 6, 34, 80, 111, 110]]).events =
      [.MessageReceived ⟨Vector.replicate 32 7⟩ .Ping] := by
  obtain ⟨k, harrived, hevents, -⟩ :=
    broken_stream_delivers_the_whole_frames ⟨Vector.replicate 32 7⟩ [.Ping, .Pong] (by decide)
      (some 19) [[0, 0, 0], [6, 34, 80, 105, 110, 103, 34, 0, 0, 0, 6, 34, 80, 111, 110]]
      (by decide)
  have hk : k = 1 := by
    obtain rfl | rfl | rfl : k = 0 ∨ k = 1 ∨ k = 2 := by
      have hknown : k ≤ 2 := harrived.known
      omega
    · exact absurd (harrived.cut (by decide)) (by decide)
    · rfl
    · exact absurd harrived.whole (by decide)
  rw [hevents, hk]
  rfl

end Pemrix.TcpTransport
