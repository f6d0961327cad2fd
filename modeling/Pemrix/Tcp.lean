-- The frames of the TCP transport. The writer sends every message with its length
-- as a `u32`; the reader takes messages of at most 8 MiB, from a stream that may be
-- cut anywhere.
import Pemrix.Frames
import Pemrix.Canonical

namespace Pemrix

open Frames

structure PeerId where
  bytes : Bytes32
  deriving DecidableEq

inductive NetworkEvent where
  | PeerConnected (peer : PeerId)
  | PeerDisconnected (peer : PeerId)
  | MessageReceived (peer : PeerId) (message : Message)

namespace TcpTransport

/-! ## Writing -/

/-- A socket that is written to. It takes `room` more bytes before it fails; `none` for one that
never fails. -/
structure Writer where
  written : Bytes
  room : Option Nat

def Writer.write_all (w : Writer) (bytes : Bytes) : Bool × Writer :=
  match w.room with
  | none => (true, { w with written := w.written ++ bytes })
  | some room =>
    if bytes.length ≤ room then (true, ⟨w.written ++ bytes, some (room - bytes.length)⟩)
    else (false, ⟨w.written ++ bytes.take room, some 0⟩)

def write_message (writer : Writer) (message : Message) : Except String Unit × Writer :=
  let bytes := encode message
  let len := UInt32.ofNat bytes.length
  match writer.write_all (to_be_bytes len) with
  | (false, writer) => (.error "write length failed", writer)
  | (true, writer) =>
    match writer.write_all bytes with
    | (false, writer) => (.error "write payload failed", writer)
    | (true, writer) => (.ok (), writer)

/-- The outbound task: the messages of the channel, up to the first one that fails. -/
def outbound (writer : Writer) : List Message → Except String Unit × Writer
  | [] => (.ok (), writer)
  | message :: rx =>
    match write_message writer message with
    | (.ok (), writer) => outbound writer rx
    | (.error e, writer) => (.error e, writer)

/-! ## Reading -/

/-- How the reader ended: the events it sent, the error it returned, and what was still unread
when its last round started. -/
structure Reading where
  events : List NetworkEvent
  error : String
  unread : List Bytes

def read_messages (remote_id : PeerId) (reader : List Bytes) : Reading :=
  match _hlen : read_exact 4 reader with
  | none => ⟨[], "read length failed", reader⟩
  | some (len_bytes, rest) =>
    let len := from_be_bytes len_bytes
    if len > 8 * 1024 * 1024 then ⟨[], "message too large", reader⟩
    else
      match _hbuf : read_exact len rest with
      | none => ⟨[], "read payload failed", reader⟩
      | some (buf, rest) =>
        match (decode buf : Option Message) with
        | none => ⟨[], "decode failed", reader⟩
        | some message =>
          let reading := read_messages remote_id rest
          { reading with events := .MessageReceived remote_id message :: reading.events }
  termination_by reader.flatten.length
  decreasing_by
    obtain ⟨hle, -, hrest⟩ := read_exact_eq_some _hlen
    obtain ⟨-, -, hrest'⟩ := read_exact_eq_some _hbuf
    rw [hrest', hrest, List.length_drop, List.length_drop]
    omega

/-! ## One round of the reader -/

section Rounds

variable {remote_id : PeerId} {reader : List Bytes} {head rest : Bytes}

theorem read_messages_eof (h : reader.flatten = []) :
    read_messages remote_id reader = ⟨[], "read length failed", reader⟩ := by
  have hread : read_exact 4 reader = none := read_exact_eof (by rw [h]; decide)
  unfold read_messages
  split
  · rfl
  · rename_i hlen
    rw [hread] at hlen
    cases hlen

theorem read_messages_too_large (h : reader.flatten = head ++ rest) (hlen : head.length = 4)
    (hlarge : 8 * 1024 * 1024 < from_be_bytes head) :
    read_messages remote_id reader = ⟨[], "message too large", reader⟩ := by
  obtain ⟨reader', hread, -⟩ := read_exact_append h hlen
  unfold read_messages
  split
  · rename_i hnone
    rw [hread] at hnone
    cases hnone
  · rename_i hsome
    rw [hread] at hsome
    cases hsome
    rw [if_pos hlarge]

/-- A payload of the length that its head gives is decoded, and the reader goes on after it. -/
theorem read_messages_payload (remote_id : PeerId) {buf : Bytes}
    (h : reader.flatten = head ++ (buf ++ rest))
    (hlen : head.length = 4) (hhead : from_be_bytes head = buf.length)
    (hfits : buf.length ≤ 8 * 1024 * 1024) :
    ∃ reader', reader'.flatten = rest ∧
      ((decode buf : Option Message) = none →
        read_messages remote_id reader = ⟨[], "decode failed", reader⟩) ∧
      ∀ message, decode buf = some message →
        read_messages remote_id reader =
          { read_messages remote_id reader' with
            events := .MessageReceived remote_id message ::
              (read_messages remote_id reader').events } := by
  obtain ⟨reader', hread, hrest⟩ := read_exact_append h hlen
  obtain ⟨reader'', hread', hrest'⟩ := read_exact_append hrest hhead.symm
  refine ⟨reader'', hrest', ?_⟩
  rw [read_messages.eq_def remote_id reader]
  split
  · rename_i hnone
    rw [hread] at hnone
    cases hnone
  rename_i hsome
  rw [hread] at hsome
  cases hsome
  rw [if_neg (by omega)]
  split
  · rename_i hnone
    rw [hread'] at hnone
    cases hnone
  rename_i hsome
  rw [hread'] at hsome
  cases hsome
  constructor
  · intro hdecode
    rw [hdecode]
  · intro message hdecode
    rw [hdecode]

end Rounds

/-! ## The round trip -/

/-- The bytes of one message. -/
def frame (message : Message) : Bytes :=
  to_be_bytes (UInt32.ofNat (encode message).length) ++ encode message

theorem write_message_open (written : Bytes) (message : Message) :
    write_message ⟨written, none⟩ message = (.ok (), ⟨written ++ frame message, none⟩) := by
  unfold frame
  rw [← List.append_assoc]
  rfl

theorem outbound_open (written : Bytes) (messages : List Message) :
    outbound ⟨written, none⟩ messages = (.ok (), ⟨written ++ messages.flatMap frame, none⟩) := by
  induction messages generalizing written with
  | nil =>
    rw [List.flatMap_nil, List.append_nil]
    rfl
  | cons message messages ih =>
    rw [outbound, write_message_open]
    dsimp only
    rw [ih, List.flatMap_cons, List.append_assoc]

/-- The messages come out in their order, and the reader stops at the end of the stream. -/
def RoundTrips (remote_id : PeerId) (messages : List Message) (reader : List Bytes) : Prop :=
  (read_messages remote_id reader).events = messages.map (.MessageReceived remote_id) ∧
    (read_messages remote_id reader).unread.flatten = []

theorem decode_encode_message (message : Message) : decode (encode message) = some message :=
  Forms.message.from_slice_to_vec message

theorem encode_message_printable (message : Message) : Json.Printable (encode message) :=
  Json.write_printable (Forms.message.to_json message)

/-- A message that fits is read, and the rest of the stream decides. -/
theorem roundTrips_cons_of_le (remote_id : PeerId) {message : Message} (messages : List Message)
    {reader : List Bytes} {rest : Bytes} (h : reader.flatten = frame message ++ rest)
    (hfits : (encode message).length ≤ 8 * 1024 * 1024) :
    ∃ reader', reader'.flatten = rest ∧
      (RoundTrips remote_id (message :: messages) reader ↔
        RoundTrips remote_id messages reader') := by
  have hhead : from_be_bytes (to_be_bytes (UInt32.ofNat (encode message).length)) =
      (encode message).length := by
    rw [from_be_bytes_to_be_bytes, UInt32.toNat_ofNat']
    omega
  rw [frame, List.append_assoc] at h
  obtain ⟨reader', hrest, -, hmessage⟩ :=
    read_messages_payload remote_id h rfl hhead hfits
  refine ⟨reader', hrest, ?_⟩
  unfold RoundTrips
  rw [hmessage message (decode_encode_message message), List.map_cons]
  simp only [List.cons.injEq, true_and]

/-- A message that does not fit is refused, or its length wraps around and the reader takes a part
of it. Then the next length is made of four signs of the text, and no length is as large as that. -/
theorem not_roundTrips_of_lt (remote_id : PeerId) {message : Message} (messages : List Message)
    {reader : List Bytes} {rest : Bytes} (h : reader.flatten = frame message ++ rest)
    (hlarge : 8 * 1024 * 1024 < (encode message).length) :
    ¬ RoundTrips remote_id messages reader := by
  have hunread : reader.flatten ≠ [] := by
    rw [h]
    exact List.cons_ne_nil _ _
  rintro ⟨-, hend⟩
  have hhead := from_be_bytes_to_be_bytes (UInt32.ofNat (encode message).length)
  rw [UInt32.toNat_ofNat'] at hhead
  rw [frame, List.append_assoc] at h
  by_cases htold : 8 * 1024 * 1024 < (encode message).length % 2 ^ 32
  · rw [read_messages_too_large h rfl (by omega)] at hend
    exact hunread hend
  · obtain ⟨buf, text, htext, hbuf⟩ : ∃ buf text, encode message = buf ++ text ∧
        buf.length = (encode message).length % 2 ^ 32 :=
      ⟨(encode message).take ((encode message).length % 2 ^ 32), _,
        (List.take_append_drop _ _).symm,
        List.length_take_of_le (Nat.mod_le _ _)⟩
    have hlong : 4 ≤ text.length := by
      have := congrArg List.length htext
      rw [List.length_append] at this
      omega
    rw [htext, List.append_assoc, ← htext] at h
    obtain ⟨reader', hrest, hnone, hsome⟩ :=
      read_messages_payload remote_id h rfl (hhead.trans hbuf.symm) (by omega)
    rcases hdecode : (decode buf : Option Message) with _ | other
    · rw [hnone hdecode] at hend
      exact hunread hend
    · have hsigns : ∀ b ∈ text.take 4, 32 ≤ b := by
        intro b hb
        refine encode_message_printable message b ?_
        rw [htext]
        exact List.mem_append_right _ (List.mem_of_mem_take hb)
      have hnext := le_from_be_bytes (List.length_take_of_le hlong) hsigns
      have hrest' : reader'.flatten = text.take 4 ++ (text.drop 4 ++ rest) := by
        rw [hrest, ← List.append_assoc, List.take_append_drop]
      rw [hsome other hdecode, read_messages_too_large hrest' (List.length_take_of_le hlong)
        (by omega)] at hend
      dsimp only at hend
      rw [hrest] at hend
      have hnil := (List.append_eq_nil_iff.mp hend).1
      rw [hnil] at hlong
      exact absurd hlong (by decide)

/-- However the stream is cut, it is read back if and only if every message fits. -/
theorem roundTrips_iff (remote_id : PeerId) (messages : List Message) {reader : List Bytes}
    (h : reader.flatten = messages.flatMap frame) :
    RoundTrips remote_id messages reader ↔
      ∀ message ∈ messages, (encode message).length ≤ 8 * 1024 * 1024 := by
  induction messages generalizing reader with
  | nil =>
    unfold RoundTrips
    rw [read_messages_eof h]
    simp [h]
  | cons message messages ih =>
    rw [List.flatMap_cons] at h
    rw [List.forall_mem_cons]
    by_cases hfits : (encode message).length ≤ 8 * 1024 * 1024
    · obtain ⟨reader', hrest, hiff⟩ := roundTrips_cons_of_le remote_id messages h hfits
      rw [hiff, ih hrest, and_iff_right hfits]
    · have hnot := not_roundTrips_of_lt remote_id (message :: messages) h (Nat.lt_of_not_le hfits)
      exact iff_of_false hnot fun hall => hfits hall.1

/-- A socket that does not fail takes every list of messages, and the reader gives the list back
if and only if every encoding fits the limit of 8 MiB. -/
theorem framing_round_trips_iff (remote_id : PeerId) (messages : List Message)
    (reader : List Bytes)
    (h : reader.flatten = (outbound ⟨[], none⟩ messages).2.written) :
    (outbound ⟨[], none⟩ messages).1 = .ok () ∧
      (RoundTrips remote_id messages reader ↔
        ∀ message ∈ messages, (encode message).length ≤ 8 * 1024 * 1024) := by
  rw [outbound_open] at h ⊢
  exact ⟨rfl, roundTrips_iff remote_id messages h⟩

/-- Two messages, cut in the middle of the first length. -/
theorem ping_pong_round_trips :
    RoundTrips ⟨Vector.replicate 32 7⟩ [.Ping, .Pong]
      [[0, 0, 0], [6, 34, 80, 105, 110, 103, 34, 0, 0, 0, 6, 34, 80, 111, 110, 103, 34]] :=
  (framing_round_trips_iff _ [.Ping, .Pong] _ rfl).2.mpr (by decide)

/-- A transfer with 2 MiB of data. -/
def large_transfer : Transaction :=
  { Concrete.transfer with payload := List.replicate (2 * 1024 * 1024) 255 }

theorem payload_length_le (tx : Transaction) :
    (Forms.bytes.to_vec tx.payload).length ≤ (encode (Message.Transaction tx)).length := by
  have hpayload : (Forms.bytes.to_vec tx.payload).length ≤ (Forms.transaction.to_vec tx).length :=
    Json.length_le_write_object (f := ("payload", Forms.bytes.to_json tx.payload))
      (List.mem_of_getElem? (i := 7) rfl)
  have htransaction : (Forms.transaction.to_vec tx).length ≤
      (Forms.message.to_vec (.Transaction tx)).length :=
    Json.length_le_write_object (f := ("Transaction", Forms.transaction.to_json tx))
      (List.mem_of_getElem? (i := 0) rfl)
  exact Nat.le_trans hpayload htransaction

theorem large_transfer_length :
    8 * 1024 * 1024 < (encode (Message.Transaction large_transfer)).length := by
  have hbytes : ∀ j ∈ (List.replicate (2 * 1024 * 1024) 255).map Forms.u8.to_json,
      3 ≤ (Json.write j).length := by
    rw [List.map_replicate]
    intro j hj
    rw [(List.mem_replicate.mp hj).2]
    decide
  have hpayload := Json.length_write_array hbytes
  rw [List.length_map, List.length_replicate] at hpayload
  exact Nat.lt_of_lt_of_le hpayload (payload_length_le large_transfer)

/-- The transfer is written and never read. -/
theorem large_transfer_not_read_back :
    let sent := outbound ⟨[], none⟩ [.Transaction large_transfer]
    sent.1 = .ok () ∧
      ¬ RoundTrips ⟨Vector.replicate 32 7⟩ [.Transaction large_transfer] [sent.2.written] := by
  intro sent
  have hsent : sent = _ := outbound_open [] [.Transaction large_transfer]
  have hstream : [sent.2.written].flatten = [.Transaction large_transfer].flatMap frame := by
    rw [List.flatten_singleton, hsent, List.nil_append]
  refine ⟨congrArg Prod.fst hsent, ?_⟩
  rw [roundTrips_iff _ _ hstream]
  intro h
  exact Nat.not_le_of_lt large_transfer_length (h _ List.mem_cons_self)

end TcpTransport

end Pemrix
