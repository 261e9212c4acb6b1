import NetLib.Buffer.SendBuffer
import NetLib.Receive.Stream
/-!
# From `CSendBuffer` to `OnRecvPacket`

What a sender prepares is a stream of frames, so a session with the same
static key reads back the payloads, however the stream is cut.
-/

namespace NetLib

open CSendBuffer Framing

variable {b : CSendBuffer} {payload : List Byte} {staticKey : Byte}

/-- A packet prepared with one key, as a receiver with any key reads it. -/
theorem netFrame_tryEncode (h : b.Written payload) (key : Byte) {maxPacketLen : ℕ}
    (hmax : payload.length ≤ maxPacketLen) (m : List Byte) :
    netFrame key maxPacketLen ((b.tryEncode staticKey).wire ++ m) =
      let plain := decodeBytes key 0x31 (encodeBytes staticKey 0x31 (checkSumOf payload :: payload))
      if plain.headD 0 = checkSumOf plain.tail then
        .item plain.tail (b.tryEncode staticKey).wire.length
      else .bad := by
  rw [wire_tryEncode h]
  have hlen := h.getDataSize_eq
  have hcipher : (encodeBytes staticKey 0x31 (checkSumOf payload :: payload)).length =
      payload.length + 1 := by
    rw [encodeBytes, Feedback.length_encode, List.length_cons]
  generalize encodeBytes staticKey 0x31 (checkSumOf payload :: payload) = cipher at hcipher
  obtain ⟨c, rest, rfl⟩ := List.exists_cons_of_length_eq_add_one hcipher
  -- the header, as the receiver reads it
  have hheader : NetHeader.ofBytes
      ([dfPACKET_CODE, loByte b.getDataSize, hiByte b.getDataSize, 0x31] ++ c :: rest ++ m) =
        ⟨dfPACKET_CODE, b.getDataSize, 0x31, c⟩ :=
    NetHeader.ofBytes_bytes ⟨dfPACKET_CODE, b.getDataSize, 0x31, c⟩ (rest ++ m)
  have htotal : ([dfPACKET_CODE, loByte b.getDataSize, hiByte b.getDataSize, 0x31]
      ++ c :: rest ++ m).length = 5 + payload.length + m.length := by
    simp only [List.length_append, hcipher, List.length_cons, List.length_nil]
    omega
  have hbody : (([dfPACKET_CODE, loByte b.getDataSize, hiByte b.getDataSize, 0x31]
      ++ c :: rest ++ m).drop 4).take (payload.length + 1) = c :: rest := by
    rw [List.append_assoc]
    exact List.take_left' hcipher
  have hwire : ([dfPACKET_CODE, loByte b.getDataSize, hiByte b.getDataSize, 0x31]
      ++ c :: rest).length = 5 + payload.length := by
    simp only [List.length_append, hcipher, List.length_cons, List.length_nil]
    omega
  rw [netFrame, if_neg (by omega), hheader, hwire]
  dsimp only
  rw [hlen, if_neg (by simp [hmax]), if_neg (by omega), hbody]

/-- A prepared packet is one frame of the receiver's. -/
theorem netFrame_wire (h : b.Written payload) {maxPacketLen : ℕ}
    (hmax : payload.length ≤ maxPacketLen) (m : List Byte) :
    netFrame staticKey maxPacketLen ((b.tryEncode staticKey).wire ++ m) =
      .item payload (b.tryEncode staticKey).wire.length := by
  rw [netFrame_tryEncode h staticKey hmax m, decodeBytes_encodeBytes]
  dsimp only
  rw [List.headD_cons, List.tail_cons, if_pos rfl]

theorem lanFrame_wire (h : b.Written payload) (m : List Byte) :
    lanFrame (b.writeLanHeader.wire ++ m) = .item payload b.writeLanHeader.wire.length := by
  rw [wire_writeLanHeader h]
  have hlen := h.getDataSize_eq
  have hbytes : (LANHeader.mk b.getDataSize).bytes.length = 2 := rfl
  have hwire : ((LANHeader.mk b.getDataSize).bytes ++ payload).length = 2 + payload.length := by
    rw [List.length_append, hbytes]
  rw [lanFrame, if_neg (by rw [List.length_append]; omega), List.append_assoc,
    LANHeader.ofBytes_bytes]
  dsimp only
  rw [hlen, if_neg (by simp only [List.length_append, hbytes]; omega), List.drop_left' hbytes,
    List.take_left' rfl, hwire]

/-- So it is, with either header. -/
theorem frames_prepare (h : b.Written payload) {maxPacketLen : ℕ}
    (hmax : payload.length ≤ maxPacketLen) :
    (framing (if staticKey ≠ 0 then .NetHeader else .LANHeader) staticKey maxPacketLen).Frames
      (b.prepare staticKey).wire payload := by
  intro m
  unfold prepare
  split
  · exact netFrame_wire h hmax m
  · exact lanFrame_wire h m

/-- A prepared packet is at most the buffer and a header long. -/
theorem length_wire_le (h : b.Written payload) : (b.prepare staticKey).wire.length ≤ 2053 := by
  have := h.le
  unfold prepare
  split
  · rw [wire_tryEncode h, List.length_append, encodeBytes, Feedback.length_encode]
    simp only [List.length_cons, List.length_nil]
    omega
  · rw [wire_writeLanHeader h, List.length_append, show (LANHeader.bytes _).length = 2 from rfl]
    omega

/-- And so are all of them. -/
theorem frames_of_written (staticKey : Byte) {bufs : List CSendBuffer} {payloads : List (List Byte)}
    (hw : List.Forall₂ Written bufs payloads) {maxPacketLen : ℕ}
    (hlen : ∀ payload ∈ payloads, payload.length ≤ maxPacketLen) :
    List.Forall₂
        (framing (if staticKey ≠ 0 then .NetHeader else .LANHeader) staticKey maxPacketLen).Frames
        (bufs.map fun b => (b.prepare staticKey).wire) payloads ∧
      ∀ w ∈ bufs.map fun b => (b.prepare staticKey).wire, w.length ≤ 2053 := by
  induction hw with
  | nil => exact ⟨.nil, fun w hw => absurd hw List.not_mem_nil⟩
  | cons h _ ih =>
    obtain ⟨hframes, hbound⟩ := ih fun p hp => hlen p (List.mem_cons_of_mem _ hp)
    refine ⟨.cons (frames_prepare h (hlen _ List.mem_cons_self)) hframes, ?_⟩
    rw [List.map_cons, List.forall_mem_cons]
    exact ⟨length_wire_le h, hbound⟩

namespace Session

variable {onRecvPacket : Handler}

/-- **End-to-end round trip.** For every list of payloads of at most 2048
bytes and at most the receiver's limit, each written to a `CSendBuffer` and
prepared with a static key that the receiving session shares (zero or not),
and for every way of cutting the stream into receives that fit, the session
hands over exactly these payloads, in this order, stays connected, and ends
with an empty ring. -/
theorem stream_round_trip {s₀ : Session} {fuel : ℕ} (h₀ : Accepted s₀)
    (hmax : s₀.maxPacketLen ≤ 8186) (he : Exact onRecvPacket) (hfuel : 8192 ≤ fuel)
    {bufs : List CSendBuffer} {payloads : List (List Byte)}
    (hw : List.Forall₂ Written bufs payloads)
    (hlen : ∀ payload ∈ payloads, payload.length ≤ s₀.maxPacketLen) :
    ∃ s, recvNotIncrease s₀ = some s ∧ ∀ segs,
      segs.flatten = (bufs.map fun b => (b.prepare s₀.staticKey).wire).flatten →
      Cut onRecvPacket fuel s segs →
      ∃ s', receive onRecvPacket fuel s segs = some s' ∧ s'.calls = payloads ∧
        s'.connect = true ∧ s'.recvQ.size = 0 := by
  obtain ⟨s, hs, hrecv⟩ := h₀.receiving
  refine ⟨s, hs, fun segs hsegs hcut => ?_⟩
  have hframes : List.Forall₂ (packets (packetHeader s₀) s₀).Frames _ payloads :=
    (frames_of_written s₀.staticKey hw hlen).1
  have hbound := (frames_of_written s₀.staticKey hw hlen).2
  have hnil : (packets (packetHeader s₀) s₀).next [] = .more := by
    unfold packets packetHeader
    split <;> rfl
  obtain ⟨s', hrun, hs'⟩ := receive_spec he (fun _ => hmax) hfuel hrecv hcut fun l' ys r hl hp => by
    rw [List.nil_append, hsegs] at hl
    have := pending_of_prefix hframes hbound hl hp hnil (by decide)
    omega
  rw [List.nil_append, hsegs, parse_frames hframes hnil] at hs'
  obtain ⟨hconn, ⟨f, hholds⟩, -⟩ := hs'.rest
  exact ⟨s', hrun, hs'.calls, hconn, hholds.size_eq⟩

/-- A buffer that `payload` was written to. -/
def holding (payload : List Byte) : CSendBuffer :=
  ⟨writeBytes (fun _ => 0) 5 payload, 0, 5, 5 + payload.length, 0⟩

theorem written_holding {payload : List Byte} (h : payload.length ≤ 2048) :
    (holding payload).Written payload :=
  ⟨rfl, rfl, rfl, rfl, h, readBytes_writeBytes _ _ _⟩

def nine : CSendBuffer := holding [9]

theorem written_nine : nine.Written [9] := written_holding (by decide)

/-- Three packets on the wire, the second one without a payload. -/
def threePackets : List Byte :=
  ([nine, holding [], holding [3, 4, 5]].map fun b => (b.prepare 7).wire).flatten

/-- The receives end inside the first header and inside the last payload. -/
theorem stream_round_trip_three : ∃ s s', recvNotIncrease keyed = some s ∧
    receive takeAll 8192 s [threePackets.take 3, (threePackets.drop 3).take 14,
      threePackets.drop 17] = some s' ∧
      s'.calls = [[9], [], [3, 4, 5]] ∧ s'.connect = true ∧ s'.recvQ.size = 0 := by
  have hw : List.Forall₂ Written [nine, holding [], holding [3, 4, 5]] [[9], [], [3, 4, 5]] :=
    .cons written_nine (.cons (written_holding (by decide))
      (.cons (written_holding (by decide)) .nil))
  obtain ⟨s, hs, hall⟩ := stream_round_trip accepted_keyed (by decide) exact_takeAll
    (le_refl 8192) hw (by decide)
  obtain ⟨s₁, hs₁, hrecv⟩ := accepted_keyed.receiving
  obtain rfl : s₁ = s := Option.some.inj (hs₁.symm.trans hs)
  have hcut : Cut takeAll 8192 s₁ [threePackets.take 3, (threePackets.drop 3).take 14,
      threePackets.drop 17] :=
    cut_of_short exact_takeAll (fun _ => by decide) le_rfl hrecv (by decide) (by decide)
  obtain ⟨s', hrun, hcalls, hrest⟩ := hall _ (by decide) hcut
  exact ⟨s₁, s', hs, hrun, hcalls, hrest⟩

end Session

end NetLib
