import EchoLink.Datagrams
import EchoLink.VoiceService

/-!
# The audio threads of a client

`audio_sender_thread` of `client.c` reads frames of 640 bytes from `arecord` and
sends each as an `audio_packet`, while the microphone is on;
`audio_receiver_thread` writes the payloads it receives to `aplay`.  On the wire
is the beginning of the packet as it lies in memory: 18 bytes of header, the
samples, and two bytes more, as `sizeof` counts the padding.

What the server reads of a frame is what was recorded (`sentFrame_packet`), and
what a client plays of a datagram of the mixer are its samples
(`audioReceiver_mixed`).
-/

namespace EchoLink

open CText RecordFile

/-! ### Samples as bytes -/

def le16 (x : UInt16) : Bytes := [x.toNat.toUInt8, (x.toNat / 256).toUInt8]

/-- `320 * sizeof(int16_t)`. -/
def frameBytes : Nat := 640

/-- The samples of a frame as they lie in memory. -/
def pcmBytes (samples : Fin frameSamples → Int16) : Bytes :=
  (List.finRange frameSamples).flatMap fun j => le16 (samples j).toUInt16

/-- The samples of a frame. -/
def samplesOf (frame : Bytes) (j : Fin frameSamples) : Int16 := sampleAt frame j

@[simp] theorem le16_length (x : UInt16) : (le16 x).length = 2 := rfl

theorem ofLe16_le16 (x : UInt16) : UInt16.ofNat (x.toNat.toUInt8.toNat + 256 * (x.toNat / 256).toUInt8.toNat) = x := by
  have hlt := x.toNat_lt
  rw [← UInt16.toNat_inj]
  simp only [Nat.toUInt8, UInt8.toNat_ofNat', UInt16.toNat_ofNat']
  omega

theorem pcmBytes_length (samples : Fin frameSamples → Int16) : (pcmBytes samples).length = frameBytes := by
  have htwo : ((List.finRange frameSamples).map fun j => (le16 (samples j).toUInt16).length) =
      (List.finRange frameSamples).map fun _ => 2 := rfl
  rw [pcmBytes, List.length_flatMap, htwo, List.map_const', List.sum_replicate, List.length_finRange]
  rfl

/-- A frame is the image of its samples. -/
theorem pcmBytes_samplesOf {frame : Bytes} (h : frame.length = frameBytes) : pcmBytes (samplesOf frame) = frame := by
  have hpair : ∀ n, 2 * n + 1 < frame.length →
      le16 (sampleAt frame n).toUInt16 = [frame.getD (2 * n) 0, frame.getD (2 * n + 1) 0] := by
    intro n _
    have hlow := (frame.getD (2 * n) 0).toNat_lt
    have hhigh := (frame.getD (2 * n + 1) 0).toNat_lt
    simp only [le16, sampleAt, UInt16.toUInt16_toInt16, List.cons.injEq, and_true, ← UInt8.toNat_inj, Nat.toUInt8,
      UInt8.toNat_ofNat', UInt16.toNat_ofNat']
    constructor
    · omega
    · omega
  have hprefix : ∀ n, 2 * n ≤ frame.length →
      ((List.range n).flatMap fun n => le16 (sampleAt frame n).toUInt16) = frame.take (2 * n) := by
    intro n hn
    induction n with
    | zero => rfl
    | succ n ih =>
        have h0 : 2 * n < frame.length := by omega
        have h1 : 2 * n + 1 < frame.length := by omega
        rw [List.range_succ, List.flatMap_append, ih (by omega), List.flatMap_singleton, hpair n h1,
          show 2 * (n + 1) = 2 * n + 1 + 1 from rfl, List.take_add_one, List.take_add_one,
          List.getElem?_eq_getElem h0, List.getElem?_eq_getElem h1, List.append_assoc,
          List.getD_eq_getElem?_getD, List.getD_eq_getElem?_getD, List.getElem?_eq_getElem h0,
          List.getElem?_eq_getElem h1]
        rfl
  have hall := hprefix frameSamples (by rw [h]; decide)
  rw [List.take_of_length_le (by rw [h]; decide), ← List.map_coe_finRange_eq_range, List.flatMap_map] at hall
  exact hall

/-! ### Packets on the wire -/

/-- The fields of an `audio_packet` before its payload. -/
def audioHeader (roomId senderId seqNum timestamp : UInt32) (payloadSize : UInt16) : Bytes :=
  le32 roomId.toInt32 ++ le32 senderId.toInt32 ++ le32 seqNum.toInt32 ++ le32 timestamp.toInt32 ++ le16 payloadSize

/-- `sizeof(pkt) - AUDIO_PAYLOAD_SIZE`. -/
def headerSize : Nat := 20

@[simp] theorem audioHeader_length (roomId senderId seqNum timestamp : UInt32) (payloadSize : UInt16) :
    (audioHeader roomId senderId seqNum timestamp payloadSize).length = 18 := rfl

variable {roomId senderId seqNum timestamp : UInt32} {payloadSize : UInt16} {stale : AudioPacket} {rest frame : Bytes}

/-- A packet whose header has arrived. -/
theorem recvPacket_header (stale : AudioPacket) (rest : Bytes) :
    (recvPacket stale (audioHeader roomId senderId seqNum timestamp payloadSize ++ rest)).senderId = senderId ∧
      (recvPacket stale (audioHeader roomId senderId seqNum timestamp payloadSize ++ rest)).seqNum = seqNum ∧
      (recvPacket stale (audioHeader roomId senderId seqNum timestamp payloadSize ++ rest)).timestamp = timestamp ∧
      (recvPacket stale (audioHeader roomId senderId seqNum timestamp payloadSize ++ rest)).payloadSize =
        payloadSize := by
  have hlength : 18 ≤ (audioHeader roomId senderId seqNum timestamp payloadSize ++ rest).length := by simp
  have hfield (pre post : Bytes) (x : UInt32) (k : Nat) (hk : pre.length = k) (hle : k + 4 ≤ 18)
      (h : audioHeader roomId senderId seqNum timestamp payloadSize ++ rest = pre ++ (le32 x.toInt32 ++ post)) :
      (ofLe32 (((recvPacket stale (audioHeader roomId senderId seqNum timestamp payloadSize ++ rest)).val.drop k).take
        4)).toUInt32 = x := by
    rw [slice_recvPacket stale (by omega) (by rw [audioPacketSize]; omega), h, take_drop_field post hk (le32_length _),
      ofLe32_le32, UInt32.toUInt32_toInt32]
  have hsize (n : Nat) (hn : n < 18) :
      (recvPacket stale (audioHeader roomId senderId seqNum timestamp payloadSize ++ rest)).val.getD n 0 =
        (audioHeader roomId senderId seqNum timestamp payloadSize).getD n 0 := by
    rw [getD_recvPacket stale (by omega) (by rw [audioPacketSize]; omega), List.getD_eq_getElem?_getD,
      List.getElem?_append_left (by simpa using hn), List.getD_eq_getElem?_getD]
  refine ⟨?_, ?_, ?_, ?_⟩
  · exact hfield (le32 roomId.toInt32) (le32 seqNum.toInt32 ++ le32 timestamp.toInt32 ++ le16 payloadSize ++ rest)
      senderId 4 rfl (by omega) (by simp only [audioHeader, List.append_assoc])
  · exact hfield (le32 roomId.toInt32 ++ le32 senderId.toInt32) (le32 timestamp.toInt32 ++ le16 payloadSize ++ rest)
      seqNum 8 rfl (by omega) (by simp only [audioHeader, List.append_assoc])
  · exact hfield (le32 roomId.toInt32 ++ le32 senderId.toInt32 ++ le32 seqNum.toInt32) (le16 payloadSize ++ rest)
      timestamp 12 rfl (by omega) (by simp only [audioHeader, List.append_assoc])
  · rw [AudioPacket.payloadSize, hsize 16 (by omega), hsize 17 (by omega)]
    exact ofLe16_le16 payloadSize

theorem payload_of_packet (pkt : AudioPacket) : pkt.packet.payload = pkt.payload.take pkt.payloadSize.toNat := rfl

/-- **A datagram with a whole frame**, as it is received. -/
theorem recvPacket_frame {datagram : Bytes} (stale : AudioPacket)
    (h : datagram = audioHeader roomId senderId seqNum timestamp 640 ++ (frame ++ rest))
    (hframe : frame.length = frameBytes) :
    (recvPacket stale datagram).senderId = senderId ∧ (recvPacket stale datagram).payloadSize = 640 ∧
      (recvPacket stale datagram).packet = ⟨seqNum, timestamp, 640, frame⟩ := by
  obtain ⟨hsender, hseq, htime, hsize⟩ : (recvPacket stale datagram).senderId = senderId ∧
      (recvPacket stale datagram).seqNum = seqNum ∧ (recvPacket stale datagram).timestamp = timestamp ∧
      (recvPacket stale datagram).payloadSize = 640 := by
    rw [h]
    exact recvPacket_header stale (frame ++ rest)
  have hpayload : (recvPacket stale datagram).payload.take frameBytes = frame := by
    rw [AudioPacket.payload, List.take_take, Nat.min_eq_left (by decide),
      slice_recvPacket stale (by simp [h, hframe]) (by decide), h,
      take_drop_field rest (audioHeader_length _ _ _ _ _) hframe]
  refine ⟨hsender, hsize, ?_⟩
  rw [AudioPacket.packet, hseq, htime, hsize]
  exact congrArg _ hpayload

/-! ### The microphone -/

/-- The variables of `client.c` that `audio_sender_thread` uses, and its packet. -/
structure AudioSender where
  clientSlot : Int32
  currentRoomId : Int32
  audioSeq : UInt32
  micMuted : Bool
  pkt : AudioPacket

/-- The packet with the fields of a frame.  What lies behind the samples stays. -/
def AudioSender.filled (c : AudioSender) (frame : Bytes) : AudioPacket :=
  fit audioPacketSize (audioHeader c.currentRoomId.toUInt32 c.clientSlot.toUInt32 c.audioSeq 0 640 ++ frame ++
    c.pkt.val.drop (18 + frameBytes))

/-- The loop of `audio_sender_thread` with what it has read of `arecord`, and the
datagram it sends. -/
def audioSender (c : AudioSender) (frame : Bytes) : AudioSender × Option Bytes :=
  if frame.length = frameBytes ∧ c.micMuted = false then
    ({ c with audioSeq := c.audioSeq + 1, pkt := c.filled frame },
      some ((c.filled frame).val.take (headerSize + frameBytes)))
  else (c, none)

/-- The datagrams of some frames. -/
def sentFrames : AudioSender → List Bytes → List Bytes
  | _, [] => []
  | c, frame :: frames => (audioSender c frame).2.toList ++ sentFrames (audioSender c frame).1 frames

/-- The packet of a frame, as the server keeps it. -/
def framePacket (seqNum : UInt32) (frame : Bytes) : Packet := ⟨seqNum, 0, 640, frame⟩

/-- A datagram with a frame. -/
theorem filled_take (c : AudioSender) (hframe : frame.length = frameBytes) :
    ∃ rest, (c.filled frame).val.take (headerSize + frameBytes) =
      audioHeader c.currentRoomId.toUInt32 c.clientSlot.toUInt32 c.audioSeq 0 640 ++ (frame ++ rest) := by
  have hpkt : c.pkt.val.length = audioPacketSize := c.pkt.property
  have hwhole : (c.filled frame).val = audioHeader c.currentRoomId.toUInt32 c.clientSlot.toUInt32 c.audioSeq 0 640 ++
      frame ++ c.pkt.val.drop (18 + frameBytes) := by
    apply fit_val
    simp only [List.length_append, audioHeader_length, List.length_drop, hframe, hpkt, audioPacketSize, frameBytes]
  have htwo : headerSize + frameBytes -
      (audioHeader c.currentRoomId.toUInt32 c.clientSlot.toUInt32 c.audioSeq 0 640 ++ frame).length = 2 := by
    rw [List.length_append, audioHeader_length, hframe]
    rfl
  refine ⟨(c.pkt.val.drop (18 + frameBytes)).take 2, ?_⟩
  rw [hwhole, ← List.append_assoc, List.take_append, htwo, List.take_of_length_le]
  rw [List.length_append, audioHeader_length, hframe]
  decide

/-- **What the server reads of a frame.** -/
theorem sentFrame_packet (c : AudioSender) (stale : AudioPacket) (hframe : frame.length = frameBytes) :
    (recvPacket stale ((c.filled frame).val.take (headerSize + frameBytes))).senderId = c.clientSlot.toUInt32 ∧
      (recvPacket stale ((c.filled frame).val.take (headerSize + frameBytes))).payloadSize = 640 ∧
      (recvPacket stale ((c.filled frame).val.take (headerSize + frameBytes))).packet =
        framePacket c.audioSeq frame := by
  obtain ⟨rest, hrest⟩ := filled_take c hframe
  exact recvPacket_frame stale hrest hframe

/-- The samples of the packet of a frame are those of the frame. -/
theorem framePacket_pcm (seqNum : UInt32) (frame : Bytes) :
    (framePacket seqNum frame).pcm = List.ofFn (samplesOf frame) := by
  have hall : min ((640 : UInt16).toNat / 2) frameSamples = frameSamples := by decide
  rw [Packet.pcm, framePacket, hall, ← List.map_coe_finRange_eq_range, List.map_map, List.ofFn_eq_map]
  rfl

/-- The mix of one frame is the frame. -/
theorem mixFrames_single (samples : Fin frameSamples → Int16) : mixFrames [List.ofFn samples] = samples := by
  funext j
  have hadd : addPcm (fun _ => 0) (List.ofFn samples) j = clampAdd 0 (samples j) := by
    rw [addPcm, List.getElem?_ofFn, dif_pos j.isLt]
  have hlt := (samples j).toInt_lt
  have hge := (samples j).le_toInt
  have hzero : clampAdd 0 (samples j) = samples j := by
    unfold clampAdd
    rw [Int16.toInt_zero, Int.zero_add, if_neg (by omega), if_neg (by omega), Int16.ofInt_toInt]
  exact hadd.trans hzero

/-! ### The speaker -/

/-- The packet of `audio_receiver_thread`, and what it has written to `aplay`. -/
structure AudioReceiver where
  pkt : AudioPacket
  written : Bytes

/-- The loop of `audio_receiver_thread` with the datagram it receives. -/
def audioReceiver (c : AudioReceiver) (datagram : Bytes) : AudioReceiver where
  pkt := recvPacket c.pkt datagram
  written :=
    if headerSize ≤ min datagram.length audioPacketSize ∧ 0 < (recvPacket c.pkt datagram).payloadSize ∧
        (recvPacket c.pkt datagram).payloadSize.toNat ≤ audioPayloadSize then
      c.written ++ (recvPacket c.pkt datagram).payload.take (recvPacket c.pkt datagram).payloadSize.toNat
    else c.written

/-- The datagram of `send_audio_to_client`. -/
def mixedDatagram (roomId : Nat) (timestamp : UInt32) (samples : Fin frameSamples → Int16) : Bytes :=
  (fit audioPacketSize (audioHeader (UInt32.ofNat roomId) 0 0 timestamp 640 ++ pcmBytes samples)).val.take
    (headerSize + frameBytes)

theorem audioReceiver_written {c : AudioReceiver} {datagram : Bytes}
    (h : headerSize ≤ min datagram.length audioPacketSize ∧ 0 < (recvPacket c.pkt datagram).payloadSize ∧
      (recvPacket c.pkt datagram).payloadSize.toNat ≤ audioPayloadSize) :
    (audioReceiver c datagram).written =
      c.written ++ (recvPacket c.pkt datagram).payload.take (recvPacket c.pkt datagram).payloadSize.toNat := if_pos h

/-- **What a client plays of a datagram of the mixer.** -/
theorem audioReceiver_mixed (c : AudioReceiver) (roomId : Nat) (timestamp : UInt32)
    (samples : Fin frameSamples → Int16) :
    (audioReceiver c (mixedDatagram roomId timestamp samples)).written = c.written ++ pcmBytes samples := by
  have hlength := pcmBytes_length samples
  have hdatagram : mixedDatagram roomId timestamp samples =
      audioHeader (UInt32.ofNat roomId) 0 0 timestamp 640 ++ (pcmBytes samples ++ [0, 0]) := by
    have hfields : (audioHeader (UInt32.ofNat roomId) 0 0 timestamp 640 ++ pcmBytes samples).length = 658 := by
      rw [List.length_append, audioHeader_length, hlength]
      rfl
    rw [mixedDatagram, ← List.append_assoc]
    generalize audioHeader (UInt32.ofNat roomId) 0 0 timestamp 640 ++ pcmBytes samples = bs at hfields
    have hshort : bs.take audioPacketSize = bs := List.take_of_length_le (by rw [hfields]; decide)
    have hsent : bs.take (headerSize + frameBytes) = bs := List.take_of_length_le (by rw [hfields]; decide)
    have hfitted : (fit audioPacketSize bs).val = bs.take audioPacketSize ++
        List.replicate (audioPacketSize - bs.length) 0 := rfl
    rw [hfitted, hshort, hfields, List.take_append, hsent, hfields, List.take_replicate]
    rfl
  obtain ⟨-, hsize, hpacket⟩ := recvPacket_frame c.pkt hdatagram hlength
  have hpayload : (recvPacket c.pkt (mixedDatagram roomId timestamp samples)).payload.take
      (recvPacket c.pkt (mixedDatagram roomId timestamp samples)).payloadSize.toNat = pcmBytes samples := by
    rw [← payload_of_packet, hpacket]
  have hwhole : (mixedDatagram roomId timestamp samples).length = 660 := by
    simp [hdatagram, hlength, frameBytes]
  have hplayed : headerSize ≤ min (mixedDatagram roomId timestamp samples).length audioPacketSize ∧
      0 < (recvPacket c.pkt (mixedDatagram roomId timestamp samples)).payloadSize ∧
      (recvPacket c.pkt (mixedDatagram roomId timestamp samples)).payloadSize.toNat ≤ audioPayloadSize := by
    rw [hwhole, hsize]
    exact ⟨by decide, by decide, by decide⟩
  rw [audioReceiver_written hplayed, hpayload]

end EchoLink
