import EchoLink.JitterBuffers
import EchoLink.Mixer
import EchoLink.UserTable
import EchoLink.WalCalls

/-!
# What a datagram does

`handle_udp_packet` with everything it reads and writes: the address of the
client that the packet names is updated, and a packet with a payload is pushed on
the ring, if there is a ring and it has room.  `UdpEffect` is what can be seen of
it.

`recvfrom` fills the first bytes of a local variable, and the rest is what the
stack held.  The length it returns is only compared with zero.  So the effect of
a short datagram depends on the bytes that were there before
(`short_datagram_shows_stale`).  `effect_of_own_bytes_iff` is the exact condition
under which it does not: the bytes that name a client and those of the packet
that is pushed have all arrived.
-/

namespace EchoLink

open CText RecordFile LinkedList

/-! ### The model -/

def AudioPacket.roomId (pkt : AudioPacket) : UInt32 :=
  (ofLe32 (pkt.val.take 4)).toUInt32

/-- `sockaddr_in`. -/
structure SockAddr where
  addr : UInt32
  port : UInt16
  deriving DecidableEq

/-- The mixer and the server, `udp_addr` of the clients, and whether `shm_ring`
is set. -/
structure UdpServer where
  mixer : Mixer
  udpAddr : Ptr → SockAddr
  shmRing : Bool

/-- What can be seen of a packet that is pushed. -/
structure Pushed where
  roomId : UInt32
  senderId : UInt32
  packet : Packet
  deriving DecidableEq

/-- The client whose address is updated, and the packet that is pushed. -/
structure UdpEffect where
  addressed : Option Ptr
  pushed : Option Pushed
  deriving DecidableEq

/-- The client a packet names. -/
def Server.namedBy (s : Server) (pkt : AudioPacket) : Option Ptr :=
  if hid : (AudioPacket.senderId pkt).toNat < maxClients then s.clients ⟨_, hid⟩ else none

/-- A whole call of `ring_buffer_push`. -/
def Mixer.ringBufferPush (m : Mixer) (pkt : AudioPacket) : Mixer :=
  let ring := ((m.audio.ring.step .epoll (.push pkt)).step .epoll .pop).step .epoll .pop
  { m with audio := { m.audio with ring := ring } }

/-- `handle_udp_packet`, for a datagram from `sender` and a variable that held
`stale`. -/
def handleUdpPacket (u : UdpServer) (stale : AudioPacket) (sender : SockAddr) (datagram : Bytes) :
    UdpServer × UdpEffect :=
  if datagram = [] then (u, ⟨none, none⟩)
  else
    let pkt := recvPacket stale datagram
    let addressed := u.mixer.server.namedBy pkt
    let udpAddr := match addressed with
      | none => u.udpAddr
      | some c => Function.update u.udpAddr c sender
    -- the ring drops the packet if `ring_empty` has no permit left
    if 0 < AudioPacket.payloadSize pkt ∧ u.shmRing = true ∧ u.mixer.audio.ring.ringEmpty ≠ 0 then
      (⟨u.mixer.ringBufferPush pkt, udpAddr, u.shmRing⟩,
        ⟨addressed, some ⟨AudioPacket.roomId pkt, AudioPacket.senderId pkt, pkt.packet⟩⟩)
    else ({ u with udpAddr := udpAddr }, ⟨addressed, none⟩)

/-- What the mixer sees of a datagram. -/
theorem handleUdpPacket_mixer (u : UdpServer) (stale : AudioPacket) (sender : SockAddr) (datagram : Bytes)
    (hring : u.shmRing = true) :
    (handleUdpPacket u stale sender datagram).1.mixer = u.mixer.datagram datagram stale := by
  unfold handleUdpPacket Mixer.datagram
  simp only [hring, true_and]
  split
  · rfl
  · split
    · rfl
    · rfl

/-! ### What arrived -/

variable {stale stale' : AudioPacket} {datagram : Bytes} {k m : Nat}

/-- A byte of the packet. -/
theorem recvPacket_getElem (stale : AudioPacket) (datagram : Bytes) {i : Nat} (hi : i < audioPacketSize) :
    (recvPacket stale datagram).val[i]? = if i < datagram.length then datagram[i]? else stale.val[i]? := by
  simp only [recvPacket]
  split
  · rename_i hlt
    rw [List.getElem?_append_left (by rw [List.length_take]; omega), List.getElem?_take_of_lt hi]
  · rename_i hge
    have hlen : (datagram.take audioPacketSize).length = datagram.length := by
      rw [List.length_take]
      omega
    rw [List.getElem?_append_right (by omega), List.getElem?_drop, hlen]
    congr 1
    omega

/-- A field that has arrived. -/
theorem slice_recvPacket (stale : AudioPacket) (hlen : k + m ≤ datagram.length) (hsize : k + m ≤ audioPacketSize) :
    ((recvPacket stale datagram).val.drop k).take m = (datagram.drop k).take m := by
  apply List.ext_getElem?
  intro i
  by_cases hi : i < m
  · rw [List.getElem?_take_of_lt hi, List.getElem?_take_of_lt hi, List.getElem?_drop, List.getElem?_drop,
      recvPacket_getElem stale datagram (by omega), if_pos (by omega)]
  · rw [List.getElem?_take_eq_none (by omega), List.getElem?_take_eq_none (by omega)]

theorem getD_recvPacket (stale : AudioPacket) {i : Nat} (hlen : i < datagram.length) (hsize : i < audioPacketSize) :
    (recvPacket stale datagram).val.getD i 0 = datagram.getD i 0 := by
  rw [List.getD_eq_getElem?_getD, List.getD_eq_getElem?_getD, recvPacket_getElem stale datagram hsize,
    if_pos hlen]

theorem getD_recvPacket_stale (stale : AudioPacket) {i : Nat} (hlen : datagram.length ≤ i)
    (hsize : i < audioPacketSize) : (recvPacket stale datagram).val.getD i 0 = stale.val.getD i 0 := by
  rw [List.getD_eq_getElem?_getD, List.getD_eq_getElem?_getD, recvPacket_getElem stale datagram hsize,
    if_neg (by omega)]

/-- `payload_size` as the datagram has it. -/
def sizeField (datagram : Bytes) : Nat := (datagram.getD 16 0).toNat + 256 * (datagram.getD 17 0).toNat

theorem payloadSize_toNat (pkt : AudioPacket) :
    (AudioPacket.payloadSize pkt).toNat = (pkt.val.getD 16 0).toNat + 256 * (pkt.val.getD 17 0).toNat := by
  have hlow := (pkt.val.getD 16 0).toNat_lt
  have hhigh := (pkt.val.getD 17 0).toNat_lt
  rw [AudioPacket.payloadSize, UInt16.toNat_ofNat', Nat.mod_eq_of_lt (by omega)]

/-! ### The condition -/

/-- No client could be named, or the name has arrived: the image of `sender_id`
is the bytes 4 to 7. -/
def NameArrived (s : Server) (datagram : Bytes) : Prop :=
  8 ≤ datagram.length ∨
    ∀ id : Fin maxClients, (datagram.drop 4).take 4 <+: le32 (UInt32.ofNat id).toInt32 → s.clients id = none

/-- Nothing could be pushed, or the header and the payload have arrived. -/
def PayloadArrived (u : UdpServer) (datagram : Bytes) : Prop :=
  u.shmRing = false ∨ u.mixer.audio.ring.ringEmpty = 0 ∨
    (18 ≤ datagram.length ∧
      (sizeField datagram = 0 ∨ 18 + min (sizeField datagram) audioPayloadSize ≤ datagram.length))

variable {u : UdpServer} {sender : SockAddr}

/-- The packet that is pushed, if the ring takes it. -/
def pushedOf (pkt : AudioPacket) : Option Pushed :=
  if 0 < AudioPacket.payloadSize pkt then some ⟨AudioPacket.roomId pkt, AudioPacket.senderId pkt, pkt.packet⟩
  else none

theorem handleUdpPacket_effect (hne : datagram ≠ []) :
    (handleUdpPacket u stale sender datagram).2 =
      ⟨u.mixer.server.namedBy (recvPacket stale datagram),
        if u.shmRing = true ∧ u.mixer.audio.ring.ringEmpty ≠ 0 then pushedOf (recvPacket stale datagram)
        else none⟩ := by
  unfold handleUdpPacket pushedOf
  rw [if_neg hne]
  by_cases hring : u.shmRing = true ∧ u.mixer.audio.ring.ringEmpty ≠ 0
  · by_cases hsize : 0 < AudioPacket.payloadSize (recvPacket stale datagram)
    · simp only [hring, hsize, ne_eq, not_false_eq_true, and_self, if_true]
    · simp only [hsize, false_and, if_false, if_pos hring]
  · simp only [hring, and_false, if_false]

theorem senderId_eq (stale stale' : AudioPacket) (hlen : 8 ≤ datagram.length) :
    AudioPacket.senderId (recvPacket stale datagram) = AudioPacket.senderId (recvPacket stale' datagram) := by
  have hsize : 4 + 4 ≤ audioPacketSize := by decide
  rw [AudioPacket.senderId, AudioPacket.senderId, slice_recvPacket stale hlen hsize, slice_recvPacket stale' hlen hsize]

/-- The image of a packet's payload, as far as it is used. -/
theorem packet_payload (pkt : AudioPacket) :
    pkt.packet.payload = (pkt.val.drop 18).take (min (AudioPacket.payloadSize pkt).toNat audioPayloadSize) :=
  List.take_take

theorem sizeField_eq (stale : AudioPacket) (hlen : 18 ≤ datagram.length) :
    (AudioPacket.payloadSize (recvPacket stale datagram)).toNat = sizeField datagram := by
  rw [payloadSize_toNat, getD_recvPacket stale (by omega) (by decide), getD_recvPacket stale (by omega) (by decide),
    sizeField]

/-- A packet that has arrived is pushed as it is. -/
theorem pushedOf_eq (hlen : 18 ≤ datagram.length)
    (hsize : sizeField datagram = 0 ∨ 18 + min (sizeField datagram) audioPayloadSize ≤ datagram.length) :
    pushedOf (recvPacket stale datagram) = pushedOf (recvPacket stale' datagram) := by
  have hstale := sizeField_eq stale hlen
  have hstale' := sizeField_eq stale' hlen
  have hsame : AudioPacket.payloadSize (recvPacket stale datagram) =
      AudioPacket.payloadSize (recvPacket stale' datagram) := by
    rw [← UInt16.toNat_inj, hstale, hstale']
  unfold pushedOf
  rw [← hsame]
  split
  · rename_i hpos
    have hfield : sizeField datagram ≠ 0 := by
      rw [UInt16.lt_iff_toNat_lt, hstale] at hpos
      exact Nat.ne_of_gt hpos
    have harrived := hsize.resolve_left hfield
    -- every field is a slice that has arrived
    have hslice : ∀ k m, k + m ≤ 18 + min (sizeField datagram) audioPayloadSize →
        ((recvPacket stale datagram).val.drop k).take m = ((recvPacket stale' datagram).val.drop k).take m := by
      intro k m hkm
      have hroom : k + m ≤ audioPacketSize := by
        simp only [audioPacketSize, audioPayloadSize] at hkm ⊢
        omega
      rw [slice_recvPacket stale (by omega) hroom, slice_recvPacket stale' (by omega) hroom]
    have hroomId := hslice 0 4 (by omega)
    rw [List.drop_zero, List.drop_zero] at hroomId
    have hpayload : (recvPacket stale datagram).packet.payload = (recvPacket stale' datagram).packet.payload := by
      rw [packet_payload, packet_payload, hstale, hstale']
      exact hslice 18 _ (Nat.le_refl _)
    have hseq : AudioPacket.seqNum (recvPacket stale datagram) = AudioPacket.seqNum (recvPacket stale' datagram) := by
      rw [AudioPacket.seqNum, AudioPacket.seqNum, hslice 8 4 (by omega)]
    have htime : AudioPacket.timestamp (recvPacket stale datagram) =
        AudioPacket.timestamp (recvPacket stale' datagram) := by
      rw [AudioPacket.timestamp, AudioPacket.timestamp, hslice 12 4 (by omega)]
    have hpacket : (recvPacket stale datagram).packet = (recvPacket stale' datagram).packet :=
      (Packet.mk.injEq ..).mpr ⟨hseq, htime, hsame, hpayload⟩
    rw [AudioPacket.roomId, AudioPacket.roomId, hroomId, senderId_eq stale stale' (by omega), hpacket]
  · rfl

/-- The known bytes of `sender_id` begin its image. -/
theorem name_begins (stale : AudioPacket) (datagram : Bytes) :
    (datagram.drop 4).take 4 <+: le32 (AudioPacket.senderId (recvPacket stale datagram)).toInt32 := by
  have hfour : (((recvPacket stale datagram).val.drop 4).take 4).length = 4 := by
    rw [List.length_take, List.length_drop, (recvPacket stale datagram).property]
    decide
  have himage : le32 (AudioPacket.senderId (recvPacket stale datagram)).toInt32 =
      ((recvPacket stale datagram).val.drop 4).take 4 := le32_ofLe32 hfour
  rw [himage, List.prefix_iff_eq_take]
  have hlen : ((datagram.drop 4).take 4).length = min 4 (datagram.length - 4) := by
    rw [List.length_take, List.length_drop]
  rw [hlen, List.take_take, Nat.min_comm (min 4 _) 4, ← Nat.min_assoc, Nat.min_self]
  by_cases hshort : datagram.length ≤ 4
  · rw [List.drop_eq_nil_of_le hshort, Nat.sub_eq_zero_of_le hshort, Nat.min_zero, List.take_nil, List.take_zero]
  · have hsize : 4 + min 4 (datagram.length - 4) ≤ audioPacketSize := by
      simp only [audioPacketSize]
      omega
    rw [slice_recvPacket stale (by omega) hsize, List.take_eq_take_iff, List.length_drop]
    omega

theorem namedBy_eq (s : Server) (hname : NameArrived s datagram) :
    s.namedBy (recvPacket stale datagram) = s.namedBy (recvPacket stale' datagram) := by
  rcases hname with hlen | hnobody
  · simp only [Server.namedBy, senderId_eq stale stale' hlen]
  · have hnone : ∀ stale, s.namedBy (recvPacket stale datagram) = none := by
      intro stale
      unfold Server.namedBy
      split
      · apply hnobody
        rw [UInt32.ofNat_toNat]
        exact name_begins stale datagram
      · rfl
    rw [hnone, hnone]

/-- **The bytes that have arrived decide.** -/
theorem effect_eq (hne : datagram ≠ []) (hname : NameArrived u.mixer.server datagram)
    (hpayload : PayloadArrived u datagram) :
    (handleUdpPacket u stale sender datagram).2 = (handleUdpPacket u stale' sender datagram).2 := by
  rw [handleUdpPacket_effect hne, handleUdpPacket_effect hne, namedBy_eq _ hname]
  congr 1
  split
  · rename_i hring
    rcases hpayload with hnull | hfull | ⟨hlen, hsize⟩
    · rw [hring.1] at hnull
      cases hnull
    · exact absurd hfull hring.2
    · exact pushedOf_eq hlen hsize
  · rfl

/-! ### Two contents of the variable -/

/-- A variable that is filled with one byte. -/
def filledWith (b : UInt8) : AudioPacket := ⟨List.replicate audioPacketSize b, List.length_replicate⟩

/-- A variable with a given `sender_id`. -/
def naming (id : Fin maxClients) : AudioPacket :=
  ⟨List.replicate 4 0 ++ (le32 (UInt32.ofNat id).toInt32 ++ List.replicate (audioPacketSize - 8) 0), by
    simp only [List.length_append, List.length_replicate, le32_length]
    decide⟩

theorem getD_filledWith (b : UInt8) {i : Nat} (h : i < audioPacketSize) : (filledWith b).val.getD i 0 = b := by
  rw [filledWith, List.getD_eq_getElem?_getD, List.getElem?_replicate_of_lt h, Option.getD_some]

/-- The image of a `sender_id` that agrees with the bytes that have arrived. -/
theorem senderId_naming {id : Fin maxClients}
    (hbegins : (datagram.drop 4).take 4 <+: le32 (UInt32.ofNat id).toInt32) :
    AudioPacket.senderId (recvPacket (naming id) datagram) = UInt32.ofNat id := by
  have himage : ((recvPacket (naming id) datagram).val.drop 4).take 4 = le32 (UInt32.ofNat id).toInt32 := by
    apply List.ext_getElem?
    intro i
    by_cases hi : i < 4
    · have hroom : 4 + i < audioPacketSize := by
        simp only [audioPacketSize]
        omega
      rw [List.getElem?_take_of_lt hi, List.getElem?_drop, recvPacket_getElem _ _ hroom]
      split
      · rename_i hlen
        have hknown : ((datagram.drop 4).take 4)[i]? = datagram[4 + i]? := by
          rw [List.getElem?_take_of_lt hi, List.getElem?_drop]
        obtain ⟨rest, hrest⟩ := hbegins
        rw [← hknown, ← hrest, List.getElem?_append_left]
        rw [List.length_take, List.length_drop]
        omega
      · rw [naming, List.getElem?_append_right (by rw [List.length_replicate]; omega), List.length_replicate,
          Nat.add_sub_cancel_left, List.getElem?_append_left (by rw [le32_length]; exact hi)]
    · rw [List.getElem?_take_eq_none (by omega), List.getElem?_eq_none (by rw [le32_length]; omega)]
  rw [AudioPacket.senderId, himage, ofLe32_le32, UInt32.toUInt32_toInt32]

theorem senderId_toNat (pkt : AudioPacket) :
    16777216 * (pkt.val.getD 7 0).toNat ≤ (AudioPacket.senderId pkt).toNat := by
  have h7 : ((pkt.val.drop 4).take 4).getD 3 0 = pkt.val.getD 7 0 := by
    rw [List.getD_eq_getElem?_getD, List.getElem?_take_of_lt (by decide), List.getElem?_drop,
      List.getD_eq_getElem?_getD]
  have hbound := fun i => (((pkt.val.drop 4).take 4).getD i 0).toNat_lt
  have h0 := hbound 0
  have h1 := hbound 1
  have h2 := hbound 2
  have h3 := hbound 3
  rw [AudioPacket.senderId, ofLe32, UInt32.toUInt32_toInt32, ← h7, Nat.toUInt32, UInt32.toNat_ofNat']
  omega

theorem nameArrived_of_eq (s : Server)
    (h : ∀ stale stale', s.namedBy (recvPacket stale datagram) = s.namedBy (recvPacket stale' datagram)) :
    NameArrived s datagram := by
  by_cases hlen : 8 ≤ datagram.length
  · exact Or.inl hlen
  · refine Or.inr ?_
    intro id hbegins
    have hid : (UInt32.ofNat id.val).toNat = id.val := by
      have hlt : id.val < 50 := id.isLt
      rw [UInt32.toNat_ofNat', Nat.mod_eq_of_lt (by omega)]
    have hnamed : s.namedBy (recvPacket (naming id) datagram) = s.clients id := by
      have hnat : (AudioPacket.senderId (recvPacket (naming id) datagram)).toNat = id := by
        rw [senderId_naming hbegins, hid]
      have hlt : (AudioPacket.senderId (recvPacket (naming id) datagram)).toNat < maxClients := by
        rw [hnat]
        exact id.isLt
      have hfin : (⟨_, hlt⟩ : Fin maxClients) = id := Fin.ext hnat
      rw [Server.namedBy, dif_pos hlt, hfin]
    have hnobody : s.namedBy (recvPacket (filledWith 255) datagram) = none := by
      have hge := senderId_toNat (recvPacket (filledWith 255) datagram)
      rw [getD_recvPacket_stale _ (by omega) (by decide), getD_filledWith _ (by decide)] at hge
      refine dif_neg ?_
      have h255 : (255 : UInt8).toNat = 255 := rfl
      simp only [maxClients]
      omega
    rw [← hnamed, h (naming id) (filledWith 255), hnobody]

/-- What is pushed from one variable is pushed from the other. -/
theorem packet_of_pushedOf (h : pushedOf (recvPacket stale datagram) = pushedOf (recvPacket stale' datagram))
    (hpos : 0 < AudioPacket.payloadSize (recvPacket stale' datagram)) :
    AudioPacket.packet (recvPacket stale datagram) = AudioPacket.packet (recvPacket stale' datagram) := by
  rw [pushedOf, pushedOf, if_pos hpos] at h
  split at h
  · exact (Pushed.mk.inj (Option.some.inj h)).2.2
  · cases h

/-- The upper byte of `payload_size` has arrived. -/
theorem headerArrived_of_eq (h : pushedOf (recvPacket (filledWith 0) datagram) =
    pushedOf (recvPacket (filledWith 255) datagram)) : 18 ≤ datagram.length := by
  by_contra hshort
  have hzero := payloadSize_toNat (recvPacket (filledWith 0) datagram)
  have hfull := payloadSize_toNat (recvPacket (filledWith 255) datagram)
  rw [getD_recvPacket_stale (i := 17) _ (by omega) (by decide), getD_filledWith _ (by decide)] at hzero hfull
  have hlow := ((recvPacket (filledWith 0) datagram).val.getD 16 0).toNat_lt
  have h0 : (0 : UInt8).toNat = 0 := rfl
  have h255 : (255 : UInt8).toNat = 255 := rfl
  have hpos : 0 < AudioPacket.payloadSize (recvPacket (filledWith 255) datagram) := by
    rw [UInt16.lt_iff_toNat_lt, hfull, h255]
    exact Nat.lt_of_lt_of_le (by decide) (Nat.le_add_left _ _)
  have hsizes := congrArg (fun p => p.payloadSize.toNat) (packet_of_pushedOf h hpos)
  simp only [AudioPacket.packet] at hsizes
  omega

/-- The first byte of the payload that has not arrived is an old one. -/
theorem first_missing_byte (hlen : 18 ≤ datagram.length)
    (hmissing : datagram.length < 18 + min (sizeField datagram) audioPayloadSize) (old : UInt8) :
    (((recvPacket (filledWith old) datagram).val.drop 18).take
      (min (sizeField datagram) audioPayloadSize)).getD (datagram.length - 18) 0 = old := by
  have hroom : datagram.length < audioPacketSize := by
    simp only [audioPacketSize, audioPayloadSize] at hmissing ⊢
    omega
  have hindex : 18 + (datagram.length - 18) = datagram.length := by omega
  rw [List.getD_eq_getElem?_getD, List.getElem?_take_of_lt (by omega), List.getElem?_drop, hindex,
    ← List.getD_eq_getElem?_getD, getD_recvPacket_stale _ (Nat.le_refl _) hroom, getD_filledWith _ hroom]

theorem payloadArrived_of_eq
    (h : ∀ stale stale', pushedOf (recvPacket stale datagram) = pushedOf (recvPacket stale' datagram)) :
    18 ≤ datagram.length ∧
      (sizeField datagram = 0 ∨ 18 + min (sizeField datagram) audioPayloadSize ≤ datagram.length) := by
  have hsame := h (filledWith 0) (filledWith 255)
  have hlen := headerArrived_of_eq hsame
  refine ⟨hlen, ?_⟩
  by_contra hcut
  rw [not_or, Nat.not_le] at hcut
  obtain ⟨hsize, hmissing⟩ := hcut
  have hpos : 0 < AudioPacket.payloadSize (recvPacket (filledWith 255) datagram) := by
    rw [UInt16.lt_iff_toNat_lt, sizeField_eq _ hlen]
    exact Nat.pos_of_ne_zero hsize
  have hpayload := congrArg Packet.payload (packet_of_pushedOf hsame hpos)
  rw [packet_payload, packet_payload, sizeField_eq _ hlen, sizeField_eq _ hlen] at hpayload
  have hbyte := congrArg (fun l => l.getD (datagram.length - 18) 0) hpayload
  rw [first_missing_byte hlen hmissing, first_missing_byte hlen hmissing] at hbyte
  cases hbyte

/-- **The effect of a datagram depends on its own bytes only** exactly when the
bytes that count have arrived. -/
theorem effect_of_own_bytes_iff (u : UdpServer) (sender : SockAddr) (datagram : Bytes) :
    (∀ stale stale', (handleUdpPacket u stale sender datagram).2 = (handleUdpPacket u stale' sender datagram).2) ↔
      datagram = [] ∨ (NameArrived u.mixer.server datagram ∧ PayloadArrived u datagram) := by
  by_cases hne : datagram = []
  · refine iff_of_true ?_ (Or.inl hne)
    intro stale stale'
    rw [handleUdpPacket, handleUdpPacket, if_pos hne, if_pos hne]
  · rw [or_iff_right hne]
    constructor
    · intro h
      simp only [handleUdpPacket_effect hne, UdpEffect.mk.injEq] at h
      refine ⟨nameArrived_of_eq _ fun stale stale' => (h stale stale').1, ?_⟩
      by_cases hring : u.shmRing = true ∧ u.mixer.audio.ring.ringEmpty ≠ 0
      · simp only [if_pos hring] at h
        exact Or.inr (Or.inr (payloadArrived_of_eq fun stale stale' => (h stale stale').2))
      · rw [not_and_or, Bool.not_eq_true, not_not] at hring
        exact hring.imp_right Or.inl
    · intro ⟨hname, hpayload⟩ stale stale'
      exact effect_eq hne hname hpayload

/-- A header for one sample of the client in the second slot, without the
sample. -/
def headerOnly : Bytes := [0, 0, 0, 0, 1, 0, 0, 0, 7, 0, 0, 0, 0, 0, 0, 0, 2, 0]

/-- One sample of the client in the first slot. -/
def oneSample : Bytes := [0, 0, 0, 0, 0, 0, 0, 0, 3, 0, 0, 0, 0, 0, 0, 0, 2, 0, 100, 0]

/-- After a packet of the first client, a header of the second one pushes the
sample of the first as its own. -/
theorem short_datagram_shows_stale :
    ¬ ∀ (u : UdpServer) (sender : SockAddr) (datagram : Bytes), datagram ≠ [] → ∀ stale stale',
      (handleUdpPacket u stale sender datagram).2 = (handleUdpPacket u stale' sender datagram).2 := by
  intro hall
  have hsame := hall ⟨Mixer.start emptyDb startTable, fun _ => ⟨0, 0⟩, true⟩ ⟨0, 0⟩ headerOnly (by decide)
    (recvPacket (filledWith 0) oneSample) (filledWith 0)
  revert hsame
  decide +kernel

end EchoLink
