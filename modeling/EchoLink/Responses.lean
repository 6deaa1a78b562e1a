import EchoLink.Handlers

/-!
# The responses a client receives

`send_response` sends the memory image of a `response_packet`, 4360 bytes, and
`receive_response` of `client.c` takes what one `recv` returns for one packet.
TCP may hand the bytes out in any pieces, and a piece shorter than a packet
leaves the rest of the variable as the stack held it.

The calls of `receive_response` show the packets that were sent exactly when
every `recv` returns a whole packet (`responses_received_iff`).  One packet in
two pieces is shown as two responses (`split_response_shown_twice`).
-/

namespace EchoLink

open CText RecordFile

/-! ### `response_packet` -/

def responseMessageLen : Nat := 256

/-- `response_packet`, sent over the network. -/
structure ResponsePacket where
  opcode : UInt32
  status : UInt32
  message : Buf responseMessageLen
  data : Buf maxPacketSize
  deriving DecidableEq

/-- `sizeof(response_packet)`. -/
def responsePacketSize : Nat := 4360

def ResponsePacket.encode (p : ResponsePacket) : Bytes :=
  le32 p.opcode.toInt32 ++ le32 p.status.toInt32 ++ p.message.val ++ p.data.val

def ResponsePacket.decode (bs : Bytes) : ResponsePacket where
  opcode := (ofLe32 (bs.take 4)).toUInt32
  status := (ofLe32 ((bs.drop 4).take 4)).toUInt32
  message := fit _ ((bs.drop 8).take 256)
  data := fit _ ((bs.drop 264).take 4096)

theorem ResponsePacket.encode_length (p : ResponsePacket) : p.encode.length = responsePacketSize := by
  have hm : p.message.val.length = 256 := p.message.property
  have hd : p.data.val.length = 4096 := p.data.property
  simp [encode, hm, hd, responsePacketSize]

theorem ResponsePacket.decode_encode (p : ResponsePacket) : decode p.encode = p := by
  obtain ⟨opcode, status, ⟨message, hmessage⟩, ⟨data, hdata⟩⟩ := p
  have hm : message.length = 256 := hmessage
  have hd : data.length = 4096 := hdata
  have hfield (pre x post : Bytes) (k n : Nat) (hk : pre.length = k) (hx : x.length = n)
      (h : le32 opcode.toInt32 ++ le32 status.toInt32 ++ message ++ data = pre ++ (x ++ post)) :
      ((le32 opcode.toInt32 ++ le32 status.toInt32 ++ message ++ data).drop k).take n = x := by
    rw [h, take_drop_field post hk hx]
  have h0 := hfield [] (le32 opcode.toInt32) _ 0 4 rfl rfl (by simp only [List.append_assoc]; rfl)
  have h1 := hfield (le32 opcode.toInt32) (le32 status.toInt32) (message ++ data) 4 4 rfl rfl
    (by simp only [List.append_assoc])
  have h2 := hfield (le32 opcode.toInt32 ++ le32 status.toInt32) message data 8 256 rfl hm
    (by simp only [List.append_assoc])
  have h3 := hfield (le32 opcode.toInt32 ++ le32 status.toInt32 ++ message) data [] 264 4096
    (by simp [hm]) hd (by simp only [List.append_assoc, List.append_nil])
  rw [List.drop_zero] at h0
  simp only [decode, encode, h0, h1, h2, h3, ofLe32_le32, UInt32.toUInt32_toInt32,
    ResponsePacket.mk.injEq, true_and]
  exact ⟨fit_eq ⟨message, hmessage⟩, fit_eq ⟨data, hdata⟩⟩

/-- The packet `send_error` and `send_ok` fill, after `memset`. -/
def Response.packet (r : Response) : ResponsePacket where
  opcode := 0
  status := r.status.toUInt32
  message := fit _ r.message
  data := fit _ r.data

/-! ### `receive_response` -/

/-- What a client shows of a packet: the status and the strings in its arrays.
A message without a NUL goes on in `data`. -/
structure Shown where
  status : UInt32
  message : Bytes
  data : Bytes
  deriving DecidableEq

def ResponsePacket.shown (p : ResponsePacket) : Shown where
  status := p.status
  message := cstr (p.message.val ++ p.data.val)
  data := cstr p.data.val

/-- The variables of `client.c` that a response changes, and what was printed. -/
structure ClientProgram where
  running : Bool
  clientSlot : Int
  printed : List Shown

/-- `receive_response` after `recv` has returned `chunk`, into a variable that
held `stack`; no bytes mean that the connection is closed or broken. -/
def receiveResponse (stack : Buf responsePacketSize) (chunk : Bytes) (c : ClientProgram) :
    ClientProgram :=
  if chunk = [] then { c with running := false }
  else
    let resp := (ResponsePacket.decode (chunk ++ stack.val.drop chunk.length)).shown
    { c with
      clientSlot :=
        if resp.status = 200 ∧ strstr resp.message (ascii "Login successful") = true ∧ resp.data ≠ [] then
          (intField (sscanf [.d] resp.data) 0).getD 0
        else c.clientSlot
      printed := c.printed ++ [resp] }

/-- Calls of `receive_response`, one for each chunk; `stack k` is what the
variable of the `k`-th call held. -/
def receiveAll (stack : Nat → Buf responsePacketSize) : Nat → List Bytes → ClientProgram → ClientProgram
  | _, [], c => c
  | k, chunk :: chunks, c => receiveAll stack (k + 1) chunks (receiveResponse (stack k) chunk c)

/-- A way in which `recv` hands out the bytes of a connection: at least one and
at most a packet's length at a time. -/
structure Segments (bytes : Bytes) (chunks : List Bytes) : Prop where
  all : chunks.flatten = bytes
  some : ∀ chunk ∈ chunks, chunk ≠ []
  fits : ∀ chunk ∈ chunks, chunk.length ≤ responsePacketSize

variable {stack : Nat → Buf responsePacketSize} {chunks : List Bytes} {c : ClientProgram} {k : Nat}

/-- Each call prints one response. -/
theorem receiveAll_length (stack : Nat → Buf responsePacketSize) (k : Nat) (c : ClientProgram)
    (h : ∀ chunk ∈ chunks, chunk ≠ []) :
    (receiveAll stack k chunks c).printed.length = c.printed.length + chunks.length := by
  induction chunks generalizing k c with
  | nil => rfl
  | cons chunk chunks ih =>
      have hne : chunk ≠ [] := h chunk List.mem_cons_self
      have hone : (receiveResponse (stack k) chunk c).printed.length = c.printed.length + 1 := by
        rw [receiveResponse, if_neg hne, List.length_append, List.length_singleton]
      rw [receiveAll, ih _ _ fun x hx => h x (List.mem_cons_of_mem chunk hx), hone, List.length_cons]
      omega

/-- A whole packet is shown as it was sent. -/
theorem receiveResponse_whole (st : Buf responsePacketSize) (p : ResponsePacket) (c : ClientProgram) :
    (receiveResponse st p.encode c).printed = c.printed ++ [p.shown] := by
  have hlen := p.encode_length
  have hne : p.encode ≠ [] := by
    intro hnil
    rw [hnil] at hlen
    cases hlen
  have hrest : st.val.drop p.encode.length = [] := by
    rw [hlen]
    exact List.drop_eq_nil_of_le (Nat.le_of_eq st.property)
  rw [receiveResponse, if_neg hne, hrest, List.append_nil, ResponsePacket.decode_encode]

/-- Whole packets are shown as they were sent. -/
theorem receiveAll_whole (packets : List ResponsePacket) :
    (receiveAll stack k (packets.map ResponsePacket.encode) c).printed =
      c.printed ++ packets.map ResponsePacket.shown := by
  induction packets generalizing k c with
  | nil => simp [receiveAll]
  | cons p packets ih =>
      rw [List.map_cons, receiveAll, ih, receiveResponse_whole, List.map_cons, List.append_assoc]
      rfl

theorem length_flatten_le {w : Nat} {chunks : List Bytes} (hle : ∀ chunk ∈ chunks, chunk.length ≤ w) :
    chunks.flatten.length ≤ chunks.length * w := by
  induction chunks with
  | nil => exact Nat.zero_le _
  | cons chunk chunks ih =>
      have hhead : chunk.length ≤ w := hle chunk List.mem_cons_self
      have htail := ih fun x hx => hle x (List.mem_cons_of_mem chunk hx)
      rw [List.flatten_cons, List.length_append, List.length_cons, Nat.succ_mul]
      omega

/-- As many chunks as packets leave no chunk shorter than a packet. -/
theorem whole_of_length {w : Nat} {chunks : List Bytes} (hle : ∀ chunk ∈ chunks, chunk.length ≤ w)
    (hlen : chunks.flatten.length = chunks.length * w) : ∀ chunk ∈ chunks, chunk.length = w := by
  induction chunks with
  | nil =>
      rintro chunk ⟨⟩
  | cons chunk chunks ih =>
      have hhead : chunk.length ≤ w := hle chunk List.mem_cons_self
      have htail : ∀ x ∈ chunks, x.length ≤ w := fun x hx => hle x (List.mem_cons_of_mem chunk hx)
      have hbound := length_flatten_le htail
      rw [List.flatten_cons, List.length_append, List.length_cons, Nat.succ_mul] at hlen
      intro x hx
      rcases List.mem_cons.mp hx with rfl | hx
      · omega
      · exact ih htail (by omega) x hx

/-- **When the client decodes the responses sent**: for all packets, every way
to hand out their bytes and whatever the stack held, the calls show the packets
in order, one a call, exactly when every `recv` returns a whole packet. -/
theorem responses_received_iff (packets : List ResponsePacket) (chunks : List Bytes)
    (h : Segments (packets.flatMap ResponsePacket.encode) chunks)
    (stack : Nat → Buf responsePacketSize) (running : Bool) (slot : Int) :
    (receiveAll stack 0 chunks ⟨running, slot, []⟩).printed = packets.map ResponsePacket.shown ↔
      ∀ chunk ∈ chunks, chunk.length = responsePacketSize := by
  have hpackets : ∀ bs ∈ packets.map ResponsePacket.encode, bs.length = responsePacketSize := by
    intro bs hbs
    obtain ⟨p, _, rfl⟩ := List.mem_map.mp hbs
    exact p.encode_length
  have hall := h.all
  rw [List.flatMap_def] at hall
  constructor
  · intro hprinted
    have hcount := receiveAll_length stack 0 ⟨running, slot, []⟩ h.some
    rw [hprinted, List.length_map, List.length_nil, Nat.zero_add] at hcount
    refine whole_of_length h.fits ?_
    rw [hall, length_flatten_of_lengths hpackets, List.length_map, hcount]
  · intro hwhole
    have hpos : 0 < responsePacketSize := by decide
    have hchunks : chunks = packets.map ResponsePacket.encode := by
      rw [← records_flatten hpos hwhole, hall, records_flatten hpos hpackets]
    rw [hchunks, receiveAll_whole, List.nil_append]

/-- The answer to a login, as the server sends it. -/
def loginPacket : ResponsePacket := (sendOk (ascii "Login successful") (decimal 3)).packet

def zeroStack : Buf responsePacketSize := fit _ []

/-- Two answers in two chunks. -/
theorem responses_received_two :
    (receiveAll (fun _ => zeroStack) 0 [loginPacket.encode, loginPacket.encode] ⟨true, -1, []⟩).printed =
      [⟨200, ascii "Login successful", ascii "3"⟩, ⟨200, ascii "Login successful", ascii "3"⟩] := by
  have hseg : Segments ([loginPacket, loginPacket].flatMap ResponsePacket.encode)
      [loginPacket.encode, loginPacket.encode] := by
    have hlen := loginPacket.encode_length
    refine ⟨by simp, ?_, ?_⟩
    · intro chunk hchunk hnil
      have hwhole : chunk = loginPacket.encode := by simpa using hchunk
      rw [← hwhole, hnil] at hlen
      cases hlen
    · intro chunk hchunk
      have hwhole : chunk = loginPacket.encode := by simpa using hchunk
      rw [hwhole, hlen]
  refine ((responses_received_iff _ _ hseg (fun _ => zeroStack) true (-1)).mpr ?_).trans (by decide +kernel)
  intro chunk hchunk
  have hwhole : chunk = loginPacket.encode := by simpa using hchunk
  rw [hwhole, loginPacket.encode_length]

/-- One answer in two chunks is shown as two. -/
theorem split_response_shown_twice :
    ¬ ∀ (packets : List ResponsePacket) (chunks : List Bytes),
      Segments (packets.flatMap ResponsePacket.encode) chunks → ∀ stack running slot,
        (receiveAll stack 0 chunks ⟨running, slot, []⟩).printed = packets.map ResponsePacket.shown := by
  intro hall
  have hlen := loginPacket.encode_length
  obtain ⟨bs, hbs⟩ : ∃ bs, bs = loginPacket.encode := ⟨_, rfl⟩
  rw [← hbs] at hlen
  have htake : (bs.take 1448).length = 1448 := by
    rw [List.length_take, hlen, responsePacketSize]
    omega
  have hdrop : (bs.drop 1448).length = 2912 := by
    rw [List.length_drop, hlen, responsePacketSize]
  have hseg : Segments ([loginPacket].flatMap ResponsePacket.encode) [bs.take 1448, bs.drop 1448] := by
    refine ⟨by simp [hbs], ?_, ?_⟩
    · intro chunk hchunk hnil
      rcases List.mem_pair.mp hchunk with hpart | hpart
      · rw [← hpart, hnil] at htake
        cases htake
      · rw [← hpart, hnil] at hdrop
        cases hdrop
    · intro chunk hchunk
      rcases List.mem_pair.mp hchunk with hpart | hpart
      · rw [hpart, htake, responsePacketSize]
        omega
      · rw [hpart, hdrop, responsePacketSize]
        omega
  have hprinted := hall _ _ hseg (fun _ => zeroStack) true (-1)
  have hcount := receiveAll_length (fun _ => zeroStack) 0 ⟨true, -1, []⟩ hseg.some
  rw [hprinted] at hcount
  cases hcount

end EchoLink
