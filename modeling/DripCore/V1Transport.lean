import DripCore.ByteMachine
import DripCore.Deserialization

/-!
# The first transport protocol

`V1Transport` puts a header before every message: the magic bytes of the network, the message type,
the size of the payload and the start of its hash. The sender hands out header and payload bit by
bit. The receiver collects a header and then the payload, in whatever pieces they come, and what it
does depends on the bytes of the current message only.
-/
namespace DripCore
open ByteMachine List PrefixCode

abbrev Bytes := List (BitVec 8)

def maxProtocolMessageLength : ℕ := 4*1000*1000

structure CMessageHeader where
  pchMessageStart : Bytes
  m_msg_type : Bytes
  nMessageSize : ℕ
  pchChecksum : Bytes
deriving DecidableEq

namespace CMessageHeader

def messageTypeSize : ℕ := 12
def checksumSize : ℕ := 4
def headerSize : ℕ := 24

def cString (s : Bytes) : Bytes := s.takeWhile fun c => c != 0#8

/-- The constructor. It asserts that the message type is short enough. -/
def create (pchMessageStart msg_type : Bytes) (nMessageSize : ℕ) : Option CMessageHeader :=
  let name := cString msg_type
  if messageTypeSize < name.length then none
  else some ⟨pchMessageStart,name++replicate (messageTypeSize-name.length) 0#8,
    nMessageSize % 2^32,replicate checksumSize 0#8⟩

def getMessageType (hdr : CMessageHeader) : Bytes := cString hdr.m_msg_type

/-- The loop of `IsMessageTypeValid`: printable characters, and only zeros after the first zero.
Characters are signed. -/
def validTypeLoop : Bytes → Bool
  | [] => true
  | c::rest =>
    if c = 0#8 then rest.all fun c => c == 0#8
    else if c.toInt < 0x20 ∨ 0x7e < c.toInt then false
    else validTypeLoop rest

def isMessageTypeValid (hdr : CMessageHeader) : Bool := validTypeLoop hdr.m_msg_type

def serialize (hdr : CMessageHeader) : Bytes :=
  hdr.pchMessageStart++hdr.m_msg_type++leBytes 4 hdr.nMessageSize++hdr.pchChecksum

/-- The header in a buffer of its size. -/
def unserialize (buf : Bytes) : CMessageHeader :=
  ⟨buf.take 4,(buf.drop 4).take messageTypeSize,leValue ((buf.drop 16).take 4),
    (buf.drop 20).take checksumSize⟩

end CMessageHeader

open CMessageHeader

structure CSerializedNetMsg where
  data : Bytes
  m_type : Bytes
deriving DecidableEq

/-- A message that was received; its time is left out. -/
structure CNetMessage where
  m_recv : Bytes
  m_type : Bytes
  m_message_size : ℕ
  m_raw_message_size : ℕ
deriving DecidableEq

def writeAt (buf : Bytes) (pos : ℕ) (bytes : Bytes) : Bytes :=
  buf.take pos++bytes++buf.drop (pos+bytes.length)

def resize (buf : Bytes) (size : ℕ) : Bytes := buf.take size++replicate (size-buf.length) 0#8

/-- The receiving side of a `V1Transport`. The hasher is what was written to it. -/
structure V1Receiver where
  hasher : Bytes
  in_data : Bool
  hdrbuf : Bytes
  hdr : CMessageHeader
  vRecv : Bytes
  nHdrPos : ℕ
  nDataPos : ℕ
deriving DecidableEq

namespace V1Receiver

def reset (t : V1Receiver) : V1Receiver :=
  { t with vRecv := [], hdrbuf := replicate 24 0#8, in_data := false, nHdrPos := 0, nDataPos := 0,
           hasher := [] }

/-- The constructor: a header with its defaults, and `Reset`. -/
def initial : V1Receiver :=
  reset ⟨[],false,[],⟨replicate 4 0#8,replicate 12 0#8,2^32-1,replicate 4 0#8⟩,[],0,0⟩

/-- `readHeader`: the number of bytes taken, unless the header is refused. -/
def readHeader (m_magic_bytes : Bytes) (t : V1Receiver) (msg_bytes : Bytes) :
    Option (V1Receiver × ℕ) :=
  let nRemaining := headerSize-t.nHdrPos
  let nCopy := min nRemaining msg_bytes.length
  let hdrbuf := writeAt t.hdrbuf t.nHdrPos (msg_bytes.take nCopy)
  let nHdrPos := t.nHdrPos+nCopy
  let t := { t with hdrbuf := hdrbuf, nHdrPos := nHdrPos }
  if nHdrPos < headerSize then some (t,nCopy)
  else
    let hdr := unserialize hdrbuf
    if hdr.pchMessageStart ≠ m_magic_bytes then none
    else if maxSize < hdr.nMessageSize ∨ maxProtocolMessageLength < hdr.nMessageSize then none
    else some ({ t with hdr := hdr, in_data := true },nCopy)

def readData (t : V1Receiver) (msg_bytes : Bytes) : V1Receiver × ℕ :=
  let nRemaining := t.hdr.nMessageSize-t.nDataPos
  let nCopy := min nRemaining msg_bytes.length
  let vRecv :=
    if t.vRecv.length < t.nDataPos+nCopy then
      resize t.vRecv (min t.hdr.nMessageSize (t.nDataPos+nCopy+256*1024))
    else t.vRecv
  ({ t with hasher := t.hasher++msg_bytes.take nCopy,
            vRecv := writeAt vRecv t.nDataPos (msg_bytes.take nCopy),
            nDataPos := t.nDataPos+nCopy },nCopy)

def receivedMessageComplete (t : V1Receiver) : Bool :=
  t.in_data && decide (t.hdr.nMessageSize = t.nDataPos)

/-- `ReceivedBytes`, with what is left of the bytes. A failure ends the use of the transport. -/
def receivedBytes (m_magic_bytes : Bytes) (t : V1Receiver) (msg_bytes : Bytes) :
    Option (V1Receiver × Bytes) :=
  if t.in_data then
    let read := t.readData msg_bytes
    some (read.1,msg_bytes.drop read.2)
  else
    match t.readHeader m_magic_bytes msg_bytes with
    | none => none
    | some (t,nCopy) => some (t,msg_bytes.drop nCopy)

end V1Receiver

open V1Receiver

structure V1Sender where
  m_header_to_send : Bytes
  m_message_to_send : CSerializedNetMsg
  m_sending_header : Bool
  m_bytes_sent : ℕ
deriving DecidableEq

namespace V1Sender

def initial : V1Sender := ⟨[],⟨[],[]⟩,false,0⟩

/-- `GetBytesToSend`: the bytes, whether more follow, and the message type. -/
def getBytesToSend (t : V1Sender) (have_next_message : Bool) : Bytes × Bool × Bytes :=
  if t.m_sending_header then
    (t.m_header_to_send.drop t.m_bytes_sent,have_next_message || !t.m_message_to_send.data.isEmpty,
      t.m_message_to_send.m_type)
  else (t.m_message_to_send.data.drop t.m_bytes_sent,have_next_message,t.m_message_to_send.m_type)

def markBytesSent (t : V1Sender) (bytes_sent : ℕ) : V1Sender :=
  let m_bytes_sent := t.m_bytes_sent+bytes_sent
  if t.m_sending_header ∧ m_bytes_sent = t.m_header_to_send.length then
    { t with m_sending_header := false, m_bytes_sent := 0 }
  else if !t.m_sending_header ∧ m_bytes_sent = t.m_message_to_send.data.length then
    { t with m_message_to_send := { t.m_message_to_send with data := [] }, m_bytes_sent := 0 }
  else { t with m_bytes_sent := m_bytes_sent }

end V1Sender

section

variable (hash : Bytes → BitVec 256) (m_magic_bytes : Bytes)

def checksum (data : Bytes) : Bytes := (leBytes 32 (hash data).toNat).take checksumSize

/-- The header of a message, unless the assertion about its type fails. -/
def messageHeader (msg : CSerializedNetMsg) : Option CMessageHeader :=
  (create m_magic_bytes msg.m_type msg.data.length).map fun hdr =>
    { hdr with pchChecksum := checksum hash msg.data }

/-- `SetMessageToSend`, with whether the message was taken. -/
def V1Sender.setMessageToSend (t : V1Sender) (msg : CSerializedNetMsg) : Option (V1Sender × Bool) :=
  if t.m_sending_header ∨ t.m_bytes_sent < t.m_message_to_send.data.length then some (t,false)
  else (messageHeader hash m_magic_bytes msg).map fun hdr => (⟨hdr.serialize,msg,true,0⟩,true)

/-- A message with the header that came before it, and whether it is rejected. -/
def netMessage (hdr : CMessageHeader) (payload hashed : Bytes) : CNetMessage × Bool :=
  (⟨payload,hdr.getMessageType,hdr.nMessageSize,hdr.nMessageSize+headerSize⟩,
    if checksum hash hashed ≠ hdr.pchChecksum then true else !hdr.isMessageTypeValid)

/-- `GetReceivedMessage`, with `reject_message`. -/
def V1Receiver.getReceivedMessage (t : V1Receiver) : V1Receiver × (CNetMessage × Bool) :=
  (t.reset,netMessage hash t.hdr t.vRecv t.hasher)

def v1Receiver : Receiver V1Receiver (BitVec 8) (CNetMessage × Bool) where
  absorb := receivedBytes m_magic_bytes
  complete := receivedMessageComplete
  extract := getReceivedMessage hash

/-- A header that is not refused. -/
def AcceptedHeader (hdr : CMessageHeader) : Prop :=
  hdr.pchMessageStart = m_magic_bytes ∧ hdr.nMessageSize ≤ maxSize ∧
    hdr.nMessageSize ≤ maxProtocolMessageLength

instance (hdr : CMessageHeader) : Decidable (AcceptedHeader m_magic_bytes hdr) :=
  inferInstanceAs (Decidable (_ ∧ _))

/-- What the bytes of a message so far amount to. -/
def v1Status (read : Bytes) : Status (CNetMessage × Bool) :=
  if read.length < headerSize then .incomplete
  else
    let hdr := unserialize (read.take headerSize)
    let payload := read.drop headerSize
    if ¬AcceptedHeader m_magic_bytes hdr then .failed
    else if payload.length < hdr.nMessageSize then .incomplete
    else .complete (netMessage hash hdr payload payload)

/-- A receiver that has these bytes of a header, and some older header. -/
def headerState (hdr : CMessageHeader) (read : Bytes) : V1Receiver :=
  ⟨[],false,read++replicate (headerSize-read.length) 0#8,hdr,[],read.length,0⟩

/-- A receiver that has a header and these bytes of a payload, and room for some more. -/
def dataState (hdrbuf : Bytes) (nHdrPos : ℕ) (head payload : Bytes) (ahead : ℕ) : V1Receiver :=
  ⟨payload,true,hdrbuf,unserialize head,payload++replicate ahead 0#8,nHdrPos,payload.length⟩

/-- A receiver in the middle of a message of which these bytes have come. -/
inductive Reads : V1Receiver → Bytes → Prop
  | header (hdr : CMessageHeader) (read : Bytes) (h : read.length < headerSize) :
      Reads (headerState hdr read) read
  | data (hdrbuf : Bytes) (nHdrPos : ℕ) (head payload : Bytes) (ahead : ℕ)
      (hhead : head.length = headerSize)
      (haccepted : AcceptedHeader m_magic_bytes (unserialize head))
      (hpayload : payload.length < (unserialize head).nMessageSize)
      (hahead : payload.length+ahead ≤ (unserialize head).nMessageSize) :
      Reads (dataState hdrbuf nHdrPos head payload ahead) (head++payload)

/-- A receiver and the bytes of the message that it is receiving. -/
def Receiving (t : V1Receiver) (o : Option Bytes) : Prop :=
  ∃ read, o = some read ∧ Reads m_magic_bytes t read

end

theorem writeAt_append (xs ys bytes : Bytes) :
    writeAt (xs++ys) xs.length bytes = xs++bytes++ys.drop bytes.length := by
  rw [writeAt,take_left,drop_append,drop_eq_nil_of_le (Nat.le_add_right _ _),
    Nat.add_sub_cancel_left,nil_append]

theorem resize_append_zeros (xs : Bytes) (k size : ℕ) (h : xs.length+k ≤ size) :
    resize (xs++replicate k 0#8) size = xs++replicate (size-xs.length) 0#8 := by
  rw [resize,take_of_length_le (by simpa using h),append_assoc,length_append,
    length_replicate,replicate_append_replicate]
  congr 2
  omega

variable {hash : Bytes → BitVec 256} {m : Bytes}

theorem v1Status_of_short {r : Bytes} (h : r.length < headerSize) :
    v1Status hash m r = .incomplete := by
  rw [v1Status,if_pos h]

variable (hash m) in
theorem v1Status_append {head : Bytes} (hh : head.length = headerSize) (p : Bytes) :
    v1Status hash m (head++p) =
      if ¬AcceptedHeader m (unserialize head) then .failed
      else if p.length < (unserialize head).nMessageSize then .incomplete
      else .complete (netMessage hash (unserialize head) p p) := by
  rw [v1Status,if_neg (by rw [length_append]; omega),take_left' hh,drop_left' hh]

variable (m) in
theorem readHeader_eq (hdr : CMessageHeader) (r chunk : Bytes) (n : ℕ)
    (hn : n = min (headerSize-r.length) chunk.length) :
    (headerState hdr r).readHeader m chunk =
      if (r++chunk.take n).length < headerSize then
        some (headerState hdr (r++chunk.take n),n)
      else if AcceptedHeader m (unserialize (r++chunk.take n)) then
        some (dataState (r++chunk.take n) (r++chunk.take n).length (r++chunk.take n) [] 0,n)
      else none := by
  have hl : (r++chunk.take n).length = r.length+n := by
    rw [length_append,length_take,hn]
    omega
  have hb : writeAt (r++replicate (headerSize-r.length) 0#8) r.length
      (chunk.take n) = r++chunk.take n++replicate (headerSize-(r++chunk.take n).length) 0#8 := by
    rw [writeAt_append,drop_replicate,hl,length_take,hn]
    congr 2
    omega
  rw [readHeader,headerState]
  dsimp only
  rw [← hn,hb,← hl]
  by_cases hs : (r++chunk.take n).length < headerSize
  · rw [if_pos hs,if_pos hs]
    rfl
  · have hf : headerSize-(r++chunk.take n).length = 0 := by omega
    rw [if_neg hs,if_neg hs,hf,replicate_zero,append_nil]
    by_cases ha : AcceptedHeader m (unserialize (r++chunk.take n))
    · have hsi := ha.2
      rw [if_pos ha,if_neg (not_not.mpr ha.1),if_neg (by omega)]
      rfl
    · rw [if_neg ha]
      by_cases hm : (unserialize (r++chunk.take n)).pchMessageStart = m
      · rw [if_neg (not_not.mpr hm),if_pos]
        by_contra hsi
        push Not at hsi
        exact ha ⟨hm,hsi⟩
      · rw [if_pos hm]

variable (hash) in
/-- What a receiver in a payload does next is what the bytes amount to. -/
theorem collect_dataState (hdrbuf : Bytes) (nHdrPos : ℕ) {head p : Bytes} {ahead : ℕ}
    (hh : head.length = headerSize)
    (ha : AcceptedHeader m (unserialize head))
    (hah : p.length+ahead ≤ (unserialize head).nMessageSize) :
    ((v1Status hash m (head++p)).result (head++p)).1 =
      ((v1Receiver hash m).collect (dataState hdrbuf nHdrPos head p ahead)).2 ∧
    Receiving m ((v1Receiver hash m).collect (dataState hdrbuf nHdrPos head p ahead)).1
      ((v1Status hash m (head++p)).result (head++p)).2 := by
  have hc : (v1Receiver hash m).complete (dataState hdrbuf nHdrPos head p ahead) =
      decide ((unserialize head).nMessageSize = p.length) := by
    exact Bool.true_and _
  rw [v1Status_append hash m hh,if_neg (not_not.mpr ha),Receiver.collect,hc]
  by_cases hm : p.length < (unserialize head).nMessageSize
  · rw [if_pos hm,decide_eq_false (by omega),if_neg Bool.false_ne_true]
    exact ⟨rfl,_,rfl,.data hdrbuf nHdrPos head p ahead hh ha hm hah⟩
  · have hn : ahead = 0 := by omega
    rw [if_neg hm,decide_eq_true (by omega),if_pos rfl,hn]
    refine ⟨?_,[],rfl,.header (unserialize head) [] (by decide)⟩
    change _ = [netMessage hash (unserialize head) (p++[]) p]
    rw [append_nil]
    rfl

theorem absorb_header (hdr : CMessageHeader) (re chunk : Bytes) (h : re.length < headerSize)
    (hch : chunk ≠ []) :
    Absorbs (v1Receiver hash m) (framing (v1Status hash m))
      (Receiving m) (headerState hdr re) (some re) chunk := by
  have hp := length_pos_iff.mpr hch
  set n := min (headerSize-re.length) chunk.length with hn
  have hr := readHeader_eq m hdr re chunk n hn
  have hu : run (framing (v1Status hash m)) (some re) (chunk.take n) =
      (v1Status hash m (re++chunk.take n)).result (re++chunk.take n) := by
    refine run_framing_take _ _ _ (by omega) (by omega) fun k hk hl => v1Status_of_short ?_
    rw [length_append,length_take]
    omega
  have hb : (v1Receiver hash m).absorb (headerState hdr re) chunk =
      ((headerState hdr re).readHeader m chunk).map fun r => (r.1,chunk.drop r.2) := by
    change (headerState hdr re).receivedBytes m chunk = _
    have hh : (headerState hdr re).in_data = false := rfl
    rw [receivedBytes]
    cases (headerState hdr re).readHeader m chunk <;> rfl
  by_cases hs : (re++chunk.take n).length < headerSize
  · rw [if_pos hs] at hr
    rw [hr] at hb
    refine .inr ⟨n,_,by omega,by omega,hb,?_⟩
    rw [hu,v1Status_of_short hs]
    exact ⟨rfl,_,rfl,.header hdr _ hs⟩
  · rw [if_neg hs] at hr
    have hf : (re++chunk.take n).length = headerSize := by
      rw [length_append,length_take] at hs ⊢
      omega
    by_cases ha : AcceptedHeader m (unserialize (re++chunk.take n))
    · rw [if_pos ha] at hr
      rw [hr] at hb
      refine .inr ⟨n,_,by omega,by omega,hb,?_⟩
      rw [hu]
      have hc := collect_dataState hash (re++chunk.take n) (re++chunk.take n).length hf
        ha (show ([] : Bytes).length+0 ≤ _ from Nat.zero_le _)
      rw [append_nil] at hc
      exact hc
    · rw [if_neg ha] at hr
      rw [hr] at hb
      have ht := v1Status_append hash m hf []
      rw [append_nil,if_pos ha] at ht
      rw [ht] at hu
      exact .inl ⟨hb,run_of_take_failed hu⟩

theorem writeAt_zeros (p : Bytes) (ahead : ℕ) (bytes : Bytes) :
    writeAt (p++replicate ahead 0#8) p.length bytes =
      p++bytes++replicate (ahead-bytes.length) 0#8 := by
  rw [writeAt_append,drop_replicate]

theorem readData_eq (hdrbuf : Bytes) (nHdrPos : ℕ) (head p chunk : Bytes) (ahead n : ℕ)
    (ha : p.length+ahead ≤ (unserialize head).nMessageSize)
    (hn : n = min ((unserialize head).nMessageSize-p.length) chunk.length) :
    ∃ ahead', (p++chunk.take n).length+ahead' ≤ (unserialize head).nMessageSize ∧
      (dataState hdrbuf nHdrPos head p ahead).readData chunk =
        (dataState hdrbuf nHdrPos head (p++chunk.take n) ahead',n) := by
  set size := (unserialize head).nMessageSize with hs
  have ht : (chunk.take n).length = n := by
    rw [length_take]
    omega
  -- The room before the copy: what there is, or up to 256 KiB more than needed.
  obtain ⟨r,hr,hl,hb⟩ : ∃ r, n ≤ r ∧ p.length+r ≤ size ∧
    (if (p++replicate ahead 0#8).length < p.length+n then
        resize (p++replicate ahead 0#8) (min size (p.length+n+256*1024))
      else p++replicate ahead 0#8) = p++replicate r 0#8 := by
    rw [length_append,length_replicate]
    split_ifs with hh
    · refine ⟨min size (p.length+n+256*1024)-p.length,by omega,by omega,?_⟩
      exact resize_append_zeros p ahead _ (by omega)
    · exact ⟨ahead,by omega,ha,rfl⟩
  refine ⟨r-n,by rw [length_append]; omega,?_⟩
  have hw := writeAt_zeros p r (chunk.take n)
  rw [readData,dataState,dataState]
  rw [← hn,hb,hw,length_append,ht]

theorem absorb_data (hdrbuf : Bytes) (nHdrPos : ℕ) {head p : Bytes} {ahead : ℕ}
    (hh : head.length = headerSize)
    (ha : AcceptedHeader m (unserialize head))
    (hp : p.length < (unserialize head).nMessageSize)
    (hah : p.length+ahead ≤ (unserialize head).nMessageSize)
    (chunk : Bytes) (hc : chunk ≠ []) :
    Absorbs (v1Receiver hash m) (framing (v1Status hash m))
      (Receiving m) (dataState hdrbuf nHdrPos head p ahead) (some (head++p))
      chunk := by
  have ho := length_pos_iff.mpr hc
  set n := min ((unserialize head).nMessageSize-p.length) chunk.length with hn
  obtain ⟨ahead',hah',hr⟩ := readData_eq hdrbuf nHdrPos head p chunk ahead n hah hn
  have hb : (v1Receiver hash m).absorb (dataState hdrbuf nHdrPos head p ahead) chunk =
      some (dataState hdrbuf nHdrPos head (p++chunk.take n) ahead',chunk.drop n) := by
    have hd : (dataState hdrbuf nHdrPos head p ahead).in_data = true := rfl
    change (dataState hdrbuf nHdrPos head p ahead).receivedBytes m chunk = _
    rw [receivedBytes,hd,if_pos rfl,hr]
  refine .inr ⟨n,_,by omega,by omega,hb,?_⟩
  have hu := run_framing_take (v1Status hash m) (head++p) chunk
    (show 0 < n by omega) (show n ≤ chunk.length by omega) fun k hk hl => by
      rw [append_assoc,v1Status_append hash m hh,if_neg (not_not.mpr ha),if_pos]
      rw [length_append,length_take]
      omega
  rw [hu,append_assoc]
  exact collect_dataState hash hdrbuf nHdrPos hh ha hah'

variable (hash m) in
/-- Whatever comes, the receiver does what the bytes of the message amount to. -/
theorem v1_simulates : Simulates (v1Receiver hash m) (framing (v1Status hash m)) (Receiving m) := by
  intro t o chunk ht hc
  obtain ⟨r,rfl,hr⟩ := ht
  cases hr with
  | header hdr r h => exact absorb_header hdr r chunk h hc
  | data hdrbuf nHdrPos head p ahead hh ha hp hah =>
    exact absorb_data hdrbuf nHdrPos hh ha hp hah chunk hc

theorem receiving_initial : Receiving m initial (some []) := ⟨[],rfl,.header _ [] (by decide)⟩

/-- Whatever bytes a peer sends, the messages taken out of them and whether they are refused do not
depend on the chunks in which they arrive. -/
theorem v1Receiver_fragmentation (hash : Bytes → BitVec 256) (m_magic_bytes : Bytes)
    (chunks : List Bytes) :
    ((v1Receiver hash m_magic_bytes).feedAll (some initial) chunks).1 =
      ((v1Receiver hash m_magic_bytes).feed initial chunks.flatten).1 ∧
    (((v1Receiver hash m_magic_bytes).feedAll (some initial) chunks).2 = none ↔
      ((v1Receiver hash m_magic_bytes).feed initial chunks.flatten).2 = none) := by
  have hs := v1_simulates hash m_magic_bytes
  obtain ⟨hm,ha⟩ := hs.feedAll chunks (show Agrees _ (some initial)
    (some []) from receiving_initial)
  obtain ⟨hm',ha'⟩ := hs.feed receiving_initial chunks.flatten
  have hn {so o} (h : Agrees (Receiving m_magic_bytes) so o) : so = none ↔ o = none := by
    cases so with
    | none => exact iff_of_true rfl h
    | some t =>
      obtain ⟨r,rfl,-⟩ := h
      simp
  exact ⟨hm.trans hm'.symm,(hn ha).trans (hn ha').symm⟩

end DripCore
