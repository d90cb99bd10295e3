import DripCore.V1Transport

/-!
# Messages over the first transport protocol

Two transports with a wire between them. The sender takes messages from a queue and hands out parts
of what it has to send, and parts of what is on the wire are fed to the receiver, in any order of
these steps. What is received, on the wire, being sent and queued is always the stream of all
messages, so the receiver yields these messages and nothing else.

A sender that has nothing to send takes the next message, and a sender that has something to send
hands out bytes. A byte is sent once and received once, so rounds in which a message is offered,
some bytes are sent and some are received, of whatever sizes, come to an end with all messages
delivered.
-/
namespace DripCore
open ByteMachine CMessageHeader CSerializedNetMsg List PrefixCode V1Sender

abbrev MessageStartChars := { b : Bytes // b.length = 4 }

/-- A message type of a few characters that can be printed, and a payload that is not too long. -/
structure CSerializedNetMsg.Valid (msg : CSerializedNetMsg) : Prop where
  type_printable : ∀ c ∈ msg.m_type, 0x20 ≤ c.toNat ∧ c.toNat ≤ 0x7e
  type_length : msg.m_type.length ≤ messageTypeSize
  data_length : msg.data.length ≤ maxProtocolMessageLength

/-- A message as it is received, and not rejected. -/
def CSerializedNetMsg.delivered (msg : CSerializedNetMsg) : CNetMessage × Bool :=
  (⟨msg.data,msg.m_type,msg.data.length,msg.data.length+headerSize⟩,false)

/-- Both ends and what is between them. The receiver is gone once it has failed. -/
structure V1Link where
  vSendMsg : List CSerializedNetMsg
  sender : V1Sender
  wire : Bytes
  receiver : Option V1Receiver
  received : List (CNetMessage × Bool)
deriving DecidableEq

def V1Link.initial (msgs : List CSerializedNetMsg) : V1Link :=
  ⟨msgs,V1Sender.initial,[],some V1Receiver.initial,[]⟩

/-- The next message is offered, some bytes are sent, or some bytes are received. -/
inductive LinkEvent where
  | setMessage
  | send (n : ℕ)
  | receive (n : ℕ)
deriving DecidableEq

variable (hash : Bytes → BitVec 256) (m_magic_bytes : Bytes)

/-- One step. It is undefined where an assertion fails. -/
def V1Link.step (l : V1Link) : LinkEvent → Option V1Link
  | .setMessage =>
    match l.vSendMsg with
    | [] => some l
    | msg::msgs =>
      (l.sender.setMessageToSend hash m_magic_bytes msg).map fun r =>
        { l with sender := r.1, vSendMsg := if r.2 then msgs else msg::msgs }
  | .send n =>
    let bytes := (l.sender.getBytesToSend (!l.vSendMsg.isEmpty)).1.take n
    some { l with sender := l.sender.markBytesSent bytes.length, wire := l.wire++bytes }
  | .receive n =>
    let fed := (v1Receiver hash m_magic_bytes).feedAll l.receiver [l.wire.take n]
    some { l with receiver := fed.2, received := l.received++fed.1, wire := l.wire.drop n }

def V1Link.run (l : V1Link) (events : List LinkEvent) : Option V1Link :=
  events.foldlM (V1Link.step hash m_magic_bytes) l

/-- Rounds in which a message is offered, some bytes are sent, and some bytes are received. -/
def linkRounds (sizes : List (ℕ × ℕ)) : List LinkEvent :=
  sizes.flatMap fun size => [.setMessage, .send size.1, .receive size.2]

/-- Nothing is left to be sent. -/
def V1Link.Sent (l : V1Link) : Prop :=
  l.vSendMsg = [] ∧ (l.sender.getBytesToSend false).1 = [] ∧ (l.sender.getBytesToSend false).2.1 =
    false

/-- The header of a message that is short enough. -/
def frameHeader (msg : CSerializedNetMsg) : CMessageHeader :=
  ⟨m_magic_bytes,msg.m_type++List.replicate (messageTypeSize-msg.m_type.length) 0#8,
    msg.data.length,checksum hash msg.data⟩

def frame (msg : CSerializedNetMsg) : Bytes :=
    (frameHeader hash m_magic_bytes msg).serialize++msg.data

def frames (msgs : List CSerializedNetMsg) : Bytes := msgs.flatMap (frame hash m_magic_bytes)

variable {hash m_magic_bytes} {msg : CSerializedNetMsg}

theorem CSerializedNetMsg.Valid.type_ne_zero (h : msg.Valid) : ∀ c ∈ msg.m_type,
    (c != 0#8) = true := by
  intro c hc
  rw [bne_iff_ne]
  rintro rfl
  exact absurd (h.type_printable _ hc).1 (by decide)

variable {s : Bytes}

theorem cString_zeros (h : ∀ c ∈ s, (c != 0#8) = true) (k : ℕ) :
    cString (s++List.replicate k 0#8) = s := by
  rw [cString,takeWhile_append_of_pos h]
  cases k with
  | zero => simp
  | succ k => rw [replicate_succ,takeWhile_cons_of_neg (by decide),append_nil]

theorem messageHeader_eq (h : msg.Valid) :
    messageHeader hash m_magic_bytes msg = some (frameHeader hash m_magic_bytes msg) := by
  have hn : cString msg.m_type = msg.m_type := by
    have hz := cString_zeros h.type_ne_zero 0
    rwa [replicate_zero,append_nil] at hz
  have hs : msg.data.length % 2^32 = msg.data.length :=
    Nat.mod_eq_of_lt (lt_of_le_of_lt h.data_length (by decide))
  have hl := h.type_length
  rw [messageHeader,create,hn,if_neg (not_lt.mpr hl),hs]
  rfl

theorem length_checksum (data : Bytes) : (checksum hash data).length = 4 := by
  rfl

theorem length_frame_type (h : msg.Valid) :
    (msg.m_type++List.replicate (messageTypeSize-msg.m_type.length) 0#8).length = 12 := by
  have hl := h.type_length
  rw [length_append,length_replicate,Nat.add_sub_cancel' hl]
  rfl

theorem length_serialize (hma : m_magic_bytes.length = 4) (h : msg.Valid) :
    (frameHeader hash m_magic_bytes msg).serialize.length = headerSize := by
  have ht := length_frame_type h
  simp only [serialize,frameHeader,length_append,hma] at ht ⊢
  rw [ht]
  rfl

theorem unserialize_serialize (hma : m_magic_bytes.length = 4) (h : msg.Valid) :
    unserialize (frameHeader hash m_magic_bytes msg).serialize =
      frameHeader hash m_magic_bytes msg := by
  have ht := length_frame_type h
  have hs := @length_checksum hash msg.data
  have hsi : leValue (leBytes 4 msg.data.length) = msg.data.length :=
    leValue_leBytes (lt_of_le_of_lt h.data_length (by decide))
  rw [unserialize,serialize,frameHeader]
  generalize msg.m_type++replicate (messageTypeSize-msg.m_type.length) 0#8 = name at ht ⊢
  generalize checksum hash msg.data = sum at hs ⊢
  have h4 : (m_magic_bytes++name++leBytes 4 msg.data.length++sum).take 4 = m_magic_bytes := by
    rw [append_assoc,append_assoc,take_left' hma]
  have h16 : (m_magic_bytes++name++leBytes 4 msg.data.length++sum).drop 4 =
      name++(leBytes 4 msg.data.length++sum) := by
    rw [append_assoc,append_assoc,drop_left' hma]
  have h20 : (m_magic_bytes++name++leBytes 4 msg.data.length++sum).drop 16 =
    leBytes 4 msg.data.length++sum := by
    rw [append_assoc,drop_left' (by rw [length_append,hma,ht])]
  have h24 : (m_magic_bytes++name++leBytes 4 msg.data.length++sum).drop 20 = sum := by
    rw [drop_left' (by rw [length_append,length_append,hma,ht,length_leBytes])]
  have hn : (name++(leBytes 4 msg.data.length++sum)).take messageTypeSize = name := take_left' ht
  have ha : sum.take checksumSize = sum := take_of_length_le hs.le
  rw [h4,h16,h20,h24,hn,ha,take_left' (length_leBytes 4 _),hsi]

theorem validTypeLoop_zeros (h : ∀ c ∈ s, 0x20 ≤ c.toNat ∧ c.toNat ≤ 0x7e) (k : ℕ) :
    validTypeLoop (s++List.replicate k 0#8) = true := by
  induction s with
  | nil =>
    cases k with
    | zero => rfl
    | succ k =>
      rw [nil_append,replicate_succ,validTypeLoop]
      simp
  | cons c s ih =>
    have hc := h c mem_cons_self
    have hin : c.toInt = c.toNat := BitVec.toInt_eq_toNat_of_lt (by omega)
    have hn : c ≠ 0#8 := by
      rintro rfl
      exact absurd hc.1 (by decide)
    rw [cons_append,validTypeLoop,if_neg hn,if_neg (by rw [hin]; omega)]
    exact ih fun d hd => h d (mem_cons_of_mem c hd)

theorem netMessage_frameHeader (h : msg.Valid) :
    netMessage hash (frameHeader hash m_magic_bytes msg) msg.data msg.data = msg.delivered := by
  have ht : (frameHeader hash m_magic_bytes msg).getMessageType = msg.m_type :=
    cString_zeros h.type_ne_zero _
  have hv : (frameHeader hash m_magic_bytes msg).isMessageTypeValid = true :=
    validTypeLoop_zeros h.type_printable _
  have hs : ¬checksum hash msg.data ≠ (frameHeader hash m_magic_bytes msg).pchChecksum :=
    not_not.mpr rfl
  rw [netMessage,ht,hv,if_neg hs]
  rfl

theorem accepted_frame (h : msg.Valid) :
    AcceptedHeader m_magic_bytes (frameHeader hash m_magic_bytes msg) :=
  ⟨rfl,h.data_length.trans (by decide),h.data_length⟩

section
variable (hma : m_magic_bytes.length = 4)
include hma

theorem v1Status_frame_take (h : msg.Valid) {k : ℕ}
    (hk : k < (frame hash m_magic_bytes msg).length) :
    v1Status hash m_magic_bytes ((frame hash m_magic_bytes msg).take k) = .incomplete := by
  have hh := @length_serialize hash m_magic_bytes msg hma h
  by_cases hs : k < headerSize
  · refine v1Status_of_short ?_
    rw [length_take]
    omega
  · rw [frame,length_append] at hk
    have ht : (frame hash m_magic_bytes msg).take k =
      (frameHeader hash m_magic_bytes msg).serialize ++
        msg.data.take (k-headerSize) := by
      rw [frame,take_append,take_of_length_le (by omega),hh]
    rw [ht,v1Status_append hash m_magic_bytes hh,unserialize_serialize hma h,
      if_neg (not_not.mpr (accepted_frame h)),if_pos]
    change (msg.data.take (k-headerSize)).length < msg.data.length
    rw [length_take]
    omega

theorem run_frame (h : msg.Valid) :
    run (framing (v1Status hash m_magic_bytes)) (some []) (frame hash m_magic_bytes msg) =
      ([msg.delivered],some []) := by
  have hh := @length_serialize hash m_magic_bytes msg hma h
  have hn : frame hash m_magic_bytes msg ≠ [] := by
    refine ne_nil_of_length_pos ?_
    rw [frame,length_append,hh]
    exact Nat.add_pos_left (by decide) _
  have hs : ¬msg.data.length < (frameHeader hash m_magic_bytes msg).nMessageSize := lt_irrefl _
  rw [run_framing _ _ _ hn fun k _ hk => v1Status_frame_take hma h hk,nil_append,frame,
    v1Status_append hash m_magic_bytes hh,unserialize_serialize hma h,
    if_neg (not_not.mpr (accepted_frame h)),if_neg hs,netMessage_frameHeader h]
  rfl

/-- Of a stream of messages some are delivered, and all if nothing is missing. -/
theorem run_frames (msgs : List CSerializedNetMsg) (h : ∀ m ∈ msgs, m.Valid) (come mi : Bytes)
    (hs : come++mi = frames hash m_magic_bytes msgs) :
    ∃ done rest r, msgs = done++rest ∧ run (framing (v1Status hash m_magic_bytes)) (some []) come =
        (done.map delivered,some r) ∧ (mi = [] → rest = []) := by
  induction msgs generalizing come with
  | nil =>
    have hn : come = [] := (append_eq_nil_iff.mp hs).1
    exact ⟨[],[],[],rfl,by rw [hn]; rfl,fun _ => rfl⟩
  | cons msg msgs ih =>
    have hg := h msg mem_cons_self
    rw [frames,flatMap_cons] at hs
    by_cases hl : (frame hash m_magic_bytes msg).length ≤ come.length
    · -- The first message has come.
      obtain ⟨more,hc⟩ : frame hash m_magic_bytes msg <+: come :=
        prefix_of_prefix_length_le ⟨_,rfl⟩ ⟨mi,hs⟩ hl
      have hre : more++mi = frames hash m_magic_bytes msgs := by
        rw [← hc,append_assoc] at hs
        exact append_cancel_left hs
      obtain ⟨done,rest,r,hms,hr,he⟩ := ih (fun m hm => h m (mem_cons_of_mem msg hm)) more hre
      refine ⟨msg::done,rest,r,by rw [hms]; rfl,?_,he⟩
      rw [← hc,run_append,run_frame hma hg,hr]
      rfl
    · -- Only a part of it has.
      obtain ⟨left,hf⟩ : come <+: frame hash m_magic_bytes msg :=
        prefix_of_prefix_length_le ⟨mi,hs⟩ ⟨_,rfl⟩ (by omega)
      have ht : come = (frame hash m_magic_bytes msg).take come.length := by
        rw [← hf,take_left]
      refine ⟨[],msg::msgs,come,rfl,?_,fun hmi => ?_⟩
      · cases come with
        | nil => rfl
        | cons b come =>
          rw [run_framing _ _ _ (cons_ne_nil b come),nil_append,ht,
            v1Status_frame_take hma hg (by omega)]
          · rfl
          · intro k _ hk
            rw [ht,take_take]
            exact v1Status_frame_take hma hg (by omega)
      · rw [hmi,append_nil] at hs
        rw [hs,length_append] at hl
        omega

end

def V1Sender.pending (t : V1Sender) : Bytes :=
  if t.m_sending_header then t.m_header_to_send.drop t.m_bytes_sent++t.m_message_to_send.data
  else t.m_message_to_send.data.drop t.m_bytes_sent

theorem take_append_drop_length (l : Bytes) (n : ℕ) : l.take n++l.drop (l.take n).length = l :=
  prefix_iff_eq_append.mp ( take_prefix n l)

theorem pending_markBytesSent (t : V1Sender) (have_next : Bool) (n : ℕ) :
    (t.getBytesToSend have_next).1.take n ++
      (t.markBytesSent ((t.getBytesToSend have_next).1.take n).length).pending = t.pending := by
  obtain ⟨header,msg,se,sent⟩ := t
  cases se with
  | true =>
    have hs := take_append_drop_length (header.drop sent) n
    rw [drop_drop] at hs
    simp only [getBytesToSend,markBytesSent,pending,if_true,true_and]
    by_cases he : sent+((header.drop sent).take n).length = header.length
    · rw [he,drop_length,append_nil] at hs
      rw [if_pos he,hs]
      rfl
    · rw [if_neg he]
      simp only [Bool.not_true,Bool.false_eq_true,false_and,if_false,if_true]
      rw [← append_assoc,hs]
  | false =>
    have hs := take_append_drop_length (msg.data.drop sent) n
    rw [drop_drop] at hs
    simp only [getBytesToSend,markBytesSent,Bool.false_eq_true,
      if_false,Bool.not_false,true_and]
    by_cases he : sent+((msg.data.drop sent).take n).length = msg.data.length
    · rw [he,drop_length,append_nil] at hs
      rw [if_pos he,hs]
      exact append_nil _
    · rw [if_neg he]
      exact hs

variable (hash m_magic_bytes) in
theorem setMessageToSend_cases (t : V1Sender) (h : msg.Valid) :
    t.setMessageToSend hash m_magic_bytes msg = some (t,false) ∨
    ∃ t', t.setMessageToSend hash m_magic_bytes msg = some (t',true) ∧ t.pending = [] ∧
      t'.pending = frame hash m_magic_bytes msg := by
  rw [setMessageToSend]
  by_cases hb : t.m_sending_header ∨ t.m_bytes_sent < t.m_message_to_send.data.length
  · rw [if_pos hb]
    exact .inl rfl
  · rw [if_neg hb,messageHeader_eq h]
    push Not at hb
    refine .inr ⟨_,rfl,?_,rfl⟩
    rw [pending,if_neg hb.1]
    exact drop_eq_nil_of_le hb.2

/-- While it sends a header, a sender has not sent all of it. -/
def V1Sender.Sending (t : V1Sender) : Prop :=
  t.m_sending_header = true → t.m_bytes_sent < t.m_header_to_send.length

theorem sending_setMessage {t t' : V1Sender} {taken : Bool} (hma : m_magic_bytes.length = 4)
    (h : msg.Valid)
    (ht : t.Sending) (hs : t.setMessageToSend hash m_magic_bytes msg = some (t', taken)) :
    t'.Sending := by
  rw [setMessageToSend, messageHeader_eq h] at hs
  split_ifs at hs
  · cases hs
    exact ht
  · cases hs
    intro _
    change 0 < (frameHeader hash m_magic_bytes msg).serialize.length
    rw [length_serialize hma h]
    decide

theorem sending_markBytesSent {t : V1Sender} (ht : t.Sending) (have_next : Bool) (n : ℕ) :
    (t.markBytesSent ((t.getBytesToSend have_next).1.take n).length).Sending := by
  obtain ⟨header, msg, se, sent⟩ := t
  cases se with
  | false =>
    rw [markBytesSent]
    split_ifs <;> exact fun h => nomatch h
  | true =>
    have hl := ht rfl
    simp only [getBytesToSend, markBytesSent, if_true, true_and, Bool.not_true, Bool.false_eq_true,
      false_and, if_false]
    split_ifs with he
    · exact fun h => nomatch h
    · intro _
      simp only [length_take, length_drop] at he hl ⊢
      omega

/-- A sender hands out bytes until nothing is pending. -/
theorem pending_eq_nil_of_bytes {t : V1Sender} (ht : t.Sending) (have_next : Bool)
    (h : (t.getBytesToSend have_next).1 = []) : t.pending = [] := by
  rw [getBytesToSend] at h
  rw [pending]
  split_ifs at h ⊢ with hs
  · exact absurd (drop_eq_nil_iff.mp h) (not_le.mpr (ht hs))
  · exact h

variable (hash m_magic_bytes) in
/-- A sender with nothing pending takes a message. -/
theorem setMessageToSend_idle {t : V1Sender} (ht : t.Sending) (h : msg.Valid)
    (hp : t.pending = []) :
    ∃ t', t.setMessageToSend hash m_magic_bytes msg = some (t', true) ∧
      t'.pending = frame hash m_magic_bytes msg := by
  rcases setMessageToSend_cases hash m_magic_bytes t h with hb | ⟨t', hs, -, he⟩
  · exfalso
    rw [setMessageToSend, messageHeader_eq h] at hb
    split_ifs at hb with hc
    · rw [pending] at hp
      rcases hc with hc | hc
      · rw [if_pos hc] at hp
        exact absurd (drop_eq_nil_iff.mp (append_eq_nil_iff.mp hp).1) (not_le.mpr (ht hc))
      · split_ifs at hp with hs
        · exact absurd (drop_eq_nil_iff.mp (append_eq_nil_iff.mp hp).1) (not_le.mpr (ht hs))
        · exact absurd (drop_eq_nil_iff.mp hp) (not_le.mpr hc)
    · cases hb
  · exact ⟨t', hs, he⟩

theorem V1Link.sent_of_pending {l : V1Link} (hq : l.vSendMsg = []) (hp : l.sender.pending = []) :
    l.Sent := by
  refine ⟨hq, ?_⟩
  rw [getBytesToSend]
  rw [pending] at hp
  split_ifs at hp ⊢
  · obtain ⟨hh, hd⟩ := append_eq_nil_iff.mp hp
    exact ⟨hh, by rw [hd]; rfl⟩
  · exact ⟨hp, rfl⟩

theorem V1Link.Sent.pending_eq_nil {l : V1Link} (h : l.Sent) : l.sender.pending = [] := by
  obtain ⟨-,hb,hm⟩ := h
  rw [getBytesToSend] at hb hm
  rw [pending]
  cases hs : l.sender.m_sending_header with
  | false =>
    rw [hs] at hb
    exact hb
  | true =>
    rw [hs] at hb hm
    have hd : l.sender.m_message_to_send.data.isEmpty = true := by
      simpa using hm
    rw [isEmpty_iff.mp hd,append_nil]
    exact hb

variable {msgs : List CSerializedNetMsg}

/-- The receiver has read some bytes, and with what is under way they are the stream of all
messages. -/
structure V1Link.Consistent (hash : Bytes → BitVec 256) (m_magic_bytes : Bytes)
    (msgs : List CSerializedNetMsg) (l : V1Link) (come : Bytes) : Prop where
  queued : ∀ m ∈ l.vSendMsg, m.Valid
  sending : l.sender.Sending
  stream : come++(l.wire++l.sender.pending++frames hash m_magic_bytes l.vSendMsg) =
    frames hash m_magic_bytes msgs
  received : l.received = (ByteMachine.run (framing (v1Status hash m_magic_bytes)) (some []) come).1
  receiver : Agrees (Receiving m_magic_bytes) l.receiver
    (ByteMachine.run (framing (v1Status hash m_magic_bytes)) (some []) come).2

theorem V1Link.Consistent.initial (h : ∀ m ∈ msgs, m.Valid) :
    (V1Link.initial msgs).Consistent hash m_magic_bytes msgs [] :=
  ⟨h, (fun h => nomatch h), rfl, rfl, receiving_initial⟩

variable {come : Bytes} {l : V1Link}

/-- How far the link is from having delivered everything. A byte counts twice until it is sent. -/
def V1Link.work (hash : Bytes → BitVec 256) (m_magic_bytes : Bytes) (l : V1Link) : ℕ :=
  l.wire.length + 2 * (l.sender.pending.length + (frames hash m_magic_bytes l.vSendMsg).length)

theorem V1Link.Consistent.work_le (h : l.Consistent hash m_magic_bytes msgs come) :
    l.work hash m_magic_bytes ≤ 2 * (frames hash m_magic_bytes msgs).length := by
  rw [V1Link.work, ← h.stream]
  simp only [length_append]
  omega

section
variable (hma : m_magic_bytes.length = 4)
include hma

/-- After a message was offered, the sender has something to send unless the queue is empty. -/
theorem V1Link.Consistent.setMessage (h : l.Consistent hash m_magic_bytes msgs come) :
    ∃ l', l.step hash m_magic_bytes .setMessage = some l' ∧
      l'.Consistent hash m_magic_bytes msgs come ∧
      l'.work hash m_magic_bytes = l.work hash m_magic_bytes ∧
        (l'.sender.pending = [] → l'.vSendMsg = []) := by
  rw [V1Link.step]
  cases hq : l.vSendMsg with
  | nil => exact ⟨l, rfl, h, rfl, fun _ => hq⟩
  | cons msg rest =>
    have hv := h.queued
    have hs := h.stream
    rw [hq] at hv hs
    have hm := hv msg mem_cons_self
    dsimp only
    by_cases hp : l.sender.pending = []
    · obtain ⟨t, ht, hf⟩ := setMessageToSend_idle hash m_magic_bytes
        h.sending hm hp
      rw [ht]
      refine ⟨_, rfl, ⟨fun m hr => hv m (mem_cons_of_mem msg hr),
        sending_setMessage hma hm h.sending ht, ?_,
        h.received, h.receiver⟩, ?_, fun he => ?_⟩
      · rw [hp, append_nil] at hs
        rw [hf, append_assoc]
        exact hs
      · simp only [V1Link.work, hq, hp, hf, if_true, frames, flatMap_cons, length_append,
          length_nil]
        omega
      · change t.pending = [] at he
        rw [hf, frame, append_eq_nil_iff, ← length_eq_zero_iff, length_serialize hma hm] at he
        exact nomatch he.1
    · rcases setMessageToSend_cases hash m_magic_bytes l.sender hm with
        hb | ⟨t, ht, hd, -⟩
      · rw [hb]
        refine ⟨_, rfl, ⟨hv, h.sending, hs, h.received, h.receiver⟩, ?_, fun he => absurd he hp⟩
        simp only [V1Link.work, hq, Bool.false_eq_true, if_false]
      · exact absurd hd hp

omit hma

theorem V1Link.Consistent.send (h : l.Consistent hash m_magic_bytes msgs come) (n : ℕ) :
    ∃ l', l.step hash m_magic_bytes (.send n) = some l' ∧
      l'.Consistent hash m_magic_bytes msgs come ∧
      l'.work hash m_magic_bytes + min n (l.sender.getBytesToSend (!l.vSendMsg.isEmpty)).1.length =
        l.work hash m_magic_bytes ∧ l.wire.length ≤ l'.wire.length := by
  have hsp := pending_markBytesSent l.sender (!l.vSendMsg.isEmpty) n
  refine ⟨_, rfl, ⟨h.queued, sending_markBytesSent h.sending _ n, ?_, h.received, h.receiver⟩, ?_,
    ?_⟩
  · rw [← h.stream, ← hsp]
    simp only [append_assoc]
  · have hl := congrArg length hsp
    simp only [V1Link.work, length_append, length_take] at hl ⊢
    omega
  · simp

theorem V1Link.Consistent.receive (h : l.Consistent hash m_magic_bytes msgs come) (n : ℕ) :
    ∃ l' come', l.step hash m_magic_bytes (.receive n) = some l' ∧
      l'.Consistent hash m_magic_bytes msgs come' ∧
      l'.work hash m_magic_bytes + min n l.wire.length = l.work hash m_magic_bytes := by
  have hf := (v1_simulates hash m_magic_bytes).feedAll [l.wire.take n] h.receiver
  rw [flatten_singleton] at hf
  refine ⟨_, come ++ l.wire.take n, rfl, ⟨h.queued, h.sending, ?_, ?_, ?_⟩, ?_⟩
  · have hw := take_append_drop n l.wire
    rw [← h.stream]
    simp only [append_assoc]
    rw [← append_assoc (l.wire.take n), hw]
  · rw [run_append, ← hf.1, ← h.received]
  · rw [run_append]
    exact hf.2
  · simp only [V1Link.work, length_drop]
    omega

include hma

theorem V1Link.Consistent.step (h : l.Consistent hash m_magic_bytes msgs come) (e : LinkEvent) :
    ∃ l' come', l.step hash m_magic_bytes e = some l' ∧
      l'.Consistent hash m_magic_bytes msgs come' := by
  cases e with
  | setMessage =>
    obtain ⟨l', hs, hl, -⟩ := h.setMessage hma
    exact ⟨l', come, hs, hl⟩
  | send n =>
    obtain ⟨l', hs, hl, -⟩ := h.send n
    exact ⟨l', come, hs, hl⟩
  | receive n =>
    obtain ⟨l', come', hs, hl, -⟩ := h.receive n
    exact ⟨l', come', hs, hl⟩

theorem V1Link.Consistent.run (ev : List LinkEvent)
    (h : l.Consistent hash m_magic_bytes msgs come) :
    ∃ l' come', l.run hash m_magic_bytes ev = some l' ∧
      l'.Consistent hash m_magic_bytes msgs come' := by
  induction ev generalizing l come with
  | nil => exact ⟨l, come, rfl, h⟩
  | cons e ev ih =>
    obtain ⟨l', come', hs, hl'⟩ := h.step hma e
    obtain ⟨l'', come'', hr, hl''⟩ := ih hl'
    refine ⟨l'', come'', ?_, hl''⟩
    rw [V1Link.run, foldlM_cons, hs]
    exact hr

/-- A round moves a byte, as long as there is one to move. -/
theorem V1Link.Consistent.round (h : l.Consistent hash m_magic_bytes msgs come) {size : ℕ × ℕ}
    (hsize : 0 < size.1 ∧ 0 < size.2) :
    ∃ l' come', l.run hash m_magic_bytes [.setMessage, .send size.1, .receive size.2] = some l' ∧
      l'.Consistent hash m_magic_bytes msgs come' ∧
      l'.work hash m_magic_bytes ≤ l.work hash m_magic_bytes - 1 := by
  obtain ⟨l₁, hs₁, hc₁, hw₁, hq⟩ := h.setMessage hma
  obtain ⟨l₂, hs₂, hc₂, hw₂, hl⟩ := hc₁.send size.1
  obtain ⟨l₃, come', hs₃, hc₃, hw₃⟩ := hc₂.receive size.2
  refine ⟨l₃, come', ?_, hc₃, ?_⟩
  · rw [V1Link.run, foldlM_cons, hs₁, Option.bind_eq_bind, Option.bind_some, foldlM_cons, hs₂,
      Option.bind_eq_bind, Option.bind_some, foldlM_cons, hs₃]
    rfl
  · by_cases hb : (l₁.sender.getBytesToSend (!l₁.vSendMsg.isEmpty)).1 = []
    · -- Nothing is left to send, so what is left is on the wire.
      have hp := pending_eq_nil_of_bytes hc₁.sending _ hb
      have hw : l₁.work hash m_magic_bytes = l₁.wire.length := by
        rw [V1Link.work, hp, hq hp]
        rfl
      omega
    · have hb' := length_pos_iff.mpr hb
      omega

/-- With rounds enough everything is sent and received. -/
theorem V1Link.Consistent.rounds (h : l.Consistent hash m_magic_bytes msgs come)
    (sizes : List (ℕ × ℕ))
    (hsizes : ∀ size ∈ sizes, 0 < size.1 ∧ 0 < size.2)
    (hn : l.work hash m_magic_bytes ≤ sizes.length) :
    ∃ l' come', l.run hash m_magic_bytes (linkRounds sizes) = some l' ∧
      l'.Consistent hash m_magic_bytes msgs come' ∧ l'.work hash m_magic_bytes = 0 := by
  induction sizes generalizing l come with
  | nil => exact ⟨l, come, rfl, h, Nat.le_zero.mp hn⟩
  | cons size sizes ih =>
    obtain ⟨l', come', hs, hc, hw⟩ := h.round hma (hsizes size mem_cons_self)
    rw [length_cons] at hn
    obtain ⟨l'', come'', hr, hc'', h0⟩ := ih hc (fun z hz => hsizes z (mem_cons_of_mem _ hz))
      (by omega)
    refine ⟨l'', come'', ?_, hc'', h0⟩
    rw [linkRounds, flatMap_cons, V1Link.run, foldlM_append]
    change (l.run hash m_magic_bytes _).bind _ = _
    rw [hs]
    exact hr

theorem V1Link.Consistent.sent_of_work (h : l.Consistent hash m_magic_bytes msgs come)
    (h0 : l.work hash m_magic_bytes = 0) : l.Sent ∧ l.wire = [] := by
  rw [V1Link.work] at h0
  refine ⟨V1Link.sent_of_pending ?_ (length_eq_zero_iff.mp (by omega)),
    length_eq_zero_iff.mp (by omega)⟩
  cases hq : l.vSendMsg with
  | nil => rfl
  | cons msg rest =>
    have hm := h.queued msg (hq ▸ mem_cons_self)
    rw [hq, frames, flatMap_cons, length_append, frame, length_append,
      length_serialize hma hm] at h0
    simp [headerSize] at h0

end

/-- What is left to come is what has not been read. -/
theorem V1Link.Consistent.received_eq (hma : m_magic_bytes.length = 4)
    (hvalid : ∀ m ∈ msgs, m.Valid)
    (h : l.Consistent hash m_magic_bytes msgs come) :
    l.receiver.isSome ∧ l.received <+: msgs.map delivered ∧
      (l.Sent ∧ l.wire = [] → l.received = msgs.map delivered) := by
  obtain ⟨done, rest, r, hm, ha, hn⟩ := run_frames hma msgs hvalid come _ h.stream
  have hre := h.received
  have hc := h.receiver
  rw [ha] at hre hc
  refine ⟨?_, ?_, fun hs => ?_⟩
  · cases hr : l.receiver with
    | none =>
      rw [hr] at hc
      exact nomatch hc
    | some t => rfl
  · rw [hre, hm, map_append]
    exact prefix_append _ _
  · have he : l.wire ++ l.sender.pending ++ frames hash m_magic_bytes l.vSendMsg = [] := by
      rw [hs.2, hs.1.pending_eq_nil, hs.1.1]
      rfl
    rw [hre, hm, hn he, append_nil]

/-- Whatever parts are sent and received over a link with one magic, no byte is refused, the
messages that have come are the first ones, with their types and payloads and none rejected, and all
have come once everything is sent and received. From every such state, rounds with parts of any size
but zero get there: after two for each byte of the stream, all messages have come. -/
theorem v1Link_faithful (hash : Bytes → BitVec 256) (m_magic_bytes : MessageStartChars)
    (msgs : List CSerializedNetMsg) (hvalid : ∀ m ∈ msgs, m.Valid) (events : List LinkEvent) :
    ∃ l, (V1Link.initial msgs).run hash m_magic_bytes events = some l ∧ l.receiver.isSome ∧
      l.received <+: msgs.map delivered ∧
      (l.Sent ∧ l.wire = [] → l.received = msgs.map delivered) ∧
      ∀ sizes : List (ℕ × ℕ), (∀ size ∈ sizes, 0 < size.1 ∧ 0 < size.2) →
        2 * (frames hash m_magic_bytes msgs).length ≤ sizes.length →
        ∃ l', l.run hash m_magic_bytes (linkRounds sizes) = some l' ∧ l'.Sent ∧ l'.wire = [] ∧
          l'.received = msgs.map delivered := by
  have ht : (V1Link.initial msgs).Consistent hash m_magic_bytes.1 msgs [] := .initial hvalid
  obtain ⟨l, come, hu, h⟩ := ht.run m_magic_bytes.2 events
  obtain ⟨hs, hp, he⟩ := h.received_eq m_magic_bytes.2 hvalid
  refine ⟨l, hu, hs, hp, he, fun sizes hsizes hn => ?_⟩
  obtain ⟨l', come', hr, hc, h0⟩ := h.rounds m_magic_bytes.2 sizes hsizes (h.work_le.trans hn)
  have hd := hc.sent_of_work m_magic_bytes.2 h0
  exact ⟨l', hr, hd.1, hd.2, (hc.received_eq m_magic_bytes.2 hvalid).2.2 hd⟩

def exampleEvents : List LinkEvent :=
  [.setMessage, .send 20, .receive 7, .setMessage, .send 4, .send 2, .receive 30]

def exampleMessages : List CSerializedNetMsg := [⟨[1#8, 2#8], [0x74#8, 0x78#8]⟩, ⟨[], [0x61#8]⟩]

/-- The link is stopped in the middle of a message, and then both messages arrive. -/
theorem v1Link_faithful_example :
    ∃ l l', (V1Link.initial exampleMessages).run (fun _ => 7) [1#8, 2#8, 3#8, 4#8] exampleEvents =
      some l ∧
      l.run (fun _ => 7) [1#8, 2#8, 3#8, 4#8] (linkRounds (replicate 100 (9, 7))) = some l' ∧
      l'.received = exampleMessages.map delivered := by
  obtain ⟨l, hl, -, -, -, hr⟩ :=
    v1Link_faithful (fun _ => 7) ⟨[1#8, 2#8, 3#8, 4#8], rfl⟩ exampleMessages (by
      intro m hm
      rcases mem_pair.mp hm with rfl | rfl
      · exact ⟨by decide, by decide, by decide⟩
      · exact ⟨by decide, by decide, by decide⟩) exampleEvents
  obtain ⟨l', hl', -, -, hd⟩ := hr (replicate 100 (9, 7))
    (fun size hs => (mem_replicate.mp hs).2 ▸ by decide) (by decide)
  exact ⟨l, l', hl, hl', hd⟩

end DripCore
