/-
Broadcasts to a client: `PortDatagram` (AlpcPortServer.cpp) sends a message segment by segment while it
holds the client's lock, and gives up at the first segment that fails; the client's `RunThread`
(AlpcPortClient.cpp) counts bytes until it has a message. Segments arrive in the order they were sent.
-/
import MajorPrivacy.Ipc.PortMessage

namespace MajorPrivacy.Ipc

open LittleEndian

/-! ## Sending and receiving -/

/-- What is broadcast; `reserved` is what the memory of the header holds. -/
structure Message where
  msgId : UInt32
  reserved : UInt32
  msg : Bytes

/-- The buffer that `BroadcastMessage` makes; its sequence is -1. -/
def Message.sendBuff (m : Message) : Bytes :=
  PortMsgHeader.toBytes ⟨.ofNat headerSize + .ofNat m.msg.length, m.msgId, 0xFFFFFFFF, m.reserved⟩ ++ m.msg

/-- The state of `RunThread`: the bytes of the message that it has, and how many are to come. -/
structure Receiver where
  recvBuff : Bytes
  buffLen : UInt32

/-- A segment of the message in `recvBuff`, with what the callback gets. -/
def Receiver.copy (r : Receiver) (data : Bytes) : Receiver × Option Bytes :=
  if r.buffLen < .ofNat data.length then (⟨r.recvBuff, 0⟩, none)
  else
    let recvBuff := r.recvBuff ++ data
    let buffLen := r.buffLen - .ofNat data.length
    if 0 < buffLen then (⟨recvBuff, buffLen⟩, none)
    else (⟨recvBuff, 0⟩, if sequenceOf recvBuff = 0xFFFFFFFF then some recvBuff else none)

/-- The loop body of `RunThread`. -/
def Receiver.receive (r : Receiver) (data : Bytes) : Receiver × Option Bytes :=
  if r.buffLen = 0 then
    if headerSize ≤ data.length then Receiver.copy ⟨[], sizeOf data⟩ data else (r, none)
  else r.copy data

/-- A client as the service and the callback see it: the message that is sent with the position in it,
the segments on the way, every message that was broadcast, what the callback got, and whether a send
has failed. -/
structure Channel where
  sending : Option (Bytes × Nat)
  queue : List Bytes
  receiver : Receiver
  sent : List Bytes
  received : List Bytes
  failed : Bool

def Channel.new : Channel := ⟨none, [], ⟨[], 0⟩, [], [], false⟩

inductive Step
  | broadcast (m : Message)
  | send (ok : Bool)
  | receive

/-- A broadcast waits for the lock; the other steps wait for something to send or to receive. -/
def Channel.step (c : Channel) : Step → Channel
  | .broadcast m =>
    if c.sending = none then { c with sending := some (m.sendBuff, 0), sent := c.sent ++ [m.sendBuff] } else c
  | .send ok =>
    match c.sending with
    | none => c
    | some (sendBuff, position) =>
      if ok then
        let data := segment sendBuff position
        { c with
          queue := c.queue ++ [data]
          sending := if position + data.length < sendBuff.length then some (sendBuff, position + data.length) else none }
      else { c with sending := none, failed := true }
  | .receive =>
    match c.queue with
    | [] => c
    | data :: queue =>
      let (receiver, message) := c.receiver.receive data
      { c with queue, receiver, received := c.received ++ message.toList }

def Channel.run (c : Channel) (steps : List Step) : Channel := steps.foldl Channel.step c

/-! ## What is on the way -/

/-- The client once it has received some segments, and what its callback got. -/
def arrive (client : Receiver × List Bytes) (data : Bytes) : Receiver × List Bytes :=
  ((client.1.receive data).1, client.2 ++ (client.1.receive data).2.toList)

/-- The client once it has received what is on the way. -/
def Channel.arrived (c : Channel) : Receiver × List Bytes := c.queue.foldl arrive (c.receiver, c.received)

/-- The first segment of a message finds a client that has no part of another one, or one that drops it
and is then without a part of either; and the length fits into the header. -/
def Channel.InStep (c : Channel) : Step → Prop
  | .send true => ∀ sendBuff, c.sending = some (sendBuff, 0) → sendBuff.length < UInt32.size ∧
      (c.arrived.1.buffLen = 0 ∨ sendBuff.length ≤ msgDataLen ∧ c.arrived.1.buffLen.toNat < sendBuff.length)
  | _ => True

def Channel.AllInStep : Channel → List Step → Prop
  | _, [] => True
  | c, s :: steps => c.InStep s ∧ (c.step s).AllInStep steps

/-! ## One segment -/

section Segment
variable {buf : Bytes} {position : Nat} {r : Receiver}

theorem length_sendBuff (m : Message) : m.sendBuff.length = headerSize + m.msg.length := by
  rw [Message.sendBuff, List.length_append, length_toBytes]

/-- A client that has a message up to a position has it up to the next one after the segment there. -/
theorem copy_segment (hseq : sequenceOf buf = 0xFFFFFFFF) (hlen : buf.length < UInt32.size) (hpos : position ≤ buf.length)
    (hgot : r.recvBuff = buf.take position) (hleft : r.buffLen.toNat = buf.length - position) :
    (r.copy (segment buf position)).1.recvBuff = buf.take (position + (segment buf position).length) ∧
    (r.copy (segment buf position)).1.buffLen.toNat = buf.length - (position + (segment buf position).length) ∧
    (r.copy (segment buf position)).2 = if position + (segment buf position).length < buf.length then none else some buf := by
  have hseg := length_segment buf position
  generalize hk : (segment buf position).length = k at hseg
  have hle : k ≤ buf.length - position := by omega
  have hkNat : (UInt32.ofNat k).toNat = k := UInt32.toNat_ofNat_of_lt' (by omega)
  have hfits : ¬ r.buffLen < .ofNat k := by
    rw [UInt32.lt_iff_toNat_lt, hkNat]
    omega
  have hsub : (r.buffLen - .ofNat k).toNat = buf.length - (position + k) := by
    rw [UInt32.toNat_sub_of_le _ _ (UInt32.not_lt.1 hfits), hkNat]
    omega
  have happend : r.recvBuff ++ segment buf position = buf.take (position + k) := by
    rw [hgot, ← hk, take_append_segment]
  have hzero : (0 : UInt32).toNat = 0 := rfl
  unfold Receiver.copy
  rw [hk, if_neg hfits]
  dsimp only
  rw [happend]
  by_cases hmore : position + k < buf.length
  · have hpositive : 0 < r.buffLen - .ofNat k := by
      rw [UInt32.lt_iff_toNat_lt, hsub, hzero]
      omega
    rw [if_pos hpositive, if_pos hmore]
    exact ⟨rfl, hsub, rfl⟩
  · have hnone : ¬ 0 < r.buffLen - .ofNat k := by
      rw [UInt32.lt_iff_toNat_lt, hsub, hzero]
      omega
    have hall : buf.take (position + k) = buf := List.take_of_length_le (by omega)
    rw [if_neg hnone, if_neg hmore, hall, if_pos hseq]
    exact ⟨rfl, by rw [hzero]; omega, rfl⟩

/-- The first segment is not shorter than a header. -/
theorem headerSize_le_segment (m : Message) : headerSize ≤ (segment m.sendBuff 0).length := by
  have := headerSize_le_msgDataLen
  rw [length_segment, length_sendBuff]
  omega

theorem sizeOf_segment {m : Message} (hlen : m.sendBuff.length < UInt32.size) :
    (sizeOf (segment m.sendBuff 0)).toNat = m.sendBuff.length := by
  have hsize : sizeOf (segment m.sendBuff 0) = sizeOf m.sendBuff := ulongAt_take _ (by decide)
  rw [length_sendBuff] at hlen
  rw [hsize, Message.sendBuff, sizeOf_toBytes, ← UInt32.ofNat_add, UInt32.toNat_ofNat_of_lt' hlen]
  exact (length_sendBuff m).symm

end Segment

/-! ## What a run keeps -/

/-- Between two messages the callback has got, or will have, some of those sent; while no send has
failed it is all of them, and the client has no part of another one. -/
structure Channel.Between (c : Channel) : Prop where
  sublist : c.arrived.2.Sublist c.sent
  all : c.failed = false → c.arrived.2 = c.sent ∧ c.arrived.1.buffLen = 0

/-- Within a message the same holds of those before it, and the client has what was sent of it. -/
structure Channel.Within (c : Channel) (m : Message) (position : Nat) (before : List Bytes) : Prop where
  sent : c.sent = before ++ [m.sendBuff]
  sublist : c.arrived.2.Sublist before
  all : c.failed = false → c.arrived.2 = before ∧ (position = 0 → c.arrived.1.buffLen = 0)
  rest : position < m.sendBuff.length
  got : position ≠ 0 → m.sendBuff.length < UInt32.size ∧ c.arrived.1.recvBuff = m.sendBuff.take position ∧
    c.arrived.1.buffLen.toNat = m.sendBuff.length - position

def Channel.Inv (c : Channel) : Prop :=
  match c.sending with
  | none => c.Between
  | some (sendBuff, position) => ∃ m before, sendBuff = m.sendBuff ∧ c.Within m position before

theorem Channel.Inv.new : Channel.new.Inv := ⟨List.Sublist.refl _, fun _ => ⟨rfl, rfl⟩⟩

theorem arrived_send (c : Channel) (data : Bytes) (sending : Option (Bytes × Nat)) :
    Channel.arrived { c with queue := c.queue ++ [data], sending } = arrive c.arrived data := by
  rw [Channel.arrived, List.foldl_append]
  rfl

theorem received_prefix (c : Channel) : c.received <+: c.arrived.2 := by
  have hfold : ∀ (queue : List Bytes) (client : Receiver × List Bytes), client.2 <+: (queue.foldl arrive client).2 := by
    intro queue
    induction queue with
    | nil => exact fun client => List.prefix_refl _
    | cons data queue ih => exact fun client => (List.prefix_append _ _).trans (ih (arrive client data))
  exact hfold c.queue (c.receiver, c.received)

/-- The next segment of a message arrives. -/
theorem Channel.Within.send {c : Channel} {m : Message} {position : Nat} {before : List Bytes} (h : c.Within m position before)
    (hsending : c.sending = some (m.sendBuff, position)) (hin : c.InStep (.send true)) : (c.step (.send true)).Inv := by
  have hseq : sequenceOf m.sendBuff = 0xFFFFFFFF := sequenceOf_toBytes _ _
  have hseg := length_segment m.sendBuff position
  have hpositive : 0 < msgDataLen := by decide
  generalize hdata : segment m.sendBuff position = data at hseg
  have hstep : c.step (.send true) = { c with
      queue := c.queue ++ [data]
      sending := if position + data.length < m.sendBuff.length then some (m.sendBuff, position + data.length) else none } := by
    rw [Channel.step, hsending]
    dsimp only
    rw [if_pos rfl, hdata]
  -- The client is in step with the message, or it drops the only segment.
  have harrive : m.sendBuff.length < UInt32.size ∧
      ((c.arrived.1.receive data).1.recvBuff = m.sendBuff.take (position + data.length) ∧
        (c.arrived.1.receive data).1.buffLen.toNat = m.sendBuff.length - (position + data.length) ∧
        (c.arrived.1.receive data).2 = (if position + data.length < m.sendBuff.length then none else some m.sendBuff) ∨
      c.arrived.1.buffLen ≠ 0 ∧ position = 0 ∧ ¬ position + data.length < m.sendBuff.length ∧
        (c.arrived.1.receive data).1.buffLen = 0 ∧ (c.arrived.1.receive data).2 = none) := by
    by_cases hzero : position = 0
    · subst hzero
      rcases hin _ hsending with ⟨hlen, hidle | ⟨hone, hlonger⟩⟩
      · refine ⟨hlen, .inl ?_⟩
        rw [Receiver.receive, if_pos hidle, ← hdata, if_pos (headerSize_le_segment m)]
        exact copy_segment hseq hlen (Nat.zero_le _) (List.take_zero).symm (sizeOf_segment hlen)
      · by_cases hidle : c.arrived.1.buffLen = 0
        · refine ⟨hlen, .inl ?_⟩
          rw [Receiver.receive, if_pos hidle, ← hdata, if_pos (headerSize_le_segment m)]
          exact copy_segment hseq hlen (Nat.zero_le _) (List.take_zero).symm (sizeOf_segment hlen)
        · have hdrop : c.arrived.1.buffLen < .ofNat data.length := by
            rw [UInt32.lt_iff_toNat_lt, UInt32.toNat_ofNat_of_lt' (by omega)]
            omega
          have hreceive : c.arrived.1.receive data = (⟨c.arrived.1.recvBuff, 0⟩, none) := by
            rw [Receiver.receive, if_neg hidle, Receiver.copy, if_pos hdrop]
          rw [hreceive]
          exact ⟨hlen, .inr ⟨hidle, rfl, by omega, rfl, rfl⟩⟩
    · rcases h.got hzero with ⟨hlen, hgot, hleft⟩
      have hrest := h.rest
      have hbusy : c.arrived.1.buffLen ≠ 0 := fun hz => by
        rw [hz] at hleft
        change 0 = _ at hleft
        omega
      refine ⟨hlen, .inl ?_⟩
      rw [Receiver.receive, if_neg hbusy, ← hdata]
      exact copy_segment hseq hlen (by omega) hgot hleft
  rw [hstep]
  have harrived := arrived_send c data (if position + data.length < m.sendBuff.length then some (m.sendBuff, position + data.length) else none)
  rcases harrive with ⟨hlen, ⟨hgot, hleft, hmessage⟩ | ⟨hbusy, hzero, hlast, hidle, hmessage⟩⟩
  · by_cases hmore : position + data.length < m.sendBuff.length
    · rw [if_pos hmore] at harrived hmessage ⊢
      refine ⟨m, before, rfl, h.sent, ?_, fun hok => ⟨?_, fun hzero => ?_⟩, hmore, fun _ => ?_⟩
      · rw [harrived, arrive, hmessage]
        simpa using h.sublist
      · rw [harrived, arrive, hmessage]
        simpa using (h.all hok).1
      · have hrest := h.rest
        omega
      · rw [harrived]
        exact ⟨hlen, hgot, hleft⟩
    · rw [if_neg hmore] at harrived hmessage ⊢
      refine ⟨?_, fun hok => ⟨?_, ?_⟩⟩
      · rw [harrived, arrive, hmessage, h.sent]
        exact h.sublist.append (List.Sublist.refl _)
      · rw [harrived, arrive, hmessage, h.sent, (h.all hok).1]
        rfl
      · rw [harrived, arrive]
        apply UInt32.toNat_inj.1
        rw [hleft]
        change _ = 0
        omega
  · rw [if_neg hlast] at harrived ⊢
    refine ⟨?_, fun hok => absurd ((h.all hok).2 hzero) hbusy⟩
    rw [harrived, arrive, hmessage, h.sent]
    simpa using h.sublist.trans (List.sublist_append_left before [m.sendBuff])

theorem Channel.Inv.step {c : Channel} (h : c.Inv) {s : Step} (hin : c.InStep s) : (c.step s).Inv := by
  cases s with
  | broadcast m =>
    rw [Channel.step]
    split
    · rename_i hnone
      rw [Channel.Inv, hnone] at h
      refine ⟨m, c.sent, rfl, rfl, h.sublist, fun hok => ⟨(h.all hok).1, fun _ => (h.all hok).2⟩, ?_, fun hne => absurd rfl hne⟩
      rw [length_sendBuff, headerSize]
      omega
    · exact h
  | send ok =>
    rcases hsending : c.sending with _ | ⟨sendBuff, position⟩
    · rw [Channel.step, hsending]
      exact h
    · have hinv := h
      rw [Channel.Inv, hsending] at hinv
      rcases hinv with ⟨m, before, rfl, hwithin⟩
      cases ok with
      | true => exact hwithin.send hsending hin
      | false =>
        rw [Channel.step, hsending]
        refine ⟨?_, fun hok => by cases hok⟩
        exact hwithin.sublist.trans (hwithin.sent ▸ List.sublist_append_left before [m.sendBuff])
  | receive =>
    -- What is on the way was counted already.
    rcases hqueue : c.queue with _ | ⟨data, queue⟩
    · rw [Channel.step, hqueue]
      exact h
    · have harrived : (c.step .receive).arrived = c.arrived := by
        simp only [Channel.arrived, Channel.step, hqueue]
        rfl
      have hsame : (c.step .receive).sending = c.sending ∧ (c.step .receive).sent = c.sent ∧ (c.step .receive).failed = c.failed := by
        rw [Channel.step, hqueue]
        exact ⟨rfl, rfl, rfl⟩
      rw [Channel.Inv, hsame.1]
      rcases hsending : c.sending with _ | ⟨sendBuff, position⟩
      · rw [Channel.Inv, hsending] at h
        exact ⟨by rw [harrived, hsame.2.1]; exact h.sublist, by rw [harrived, hsame.2.1, hsame.2.2]; exact h.all⟩
      · rw [Channel.Inv, hsending] at h
        rcases h with ⟨m, before, hbuff, hsent, hsublist, hall, hrest, hgot⟩
        exact ⟨m, before, hbuff, hsame.2.1 ▸ hsent, by rw [harrived]; exact hsublist,
          by rw [harrived, hsame.2.2]; exact hall, hrest, by rw [harrived]; exact hgot⟩

theorem Channel.Inv.run : ∀ {steps : List Step} {c : Channel}, c.Inv → c.AllInStep steps → (c.run steps).Inv
  | [], _, h, _ => h
  | s :: _, c, h, hrun => Channel.Inv.run (c := c.step s) (h.step hrun.1) hrun.2

/-- What the callback gets are messages that were broadcast, in their order and as they were sent; when no
send has failed and everything has arrived, they are all there. -/
theorem run_received {steps : List Step} (hrun : Channel.new.AllInStep steps) :
    (Channel.new.run steps).received.Sublist (Channel.new.run steps).sent ∧
    ((Channel.new.run steps).failed = false → (Channel.new.run steps).sending = none → (Channel.new.run steps).queue = [] →
      (Channel.new.run steps).received = (Channel.new.run steps).sent) := by
  have hinv := Channel.Inv.run Channel.Inv.new hrun
  generalize Channel.new.run steps = c at hinv ⊢
  have hprefix := received_prefix c
  rw [Channel.Inv] at hinv
  constructor
  · refine hprefix.sublist.trans ?_
    split at hinv
    · exact hinv.sublist
    · rcases hinv with ⟨m, before, -, hwithin⟩
      exact hwithin.sublist.trans (hwithin.sent ▸ List.sublist_append_left before [m.sendBuff])
  · rintro hok hnone hempty
    rw [hnone] at hinv
    have harrived : c.arrived = (c.receiver, c.received) := by
      rw [Channel.arrived, hempty]
      rfl
    have hall := (hinv.all hok).1
    rwa [harrived] at hall

/-- A message of one segment, another one that is never sent, and a third. -/
def oneLost : List Step :=
  [.broadcast ⟨1, 0, [7]⟩, .send true, .broadcast ⟨2, 0, [8]⟩, .send false, .broadcast ⟨3, 0, []⟩, .receive, .send true]

theorem run_received_oneLost : (Channel.new.run oneLost).received.Sublist (Channel.new.run oneLost).sent := by
  have hrun : Channel.new.AllInStep oneLost := by
    refine ⟨trivial, ?_, trivial, trivial, trivial, trivial, ?_, trivial⟩
    · rintro sendBuff hsending
      cases hsending
      exact ⟨by decide, .inl rfl⟩
    · rintro sendBuff hsending
      cases hsending
      exact ⟨by decide, .inl rfl⟩
  exact (run_received hrun).1

/-! ## A message that is cut short -/

/-- The second segment of a message fails, and another message follows. -/
def cutShort (a b : Message) : List Step :=
  [.broadcast a, .send true, .send false, .broadcast b, .send true, .receive, .receive]

/-- When the other message has the length of what is missing the client puts the two together. -/
theorem run_cutShort {a b : Message} (hlen : a.sendBuff.length < UInt32.size) (hone : b.sendBuff.length ≤ msgDataLen)
    (hrest : a.sendBuff.length = msgDataLen + b.sendBuff.length) :
    (Channel.new.run (cutShort a b)).received = [a.sendBuff.take msgDataLen ++ b.sendBuff] ∧
      (Channel.new.run (cutShort a b)).sent = [a.sendBuff, b.sendBuff] := by
  have hb : headerSize ≤ b.sendBuff.length := by
    rw [length_sendBuff]
    omega
  have hheader : 0 < headerSize := by decide
  have hfirst : segment a.sendBuff 0 = a.sendBuff.take msgDataLen := rfl
  have hfirstLen : (a.sendBuff.take msgDataLen).length = msgDataLen := by
    rw [List.length_take]
    omega
  have hsecond : segment b.sendBuff 0 = b.sendBuff := List.take_of_length_le hone
  have hrun : Channel.new.run (cutShort a b) =
      ((Channel.mk none [a.sendBuff.take msgDataLen, b.sendBuff] ⟨[], 0⟩ [a.sendBuff, b.sendBuff] [] true).step .receive).step .receive := by
    have hmore : 0 + (a.sendBuff.take msgDataLen).length < a.sendBuff.length := by omega
    have hdone : ¬ 0 + b.sendBuff.length < b.sendBuff.length := by omega
    simp only [Channel.run, cutShort, List.foldl_cons, List.foldl_nil, Channel.new, Channel.step, if_true, List.nil_append, hfirst,
      hsecond, if_pos hmore, if_neg hdone, Bool.false_eq_true, if_false, List.cons_append]
  have hcopy := copy_segment (sequenceOf_toBytes _ _) hlen (Nat.zero_le _) (r := ⟨[], sizeOf (segment a.sendBuff 0)⟩)
    (List.take_zero).symm (sizeOf_segment hlen)
  rw [hfirst, hfirstLen, Nat.zero_add, if_pos (by omega)] at hcopy
  rcases hcopy with ⟨hgot, hleft, hnone⟩
  have hreceive : (Receiver.mk [] 0).receive (a.sendBuff.take msgDataLen) =
      Receiver.copy ⟨[], sizeOf (a.sendBuff.take msgDataLen)⟩ (a.sendBuff.take msgDataLen) := by
    rw [Receiver.receive, if_pos rfl, if_pos (by rw [hfirstLen]; exact headerSize_le_msgDataLen)]
  generalize Receiver.copy ⟨[], sizeOf (a.sendBuff.take msgDataLen)⟩ (a.sendBuff.take msgDataLen) = first at hgot hleft hnone hreceive
  have hleft : first.1.buffLen = .ofNat b.sendBuff.length := by
    apply UInt32.toNat_inj.1
    rw [hleft, UInt32.toNat_ofNat_of_lt' (by omega)]
    omega
  have hbusy : first.1.buffLen ≠ 0 := fun hz => by
    have hz := congrArg UInt32.toNat (hleft.symm.trans hz)
    rw [UInt32.toNat_ofNat_of_lt' (by omega)] at hz
    change _ = 0 at hz
    omega
  have hseq : sequenceOf (a.sendBuff.take msgDataLen ++ b.sendBuff) = 0xFFFFFFFF := by
    have hsame : (a.sendBuff.take msgDataLen ++ b.sendBuff).take 12 = a.sendBuff.take 12 := by
      have hheader : 12 ≤ msgDataLen := by decide
      rw [List.take_append_of_le_length (by rw [hfirstLen]; exact hheader), List.take_take, Nat.min_eq_left hheader]
    have hcut : ulongAt 8 ((a.sendBuff.take msgDataLen ++ b.sendBuff).take 12) = ulongAt 8 (a.sendBuff.take msgDataLen ++ b.sendBuff) :=
      ulongAt_take _ (by omega)
    rw [sequenceOf, ← hcut, hsame, ulongAt_take a.sendBuff (by omega)]
    exact sequenceOf_toBytes _ _
  have hreceive' : first.1.receive b.sendBuff = (⟨a.sendBuff.take msgDataLen ++ b.sendBuff, 0⟩,
      some (a.sendBuff.take msgDataLen ++ b.sendBuff)) := by
    rw [Receiver.receive, if_neg hbusy, Receiver.copy, hleft, if_neg (UInt32.lt_irrefl _)]
    dsimp only
    rw [UInt32.sub_self, if_neg (UInt32.lt_irrefl _), hgot, if_pos hseq]
  rw [hrun]
  simp only [Channel.step, hreceive, hnone, hreceive']
  exact ⟨rfl, trivial⟩

/-- A message of two segments, the second of which has twenty bytes. -/
def longMessage : Message := ⟨1, 0, List.replicate 65499 0⟩

/-- A message of twenty bytes. -/
def shortMessage : Message := ⟨2, 0, [1, 1, 1, 1]⟩

/-- The callback gets the short message as the end of the long one. -/
theorem not_sublist_cutShort :
    ¬ (Channel.new.run (cutShort longMessage shortMessage)).received.Sublist (Channel.new.run (cutShort longMessage shortMessage)).sent := by
  have hlong : longMessage.sendBuff.length = 65515 := by
    have hmsg : longMessage.msg.length = 65499 := List.length_replicate
    rw [length_sendBuff, hmsg, headerSize]
  have hshort : shortMessage.sendBuff.length = 20 := rfl
  have hmax : msgDataLen = 65495 := rfl
  rcases run_cutShort (a := longMessage) (b := shortMessage) (by rw [hlong]; decide) (by rw [hshort, hmax]; decide)
    (by rw [hlong, hshort, hmax]) with ⟨hreceived, hsent⟩
  rw [hreceived, hsent]
  rintro hsublist
  rcases List.mem_pair.1 (List.singleton_sublist.1 hsublist) with heq | heq
  · -- The long message ends in zeros, the short one does not.
    have hlast := congrArg List.getLast? heq
    have hzero : longMessage.sendBuff.getLast? = some 0 := by
      rw [Message.sendBuff, List.getLast?_append, longMessage, List.getLast?_replicate]
      rfl
    have hone : shortMessage.sendBuff.getLast? = some 1 := rfl
    rw [List.getLast?_append, hone, hzero] at hlast
    exact absurd hlast (by decide)
  · have hlen := congrArg List.length heq
    rw [List.length_append, List.length_take, hlong, hshort, hmax] at hlen
    exact absurd hlen (by decide)

end MajorPrivacy.Ipc
