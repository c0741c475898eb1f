/-
Calls get their own answer: on a connection that is between two calls, a call whose sequence is still in
the request buffer when it looks for it returns the reply to its own request or closes the connection,
and leaves the connection between two calls.
-/
import MajorPrivacy.Ipc.AlpcPort

namespace MajorPrivacy.Ipc

open LittleEndian

/-! ## Segments of what is sent -/

section Sent
variable (seq : UInt32)

theorem length_request (r : Request) : r.sendBuff.length = headerSize + r.body.length := by
  rw [Request.sendBuff, List.length_append, length_toBytes]

theorem length_reply (r : Reply) : r.sendBuff.length = headerSize + r.body.length := by
  rw [Reply.sendBuff, List.length_append, length_toBytes]

theorem length_request_asSent (r : Request) : (r.asSent seq).length = r.sendBuff.length := by
  rw [Request.asSent, length_request, length_request]

theorem length_reply_asSent (r : Reply) : (r.asSent seq).length = r.sendBuff.length := by
  rw [Reply.asSent, length_reply, length_reply]

/-- The first segment of a header and what follows it, with another sequence. -/
theorem putSequence_segment (h : PortMsgHeader) (body : Bytes) :
    putSequence seq (segment (h.toBytes ++ body) 0) = segment ({ h with sequence := seq }.toBytes ++ body) 0 := by
  have hle := headerSize_le_msgDataLen
  have hsplit : ∀ h : PortMsgHeader, segment (h.toBytes ++ body) 0 = h.toBytes ++ body.take (msgDataLen - headerSize) := fun h => by
    rw [segment, List.drop_zero, List.take_append, length_toBytes, List.take_of_length_le (by rw [length_toBytes]; exact hle)]
  rw [hsplit, hsplit, putSequence_toBytes]

/-- Behind the header the sequence makes no difference. -/
theorem segment_behind (h h' : PortMsgHeader) (body : Bytes) {position : Nat} (hpos : headerSize ≤ position) :
    segment (h.toBytes ++ body) position = segment (h'.toBytes ++ body) position := by
  have hdrop : ∀ h : PortMsgHeader, (h.toBytes ++ body).drop position = body.drop (position - headerSize) := fun h => by
    rw [List.drop_append, length_toBytes, List.drop_of_length_le (by rw [length_toBytes]; exact hpos), List.nil_append]
  rw [segment, segment, hdrop, hdrop]

theorem requestData_eq (r : Request) {position : Nat} (hpos : position = 0 ∨ headerSize ≤ position) :
    requestData seq r.sendBuff position = segment (r.asSent seq) position := by
  unfold requestData
  split
  · rename_i hzero
    rw [hzero]
    exact putSequence_segment seq _ _
  · rename_i hne
    exact segment_behind _ _ _ (hpos.resolve_left hne)

/-- The sequence is in the first segment of a request. -/
theorem sequenceOf_segment (r : Request) : sequenceOf (segment (r.asSent seq) 0) = seq := by
  have hcut : sequenceOf (segment (r.asSent seq) 0) = sequenceOf (r.asSent seq) := ulongAt_take _ (by decide)
  rw [hcut]
  exact sequenceOf_toBytes _ _

theorem sizeOf_segment_request {r : Request} (hlen : r.sendBuff.length < UInt32.size) :
    (sizeOf (segment (r.asSent seq) 0)).toNat = r.sendBuff.length := by
  have hcut : sizeOf (segment (r.asSent seq) 0) = sizeOf (r.asSent seq) := ulongAt_take _ (by decide)
  have hsize : sizeOf (r.asSent seq) = .ofNat (headerSize + r.body.length) := sizeOf_toBytes _ _
  rw [length_request] at hlen ⊢
  rw [hcut, hsize, UInt32.toNat_ofNat_of_lt' hlen]

theorem sizeOf_take_request (r : Request) {n : Nat} (hn : headerSize ≤ n) :
    sizeOf ((r.asSent seq).take n) = .ofNat (headerSize + r.body.length) := by
  have hheader : 4 ≤ headerSize := by decide
  have hcut : sizeOf ((r.asSent seq).take n) = sizeOf (r.asSent seq) := ulongAt_take _ (by omega)
  rw [hcut]
  exact sizeOf_toBytes _ _

end Sent

/-! ## The server -/

section Server
variable {handler : Handler} {seq : UInt32}

/-- The connection while it has a part of a request. -/
def gathering (seq : UInt32) (recvBuff : Bytes) : SPortClient := ⟨false, seq, recvBuff, [], 0⟩

/-- The connection while it has a rest of a reply. -/
def answering (seq : UInt32) (sendBuff : Bytes) (position : Nat) : SPortClient :=
  if position < sendBuff.length then ⟨true, seq, [], sendBuff, position⟩ else gathering seq []

/-- Each request for the rest of a reply gets the next segment. -/
theorem portReply_eq {r : Reply} (hlen : r.sendBuff.length < UInt32.size) {position : Nat} (hpos : position < r.sendBuff.length)
    (hheader : position = 0 ∨ headerSize ≤ position) :
    SPortClient.portReply ⟨true, seq, [], r.sendBuff, position⟩ =
      (segment (r.asSent seq) position, answering seq r.sendBuff (position + (segment (r.asSent seq) position).length)) := by
  have hsize : (sizeOf r.sendBuff).toNat = r.sendBuff.length := by
    have hsize : sizeOf r.sendBuff = .ofNat (headerSize + r.body.length) := sizeOf_toBytes _ _
    rw [length_reply] at hlen ⊢
    rw [hsize, UInt32.toNat_ofNat_of_lt' hlen]
  have hseg : (segment (r.asSent seq) position).length = (segment r.sendBuff position).length := by
    rw [length_segment, length_segment, length_reply_asSent]
  have hdata : (if position + (segment r.sendBuff position).length = (segment r.sendBuff position).length then
      putSequence seq (segment r.sendBuff position) else segment r.sendBuff position) = segment (r.asSent seq) position := by
    split
    · rename_i hfirst
      have hzero : position = 0 := by omega
      rw [hzero]
      exact putSequence_segment seq _ _
    · rename_i hnext
      exact segment_behind _ _ _ (hheader.resolve_left fun hzero => hnext (by omega))
  unfold SPortClient.portReply
  dsimp only
  rw [if_neg (by omega), hdata, hsize, hseg, answering]
  by_cases hmore : position + (segment r.sendBuff position).length < r.sendBuff.length
  · rw [if_neg (by omega), if_pos hmore]
  · rw [if_pos (by omega), if_neg hmore, gathering]

/-- A segment of a request is kept until the request is complete; then the handler runs on it, and the
first segment of its reply is the answer. -/
theorem exchange_request {r : Request} (hlen : r.sendBuff.length < UInt32.size)
    (hreply : (handler (r.asSent seq)).sendBuff.length < UInt32.size) {position : Nat} (hpos : position < r.sendBuff.length)
    (hheader : position = 0 ∨ headerSize ≤ position) {old : UInt32} (hold : position ≠ 0 → old = seq) :
    SPortClient.exchange handler (gathering old ((r.asSent seq).take position)) (segment (r.asSent seq) position) =
      if position + (segment r.sendBuff position).length < r.sendBuff.length then
        ([], gathering seq ((r.asSent seq).take (position + (segment r.sendBuff position).length)), [])
      else (segment ((handler (r.asSent seq)).asSent seq) 0,
        answering seq (handler (r.asSent seq)).sendBuff (segment ((handler (r.asSent seq)).asSent seq) 0).length, [r.asSent seq]) := by
  have hsent := length_request_asSent seq r
  have hle := headerSize_le_msgDataLen
  have hrequest := length_request r
  have hseg : (segment (r.asSent seq) position).length = (segment r.sendBuff position).length := by
    rw [length_segment, length_segment, hsent]
  have hk := length_segment r.sendBuff position
  generalize hkdef : (segment r.sendBuff position).length = k at hk hseg ⊢
  have hsizeNat : (UInt32.ofNat (headerSize + r.body.length)).toNat = r.sendBuff.length := by
    rw [← hrequest, UInt32.toNat_ofNat_of_lt' hlen]
  -- Once the segment is appended the request is complete or not.
  have happend : SPortClient.append handler (gathering seq ((r.asSent seq).take position)) (segment (r.asSent seq) position) =
      if position + k < r.sendBuff.length then (gathering seq ((r.asSent seq).take (position + k)), [])
      else (⟨true, seq, [], (handler (r.asSent seq)).sendBuff, 0⟩, [r.asSent seq]) := by
    unfold SPortClient.append
    dsimp only [gathering]
    rw [take_append_segment, hseg, sizeOf_take_request seq r (by omega)]
    have hcount : ((r.asSent seq).take (position + k)).length = position + k := by
      rw [List.length_take, hsent]
      omega
    have hlt : UInt32.ofNat ((r.asSent seq).take (position + k)).length < .ofNat (headerSize + r.body.length) ↔
        position + k < r.sendBuff.length := by
      rw [UInt32.lt_iff_toNat_lt, hsizeNat, hcount, UInt32.toNat_ofNat_of_lt' (by omega)]
    by_cases hmore : position + k < r.sendBuff.length
    · rw [if_pos (hlt.2 hmore), if_pos hmore]
    · have hall : (r.asSent seq).take (position + k) = r.asSent seq := List.take_of_length_le (by omega)
      rw [if_neg (fun h => hmore (hlt.1 h)), if_neg hmore, hall]
  have hrequested : (gathering old ((r.asSent seq).take position)).portRequest handler (segment (r.asSent seq) position) =
      SPortClient.append handler (gathering seq ((r.asSent seq).take position)) (segment (r.asSent seq) position) := by
    have htake : ((r.asSent seq).take position).length = position := by
      rw [List.length_take, hsent]
      omega
    unfold SPortClient.portRequest
    by_cases hzero : position = 0
    · subst hzero
      have hsize := sizeOf_segment_request seq hlen
      have hheaderNat : (UInt32.ofNat headerSize).toNat = headerSize := rfl
      have hne : sizeOf (segment (r.asSent seq) 0) ≠ 0 := fun hz => by
        have := congrArg UInt32.toNat hz
        rw [hsize] at this
        change _ = 0 at this
        omega
      have hfits : UInt32.ofNat headerSize ≤ sizeOf (segment (r.asSent seq) 0) := by
        rw [UInt32.le_iff_toNat_le, hsize, hheaderNat]
        omega
      have hsegment : UInt32.ofNat (segment (r.asSent seq) 0).length ≤ sizeOf (segment (r.asSent seq) 0) := by
        rw [UInt32.le_iff_toNat_le, hsize, hseg, UInt32.toNat_ofNat_of_lt' (by omega)]
        omega
      rw [if_pos (by simp [gathering])]
      dsimp only
      rw [if_pos ⟨hne, hfits, hsegment⟩, sequenceOf_segment]
      rfl
    · have hover : ¬ sizeOf ((r.asSent seq).take position) < .ofNat ((r.asSent seq).take position).length +
          .ofNat (segment (r.asSent seq) position).length := by
        rw [UInt32.not_lt, sizeOf_take_request seq r (hheader.resolve_left hzero), htake, hseg, ← UInt32.ofNat_add,
          UInt32.le_iff_toNat_le, hsizeNat, UInt32.toNat_ofNat_of_lt' (by omega)]
        omega
      have hbegun : ¬ ((r.asSent seq).take position).length = 0 := by
        rw [htake]
        exact hzero
      refine (if_neg hbegun).trans ((if_neg hover).trans ?_)
      rw [hold hzero]
  unfold SPortClient.exchange
  rw [if_neg (show ¬ (gathering old ((r.asSent seq).take position)).replying = true from Bool.false_ne_true), hrequested, happend]
  by_cases hmore : position + k < r.sendBuff.length
  · rw [if_pos hmore, if_pos hmore]
    rfl
  · have hpositive : 0 < (handler (r.asSent seq)).sendBuff.length := by
      rw [length_reply, headerSize]
      omega
    rw [if_neg hmore, if_neg hmore]
    dsimp only
    rw [if_pos rfl, portReply_eq hreply hpositive (.inl rfl), Nat.zero_add]

theorem exchange_answering {r : Reply} (hlen : r.sendBuff.length < UInt32.size) {position : Nat} (hpos : position < r.sendBuff.length)
    (hheader : position = 0 ∨ headerSize ≤ position) (data : Bytes) :
    SPortClient.exchange handler (answering seq r.sendBuff position) data =
      (segment (r.asSent seq) position, answering seq r.sendBuff (position + (segment (r.asSent seq) position).length), []) := by
  have hrest : answering seq r.sendBuff position = ⟨true, seq, [], r.sendBuff, position⟩ := if_pos hpos
  unfold SPortClient.exchange
  rw [hrest]
  dsimp only
  rw [if_pos rfl]
  dsimp only
  rw [if_pos rfl, portReply_eq hlen hpos hheader]

end Server

/-! ## A call -/

section Call
variable {handler : Handler} {seq : UInt32}

/-- One segment of the answer. -/
theorem readReply_segment {r : Reply} (hlen : r.sendBuff.length < UInt32.size) {position : Nat} (hpos : position < r.sendBuff.length)
    {buffLen : UInt32} (hleft : buffLen.toNat = r.sendBuff.length - position) (handled : List Bytes) (transfers : List Transfer) :
    readReply handler (answering seq r.sendBuff (position + (segment (r.asSent seq) position).length)) handled
        ((r.asSent seq).take position) buffLen (segment (r.asSent seq) position) transfers =
      if position + (segment (r.asSent seq) position).length < r.sendBuff.length then
        match transfers with
        | [] => none
        | .notSent :: _ => some ⟨.err, none, handled⟩
        | .notAnswered :: _ => some ⟨.err, none, handled ++ []⟩
        | .answered :: transfers =>
          readReply handler (answering seq r.sendBuff (position + (segment (r.asSent seq) position).length +
              (segment (r.asSent seq) (position + (segment (r.asSent seq) position).length)).length)) (handled ++ [])
            ((r.asSent seq).take (position + (segment (r.asSent seq) position).length))
            (buffLen - .ofNat (segment (r.asSent seq) position).length)
            (segment (r.asSent seq) (position + (segment (r.asSent seq) position).length)) transfers
      else some ⟨.ok (r.asSent seq), some (gathering seq []), handled⟩ := by
  have hsent := length_reply_asSent seq r
  have hseg := length_segment (r.asSent seq) position
  have hheader := headerSize_le_msgDataLen
  have hgot := take_append_segment (r.asSent seq) position
  generalize hk : (segment (r.asSent seq) position).length = k at hseg hgot ⊢
  have hkNat : (UInt32.ofNat k).toNat = k := UInt32.toNat_ofNat_of_lt' (by omega)
  have hfits : ¬ buffLen < .ofNat k := by
    rw [UInt32.lt_iff_toNat_lt, hkNat]
    omega
  have hsub : (buffLen - .ofNat k).toNat = r.sendBuff.length - (position + k) := by
    rw [UInt32.toNat_sub_of_le _ _ (UInt32.not_lt.1 hfits), hkNat]
    omega
  have hdone : buffLen - .ofNat k = 0 ↔ ¬ position + k < r.sendBuff.length := by
    rw [← UInt32.toNat_inj, hsub]
    change _ = 0 ↔ _
    omega
  rw [readReply.eq_def, hk, if_neg hfits]
  dsimp only
  rw [hgot]
  by_cases hmore : position + k < r.sendBuff.length
  · have hnext : headerSize ≤ position + k := by
      have hreply := length_reply r
      omega
    rw [if_neg (fun h => hdone.1 h hmore), if_pos hmore, exchange_answering hlen hmore (.inr hnext)]
    all_goals rcases transfers with _ | ⟨_ | _ | _, transfers⟩ <;> rfl
  · have hall : (r.asSent seq).take (position + k) = r.asSent seq := List.take_of_length_le (by omega)
    have hidle : answering seq r.sendBuff (position + k) = gathering seq [] := if_neg hmore
    rw [if_pos (hdone.2 hmore), if_neg hmore, hall, hidle]

/-- The answer is read segment by segment, unless a send fails; with enough sends that do not fail the
call returns. -/
theorem readReply_spec (handler : Handler) (seq : UInt32) {r : Reply} (hlen : r.sendBuff.length < UInt32.size) (handled : List Bytes) (transfers : List Transfer) :
    ∀ {position : Nat} {buffLen : UInt32}, position < r.sendBuff.length → buffLen.toNat = r.sendBuff.length - position →
    (∀ called, readReply handler (answering seq r.sendBuff (position + (segment (r.asSent seq) position).length)) handled
        ((r.asSent seq).take position) buffLen (segment (r.asSent seq) position) transfers = some called →
      called = ⟨.ok (r.asSent seq), some (gathering seq []), handled⟩ ∨
        called = ⟨.err, none, handled⟩ ∧ ∃ t ∈ transfers, t ≠ .answered) ∧
    ((∀ t ∈ transfers, t = .answered) → r.sendBuff.length - position ≤ transfers.length + 1 →
      readReply handler (answering seq r.sendBuff (position + (segment (r.asSent seq) position).length)) handled
        ((r.asSent seq).take position) buffLen (segment (r.asSent seq) position) transfers ≠ none) := by
  induction transfers with
  | nil =>
    intro position buffLen hpos hleft
    have hseg := length_segment (r.asSent seq) position
    have hsent := length_reply_asSent seq r
    have hpositive : 0 < msgDataLen := by decide
    rw [readReply_segment hlen hpos hleft]
    split
    · exact ⟨fun called h => (by cases h), fun _ (hcount : _ ≤ 0 + 1) => by omega⟩
    · exact ⟨fun called h => .inl (Option.some.inj h).symm, fun _ _ h => by cases h⟩
  | cons t transfers ih =>
    intro position buffLen hpos hleft
    have hseg := length_segment (r.asSent seq) position
    have hsent := length_reply_asSent seq r
    have hpositive : 0 < msgDataLen := by decide
    rw [readReply_segment hlen hpos hleft]
    split
    · rename_i hmore
      cases t with
      | notSent => exact ⟨fun called h => .inr ⟨(Option.some.inj h).symm, _, List.mem_cons_self, by decide⟩, fun _ _ h => by cases h⟩
      | notAnswered =>
        refine ⟨fun called h => .inr ⟨?_, _, List.mem_cons_self, by decide⟩, fun _ _ h => by cases h⟩
        rw [← Option.some.inj h, List.append_nil]
      | answered =>
        have hkNat : (UInt32.ofNat (segment (r.asSent seq) position).length).toNat = (segment (r.asSent seq) position).length :=
          UInt32.toNat_ofNat_of_lt' (by omega)
        have hsub : (buffLen - .ofNat (segment (r.asSent seq) position).length).toNat =
            r.sendBuff.length - (position + (segment (r.asSent seq) position).length) := by
          rw [UInt32.toNat_sub_of_le _ _ (by rw [UInt32.le_iff_toNat_le, hkNat]; omega), hkNat]
          omega
        rcases ih hmore hsub with ⟨hresult, hwaits⟩
        dsimp only
        rw [List.append_nil]
        refine ⟨fun called h => ?_, fun hall hcount => hwaits (fun t ht => hall t (List.mem_cons_of_mem _ ht)) ?_⟩
        · rcases hresult called h with h | ⟨h, t, ht, hne⟩
          · exact .inl h
          · exact .inr ⟨h, t, List.mem_cons_of_mem _ ht, hne⟩
        · rw [List.length_cons] at hcount
          omega
    · exact ⟨fun called h => .inl (Option.some.inj h).symm, fun _ _ h => by cases h⟩

theorem segmentCount_more {n : Nat} (h : msgDataLen < n) : segmentCount n = segmentCount (n - msgDataLen) + 1 := by
  have hsplit : n + (msgDataLen - 1) = n - msgDataLen + (msgDataLen - 1) + msgDataLen := by omega
  rw [segmentCount, segmentCount, hsplit, Nat.add_div_right _ (by decide)]

theorem segmentCount_last {n : Nat} (hpos : 0 < n) (hle : n ≤ msgDataLen) : segmentCount n = 1 :=
  Nat.div_eq_of_lt_le (by omega) (by omega)

/-- The request is sent segment by segment: the call waits in it, a send of it fails, or the first segment
of the reply comes back. -/
theorem sendRequest_cases {r : Request} (hlen : r.sendBuff.length < UInt32.size)
    (hreply : (handler (r.asSent seq)).sendBuff.length < UInt32.size) (transfers : List Transfer) :
    ∀ (position : Nat) (old : UInt32) (reqData : Bytes) (rounds : Nat), position < r.sendBuff.length →
    (position = 0 ∨ headerSize ≤ position) → (position ≠ 0 → old = seq) → r.sendBuff.length - position ≤ rounds →
    (sendRequest handler seq r.sendBuff (gathering old ((r.asSent seq).take position)) [] reqData position transfers = none ∧
      transfers.length < segmentCount (r.sendBuff.length - position)) ∨
    (∃ handled, (handled = [] ∨ handled = [r.asSent seq]) ∧
      sendRequest handler seq r.sendBuff (gathering old ((r.asSent seq).take position)) [] reqData position transfers =
        some ⟨.err, none, handled⟩ ∧ ∃ t ∈ transfers.take (segmentCount (r.sendBuff.length - position)), t ≠ .answered) ∨
    ((∀ t ∈ transfers.take (segmentCount (r.sendBuff.length - position)), t = .answered) ∧
      sendRequest handler seq r.sendBuff (gathering old ((r.asSent seq).take position)) [] reqData position transfers =
        finishCall handler seq
          (answering seq (handler (r.asSent seq)).sendBuff (segment ((handler (r.asSent seq)).asSent seq) 0).length) [r.asSent seq]
          (requestBuffer seq r.sendBuff rounds position reqData) (segment ((handler (r.asSent seq)).asSent seq) 0)
          (transfers.drop (segmentCount (r.sendBuff.length - position)))) := by
  induction transfers with
  | nil =>
    intro position old reqData rounds hpos hheader hold hrounds
    refine .inl ⟨rfl, ?_⟩
    exact Nat.div_pos (by omega) (by decide)
  | cons t transfers ih =>
    intro position old reqData rounds hpos hheader hold hrounds
    have hk := length_segment r.sendBuff position
    have hle := headerSize_le_msgDataLen
    have hpositive : 0 < headerSize := by decide
    have hcount : ∃ n, segmentCount (r.sendBuff.length - position) = n + 1 := by
      refine ⟨segmentCount (r.sendBuff.length - position) - 1, ?_⟩
      have : 0 < segmentCount (r.sendBuff.length - position) := Nat.div_pos (by omega) (by decide)
      omega
    have hexchange := exchange_request hlen hreply hpos hheader hold
    rw [← requestData_eq seq r hheader] at hexchange
    cases t with
    | notSent =>
      rcases hcount with ⟨n, hn⟩
      rw [hn]
      exact .inr (.inl ⟨[], .inl rfl, rfl, _, List.mem_cons_self, by decide⟩)
    | notAnswered =>
      rcases hcount with ⟨n, hn⟩
      rw [hn, sendRequest]
      dsimp only
      rw [hexchange]
      refine .inr (.inl ⟨_, ?_, rfl, _, List.mem_cons_self, by decide⟩)
      split
      · exact .inl rfl
      · exact .inr rfl
    | answered =>
      rw [sendRequest]
      dsimp only
      rw [hexchange]
      cases rounds with
      | zero => omega
      | succ rounds =>
        rw [requestBuffer]
        by_cases hmore : position + (segment r.sendBuff position).length < r.sendBuff.length
        · have hlast : (segment r.sendBuff position).length = msgDataLen := by omega
          have hnext := segmentCount_more (n := r.sendBuff.length - position) (by omega)
          rw [Nat.sub_sub, ← hlast] at hnext
          simp only [if_pos hmore, List.length_nil, ne_eq, not_true, if_false, List.nil_append]
          rw [hnext, List.take_succ_cons, List.drop_succ_cons, List.length_cons]
          rcases ih _ seq (copyOver (requestData seq r.sendBuff position) reqData) rounds hmore (.inr (by omega)) (fun _ => rfl)
            (by omega) with ⟨hnone, hlt⟩ | ⟨handled, hhandled, hfail, t, ht, hne⟩ | ⟨hall, hfinish⟩
          · exact .inl ⟨hnone, by omega⟩
          · exact .inr (.inl ⟨handled, hhandled, hfail, t, List.mem_cons_of_mem _ ht, hne⟩)
          · refine .inr (.inr ⟨fun t ht => ?_, hfinish⟩)
            rcases List.mem_cons.1 ht with rfl | ht
            · rfl
            · exact hall t ht
        · have hone := segmentCount_last (n := r.sendBuff.length - position) (by omega) (by omega)
          simp only [if_neg hmore, List.nil_append]
          rw [hone]
          refine .inr (.inr ⟨fun t ht => ?_, rfl⟩)
          rcases List.mem_singleton.1 ht with rfl
          rfl

theorem sizeOf_segment_reply {r : Reply} (hlen : r.sendBuff.length < UInt32.size) :
    (sizeOf (segment (r.asSent seq) 0)).toNat = r.sendBuff.length := by
  have hcut : sizeOf (segment (r.asSent seq) 0) = sizeOf (r.asSent seq) := ulongAt_take _ (by decide)
  have hsize : sizeOf (r.asSent seq) = .ofNat (headerSize + r.body.length) := sizeOf_toBytes _ _
  rw [length_reply] at hlen ⊢
  rw [hcut, hsize, UInt32.toNat_ofNat_of_lt' hlen]

/-- The first segment of a reply is taken for one unless the sequence is gone from the request buffer. -/
theorem finishCall_eq {r : Reply} (hlen : r.sendBuff.length < UInt32.size) (handled : List Bytes) (reqData : Bytes)
    (transfers : List Transfer) :
    finishCall handler seq (answering seq r.sendBuff (segment (r.asSent seq) 0).length) handled reqData (segment (r.asSent seq) 0)
      transfers =
    if sequenceOf reqData ≠ seq then some ⟨.err, some (answering seq r.sendBuff (segment (r.asSent seq) 0).length), handled⟩
    else readReply handler (answering seq r.sendBuff (0 + (segment (r.asSent seq) 0).length)) handled ((r.asSent seq).take 0)
      (sizeOf (segment (r.asSent seq) 0)) (segment (r.asSent seq) 0) transfers := by
  have hreply := length_reply r
  have hsent := length_reply_asSent seq r
  have hseg := length_segment (r.asSent seq) 0
  have hle := headerSize_le_msgDataLen
  have hpositive : 0 < headerSize := by decide
  have hne : sizeOf (segment (r.asSent seq) 0) ≠ 0 := fun hz => by
    have hsize : (sizeOf (segment (r.asSent seq) 0)).toNat = _ := sizeOf_segment_reply hlen
    rw [hz] at hsize
    change 0 = _ at hsize
    omega
  rw [finishCall, if_pos (by omega), if_neg hne, Nat.zero_add, List.take_zero]

/-- In a request of one segment the sequence stays where it was put. -/
theorem sequenceOf_requestBuffer (r : Request) (hone : r.sendBuff.length ≤ msgDataLen) :
    sequenceOf (requestBuffer seq r.sendBuff r.sendBuff.length 0 []) = seq := by
  have hrequest := length_request r
  have hseg := length_segment r.sendBuff 0
  have hlast : ¬ 0 + (segment r.sendBuff 0).length < r.sendBuff.length := by omega
  have hbuffer : ∀ rounds, requestBuffer seq r.sendBuff (rounds + 1) 0 [] = segment (r.asSent seq) 0 := fun rounds => by
    rw [requestBuffer]
    simp only [if_neg hlast, copyOver, List.drop_nil, List.append_nil]
    exact requestData_eq seq r (.inl rfl)
  rw [hrequest, Nat.add_comm, headerSize, hbuffer]
  exact sequenceOf_segment seq r

end Call

/-! ## Runs -/

/-- What a call asks for and gets is no more than a header can say, and its sequence is in the request
buffer when it looks for it: the request is one segment, or its last segments happen to leave it there, or
a send fails before. -/
def Client.InStep (c : Client) (e : CallEvent) : Prop :=
  (c.connection e).isSome → e.request.sendBuff.length < UInt32.size ∧
    (e.handler (e.request.asSent c.callSeqNumber)).sendBuff.length < UInt32.size ∧
    (e.request.sendBuff.length ≤ msgDataLen ∨
      sequenceOf (requestBuffer c.callSeqNumber e.request.sendBuff e.request.sendBuff.length 0 []) = c.callSeqNumber ∨
      ∃ t ∈ e.transfers.take (segmentCount e.request.sendBuff.length), t ≠ .answered)

def Client.AllInStep : Client → List CallEvent → Prop
  | _, [] => True
  | c, e :: events => c.InStep e ∧ ∀ called c', c.call e = some (called, c') → c'.AllInStep events

/-- The reply of the handler to the request, as the call returns it. -/
def CallEvent.reply (e : CallEvent) (seq : UInt32) : Bytes := (e.handler (e.request.asSent seq)).asSent seq

/-- The client with a new connection, if it has one. -/
def Client.renewed (c : Client) : Client := { c with port := c.port.map fun _ => .new }

/-- A call fails or returns the reply to its request, the handler runs at most once and on the request,
the calls before make no difference, and without a failed send the reply comes back. -/
structure Client.Served (c : Client) (e : CallEvent) : Prop where
  answer : ∀ called c', c.call e = some (called, c') → called.result = .err ∨
    called.result = .ok (e.reply c.callSeqNumber) ∧ called.handled = [e.request.asSent c.callSeqNumber]
  once : ∀ called c', c.call e = some (called, c') → called.handled = [] ∨ called.handled = [e.request.asSent c.callSeqNumber]
  independent : c.call e = c.renewed.call e
  succeeds : (c.connection e).isSome → (∀ t ∈ e.transfers, t = .answered) →
    e.request.sendBuff.length + (e.reply c.callSeqNumber).length ≤ e.transfers.length →
    ∃ c', c.call e = some (⟨.ok (e.reply c.callSeqNumber), c'.port, [e.request.asSent c.callSeqNumber]⟩, c')

/-- The connection is between two calls. -/
def Client.Idle (c : Client) : Prop := ∀ p, c.port = some p → ∃ seq, p = gathering seq []

theorem Client.Idle.new : Client.new.Idle := by
  rintro p hp
  cases hp
  exact ⟨0, rfl⟩

theorem Client.Idle.connection {c : Client} (h : c.Idle) {e : CallEvent} {p : SPortClient} (hp : c.connection e = some p) :
    ∃ seq, p = gathering seq [] := by
  unfold Client.connection at hp
  split at hp
  · rename_i q hport
    cases hp
    exact h _ hport
  · split at hp
    · cases hp
      exact ⟨0, rfl⟩
    · cases hp

/-- What the first segment of a request finds of the connection is overwritten. -/
theorem sendRequest_renewed (handler : Handler) (seq old : UInt32) (sendBuff : Bytes) (transfers : List Transfer) :
    sendRequest handler seq sendBuff (gathering old []) [] [] 0 transfers = sendRequest handler seq sendBuff .new [] [] 0 transfers := by
  rcases transfers with _ | ⟨_ | _ | _, transfers⟩ <;> rfl

theorem Client.Idle.call_renewed {c : Client} (h : c.Idle) (e : CallEvent) : c.call e = c.renewed.call e := by
  rcases hport : c.port with _ | p
  · have hsame : c.renewed = c := by
      rw [Client.renewed, hport]
      cases c
      cases hport
      rfl
    rw [hsame]
  · rcases h p hport with ⟨old, rfl⟩
    have hold : c.connection e = some (gathering old []) := by
      rw [Client.connection, hport]
    have hnew : c.renewed.connection e = some .new := by
      rw [Client.connection, Client.renewed, hport]
      rfl
    rw [Client.call, Client.call, hold, hnew]
    dsimp only
    rw [sendRequest_renewed]
    rfl

theorem call_port {c c' : Client} {e : CallEvent} {called : Called} (hcall : c.call e = some (called, c'))
    (hp : (c.connection e).isSome) : c'.port = called.port := by
  rw [Client.call] at hcall
  split at hcall
  · rename_i hnone
    rw [hnone] at hp
    cases hp
  · split at hcall
    · cases hcall
    · cases hcall
      rfl

theorem call_eq {c : Client} {e : CallEvent} {p : SPortClient} (hp : c.connection e = some p) :
    c.call e = (sendRequest e.handler c.callSeqNumber e.request.sendBuff p [] [] 0 e.transfers).map
      fun called => (called, ⟨called.port, c.callSeqNumber + 1⟩) := by
  rw [Client.call, hp]
  dsimp only
  split
  · rename_i hnone
    rw [hnone]
    rfl
  · rename_i called hsome
    rw [hsome]
    rfl

/-- A call whose sequence is gone from the request buffer fails, whatever the handler has answered. -/
theorem Client.Idle.call_gone {c : Client} (h : c.Idle) {e : CallEvent} {p : SPortClient} (hp : c.connection e = some p)
    (hlen : e.request.sendBuff.length < UInt32.size)
    (hreply : (e.handler (e.request.asSent c.callSeqNumber)).sendBuff.length < UInt32.size)
    (hseq : sequenceOf (requestBuffer c.callSeqNumber e.request.sendBuff e.request.sendBuff.length 0 []) ≠ c.callSeqNumber)
    {called : Called} {c' : Client} (hcall : c.call e = some (called, c')) : called.result = .err := by
  rcases h.connection hp with ⟨old, rfl⟩
  have hpositive : 0 < e.request.sendBuff.length := by
    rw [length_request, headerSize]
    omega
  have hcases := sendRequest_cases hlen hreply e.transfers 0 old [] e.request.sendBuff.length hpositive (.inl rfl)
    (fun hne => absurd rfl hne) (by omega)
  rw [List.take_zero] at hcases
  rw [call_eq hp] at hcall
  rcases Option.map_eq_some_iff.1 hcall with ⟨called', hsend, heq⟩
  cases heq
  rcases hcases with ⟨hnone, -⟩ | ⟨handled, -, hfail, -⟩ | ⟨-, hfinish⟩
  · rw [hnone] at hsend
    cases hsend
  · rw [hfail] at hsend
    cases hsend
    rfl
  · rw [hfinish, finishCall_eq hreply, if_pos hseq] at hsend
    cases hsend
    rfl

/-- What a call leads to when it starts between two calls: the connection is then closed, or again
between two calls. -/
theorem Client.Idle.call_cases {c : Client} (h : c.Idle) {e : CallEvent} (hin : c.InStep e) {p : SPortClient}
    (hp : c.connection e = some p) :
    (∀ called c', c.call e = some (called, c') →
      (∃ handled, called = ⟨.err, none, handled⟩ ∧ (handled = [] ∨ handled = [e.request.asSent c.callSeqNumber]) ∧
        ∃ t ∈ e.transfers, t ≠ .answered) ∨
      called = ⟨.ok (e.reply c.callSeqNumber), some (gathering c.callSeqNumber []), [e.request.asSent c.callSeqNumber]⟩) ∧
    ((∀ t ∈ e.transfers, t = .answered) → e.request.sendBuff.length + (e.reply c.callSeqNumber).length ≤ e.transfers.length →
      c.call e ≠ none) := by
  rcases h.connection hp with ⟨old, rfl⟩
  rcases hin (by rw [hp]; rfl) with ⟨hlen, hreply, hcheck⟩
  have hcall := call_eq hp
  have hpositive : 0 < e.request.sendBuff.length := by
    rw [length_request, headerSize]
    omega
  have hreplyPositive : 0 < (e.handler (e.request.asSent c.callSeqNumber)).sendBuff.length := by
    rw [length_reply, headerSize]
    omega
  have hreplyLen : (e.reply c.callSeqNumber).length = (e.handler (e.request.asSent c.callSeqNumber)).sendBuff.length :=
    length_reply_asSent _ _
  rw [hcall]
  have hcases := sendRequest_cases hlen hreply e.transfers 0 old [] e.request.sendBuff.length hpositive (.inl rfl)
    (fun hne => absurd rfl hne) (by omega)
  rw [List.take_zero, Nat.sub_zero] at hcases
  have hcount : segmentCount e.request.sendBuff.length ≤ e.request.sendBuff.length := by
    have hmax : msgDataLen = 65495 := rfl
    rw [segmentCount, hmax]
    omega
  rcases hcases with ⟨hnone, hlt⟩ | ⟨handled, hhandled, hfail, t, ht, hne⟩ | ⟨hall, hfinish⟩
  · rw [hnone]
    exact ⟨fun called c' hc => (by cases hc), fun _ hlong => by omega⟩
  · rw [hfail]
    refine ⟨fun called c' hc => .inl ⟨handled, ?_, hhandled, t, List.mem_of_mem_take ht, hne⟩, fun _ _ hc => by cases hc⟩
    exact (congrArg Prod.fst (Option.some.inj hc)).symm
  · have hseq : ¬ sequenceOf (requestBuffer c.callSeqNumber e.request.sendBuff e.request.sendBuff.length 0 []) ≠ c.callSeqNumber := by
      rcases hcheck with hone | hsame | ⟨t, ht, hne⟩
      · exact not_not.2 (sequenceOf_requestBuffer e.request hone)
      · exact not_not.2 hsame
      · exact absurd (hall t ht) hne
    rw [hfinish, finishCall_eq hreply, if_neg hseq]
    rcases readReply_spec e.handler c.callSeqNumber hreply [e.request.asSent c.callSeqNumber]
      (e.transfers.drop (segmentCount e.request.sendBuff.length)) hreplyPositive (sizeOf_segment_reply hreply) with ⟨hresult, hwaits⟩
    constructor
    · rintro called c' hc
      rcases Option.map_eq_some_iff.1 hc with ⟨called', hread, heq⟩
      cases heq
      rcases hresult _ hread with hok | ⟨herr, t, ht, hne⟩
      · exact .inr hok
      · exact .inl ⟨_, herr, .inr rfl, t, List.mem_of_mem_drop ht, hne⟩
    · rintro hanswered hlong hnone
      refine hwaits (fun t ht => hanswered t (List.mem_of_mem_drop ht)) ?_ (Option.map_eq_none_iff.1 hnone)
      rw [List.length_drop]
      omega

theorem Client.Idle.served {c : Client} (h : c.Idle) {e : CallEvent} (hin : c.InStep e) : c.Served e := by
  rcases hp : c.connection e with _ | p
  · have hcall : c.call e = some (⟨.err, none, []⟩, c) := by
      rw [Client.call, hp]
    refine ⟨fun called c' hc => .inl ?_, fun called c' hc => .inl ?_, h.call_renewed e, fun hsome => by rw [hp] at hsome; cases hsome⟩
    · rw [hcall] at hc
      cases hc
      rfl
    · rw [hcall] at hc
      cases hc
      rfl
  · rcases h.call_cases hin hp with ⟨hresult, hwaits⟩
    refine ⟨fun called c' hc => ?_, fun called c' hc => ?_, h.call_renewed e, fun _ hall hlong => ?_⟩
    · rcases hresult called c' hc with ⟨handled, rfl, -⟩ | rfl
      · exact .inl rfl
      · exact .inr ⟨rfl, rfl⟩
    · rcases hresult called c' hc with ⟨handled, rfl, hhandled, -⟩ | rfl
      · exact hhandled
      · exact .inr rfl
    · rcases hcall : c.call e with _ | ⟨called, c'⟩
      · exact absurd hcall (hwaits hall hlong)
      · have hport : c'.port = called.port := call_port hcall (by rw [hp]; rfl)
        rcases hresult called c' hcall with ⟨handled, rfl, -, t, ht, hne⟩ | rfl
        · exact absurd (hall t ht) hne
        · exact ⟨c', by rw [hport]⟩

theorem Client.Idle.call {c c' : Client} (h : c.Idle) {e : CallEvent} (hin : c.InStep e) {called : Called}
    (hcall : c.call e = some (called, c')) : c'.Idle := by
  rcases hp : c.connection e with _ | p
  · rw [Client.call, hp] at hcall
    cases hcall
    exact h
  · have hport : c'.port = called.port := call_port hcall (by rw [hp]; rfl)
    rintro q hq
    rw [hport] at hq
    rcases (h.call_cases hin hp).1 called c' hcall with ⟨handled, rfl, -⟩ | rfl
    · cases hq
    · cases hq
      exact ⟨_, rfl⟩

theorem Client.Idle.run : ∀ {before : List CallEvent} {c c' : Client} {after : List CallEvent}, c.Idle →
    c.AllInStep (before ++ after) → c.run before = some c' → c'.Idle ∧ c'.AllInStep after
  | [], _, _, _, h, hrun, hc => by
    cases hc
    exact ⟨h, hrun⟩
  | e :: before, c, c', after, h, ⟨hin, hrest⟩, hc => by
    rw [Client.run] at hc
    rcases hcall : c.call e with _ | ⟨called, next⟩
    · rw [hcall] at hc
      cases hc
    · rw [hcall] at hc
      exact Client.Idle.run (h.call hin hcall) (hrest called next hcall) hc

/-- In a run of calls that are all in step each call gets its own answer. -/
theorem run_served {events : List CallEvent} (hrun : Client.new.AllInStep events) {before after : List CallEvent} {e : CallEvent}
    (hevents : events = before ++ e :: after) {c : Client} (hc : Client.new.run before = some c) : c.Served e := by
  subst hevents
  rcases Client.Idle.new.run hrun hc with ⟨hidle, hin, -⟩
  exact hidle.served hin

/-- A handler that answers with a header. -/
def emptyReply : Handler := fun _ => ⟨0, 0, 0, []⟩

/-- A request of one segment, to which the reply does not come back. -/
def failedCall : CallEvent := ⟨⟨1, 0, 0, [1]⟩, emptyReply, [.notAnswered], true⟩

/-- A request of one segment on a new connection. -/
def nextCall : CallEvent := ⟨⟨2, 0, 0, [2]⟩, emptyReply, List.replicate 40 .answered, true⟩

theorem run_served_nextCall : (⟨none, 1⟩ : Client).Served nextCall := by
  have hsmall : ∀ (c : Client), c.InStep failedCall ∧ c.InStep nextCall := by
    rintro c
    refine ⟨fun _ => ⟨?_, ?_, .inl ?_⟩, fun _ => ⟨?_, ?_, .inl ?_⟩⟩ <;>
      simp only [length_request, length_reply, failedCall, nextCall, emptyReply] <;> decide
  have hrun : Client.new.AllInStep [failedCall, nextCall] :=
    ⟨(hsmall _).1, fun _ _ _ => ⟨(hsmall _).2, fun _ _ _ => trivial⟩⟩
  have hevents : [failedCall, nextCall] = [failedCall] ++ nextCall :: [] := rfl
  exact run_served hrun hevents rfl

/-- A request of two segments, the second of which has 21 bytes, and all the replies it takes. -/
def twoSegments : CallEvent := ⟨⟨1, 0, 0, List.replicate 65500 1⟩, emptyReply, List.replicate 70000 .answered, false⟩

/-- The second segment takes the place of the first one in the request buffer, its sequence included. -/
theorem sequenceOf_twoSegments :
    sequenceOf (requestBuffer 0 twoSegments.request.sendBuff twoSegments.request.sendBuff.length 0 []) = 0x01010101 := by
  have hlen : twoSegments.request.sendBuff.length = 65514 + 2 := by
    have hbody : twoSegments.request.body.length = 65500 := List.length_replicate
    rw [length_request, hbody, headerSize]
  have hmax : msgDataLen = 65495 := rfl
  have hfirst : (segment twoSegments.request.sendBuff 0).length = 65495 := by
    rw [length_segment, hlen, hmax]
    omega
  have hsecond : segment twoSegments.request.sendBuff 65495 = List.replicate 21 1 := by
    have hsplit : 65495 = 16 + 65479 := rfl
    have hbody : twoSegments.request.sendBuff.drop 16 = List.replicate 65500 1 := List.drop_left' (length_toBytes _)
    rw [segment, hsplit, ← List.drop_drop, hbody, List.drop_replicate, List.take_replicate, hmax]
    congr 1
  have hbuffer : ∀ rounds, requestBuffer 0 twoSegments.request.sendBuff (rounds + 2) 0 [] =
      copyOver (List.replicate 21 1) (copyOver (requestData 0 twoSegments.request.sendBuff 0) []) := fun rounds => by
    rw [requestBuffer, requestBuffer]
    simp only [hfirst, hlen, Nat.zero_add]
    rw [if_pos (by decide), hsecond, if_neg (by decide), requestData, if_neg (by decide), hsecond]
  rw [hlen, hbuffer, copyOver]
  generalize (copyOver (requestData 0 twoSegments.request.sendBuff 0) []).drop (List.replicate 21 (1 : UInt8)).length = rest
  have hcut : ulongAt 8 ((List.replicate 21 1 ++ rest).take 21) = ulongAt 8 (List.replicate 21 1 ++ rest) := ulongAt_take _ (by decide)
  rw [List.take_left' List.length_replicate] at hcut
  exact hcut.symm.trans (by decide)

/-- The reply comes back, and the call fails. -/
theorem not_served_twoSegments : ¬ Client.new.Served twoSegments := by
  rintro hserved
  have hall : ∀ t ∈ twoSegments.transfers, t = .answered := fun t ht => List.eq_of_mem_replicate ht
  have hlen : twoSegments.request.sendBuff.length = 65516 := by
    have hbody : twoSegments.request.body.length = 65500 := List.length_replicate
    rw [length_request, hbody, headerSize]
  have htransfers : twoSegments.transfers.length = 70000 := List.length_replicate
  have hreply : (twoSegments.handler (twoSegments.request.asSent 0)).sendBuff.length < UInt32.size := by decide
  have hlong : twoSegments.request.sendBuff.length + (twoSegments.reply 0).length ≤ twoSegments.transfers.length := by
    have hanswer : (twoSegments.reply 0).length = 16 := rfl
    omega
  have hseq : Client.new.callSeqNumber = 0 := rfl
  have hconnection : Client.new.connection twoSegments = some .new := rfl
  have hsucceeds := hserved.succeeds
  rw [hseq, hconnection] at hsucceeds
  rcases hsucceeds rfl hall hlong with ⟨c', hc⟩
  have hgone : sequenceOf (requestBuffer 0 twoSegments.request.sendBuff twoSegments.request.sendBuff.length 0 []) ≠ 0 := by
    rw [sequenceOf_twoSegments]
    decide
  have herr := Client.Idle.new.call_gone hconnection (by rw [hlen]; decide) hreply hgone hc
  cases herr

end MajorPrivacy.Ipc
