/-
A connection of `CAlpcPortClient` to `CAlpcPortServer`. `Call` sends a request segment by segment and
waits for a reply to each; the server collects the segments, runs the handler on the whole and answers
with the segments of its reply, one for each message it gets.
-/
import MajorPrivacy.Ipc.PortMessage

namespace MajorPrivacy.Ipc

open LittleEndian

/-! ## The server -/

/-- What a handler leaves in `sendBuff`; the sequence in it is what the memory of the header held. -/
structure Reply where
  status : UInt32
  sequence : UInt32
  reserved : UInt32
  body : Bytes

/-- `sendBuff` after `CallTarget`. -/
def Reply.sendBuff (r : Reply) : Bytes :=
  PortMsgHeader.toBytes ⟨.ofNat (headerSize + r.body.length), r.status, r.sequence, r.reserved⟩ ++ r.body

abbrev Handler := Bytes → Reply

structure SPortClient where
  replying : Bool
  sequence : UInt32
  recvBuff : Bytes
  sendBuff : Bytes
  position : Nat

def SPortClient.new : SPortClient := ⟨false, 0, [], [], 0⟩

namespace SPortClient

/-- The end of `PortRequest`, with what the handler was run on. -/
def append (handler : Handler) (p : SPortClient) (data : Bytes) : SPortClient × List Bytes :=
  let recvBuff := p.recvBuff ++ data
  if UInt32.ofNat recvBuff.length < sizeOf recvBuff then ({ p with recvBuff }, [])
  else ({ p with recvBuff := [], sendBuff := (handler recvBuff).sendBuff, position := 0, replying := true }, [recvBuff])

/-- `PortRequest`. -/
def portRequest (handler : Handler) (p : SPortClient) (data : Bytes) : SPortClient × List Bytes :=
  if p.recvBuff.length = 0 then
    let totalSize := sizeOf data
    if totalSize ≠ 0 ∧ .ofNat headerSize ≤ totalSize ∧ .ofNat data.length ≤ totalSize then
      append handler { p with sequence := sequenceOf data, recvBuff := [] } data
    else ({ p with sequence := 0, replying := true }, [])
  else if sizeOf p.recvBuff < .ofNat p.recvBuff.length + .ofNat data.length then ({ p with replying := true }, [])
  else append handler p data

/-- `PortReply`. -/
def portReply (p : SPortClient) : Bytes × SPortClient :=
  if p.sendBuff.length = 0 then ([], { p with replying := false })
  else
    let data := segment p.sendBuff p.position
    let position := p.position + data.length
    let reply := if position = data.length then putSequence p.sequence data else data
    if (sizeOf p.sendBuff).toNat ≤ position then (reply, { p with sendBuff := [], position := 0, replying := false })
    else (reply, { p with position })

/-- What `RunThread` does with a request: the data of the reply to it, and what the handler was run on. -/
def exchange (handler : Handler) (p : SPortClient) (data : Bytes) : Bytes × SPortClient × List Bytes :=
  let (p, handled) := if p.replying then (p, []) else p.portRequest handler data
  if p.replying then
    let (reply, p) := p.portReply
    (reply, p, handled)
  else ([], p, handled)

end SPortClient

/-! ## The client -/

/-- What becomes of a send: the reply comes back, or the send fails before or after the server got it. -/
inductive Transfer
  | answered
  | notSent
  | notAnswered
  deriving DecidableEq

inductive CallResult
  | ok (recvBuff : Bytes)
  | err

/-- What a call leads to: its result, the connection if it is still open, and what the handler was run on. -/
structure Called where
  result : CallResult
  port : Option SPortClient
  handled : List Bytes

/-- The loop that reads the remaining chunks; `none` when it waits for a reply. -/
def readReply (handler : Handler) (p : SPortClient) (handled : List Bytes) (got : Bytes) (buffLen : UInt32) (response : Bytes)
    (transfers : List Transfer) : Option Called :=
  if buffLen < .ofNat response.length then some ⟨.err, none, handled⟩
  else
    let got := got ++ response
    let buffLen := buffLen - .ofNat response.length
    if buffLen = 0 then some ⟨.ok got, some p, handled⟩
    else
      match transfers with
      | [] => none
      | .notSent :: _ => some ⟨.err, none, handled⟩
      | .notAnswered :: _ =>
        let (_, _, more) := p.exchange handler []
        some ⟨.err, none, handled ++ more⟩
      | .answered :: transfers =>
        let (response, p, more) := p.exchange handler []
        readReply handler p (handled ++ more) got buffLen response transfers

/-- What `Call` does once the request is sent; the sequence it looks at is that in the request buffer. -/
def finishCall (handler : Handler) (seq : UInt32) (p : SPortClient) (handled : List Bytes) (reqData response : Bytes)
    (transfers : List Transfer) : Option Called :=
  if headerSize ≤ response.length then
    if sequenceOf reqData ≠ seq then some ⟨.err, some p, handled⟩
    else if sizeOf response = 0 then some ⟨.err, some p, handled⟩
    else readReply handler p handled [] (sizeOf response) response transfers
  else some ⟨.err, some p, handled⟩

/-- The segment of a request at a position; the first one gets the sequence. -/
def requestData (seq : UInt32) (sendBuff : Bytes) (position : Nat) : Bytes :=
  if position = 0 then putSequence seq (segment sendBuff position) else segment sendBuff position

/-- `memcpy` to the start of the request buffer. -/
def copyOver (data buffer : Bytes) : Bytes := data ++ buffer.drop data.length

/-- The loop that sends the request in chunks. -/
def sendRequest (handler : Handler) (seq : UInt32) (sendBuff : Bytes) (p : SPortClient) (handled : List Bytes) (reqData : Bytes)
    (position : Nat) : List Transfer → Option Called
  | [] => none
  | .notSent :: _ => some ⟨.err, none, handled⟩
  | .notAnswered :: _ =>
    let (_, _, more) := p.exchange handler (requestData seq sendBuff position)
    some ⟨.err, none, handled ++ more⟩
  | .answered :: transfers =>
    let data := requestData seq sendBuff position
    let (response, p, more) := p.exchange handler data
    let reqData := copyOver data reqData
    let position := position + (segment sendBuff position).length
    if position < sendBuff.length then
      if response.length ≠ 0 then some ⟨.err, some p, handled ++ more⟩
      else sendRequest handler seq sendBuff p (handled ++ more) reqData position transfers
    else finishCall handler seq p (handled ++ more) reqData response transfers

/-- A message to the service, as `CAbstractClient::Call` puts it into a buffer. -/
structure Request where
  messageId : UInt32
  sequence : UInt32
  reserved : UInt32
  body : Bytes

def Request.sendBuff (r : Request) : Bytes :=
  PortMsgHeader.toBytes ⟨.ofNat (headerSize + r.body.length), r.messageId, r.sequence, r.reserved⟩ ++ r.body

/-- A call: what is asked, the handler at that time, what becomes of the sends, and whether a client
without a connection gets one. -/
structure CallEvent where
  request : Request
  handler : Handler
  transfers : List Transfer
  connects : Bool

structure Client where
  port : Option SPortClient
  callSeqNumber : UInt32

/-- A client that was connected. -/
def Client.new : Client := ⟨some .new, 0⟩

/-- The connection that a call uses. -/
def Client.connection (c : Client) (e : CallEvent) : Option SPortClient :=
  match c.port with
  | some p => some p
  | none => if e.connects then some .new else none

/-- `Call`. -/
def Client.call (c : Client) (e : CallEvent) : Option (Called × Client) :=
  match c.connection e with
  | none => some (⟨.err, none, []⟩, c)
  | some p =>
    match sendRequest e.handler c.callSeqNumber e.request.sendBuff p [] [] 0 e.transfers with
    | none => none
    | some called => some (called, ⟨called.port, c.callSeqNumber + 1⟩)

/-- The client after some calls; `none` when one of them still waits. -/
def Client.run : Client → List CallEvent → Option Client
  | c, [] => some c
  | c, e :: events =>
    match c.call e with
    | none => none
    | some (_, c) => c.run events

/-! ## What is sent -/

/-- The request with the sequence of the call. -/
def Request.asSent (r : Request) (seq : UInt32) : Bytes := ({ r with sequence := seq } : Request).sendBuff

/-- The reply with the sequence of the call. -/
def Reply.asSent (r : Reply) (seq : UInt32) : Bytes := ({ r with sequence := seq } : Reply).sendBuff

/-- The segments of a request from a position on are copied to the request buffer one after another. -/
def requestBuffer (seq : UInt32) (sendBuff : Bytes) : (rounds : Nat) → Nat → Bytes → Bytes
  | 0, _, reqData => reqData
  | rounds + 1, position, reqData =>
    let reqData := copyOver (requestData seq sendBuff position) reqData
    let position := position + (segment sendBuff position).length
    if position < sendBuff.length then requestBuffer seq sendBuff rounds position reqData else reqData

/-- How many segments a number of bytes makes. -/
def segmentCount (n : Nat) : Nat := (n + (msgDataLen - 1)) / msgDataLen

end MajorPrivacy.Ipc
