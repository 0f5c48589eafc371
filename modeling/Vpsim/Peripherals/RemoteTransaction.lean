import Vpsim.Lib.Run
import Vpsim.Lib.ByteBuffer

/-!
# Remote transactions

`GenericRemoteTarget` and `GenericRemoteInitiator` of `RemoteTransaction.hpp`, connected by two byte
streams. Requests and responses are structures of fixed size, sent as the bytes that they have in memory;
data beyond the 16 bytes that they have room for follows them. A read takes some of the bytes that are
available, up to the number it is asked for, and neither side looks at how many it has got.

One action is a run of one party to its next call of `read` or `write`, or to the end of an operation.
Interrupts, which have a channel of their own, and the console output are left out.
-/

namespace Vpsim.Peripherals

open Vpsim.Lib

/-- `RemoteTransactionType`. -/
inductive RemoteTransactionType
  | remoteRead
  | remoteWrite
deriving DecidableEq

/-- The value of the enumerator. -/
def RemoteTransactionType.toNat : RemoteTransactionType → ℕ
  | .remoteRead => 0
  | .remoteWrite => 1

/-- `REMOTE_READ_OK`. -/
def remoteReadOk : ℕ := 0

/-- `PREALLOC_SIZE`. -/
def preallocSize : ℕ := 16

/-! ## The structures -/

namespace RemoteTransaction

/-- `sizeof (RemoteTransaction)`. -/
def sizeof : ℕ := 40

/-- The field `type`. -/
def type (m : List UInt8) : ℕ := leValue (slice 0 4 m)

/-- The field `address`. -/
def address (m : List UInt8) : ℕ := leValue (slice 8 8 m)

/-- The field `size`. -/
def size (m : List UInt8) : ℕ := leValue (slice 16 8 m)

/-- The field `data`. -/
def data (m : List UInt8) : List UInt8 := slice 24 preallocSize m

end RemoteTransaction

namespace RemoteResponse

/-- `sizeof (RemoteResponse)`. -/
def sizeof : ℕ := 32

/-- The field `type`. -/
def type (m : List UInt8) : ℕ := leValue (slice 0 4 m)

/-- The field `size`. -/
def size (m : List UInt8) : ℕ := leValue (slice 8 8 m)

/-- The field `data`. -/
def data (m : List UInt8) : List UInt8 := slice 16 preallocSize m

end RemoteResponse

/-! ## The parties -/

/-- The arguments of `remoteWrite` or `remoteRead`: `data` is the buffer of the caller, whose length is
the requested size. -/
structure Request where
  type : RemoteTransactionType
  address : ℕ
  data : List UInt8
  address_lt : address < 2 ^ 64
  size_lt : data.length < 2 ^ 32
deriving DecidableEq

/-- A call of `localRead` or `localWrite`. -/
inductive LocalCall
  | localRead (address size : ℕ)
  | localWrite (address size : ℕ) (data : List UInt8)
deriving DecidableEq

/-- The local access that a request asks for. -/
def Request.localCall (r : Request) : LocalCall :=
  match r.type with
  | .remoteRead => .localRead r.address r.data.length
  | .remoteWrite => .localWrite r.address r.data.length r.data

/-- A call of `completeRead` or `completeWrite`. -/
structure Completion where
  type : UInt32
  data : List UInt8
deriving DecidableEq

/-- What `remoteWrite` or `remoteRead` returns, and the buffer of the caller afterwards. -/
structure Outcome where
  type : ℕ
  data : List UInt8
deriving DecidableEq

/-- Where the target is: outside a request, before the write of the data, before the read of the
response, or before the read of the data into the buffer of the caller. -/
inductive TargetPoint
  | ready
  | writing (r : Request)
  | awaiting (r : Request)
  | receiving (data : List UInt8)
deriving DecidableEq

/-- `GenericRemoteTarget`. -/
structure Target where
  point : TargetPoint
  mRequest : List UInt8
  mResponse : List UInt8
deriving DecidableEq

/-- Where the initiator is: polling, before the read of the data of a write, in a local access, or before
the write of the data of a response. `mFree` holds while it is polling or responding. -/
inductive InitiatorPoint
  | polling
  | receiving
  | busy
  | responding (rest : List UInt8)
deriving DecidableEq

/-- `GenericRemoteInitiator`. `buf` is the block that the pointer refers to. -/
structure Initiator where
  point : InitiatorPoint
  trans : List UInt8
  resp : List UInt8
  mBufSize : ℕ
  buf : List UInt8
deriving DecidableEq

/-- The two parties, the two streams, and what has happened so far. -/
structure Link where
  target : Target
  initiator : Initiator
  toInitiator : List UInt8
  toTarget : List UInt8
  requests : List Request
  headersSent : List (List UInt8)
  headersRead : List (List UInt8)
  locals : List LocalCall
  completions : List Completion
  outcomes : List Outcome
deriving DecidableEq

/-- Why an action is not taken or not completed: the party cannot act so now, or waits for bytes; a
transaction type is unknown; or a buffer is too short. -/
inductive Fault
  | blocked
  | unsupported
  | overrun
deriving DecidableEq

/-- `read` of `asked` bytes that returns `n` of them, with the rest of the stream. -/
def readBytes (n asked : ℕ) (stream : List UInt8) : Except Fault (List UInt8 × List UInt8) :=
  if 0 < n ∧ n ≤ asked ∧ n ≤ stream.length then .ok (stream.take n, stream.drop n) else .error .blocked

/-- A copy into a buffer. -/
def copyTo (offset : ℕ) (bytes buffer : List UInt8) : Except Fault (List UInt8) :=
  if offset + bytes.length ≤ buffer.length then .ok (patch offset bytes buffer) else .error .overrun

namespace Link

/-! ## The target -/

/-- The fields of `mRequest` that `remoteWrite` and `remoteRead` assign. -/
def requestBytes (r : Request) (m : List UInt8) : List UInt8 :=
  let m := patch 0 (leBytes 4 r.type.toNat) m
  let m := patch 8 (leBytes 8 r.address) m
  let m := patch 16 (leBytes 8 r.data.length) m
  if r.type = .remoteWrite then patch 24 (r.data.take preallocSize) m else m

/-- `remoteWrite` and `remoteRead` up to the first write. -/
def request (r : Request) (s : Link) : Except Fault Link :=
  if s.target.point = .ready then
    let m := requestBytes r s.target.mRequest
    .ok { s with
      target :=
        { s.target with
          mRequest := m
          point := if r.type = .remoteWrite ∧ preallocSize < r.data.length then .writing r else .awaiting r }
      toInitiator := s.toInitiator ++ m
      requests := s.requests ++ [r]
      headersSent := s.headersSent ++ [m] }
  else .error .blocked

/-- The write of the data of `remoteWrite`. -/
def targetWrite (s : Link) : Except Fault Link :=
  match s.target.point with
  | .writing r =>
    .ok { s with
      target := { s.target with point := .awaiting r }
      toInitiator := s.toInitiator ++ r.data.drop preallocSize }
  | _ => .error .blocked

/-- The end of `remoteWrite` or `remoteRead`. -/
def finish (data : List UInt8) (s : Link) : Link :=
  { s with
    target := { s.target with point := .ready }
    outcomes := s.outcomes ++ [⟨RemoteResponse.type s.target.mResponse, data⟩] }

/-- What the target does with a response: `remoteRead` copies the data of a successful one. -/
def accept (r : Request) (s : Link) : Except Fault Link := do
  let m := s.target.mResponse
  if r.type = .remoteRead ∧ RemoteResponse.type m = remoteReadOk then
    let n := RemoteResponse.size m
    let data ← copyTo 0 ((RemoteResponse.data m).take (min n preallocSize)) r.data
    if preallocSize < n then
      return { s with target := { s.target with point := .receiving data } }
    else return s.finish data
  else return s.finish r.data

/-- A read by the target that returns `n` bytes. -/
def targetRead (n : ℕ) (s : Link) : Except Fault Link := do
  match s.target.point with
  | .awaiting r =>
    let (bytes, rest) ← readBytes n RemoteResponse.sizeof s.toTarget
    let s := { s with
      target := { s.target with mResponse := patch 0 bytes s.target.mResponse }
      toTarget := rest }
    accept r s
  | .receiving data =>
    let (bytes, rest) ← readBytes n (RemoteResponse.size s.target.mResponse - preallocSize) s.toTarget
    let data ← copyTo preallocSize bytes data
    return finish data { s with toTarget := rest }
  | _ => throw .blocked

/-! ## The initiator -/

/-- `get_buf`, which takes the size as 32 bits. The bytes of a new block are those of `fresh`. -/
def getBuf (fresh : ℕ → UInt8) (size : ℕ) (i : Initiator) : Initiator :=
  if i.mBufSize < size % 2 ^ 32 then
    { i with mBufSize := size % 2 ^ 32, buf := (List.range (size % 2 ^ 32)).map fresh }
  else i

/-- The call of `localWrite`, which takes the bytes from `buf`. -/
def callLocalWrite (s : Link) : Except Fault Link :=
  let m := s.initiator.trans
  let n := RemoteTransaction.size m
  if n ≤ s.initiator.buf.length then
    .ok { s with
      initiator := { s.initiator with point := .busy }
      locals := s.locals ++ [.localWrite (RemoteTransaction.address m) n (s.initiator.buf.take n)] }
  else .error .overrun

/-- What `poll` does with a request that it has read. -/
def dispatch (fresh : ℕ → UInt8) (s : Link) : Except Fault Link := do
  let m := s.initiator.trans
  let n := RemoteTransaction.size m
  let i := getBuf fresh n s.initiator
  if RemoteTransaction.type m = RemoteTransactionType.remoteRead.toNat then
    -- The local access fills `n` bytes of `buf`.
    if n ≤ i.buf.length then
      return { s with
        initiator := { i with point := .busy }
        locals := s.locals ++ [.localRead (RemoteTransaction.address m) n] }
    else throw .overrun
  else if RemoteTransaction.type m = RemoteTransactionType.remoteWrite.toNat then
    let buf ← copyTo 0 ((RemoteTransaction.data m).take (min n preallocSize)) i.buf
    if preallocSize < n then return { s with initiator := { i with buf := buf, point := .receiving } }
    else callLocalWrite { s with initiator := { i with buf := buf } }
  else throw .unsupported

/-- A read by the initiator that returns `n` bytes. -/
def initiatorRead (fresh : ℕ → UInt8) (n : ℕ) (s : Link) : Except Fault Link := do
  match s.initiator.point with
  | .polling =>
    let (bytes, rest) ← readBytes n RemoteTransaction.sizeof s.toInitiator
    let m := patch 0 bytes s.initiator.trans
    dispatch fresh { s with
      initiator := { s.initiator with trans := m }
      toInitiator := rest
      headersRead := s.headersRead ++ [m] }
  | .receiving =>
    let (bytes, rest) ← readBytes n (RemoteTransaction.size s.initiator.trans - preallocSize) s.toInitiator
    let buf ← copyTo preallocSize bytes s.initiator.buf
    callLocalWrite { s with initiator := { s.initiator with buf := buf }, toInitiator := rest }
  | _ => throw .blocked

/-- The fields of `resp` that `completeRead` assigns. -/
def responseBytes (c : Completion) (size : ℕ) (m : List UInt8) : List UInt8 :=
  let m := patch 0 (leBytes 4 c.type.toNat) m
  let m := patch 8 (leBytes 8 size) m
  if c.type.toNat = remoteReadOk then patch 16 (c.data.take (min size preallocSize)) m else m

/-- `completeRead` up to its first write. It is called in a local read, with the bytes that were asked
for. -/
def completeRead (c : Completion) (s : Link) : Except Fault Link :=
  let m := s.initiator.trans
  if s.initiator.point = .busy ∧ RemoteTransaction.type m = RemoteTransactionType.remoteRead.toNat ∧
      c.data.length = RemoteTransaction.size m then
    let n := if c.type.toNat = remoteReadOk then RemoteTransaction.size m else 0
    let resp := responseBytes c n s.initiator.resp
    .ok { s with
      initiator :=
        { s.initiator with
          resp := resp
          point := if preallocSize < n then .responding (slice preallocSize (n - preallocSize) c.data)
            else .polling }
      toTarget := s.toTarget ++ resp
      completions := s.completions ++ [c] }
  else .error .blocked

/-- `completeWrite`, which is called in a local write. -/
def completeWrite (type : UInt32) (s : Link) : Except Fault Link :=
  if s.initiator.point = .busy ∧
      RemoteTransaction.type s.initiator.trans = RemoteTransactionType.remoteWrite.toNat then
    let resp := patch 8 (leBytes 8 0) (patch 0 (leBytes 4 type.toNat) s.initiator.resp)
    .ok { s with
      initiator := { s.initiator with resp := resp, point := .polling }
      toTarget := s.toTarget ++ resp
      completions := s.completions ++ [⟨type, []⟩] }
  else .error .blocked

/-- The write of the data of `completeRead`. -/
def initiatorWrite (s : Link) : Except Fault Link :=
  match s.initiator.point with
  | .responding rest =>
    .ok { s with initiator := { s.initiator with point := .polling }, toTarget := s.toTarget ++ rest }
  | _ => .error .blocked

end Link

/-! ## Runs -/

/-- What one of the parties can do. A read returns `n` bytes. -/
inductive LinkAction
  | request (r : Request)
  | targetWrite
  | targetRead (n : ℕ)
  | initiatorRead (n : ℕ)
  | completeRead (c : Completion)
  | completeWrite (type : UInt32)
  | initiatorWrite
deriving DecidableEq

namespace Link

variable (fresh : ℕ → UInt8)

/-- One action. -/
def perform (s : Link) : LinkAction → Except Fault Link
  | .request r => s.request r
  | .targetWrite => s.targetWrite
  | .targetRead n => s.targetRead n
  | .initiatorRead n => s.initiatorRead fresh n
  | .completeRead c => s.completeRead c
  | .completeWrite type => s.completeWrite type
  | .initiatorWrite => s.initiatorWrite

/-- One action of a run, which ends at one that is not completed. -/
def step (a : LinkAction) : EStateM Fault Link PUnit := fun s =>
  match s.perform fresh a with
  | .ok s' => .ok ⟨⟩ s'
  | .error e => .error e s

/-- The memory in which the parties are constructed. The constructor of the initiator reads `mBufSize`
and the pointer `buf` from there. -/
structure Memory where
  mRequest : List UInt8
  mResponse : List UInt8
  trans : List UInt8
  resp : List UInt8
  mBufSize : ℕ
  buf : List UInt8
  mRequest_length : mRequest.length = RemoteTransaction.sizeof
  mResponse_length : mResponse.length = RemoteResponse.sizeof
  trans_length : trans.length = RemoteTransaction.sizeof
  resp_length : resp.length = RemoteResponse.sizeof

/-- The constructed parties, with nothing in the streams. The constructor of the initiator asks for a
buffer of 8 bytes. -/
def init (m : Memory) : Link where
  target := ⟨.ready, m.mRequest, m.mResponse⟩
  initiator := getBuf fresh 8 ⟨.polling, m.trans, m.resp, m.mBufSize, m.buf⟩
  toInitiator := []
  toTarget := []
  requests := []
  headersSent := []
  headersRead := []
  locals := []
  completions := []
  outcomes := []

end Link

end Vpsim.Peripherals
