import SyncSpirit.BlockOffset
import SyncSpirit.Lib.Run

/-!
# Requests of a peer (`net/controller_actor.cpp`, `fs/file.cpp`)

The peer asks for blocks of the local files. A request that is not refused becomes a command for the file
system, at once or, if too many are under way, from a queue that the destructor of every `stack_context_t`
drains. The answer is made when the command comes back.

The offset of a request has 64 bits and its size 32, both with a sign. `proto::get_offset` returns 32 bits with a
sign, and the command takes 64 bits without one. Nothing is compared with the size of the file.

- `Within`: what has to be true of a request;
- `serve_iff`: a request is refused or read within the file exactly if it is.
-/

namespace SyncSpirit

namespace PeerRequests

open BlockOffset (Request)
open Controller (Phase)

/-- `proto::ErrorCode`. -/
inductive ErrorCode where
  | noBepError
  | generic
  | noSuchFile
  | invalidFile
  deriving DecidableEq, Repr

/-- `proto::Response`. -/
structure Response where
  id : Int32
  code : ErrorCode
  data : Bytes
  deriving DecidableEq, Repr

/-- The local file that a command reads, with its sizes when it was asked for. The source keeps the path only;
statements read the sizes. -/
structure Source where
  file : FileId
  size : Option Int
  blockSize : Option Int32
  deriving DecidableEq, Repr

/-- `block_request_t`, with the request in its context. -/
structure BlockRequest where
  request : Request
  source : Source
  offset : UInt64
  blockSize : UInt64
  deriving DecidableEq, Repr

/-- `io_command_t`: a read for the peer, or something else. -/
inductive IoCommand where
  | blockRequest (r : BlockRequest)
  | other
  deriving DecidableEq, Repr

/-- The reads among some commands. -/
def reads (commands : List IoCommand) : List BlockRequest :=
  commands.filterMap fun
    | .blockRequest r => some r
    | .other => none

/-! ## A request -/

/-- `proto::get_offset` of a request. -/
def getOffset (req : Request) : Int32 := req.offset.toInt32

/-- `io_make_request_block`. -/
def ioMakeRequestBlock (view : Controller.Context.View) (f : FileId) (req : Request) : BlockRequest where
  request := req
  source := ⟨f, view.getSize (view.files f), view.getBlockSize (view.files f)⟩
  offset := (getOffset req).toInt64.toUInt64
  blockSize := req.size.toInt64.toUInt64

/-- The lookups of `on_message(Request)`: an error or the local file. The local folder is not checked. -/
def findLocal (view : Controller.Context.View) (self peer : Sha256) (req : Request) : Option (Except ErrorCode FileId) :=
  match view.folderById req.folder with
  | none => some (.error .noSuchFile)
  | some folder =>
    if view.suspended folder.id then some (.error .generic)
    else match view.byDeviceId folder peer with
      | none => some (.error .noSuchFile)
      | some _ => (view.byDeviceId folder self).map fun fi =>
        match view.byName fi req.name with
        | none => .error .noSuchFile
        | some f => if (view.files f).isFile then .ok f else .error .generic

/-- What becomes of a request: an error code, or a read. -/
def serve (view : Controller.Context.View) (self peer : Sha256) (req : Request) : Option (Except ErrorCode BlockRequest) :=
  (findLocal view self peer req).map fun
    | .error code => .error code
    | .ok f => .ok (ioMakeRequestBlock view f req)

/-- A read within the file, of one block at most. -/
def BlockRequest.Bounded (r : BlockRequest) : Prop :=
  0 ≤ r.offset.toInt64.toInt ∧ 0 ≤ r.blockSize.toInt64.toInt ∧
    (∃ size ∈ r.source.size, (r.offset.toNat : Int) + r.blockSize.toNat ≤ size) ∧
    ∃ blockSize ∈ r.source.blockSize, (r.blockSize.toNat : Int) ≤ blockSize.toInt

/-- What is asked for is within the file: the lower half of the offset, with its sign, and the size. -/
def Fits (view : Controller.Context.View) (f : FileId) (req : Request) : Prop :=
  0 ≤ (getOffset req).toInt ∧ 0 ≤ req.size.toInt ∧
    (∃ size ∈ view.getSize (view.files f), (getOffset req).toInt + req.size.toInt ≤ size) ∧
    ∃ blockSize ∈ view.getBlockSize (view.files f), req.size.toInt ≤ blockSize.toInt

/-- What has to be true of a request that names a folder which is shared with the peer and not suspended: the folder is
a local one, too, and if the file is a regular one, what is asked for is within it. -/
def Within (view : Controller.Context.View) (self peer : Sha256) (req : Request) : Prop :=
  ∀ folder ∈ view.folderById req.folder, view.suspended folder.id = false →
    (view.byDeviceId folder peer).isSome = true →
      ∃ fi ∈ view.byDeviceId folder self, ∀ f ∈ view.byName fi req.name, (view.files f).isFile = true →
        Fits view f req

/-- A number that is not negative is the same in 64 bits without a sign. -/
theorem toNat_widen {n : Int32} (h : 0 ≤ n.toInt) : (n.toInt64.toUInt64.toNat : Int) = n.toInt := by
  have hnonneg : 0 ≤ n.toInt64 := by
    rw [Int64.le_iff_toInt_le]
    simpa using h
  rw [Int64.toNat_toUInt64_of_le hnonneg]
  show (n.toInt64.toInt.toNat : Int) = n.toInt
  rw [Int32.toInt_toInt64, Int.toNat_of_nonneg h]

/-- The command has the numbers that have been asked for. -/
theorem bounded_fits (view : Controller.Context.View) (f : FileId) (req : Request) :
    (ioMakeRequestBlock view f req).Bounded ↔ Fits view f req := by
  show 0 ≤ (getOffset req).toInt64.toUInt64.toInt64.toInt ∧ 0 ≤ req.size.toInt64.toUInt64.toInt64.toInt ∧ _ ↔ _
  rw [show (getOffset req).toInt64.toUInt64.toInt64.toInt = (getOffset req).toInt by simp,
    show req.size.toInt64.toUInt64.toInt64.toInt = req.size.toInt by simp]
  refine and_congr_right fun hoffset => and_congr_right fun hsize => ?_
  show (∃ size ∈ view.getSize (view.files f), ((getOffset req).toInt64.toUInt64.toNat : Int) +
    req.size.toInt64.toUInt64.toNat ≤ size) ∧
      (∃ blockSize ∈ view.getBlockSize (view.files f), (req.size.toInt64.toUInt64.toNat : Int) ≤ blockSize.toInt) ↔ _
  rw [toNat_widen hoffset, toNat_widen hsize]

/-- **A request**: it is refused, or it becomes a read within the file, exactly if it is `Within`. -/
theorem serve_iff (view : Controller.Context.View) (self peer : Sha256) (req : Request) :
    (∃ outcome, serve view self peer req = some outcome ∧ ∀ r, outcome = .ok r → r.Bounded) ↔
      Within view self peer req := by
  rw [serve, findLocal, Within]
  cases hfolder : view.folderById req.folder with
  | none => simp
  | some folder =>
    cases hsuspended : view.suspended folder.id with
    | true => simp [hsuspended]
    | false =>
      cases hpeer : view.byDeviceId folder peer with
      | none => simp [hsuspended, hpeer]
      | some _ =>
        cases hself : view.byDeviceId folder self with
        | none => simp [hsuspended, hpeer, hself]
        | some fi =>
          cases hname : view.byName fi req.name with
          | none => simp [hsuspended, hpeer, hself, hname]
          | some f =>
            -- only a regular file is read
            cases hfile : (view.files f).isFile <;> simp [hsuspended, hpeer, hself, hname, hfile, bounded_fits]

/-! ## The file system -/

/-- The stream of an open file. -/
structure Backend where
  content : Bytes
  position : Nat
  failed : Bool
  deriving DecidableEq, Repr

/-- `std::vector<unsigned char>::max_size`. -/
def maxSize : Nat := 2 ^ 63 - 1

/-- The result of `file_t::read`, with how many bytes it has allocated. An exception cannot leave it. -/
inductive Outcome where
  | terminated
  | failed (allocated : Nat)
  | data (bytes : Bytes)
  deriving DecidableEq, Repr

/-- The bytes that a read allocates. -/
def Outcome.allocated : Outcome → Nat
  | .terminated => 0
  | .failed n => n
  | .data bytes => bytes.length

namespace Backend

/-- `tellg`. -/
def tellg (b : Backend) : Int64 := if b.failed then -1 else .ofNat b.position

/-- `seekp` from the beginning of the file. -/
def seekp (b : Backend) (offset : Int64) : Backend :=
  if b.failed then b
  else if offset.toInt < 0 then { b with failed := true }
  else { b with position := offset.toInt.toNat }

/-- `file_t::read`. -/
def read (b : Backend) (offset size : UInt64) : Outcome :=
  let away := b.tellg ≠ offset.toInt64
  let b := if away then b.seekp offset.toInt64 else b
  if away ∧ b.failed then .failed 0
  else if maxSize < size.toNat then .terminated
  else
    let bytes := (b.content.drop b.position).take size.toNat
    if !b.failed && bytes.length = size.toNat then .data bytes else .failed size.toNat

end Backend

/-- `process(block_request_t)` of the file actor. A file that cannot be opened has no stream. -/
def process (r : BlockRequest) : Option Backend → Outcome
  | none => .failed 0
  | some b => b.read r.offset r.blockSize

/-! ## The controller -/

/-- What has become of a request, and whether the peer was still there: it has been refused or accepted, or its read
is back. -/
inductive Entry where
  | refused (request : Request) (code : ErrorCode) (connected : Bool)
  | accepted (r : BlockRequest)
  | finished (r : BlockRequest) (outcome : Outcome) (connected : Bool)
  deriving DecidableEq, Repr

/-- `controller_actor_t`, as far as it serves the peer. `fsRequests` are the commands with the file system,
`transferred` what has been sent to the peer, and `log` what has happened. -/
structure Server where
  self : Sha256
  peer : Sha256
  phase : Phase
  connected : Bool
  blocksMaxRequested : UInt32
  txBlocksRequested : UInt64
  blockReadQueue : List BlockRequest
  fsRequests : List (List IoCommand)
  transferred : List Response
  log : List Entry

/-- The constructor of `controller_actor_t`. -/
def Server.create (self peer : Sha256) (blocksMaxRequested hasherThreads : UInt32) : Server where
  self := self
  peer := peer
  phase := .operational
  connected := true
  blocksMaxRequested := if blocksMaxRequested ≠ 0 then blocksMaxRequested else hasherThreads * 2
  txBlocksRequested := 0
  blockReadQueue := []
  fsRequests := []
  transferred := []
  log := []

/-- `blocks_max_requested * tx_blocks_max_factor`. -/
def Server.maxBlockRead (s : Server) : UInt64 := s.blocksMaxRequested.toUInt64 * 3

/-- `stack_context_t`. -/
structure Context where
  server : Server
  ioCommands : List IoCommand
  peerData : List Response

/-- The loop of the destructor over the queue: the counter, what is sent, and what is left. -/
def drain (limit : UInt64) : UInt64 → List BlockRequest → UInt64 × List BlockRequest × List BlockRequest
  | tx, [] => (tx, [], [])
  | tx, r :: queue =>
    if tx ≤ limit then
      let (tx, sent, left) := drain limit (tx + 1) queue
      (tx, r :: sent, left)
    else (tx, [], r :: queue)

/-- The commands of a context go to the file system, with what leaves the queue. -/
def Server.send (s : Server) (ioCommands : List IoCommand) : Server :=
  if s.phase = .operational then
    let (tx, sent, left) := drain s.maxBlockRead s.txBlocksRequested s.blockReadQueue
    let commands := ioCommands ++ sent.map .blockRequest
    { s with
      txBlocksRequested := tx
      blockReadQueue := left
      fsRequests := if commands = [] then s.fsRequests else s.fsRequests ++ [commands] }
  else s

namespace Context

/-- `~stack_context_t`. -/
def close (ctx : Context) : Server :=
  let s := ctx.server.send ctx.ioCommands
  { s with transferred := s.transferred ++ if s.connected then ctx.peerData else [] }

/-- A handler closes a context of its own. -/
def closeInner (ctx : Context) (others : Nat) : Context :=
  { ctx with server := ctx.server.send (.replicate others .other) }

/-- An answer, if the peer is still there. -/
def reply (ctx : Context) (response : Response) : Context :=
  if ctx.server.connected then { ctx with peerData := ctx.peerData ++ [response] } else ctx

/-- The log grows. -/
def record (ctx : Context) (entry : Entry) : Context :=
  { ctx with server := { ctx.server with log := ctx.server.log ++ [entry] } }

/-- `on_message(Request)`. -/
def onRequest (ctx : Context) (view : Controller.Context.View) (req : Request) : Option Context :=
  (serve view ctx.server.self ctx.server.peer req).map fun
    | .error code => (ctx.record (.refused req code ctx.server.connected)).reply ⟨req.id, code, []⟩
    | .ok r =>
      let ctx := ctx.record (.accepted r)
      let s := ctx.server
      if s.txBlocksRequested > s.maxBlockRead then
        { ctx with server := { s with blockReadQueue := s.blockReadQueue ++ [r] } }
      else
        { ctx with
          server := { s with txBlocksRequested := s.txBlocksRequested + 1 }
          ioCommands := ctx.ioCommands ++ [.blockRequest r] }

/-- `postprocess_io(block_request_t)`. -/
def postprocessIo (ctx : Context) (r : BlockRequest) (outcome : Outcome) : Context :=
  let ctx := ctx.record (.finished r outcome ctx.server.connected)
  let ctx := { ctx with server := { ctx.server with txBlocksRequested := ctx.server.txBlocksRequested - 1 } }
  match outcome with
  | .data bytes => ctx.reply ⟨r.request.id, .noBepError, bytes⟩
  | _ => ctx.reply ⟨r.request.id, .generic, []⟩

/-- A command is back; `none` if the file system has not survived it. -/
def onCommand (ctx : Context) (command : IoCommand × Option Backend) : Option Context :=
  match command.1 with
  | .other => some ctx
  | .blockRequest r =>
    match process r command.2 with
    | .terminated => none
    | outcome => some (ctx.postprocessIo r outcome)

end Context

/-! ## Events -/

/-- A message of the peer. A response has a context of its own, with so many commands. -/
inductive Message where
  | request (view : Controller.Context.View) (req : Request)
  | response (others : Nat)
  | index

/-- `on_message`. -/
def Context.onMessage (ctx : Context) : Message → Option Context
  | .request view req => ctx.onRequest view req
  | .response others => some (ctx.closeInner others)
  | .index => some ctx

/-- What happens. `io` is the answer of the file system to some commands, with the streams it has found; `handler` is any
handler that has no part in serving the peer. -/
inductive Event where
  | forward (messages : List Message)
  | io (k : Nat) (backends : List (Option Backend)) (others : Nat)
  | handler (others : Nat)
  | peerDown
  | shutdownStart
  | shutdownFinish

namespace Server

/-- A new context. -/
def context (s : Server) : Context := ⟨s, [], []⟩

/-- `on_forward`. -/
def onForward (s : Server) (messages : List Message) : Option Server :=
  if s.phase = .operational then (messages.foldlM Context.onMessage s.context).map Context.close else some s

/-- `on_postprocess_io`. -/
def onPostprocessIo (s : Server) (k : Nat) (backends : List (Option Backend)) (others : Nat) : Option Server :=
  match s.fsRequests[k]? with
  | none => some s
  | some commands =>
    let ctx := { s with fsRequests := s.fsRequests.eraseIdx k }.context
    ((commands.zipIdx.map fun p => (p.1, (backends[p.2]?).join)).foldlM Context.onCommand ctx).map fun ctx =>
      { ctx with ioCommands := ctx.ioCommands ++ List.replicate others IoCommand.other }.close

/-- One event; `none` if the process does not survive it. A controller that is gone gets no messages. -/
def step (s : Server) (e : Event) : Option Server :=
  if s.phase = .gone then some s
  else match e with
    | .forward messages => s.onForward messages
    | .io k backends others => s.onPostprocessIo k backends others
    | .handler others => some ({ s.context with ioCommands := List.replicate others IoCommand.other }.close)
    | .peerDown => some { s with connected := false }
    | .shutdownStart => some { s with phase := .shuttingDown }
    | .shutdownFinish => some (if s.phase = .shuttingDown then { s with phase := .gone } else s)

end Server

end PeerRequests

end SyncSpirit
