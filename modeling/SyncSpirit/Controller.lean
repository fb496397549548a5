import SyncSpirit.BlockGuards
import SyncSpirit.UpdateFolder

/-!
# Controllers (`net/controller_actor.cpp`)

A controller fetches the blocks of one peer's files. It asks the peer for a block, has
the answer hashed, has the block written and acknowledges it. A block that is available
locally is cloned instead. Several controllers share the blocks and their locks, and the
number of writes that may be under way.

`Actor` is the state of one controller and `World` all of them. Every handler works on a
`Context`, and what it has collected there is sent when the context is closed
(`Context.close`, the destructor). The blocks that `pull_next` looks at come from the
iterators over files and blocks; here they are an argument of the handler. So is the
cluster, which other diffs change in between.

A failed assertion, a null pointer that is dereferenced and a table that is read outside
its bounds are a `Fault`.
-/

namespace SyncSpirit

namespace Controller

/-- What must not happen. Three assertions have a name: that a request has found a free entry
(`noEntry`), that the number of write requests is not negative (`overdrawn`), and that a folder id has a
record of guards (`noRecord`). -/
inductive Fault where
  | outOfTable
  | noEntry
  | overdrawn
  | noRecord
  | assertion
  | nullPointer
  deriving DecidableEq, Repr

/-- `peer_request_context_t`. Of the folder only the id is kept in the source, and of the block nothing
but the hash: the folder object is for `acquire_block`, and the block for statements about runs. -/
structure PeerRequest where
  folder : FolderPtr
  name : String
  hash : Bytes
  size : Nat
  sequence : Int
  blockIndex : Nat
  block : BlockId
  deriving DecidableEq, Repr

/-- `get_folder` of the request. -/
def PeerRequest.folderId (r : PeerRequest) : String := r.folder.id

/-- `block_ack_context_t`. -/
structure BlockAckContext where
  folderId : String
  block : BlockId
  hash : Bytes
  deriving DecidableEq, Repr

/-- `io_command_t`. `block_request_t` reads a block for the peer; `file` is a command for a whole
file (`remote_copy_t`, `finish_file_t`, `update_meta_t`). -/
inductive IoCommand where
  | appendBlock (context : BlockAckContext)
  | cloneBlock (context : BlockAckContext)
  | blockRequest
  | file
  deriving DecidableEq, Repr

/-- Does the command count as a write? -/
def IoCommand.isWrite : IoCommand → Bool
  | .appendBlock _ | .cloneBlock _ => true
  | .blockRequest | .file => false

/-- `block_ack_t`, on its way to the controllers. -/
structure BlockAck extends BlockAckContext where
  unlock : Bool
  deriving DecidableEq, Repr

/-- `r::state_t`. -/
inductive Phase where
  | operational
  | shuttingDown
  | gone
  deriving DecidableEq, Repr

/-- `controller_actor_t`. `digests`, `fsRequests` and `acks` are on the way: to the hasher, to the
file system, and from the coordinator. -/
structure Actor where
  peer : Sha256
  phase : Phase
  connected : Bool
  blocksMaxRequested : Nat
  advancesPerIteration : Nat
  configuredPool : Int
  blockRequests : List (Option PeerRequest)
  blockRequestsNext : Nat
  rxBlocksRequested : UInt64
  txBlocksRequested : Nat
  requestPool : Int
  synchronizing : SynchronizingFolders
  blockWriteQueue : List IoCommand
  blockReadQueue : List IoCommand
  digests : List PeerRequest
  fsRequests : List (List IoCommand)
  forgotten : List (List IoCommand)
  acks : List BlockAck

/-- The constructor of `controller_actor_t`. -/
def Actor.create (peer : Sha256) (blocksMaxRequested hasherThreads advancesPerIteration : UInt32)
    (requestPool : Int) (order : HashOrder FolderSynchronization) : Actor :=
  let max := (if blocksMaxRequested ≠ 0 then blocksMaxRequested else hasherThreads * 2).toNat
  { peer := peer
    phase := .operational
    connected := true
    blocksMaxRequested := max
    advancesPerIteration := advancesPerIteration.toNat
    configuredPool := requestPool
    blockRequests := List.replicate max none
    blockRequestsNext := 0
    rxBlocksRequested := 0
    txBlocksRequested := 0
    requestPool := requestPool
    synchronizing := .empty order
    blockWriteQueue := []
    blockReadQueue := []
    digests := []
    fsRequests := []
    forgotten := []
    acks := [] }

/-- `constants::tx_blocks_max_factor`. -/
def txBlocksMaxFactor : Nat := 3

/-- `stack_context_t`, with what the controllers share. -/
structure Context where
  locked : BlockId → Bool
  writeRequests : Int
  actor : Actor
  ioCommands : List IoCommand
  lockedBlocks : List BlockId
  newAcks : List BlockAck

/-- What the iterators yield: the next block of a file, or a file that needs no blocks, with or
without a command for the file system. -/
inductive Item where
  | block (request : PeerRequest) (available : Bool)
  | file (command : Bool)
  deriving DecidableEq, Repr

namespace Context

/-- `block_info_t::lock`. -/
def lockBlock (ctx : Context) (b : BlockId) : Except Fault Context :=
  if ctx.locked b then .error .assertion
  else .ok { ctx with locked := Function.update ctx.locked b true, lockedBlocks := b :: ctx.lockedBlocks }

/-- `block_info_t::unlock`. -/
def unlockBlock (ctx : Context) (b : BlockId) : Except Fault Context :=
  if ctx.locked b then .ok { ctx with locked := Function.update ctx.locked b false }
  else .error .assertion

/-- `stack_context_t::is_locked`. -/
def isLocked (ctx : Context) (b : BlockId) : Bool := b ∈ ctx.lockedBlocks || ctx.locked b

/-- `cluster_t::modify_write_requests`. -/
def modifyWriteRequests (ctx : Context) (delta : Int) : Except Fault Context :=
  if ctx.writeRequests + delta < 0 then .error .overdrawn
  else .ok { ctx with writeRequests := ctx.writeRequests + delta }

/-- `push` of a command that is not a write. -/
def push (ctx : Context) (command : IoCommand) : Context :=
  { ctx with ioCommands := ctx.ioCommands ++ [command] }

/-- `push_checked`: a write waits in the queue if too many are under way. -/
def pushChecked (ctx : Context) (command : IoCommand) : Except Fault Context :=
  if ctx.actor.phase = .operational then
    if ctx.writeRequests ≠ 0 then (ctx.push command).modifyWriteRequests (-1)
    else .ok { ctx with actor := { ctx.actor with
      blockWriteQueue := ctx.actor.blockWriteQueue ++ [command] } }
  else .ok ctx

/-- Other guards. -/
def setGuards (ctx : Context) (guards : SynchronizingFolders) : Context :=
  { ctx with actor := { ctx.actor with synchronizing := guards } }

/-- `acquire_block`: the guard is in the record of the folder object. -/
def acquireBlock (ctx : Context) (folder : FolderPtr) (hash : Bytes) (b : BlockId) : Context :=
  ctx.setGuards (ctx.actor.synchronizing.acquire folder hash b)

/-- `release_block`: the block of the guard, in the first record of the folder id. -/
def releaseBlock (ctx : Context) (folderId : String) (hash : Bytes) : Except Fault (BlockId × Context) :=
  match ctx.actor.synchronizing.getSyncInfoOf folderId with
  | none => .error .noRecord
  | some record =>
    match record.blocks.finishFetching hash with
    | none => .error .nullPointer
    | some (b, guards) =>
      .ok (b, ctx.setGuards (ctx.actor.synchronizing.modify record.folder fun _ => guards))

/-! ## `pull_next` -/

/-- The search for a free entry of the table, from the hint on, and the next hint. -/
def findFree (requests : List (Option PeerRequest)) (max : Nat) : Nat → Nat → Except Fault (Nat × Option Nat)
  | 0, id => .ok (id, none)
  | rounds + 1, id =>
    match requests[id]? with
    | none => .error .outOfTable
    | some none => .ok (id, some (if id + 1 ≥ max then 0 else id + 1))
    | some (some _) => findFree requests max rounds (if id + 1 ≥ max then 0 else id + 1)

/-- The second half of `preprocess_block`: the request gets an entry. -/
def requestBlock (ctx : Context) (r : PeerRequest) : Except Fault Context := do
  let a := ctx.actor
  let (id, next) ← findFree a.blockRequests a.blocksMaxRequested a.blocksMaxRequested a.blockRequestsNext
  let next := next.getD a.blockRequestsNext
  if next ≥ a.blocksMaxRequested then .error .noEntry
  else match a.blockRequests[id]? with
    | none => .error .outOfTable
    | some (some _) => .error .noEntry
    | some none => .ok { ctx with actor := { a with
        blockRequests := a.blockRequests.set id (some r)
        blockRequestsNext := next
        rxBlocksRequested := a.rxBlocksRequested + 1
        requestPool := a.requestPool - r.size } }

/-- `preprocess_block`. -/
def preprocessBlock (ctx : Context) (r : PeerRequest) (available : Bool) : Except Fault Context :=
  if ctx.actor.connected then
    let ctx := ctx.acquireBlock r.folder r.hash r.block
    if available then ctx.pushChecked (.cloneBlock ⟨r.folderId, r.block, r.hash⟩)
    else do
      let ctx ← ctx.lockBlock r.block
      ctx.requestBlock r
  else .ok ctx

/-- `can_pull_more`. -/
def canPullMore (ctx : Context) (advances : Nat) : Bool :=
  ctx.actor.rxBlocksRequested.toNat < ctx.actor.blocksMaxRequested && 0 ≤ ctx.actor.requestPool &&
    ctx.actor.phase = .operational && ctx.writeRequests ≠ 0 && advances ≤ ctx.actor.advancesPerIteration

/-- `pull_next`. A block that is locked is left for later (`PostponedFiles`). -/
def pullNext (ctx : Context) : Nat → List Item → Except Fault Context
  | _, [] => .ok ctx
  | advances, item :: items =>
    if ctx.canPullMore advances then
      match item with
      | .block r available =>
        if ctx.isLocked r.block then ctx.pullNext advances items
        else do
          let ctx ← ctx.preprocessBlock r available
          ctx.pullNext advances items
      | .file command =>
        (if command then ctx.push .file else ctx).pullNext (advances + 1) items
    else .ok ctx

/-! ## The destructor -/

/-- The writes that leave the queue are counted. -/
def payWrites (ctx : Context) (sent : List IoCommand) : Except Fault Context :=
  if sent = [] then .ok ctx else ctx.modifyWriteRequests (-(sent.length : Int))

/-- What has been collected goes to the file system, with the writes and with as many reads as the
limit allows: one more than the factor says. -/
def sendCommands (ctx : Context) (sent : List IoCommand) : Context :=
  let a := ctx.actor
  let reads := a.blockReadQueue.take (a.blocksMaxRequested * txBlocksMaxFactor + 1 - a.txBlocksRequested)
  let commands := ctx.ioCommands ++ sent ++ reads
  { ctx with
    ioCommands := []
    actor := { a with
      blockWriteQueue := a.blockWriteQueue.drop sent.length
      blockReadQueue := a.blockReadQueue.drop reads.length
      txBlocksRequested := a.txBlocksRequested + reads.length
      fsRequests := if commands = [] then a.fsRequests else a.fsRequests ++ [commands] } }

/-- `~stack_context_t`. -/
def close (ctx : Context) : Except Fault Context :=
  if ctx.actor.phase = .operational then do
    let sent := ctx.actor.blockWriteQueue.take ctx.writeRequests.toNat
    let ctx ← ctx.payWrites sent
    return ctx.sendCommands sent
  else .ok { ctx with ioCommands := [] }

/-! ## Answers of the peer -/

/-- The cluster, as a handler meets it. -/
structure View extends Cluster where
  suspended : String → Bool

/-- The file block that a request is about. -/
structure Found where
  file : FileId
  block : BlockId
  available : Bool

/-- The lookup of `on_message(Response)` and `on_digest`: `none` if the file is not there any more.
A file that is gone from its folder is a null pointer. -/
def findBlock (view : View) (peer : Sha256) (r : PeerRequest) : Except Fault (Option Found) :=
  match (view.folderById r.folderId).filter fun folder => ¬ view.suspended folder.id with
  | none => .ok none
  | some folder =>
    match view.byDeviceId folder peer with
    | none => .ok none
    | some fi =>
      match view.byName fi r.name with
      | none => .error .nullPointer
      | some f =>
        if (view.files f).sequence ≠ r.sequence then .ok none
        else match (view.files f).slots[r.blockIndex]?.join with
          | none => .error .nullPointer
          | some (b, _) => .ok (((view.blocks b).fileBlocks.find? fun fb => fb.owner = f).map fun fb =>
              ⟨f, b, fb.flag⟩)

/-- The inner context of a handler is closed: only the queues are drained. -/
def closeInner (ctx : Context) : Except Fault Context := do
  let inner ← { ctx with ioCommands := [] }.close
  return { inner with ioCommands := ctx.ioCommands }

/-- `pull_next`, if that makes sense. -/
def tryNext (ctx : Context) (pull : Bool) (items : List Item) : Except Fault Context :=
  if pull then ctx.pullNext 0 items else .ok ctx

/-- A block has not come, for whatever reason. -/
def abandon (ctx : Context) (r : PeerRequest) (items : List Item) : Except Fault Context := do
  let ctx ← ctx.tryNext (ctx.actor.phase = .operational) items
  let (_, ctx) ← ctx.releaseBlock r.folderId r.hash
  ctx.closeInner

/-- `proto::Response`, without the data. -/
structure Response where
  id : Int32
  code : Int32
  deriving DecidableEq, Repr

/-- An answer is counted, whatever it is an answer to. -/
def countAnswer (ctx : Context) : Context :=
  { ctx with actor := { ctx.actor with rxBlocksRequested := ctx.actor.rxBlocksRequested - 1 } }

/-- The entry of a request is free again, and the next search starts there. -/
def freeEntry (ctx : Context) (id : Nat) : Context :=
  { ctx with actor := { ctx.actor with
    blockRequests := ctx.actor.blockRequests.set id none
    blockRequestsNext := id } }

/-- The data go to the hasher. -/
def calcDigest (ctx : Context) (r : PeerRequest) (size : Int) : Context :=
  { ctx with actor := { ctx.actor with
    requestPool := ctx.actor.requestPool + size
    digests := ctx.actor.digests ++ [r] } }

/-- `on_message(Response)`. `do_shutdown` only asks for the shutdown. -/
def onResponse (ctx : Context) (view : View) (message : Response) (items : List Item) :
    Except Fault Context :=
  let id := message.id.toInt
  if id > (Int32.ofNat ctx.actor.blockRequests.length).toInt ∨ id < 0 then .ok ctx.countAnswer
  else match ctx.actor.blockRequests[id.toNat]? with
    | none => .error .outOfTable
    | some none => .ok ctx.countAnswer
    | some (some r) => do
      let ctx := ctx.countAnswer.freeEntry id.toNat
      let found ← findBlock view ctx.actor.peer r
      match found with
      | some file =>
        if ctx.actor.phase = .operational ∧ message.code = 0 then do
          let ctx ← (ctx.calcDigest r (view.blocks file.block).getSize).pullNext 0 items
          ctx.closeInner
        else ctx.abandon r items
      | none => ctx.abandon r items

/-- What the peer asks for (`on_message(Request)`): it is refused, or the block is read. -/
def onRequest (ctx : Context) (accepted : Bool) : Context :=
  let a := ctx.actor
  if accepted then
    if a.txBlocksRequested > a.blocksMaxRequested * txBlocksMaxFactor then
      { ctx with actor := { a with blockReadQueue := a.blockReadQueue ++ [.blockRequest] } }
    else { ctx.push .blockRequest with actor := { a with txBlocksRequested := a.txBlocksRequested + 1 } }
  else ctx

/-- A message of the peer. Index messages make diffs only. -/
inductive Message where
  | response (view : View) (message : Response) (items : List Item)
  | request (accepted : Bool)
  | index

/-- `on_message`. -/
def onMessage (ctx : Context) : Message → Except Fault Context
  | .response view message items => ctx.onResponse view message items
  | .request accepted => .ok (ctx.onRequest accepted)
  | .index => .ok ctx

/-- `on_forward`. -/
def onForward (ctx : Context) (messages : List Message) : Except Fault Context :=
  if ctx.actor.phase = .operational then messages.foldlM onMessage ctx else .ok ctx

/-! ## Digests, writes and acknowledgements -/

/-- A block that has come is not used. -/
def dismiss (ctx : Context) (r : PeerRequest) (pull : Bool) (items : List Item) : Except Fault Context := do
  let (_, ctx) ← ctx.releaseBlock r.folderId r.hash
  ctx.tryNext pull items

/-- `on_digest`. Without a result there was an error. -/
def onDigest (ctx : Context) (view : View) (r : PeerRequest) (digest : Option Bytes) (items : List Item) :
    Except Fault Context := do
  let found ← findBlock view ctx.actor.peer r
  match found with
  | none => ctx.dismiss r false items
  | some file =>
    if ctx.actor.phase = .operational ∧ ctx.actor.connected then
      if digest = some (view.blocks file.block).hash ∧ ¬ file.available then
        ctx.pushChecked (.appendBlock ⟨r.folderId, file.block, (view.blocks file.block).hash⟩)
      else ctx.dismiss r true items
    else ctx.dismiss r false items

/-- `ack_block`. -/
def ackBlock (ctx : Context) (context : BlockAckContext) (unlock : Bool) : Context :=
  { ctx with newAcks := ctx.newAcks ++ [⟨context, unlock⟩] }

/-- `postprocess_io`, one command with its result. A write that has failed is not acknowledged. -/
def postprocessIo (ctx : Context) (result : IoCommand × Bool) : Except Fault Context :=
  match result.1 with
  | .appendBlock context => do
    let ctx ← ctx.modifyWriteRequests 1
    return if result.2 then ctx.ackBlock context true else ctx
  | .cloneBlock context => do
    let ctx ← ctx.modifyWriteRequests 1
    return if result.2 then ctx.ackBlock context false else ctx
  | .blockRequest =>
    .ok { ctx with actor := { ctx.actor with txBlocksRequested := ctx.actor.txBlocksRequested - 1 } }
  | .file => .ok ctx

/-- `on_postprocess_io`. -/
def onPostprocessIo (ctx : Context) (results : List (IoCommand × Bool)) (items : List Item) :
    Except Fault Context := do
  let ctx ← results.foldlM postprocessIo ctx
  ctx.pullNext 0 items

/-- The visitor of `block_ack_t`: the file may be complete then. -/
def onBlockAck (ctx : Context) (ack : BlockAck × Bool) : Except Fault Context := do
  let ctx := if ack.2 then ctx.push .file else ctx
  let (b, ctx) ← ctx.releaseBlock ack.1.folderId ack.1.hash
  if ack.1.unlock then ctx.unlockBlock b else return ctx

/-- `visit`: a tree of diffs, of which only the acknowledgements matter here. -/
def visit (ctx : Context) (acks : List (BlockAck × Bool)) (items : List Item) : Except Fault Context := do
  let ctx ← acks.foldlM onBlockAck ctx
  ctx.pullNext 0 items

/-! ## Shutdown -/

/-- `on_fs_ack_timer`: one write for every message that is forgotten. -/
def onFsAckTimer (ctx : Context) : Except Fault Context := do
  let a := ctx.actor
  let ctx ← ctx.modifyWriteRequests a.fsRequests.length
  return { ctx with actor := { a with fsRequests := [], forgotten := a.forgotten ++ a.fsRequests } }

/-- The destructor of `folder_synchronization_t`. -/
def dropRecord (suspended : FolderPtr → Bool) (locked : BlockId → Bool) (record : FolderSynchronization) :
    BlockId → Bool :=
  if suspended record.folder then locked
  else record.blocks.foldl (fun locked p => Function.update locked p.2.block false) locked

/-- `shutdown_finish`. -/
def shutdownFinish (ctx : Context) (suspended : FolderPtr → Bool) : Context :=
  { ctx with
    locked := ctx.actor.synchronizing.records.foldl (dropRecord suspended) ctx.locked
    actor := { ctx.actor with phase := .gone, synchronizing := .empty ctx.actor.synchronizing.order } }

end Context

/-! ## All controllers -/

/-- The locks of the blocks, the write requests that are left, and the controllers. -/
structure World where
  locked : BlockId → Bool
  writeRequests : Int
  actors : List Actor

/-- What happens. An answer is one of those that are on the way.

- `start`: a controller is created, with a hash table for its guards;
- `forward`: messages of the peer;
- `digest`, `io`: answers of the hasher and of the file system;
- `visit`: a diff comes back from the coordinator, with the next acknowledgements;
- `peerDown`, `shutdownStart`, `fsAckTimer`, `shutdownFinish`: the end of a controller. -/
inductive Event where
  | start (peer : Sha256) (blocksMaxRequested hasherThreads advancesPerIteration : UInt32) (requestPool : Int)
      (order : HashOrder FolderSynchronization)
  | forward (i : Nat) (messages : List Context.Message)
  | digest (i k : Nat) (view : Context.View) (digest : Option Bytes) (items : List Item)
  | io (i k : Nat) (results : List Bool) (items : List Item)
  | visit (i : Nat) (finish : List Bool) (items : List Item)
  | peerDown (i : Nat)
  | shutdownStart (i : Nat)
  | fsAckTimer (i : Nat)
  | shutdownFinish (i : Nat) (suspended : FolderPtr → Bool)

namespace World

/-- The acknowledgements go to all controllers of the peer. -/
def deliver (peer : Sha256) (acks : List BlockAck) (a : Actor) : Actor :=
  if a.peer = peer then { a with acks := a.acks ++ acks } else a

/-- A handler of a controller, with its context. `taken` is the controller without what is handled. -/
def handle (w : World) (i : Nat) (taken : Actor → Option Actor)
    (handler : Actor → Context → Except Fault Context) : Except Fault (Option World) :=
  match w.actors[i]? with
  | none => .ok none
  | some a =>
    match taken a with
    | none => .ok none
    | some a' =>
      if a.phase = .gone then .ok none
      else do
        let ctx ← handler a ⟨w.locked, w.writeRequests, a', [], [], []⟩
        return some ⟨ctx.locked, ctx.writeRequests,
          (w.actors.set i ctx.actor).map (deliver a.peer ctx.newAcks)⟩

/-- The context of a handler is closed in the end. -/
def closing (handler : Context → Except Fault Context) (ctx : Context) : Except Fault Context := do
  let ctx ← handler ctx
  ctx.close

/-- One event; `none` if it is not possible. -/
def step (w : World) : Event → Except Fault (Option World)
  | .start peer blocksMaxRequested hasherThreads advancesPerIteration requestPool order =>
    if hasherThreads = 0 then .error .assertion
    else .ok (some { w with actors := w.actors ++
      [Actor.create peer blocksMaxRequested hasherThreads advancesPerIteration requestPool order] })
  | .forward i messages => w.handle i some fun _ => closing fun ctx => ctx.onForward messages
  | .digest i k view digest items =>
    w.handle i (fun a => if k < a.digests.length then some { a with digests := a.digests.eraseIdx k } else none)
      fun a => closing fun ctx =>
        match a.digests[k]? with
        | some r => ctx.onDigest view r digest items
        | none => .ok ctx
  | .io i k results items =>
    w.handle i (fun a => if (a.fsRequests[k]?.map List.length) = some results.length then
        some { a with fsRequests := a.fsRequests.eraseIdx k } else none)
      fun a => closing fun ctx => ctx.onPostprocessIo ((a.fsRequests[k]?.getD []).zip results) items
  | .visit i finish items =>
    w.handle i (fun a => if finish.length ≤ a.acks.length then
        some { a with acks := a.acks.drop finish.length } else none)
      fun a => closing fun ctx => ctx.visit (a.acks.zip finish) items
  | .peerDown i => w.handle i (fun a => some { a with connected := false }) fun _ ctx => .ok ctx
  | .shutdownStart i =>
    w.handle i (fun a => if a.phase = .operational then some { a with phase := .shuttingDown } else none)
      fun _ ctx => .ok ctx
  | .fsAckTimer i =>
    w.handle i (fun a => if a.phase = .shuttingDown then some a else none) fun _ ctx => ctx.onFsAckTimer
  | .shutdownFinish i suspended =>
    w.handle i (fun a => if a.phase = .shuttingDown ∧ a.digests = [] ∧ a.fsRequests = [] then some a else none)
      fun _ ctx => .ok (ctx.shutdownFinish suspended)

/-- One event that is possible and does not end in a fault. -/
def next (w : World) (e : Event) : Option World := (w.step e).toOption.join

/-- No controller is running. -/
def initial (writeRequests : Int) : World := ⟨fun _ => false, writeRequests, []⟩

end World

end Controller

end SyncSpirit
