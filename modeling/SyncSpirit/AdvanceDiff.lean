import SyncSpirit.Advance
import SyncSpirit.LocalUpdate

/-!
# The diffs that advance local files (`diff/advance/*.cpp`)

An `advance_t` is built in one state of the cluster and applied in another. What is
decided when it is built (`initializeAdvance`): the uuid of the file, the blocks to add
and the blocks that nobody else needs. What is decided when it is applied: which object
is advanced, and its sequence.

`remote_win_t` builds two of them, one for the local file under its new name and one for
the remote file in its place. The second one must not remove blocks, and with
`disable_blocks_removal` the `uuid` of a file that is there is never assigned: `unset` is
what the member happens to hold.
-/

namespace SyncSpirit

/-! ## `as_proto` -/

/-- `empty_block`: the block of a file without content. -/
def emptyBlock : Proto.BlockInfo where
  size := 0
  hash := [0xe3, 0xb0, 0xc4, 0x42, 0x98, 0xfc, 0x1c, 0x14, 0x9a, 0xfb, 0xf4, 0xc8, 0x99, 0x6f, 0xb9, 0x24,
    0x27, 0xae, 0x41, 0xe4, 0x64, 0x9b, 0x93, 0x4c, 0xa4, 0x95, 0x99, 0x1b, 0x78, 0x52, 0xb8, 0x55]
  offset := 0

/-- `block_info_t::as_bep`. -/
def BlockInfo.asBep (b : BlockInfo) (offset : Int) : Proto.BlockInfo := ⟨b.size, b.hash, offset⟩

namespace Store

/-- The blocks of a file with their offsets; a null slot is dereferenced. -/
def blocksProto (s : Store) : Int → List (Option BlockId) → Option (List Proto.BlockInfo)
  | _, [] => some []
  | offset, v :: vs => do
    let b ← v
    let bs ← s.blocksProto (offset + (s.blocks b).getSize) vs
    return (s.blocks b).asBep offset :: bs

/-- `file_info_t::as_proto`. -/
def asProto (s : Store) (file : FileInfo) (includeBlocks : Bool) : Option Proto.FileInfo := do
  let r : Proto.FileInfo := {
    name := file.name
    type := asType file.type
    size := 0
    permissions := file.permissions
    modifiedS := file.modifiedS
    modifiedNs := file.modifiedNs.toInt32
    modifiedBy := file.modifiedBy
    deleted := file.deleted
    invalid := file.invalid
    noPermissions := file.noPermissions
    version := file.version.toProto
    sequence := file.sequence
    blockSize := 0
    blocks := []
    symlinkTarget := "" }
  match file.content with
  | .file _ => do
    let size ← s.getSize file
    let blockSize ← s.getBlockSize file
    if includeBlocks then do
      let blocks ← s.blocksProto 0 file.targets
      return { r with
        size := size
        blockSize := blockSize
        blocks := if file.targets = [] ∧ file.deleted = false then [emptyBlock] else blocks }
    return { r with size := size, blockSize := blockSize }
  | .nonFile target => return { r with symlinkTarget := target }

/-- `file_infos_map_t::by_sequence`. -/
def bySequence (s : Store) (fi : FolderInfoId) (sequence : Int) : Option FileId :=
  (s.infos fi).files.find? fun f => (s.files f).sequence = sequence

end Store

namespace Advance

open Store

/-- `advance_action_t`, without `ignore`. -/
inductive Action where
  | remoteCopy
  | resolveRemoteWin
  | localUpdate
  deriving DecidableEq, Repr

/-- `advance_t`, with the nested `add_blocks_t` and `remove_blocks_t`. -/
structure Diff where
  action : Action
  folderId : String
  peerId : Sha256
  protoSource : Proto.FileInfo
  protoLocal : Proto.FileInfo
  uuid : Uuid
  added : List Proto.BlockInfo
  removed : List Bytes

/-- What the constructors of `advance_t` get from outside: the next uuids of the sequencer,
what an unassigned `uuid` holds, and the clock. -/
structure Env where
  nextUuid : Nat → Uuid
  unset : Uuid
  now : UInt64

/-- The local device, and how it renames a file (`file_info_t::make_conflicting_name`,
which depends on the time zone). -/
structure Host where
  self : Sha256
  short : UInt64
  makeConflictingName : FileInfo → String

/-! ## Construction -/

/-- The blocks that are looked at: none if the size is 0. -/
def neededBlocks (f : Proto.FileInfo) : List Proto.BlockInfo := if f.size ≠ 0 then f.blocks else []

/-- The uuid of the advanced file. With `disable_blocks_removal` that of a known file is not
assigned. -/
def chooseUuid (s : Store) (localFile : Option FileId) (disableBlocksRemoval : Bool)
    (nextUuid unset : Uuid) : Uuid :=
  match localFile with
  | none => nextUuid
  | some f => if disableBlocksRemoval then unset else (s.files f).uuid

/-- The blocks that only the known file refers to. -/
def orphansOf (s : Store) (localFile : Option FileId) (disableBlocksRemoval : Bool) : List Bytes :=
  match localFile with
  | none => []
  | some f => if disableBlocksRemoval then [] else UpdateFolder.deduce s [f] []

/-- The blocks that are not in the block map; one that occurs twice is taken twice. -/
def newBlocks (s : Store) (bs : List Proto.BlockInfo) (hashes : List Bytes) : List Proto.BlockInfo :=
  ((bs.zip hashes).filter fun p => (s.byHash p.2).isNone).map Prod.fst

/-- `advance_t::initialize`, in the folder info of the local device. -/
def initializeAdvance (s : Store) (fi : FolderInfoId) (action : Action) (disableBlocksRemoval : Bool)
    (nextUuid unset : Uuid) (folderId : String) (peerId : Sha256) (protoSource : Proto.FileInfo)
    (localFileName : String) : Option Diff :=
  let name := if localFileName = "" then protoSource.name else localFileName
  let localFile := s.byName fi name
  if protoSource.blocks ≠ [] ∧ protoSource.deleted then none
  else do
    let hashes ← UpdateFolder.strictHashes (neededBlocks protoSource)
    let added := newBlocks s (neededBlocks protoSource) hashes
    if added ≠ [] ∧ action ≠ .localUpdate then none
    else return {
      action := action
      folderId := folderId
      peerId := peerId
      protoSource := protoSource
      protoLocal := { protoSource with sequence := 0, name := name }
      uuid := chooseUuid s localFile disableBlocksRemoval nextUuid unset
      added := added
      removed := (orphansOf s localFile disableBlocksRemoval).filter fun h =>
        ¬ (h ∈ hashes ∧ (s.byHash h).isSome) }

/-- The folder info of the local device in a folder. -/
def localInfo (host : Host) (c : Cluster) (folderId : String) : Option FolderInfoId := do
  let folder ← c.folderById folderId
  c.byDeviceId folder host.self

/-- `remote_copy_t`. -/
def remoteCopy (host : Host) (env : Env) (c : Cluster) (protoFile : Proto.FileInfo) (folderId : String)
    (peerId : Sha256) (disableBlocksRemoval : Bool) : Option Diff := do
  let fi ← localInfo host c folderId
  initializeAdvance c.toStore fi .remoteCopy disableBlocksRemoval (env.nextUuid 1) env.unset folderId peerId
    protoFile ""

/-- The renaming half of `remote_win_t`. -/
def renameLocal (host : Host) (env : Env) (c : Cluster) (name folderId : String) (peerId : Sha256) :
    Option Diff := do
  let fi ← localInfo host c folderId
  let f ← c.byName fi name
  let localSource ← c.asProto (c.files f) true
  initializeAdvance c.toStore fi .resolveRemoteWin false (env.nextUuid 0) env.unset folderId peerId localSource
    (host.makeConflictingName (c.files f))

/-- The content of the scanned file is that of the candidate (local_update.cpp:79–103). The
iteration over the blocks of the candidate stops at a null slot. -/
def sameFile (s : Store) (found : Proto.FileInfo) (candidate : FileInfo) : Option Bool := do
  let size ← s.getSize candidate
  return size = found.size ∧ asFlags found.type = candidate.type ∧
    found.deleted = candidate.deleted ∧ found.invalid = candidate.invalid ∧
    (found.noPermissions = candidate.noPermissions ∨ found.permissions = candidate.permissions) ∧
    (candidate.isFile → candidate.slots.length = found.blocks.length ∧
      ∀ p ∈ ((candidate.slots.takeWhile Option.isSome).filterMap id).zip found.blocks,
        (s.blocks p.1.1).hash = p.2.hash)

/-- One round of `get_original`. -/
def pick (host : Host) (s : Store) (found : Proto.FileInfo) (r : Option FileId) (fi : FolderInfoId) :
    Option (Option FileId) :=
  if (s.infos fi).device = host.self then some r
  else match s.byName fi found.name with
    | none => some r
    | some candidate => do
      let matched ← sameFile s found (s.files candidate)
      if matched then
        match r with
        | none => return some candidate
        | some r =>
          return some (if 1 < LocalUpdate.compare (s.files candidate) (s.files r) then candidate else r)
      return r

/-- `local_update_t::get_original`, on the heap. -/
def getOriginal (host : Host) (s : Store) (fis : List FolderInfoId) (found : Proto.FileInfo) :
    Option (Option FileId) :=
  fis.foldlM (pick host s found) none

/-- `local_update_t`. -/
def localUpdate (host : Host) (env : Env) (c : Cluster) (found : Proto.FileInfo) (folderId : String)
    (disableBlocksRemoval : Bool) : Option Diff :=
  if found.name = "" then none
  else do
  let folder ← c.folderById folderId
  let fi ← c.byDeviceId folder host.self
  match ← getOriginal host c.toStore folder.infos found with
  | some original => do
    let source ← c.asProto (c.files original) true
    initializeAdvance c.toStore fi .localUpdate disableBlocksRemoval (env.nextUuid 0) env.unset folderId
      host.self source found.name
  | none => do
    let d ← initializeAdvance c.toStore fi .localUpdate disableBlocksRemoval (env.nextUuid 0) env.unset
      folderId host.self { found with modifiedBy := host.short } found.name
    match c.byName fi found.name with
    | some f => return { d with
        uuid := (c.files f).uuid
        protoLocal := { d.protoLocal with
          version := ((c.files f).version.update host.short env.now).toProto } }
    | none => return { d with
        protoLocal := { d.protoLocal with version := (Version.ofDevice host.short env.now).toProto } }

/-! ## Application -/

/-- `advance_t::apply_impl` with its children, in the folder info of the local device. -/
def Diff.applyImpl (fi : FolderInfoId) (s : Store) (d : Diff) : Option Store := do
  let s ← d.added.foldlM Store.addBlock s
  let s ← d.removed.foldlM Store.eraseBlock s
  advanceFile fi s d.uuid d.protoLocal

/-- The diff is ignored: the folder is gone or suspended, or the peer has left it. -/
def Diff.isIgnored (c : Cluster) (suspended : Bool) (d : Diff) : Bool :=
  match c.folderById d.folderId with
  | none => true
  | some folder => suspended || (d.action ≠ .localUpdate && (c.byDeviceId folder d.peerId).isNone)

/-- `local_update_t::apply_impl` and `remote_copy_t::apply_impl`. -/
def Diff.apply (host : Host) (c : Cluster) (suspended : Bool) (d : Diff) : Option Store :=
  if d.isIgnored c suspended then some c.toStore
  else (localInfo host c d.folderId).bind fun fi => d.applyImpl fi c.toStore

/-- What is pushed to the model: `local_update_t` or `remote_copy_t`, or `remote_win_t` with
its sibling. -/
inductive Tree where
  | single (d : Diff)
  | remoteWin (rename copy : Diff)

/-- `advance_t::create`. -/
def create (host : Host) (env : Env) (c : Cluster) (action : Action) (source : FileId)
    (sourceFi : FolderInfoId) : Option Tree := do
  let folder ← c.folders.find? fun folder => sourceFi ∈ folder.infos
  let protoFile ← c.asProto (c.files source) true
  let peerId := (c.infos sourceFi).device
  match action with
  | .remoteCopy => do
    let d ← remoteCopy host env c protoFile folder.id peerId false
    return .single d
  | .resolveRemoteWin => do
    let rename ← renameLocal host env c protoFile.name folder.id peerId
    let copy ← remoteCopy host env c protoFile folder.id peerId true
    return .remoteWin rename copy
  | .localUpdate => none

/-- Apply the diff. `remote_win_t` takes the local file out of the map first, and its sibling
is applied after it. -/
def Tree.apply (host : Host) (c : Cluster) (suspended : Bool) : Tree → Option Store
  | .single d => d.apply host c suspended
  | .remoteWin rename copy =>
    if rename.isIgnored c suspended then copy.apply host c suspended
    else do
      let fi ← localInfo host c rename.folderId
      let prev ← c.byName fi rename.protoSource.name
      let s ← rename.applyImpl fi (c.remove fi prev)
      copy.apply host { c with toStore := s } suspended

end Advance

end SyncSpirit
