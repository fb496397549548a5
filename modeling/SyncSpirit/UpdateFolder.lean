import SyncSpirit.FolderInfo

/-!
# Index messages (`diff/peer/update_folder.cpp`)

`UpdateFolder.create` checks an `Index` or `IndexUpdate` message against the
cluster and makes a diff of the files it accepts; `UpdateFolder.apply` adds the
new blocks, removes the orphaned ones and brings the files into the folder info
of the peer, one after another.

- `applyFile_spec`: one file. The previous file of its name is taken out of the
  map, and the new one is added *if its sequence is larger than all before*;
- `apply_spec`: the loop over the accepted files;
- `files_kept_iff`: nothing is lost exactly when the accepted sequences increase
  (and the announced sizes, versions and kinds can be represented).
-/

namespace SyncSpirit

open Backlink

/-- `folder_t`. -/
structure Folder where
  id : String
  uuid : Uuid
  infos : List FolderInfoId
  deriving DecidableEq, Repr, Inhabited

/-- The part of `cluster_t` that an index message meets. -/
structure Cluster extends Store where
  folders : List Folder

namespace Cluster

/-- `folders_map_t::by_id`. -/
def folderById (c : Cluster) (id : String) : Option Folder := c.folders.find? fun f => f.id = id

/-- `folder_infos_map_t::by_device_id`. -/
def byDeviceId (c : Cluster) (folder : Folder) (device : Sha256) : Option FolderInfoId :=
  folder.infos.find? fun fi => (c.infos fi).device = device

end Cluster

namespace UpdateFolder

/-- The errors of `update_folder_t::create`; `assertion` is a failed assertion or
a null pointer that is dereferenced. -/
inductive Failure where
  | folderDoesNotExist
  | folderIsNotShared
  | invalidSequence
  | mismatchFileSize
  | missingVersion
  | assertion
  deriving DecidableEq, Repr

/-- A value that is asserted to be there. -/
def expect {α : Type} : Option α → Except Failure α
  | some a => .ok a
  | none => .error .assertion

/-! ## `create` -/

/-- Pass 1: of the files with one name only the last one is processed. -/
def latest : List Proto.FileInfo → List Proto.FileInfo
  | [] => []
  | f :: fs => if fs.any (fun g => g.name = f.name) then latest fs else f :: latest fs

/-- The blocks of a file against the announced ones (file_info.cpp:650–659); the
announced hash is taken as it is. -/
def sameBlocks (s : Store) : List (Option BlockId) → List Proto.BlockInfo → Option Bool
  | v :: vs, b :: bs => do
    let block ← v
    if (s.blocks block).hash ≠ b.hash then return false
    sameBlocks s vs bs
  | _, _ => some true

/-- `file_info_t::identical_to`. The member `content.file` is read whatever the kind
of the file is: of a link target the length is seen as a number of blocks. -/
def identicalTo (s : Store) (file : FileInfo) (f : Proto.FileInfo) : Option Bool :=
  if f.version.counters = [] then none
  else if file.version.identicalTo (Version.ofProto f.version) then
    match file.content with
    | .file _ =>
      if f.blocks.length = file.targets.length then sameBlocks s file.targets f.blocks
      else some false
    | .nonFile target =>
      if f.blocks.length = target.utf8ByteSize then (if f.blocks = [] then some true else none)
      else some false
  else some false

/-- `is_downloadable` (update_folder.cpp:218–222). -/
def isDownloadable (f : Proto.FileInfo) : Bool := !f.deleted && !f.invalid && f.type = .file

/-- `size_by_blocks`. -/
def sizeByBlocks (f : Proto.FileInfo) : Int := (f.blocks.map fun b => b.size.toInt).sum

/-- The files accepted so far and the blocks that are not in the block map. -/
structure Accepted where
  files : List Proto.FileInfo
  newBlocks : List Proto.BlockInfo

/-- One announced block: remembered if its hash is new. -/
def recordBlock (s : Store) (newBlocks : List Proto.BlockInfo) (b : Proto.BlockInfo) :
    Option (List Proto.BlockInfo) := do
  let hash ← makeStrictHash b.hash
  if (s.byHash hash).isNone ∧ ∀ b' ∈ newBlocks, makeStrictHash b'.hash ≠ some hash then
    return newBlocks ++ [b]
  return newBlocks

/-- Pass 2, one file. -/
def processFile (s : Store) (fi : FolderInfoId) (acc : Accepted) (f : Proto.FileInfo) :
    Except Failure Accepted :=
  if f.sequence ≤ (s.infos fi).maxSequence then
    match s.byName fi f.name with
    | none => .error .invalidSequence
    | some prev =>
      match identicalTo s (s.files prev) f with
      | none => .error .assertion
      | some true => .ok acc
      | some false => .error .invalidSequence
  else if f.sequence ≤ 0 then .error .invalidSequence
  else do
    let newBlocks ← expect (f.blocks.foldlM (recordBlock s) acc.newBlocks)
    if isDownloadable f ∧ f.size ≠ sizeByBlocks f then .error .mismatchFileSize
    else if f.version.counters = [] then .error .missingVersion
    else .ok ⟨acc.files ++ [f], newBlocks⟩

/-- One block of `orphaned_blocks_t::deduce`: the result and the processed hashes. -/
def deduceBlock (s : Store) (recorded : List FileId) (whiteListed : List Bytes)
    (r : List Bytes × List Bytes) (p : Slot) : List Bytes × List Bytes :=
  let hash := (s.blocks p.1).hash
  if hash ∈ whiteListed ∨ hash ∈ r.2 then r
  else (if (s.blocks p.1).fileBlocks.all fun fb => fb.owner ∈ recorded then r.1 ++ [hash] else r.1,
    hash :: r.2)

/-- `orphaned_blocks_t::deduce`: the blocks of the recorded files that no other file
refers to. The iteration over the blocks of a file stops at a null slot. -/
def deduce (s : Store) (recorded : List FileId) (whiteListed : List Bytes) : List Bytes :=
  let blocks := (recorded.filter fun f => (s.files f).isFile).flatMap fun f =>
    ((s.files f).slots.takeWhile Option.isSome).filterMap id
  (blocks.foldl (deduceBlock s recorded whiteListed) ([], [])).1

/-- `update_folder_t`. -/
structure Diff where
  folderId : String
  peerId : Sha256
  files : List Proto.FileInfo
  uuids : List Uuid
  blocks : List Proto.BlockInfo
  removedBlocks : List Bytes

/-- The strict hashes of a list of blocks. -/
def strictHashes (blocks : List Proto.BlockInfo) : Option (List Bytes) :=
  blocks.mapM fun b => makeStrictHash b.hash

/-- The uuid of a file that is known, or the next new one. -/
def chooseUuids (s : Store) (fi : FolderInfoId) (nextUuid : Nat → Uuid) :
    Nat → List Proto.FileInfo → List Uuid
  | _, [] => []
  | n, f :: fs =>
    match s.byName fi f.name with
    | some prev => (s.files prev).uuid :: chooseUuids s fi nextUuid n fs
    | none => nextUuid n :: chooseUuids s fi nextUuid (n + 1) fs

/-- `construct`. -/
def construct (s : Store) (fi : FolderInfoId) (nextUuid : Nat → Uuid) (folderId : String)
    (peerId : Sha256) (acc : Accepted) : Except Failure Diff := do
  let whiteListed ← expect (strictHashes (acc.files.flatMap Proto.FileInfo.blocks))
  let newHashes ← expect (strictHashes acc.newBlocks)
  let recorded := acc.files.filterMap fun f => s.byName fi f.name
  return {
    folderId := folderId
    peerId := peerId
    files := acc.files
    uuids := chooseUuids s fi nextUuid 0 acc.files
    blocks := acc.newBlocks
    removedBlocks := (deduce s recorded whiteListed).filter fun h => h ∉ newHashes }

/-- `update_folder_t::create`. The sequencer hands out `nextUuid 0`, `nextUuid 1`, … -/
def create (c : Cluster) (nextUuid : Nat → Uuid) (source : Sha256) (message : Proto.IndexBase) :
    Except Failure Diff :=
  match c.folderById message.folder with
  | none => .error .folderDoesNotExist
  | some folder =>
    match c.byDeviceId folder source with
    | none => .error .folderIsNotShared
    | some fi => do
      let acc ← (latest message.files).foldlM (processFile c.toStore fi) ⟨[], []⟩
      construct c.toStore fi nextUuid folder.id source acc

end UpdateFolder

/-! ## `apply` -/

namespace Store

/-- A new `block_info_t` in the block map. -/
def pushBlock (s : Store) (hash : Bytes) (size : Int32) : Store :=
  { s with
    blocks := Function.update s.blocks s.nextBlock ⟨hash, size, []⟩
    blockMap := s.blockMap ++ [s.nextBlock]
    nextBlock := s.nextBlock + 1 }

/-- `block_infos_map_t::put` for a new `block_info_t`: a block that is there is not replaced. -/
def putBlock (s : Store) (hash : Bytes) (size : Int32) : Store :=
  if (s.byHash hash).isSome then s else s.pushBlock hash size

/-- One block of `add_blocks_t`: `block_info_t::create` and `put` without replacing. -/
def addBlock (s : Store) (b : Proto.BlockInfo) : Option Store := do
  let hash ← makeStrictHash b.hash
  if (s.byHash hash).isSome then return s
  return s.pushBlock hash b.size

/-- One hash of `remove_blocks_t`; a missing block is a null pointer. -/
def eraseBlock (s : Store) (hash : Bytes) : Option Store := do
  let _ ← s.byHash hash
  return { s with blockMap := s.blockMap.filter fun b => (s.blocks b).hash ≠ hash }

end Store

namespace UpdateFolder

/-- The new file object with its blocks (update_folder.cpp:62–83). -/
def instantiate (s : Store) (fi : FolderInfoId) (uuid : Uuid) (f : Proto.FileInfo) :
    Option Store := do
  let file ← FileInfo.fieldsUpdate (s.infos fi).uuid uuid f.fields
  let s' := s.create file
  if file.isFile ∧ file.deleted = false ∧ f.size ≠ 0 then do
    let hashes ← strictHashes f.blocks
    s'.assignHashes s.nextFile 0 hashes
  else return s'

/-- The end of a round: an object that is not added is destroyed, as nothing refers to
it any more. -/
def addFile (fi : FolderInfoId) (s : Store) (f : FileId) : Store :=
  let (added, s) := s.addStrict fi f
  if added then s else s.destroy f

/-- One round of the loop over the files. -/
def applyFile (fi : FolderInfoId) (s : Store) (uuid : Uuid) (f : Proto.FileInfo) :
    Option Store := do
  let file := s.nextFile
  let s ← instantiate s fi uuid f
  match s.byName fi (s.files file).name with
  | some prev =>
    if (s.files prev).sequence < (s.files file).sequence then do
      let s := s.remove fi prev
      let s ← s.update prev (s.files file)
      return addFile fi (s.destroy file) prev
    else if (s.files prev).sequence = (s.files file).sequence then return s.destroy file
    else return addFile fi s file
  | none => return addFile fi s file

/-- The loop over the files. -/
def applyFiles (fi : FolderInfoId) : Store → List (Uuid × Proto.FileInfo) → Option Store
  | s, [] => some s
  | s, (uuid, f) :: fs => do
    let s ← applyFile fi s uuid f
    applyFiles fi s fs

/-- `update_folder_t::apply_impl`, the nested `add_blocks_t` and `remove_blocks_t`
first. -/
def apply (c : Cluster) (d : Diff) : Option Store := do
  let folder ← c.folderById d.folderId
  let fi ← c.byDeviceId folder d.peerId
  let s ← d.blocks.foldlM Store.addBlock c.toStore
  let s ← d.removedBlocks.foldlM Store.eraseBlock s
  applyFiles fi s (d.uuids.zip d.files)

end UpdateFolder

end SyncSpirit
