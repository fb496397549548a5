import SyncSpirit.Database
import SyncSpirit.Lib.Fallible

/-!
# Loading (`net/db_actor.cpp`, `model/diff/load`)

At the start the database actor reads all tables and unpacks the blocks, then the files, in
chunks: each chunk becomes a diff, and after a chunk that is not the last one the model may
interrupt. A file one of whose blocks is not among the records, or whose folder info is not, is
corrupted: it is not loaded, and its record is removed once the model has been loaded.

`partialLoad_spec`: how large the chunks are does not matter, as long as there are no empty
ones; `partialLoad_eq_none`: with empty chunks of blocks the load never ends.

The devices and folders have records of their own, which are not modelled: the `Catalog` is what
has been loaded of them before.
-/

namespace SyncSpirit

namespace Database

open Fallible WriteLog

/-! ## Records -/

/-- `db::load`: the records with a prefix, in the order of their keys. -/
def load (discr : UInt8) (table : Table) : List (Bytes × Value) :=
  table.toList.filter fun r => r.1.head? = some discr

/-- A record that is a block. One that cannot be decoded is skipped. -/
def blockItem : Bytes × Value → Option (Bytes × Int32)
  | (key, .block size) => some (key, size)
  | _ => none

/-- A record that is a file. -/
def fileItem : Bytes × Value → Option (Bytes × Db.FileInfo)
  | (key, .file record) => some (key, record)
  | _ => none

/-- A record that is a folder info. -/
def folderInfoItem : Bytes × Value → Option (Bytes × Db.FolderInfo)
  | (key, .folderInfo record) => some (key, record)
  | _ => none

/-- `uuid_length` bytes of the key of a folder info, behind its device and its folder. -/
def folderInfoUuid (key : Bytes) : Bytes := (key.drop 49).take 16

/-! ## Unpacking -/

/-- The diffs of a `load_cluster_t` that are made of these records. -/
inductive LoadDiff where
  | blocks (items : List (Bytes × Int32))
  | fileInfos (items : List (Bytes × Db.FileInfo))
  | interrupt
  | removeCorruptedFiles (keys : List Bytes)
  | commit
  deriving DecidableEq, Repr

/-- `payload::partial_load_t`: `blocks` and `files` are what is still to be unpacked. -/
structure PartialLoad where
  diffs : List LoadDiff
  knownHashes : List Bytes
  blocks : List (Bytes × Value)
  files : List (Bytes × Value)
  folderInfosUuids : List Bytes
  corruptedFiles : List Bytes
  deriving DecidableEq, Repr

/-- All blocks of the file are known, and so is its folder info. -/
def restorable (knownHashes uuids : List Bytes) (item : Bytes × Db.FileInfo) : Bool :=
  item.2.blocks.all (· ∈ knownHashes) && ((item.1.drop 1).take 16 ∈ uuids)

/-- `interrupt_t` after a chunk that is not the last one. -/
def interrupts {α : Type} (rest : List α) : List LoadDiff := if rest = [] then [] else [.interrupt]

namespace PartialLoad

/-- A chunk of blocks is unpacked. -/
def nextBlocks (maxBlocks : Nat) (p : PartialLoad) : PartialLoad :=
  let items := (p.blocks.take maxBlocks).filterMap blockItem
  { p with
    diffs := p.diffs ++ .blocks items :: interrupts (p.blocks.drop maxBlocks)
    knownHashes := p.knownHashes ++ items.map fun item => item.1.drop 1
    blocks := p.blocks.drop maxBlocks }

/-- A chunk of files is unpacked. -/
def nextFiles (maxFiles : Nat) (p : PartialLoad) : PartialLoad :=
  let items := (p.files.take maxFiles).filterMap fileItem
  let ok := restorable p.knownHashes p.folderInfosUuids
  { p with
    diffs := p.diffs ++ .fileInfos (items.filter ok) :: interrupts (p.files.drop maxFiles)
    corruptedFiles := p.corruptedFiles ++ (items.filter fun item => !ok item).map Prod.fst
    files := p.files.drop maxFiles }

/-- There is nothing left. -/
def finish (p : PartialLoad) : List LoadDiff :=
  p.diffs ++ ((if p.corruptedFiles = [] then [] else [.removeCorruptedFiles p.corruptedFiles]) ++ [.commit])

end PartialLoad

/-- `on_patrial_load`: one more chunk is unpacked, or all diffs have been made. -/
def onPartialLoad (maxBlocks maxFiles : Nat) (p : PartialLoad) : PartialLoad ⊕ List LoadDiff :=
  if p.blocks ≠ [] then .inl (p.nextBlocks maxBlocks)
  else if p.files ≠ [] then .inl (p.nextFiles maxFiles)
  else .inr p.finish

/-- The message is bounced until all diffs have been made. -/
def partialLoad (maxBlocks maxFiles : Nat) : Nat → PartialLoad → Option (List LoadDiff)
  | 0, _ => none
  | n + 1, p =>
    match onPartialLoad maxBlocks maxFiles p with
    | .inl p => partialLoad maxBlocks maxFiles n p
    | .inr diffs => some diffs

/-! ## Application -/

/-- The errors of the diffs. -/
inductive LoadError where
  | noSuchDevice
  | noSuchFolder
  | invalidFolderInfoKeyLength
  | invalidFolderInfoPrefix
  | invalidBlockKeyLength
  | invalidBlockPrefix
  | file (e : FileDb.LoadError)
  deriving DecidableEq, Repr

/-- The devices and the folders, loaded before the folder infos. -/
structure Catalog where
  devices : List Sha256
  folders : List (String × Uuid)

/-- The folder infos that have been loaded, in a row, and the folders with them. -/
structure Loading where
  infos : List FolderInfo
  folders : List Folder

/-- `folder_infos_map_t::put`: whatever has the uuid or the device is replaced. -/
def putInfo (infos : List FolderInfo) (info : FolderInfo) (fis : List FolderInfoId) : List FolderInfoId :=
  (fis.filter fun fi =>
    (infos.getD fi default).uuid ≠ info.uuid ∧ (infos.getD fi default).device ≠ info.device) ++ [infos.length]

/-- One record of `folder_infos_t`. The introducer is kept without the prefix of its key. -/
def loadFolderInfo (devices : List Sha256) (l : Loading) (item : Bytes × Db.FolderInfo) : Except LoadError Loading :=
  let device := (item.1.drop 1).take digestLength
  if device ∉ devices then .error .noSuchDevice
  else match l.folders.find? fun folder => folder.uuid.bytes = (item.1.drop 33).take 16 with
    | none => .error .noSuchFolder
    | some folder => match Uuid.ofBytes (item.1.drop 49) with
      | none => .error .invalidFolderInfoKeyLength
      | some uuid =>
        if item.1.head? ≠ some folderInfoPrefix then .error .invalidFolderInfoPrefix
        else
          let info : FolderInfo :=
            ⟨uuid, device, [], item.2.maxSequence, item.2.indexId, item.2.introducerDeviceKey.drop 1⟩
          .ok { infos := l.infos ++ [info]
                folders := l.folders.map fun f =>
                  if f.uuid = folder.uuid then { f with infos := putInfo l.infos info f.infos } else f }

/-- `block_info_t::create` from a record, and `put`. -/
def loadBlock (s : Store) (item : Bytes × Int32) : Except LoadError Store :=
  if item.1.length ≠ digestLength + 1 then .error .invalidBlockKeyLength
  else if item.1.head? ≠ some blockInfoPrefix then .error .invalidBlockPrefix
  else .ok (s.putBlock (item.1.drop 1) item.2)

/-- One record of `file_infos_t`. -/
def loadFileInfo (allFi : List FolderInfoId) (s : Store) (item : Bytes × Db.FileInfo) : Except LoadError Store :=
  (FileDb.loadFile s allFi item.1 item.2).mapError .file

/-- One diff is applied. -/
def LoadDiff.apply (allFi : List FolderInfoId) (s : Store) : LoadDiff → Except LoadError Store
  | .blocks items => items.foldlM loadBlock s
  | .fileInfos items => items.foldlM (loadFileInfo allFi) s
  | .interrupt => .ok s
  | .removeCorruptedFiles _ => .ok s
  | .commit => .ok s

/-- The folder infos, with which the model begins. -/
def loadInfos (catalog : Catalog) (items : List (Bytes × Db.FolderInfo)) : Except LoadError Cluster := do
  let l ← items.foldlM (loadFolderInfo catalog.devices) ⟨[], catalog.folders.map fun f => ⟨f.1, f.2, []⟩⟩
  return ⟨Store.initial fun fi => l.infos.getD fi default, l.folders⟩

/-- The keys that are removed after the load. -/
def LoadDiff.removed : LoadDiff → List Bytes
  | .removeCorruptedFiles keys => keys
  | _ => []

/-- `operator()` for `remove_corrupted_files_t`, which is `remove` without a prefix. -/
def visitCorrupted (threshold : Nat) (keys : List Bytes) (v : Visit) : Option Visit := do
  let db ← keys.foldlM Db.removeBytes v.db.getTxn
  return { v with db := db.forceCommit threshold }

/-- The program starts with a table: `on_cluster_load_trigger`, `on_patrial_load`, and the diffs
are applied and visited. -/
def restart (threshold maxBlocks maxFiles fuel : Nat) (catalog : Catalog) (table : Table) : Option State := do
  let infos ← (load folderInfoPrefix table).mapM folderInfoItem
  let diffs ← partialLoad maxBlocks maxFiles fuel
    ⟨[], [], load blockInfoPrefix table, load FileDb.filePrefix table, infos.map fun item => folderInfoUuid item.1, []⟩
  let c ← (loadInfos catalog infos).toOption
  let s ← (diffs.foldlM (LoadDiff.apply ((shares c).map Prod.snd)) c.toStore).toOption
  let c : Cluster := { c with toStore := s }
  let keys := diffs.flatMap LoadDiff.removed
  let db ← visit threshold c (if keys = [] then some else visitCorrupted threshold keys) ⟨table, none, 0⟩
  return ⟨c, db⟩

/-! ## Chunks -/

namespace PartialLoad

/-- The blocks that are still to be unpacked. -/
def blockItems (p : PartialLoad) : List (Bytes × Int32) := p.blocks.filterMap blockItem

/-- The hashes that are known in the end. -/
def allHashes (p : PartialLoad) : List Bytes := p.knownHashes ++ p.blockItems.map fun item => item.1.drop 1

/-- The files that are still to be unpacked. -/
def fileItems (p : PartialLoad) : List (Bytes × Db.FileInfo) := p.files.filterMap fileItem

/-- Those that are loaded. -/
def kept (p : PartialLoad) : List (Bytes × Db.FileInfo) :=
  p.fileItems.filter (restorable p.allHashes p.folderInfosUuids)

/-- The keys of the corrupted files. -/
def corrupted (p : PartialLoad) : List Bytes :=
  p.corruptedFiles ++ (p.fileItems.filter fun item => !restorable p.allHashes p.folderInfosUuids item).map Prod.fst

end PartialLoad

/-- What all diffs together do: the blocks are loaded, then the files, and the corrupted files
are removed. -/
structure Unpacked (p : PartialLoad) (diffs : List LoadDiff) : Prop where
  apply : ∀ allFi s, diffs.foldlM (LoadDiff.apply allFi) s = do
    let s ← p.diffs.foldlM (LoadDiff.apply allFi) s
    let s ← p.blockItems.foldlM loadBlock s
    p.kept.foldlM (loadFileInfo allFi) s
  removed : diffs.flatMap LoadDiff.removed = p.diffs.flatMap LoadDiff.removed ++ p.corrupted

section Unpack

variable {maxBlocks maxFiles : Nat} {p : PartialLoad} {diffs : List LoadDiff}

/-- An interruption does nothing to the model. -/
theorem apply_interrupts {α : Type} (rest : List α) (allFi : List FolderInfoId) (s : Store) :
    (interrupts rest).foldlM (LoadDiff.apply allFi) s = .ok s := by
  unfold interrupts
  split <;> rfl

theorem removed_interrupts {α : Type} (rest : List α) : (interrupts rest).flatMap LoadDiff.removed = [] := by
  unfold interrupts
  split <;> rfl

theorem blockItems_eq (maxBlocks : Nat) (p : PartialLoad) :
    p.blockItems = (p.blocks.take maxBlocks).filterMap blockItem ++ (p.nextBlocks maxBlocks).blockItems := by
  unfold PartialLoad.blockItems
  conv_lhs => rw [← List.take_append_drop maxBlocks p.blocks]
  rw [List.filterMap_append]
  rfl

theorem allHashes_nextBlocks (maxBlocks : Nat) (p : PartialLoad) :
    (p.nextBlocks maxBlocks).allHashes = p.allHashes := by
  unfold PartialLoad.allHashes
  rw [blockItems_eq maxBlocks p, List.map_append, ← List.append_assoc]
  rfl

/-- **A chunk of blocks**. -/
theorem Unpacked.blocks (h : Unpacked (p.nextBlocks maxBlocks) diffs) : Unpacked p diffs := by
  have hkept : (p.nextBlocks maxBlocks).kept = p.kept := by
    unfold PartialLoad.kept
    rw [allHashes_nextBlocks]
    rfl
  have hcorrupted : (p.nextBlocks maxBlocks).corrupted = p.corrupted := by
    unfold PartialLoad.corrupted
    rw [allHashes_nextBlocks]
    rfl
  refine ⟨fun allFi s => ?_, ?_⟩
  · -- the chunk is the first part of what is still to be loaded
    have hdiffs : (p.nextBlocks maxBlocks).diffs.foldlM (LoadDiff.apply allFi) s =
        p.diffs.foldlM (LoadDiff.apply allFi) s >>= fun s =>
          ((p.blocks.take maxBlocks).filterMap blockItem).foldlM loadBlock s := by
      unfold PartialLoad.nextBlocks
      rw [List.foldlM_append]
      refine bind_congr fun s => ?_
      rw [List.foldlM_cons]
      exact (bind_congr fun s => apply_interrupts _ allFi s).trans (bind_pure _)
    rw [h.apply allFi s, hdiffs, hkept, blockItems_eq maxBlocks p, bind_assoc]
    simp only [List.foldlM_append, bind_assoc]
  · rw [h.removed, hcorrupted]
    unfold PartialLoad.nextBlocks
    rw [List.flatMap_append, List.flatMap_cons, removed_interrupts]
    simp [LoadDiff.removed]

/-- **A chunk of files**, when all blocks are known. -/
theorem Unpacked.files (hp : p.blocks = []) (h : Unpacked (p.nextFiles maxFiles) diffs) : Unpacked p diffs := by
  have hitems : p.blockItems = [] := by
    unfold PartialLoad.blockItems
    rw [hp]
    rfl
  have hhashes : p.allHashes = p.knownHashes := by
    unfold PartialLoad.allHashes
    rw [hitems, List.map_nil, List.append_nil]
  have hhashes' : (p.nextFiles maxFiles).allHashes = p.knownHashes := hhashes
  have hsplit : p.fileItems = (p.files.take maxFiles).filterMap fileItem ++ (p.nextFiles maxFiles).fileItems := by
    unfold PartialLoad.fileItems
    conv_lhs => rw [← List.take_append_drop maxFiles p.files]
    rw [List.filterMap_append]
    rfl
  have hkept : p.kept = ((p.files.take maxFiles).filterMap fileItem).filter
      (restorable p.knownHashes p.folderInfosUuids) ++ (p.nextFiles maxFiles).kept := by
    unfold PartialLoad.kept
    rw [hhashes, hhashes', hsplit, List.filter_append]
    rfl
  refine ⟨fun allFi s => ?_, ?_⟩
  · have hdiffs : (p.nextFiles maxFiles).diffs.foldlM (LoadDiff.apply allFi) s =
        p.diffs.foldlM (LoadDiff.apply allFi) s >>= fun s => (((p.files.take maxFiles).filterMap fileItem).filter
          (restorable p.knownHashes p.folderInfosUuids)).foldlM (loadFileInfo allFi) s := by
      unfold PartialLoad.nextFiles
      rw [List.foldlM_append]
      refine bind_congr fun s => ?_
      rw [List.foldlM_cons]
      exact (bind_congr fun s => apply_interrupts _ allFi s).trans (bind_pure _)
    have hnone : (p.nextFiles maxFiles).blockItems = [] := hitems
    rw [h.apply allFi s, hdiffs, hkept, hitems, hnone, bind_assoc]
    simp only [List.foldlM_nil, List.foldlM_append, pure_bind]
  · rw [h.removed]
    unfold PartialLoad.corrupted
    rw [hhashes, hhashes', hsplit, List.filter_append, List.map_append]
    unfold PartialLoad.nextFiles
    rw [List.flatMap_append, List.flatMap_cons, removed_interrupts]
    simp [LoadDiff.removed]

theorem unpacked_finish (hblocks : p.blocks = []) (hfiles : p.files = []) : Unpacked p p.finish := by
  refine ⟨fun allFi s => ?_, ?_⟩
  · unfold PartialLoad.finish PartialLoad.blockItems PartialLoad.kept PartialLoad.fileItems
    rw [hblocks, hfiles, List.foldlM_append]
    refine bind_congr fun s => ?_
    split <;> rfl
  · unfold PartialLoad.finish PartialLoad.corrupted PartialLoad.fileItems
    rw [hfiles, List.flatMap_append]
    split
    · rename_i hnil
      simp [LoadDiff.removed, hnil]
    · simp [LoadDiff.removed]

/-- **How large the chunks are** does not matter. -/
theorem partialLoad_spec (hblocks : 0 < maxBlocks) (hfiles : 0 < maxFiles) :
    ∀ {n : Nat} {p : PartialLoad}, p.blocks.length + p.files.length < n →
      ∃ diffs, partialLoad maxBlocks maxFiles n p = some diffs ∧ Unpacked p diffs := by
  intro n
  induction n with
  | zero => exact fun h => absurd h (Nat.not_lt_zero _)
  | succ n ih =>
    intro p hlt
    unfold partialLoad onPartialLoad
    by_cases hb : p.blocks = []
    · rw [if_neg (not_not.mpr hb)]
      by_cases hf : p.files = []
      · rw [if_neg (not_not.mpr hf)]
        exact ⟨p.finish, rfl, unpacked_finish hb hf⟩
      · -- a chunk is not empty, so less is left
        rw [if_pos hf]
        have hpos := List.length_pos_iff.mpr hf
        obtain ⟨diffs, hdiffs, hunpacked⟩ := @ih (p.nextFiles maxFiles) (by
          show p.blocks.length + (p.files.drop maxFiles).length < n
          rw [List.length_drop]
          omega)
        exact ⟨diffs, hdiffs, hunpacked.files hb⟩
    · rw [if_pos hb]
      have hpos := List.length_pos_iff.mpr hb
      obtain ⟨diffs, hdiffs, hunpacked⟩ := @ih (p.nextBlocks maxBlocks) (by
        show (p.blocks.drop maxBlocks).length + p.files.length < n
        rw [List.length_drop]
        omega)
      exact ⟨diffs, hdiffs, hunpacked.blocks⟩

/-- **Empty chunks** of blocks: the message is bounced for ever. -/
theorem partialLoad_eq_none (h : p.blocks ≠ []) (n : Nat) : partialLoad 0 maxFiles n p = none := by
  induction n generalizing p with
  | zero => rfl
  | succ n ih =>
    unfold partialLoad onPartialLoad
    rw [if_pos h]
    exact ih h

end Unpack

end Database

end SyncSpirit
