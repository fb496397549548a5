import SyncSpirit.IndexMessage

/-!
# Files in the database (`file_info_t::as_db`, `diff/load/file_infos.cpp`)

A file is stored under its key as a `db::FileInfo`, and `load::file_infos_t` makes
a file of both. The block slots travel as the list of the hashes; the loader
reserves slots for them only if the stored size is not zero, and the stored size is
`get_size`, which is zero for an invalid file.

The wire format of the record is not part of this repository: `encode` and `decode`
are parameters, and that a stored record is read back is a hypothesis.
-/

namespace SyncSpirit

open Fallible

/-- `uuid_length` bytes, or nothing. -/
def Uuid.ofBytes (b : Bytes) : Option Uuid := if h : b.length = 16 then some ⟨b, h⟩ else none

theorem Uuid.ofBytes_bytes (u : Uuid) : Uuid.ofBytes u.bytes = some u := by
  unfold Uuid.ofBytes
  rw [dif_pos u.length_bytes]

/-- The link target of anything but a regular file. -/
def FileInfo.linkTarget (f : FileInfo) : String :=
  match f.content with
  | .file _ => ""
  | .nonFile target => target

namespace FileDb

open Store

/-! ## Storing -/

/-- `db::prefix::file_info`. -/
def filePrefix : UInt8 := 0x13

/-- The key of a file: the prefix and `get_full_id` (db_actor.cpp:1016–1018). -/
def key (file : FileInfo) : Bytes := filePrefix :: (file.folderUuid.bytes ++ file.uuid.bytes)

/-- The hashes of the blocks, null slots skipped. -/
def blockHashes (s : Store) (file : FileInfo) : List Bytes :=
  file.targets.filterMap fun v => v.map fun b => (s.blocks b).hash

/-- The stored record, once the sizes are known. -/
def record (s : Store) (file : FileInfo) (size : Int) (blockSize : Int32) : Db.FileInfo where
  name := file.name
  type := asType file.type
  size := size
  permissions := file.permissions
  modifiedS := file.modifiedS
  modifiedNs := file.modifiedNs.toInt32
  modifiedBy := file.modifiedBy
  deleted := file.deleted
  invalid := file.invalid
  noPermissions := file.noPermissions
  version := file.version.toProto
  sequence := file.sequence
  blockSize := blockSize
  symlinkTarget := if file.isFile then "" else file.linkTarget
  blocks := if file.isFile then blockHashes s file else []

/-- `file_info_t::as_db`, with the blocks. The sizes of anything but a regular file are
zero, as fields that are not set. -/
def asDb (s : Store) (file : FileInfo) : Option Db.FileInfo := do
  let size ← s.getSize file
  let blockSize ← s.getBlockSize file
  return record s file size blockSize

/-- `file_info_t::serialize`. -/
def serialize (encode : Db.FileInfo → Bytes) (s : Store) (file : FileInfo) : Option Bytes :=
  (asDb s file).map encode

/-! ## Loading -/

/-- The errors of the loader. -/
inductive LoadError where
  | invalidFileInfoKeyLength
  | invalidFileInfoPrefix
  | assertion
  deriving DecidableEq, Repr

/-- A value that is asserted to be there. -/
def asserted {α : Type} : Option α → Except LoadError α
  | some a => .ok a
  | none => .error .assertion

theorem asserted_ok {α : Type} {o : Option α} {a : α} : asserted o = .ok a ↔ o = some a := by
  cases o <;> simp [asserted]

/-- `file_info_t::create` from a database record. -/
def createFile (key : Bytes) (data : Db.FileInfo) (info : FolderInfo) : Except LoadError FileInfo :=
  if key.length ≠ 33 then .error .invalidFileInfoKeyLength
  else if key.head? ≠ some filePrefix then .error .invalidFileInfoPrefix
  else do
    let folderUuid ← asserted (Uuid.ofBytes ((key.drop 1).take 16))
    let uuid ← asserted (Uuid.ofBytes (key.drop 17))
    if folderUuid = info.uuid then asserted (FileInfo.fieldsUpdate folderUuid uuid data.fields)
    else .error .assertion

/-- One record of `load::file_infos_t`; `allFi` are the folder infos of the cluster. -/
def loadFile (s : Store) (allFi : List FolderInfoId) (key : Bytes) (data : Db.FileInfo) :
    Except LoadError Store := do
  let fi ← asserted (allFi.find? fun fi => (s.infos fi).uuid.bytes = (key.drop 1).take 16)
  let file ← createFile key data (s.infos fi)
  let t ← asserted (assignHashes s.nextFile (s.create file) 0 data.blocks)
  return t.addRelaxed fi s.nextFile

/-! ## The round trip -/

/-- The loaded file is the stored one. -/
structure SameFile (s : Store) (file : FileInfo) (t : Store) (loaded : FileInfo) : Prop where
  uuid : loaded.uuid = file.uuid
  folderUuid : loaded.folderUuid = file.folderUuid
  name : loaded.name = file.name
  type : loaded.type = file.type
  deleted : loaded.deleted = file.deleted
  invalid : loaded.invalid = file.invalid
  noPermissions : loaded.noPermissions = file.noPermissions
  permissions : loaded.permissions = file.permissions
  modifiedS : loaded.modifiedS = file.modifiedS
  modifiedNs : loaded.modifiedNs = file.modifiedNs
  modifiedBy : loaded.modifiedBy = file.modifiedBy
  version : loaded.version = file.version
  sequence : loaded.sequence = file.sequence
  linkTarget : loaded.linkTarget = file.linkTarget
  size : t.getSize loaded = s.getSize file
  hashes : loaded.targets.map (Option.map fun b => (t.blocks b).hash) =
    file.targets.map (Option.map fun b => (s.blocks b).hash)

/-- A file that survives: all slots are assigned, a file with blocks is neither deleted nor
invalid and its last block is not empty or what the blocks before it come to is not a multiple of
`2 ^ 32`, and the marked counter of its version is the first largest one. -/
structure Storable (s : Store) (file : FileInfo) : Prop where
  assigned : ∀ v ∈ file.slots, v ≠ none
  live : file.slots ≠ [] → file.deleted = false ∧ file.invalid = false
  sized : file.slots ≠ [] → ∃ first last, file.targets.head? = some (some first) ∧
    file.targets.getLast? = some (some last) ∧ ((s.blocks last).size ≠ 0 ∨
      ¬ (2 ^ 32 : Int) ∣ (file.targets.length - 1 : Nat) * (s.blocks first).getSize)
  version : file.version.OneBest

/-- The blocks of the file are in the block map. -/
def KnownBlocks (s : Store) (file : FileInfo) : Prop :=
  ∀ b, some b ∈ file.targets → s.byHash (s.blocks b).hash = some b

/-- The two block maps have blocks of the same hashes and sizes. -/
def SameBlockMap (s t : Store) : Prop :=
  ∀ hash, (t.byHash hash).map (fun b => (t.blocks b).size) =
    (s.byHash hash).map fun b => (s.blocks b).size

theorem asDb_eq_some {s : Store} {file : FileInfo} {r : Db.FileInfo} :
    asDb s file = some r ↔ ∃ size blockSize, s.getSize file = some size ∧
      s.getBlockSize file = some blockSize ∧ r = record s file size blockSize := by
  simp only [asDb, Option.bind_eq_bind, Option.bind_eq_some_iff, Option.pure_def, Option.some.injEq]
  constructor
  · rintro ⟨size, hsize, blockSize, hblock, rfl⟩
    exact ⟨size, blockSize, hsize, hblock, rfl⟩
  · rintro ⟨size, blockSize, hsize, hblock, rfl⟩
    exact ⟨size, hsize, blockSize, hblock, rfl⟩

/-- Where the key has the uuid of the folder info. -/
theorem take_key (file : FileInfo) : ((key file).drop 1).take 16 = file.folderUuid.bytes := by
  simp [key, file.folderUuid.length_bytes]

/-- The key names its file and its folder info. -/
theorem createFile_key {file : FileInfo} {info : FolderInfo} (hinfo : info.uuid = file.folderUuid)
    (data : Db.FileInfo) :
    createFile (key file) data info =
      asserted (FileInfo.fieldsUpdate file.folderUuid file.uuid data.fields) := by
  have hfolder := file.folderUuid.length_bytes
  have hfile := file.uuid.length_bytes
  have hlen : (key file).length = 33 := by simp [key, hfolder, hfile]
  have hdrop : (key file).drop 17 = file.uuid.bytes := by
    show (file.folderUuid.bytes ++ file.uuid.bytes).drop 16 = _
    rw [← hfolder, List.drop_left]
  unfold createFile
  rw [if_neg (by simpa using hlen), if_neg (by simp [key]), take_key, hdrop, Uuid.ofBytes_bytes,
    Uuid.ofBytes_bytes]
  show (if file.folderUuid = info.uuid then _ else _) = _
  rw [if_pos hinfo.symm]

theorem find_folderInfo {s : Store} {allFi : List FolderInfoId} {file : FileInfo}
    (hfi : ∃ fi ∈ allFi, (s.infos fi).uuid = file.folderUuid) :
    ∃ fi, allFi.find? (fun fi => (s.infos fi).uuid.bytes = ((key file).drop 1).take 16) = some fi ∧
      (s.infos fi).uuid = file.folderUuid := by
  have hext : ∀ u v : Uuid, u.bytes = v.bytes → u = v := by
    rintro ⟨_, _⟩ ⟨_, _⟩ rfl
    rfl
  rw [take_key]
  obtain ⟨fi, hmem, huuid⟩ := hfi
  cases hfind : allFi.find? (fun fi => (s.infos fi).uuid.bytes = file.folderUuid.bytes) with
  | none => simpa [huuid] using List.find?_eq_none.mp hfind fi hmem
  | some fi' => exact ⟨fi', rfl, hext _ _ (by simpa using List.find?_some hfind)⟩

/-- The file that `fields_update` makes of a stored record, with the slots `l`. -/
def restored (file : FileInfo) (l : List (Option Slot)) : FileInfo :=
  { file with
    content := if file.isFile then .file l else .nonFile file.linkTarget
    version := Version.ofProto file.version.toProto
    unreachable := false
    isLocal := false
    available := false }

theorem fieldsUpdate_record {s : Store} {file : FileInfo} (hname : file.name ≠ "")
    (hcount : file.version.counters ≠ [])
    (size : Int) (blockSize : Int32) :
    FileInfo.fieldsUpdate file.folderUuid file.uuid (record s file size blockSize).fields =
      some (restored file (List.replicate
        (if size ≠ 0 then (record s file size blockSize).blocks.length else 0) none)) := by
  have hne : ¬ ((record s file size blockSize).fields.name = "" ∨
      (record s file size blockSize).fields.version.counters = []) := by
    show ¬ (file.name = "" ∨ file.version.toProto.counters = [])
    simpa [Version.toProto, hname] using hcount
  have hns : file.modifiedNs.toInt32.toUInt32 = file.modifiedNs := by simp
  unfold FileInfo.fieldsUpdate
  rw [if_neg hne]
  show some _ = some _
  congr 1
  cases htype : file.type <;>
    simp [record, Db.FileInfo.fields, restored, asType, asFlags, FileInfo.isFile, htype]

/-- What the loader makes of a stored record, if all hashes are known. -/
theorem loadFile_spec {s t : Store} {file : FileInfo} (hname : file.name ≠ "")
    (hcount : file.version.counters ≠ [])
    {allFi : List FolderInfoId} (hfi : ∃ fi ∈ allFi, (t.infos fi).uuid = file.folderUuid)
    (size : Int) (blockSize : Int32)
    (hknown : ∀ hash ∈ (record s file size blockSize).blocks, (t.byHash hash).isSome = true) :
    (∀ u, loadFile t allFi (key file) (record s file size blockSize) = .ok u →
      size ≠ 0 ∨ (record s file size blockSize).blocks = []) ∧
    (size ≠ 0 ∨ (record s file size blockSize).blocks = [] →
      ∃ u, loadFile t allFi (key file) (record s file size blockSize) = .ok u ∧
        (∀ b, (u.blocks b).hash = (t.blocks b).hash) ∧ (∀ b, (u.blocks b).size = (t.blocks b).size) ∧
        u.files t.nextFile = restored file ((record s file size blockSize).blocks.map fun hash =>
          (t.byHash hash).map fun b => (b, false))) := by
  obtain ⟨fi, hfind, huuid⟩ := find_folderInfo hfi
  have hload : ∀ l, FileInfo.fieldsUpdate file.folderUuid file.uuid
      (record s file size blockSize).fields = some (restored file l) →
      loadFile t allFi (key file) (record s file size blockSize) =
        (asserted (assignHashes t.nextFile (t.create (restored file l)) 0
          (record s file size blockSize).blocks)).map fun u => u.addRelaxed fi t.nextFile := by
    intro l hl
    unfold loadFile
    rw [hfind]
    show (createFile (key file) _ (t.infos fi)).bind _ = _
    rw [createFile_key huuid, hl]
    show (asserted (assignHashes t.nextFile (t.create (restored file l)) 0
      (record s file size blockSize).blocks)).bind _ = _
    cases assignHashes t.nextFile (t.create (restored file l)) 0
      (record s file size blockSize).blocks <;> rfl
  have hfields := fieldsUpdate_record hname hcount (s := s) size blockSize
  rw [hload _ hfields]
  have hnew : ∀ l, (t.create (restored file l)).files t.nextFile = restored file l := fun l =>
    Function.update_self ..
  have hblocks : (record s file size blockSize).blocks ≠ [] → file.isFile = true := by
    intro hne
    by_contra hf
    simp [record, hf] at hne
  constructor
  · intro u hu
    by_contra hcon
    push Not at hcon
    obtain ⟨rfl, hne⟩ := hcon
    have hnil : ((t.create (restored file (List.replicate
        (if (0 : Int) ≠ 0 then (record s file 0 blockSize).blocks.length else 0) none))).files
          t.nextFile).slots = [] := by
      rw [hnew]
      simp [restored, FileInfo.slots, hblocks hne]
    rw [assignHashes_of_nil hnil hne] at hu
    cases hu
  · intro hor
    by_cases hnil : (record s file size blockSize).blocks = []
    · rw [hnil]
      refine ⟨_, rfl, fun b => rfl, fun b => rfl, ?_⟩
      show (t.create _).files t.nextFile = _
      rw [hnew]
      simp
    · have hsize : size ≠ 0 := hor.resolve_right hnil
      have hf := hblocks hnil
      rw [if_pos hsize]
      obtain ⟨u, hu, hsame, hfile⟩ := @assignHashes_spec t.nextFile
        (record s file size blockSize).blocks (t.create (restored file (List.replicate
          (record s file size blockSize).blocks.length none))) []
        (by rw [hnew]; exact hf)
        (by rw [hnew]; simp [restored, FileInfo.slots, hf]) hknown
      rw [hnew, List.nil_append] at hfile
      have hu' : assignHashes t.nextFile (t.create (restored file (List.replicate
          (record s file size blockSize).blocks.length none))) 0
            (record s file size blockSize).blocks = some u := hu
      rw [hu']
      refine ⟨_, rfl, hsame.hash, hsame.size, ?_⟩
      show u.files t.nextFile = _
      rw [hfile]
      simp only [restored, FileInfo.setSlots, hf, if_true]
      rfl

/-- The restored file, up to what is derived from the slots. -/
theorem sameFile_restored {s u : Store} {file : FileInfo} (hc : file.Coherent)
    {l : List (Option Slot)} :
    SameFile s file u (restored file l) ↔ file.version.OneBest ∧
      u.getSize (restored file l) = s.getSize file ∧
      (restored file l).targets.map (Option.map fun b => (u.blocks b).hash) =
        file.targets.map (Option.map fun b => (s.blocks b).hash) := by
  have hlink : (restored file l).linkTarget = file.linkTarget := by
    unfold FileInfo.linkTarget restored
    dsimp only
    by_cases hf : file.isFile
    · obtain ⟨blocks, hcontent⟩ := hc.mp hf
      rw [if_pos hf, hcontent]
    · rw [if_neg hf]
      rfl
  constructor
  · intro h
    exact ⟨(Version.ofProto_toProto_iff _).mp h.version, h.size, h.hashes⟩
  · rintro ⟨hversion, hsize, hhashes⟩
    exact { uuid := rfl, folderUuid := rfl, name := rfl, type := rfl, deleted := rfl, invalid := rfl
            noPermissions := rfl, permissions := rfl, modifiedS := rfl, modifiedNs := rfl
            modifiedBy := rfl, version := (Version.ofProto_toProto_iff _).mpr hversion
            sequence := rfl, linkTarget := hlink, size := hsize, hashes := hhashes }

/-- The ends of a file with blocks. -/
theorem exists_ends {file : FileInfo} (hne : file.slots ≠ []) (hassigned : ∀ v ∈ file.targets, v ≠ none) :
    ∃ first last, file.targets.head? = some (some first) ∧ file.targets.getLast? = some (some last) := by
  have htargets : file.targets ≠ [] := by simpa [FileInfo.targets] using hne
  obtain ⟨first, hfirst⟩ := Option.ne_none_iff_exists'.mp (hassigned _ (List.head_mem htargets))
  obtain ⟨last, hlast⟩ := Option.ne_none_iff_exists'.mp (hassigned _ (List.getLast_mem htargets))
  exact ⟨first, last, by rw [List.head?_eq_some_head htargets, hfirst],
    by rw [List.getLast?_eq_some_getLast htargets, hlast]⟩

/-- When the size of a file with blocks is zero. -/
theorem getSize_eq_zero {s : Store} {file : FileInfo} (hc : file.Coherent) (hne : file.slots ≠ [])
    {first last : BlockId} (hhead : file.targets.head? = some (some first))
    (hgetLast : file.targets.getLast? = some (some last)) :
    s.getSize file = some 0 ↔ file.deleted = true ∨ file.invalid = true ∨
      (s.blocks last).size = 0 ∧ (2 ^ 32 : Int) ∣ (file.targets.length - 1 : Nat) * (s.blocks first).getSize := by
  have hzero : (s.blocks last).getSize = 0 ↔ (s.blocks last).size = 0 := by
    show ((s.blocks last).size.toUInt32.toNat : Int) = 0 ↔ _
    rw [Int.natCast_eq_zero, ← UInt32.toNat_zero, UInt32.toNat_inj]
    exact ⟨fun h => congrArg UInt32.toInt32 h, fun h => by rw [h]; rfl⟩
  have hf : file.isFile = true := by
    by_contra hf
    exact hne (hc.slots_eq_nil (by simpa using hf))
  rw [← hzero]
  unfold getSize
  by_cases hlive : file.deleted = true ∨ file.invalid = true
  · rcases hlive with h | h <;> simp [h]
  · push Not at hlive
    have hdel : file.deleted = false := by simpa using hlive.1
    have hinv : file.invalid = false := by simpa using hlive.2
    simp only [hf, hdel, hinv, hhead, hgetLast, blockSize, Bool.not_false, Bool.and_self, if_true,
      Option.map_some, Option.bind_eq_bind, Option.bind_some, Bool.false_eq_true, false_or]
    by_cases hone : file.targets.length = 1
    · simp [hone]
    · -- neither of the two parts is negative
      have hlast0 : 0 ≤ (s.blocks last).getSize := Int.natCast_nonneg _
      have hrest0 := Int.emod_nonneg ((file.targets.length - 1 : Nat) * (s.blocks first).getSize)
        (show (2 ^ 32 : Int) ≠ 0 by decide)
      simp only [hone, if_false, Option.pure_def, Option.some.injEq]
      rw [Int.dvd_iff_emod_eq_zero]
      constructor
      · intro h
        omega
      · rintro ⟨hlast, hrest⟩
        rw [hlast, hrest]
        rfl

/-- The hashes that are stored. -/
theorem blocks_record {s : Store} {file : FileInfo} (hc : file.Coherent) (size : Int)
    (blockSize : Int32) : (record s file size blockSize).blocks = blockHashes s file := by
  cases hf : file.isFile with
  | true => simp [record, hf]
  | false => simp [record, hf, blockHashes, FileInfo.targets, hc.slots_eq_nil hf]

/-- The block a stored hash is found under has the size of the block it was stored for. -/
theorem byHash_of_known {s t : Store} {file : FileInfo} (hknown : KnownBlocks s file)
    (hmap : SameBlockMap s t) {b : BlockId} (hb : some b ∈ file.targets) :
    ∃ b', t.byHash (s.blocks b).hash = some b' ∧ (t.blocks b').hash = (s.blocks b).hash ∧
      (t.blocks b').size = (s.blocks b).size := by
  have heq := hmap (s.blocks b).hash
  rw [hknown b hb] at heq
  obtain ⟨b', hb', hsize⟩ := Option.map_eq_some_iff.mp heq
  exact ⟨b', hb', (byHash_eq_some hb').2, hsize⟩

/-- The slots of the loaded file. -/
def loadedSlots (s t : Store) (file : FileInfo) : List (Option Slot) :=
  (blockHashes s file).map fun hash => (t.byHash hash).map fun b => (b, false)

/-- They point to the blocks with the hashes of the stored file. -/
theorem targets_restored {s t : Store} {file : FileInfo} (hc : file.Coherent)
    (hassigned : ∀ v ∈ file.targets, v ≠ none) :
    (restored file (loadedSlots s t file)).targets =
      file.targets.map fun v => (v.map fun b => (s.blocks b).hash).bind t.byHash := by
  have hfst : ∀ o : Option BlockId, (o.map fun b => (b, false)).map Prod.fst = o := by
    intro o
    cases o <;> rfl
  have hlist : ∀ l : List (Option BlockId), (∀ v ∈ l, v ≠ none) →
      ((l.filterMap fun v => v.map fun b => (s.blocks b).hash).map fun hash =>
        (t.byHash hash).map fun b => (b, false)).map (Option.map Prod.fst) =
      l.map fun v => (v.map fun b => (s.blocks b).hash).bind t.byHash := by
    intro l
    induction l with
    | nil => exact fun _ => rfl
    | cons v l ih =>
      intro hl
      obtain ⟨b, rfl⟩ := Option.ne_none_iff_exists'.mp (hl v (List.mem_cons_self ..))
      simp only [List.filterMap_cons, Option.map_some, List.map_cons, hfst,
        ih fun v hv => hl v (List.mem_cons_of_mem _ hv), Option.bind_some]
  have htargets : file.isFile = false → file.targets = [] := by
    intro hf
    rw [FileInfo.targets, hc.slots_eq_nil hf]
    rfl
  cases hf : file.isFile with
  | true =>
    have hslots : (restored file (loadedSlots s t file)).slots = loadedSlots s t file := by
      simp [restored, FileInfo.slots, hf]
    rw [FileInfo.targets, hslots]
    exact hlist _ hassigned
  | false =>
    rw [htargets hf]
    simp [restored, FileInfo.targets, FileInfo.slots, hf]

/-- No slot of a loaded file is null. -/
theorem restored_assigned {s t : Store} {file : FileInfo} (hknown : KnownBlocks s file)
    (hmap : SameBlockMap s t) :
    ∀ v ∈ (restored file (loadedSlots s t file)).targets, v ≠ none := by
  intro v hv
  rw [FileInfo.targets, List.mem_map] at hv
  obtain ⟨w, hw, rfl⟩ := hv
  unfold FileInfo.slots restored at hw
  by_cases hf : file.isFile
  · simp only [hf, if_true] at hw
    obtain ⟨hash, hmem, rfl⟩ := List.mem_map.mp hw
    obtain ⟨v, hv, heq⟩ := List.mem_filterMap.mp hmem
    obtain ⟨b, rfl, rfl⟩ := Option.map_eq_some_iff.mp heq
    obtain ⟨b', hb', -⟩ := byHash_of_known hknown hmap hv
    simp [hb']
  · simp [hf] at hw

section RoundTrip

variable {s t : Store} {file : FileInfo} (hc : file.Coherent) (hname : file.name ≠ "")
  (hcount : file.version.counters ≠ [])
  (hknown : KnownBlocks s file) (hmap : SameBlockMap s t) {allFi : List FolderInfoId}
  (hfi : ∃ fi ∈ allFi, (t.infos fi).uuid = file.folderUuid)

include hc hname hcount hknown hmap hfi

/-- The loader, applied to a stored file. -/
theorem load_record (size : Int) (blockSize : Int32) :
    (∀ u, loadFile t allFi (key file) (record s file size blockSize) = .ok u →
      size ≠ 0 ∨ blockHashes s file = []) ∧
    (size ≠ 0 ∨ blockHashes s file = [] →
      ∃ u, loadFile t allFi (key file) (record s file size blockSize) = .ok u ∧
        (∀ b, (u.blocks b).hash = (t.blocks b).hash) ∧ (∀ b, (u.blocks b).size = (t.blocks b).size) ∧
        u.files t.nextFile = restored file (loadedSlots s t file)) := by
  have hblocks := blocks_record (s := s) hc size blockSize
  have hspec := @loadFile_spec s t file hname hcount allFi hfi size blockSize (by
    intro hash hmem
    rw [hblocks, blockHashes, List.mem_filterMap] at hmem
    obtain ⟨v, hv, heq⟩ := hmem
    obtain ⟨b, rfl, rfl⟩ := Option.map_eq_some_iff.mp heq
    obtain ⟨b', hb', -⟩ := byHash_of_known hknown hmap hv
    rw [hb']
    rfl)
  rw [hblocks] at hspec
  exact hspec

/-- A file that is loaded as it was is storable. -/
theorem storable_of_loaded {size : Int} {blockSize : Int32} (hsize : s.getSize file = some size)
    {u : Store} (hload : loadFile t allFi (key file) (record s file size blockSize) = .ok u)
    (hsame : SameFile s file u (u.files t.nextFile)) : Storable s file := by
  obtain ⟨honly, hif⟩ := load_record hc hname hcount hknown hmap hfi size blockSize
  obtain ⟨u', hu', hhash, -, hfile⟩ := hif (honly u hload)
  rw [hload] at hu'
  cases hu'
  rw [hfile, sameFile_restored hc] at hsame
  obtain ⟨hversion, -, hhashes⟩ := hsame
  have hassigned : ∀ v ∈ file.targets, v ≠ none := by
    rintro v hv rfl
    have hmem : (none : Option Bytes) ∈ file.targets.map (Option.map fun b => (s.blocks b).hash) :=
      List.mem_map.mpr ⟨none, hv, rfl⟩
    rw [← hhashes, List.mem_map] at hmem
    obtain ⟨w, hw, hwnone⟩ := hmem
    exact restored_assigned hknown hmap w hw (Option.map_eq_none_iff.mp hwnone)
  have hsized : file.slots ≠ [] → s.getSize file ≠ some 0 := by
    intro hne hzero
    rw [hsize] at hzero
    cases hzero
    have hnil := (honly u hload).resolve_left (fun h => h rfl)
    rw [blockHashes, List.filterMap_eq_nil_iff] at hnil
    obtain ⟨v, hv⟩ := List.exists_mem_of_ne_nil _ hne
    have hmem : v.map Prod.fst ∈ file.targets := List.mem_map_of_mem hv
    exact hassigned _ hmem (Option.map_eq_none_iff.mp (hnil _ hmem))
  refine ⟨fun v hv hvnone => ?_, fun hne => ?_, fun hne => ?_, hversion⟩
  · exact hassigned none (List.mem_map.mpr ⟨v, hv, by rw [hvnone]; rfl⟩) rfl
  · obtain ⟨first, last, hhead, hlast⟩ := exists_ends hne hassigned
    have hpos := mt (getSize_eq_zero hc hne hhead hlast).mpr (hsized hne)
    rw [not_or, not_or] at hpos
    exact ⟨by simpa using hpos.1, by simpa using hpos.2.1⟩
  · obtain ⟨first, last, hhead, hlast⟩ := exists_ends hne hassigned
    have hpos := mt (getSize_eq_zero hc hne hhead hlast).mpr (hsized hne)
    rw [not_or, not_or] at hpos
    exact ⟨first, last, hhead, hlast, not_and_or.mp hpos.2.2⟩

/-- A storable file is loaded as it was. -/
theorem loaded_of_storable (h : Storable s file) :
    ∃ r u, asDb s file = some r ∧ loadFile t allFi (key file) r = .ok u ∧
      SameFile s file u (u.files t.nextFile) := by
  have hassigned : ∀ v ∈ file.targets, v ≠ none := by
    intro v hv
    obtain ⟨w, hw, rfl⟩ := List.mem_map.mp hv
    obtain ⟨p, rfl⟩ := Option.ne_none_iff_exists'.mp (h.assigned w hw)
    exact Option.some_ne_none _
  obtain ⟨size, hsize⟩ := @Store.getSize_isSome s file hassigned
  obtain ⟨bs, hblock⟩ := @Store.getBlockSize_isSome s file hassigned
  obtain ⟨-, hif⟩ := load_record hc hname hcount hknown hmap hfi size bs
  have hor : size ≠ 0 ∨ blockHashes s file = [] := by
    by_cases hnil : file.slots = []
    · right
      simp [blockHashes, FileInfo.targets, hnil]
    · left
      rintro rfl
      obtain ⟨hdel, hinv⟩ := h.live hnil
      obtain ⟨first, last, hhead, hlast, hne⟩ := h.sized hnil
      rcases (getSize_eq_zero hc hnil hhead hlast).mp hsize with hd | hi | hzero
      · exact absurd hd (by simp [hdel])
      · exact absurd hi (by simp [hinv])
      · exact hne.elim (fun hne => hne hzero.1) fun hne => hne hzero.2
  obtain ⟨u, hu, hhash, hsizes, hfile⟩ := hif hor
  refine ⟨_, u, asDb_eq_some.mpr ⟨size, bs, hsize, hblock, rfl⟩, hu, ?_⟩
  rw [hfile, sameFile_restored hc, targets_restored hc hassigned]
  refine ⟨h.version, getSize_congr rfl rfl rfl ?_, ?_⟩
  · rw [targets_restored hc hassigned, List.map_map]
    refine List.map_congr_left fun v hv => ?_
    obtain ⟨b, rfl⟩ := Option.ne_none_iff_exists'.mp (hassigned v hv)
    obtain ⟨b', hby, -, hsz⟩ := byHash_of_known hknown hmap hv
    simp [hby, blockSize, BlockInfo.getSize, hsizes, hsz]
  · rw [List.map_map]
    refine List.map_congr_left fun v hv => ?_
    obtain ⟨b, rfl⟩ := Option.ne_none_iff_exists'.mp (hassigned v hv)
    obtain ⟨b', hby, hh, -⟩ := byHash_of_known hknown hmap hv
    simp [hby, hhash, hh]

/-- **The database round trip**: a file is stored and loaded again as it was exactly when
it is storable. -/
theorem roundTrip_iff {encode : Db.FileInfo → Bytes} {decode : Bytes → Option Db.FileInfo}
    (hcodec : ∀ r, asDb s file = some r → decode (encode r) = some r) :
    (∃ data r u, serialize encode s file = some data ∧ decode data = some r ∧
      loadFile t allFi (key file) r = .ok u ∧ SameFile s file u (u.files t.nextFile)) ↔
      Storable s file := by
  constructor
  · rintro ⟨data, r, u, hdata, hr, hload, hsame⟩
    obtain ⟨r', hr', rfl⟩ := Option.map_eq_some_iff.mp hdata
    rw [hcodec r' hr'] at hr
    cases hr
    obtain ⟨size, blockSize, hsize, -, rfl⟩ := asDb_eq_some.mp hr'
    exact storable_of_loaded hc hname hcount hknown hmap hfi hsize hload hsame
  · intro h
    obtain ⟨r, u, hr, hload, hsame⟩ := loaded_of_storable hc hname hcount hknown hmap hfi h
    exact ⟨encode r, r, u, by rw [serialize, hr]; rfl, hcodec r hr, hload, hsame⟩

end RoundTrip

open UpdateFolder

/-- A hash of 32 bytes that starts with `b`. -/
def paddedHash (b : UInt8) : Bytes := b :: List.replicate 31 0

/-- A store with one block of 5 bytes. -/
def oneBlock : Store := newPeer.toStore.pushBlock (paddedHash 7) 5

/-- A peer's regular file with that block. -/
def oneBlockFile : FileInfo :=
  { (default : FileInfo) with
    name := "a"
    sequence := 1
    content := .file [some (0, false)]
    version := Version.ofProto ⟨[⟨2, 1⟩]⟩
    type := .file }

/-- Its record on the wire. -/
def oneBlockBytes : Bytes :=
  [0x0A, 1, 0x61, 0x10, 0, 0x18, 5, 0x20, 0, 0x28, 0, 0x58, 0, 0x60, 0, 0x30, 0, 0x38, 0,
   0x40, 0, 0x4A, 6, 0x0A, 4, 8, 2, 0x10, 1, 0x50, 1, 0x68, 5, 0x8A, 1, 32] ++ paddedHash 7

/-- A file with one block is stored and loaded again. -/
theorem roundTrip_of_oneBlockFile :
    ∃ data r u, serialize (fun _ => oneBlockBytes) oneBlock oneBlockFile = some data ∧
      (if data = oneBlockBytes then some (record oneBlock oneBlockFile 5 5) else none) = some r ∧
      loadFile oneBlock [0] (key oneBlockFile) r = .ok u ∧
      SameFile oneBlock oneBlockFile u (u.files oneBlock.nextFile) := by
  have hstorable : Storable oneBlock oneBlockFile :=
    ⟨by decide, by decide, fun _ => ⟨0, 0, rfl, rfl, .inl (by decide)⟩, by decide⟩
  have hcoherent : oneBlockFile.Coherent := ⟨fun _ => ⟨_, rfl⟩, fun _ => rfl⟩
  have hknown : KnownBlocks oneBlock oneBlockFile := by
    intro b hb
    have : b = 0 := by simpa [oneBlockFile, FileInfo.targets, FileInfo.slots] using hb
    subst this
    decide
  refine (@roundTrip_iff _ oneBlock _ hcoherent (by decide) (by decide) hknown (fun _ => rfl) [0]
    ⟨0, by decide, by decide⟩ (fun _ => oneBlockBytes) (fun data =>
      if data = oneBlockBytes then some (record oneBlock oneBlockFile 5 5) else none) ?_).mpr hstorable
  intro r hr
  have heq : asDb oneBlock oneBlockFile = some (record oneBlock oneBlockFile 5 5) := by decide
  rw [heq] at hr
  cases hr
  exact if_pos rfl

/-- An invalid file with a size and a block. -/
def announceInvalid : Proto.FileInfo := { announce "a" 1 7 with invalid := true }

/-- An announced invalid file is accepted with its block, stored with the size zero, and
cannot be loaded again. -/
theorem assertion_of_invalid :
    create newPeer (fun k => Uuid.ofByte k.toUInt8) [2] ⟨"docs", [announceInvalid]⟩ =
      .ok (announceDiff [announceInvalid]) ∧
    ∃ t r, apply newPeer (announceDiff [announceInvalid]) = some t ∧ (t.infos 0).files = [0] ∧
      asDb t (t.files 0) = some r ∧ r.size = 0 ∧ r.blocks = [paddedHash 7] ∧
      loadFile t [0] (key (t.files 0)) r = .error .assertion := by
  refine ⟨rfl, _, _, rfl, rfl, rfl, rfl, rfl, rfl⟩

end FileDb

end SyncSpirit
