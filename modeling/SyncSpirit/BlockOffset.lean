import SyncSpirit.Controller
import SyncSpirit.FileActor
import SyncSpirit.FilePath
import SyncSpirit.FileTransfer

/-!
# Offsets of blocks (`net/controller_actor.cpp`, `model/misc/file_block.cpp`)

A block of a file is asked for, and written, by its offset: the index of its slot times the
size of the first block (`getBlockOffset`). The product has 64 bits, and the write gets all of
them (`ioAppendBlock`). The request gets what is left after a cast to 32 bits, with a sign, although
the field of the protocol has 64 (`preprocessBlock`).

The slot of the write is not the one of the request. It is the one that the block's first back
reference to the file names (`onValidated`), which is another one if the block is repeated.

- `toInt_narrow_iff`: when the cast keeps the number;
- `faithful_iff`: when a request and its write have the offset of the block.
-/

namespace SyncSpirit

namespace BlockOffset

open Controller

/-! ## `file_block_t` -/

/-- `file_block_t::LOCAL_MASK`. -/
def localMask : UInt32 := 0x80000000

/-- `file_block_t::INDEX_MASK`. -/
def indexMask : UInt32 := ~~~ localMask

/-- `file_block_t` as it is packed: the highest bit of `block_idx` is the flag. -/
structure PackedBlock where
  block : BlockId
  file : FileId
  blockIdx : UInt32
  deriving DecidableEq, Repr

namespace PackedBlock

/-- The fields of a `file_block_t` in one word. -/
def pack (block : BlockId) (file : FileId) (blockIndex : UInt32) (isLocal : Bool) : PackedBlock :=
  ⟨block, file, if isLocal then blockIndex ||| localMask else blockIndex⟩

/-- The constructor of `file_block_t`. -/
def create (s : Store) (block : BlockId) (file : FileId) (blockIndex : UInt32) : PackedBlock :=
  pack block file blockIndex (s.hasLocalFile block)

/-- `file_block_t::is_locally_available`. -/
def isLocallyAvailable (fb : PackedBlock) : Bool := fb.blockIdx &&& localMask ≠ 0

/-- `file_block_t::block_index`. -/
def blockIndex (fb : PackedBlock) : UInt32 := fb.blockIdx &&& indexMask

end PackedBlock

/-- `file_info_t::get_block_offset`. -/
def getBlockOffset (s : Store) (f : FileId) (blockIndex : UInt64) : Option UInt64 :=
  if (s.files f).isFile then
    (s.files f).slots.head?.join.map fun first => (s.blocks first.1).size.toUInt32.toUInt64 * blockIndex
  else none

/-- `file_block_t::get_offset`. -/
def PackedBlock.getOffset (s : Store) (fb : PackedBlock) : Option UInt64 :=
  getBlockOffset s fb.file fb.blockIndex.toUInt64

/-! ## The request and the write -/

/-- `static_cast<std::int32_t>` of a `std::size_t`. -/
def narrow (n : UInt64) : Int32 := n.toUInt32.toInt32

/-- `proto::Request`. -/
structure Request where
  id : Int32
  folder : String
  name : String
  offset : Int64
  size : Int32
  hash : Bytes
  deriving DecidableEq, Repr

/-- `preprocess_block`: the request it sends. A block that is available locally is cloned. -/
def preprocessBlock (s : Store) (fb : PackedBlock) (folderId : String) (requestId : UInt32) : Option Request :=
  if fb.isLocallyAvailable then none
  else (fb.getOffset s).map fun offset =>
    { id := requestId.toInt32
      folder := folderId
      name := (s.files fb.file).name
      offset := (narrow offset).toInt64
      size := (s.blocks fb.block).size.toUInt32.toInt32
      hash := (s.blocks fb.block).hash }

/-- `preprocess_block`: what the controller keeps of the request. -/
def peerRequest (s : Store) (fb : PackedBlock) (folder : FolderPtr) : PeerRequest where
  folder := folder
  name := (s.files fb.file).name
  hash := (s.blocks fb.block).hash
  size := (s.blocks fb.block).size.toUInt32.toNat
  sequence := (s.files fb.file).sequence
  blockIndex := fb.blockIndex.toNat
  block := fb.block

/-- `io_append_block`. -/
def ioAppendBlock (s : Store) (key : CacheKey) (root : List Char) (f : FileId) (blockIndex : UInt32)
    (data : Bytes) : Option AppendBlock := do
  let fileSize ← s.getSize (s.files f)
  let offset ← getBlockOffset s f blockIndex.toUInt64
  return ⟨key, String.ofList (getPath root (s.files f)), data, offset.toNat, fileSize.toNat⟩

/-- The back reference that an answer is for: the first one of the block to the file. -/
def fileBlockOf (s : Store) (f : FileId) (blockIndex : Nat) : Option PackedBlock := do
  let slot ← ((s.files f).slots[blockIndex]?).join
  let fb ← (s.blocks slot.1).fileBlocks.find? fun fb => fb.owner = f
  return .pack slot.1 f (.ofNat fb.index) fb.flag

/-- `on_digest`: the write of a block that has the right digest. Whether the block is there already is
checked before (`Controller.Context.onDigest`). -/
def onValidated (s : Store) (key : CacheKey) (root : List Char) (f : FileId) (r : PeerRequest)
    (data : Bytes) : Option AppendBlock := do
  let fb ← fileBlockOf s f r.blockIndex
  ioAppendBlock s key root f fb.blockIndex data

/-! ## Casts -/

theorem toInt_narrow (n : UInt64) : (narrow n).toInt = Int.bmod n.toNat (2 ^ 32) := by
  have htoInt : (narrow n).toInt = n.toUInt32.toBitVec.toInt := rfl
  rw [htoInt, BitVec.toInt_eq_toNat_bmod]
  have hnat : n.toUInt32.toBitVec.toNat = n.toNat % 2 ^ 32 := UInt64.toNat_toUInt32 n
  rw [hnat]
  exact Int.emod_bmod n.toNat (2 ^ 32)

/-- **The cast keeps a number** exactly when it has 31 bits. -/
theorem toInt_narrow_iff {n : UInt64} : (narrow n).toInt = n.toNat ↔ n.toNat < 2 ^ 31 := by
  rw [toInt_narrow, Int.bmod_def]
  omega

/-- The size of a block is read as it is exactly when it is not negative. -/
theorem toInt_eq_getSize_iff (b : BlockInfo) : b.size.toInt = b.getSize ↔ b.getSize < 2 ^ 31 := by
  have htoInt : b.size.toInt = Int.bmod b.size.toUInt32.toNat (2 ^ 32) := BitVec.toInt_eq_toNat_bmod _
  have hlt : b.size.toUInt32.toNat < 2 ^ 32 := UInt32.toNat_lt _
  rw [htoInt, BlockInfo.getSize, Int.bmod_def]
  omega

theorem toNat_indexMask (i : UInt32) : (i &&& indexMask).toNat = i.toNat % 2 ^ 31 := by
  have hmask : indexMask.toNat = 2 ^ 31 - 1 := rfl
  rw [UInt32.toNat_and, hmask, Nat.and_two_pow_sub_one_eq_mod]

/-- **The index is kept** by a packed block, whatever its flag is. -/
theorem toNat_blockIndex_pack (b : BlockId) (f : FileId) (i : UInt32) (isLocal : Bool) :
    (PackedBlock.pack b f i isLocal).blockIndex.toNat = i.toNat % 2 ^ 31 := by
  show (_ &&& indexMask).toNat = _
  rw [toNat_indexMask]
  cases isLocal with
  | false => rfl
  | true =>
    show (i ||| localMask).toNat % 2 ^ 31 = _
    rw [UInt32.toNat_or, Nat.or_mod_two_pow]
    exact Nat.or_zero _

theorem isLocallyAvailable_eq (fb : PackedBlock) : fb.isLocallyAvailable = fb.blockIdx.toNat.testBit 31 := by
  have hand : (fb.blockIdx &&& localMask).toNat = (fb.blockIdx.toNat.testBit 31).toNat * 2 ^ 31 := by
    rw [UInt32.toNat_and]
    exact Nat.and_two_pow _ 31
  unfold PackedBlock.isLocallyAvailable
  cases hbit : fb.blockIdx.toNat.testBit 31 with
  | false =>
    have hzero : fb.blockIdx &&& localMask = 0 := by
      rw [← UInt32.toNat_inj, hand, hbit]
      rfl
    simp [hzero]
  | true =>
    have hne : fb.blockIdx &&& localMask ≠ 0 := by
      intro hzero
      rw [hzero, hbit] at hand
      exact absurd hand (by decide)
    simp [hne]

/-- A block that is asked for has an index that leaves the flag alone. -/
theorem lt_of_not_available {b : BlockId} {f : FileId} {i : UInt32} {isLocal : Bool}
    (h : (PackedBlock.pack b f i isLocal).isLocallyAvailable = false) : i.toNat < 2 ^ 31 := by
  have hi := UInt32.toNat_lt i
  rw [isLocallyAvailable_eq] at h
  cases isLocal with
  | false =>
    have hbit : i.toNat.testBit 31 = false := h
    rw [Nat.testBit_eq_decide_div_mod_eq, decide_eq_false_iff_not] at hbit
    omega
  | true =>
    have hor : (i ||| localMask).toNat.testBit 31 = false := h
    rw [UInt32.toNat_or, Nat.testBit_or] at hor
    have hbit : localMask.toNat.testBit 31 = true := rfl
    rw [hbit, Bool.or_true] at hor
    cases hor

/-! ## Offsets -/

/-- The size of the first block, 0 if there is none. -/
def firstSize (s : Store) (f : FileId) : Nat :=
  ((s.files f).slots.head?.join.map fun first => (s.blocks first.1).size.toUInt32.toNat).getD 0

/-- **The product of the size and the index is exact.** -/
theorem getBlockOffset_spec {s : Store} {f : FileId} {i : UInt32} {offset : UInt64}
    (h : getBlockOffset s f i.toUInt64 = some offset) : offset.toNat = i.toNat * firstSize s f := by
  unfold getBlockOffset at h
  split at h
  · obtain ⟨first, hfirst, rfl⟩ := Option.map_eq_some_iff.mp h
    have hsize : firstSize s f = (s.blocks first.1).size.toUInt32.toNat := by
      rw [firstSize, hfirst]
      rfl
    have hlt : (s.blocks first.1).size.toUInt32.toNat * i.toNat < 2 ^ 64 :=
      calc (s.blocks first.1).size.toUInt32.toNat * i.toNat
          < 2 ^ 32 * 2 ^ 32 := Nat.mul_lt_mul'' (UInt32.toNat_lt _) (UInt32.toNat_lt _)
        _ = 2 ^ 64 := by norm_num
    rw [UInt64.toNat_mul, UInt32.toNat_toUInt64, UInt32.toNat_toUInt64, Nat.mod_eq_of_lt hlt, hsize,
      Nat.mul_comm]
  · cases h

/-- The file of an answer is the one that was asked for, with the same blocks. -/
structure SameFile (s v : Store) (f : FileId) : Prop where
  isFile : (v.files f).isFile = (s.files f).isFile
  targets : (v.files f).targets = (s.files f).targets
  size : ∀ b, some b ∈ (s.files f).targets → (v.blocks b).size = (s.blocks b).size

theorem head_targets (file : FileInfo) : file.targets.head?.join = file.slots.head?.join.map Prod.fst := by
  unfold FileInfo.targets
  rcases file.slots with - | ⟨- | slot, slots⟩ <;> rfl

theorem getElem_targets (file : FileInfo) (i : Nat) :
    (file.targets[i]?).join = ((file.slots[i]?).join).map Prod.fst := by
  unfold FileInfo.targets
  rw [List.getElem?_map]
  rcases file.slots[i]? with - | - | slot <;> rfl

/-- The first block of a file whose offsets are defined. -/
theorem getBlockOffset_isSome {s : Store} {f : FileId} {i : UInt64} :
    (getBlockOffset s f i).isSome ↔ (s.files f).isFile = true ∧ (s.files f).targets.head?.join ≠ none := by
  unfold getBlockOffset
  rw [head_targets]
  cases (s.files f).isFile <;> cases (s.files f).slots.head?.join <;> simp

theorem SameFile.firstSize {s v : Store} {f : FileId} (h : SameFile s v f) : firstSize v f = firstSize s f := by
  have heq (u : Store) : BlockOffset.firstSize u f =
      ((u.files f).targets.head?.join.map fun b => (u.blocks b).size.toUInt32.toNat).getD 0 := by
    rw [BlockOffset.firstSize, head_targets, Option.map_map]
    rfl
  rw [heq, heq, h.targets]
  cases hb : (s.files f).targets.head?.join with
  | none => rfl
  | some b =>
    have hmem : some b ∈ (s.files f).targets := List.mem_of_head? (Option.join_eq_some_iff.mp hb)
    simp [h.size b hmem]

/-- The lookup of an answer finds the first back reference. -/
theorem fileBlockOf_of_findBlock {view : Context.View} {peer : Sha256} {r : PeerRequest} {found : Context.Found}
    (h : Context.findBlock view peer r = .ok (some found)) :
    ∃ fb, fileBlockOf view.toStore found.file r.blockIndex = some fb ∧ fb.block = found.block := by
  unfold Context.findBlock at h
  split at h
  · cases h
  · split at h
    · cases h
    · split at h
      · cases h
      · rename_i f _
        split at h
        · cases h
        · split at h
          · cases h
          · rename_i b flag hslot
            obtain ⟨fb, hfb, hfound⟩ := Option.map_eq_some_iff.mp (Except.ok.inj h)
            subst hfound
            refine ⟨.pack b f (.ofNat fb.index) fb.flag, ?_, rfl⟩
            simp [fileBlockOf, hslot, hfb]

/-- The first back reference of a block to a file is the one of the slot. -/
def FirstAt (v : Store) (f : FileId) (b : BlockId) (i : Nat) : Prop :=
  ∃ fb, (v.blocks b).fileBlocks.find? (fun fb => fb.owner = f) = some fb ∧ fb.index % 2 ^ 31 = i

/-- A request and the write of its answer are for the bytes of a block. -/
structure Faithful (s : Store) (f : FileId) (b : BlockId) (i : Nat) (req : Request) (cmd : AppendBlock) : Prop where
  offset : req.offset.toInt = i * firstSize s f
  size : req.size.toInt = (s.blocks b).getSize
  write : cmd.offset = i * firstSize s f

/-- What is known of a request that has been sent. -/
theorem preprocessBlock_spec {s : Store} {f : FileId} {b : BlockId} {i requestId : UInt32} {folderId : String}
    {req : Request} (h : preprocessBlock s (.create s b f i) folderId requestId = some req) :
    i.toNat < 2 ^ 31 ∧ (s.files f).isFile = true ∧ (s.files f).targets.head?.join ≠ none ∧
      (req.offset.toInt = i.toNat * firstSize s f ↔ i.toNat * firstSize s f < 2 ^ 31) ∧
      (req.size.toInt = (s.blocks b).getSize ↔ (s.blocks b).getSize < 2 ^ 31) := by
  unfold preprocessBlock at h
  split at h
  · cases h
  · rename_i hfree
    obtain ⟨offset, hoffset, hreq⟩ := Option.map_eq_some_iff.mp h
    have hlt : i.toNat < 2 ^ 31 := lt_of_not_available (Bool.eq_false_iff.mpr hfree)
    have hindex : (PackedBlock.create s b f i).blockIndex = i := by
      rw [← UInt32.toNat_inj, PackedBlock.create, toNat_blockIndex_pack, Nat.mod_eq_of_lt hlt]
    have hoff : getBlockOffset s f i.toUInt64 = some offset := by
      rw [← hindex]
      exact hoffset
    have hdefined := getBlockOffset_isSome.mp (Option.isSome_of_eq_some hoff)
    refine ⟨hlt, hdefined.1, hdefined.2, ?_, ?_⟩
    · have hnarrow : req.offset.toInt = (narrow offset).toInt := by
        rw [← hreq]
        exact Int32.toInt_toInt64 _
      rw [hnarrow, ← Nat.cast_mul, ← getBlockOffset_spec hoff]
      exact toInt_narrow_iff
    · have hsize : req.size = (s.blocks b).size := by
        rw [← hreq]
        exact Int32.toInt32_toUInt32 _
      rw [hsize]
      exact toInt_eq_getSize_iff _

theorem fileBlockOf_eq_some {v : Store} {f : FileId} {b : BlockId} {i : Nat} {fb : PackedBlock}
    (htarget : ((v.files f).targets[i]?).join = some b) (h : fileBlockOf v f i = some fb) :
    ∃ e, (v.blocks b).fileBlocks.find? (fun e => e.owner = f) = some e ∧
      fb.blockIndex.toNat = e.index % 2 ^ 31 := by
  obtain ⟨slot, hslot, hfb⟩ := Option.bind_eq_some_iff.mp h
  obtain ⟨e, he, hpack⟩ := Option.bind_eq_some_iff.mp hfb
  rw [getElem_targets, hslot] at htarget
  cases htarget
  refine ⟨e, he, ?_⟩
  cases hpack
  rw [toNat_blockIndex_pack, UInt32.toNat_ofNat']
  omega

/-- The write of an answer is at the offset of the slot that the first back reference names. -/
theorem onValidated_spec {v : Store} {f : FileId} {r : PeerRequest} {fb : PackedBlock}
    (hfb : fileBlockOf v f r.blockIndex = some fb) (hfile : (v.files f).isFile = true)
    (hfirst : (v.files f).targets.head?.join ≠ none) (hslots : ∀ b ∈ (v.files f).targets, b ≠ none)
    (key : CacheKey) (root : List Char) (data : Bytes) :
    ∃ cmd, onValidated v key root f r data = some cmd ∧ cmd.data = data ∧
      cmd.offset = fb.blockIndex.toNat * firstSize v f := by
  obtain ⟨size, hsize⟩ := Store.getSize_isSome (s := v) hslots
  obtain ⟨offset, hoffset⟩ := Option.isSome_iff_exists.mp
    (getBlockOffset_isSome (i := fb.blockIndex.toUInt64).mpr ⟨hfile, hfirst⟩)
  refine ⟨⟨key, String.ofList (getPath root (v.files f)), data, offset.toNat, size.toNat⟩, ?_, rfl,
    getBlockOffset_spec hoffset⟩
  simp [onValidated, hfb, ioAppendBlock, hsize, hoffset]

/-- **Requests and writes.** A request and the write of its answer are for the bytes of the block
exactly when the offset and the size have 31 bits, and the first back reference of the block is
the one of the slot. -/
theorem faithful_iff {s : Store} {v : Context.View} {f : FileId} {b : BlockId} {i requestId : UInt32}
    {isLocal : Bool} {folder : FolderPtr} {req : Request} {peer : Sha256} {found : Context.Found}
    (hslot : ((s.files f).slots[i.toNat]?).join = some (b, isLocal)) (hslots : none ∉ (s.files f).slots)
    (hreq : preprocessBlock s (.create s b f i) folder.id requestId = some req)
    (hfound : Context.findBlock v peer (peerRequest s (.create s b f i) folder) = .ok (some found))
    (hfile : found.file = f) (hsame : SameFile s v.toStore f) (key : CacheKey) (root : List Char) (data : Bytes) :
    ∃ cmd, onValidated v.toStore key root f (peerRequest s (.create s b f i) folder) data = some cmd ∧
      (Faithful s f b i.toNat req cmd ↔
        i.toNat * firstSize s f < 2 ^ 31 ∧ (s.blocks b).getSize < 2 ^ 31 ∧
          (firstSize s f = 0 ∨ FirstAt v.toStore f b i.toNat)) := by
  subst hfile
  obtain ⟨hlt, hisFile, hfirst, hoffset, hsize⟩ := preprocessBlock_spec hreq
  obtain ⟨fb, hfb, -⟩ := fileBlockOf_of_findBlock hfound
  have hassigned : ∀ b ∈ (s.files found.file).targets, b ≠ none :=
    Store.targets_ne_none_iff.mpr fun slot hmem hnone => hslots (hnone ▸ hmem)
  obtain ⟨cmd, hcmd, -, hwrite⟩ := onValidated_spec hfb (hsame.isFile.trans hisFile)
    (by rwa [hsame.targets]) (by rwa [hsame.targets]) key root data
  have htarget : ((v.files found.file).targets[i.toNat]?).join = some b := by
    rw [hsame.targets, getElem_targets, hslot]
    rfl
  have hindex : (peerRequest s (.create s b found.file i) folder).blockIndex = i.toNat := by
    show (PackedBlock.pack b found.file i _).blockIndex.toNat = _
    rw [toNat_blockIndex_pack, Nat.mod_eq_of_lt hlt]
  rw [hindex] at hfb
  obtain ⟨e, he, hpacked⟩ := fileBlockOf_eq_some htarget hfb
  have hwrite_iff : cmd.offset = i.toNat * firstSize s found.file ↔
      firstSize s found.file = 0 ∨ FirstAt v.toStore found.file b i.toNat := by
    rw [hwrite, hpacked, hsame.firstSize, mul_eq_mul_right_iff]
    simp only [FirstAt, he, Option.some.injEq, exists_eq_left']
    exact or_comm
  refine ⟨cmd, hcmd, fun h => ⟨hoffset.mp h.offset, hsize.mp h.size, hwrite_iff.mp h.write⟩, ?_⟩
  rintro ⟨hoff, hsz, hat⟩
  exact ⟨hoffset.mpr hoff, hsize.mpr hsz, hwrite_iff.mpr hat⟩

/-- A peer with one file, of blocks of 16 MiB. -/
def largeFile (n : Nat) : Context.View where
  blocks b := ⟨[UInt8.ofNat b], 0x1000000, [⟨0, b, false⟩]⟩
  blockMap := List.range n
  nextBlock := n
  files _ := { (default : FileInfo) with
    name := "a", sequence := 1, content := .file ((List.range n).map fun b => some (b, false)) }
  nextFile := 1
  infos _ := { (default : FolderInfo) with device := [2], files := [0] }
  folders := [⟨"docs", default, [0]⟩]
  suspended _ := false

/-- The request for a block of the file. -/
def requested (n : Nat) (i : UInt32) : Option Request :=
  preprocessBlock (largeFile n).toStore (.create (largeFile n).toStore i.toNat 0 i) "docs" 0

/-- The write of the answer. -/
def written (n : Nat) (i : UInt32) (data : Bytes) : Option AppendBlock :=
  onValidated (largeFile n).toStore 0 [] 0
    (peerRequest (largeFile n).toStore (.create (largeFile n).toStore i.toNat 0 i) ⟨"docs", 0⟩) data

theorem faithful_of_second_block : ∃ req cmd, requested 3 1 = some req ∧ written 3 1 [5] = some cmd ∧
    Faithful (largeFile 3).toStore 0 1 1 req cmd := by
  have hreq : (requested 3 1).isSome = true := by decide +kernel
  obtain ⟨req, hreq⟩ := Option.isSome_iff_exists.mp hreq
  have hasked : preprocessBlock (largeFile 3).toStore (.create (largeFile 3).toStore 1 0 1)
      (FolderPtr.mk "docs" 0).id 0 = some req := hreq
  have hfound : Context.findBlock (largeFile 3) [2] (peerRequest (largeFile 3).toStore
      (.create (largeFile 3).toStore 1 0 1) ⟨"docs", 0⟩) = .ok (some ⟨0, 1, false⟩) := by rfl
  have hslot : (((largeFile 3).files 0).slots[(1 : UInt32).toNat]?).join = some (1, false) := rfl
  obtain ⟨cmd, hcmd, hiff⟩ := faithful_iff hslot (by decide +kernel) hasked hfound rfl
    ⟨rfl, rfl, fun _ _ => rfl⟩ 0 [] [5]
  exact ⟨req, cmd, hreq, hcmd, hiff.mpr ⟨by decide +kernel, by decide +kernel, .inr ⟨⟨0, 1, false⟩, rfl, rfl⟩⟩⟩

/-- The block after the first two gigabytes is asked for at a negative offset, and written at its own. -/
theorem negative_offset : ∃ req cmd, requested 129 128 = some req ∧ written 129 128 [5] = some cmd ∧
    req.offset.toInt = -2 ^ 31 ∧ cmd.offset = 2 ^ 31 ∧
      ¬ Faithful (largeFile 129).toStore 0 128 128 req cmd := by
  have hoffset : (requested 129 128).map (fun req => req.offset.toInt) = some (-2 ^ 31) := by decide +kernel
  have hwrite : (written 129 128 [5]).map AppendBlock.offset = some (2 ^ 31) := by decide +kernel
  obtain ⟨req, hreq, hoff⟩ := Option.map_eq_some_iff.mp hoffset
  obtain ⟨cmd, hcmd, hat⟩ := Option.map_eq_some_iff.mp hwrite
  refine ⟨req, cmd, hreq, hcmd, hoff, hat, fun h => ?_⟩
  have hsize : firstSize (largeFile 129).toStore 0 = 0x1000000 := by rfl
  have heq := h.offset
  rw [hoff, hsize] at heq
  exact absurd heq (by decide)

end BlockOffset

end SyncSpirit
