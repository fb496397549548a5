import SyncSpirit.FileInfo
import SyncSpirit.Lib.Backlink

/-!
# Blocks, files and folder infos (`model/block_info.cpp`, `model/file_info.cpp`)

The objects of the model refer to each other: a file's slots point to blocks, and
every block has a list of `file_block_t`, one for each slot that points to it. A
file and a block are therefore objects with an address, and `Store` is the heap
of both together with the block map and the folder infos.

`Store.graph` forgets everything but slots and back references; every operation
on blocks is one of `Backlink.Graph` there (`graph_assignBlock`,
`graph_removeBlocks`, `graph_markLocalAvailable`), and `SameBut` says that it
touches one file and the back references only.

A failed `assert` and a dereferenced null pointer are `none`. The assertion of
`unlink` that something has been removed is left out: in a linked store it holds
(`Linked.mem_indices`).
-/

namespace SyncSpirit

open Backlink

/-- `file_block_t`: the file, the index of the slot and its own `LOCAL_MASK`. -/
abbrev FileBlock := Entry FileId

/-- `block_info_t`. -/
structure BlockInfo where
  hash : Bytes
  size : Int32
  fileBlocks : List FileBlock
  deriving DecidableEq, Repr, Inhabited

/-- `block_info_t::get_size`: the signed size, read as unsigned. -/
def BlockInfo.getSize (b : BlockInfo) : Int := b.size.toUInt32.toNat

/-- The address of a `folder_info_t`. -/
abbrev FolderInfoId := Nat

/-- The sha256 of a device's certificate, which identifies the device. -/
abbrev Sha256 := Bytes

/-- `folder_info_t`: the files of one device in one folder, and who has introduced the
device there. -/
structure FolderInfo where
  uuid : Uuid
  device : Sha256
  files : List FileId
  maxSequence : Int
  index : UInt64
  introducer : Sha256
  deriving DecidableEq, Repr, Inhabited

/-- The heap, the block map of the cluster and the folder infos. Addresses from
`nextBlock` and `nextFile` on are free. -/
structure Store where
  blocks : BlockId → BlockInfo
  blockMap : List BlockId
  nextBlock : BlockId
  files : FileId → FileInfo
  nextFile : FileId
  infos : FolderInfoId → FolderInfo

namespace Store

/-- The slots and the back references. -/
def graph (s : Store) : Backlink.Graph FileId BlockId :=
  ⟨fun f => (s.files f).slots, fun b => (s.blocks b).fileBlocks⟩

/-- Replace a file object. -/
def setFile (s : Store) (f : FileId) (file : FileInfo) : Store :=
  { s with files := Function.update s.files f file }

/-- Replace the back references of a block. -/
def setFileBlocks (s : Store) (b : BlockId) (fbs : List FileBlock) : Store :=
  { s with blocks := Function.update s.blocks b { s.blocks b with fileBlocks := fbs } }

/-! ## `block_info_t` -/

/-- `block_info_t::local_file`, as a condition. -/
def hasLocalFile (s : Store) (b : BlockId) : Bool := (s.blocks b).fileBlocks.any Entry.flag

/-- `block_info_t::link`. The new `file_block_t` is local if another one of the
block is (file_block.cpp:10–15). -/
def link (s : Store) (b : BlockId) (f : FileId) (i : Nat) : Store :=
  s.setFileBlocks b ((s.blocks b).fileBlocks ++ [⟨f, i, s.hasLocalFile b⟩])

/-- `block_info_t::unlink`: the indices of the removed back references. -/
def unlink (s : Store) (b : BlockId) (f : FileId) : List Nat × Store :=
  (((s.blocks b).fileBlocks.filter fun e => e.owner = f).map Entry.index,
    s.setFileBlocks b ((s.blocks b).fileBlocks.filter fun e => e.owner ≠ f))

/-- `block_info_t::mark_local_available`: the first back reference of the file. -/
def markBlock (s : Store) (b : BlockId) (f : FileId) : Store :=
  s.setFileBlocks b (Graph.markFirst f (s.blocks b).fileBlocks)

/-! ## The blocks of a file -/

/-- `file_info_t::assign_block`. -/
def assignBlock (s : Store) (f : FileId) (b : BlockId) (i : Nat) : Option Store :=
  if (s.files f).isFile ∧ (s.files f).slots[i]? = some none then
    some ((s.setFile f ((s.files f).setSlots ((s.files f).slots.set i (some (b, false))))).link b f i)
  else none

/-- `file_info_t::remove_block`. -/
def removeBlock (s : Store) (f : FileId) (b : BlockId) : Store :=
  let (indices, s) := s.unlink b f
  s.setFile f ((s.files f).setSlots
    (indices.foldl (fun l i => l.set i none) (s.files f).slots))

/-- One round of the loop over the slots, which reads the slot as it is now. -/
def removeSlot (s : Store) (f : FileId) (i : Nat) : Store :=
  match (s.files f).slots[i]?.join with
  | some (b, _) => s.removeBlock f b
  | none => s

/-- The loop over the slots. -/
def removeSlots (s : Store) (f : FileId) : Store :=
  (List.range (s.files f).slots.length).foldl (fun s i => s.removeSlot f i) s

/-- `file_info_t::remove_blocks`. -/
def removeBlocks (s : Store) (f : FileId) : Store :=
  if (s.files f).isFile then
    let s := s.removeSlots f
    s.setFile f ((s.files f).setAvailable false)
  else s

/-- All slots of the file carry `LOCAL_MASK`. -/
def allLocal (file : FileInfo) : Bool :=
  file.slots.all fun v => match v with
    | some (_, l) => l
    | none => false

/-- `file_info_t::mark_local_available`. -/
def markLocalAvailable (s : Store) (f : FileId) (i : Nat) : Option Store :=
  match (s.files f).slots[i]?.join with
  | some (b, false) =>
    let s := s.markBlock b f
    let file := (s.files f).setSlots ((s.files f).slots.set i (some (b, true)))
    some (s.setFile f (file.setAvailable (file.available || allLocal file)))
  | _ => none

/-- `file_info_t::mark_local`. -/
def markLocal (s : Store) (f : FileId) (value : Bool) : Store :=
  let file := s.files f
  s.setFile f (if value then
      { file with isLocal := true, unreachable := false,
                  available := file.available || !file.isFile || allLocal file }
    else { file with isLocal := false, available := false })

/-- The destructor of `file_info_t`: the object is gone, and so are its back
references. -/
def destroy (s : Store) (f : FileId) : Store :=
  let s := s.removeSlots f
  s.setFile f default

/-! ## Sizes -/

/-- The size of the block a slot points to. -/
def blockSize (s : Store) (b : Option BlockId) : Option Int := b.map fun b => (s.blocks b).getSize

/-- `file_info_t::get_size` (file_info.cpp:508–528): the blocks up to the last one
have the size of the first one. Their number and that size are both `uint32_t`, and so is the
product. -/
def getSize (s : Store) (file : FileInfo) : Option Int :=
  if file.isFile && !file.deleted && !file.invalid then
    match file.targets.head?, file.targets.getLast? with
    | some first, some last => do
      let size ← s.blockSize last
      if file.targets.length = 1 then return size
      return size + (file.targets.length - 1 : Nat) * (← s.blockSize first) % 2 ^ 32
    | _, _ => some 0
  else some 0

/-- `file_info_t::get_block_size`. -/
def getBlockSize (s : Store) (file : FileInfo) : Option Int32 :=
  if file.isFile then
    match file.targets.head? with
    | some first => first.map fun b => (s.blocks b).size
    | none => some 0
  else some 0

/-- The size of a file without null slots. -/
theorem getSize_isSome {s : Store} {file : FileInfo} (h : ∀ v ∈ file.targets, v ≠ none) :
    ∃ size, s.getSize file = some size := by
  have hsize : ∀ v ∈ file.targets, ∃ n, s.blockSize v = some n := by
    intro v hv
    obtain ⟨b, rfl⟩ := Option.ne_none_iff_exists'.mp (h v hv)
    exact ⟨_, rfl⟩
  unfold getSize
  split
  · split
    · rename_i first last hfirst hlast
      obtain ⟨n, hn⟩ := hsize last (List.mem_of_getLast? hlast)
      obtain ⟨m, hm⟩ := hsize first (List.mem_of_head? hfirst)
      rw [hn, hm]
      by_cases hone : file.targets.length = 1
      · exact ⟨n, by simp [hone]⟩
      · exact ⟨n + (file.targets.length - 1 : Nat) * m % 2 ^ 32, by simp [hone]⟩
    · exact ⟨0, rfl⟩
  · exact ⟨0, rfl⟩

theorem getBlockSize_isSome {s : Store} {file : FileInfo} (h : ∀ v ∈ file.targets, v ≠ none) :
    ∃ size, s.getBlockSize file = some size := by
  unfold getBlockSize
  split
  · split
    · rename_i first hfirst
      obtain ⟨b, rfl⟩ := Option.ne_none_iff_exists'.mp (h first (List.mem_of_head? hfirst))
      exact ⟨_, rfl⟩
    · exact ⟨0, rfl⟩
  · exact ⟨0, rfl⟩

/-! ## The operations on the graph -/

theorem graph_setFile (s : Store) (f : FileId) (file : FileInfo) :
    (s.setFile f file).graph =
      { s.graph with slots := Function.update s.graph.slots f file.slots } := by
  unfold graph setFile
  congr 1
  funext g
  by_cases hg : g = f
  · subst hg
    simp
  · simp [hg]

theorem graph_setFile_of_slots {s : Store} {f : FileId} {file : FileInfo}
    (h : file.slots = (s.files f).slots) : (s.setFile f file).graph = s.graph := by
  rw [graph_setFile, h]
  show { s.graph with slots := Function.update s.graph.slots f (s.graph.slots f) } = s.graph
  rw [Function.update_eq_self]

theorem graph_setFileBlocks (s : Store) (b : BlockId) (fbs : List FileBlock) :
    (s.setFileBlocks b fbs).graph =
      { s.graph with entries := Function.update s.graph.entries b fbs } := by
  unfold graph setFileBlocks
  congr 1
  funext c
  by_cases hc : c = b
  · subst hc
    simp
  · simp [hc]

theorem content_of_slot {file : FileInfo} {i : Nat} {v : Option Slot} (h : file.slots[i]? = some v) :
    ∃ blocks, file.content = .file blocks := by
  cases hc : file.content with
  | file blocks => exact ⟨blocks, rfl⟩
  | nonFile target => simp [FileInfo.slots, hc] at h

/-- What `assign_block` asserts, and what it does. -/
theorem assignBlock_eq_some {s t : Store} {f : FileId} {b : BlockId} {i : Nat} :
    s.assignBlock f b i = some t ↔ (s.files f).isFile = true ∧ (s.files f).slots[i]? = some none ∧
      t = (s.setFile f
        ((s.files f).setSlots ((s.files f).slots.set i (some (b, false))))).link b f i := by
  unfold assignBlock
  split
  · rename_i h
    simp [h.1, h.2, eq_comm]
  · rename_i h
    constructor
    · rintro ⟨⟩
    · rintro ⟨h₁, h₂, -⟩
      exact absurd ⟨h₁, h₂⟩ h

theorem graph_assignBlock {s t : Store} {f : FileId} {b : BlockId} {i : Nat}
    (h : s.assignBlock f b i = some t) :
    (s.graph.slots f)[i]? = some none ∧ t.graph = s.graph.assign f b i := by
  obtain ⟨-, hfree, rfl⟩ := assignBlock_eq_some.mp h
  obtain ⟨blocks, hc⟩ := content_of_slot hfree
  refine ⟨hfree, ?_⟩
  unfold link
  rw [graph_setFileBlocks, graph_setFile, FileInfo.slots_setSlots hc]
  rfl

theorem graph_removeBlock (s : Store) (f : FileId) (b : BlockId) :
    (s.removeBlock f b).graph = s.graph.clear f b := by
  have hnil : ∀ is : List Nat, is.foldl (fun l i => l.set i none) ([] : List (Option Slot)) = [] := by
    intro is
    induction is with
    | nil => rfl
    | cons i is ih => exact ih
  have hslots : ∀ (file : FileInfo) (is : List Nat),
      (file.setSlots (is.foldl (fun l i => l.set i none) file.slots)).slots =
        is.foldl (fun l i => l.set i none) file.slots := fun file is =>
    FileInfo.slots_setSlots_nil file (fun l => is.foldl (fun l i => l.set i none) l) (hnil is)
  unfold removeBlock unlink
  dsimp only
  rw [graph_setFile, hslots, graph_setFileBlocks]
  rfl

theorem graph_removeSlot (s : Store) (f : FileId) (i : Nat) :
    (s.removeSlot f i).graph = s.graph.clearAt f i := by
  unfold removeSlot Graph.clearAt
  show (match s.graph.slot f i with
    | some (b, _) => s.removeBlock f b
    | none => s).graph = _
  cases s.graph.slot f i with
  | none => rfl
  | some p => exact graph_removeBlock s f p.1

theorem graph_removeSlots (s : Store) (f : FileId) : (s.removeSlots f).graph = s.graph.clearAll f := by
  have hloop : ∀ (is : List Nat) (s : Store), (is.foldl (fun s i => s.removeSlot f i) s).graph =
      is.foldl (fun g i => g.clearAt f i) s.graph := by
    intro is
    induction is with
    | nil => exact fun s => rfl
    | cons i is ih =>
      intro s
      rw [List.foldl_cons, ih, graph_removeSlot, List.foldl_cons]
  exact hloop _ s

theorem graph_removeBlocks {s : Store} (hl : s.graph.Linked) {f : FileId}
    (hf : (s.files f).isFile = true) : (s.removeBlocks f).graph = s.graph.erase f := by
  unfold removeBlocks
  rw [if_pos hf]
  dsimp only
  refine (graph_setFile_of_slots ?_).trans ?_
  · rfl
  · rw [graph_removeSlots, hl.clearAll_eq]

/-- What `mark_local_available` asserts, and what it does. -/
theorem markLocalAvailable_eq_some {s t : Store} {f : FileId} {i : Nat}
    (h : s.markLocalAvailable f i = some t) :
    ∃ b, (s.files f).slots[i]? = some (some (b, false)) ∧
      t = (s.markBlock b f).setFile f
        (((s.files f).setSlots ((s.files f).slots.set i (some (b, true)))).setAvailable
          ((s.files f).available ||
            allLocal ((s.files f).setSlots ((s.files f).slots.set i (some (b, true)))))) := by
  unfold markLocalAvailable at h
  split at h
  · rename_i b hs
    refine ⟨b, ?_, ?_⟩
    · cases hi : (s.files f).slots[i]? with
      | none => simp [hi] at hs
      | some v =>
        rw [hi] at hs
        exact congrArg some hs
    · cases h
      show setFile _ f _ = setFile _ f _
      rw [FileInfo.available_setSlots]
      rfl
  · cases h

theorem graph_markLocalAvailable {s t : Store} {f : FileId} {i : Nat}
    (h : s.markLocalAvailable f i = some t) :
    (∃ b, s.graph.slot f i = some (b, false)) ∧ t.graph = s.graph.mark f i := by
  obtain ⟨b, hs, rfl⟩ := markLocalAvailable_eq_some h
  obtain ⟨blocks, hc⟩ := content_of_slot hs
  have hslot : s.graph.slot f i = some (b, false) := by
    show (s.files f).slots[i]?.join = _
    rw [hs]
    rfl
  refine ⟨⟨b, hslot⟩, ?_⟩
  unfold markBlock
  rw [Graph.mark_eq hslot, graph_setFile, FileInfo.slots_setAvailable, FileInfo.slots_setSlots hc,
    graph_setFileBlocks]
  rfl

/-- A destroyed file is gone from the graph. -/
theorem graph_destroy {s : Store} (hl : s.graph.Linked) (f : FileId) :
    (s.destroy f).graph = (s.graph.erase f).reset f 0 := by
  unfold destroy
  dsimp only
  rw [graph_setFile, graph_removeSlots, hl.clearAll_eq]
  rfl

/-! ## What an operation on the blocks of a file leaves alone -/

/-- The same blocks, whoever refers to them. -/
structure SameBlocks (s t : Store) : Prop where
  hash : ∀ b, (t.blocks b).hash = (s.blocks b).hash
  size : ∀ b, (t.blocks b).size = (s.blocks b).size
  blockMap : t.blockMap = s.blockMap
  nextBlock : t.nextBlock = s.nextBlock

theorem SameBlocks.refl (s : Store) : SameBlocks s s := ⟨fun _ => rfl, fun _ => rfl, rfl, rfl⟩

theorem SameBlocks.trans {s t u : Store} (h : SameBlocks s t) (h' : SameBlocks t u) :
    SameBlocks s u where
  hash b := (h'.hash b).trans (h.hash b)
  size b := (h'.size b).trans (h.size b)
  blockMap := h'.blockMap.trans h.blockMap
  nextBlock := h'.nextBlock.trans h.nextBlock

theorem SameBlocks.symm {s t : Store} (h : SameBlocks s t) : SameBlocks t s :=
  ⟨fun b => (h.hash b).symm, fun b => (h.size b).symm, h.blockMap.symm, h.nextBlock.symm⟩

/-- The size of a file depends on the sizes of the blocks its slots point to. -/
theorem getSize_congr {s t : Store} {a b : FileInfo} (htype : a.type = b.type)
    (hdeleted : a.deleted = b.deleted) (hinvalid : a.invalid = b.invalid)
    (hsizes : a.targets.map t.blockSize = b.targets.map s.blockSize) :
    t.getSize a = s.getSize b := by
  have hfile : a.isFile = b.isFile := by simp only [FileInfo.isFile, htype]
  have hlen : a.targets.length = b.targets.length := by simpa using congrArg List.length hsizes
  have hhead : a.targets.head?.map t.blockSize = b.targets.head?.map s.blockSize := by
    rw [← List.head?_map, ← List.head?_map, hsizes]
  have hlast : a.targets.getLast?.map t.blockSize = b.targets.getLast?.map s.blockSize := by
    rw [← List.getLast?_map, ← List.getLast?_map, hsizes]
  unfold Store.getSize
  rw [hfile, hdeleted, hinvalid, hlen]
  split
  · cases ha : a.targets.head? with
    | none =>
      rw [ha] at hhead
      have hb : b.targets.head? = none := by simpa using hhead.symm
      rw [hb]
    | some first =>
      rw [ha] at hhead
      obtain ⟨first', hb, hfirst⟩ := Option.map_eq_some_iff.mp hhead.symm
      rw [hb]
      cases ha' : a.targets.getLast? with
      | none =>
        rw [ha'] at hlast
        have hb' : b.targets.getLast? = none := by simpa using hlast.symm
        rw [hb']
      | some last =>
        rw [ha'] at hlast
        obtain ⟨last', hb', hlast'⟩ := Option.map_eq_some_iff.mp hlast.symm
        rw [hb']
        dsimp only
        rw [hfirst, hlast']
  · rfl

theorem SameBlocks.getSize {s t : Store} (h : SameBlocks s t) (file : FileInfo) :
    t.getSize file = s.getSize file := by
  have hblock : t.blockSize = s.blockSize := by
    funext v
    simp only [blockSize, BlockInfo.getSize, h.size]
  exact getSize_congr rfl rfl rfl (by rw [hblock])

/-- The stores differ in one file and in the back references. -/
structure SameBut (f : FileId) (s t : Store) : Prop extends SameBlocks s t where
  nextFile : t.nextFile = s.nextFile
  infos : t.infos = s.infos
  files : ∀ g, g ≠ f → t.files g = s.files g

namespace SameBut

variable {f : FileId} {s t u : Store}

theorem refl (f : FileId) (s : Store) : SameBut f s s :=
  ⟨SameBlocks.refl s, rfl, rfl, fun _ _ => rfl⟩

theorem trans (h : SameBut f s t) (h' : SameBut f t u) : SameBut f s u where
  toSameBlocks := h.toSameBlocks.trans h'.toSameBlocks
  nextFile := h'.nextFile.trans h.nextFile
  infos := h'.infos.trans h.infos
  files g hg := (h'.files g hg).trans (h.files g hg)

theorem setFile (s : Store) (f : FileId) (file : FileInfo) : SameBut f s (s.setFile f file) where
  hash _ := rfl
  size _ := rfl
  blockMap := rfl
  nextBlock := rfl
  nextFile := rfl
  infos := rfl
  files _ hg := Function.update_of_ne hg _ _

theorem setFileBlocks (f : FileId) (s : Store) (b : BlockId) (fbs : List FileBlock) :
    SameBut f s (s.setFileBlocks b fbs) where
  hash c := by
    by_cases hc : c = b
    · subst hc
      simp [Store.setFileBlocks]
    · simp [Store.setFileBlocks, hc]
  size c := by
    by_cases hc : c = b
    · subst hc
      simp [Store.setFileBlocks]
    · simp [Store.setFileBlocks, hc]
  blockMap := rfl
  nextBlock := rfl
  nextFile := rfl
  infos := rfl
  files _ _ := rfl

theorem assignBlock {b : BlockId} {i : Nat} (h : s.assignBlock f b i = some t) : SameBut f s t := by
  obtain ⟨-, -, rfl⟩ := assignBlock_eq_some.mp h
  exact (setFile s f _).trans (setFileBlocks f _ b _)

theorem removeSlots (s : Store) (f : FileId) : SameBut f s (s.removeSlots f) := by
  have hblock : ∀ (s : Store) b, SameBut f s (s.removeBlock f b) := fun s b =>
    (setFileBlocks f s b _).trans (setFile _ f _)
  have hslot : ∀ (s : Store) i, SameBut f s (s.removeSlot f i) := by
    intro s i
    unfold Store.removeSlot
    split
    · exact hblock s _
    · exact refl f s
  have hloop : ∀ (is : List Nat) (s : Store),
      SameBut f s (is.foldl (fun s i => s.removeSlot f i) s) := by
    intro is
    induction is with
    | nil => exact fun s => refl f s
    | cons i is ih => exact fun s => (hslot s i).trans (ih _)
  exact hloop _ s

theorem removeBlocks (s : Store) (f : FileId) : SameBut f s (s.removeBlocks f) := by
  unfold Store.removeBlocks
  split
  · exact (removeSlots s f).trans (setFile _ f _)
  · exact refl f s

theorem markLocalAvailable {i : Nat} (h : s.markLocalAvailable f i = some t) : SameBut f s t := by
  obtain ⟨b, -, rfl⟩ := markLocalAvailable_eq_some h
  exact (setFileBlocks f s b _).trans (setFile _ f _)

theorem destroy (s : Store) (f : FileId) : SameBut f s (s.destroy f) :=
  (removeSlots s f).trans (setFile _ f _)

end SameBut

/-! ## The file after the operation -/

theorem files_setFile (s : Store) (f : FileId) (file : FileInfo) : (s.setFile f file).files f = file :=
  Function.update_self ..

theorem files_assignBlock {s t : Store} {f : FileId} {b : BlockId} {i : Nat}
    (h : s.assignBlock f b i = some t) :
    t.files f = (s.files f).setSlots ((s.files f).slots.set i (some (b, false))) := by
  obtain ⟨-, -, rfl⟩ := assignBlock_eq_some.mp h
  exact files_setFile ..

theorem files_markLocalAvailable {s t : Store} {f : FileId} {i : Nat}
    (h : s.markLocalAvailable f i = some t) :
    ∃ b a, (s.files f).slots[i]? = some (some (b, false)) ∧
      t.files f =
        ((s.files f).setSlots ((s.files f).slots.set i (some (b, true)))).setAvailable a := by
  obtain ⟨b, hs, rfl⟩ := markLocalAvailable_eq_some h
  exact ⟨b, _, hs, files_setFile ..⟩

/-- Only the slots of the file are touched. -/
theorem files_removeSlots (s : Store) (f : FileId) :
    (s.removeSlots f).files f = (s.files f).setSlots ((s.removeSlots f).files f).slots := by
  have hslot : ∀ (s : Store) i, ∃ l, (s.removeSlot f i).files f = (s.files f).setSlots l := by
    intro s i
    unfold removeSlot
    split
    · exact ⟨_, files_setFile ..⟩
    · exact ⟨_, (FileInfo.setSlots_slots _).symm⟩
  have hloop : ∀ (is : List Nat) (s : Store),
      ∃ l, (is.foldl (fun s i => s.removeSlot f i) s).files f = (s.files f).setSlots l := by
    intro is
    induction is with
    | nil => exact fun s => ⟨_, (FileInfo.setSlots_slots _).symm⟩
    | cons i is ih =>
      intro s
      obtain ⟨l, hl⟩ := hslot s i
      obtain ⟨l', hl'⟩ := ih (s.removeSlot f i)
      exact ⟨l', by rw [List.foldl_cons, hl', hl, FileInfo.setSlots_setSlots]⟩
  obtain ⟨l, hl⟩ := hloop (List.range (s.files f).slots.length) s
  have hself : ∀ a b : FileInfo, (∃ l, a = b.setSlots l) → a = b.setSlots a.slots := by
    rintro a b ⟨l, rfl⟩
    exact ((FileInfo.setSlots_setSlots b l _).symm.trans (FileInfo.setSlots_slots _)).symm
  exact hself _ _ ⟨l, hl⟩

/-- **Remove blocks**: all slots are null and nothing else of the file changes. -/
theorem files_removeBlocks {s : Store} (hl : s.graph.Linked) {f : FileId}
    (hf : (s.files f).isFile = true) :
    (s.removeBlocks f).files f =
      ((s.files f).setSlots (List.replicate (s.files f).slots.length none)).setAvailable false := by
  have hslots : ((s.removeSlots f).files f).slots =
      List.replicate (s.files f).slots.length none := by
    have := congrArg (fun g => g.slots f) ((graph_removeSlots s f).trans (hl.clearAll_eq f))
    simpa [graph, Graph.erase] using this
  unfold removeBlocks
  rw [if_pos hf]
  dsimp only
  rw [files_setFile, files_removeSlots, hslots]

end Store

end SyncSpirit
