import SyncSpirit.Availability

/-!
# Block availability over whole runs

`Diff` are the diffs that touch files, blocks and their flags, each with the folder
info that it looks up; `Diff.steps` takes it apart into the rounds of its loops, and
`apply` performs them one after another.
-/

namespace SyncSpirit

open Backlink

namespace Availability

open Store

/-! ## Steps -/

/-- One round of a loop, or a diff without one. -/
inductive Step where
  /-- `add_blocks_t` -/
  | addBlock (block : Proto.BlockInfo)
  /-- `load::blocks_t` -/
  | loadBlock (hash : Bytes) (size : Int32)
  /-- `remove_blocks_t` -/
  | eraseBlock (hash : Bytes)
  /-- `update_folder_t` -/
  | indexFile (fi : FolderInfoId) (uuid : Uuid) (file : Proto.FileInfo)
  /-- `load::file_infos_t` -/
  | loadFile (allFi : List FolderInfoId) (key : Bytes) (data : Db.FileInfo)
  /-- `advance_t` -/
  | advance (fi : FolderInfoId) (uuid : Uuid) (file : Proto.FileInfo)
  /-- `blocks_availability_t` -/
  | markAvailable (fi : FolderInfoId) (name : String) (i : Nat)
  /-- `block_ack_t`, `file_availability_t` -/
  | ackBlock (fi : FolderInfoId) (name : String) (i : Nat)
  /-- `file_availability_t` -/
  | markLocal (fi : FolderInfoId) (name : String)
  /-- `mark_reachable_t` -/
  | markReachable (fi : FolderInfoId) (name : String) (value : Bool)
  /-- `remove_files_t` -/
  | removeFile (fi : FolderInfoId) (uuid : Uuid)
  /-- `remote_win_t` -/
  | takeOut (fi : FolderInfoId) (name : String)
  /-- A new or a removed folder info. -/
  | resetInfo (fi : FolderInfoId) (uuid : Uuid) (device : Sha256) (maxSequence : Int)
    (index : UInt64) (introducer : Sha256)
  /-- The last reference to an object of the heap is gone. -/
  | destroy (f : FileId)

/-- One round. An object may be destroyed at any time: the results do not depend on
nobody referring to it. -/
def step (s : Store) : Step → Option Store
  | .addBlock block => s.addBlock block
  | .loadBlock hash size => some (s.putBlock hash size)
  | .eraseBlock hash => s.eraseBlock hash
  | .indexFile fi uuid file => UpdateFolder.applyFile fi s uuid file
  | .loadFile allFi key data => (FileDb.loadFile s allFi key data).toOption
  | .advance fi uuid file => Advance.advanceFile fi s uuid file
  | .markAvailable fi name i => (s.byName fi name).bind fun f => s.markLocalAvailable f i
  | .ackBlock fi name i =>
    match s.byName fi name with
    | none => some s
    | some f =>
      match (s.files f).slots[i]? with
      | none => none
      | some (some (_, true)) => some s
      | some _ => s.markLocalAvailable f i
  | .markLocal fi name => (s.byName fi name).map fun f => s.markLocal f true
  | .markReachable fi name value => (s.byName fi name).map fun f =>
      s.setFile f { s.files f with unreachable := !value }
  | .removeFile fi uuid => (s.byUuid fi uuid).map fun f => s.remove fi f
  | .takeOut fi name => (s.byName fi name).map fun f => s.remove fi f
  | .resetInfo fi uuid device maxSequence index introducer =>
    some { s with infos := Function.update s.infos fi ⟨uuid, device, [], maxSequence, index, introducer⟩ }
  | .destroy f => some (s.destroy f)

/-- The back reference of a slot that is not local yet is the first one of its file in
the block. -/
def firstOfFile (s : Store) (f : FileId) (i : Nat) : Bool :=
  match (s.files f).slots[i]? with
  | some (some (b, false)) =>
    ((s.blocks b).fileBlocks.find? fun e => e.owner = f).all fun e => e.index = i
  | _ => true

/-- When a round keeps slots and back references the same. -/
def CarefulStep (s : Store) : Step → Prop
  | .indexFile fi _ file => IndexCareful s fi file
  | .loadFile _ _ data => ∀ hash ∈ data.blocks, Clean s hash
  | .markAvailable fi name i => ∀ f, s.byName fi name = some f → firstOfFile s f i = true
  | .ackBlock fi name i => ∀ f, s.byName fi name = some f → firstOfFile s f i = true
  | _ => True

instance (s : Store) (hash : Bytes) : Decidable (Clean s hash) :=
  inferInstanceAs (Decidable (∀ b, s.byHash hash = some b → s.hasLocalFile b = false))

instance (s : Store) (fi : FolderInfoId) (f : Proto.FileInfo) : Decidable (Dropped s fi f) :=
  inferInstanceAs (Decidable (_ ∨ ∃ prev, s.byName fi f.name = some prev ∧ _))

instance (s : Store) (fi : FolderInfoId) (f : Proto.FileInfo) : Decidable (IndexCareful s fi f) :=
  inferInstanceAs (Decidable (Dropped s fi f ∨ ∀ hash ∈ indexedHashes f, Clean s hash ∨
    ∃ prev, s.byName fi f.name = some prev ∧ (s.files prev).sequence < f.sequence ∧
      hash ∈ s.keptHashes prev))

instance (s : Store) : ∀ e, Decidable (CarefulStep s e)
  | .indexFile fi _ file => inferInstanceAs (Decidable (IndexCareful s fi file))
  | .loadFile _ _ data => inferInstanceAs (Decidable (∀ hash ∈ data.blocks, Clean s hash))
  | .markAvailable fi name i =>
    inferInstanceAs (Decidable (∀ f, s.byName fi name = some f → firstOfFile s f i = true))
  | .ackBlock fi name i =>
    inferInstanceAs (Decidable (∀ f, s.byName fi name = some f → firstOfFile s f i = true))
  | .addBlock _ | .loadBlock _ _ | .eraseBlock _ | .advance _ _ _ | .markLocal _ _
  | .markReachable _ _ _ | .removeFile _ _ | .takeOut _ _ | .resetInfo _ _ _ _ _ _ | .destroy _ =>
    inferInstanceAs (Decidable True)

/-! ## Diffs -/

/-- What `advance_t` carries: the file, and the nested `add_blocks_t` and
`remove_blocks_t`. -/
structure Advanced where
  added : List Proto.BlockInfo
  removed : List Bytes
  uuid : Uuid
  file : Proto.FileInfo

def Advanced.steps (fi : FolderInfoId) (a : Advanced) : List Step :=
  a.added.map .addBlock ++ a.removed.map .eraseBlock ++ [.advance fi a.uuid a.file]

/-- The diffs. -/
inductive Diff where
  | updateFolder (fi : FolderInfoId) (d : UpdateFolder.Diff)
  /-- `local_update_t` and `remote_copy_t` -/
  | advance (fi : FolderInfoId) (a : Advanced)
  /-- The local file is renamed, then the remote one is copied. -/
  | remoteWin (fi : FolderInfoId) (name : String) (conflict copy : Advanced)
  | blockAck (fi : FolderInfoId) (name : String) (i : Nat)
  | blocksAvailability (fi : FolderInfoId) (name : String) (valid : List Bool)
  | fileAvailability (fi : FolderInfoId) (name : String) (version : Version)
  | removeFiles (fi : FolderInfoId) (removed : List Bytes) (uuids : List Uuid)
  | loadBlocks (blocks : List (Bytes × Int32))
  | loadFiles (allFi : List FolderInfoId) (files : List (Bytes × Db.FileInfo))
  /-- Any other diff that consists of single rounds. -/
  | single (e : Step)

/-- The rounds of a diff; `none` if a file is missing that is looked up without a check. -/
def Diff.steps (s : Store) : Diff → Option (List Step)
  | .updateFolder fi d => some (d.blocks.map .addBlock ++ d.removedBlocks.map .eraseBlock ++
      (d.uuids.zip d.files).map fun p => .indexFile fi p.1 p.2)
  | .advance fi a => some (a.steps fi)
  | .remoteWin fi name conflict copy =>
    some (.takeOut fi name :: (conflict.steps fi ++ copy.steps fi))
  | .blockAck fi name i => some [.ackBlock fi name i]
  | .blocksAvailability fi name valid =>
    some ((valid.zipIdx.filter Prod.fst).map fun p => .markAvailable fi name p.2)
  | .fileAvailability fi name version =>
    (s.byName fi name).map fun f =>
      if (s.files f).version.identicalTo version then
        (List.range (s.files f).slots.length).map (fun i => .ackBlock fi name i) ++ [.markLocal fi name]
      else []
  | .removeFiles fi removed uuids => some (removed.map .eraseBlock ++ uuids.map fun u => .removeFile fi u)
  | .loadBlocks blocks => some (blocks.map fun p => .loadBlock p.1 p.2)
  | .loadFiles allFi files => some (files.map fun p => .loadFile allFi p.1 p.2)
  | .single e => some [e]

/-- Apply a diff. -/
def apply (s : Store) (d : Diff) : Option Store := (d.steps s).bind (Run.exec step s)

/-- Every round of the diff is careful. -/
def Careful (s : Store) (d : Diff) : Prop := ∀ es ∈ d.steps s, Run.Meets step CarefulStep s es

instance (s : Store) (d : Diff) : Decidable (Careful s d) :=
  inferInstanceAs (Decidable (∀ es ∈ d.steps s, Run.Meets step CarefulStep s es))

/-! ## What a round keeps -/

section Rounds

variable {s t : Store}

/-- A block object at a new address. -/
theorem Sound.pushBlock {X : Set FileId} (h : Sound X s) (hash : Bytes) (size : Int32) :
    Sound X (s.pushBlock hash size) := by
  have hnil : (s.blocks s.nextBlock).fileBlocks = [] := by
    cases hfbs : (s.blocks s.nextBlock).fileBlocks with
    | nil => rfl
    | cons e es =>
      have hmem : e ∈ s.graph.entries s.nextBlock := by
        show e ∈ (s.blocks s.nextBlock).fileBlocks
        rw [hfbs]
        exact List.mem_cons_self ..
      obtain ⟨l, hs⟩ := h.linked.slot_of_entry _ e hmem
      exact absurd (h.allocated _ _ _ l hs) (Nat.lt_irrefl _)
  have hgraph : (s.pushBlock hash size).graph = s.graph := by
    show Backlink.Graph.mk _ _ = Backlink.Graph.mk _ _
    congr 1
    funext b
    by_cases hb : b = s.nextBlock
    · simp [Store.pushBlock, hb, hnil]
    · simp [Store.pushBlock, hb]
  have hmarked : Marked X (s.pushBlock hash size) := by
    refine h.toMarked.of_graph hgraph (Nat.le_succ _) fun b hb => ?_
    rcases List.mem_append.mp hb with hb | hb
    · exact Nat.lt_succ_of_lt (h.mapped b hb)
    · rw [List.mem_singleton.mp hb]
      exact Nat.lt_succ_self _
  exact ⟨hmarked, h.coherent, h.fresh, h.listed⟩

/-- Fewer blocks in the block map. -/
theorem Sound.filterBlocks {X : Set FileId} (h : Sound X s) (p : BlockId → Bool) :
    Sound X { s with blockMap := s.blockMap.filter p } :=
  ⟨⟨h.linked, h.faithful, h.allocated, fun b hb => h.mapped b (List.mem_filter.mp hb).1⟩,
    h.coherent, h.fresh, h.listed⟩

/-- A marked slot. -/
theorem Sound.markAvailable (h : Sound ∅ s) {fi : FolderInfoId} {name : String} {f : FileId} {i : Nat}
    (hf : s.byName fi name = some f) (hfirst : firstOfFile s f i = true)
    (ht : s.markLocalAvailable f i = some t) : Sound ∅ t := by
  refine h.of_sameBut (SameBut.markLocalAvailable ht) (.inl (h.byName_lt hf))
    (h.toMarked.markLocalAvailable (.inr fun b hs e he => ?_) ht) ?_
  · obtain ⟨b', hslot, -⟩ := markLocalAvailable_eq_some ht
    have hs' : (s.files f).slots[i]?.join = some (b, false) := hs
    rw [hslot] at hs'
    cases hs'
    have he' : (s.blocks b).fileBlocks.find? (fun e => e.owner = f) = some e := he
    simpa [firstOfFile, hslot, he'] using hfirst
  · obtain ⟨b, a, -, hfile⟩ := files_markLocalAvailable ht
    rw [hfile]
    exact (h.coherent f).setSlots _

/-- **One round**. -/
theorem Sound.step (h : Sound ∅ s) {e : Step} (hcareful : CarefulStep s e)
    (ht : step s e = some t) : Sound ∅ t := by
  cases e with
  | addBlock block =>
    obtain ⟨hash, -, ht⟩ := Option.bind_eq_some_iff.mp ht
    split at ht
    · cases ht
      exact h
    · cases ht
      exact h.pushBlock hash block.size
  | loadBlock hash size =>
    cases ht
    unfold Store.putBlock
    split
    · exact h
    · exact h.pushBlock hash size
  | eraseBlock hash =>
    obtain ⟨b, -, ht⟩ := Option.bind_eq_some_iff.mp ht
    cases ht
    exact h.filterBlocks _
  | indexFile fi uuid file => exact h.applyFile hcareful ht
  | loadFile allFi key data => exact h.loadFile hcareful (Fallible.toOption_eq_some.mp ht)
  | advance fi uuid file => exact h.advanceFile ht
  | markAvailable fi name i =>
    obtain ⟨f, hf, ht⟩ := Option.bind_eq_some_iff.mp ht
    exact h.markAvailable hf (hcareful f hf) ht
  | ackBlock fi name i =>
    simp only [Availability.step] at ht
    split at ht
    · cases ht
      exact h
    · rename_i f hf
      split at ht
      · cases ht
      · cases ht
        exact h
      · exact h.markAvailable hf (hcareful f hf) ht
  | markLocal fi name =>
    obtain ⟨f, -, rfl⟩ := Option.map_eq_some_iff.mp ht
    exact h.markLocal f true
  | markReachable fi name value =>
    obtain ⟨f, -, rfl⟩ := Option.map_eq_some_iff.mp ht
    have hfile : Sound ∅ (s.setFile f { s.files f with unreachable := !value }) :=
      h.setFile rfl (h.coherent f)
    exact hfile
  | removeFile fi uuid =>
    obtain ⟨f, -, rfl⟩ := Option.map_eq_some_iff.mp ht
    exact h.remove fi f
  | takeOut fi name =>
    obtain ⟨f, -, rfl⟩ := Option.map_eq_some_iff.mp ht
    exact h.remove fi f
  | resetInfo fi uuid device maxSequence index introducer =>
    cases ht
    exact h.setInfo fun f hf => absurd hf List.not_mem_nil
  | destroy f =>
    cases ht
    exact (h.destroy f).mono (by simp)

/-- **One diff**. -/
theorem Sound.apply {d : Diff} (h : Sound ∅ s) (hcareful : Careful s d) (ht : apply s d = some t) :
    Sound ∅ t := by
  obtain ⟨es, hes, ht⟩ := Option.bind_eq_some_iff.mp ht
  exact Run.exec_inv (fun _ _ _ hs hc hstep => hs.step hc hstep) h (hcareful es hes) ht

end Rounds

/-! ## Runs -/

/-- The back reference `io_clone_block` takes: the first marked one whose file belongs
to a folder info of the cluster. -/
def cloneSource (s : Store) (allFi : List FolderInfoId) (b : BlockId) : Option FileBlock :=
  (s.blocks b).fileBlocks.find? fun e =>
    e.flag && allFi.any fun fi => (s.infos fi).uuid = (s.files e.owner).folderUuid

/-- Slots and back references tell the same. -/
structure FlagsAgree (s : Store) : Prop where
  entry : ∀ f i b l, (s.files f).slots[i]? = some (some (b, l)) →
    ∃ e ∈ (s.blocks b).fileBlocks, e.owner = f ∧ e.index = i
  flag : ∀ b, ∀ e ∈ (s.blocks b).fileBlocks, ∃ l,
    (s.files e.owner).slots[e.index]? = some (some (b, l)) ∧ (e.flag = true ↔ l = true)
  source : ∀ allFi b e, cloneSource s allFi b = some e →
    (s.files e.owner).slots[e.index]? = some (some (b, true))

theorem Sound.flagsAgree {s : Store} (h : Sound ∅ s) : FlagsAgree s := by
  have hslot : ∀ b, ∀ e ∈ (s.blocks b).fileBlocks,
      (s.files e.owner).slots[e.index]? = some (some (b, e.flag)) := by
    intro b e he
    have hs : (s.files e.owner).slots[e.index]?.join = some (b, e.flag) :=
      h.faithful b e he (Set.notMem_empty _)
    exact Option.join_eq_some_iff.mp hs
  refine ⟨fun f i b l hs => ?_, fun b e he => ⟨e.flag, hslot b e he, Iff.rfl⟩, fun allFi b e he => ?_⟩
  · refine h.linked.entry_of_slot f i b l ?_
    show (s.files f).slots[i]?.join = _
    rw [hs]
    rfl
  · have hflag : e.flag = true := by
      have := List.find?_some he
      exact (Bool.and_eq_true_iff.mp this).1
    rw [hslot b e (List.mem_of_find?_eq_some he), hflag]

/-- A folder that is shared with one peer. -/
def sharedFolder : FolderInfoId → FolderInfo
  | 0 => ⟨Uuid.ofByte 0, [1], [], 0, 0, [1]⟩
  | _ => ⟨Uuid.ofByte 1, [2], [], 0, 0, [1]⟩

/-- The folder of the local device has a file with one block. -/
def haveLocally (name : String) (hash : UInt8) (newBlocks : List Proto.BlockInfo) : Diff :=
  .advance 0 ⟨newBlocks, [], Uuid.ofByte hash, UpdateFolder.announce name 0 hash⟩

/-- The peer announces a file with one block. -/
def indexed (name : String) (hash : UInt8) (newBlocks : List Proto.BlockInfo) : Diff :=
  .updateFolder 1 { UpdateFolder.announceDiff [UpdateFolder.announce name 1 hash] with
    blocks := newBlocks }

end Availability

end SyncSpirit
