import SyncSpirit.AdvanceRun
import SyncSpirit.AvailabilityRun

/-!
# When an advance succeeds, and what the file contains then

`advance_t::apply_impl` asserts two things: that the file it updates has the uuid of the
diff or the same version (in `file_info_t::update`), and that every block of the file is
in the block map. `applyImpl_iff` says that nothing else can go wrong, and what the file
looks like afterwards.

The only way in which a name remembers what was there before is the `Record`: its uuid,
and the link target, which is copied from link to link only.
-/

namespace SyncSpirit

open Backlink

namespace Store

open Availability

/-! ## The block map -/

/-- The block is in the map. -/
def HasBlock (s : Store) (hash : Bytes) : Prop := (s.byHash hash).isSome = true

/-- Blocks that exist keep their hashes. -/
structure SameHashes (s t : Store) : Prop where
  next : s.nextBlock ≤ t.nextBlock
  hash : ∀ b, b < s.nextBlock → (t.blocks b).hash = (s.blocks b).hash

theorem SameHashes.trans {s t u : Store} (h : SameHashes s t) (h' : SameHashes t u) :
    SameHashes s u where
  next := Nat.le_trans h.next h'.next
  hash b hb := (h'.hash b (Nat.lt_of_lt_of_le hb h.next)).trans (h.hash b hb)

theorem SameBlocks.sameHashes {s t : Store} (h : SameBlocks s t) : SameHashes s t :=
  ⟨Nat.le_of_eq h.nextBlock.symm, fun b _ => h.hash b⟩

theorem SameBlocks.hasBlock {s t : Store} (h : SameBlocks s t) (hash : Bytes) :
    t.HasBlock hash ↔ s.HasBlock hash := by
  unfold HasBlock
  rw [h.byHash]

/-- What adding or removing blocks keeps. -/
structure SameHeap (s t : Store) : Prop extends SameMaps s t, SameHashes s t where
  sound : Sound Set.univ s → Sound Set.univ t

theorem SameHeap.refl (s : Store) : SameHeap s s :=
  ⟨⟨rfl, rfl, rfl⟩, ⟨Nat.le_refl _, fun _ _ => rfl⟩, fun h => h⟩

theorem SameHeap.trans {s t u : Store} (h : SameHeap s t) (h' : SameHeap t u) : SameHeap s u :=
  ⟨h.toSameMaps.trans h'.toSameMaps, h.toSameHashes.trans h'.toSameHashes, fun hs => h'.sound (h.sound hs)⟩

/-- **Add a block**. -/
theorem addBlock_has {s : Store} (hs : Sound Set.univ s) {b : Proto.BlockInfo} {hash : Bytes}
    (hhash : makeStrictHash b.hash = some hash) :
    ∃ t, s.addBlock b = some t ∧ SameHeap s t ∧ ∀ x, t.HasBlock x ↔ s.HasBlock x ∨ x = hash := by
  unfold addBlock
  rw [hhash, Option.bind_eq_bind, Option.bind_some]
  by_cases hsome : (s.byHash hash).isSome
  · rw [if_pos hsome]
    refine ⟨s, rfl, SameHeap.refl s, fun x => ⟨.inl, ?_⟩⟩
    rintro (hx | rfl)
    · exact hx
    · exact hsome
  · rw [if_neg hsome]
    have hby := UpdateFolder.byHash_pushBlock hs.mapped hash b.size
    refine ⟨_, rfl, ⟨⟨rfl, rfl, rfl⟩, ⟨Nat.le_succ _, fun k hk => ?_⟩, fun h => h.pushBlock hash b.size⟩,
      fun x => ?_⟩
    · show (Function.update s.blocks s.nextBlock _ k).hash = _
      rw [Function.update_of_ne (Nat.ne_of_lt hk)]
    · unfold HasBlock
      rw [hby]
      by_cases hx : x = hash
      · simp [hx]
      · simp [hx]

/-- **Add blocks**. -/
theorem addBlocks_has {news : List Proto.BlockInfo} :
    ∀ {s : Store} {hashes : List Bytes}, Sound Set.univ s →
      UpdateFolder.strictHashes news = some hashes →
      ∃ t, news.foldlM Store.addBlock s = some t ∧ SameHeap s t ∧
        ∀ x, t.HasBlock x ↔ s.HasBlock x ∨ x ∈ hashes := by
  induction news with
  | nil =>
    rintro s hashes hs ⟨⟩
    exact ⟨s, rfl, SameHeap.refl s, fun x => by simp⟩
  | cons b news ih =>
    intro s hashes hs hh
    obtain ⟨hash, hs', hhash, hnews, rfl⟩ := UpdateFolder.strictHashes_cons.mp hh
    obtain ⟨t, ht, hheap, hhas⟩ := addBlock_has hs hhash
    obtain ⟨u, hu, hheap', hhas'⟩ := ih (hheap.sound hs) hnews
    refine ⟨u, ?_, hheap.trans hheap', fun x => ?_⟩
    · rw [List.foldlM_cons, ht]
      exact hu
    · rw [hhas', hhas, List.mem_cons, or_assoc]

/-- **Remove a block**: it has to be there. -/
theorem eraseBlock_has {s t : Store} {hash : Bytes} (h : s.eraseBlock hash = some t) :
    s.HasBlock hash ∧ SameHeap s t ∧ ∀ x, t.HasBlock x ↔ s.HasBlock x ∧ x ≠ hash := by
  obtain ⟨b, hb, h⟩ := Option.bind_eq_some_iff.mp h
  cases h
  refine ⟨by rw [HasBlock, hb]; rfl, ⟨⟨rfl, rfl, rfl⟩, ⟨Nat.le_refl _, fun _ _ => rfl⟩,
    fun h => h.filterBlocks _⟩, fun x => ?_⟩
  unfold HasBlock
  simp only [byHash, List.find?_filter, List.find?_isSome]
  constructor
  · rintro ⟨k, hk, hx⟩
    simp only [ne_eq, decide_not, Bool.not_eq_eq_eq_not, Bool.not_true,
      decide_eq_false_iff_not, decide_eq_true_eq] at hx
    obtain ⟨hne, rfl⟩ := hx
    exact ⟨⟨k, hk, by simp⟩, hne⟩
  · rintro ⟨⟨k, hk, hx⟩, hne⟩
    have hx' : (s.blocks k).hash = x := by simpa using hx
    refine ⟨k, hk, ?_⟩
    simp [hx', hne]

/-- **Remove blocks**: each of them has to be there, once. -/
theorem eraseBlocks_iff {hashes : List Bytes} (hnodup : hashes.Nodup) :
    ∀ {s : Store}, ((∃ t, hashes.foldlM Store.eraseBlock s = some t) ↔ ∀ x ∈ hashes, s.HasBlock x) ∧
      ∀ t, hashes.foldlM Store.eraseBlock s = some t →
        SameHeap s t ∧ ∀ x, t.HasBlock x ↔ s.HasBlock x ∧ x ∉ hashes := by
  induction hashes with
  | nil =>
    intro s
    refine ⟨⟨fun _ x hx => absurd hx List.not_mem_nil, fun _ => ⟨s, rfl⟩⟩, ?_⟩
    rintro t ⟨⟩
    exact ⟨SameHeap.refl s, fun x => by simp⟩
  | cons hash hashes ih =>
    intro s
    obtain ⟨hnot, hnodup'⟩ := List.nodup_cons.mp hnodup
    constructor
    · constructor
      · rintro ⟨t, ht⟩
        obtain ⟨u, hu, ht⟩ := Option.bind_eq_some_iff.mp ht
        obtain ⟨hhash, -, hhas⟩ := eraseBlock_has hu
        intro x hx
        rcases List.mem_cons.mp hx with rfl | hx
        · exact hhash
        · exact ((hhas x).mp ((ih hnodup').1.mp ⟨t, ht⟩ x hx)).1
      · intro hall
        obtain ⟨b, hb⟩ := Option.isSome_iff_exists.mp (hall hash (List.mem_cons_self ..))
        obtain ⟨u, hu⟩ : ∃ u, s.eraseBlock hash = some u := by
          unfold eraseBlock
          rw [hb]
          exact ⟨_, rfl⟩
        obtain ⟨-, -, hhas⟩ := eraseBlock_has hu
        obtain ⟨t, ht⟩ := (ih hnodup' (s := u)).1.mpr fun x hx =>
          (hhas x).mpr ⟨hall x (List.mem_cons_of_mem _ hx), fun heq => hnot (heq ▸ hx)⟩
        refine ⟨t, ?_⟩
        rw [List.foldlM_cons, hu]
        exact ht
    · intro t ht
      obtain ⟨u, hu, ht⟩ := Option.bind_eq_some_iff.mp ht
      obtain ⟨-, hheap, hhas⟩ := eraseBlock_has hu
      obtain ⟨hheap', hhas'⟩ := (ih hnodup').2 t ht
      refine ⟨hheap.trans hheap', fun x => ?_⟩
      rw [hhas', hhas, List.mem_cons, not_or, and_assoc]

/-! ## The blocks of the file -/

/-- **The loop over the blocks**: it succeeds when every block is in the map, and leaves a
local slot for each of them. -/
theorem assignBlocks_spec {f : FileId} {bs : List Proto.BlockInfo} :
    ∀ {s : Store} {pre : List (Option Slot)} {hashes : List Bytes}, (s.files f).isFile = true →
      (s.files f).slots = pre ++ List.replicate bs.length none →
      UpdateFolder.strictHashes bs = some hashes → (∀ x ∈ hashes, s.HasBlock x) →
      ∃ t a, Advance.assignBlocks f s pre.length bs = some t ∧ SameBut f s t ∧
        t.files f = ((s.files f).setSlots
          (pre ++ hashes.map fun x => (s.byHash x).map fun b => (b, true))).setAvailable a := by
  induction bs with
  | nil =>
    rintro s pre hashes - hslots ⟨⟩ -
    refine ⟨s, (s.files f).available, rfl, SameBut.refl f s, ?_⟩
    have hpre : (s.files f).slots = pre := by simpa using hslots
    show s.files f = ((s.files f).setSlots (pre ++ [])).setAvailable _
    rw [List.append_nil, ← hpre, FileInfo.setSlots_slots]
    rfl
  | cons b bs ih =>
    intro s pre hashes hf hslots hh hall
    obtain ⟨hash, hs, hhash, hbs, rfl⟩ := UpdateFolder.strictHashes_cons.mp hh
    obtain ⟨block, hblock⟩ := Option.isSome_iff_exists.mp (hall hash (List.mem_cons_self ..))
    obtain ⟨blocks, hc⟩ : ∃ blocks, (s.files f).content = .file blocks :=
      content_of_slot (hslots ▸ getElem?_append_replicate pre bs.length)
    obtain ⟨w, hw, hwfile⟩ := assignBlock_next hf hslots block
    have hwslots : (w.files f).slots = pre ++ [some (block, false)] ++ List.replicate bs.length none := by
      rw [hwfile, FileInfo.slots_setSlots hc]
    have hslot : (w.files f).slots[pre.length]? = some (some (block, false)) := by
      rw [hwslots]
      simp
    -- the slot has just been assigned, so it can be marked
    obtain ⟨u, hu⟩ : ∃ u, w.markLocalAvailable f pre.length = some u := by
      unfold markLocalAvailable
      rw [hslot]
      exact ⟨_, rfl⟩
    obtain ⟨block', a, hslot', hufile⟩ := files_markLocalAvailable hu
    rw [hslot] at hslot'
    cases hslot'
    have hset : (w.files f).slots.set pre.length (some (block, true)) =
        pre ++ [some (block, true)] ++ List.replicate bs.length none := by
      rw [hwslots]
      simp
    rw [hset, hwfile, FileInfo.setSlots_setSlots] at hufile
    have hsame := (SameBut.assignBlock hw).trans (SameBut.markLocalAvailable hu)
    obtain ⟨t, a', ht, hsame', hfile⟩ := @ih u (pre ++ [some (block, true)]) hs
      (by rw [hufile, FileInfo.isFile_setAvailable, FileInfo.isFile_setSlots, hf])
      (by rw [hufile, FileInfo.slots_setAvailable, FileInfo.slots_setSlots hc]) hbs
      (fun x hx => (hsame.toSameBlocks.hasBlock x).mpr (hall x (List.mem_cons_of_mem _ hx)))
    refine ⟨t, a', ?_, hsame.trans hsame', ?_⟩
    · have hlen : pre.length + 1 = (pre ++ [some (block, true)]).length := by simp
      simp only [Advance.assignBlocks, hhash, hblock, hw, hu, Option.bind_eq_bind, Option.bind_some, hlen]
      exact ht
    · rw [hfile, hufile]
      simp [hsame.byHash, hblock]

/-- An assertion of the loop fails if a block is missing. -/
theorem hasBlock_of_assignBlocks {f : FileId} {bs : List Proto.BlockInfo} :
    ∀ {s t : Store} {i : Nat} {hashes : List Bytes}, UpdateFolder.strictHashes bs = some hashes →
      Advance.assignBlocks f s i bs = some t → ∀ x ∈ hashes, s.HasBlock x := by
  induction bs with
  | nil =>
    rintro s t i hashes ⟨⟩ - x hx
    cases hx
  | cons b bs ih =>
    intro s t i hashes hh ht x hx
    obtain ⟨hash, hs, hhash, hbs, rfl⟩ := UpdateFolder.strictHashes_cons.mp hh
    obtain ⟨hash', hhash', ht⟩ := Option.bind_eq_some_iff.mp ht
    rw [hhash] at hhash'
    cases hhash'
    obtain ⟨block, hblock, ht⟩ := Option.bind_eq_some_iff.mp ht
    obtain ⟨w, hw, ht⟩ := Option.bind_eq_some_iff.mp ht
    obtain ⟨u, hu, ht⟩ := Option.bind_eq_some_iff.mp ht
    have hsame := (SameBut.assignBlock hw).trans (SameBut.markLocalAvailable hu)
    rcases List.mem_cons.mp hx with rfl | hx
    · rw [HasBlock, hblock]
      rfl
    · exact (hsame.toSameBlocks.hasBlock x).mp (ih hbs ht x hx)

/-! ## What a name remembers -/

/-- What the next advance of a file depends on. -/
structure Record where
  uuid : Uuid
  version : Version
  type : FileType
  linkTarget : String

/-- `get_link_target`; a regular file has none. -/
def linkTarget (file : FileInfo) : String :=
  match file.content with
  | .file _ => ""
  | .nonFile target => target

def record (file : FileInfo) : Record := ⟨file.uuid, file.version, file.type, linkTarget file⟩

/-- The target after an update: it is copied from link to link, and from a new object. -/
def nextTarget (prev : Option Record) (type : FileType) (target : String) : String :=
  if type = .file then ""
  else match prev with
    | none => target
    | some r => if r.type = .file then "" else if r.type = .link ∧ type = .link then target
      else r.linkTarget

/-- The record after the file has been advanced. -/
def nextRecord (prev : Option Record) (uuid : Uuid) (f : Proto.FileInfo) : Record where
  uuid := (prev.map Record.uuid).getD uuid
  version := Version.ofProto f.version
  type := asFlags f.type
  linkTarget := nextTarget prev (asFlags f.type) f.symlinkTarget

/-- The assertion of `update`: the same uuid or an identical version. -/
def Matches (prev : Option Record) (uuid : Uuid) (f : Proto.FileInfo) : Prop :=
  ∀ r ∈ prev, r.uuid = uuid ∨ r.version.identicalTo (Version.ofProto f.version) = true

instance (prev : Option Record) (uuid : Uuid) (f : Proto.FileInfo) : Decidable (Matches prev uuid f) :=
  inferInstanceAs (Decidable (∀ r ∈ prev, _ ∨ _))

/-- The link target of an updated file. -/
theorem content_update {s t : Store} {f : FileId} {other : FileInfo} (ho : other.isFile = false)
    (h : s.update f other = some t) :
    (t.files f).content = if (s.files f).isFile then .nonFile "" else
      if (s.files f).isLink ∧ other.isLink then other.content else (s.files f).content := by
  unfold Store.update at h
  dsimp only at h
  split at h
  · obtain ⟨u, hu, h⟩ := Option.bind_eq_some_iff.mp h
    cases h
    rw [ho] at hu
    cases hu
    rw [files_setFile]
    show (Store.files (s.prepareUpdate f other) f).content = _
    unfold prepareUpdate
    dsimp only
    rw [if_neg (by rw [ho]; exact Bool.false_ne_true), files_setFile, ho]
    cases hf : (s.files f).isFile with
    | true =>
      have hremoved : (((s.setFile f ((s.files f).copyFields other)).removeBlocks f).files f).isFile =
          true := by
        unfold removeBlocks
        rw [files_setFile, if_pos (show ((s.files f).copyFields other).isFile = true from hf)]
        dsimp only
        rw [files_setFile, FileInfo.isFile_setAvailable, files_removeSlots, FileInfo.isFile_setSlots,
          files_setFile]
        exact hf
      simp [FileInfo.switchContent, hremoved]
    | false =>
      have hkept : (s.setFile f ((s.files f).copyFields other)).removeBlocks f =
          s.setFile f ((s.files f).copyFields other) := by
        unfold removeBlocks
        rw [files_setFile, if_neg]
        rw [show ((s.files f).copyFields other).isFile = false from hf]
        exact Bool.false_ne_true
      rw [hkept, files_setFile, if_neg Bool.false_ne_true]
      unfold FileInfo.switchContent
      rw [show ((s.files f).copyFields other).isFile = false from hf]
      rfl
  · cases h

/-- The record under a name. -/
def recordOf (s : Store) (fi : FolderInfoId) (name : String) : Option Record :=
  (s.byName fi name).map fun f => record (s.files f)

/-- The object that is made of a record, without blocks yet. -/
structure Blank (uuid : Uuid) (f : Proto.FileInfo) (file : FileInfo) : Prop where
  coherent : file.Coherent
  uuid : file.uuid = uuid
  name : file.name = f.name
  type : file.type = asFlags f.type
  deleted : file.deleted = f.deleted
  version : file.version = Version.ofProto f.version
  slots : file.slots = List.replicate
    (if asFlags f.type = .file then (Advance.neededBlocks f).length else 0) none
  linkTarget : linkTarget file = if asFlags f.type = .file then "" else f.symlinkTarget

theorem blank_of_fieldsUpdate {folderUuid uuid : Uuid} {f : Proto.FileInfo}
    (hname : f.name ≠ "") (hversion : f.version.counters ≠ []) :
    ∃ file, FileInfo.fieldsUpdate folderUuid uuid f.fields = some file ∧ Blank uuid f file := by
  unfold FileInfo.fieldsUpdate
  rw [if_neg (show ¬ (f.fields.name = "" ∨ f.fields.version.counters = []) from
    not_or.mpr ⟨hname, hversion⟩)]
  refine ⟨_, rfl, ?_⟩
  have hsize : (if f.size ≠ 0 then f.blocks.length else 0) = (Advance.neededBlocks f).length := by
    unfold Advance.neededBlocks
    split <;> rfl
  cases htype : asFlags f.type with
  | file =>
    refine ⟨?_, rfl, rfl, rfl, rfl, rfl, ?_, ?_⟩
    · simp [FileInfo.Coherent, FileInfo.isFile, Proto.FileInfo.fields, htype]
    · rw [if_pos htype, ← hsize]
      simp only [FileInfo.slots, Proto.FileInfo.fields, htype]
      rfl
    · simp [linkTarget, Proto.FileInfo.fields, htype]
  | dir =>
    refine ⟨?_, rfl, rfl, rfl, rfl, rfl, ?_, ?_⟩
    · simp [FileInfo.Coherent, FileInfo.isFile, Proto.FileInfo.fields, htype]
    · simp [FileInfo.slots, Proto.FileInfo.fields, htype]
    · simp [linkTarget, Proto.FileInfo.fields, htype]
  | link =>
    refine ⟨?_, rfl, rfl, rfl, rfl, rfl, ?_, ?_⟩
    · simp [FileInfo.Coherent, FileInfo.isFile, Proto.FileInfo.fields, htype]
    · simp [FileInfo.slots, Proto.FileInfo.fields, htype]
    · simp [linkTarget, Proto.FileInfo.fields, htype]

/-! ## The object that is advanced -/

/-- The file after `update`, before it gets its blocks. -/
structure Shaped (prev : Option Record) (uuid : Uuid) (f : Proto.FileInfo) (file : FileInfo) : Prop where
  coherent : file.Coherent
  record : record file = nextRecord prev uuid f
  deleted : file.deleted = f.deleted
  slots : file.slots = List.replicate
    (if asFlags f.type = .file then (Advance.neededBlocks f).length else 0) none

theorem linkTarget_of_isFile {file : FileInfo} (hc : file.Coherent) (hf : file.isFile = true) :
    linkTarget file = "" := by
  obtain ⟨blocks, hb⟩ := hc.mp hf
  simp [linkTarget, hb]

theorem isFile_iff {file : FileInfo} : file.isFile = true ↔ file.type = .file := by
  simp [FileInfo.isFile]

theorem record_eq_nextRecord {file : FileInfo} {prev : Option Record} {uuid : Uuid} {f : Proto.FileInfo}
    (huuid : file.uuid = (prev.map Record.uuid).getD uuid)
    (hversion : file.version = Version.ofProto f.version) (htype : file.type = asFlags f.type)
    (htarget : linkTarget file = nextTarget prev (asFlags f.type) f.symlinkTarget) :
    record file = nextRecord prev uuid f := by
  unfold record nextRecord
  rw [huuid, hversion, htype, htarget]

/-- A new object. -/
theorem Blank.shaped {uuid : Uuid} {f : Proto.FileInfo} {file : FileInfo} (h : Blank uuid f file) :
    Shaped none uuid f file := by
  refine ⟨h.coherent, record_eq_nextRecord h.uuid h.version h.type ?_, h.deleted, h.slots⟩
  rw [h.linkTarget]
  rfl

/-- The link target after an update. -/
theorem linkTarget_update {s t : Store} {f : FileId} {other : FileInfo} (hup : Updated s f other t)
    (h : s.update f other = some t) :
    linkTarget (t.files f) = nextTarget (some (record (s.files f))) other.type (linkTarget other) := by
  have htype : (t.files f).isFile = other.isFile := by
    obtain ⟨c, a, hfile⟩ := hup.file
    rw [hfile]
    rfl
  unfold nextTarget
  by_cases hf : other.type = .file
  · rw [if_pos hf]
    exact linkTarget_of_isFile hup.coherent (htype.trans (isFile_iff.mpr hf))
  · have hother : other.isFile = false := by
      rw [Bool.eq_false_iff, ne_eq, isFile_iff]
      exact hf
    have hcontent := content_update hother h
    rw [if_neg hf]
    show linkTarget (t.files f) = if (s.files f).type = .file then "" else
      if (s.files f).type = .link ∧ other.type = .link then linkTarget other else linkTarget (s.files f)
    unfold Store.linkTarget
    rw [hcontent]
    by_cases hprev : (s.files f).type = .file
    · rw [if_pos (isFile_iff.mpr hprev), if_pos hprev]
    · rw [if_neg (fun hcon => hprev (isFile_iff.mp hcon)), if_neg hprev]
      by_cases hlink : (s.files f).type = .link ∧ other.type = .link
      · rw [if_pos (by simp [FileInfo.isLink, hlink.1, hlink.2]), if_pos hlink]
      · rw [if_neg (by simpa [FileInfo.isLink] using hlink), if_neg hlink]

/-- An updated object. -/
theorem Blank.shaped_of_update {s t : Store} {prev : FileId} {uuid : Uuid} {f : Proto.FileInfo}
    {file : FileInfo} (h : Blank uuid f file)
    (hup : Updated s prev file t) (hu : s.update prev file = some t) :
    Shaped (some (Store.record (s.files prev))) uuid f (t.files prev) := by
  obtain ⟨c, a, hfile⟩ := hup.file
  have htype : (t.files prev).type = asFlags f.type := by
    rw [hfile]
    exact h.type
  have hslots : (t.files prev).slots = List.replicate
      (if asFlags f.type = .file then (Advance.neededBlocks f).length else 0) none := by
    rw [hup.slots, h.slots]
    simp [adopted]
  refine ⟨hup.coherent, record_eq_nextRecord ?_ ?_ htype ?_, by rw [hfile]; exact h.deleted, hslots⟩
  · rw [hfile]
    rfl
  · rw [hfile]
    exact h.version
  · rw [linkTarget_update hup hu, h.type, h.linkTarget]
    unfold nextTarget
    split
    · rfl
    · rfl

/-- The object has been chosen: a known one is updated, which fails without the right uuid
or version. -/
theorem target_iff {fi : FolderInfoId} {s : Store} (hs : Sound Set.univ s) (h : s.InfoWF fi)
    {uuid : Uuid} {f : Proto.FileInfo} {file : FileInfo} (hb : Blank uuid f file) :
    ((∃ g t, Advance.target fi s file = some (g, t)) ↔ Matches (s.recordOf fi f.name) uuid f) ∧
      ∀ g t, Advance.target fi s file = some (g, t) → g = (s.byName fi f.name).getD s.nextFile ∧
        SameBlocks s t ∧ Shaped (s.recordOf fi f.name) uuid f (t.files g) := by
  have hnew : (s.create file).files s.nextFile = file := Function.update_self ..
  unfold Advance.target recordOf
  rw [hb.name]
  cases hprev : s.byName fi f.name with
  | none =>
    refine ⟨⟨fun _ r hr => (nomatch hr), fun _ => ⟨_, _, rfl⟩⟩, ?_⟩
    rintro g t ⟨⟩
    refine ⟨rfl, ⟨fun _ => rfl, fun _ => rfl, rfl, rfl⟩, ?_⟩
    rw [hnew]
    exact hb.shaped
  | some prev =>
    obtain ⟨hmem, hname⟩ := (byName_eq_some h).mp hprev
    have hlt := h.allocated prev hmem
    have hne : prev ≠ s.nextFile := Nat.ne_of_lt hlt
    have hold : ((s.create file).remove fi prev).files prev = s.files prev :=
      Function.update_of_ne hne _ _
    have hsound : Sound Set.univ ((s.create file).remove fi prev) :=
      (hs.create hb.coherent hb.slots).remove fi prev
    have hnone : ∀ v ∈ file.slots, v = none := fun v hv => by
      rw [hb.slots] at hv
      exact List.eq_of_mem_replicate hv
    have hcoherent : (((s.create file).remove fi prev).files prev).Coherent := hsound.coherent prev
    have hspec : Matches ((some prev).map fun f => record (s.files f)) uuid f →
        ∃ t, ((s.create file).remove fi prev).update prev file = some t ∧
          Updated ((s.create file).remove fi prev) prev file t := by
      intro hmatch
      refine update_spec hsound.linked hcoherent hb.coherent ?_ ?_ (.inr hnone)
      · rw [hold, hname, hb.name]
      · rw [hold, hb.uuid, hb.version]
        exact hmatch _ rfl
    have hmatches : ∀ t, ((s.create file).remove fi prev).update prev file = some t →
        Matches ((some prev).map fun f => record (s.files f)) uuid f := by
      rintro t ht r ⟨⟩
      unfold Store.update at ht
      dsimp only at ht
      split at ht
      · rename_i hassert
        rw [hold, hb.uuid, hb.version] at hassert
        exact hassert.2
      · cases ht
    constructor
    · constructor
      · rintro ⟨g, t, ht⟩
        obtain ⟨u, hu, -⟩ := Option.map_eq_some_iff.mp ht
        exact hmatches u hu
      · intro hmatch
        obtain ⟨u, hu, -⟩ := hspec hmatch
        dsimp only
        rw [hu]
        exact ⟨_, _, rfl⟩
    · intro g t ht
      obtain ⟨u, hu, heq⟩ := Option.map_eq_some_iff.mp ht
      obtain ⟨rfl, rfl⟩ := Prod.mk.inj heq
      obtain ⟨u', hu', hup⟩ := hspec (hmatches u hu)
      rw [hu] at hu'
      cases hu'
      have hdestroy := SameBut.destroy u s.nextFile
      have hblocks : SameBlocks s ((s.create file).remove fi prev) :=
        ⟨fun _ => rfl, fun _ => rfl, rfl, rfl⟩
      refine ⟨rfl, (hblocks.trans hup.same.toSameBlocks).trans hdestroy.toSameBlocks, ?_⟩
      rw [hdestroy.files prev hne]
      have hshaped := hb.shaped_of_update hup hu
      rw [hold] at hshaped
      exact hshaped

/-! ## The advanced file -/

/-- The file has been advanced and has its blocks. -/
structure Filled (s : Store) (fi : FolderInfoId) (uuid : Uuid) (f : Proto.FileInfo) (hashes : List Bytes)
    (file : FileInfo) : Prop where
  record : record file = nextRecord (s.recordOf fi f.name) uuid f
  deleted : file.deleted = f.deleted
  slots : file.slots = hashes.map fun x => (s.byHash x).map fun b => (b, true)

theorem Placed.eq_getD {fi : FolderInfoId} {s t : Store} {uuid : Uuid} {name : String} {g : FileId}
    (hp : Placed fi s uuid name t g) (h : s.InfoWF fi) : g = (s.byName fi name).getD s.nextFile := by
  rcases hp.origin with ⟨hg, hname, -⟩ | ⟨rfl, hnone, -⟩
  · rw [(byName_eq_some h).mpr ⟨hg, hname⟩]
    rfl
  · rw [hnone]
    rfl

/-- The map does not change the file. -/
theorem files_addStrict (s : Store) (fi : FolderInfoId) (f : FileId) :
    (s.addStrict fi f).2.files = s.files ∧ SameBlocks s (s.addStrict fi f).2 := by
  unfold addStrict
  dsimp only
  split
  · exact ⟨rfl, ⟨fun _ => rfl, fun _ => rfl, rfl, rfl⟩⟩
  · exact ⟨rfl, SameBlocks.refl s⟩

/-- The end of an advance: the content is there already. -/
theorem finish_files (fi : FolderInfoId) (w : Store) (g : FileId) :
    record ((Advance.finish fi w g).files g) = record (w.files g) ∧
      ((Advance.finish fi w g).files g).deleted = (w.files g).deleted ∧
      ((Advance.finish fi w g).files g).slots = (w.files g).slots ∧
      SameBlocks w (Advance.finish fi w g) := by
  unfold Advance.finish
  dsimp only
  obtain ⟨hfiles, hblocks⟩ := files_addStrict
    ((w.markLocal g true).setFile g { (w.markLocal g true).files g with
      sequence := ((w.markLocal g true).infos fi).maxSequence + 1 }) fi g
  have hlocal : record ((w.markLocal g true).files g) = record (w.files g) ∧
      ((w.markLocal g true).files g).deleted = (w.files g).deleted ∧
      ((w.markLocal g true).files g).slots = (w.files g).slots := by
    unfold markLocal
    dsimp only
    rw [files_setFile]
    exact ⟨rfl, rfl, rfl⟩
  have hsame := ((SameId.markLocal w g true).toSameBlocks.trans
    (SameBut.setFile (w.markLocal g true) g _).toSameBlocks).trans hblocks
  refine ⟨?_, ?_, ?_, hsame⟩
  · rw [hfiles, files_setFile]
    exact hlocal.1
  · rw [hfiles, files_setFile]
    exact hlocal.2.1
  · rw [hfiles, files_setFile]
    exact hlocal.2.2

theorem record_setSlots (file : FileInfo) (l : List (Option Slot)) :
    record (file.setSlots l) = record file ∧ (file.setSlots l).deleted = file.deleted := by
  unfold FileInfo.setSlots
  cases hc : file.content with
  | file blocks => simp [record, linkTarget, hc]
  | nonFile target => exact ⟨rfl, rfl⟩

/-- The loop over the blocks of an object that has been chosen. -/
theorem Shaped.assignBlocks {u : Store} {g : FileId} {prev : Option Record} {uuid : Uuid}
    {f : Proto.FileInfo} {hashes : List Bytes} (h : Shaped prev uuid f (u.files g))
    (hkind : asFlags f.type ≠ .file → Advance.neededBlocks f = [])
    (hh : UpdateFolder.strictHashes (Advance.neededBlocks f) = some hashes)
    (hall : ∀ x ∈ hashes, u.HasBlock x) :
    ∃ w, Advance.assignBlocks g u 0 (Advance.neededBlocks f) = some w ∧ SameBlocks u w ∧
      Store.record (w.files g) = nextRecord prev uuid f ∧ (w.files g).deleted = f.deleted ∧
      (w.files g).slots = hashes.map fun x => (u.byHash x).map fun b => (b, true) := by
  have hslots := h.slots
  by_cases hf : asFlags f.type = .file
  · have hisFile : (u.files g).isFile = true :=
      isFile_iff.mpr ((congrArg Record.type h.record).trans hf)
    obtain ⟨blocks, hc⟩ := h.coherent.mp hisFile
    rw [if_pos hf] at hslots
    obtain ⟨w, a, hw, hsame, hfile⟩ := @assignBlocks_spec g (Advance.neededBlocks f) u [] hashes
      hisFile hslots hh hall
    obtain ⟨hrecord, hdeleted⟩ := record_setSlots (u.files g)
      ([] ++ hashes.map fun x => (u.byHash x).map fun b => (b, true))
    refine ⟨w, hw, hsame.toSameBlocks, ?_, ?_, ?_⟩
    · rw [hfile, ← h.record, ← hrecord]
      rfl
    · rw [hfile, ← h.deleted, ← hdeleted]
      rfl
    · rw [hfile, FileInfo.slots_setAvailable, FileInfo.slots_setSlots hc, List.nil_append]
  · -- there are no blocks
    rw [if_neg hf, List.replicate_zero] at hslots
    rw [hkind hf] at hh ⊢
    cases hh
    exact ⟨u, rfl, SameBlocks.refl u, h.record, h.deleted, hslots⟩

/-- **Advance a file**: it succeeds exactly if the file matches and all blocks are there. -/
theorem advanceFile_iff {fi : FolderInfoId} {s : Store} (hs : Sound Set.univ s) (h : s.InfoWF fi)
    {uuid : Uuid} {f : Proto.FileInfo} {hashes : List Bytes} (hname : f.name ≠ "")
    (hversion : f.version.counters ≠ [])
    (hkind : asFlags f.type ≠ .file → Advance.neededBlocks f = [])
    (hh : UpdateFolder.strictHashes (Advance.neededBlocks f) = some hashes) :
    ((∃ t, Advance.advanceFile fi s uuid f = some t) ↔
      Matches (s.recordOf fi f.name) uuid f ∧ ∀ x ∈ hashes, s.HasBlock x) ∧
    ∀ t, Advance.advanceFile fi s uuid f = some t →
      Filled s fi uuid f hashes (t.files ((s.byName fi f.name).getD s.nextFile)) ∧ SameBlocks s t := by
  obtain ⟨file, hfile, hb⟩ := @blank_of_fieldsUpdate (s.infos fi).uuid uuid f hname hversion
  obtain ⟨hiff, htarget⟩ := target_iff hs h hb
  have hneeded : ∀ t, Advance.advanceFile fi s uuid f = some t →
      ∃ g u w, Advance.target fi s file = some (g, u) ∧
        Advance.assignBlocks g u 0 (Advance.neededBlocks f) = some w ∧ t = Advance.finish fi w g := by
    intro t ht
    obtain ⟨file', hfile', ht⟩ := Option.bind_eq_some_iff.mp ht
    rw [hfile] at hfile'
    cases hfile'
    obtain ⟨⟨g, u⟩, hu, ht⟩ := Option.bind_eq_some_iff.mp ht
    obtain ⟨w, hw, ht⟩ := Option.bind_eq_some_iff.mp ht
    cases ht
    exact ⟨g, u, w, hu, hw, rfl⟩
  have hall : ∀ t, Advance.advanceFile fi s uuid f = some t → ∀ x ∈ hashes, s.HasBlock x := by
    intro t ht x hx
    obtain ⟨g, u, w, hu, hw, -⟩ := hneeded t ht
    exact ((htarget g u hu).2.1.hasBlock x).mp (hasBlock_of_assignBlocks hh hw x hx)
  constructor
  · constructor
    · rintro ⟨t, ht⟩
      obtain ⟨g, u, w, hu, -, -⟩ := hneeded t ht
      exact ⟨hiff.mp ⟨g, u, hu⟩, hall t ht⟩
    · rintro ⟨hmatch, hblocks⟩
      obtain ⟨g, u, hu⟩ := hiff.mpr hmatch
      obtain ⟨-, hsame, hshaped⟩ := htarget g u hu
      obtain ⟨w, hw, -⟩ := hshaped.assignBlocks hkind hh fun x hx => (hsame.hasBlock x).mpr (hblocks x hx)
      refine ⟨Advance.finish fi w g, ?_⟩
      unfold Advance.advanceFile
      rw [hfile, Option.bind_eq_bind, Option.bind_some, hu, Option.bind_eq_bind, Option.bind_some]
      exact Option.bind_eq_some_iff.mpr ⟨w, hw, rfl⟩
  · intro t ht
    obtain ⟨g, u, w, hu, hw, rfl⟩ := hneeded t ht
    obtain ⟨rfl, hsame, hshaped⟩ := htarget g u hu
    obtain ⟨w', hw', hblocks, hrecord, hdeleted, hslots⟩ := hshaped.assignBlocks hkind hh
      fun x hx => (hsame.hasBlock x).mpr (hall _ ht x hx)
    rw [hw] at hw'
    cases hw'
    obtain ⟨hrecord', hdeleted', hslots', hblocks'⟩ :=
      finish_files fi w ((s.byName fi f.name).getD s.nextFile)
    refine ⟨⟨hrecord'.trans hrecord, hdeleted'.trans hdeleted, ?_⟩,
      (hsame.trans hblocks).trans hblocks'⟩
    rw [hslots', hslots]
    simp only [hsame.byHash]

theorem SameMaps.recordOf {s t : Store} (h : SameMaps s t) (fi : FolderInfoId) (name : String) :
    t.recordOf fi name = s.recordOf fi name := by
  unfold Store.recordOf
  rw [h.byName, h.files]

/-- The blocks of a file: their hashes, and whether they are there. -/
def hashesOf (s : Store) (file : FileInfo) : List (Option (Bytes × Bool)) :=
  file.slots.map fun v => v.map fun p => ((s.blocks p.1).hash, p.2)

theorem hashesOf_of_slots {s t : Store} {file : FileInfo} {hashes : List Bytes}
    (hslots : file.slots = hashes.map fun x => (s.byHash x).map fun b => (b, true))
    (hall : ∀ x ∈ hashes, s.HasBlock x) (hsame : SameBlocks s t) :
    t.hashesOf file = hashes.map fun x => some (x, true) := by
  unfold hashesOf
  rw [hslots, List.map_map]
  refine List.map_congr_left fun x hx => ?_
  obtain ⟨b, hb⟩ := Option.isSome_iff_exists.mp (hall x hx)
  show ((s.byHash x).map fun b => (b, true)).map _ = _
  rw [hb]
  show some ((t.blocks b).hash, true) = _
  rw [hsame.hash, (byHash_eq_some hb).2]

/-- What an `advance_t` needs. -/
structure Runs (fi : FolderInfoId) (s : Store) (d : Advance.Diff) (added hashes : List Bytes) : Prop where
  removed : ∀ x ∈ d.removed, s.HasBlock x ∨ x ∈ added
  known : Matches (s.recordOf fi d.protoLocal.name) d.uuid d.protoLocal
  needed : ∀ x ∈ hashes, (s.HasBlock x ∨ x ∈ added) ∧ x ∉ d.removed

/-- What it leaves behind. -/
structure Ran (fi : FolderInfoId) (s : Store) (d : Advance.Diff) (added hashes : List Bytes) (t : Store) :
    Prop extends SameHashes s t where
  sound : Sound Set.univ t
  hasBlock : ∀ x, t.HasBlock x ↔ (s.HasBlock x ∨ x ∈ added) ∧ x ∉ d.removed
  record : record (t.files ((s.byName fi d.protoLocal.name).getD s.nextFile)) =
    nextRecord (s.recordOf fi d.protoLocal.name) d.uuid d.protoLocal
  deleted : (t.files ((s.byName fi d.protoLocal.name).getD s.nextFile)).deleted = d.protoLocal.deleted
  hashes : t.hashesOf (t.files ((s.byName fi d.protoLocal.name).getD s.nextFile)) =
    hashes.map fun x => some (x, true)

/-- **An `advance_t`** with its nested diffs. -/
theorem applyImpl_iff {fi : FolderInfoId} {s : Store} (hs : Sound Set.univ s) (h : s.InfoWF fi)
    {d : Advance.Diff} {added hashes : List Bytes} (hname : d.protoLocal.name ≠ "")
    (hversion : d.protoLocal.version.counters ≠ [])
    (hkind : asFlags d.protoLocal.type ≠ .file → Advance.neededBlocks d.protoLocal = [])
    (hh : UpdateFolder.strictHashes (Advance.neededBlocks d.protoLocal) = some hashes)
    (hadded : UpdateFolder.strictHashes d.added = some added) (hremoved : d.removed.Nodup) :
    ((∃ t, d.applyImpl fi s = some t) ↔ Runs fi s d added hashes) ∧
      ∀ t, d.applyImpl fi s = some t → Ran fi s d added hashes t := by
  obtain ⟨u, hu, hheap, hhas⟩ := addBlocks_has hs hadded
  obtain ⟨herase, hlast⟩ := eraseBlocks_iff hremoved (s := u)
  have hunfold : ∀ t, d.applyImpl fi s = some t ↔
      ∃ w, d.removed.foldlM Store.eraseBlock u = some w ∧
        Advance.advanceFile fi w d.uuid d.protoLocal = some t := by
    intro t
    unfold Advance.Diff.applyImpl
    rw [hu, Option.bind_eq_bind, Option.bind_some, Option.bind_eq_some_iff]
  -- what is known once the blocks have been added and removed
  have hadvance : ∀ w, d.removed.foldlM Store.eraseBlock u = some w →
      SameHeap s w ∧ (∀ x, w.HasBlock x ↔ (s.HasBlock x ∨ x ∈ added) ∧ x ∉ d.removed) ∧
      ((∃ t, Advance.advanceFile fi w d.uuid d.protoLocal = some t) ↔
        Matches (s.recordOf fi d.protoLocal.name) d.uuid d.protoLocal ∧
          ∀ x ∈ hashes, (s.HasBlock x ∨ x ∈ added) ∧ x ∉ d.removed) ∧
      ∀ t, Advance.advanceFile fi w d.uuid d.protoLocal = some t →
        Filled w fi d.uuid d.protoLocal hashes (t.files ((w.byName fi d.protoLocal.name).getD w.nextFile)) ∧
          SameBlocks w t := by
    intro w hw
    obtain ⟨hheap', hhas'⟩ := hlast w hw
    have hall := hheap.trans hheap'
    have hblock : ∀ x, w.HasBlock x ↔ (s.HasBlock x ∨ x ∈ added) ∧ x ∉ d.removed := fun x => by
      rw [hhas', hhas]
    obtain ⟨hiff, hfilled⟩ := @advanceFile_iff fi w (hall.sound hs) (hall.infoWF h) d.uuid _ _ hname
      hversion hkind hh
    simp only [hblock, hall.toSameMaps.recordOf] at hiff
    exact ⟨hall, hblock, hiff, hfilled⟩
  constructor
  · constructor
    · rintro ⟨t, ht⟩
      obtain ⟨w, hw, ht⟩ := (hunfold t).mp ht
      obtain ⟨-, -, hiff, -⟩ := hadvance w hw
      obtain ⟨hknown, hneeded⟩ := hiff.mp ⟨t, ht⟩
      exact ⟨fun x hx => (hhas x).mp (herase.mp ⟨w, hw⟩ x hx), hknown, hneeded⟩
    · rintro ⟨hgone, hknown, hneeded⟩
      obtain ⟨w, hw⟩ := herase.mpr fun x hx => (hhas x).mpr (hgone x hx)
      obtain ⟨-, -, hiff, -⟩ := hadvance w hw
      obtain ⟨t, ht⟩ := hiff.mpr ⟨hknown, hneeded⟩
      exact ⟨t, (hunfold t).mpr ⟨w, hw, ht⟩⟩
  · intro t ht
    obtain ⟨w, hw, ht⟩ := (hunfold t).mp ht
    obtain ⟨hall, hblock, hiff, hfilled⟩ := hadvance w hw
    obtain ⟨hfill, hsame⟩ := hfilled t ht
    have hgot : ∀ x ∈ hashes, w.HasBlock x := fun x hx => (hblock x).mpr ((hiff.mp ⟨t, ht⟩).2 x hx)
    have hhashes := hashesOf_of_slots hfill.slots hgot hsame
    rw [hall.toSameMaps.byName, hall.nextFile] at hfill hhashes
    refine ⟨hall.toSameHashes.trans hsame.sameHashes, ?_, fun x => ?_, ?_, hfill.deleted, hhashes⟩
    · exact (hall.sound hs).advanceFile ht
    · rw [hsame.hasBlock, hblock]
    · rw [hfill.record, hall.toSameMaps.recordOf]

/-! ## Hashes in full -/

theorem makeStrictHash_of_full {hash : Bytes} (h : hash.length = digestLength) : makeStrictHash hash = some hash := by
  unfold makeStrictHash
  rw [if_pos (Nat.le_of_eq h), h, Nat.sub_self, List.replicate_zero, List.append_nil]

/-- The hashes of blocks that are announced in full. -/
theorem strictHashes_of_full {news : List Proto.BlockInfo} (h : ∀ b ∈ news, b.hash.length = digestLength) :
    UpdateFolder.strictHashes news = some (news.map fun b => b.hash) := by
  induction news with
  | nil => rfl
  | cons b news ih =>
    refine UpdateFolder.strictHashes_cons.mpr ⟨b.hash, _, makeStrictHash_of_full (h b (List.mem_cons_self ..)),
      ih fun b' hb' => h b' (List.mem_cons_of_mem _ hb'), rfl⟩

/-! ## What the blocks and the flags of a file do not tell -/

/-- A property of a file that depends on neither its blocks, nor its local flags, nor its
sequence. -/
structure Steady {α : Type} (φ : FileInfo → α) : Prop where
  slots : ∀ file l, φ (FileInfo.setSlots file l) = φ file
  flags : ∀ (file : FileInfo) isLocal available unreachable sequence, φ { file with
    isLocal := isLocal, available := available, unreachable := unreachable, sequence := sequence } = φ file

section Steady

variable {α : Type} {φ : FileInfo → α} {s t : Store} {g : FileId}

theorem Steady.assignBlocks (h : Steady φ) {bs : List Proto.BlockInfo} : ∀ {s : Store} {i : Nat},
    Advance.assignBlocks g s i bs = some t → φ (t.files g) = φ (s.files g) := by
  induction bs with
  | nil =>
    rintro s i ⟨⟩
    rfl
  | cons b bs ih =>
    intro s i ht
    obtain ⟨hash, -, ht⟩ := Option.bind_eq_some_iff.mp ht
    obtain ⟨block, -, ht⟩ := Option.bind_eq_some_iff.mp ht
    obtain ⟨w, hw, ht⟩ := Option.bind_eq_some_iff.mp ht
    obtain ⟨u, hu, ht⟩ := Option.bind_eq_some_iff.mp ht
    obtain ⟨block', a, -, hfile⟩ := files_markLocalAvailable hu
    rw [ih ht, hfile]
    refine (h.flags _ _ a _ _).trans ?_
    rw [h.slots, files_assignBlock hw, h.slots]

theorem Steady.finish (h : Steady φ) (fi : FolderInfoId) (s : Store) (g : FileId) :
    φ ((Advance.finish fi s g).files g) = φ (s.files g) := by
  unfold Advance.finish
  dsimp only
  rw [(files_addStrict _ fi g).1, files_setFile]
  unfold markLocal
  dsimp only
  rw [files_setFile]
  simp only [if_true]
  exact h.flags (s.files g) true _ false _

end Steady

end Store

end SyncSpirit
