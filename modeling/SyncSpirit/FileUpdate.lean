import SyncSpirit.Store

/-!
# Creating and updating files (`model/file_info.cpp`)

A file is created from a message or from a database record (`fieldsUpdate`), gets
its blocks by their hashes (`assignHashes`) and may be poured into another file
object that has its name already (`update`).

- `assignHashes_spec`: the loop over the announced blocks;
- `adoptBlocks_spec`: the loop over the blocks of the other file in `update`;
- `update_spec`: what the updated file looks like.
-/

namespace SyncSpirit

open Backlink

/-- `block_info_t::digest_length`. -/
def digestLength : Nat := 32

/-- `block_info_t::make_strict_hash`: the hash padded with zeros. -/
def makeStrictHash (hash : Bytes) : Option Bytes :=
  if hash.length ≤ digestLength then
    some (hash ++ List.replicate (digestLength - hash.length) 0)
  else none

/-! ## Creating a file -/

/-- What the two overloads of `fields_update` read. -/
structure Fields where
  name : String
  type : Proto.FileInfoType
  size : Int
  permissions : UInt32
  modifiedS : Int
  modifiedNs : Int32
  modifiedBy : UInt64
  deleted : Bool
  invalid : Bool
  noPermissions : Bool
  version : Proto.Vector
  sequence : Int
  symlinkTarget : String
  blocksSize : Nat

/-- The fields of an announced file. -/
def Proto.FileInfo.fields (f : Proto.FileInfo) : Fields where
  name := f.name
  type := f.type
  size := f.size
  permissions := f.permissions
  modifiedS := f.modifiedS
  modifiedNs := f.modifiedNs
  modifiedBy := f.modifiedBy
  deleted := f.deleted
  invalid := f.invalid
  noPermissions := f.noPermissions
  version := f.version
  sequence := f.sequence
  symlinkTarget := f.symlinkTarget
  blocksSize := f.blocks.length

/-- The fields of a stored file. -/
def Db.FileInfo.fields (f : Db.FileInfo) : Fields where
  name := f.name
  type := f.type
  size := f.size
  permissions := f.permissions
  modifiedS := f.modifiedS
  modifiedNs := f.modifiedNs
  modifiedBy := f.modifiedBy
  deleted := f.deleted
  invalid := f.invalid
  noPermissions := f.noPermissions
  version := f.version
  sequence := f.sequence
  symlinkTarget := f.symlinkTarget
  blocksSize := f.blocks.length

namespace FileInfo

/-- `file_info_t::fields_update` of a new object. The path cache asserts that there is a
name (path_cache.cpp:26), and the version that there is a counter. The slots are reserved
whenever a size is announced, for a deleted or an invalid file, too. -/
def fieldsUpdate (folderUuid uuid : Uuid) (source : Fields) : Option FileInfo :=
  if source.name = "" ∨ source.version.counters = [] then none
  else some {
    folderUuid := folderUuid
    uuid := uuid
    name := source.name
    modifiedS := source.modifiedS
    modifiedBy := source.modifiedBy
    sequence := source.sequence
    permissions := source.permissions
    modifiedNs := source.modifiedNs.toUInt32
    content := match asFlags source.type with
      | .file => .file (List.replicate (if source.size ≠ 0 then source.blocksSize else 0) none)
      | _ => .nonFile source.symlinkTarget
    version := Version.ofProto source.version
    type := asFlags source.type
    deleted := source.deleted
    invalid := source.invalid
    noPermissions := source.noPermissions
    unreachable := false
    isLocal := false
    available := false }

/-- The other member of the union when the kind of the file changes
(file_info.cpp:608–615). -/
def switchContent (f : FileInfo) (toFile : Bool) : FileInfo :=
  { f with content := match f.isFile, toFile with
      | false, true => .file []
      | true, false => .nonFile ""
      | _, _ => f.content }

theorem switchContent_eq (f : FileInfo) (toFile : Bool) :
    f.switchContent toFile = f.setContent (f.switchContent toFile).content := rfl

/-- `content.file.blocks.resize`. -/
def resize (f : FileInfo) (n : Nat) : FileInfo :=
  f.setSlots (f.slots.take n ++ List.replicate (n - f.slots.length) none)

/-- The fields `update` copies first (file_info.cpp:571–579). A link target is
copied from link to link only. -/
def copyFields (f other : FileInfo) : FileInfo :=
  { f with
    permissions := other.permissions
    modifiedS := other.modifiedS
    modifiedNs := other.modifiedNs
    modifiedBy := other.modifiedBy
    version := other.version
    sequence := other.sequence
    content := if f.isLink ∧ other.isLink then other.content else f.content }

/-- The flags `update` copies last; the local ones are preserved. -/
def copyFlags (f other : FileInfo) : FileInfo :=
  { f with
    type := other.type
    deleted := other.deleted
    invalid := other.invalid
    noPermissions := other.noPermissions }

end FileInfo

namespace Store

/-- A new `file_info_t`. -/
def create (s : Store) (file : FileInfo) : Store :=
  { s.setFile s.nextFile file with nextFile := s.nextFile + 1 }

/-- `block_infos_map_t::by_hash`. -/
def byHash (s : Store) (hash : Bytes) : Option BlockId :=
  s.blockMap.find? fun b => (s.blocks b).hash = hash

/-- The loop that assigns the blocks of a new file, from the `i`-th slot on. -/
def assignHashes (f : FileId) : Store → Nat → List Bytes → Option Store
  | s, _, [] => some s
  | s, i, hash :: hashes => do
    let b ← s.byHash hash
    let s ← s.assignBlock f b i
    assignHashes f s (i + 1) hashes

/-! ## `file_info_t::update` -/

/-- The hashes of the blocks that refer back to the file and are local there. -/
def localBlockHashes (s : Store) (f : FileId) : List Bytes :=
  (s.files f).slots.filterMap fun v => match v with
    | some (b, _) =>
      if (s.blocks b).fileBlocks.any (fun fb => fb.flag && fb.owner = f) then
        some (s.blocks b).hash
      else none
    | none => none

/-- Assign a block of the other file, and mark it if it has been local. -/
def adoptBlock (f : FileId) (localHashes : List Bytes) (s : Store) (i : Nat) (b : BlockId) :
    Option Store := do
  let s ← s.assignBlock f b i
  if (s.blocks b).hash ∈ localHashes then s.markLocalAvailable f i else some s

/-- The loop over the blocks of the other file, from the `i`-th slot on. -/
def adoptBlocks (f : FileId) (localHashes : List Bytes) :
    Store → Nat → List (Option Slot) → Option Store
  | s, _, [] => some s
  | s, i, none :: vs => adoptBlocks f localHashes s (i + 1) vs
  | s, i, some (b, _) :: vs => do
    let s ← adoptBlock f localHashes s i b
    adoptBlocks f localHashes s (i + 1) vs

/-- `update` up to the loop over the blocks. -/
def prepareUpdate (s : Store) (f : FileId) (other : FileInfo) : Store :=
  let s := s.setFile f ((s.files f).copyFields other)
  let s := s.removeBlocks f
  let s := s.setFile f ((s.files f).switchContent other.isFile)
  if other.isFile then s.setFile f ((s.files f).resize other.slots.length) else s

/-- `file_info_t::update`. -/
def update (s : Store) (f : FileId) (other : FileInfo) : Option Store :=
  let prev := s.files f
  if prev.name = other.name ∧ (prev.uuid = other.uuid ∨ prev.version.identicalTo other.version) then do
    let localHashes := if prev.isFile then s.localBlockHashes f else []
    let s := s.prepareUpdate f other
    let s ← adoptBlocks f localHashes s 0 (if other.isFile then other.slots else [])
    return s.setFile f ((s.files f).copyFlags other)
  else none

/-! ## Looking a block up -/

theorem SameBlocks.byHash {s t : Store} (h : SameBlocks s t) (hash : Bytes) :
    t.byHash hash = s.byHash hash := by
  simp only [Store.byHash, h.blockMap, h.hash]

theorem byHash_eq_some {s : Store} {hash : Bytes} {b : BlockId} (h : s.byHash hash = some b) :
    b ∈ s.blockMap ∧ (s.blocks b).hash = hash :=
  ⟨List.mem_of_find?_eq_some h, by simpa using List.find?_some h⟩

/-! ## The loops over the blocks -/

/-- The next null slot, when those before have been dealt with. -/
theorem getElem?_append_replicate (pre : List (Option Slot)) (n : Nat) :
    (pre ++ List.replicate (n + 1) none)[pre.length]? = some none := by
  simp [List.replicate_succ]

theorem set_append_replicate (pre : List (Option Slot)) (n : Nat) (v : Option Slot) :
    (pre ++ List.replicate (n + 1) none).set pre.length v = pre ++ [v] ++ List.replicate n none := by
  simp [List.replicate_succ]

/-- Assigning the next slot. -/
theorem assignBlock_next {s : Store} {f : FileId} (hf : (s.files f).isFile = true)
    {pre : List (Option Slot)} {n : Nat}
    (hslots : (s.files f).slots = pre ++ List.replicate (n + 1) none) (b : BlockId) :
    ∃ t, s.assignBlock f b pre.length = some t ∧
      t.files f = (s.files f).setSlots (pre ++ [some (b, false)] ++ List.replicate n none) := by
  have hfree : (s.files f).slots[pre.length]? = some none := by
    rw [hslots]
    exact getElem?_append_replicate pre n
  refine ⟨_, assignBlock_eq_some.mpr ⟨hf, hfree, rfl⟩, ?_⟩
  rw [← set_append_replicate, ← hslots]
  exact files_setFile ..

/-- **The loop over the announced blocks**: it succeeds when every hash is known, and
leaves a slot for each of them. -/
theorem assignHashes_spec {f : FileId} {hashes : List Bytes} :
    ∀ {s : Store} {pre : List (Option Slot)}, (s.files f).isFile = true →
      (s.files f).slots = pre ++ List.replicate hashes.length none →
      (∀ hash ∈ hashes, (s.byHash hash).isSome = true) →
      ∃ t, assignHashes f s pre.length hashes = some t ∧ SameBut f s t ∧
        t.files f = (s.files f).setSlots
          (pre ++ hashes.map fun hash => (s.byHash hash).map fun b => (b, false)) := by
  induction hashes with
  | nil =>
    intro s pre _ hslots _
    refine ⟨s, rfl, SameBut.refl f s, ?_⟩
    have hpre : (s.files f).slots = pre := by simpa using hslots
    rw [List.map_nil, List.append_nil, ← hpre, FileInfo.setSlots_slots]
  | cons hash hashes ih =>
    intro s pre hf hslots hfound
    obtain ⟨b, hb⟩ := Option.isSome_iff_exists.mp (hfound hash (List.mem_cons_self ..))
    obtain ⟨t, ht, hfile⟩ := assignBlock_next hf hslots b
    have hsame := SameBut.assignBlock ht
    obtain ⟨blocks, hc⟩ : ∃ blocks, (s.files f).content = .file blocks :=
      content_of_slot (hslots ▸ getElem?_append_replicate pre hashes.length)
    have hlen : pre.length + 1 = (pre ++ [some (b, false)]).length := by simp
    obtain ⟨u, hu, hsame', hfile'⟩ := @ih t (pre ++ [some (b, false)])
      (by rw [hfile, FileInfo.isFile_setSlots, hf])
      (by rw [hfile, FileInfo.slots_setSlots hc])
      (fun h hmem => by rw [hsame.byHash]; exact hfound h (List.mem_cons_of_mem _ hmem))
    refine ⟨u, ?_, hsame.trans hsame', ?_⟩
    · rw [assignHashes, hb, Option.bind_eq_bind, Option.bind_some, ht, hlen]
      exact hu
    · simp [hfile', hfile, hsame.byHash, hb]

/-- Without a slot the first block fails. -/
theorem assignHashes_of_nil {f : FileId} {s : Store} {i : Nat} {hashes : List Bytes}
    (hslots : (s.files f).slots = []) (hne : hashes ≠ []) : assignHashes f s i hashes = none := by
  cases hashes with
  | nil => exact absurd rfl hne
  | cons hash hashes =>
    have hnone : ∀ b, s.assignBlock f b i = none := by
      intro b
      cases h : s.assignBlock f b i with
      | none => rfl
      | some t =>
        obtain ⟨-, hfree, -⟩ := assignBlock_eq_some.mp h
        simp [hslots] at hfree
    rw [assignHashes]
    cases s.byHash hash with
    | none => rfl
    | some b => simp [hnone]

/-- What the loop over the blocks of another file leaves in the slots. -/
def adopted (s : Store) (localHashes : List Bytes) (vs : List (Option Slot)) : List (Option Slot) :=
  vs.map fun v => v.map fun p => (p.1, decide ((s.blocks p.1).hash ∈ localHashes))

theorem SameBlocks.adopted {s t : Store} (h : SameBlocks s t) (localHashes : List Bytes)
    (vs : List (Option Slot)) : t.adopted localHashes vs = s.adopted localHashes vs := by
  simp only [Store.adopted, h.hash]

/-- Adopting one block. -/
theorem adoptBlock_next {s : Store} {f : FileId} (hf : (s.files f).isFile = true)
    {pre : List (Option Slot)} {n : Nat}
    (hslots : (s.files f).slots = pre ++ List.replicate (n + 1) none) (localHashes : List Bytes)
    (b : BlockId) :
    ∃ u a, adoptBlock f localHashes s pre.length b = some u ∧ SameBut f s u ∧
      u.files f = ((s.files f).setSlots (pre ++ [some (b, decide ((s.blocks b).hash ∈ localHashes))] ++
        List.replicate n none)).setAvailable a := by
  obtain ⟨t, ht, hfile⟩ := assignBlock_next hf hslots b
  obtain ⟨blocks, hc⟩ : ∃ blocks, (s.files f).content = .file blocks :=
    content_of_slot (hslots ▸ getElem?_append_replicate pre n)
  have hsame := SameBut.assignBlock ht
  rw [adoptBlock, Option.bind_eq_bind, ht, Option.bind_some, hsame.hash b]
  by_cases hmem : (s.blocks b).hash ∈ localHashes
  · have hslot : (t.files f).slots[pre.length]? = some (some (b, false)) := by
      rw [hfile, FileInfo.slots_setSlots hc]
      simp
    obtain ⟨u, hu⟩ : ∃ u, t.markLocalAvailable f pre.length = some u := by
      unfold markLocalAvailable
      rw [hslot]
      exact ⟨_, rfl⟩
    obtain ⟨b', a, hslot', hfile'⟩ := files_markLocalAvailable hu
    rw [hslot] at hslot'
    cases hslot'
    refine ⟨u, a, by rw [if_pos hmem, hu], hsame.trans (SameBut.markLocalAvailable hu), ?_⟩
    rw [hfile', hfile, FileInfo.setSlots_setSlots, FileInfo.slots_setSlots hc, decide_eq_true hmem]
    simp
  · refine ⟨t, (t.files f).available, by rw [if_neg hmem], hsame, ?_⟩
    rw [decide_eq_false hmem, ← hfile]
    rfl

/-- **The loop over the blocks of another file**, into a regular file. -/
theorem adoptBlocks_spec {f : FileId} {localHashes : List Bytes} {vs : List (Option Slot)} :
    ∀ {s : Store} {pre : List (Option Slot)}, (s.files f).isFile = true →
      (s.files f).slots = pre ++ List.replicate vs.length none →
      ∃ t a, adoptBlocks f localHashes s pre.length vs = some t ∧ SameBut f s t ∧
        t.files f = ((s.files f).setSlots (pre ++ s.adopted localHashes vs)).setAvailable a := by
  induction vs with
  | nil =>
    intro s pre _ hslots
    refine ⟨s, (s.files f).available, rfl, SameBut.refl f s, ?_⟩
    have hpre : (s.files f).slots = pre ++ s.adopted localHashes [] := by simpa [adopted] using hslots
    rw [← hpre, FileInfo.setSlots_slots]
    rfl
  | cons v vs ih =>
    intro s pre hf hslots
    obtain ⟨blocks, hc⟩ : ∃ blocks, (s.files f).content = .file blocks :=
      content_of_slot (hslots ▸ getElem?_append_replicate pre vs.length)
    cases v with
    | none =>
      have hnull : (s.files f).slots = (pre ++ [none]) ++ List.replicate vs.length none := by
        rw [hslots, List.length_cons, List.replicate_succ, List.append_assoc]
        rfl
      obtain ⟨t, a, ht, hsame, hfile⟩ := @ih s (pre ++ [none]) hf hnull
      refine ⟨t, a, ?_, hsame, ?_⟩
      · rw [adoptBlocks]
        simpa using ht
      · rw [hfile, List.append_assoc]
        rfl
    | some p =>
      obtain ⟨u, a, hu, hsame, hfile⟩ := adoptBlock_next hf hslots localHashes p.1
      obtain ⟨w, a', hw, hsame', hfile'⟩ := @ih u
        (pre ++ [some (p.1, decide ((s.blocks p.1).hash ∈ localHashes))])
        (by rw [hfile, FileInfo.isFile_setAvailable, FileInfo.isFile_setSlots, hf])
        (by rw [hfile, FileInfo.slots_setAvailable, FileInfo.slots_setSlots hc])
      refine ⟨w, a', ?_, hsame.trans hsame', ?_⟩
      · rw [adoptBlocks, Option.bind_eq_bind, hu, Option.bind_some]
        simpa using hw
      · rw [hfile', hfile, hsame.adopted]
        simp [adopted]

/-- Into anything else only null slots can be adopted. -/
theorem adoptBlocks_of_nonFile {f : FileId} {localHashes : List Bytes} {vs : List (Option Slot)} :
    ∀ {s : Store} {i : Nat}, (s.files f).isFile = false →
      adoptBlocks f localHashes s i vs = if ∀ v ∈ vs, v = none then some s else none := by
  induction vs with
  | nil => exact fun _ => rfl
  | cons v vs ih =>
    intro s i hf
    cases v with
    | none => simp [adoptBlocks, ih hf]
    | some p =>
      have hnone : s.assignBlock f p.1 i = none := by simp [assignBlock, hf]
      simp [adoptBlocks, adoptBlock, hnone]

theorem linked_assignHashes {f : FileId} {hashes : List Bytes} :
    ∀ {s t : Store} {i : Nat}, s.graph.Linked → assignHashes f s i hashes = some t →
      t.graph.Linked := by
  induction hashes with
  | nil =>
    rintro s t i hl ⟨⟩
    exact hl
  | cons hash hashes ih =>
    intro s t i hl h
    obtain ⟨b, -, h⟩ := Option.bind_eq_some_iff.mp h
    obtain ⟨u, hu, h⟩ := Option.bind_eq_some_iff.mp h
    obtain ⟨hfree, hgraph⟩ := graph_assignBlock hu
    exact ih (hgraph ▸ hl.assign hfree b) h

theorem linked_adoptBlocks {f : FileId} {localHashes : List Bytes} {vs : List (Option Slot)} :
    ∀ {s t : Store} {i : Nat}, s.graph.Linked → adoptBlocks f localHashes s i vs = some t →
      t.graph.Linked := by
  induction vs with
  | nil =>
    rintro s t i hl ⟨⟩
    exact hl
  | cons v vs ih =>
    intro s t i hl h
    cases v with
    | none => exact ih hl h
    | some p =>
      obtain ⟨w, hw, h⟩ := Option.bind_eq_some_iff.mp h
      obtain ⟨u, hu, hw⟩ := Option.bind_eq_some_iff.mp hw
      obtain ⟨hfree, hgraph⟩ := graph_assignBlock hu
      have hul : u.graph.Linked := hgraph ▸ hl.assign hfree p.1
      refine ih ?_ h
      split at hw
      · rw [(graph_markLocalAvailable hw).2]
        exact hul.mark f i
      · cases hw
        exact hul

/-! ## The updated file -/

theorem slots_copyFields {file other : FileInfo} (hc : file.Coherent) (ho : other.Coherent) :
    (file.copyFields other).slots = file.slots := by
  by_cases hlink : file.isLink ∧ other.isLink
  · have hnot : ∀ g : FileInfo, g.isLink = true → g.isFile = false := by
      intro g hg
      simp_all [FileInfo.isLink, FileInfo.isFile]
    rw [hc.slots_eq_nil (hnot _ hlink.1), ← ho.slots_eq_nil (hnot _ hlink.2)]
    simp [FileInfo.slots, FileInfo.copyFields, hlink]
  · simp [FileInfo.slots, FileInfo.copyFields, hlink]

theorem coherent_copyFields {file other : FileInfo} (hc : file.Coherent) (ho : other.Coherent) :
    (file.copyFields other).Coherent := by
  by_cases hlink : file.isLink ∧ other.isLink
  · have htype : file.isFile = other.isFile := by
      simp_all [FileInfo.isLink, FileInfo.isFile]
    have hcontent : (file.copyFields other).content = other.content := if_pos hlink
    unfold FileInfo.Coherent
    rw [hcontent]
    show file.isFile = true ↔ _
    rw [htype]
    exact ho
  · have hcontent : (file.copyFields other).content = file.content := if_neg hlink
    unfold FileInfo.Coherent
    rw [hcontent]
    exact hc

/-- Removing the blocks of a file that has none is removing nothing. -/
theorem graph_removeBlocks_of_coherent {s : Store} (hl : s.graph.Linked) {f : FileId}
    (hc : (s.files f).Coherent) : (s.removeBlocks f).graph = s.graph.erase f := by
  cases hf : (s.files f).isFile with
  | true => exact graph_removeBlocks hl hf
  | false =>
    have hnone : ∀ j, s.graph.slot f j = none := by
      intro j
      show (s.files f).slots[j]?.join = none
      rw [hc.slots_eq_nil hf]
      rfl
    rw [hl.erase_eq_self hnone]
    unfold removeBlocks
    rw [hf]
    rfl

/-- The members of `content` after both possible changes of kind. -/
theorem slots_resize_switchContent {file : FileInfo} (hc : file.Coherent) {k : Nat}
    (hslots : file.slots = List.replicate k none) (n : Nat) :
    ((file.switchContent true).resize n).slots = List.replicate n none := by
  have hresize : List.replicate (min n k) none ++ List.replicate (n - k) none =
      (List.replicate n none : List (Option Slot)) := by
    rw [List.replicate_append_replicate]
    congr 1
    omega
  cases hcontent : file.content with
  | file blocks =>
    have hf : file.isFile = true := hc.mpr ⟨blocks, hcontent⟩
    have hblocks : blocks = List.replicate k none := by simpa [FileInfo.slots, hcontent] using hslots
    simp [FileInfo.resize, FileInfo.switchContent, FileInfo.setSlots, FileInfo.slots, hf, hcontent,
      hblocks, hresize]
  | nonFile target =>
    have hf : file.isFile = false := by
      rw [Bool.eq_false_iff]
      intro hf
      obtain ⟨blocks, hb⟩ := hc.mp hf
      rw [hcontent] at hb
      cases hb
    simp [FileInfo.resize, FileInfo.switchContent, FileInfo.setSlots, FileInfo.slots, hf]

/-- The file `update` has before the loop over the blocks. -/
structure Prepared (s : Store) (f : FileId) (other : FileInfo) (t : Store) : Prop where
  same : SameBut f s t
  graph : t.graph = (s.graph.erase f).reset f other.slots.length
  file : ∃ c a, t.files f = (((s.files f).copyFields other).setContent c).setAvailable a
  slots : (t.files f).slots = List.replicate other.slots.length none
  content : (∃ blocks, (t.files f).content = .file blocks) ↔ other.isFile = true

/-- The file after its blocks have been removed. -/
theorem files_removeBlocks_of_coherent {s : Store} (hl : s.graph.Linked) {f : FileId}
    (hc : (s.files f).Coherent) :
    (∃ c a, (s.removeBlocks f).files f = ((s.files f).setContent c).setAvailable a) ∧
      ((s.removeBlocks f).files f).Coherent ∧
      ((s.removeBlocks f).files f).slots = List.replicate (s.files f).slots.length none := by
  cases hf : (s.files f).isFile with
  | true =>
    obtain ⟨blocks, hcontent⟩ := hc.mp hf
    rw [files_removeBlocks hl hf]
    refine ⟨⟨_, false, by rw [← FileInfo.setSlots_eq]⟩, hc.setSlots _, ?_⟩
    rw [FileInfo.slots_setAvailable, FileInfo.slots_setSlots hcontent]
  | false =>
    have hsame : s.removeBlocks f = s := by
      unfold removeBlocks
      rw [hf]
      rfl
    rw [hsame]
    refine ⟨⟨(s.files f).content, (s.files f).available, rfl⟩, hc, ?_⟩
    rw [hc.slots_eq_nil hf]
    rfl

theorem prepareUpdate_spec {s : Store} (hl : s.graph.Linked) {f : FileId}
    (hc : (s.files f).Coherent) {other : FileInfo} (ho : other.Coherent) :
    Prepared s f other (s.prepareUpdate f other) := by
  -- the store after the fields have been copied has the same graph
  have hl₁ : (s.setFile f ((s.files f).copyFields other)).graph = s.graph :=
    graph_setFile_of_slots (slots_copyFields hc ho)
  have hf₁ := files_setFile s f ((s.files f).copyFields other)
  have hc₁ : ((s.setFile f ((s.files f).copyFields other)).files f).Coherent :=
    by rw [hf₁]; exact coherent_copyFields hc ho
  have hgraph := graph_removeBlocks_of_coherent (hl₁ ▸ hl) hc₁
  obtain ⟨⟨c, a, hfile⟩, hc₂, hslots⟩ := files_removeBlocks_of_coherent (hl₁ ▸ hl) hc₁
  have hsame := (SameBut.setFile s f ((s.files f).copyFields other)).trans
    (SameBut.removeBlocks (s.setFile f ((s.files f).copyFields other)) f)
  rw [hl₁] at hgraph
  rw [hf₁] at hfile
  unfold prepareUpdate
  dsimp only
  generalize hu : (s.setFile f ((s.files f).copyFields other)).removeBlocks f = u at *
  have hnull : ∀ (t : Store) (file : FileInfo), t.graph = s.graph.erase f →
      file.slots = List.replicate other.slots.length none →
      (t.setFile f file).graph = (s.graph.erase f).reset f other.slots.length := by
    intro t file ht hfile
    rw [graph_setFile, ht, hfile]
    rfl
  cases hother : other.isFile with
  | true =>
    rw [if_pos rfl, files_setFile]
    have hnew := slots_resize_switchContent hc₂ hslots other.slots.length
    obtain ⟨l, hcontent⟩ : ∃ l, ((u.files f).switchContent true).content = .file l := by
      unfold FileInfo.switchContent
      cases hfu : (u.files f).isFile with
      | true => exact hc₂.mp hfu
      | false => exact ⟨[], rfl⟩
    have hresize : ∀ n, ∃ l, (((u.files f).switchContent true).resize n).content = .file l := by
      intro n
      unfold FileInfo.resize FileInfo.setSlots
      rw [hcontent]
      exact ⟨_, rfl⟩
    refine ⟨(hsame.trans (.setFile _ f _)).trans (.setFile _ f _), ?_, ?_, ?_, ?_⟩
    · rw [graph_setFile, graph_setFile, hgraph, hnew]
      show Backlink.Graph.mk (Function.update (Function.update _ f _) f _) _ = _
      rw [Function.update_idem]
      rfl
    · refine ⟨(((u.files f).switchContent true).resize other.slots.length).content, a, ?_⟩
      rw [files_setFile, FileInfo.resize, FileInfo.setSlots_eq, hfile]
      rfl
    · rw [files_setFile, hnew]
    · rw [files_setFile]
      exact ⟨fun _ => hother, fun _ => hresize _⟩
  | false =>
    rw [if_neg Bool.false_ne_true]
    have hnil : other.slots = [] := ho.slots_eq_nil hother
    obtain ⟨target, hcontent⟩ : ∃ t, ((u.files f).switchContent false).content = .nonFile t := by
      unfold FileInfo.switchContent
      cases hfu : (u.files f).isFile with
      | true => exact ⟨"", rfl⟩
      | false =>
        cases hcu : (u.files f).content with
        | file blocks =>
          have := hc₂.mpr ⟨blocks, hcu⟩
          rw [hfu] at this
          cases this
        | nonFile target => exact ⟨target, rfl⟩
    have hnew : ((u.files f).switchContent false).slots = List.replicate other.slots.length none := by
      rw [hnil, FileInfo.slots, hcontent]
      rfl
    refine ⟨hsame.trans (.setFile _ f _), hnull _ _ hgraph hnew, ?_, ?_, ?_⟩
    · refine ⟨((u.files f).switchContent false).content, a, ?_⟩
      rw [files_setFile, FileInfo.switchContent_eq, hfile]
      rfl
    · rw [files_setFile, hnew]
    · rw [files_setFile, hcontent, hother]
      simp

/-- The hashes `update` collects. -/
def keptHashes (s : Store) (f : FileId) : List Bytes :=
  if (s.files f).isFile then s.localBlockHashes f else []

/-- `update` in one line. -/
theorem update_eq {s : Store} {f : FileId} {other : FileInfo} (ho : other.Coherent)
    (hname : (s.files f).name = other.name)
    (hsame : (s.files f).uuid = other.uuid ∨
      (s.files f).version.identicalTo other.version = true) :
    s.update f other =
      (adoptBlocks f (s.keptHashes f) (s.prepareUpdate f other) 0 other.slots).map
        fun t => t.setFile f ((t.files f).copyFlags other) := by
  have hblocks : (if other.isFile then other.slots else []) = other.slots := by
    cases hf : other.isFile with
    | true => rfl
    | false => exact (ho.slots_eq_nil hf).symm
  unfold update
  dsimp only
  rw [if_pos ⟨hname, hsame⟩, hblocks]
  show (adoptBlocks f (s.keptHashes f) _ 0 _).bind _ = _
  exact Option.map_eq_bind.symm

/-- The file `update` makes of the previous one. -/
structure Updated (s : Store) (f : FileId) (other : FileInfo) (t : Store) : Prop where
  same : SameBut f s t
  linked : t.graph.Linked
  coherent : (t.files f).Coherent
  file : ∃ c a,
    t.files f = ((((s.files f).copyFields other).setContent c).setAvailable a).copyFlags other
  slots : (t.files f).slots = s.adopted (s.keptHashes f) other.slots

theorem Linked.prepared {s t : Store} (hl : s.graph.Linked) {f : FileId} {other : FileInfo}
    (h : Prepared s f other t) : t.graph.Linked := by
  rw [h.graph]
  refine (hl.erase f).reset (fun j => ?_) _
  rw [Graph.slot_erase, if_pos rfl]

/-- The loop over the blocks, from a prepared file on. -/
theorem Prepared.adopt {s p : Store} {f : FileId} {other : FileInfo} (ho : other.Coherent)
    (hp : Prepared s f other p) (hashes : List Bytes)
    (hkind : (s.files f).isFile = true ∨ ∀ v ∈ other.slots, v = none) :
    ∃ t a c, adoptBlocks f hashes p 0 other.slots = some t ∧ SameBut f p t ∧
      (t.files f).slots = s.adopted hashes other.slots ∧
      t.files f = ((p.files f).setContent c).setAvailable a ∧
      ((∃ blocks, (t.files f).content = .file blocks) ↔ other.isFile = true) := by
  have hisFile : (p.files f).isFile = (s.files f).isFile := by
    obtain ⟨c, a, hfile⟩ := hp.file
    rw [hfile]
    rfl
  cases hf : (s.files f).isFile with
  | true =>
    obtain ⟨t, a, ht, hsame, hfile⟩ := @adoptBlocks_spec f hashes other.slots p []
      (hisFile.trans hf) (by rw [hp.slots]; rfl)
    rw [List.nil_append, hp.same.adopted] at hfile
    refine ⟨t, a, _, ht, hsame, ?_, by rw [hfile, FileInfo.setSlots_eq], ?_⟩
    · cases hcon : (p.files f).content with
      | file blocks => rw [hfile, FileInfo.slots_setAvailable, FileInfo.slots_setSlots hcon]
      | nonFile target =>
        have hnil : other.slots = [] := by
          refine ho.slots_eq_nil ?_
          rw [Bool.eq_false_iff, ne_eq, ← hp.content, hcon]
          simp
        rw [hfile, FileInfo.slots_setAvailable, hnil]
        simp [adopted, FileInfo.setSlots, FileInfo.slots, hcon]
    · rw [← hp.content, hfile]
      show (∃ blocks, (FileInfo.setSlots _ _).content = _) ↔ _
      unfold FileInfo.setSlots
      cases hcon : (p.files f).content <;> simp [hcon]
  | false =>
    have hnone := hkind.resolve_left (by rw [hf]; exact Bool.false_ne_true)
    refine ⟨p, (p.files f).available, (p.files f).content,
      by rw [adoptBlocks_of_nonFile (hisFile.trans hf), if_pos hnone], SameBut.refl f p, ?_, rfl,
      hp.content⟩
    rw [hp.slots, adopted, List.eq_replicate_of_mem hnone]
    simp

/-- **Update**: the file takes over fields, flags and blocks, unless blocks meet an
object that has not been a regular file. -/
theorem update_spec {s : Store} (hl : s.graph.Linked) {f : FileId} (hc : (s.files f).Coherent)
    {other : FileInfo} (ho : other.Coherent) (hname : (s.files f).name = other.name)
    (hid : (s.files f).uuid = other.uuid ∨ (s.files f).version.identicalTo other.version = true)
    (hkind : (s.files f).isFile = true ∨ ∀ v ∈ other.slots, v = none) :
    ∃ t, s.update f other = some t ∧ Updated s f other t := by
  have hp := prepareUpdate_spec hl hc ho
  obtain ⟨c, a, hfile⟩ := hp.file
  obtain ⟨t, a', c', ht, hsame, hslots, hfile', hcontent⟩ := hp.adopt ho (s.keptHashes f) hkind
  have hgraph : (t.setFile f ((t.files f).copyFlags other)).graph = t.graph :=
    graph_setFile_of_slots rfl
  rw [update_eq ho hname hid, ht]
  refine ⟨_, rfl, (hp.same.trans hsame).trans (.setFile _ f _), ?_, ?_, ⟨c', a', ?_⟩, ?_⟩
  · rw [hgraph]
    exact linked_adoptBlocks (Linked.prepared hl hp) ht
  · rw [files_setFile]
    exact hcontent.symm
  · rw [files_setFile, hfile', hfile]
    rfl
  · rw [files_setFile, ← hslots]
    rfl

/-- Blocks for an object that has not been a regular file fail an assertion. -/
theorem update_of_nonFile {s : Store} (hl : s.graph.Linked) {f : FileId} (hc : (s.files f).Coherent)
    {other : FileInfo} (ho : other.Coherent) (hf : (s.files f).isFile = false)
    (hsome : ∃ v ∈ other.slots, v ≠ none) : s.update f other = none := by
  by_cases hassert : (s.files f).name = other.name ∧
      ((s.files f).uuid = other.uuid ∨ (s.files f).version.identicalTo other.version = true)
  · obtain ⟨c, a, hfile⟩ := (prepareUpdate_spec hl hc ho).file
    have hisFile : ((s.prepareUpdate f other).files f).isFile = false := by
      rw [hfile]
      exact hf
    have hnot : ¬ ∀ v ∈ other.slots, v = none := by
      intro hall
      obtain ⟨v, hv, hne⟩ := hsome
      exact hne (hall v hv)
    rw [update_eq ho hassert.1 hassert.2, adoptBlocks_of_nonFile hisFile, if_neg hnot]
    rfl
  · unfold update
    dsimp only
    rw [if_neg hassert]

end Store

end SyncSpirit
