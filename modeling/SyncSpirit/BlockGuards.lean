import SyncSpirit.FileInfo
import Mathlib.Data.List.Nodup
import Mathlib.Data.List.Find

/-!
# The guards of the blocks (`net/controller_actor.cpp`)

A controller guards every block that it fetches, so that the block outlives its file. The guards are
kept by folder: `acquire_block` takes the record of the folder object, `release_block` the first
record that has the id of the folder. The records are in a hash table, so which one is the first is up to
the table, and a folder that was removed and created again has a second record with the same id.

As long as each id has one folder object (`Named`), the guards can be counted by id and hash:
`guardCount_acquire` and `release_spec`.
-/

namespace SyncSpirit

/-- `folder_ptr_t`, a folder object. A folder that is created again is another object. -/
structure FolderPtr where
  id : String
  object : Nat
  deriving DecidableEq, Repr

/-- `rc_guard_t<block_info_t>`. -/
structure BlockGuard where
  block : BlockId
  count : Nat
  deriving DecidableEq, Repr

/-- `blocks_t`: the guards of a folder, by the hashes of the blocks. -/
abbrev BlockGuards : Type := List (Bytes × BlockGuard)

namespace BlockGuards

/-- Another count of a guard. -/
def recount (guards : BlockGuards) (hash : Bytes) (f : Nat → Nat) : BlockGuards :=
  guards.map fun p => if p.1 = hash then (p.1, { p.2 with count := f p.2.count }) else p

/-- `start_fetching`: the guard of the hash is counted up, whichever block it is for. -/
def startFetching (guards : BlockGuards) (hash : Bytes) (b : BlockId) : BlockGuards :=
  match guards.find? fun p => p.1 = hash with
  | some _ => guards.recount hash (· + 1)
  | none => guards ++ [(hash, ⟨b, 1⟩)]

/-- `finish_fetching`: the block of the guard. It is not checked that there is one. -/
def finishFetching (guards : BlockGuards) (hash : Bytes) : Option (BlockId × BlockGuards) :=
  (guards.find? fun p => p.1 = hash).map fun p =>
    (p.2.block, if p.2.count = 1 then guards.filter fun p => p.1 ≠ hash else guards.recount hash (· - 1))

/-- The count of the guard of a hash. -/
def count (guards : BlockGuards) (hash : Bytes) : Nat :=
  ((guards.find? fun p => p.1 = hash).map fun p => p.2.count).getD 0

/-- There is a guard of the block under the hash. -/
def Has (guards : BlockGuards) (hash : Bytes) (b : BlockId) : Prop :=
  ∃ p ∈ guards, p.1 = hash ∧ p.2.block = b

section Count

variable {guards guards' : BlockGuards} {hash hash' : Bytes} {b b' : BlockId}

/-- The guard of a hash is found as before. -/
theorem find_recount (guards : BlockGuards) (hash hash' : Bytes) (f : Nat → Nat) :
    (guards.recount hash f).find? (fun p => p.1 = hash') =
      (guards.find? fun p => p.1 = hash').map fun p =>
        if p.1 = hash then (p.1, { p.2 with count := f p.2.count }) else p := by
  unfold recount
  rw [List.find?_map]
  refine congrArg _ (congrArg (List.find? · guards) (funext fun p => ?_))
  show decide ((if p.1 = hash then _ else p).1 = hash') = decide (p.1 = hash')
  split <;> rfl

theorem count_recount (hhash : (guards.find? fun p => p.1 = hash) ≠ none) (f : Nat → Nat) (hash' : Bytes) :
    (guards.recount hash f).count hash' = if hash' = hash then f (guards.count hash) else guards.count hash' := by
  rw [count, find_recount]
  split
  · rename_i heq
    subst heq
    obtain ⟨p, hp⟩ := Option.ne_none_iff_exists'.mp hhash
    have hphash : p.1 = hash' := by simpa using List.find?_some hp
    simp [count, hp, hphash]
  · rename_i hne
    rw [count]
    cases hp : guards.find? fun p => p.1 = hash' with
    | none => rfl
    | some p =>
      have hphash : p.1 = hash' := by simpa using List.find?_some hp
      simp [hphash, hne]

theorem Has.of_recount {f : Nat → Nat} (h : (guards.recount hash f).Has hash' b) : guards.Has hash' b := by
  obtain ⟨q, hq, hkey, hblock⟩ := h
  obtain ⟨p, hp, rfl⟩ := List.mem_map.mp hq
  refine ⟨p, hp, ?_⟩
  split at hkey <;> split at hblock <;> exact ⟨hkey, hblock⟩

/-- `start_fetching` counts the guard of the hash up. -/
theorem count_startFetching (guards : BlockGuards) (hash hash' : Bytes) (b : BlockId) :
    (guards.startFetching hash b).count hash' = guards.count hash' + if hash' = hash then 1 else 0 := by
  unfold startFetching
  split
  · rename_i q hq
    rw [count_recount (by rw [hq]; nofun)]
    split
    · rename_i heq
      rw [heq]
    · rfl
  · rename_i hnone
    rw [count, List.find?_append]
    by_cases heq : hash' = hash
    · rw [heq, hnone, if_pos rfl, count, hnone]
      simp
    · rw [if_neg heq, count]
      have hne : ¬ hash = hash' := fun h => heq h.symm
      simp [hne]

theorem Has.of_startFetching (h : (guards.startFetching hash b).Has hash' b') :
    guards.Has hash' b' ∨ hash' = hash ∧ b' = b := by
  unfold startFetching at h
  split at h
  · exact .inl h.of_recount
  · obtain ⟨p, hp, hkey, hblock⟩ := h
    rcases List.mem_append.mp hp with hp | hp
    · exact .inl ⟨p, hp, hkey, hblock⟩
    · rw [List.mem_singleton.mp hp] at hkey hblock
      exact .inr ⟨hkey.symm, hblock.symm⟩

/-- `finish_fetching` counts the guard of the hash down, if there is one. -/
theorem finishFetching_spec (hpos : 0 < guards.count hash) :
    ∃ b guards', guards.finishFetching hash = some (b, guards') ∧ guards.Has hash b ∧
      (∀ hash', guards'.count hash' + (if hash' = hash then 1 else 0) = guards.count hash') ∧
        ∀ hash' b', guards'.Has hash' b' → guards.Has hash' b' := by
  cases hfind : guards.find? fun p => p.1 = hash with
  | none =>
    rw [count, hfind] at hpos
    exact absurd hpos (Nat.lt_irrefl 0)
  | some p =>
    have hcount : guards.count hash = p.2.count := by
      rw [count, hfind]
      rfl
    have hhas : guards.Has hash p.2.block :=
      ⟨p, List.mem_of_find?_eq_some hfind, by simpa using List.find?_some hfind, rfl⟩
    unfold finishFetching
    rw [hfind]
    refine ⟨_, _, rfl, hhas, fun hash' => ?_, fun hash' b' hb' => ?_⟩
    · split
      · rename_i hone
        rw [count]
        by_cases heq : hash' = hash
        · subst heq
          rw [if_pos rfl, hcount, hone, List.find?_eq_none.mpr fun p hp => by simpa using (List.mem_filter.mp hp).2]
          rfl
        · -- the guards of other hashes stay
          rw [if_neg heq, count, add_zero, List.find?_filter]
          refine congrArg (fun o => (Option.map _ o).getD 0) ?_
          refine congrArg (List.find? · guards) (funext fun p => ?_)
          by_cases hp : p.1 = hash' <;> simp [hp, heq]
      · rw [count_recount (by rw [hfind]; nofun)]
        split
        · rename_i heq
          subst heq
          omega
        · rfl
    · split at hb'
      · obtain ⟨q, hq, hkey, hblock⟩ := hb'
        exact ⟨q, (List.mem_filter.mp hq).1, hkey, hblock⟩
      · exact hb'.of_recount

end Count

end BlockGuards

/-- `folder_synchronization_t`. -/
structure FolderSynchronization where
  folder : FolderPtr
  blocks : BlockGuards

/-- In which order a hash table is walked. -/
structure HashOrder (α : Type) where
  walk : List α → List α
  perm : ∀ l, (walk l).Perm l

/-- The order in which the elements have been put there. -/
def HashOrder.insertion (α : Type) : HashOrder α := ⟨id, fun _ => .refl _⟩

/-- `synchronizing_folders_t`: a folder object has one record, which stays when it has no guards any
more. -/
structure SynchronizingFolders where
  order : HashOrder FolderSynchronization
  records : List FolderSynchronization
  nodup : (records.map FolderSynchronization.folder).Nodup

namespace SynchronizingFolders

/-- No folder has a record. -/
def empty (order : HashOrder FolderSynchronization) : SynchronizingFolders := ⟨order, [], List.nodup_nil⟩

/-- Other guards of a folder. -/
def modify (t : SynchronizingFolders) (folder : FolderPtr) (f : BlockGuards → BlockGuards) : SynchronizingFolders where
  order := t.order
  records := t.records.map fun s => if s.folder = folder then { s with blocks := f s.blocks } else s
  nodup := by
    have hsame : ((t.records.map fun s => if s.folder = folder then { s with blocks := f s.blocks } else s).map
        FolderSynchronization.folder) = t.records.map FolderSynchronization.folder := by
      rw [List.map_map]
      refine List.map_congr_left fun s _ => ?_
      simp only [Function.comp_apply]
      split <;> rfl
    rw [hsame]
    exact t.nodup

/-- `get_sync_info` of a folder object, which gets a record if it has none. -/
def getSyncInfo (t : SynchronizingFolders) (folder : FolderPtr) : SynchronizingFolders :=
  if hnew : folder ∉ t.records.map FolderSynchronization.folder then
    { t with
      records := t.records ++ [⟨folder, []⟩]
      nodup := by
        rw [List.map_append]
        exact List.nodup_append'.mpr ⟨t.nodup, List.nodup_singleton _, by simpa using hnew⟩ }
  else t

/-- `get_sync_info` of an id: the first record of a folder with the id. -/
def getSyncInfoOf (t : SynchronizingFolders) (folderId : String) : Option FolderSynchronization :=
  (t.order.walk t.records).find? fun s => s.folder.id = folderId

/-- `acquire_block`. -/
def acquire (t : SynchronizingFolders) (folder : FolderPtr) (hash : Bytes) (b : BlockId) : SynchronizingFolders :=
  (t.getSyncInfo folder).modify folder fun guards => guards.startFetching hash b

/-- The count of the guard of a hash in the folder of an id. -/
def guardCount (t : SynchronizingFolders) (key : String × Bytes) : Nat :=
  ((t.getSyncInfoOf key.1).map fun s => s.blocks.count key.2).getD 0

/-- A folder has a guard of the block under the hash. -/
def Has (t : SynchronizingFolders) (folder : FolderPtr) (hash : Bytes) (b : BlockId) : Prop :=
  ∃ s ∈ t.records, s.folder = folder ∧ s.blocks.Has hash b

/-- Each id has one folder object. -/
def Named (objectOf : String → Nat) (t : SynchronizingFolders) : Prop :=
  ∀ s ∈ t.records, s.folder.object = objectOf s.folder.id

section Named

variable {objectOf : String → Nat} {t : SynchronizingFolders} {s : FolderSynchronization} {folder : FolderPtr}
  {folderId : String} {hash : Bytes} {b : BlockId} {key : String × Bytes}

theorem mem_modify {f : BlockGuards → BlockGuards} : s ∈ (t.modify folder f).records ↔
    ∃ s' ∈ t.records, s = if s'.folder = folder then { s' with blocks := f s'.blocks } else s' := by
  show s ∈ List.map _ _ ↔ _
  rw [List.mem_map]
  exact exists_congr fun s' => and_congr_right fun _ => eq_comm

theorem mem_getSyncInfo : s ∈ (t.getSyncInfo folder).records ↔
    s ∈ t.records ∨ s = ⟨folder, []⟩ ∧ ∀ s' ∈ t.records, s'.folder ≠ folder := by
  unfold getSyncInfo
  split
  · rename_i hnew
    have hnone : ∀ s' ∈ t.records, s'.folder ≠ folder := fun s' hs' heq =>
      hnew (List.mem_map.mpr ⟨s', hs', heq⟩)
    simp only [List.mem_append, List.mem_singleton]
    exact or_congr_right (iff_self_and.mpr fun _ => hnone)
  · rename_i hold
    obtain ⟨s', hs', heq⟩ := List.mem_map.mp (Decidable.not_not.mp hold)
    exact ⟨.inl, fun h => h.resolve_right fun hno => hno.2 s' hs' heq⟩

/-- A folder has one record. -/
theorem eq_of_folder {s' : FolderSynchronization} (hs : s ∈ t.records) (hs' : s' ∈ t.records)
    (h : s.folder = s'.folder) : s = s' := List.inj_on_of_nodup_map t.nodup hs hs' h

/-- An id has one record. -/
theorem Named.eq_of_id (h : Named objectOf t) {s' : FolderSynchronization} (hs : s ∈ t.records)
    (hs' : s' ∈ t.records) (hid : s.folder.id = s'.folder.id) : s = s' := by
  refine eq_of_folder hs hs' ?_
  have hobject : s.folder.object = s'.folder.object := by rw [h s hs, h s' hs', hid]
  cases hf : s.folder
  cases hf' : s'.folder
  simp_all

/-- **The record of an id** is found, in whichever order the table is walked. -/
theorem Named.getSyncInfoOf_eq (h : Named objectOf t) :
    t.getSyncInfoOf folderId = some s ↔ s ∈ t.records ∧ s.folder.id = folderId := by
  unfold getSyncInfoOf
  have hmem : ∀ s', s' ∈ t.order.walk t.records ↔ s' ∈ t.records := fun s' => (t.order.perm t.records).mem_iff
  constructor
  · intro hfind
    exact ⟨(hmem s).mp (List.mem_of_find?_eq_some hfind), by simpa using List.find?_some hfind⟩
  · rintro ⟨hs, hid⟩
    cases hfind : (t.order.walk t.records).find? fun s => s.folder.id = folderId with
    | none => exact absurd hid (by simpa using List.find?_eq_none.mp hfind s ((hmem s).mpr hs))
    | some s' =>
      have hid' : s'.folder.id = folderId := by simpa using List.find?_some hfind
      rw [h.eq_of_id ((hmem s').mp (List.mem_of_find?_eq_some hfind)) hs (hid'.trans hid.symm)]

theorem Named.guardCount_eq (h : Named objectOf t) (hs : s ∈ t.records) (hid : s.folder.id = key.1) :
    t.guardCount key = s.blocks.count key.2 := by
  rw [guardCount, h.getSyncInfoOf_eq.mpr ⟨hs, hid⟩]
  rfl

theorem Named.guardCount_eq_zero (h : Named objectOf t) (hnone : ∀ s ∈ t.records, s.folder.id ≠ key.1) :
    t.guardCount key = 0 := by
  cases hfind : t.getSyncInfoOf key.1 with
  | none => rw [guardCount, hfind]; rfl
  | some s => exact absurd (h.getSyncInfoOf_eq.mp hfind).2 (hnone s (h.getSyncInfoOf_eq.mp hfind).1)

theorem Named.modify (h : Named objectOf t) (folder : FolderPtr) (f : BlockGuards → BlockGuards) :
    Named objectOf (t.modify folder f) := by
  intro s hs
  obtain ⟨s', hs', rfl⟩ := mem_modify.mp hs
  split <;> exact h s' hs'

theorem Named.getSyncInfo (h : Named objectOf t) (hfolder : folder.object = objectOf folder.id) :
    Named objectOf (t.getSyncInfo folder) := by
  intro s hs
  rcases mem_getSyncInfo.mp hs with hs | ⟨rfl, -⟩
  · exact h s hs
  · exact hfolder

/-- Other guards of a folder are those of its id. -/
theorem Named.guardCount_modify (h : Named objectOf t) (hs : s ∈ t.records) (f : BlockGuards → BlockGuards)
    (key : String × Bytes) : (t.modify s.folder f).guardCount key =
      if key.1 = s.folder.id then (f s.blocks).count key.2 else t.guardCount key := by
  have h' := h.modify s.folder f
  split
  · rename_i hid
    exact h'.guardCount_eq (mem_modify.mpr ⟨s, hs, (if_pos rfl).symm⟩) hid.symm
  · rename_i hid
    by_cases hother : ∃ s' ∈ t.records, s'.folder.id = key.1
    · obtain ⟨s', hs', hid'⟩ := hother
      have hne : s'.folder ≠ s.folder := fun heq => hid (by rw [← hid', heq])
      rw [h'.guardCount_eq (mem_modify.mpr ⟨s', hs', (if_neg hne).symm⟩) hid', h.guardCount_eq hs' hid']
    · push Not at hother
      rw [h.guardCount_eq_zero hother, h'.guardCount_eq_zero]
      intro s' hs'
      obtain ⟨s'', hs'', rfl⟩ := mem_modify.mp hs'
      split <;> exact hother s'' hs''

theorem Named.guardCount_getSyncInfo (h : Named objectOf t) (hfolder : folder.object = objectOf folder.id)
    (key : String × Bytes) : (t.getSyncInfo folder).guardCount key = t.guardCount key := by
  have h' := h.getSyncInfo hfolder
  by_cases hold : ∃ s ∈ t.records, s.folder.id = key.1
  · obtain ⟨s, hs, hid⟩ := hold
    rw [h'.guardCount_eq (mem_getSyncInfo.mpr (.inl hs)) hid, h.guardCount_eq hs hid]
  · push Not at hold
    rw [h.guardCount_eq_zero hold]
    by_cases hnew : ∃ s ∈ (t.getSyncInfo folder).records, s.folder.id = key.1
    · -- the new record has no guards
      obtain ⟨s, hs, hid⟩ := hnew
      rw [h'.guardCount_eq hs hid]
      rcases mem_getSyncInfo.mp hs with hs | ⟨rfl, -⟩
      · exact absurd hid (hold s hs)
      · rfl
    · push Not at hnew
      exact h'.guardCount_eq_zero hnew

theorem Named.acquire (h : Named objectOf t) (hfolder : folder.object = objectOf folder.id) (hash : Bytes)
    (b : BlockId) : Named objectOf (t.acquire folder hash b) := (h.getSyncInfo hfolder).modify _ _

/-- **`acquire_block`**: the guard of the key counts one more. -/
theorem Named.guardCount_acquire (h : Named objectOf t) (hfolder : folder.object = objectOf folder.id) (hash : Bytes)
    (b : BlockId) (key : String × Bytes) : (t.acquire folder hash b).guardCount key =
      t.guardCount key + if key = (folder.id, hash) then 1 else 0 := by
  have h' := h.getSyncInfo hfolder
  obtain ⟨s, hs, rfl⟩ : ∃ s ∈ (t.getSyncInfo folder).records, s.folder = folder := by
    by_cases hold : ∃ s ∈ t.records, s.folder = folder
    · obtain ⟨s, hs, heq⟩ := hold
      exact ⟨s, mem_getSyncInfo.mpr (.inl hs), heq⟩
    · push Not at hold
      exact ⟨_, mem_getSyncInfo.mpr (.inr ⟨rfl, hold⟩), rfl⟩
  rw [SynchronizingFolders.acquire, h'.guardCount_modify hs, BlockGuards.count_startFetching]
  split
  · rename_i hid
    rw [← h.guardCount_getSyncInfo hfolder, h'.guardCount_eq hs hid.symm]
    simp [Prod.ext_iff, hid]
  · rename_i hid
    rw [h.guardCount_getSyncInfo hfolder, if_neg fun heq => hid (congrArg Prod.fst heq), add_zero]

theorem Has.of_acquire {folder' : FolderPtr} {hash' : Bytes} {b' : BlockId}
    (h : (t.acquire folder hash b).Has folder' hash' b') : t.Has folder' hash' b' ∨ hash' = hash ∧ b' = b := by
  obtain ⟨s, hs, rfl, hhas⟩ := h
  obtain ⟨s', hs', rfl⟩ := mem_modify.mp hs
  have hold : s'.blocks.Has hash' b' → t.Has s'.folder hash' b' := by
    intro hb
    rcases mem_getSyncInfo.mp hs' with hs' | ⟨rfl, -⟩
    · exact ⟨s', hs', rfl, hb⟩
    · obtain ⟨p, hp, -⟩ := hb
      cases hp
  split at hhas
  · rename_i heq
    rw [if_pos heq]
    exact hhas.of_startFetching.imp hold id
  · rename_i hne
    rw [if_neg hne]
    exact .inl (hold hhas)

/-- What a release leaves of the guards. -/
structure Released (objectOf : String → Nat) (t : SynchronizingFolders) (folderId : String) (hash : Bytes)
    (b : BlockId) (t' : SynchronizingFolders) : Prop where
  named : Named objectOf t'
  count : ∀ key, t'.guardCount key + (if key = (folderId, hash) then 1 else 0) = t.guardCount key
  block : ∃ folder, t.Has folder hash b
  old : ∀ folder hash b, t'.Has folder hash b → t.Has folder hash b

/-- **`release_block`**: the record of the id has the guard, which counts one less. -/
theorem Named.release_spec (h : Named objectOf t) (hpos : 0 < t.guardCount (folderId, hash)) :
    ∃ s b guards, t.getSyncInfoOf folderId = some s ∧ s.blocks.finishFetching hash = some (b, guards) ∧
      Released objectOf t folderId hash b (t.modify s.folder fun _ => guards) := by
  cases hfind : t.getSyncInfoOf folderId with
  | none =>
    rw [guardCount, hfind] at hpos
    exact absurd hpos (Nat.lt_irrefl 0)
  | some s =>
    obtain ⟨hs, hid⟩ := h.getSyncInfoOf_eq.mp hfind
    rw [h.guardCount_eq hs hid] at hpos
    obtain ⟨b, guards, hfinish, hhas, hcount, hold⟩ := BlockGuards.finishFetching_spec hpos
    refine ⟨s, b, guards, rfl, hfinish, h.modify _ _, fun key => ?_, ⟨s.folder, s, hs, rfl, hhas⟩, ?_⟩
    · rw [h.guardCount_modify hs]
      split
      · rename_i hkey
        rw [h.guardCount_eq hs hkey.symm, ← hcount key.2]
        simp [Prod.ext_iff, hkey, hid]
      · rename_i hkey
        rw [if_neg fun heq => hkey ((congrArg Prod.fst heq).trans hid.symm), add_zero]
    · rintro folder' hash' b' ⟨s', hs', rfl, hb⟩
      obtain ⟨s'', hs'', rfl⟩ := mem_modify.mp hs'
      split at hb
      · rename_i heq
        rw [if_pos heq]
        exact ⟨s, hs, heq.symm, hold hash' b' hb⟩
      · rename_i hne
        rw [if_neg hne]
        exact ⟨s'', hs'', rfl, hb⟩

/-- A guard that counts has a block. -/
theorem Named.has_of_guardCount (h : Named objectOf t) (hpos : 0 < t.guardCount key) :
    ∃ s ∈ t.records, s.folder.id = key.1 ∧ ∃ b, s.blocks.Has key.2 b := by
  obtain ⟨s, b, guards, hfind, hfinish, -⟩ := h.release_spec hpos
  obtain ⟨hs, hid⟩ := h.getSyncInfoOf_eq.mp hfind
  obtain ⟨p, hp, heq⟩ := Option.map_eq_some_iff.mp hfinish
  exact ⟨s, hs, hid, p.2.block, p, List.mem_of_find?_eq_some hp, by simpa using List.find?_some hp, rfl⟩

end Named

end SynchronizingFolders

end SyncSpirit
