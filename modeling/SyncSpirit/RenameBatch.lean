import SyncSpirit.FileTransfer
import SyncSpirit.HandleRename
import SyncSpirit.LocalBatch

/-!
# A batch of renames in the model

The diffs that `handle_rename` asks for are built against the model before the batch and applied one after
another.

- `Stamp`: the metadata that an advance carries along;
- `stage_of_prefix`: a batch whose diffs fit each other, applied up to any place;
- `Made`: a diff of a rename, with what it is made of;
- `Calm`: when the diffs of a batch of renames fit each other;
- `mirrored_of_run`: then every file of the model has its content and its metadata where it has been moved to,
  what it has left is deleted, no block is lost on the way, and nothing else has changed.
-/

namespace SyncSpirit

open Store Advance AdvanceRun
open Availability (Sound)

/-! ## Metadata -/

/-- The metadata of a file, without what an advance sets anew. -/
structure Stamp where
  permissions : UInt32
  modifiedS : Int
  modifiedNs : UInt32
  invalid : Bool
  noPermissions : Bool
  deriving DecidableEq, Repr

def FileInfo.stamp (f : FileInfo) : Stamp := ⟨f.permissions, f.modifiedS, f.modifiedNs, f.invalid, f.noPermissions⟩

def Proto.FileInfo.stamp (f : Proto.FileInfo) : Stamp :=
  ⟨f.permissions, f.modifiedS, f.modifiedNs.toUInt32, f.invalid, f.noPermissions⟩

namespace Store

theorem steady_stamp : Steady FileInfo.stamp where
  slots file l := by
    unfold FileInfo.setSlots
    split <;> rfl
  flags _ _ _ _ _ := rfl

theorem stamp_fieldsUpdate {folderUuid uuid : Uuid} {f : Proto.FileInfo} {file : FileInfo}
    (h : FileInfo.fieldsUpdate folderUuid uuid f.fields = some file) : file.stamp = f.stamp := by
  unfold FileInfo.fieldsUpdate at h
  split at h
  · cases h
  · cases h
    rfl

theorem Updated.stamp {s t : Store} {f : FileId} {other : FileInfo} (h : Updated s f other t) :
    (t.files f).stamp = other.stamp := by
  obtain ⟨c, a, hfile⟩ := h.file
  rw [hfile]
  rfl

/-- The object that is advanced has the metadata of the new one. -/
theorem stamp_target {fi : FolderInfoId} {s t : Store} {g : FileId} (hs : Sound Set.univ s) (h : s.InfoWF fi)
    {uuid : Uuid} {f : Proto.FileInfo} {file : FileInfo} (hb : Blank uuid f file)
    (ht : Advance.target fi s file = some (g, t)) : (t.files g).stamp = file.stamp := by
  unfold Advance.target at ht
  split at ht
  · rename_i prev hprev
    obtain ⟨hmem, hname⟩ := (byName_eq_some h).mp hprev
    have hne : prev ≠ s.nextFile := Nat.ne_of_lt (h.allocated prev hmem)
    obtain ⟨u, hu, heq⟩ := Option.map_eq_some_iff.mp ht
    obtain ⟨rfl, rfl⟩ := Prod.mk.inj heq
    have hsound : Sound Set.univ ((s.create file).remove fi prev) :=
      (hs.create hb.coherent hb.slots).remove fi prev
    have hmatches := hu
    unfold Store.update at hmatches
    dsimp only at hmatches
    split at hmatches
    · rename_i hassert
      obtain ⟨u', hu', hup⟩ := update_spec hsound.linked (hsound.coherent prev) hb.coherent hassert.1 hassert.2
        (.inr fun v hv => by
          rw [hb.slots] at hv
          exact List.eq_of_mem_replicate hv)
      rw [hu] at hu'
      cases hu'
      rw [(SameBut.destroy u s.nextFile).files prev hne]
      exact hup.stamp
    · cases hmatches
  · cases ht
    rw [show (s.create file).files s.nextFile = file from Function.update_self ..]

/-- **An `advance_t`** carries the metadata of its file. -/
theorem stamp_applyImpl {fi : FolderInfoId} {s t : Store} (hs : Sound Set.univ s) (h : s.InfoWF fi)
    {d : Advance.Diff} {added : List Bytes} (hname : d.protoLocal.name ≠ "")
    (hversion : d.protoLocal.version.counters ≠ [])
    (hadded : UpdateFolder.strictHashes d.added = some added) (hremoved : d.removed.Nodup)
    (ht : d.applyImpl fi s = some t) :
    (t.files ((s.byName fi d.protoLocal.name).getD s.nextFile)).stamp = d.protoLocal.stamp := by
  obtain ⟨u, hu, ht⟩ := Option.bind_eq_some_iff.mp ht
  obtain ⟨w, hw, ht⟩ := Option.bind_eq_some_iff.mp ht
  have hmaps := SameMaps.blocks hu hw
  obtain ⟨u', hu', hheap, -⟩ := addBlocks_has hs hadded
  rw [hu] at hu'
  cases hu'
  obtain ⟨hheap', -⟩ := (eraseBlocks_iff hremoved (s := u)).2 w hw
  have hsound := (hheap.trans hheap').sound hs
  have hwf := hmaps.infoWF h
  obtain ⟨file, hfile, hb⟩ := @blank_of_fieldsUpdate (w.infos fi).uuid d.uuid d.protoLocal hname hversion
  obtain ⟨file', hfile', ht⟩ := Option.bind_eq_some_iff.mp ht
  rw [hfile] at hfile'
  cases hfile'
  obtain ⟨⟨g, v⟩, htarget, ht⟩ := Option.bind_eq_some_iff.mp ht
  obtain ⟨x, hx, ht⟩ := Option.bind_eq_some_iff.mp ht
  cases ht
  obtain ⟨hg, -⟩ := (target_iff hsound hwf hb).2 g v htarget
  rw [hmaps.byName, hmaps.nextFile] at hg
  rw [← hg, steady_stamp.finish, steady_stamp.assignBlocks hx, stamp_target hsound hwf hb htarget, stamp_fieldsUpdate hfile]

/-- The metadata under a name. -/
def stampOf (s : Store) (fi : FolderInfoId) (name : String) : Option Stamp :=
  (s.byName fi name).map fun g => (s.files g).stamp

end Store

/-! ## A batch whose diffs fit each other -/

namespace LocalBatch

section Prefixes

variable {host : Host} {c : Cluster} {batch pre post : List (Scanned host c)} {ch : Scanned host c}

theorem applyAll_append (c : Cluster) (ds ds' : List Advance.Diff) :
    applyAll host c (ds ++ ds') = (applyAll host c ds).bind fun t => applyAll host t ds' :=
  List.foldlM_append

theorem Ready.split (h : Ready [] batch) (heq : batch = pre ++ post) : Ready pre post := by
  subst heq
  exact ⟨fun l hl => h.built l (List.mem_append_right _ hl), fun l hl => h.unused l (List.mem_append_right _ hl),
    h.distinct⟩

/-- What a new file is made of: its uuid is not in use. -/
theorem Stage.placed {done : List (Scanned host c)} {r : FolderInfoId → String → Option Record} {s t : Store}
    (h : Stage done r s) (hready : Ready done (ch :: post)) (ht : ch.diff.applyImpl ch.fi s = some t) :
    ∃ g, Placed ch.fi s ch.diff.uuid ch.found.name t g := by
  have hmem : ch ∈ ch :: post := List.mem_cons_self ..
  have hb := hready.built ch hmem
  rw [← hb.name]
  refine applyImpl_spec (h.infoWF ch.fi) (fun hnone g hg heq => ?_) ht
  have hunknown : c.byName ch.fi ch.found.name = none := by
    cases hby : c.byName ch.fi ch.found.name with
    | none => rfl
    | some f =>
      have hsome := h.known ch.fi ch.found.name (by rw [hby]; rfl)
      rw [← hb.name, hnone] at hsome
      cases hsome
  rw [hb.uuid hunknown] at heq
  rcases h.uuids ch.fi g hg with ⟨g', hg', huuid⟩ | ⟨e, he, huuid⟩
  · exact hready.unused ch hmem ch.fi g' hg' (huuid.trans heq)
  · exact (List.pairwise_append.mp hready.distinct).2.2 e he ch hmem (huuid.symm.trans heq)

/-- The metadata after one change. -/
theorem Stage.stamp {done : List (Scanned host c)} {r : FolderInfoId → String → Option Record} {s t : Store}
    (h : Stage done r s) (hready : Ready done (ch :: post)) (ht : ch.diff.applyImpl ch.fi s = some t) :
    stampOf t ch.fi ch.found.name = some ch.diff.protoLocal.stamp ∧
      ∀ name, name ≠ ch.found.name → stampOf t ch.fi name = stampOf s ch.fi name := by
  have hb := hready.built ch (List.mem_cons_self ..)
  obtain ⟨g, hp⟩ := h.placed hready ht
  have hwf := h.infoWF ch.fi
  have hwf' := hp.infoWF hwf
  constructor
  · have hstamp := stamp_applyImpl h.sound hwf hb.named hb.version hb.added (hb.removed ▸ ch.nodup_drops) ht
    rw [hb.name, ← hp.eq_getD hwf] at hstamp
    rw [stampOf, (byName_eq_some hwf').mpr ⟨(hp.mem_infos g).mpr (.inr rfl), hp.name⟩, Option.map_some, hstamp]
  · intro name hne
    -- the other files are not touched
    have hkept : ∀ g', g' ∈ (s.infos ch.fi).files → g' ≠ g → t.files g' = s.files g' := fun g' hg' hne' =>
      hp.files g' hne' (Nat.ne_of_lt (hwf.allocated g' hg'))
    unfold stampOf
    cases hby : s.byName ch.fi name with
    | some g' =>
      obtain ⟨hg', rfl⟩ := (byName_eq_some hwf).mp hby
      have hne' : g' ≠ g := by
        rintro rfl
        rcases hp.origin with ⟨-, hname, -⟩ | ⟨rfl, -⟩
        · exact hne hname
        · exact Nat.lt_irrefl _ (hwf.allocated _ hg')
      rw [(byName_eq_some hwf').mpr ⟨(hp.mem_infos g').mpr (.inl ⟨hg', hne'⟩), by rw [hkept g' hg' hne']⟩]
      rw [Option.map_some, Option.map_some, hkept g' hg' hne']
    | none =>
      have hnone : t.byName ch.fi name = none := by
        refine byName_eq_none.mpr fun g' hg' heq => ?_
        rcases (hp.mem_infos g').mp hg' with ⟨hg', hne'⟩ | rfl
        · rw [hkept g' hg' hne'] at heq
          exact byName_eq_none.mp hby g' hg' heq
        · exact hne (heq.symm.trans hp.name)
      rw [hnone]
      rfl

/-- The metadata under a name that no change is about. -/
theorem stampOf_applyAll {fi : FolderInfoId} {rest : List (Scanned host c)} :
    ∀ {done : List (Scanned host c)} {r : FolderInfoId → String → Option Record} {s : Store} {t : Cluster},
      Ready done rest → Stage done r s → (∀ l ∈ rest, l.fi = fi) →
      applyAll host { c with toStore := s } (rest.map Scanned.diff) = some t →
      ∀ name, (∀ l ∈ rest, name ≠ l.found.name) → stampOf t.toStore fi name = stampOf s fi name := by
  induction rest with
  | nil =>
    rintro done r s t - - - ⟨⟩ name -
    rfl
  | cons ch rest ih =>
    intro done r s t hready hstage hfi ht name hother
    obtain ⟨u, hu, ht⟩ := (applyAll_cons hready hstage).mp ht
    obtain ⟨hstage', -⟩ := hready.step hstage hu
    rw [ih hready.tail hstage' (fun l hl => hfi l (List.mem_cons_of_mem _ hl)) ht name
      fun l hl => hother l (List.mem_cons_of_mem _ hl)]
    have hch : ch.fi = fi := hfi ch (List.mem_cons_self ..)
    have hkept := (hstage.stamp hready hu).2 name (hother ch (List.mem_cons_self ..))
    rwa [hch] at hkept

/-- No change takes away what a later one needs, and each is made for the file that its name has then. -/
structure Fits (batch : List (Scanned host c)) : Prop where
  spares : Spares batch
  matched : ∀ pre ch post, batch = pre ++ ch :: post →
    Matches (pre.foldl enter c.recordOf ch.fi ch.found.name) ch.diff.uuid ch.diff.protoLocal

/-- **Up to any place**, a batch whose diffs fit each other is applied. -/
theorem stage_of_prefix (hc : Orderly c) (hready : Ready [] batch) (hfits : Fits batch) (heq : batch = pre ++ post) :
    ∃ s, applyAll host c (pre.map Scanned.diff) = some { c with toStore := s } ∧
      Stage pre (pre.foldl enter c.recordOf) s := by
  induction pre using List.reverseRecOn generalizing post with
  | nil => exact ⟨c.toStore, rfl, Stage.initial hc⟩
  | append_singleton pre ch ih =>
    rw [List.append_assoc, List.singleton_append] at heq
    obtain ⟨s, hs, hstage⟩ := ih heq
    have hready' := hready.split heq
    have hmem : ch ∈ ch :: post := List.mem_cons_self ..
    have hspares : ∀ e ∈ pre, ∀ x ∈ e.drops, x ∉ ch.wants ∧ x ∉ ch.drops := by
      have hpairs := hfits.spares
      rw [heq] at hpairs
      exact fun e he => (List.pairwise_append.mp hpairs).2.2 e he ch hmem
    obtain ⟨u, hu⟩ := (hstage.step_iff hc (hready'.built ch hmem)).mpr ⟨hspares, hfits.matched pre ch post heq⟩
    obtain ⟨hstage', -⟩ := hready'.step hstage hu
    refine ⟨u, ?_, ?_⟩
    · rw [List.map_append, applyAll_append, hs, Option.bind_some]
      have happly := (hready'.built ch hmem).apply hstage.device
      unfold applyAll
      rw [List.map_singleton, List.foldlM_cons, happly, hu]
      rfl
    · rw [List.foldl_append]
      exact hstage'

/-- **The last change of a name** decides what is there in the end. -/
theorem entry_of_last (hc : Orderly c) (hready : Ready [] batch) (hfits : Fits batch)
    (heq : batch = pre ++ ch :: post) (hfi : ∀ l ∈ batch, l.fi = ch.fi)
    (hlast : ∀ l ∈ post, ch.found.name ≠ l.found.name) {t : Cluster}
    (ht : applyAll host c (batch.map Scanned.diff) = some t) :
    entryOf t.toStore ch.fi ch.found.name = some ⟨nextOf (pre.foldl enter c.recordOf) ch, ch.found.deleted,
        ch.wants.map fun x => some (x, true)⟩ ∧
      stampOf t.toStore ch.fi ch.found.name = some ch.diff.protoLocal.stamp := by
  obtain ⟨s, hs, hstage⟩ := stage_of_prefix hc hready hfits heq
  have hready' := hready.split heq
  rw [heq, List.map_append, applyAll_append, hs, Option.bind_some] at ht
  obtain ⟨u, hu, ht⟩ := (applyAll_cons hready' hstage).mp ht
  obtain ⟨hstage', hstepped⟩ := hready'.step hstage hu
  constructor
  · rw [entryOf_applyAll hready'.tail hstage' ht _ _ fun l hl hsame => hlast l hl hsame.2]
    exact hstepped.entry
  · rw [stampOf_applyAll hready'.tail hstage' (fun l hl => hfi l ?_) ht _ hlast]
    · exact (hstage.stamp hready' hu).1
    · rw [heq]
      exact List.mem_append_right _ (List.mem_cons_of_mem _ hl)

end Prefixes

end LocalBatch

/-! ## What the diffs of a batch are made of -/

namespace HandleRename

open LocalBatch

section Batch

variable (host : Host) (c : Cluster) (fi : FolderInfoId) (folderId : String)

/-- The hashes of the blocks of a file. -/
def blocksOf (f : FileId) : List Bytes := ((c.files f).slots.filterMap id).map fun p => (c.blocks p.1).hash

/-- What a created file needs; nothing is needed for a deletion. -/
def Order.wants (o : Order) : List Bytes := if o.deletes then [] else blocksOf c o.file

/-- What is taken away: the blocks that only the file refers to which is replaced. -/
def Order.drops (o : Order) : List Bytes :=
  (orphansOf c.toStore (find c fi o.name) o.deletes).filter (· ∉ o.wants c)

/-- The files of the folder have all their blocks and a size, and no name is empty. -/
structure Stored : Prop where
  named : ∀ f ∈ (c.infos fi).files, (c.files f).name ≠ ""
  loaded : ∀ f ∈ (c.infos fi).files, ∀ v ∈ (c.files f).slots, v ≠ none
  digests : ∀ f ∈ (c.infos fi).files, ∀ x ∈ blocksOf c f, x.length = digestLength
  sized : ∀ f ∈ (c.infos fi).files, (c.files f).deleted = false → (c.files f).slots ≠ [] →
    c.getSize (c.files f) ≠ some 0

/-- The file that a diff is made of. -/
structure Order.Found (o : Order) (p : Proto.FileInfo) : Prop where
  name : p.name = String.ofList o.name
  type : asFlags p.type = (c.files o.file).type
  deleted : p.deleted = o.deletes
  stamp : p.stamp = (c.files o.file).stamp
  target : p.symlinkTarget = linkTarget (c.files o.file)
  needed : UpdateFolder.strictHashes (neededBlocks p) = some (o.wants c)
  vacant : o.deletes = true → p.blocks = []
  plain : Plain p

variable {host c fi folderId}

/-- The fields of a record that do not depend on the blocks. -/
theorem asProto_fields {s : Store} {file : FileInfo} {includeBlocks : Bool} {p : Proto.FileInfo}
    (h : s.asProto file includeBlocks = some p) : asFlags p.type = file.type ∧ p.deleted = file.deleted ∧
      p.stamp = file.stamp ∧ p.symlinkTarget = linkTarget file ∧ (includeBlocks = false → p.blocks = []) := by
  unfold asProto at h
  unfold linkTarget
  cases hcontent : file.content with
  | nonFile target =>
    rw [hcontent] at h
    cases h
    exact ⟨asFlags_asType _, rfl, by simp [Proto.FileInfo.stamp, FileInfo.stamp], rfl, fun _ => rfl⟩
  | file blocks =>
    rw [hcontent] at h
    obtain ⟨size, -, h⟩ := Option.bind_eq_some_iff.mp h
    obtain ⟨blockSize, -, h⟩ := Option.bind_eq_some_iff.mp h
    cases includeBlocks with
    | true =>
      obtain ⟨bs, -, h⟩ := Option.bind_eq_some_iff.mp h
      cases h
      exact ⟨asFlags_asType _, rfl, by simp [Proto.FileInfo.stamp, FileInfo.stamp], rfl, fun hne => by cases hne⟩
    | false =>
      cases h
      exact ⟨asFlags_asType _, rfl, by simp [Proto.FileInfo.stamp, FileInfo.stamp], rfl, fun _ => rfl⟩

/-- The blocks that a record names are those of the file. -/
theorem asProto_needed {s : Store} {file : FileInfo} {p : Proto.FileInfo} (h : s.asProto file true = some p)
    (hsized : file.slots ≠ [] → s.getSize file ≠ some 0) :
    (neededBlocks p).map Proto.BlockInfo.hash = (file.slots.filterMap id).map fun q => (s.blocks q.1).hash := by
  unfold asProto at h
  cases hcontent : file.content with
  | nonFile target =>
    rw [hcontent] at h
    cases h
    simp [neededBlocks, FileInfo.slots, hcontent]
  | file blocks =>
    rw [hcontent] at h
    obtain ⟨size, hsize, h⟩ := Option.bind_eq_some_iff.mp h
    obtain ⟨blockSize, -, h⟩ := Option.bind_eq_some_iff.mp h
    obtain ⟨bs, hbs, h⟩ := Option.bind_eq_some_iff.mp h
    cases h
    unfold neededBlocks
    dsimp only
    by_cases hnil : file.slots = []
    · have hzero : size = 0 := by
        have htargets : file.targets = [] := by simp [FileInfo.targets, hnil]
        simpa [getSize, htargets] using hsize.symm
      simp [hzero, hnil]
    · have hne : size ≠ 0 := fun hzero => hsized hnil (by rw [hsize, hzero])
      have htargets : file.targets ≠ [] := by simpa [FileInfo.targets] using hnil
      rw [if_pos hne, if_neg fun hcon => htargets hcon.1]
      exact (blocksProto_hashes hbs).2.2

theorem found_isSome (hs : Stored c fi) {o : Order} (hfile : o.file ∈ (c.infos fi).files) :
    ∃ p, o.found c = some p := by
  have hasProto : ∃ p, c.asProto (c.files o.file) (!o.deletes) = some p := by
    obtain ⟨p, hp⟩ := asProto_isSome_iff.mpr (hs.loaded o.file hfile)
    cases hdeletes : o.deletes with
    | false => exact ⟨p, hp⟩
    | true =>
      unfold asProto at hp ⊢
      cases hcontent : (c.files o.file).content with
      | nonFile target => exact ⟨_, rfl⟩
      | file blocks =>
        rw [hcontent] at hp
        obtain ⟨size, hsize, hp⟩ := Option.bind_eq_some_iff.mp hp
        obtain ⟨blockSize, hblockSize, -⟩ := Option.bind_eq_some_iff.mp hp
        simp only [hsize, hblockSize, Option.bind_eq_bind, Option.bind_some]
        exact ⟨_, rfl⟩
  obtain ⟨p, hp⟩ := hasProto
  exact ⟨_, Option.map_eq_some_iff.mpr ⟨p, hp, rfl⟩⟩

theorem found_spec (hc : Orderly c) (hs : Stored c fi) {o : Order} (hfile : o.file ∈ (c.infos fi).files)
    (hlive : (c.files o.file).deleted = false) {p : Proto.FileInfo} (h : o.found c = some p) : o.Found c p := by
  obtain ⟨q, hq, rfl⟩ := Option.map_eq_some_iff.mp h
  obtain ⟨htype, hdeleted, hstamp, htarget, hblocks⟩ := asProto_fields hq
  have hneeded : (neededBlocks q).map Proto.BlockInfo.hash = o.wants c := by
    unfold Order.wants
    cases hdeletes : o.deletes with
    | true =>
      rw [hdeletes] at hblocks
      simp [neededBlocks, hblocks rfl]
    | false =>
      rw [hdeletes] at hq
      exact asProto_needed hq (hs.sized o.file hfile hlive)
  constructor
  · rfl
  · exact htype
  · rw [hdeleted, hlive, Bool.or_false]
  · exact hstamp
  · exact htarget
  · show UpdateFolder.strictHashes (neededBlocks q) = _
    rw [← hneeded]
    refine strictHashes_of_full fun b hb => ?_
    have hx : b.hash ∈ (neededBlocks q).map fun b => b.hash := List.mem_map_of_mem hb
    rw [hneeded] at hx
    unfold Order.wants at hx
    split at hx
    · cases hx
    · exact hs.digests o.file hfile b.hash hx
  · intro hdeletes
    exact hblocks (by rw [hdeletes]; rfl)
  · -- a directory or a link has no slots
    intro hne
    have hnot : (c.files o.file).isFile = false := by
      have hne : asFlags q.type ≠ .file := hne
      rw [htype] at hne
      simpa [FileInfo.isFile] using hne
    have hslots : (c.files o.file).slots = [] := by
      cases hcontent : (c.files o.file).content with
      | nonFile target => simp [FileInfo.slots, hcontent]
      | file blocks =>
        have hfile := (hc.wf.coherent o.file).mpr ⟨blocks, hcontent⟩
        rw [hnot] at hfile
        cases hfile
    have hnil : (neededBlocks q).map Proto.BlockInfo.hash = [] := by
      rw [hneeded, Order.wants, blocksOf, hslots]
      split <;> rfl
    exact List.map_eq_nil_iff.mp hnil

end Batch

section Orders

variable (host : Host) (c : Cluster) (fi : FolderInfoId) (folderId : String)

/-- `get_original`: what another device has of it already. -/
def Order.original (o : Order) : Option (Option FileId) := do
  let found ← o.found c
  let folder ← c.folderById folderId
  getOriginal host c.toStore folder.infos found

/-- An order of which a diff has been made; no other device has such a file. -/
structure Made where
  order : Order
  file : order.file ∈ (c.infos fi).files
  live : (c.files order.file).deleted = false
  news : order.original host c folderId = some none
  found : Proto.FileInfo
  isFound : order.found c = some found
  isLocal : localInfo host c folderId = some fi
  diff : Advance.Diff
  built : localUpdate host order.env c found folderId order.deletes = some diff

variable {host c fi folderId}

namespace Made

def scan (m : Made host c fi folderId) : Scanned host c where
  env := m.order.env
  found := m.found
  folderId := folderId
  disableBlocksRemoval := m.order.deletes
  fi := fi
  diff := m.diff
  isLocal := m.isLocal
  built := m.built

/-- The diff that is made when no other device has the file. -/
structure Fresh (m : Made host c fi folderId) : Prop where
  known : ∀ g, find c fi m.order.name = some g → m.diff.uuid = (c.files g).uuid
  unknown : find c fi m.order.name = none →
    m.diff.protoLocal.version = (Version.ofDevice host.short m.order.env.now).toProto
  type : asFlags m.diff.protoLocal.type = (c.files m.order.file).type
  stamp : m.diff.protoLocal.stamp = (c.files m.order.file).stamp
  target : m.diff.protoLocal.symlinkTarget = linkTarget (c.files m.order.file)

variable (m : Made host c fi folderId)

theorem found_spec (hc : Orderly c) (hs : Stored c fi) : m.order.Found c m.found :=
  HandleRename.found_spec hc hs m.file m.live m.isFound

theorem fresh (hc : Orderly c) (hs : Stored c fi) : m.Fresh := by
  have hfound := m.found_spec hc hs
  have hbuilt := m.built
  have hlocal := m.isLocal
  have hnews := m.news
  unfold localUpdate at hbuilt
  unfold Order.original at hnews
  rw [m.isFound, Option.bind_eq_bind, Option.bind_some] at hnews
  split at hbuilt
  · cases hbuilt
  · obtain ⟨folder, hfolder, hbuilt⟩ := Option.bind_eq_some_iff.mp hbuilt
    obtain ⟨fi', hfi, hbuilt⟩ := Option.bind_eq_some_iff.mp hbuilt
    rw [hfolder, Option.bind_eq_bind, Option.bind_some] at hnews
    rw [hnews, Option.bind_eq_bind, Option.bind_some] at hbuilt
    have hfi' : fi' = fi := by
      unfold localInfo at hlocal
      rw [hfolder, Option.bind_eq_bind, Option.bind_some, hfi] at hlocal
      exact Option.some.inj hlocal
    subst hfi'
    obtain ⟨d, hd, hbuilt⟩ := Option.bind_eq_some_iff.mp hbuilt
    obtain ⟨hashes, -, rfl⟩ := initializeAdvance_eq_some hd
    have hfind : find c fi' m.order.name = c.byName fi' m.found.name := by rw [find, hfound.name]
    cases hby : c.byName fi' m.found.name with
    | some g =>
      rw [hby] at hbuilt hfind
      have hdiff := (Option.some.inj hbuilt).symm
      refine ⟨fun g' hg' => ?_, fun hnone => ?_, ?_, ?_, ?_⟩
      · rw [hfind] at hg'
        cases hg'
        rw [hdiff]
      · rw [hfind] at hnone
        cases hnone
      · rw [hdiff]
        exact hfound.type
      · rw [hdiff]
        exact hfound.stamp
      · rw [hdiff]
        exact hfound.target
    | none =>
      rw [hby] at hbuilt hfind
      have hdiff := (Option.some.inj hbuilt).symm
      refine ⟨fun g' hg' => ?_, fun _ => ?_, ?_, ?_, ?_⟩
      · rw [hfind] at hg'
        cases hg'
      · rw [hdiff]
      · rw [hdiff]
        exact hfound.type
      · rw [hdiff]
        exact hfound.stamp
      · rw [hdiff]
        exact hfound.target

theorem wants_scan (hc : Orderly c) (hs : Stored c fi) : m.scan.wants = m.order.wants c := by
  show (UpdateFolder.strictHashes (neededBlocks m.found)).getD [] = _
  rw [(m.found_spec hc hs).needed, Option.getD_some]

theorem drops_scan (hc : Orderly c) (hs : Stored c fi) : m.scan.drops = m.order.drops c fi := by
  unfold Scanned.drops Order.drops
  rw [m.wants_scan hc hs, find, ← (m.found_spec hc hs).name]
  rfl

theorem name_scan (hc : Orderly c) (hs : Stored c fi) : m.scan.found.name = String.ofList m.order.name :=
  (m.found_spec hc hs).name

end Made

/-- A diff of a local change is made if the hashes of the blocks have the right length. -/
theorem initializeAdvance_isSome {s : Store} {fi : FolderInfoId} {disable : Bool} {nextUuid unset : Uuid}
    {folderId : String} {peerId : Sha256} {source : Proto.FileInfo} {hashes : List Bytes}
    (hvalid : ¬ (source.blocks ≠ [] ∧ source.deleted = true))
    (hneeded : UpdateFolder.strictHashes (neededBlocks source) = some hashes) (name : String) :
    ∃ d, initializeAdvance s fi .localUpdate disable nextUuid unset folderId peerId source name = some d := by
  unfold initializeAdvance
  dsimp only
  rw [if_neg hvalid, hneeded, Option.bind_eq_bind, Option.bind_some, if_neg fun hcon => hcon.2 rfl]
  exact ⟨_, rfl⟩

/-- A diff is made of an order. -/
theorem exists_made (hc : Orderly c) (hs : Stored c fi) (hlocal : localInfo host c folderId = some fi) {o : Order}
    (hfile : o.file ∈ (c.infos fi).files) (hlive : (c.files o.file).deleted = false) (hnamed : o.name ≠ [])
    (hnews : o.original host c folderId = some none) :
    ∃ m : Made host c fi folderId, m.order = o ∧ o.diff c host folderId = some m.diff := by
  obtain ⟨p, hp⟩ := found_isSome hs hfile
  have hfound := found_spec hc hs hfile hlive hp
  have hbuilt : ∃ d, localUpdate host o.env c p folderId o.deletes = some d := by
    obtain ⟨folder, hfolder, hfi⟩ := Option.bind_eq_some_iff.mp hlocal
    have hname : p.name ≠ "" := by
      rw [hfound.name]
      exact fun heq => hnamed (by simpa using heq)
    have horiginal : getOriginal host c.toStore folder.infos p = some none := by
      unfold Order.original at hnews
      rwa [hp, Option.bind_eq_bind, Option.bind_some, hfolder, Option.bind_eq_bind, Option.bind_some] at hnews
    have hmade := @initializeAdvance_isSome c.toStore fi o.deletes (o.env.nextUuid 0) o.env.unset folderId host.self
      { p with modifiedBy := host.short } (o.wants c) (fun hcon => hcon.1 (hfound.vacant (hfound.deleted ▸ hcon.2)))
      hfound.needed p.name
    obtain ⟨d, hd⟩ := hmade
    unfold localUpdate
    rw [if_neg hname, hfolder, Option.bind_eq_bind, Option.bind_some, hfi, Option.bind_eq_bind, Option.bind_some,
      horiginal, Option.bind_eq_bind, Option.bind_some]
    dsimp only
    rw [hd, Option.bind_eq_bind, Option.bind_some]
    split
    · exact ⟨_, rfl⟩
    · exact ⟨_, rfl⟩
  obtain ⟨d, hd⟩ := hbuilt
  refine ⟨⟨o, hfile, hlive, hnews, p, hp, hlocal, d, hd⟩, rfl, ?_⟩
  rw [Order.diff, hp, Option.bind_some, hd]

/-- All orders of a batch. -/
theorem exists_mades {orders : List Order}
    (h : ∀ o ∈ orders, ∃ m : Made host c fi folderId, m.order = o ∧ o.diff c host folderId = some m.diff) :
    ∃ ms : List (Made host c fi folderId), ms.map Made.order = orders ∧
      orders.mapM (Order.diff c host folderId) = some (ms.map Made.diff) := by
  induction orders with
  | nil => exact ⟨[], rfl, rfl⟩
  | cons o orders ih =>
    rw [List.forall_mem_cons] at h
    obtain ⟨⟨m, rfl, hm⟩, h⟩ := h
    obtain ⟨ms, rfl, hms⟩ := ih h
    refine ⟨m :: ms, rfl, ?_⟩
    rw [List.mapM_cons, hm, hms]
    rfl

end Orders

/-! ## The model after a batch -/

section Mirror

variable (host : Host) (c : Cluster) (fi : FolderInfoId) (folderId : String)

/-- **The diffs of a batch fit each other.** No other device has the files already. What is taken away with a file
that is replaced nobody needs, and it is taken away once. A name that the model does not know is written at one time
only, a link takes the place of links only, and the uuids are new. -/
structure Calm (moves : List Order) : Prop where
  news : ∀ o ∈ moves, o.original host c folderId = some none
  spared : ∀ o ∈ moves, ∀ x ∈ o.drops c fi, ∀ o' ∈ moves, x ∉ o'.wants c
  once : moves.Pairwise fun o o' => ∀ x ∈ o.drops c fi, x ∉ o'.drops c fi
  steady : ∀ o ∈ moves, find c fi o.name = none → ∀ o' ∈ moves, o'.name = o.name → o'.env.now = o.env.now
  links : ∀ o ∈ moves, o.deletes = false → (c.files o.file).type = .link →
    (∀ g ∈ find c fi o.name, (c.files g).type = .link) ∧
      ∀ o' ∈ moves, o'.name = o.name → (c.files o'.file).type = .link
  distinct : moves.Pairwise fun o o' => o.env.nextUuid 0 ≠ o'.env.nextUuid 0
  unused : ∀ o ∈ moves, ∀ fi, ∀ g ∈ (c.infos fi).files, (c.files g).uuid ≠ o.env.nextUuid 0

/-- A file of the cluster is under a name, with its content and its metadata. -/
def Carries (f : FileId) (s : Store) (name : String) : Prop :=
  stampOf s fi name = some (c.files f).stamp ∧ ∃ e ∈ entryOf s fi name,
    e.record.type = (c.files f).type ∧ e.deleted = false ∧
      e.hashes.map (Option.map Prod.fst) = (blocksOf c f).map some ∧
      ((c.files f).type = .link → e.record.linkTarget = linkTarget (c.files f))

/-- **The model is what is on disk.** -/
structure Mirrors (d : Disk) (s : Store) : Prop where
  present : ∀ f p, d.places f = some p → Carries c fi f s (String.ofList p)
  absent : ∀ name, (∀ f, d.places f ≠ some name) → ∀ e ∈ entryOf s fi (String.ofList name), e.deleted = true
  elsewhere : ∀ fi', fi' ≠ fi → ∀ name, entryOf s fi' name = entryOf c.toStore fi' name

/-- All blocks of the files on disk are there. -/
def Kept (d : Disk) (s : Store) : Prop := ∀ f p, d.places f = some p → ∀ x ∈ blocksOf c f, s.HasBlock x

variable {host c fi folderId} {ms : List (Made host c fi folderId)}

/-- What every change of a name keeps is true of what is under the name after them. -/
theorem foldl_enter {P : Option Record → Prop} {name : String} {batch : List (Scanned host c)}
    (hstep : ∀ ch ∈ batch, ch.fi = fi → ch.found.name = name → ∀ r, P r →
      P (some (nextRecord r ch.diff.uuid ch.diff.protoLocal))) :
    ∀ {r : FolderInfoId → String → Option Record}, P (r fi name) → P (batch.foldl enter r fi name) := by
  induction batch with
  | nil => exact fun h => h
  | cons ch batch ih =>
    intro r hr
    rw [List.forall_mem_cons] at hstep
    refine ih hstep.2 ?_
    unfold enter
    split
    · rename_i heq
      obtain ⟨rfl, rfl⟩ := heq
      exact hstep.1 rfl rfl _ hr
    · exact hr

/-- The orders of one name have the same name in the model. -/
theorem name_eq_of_scan (hc : Orderly c) (hs : Stored c fi) {m m' : Made host c fi folderId}
    (h : m'.scan.found.name = m.scan.found.name) : m'.order.name = m.order.name := by
  rw [m.name_scan hc hs, m'.name_scan hc hs] at h
  exact String.ofList_inj.mp h

/-- **Each diff is made for the file that its name has then.** -/
theorem matches_of_calm (hc : Orderly c) (hs : Stored c fi) (hcalm : Calm host c fi folderId (ms.map Made.order))
    {m : Made host c fi folderId} (hm : m ∈ ms) {pre : List (Made host c fi folderId)} (hpre : pre ⊆ ms) :
    Matches ((pre.map Made.scan).foldl enter c.recordOf fi m.scan.found.name) m.diff.uuid m.diff.protoLocal := by
  have hfind : find c fi m.order.name = c.byName fi m.scan.found.name := by rw [find, m.name_scan hc hs]
  cases hby : find c fi m.order.name with
  | some g =>
    -- a known file keeps its uuid
    have huuids := @foldl_enter host c fi (fun r => ∀ rec ∈ r, rec.uuid = (c.files g).uuid) m.scan.found.name
      (pre.map Made.scan) (fun ch hch _ hname r hr rec hrec => by
        obtain ⟨m', hm', rfl⟩ := List.mem_map.mp hch
        cases hrec
        cases r with
        | some rec => exact hr rec rfl
        | none => exact (m'.fresh hc hs).known g (by rw [name_eq_of_scan hc hs hname, hby]))
      (r := c.recordOf) (fun rec hrec => by
        rw [Store.recordOf, ← hfind, hby] at hrec
        cases hrec
        rfl)
    exact fun rec hrec => .inl ((huuids rec hrec).trans ((m.fresh hc hs).known g hby).symm)
  | none =>
    have hversions := @foldl_enter host c fi
      (fun r => ∀ rec ∈ r, rec.version = Version.ofProto (Version.ofDevice host.short m.order.env.now).toProto)
      m.scan.found.name (pre.map Made.scan) (fun ch hch _ hname r hr rec hrec => by
        obtain ⟨m', hm', rfl⟩ := List.mem_map.mp hch
        have hsame := name_eq_of_scan hc hs hname
        have hnow := hcalm.steady _ (List.mem_map_of_mem hm) hby _ (List.mem_map_of_mem (hpre hm')) hsame
        cases hrec
        show Version.ofProto m'.diff.protoLocal.version = _
        rw [(m'.fresh hc hs).unknown (by rw [hsame, hby]), hnow])
      (r := c.recordOf) (fun rec hrec => by
        rw [Store.recordOf, ← hfind, hby] at hrec
        cases hrec)
    refine fun rec hrec => .inr ?_
    rw [hversions rec hrec, (m.fresh hc hs).unknown hby]
    simp [Version.identicalTo]

/-- A link that is created has its target. -/
theorem linkTarget_of_calm (hc : Orderly c) (hs : Stored c fi) (hcalm : Calm host c fi folderId (ms.map Made.order))
    {m : Made host c fi folderId} (hm : m ∈ ms) (hcreates : m.order.deletes = false)
    (hlink : (c.files m.order.file).type = .link) {pre : List (Made host c fi folderId)} (hpre : pre ⊆ ms) :
    (nextOf ((pre.map Made.scan).foldl enter c.recordOf) m.scan).linkTarget = linkTarget (c.files m.order.file) := by
  obtain ⟨hknown, hothers⟩ := hcalm.links _ (List.mem_map_of_mem hm) hcreates hlink
  have hfind : find c fi m.order.name = c.byName fi m.scan.found.name := by rw [find, m.name_scan hc hs]
  have hfresh := m.fresh hc hs
  have htypes := @foldl_enter host c fi (fun r => ∀ rec ∈ r, rec.type = .link) m.scan.found.name
    (pre.map Made.scan) (fun ch hch _ hname r _ rec hrec => by
      obtain ⟨m', hm', rfl⟩ := List.mem_map.mp hch
      cases hrec
      show asFlags m'.diff.protoLocal.type = .link
      rw [(m'.fresh hc hs).type]
      exact hothers _ (List.mem_map_of_mem (hpre hm')) (name_eq_of_scan hc hs hname))
    (r := c.recordOf) (fun rec hrec => by
      obtain ⟨g, hg, rfl⟩ := Option.map_eq_some_iff.mp hrec
      exact hknown g (hfind.trans hg))
  show nextTarget ((pre.map Made.scan).foldl enter c.recordOf fi m.scan.found.name)
    (asFlags m.diff.protoLocal.type) m.diff.protoLocal.symlinkTarget = _
  rw [hfresh.type, hfresh.target, hlink]
  unfold nextTarget
  rw [if_neg (by decide)]
  cases hr : (pre.map Made.scan).foldl enter c.recordOf fi m.scan.found.name with
  | none => rfl
  | some rec =>
    have htype := htypes rec (by rw [hr]; rfl)
    simp [htype]

theorem fits_of_calm (hc : Orderly c) (hs : Stored c fi) (hcalm : Calm host c fi folderId (ms.map Made.order)) :
    Fits (ms.map Made.scan) where
  spares := by
    refine List.pairwise_map.mpr ((List.pairwise_map.mp hcalm.once).imp_of_mem fun {m m'} hm hm' honce x hx => ?_)
    rw [m.drops_scan hc hs] at hx
    rw [m'.wants_scan hc hs, m'.drops_scan hc hs]
    exact ⟨hcalm.spared _ (List.mem_map_of_mem hm) x hx _ (List.mem_map_of_mem hm'), honce x hx⟩
  matched pre ch post heq := by
    obtain ⟨mpre, mpost, rfl, rfl, hpost⟩ := List.map_eq_append_iff.mp heq
    obtain ⟨m, mpost, rfl, rfl, -⟩ := List.map_eq_cons_iff.mp hpost
    exact matches_of_calm hc hs hcalm (List.mem_append_right _ (List.mem_cons_self ..))
      fun m hm => List.mem_append_left _ hm

theorem ready_of_calm (hc : Orderly c) (hs : Stored c fi) (hcalm : Calm host c fi folderId (ms.map Made.order)) :
    Ready [] (ms.map Made.scan) where
  built ch hch := by
    obtain ⟨m, -, rfl⟩ := List.mem_map.mp hch
    exact Scanned.build_spec hc (m.found_spec hc hs).plain
  unused ch hch := by
    obtain ⟨m, hm, rfl⟩ := List.mem_map.mp hch
    exact hcalm.unused _ (List.mem_map_of_mem hm)
  distinct := by
    have hdistinct := List.pairwise_map.mp hcalm.distinct
    exact List.pairwise_map.mpr hdistinct

/-- What a created file needs has been there before the batch. -/
theorem hasBlock_of_mem (hc : Orderly c) {f : FileId} {x : Bytes} (hx : x ∈ blocksOf c f) : c.HasBlock x := by
  obtain ⟨q, hq, rfl⟩ := List.mem_map.mp hx
  obtain ⟨v, hv, hvq⟩ := List.mem_filterMap.mp hq
  obtain ⟨i, hi⟩ := List.mem_iff_getElem?.mp hv
  have hknown := hc.blocksWF.known f i q.1 q.2 (by
    show (c.files f).slots[i]?.join = some (q.1, q.2)
    rw [hi, show v = some q from hvq]
    rfl)
  unfold HasBlock
  rw [hknown]
  rfl

/-- A block that is taken away is only in the file that is replaced. -/
theorem find_of_drops (hc : Orderly c) {o : Order} {x : Bytes} (hx : x ∈ o.drops c fi) {f : FileId}
    (hf : x ∈ blocksOf c f) : find c fi o.name = some f := by
  have horphan := (List.mem_filter.mp hx).1
  unfold orphansOf at horphan
  split at horphan
  · cases horphan
  · rename_i g hg
    rw [hg]
    split at horphan
    · cases horphan
    · obtain ⟨-, g', hg', p, hslot, hhash, howners⟩ := (UpdateFolder.deduce_spec _ _ _).2 x horphan
      rw [List.mem_singleton.mp hg'] at hslot
      obtain ⟨q, hq, hqx⟩ := List.mem_map.mp hf
      obtain ⟨v, hv, hvq⟩ := List.mem_filterMap.mp hq
      -- both files refer to the one block of that hash, which knows its owners
      have hslotOf : ∀ {k : FileId} {p : Slot}, some p ∈ (c.files k).slots →
          ∃ i, c.graph.slot k i = some (p.1, p.2) := by
        intro k p hp
        obtain ⟨i, hi⟩ := List.mem_iff_getElem?.mp hp
        refine ⟨i, ?_⟩
        show (c.files k).slots[i]?.join = _
        rw [hi]
        rfl
      obtain ⟨i, hi⟩ := hslotOf hslot
      obtain ⟨j, hj⟩ := hslotOf (show some q ∈ (c.files f).slots from (show v = some q from hvq) ▸ hv)
      have hblock : q.1 = p.1 := by
        have hp := hc.blocksWF.known _ _ _ _ hi
        have hq := hc.blocksWF.known _ _ _ _ hj
        rw [hhash] at hp
        rw [hqx, hp] at hq
        exact (Option.some.inj hq).symm
      obtain ⟨e, he, howner, -⟩ := hc.wf.linked.entry_of_slot _ _ _ _ hj
      rw [hblock] at he
      have hsame : e.owner = g := List.mem_singleton.mp (howners e he)
      rw [← howner, hsame]

/-- Where the blocks of a file come from that is on disk: it is where it was, or has been created there. -/
theorem World.Good.origin {w : World} (h : w.Good c fi) {f : FileId} {p : Name} (hp : w.disk.places f = some p) :
    (nameOf c f = p ∧ ∀ o ∈ w.disk.moves, o.name ≠ p) ∨ ∃ pre o post, w.disk.moves = pre ++ o :: post ∧
      o.file = f ∧ o.name = p ∧ o.deletes = false ∧ ∀ o' ∈ post, o'.name ≠ p := by
  have htracks := h.tracks p
  unfold Disk.Tracks at htracks
  cases hlast : Keyed.last Order.name w.disk.moves p with
  | none =>
    rw [hlast] at htracks
    exact .inl ⟨(places_initial ((htracks f).mp hp)).2, Keyed.last_eq_none.mp hlast⟩
  | some o =>
    rw [hlast] at htracks
    dsimp only at htracks
    split at htracks
    · exact absurd hp (htracks f)
    · rename_i hcreates
      obtain ⟨pre, post, heq, hpost⟩ := Keyed.exists_split_of_last hlast
      exact .inr ⟨pre, o, post, heq, h.apart _ _ _ htracks hp, (Keyed.mem_of_last hlast).2, by simpa using hcreates,
        hpost⟩

/-- **No block is lost** that a file on disk has. -/
theorem not_mem_drops (hc : Orderly c) {w : World} (h : w.Good c fi)
    (hcalm : Calm host c fi folderId w.disk.moves) {f : FileId} {p : Name} (hp : w.disk.places f = some p) {x : Bytes}
    (hx : x ∈ blocksOf c f) {o : Order} (ho : o ∈ w.disk.moves) : x ∉ o.drops c fi := by
  intro hdrops
  rcases h.origin hp with ⟨hname, hnone⟩ | ⟨pre, o', post, heq, rfl, -, hcreates, -⟩
  · -- it has not been touched, so it is not replaced either
    have hfind := find_of_drops hc hdrops hx
    have hsame := ((byName_eq_some (hc.wf.infos fi)).mp hfind).2
    refine hnone o ho ?_
    rw [← hname, nameOf, hsame, String.toList_ofList]
  · have ho' : o' ∈ w.disk.moves := heq ▸ List.mem_append_right _ (List.mem_cons_self ..)
    refine hcalm.spared o ho x hdrops o' ho' ?_
    rw [Order.wants, hcreates]
    exact hx

theorem hashesOf_fst {f : FileId} (h : ∀ v ∈ (c.files f).slots, v ≠ none) :
    (c.hashesOf (c.files f)).map (Option.map Prod.fst) = (blocksOf c f).map some := by
  unfold Store.hashesOf blocksOf
  rw [List.map_map, List.map_map]
  generalize (c.files f).slots = slots at h
  induction slots with
  | nil => rfl
  | cons v slots ih =>
    rw [List.forall_mem_cons] at h
    obtain ⟨p, rfl⟩ := Option.ne_none_iff_exists'.mp h.1
    rw [List.map_cons, ih h.2]
    rfl

/-- What an untouched file is in the model. -/
theorem carries_self (hc : Orderly c) (hs : Stored c fi) {f : FileId} (hf : f ∈ (c.infos fi).files)
    (hlive : (c.files f).deleted = false) : Carries c fi f c.toStore (c.files f).name := by
  have hby : c.byName fi (c.files f).name = some f := (byName_eq_some (hc.wf.infos fi)).mpr ⟨hf, rfl⟩
  refine ⟨?_, ⟨record (c.files f), (c.files f).deleted, c.hashesOf (c.files f)⟩, ?_, rfl, hlive,
    hashesOf_fst (hs.loaded f hf), fun _ => rfl⟩
  · rw [stampOf, hby, Option.map_some]
  · rw [entryOf, hby]
    rfl

theorem fi_of_mem_scans {l : Scanned host c} (hl : l ∈ ms.map Made.scan) : l.fi = fi := by
  obtain ⟨m, -, rfl⟩ := List.mem_map.mp hl
  rfl

/-- What the last order of a name leaves behind. -/
theorem entry_of_last_order (hc : Orderly c) (hs : Stored c fi) (hcalm : Calm host c fi folderId (ms.map Made.order))
    {t : Cluster} (ht : applyAll host c ((ms.map Made.scan).map Scanned.diff) = some t) {pre post : List Order}
    {o : Order} (heq : ms.map Made.order = pre ++ o :: post) (hpost : ∀ o' ∈ post, o'.name ≠ o.name) :
    ∃ m ∈ ms, ∃ mpre, mpre ⊆ ms ∧ m.order = o ∧
      entryOf t.toStore fi (String.ofList o.name) = some ⟨nextOf ((mpre.map Made.scan).foldl enter c.recordOf) m.scan,
        o.deletes, (o.wants c).map fun x => some (x, true)⟩ ∧
      stampOf t.toStore fi (String.ofList o.name) = some (c.files o.file).stamp := by
  have hready := ready_of_calm hc hs hcalm
  have hfits := fits_of_calm hc hs hcalm
  obtain ⟨mpre, mrest, rfl, rfl, hrest⟩ := List.map_eq_append_iff.mp heq
  obtain ⟨m, mpost, rfl, rfl, rfl⟩ := List.map_eq_cons_iff.mp hrest
  have hmem : m ∈ mpre ++ m :: mpost := List.mem_append_right _ (List.mem_cons_self ..)
  have hbatch : (mpre ++ m :: mpost).map Made.scan = mpre.map Made.scan ++ m.scan :: mpost.map Made.scan := by
    rw [List.map_append, List.map_cons]
  obtain ⟨he, hstamp⟩ := entry_of_last hc hready hfits hbatch (fun l hl => fi_of_mem_scans hl) (fun l hl heq' => by
    obtain ⟨m', hm', rfl⟩ := List.mem_map.mp hl
    exact hpost _ (List.mem_map_of_mem hm') (name_eq_of_scan hc hs heq'.symm)) ht
  rw [m.name_scan hc hs] at he hstamp
  refine ⟨m, hmem, mpre, fun x hx => List.mem_append_left _ hx, rfl, ?_, ?_⟩
  · refine he.trans ?_
    rw [m.wants_scan hc hs, show m.scan.found.deleted = m.order.deletes from (m.found_spec hc hs).deleted]
  · exact hstamp.trans (congrArg some (m.fresh hc hs).stamp)

/-- **After the batch** every path has what is there on disk. -/
theorem mirrors_of_calm (hc : Orderly c) (hs : Stored c fi) {w : World} (h : w.Good c fi)
    (hcalm : Calm host c fi folderId w.disk.moves) (hms : ms.map Made.order = w.disk.moves) {t : Cluster}
    (ht : applyAll host c ((ms.map Made.scan).map Scanned.diff) = some t) : Mirrors c fi w.disk t.toStore := by
  rw [← hms] at hcalm
  have hready := ready_of_calm hc hs hcalm
  have hinitial := @Stage.initial host c hc
  -- a path that no order is about
  have huntouched : ∀ name, (∀ o ∈ w.disk.moves, o.name ≠ name) →
      ∀ l ∈ ms.map Made.scan, String.ofList name ≠ l.found.name := by
    intro name hnone l hl heq
    obtain ⟨m, hm, rfl⟩ := List.mem_map.mp hl
    rw [m.name_scan hc hs] at heq
    exact hnone m.order (hms ▸ List.mem_map_of_mem hm) (String.ofList_inj.mp heq).symm
  have hentry : ∀ fi' name, (∀ l ∈ ms.map Made.scan, ¬ (fi' = l.fi ∧ name = l.found.name)) →
      entryOf t.toStore fi' name = entryOf c.toStore fi' name := entryOf_applyAll hready hinitial ht
  constructor
  · intro f p hp
    obtain ⟨hf, hlive⟩ := h.listed f p hp
    rcases h.origin hp with ⟨hname, hnone⟩ | ⟨pre, o, post, heq, rfl, rfl, hcreates, hpost⟩
    · have hstring : String.ofList p = (c.files f).name := by rw [← hname, nameOf, String.ofList_toList]
      have hother := huntouched p hnone
      obtain ⟨hstamp, e, he, hcontent⟩ := carries_self hc hs hf hlive
      rw [← hstring] at hstamp he
      refine ⟨?_, e, ?_, hcontent⟩
      · rw [stampOf_applyAll hready hinitial (fun l hl => fi_of_mem_scans hl) ht _ hother]
        exact hstamp
      · rw [hentry _ _ fun l hl hsame => hother l hl hsame.2]
        exact he
    · obtain ⟨m, hm, mpre, hmpre, rfl, he, hstamp⟩ :=
        entry_of_last_order hc hs hcalm ht (hms.trans heq) hpost
      refine ⟨hstamp, _, he, (m.fresh hc hs).type, hcreates, ?_, fun hlink =>
        linkTarget_of_calm hc hs hcalm hm hcreates hlink hmpre⟩
      rw [List.map_map, Order.wants, hcreates]
      rfl
  · intro name hnone e he
    have htracks := h.tracks name
    unfold Disk.Tracks at htracks
    cases hkey : Keyed.last Order.name w.disk.moves name with
    | none =>
      rw [hkey] at htracks
      have hother := huntouched name (Keyed.last_eq_none.mp hkey)
      rw [hentry _ _ fun l hl hsame => hother l hl hsame.2] at he
      obtain ⟨g, hg, rfl⟩ := Option.map_eq_some_iff.mp he
      obtain ⟨hmem, hname⟩ := (byName_eq_some (hc.wf.infos fi)).mp hg
      by_contra hlive
      have hlive : (c.files g).deleted = false := by simpa using hlive
      refine hnone g ((htracks g).mpr ?_)
      unfold Disk.initial nameOf
      dsimp only
      rw [if_pos ⟨hmem, hlive⟩, hname, String.toList_ofList]
    | some o =>
      rw [hkey] at htracks
      dsimp only at htracks
      split at htracks
      · rename_i hdeletes
        obtain ⟨pre, post, heq, hpost⟩ := Keyed.exists_split_of_last hkey
        obtain ⟨-, rfl⟩ := Keyed.mem_of_last hkey
        obtain ⟨m, -, mpre, -, -, he', -⟩ := entry_of_last_order hc hs hcalm ht (hms.trans heq) hpost
        rw [he'] at he
        cases he
        exact hdeletes
      · exact absurd htracks (hnone o.file)
  · intro fi' hne name
    exact hentry fi' name fun l hl hsame => hne (hsame.1.trans (fi_of_mem_scans hl))

/-- **A batch of renames** that agree with the disk one after the other, and whose diffs fit each other: diffs are made
of all of them, and after the last one the model is what is on disk. No block of a file is lost on the way. -/
theorem mirrored_of_run (hc : Orderly c) (hs : Stored c fi) (hlocal : localInfo host c folderId = some fi)
    {changes : List Rename} (hrun : Run.Meets (World.step c fi) (Follows c fi) (World.initial c fi) changes)
    {w : World} (hw : Run.exec (World.step c fi) (World.initial c fi) changes = some w)
    (hcalm : Calm host c fi folderId w.disk.moves) :
    ∃ ds, w.ctx.orders.mapM (Order.diff c host folderId) = some ds ∧
      (∃ t, applyAll host c ds = some t ∧ Mirrors c fi w.disk t.toStore) ∧
      ∀ n, ∃ s, applyAll host c (ds.take n) = some { c with toStore := s } ∧ Kept c w.disk s := by
  have hwf := hc.wf.infos fi
  have hgood : w.Good c fi := by
    obtain ⟨w', hw', hgood⟩ := Run.exec_total (fun _ _ h hfollows => h.step hwf hs.named hfollows)
      (World.good_initial hwf) hrun
    rw [hw] at hw'
    cases hw'
    exact hgood
  obtain ⟨ms, hms, hds⟩ := @exists_mades host c fi folderId w.disk.moves fun o ho =>
    exists_made hc hs hlocal (hgood.moved o ho).1.1 (hgood.moved o ho).1.2 (hgood.moved o ho).2 (hcalm.news o ho)
  have hdiffs : ms.map Made.diff = (ms.map Made.scan).map Scanned.diff := by
    rw [List.map_map]
    rfl
  have hcalm' := hcalm
  rw [← hms] at hcalm'
  have hready := ready_of_calm hc hs hcalm'
  have hfits := fits_of_calm hc hs hcalm'
  refine ⟨ms.map Made.diff, by rw [hgood.orders]; exact hds, ?_, fun n => ?_⟩
  · obtain ⟨s, ht, -⟩ := stage_of_prefix hc hready hfits (List.append_nil (ms.map Made.scan)).symm
    rw [hdiffs]
    exact ⟨_, ht, mirrors_of_calm hc hs hgood hcalm hms ht⟩
  · obtain ⟨s, ht, hstage⟩ := stage_of_prefix hc hready hfits (List.take_append_drop n _).symm
    refine ⟨s, ?_, fun f p hp x hx => ?_⟩
    · rw [hdiffs, ← List.map_take]
      exact ht
    · refine (hstage.blocks x (hasBlock_of_mem hc hx)).mpr fun l hl => ?_
      obtain ⟨m, hm, rfl⟩ := List.mem_map.mp (List.mem_of_mem_take hl)
      rw [m.drops_scan hc hs]
      exact not_mem_drops hc hgood hcalm hp hx (hms ▸ List.mem_map_of_mem hm)

end Mirror

theorem wf_treeCluster : treeCluster.WF where
  linked := by
    refine ⟨fun b e he => ?_, fun f i b l hslot => ?_, fun b => ?_⟩
    · cases b with
      | zero =>
        rw [List.mem_singleton.mp he]
        exact ⟨true, rfl⟩
      | succ b => exact absurd he List.not_mem_nil
    · rcases f with _ | _ | f
      · cases hslot
      · cases i with
        | zero =>
          cases hslot
          exact ⟨_, List.mem_singleton_self _, rfl, rfl⟩
        | succ i => cases hslot
      · cases hslot
    · cases b with
      | zero => exact List.nodup_singleton _
      | succ b => exact List.nodup_nil
  coherent f := by
    rcases f with _ | _ | f
    · refine ⟨fun h => (by cases h), ?_⟩
      rintro ⟨blocks, ⟨⟩⟩
    · exact ⟨fun _ => ⟨_, rfl⟩, fun _ => rfl⟩
    · exact ⟨fun _ => ⟨_, rfl⟩, fun _ => rfl⟩
  fresh f hf := by
    rcases f with _ | _ | f
    · exact absurd hf (by decide)
    · exact absurd hf (by decide)
    · rfl
  infos := infoWF_treeCluster
  disjoint fi fi' f hf hf' := by
    cases fi with
    | zero =>
      cases fi' with
      | zero => rfl
      | succ fi' => exact absurd hf' List.not_mem_nil
    | succ fi => exact absurd hf List.not_mem_nil

theorem orderly_treeCluster : Orderly treeCluster where
  wf := wf_treeCluster
  blocksWF := by
    refine ⟨fun f i b l hslot => ?_, by decide⟩
    rcases f with _ | _ | f
    · cases hslot
    · cases i with
      | zero =>
        cases hslot
        decide +kernel
      | succ i => cases hslot
    · cases hslot
  versions fi f hf := by
    cases fi with
    | zero =>
      revert f
      decide +kernel
    | succ fi => exact absurd hf List.not_mem_nil

theorem stored_treeCluster : Stored treeCluster 0 :=
  ⟨by decide +kernel, by decide +kernel, by decide +kernel, by decide +kernel⟩

/-- The world after the two renames. -/
def treeWorld : World :=
  (Run.exec (World.step treeCluster 0) (World.initial treeCluster 0) treeRenames).get (by decide +kernel)

theorem calm_treeWorld : Calm conflictHost treeCluster 0 "f" treeWorld.disk.moves where
  news := by decide +kernel
  spared := by decide +kernel
  once := by decide +kernel
  steady := by decide +kernel
  links := by decide +kernel
  distinct := by decide +kernel
  unused o ho fi g hg := by
    cases fi with
    | zero =>
      revert o g
      decide +kernel
    | succ fi => exact absurd hg List.not_mem_nil

theorem treeWorld_mirrored :
    ∃ ds, treeWorld.ctx.orders.mapM (Order.diff treeCluster conflictHost "f") = some ds ∧
      (∃ t, applyAll conflictHost treeCluster ds = some t ∧ Mirrors treeCluster 0 treeWorld.disk t.toStore) ∧
      ∀ n, ∃ s, applyAll conflictHost treeCluster (ds.take n) = some { treeCluster with toStore := s } ∧
        Kept treeCluster treeWorld.disk s :=
  mirrored_of_run orderly_treeCluster stored_treeCluster (by decide +kernel) (by decide +kernel)
    (Option.some_get _).symm calm_treeWorld

end HandleRename

end SyncSpirit
