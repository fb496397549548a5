import SyncSpirit.IndexValidation
import SyncSpirit.IndexBlocks
import Mathlib

/-!
# Index messages that come again

A peer may repeat what it has sent. `update_folder_t::create` takes a file whose sequence it
knows for a repetition if it is *identical* to the known file of its name, and the whole message
for corrupted otherwise.

`repeated_iff` says which messages can be repeated after they have been applied, as they are and
as the model encodes their files. `identical_to` compares the number of announced blocks with the
number of slots, which are the same for a file that has got its blocks, but not for an empty file
that comes with its empty block; and it has the same look at the content of a link, where the
length of the target stands in the place of the slots.
-/

namespace SyncSpirit

namespace UpdateFolder

open Store

/-! ## Identical files -/

/-- A slot that has the announced block. -/
def Shows (s : Store) (v : Option BlockId) (b : Proto.BlockInfo) : Prop :=
  ∃ k, v = some k ∧ (s.blocks k).hash = b.hash

theorem sameBlocks_eq_true_iff {s : Store} {vs : List (Option BlockId)} :
    ∀ {bs : List Proto.BlockInfo}, bs.length = vs.length →
      (sameBlocks s vs bs = some true ↔ List.Forall₂ (Shows s) vs bs) := by
  induction vs with
  | nil =>
    intro bs hlen
    rw [List.eq_nil_of_length_eq_zero hlen]
    exact ⟨fun _ => List.Forall₂.nil, fun _ => rfl⟩
  | cons v vs ih =>
    intro bs hlen
    cases bs with
    | nil => cases hlen
    | cons b bs =>
      rw [List.forall₂_cons, ← ih (Nat.succ.inj hlen), sameBlocks]
      cases v with
      | none =>
        refine ⟨fun h => (by cases h), ?_⟩
        rintro ⟨⟨k, hk, -⟩, -⟩
        cases hk
      | some k =>
        rw [Option.bind_eq_bind, Option.bind_some]
        by_cases hhash : (s.blocks k).hash = b.hash
        · rw [if_neg (not_not.mpr hhash), and_iff_right ⟨k, rfl, hhash⟩]
        · rw [if_pos hhash]
          refine ⟨fun h => (by cases h), ?_⟩
          rintro ⟨⟨k', hk, heq⟩, -⟩
          cases hk
          exact absurd heq hhash

/-- What a file shows of its content: the blocks of a regular file, and nothing of a file with an
empty link target. -/
def ShowsAll (s : Store) (file : FileInfo) (bs : List Proto.BlockInfo) : Prop :=
  match file.content with
  | .file _ => List.Forall₂ (Shows s) file.targets bs
  | .nonFile target => target = "" ∧ bs = []

/-- **`identical_to`**: the same version and the same content. -/
theorem identicalTo_eq_true_iff {s : Store} {file : FileInfo} {f : Proto.FileInfo} :
    identicalTo s file f = some true ↔ f.version.counters ≠ [] ∧
      file.version.identicalTo (Version.ofProto f.version) = true ∧ ShowsAll s file f.blocks := by
  unfold identicalTo ShowsAll
  by_cases hcount : f.version.counters = []
  · simp [hcount]
  · rw [if_neg hcount, and_iff_right hcount]
    by_cases hversion : file.version.identicalTo (Version.ofProto f.version) = true
    · rw [if_pos hversion, and_iff_right hversion]
      cases file.content with
      | file blocks =>
        dsimp only
        by_cases hlen : f.blocks.length = file.targets.length
        · rw [if_pos hlen, sameBlocks_eq_true_iff hlen]
        · rw [if_neg hlen]
          exact ⟨fun h => (by cases h), fun h => absurd h.length_eq.symm hlen⟩
      | nonFile target =>
        dsimp only
        by_cases hlen : f.blocks.length = target.utf8ByteSize
        · rw [if_pos hlen]
          by_cases hnil : f.blocks = []
          · have hempty : target = "" := by
              rw [hnil] at hlen
              exact String.utf8ByteSize_eq_zero_iff.mp hlen.symm
            simp [hnil, hempty]
          · simp [hnil]
        · rw [if_neg hlen]
          refine ⟨fun h => (by cases h), ?_⟩
          rintro ⟨rfl, hnil⟩
          rw [hnil] at hlen
          exact absurd rfl hlen
    · rw [if_neg hversion]
      exact ⟨fun h => (by cases h), fun h => absurd h.1 hversion⟩

/-- The content is in the slots and in their blocks. -/
theorem ShowsAll.congr {s t : Store} {file : FileInfo} {bs : List Proto.BlockInfo}
    (h : ShowsAll s file bs) (hhash : ∀ k, some k ∈ file.targets → (t.blocks k).hash = (s.blocks k).hash) :
    ShowsAll t file bs := by
  unfold ShowsAll at h ⊢
  cases hc : file.content with
  | nonFile target =>
    rw [hc] at h
    exact h
  | file blocks =>
    rw [hc] at h
    dsimp only at h ⊢
    generalize file.targets = vs at h hhash
    induction h with
    | nil => exact List.Forall₂.nil
    | cons hhead _ ih =>
      obtain ⟨k, rfl, heq⟩ := hhead
      refine List.Forall₂.cons ⟨k, rfl, ?_⟩ (ih fun k' hk' => hhash k' (List.mem_cons_of_mem _ hk'))
      rw [hhash k (List.mem_cons_self ..), heq]

/-! ## Repeated messages -/

/-- The message is accepted, and brings nothing. -/
def Repeats (c : Cluster) (nextUuid : Nat → Uuid) (source : Sha256) (message : Proto.IndexBase) :
    Prop :=
  ∃ d, create c nextUuid source message = .ok d ∧ d.files = []

/-- The file is taken for a repetition. -/
def Known (s : Store) (fi : FolderInfoId) (f : Proto.FileInfo) : Prop :=
  f.sequence ≤ (s.infos fi).maxSequence ∧
    ∃ g, s.byName fi f.name = some g ∧ identicalTo s (s.files g) f = some true

/-- A known sequence: neither an error nor an assertion means a repetition. -/
theorem known_iff {s : Store} {fi : FolderInfoId} {f : Proto.FileInfo} :
    Known s fi f ↔ f.sequence ≤ (s.infos fi).maxSequence ∧ ¬ Refused s fi f ∧ ¬ Hazardous s fi f := by
  unfold Known Refused Hazardous
  refine and_congr_right fun hseq => ?_
  rw [if_pos hseq, if_pos hseq]
  cases hprev : s.byName fi f.name with
  | none => simp
  | some g =>
    cases hid : identicalTo s (s.files g) f with
    | none => simp [hid]
    | some same => cases same <;> simp [hid]

/-- **A message is a repetition** if all its files are. -/
theorem repeats_iff {c : Cluster} {nextUuid : Nat → Uuid} {source : Sha256}
    {message : Proto.IndexBase} {folder : Folder} {fi : FolderInfoId}
    (hfolder : c.folderById message.folder = some folder)
    (hfi : c.byDeviceId folder source = some fi) :
    Repeats c nextUuid source message ↔ ∀ f ∈ latest message.files, Known c.toStore fi f := by
  constructor
  · rintro ⟨d, hcreate, hnil⟩ f hf
    have hseq : f.sequence ≤ (c.infos fi).maxSequence := by
      by_contra hnew
      have hmem : f ∈ d.files := by
        rw [files_of_create hfolder hfi hcreate]
        exact mem_announced.mpr ⟨hf, not_le.mp hnew⟩
      rw [hnil] at hmem
      cases hmem
    rw [create_eq hfolder hfi] at hcreate
    obtain ⟨acc, hacc, -⟩ := Fallible.bind_ok.mp hcreate
    exact known_iff.mpr ⟨hseq, fold_ok_iff.mp ⟨acc, hacc⟩ f hf⟩
  · intro h
    obtain ⟨acc, hacc⟩ := (@fold_ok_iff c.toStore fi (latest message.files) ⟨[], []⟩).mpr
      fun f hf => (known_iff.mp (h f hf)).2
    obtain ⟨d, hd, -⟩ := construct_ok (accepts_of_create hacc) nextUuid folder.id source
    have hcreate : create c nextUuid source message = .ok d := by
      rw [create_eq hfolder hfi, hacc]
      exact hd
    refine ⟨d, hcreate, List.eq_nil_iff_forall_not_mem.mpr fun f hf => ?_⟩
    rw [files_of_create hfolder hfi hcreate] at hf
    obtain ⟨hmem, hnew⟩ := mem_announced.mp hf
    exact absurd (h f hmem).1 (not_le.mpr hnew)

/-! ## Encoded files -/

/-- A file whose record is a repetition of it: a regular file has blocks or is deleted, any other
file has no link target. -/
def Encodable (file : FileInfo) : Prop :=
  file.version.counters ≠ [] ∧ match file.content with
    | .file _ => file.slots ≠ [] ∨ file.deleted = true
    | .nonFile target => target = ""

theorem shows_blocksProto {s : Store} {vs : List (Option BlockId)} :
    ∀ {offset : Int} {bs : List Proto.BlockInfo}, s.blocksProto offset vs = some bs →
      List.Forall₂ (Shows s) vs bs := by
  induction vs with
  | nil =>
    rintro offset bs ⟨⟩
    exact List.Forall₂.nil
  | cons v vs ih =>
    intro offset bs h
    obtain ⟨k, rfl, h⟩ := Option.bind_eq_some_iff.mp h
    obtain ⟨bs', hbs, h⟩ := Option.bind_eq_some_iff.mp h
    cases h
    exact List.Forall₂.cons ⟨k, rfl, rfl⟩ (ih hbs)

theorem asProto_sequence {s : Store} {file : FileInfo} {p : Proto.FileInfo}
    (h : s.asProto file true = some p) :
    p.sequence = file.sequence ∧ p.version = file.version.toProto := by
  unfold asProto at h
  cases hc : file.content with
  | nonFile target =>
    rw [hc] at h
    cases h
    exact ⟨rfl, rfl⟩
  | file blocks =>
    rw [hc] at h
    obtain ⟨size, -, h⟩ := Option.bind_eq_some_iff.mp h
    obtain ⟨blockSize, -, h⟩ := Option.bind_eq_some_iff.mp h
    obtain ⟨bs, -, h⟩ := Option.bind_eq_some_iff.mp h
    cases h
    exact ⟨rfl, rfl⟩

/-- The blocks of a record against the file it is made of. -/
theorem showsAll_asProto {s : Store} {file : FileInfo} {p : Proto.FileInfo}
    (h : s.asProto file true = some p) :
    ShowsAll s file p.blocks ↔ match file.content with
      | .file _ => file.slots ≠ [] ∨ file.deleted = true
      | .nonFile target => target = "" := by
  unfold ShowsAll
  unfold asProto at h
  cases hc : file.content with
  | nonFile target =>
    rw [hc] at h
    cases h
    exact and_iff_left rfl
  | file blocks =>
    rw [hc] at h
    obtain ⟨size, -, h⟩ := Option.bind_eq_some_iff.mp h
    obtain ⟨blockSize, -, h⟩ := Option.bind_eq_some_iff.mp h
    obtain ⟨bs, hbs, h⟩ := Option.bind_eq_some_iff.mp h
    cases h
    have hnil : file.targets = [] ↔ file.slots = [] := by simp [FileInfo.targets]
    dsimp only
    by_cases hempty : file.targets = [] ∧ file.deleted = false
    · -- the empty block has no slot
      rw [if_pos hempty, hempty.1]
      refine ⟨fun h => (by cases h), ?_⟩
      rintro (h | h)
      · exact absurd (hnil.mp hempty.1) h
      · rw [hempty.2] at h
        cases h
    · rw [if_neg hempty]
      refine ⟨fun _ => ?_, fun _ => shows_blocksProto hbs⟩
      by_contra hnot
      push Not at hnot
      exact hempty ⟨hnil.mpr hnot.1, by simpa using hnot.2⟩

/-- **The record of a file** is identical to it exactly if it is encodable. -/
theorem identicalTo_asProto {s : Store} {file : FileInfo} {p : Proto.FileInfo}
    (h : s.asProto file true = some p) : identicalTo s file p = some true ↔ Encodable file := by
  have hversion : file.version.identicalTo (Version.ofProto p.version) = true := by
    rw [(asProto_sequence h).2]
    simp [Version.identicalTo, Version.toProto_ofProto (Version.unmarked_toProto _)]
  have hcount : p.version.counters ≠ [] ↔ file.version.counters ≠ [] := by
    rw [(asProto_sequence h).2]
    simp [Version.toProto]
  rw [identicalTo_eq_true_iff, showsAll_asProto h, hcount, and_iff_right hversion, Encodable]

/-! ## Announced files -/

/-- The announced record is a repetition of the file that is made of it. -/
def Echoed (s : Store) (fi : FolderInfoId) (f : Proto.FileInfo) : Prop :=
  if asFlags f.type = .file then
    if Assigned f then ∀ b ∈ f.blocks, b.hash.length = digestLength else f.blocks = []
  else f.blocks = [] ∧ nextTarget (s.recordOf fi f.name) (asFlags f.type) f.symlinkTarget = ""

/-- So is the record the model makes of this file: a regular file is deleted and has no blocks,
or it has blocks with whole hashes and gets them; any other file has no blocks and is stored
without a link target. -/
def Repeatable (s : Store) (fi : FolderInfoId) (f : Proto.FileInfo) : Prop :=
  if asFlags f.type = .file then (f.deleted = true ∧ f.blocks = []) ∨
    (Assigned f ∧ f.blocks ≠ [] ∧ ∀ b ∈ f.blocks, b.hash.length = digestLength)
  else f.blocks = [] ∧ nextTarget (s.recordOf fi f.name) (asFlags f.type) f.symlinkTarget = ""

theorem makeStrictHash_self_iff {hash strict : Bytes} (h : makeStrictHash hash = some strict) :
    strict = hash ↔ hash.length = digestLength := by
  unfold makeStrictHash at h
  split at h
  · rename_i hle
    cases h
    constructor
    · intro heq
      have hlen := congrArg List.length heq
      rw [List.length_append, List.length_replicate] at hlen
      omega
    · intro hlen
      rw [hlen, Nat.sub_self, List.replicate_zero, List.append_nil]
  · cases h

/-- The slots of a file that gets its blocks show them, if their hashes are whole. -/
theorem shows_blocksOf {s t : Store} (h : SameBlocks s t) {f : Proto.FileInfo} (ha : Assigned f)
    (hknown : ∀ b ∈ f.blocks, ((makeStrictHash b.hash).bind s.byHash).isSome = true) :
    List.Forall₂ (Shows t) (blocksOf s f) f.blocks ↔ ∀ b ∈ f.blocks, b.hash.length = digestLength := by
  rw [blocksOf, if_pos ha, List.forall₂_map_left_iff, List.forall₂_same]
  refine forall₂_congr fun b hb => ?_
  obtain ⟨k, hk⟩ := Option.isSome_iff_exists.mp (hknown b hb)
  obtain ⟨strict, hstrict, hby⟩ := Option.bind_eq_some_iff.mp hk
  rw [Shows, hk, ← makeStrictHash_self_iff hstrict, ← (byHash_eq_some hby).2]
  simp [h.hash]

namespace Processed

variable {c : Cluster} {fi : FolderInfoId} {message : Proto.IndexBase} {d : Diff} {s t : Store}

theorem recordOf (h : Processed c fi message d s t) (name : String) :
    s.recordOf fi name = c.recordOf fi name := by
  unfold Store.recordOf
  rw [h.started.same.byName, h.started.same.files]

/-- The link target of an accepted file. -/
theorem linkTarget (h : Processed c fi message d s t) {f : Proto.FileInfo} (hf : f ∈ d.files)
    {g : FileId} (hg : g ∈ (t.infos fi).files) (hname : (t.files g).name = f.name) :
    Store.linkTarget (t.files g) =
      nextTarget (c.recordOf fi f.name) (asFlags f.type) f.symlinkTarget := by
  obtain ⟨pre, p, post, hzip, rfl⟩ := h.started.split hf
  rw [h.loop.linkTarget p (by rw [hzip]; simp) g hg hname, h.recordOf]

/-- The content of an accepted file that is no regular one. -/
theorem content_of_nonFile (h : Processed c fi message d s t) {f : Proto.FileInfo} (hf : f ∈ d.files)
    {g : FileId} (hg : g ∈ (t.infos fi).files) (hname : (t.files g).name = f.name)
    (htype : asFlags f.type ≠ .file) : (t.files g).content =
      .nonFile (nextTarget (c.recordOf fi f.name) (asFlags f.type) f.symlinkTarget) := by
  obtain ⟨uuid, hc⟩ := h.carries hf hg hname
  have hlink := h.linkTarget hf hg hname
  cases hcontent : (t.files g).content with
  | file blocks =>
    have hisFile := (h.files_wf.coherent g).mpr ⟨blocks, hcontent⟩
    rw [isFile_iff, hc.type] at hisFile
    exact absurd hisFile htype
  | nonFile target =>
    rw [← hlink, Store.linkTarget, hcontent]

/-- The content of an accepted regular file. -/
theorem content_of_file (h : Processed c fi message d s t) {f : Proto.FileInfo} (hf : f ∈ d.files)
    {g : FileId} (hg : g ∈ (t.infos fi).files) (hname : (t.files g).name = f.name)
    (htype : asFlags f.type = .file) : ∃ blocks, (t.files g).content = .file blocks := by
  obtain ⟨uuid, hc⟩ := h.carries hf hg hname
  exact (h.files_wf.coherent g).mp (isFile_iff.mpr (hc.type.trans htype))

/-- **An accepted file** against its announcement. -/
theorem echoed_iff (h : Processed c fi message d s t) {f : Proto.FileInfo} (hf : f ∈ d.files)
    {g : FileId} (hg : g ∈ (t.infos fi).files) (hname : (t.files g).name = f.name) :
    identicalTo t (t.files g) f = some true ↔ Echoed c.toStore fi f := by
  obtain ⟨uuid, hc⟩ := h.carries hf hg hname
  have hcount : f.version.counters ≠ [] := by
    obtain ⟨nextUuid, hcreated⟩ := h.created
    exact hcreated.accepts.counters f hf
  have hversion : (t.files g).version.identicalTo (Version.ofProto f.version) = true := by
    rw [hc.version]
    simp [Version.identicalTo]
  rw [identicalTo_eq_true_iff, and_iff_right hcount, and_iff_right hversion, ShowsAll, Echoed]
  by_cases htype : asFlags f.type = .file
  · obtain ⟨blocks, hcontent⟩ := h.content_of_file hf hg hname htype
    rw [if_pos htype, hcontent]
    dsimp only
    rw [hc.targets]
    by_cases ha : Assigned f
    · rw [if_pos ha, shows_blocksOf h.loop.blocks ha (h.known hf)]
    · rw [if_neg ha, blocksOf, if_neg ha]
      cases hblocks : f.blocks with
      | nil =>
        refine ⟨fun _ => rfl, fun _ => ?_⟩
        split <;> exact List.Forall₂.nil
      | cons b bs =>
        -- null slots, or none at all
        refine ⟨fun hshows => ?_, fun hnil => (by cases hnil)⟩
        split at hshows
        · obtain ⟨⟨k, hk, -⟩, -⟩ := List.forall₂_cons.mp hshows
          cases hk
        · cases hshows
  · rw [if_neg htype, h.content_of_nonFile hf hg hname htype]
    exact and_comm

/-- **An accepted file** against the record that the model makes of it. -/
theorem repeatable_iff (h : Processed c fi message d s t) {f : Proto.FileInfo} (hf : f ∈ d.files)
    {g : FileId} (hg : g ∈ (t.infos fi).files) (hname : (t.files g).name = f.name) :
    (Echoed c.toStore fi f ∧ (SlotsFilled (t.files g) → Encodable (t.files g))) ↔
      Repeatable c.toStore fi f := by
  obtain ⟨uuid, hc⟩ := h.carries hf hg hname
  have hcount : (t.files g).version.counters ≠ [] := by
    obtain ⟨nextUuid, hcreated⟩ := h.created
    rw [hc.version]
    simpa [Version.ofProto, List.modify_eq_nil_iff] using hcreated.accepts.counters f hf
  unfold Echoed Repeatable Encodable
  rw [and_iff_right hcount]
  by_cases htype : asFlags f.type = .file
  · obtain ⟨blocks, hcontent⟩ := h.content_of_file hf hg hname htype
    have hnil : (t.files g).slots = [] ↔ blocksOf s f = [] := by
      rw [← hc.targets]
      simp [FileInfo.targets]
    rw [if_pos htype, if_pos htype, hcontent, hc.filled_iff (h.known hf), hc.deleted, ne_eq, hnil, blocksOf]
    by_cases ha : Assigned f
    · have hlive : ¬ f.deleted = true := by simp [ha.2.1]
      have hnot : ¬ Dangling f := fun hd => hlive hd.2.1
      rw [if_pos ha, if_pos ha]
      simp [ha, hlive, hnot, and_comm]
    · rw [if_neg ha, if_neg ha]
      by_cases hblocks : f.blocks = []
      · have hnot : ¬ Dangling f := fun hd => hd.2.2.2 hblocks
        simp [hblocks, ha, hnot]
      · simp [hblocks, ha]
  · rw [if_neg htype, if_neg htype, h.content_of_nonFile hf hg hname htype]
    exact ⟨fun hboth => hboth.1, fun hrep => ⟨hrep, fun _ => hrep.2⟩⟩

theorem folderById (t : Store) (c : Cluster) (id : String) :
    ({ c with toStore := t } : Cluster).folderById id = c.folderById id := rfl

theorem byDeviceId (h : Processed c fi message d s t) (folder : Folder) (device : Sha256) :
    ({ c with toStore := t } : Cluster).byDeviceId folder device = c.byDeviceId folder device := by
  have hdevice : ∀ fi', (t.infos fi').device = (c.infos fi').device := by
    intro fi'
    by_cases hfi : fi' = fi
    · rw [hfi, h.loop.device, h.started.same.infos]
    · rw [(h.elsewhere hfi).1]
  unfold Cluster.byDeviceId
  simp only [hdevice]

theorem maxSequence (h : Processed c fi message d s t) :
    (c.infos fi).maxSequence ≤ (t.infos fi).maxSequence := by
  have hfold : ∀ (ps : List (Uuid × Proto.FileInfo)) (m : Int),
      m ≤ ps.foldl (fun m p => max m p.2.sequence) m := by
    intro ps
    induction ps with
    | nil => exact fun m => Int.le_refl m
    | cons p ps ih => exact fun m => Int.le_trans (Int.le_max_left m p.2.sequence) (ih _)
  rw [h.loop.maxSequence, ← h.started.same.infos]
  exact hfold _ _

/-- A file of the folder info is known by its name. -/
theorem known_iff_of_mem (h : Processed c fi message d s t) {g : FileId} (hg : g ∈ (t.infos fi).files)
    {f : Proto.FileInfo} (hname : (t.files g).name = f.name) (hseq : f.sequence ≤ (t.infos fi).maxSequence) :
    Known t fi f ↔ identicalTo t (t.files g) f = some true := by
  have hby : t.byName fi f.name = some g := (byName_eq_some (h.files_wf.infos fi)).mpr ⟨hg, hname⟩
  unfold Known
  rw [and_iff_right hseq, hby]
  simp

/-- A repetition in the message itself stays one. -/
theorem known_of_known (h : Processed c fi message d s t) (hb : c.BlocksWF) (hwf : c.WF)
    {f : Proto.FileInfo} (hname : ∀ q ∈ d.files, q.name ≠ f.name) (hknown : Known c.toStore fi f) :
    Known t fi f := by
  obtain ⟨hseq, g, hby, hid⟩ := hknown
  obtain ⟨hg, hgname⟩ := (byName_eq_some (hwf.infos fi)).mp hby
  obtain ⟨hgt, hgtname⟩ := (h.other hname g).mpr ⟨hg, hgname⟩
  rw [h.known_iff_of_mem hgt hgtname (hseq.trans h.maxSequence),
    h.files_other hg (by rw [hgname]; exact hname)]
  obtain ⟨hcount, hversion, hshows⟩ := identicalTo_eq_true_iff.mp hid
  refine identicalTo_eq_true_iff.mpr ⟨hcount, hversion, hshows.congr fun k hk => ?_⟩
  -- a block that a file refers to is in the block map
  obtain ⟨v, hv, heq⟩ := List.mem_map.mp hk
  obtain ⟨p, rfl, rfl⟩ := Option.map_eq_some_iff.mp heq
  obtain ⟨i, hi⟩ := List.mem_iff_getElem?.mp hv
  have hmap := hb.known g i p.1 p.2 (by
    show (c.files g).slots[i]?.join = some (p.1, p.2)
    rw [hi]
    rfl)
  rw [h.loop.blocks.hash, h.started.hash p.1 (hb.mapped p.1 (byHash_eq_some hmap).1)]

/-- **An accepted file is known** afterwards if it lasts and repeats. -/
theorem known_iff_of_accepted (h : Processed c fi message d s t) {f : Proto.FileInfo} (hf : f ∈ d.files) :
    Known t fi f ↔ Lasting d.files f ∧ Echoed c.toStore fi f := by
  constructor
  · rintro ⟨-, g, hby, hid⟩
    obtain ⟨hg, hname⟩ := (byName_eq_some (h.files_wf.infos fi)).mp hby
    exact ⟨h.lasting_of_mem hf hg hname, (h.echoed_iff hf hg hname).mp hid⟩
  · rintro ⟨hlast, hecho⟩
    obtain ⟨uuid, g, hg, hc⟩ := h.lasting hlast
    refine (h.known_iff_of_mem hg hc.name ?_).mpr ((h.echoed_iff hf hg hc.name).mpr hecho)
    rw [← hc.sequence]
    exact (h.files_wf.infos fi).bound g hg

/-- The record of a file is known exactly if the file is encodable. -/
theorem known_asProto_iff (h : Processed c fi message d s t) {g : FileId} (hg : g ∈ (t.infos fi).files)
    {f : Proto.FileInfo} (hf : t.asProto (t.files g) true = some f) :
    Known t fi f ↔ Encodable (t.files g) := by
  have hname : (t.files g).name = f.name := (asProto_name hf).symm
  rw [h.known_iff_of_mem hg hname, identicalTo_asProto hf]
  rw [(asProto_sequence hf).1]
  exact (h.files_wf.infos fi).bound g hg

end Processed

/-! ## The message again -/

/-- All files last if each has a larger sequence than those before it. -/
theorem lasting_iff {files : List Proto.FileInfo} (hnodup : files.Nodup) :
    (∀ f ∈ files, Lasting files f) ↔ files.Pairwise fun f g => f.sequence < g.sequence := by
  constructor
  · intro h
    rw [List.pairwise_iff_getElem]
    intro i j hi hj hij
    obtain ⟨f, hf⟩ : ∃ f, files[j]? = some f := ⟨_, List.getElem?_eq_getElem hj⟩
    obtain ⟨pre, post, heq, hpre⟩ := h f (List.mem_of_getElem? hf)
    have hlen : j = pre.length := by
      refine (List.getElem?_inj hj hnodup).mp ?_
      rw [hf, heq]
      simp
    rw [(List.getElem_eq_iff hj).mpr hf]
    refine hpre _ (List.mem_of_getElem? (i := i) ?_)
    rw [List.getElem?_eq_some_iff]
    refine ⟨by omega, ?_⟩
    simp only [heq]
    rw [List.getElem_append_left]
  · intro h f hf
    obtain ⟨pre, post, heq⟩ := List.append_of_mem hf
    refine ⟨pre, post, heq, fun q hq => ?_⟩
    rw [heq, List.pairwise_append] at h
    exact h.2.2 q hq f (List.mem_cons_self ..)

/-- A record that the model makes of a file of the folder info. -/
def Reencoded (t : Store) (fi : FolderInfoId) (f : Proto.FileInfo) : Prop :=
  ∃ g ∈ (t.infos fi).files, t.asProto (t.files g) true = some f

/-- After the message: it can be sent again, and so can any message of re-encoded files. -/
def Repeatedly (c : Cluster) (fi : FolderInfoId) (nextUuid : Nat → Uuid) (source : Sha256)
    (message : Proto.IndexBase) : Prop :=
  Repeats c nextUuid source message ∧
    ∀ files, (∀ f ∈ files, Reencoded c.toStore fi f) → Repeats c nextUuid source ⟨message.folder, files⟩

/-- **Repeated messages**: an applied message can be sent again, in its own records and in those
of the model, exactly when its sequences increase, its new files are repeatable, and so is every
file that it leaves alone. -/
theorem repeated_iff {c : Cluster} (hwf : c.WF) (hb : c.BlocksWF) {nextUuid : Nat → Uuid}
    {source : Sha256} {message : Proto.IndexBase} {folder : Folder} {fi : FolderInfoId} {d : Diff}
    (hfolder : c.folderById message.folder = some folder)
    (hfi : c.byDeviceId folder source = some fi)
    (hfresh : FreshUuids c.toStore fi nextUuid message.files.length)
    (hcreate : create c nextUuid source message = .ok d) {t : Store} (ht : apply c d = some t)
    (nextUuid' : Nat → Uuid) :
    Repeatedly { c with toStore := t } fi nextUuid' source message ↔
      ((announced c.toStore fi message.files).Pairwise fun f g => f.sequence < g.sequence) ∧
      (∀ f ∈ announced c.toStore fi message.files, Repeatable c.toStore fi f) ∧
      ∀ g ∈ (c.infos fi).files,
        (∀ f ∈ announced c.toStore fi message.files, f.name ≠ (c.files g).name) →
          SlotsFilled (c.files g) → Encodable (c.files g) := by
  obtain ⟨s, h⟩ := processed_of_apply hwf hb hfolder hfi hfresh hcreate ht
  have hfiles := files_of_create hfolder hfi hcreate
  have hrepeats : ∀ message' : Proto.IndexBase, message'.folder = message.folder →
      (Repeats { c with toStore := t } nextUuid' source message' ↔
        ∀ f ∈ latest message'.files, Known t fi f) := fun message' heq =>
    @repeats_iff { c with toStore := t } nextUuid' source message' folder fi
      (by rw [heq]; exact hfolder) (by rw [h.byDeviceId]; exact hfi)
  -- the records of the model
  have hre : (∀ files, (∀ f ∈ files, Reencoded t fi f) →
      Repeats { c with toStore := t } nextUuid' source ⟨message.folder, files⟩) ↔
      ∀ g ∈ (t.infos fi).files, SlotsFilled (t.files g) → Encodable (t.files g) := by
    constructor
    · intro hall g hg hfilled
      obtain ⟨f, hf⟩ := (@asProto_isSome_iff t (t.files g)).mpr hfilled
      have hone := (hrepeats ⟨message.folder, [f]⟩ rfl).mp
        (hall [f] fun f' hf' => by rw [List.mem_singleton.mp hf']; exact ⟨g, hg, hf⟩)
      exact (h.known_asProto_iff hg hf).mp (hone f (by simp [latest]))
    · intro hall files hfiles'
      refine (hrepeats ⟨message.folder, files⟩ rfl).mpr fun f hf => ?_
      obtain ⟨g, hg, hf⟩ := hfiles' f ((latest_sublist files).subset hf)
      exact (h.known_asProto_iff hg hf).mpr (hall g hg (asProto_isSome_iff.mp ⟨f, hf⟩))
  -- the message itself
  have hagain : Repeats { c with toStore := t } nextUuid' source message ↔
      ∀ f ∈ d.files, Lasting d.files f ∧ Echoed c.toStore fi f := by
    rw [hrepeats message rfl]
    constructor
    · intro hall f hf
      refine (h.known_iff_of_accepted hf).mp (hall f ?_)
      rw [hfiles] at hf
      exact (mem_announced.mp hf).1
    · intro hall f hf
      by_cases hnew : f ∈ d.files
      · exact (h.known_iff_of_accepted hnew).mpr (hall f hnew)
      · refine h.known_of_known hb hwf (fun q hq heq => hnew ?_) ?_
        · have hq' : q ∈ latest message.files := by
            rw [hfiles] at hq
            exact (mem_announced.mp hq).1
          have : Std.Symm fun f g : Proto.FileInfo => f.name ≠ g.name := ⟨fun _ _ => Ne.symm⟩
          have hsame : q = f := by
            by_contra hne
            exact (latest_names message.files).forall hq' hf hne heq
          exact hsame ▸ hq
        · rw [create_eq hfolder hfi] at hcreate
          obtain ⟨acc, hacc, -⟩ := Fallible.bind_ok.mp hcreate
          refine known_iff.mpr ⟨?_, fold_ok_iff.mp ⟨acc, hacc⟩ f hf⟩
          by_contra hlt
          refine hnew ?_
          rw [hfiles]
          exact mem_announced.mpr ⟨hf, not_le.mp hlt⟩
  unfold Repeatedly
  rw [hre, hagain, ← hfiles, ← lasting_iff (h.names.imp fun {a b} hne heq => hne (congrArg Proto.FileInfo.name heq))]
  constructor
  · rintro ⟨hnew, hold⟩
    refine ⟨fun f hf => (hnew f hf).1, fun f hf => ?_, fun g hg hname => ?_⟩
    · obtain ⟨uuid, g, hg, hc⟩ := h.lasting (hnew f hf).1
      exact (h.repeatable_iff hf hg hc.name).mp ⟨(hnew f hf).2, hold g hg⟩
    · rw [← h.files_other hg hname]
      exact hold g ((h.other hname g).mpr ⟨hg, rfl⟩).1
  · rintro ⟨hlast, hnew, hold⟩
    refine ⟨fun f hf => ⟨hlast f hf, ?_⟩, fun g hg => ?_⟩
    · obtain ⟨uuid, g, hg, hc⟩ := h.lasting (hlast f hf)
      exact ((h.repeatable_iff hf hg hc.name).mpr (hnew f hf)).1
    · by_cases hname : ∃ f ∈ d.files, f.name = (t.files g).name
      · obtain ⟨f, hf, hname⟩ := hname
        exact ((h.repeatable_iff hf hg hname.symm).mpr (hnew f hf)).2
      · push Not at hname
        obtain ⟨hgc, hcname⟩ := (h.other hname g).mp ⟨hg, rfl⟩
        have hnot : ∀ f ∈ d.files, f.name ≠ (c.files g).name := by
          rw [hcname]
          exact hname
        rw [h.files_other hgc hnot]
        exact hold g hgc hnot

/-- A regular file with one block under a whole hash. -/
def wholeFile : Proto.FileInfo := { announce "a" 1 7 with blocks := [⟨5, List.replicate 32 7, 0⟩] }

theorem repeated_of_wholeFile :
    ∃ t, apply newPeer (announceDiff [wholeFile]) = some t ∧
      Repeatedly { newPeer with toStore := t } 0 (fun k => Uuid.ofByte k.toUInt8) [2]
        ⟨"docs", [wholeFile]⟩ := by
  have hfresh : FreshUuids newPeer.toStore 0 (fun k => Uuid.ofByte k.toUInt8) 1 :=
    ⟨by decide, by simp [newPeer, Store.initial]⟩
  have hcreate : create newPeer (fun k => Uuid.ofByte k.toUInt8) [2] ⟨"docs", [wholeFile]⟩ =
      .ok (announceDiff [wholeFile]) := rfl
  obtain ⟨t, ht⟩ : ∃ t, apply newPeer (announceDiff [wholeFile]) = some t :=
    Option.isSome_iff_exists.mp (by decide)
  refine ⟨t, ht, (@repeated_iff newPeer (WF.initial fun _ => rfl) (BlocksWF.initial _) _ _ _
    ⟨"docs", default, [0]⟩ 0 _ rfl rfl hfresh hcreate t ht _).mpr ⟨?_, ?_, ?_⟩⟩
  · exact List.pairwise_singleton _ _
  · intro f hf
    rw [show announced newPeer.toStore 0 [wholeFile] = [wholeFile] from rfl, List.mem_singleton] at hf
    subst hf
    exact .inr ⟨by decide, by decide, by decide⟩
  · intro g hg
    cases hg

/-- An empty regular file comes with one empty block. -/
def emptyFile : Proto.FileInfo := { announce "a" 1 7 with size := 0, blocks := [emptyBlock] }

/-- A link with a target. -/
def linkFile : Proto.FileInfo :=
  { announce "a" 1 7 with type := .symlink, size := 0, blocks := [], symlinkTarget := "b" }

/-- The message with the file `f` alone is accepted and applied; when it comes again, it is
taken for corrupted. -/
def CorruptedAgain (f : Proto.FileInfo) : Prop :=
  ∃ d t, create newPeer (fun k => Uuid.ofByte k.toUInt8) [2] ⟨"docs", [f]⟩ = .ok d ∧
    apply newPeer d = some t ∧
    create { newPeer with toStore := t } (fun k => Uuid.ofByte k.toUInt8) [2] ⟨"docs", [f]⟩ =
      .error .invalidSequence

theorem corrupted_of_repeated : CorruptedAgain emptyFile ∧ CorruptedAgain linkFile :=
  ⟨⟨_, _, rfl, rfl, rfl⟩, ⟨_, _, rfl, rfl, rfl⟩⟩

end UpdateFolder

end SyncSpirit
