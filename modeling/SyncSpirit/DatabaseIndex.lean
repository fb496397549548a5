import SyncSpirit.DatabaseAdvance

/-!
# An index message in the database

`update_folder_t::create` sees to most of what the visit relies on (`IndexSane`), but there are
three things that nobody looks at, and a peer that breaks one of them makes the database actor
dereference a null pointer (`Writable`): a file whose sequence is not above those before is not
in the model, a block that is announced with a short hash is not under that hash, and a deleted
file with blocks has null slots. `isSome_step_iff_of_create` says that there is nothing else.
-/

namespace SyncSpirit

namespace Database

open Fallible Store Availability AdvanceRun UpdateFolder WriteLog

/-- An accepted file with its uuid, where the diff is applied. -/
structure Announced (c : Cluster) (fi : FolderInfoId) (d : UpdateFolder.Diff) (p : Uuid × Proto.FileInfo) : Prop where
  counters : p.2.version.counters ≠ []
  hashes : (strictHashes p.2.blocks).isSome = true
  known : ∀ b ∈ p.2.blocks, ∀ hash ∈ makeStrictHash b.hash, hash ∉ d.removedBlocks ∧
    ((c.byHash hash).isSome = true ∨ ∃ b' ∈ d.blocks, makeStrictHash b'.hash = some hash)
  sequence : (c.infos fi).maxSequence < p.2.sequence
  uuid : ∀ prev ∈ c.byName fi p.2.name, (c.files prev).uuid = p.1
  fresh : c.byName fi p.2.name = none → ∀ g ∈ (c.infos fi).files, (c.files g).uuid ≠ p.1

instance (c : Cluster) (fi : FolderInfoId) (d : UpdateFolder.Diff) (p : Uuid × Proto.FileInfo) :
    Decidable (Announced c fi d p) :=
  decidable_of_iff (p.2.version.counters ≠ [] ∧ (strictHashes p.2.blocks).isSome = true ∧
    (∀ b ∈ p.2.blocks, ∀ hash ∈ makeStrictHash b.hash, hash ∉ d.removedBlocks ∧
      ((c.byHash hash).isSome = true ∨ ∃ b' ∈ d.blocks, makeStrictHash b'.hash = some hash)) ∧
    (c.infos fi).maxSequence < p.2.sequence ∧ (∀ prev ∈ c.byName fi p.2.name, (c.files prev).uuid = p.1) ∧
    (c.byName fi p.2.name = none → ∀ g ∈ (c.infos fi).files, (c.files g).uuid ≠ p.1))
    ⟨fun ⟨h₁, h₂, h₃, h₄, h₅, h₆⟩ => ⟨h₁, h₂, h₃, h₄, h₅, h₆⟩, fun ⟨h₁, h₂, h₃, h₄, h₅, h₆⟩ => ⟨h₁, h₂, h₃, h₄, h₅, h₆⟩⟩

/-- What `update_folder_t::create` sees to. -/
structure IndexSane (c : Cluster) (fi : FolderInfoId) (d : UpdateFolder.Diff) : Prop where
  strict : ∀ b ∈ d.blocks, ∃ hash ∈ makeStrictHash b.hash, hash ∉ d.removedBlocks
  nodup : d.removedBlocks.Nodup
  files : (d.uuids.zip d.files).map Prod.snd = d.files
  distinct : Distinct (d.uuids.zip d.files)
  announced : ∀ p ∈ d.uuids.zip d.files, Announced c fi d p

/-- What nobody looks at. -/
structure Writable (d : UpdateFolder.Diff) : Prop where
  full : ∀ b ∈ d.blocks, b.hash.length = digestLength
  ascending : d.files.Pairwise fun f g => f.sequence < g.sequence
  blank : ∀ f ∈ d.files, asFlags f.type = .file → f.size ≠ 0 → f.deleted = true → f.blocks = []

instance (ps : List (Uuid × Proto.FileInfo)) : Decidable (Distinct ps) :=
  inferInstanceAs (Decidable (ps.Pairwise fun p q => p.2.name ≠ q.2.name ∧ p.1 ≠ q.1))

instance (c : Cluster) (fi : FolderInfoId) (d : UpdateFolder.Diff) : Decidable (IndexSane c fi d) :=
  decidable_of_iff ((∀ b ∈ d.blocks, ∃ hash ∈ makeStrictHash b.hash, hash ∉ d.removedBlocks) ∧ d.removedBlocks.Nodup ∧
    (d.uuids.zip d.files).map Prod.snd = d.files ∧ Distinct (d.uuids.zip d.files) ∧
    ∀ p ∈ d.uuids.zip d.files, Announced c fi d p)
    ⟨fun ⟨h₁, h₂, h₃, h₄, h₅⟩ => ⟨h₁, h₂, h₃, h₄, h₅⟩, fun ⟨h₁, h₂, h₃, h₄, h₅⟩ => ⟨h₁, h₂, h₃, h₄, h₅⟩⟩

instance (d : UpdateFolder.Diff) : Decidable (Writable d) :=
  decidable_of_iff ((∀ b ∈ d.blocks, b.hash.length = digestLength) ∧
    (d.files.Pairwise fun f g => f.sequence < g.sequence) ∧
    ∀ f ∈ d.files, asFlags f.type = .file → f.size ≠ 0 → f.deleted = true → f.blocks = [])
    ⟨fun ⟨h₁, h₂, h₃⟩ => ⟨h₁, h₂, h₃⟩, fun ⟨h₁, h₂, h₃⟩ => ⟨h₁, h₂, h₃⟩⟩

section Index

variable {c : Cluster} {p : Share} {t w : Store} {d : UpdateFolder.Diff} {threshold : Nat} {db : Db}

/-! ## A diff that has just been created -/

/-- **A diff is sane** where it has been created. -/
theorem indexSane_of_create (hwf : c.WF) {nextUuid : Nat → Uuid} {source : Sha256} {message : Proto.IndexBase}
    (hcreate : UpdateFolder.create c nextUuid source message = .ok d) (hp : shareOf c message.folder source = some p)
    (hfresh : FreshUuids c.toStore p.2 nextUuid message.files.length) : IndexSane c p.2 d := by
  obtain ⟨hfolder, hfi⟩ := shareOf_eq_some.mp hp
  unfold UpdateFolder.create at hcreate
  rw [hfolder] at hcreate
  dsimp only at hcreate
  rw [hfi] at hcreate
  dsimp only at hcreate
  obtain ⟨acc, hacc, h⟩ := bind_ok.mp hcreate
  obtain ⟨whiteListed, hwhite, h⟩ := bind_ok.mp h
  obtain ⟨newHashes, hnew, h⟩ := bind_ok.mp h
  rw [pure_ok] at h
  subst h
  have haccepts := accepts_of_create hacc
  have hinfo := hwf.infos p.2
  obtain ⟨hnodup, horphans⟩ := deduce_spec c.toStore (acc.files.filterMap fun f => c.byName p.2 f.name) whiteListed
  have hnames : acc.files.Pairwise fun f g => f.name ≠ g.name :=
    (latest_names message.files).sublist haccepts.sublist
  have hlen : 0 + acc.files.length ≤ message.files.length := by
    rw [Nat.zero_add]
    exact (haccepts.sublist.trans (latest_sublist _)).length_le
  refine ⟨fun b hb => ?_, hnodup.filter _, List.map_snd_zip (by rw [length_chooseUuids]),
    distinct_chooseUuids hinfo hfresh hnames 0 hlen, fun q hq => ?_⟩
  · obtain ⟨hash, hmem, hhash⟩ := mem_strictHashes (expect_ok.mp hnew) hb
    refine ⟨hash, hhash, fun hremoved => ?_⟩
    simpa [hmem] using (List.mem_filter.mp hremoved).2
  · obtain ⟨hmem, hsome, hnone⟩ := chooseUuids_spec 0 q hq
    have hcovered := haccepts.covered q.2 hmem
    obtain ⟨hashes, hhashes⟩ := strictHashes_isSome fun b hb => by
      obtain ⟨hash, hhash, -⟩ := hcovered b hb
      rw [hhash]
      rfl
    refine ⟨haccepts.counters q.2 hmem, by rw [hhashes]; rfl, fun b hb hash hhash => ?_,
      haccepts.sequence q.2 hmem, fun prev hprev => (hsome prev hprev).symm, fun hprev g hg => ?_⟩
    · obtain ⟨hash', hhash', hor⟩ := hcovered b hb
      rw [Option.mem_def.mp hhash] at hhash'
      cases hhash'
      refine ⟨fun hremoved => ?_, hor⟩
      -- the blocks of the accepted files are not orphaned
      obtain ⟨hash', hwhiteMem, hhash'⟩ := mem_strictHashes (expect_ok.mp hwhite) (List.mem_flatMap.mpr ⟨q.2, hmem, hb⟩)
      rw [Option.mem_def.mp hhash] at hhash'
      cases hhash'
      exact (horphans hash (List.mem_filter.mp hremoved).1).1 hwhiteMem
    · obtain ⟨k, -, hlt, hk⟩ := hnone hprev
      rw [hk]
      exact hfresh.fresh k (Nat.lt_of_lt_of_le hlt hlen) g hg

/-! ## The model after the diff -/

/-- The diff has been applied: `w` is the model before the loop over the files. -/
structure Indexed (c : Cluster) (p : Share) (d : UpdateFolder.Diff) (added : List Bytes) (w t : Store) : Prop where
  nested : Nested added d.removedBlocks c.toStore w
  known : ∀ q ∈ d.uuids.zip d.files, ∀ b ∈ q.2.blocks, ((makeStrictHash b.hash).bind w.byHash).isSome = true
  loop : Loop p.2 w (d.uuids.zip d.files) t
  settles : Settles p.2 w t
  separate : Separate t
  elsewhere : SameElsewhere p.2 c.toStore t

theorem indexed_of_apply (hc : Regular c) (hsane : IndexSane c p.2 d) (hp : shareOf c d.folderId d.peerId = some p)
    (ht : UpdateFolder.apply c d = some t) :
    ∃ added w, strictHashes d.blocks = some added ∧ Indexed c p d added w t := by
  obtain ⟨hfolder, hfi⟩ := shareOf_eq_some.mp hp
  unfold UpdateFolder.apply at ht
  rw [hfolder, Option.bind_eq_bind, Option.bind_some, hfi, Option.bind_eq_bind, Option.bind_some] at ht
  obtain ⟨u, hu, ht⟩ := Option.bind_eq_some_iff.mp ht
  obtain ⟨w, hw, ht⟩ := Option.bind_eq_some_iff.mp ht
  obtain ⟨added, hadded⟩ := strictHashes_isSome fun b hb => by
    obtain ⟨hash, hhash, -⟩ := hsane.strict b hb
    rw [Option.mem_def.mp hhash]
    rfl
  have hnested := nested_of_blocks hc.sound hadded hsane.nodup hu hw
  have hmaps : SameMaps c.toStore w := hnested.toSameMaps
  have hsound := hnested.sound hc.sound
  have hwf : w.WF := by
    refine ⟨hsound.linked, hsound.coherent, hsound.fresh, fun fi => hmaps.infoWF (hc.infos fi), ?_⟩
    rw [hmaps.infos]
    exact hc.separate.disjoint
  have hhas : ∀ b ∈ d.blocks, ∀ hash, makeStrictHash b.hash = some hash → hash ∈ added := by
    intro b hb hash hhash
    obtain ⟨hash', hmem, hhash'⟩ := mem_strictHashes hadded hb
    rw [hhash] at hhash'
    cases hhash'
    exact hmem
  have hready : ∀ q ∈ d.uuids.zip d.files, Ready p.2 w (c.infos p.2).maxSequence q := by
    intro q hq
    have ha := hsane.announced q hq
    refine ⟨ha.counters, Option.isSome_iff_exists.mp ha.hashes, fun b hb => ?_, ha.sequence, fun prev hprev => ?_,
      fun hnone g hg => ?_⟩
    · obtain ⟨hashes, hhashes⟩ := Option.isSome_iff_exists.mp ha.hashes
      obtain ⟨hash, -, hhash⟩ := mem_strictHashes hhashes hb
      obtain ⟨hkept, hor⟩ := ha.known b hb hash hhash
      rw [hhash, Option.bind_some]
      refine (hnested.hasBlock hash).mpr ⟨hor.imp_right ?_, hkept⟩
      rintro ⟨b', hb', hhash'⟩
      exact hhas b' hb' hash hhash'
    · rw [hmaps.byName] at hprev
      rw [hmaps.files]
      exact ⟨(hc.infos p.2).bound prev ((byName_eq_some (hc.infos p.2)).mp hprev).1, ha.uuid prev hprev⟩
    · rw [hmaps.byName] at hnone
      rw [hmaps.infos] at hg
      rw [hmaps.files]
      exact ha.fresh hnone g hg
  have hhomed : w.Homed p.2 := by
    intro f hf
    rw [hmaps.infos] at hf ⊢
    rw [hmaps.files]
    exact hc.homed p (mem_shares_of_shareOf hp) f hf
  obtain ⟨hseparate, helse⟩ := (hc.separate.of_sameMaps hmaps).applyFiles ht
  exact ⟨added, w, hadded, hnested, fun q hq => (hready q hq).known, loop_of_applyFiles hwf hsane.distinct hready ht,
    settles_applyFiles hsound hhomed ht, hseparate, (SameElsewhere.of_sameMaps hmaps p.2).trans helse⟩

section Indexed

variable {added : List Bytes}

theorem mem_zip_of_mem (hsane : IndexSane c p.2 d) {f : Proto.FileInfo} (hf : f ∈ d.files) :
    ∃ q ∈ d.uuids.zip d.files, q.2 = f := by
  rw [← hsane.files] at hf
  exact List.mem_map.mp hf

theorem mem_files_of_mem (hsane : IndexSane c p.2 d) {q : Uuid × Proto.FileInfo} (hq : q ∈ d.uuids.zip d.files) :
    q.2 ∈ d.files := by
  rw [← hsane.files]
  exact List.mem_map_of_mem hq

theorem Indexed.maxSequence (h : Indexed c p d added w t) : (w.infos p.2).maxSequence = (c.infos p.2).maxSequence := by
  rw [h.nested.infos]

/-- **A file with a larger sequence than those before** is in the folder info. -/
theorem Indexed.present (h : Indexed c p d added w t) (hsane : IndexSane c p.2 d)
    (hascending : d.files.Pairwise fun f g => f.sequence < g.sequence) {q : Uuid × Proto.FileInfo}
    (hq : q ∈ d.uuids.zip d.files) : ∃ g ∈ (t.infos p.2).files, Carries w q.1 q.2 (t.files g) := by
  obtain ⟨pre, post, heq⟩ := List.append_of_mem hq
  refine h.loop.added pre q post heq ?_ fun r hr => ?_
  · rw [h.maxSequence]
    exact (hsane.announced q hq).sequence
  · rw [← hsane.files, List.pairwise_map, heq, List.pairwise_append] at hascending
    exact hascending.2.2 r hr q (List.mem_cons_self ..)

/-- Every other file is dropped. -/
theorem Indexed.ascending_of_present (h : Indexed c p d added w t) (hsane : IndexSane c p.2 d)
    (hpresent : ∀ f ∈ d.files, ∃ g ∈ (t.infos p.2).files, (t.files g).name = f.name) :
    d.files.Pairwise fun f g => f.sequence < g.sequence := by
  rw [← hsane.files, List.pairwise_map, List.pairwise_iff_forall_sublist]
  intro r q hsub
  by_contra hle
  obtain ⟨l₁, l₂, heq, hr, hq⟩ := List.cons_sublist_iff.mp hsub
  obtain ⟨pre, post, rfl⟩ := List.append_of_mem (List.singleton_sublist.mp hq)
  rw [← List.append_assoc] at heq
  obtain ⟨g, hg, hname⟩ := hpresent q.2 (mem_files_of_mem hsane (by rw [heq]; simp))
  exact h.loop.dropped (l₁ ++ pre) q post heq (.inl ⟨r, List.mem_append_left _ hr, Int.not_lt.mp hle⟩) g hg hname

/-- A file of the diff has the uuid that goes with its name, and the one folder info. -/
theorem Indexed.fileKey_eq (h : Indexed c p d added w t) (hc : Regular c) (hsane : IndexSane c p.2 d)
    (hp : p ∈ shares c) {q : Uuid × Proto.FileInfo} (hq : q ∈ d.uuids.zip d.files) {f g : FileId}
    (hf : f ∈ (c.infos p.2).files) (hname : (c.files f).name = q.2.name) (hg : g ∈ (t.infos p.2).files)
    (hcarries : Carries w q.1 q.2 (t.files g)) : fileKey (t.files g) = fileKey (c.files f) := by
  have huuid : (t.infos p.2).uuid = (c.infos p.2).uuid := by
    rw [h.settles.uuid, h.nested.infos]
  rw [fileKey, fileKey, h.settles.homed g hg, huuid, hc.homed p hp f hf, hcarries.uuid,
    (hsane.announced q hq).uuid f ((byName_eq_some (hc.infos p.2)).mpr ⟨hf, hname⟩)]

/-- **The change**: the files of the diff and its blocks. -/
theorem Indexed.changed (h : Indexed c p d added w t) (hc : Regular c) (hsane : IndexSane c p.2 d) (hp : p ∈ shares c)
    (hascending : d.files.Pairwise fun f g => f.sequence < g.sequence) :
    Changed c t p (d.files.map fun f => f.name) (added ++ d.removedBlocks) := by
  have hmaps : SameMaps c.toStore w := h.nested.toSameMaps
  have hnot : ∀ {name : String}, name ∉ d.files.map (fun f => f.name) →
      ∀ q ∈ d.uuids.zip d.files, q.2.name ≠ name := by
    rintro name hname q hq rfl
    exact hname (List.mem_map_of_mem (mem_files_of_mem hsane hq))
  refine ⟨h.nested.toSameRecords.trans h.loop.blocks.sameRecords, hp, h.elsewhere, ?_, ⟨fun f hf hname => ?_,
    fun f hf hname => ?_⟩, fun f hf hname => ?_, fun x hx => ?_⟩
  · rw [h.settles.uuid, hmaps.infos]
  · rw [← hmaps.infos] at hf
    rw [← hmaps.files] at hname ⊢
    exact ⟨((h.loop.others _ (hnot hname) f).mpr ⟨hf, rfl⟩).1, h.loop.same f hf (hnot hname)⟩
  · obtain ⟨hmem, hsame⟩ := (h.loop.others _ (hnot hname) f).mp ⟨hf, rfl⟩
    have hfile : t.files f = w.files f := h.loop.same f hmem (by rw [hsame]; exact hnot hname)
    rw [hmaps.infos] at hmem
    rw [hmaps.files] at hfile
    exact ⟨hmem, hfile⟩
  · obtain ⟨e, he, hename⟩ := List.mem_map.mp hname
    obtain ⟨q, hq, rfl⟩ := mem_zip_of_mem hsane he
    obtain ⟨g, hg, hcarries⟩ := h.present hsane hascending hq
    refine ⟨g, hg, ?_, h.fileKey_eq hc hsane hp hq hf hename.symm hg hcarries⟩
    rw [hcarries.name]
    exact List.mem_map_of_mem he
  · rw [h.loop.blocks.byHash, h.nested.byHash x hx]

/-- A file of the diff can be written down, but for the null slots of a deleted one. -/
theorem Indexed.asDb_iff (h : Indexed c p d added w t) {q : Uuid × Proto.FileInfo}
    (hq : q ∈ d.uuids.zip d.files) {file : FileInfo} (hcarries : Carries w q.1 q.2 file) :
    (FileDb.asDb t file).isSome = true ↔
      (asFlags q.2.type = .file → q.2.size ≠ 0 → q.2.deleted = true → q.2.blocks = []) := by
  have htargets := hcarries.targets
  unfold blocksOf at htargets
  constructor
  · rintro hsome htype hsize hdeleted
    have hnot : ¬ Assigned q.2 := fun ha => by
      rw [ha.2.1] at hdeleted
      cases hdeleted
    rw [if_neg hnot, if_pos ⟨htype, hsize⟩] at htargets
    by_contra hne
    -- the first slot is a null one, and the block size is read from it
    have hhead : file.targets.head? = some none := by
      rw [htargets, List.head?_replicate, if_neg (by rwa [List.length_eq_zero_iff])]
    have hblock : t.getBlockSize file = none := by
      unfold getBlockSize
      rw [if_pos (isFile_iff.mpr (hcarries.type.trans htype)), hhead]
      rfl
    obtain ⟨record, hrecord⟩ := Option.isSome_iff_exists.mp hsome
    obtain ⟨_, _, -, hsizes, -⟩ := FileDb.asDb_eq_some.mp hrecord
    rw [hblock] at hsizes
    cases hsizes
  · intro hblank
    refine asDb_isSome fun v hv => ?_
    rw [htargets] at hv
    split at hv
    · obtain ⟨b, hb, rfl⟩ := List.mem_map.mp hv
      exact Option.isSome_iff_ne_none.mp (h.known q hq b hb)
    · rename_i hnot
      split at hv
      · rename_i hfile
        have hdeleted : q.2.deleted = true := by
          by_contra hne
          exact hnot ⟨hfile.1, by simpa using hne, hfile.2⟩
        rw [hblank hfile.1 hfile.2 hdeleted] at hv
        cases hv
      · cases hv

/-- **The model stays in order**. -/
theorem Indexed.regular (h : Indexed c p d added w t) (hc : Regular c) (hsane : IndexSane c p.2 d) (hp : p ∈ shares c)
    (hw : Writable d) (hadded : strictHashes d.blocks = some added) : Regular { c with toStore := t } := by
  refine (h.changed hc hsane hp hw.ascending).regular hc h.settles.sound (h.loop.wf.infos p.2) h.separate
    h.settles.homed
    (fun g hg hname => ?_) fun x hx => ?_
  · obtain ⟨f, hf, hname⟩ := List.mem_map.mp hname
    obtain ⟨q, hq, rfl⟩ := mem_zip_of_mem hsane hf
    obtain ⟨g', hg', hcarries⟩ := h.present hsane hw.ascending hq
    have heq : g' = g := by
      by_contra hne
      exact ((h.loop.wf.infos p.2).keys g' hg' g hg hne).2.1 (hcarries.name.trans hname)
    rw [heq] at hcarries
    exact (h.asDb_iff hq hcarries).mpr (hw.blank q.2 hf)
  · rw [h.loop.blocks.hasBlock, h.nested.hasBlock] at hx
    rcases hx.1 with hx | hx
    · exact hc.digests x hx
    · rw [strictHashes_of_full hw.full] at hadded
      cases hadded
      obtain ⟨b, hb, rfl⟩ := List.mem_map.mp hx
      exact hw.full b hb

end Indexed

/-! ## The visit -/

/-- The key of a file of the diff. -/
def namedKey (c : Cluster) (p : Share) (f : Proto.FileInfo) : Key :=
  ((c.byName p.2 f.name).map fun g => fileKey (c.files g)).getD (infoKey c p)

theorem updates_saveNamed (hc : Regular c) (hp : p ∈ shares c) {f : Proto.FileInfo} {g : FileId}
    (hg : c.byName p.2 f.name = some g) : Updates (content c) (fun db => saveNamed c p.2 db f) [namedKey c p f] := by
  obtain ⟨record, hrecord, hcontent⟩ := content_fileKey hc hp ((byName_eq_some (hc.infos p.2)).mp hg).1
  have hkey : namedKey c p f = fileKey (c.files g) := by
    unfold namedKey
    rw [hg]
    rfl
  have hsave : (fun db => saveNamed c p.2 db f) = fun db => saveFile c db g := by
    funext db
    unfold saveNamed
    rw [hg, Option.bind_some]
  rw [hkey, hsave]
  exact updates_saveFile hrecord hcontent

variable (threshold) in
/-- **The handler**, in the model after the diff. -/
theorem refreshes_index (hc : Regular c) (hp : shareOf c d.folderId d.peerId = some p)
    (hfiles : ∀ f ∈ d.files, (c.byName p.2 f.name).isSome = true)
    (hadded : ∀ b ∈ d.blocks, (c.byHash b.hash).isSome = true)
    (hremoved : ∀ x ∈ d.removedBlocks, c.byHash x = none) :
    Refreshes (content c) (visitUpdateFolder threshold c d)
      ((infoKey c p :: (d.files.map (namedKey c p) ++ d.blocks.map fun b => .block b.hash)) ++
        d.removedBlocks.map .block) [] := by
  have hshare := mem_shares_of_shareOf hp
  obtain ⟨hfolder, hfi⟩ := shareOf_eq_some.mp hp
  have hgone : ∀ x ∈ d.removedBlocks, content c (.block x) = none := fun x hx => by
    rw [content_block, hremoved x hx]
    rfl
  intro v t ht
  rw [List.cons_append, List.append_assoc, List.map_cons, run_cons, refresh_of_some (content_info hc hshare),
    List.map_append] at ht
  obtain ⟨first, hfirst, ht⟩ := Option.bind_eq_some_iff.mp ht
  cases hfirst
  rw [run_append] at ht
  obtain ⟨u, hu, ht⟩ := Option.bind_eq_some_iff.mp ht
  have hnamed : ∀ f ∈ d.files, Updates (content c) (fun db => saveNamed c p.2 db f) [namedKey c p f] := fun f hf => by
    obtain ⟨g, hg⟩ := Option.isSome_iff_exists.mp (hfiles f hf)
    exact updates_saveNamed hc hshare hg
  obtain ⟨db, hdb, hcurrent⟩ := updates_foldlM hnamed
    (v.db.getTxn.save (infoKey c p) (infoValue (c.infos p.2))) u (by rwa [Db.current_save, Db.current_getTxn])
  rw [← hcurrent] at ht
  obtain ⟨v', hv', hlast, hdirty⟩ := refreshes_nested threshold (fun b hb => ⟨hadded b hb, rfl⟩) hgone
    { v with db := db } t ht
  refine ⟨v'.force threshold, ?_, hlast, hdirty⟩
  unfold visitUpdateFolder
  rw [hfolder, Option.bind_eq_bind, Option.bind_some, hfi, Option.bind_eq_bind, Option.bind_some]
  exact Option.bind_eq_some_iff.mpr ⟨db, hdb, Option.bind_eq_some_iff.mpr ⟨v', hv', rfl⟩⟩

theorem forced_of_index {v v' : Visit} (h : visitUpdateFolder threshold c d v = some v') :
    v'.db.uncommitted = threshold := by
  obtain ⟨_, -, h⟩ := Option.bind_eq_some_iff.mp h
  obtain ⟨_, -, h⟩ := Option.bind_eq_some_iff.mp h
  obtain ⟨_, -, h⟩ := Option.bind_eq_some_iff.mp h
  obtain ⟨_, -, h⟩ := Option.bind_eq_some_iff.mp h
  cases h
  rfl

variable (threshold) in
/-- **An index message**, applied and visited. -/
theorem mirrors_of_index (hc : Regular c) (hp : shareOf c d.folderId d.peerId = some p) (hsane : IndexSane c p.2 d)
    (hw : Writable d) (hmirrors : Mirrors Key.bytes db.current (content c)) (ht : UpdateFolder.apply c d = some t) :
    Regular { c with toStore := t } ∧
      ∃ db', visit threshold { c with toStore := t } (visitUpdateFolder threshold { c with toStore := t } d) db =
        some db' ∧ db'.txn = none ∧ Mirrors Key.bytes db'.committed (content { c with toStore := t }) := by
  have hshare := mem_shares_of_shareOf hp
  obtain ⟨added, w, hadded, hi⟩ := indexed_of_apply hc hsane hp ht
  have hchanged := hi.changed hc hsane hshare hw.ascending
  have hregular := hi.regular hc hsane hshare hw hadded
  have hhas : ∀ x, t.HasBlock x ↔ (c.HasBlock x ∨ x ∈ added) ∧ x ∉ d.removedBlocks := fun x => by
    rw [hi.loop.blocks.hasBlock, hi.nested.hasBlock]
  rw [strictHashes_of_full hw.full] at hadded
  cases hadded
  have hkept : ∀ b ∈ d.blocks, b.hash ∉ d.removedBlocks := by
    intro b hb
    obtain ⟨hash, hhash, hnot⟩ := hsane.strict b hb
    rw [makeStrictHash_of_full (hw.full b hb), Option.mem_def] at hhash
    cases hhash
    exact hnot
  have hpresent : ∀ f ∈ d.files, ∃ g ∈ (t.infos p.2).files, (t.files g).name = f.name := by
    intro f hf
    obtain ⟨q, hq, rfl⟩ := mem_zip_of_mem hsane hf
    obtain ⟨g, hg, hcarries⟩ := hi.present hsane hw.ascending hq
    exact ⟨g, hg, hcarries.name⟩
  have hby : ∀ f ∈ d.files, ∃ g, t.byName p.2 f.name = some g := by
    intro f hf
    obtain ⟨g, hg, hname⟩ := hpresent f hf
    exact ⟨g, (byName_eq_some (hregular.infos p.2)).mpr ⟨hg, hname⟩⟩
  have hsomeBlock : ∀ b ∈ d.blocks, (t.byHash b.hash).isSome = true := fun b hb =>
    (hhas b.hash).mpr ⟨.inr (List.mem_map_of_mem hb), hkept b hb⟩
  have href := refreshes_index threshold hregular (by rw [hchanged.shareOf]; exact hp)
    (fun f hf => Option.isSome_iff_exists.mpr (hby f hf)) hsomeBlock fun x hx => by
      by_contra hne
      exact ((hhas x).mp (Option.isSome_iff_ne_none.mpr hne)).2 hx
  refine ⟨hregular, hchanged.visit hc hregular hmirrors href (fun v v' => forced_of_index) (fun g hg hname => ?_)
    (fun x hx => ?_) (.inl ?_) (by simp) (fun k hk => ?_) hsane.nodup fun x hx => ?_⟩
  · obtain ⟨f, hf, hname⟩ := List.mem_map.mp hname
    have hkey : namedKey { c with toStore := t } p f = fileKey (t.files g) := by
      unfold namedKey
      rw [(byName_eq_some (hregular.infos p.2)).mpr ⟨hg, hname.symm⟩]
      rfl
    rw [← hkey]
    exact List.mem_cons_of_mem _ (List.mem_append_left _ (List.mem_map_of_mem hf))
  · rcases List.mem_append.mp hx with hx | hx
    · obtain ⟨b, hb, rfl⟩ := List.mem_map.mp hx
      exact List.mem_append_left _ (List.mem_cons_of_mem _ (List.mem_append_right _
        (List.mem_map.mpr ⟨b, hb, rfl⟩)))
    · exact List.mem_append_right _ (List.mem_map_of_mem hx)
  · rw [← hchanged.infoKey]
    exact List.mem_cons_self ..
  · rcases List.mem_cons.mp hk with rfl | hk
    · rw [content_info hregular hshare]
      rfl
    · rcases List.mem_append.mp hk with hk | hk
      · obtain ⟨f, hf, rfl⟩ := List.mem_map.mp hk
        obtain ⟨g, hg⟩ := hby f hf
        have hkey : namedKey { c with toStore := t } p f = fileKey (t.files g) := by
          unfold namedKey
          rw [hg]
          rfl
        obtain ⟨record, -, hcontent⟩ := content_fileKey hregular hshare ((byName_eq_some (hregular.infos p.2)).mp hg).1
        rw [hkey]
        exact Option.isSome_iff_exists.mpr ⟨_, hcontent⟩
      · obtain ⟨b, hb, rfl⟩ := List.mem_map.mp hk
        rw [content_block, Option.isSome_map]
        exact hsomeBlock b hb
  · refine (hi.nested.erased x hx).resolve_right fun hmem => ?_
    obtain ⟨b, hb, rfl⟩ := List.mem_map.mp hmem
    exact hkept b hb hx

/-- **What the visit has met**: every file is in the model and can be written down, and every
block is there under the hash as it was announced. -/
theorem found_of_index {v v' : Visit} (hp : shareOf c d.folderId d.peerId = some p)
    (h : visitUpdateFolder threshold c d v = some v') :
    (∀ f ∈ d.files, ∃ g, c.byName p.2 f.name = some g ∧ (FileDb.asDb c.toStore (c.files g)).isSome = true) ∧
      ∀ b ∈ d.blocks, (c.byHash b.hash).isSome = true := by
  obtain ⟨hfolder, hfi⟩ := shareOf_eq_some.mp hp
  unfold visitUpdateFolder at h
  rw [hfolder, Option.bind_eq_bind, Option.bind_some, hfi, Option.bind_eq_bind, Option.bind_some] at h
  obtain ⟨db, hdb, h⟩ := Option.bind_eq_some_iff.mp h
  obtain ⟨_, hnested, -⟩ := Option.bind_eq_some_iff.mp h
  refine ⟨fun f hf => ?_, found_of_nested hnested⟩
  obtain ⟨-, hall⟩ := @exists_of_foldlM _ _ _ (fun _ => True) (fun _ _ _ _ _ => trivial) _ _ _ trivial hdb
  obtain ⟨_, _, -, hsave⟩ := hall f hf
  obtain ⟨g, hg, hsave⟩ := Option.bind_eq_some_iff.mp hsave
  obtain ⟨record, hrecord, -⟩ := Option.bind_eq_some_iff.mp hsave
  exact ⟨g, hg, by rw [hrecord]; rfl⟩

/-- The visit of a message that is not `Writable` meets a null pointer. -/
theorem writable_of_visit (hc : Regular c) (hp : shareOf c d.folderId d.peerId = some p) (hsane : IndexSane c p.2 d)
    (ht : UpdateFolder.apply c d = some t) {v v' : Visit}
    (h : visitUpdateFolder threshold { c with toStore := t } d v = some v') : Writable d := by
  obtain ⟨added, w, hadded, hi⟩ := indexed_of_apply hc hsane hp ht
  obtain ⟨hfiles, hblocks⟩ := found_of_index (p := p) (by rw [shareOf_of_elsewhere hi.elsewhere]; exact hp) h
  have hwf := hi.loop.wf.infos p.2
  have hascending : d.files.Pairwise fun f g => f.sequence < g.sequence := by
    refine hi.ascending_of_present hsane fun f hf => ?_
    obtain ⟨g, hg, -⟩ := hfiles f hf
    exact ⟨g, (byName_eq_some hwf).mp hg⟩
  refine ⟨fun b hb => ?_, hascending, fun f hf => ?_⟩
  · have hhas : t.HasBlock b.hash := hblocks b hb
    rw [hi.loop.blocks.hasBlock, hi.nested.hasBlock] at hhas
    rcases hhas.1 with hold | hnew
    · exact hc.digests _ hold
    · exact length_of_mem_strictHashes hadded _ hnew
  · obtain ⟨q, hq, rfl⟩ := mem_zip_of_mem hsane hf
    obtain ⟨g, hg, hsome⟩ := hfiles q.2 hf
    obtain ⟨g', hg', hcarries⟩ := hi.present hsane hascending hq
    have heq : t.byName p.2 q.2.name = some g' := (byName_eq_some hwf).mpr ⟨hg', hcarries.name⟩
    have heq' : t.byName p.2 q.2.name = some g := hg
    rw [heq] at heq'
    cases heq'
    exact (hi.asDb_iff hq hcarries).mp hsome

end Index

end Database

end SyncSpirit
