import SyncSpirit.UpdateFolder
import Mathlib

/-!
# What an index message does

One file after another: `instantiate_spec` is about the new object, `applyFile_spec`
about one round of the loop, and `applyFiles_spec` about the whole of it.
-/

namespace SyncSpirit

namespace UpdateFolder

open Store

/-! ## The new object -/

/-- The file gets its blocks: it is a regular one, it is not deleted and a size is
announced. -/
def Assigned (f : Proto.FileInfo) : Prop := asFlags f.type = .file ∧ f.deleted = false ∧ f.size ≠ 0

instance (f : Proto.FileInfo) : Decidable (Assigned f) :=
  inferInstanceAs (Decidable (asFlags f.type = .file ∧ f.deleted = false ∧ f.size ≠ 0))

/-- The blocks the slots of an announced file point to. -/
def blocksOf (s : Store) (f : Proto.FileInfo) : List (Option BlockId) :=
  if Assigned f then f.blocks.map fun b => (makeStrictHash b.hash).bind s.byHash
  else if asFlags f.type = .file ∧ f.size ≠ 0 then List.replicate f.blocks.length none
  else []

/-- The file is as it has been announced. -/
structure Carries (s : Store) (uuid : Uuid) (f : Proto.FileInfo) (file : FileInfo) : Prop where
  name : file.name = f.name
  uuid : file.uuid = uuid
  sequence : file.sequence = f.sequence
  version : file.version = Version.ofProto f.version
  type : file.type = asFlags f.type
  deleted : file.deleted = f.deleted
  invalid : file.invalid = f.invalid
  noPermissions : file.noPermissions = f.noPermissions
  targets : file.targets = blocksOf s f

/-- The object `fields_update` makes. -/
theorem fieldsUpdate_spec {s : Store} {fi : FolderInfoId} {uuid : Uuid} {f : Proto.FileInfo}
    (hnamed : f.name ≠ "") (hcount : f.version.counters ≠ []) :
    ∃ file n, FileInfo.fieldsUpdate (s.infos fi).uuid uuid f.fields = some file ∧ file.Coherent ∧
      file.slots = List.replicate n none ∧
      (asFlags f.type = .file → f.size ≠ 0 → n = f.blocks.length) ∧
      (¬ (asFlags f.type = .file ∧ f.size ≠ 0) → n = 0) ∧
      ((file.name = f.name ∧ file.uuid = uuid ∧ file.sequence = f.sequence ∧
        file.version = Version.ofProto f.version) ∧ file.type = asFlags f.type ∧
        file.deleted = f.deleted ∧ file.invalid = f.invalid ∧ file.noPermissions = f.noPermissions) := by
  have hcount' : ¬ (f.fields.name = "" ∨ f.fields.version.counters = []) :=
    not_or.mpr ⟨hnamed, hcount⟩
  unfold FileInfo.fieldsUpdate
  rw [if_neg hcount']
  cases htype : asFlags f.fields.type with
  | file =>
    have htype' : asFlags f.type = .file := htype
    refine ⟨_, if f.size ≠ 0 then f.blocks.length else 0, rfl,
      ⟨fun _ => ⟨_, rfl⟩, fun _ => rfl⟩, rfl, fun _ hs => if_pos hs, fun h => ?_,
      ⟨rfl, rfl, rfl, rfl⟩, htype'.symm, rfl, rfl, rfl⟩
    exact if_neg fun hs => h ⟨htype', hs⟩
  | dir =>
    have htype' : asFlags f.type = .dir := htype
    refine ⟨_, 0, rfl, ?_, rfl, fun h => ?_, fun _ => rfl,
      ⟨rfl, rfl, rfl, rfl⟩, htype'.symm, rfl, rfl, rfl⟩
    · refine ⟨fun h => absurd h (by simp [FileInfo.isFile]), ?_⟩
      rintro ⟨_, h⟩
      cases h
    · rw [htype'] at h
      cases h
  | link =>
    have htype' : asFlags f.type = .link := htype
    refine ⟨_, 0, rfl, ?_, rfl, fun h => ?_, fun _ => rfl,
      ⟨rfl, rfl, rfl, rfl⟩, htype'.symm, rfl, rfl, rfl⟩
    · refine ⟨fun h => absurd h (by simp [FileInfo.isFile]), ?_⟩
      rintro ⟨_, h⟩
      cases h
    · rw [htype'] at h
      cases h

theorem strictHashes_cons {b : Proto.BlockInfo} {bs : List Proto.BlockInfo} {hashes : List Bytes} :
    strictHashes (b :: bs) = some hashes ↔ ∃ hash hs, makeStrictHash b.hash = some hash ∧
      strictHashes bs = some hs ∧ hashes = hash :: hs := by
  simp only [strictHashes, List.mapM_cons, Option.bind_eq_bind, Option.pure_def,
    Option.bind_eq_some_iff, Option.some.injEq]
  constructor
  · rintro ⟨hash, hhash, hs, hhs, rfl⟩
    exact ⟨hash, hs, hhash, hhs, rfl⟩
  · rintro ⟨hash, hs, hhash, hhs, rfl⟩
    exact ⟨hash, hhash, hs, hhs, rfl⟩

/-- What the loops of the source find, with the hashes already made strict. -/
theorem targets_of_strictHashes {s : Store} {f : Proto.FileInfo} {hashes : List Bytes}
    (hhash : strictHashes f.blocks = some hashes) :
    f.blocks.map (fun b => (makeStrictHash b.hash).bind s.byHash) = hashes.map s.byHash := by
  have hgen : ∀ (bs : List Proto.BlockInfo) (hs : List Bytes), strictHashes bs = some hs →
      bs.map (fun b => (makeStrictHash b.hash).bind s.byHash) = hs.map s.byHash := by
    intro bs
    induction bs with
    | nil =>
      intro hs h
      cases h
      rfl
    | cons b bs ih =>
      intro hs h
      obtain ⟨hb, hs', hhb, hs'', rfl⟩ := strictHashes_cons.mp h
      rw [List.map_cons, List.map_cons, ih hs' hs'', hhb]
      rfl
  exact hgen _ _ hhash

/-- The store with the new object: nothing else has changed, and the object is in no
map yet. -/
structure Instantiated (s : Store) (uuid : Uuid) (f : Proto.FileInfo) (t : Store) : Prop where
  wf : t.WF
  blocks : SameBlocks s t
  nextFile : t.nextFile = s.nextFile + 1
  infos : t.infos = s.infos
  files : ∀ g, g ≠ s.nextFile → t.files g = s.files g
  carries : Carries s uuid f (t.files s.nextFile)

theorem instantiate_spec {s : Store} (hwf : s.WF) {fi : FolderInfoId} {uuid : Uuid}
    {f : Proto.FileInfo} (hnamed : f.name ≠ "") (hcount : f.version.counters ≠ [])
    {hashes : List Bytes}
    (hhash : strictHashes f.blocks = some hashes)
    (hknown : ∀ hash ∈ hashes, (s.byHash hash).isSome = true) :
    ∃ t, instantiate s fi uuid f = some t ∧ Instantiated s uuid f t := by
  obtain ⟨file, n, hfile, hc, hslots, hn, hn', ⟨hname, huuid, hseq, hversion⟩, htype, hdel, hinv,
    hperm⟩ := @fieldsUpdate_spec s fi uuid f hnamed hcount
  have hwf' : (s.create file).WF := hwf.create hc hslots
  have hnew : (s.create file).files s.nextFile = file := Function.update_self ..
  have hisFile : file.isFile = true ↔ asFlags f.type = .file := by
    simp only [FileInfo.isFile, htype, decide_eq_true_eq]
  have hlen : hashes.length = f.blocks.length := by
    have := congrArg List.length (@targets_of_strictHashes s f hashes hhash)
    simpa using this.symm
  have hcreate : ∀ g, g ≠ s.nextFile → (s.create file).files g = s.files g := fun g hg =>
    Function.update_of_ne hg _ _
  by_cases hassigned : Assigned f
  · obtain ⟨hf, hdeleted, hsize⟩ := id hassigned
    obtain ⟨t, ht, hsame, hfile'⟩ := @assignHashes_spec s.nextFile hashes (s.create file) []
      (by rw [hnew]; exact hisFile.mpr hf)
      (by rw [hnew, hslots, hn hf hsize, hlen]; rfl) hknown
    obtain ⟨blocks, hcontent⟩ := hc.mp (hisFile.mpr hf)
    rw [hnew, List.nil_append] at hfile'
    refine ⟨t, ?_, ?_, ?_, hsame.nextFile, hsame.infos, fun g hg => ?_, ?_⟩
    · unfold instantiate
      rw [hfile, Option.bind_eq_bind, Option.bind_some,
        if_pos ⟨hisFile.mpr hf, hdel.trans hdeleted, hsize⟩, hhash]
      exact ht
    · refine hwf'.of_sameBut hsame hwf.unlisted_nextFile (Nat.lt_succ_self _)
        (linked_assignHashes hwf'.linked ht) ?_
      rw [hfile']
      exact hc.setSlots _
    · exact ⟨hsame.hash, hsame.size, hsame.blockMap, hsame.nextBlock⟩
    · rw [hsame.files g hg, hcreate g hg]
    · rw [hfile']
      have htargets : (file.setSlots (hashes.map fun hash =>
          ((s.create file).byHash hash).map fun b => (b, false))).targets = blocksOf s f := by
        rw [blocksOf, if_pos hassigned, targets_of_strictHashes hhash, FileInfo.targets,
          FileInfo.slots_setSlots hcontent, List.map_map]
        refine List.map_congr_left fun hash _ => ?_
        show (((s.byHash hash).map fun b => (b, false)).map Prod.fst) = _
        cases s.byHash hash <;> rfl
      rw [FileInfo.setSlots_eq] at htargets ⊢
      exact ⟨hname, huuid, hseq, hversion, htype, hdel, hinv, hperm, htargets⟩
  · refine ⟨s.create file, ?_, hwf', ⟨fun _ => rfl, fun _ => rfl, rfl, rfl⟩, rfl, rfl, hcreate, ?_⟩
    · unfold instantiate
      have hnot : ¬ (file.isFile = true ∧ file.deleted = false ∧ f.size ≠ 0) := by
        rintro ⟨h₁, h₂, h₃⟩
        exact hassigned ⟨hisFile.mp h₁, hdel ▸ h₂, h₃⟩
      rw [hfile, Option.bind_eq_bind, Option.bind_some, if_neg hnot]
      rfl
    · rw [hnew]
      refine ⟨hname, huuid, hseq, hversion, htype, hdel, hinv, hperm, ?_⟩
      rw [blocksOf, if_neg hassigned, FileInfo.targets, hslots, List.map_replicate]
      split
      · rename_i h
        rw [hn h.1 h.2]
        rfl
      · rename_i h
        rw [hn' h]
        rfl

/-! ## One round of the loop -/

/-- The files of other names. -/
def rest (s : Store) (fi : FolderInfoId) (name : String) : List FileId :=
  (s.infos fi).files.filter fun g => (s.files g).name ≠ name

/-- The end of a round. The files that have been in the map, `listed`, stay there; the
new one is added only if its sequence is the largest. -/
structure Added (fi : FolderInfoId) (s : Store) (f : FileId) (t : Store) : Prop where
  wf : t.WF
  blocks : SameBlocks s t
  others : ∀ fi', fi' ≠ fi → t.infos fi' = s.infos fi'
  files : ∀ g, g ≠ f → t.files g = s.files g
  added : (s.infos fi).maxSequence < (s.files f).sequence →
    (t.infos fi).files = (s.infos fi).files ++ [f] ∧ t.files f = s.files f ∧
      (t.infos fi).maxSequence = (s.files f).sequence
  dropped : (s.files f).sequence ≤ (s.infos fi).maxSequence →
    (t.infos fi).files = (s.infos fi).files ∧
      (t.infos fi).maxSequence = (s.infos fi).maxSequence

theorem addFile_spec {s : Store} (hwf : s.WF) {fi : FolderInfoId} {f : FileId}
    (hfree : ∀ g ∈ (s.infos fi).files, (s.files g).uuid ≠ (s.files f).uuid ∧
      (s.files g).name ≠ (s.files f).name)
    (hun : s.Unlisted f) (halloc : f < s.nextFile) : Added fi s f (addFile fi s f) := by
  by_cases hseq : (s.infos fi).maxSequence < (s.files f).sequence
  · obtain ⟨t, ht, htwf, rfl⟩ := addStrict_of_lt hwf hfree hun halloc hseq
    have heq : addFile fi s f = { s with infos := Function.update s.infos fi { s.infos fi with
        files := (s.infos fi).files ++ [f], maxSequence := (s.files f).sequence } } := by
      simp only [addFile, ht, if_true]
    rw [heq]
    refine ⟨htwf, ⟨fun _ => rfl, fun _ => rfl, rfl, rfl⟩, fun fi' hfi => Function.update_of_ne hfi _ _, fun _ _ => rfl,
      fun _ => ?_, fun h => absurd hseq (by omega)⟩
    simp
  · have heq : addFile fi s f = s.destroy f := by
      simp [addFile, addStrict_of_ge (Int.not_lt.mp hseq)]
    have hsame := SameBut.destroy s f
    rw [heq]
    refine ⟨hwf.destroy hun halloc, hsame.toSameBlocks, fun fi' _ => by rw [hsame.infos],
      hsame.files, fun h => absurd h hseq, fun _ => by rw [hsame.infos]; exact ⟨rfl, rfl⟩⟩

/-- One round: the previous file of that name leaves the map, and the new one enters it
if its sequence is the largest. -/
structure Applied (fi : FolderInfoId) (s : Store) (uuid : Uuid) (f : Proto.FileInfo) (t : Store) :
    Prop where
  wf : t.WF
  blocks : SameBlocks s t
  others : ∀ fi', fi' ≠ fi → t.infos fi' = s.infos fi'
  files : ∀ g ∈ rest s fi f.name, t.files g = s.files g
  added : (s.infos fi).maxSequence < f.sequence →
    (∃ g, (t.infos fi).files = rest s fi f.name ++ [g] ∧ Carries s uuid f (t.files g)) ∧
      (t.infos fi).maxSequence = f.sequence
  dropped : f.sequence ≤ (s.infos fi).maxSequence →
    (t.infos fi).files = rest s fi f.name ∧ (t.infos fi).maxSequence = (s.infos fi).maxSequence

theorem Carries.of_sameBlocks {s t : Store} (h : SameBlocks s t) {uuid : Uuid} {f : Proto.FileInfo}
    {file : FileInfo} (hc : Carries s uuid f file) : Carries t uuid f file := by
  have hbyHash : t.byHash = s.byHash := funext h.byHash
  refine { hc with targets := ?_ }
  rw [hc.targets, blocksOf, blocksOf, hbyHash]

/-- The updated file carries what the new object carried. -/
theorem Carries.update {s u t : Store} {uuid : Uuid} {f : Proto.FileInfo} {prev : FileId}
    {other : FileInfo} (hc : Carries s uuid f other) (hname : (u.files prev).name = f.name)
    (huuid : (u.files prev).uuid = uuid) (hup : Updated u prev other t) :
    Carries s uuid f (t.files prev) := by
  obtain ⟨c, a, hfile⟩ := hup.file
  have htargets : (t.files prev).targets = other.targets := by
    rw [FileInfo.targets, hup.slots, adopted, List.map_map]
    refine List.map_congr_left fun v _ => ?_
    cases v <;> rfl
  constructor
  · rw [hfile]
    exact hname
  · rw [hfile]
    exact huuid
  · rw [hfile]
    exact hc.sequence
  · rw [hfile]
    exact hc.version
  · rw [hfile]
    exact hc.type
  · rw [hfile]
    exact hc.deleted
  · rw [hfile]
    exact hc.invalid
  · rw [hfile]
    exact hc.noPermissions
  · rw [htargets]
    exact hc.targets

/-- There is something to assign. -/
theorem Carries.slots_none_iff {s : Store} {uuid : Uuid} {f : Proto.FileInfo} {file : FileInfo}
    (hc : Carries s uuid f file)
    (hknown : ∀ b ∈ f.blocks, ((makeStrictHash b.hash).bind s.byHash).isSome = true) :
    (∀ v ∈ file.slots, v = none) ↔ ¬ (Assigned f ∧ f.blocks ≠ []) := by
  have hmap : (∀ v ∈ file.slots, v = none) ↔ ∀ v ∈ blocksOf s f, v = none := by
    rw [← hc.targets, FileInfo.targets]
    simp
  rw [hmap, blocksOf]
  by_cases ha : Assigned f
  · rw [if_pos ha]
    cases hb : f.blocks with
    | nil => simp
    | cons b bs =>
      have hsome := hknown b (by rw [hb]; exact List.mem_cons_self ..)
      constructor
      · intro h
        rw [h _ (List.mem_map_of_mem (List.mem_cons_self ..))] at hsome
        cases hsome
      · exact fun h => absurd ⟨ha, List.cons_ne_nil b bs⟩ h
  · rw [if_neg ha]
    split <;> simp [ha]

theorem filter_ne_eq_rest {s : Store} {fi : FolderInfoId} (hwf : s.InfoWF fi) {name : String}
    {prev : FileId} (hprev : s.byName fi name = some prev) :
    (s.infos fi).files.filter (· ≠ prev) = rest s fi name := by
  obtain ⟨hmem, hname⟩ := (byName_eq_some hwf).mp hprev
  refine List.filter_congr fun g hg => ?_
  by_cases hgp : g = prev
  · simp [hgp, hname]
  · have hne := (hwf.keys g hg prev hmem hgp).2.1
    rw [hname] at hne
    simp [hgp, hne]

theorem rest_of_none {s : Store} {fi : FolderInfoId} {name : String}
    (hnone : s.byName fi name = none) : rest s fi name = (s.infos fi).files :=
  List.filter_eq_self.mpr fun g hg => by simpa using byName_eq_none.mp hnone g hg

namespace Instantiated

variable {s u : Store} {uuid : Uuid} {f : Proto.FileInfo}

theorem files_listed (h : Instantiated s uuid f u) (hwf : s.WF) {fi : FolderInfoId} {g : FileId}
    (hg : g ∈ (s.infos fi).files) : u.files g = s.files g :=
  h.files g (Nat.ne_of_lt ((hwf.infos fi).allocated g hg))

theorem unlisted (h : Instantiated s uuid f u) (hwf : s.WF) : u.Unlisted s.nextFile := by
  intro fi hf
  rw [h.infos] at hf
  exact hwf.unlisted_nextFile fi hf

/-- Nothing has changed for the search by name. -/
theorem byName (h : Instantiated s uuid f u) (hwf : s.WF) (fi : FolderInfoId) :
    u.byName fi (u.files s.nextFile).name = s.byName fi f.name := by
  unfold Store.byName
  rw [h.infos, h.carries.name]
  refine List.find?_congr fun g hg => ?_
  rw [h.files_listed hwf hg]

end Instantiated

/-- A round without a previous file. -/
theorem Applied.of_new {s u : Store} (hwf : s.WF) {fi : FolderInfoId} {uuid : Uuid}
    {f : Proto.FileInfo} (hu : Instantiated s uuid f u) (hnone : s.byName fi f.name = none)
    (hfresh : ∀ g ∈ (s.infos fi).files, (s.files g).uuid ≠ uuid) :
    Applied fi s uuid f (addFile fi u s.nextFile) := by
  have hfree : ∀ g ∈ (u.infos fi).files, (u.files g).uuid ≠ (u.files s.nextFile).uuid ∧
      (u.files g).name ≠ (u.files s.nextFile).name := by
    intro g hg
    rw [hu.infos] at hg
    rw [hu.files_listed hwf hg, hu.carries.uuid, hu.carries.name]
    exact ⟨hfresh g hg, byName_eq_none.mp hnone g hg⟩
  have hadd := addFile_spec hu.wf hfree (hu.unlisted hwf) (by rw [hu.nextFile]; exact Nat.lt_succ_self _)
  have hrest := rest_of_none hnone
  have hadded := hadd.added
  have hdropped := hadd.dropped
  rw [hu.infos, hu.carries.sequence] at hadded hdropped
  refine ⟨hadd.wf, hu.blocks.trans hadd.blocks, fun fi' hfi => ?_, fun g hg => ?_, fun hseq => ?_,
    fun hseq => ?_⟩
  · rw [hadd.others fi' hfi, hu.infos]
  · rw [hrest] at hg
    rw [hadd.files g (Nat.ne_of_lt ((hwf.infos fi).allocated g hg)), hu.files_listed hwf hg]
  · obtain ⟨hfiles, hfile, hmax⟩ := hadded hseq
    refine ⟨⟨s.nextFile, by rw [hfiles, hrest], ?_⟩, hmax⟩
    rw [hfile]
    exact hu.carries
  · rw [hrest]
    exact hdropped hseq

/-- A round with a previous file, which is updated and added anew. -/
theorem Applied.of_prev {s u v : Store} (hwf : s.WF) {fi : FolderInfoId} {uuid : Uuid}
    {f : Proto.FileInfo} (hu : Instantiated s uuid f u) {prev : FileId}
    (hprev : s.byName fi f.name = some prev) (huuid : (s.files prev).uuid = uuid)
    (hv : Updated (u.remove fi prev) prev (u.files s.nextFile) v) :
    Applied fi s uuid f (addFile fi (v.destroy s.nextFile) prev) := by
  obtain ⟨hmem, hname⟩ := (byName_eq_some (hwf.infos fi)).mp hprev
  have hmem' : prev ∈ (u.infos fi).files := by rw [hu.infos]; exact hmem
  have hlt : prev < s.nextFile := (hwf.infos fi).allocated prev hmem
  have hne : prev ≠ s.nextFile := Nat.ne_of_lt hlt
  obtain ⟨hrwf, hrun⟩ := hu.wf.remove hmem'
  have hremove := files_remove (hu.wf.infos fi) hmem'
  have hrfiles : ∀ g, (u.remove fi prev).files g = u.files g := fun g => by rw [hremove]
  have hrinfos : (u.remove fi prev).infos fi = { s.infos fi with files := rest s fi f.name } := by
    rw [hremove]
    simp only [Function.update_self]
    rw [hu.infos, filter_ne_eq_rest (hwf.infos fi) hprev]
  have hrnext : (u.remove fi prev).nextFile = s.nextFile + 1 := by
    rw [hremove]
    exact hu.nextFile
  -- the updated object
  have hvwf : v.WF := hrwf.of_sameBut hv.same hrun
    (by rw [hrnext]; exact Nat.lt_succ_of_lt hlt) hv.linked hv.coherent
  have hvcarries : Carries s uuid f (v.files prev) := hu.carries.update
    (by rw [hrfiles, hu.files_listed hwf hmem, hname])
    (by rw [hrfiles, hu.files_listed hwf hmem, huuid]) hv
  have hvinfos : ∀ fi', v.infos fi' = (u.remove fi prev).infos fi' := fun fi' => by rw [hv.same.infos]
  -- the new object goes
  have htmp : v.Unlisted s.nextFile := by
    intro fi' hf
    rw [hvinfos] at hf
    exact (hu.unlisted hwf).remove fi prev fi' hf
  have hd := SameBut.destroy v s.nextFile
  have hdwf : (v.destroy s.nextFile).WF := hvwf.destroy htmp
    (by rw [hv.same.nextFile, hrnext]; exact Nat.lt_succ_self _)
  have hdprev : (v.destroy s.nextFile).files prev = v.files prev := hd.files prev hne
  have hdinfos : (v.destroy s.nextFile).infos fi = { s.infos fi with files := rest s fi f.name } := by
    rw [hd.infos, hvinfos, hrinfos]
  have hdrest : ∀ g ∈ rest s fi f.name, (v.destroy s.nextFile).files g = s.files g ∧ g ≠ prev := by
    intro g hg
    obtain ⟨hg, hgname⟩ := List.mem_filter.mp hg
    have hgp : g ≠ prev := by
      rintro rfl
      simp [hname] at hgname
    rw [hd.files g (Nat.ne_of_lt ((hwf.infos fi).allocated g hg)), hv.same.files g hgp, hrfiles,
      hu.files_listed hwf hg]
    exact ⟨rfl, hgp⟩
  have hfree : ∀ g ∈ ((v.destroy s.nextFile).infos fi).files,
      ((v.destroy s.nextFile).files g).uuid ≠ ((v.destroy s.nextFile).files prev).uuid ∧
      ((v.destroy s.nextFile).files g).name ≠ ((v.destroy s.nextFile).files prev).name := by
    intro g hg
    rw [hdinfos] at hg
    obtain ⟨hfile, hgp⟩ := hdrest g hg
    have hkeys := (hwf.infos fi).keys g (List.mem_filter.mp hg).1 prev hmem hgp
    rw [hfile, hdprev, hvcarries.uuid, hvcarries.name, ← huuid, ← hname]
    exact ⟨hkeys.1, hkeys.2.1⟩
  have hdun : (v.destroy s.nextFile).Unlisted prev := by
    intro fi' hf
    rw [hd.infos, hvinfos] at hf
    exact hrun fi' hf
  have hadd := addFile_spec hdwf hfree hdun
    (by rw [hd.nextFile, hv.same.nextFile, hrnext]; exact Nat.lt_succ_of_lt hlt)
  have hadded := hadd.added
  have hdropped := hadd.dropped
  rw [hdinfos, hdprev, hvcarries.sequence] at hadded hdropped
  have hrblocks : SameBlocks u (u.remove fi prev) := by
    rw [hremove]
    exact ⟨fun _ => rfl, fun _ => rfl, rfl, rfl⟩
  refine ⟨hadd.wf, ((hu.blocks.trans hrblocks).trans (hv.same.toSameBlocks.trans
    hd.toSameBlocks)).trans hadd.blocks, fun fi' hfi => ?_, fun g hg => ?_, fun hseq => ?_,
    fun hseq => hdropped hseq⟩
  · rw [hadd.others fi' hfi, hd.infos, hvinfos, hremove, ← hu.infos]
    exact Function.update_of_ne hfi _ _
  · obtain ⟨hfile, hgp⟩ := hdrest g hg
    rw [hadd.files g hgp, hfile]
  · obtain ⟨hfiles, hfile, hmax⟩ := hadded hseq
    refine ⟨⟨prev, hfiles, ?_⟩, hmax⟩
    rw [hfile]
    exact hvcarries

/-- What a round relies on. `M` is the largest sequence before the message. -/
structure Ready (fi : FolderInfoId) (s : Store) (M : Int) (p : Uuid × Proto.FileInfo) : Prop where
  counters : p.2.version.counters ≠ []
  hashes : ∃ hashes, strictHashes p.2.blocks = some hashes
  known : ∀ b ∈ p.2.blocks, ((makeStrictHash b.hash).bind s.byHash).isSome = true
  sequence : M < p.2.sequence
  prev : ∀ prev, s.byName fi p.2.name = some prev →
    (s.files prev).sequence ≤ M ∧ (s.files prev).uuid = p.1
  fresh : s.byName fi p.2.name = none → ∀ g ∈ (s.infos fi).files, (s.files g).uuid ≠ p.1

/-- Blocks do not meet a directory or a link. -/
def KindKept (fi : FolderInfoId) (s : Store) (f : Proto.FileInfo) : Prop :=
  Assigned f → f.blocks ≠ [] → ∀ prev, s.byName fi f.name = some prev →
    (s.files prev).isFile = true

/-- The file can be brought into the folder info: it has a name, and its blocks do not meet
a directory or a link. -/
structure Applicable (fi : FolderInfoId) (s : Store) (f : Proto.FileInfo) : Prop where
  named : f.name ≠ ""
  kind : KindKept fi s f

theorem Ready.instantiate {fi : FolderInfoId} {s : Store} (hwf : s.WF) {M : Int}
    {p : Uuid × Proto.FileInfo} (h : Ready fi s M p) (hnamed : p.2.name ≠ "") :
    ∃ u, instantiate s fi p.1 p.2 = some u ∧ Instantiated s p.1 p.2 u := by
  obtain ⟨hashes, hhash⟩ := h.hashes
  refine instantiate_spec hwf hnamed h.counters hhash fun hash hmem => ?_
  have hmem' : s.byHash hash ∈ p.2.blocks.map fun b => (makeStrictHash b.hash).bind s.byHash := by
    rw [targets_of_strictHashes hhash]
    exact List.mem_map_of_mem hmem
  obtain ⟨b, hb, heq⟩ := List.mem_map.mp hmem'
  rw [← heq]
  exact h.known b hb

/-- **One round of the loop**, for an applicable file. -/
theorem applyFile_spec {fi : FolderInfoId} {s : Store} (hwf : s.WF) {M : Int}
    {p : Uuid × Proto.FileInfo} (h : Ready fi s M p) (happ : Applicable fi s p.2) :
    ∃ t, applyFile fi s p.1 p.2 = some t ∧ Applied fi s p.1 p.2 t := by
  obtain ⟨hnamed, hkind⟩ := happ
  obtain ⟨u, hu, hinst⟩ := h.instantiate hwf hnamed
  unfold applyFile
  dsimp only
  rw [hu, Option.bind_eq_bind, Option.bind_some, hinst.byName hwf]
  cases hprev : s.byName fi p.2.name with
  | none => exact ⟨_, rfl, Applied.of_new hwf hinst hprev (h.fresh hprev)⟩
  | some prev =>
    obtain ⟨hseq, huuid⟩ := h.prev prev hprev
    obtain ⟨hmem, hname⟩ := (byName_eq_some (hwf.infos fi)).mp hprev
    have hmem' : prev ∈ (u.infos fi).files := by rw [hinst.infos]; exact hmem
    have hrfiles : ∀ g, (u.remove fi prev).files g = u.files g := fun g => rfl
    have hfile : u.files prev = s.files prev := hinst.files_listed hwf hmem
    have hlt : (u.files prev).sequence < (u.files s.nextFile).sequence := by
      rw [hfile, hinst.carries.sequence]
      exact Int.lt_of_le_of_lt hseq h.sequence
    obtain ⟨v, hv, hup⟩ := @update_spec (u.remove fi prev) ((hinst.wf.remove hmem').1.linked) prev
      (by rw [hrfiles]; exact hinst.wf.coherent prev) (u.files s.nextFile) (hinst.wf.coherent _)
      (by rw [hrfiles, hfile, hname, hinst.carries.name])
      (.inl (by rw [hrfiles, hfile, huuid, hinst.carries.uuid]))
      (by
        rw [hrfiles, hfile, hinst.carries.slots_none_iff h.known]
        by_cases hassign : Assigned p.2 ∧ p.2.blocks ≠ []
        · exact .inl (hkind hassign.1 hassign.2 prev hprev)
        · exact .inr hassign)
    refine ⟨_, ?_, Applied.of_prev hwf hinst hprev huuid hup⟩
    dsimp only
    rw [if_pos hlt]
    simp only [hrfiles, hv]
    rfl

/-- A file without a name fails an assertion of the path cache. -/
theorem applyFile_of_unnamed {fi : FolderInfoId} {s : Store} {uuid : Uuid} {f : Proto.FileInfo}
    (hname : f.name = "") : applyFile fi s uuid f = none := by
  have hnone : FileInfo.fieldsUpdate (s.infos fi).uuid uuid f.fields = none := if_pos (.inl hname)
  unfold applyFile instantiate
  rw [hnone]
  rfl

/-- Blocks that meet a directory or a link fail an assertion. -/
theorem applyFile_of_kind {fi : FolderInfoId} {s : Store} (hwf : s.WF) {M : Int}
    {p : Uuid × Proto.FileInfo} (h : Ready fi s M p) (hnamed : p.2.name ≠ "")
    (hkind : ¬ KindKept fi s p.2) : applyFile fi s p.1 p.2 = none := by
  obtain ⟨u, hu, hinst⟩ := h.instantiate hwf hnamed
  obtain ⟨ha, hb, prev, hprev, hnot⟩ : Assigned p.2 ∧ p.2.blocks ≠ [] ∧ ∃ prev,
      s.byName fi p.2.name = some prev ∧ (s.files prev).isFile = false := by
    simpa [KindKept] using hkind
  obtain ⟨hmem, -⟩ := (byName_eq_some (hwf.infos fi)).mp hprev
  have hmem' : prev ∈ (u.infos fi).files := by rw [hinst.infos]; exact hmem
  have hfile : u.files prev = s.files prev := hinst.files_listed hwf hmem
  have hlt : (u.files prev).sequence < (u.files s.nextFile).sequence := by
    rw [hfile, hinst.carries.sequence]
    exact Int.lt_of_le_of_lt (h.prev prev hprev).1 h.sequence
  have hsome : ∃ v ∈ (u.files s.nextFile).slots, v ≠ none := by
    by_contra hall
    push Not at hall
    exact (hinst.carries.slots_none_iff h.known).mp hall ⟨ha, hb⟩
  have hnone : (u.remove fi prev).update prev (u.files s.nextFile) = none :=
    update_of_nonFile (hinst.wf.remove hmem').1.linked (hinst.wf.coherent prev) (hinst.wf.coherent _)
      (by
        show (u.files prev).isFile = false
        rw [hfile]
        exact hnot) hsome
  unfold applyFile
  dsimp only
  rw [hu, Option.bind_eq_bind, Option.bind_some, hinst.byName hwf, hprev]
  dsimp only
  rw [if_pos hlt]
  show (((u.remove fi prev).update prev (u.files s.nextFile)).bind _) = none
  rw [hnone]
  rfl

/-- What is not applicable fails an assertion. -/
theorem applyFile_of_not_applicable {fi : FolderInfoId} {s : Store} (hwf : s.WF) {M : Int}
    {p : Uuid × Proto.FileInfo} (h : Ready fi s M p) (happ : ¬ Applicable fi s p.2) :
    applyFile fi s p.1 p.2 = none := by
  by_cases hnamed : p.2.name = ""
  · exact applyFile_of_unnamed hnamed
  · exact applyFile_of_kind hwf h hnamed fun hkind => happ ⟨hnamed, hkind⟩

/-! ## The whole loop -/

/-- A round changes nothing for other names. -/
theorem Applied.mem_iff {fi : FolderInfoId} {s t : Store} {uuid : Uuid} {f : Proto.FileInfo}
    (h : Applied fi s uuid f t) {name : String} (hne : name ≠ f.name) {g : FileId} :
    (g ∈ (t.infos fi).files ∧ (t.files g).name = name) ↔
      (g ∈ (s.infos fi).files ∧ (s.files g).name = name) := by
  have hrest : ∀ g ∈ rest s fi f.name, g ∈ (s.infos fi).files ∧ (s.files g).name ≠ f.name :=
    fun g hg => by simpa [rest] using hg
  -- the files of the map, whether the new one has been added or not
  have hcases : ∀ g ∈ (t.infos fi).files, g ∈ rest s fi f.name ∨ (t.files g).name = f.name := by
    intro g hg
    by_cases hseq : (s.infos fi).maxSequence < f.sequence
    · obtain ⟨⟨g', hfiles, hcarries⟩, -⟩ := h.added hseq
      rw [hfiles] at hg
      rcases List.mem_append.mp hg with hg | hg
      · exact .inl hg
      · rw [List.mem_singleton.mp hg]
        exact .inr hcarries.name
    · rw [(h.dropped (Int.not_lt.mp hseq)).1] at hg
      exact .inl hg
  have hsub : ∀ g ∈ rest s fi f.name, g ∈ (t.infos fi).files := by
    intro g hg
    by_cases hseq : (s.infos fi).maxSequence < f.sequence
    · obtain ⟨⟨g', hfiles, -⟩, -⟩ := h.added hseq
      rw [hfiles]
      exact List.mem_append_left _ hg
    · rw [(h.dropped (Int.not_lt.mp hseq)).1]
      exact hg
  constructor
  · rintro ⟨hg, hname⟩
    rcases hcases g hg with hr | hf
    · exact ⟨(hrest g hr).1, by rw [← h.files g hr, hname]⟩
    · exact absurd (hname.symm.trans hf) hne
  · rintro ⟨hg, hname⟩
    have hr : g ∈ rest s fi f.name := by
      refine List.mem_filter.mpr ⟨hg, ?_⟩
      simpa [hname] using hne
    exact ⟨hsub g hr, by rw [h.files g hr, hname]⟩

theorem Applied.files_eq {fi : FolderInfoId} {s t : Store} {uuid : Uuid} {f : Proto.FileInfo}
    (h : Applied fi s uuid f t) {g : FileId} (hg : g ∈ (s.infos fi).files)
    (hne : (s.files g).name ≠ f.name) : t.files g = s.files g :=
  h.files g (List.mem_filter.mpr ⟨hg, by simpa using hne⟩)

theorem Applied.byName {fi : FolderInfoId} {s t : Store} (hwf : s.WF) {uuid : Uuid}
    {f : Proto.FileInfo} (h : Applied fi s uuid f t) {name : String} (hne : name ≠ f.name) :
    t.byName fi name = s.byName fi name := by
  refine Option.ext fun g => ?_
  show t.byName fi name = some g ↔ s.byName fi name = some g
  rw [byName_eq_some (h.wf.infos fi), byName_eq_some (hwf.infos fi)]
  exact h.mem_iff hne

/-- A file of another name is as ready as before. -/
theorem Ready.of_applied {fi : FolderInfoId} {s t : Store} (hwf : s.WF) {M : Int}
    {p q : Uuid × Proto.FileInfo} (h : Ready fi s M p) (happ : Applied fi s q.1 q.2 t)
    (hname : p.2.name ≠ q.2.name) (huuid : p.1 ≠ q.1) : Ready fi t M p where
  counters := h.counters
  hashes := h.hashes
  known b hb := by
    have hbyHash : t.byHash = s.byHash := funext happ.blocks.byHash
    rw [hbyHash]
    exact h.known b hb
  sequence := h.sequence
  prev g hg := by
    rw [happ.byName hwf hname] at hg
    obtain ⟨hmem, hgname⟩ := (byName_eq_some (hwf.infos fi)).mp hg
    rw [happ.files_eq hmem (by rw [hgname]; exact hname)]
    exact h.prev g hg
  fresh hnone g hg := by
    rw [happ.byName hwf hname] at hnone
    by_cases hseq : (s.infos fi).maxSequence < q.2.sequence
    · obtain ⟨⟨g', hfiles, hcarries⟩, -⟩ := happ.added hseq
      rw [hfiles] at hg
      rcases List.mem_append.mp hg with hg | hg
      · rw [happ.files g hg]
        exact h.fresh hnone g (List.mem_filter.mp hg).1
      · rw [List.mem_singleton.mp hg, hcarries.uuid]
        exact huuid.symm
    · rw [(happ.dropped (Int.not_lt.mp hseq)).1] at hg
      rw [happ.files g hg]
      exact h.fresh hnone g (List.mem_filter.mp hg).1

theorem kindKept_of_applied {fi : FolderInfoId} {s t : Store} (hwf : s.WF) {f : Proto.FileInfo}
    {q : Uuid × Proto.FileInfo} (happ : Applied fi s q.1 q.2 t) (hname : f.name ≠ q.2.name) :
    KindKept fi t f ↔ KindKept fi s f := by
  unfold KindKept
  rw [happ.byName hwf hname]
  have hfile : ∀ prev, s.byName fi f.name = some prev → t.files prev = s.files prev := by
    intro prev hprev
    obtain ⟨hmem, hpname⟩ := (byName_eq_some (hwf.infos fi)).mp hprev
    exact happ.files_eq hmem (by rw [hpname]; exact hname)
  constructor
  · intro h ha hb prev hprev
    rw [← hfile prev hprev]
    exact h ha hb prev hprev
  · intro h ha hb prev hprev
    rw [hfile prev hprev]
    exact h ha hb prev hprev

theorem applicable_of_applied {fi : FolderInfoId} {s t : Store} (hwf : s.WF) {f : Proto.FileInfo}
    {q : Uuid × Proto.FileInfo} (happ : Applied fi s q.1 q.2 t) (hname : f.name ≠ q.2.name) :
    Applicable fi t f ↔ Applicable fi s f := by
  have hkind := kindKept_of_applied hwf happ hname
  exact ⟨fun h => ⟨h.named, hkind.mp h.kind⟩, fun h => ⟨h.named, hkind.mpr h.kind⟩⟩

/-- Names and uuids of the message are distinct. -/
def Distinct (ps : List (Uuid × Proto.FileInfo)) : Prop :=
  ps.Pairwise fun p q => p.2.name ≠ q.2.name ∧ p.1 ≠ q.1

/-- The loop over the accepted files. -/
structure Run (fi : FolderInfoId) (s : Store) (ps : List (Uuid × Proto.FileInfo)) (t : Store) :
    Prop where
  wf : t.WF
  blocks : SameBlocks s t
  /-- a name that is not in the message -/
  others : ∀ name, (∀ p ∈ ps, p.2.name ≠ name) → ∀ g,
    (g ∈ (t.infos fi).files ∧ (t.files g).name = name) ↔
      (g ∈ (s.infos fi).files ∧ (s.files g).name = name)
  same : ∀ g ∈ (s.infos fi).files, (∀ p ∈ ps, p.2.name ≠ (s.files g).name) →
    t.files g = s.files g
  /-- a sequence larger than all before -/
  added : ∀ pre p post, ps = pre ++ p :: post → (s.infos fi).maxSequence < p.2.sequence →
    (∀ q ∈ pre, q.2.sequence < p.2.sequence) →
    ∃ g ∈ (t.infos fi).files, Carries s p.1 p.2 (t.files g)
  /-- any other sequence -/
  dropped : ∀ pre p post, ps = pre ++ p :: post →
    (∃ q ∈ pre, p.2.sequence ≤ q.2.sequence) ∨ p.2.sequence ≤ (s.infos fi).maxSequence →
    ∀ g ∈ (t.infos fi).files, (t.files g).name ≠ p.2.name
  maxSequence : (t.infos fi).maxSequence =
    ps.foldl (fun m p => max m p.2.sequence) (s.infos fi).maxSequence

theorem Applied.maxSequence {fi : FolderInfoId} {s t : Store} {uuid : Uuid} {f : Proto.FileInfo}
    (h : Applied fi s uuid f t) :
    (t.infos fi).maxSequence = max (s.infos fi).maxSequence f.sequence := by
  by_cases hseq : (s.infos fi).maxSequence < f.sequence
  · rw [(h.added hseq).2, max_eq_right (Int.le_of_lt hseq)]
  · rw [(h.dropped (Int.not_lt.mp hseq)).2, max_eq_left (Int.not_lt.mp hseq)]

theorem Run.nil {fi : FolderInfoId} {s : Store} (hwf : s.WF) : Run fi s [] s where
  wf := hwf
  blocks := SameBlocks.refl s
  others _ _ _ := Iff.rfl
  same _ _ _ := rfl
  added pre p post h := by simp at h
  dropped pre p post h := by simp at h
  maxSequence := rfl

/-- A round, and the rest of the loop after it. -/
theorem Run.cons {fi : FolderInfoId} {s t u : Store} {p : Uuid × Proto.FileInfo}
    {ps : List (Uuid × Proto.FileInfo)} (hdist : Distinct (p :: ps)) (happ : Applied fi s p.1 p.2 t)
    (hrun : Run fi t ps u) : Run fi s (p :: ps) u := by
  obtain ⟨hhead, -⟩ := List.pairwise_cons.mp hdist
  have hp : ∀ q ∈ ps, q.2.name ≠ p.2.name := fun q hq => (hhead q hq).1.symm
  refine ⟨hrun.wf, happ.blocks.trans hrun.blocks, ?_, ?_, ?_, ?_, ?_⟩
  · intro name hname g
    rw [hrun.others name (fun q hq => hname q (List.mem_cons_of_mem _ hq)) g]
    exact happ.mem_iff (hname p (List.mem_cons_self ..)).symm
  · intro g hg hname
    have hne := (hname p (List.mem_cons_self ..)).symm
    have hfile := happ.files_eq hg hne
    have hmem : g ∈ (t.infos fi).files := ((happ.mem_iff hne).mpr ⟨hg, rfl⟩).1
    rw [hrun.same g hmem, hfile]
    rw [hfile]
    exact fun q hq => hname q (List.mem_cons_of_mem _ hq)
  · intro pre q post heq hmax hpre
    cases pre with
    | nil =>
      obtain ⟨rfl, rfl⟩ := List.cons.inj heq
      obtain ⟨⟨g, hfiles, hcarries⟩, -⟩ := happ.added hmax
      have hmem : g ∈ (t.infos fi).files := by
        rw [hfiles]
        exact List.mem_append_right _ (List.mem_singleton_self g)
      have hname : ∀ q ∈ ps, q.2.name ≠ (t.files g).name := fun q hq => by
        rw [hcarries.name]
        exact hp q hq
      refine ⟨g, ((hrun.others _ hname g).mpr ⟨hmem, rfl⟩).1, ?_⟩
      rw [hrun.same g hmem hname]
      exact hcarries
    | cons p' pre =>
      obtain ⟨rfl, rfl⟩ := List.cons.inj heq
      have hmax' : (t.infos fi).maxSequence < q.2.sequence := by
        rw [happ.maxSequence]
        exact max_lt hmax (hpre p (List.mem_cons_self ..))
      obtain ⟨g, hg, hcarries⟩ := hrun.added pre q post rfl hmax' fun q' hq' =>
        hpre q' (List.mem_cons_of_mem _ hq')
      exact ⟨g, hg, hcarries.of_sameBlocks happ.blocks.symm⟩
  · intro pre q post heq hdrop
    cases pre with
    | nil =>
      obtain ⟨rfl, rfl⟩ := List.cons.inj heq
      have hseq : p.2.sequence ≤ (s.infos fi).maxSequence := by
        rcases hdrop with ⟨q, hq, -⟩ | hseq
        · cases hq
        · exact hseq
      intro g hg hname
      obtain ⟨hgt, hnamet⟩ := (hrun.others _ hp g).mp ⟨hg, hname⟩
      rw [(happ.dropped hseq).1] at hgt
      have hne : (s.files g).name ≠ p.2.name := by simpa using (List.mem_filter.mp hgt).2
      rw [happ.files g hgt] at hnamet
      exact hne hnamet
    | cons p' pre =>
      obtain ⟨rfl, rfl⟩ := List.cons.inj heq
      refine hrun.dropped pre q post rfl ?_
      rw [happ.maxSequence]
      rcases hdrop with ⟨q', hq', hle⟩ | hle
      · rcases List.mem_cons.mp hq' with rfl | hq'
        · exact .inr (hle.trans (le_max_right _ _))
        · exact .inl ⟨q', hq', hle⟩
      · exact .inr (hle.trans (le_max_left _ _))
  · rw [hrun.maxSequence, happ.maxSequence, List.foldl_cons]

/-- **The loop** over applicable files. -/
theorem applyFiles_spec {fi : FolderInfoId} {M : Int} {ps : List (Uuid × Proto.FileInfo)} :
    ∀ {s : Store}, s.WF → Distinct ps → (∀ p ∈ ps, Ready fi s M p) →
      (∀ p ∈ ps, Applicable fi s p.2) → ∃ t, applyFiles fi s ps = some t ∧ Run fi s ps t := by
  induction ps with
  | nil => exact fun hwf _ _ _ => ⟨_, rfl, Run.nil hwf⟩
  | cons p ps ih =>
    intro s hwf hdist hready hkind
    obtain ⟨hhead, htail⟩ := List.pairwise_cons.mp hdist
    obtain ⟨t, ht, happ⟩ := applyFile_spec hwf (hready p (List.mem_cons_self ..))
      (hkind p (List.mem_cons_self ..))
    obtain ⟨u, hu, hrun⟩ := ih happ.wf htail
      (fun q hq => (hready q (List.mem_cons_of_mem _ hq)).of_applied hwf happ (hhead q hq).1.symm
        (hhead q hq).2.symm)
      (fun q hq => (applicable_of_applied hwf happ (hhead q hq).1.symm).mpr
        (hkind q (List.mem_cons_of_mem _ hq)))
    refine ⟨u, ?_, Run.cons hdist happ hrun⟩
    rw [applyFiles, Option.bind_eq_bind, ht]
    exact hu

/-- Otherwise an assertion fails on the way. -/
theorem applyFiles_of_not_applicable {fi : FolderInfoId} {M : Int} {ps : List (Uuid × Proto.FileInfo)} :
    ∀ {s : Store}, s.WF → Distinct ps → (∀ p ∈ ps, Ready fi s M p) →
      (∃ p ∈ ps, ¬ Applicable fi s p.2) → applyFiles fi s ps = none := by
  induction ps with
  | nil =>
    rintro s - - - ⟨p, hp, -⟩
    cases hp
  | cons p ps ih =>
    rintro s hwf hdist hready ⟨q, hq, hkind⟩
    obtain ⟨hhead, htail⟩ := List.pairwise_cons.mp hdist
    rw [applyFiles, Option.bind_eq_bind]
    by_cases hpkind : Applicable fi s p.2
    · obtain ⟨t, ht, happ⟩ := applyFile_spec hwf (hready p (List.mem_cons_self ..)) hpkind
      have hq' : q ∈ ps := by
        rcases List.mem_cons.mp hq with rfl | hq'
        · exact absurd hpkind hkind
        · exact hq'
      rw [ht, Option.bind_some]
      refine ih happ.wf htail (fun r hr => (hready r (List.mem_cons_of_mem _ hr)).of_applied hwf happ
        (hhead r hr).1.symm (hhead r hr).2.symm) ⟨q, hq', ?_⟩
      rw [applicable_of_applied hwf happ (hhead q hq').1.symm]
      exact hkind
    · rw [applyFile_of_not_applicable hwf (hready p (List.mem_cons_self ..)) hpkind]
      rfl

end UpdateFolder

end SyncSpirit
