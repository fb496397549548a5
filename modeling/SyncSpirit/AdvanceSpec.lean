import SyncSpirit.AdvanceDiff
import SyncSpirit.Lib.Fallible

/-!
# What advancing a file does to the maps

- `Touches`: which files and folder infos an operation may change at all. An announced
  file touches the folder info of the peer and the objects in it (`touches_applyFile`);
- `SameId`: the operations on the blocks of a file do not change its keys;
- `advanceFile_spec`: an advanced file keeps its object and its uuid if it is known, and
  is the last one of its map afterwards. No other file is changed *if the uuid of a new
  file is free*.
-/

namespace SyncSpirit

namespace FileInfo

@[simp] theorem uuid_setSlots (f : FileInfo) (l : List (Option Slot)) : (f.setSlots l).uuid = f.uuid := by
  unfold setSlots
  split <;> rfl

@[simp] theorem name_setSlots (f : FileInfo) (l : List (Option Slot)) : (f.setSlots l).name = f.name := by
  unfold setSlots
  split <;> rfl

/-- What `fields_update` takes over. -/
theorem fieldsUpdate_keys {folderUuid uuid : Uuid} {source : Fields} {file : FileInfo}
    (h : fieldsUpdate folderUuid uuid source = some file) :
    file.uuid = uuid ∧ file.name = source.name := by
  unfold fieldsUpdate at h
  split at h
  · cases h
  · cases h
    exact ⟨rfl, rfl⟩

end FileInfo

namespace Store

/-! ## The keys of a file -/

/-- One file and the back references have been changed, but not how the file is found. -/
structure SameId (f : FileId) (s t : Store) : Prop extends SameBut f s t where
  uuid : (t.files f).uuid = (s.files f).uuid
  name : (t.files f).name = (s.files f).name

namespace SameId

variable {f : FileId} {s t u : Store}

theorem refl (f : FileId) (s : Store) : SameId f s s := ⟨SameBut.refl f s, rfl, rfl⟩

theorem trans (h : SameId f s t) (h' : SameId f t u) : SameId f s u :=
  ⟨h.toSameBut.trans h'.toSameBut, h'.uuid.trans h.uuid, h'.name.trans h.name⟩

theorem setFile {file : FileInfo} (huuid : file.uuid = (s.files f).uuid)
    (hname : file.name = (s.files f).name) : SameId f s (s.setFile f file) := by
  refine ⟨SameBut.setFile s f file, ?_, ?_⟩
  · rw [files_setFile, huuid]
  · rw [files_setFile, hname]

theorem assignBlock {b : BlockId} {i : Nat} (h : s.assignBlock f b i = some t) : SameId f s t := by
  have hfile := files_assignBlock h
  exact ⟨SameBut.assignBlock h, by simp [hfile], by simp [hfile]⟩

theorem markLocalAvailable {i : Nat} (h : s.markLocalAvailable f i = some t) : SameId f s t := by
  obtain ⟨b, a, -, hfile⟩ := files_markLocalAvailable h
  refine ⟨SameBut.markLocalAvailable h, ?_, ?_⟩
  · rw [hfile]
    exact FileInfo.uuid_setSlots _ _
  · rw [hfile]
    exact FileInfo.name_setSlots _ _

theorem removeSlots (s : Store) (f : FileId) : SameId f s (s.removeSlots f) := by
  have hfile := files_removeSlots s f
  refine ⟨SameBut.removeSlots s f, ?_, ?_⟩
  · rw [hfile, FileInfo.uuid_setSlots]
  · rw [hfile, FileInfo.name_setSlots]

theorem removeBlocks (s : Store) (f : FileId) : SameId f s (s.removeBlocks f) := by
  unfold Store.removeBlocks
  split
  · exact (removeSlots s f).trans (setFile rfl rfl)
  · exact refl f s

theorem markLocal (s : Store) (f : FileId) (value : Bool) : SameId f s (s.markLocal f value) := by
  cases value with
  | true => exact setFile rfl rfl
  | false => exact setFile rfl rfl

theorem prepareUpdate (s : Store) (f : FileId) (other : FileInfo) :
    SameId f s (s.prepareUpdate f other) := by
  have hcopied : SameId f s (s.setFile f ((s.files f).copyFields other)) := setFile rfl rfl
  have hremoved := hcopied.trans (removeBlocks _ f)
  unfold Store.prepareUpdate
  dsimp only
  split
  · refine hremoved.trans (SameId.trans ?_ (setFile (FileInfo.uuid_setSlots _ _)
      (FileInfo.name_setSlots _ _)))
    exact setFile rfl rfl
  · exact hremoved.trans (setFile rfl rfl)

theorem adoptBlocks {localHashes : List Bytes} {vs : List (Option Slot)} :
    ∀ {s t : Store} {i : Nat}, Store.adoptBlocks f localHashes s i vs = some t → SameId f s t := by
  induction vs with
  | nil =>
    rintro s t i ⟨⟩
    exact refl f s
  | cons v vs ih =>
    intro s t i h
    cases v with
    | none => exact ih h
    | some p =>
      obtain ⟨u, hu, h⟩ := Option.bind_eq_some_iff.mp h
      obtain ⟨w, hw, hu⟩ := Option.bind_eq_some_iff.mp hu
      have hassigned := assignBlock hw
      split at hu
      · exact (hassigned.trans (markLocalAvailable hu)).trans (ih h)
      · cases hu
        exact hassigned.trans (ih h)

theorem assignHashes {hashes : List Bytes} :
    ∀ {s t : Store} {i : Nat}, Store.assignHashes f s i hashes = some t → SameId f s t := by
  induction hashes with
  | nil =>
    rintro s t i ⟨⟩
    exact refl f s
  | cons hash hashes ih =>
    intro s t i h
    obtain ⟨b, -, h⟩ := Option.bind_eq_some_iff.mp h
    obtain ⟨u, hu, h⟩ := Option.bind_eq_some_iff.mp h
    exact (assignBlock hu).trans (ih h)

/-- **Update**: the uuid is that of the object, whatever the other one has. -/
theorem update {other : FileInfo} (h : s.update f other = some t) : SameId f s t := by
  unfold Store.update at h
  dsimp only at h
  split at h
  · obtain ⟨u, hu, h⟩ := Option.bind_eq_some_iff.mp h
    cases h
    exact ((prepareUpdate s f other).trans (adoptBlocks hu)).trans (setFile rfl rfl)
  · cases h

theorem advanceBlocks {bs : List Proto.BlockInfo} :
    ∀ {s t : Store} {i : Nat}, Advance.assignBlocks f s i bs = some t → SameId f s t := by
  induction bs with
  | nil =>
    rintro s t i ⟨⟩
    exact refl f s
  | cons b bs ih =>
    intro s t i h
    obtain ⟨hash, -, h⟩ := Option.bind_eq_some_iff.mp h
    obtain ⟨block, -, h⟩ := Option.bind_eq_some_iff.mp h
    obtain ⟨w, hw, h⟩ := Option.bind_eq_some_iff.mp h
    obtain ⟨u, hu, h⟩ := Option.bind_eq_some_iff.mp h
    exact ((assignBlock hw).trans (markLocalAvailable hu)).trans (ih h)

end SameId

/-! ## What an operation may touch -/

/-- The stores differ in one folder info and in the files of a set; only such files have
been added to the folder info. -/
structure Touches (fi : FolderInfoId) (F : Set FileId) (s t : Store) : Prop where
  infos : ∀ fi', fi' ≠ fi → t.infos fi' = s.infos fi'
  device : (t.infos fi).device = (s.infos fi).device
  listed : ∀ g ∈ (t.infos fi).files, g ∈ (s.infos fi).files ∨ g ∈ F
  files : ∀ g, g ∉ F → t.files g = s.files g

namespace Touches

variable {fi : FolderInfoId} {F : Set FileId} {s t u : Store} {f : FileId}

theorem refl (fi : FolderInfoId) (F : Set FileId) (s : Store) : Touches fi F s s :=
  ⟨fun _ _ => rfl, rfl, fun _ hg => .inl hg, fun _ _ => rfl⟩

theorem trans (h : Touches fi F s t) (h' : Touches fi F t u) : Touches fi F s u where
  infos fi' hfi := (h'.infos fi' hfi).trans (h.infos fi' hfi)
  device := h'.device.trans h.device
  listed g hg := by
    rcases h'.listed g hg with hg | hg
    · exact h.listed g hg
    · exact .inr hg
  files g hg := (h'.files g hg).trans (h.files g hg)

theorem of_sameBut (h : SameBut f s t) (hf : f ∈ F) : Touches fi F s t where
  infos fi' _ := by rw [h.infos]
  device := by rw [h.infos]
  listed g hg := .inl (h.infos ▸ hg)
  files g hg := h.files g fun heq => hg (heq ▸ hf)

theorem create (file : FileInfo) (hf : s.nextFile ∈ F) : Touches fi F s (s.create file) where
  infos _ _ := rfl
  device := rfl
  listed _ hg := .inl hg
  files g hg := by
    refine Function.update_of_ne ?_ _ _
    rintro rfl
    exact hg hf

/-- Other files and another maximum in the folder info. -/
theorem setInfo {info : FolderInfo} (hdevice : info.device = (s.infos fi).device)
    (hlisted : ∀ g ∈ info.files, g ∈ (s.infos fi).files ∨ g ∈ F) :
    Touches fi F s { s with infos := Function.update s.infos fi info } where
  infos fi' hfi := Function.update_of_ne hfi _ _
  device := by
    show (Function.update s.infos fi info fi).device = _
    rw [Function.update_self, hdevice]
  listed g hg := by
    have hg' : g ∈ (Function.update s.infos fi info fi).files := hg
    rw [Function.update_self] at hg'
    exact hlisted g hg'
  files _ _ := rfl

theorem remove (s : Store) (fi : FolderInfoId) (F : Set FileId) (f : FileId) :
    Touches fi F s (s.remove fi f) :=
  setInfo rfl fun _ hg => .inl (List.mem_filter.mp hg).1

theorem put (s : Store) (fi : FolderInfoId) (hf : f ∈ F) : Touches fi F s (s.put fi f) := by
  refine setInfo rfl fun g hg => ?_
  rcases mem_putOnce_thrice hg with hg | rfl
  · exact .inl hg
  · exact .inr hf

theorem addStrict (s : Store) (fi : FolderInfoId) (hf : f ∈ F) :
    Touches fi F s (s.addStrict fi f).2 := by
  unfold Store.addStrict
  dsimp only
  split
  · have hmax : Touches fi F s (s.setMaxSequence fi (s.files f).sequence) :=
      setInfo rfl fun _ hg => .inl hg
    exact hmax.trans (put _ fi hf)
  · exact refl fi F s

theorem addFile (s : Store) (fi : FolderInfoId) (hf : f ∈ F) :
    Touches fi F s (UpdateFolder.addFile fi s f) := by
  have hadded := addStrict s fi hf
  unfold UpdateFolder.addFile
  dsimp only
  split
  · exact hadded
  · exact hadded.trans (of_sameBut (SameBut.destroy _ f) hf)

end Touches

theorem nextFile_addFile (s : Store) (fi : FolderInfoId) (f : FileId) :
    (UpdateFolder.addFile fi s f).nextFile = s.nextFile := by
  have hadded : (s.addStrict fi f).2.nextFile = s.nextFile := by
    unfold addStrict
    dsimp only
    split <;> rfl
  unfold UpdateFolder.addFile
  dsimp only
  split
  · exact hadded
  · exact (SameBut.destroy _ f).nextFile.trans hadded

/-- **One announced file** touches the folder info of the peer, the objects in it and a new
object. -/
theorem touches_applyFile {fi : FolderInfoId} {s t : Store} {uuid : Uuid} {f : Proto.FileInfo}
    (h : UpdateFolder.applyFile fi s uuid f = some t) :
    Touches fi {g | g = s.nextFile ∨ g ∈ (s.infos fi).files} s t ∧ t.nextFile = s.nextFile + 1 := by
  obtain ⟨u, hu, h⟩ := Option.bind_eq_some_iff.mp h
  obtain ⟨file, -, hu⟩ := Option.bind_eq_some_iff.mp hu
  have hnew : s.nextFile ∈ {g | g = s.nextFile ∨ g ∈ (s.infos fi).files} := .inl rfl
  have hsame : SameBut s.nextFile (s.create file) u := by
    split at hu
    · obtain ⟨hashes, -, hu⟩ := Option.bind_eq_some_iff.mp hu
      exact (SameId.assignHashes hu).toSameBut
    · cases hu
      exact SameBut.refl _ _
  have hcreated : Touches fi {g | g = s.nextFile ∨ g ∈ (s.infos fi).files} s u :=
    (Touches.create file hnew).trans (Touches.of_sameBut hsame hnew)
  have hnext : u.nextFile = s.nextFile + 1 := hsame.nextFile
  split at h
  · rename_i prev hprev
    split at h
    · obtain ⟨w, hw, h⟩ := Option.bind_eq_some_iff.mp h
      cases h
      -- the previous file of the name is in the map
      have hold : prev ∈ (u.infos fi).files := List.mem_of_find?_eq_some hprev
      have hprev' : prev ∈ {g | g = s.nextFile ∨ g ∈ (s.infos fi).files} := by
        rw [hsame.infos] at hold
        exact .inr hold
      have hupdated := (SameId.update hw).toSameBut
      constructor
      · exact (((hcreated.trans (Touches.remove u fi _ prev)).trans
          (Touches.of_sameBut hupdated hprev')).trans
          (Touches.of_sameBut (SameBut.destroy w s.nextFile) hnew)).trans (Touches.addFile _ fi hprev')
      · rw [nextFile_addFile, (SameBut.destroy w s.nextFile).nextFile, hupdated.nextFile]
        exact hnext
    · split at h
      · cases h
        constructor
        · exact hcreated.trans (Touches.of_sameBut (SameBut.destroy u s.nextFile) hnew)
        · exact (SameBut.destroy u s.nextFile).nextFile.trans hnext
      · cases h
        exact ⟨hcreated.trans (Touches.addFile u fi hnew), (nextFile_addFile u fi _).trans hnext⟩
  · cases h
    exact ⟨hcreated.trans (Touches.addFile u fi hnew), (nextFile_addFile u fi _).trans hnext⟩

/-! ## Advancing a file -/

/-- The map of a folder info after one file has been advanced. -/
structure Placed (fi : FolderInfoId) (s : Store) (uuid : Uuid) (name : String) (t : Store)
    (g : FileId) : Prop where
  /-- A known file is the same object, a new one gets the uuid of the diff. -/
  origin : (g ∈ (s.infos fi).files ∧ (s.files g).name = name ∧
      (t.files g).uuid = (s.files g).uuid) ∨
    (g = s.nextFile ∧ s.byName fi name = none ∧ (t.files g).uuid = uuid)
  name : (t.files g).name = name
  sequence : (t.files g).sequence = (s.infos fi).maxSequence + 1
  apart : ∀ g' ∈ (s.infos fi).files, g' ≠ g → KeysDiffer (s.files g') (t.files g)
  infos : t.infos = Function.update s.infos fi { s.infos fi with
    files := (s.infos fi).files.filter (· ≠ g) ++ [g]
    maxSequence := (s.infos fi).maxSequence + 1 }
  files : ∀ g', g' ≠ g → g' ≠ s.nextFile → t.files g' = s.files g'
  nextFile : t.nextFile = s.nextFile + 1

/-- The map while the file is being advanced: it is not listed. -/
structure Targeted (fi : FolderInfoId) (s : Store) (file : FileInfo) (t : Store) (g : FileId) :
    Prop where
  origin : (g ∈ (s.infos fi).files ∧ (s.files g).name = file.name ∧
      (t.files g).uuid = (s.files g).uuid) ∨
    (g = s.nextFile ∧ s.byName fi file.name = none ∧ (t.files g).uuid = file.uuid)
  name : (t.files g).name = file.name
  infos : t.infos = Function.update s.infos fi { s.infos fi with
    files := (s.infos fi).files.filter (· ≠ g) }
  files : ∀ g', g' ≠ g → g' ≠ s.nextFile → t.files g' = s.files g'
  nextFile : t.nextFile = s.nextFile + 1

theorem targeted_of_target {fi : FolderInfoId} {s t : Store} {file : FileInfo} {g : FileId}
    (h : s.InfoWF fi) (ht : Advance.target fi s file = some (g, t)) : Targeted fi s file t g := by
  have hcreated : ∀ g', g' ≠ s.nextFile → (s.create file).files g' = s.files g' := fun g' hg =>
    Function.update_of_ne hg _ _
  have hnew : (s.create file).files s.nextFile = file := Function.update_self ..
  unfold Advance.target at ht
  split at ht
  · rename_i prev hprev
    obtain ⟨u, hu, heq⟩ := Option.map_eq_some_iff.mp ht
    obtain ⟨rfl, rfl⟩ := Prod.mk.inj heq
    obtain ⟨hmem, hname⟩ := (byName_eq_some h).mp hprev
    have hne : prev ≠ s.nextFile := Nat.ne_of_lt (h.allocated prev hmem)
    have hwf : (s.create file).InfoWF fi := h.of_eq rfl (Nat.le_succ _) fun g' hg' =>
      hcreated g' (Nat.ne_of_lt (h.allocated g' hg'))
    have hupdated := SameId.update hu
    have hdestroyed := SameBut.destroy u s.nextFile
    have hremoved : ((s.create file).remove fi prev).files = (s.create file).files := rfl
    refine ⟨.inl ⟨hmem, hname, ?_⟩, ?_, ?_, fun g' hg' hnot => ?_, ?_⟩
    · rw [hdestroyed.files prev hne, hupdated.uuid, hremoved, hcreated prev hne]
    · rw [hdestroyed.files prev hne, hupdated.name, hremoved, hcreated prev hne]
      exact hname
    · rw [hdestroyed.infos, hupdated.infos, files_remove hwf hmem]
      rfl
    · rw [hdestroyed.files g' hnot, hupdated.files g' hg', hremoved, hcreated g' hnot]
    · rw [hdestroyed.nextFile, hupdated.nextFile]
      rfl
  · rename_i hnone
    cases ht
    refine ⟨.inr ⟨rfl, hnone, ?_⟩, ?_, ?_, fun g' _ hnot => hcreated g' hnot, rfl⟩
    · rw [hnew]
    · rw [hnew]
    · -- nothing is to be taken out of the map
      have hfilter : (s.infos fi).files.filter (· ≠ s.nextFile) = (s.infos fi).files := by
        refine List.filter_eq_self.mpr fun g' hg' => ?_
        simpa using Nat.ne_of_lt (h.allocated g' hg')
      rw [hfilter]
      exact (Function.update_eq_self fi s.infos).symm

/-- **Advance**: the uuid of a new file must be free. -/
theorem advanceFile_spec {fi : FolderInfoId} {s t : Store} {uuid : Uuid} {f : Proto.FileInfo}
    (h : s.InfoWF fi)
    (hfree : s.byName fi f.name = none → ∀ g ∈ (s.infos fi).files, (s.files g).uuid ≠ uuid)
    (ht : Advance.advanceFile fi s uuid f = some t) : ∃ g, Placed fi s uuid f.name t g := by
  obtain ⟨file, hfile, ht⟩ := Option.bind_eq_some_iff.mp ht
  obtain ⟨⟨g, u⟩, hu, ht⟩ := Option.bind_eq_some_iff.mp ht
  obtain ⟨w, hw, ht⟩ := Option.bind_eq_some_iff.mp ht
  cases ht
  obtain ⟨huuid, hname⟩ := FileInfo.fieldsUpdate_keys hfile
  have hname' : file.name = f.name := hname
  have htarget := targeted_of_target h hu
  -- the blocks and the flags of the file do not change its keys
  have hlocal := (SameId.advanceBlocks hw).trans (SameId.markLocal w g true)
  have hinfos : (w.markLocal g true).infos = u.infos := hlocal.infos
  have hlisted : ((w.markLocal g true).infos fi).files = (s.infos fi).files.filter (· ≠ g) := by
    rw [hinfos, htarget.infos, Function.update_self]
  have hmax : ((w.markLocal g true).infos fi).maxSequence = (s.infos fi).maxSequence := by
    rw [hinfos, htarget.infos, Function.update_self]
  let v := (w.markLocal g true).setFile g { (w.markLocal g true).files g with
    sequence := ((w.markLocal g true).infos fi).maxSequence + 1 }
  have hv : SameId g (w.markLocal g true) v := SameId.setFile rfl rfl
  have hall := hlocal.trans hv
  have hseq : (v.files g).sequence = (s.infos fi).maxSequence + 1 := by
    show ((Store.setFile _ g _).files g).sequence = _
    rw [files_setFile, hmax]
  have hfiles : ∀ g', g' ≠ g → g' ≠ s.nextFile → v.files g' = s.files g' := fun g' hg hnot =>
    (hall.files g' hg).trans (htarget.files g' hg hnot)
  have hapart : ∀ g' ∈ (s.infos fi).files, g' ≠ g → KeysDiffer (s.files g') (v.files g) := by
    intro g' hg' hne
    have hbound := h.bound g' hg'
    refine ⟨?_, ?_, by omega⟩
    · rw [hall.uuid]
      rcases htarget.origin with ⟨hg, -, heq⟩ | ⟨-, hnone, heq⟩
      · rw [heq]
        exact (h.keys g' hg' g hg hne).1
      · rw [heq, huuid]
        exact hfree (hname' ▸ hnone) g' hg'
    · rw [hall.name, htarget.name]
      rcases htarget.origin with ⟨hg, heq, -⟩ | ⟨-, hnone, -⟩
      · rw [← heq]
        exact (h.keys g' hg' g hg hne).2.1
      · exact byName_eq_none.mp hnone g' hg'
  have hvinfos : v.infos = u.infos := hall.infos
  have hkeys : ∀ g' ∈ (v.infos fi).files, KeysDiffer (v.files g') (v.files g) := by
    intro g' hg'
    rw [show (v.infos fi).files = _ from hlisted] at hg'
    obtain ⟨hmem, hne⟩ := List.mem_filter.mp hg'
    have hne' : g' ≠ g := by simpa using hne
    rw [hfiles g' hne' (Nat.ne_of_lt (h.allocated g' hmem))]
    exact hapart g' hmem hne'
  have hlt : (v.infos fi).maxSequence < (v.files g).sequence := by
    rw [hseq, show (v.infos fi).maxSequence = _ from hmax]
    omega
  have hdone : Advance.finish fi w g = { v with infos := Function.update v.infos fi { v.infos fi with
      files := (v.infos fi).files ++ [g], maxSequence := (v.files g).sequence } } :=
    congrArg Prod.snd (addStrict_of_free hkeys hlt)
  rw [hdone]
  refine ⟨g, ⟨?_, ?_, hseq, hapart, ?_, hfiles, hall.nextFile.trans htarget.nextFile⟩⟩
  · rw [← hname', ← huuid]
    show _ ∨ (_ ∧ _ ∧ (v.files g).uuid = _)
    rw [hall.uuid]
    exact htarget.origin
  · show (v.files g).name = _
    rw [hall.name, htarget.name, hname']
  · show Function.update v.infos fi _ = _
    rw [hvinfos, htarget.infos, Function.update_idem, hseq, Function.update_self]

/-- The map is in order again. -/
theorem Placed.infoWF {fi : FolderInfoId} {s t : Store} {uuid : Uuid} {name : String} {g : FileId}
    (hp : Placed fi s uuid name t g) (h : s.InfoWF fi) : t.InfoWF fi := by
  have hlt : g < t.nextFile := by
    rw [hp.nextFile]
    rcases hp.origin with ⟨hg, -⟩ | ⟨rfl, -⟩
    · exact Nat.lt_succ_of_lt (h.allocated g hg)
    · exact Nat.lt_succ_self _
  have hinfo : t.infos fi = { s.infos fi with
      files := (s.infos fi).files.filter (· ≠ g) ++ [g]
      maxSequence := (s.infos fi).maxSequence + 1 } := by
    rw [hp.infos, Function.update_self]
  have hmem : ∀ g', g' ∈ (t.infos fi).files ↔ (g' ∈ (s.infos fi).files ∧ g' ≠ g) ∨ g' = g := by
    intro g'
    rw [hinfo]
    simp
  have hold : ∀ g' ∈ (s.infos fi).files, g' ≠ g → t.files g' = s.files g' := fun g' hg' hne =>
    hp.files g' hne (Nat.ne_of_lt (h.allocated g' hg'))
  refine ⟨fun g' hg' => ?_, ?_, fun g₁ hg₁ g₂ hg₂ hne => ?_, fun g' hg' => ?_⟩
  · rcases (hmem g').mp hg' with ⟨hg', -⟩ | rfl
    · rw [hp.nextFile]
      exact Nat.lt_succ_of_lt (h.allocated g' hg')
    · exact hlt
  · rw [hinfo]
    refine List.nodup_append.mpr ⟨h.nodup.filter _, by simp, ?_⟩
    rintro a ha b hb rfl
    rw [List.mem_singleton.mp hb] at ha
    simp at ha
  · rcases (hmem g₁).mp hg₁ with ⟨hg₁, hne₁⟩ | rfl <;> rcases (hmem g₂).mp hg₂ with ⟨hg₂, hne₂⟩ | rfl
    · rw [hold g₁ hg₁ hne₁, hold g₂ hg₂ hne₂]
      exact h.keys g₁ hg₁ g₂ hg₂ hne
    · rw [hold g₁ hg₁ hne₁]
      exact hp.apart g₁ hg₁ hne₁
    · rw [hold g₂ hg₂ hne₂]
      obtain ⟨h₁, h₂, h₃⟩ := hp.apart g₂ hg₂ hne₂
      exact ⟨h₁.symm, h₂.symm, h₃.symm⟩
    · exact absurd rfl hne
  · rw [hinfo]
    rcases (hmem g').mp hg' with ⟨hg', hne⟩ | rfl
    · rw [hold g' hg' hne]
      have hbound := h.bound g' hg'
      show _ ≤ (s.infos fi).maxSequence + 1
      omega
    · exact Int.le_of_eq hp.sequence

theorem Placed.mem_infos {fi : FolderInfoId} {s t : Store} {uuid : Uuid} {name : String} {g : FileId}
    (hp : Placed fi s uuid name t g) (f : FileId) :
    f ∈ (t.infos fi).files ↔ (f ∈ (s.infos fi).files ∧ f ≠ g) ∨ f = g := by
  rw [hp.infos, Function.update_self]
  simp

/-- An advanced file touches its own map only. -/
theorem Placed.touches {fi : FolderInfoId} {s t : Store} {uuid : Uuid} {name : String} {g : FileId}
    (hp : Placed fi s uuid name t g) :
    Touches fi {f | f = s.nextFile ∨ f ∈ (s.infos fi).files} s t := by
  have hg : g = s.nextFile ∨ g ∈ (s.infos fi).files := by
    rcases hp.origin with ⟨hg, -⟩ | ⟨hg, -⟩
    · exact .inr hg
    · exact .inl hg
  refine ⟨fun fi' hfi => ?_, ?_, fun f hf => ?_, fun f hf => ?_⟩
  · rw [hp.infos, Function.update_of_ne hfi]
  · rw [hp.infos, Function.update_self]
  · rcases (hp.mem_infos f).mp hf with ⟨hf, -⟩ | rfl
    · exact .inl hf
    · exact .inr hg
  · refine hp.files f ?_ fun heq => hf (.inl heq)
    rintro rfl
    exact hf hg

/-! ## Diffs -/

/-- What `initialize` has asserted, and what it makes. -/
theorem initializeAdvance_eq_some {s : Store} {fi : FolderInfoId} {action : Advance.Action}
    {disable : Bool} {nextUuid unset : Uuid} {folderId : String} {peerId : Sha256}
    {source : Proto.FileInfo} {localName : String} {d : Advance.Diff}
    (h : Advance.initializeAdvance s fi action disable nextUuid unset folderId peerId source localName =
      some d) :
    ∃ hashes, UpdateFolder.strictHashes (Advance.neededBlocks source) = some hashes ∧
      d = {
        action := action
        folderId := folderId
        peerId := peerId
        protoSource := source
        protoLocal := { source with
          sequence := 0
          name := if localName = "" then source.name else localName }
        uuid := Advance.chooseUuid s (s.byName fi (if localName = "" then source.name else localName))
          disable nextUuid unset
        added := Advance.newBlocks s (Advance.neededBlocks source) hashes
        removed := (Advance.orphansOf s
          (s.byName fi (if localName = "" then source.name else localName)) disable).filter fun h =>
            ¬ (h ∈ hashes ∧ (s.byHash h).isSome) } := by
  unfold Advance.initializeAdvance at h
  dsimp only at h
  split at h
  · cases h
  · obtain ⟨hashes, hh, h⟩ := Option.bind_eq_some_iff.mp h
    split at h
    · cases h
    · cases h
      exact ⟨hashes, hh, rfl⟩

theorem asProto_name {s : Store} {file : FileInfo} {includeBlocks : Bool} {r : Proto.FileInfo}
    (h : s.asProto file includeBlocks = some r) : r.name = file.name := by
  unfold asProto at h
  cases hc : file.content with
  | file blocks =>
    rw [hc] at h
    obtain ⟨size, -, h⟩ := Option.bind_eq_some_iff.mp h
    obtain ⟨blockSize, -, h⟩ := Option.bind_eq_some_iff.mp h
    split at h
    · obtain ⟨bs, -, h⟩ := Option.bind_eq_some_iff.mp h
      cases h
      rfl
    · cases h
      rfl
  | nonFile target =>
    rw [hc] at h
    cases h
    rfl

/-- The block map may differ, but not the files. -/
structure SameMaps (s t : Store) : Prop where
  files : t.files = s.files
  infos : t.infos = s.infos
  nextFile : t.nextFile = s.nextFile

theorem SameMaps.trans {s t u : Store} (h : SameMaps s t) (h' : SameMaps t u) : SameMaps s u :=
  ⟨h'.files.trans h.files, h'.infos.trans h.infos, h'.nextFile.trans h.nextFile⟩

theorem SameMaps.addBlock {s t : Store} {b : Proto.BlockInfo} (h : s.addBlock b = some t) :
    SameMaps s t := by
  obtain ⟨hash, -, h⟩ := Option.bind_eq_some_iff.mp h
  split at h
  · cases h
    exact ⟨rfl, rfl, rfl⟩
  · cases h
    exact ⟨rfl, rfl, rfl⟩

theorem SameMaps.eraseBlock {s t : Store} {hash : Bytes} (h : s.eraseBlock hash = some t) :
    SameMaps s t := by
  obtain ⟨b, -, h⟩ := Option.bind_eq_some_iff.mp h
  cases h
  exact ⟨rfl, rfl, rfl⟩

theorem SameMaps.foldlM {α : Type} {step : Store → α → Option Store}
    (hstep : ∀ s a t, step s a = some t → SameMaps s t) :
    ∀ {l : List α} {s t : Store}, l.foldlM step s = some t → SameMaps s t := by
  intro l
  induction l with
  | nil =>
    rintro s t ⟨⟩
    exact ⟨rfl, rfl, rfl⟩
  | cons a l ih =>
    intro s t h
    obtain ⟨u, hu, h⟩ := Option.bind_eq_some_iff.mp h
    exact (hstep s a u hu).trans (ih h)

/-- The nested `add_blocks_t` and `remove_blocks_t`. -/
theorem SameMaps.blocks {s t u : Store} {added : List Proto.BlockInfo} {removed : List Bytes}
    (ht : added.foldlM Store.addBlock s = some t) (hu : removed.foldlM Store.eraseBlock t = some u) :
    SameMaps s u :=
  (SameMaps.foldlM (fun _ _ _ h => .addBlock h) ht).trans
    (SameMaps.foldlM (fun _ _ _ h => .eraseBlock h) hu)

theorem SameMaps.byName {s t : Store} (h : SameMaps s t) (fi : FolderInfoId) (name : String) :
    t.byName fi name = s.byName fi name := by
  simp only [Store.byName, h.files, h.infos]

theorem SameMaps.infoWF {s t : Store} (h : SameMaps s t) {fi : FolderInfoId} (hwf : s.InfoWF fi) :
    t.InfoWF fi :=
  hwf.of_eq (by rw [h.infos]) (Nat.le_of_eq h.nextFile.symm) fun f _ => by rw [h.files]

theorem SameMaps.placed {s s' t : Store} (h : SameMaps s s') {fi : FolderInfoId} {uuid : Uuid}
    {name : String} {g : FileId} (hp : Placed fi s' uuid name t g) : Placed fi s uuid name t g := by
  obtain ⟨horigin, hname, hseq, hapart, hinfos, hfiles, hnext⟩ := hp
  rw [h.byName] at horigin
  rw [h.files, h.infos, h.nextFile] at *
  exact ⟨horigin, hname, hseq, hapart, hinfos, hfiles, hnext⟩

/-- **An `advance_t`**, with its nested diffs. -/
theorem applyImpl_spec {fi : FolderInfoId} {s t : Store} {d : Advance.Diff} (h : s.InfoWF fi)
    (hfree : s.byName fi d.protoLocal.name = none →
      ∀ g ∈ (s.infos fi).files, (s.files g).uuid ≠ d.uuid)
    (ht : d.applyImpl fi s = some t) : ∃ g, Placed fi s d.uuid d.protoLocal.name t g := by
  obtain ⟨u, hu, ht⟩ := Option.bind_eq_some_iff.mp ht
  obtain ⟨w, hw, ht⟩ := Option.bind_eq_some_iff.mp ht
  have hsame := SameMaps.blocks hu hw
  obtain ⟨g, hg⟩ := advanceFile_spec (hsame.infoWF h) (by
    rw [hsame.byName, hsame.files, hsame.infos]
    exact hfree) ht
  exact ⟨g, hsame.placed hg⟩

end Store

end SyncSpirit
