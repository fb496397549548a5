import SyncSpirit.AdvanceContent
import SyncSpirit.Database
import SyncSpirit.UpdateFolderRun

/-!
# What a diff leaves alone

For the database a diff of the model is as good as the list of the records it changes. Here is
what `advance_t` and `update_folder_t` keep of everything else: blocks keep their hashes and
sizes (`SameRecords`), a file stays in the folder info whose uuid is part of its key (`Homed`),
and a block that is neither added nor removed is found as before (`SameByHash`).
-/

namespace SyncSpirit

namespace Store

open Availability UpdateFolder

variable {s t u : Store} {fi : FolderInfoId}

/-! ## Blocks -/

/-- Blocks that exist keep their hashes and sizes. -/
structure SameRecords (s t : Store) : Prop extends SameHashes s t where
  size : ∀ b, b < s.nextBlock → (t.blocks b).size = (s.blocks b).size

theorem SameRecords.refl (s : Store) : SameRecords s s := ⟨⟨Nat.le_refl _, fun _ _ => rfl⟩, fun _ _ => rfl⟩

theorem SameRecords.trans (h : SameRecords s t) (h' : SameRecords t u) : SameRecords s u where
  toSameHashes := h.toSameHashes.trans h'.toSameHashes
  size b hb := (h'.size b (Nat.lt_of_lt_of_le hb h.next)).trans (h.size b hb)

theorem SameBlocks.sameRecords (h : SameBlocks s t) : SameRecords s t := ⟨h.sameHashes, fun b _ => h.size b⟩

/-- Blocks outside of the list are found as before. -/
def SameByHash (hashes : List Bytes) (s t : Store) : Prop := ∀ x, x ∉ hashes → t.byHash x = s.byHash x

/-- What the nested diffs do to the blocks. -/
structure Nested (added removed : List Bytes) (s t : Store) : Prop extends SameHeap s t, SameRecords s t where
  hasBlock : ∀ x, t.HasBlock x ↔ (s.HasBlock x ∨ x ∈ added) ∧ x ∉ removed
  byHash : SameByHash (added ++ removed) s t
  erased : ∀ x ∈ removed, s.HasBlock x ∨ x ∈ added

theorem addBlock_records (hs : Sound Set.univ s) {b : Proto.BlockInfo} (h : s.addBlock b = some t) :
    SameRecords s t ∧ ∀ hash, makeStrictHash b.hash = some hash → SameByHash [hash] s t := by
  obtain ⟨hash, hhash, h⟩ := Option.bind_eq_some_iff.mp h
  split at h
  · cases h
    exact ⟨SameRecords.refl s, fun _ _ _ _ => rfl⟩
  · cases h
    have hne : ∀ k, k < s.nextBlock → (s.pushBlock hash b.size).blocks k = s.blocks k := fun k hk =>
      Function.update_of_ne (Nat.ne_of_lt hk) _ _
    refine ⟨⟨⟨Nat.le_succ _, fun k hk => by rw [hne k hk]⟩, fun k hk => by rw [hne k hk]⟩, fun hash' hhash' x hx => ?_⟩
    rw [hhash] at hhash'
    cases hhash'
    rw [byHash_pushBlock hs.mapped, if_neg (fun heq => hx (by rw [heq]; exact List.mem_singleton_self _)),
      Option.or_none]

theorem eraseBlock_records {hash : Bytes} (h : s.eraseBlock hash = some t) :
    SameRecords s t ∧ SameByHash [hash] s t := by
  obtain ⟨b, -, h⟩ := Option.bind_eq_some_iff.mp h
  cases h
  refine ⟨⟨⟨Nat.le_refl _, fun _ _ => rfl⟩, fun _ _ => rfl⟩, fun x hx => ?_⟩
  show (s.blockMap.filter _).find? _ = s.blockMap.find? _
  rw [List.find?_filter]
  refine List.find?_congr fun k _ => ?_
  -- a block with this hash is not the removed one
  by_cases hk : (s.blocks k).hash = x
  · have hne : (s.blocks k).hash ≠ hash := by
      rw [hk]
      exact fun heq => hx (by rw [heq]; exact List.mem_singleton_self _)
    simp [hk ▸ hne, hk]
  · simp [hk]

theorem addBlocks_records {news : List Proto.BlockInfo} : ∀ {s : Store} {hashes : List Bytes},
    Sound Set.univ s → strictHashes news = some hashes → news.foldlM Store.addBlock s = some t →
      SameRecords s t ∧ SameByHash hashes s t := by
  induction news with
  | nil =>
    rintro s hashes - - ⟨⟩
    exact ⟨SameRecords.refl _, fun _ _ => rfl⟩
  | cons b news ih =>
    intro s hashes hs hh ht
    obtain ⟨hash, hashes', hhash, hnews, rfl⟩ := strictHashes_cons.mp hh
    obtain ⟨u, hu, ht⟩ := Option.bind_eq_some_iff.mp ht
    obtain ⟨u', hu', hheap, -⟩ := addBlock_has hs hhash
    rw [hu] at hu'
    cases hu'
    obtain ⟨hfirst, hby⟩ := addBlock_records hs hu
    obtain ⟨hrest, hby'⟩ := ih (hheap.sound hs) hnews ht
    refine ⟨hfirst.trans hrest, fun x hx => ?_⟩
    rw [List.mem_cons, not_or] at hx
    rw [hby' x hx.2, hby hash hhash x (by simpa using hx.1)]

theorem eraseBlocks_records {hashes : List Bytes} : ∀ {s : Store},
    hashes.foldlM Store.eraseBlock s = some t → SameRecords s t ∧ SameByHash hashes s t := by
  induction hashes with
  | nil =>
    rintro s ⟨⟩
    exact ⟨SameRecords.refl _, fun _ _ => rfl⟩
  | cons hash hashes ih =>
    intro s ht
    obtain ⟨u, hu, ht⟩ := Option.bind_eq_some_iff.mp ht
    obtain ⟨hfirst, hby⟩ := eraseBlock_records hu
    obtain ⟨hrest, hby'⟩ := ih ht
    refine ⟨hfirst.trans hrest, fun x hx => ?_⟩
    rw [List.mem_cons, not_or] at hx
    rw [hby' x hx.2, hby x (by simpa using hx.1)]

/-- **The nested diffs**, applied. -/
theorem nested_of_blocks (hs : Sound Set.univ s) {news : List Proto.BlockInfo} {added removed : List Bytes}
    (hadded : strictHashes news = some added) (hnodup : removed.Nodup) (hu : news.foldlM Store.addBlock s = some u)
    (ht : removed.foldlM Store.eraseBlock u = some t) : Nested added removed s t := by
  obtain ⟨u', hu', hheap, hhas⟩ := addBlocks_has hs hadded
  rw [hu] at hu'
  cases hu'
  obtain ⟨herase, hlast⟩ := eraseBlocks_iff hnodup (s := u)
  obtain ⟨hheap', hhas'⟩ := hlast t ht
  obtain ⟨hrecords, hby⟩ := addBlocks_records hs hadded hu
  obtain ⟨hrecords', hby'⟩ := eraseBlocks_records ht
  refine ⟨hheap.trans hheap', (hrecords.trans hrecords').size, fun x => ?_, fun x hx => ?_, fun x hx => ?_⟩
  · rw [hhas', hhas]
  · rw [List.mem_append, not_or] at hx
    rw [hby' x hx.2, hby x hx.1]
  · exact (hhas x).mp (herase.mp ⟨t, ht⟩ x hx)

theorem length_makeStrictHash {hash strict : Bytes} (h : makeStrictHash hash = some strict) :
    strict.length = digestLength := by
  unfold makeStrictHash at h
  split at h
  · rename_i hle
    cases h
    rw [List.length_append, List.length_replicate]
    omega
  · cases h

theorem length_of_mem_strictHashes {news : List Proto.BlockInfo} :
    ∀ {hashes : List Bytes}, strictHashes news = some hashes → ∀ x ∈ hashes, x.length = digestLength := by
  induction news with
  | nil =>
    rintro hashes ⟨⟩ x hx
    cases hx
  | cons b news ih =>
    intro hashes h x hx
    obtain ⟨hash, hashes', hhash, hnews, rfl⟩ := strictHashes_cons.mp h
    rcases List.mem_cons.mp hx with rfl | hx
    · exact length_makeStrictHash hhash
    · exact ih hnews x hx

/-! ## The folder info of a file -/

/-- The files of a folder info have its uuid in their keys. -/
def Homed (s : Store) (fi : FolderInfoId) : Prop :=
  ∀ f ∈ (s.infos fi).files, (s.files f).folderUuid = (s.infos fi).uuid

theorem steady_folderUuid : Steady FileInfo.folderUuid where
  slots file l := by
    unfold FileInfo.setSlots
    split <;> rfl
  flags _ _ _ _ _ := rfl

theorem Updated.folderUuid {f : FileId} {other : FileInfo} (h : Updated s f other t) :
    (t.files f).folderUuid = (s.files f).folderUuid := by
  obtain ⟨c, a, hfile⟩ := h.file
  rw [hfile]
  rfl

/-- `update` asserts that both files have the same name. -/
theorem name_of_update {f : FileId} {other : FileInfo} (h : s.update f other = some t) :
    (s.files f).name = other.name := by
  unfold Store.update at h
  dsimp only at h
  split at h
  · rename_i hassert
    exact hassert.1
  · cases h

theorem folderUuid_fieldsUpdate {folderUuid uuid : Uuid} {source : Fields} {file : FileInfo}
    (h : FileInfo.fieldsUpdate folderUuid uuid source = some file) : file.folderUuid = folderUuid := by
  unfold FileInfo.fieldsUpdate at h
  split at h
  · cases h
  · cases h
    rfl

/-- The object that is advanced. -/
theorem folderUuid_target {file : FileInfo} {g : FileId} (hs : Sound Set.univ s) (hwf : s.InfoWF fi) (h : s.Homed fi)
    (hfile : file.folderUuid = (s.infos fi).uuid) (hc : file.Coherent) {n : Nat}
    (hslots : file.slots = List.replicate n none)
    (ht : Advance.target fi s file = some (g, t)) : (t.files g).folderUuid = (s.infos fi).uuid := by
  unfold Advance.target at ht
  split at ht
  · rename_i prev hprev
    obtain ⟨u, hu, heq⟩ := Option.map_eq_some_iff.mp ht
    obtain ⟨rfl, rfl⟩ := Prod.mk.inj heq
    obtain ⟨hmem, -⟩ := (byName_eq_some hwf).mp hprev
    have hne : prev ≠ s.nextFile := Nat.ne_of_lt (hwf.allocated prev hmem)
    have hsound : Sound Set.univ ((s.create file).remove fi prev) := (hs.create hc hslots).remove fi prev
    have hup := updated_of_update hsound.linked (hsound.coherent prev) hc (name_of_update hu) hu
    rw [(SameBut.destroy u s.nextFile).files prev hne, hup.folderUuid]
    show (Function.update s.files s.nextFile file prev).folderUuid = _
    rw [Function.update_of_ne hne]
    exact h prev hmem
  · cases ht
    show (Function.update s.files s.nextFile file s.nextFile).folderUuid = _
    rw [Function.update_self, hfile]

/-- **An advanced file** is at home. -/
theorem folderUuid_advanceFile {uuid : Uuid} {f : Proto.FileInfo} {g : FileId} (hs : Sound Set.univ s)
    (hwf : s.InfoWF fi) (h : s.Homed fi) (ht : Advance.advanceFile fi s uuid f = some t)
    (hplaced : Placed fi s uuid f.name t g) : (t.files g).folderUuid = (s.infos fi).uuid := by
  obtain ⟨file, hfile, ht⟩ := Option.bind_eq_some_iff.mp ht
  obtain ⟨⟨g', u⟩, hu, ht⟩ := Option.bind_eq_some_iff.mp ht
  obtain ⟨w, hw, ht⟩ := Option.bind_eq_some_iff.mp ht
  cases ht
  obtain ⟨hc, n, hslots⟩ := fieldsUpdate_coherent hfile
  have hname : file.name = f.name := (FileInfo.fieldsUpdate_keys hfile).2
  have hg : g' = g := by
    rcases (targeted_of_target hwf hu).origin with ⟨hmem, hn, -⟩ | ⟨rfl, hnone, -⟩ <;>
      rcases hplaced.origin with ⟨hmem', hn', -⟩ | ⟨rfl, hnone', -⟩
    · by_contra hne
      exact (hwf.keys g' hmem g hmem' hne).2.1 (hn.trans (hname.trans hn'.symm))
    · exact absurd (hn.trans hname) (byName_eq_none.mp hnone' g' hmem)
    · exact absurd (hn'.trans hname.symm) (byName_eq_none.mp hnone g hmem')
    · rfl
  subst hg
  rw [steady_folderUuid.finish, steady_folderUuid.assignBlocks hw]
  exact folderUuid_target hs hwf h (folderUuid_fieldsUpdate hfile) hc hslots hu

/-! ## The loop of an index message -/

/-- What a round keeps, whatever the flags of the back references are. -/
structure Settles (fi : FolderInfoId) (s t : Store) : Prop where
  sound : Sound Set.univ t
  uuid : (t.infos fi).uuid = (s.infos fi).uuid
  homed : t.Homed fi

theorem Settles.trans (h : Settles fi s t) (h' : Settles fi t u) : Settles fi s u :=
  ⟨h'.sound, h'.uuid.trans h.uuid, h'.homed⟩

/-- The end of a round. -/
theorem settles_addFile {f : FileId} (hs : Sound Set.univ s) (hf : f < s.nextFile) (hun : f ∉ (s.infos fi).files)
    (h : s.Homed fi) (hfile : (s.files f).folderUuid = (s.infos fi).uuid) : Settles fi s (addFile fi s f) := by
  have huuid : ((addFile fi s f).infos fi).uuid = (s.infos fi).uuid := by
    unfold addFile addStrict
    dsimp only
    split
    · simp only [if_true, put, setMaxSequence, Function.update_self]
    · rw [if_neg Bool.false_ne_true, (SameBut.destroy s f).infos]
  refine ⟨?_, huuid, fun g hg => ?_⟩
  · unfold addFile addStrict
    dsimp only
    split
    · exact (hs.setMaxSequence fi _).put hf fi
    · exact (hs.destroy f).mono (Set.subset_univ _)
  · rw [huuid]
    rcases mem_addFile hg with hmem | ⟨rfl, hsame⟩
    · have hne : g ≠ f := by
        rintro rfl
        exact hun hmem
      rw [files_addFile hne]
      exact h g hmem
    · rw [hsame, hfile]

/-- The new object of a round. -/
theorem settles_instantiate {uuid : Uuid} {f : Proto.FileInfo} (hs : Sound Set.univ s) (h : s.Homed fi)
    (ht : instantiate s fi uuid f = some t) :
    Settles fi s t ∧ t.infos = s.infos ∧ t.nextFile = s.nextFile + 1 ∧ (∀ g, g ≠ s.nextFile → t.files g = s.files g) ∧
      (t.files s.nextFile).folderUuid = (s.infos fi).uuid ∧ (t.files s.nextFile).name = f.name := by
  obtain ⟨file, hfile, hname, -, ht⟩ := instantiate_eq_some ht
  obtain ⟨hc, n, hslots⟩ := fieldsUpdate_coherent hfile
  have hcreate := hs.create hc hslots
  have hnew : (s.create file).files s.nextFile = file := Function.update_self ..
  obtain ⟨⟨l, hl⟩, -⟩ := files_assignHashes ht
  obtain ⟨hmarked, hsame, -⟩ := Marked.assignHashes hcreate.toMarked (.inl (Set.mem_univ s.nextFile)) ht
  have hold : ∀ g, g ≠ s.nextFile → t.files g = s.files g := by
    intro g hg
    rw [hsame.files g hg]
    exact Function.update_of_ne hg _ _
  have hinfos : t.infos = s.infos := hsame.infos
  have hlast : t.files s.nextFile = file.setSlots l := by rw [hl, hnew]
  refine ⟨⟨hcreate.of_sameBut hsame (.inl (Nat.lt_succ_self _)) hmarked ?_, by rw [hinfos], fun g hg => ?_⟩, hinfos,
    hsame.nextFile, hold, ?_, ?_⟩
  · rw [hlast]
    exact hc.setSlots l
  · rw [hinfos] at hg ⊢
    rw [hold g (Nat.ne_of_lt (hs.listed fi g hg))]
    exact h g hg
  · rw [hlast, steady_folderUuid.slots]
    exact folderUuid_fieldsUpdate hfile
  · rw [hlast, FileInfo.setSlots_eq]
    exact hname

/-- **One round**. -/
theorem settles_applyFile {uuid : Uuid} {f : Proto.FileInfo} (hs : Sound Set.univ s) (h : s.Homed fi)
    (ht : applyFile fi s uuid f = some t) : Settles fi s t := by
  unfold applyFile at ht
  obtain ⟨u, hu, ht⟩ := Option.bind_eq_some_iff.mp ht
  obtain ⟨hset, hinfos, hnext, hold, hhome, -⟩ := settles_instantiate hs h hu
  have hlt : s.nextFile < u.nextFile := hnext ▸ Nat.lt_succ_self _
  have hunlisted : s.nextFile ∉ (u.infos fi).files := by
    rw [hinfos]
    exact fun hmem => Nat.lt_irrefl _ (hs.listed fi _ hmem)
  have hlast := settles_addFile hset.sound hlt hunlisted hset.homed (by rw [hinfos, hhome])
  cases hprev : u.byName fi (u.files s.nextFile).name with
  | none =>
    rw [hprev] at ht
    cases ht
    exact hset.trans hlast
  | some prev =>
    rw [hprev] at ht
    dsimp only at ht
    split at ht
    · -- the known file takes over
      obtain ⟨w, hw, ht⟩ := Option.bind_eq_some_iff.mp ht
      cases ht
      have hmem : prev ∈ (s.infos fi).files := hinfos ▸ List.mem_of_find?_eq_some hprev
      have hprevlt := hs.listed fi prev hmem
      have hne : prev ≠ s.nextFile := Nat.ne_of_lt hprevlt
      have hremoved := hset.sound.remove fi prev
      obtain ⟨hsound, hsame, -⟩ := hremoved.update (Nat.lt_trans hprevlt hlt) (hset.sound.coherent s.nextFile)
        (fun p hp => hset.sound.toMarked.lt_nextBlock hp) (.inl (Set.mem_univ prev)) hw
      have hup := updated_of_update hremoved.linked (hremoved.coherent prev) (hset.sound.coherent s.nextFile)
        (name_of_update hw) hw
      have hdestroyed := SameBut.destroy w s.nextFile
      have hmap : ((w.destroy s.nextFile).infos fi).files = ((u.remove fi prev).infos fi).files := by
        rw [hdestroyed.infos, hsame.infos]
      have huuid : ((w.destroy s.nextFile).infos fi).uuid = (u.infos fi).uuid := by
        rw [hdestroyed.infos, hsame.infos]
        simp [remove]
      have hprevfile : ((w.destroy s.nextFile).files prev).folderUuid = (u.infos fi).uuid := by
        rw [hdestroyed.files prev hne, hup.folderUuid]
        exact hset.homed prev (hinfos ▸ hmem)
      have hgone : ∀ g ∈ ((u.remove fi prev).infos fi).files, g ∈ (u.infos fi).files ∧ g ≠ prev := by
        intro g hg
        simp only [remove, Function.update_self] at hg
        obtain ⟨hg, hkeys⟩ := List.mem_filter.mp hg
        refine ⟨hg, ?_⟩
        rintro rfl
        simp at hkeys
      have hmiddle : Settles fi u (w.destroy s.nextFile) := by
        refine ⟨(hsound.destroy s.nextFile).mono (Set.subset_univ _), huuid, fun g hg => ?_⟩
        rw [hmap] at hg
        obtain ⟨hg, hgp⟩ := hgone g hg
        rw [huuid, hdestroyed.files g (fun heq => hunlisted (heq ▸ hg)), hsame.files g hgp]
        exact hset.homed g hg
      refine (hset.trans hmiddle).trans (settles_addFile hmiddle.sound ?_ (fun hmem => ?_) hmiddle.homed ?_)
      · rw [hdestroyed.nextFile, hsame.nextFile]
        exact Nat.lt_trans hprevlt hlt
      · rw [hmap] at hmem
        exact (hgone prev hmem).2 rfl
      · rw [hprevfile, huuid]
    · split at ht
      · cases ht
        refine hset.trans ⟨(hset.sound.destroy s.nextFile).mono (Set.subset_univ _), ?_, fun g hg => ?_⟩
        · rw [(SameBut.destroy u s.nextFile).infos]
        · rw [(SameBut.destroy u s.nextFile).infos] at hg ⊢
          rw [(SameBut.destroy u s.nextFile).files g (fun heq => hunlisted (heq ▸ hg))]
          exact hset.homed g hg
      · cases ht
        exact hset.trans hlast

/-- **The loop**. -/
theorem settles_applyFiles {ps : List (Uuid × Proto.FileInfo)} : ∀ {s : Store}, Sound Set.univ s → s.Homed fi →
    applyFiles fi s ps = some t → Settles fi s t := by
  induction ps with
  | nil =>
    rintro s hs h ⟨⟩
    exact ⟨hs, rfl, h⟩
  | cons p ps ih =>
    intro s hs h ht
    obtain ⟨u, hu, ht⟩ := Option.bind_eq_some_iff.mp ht
    have hround := settles_applyFile hs h hu
    exact hround.trans (ih hround.sound hround.homed ht)

end Store

end SyncSpirit
