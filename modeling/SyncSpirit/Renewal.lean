import SyncSpirit.AdvanceSpec

/-!
# What an index message changes, whatever it announces

`UpdateFolderSpec` follows a message that `create` has accepted. What others rely on while a
message is being applied is less, and holds for any announced files (`renewed_of_applyFiles`):
the maps stay in order (`Listed`), the other folder infos stay as they are, and a file of the
folder info that is new or has been changed has a larger sequence than all files before.
-/

namespace SyncSpirit

namespace Store

/-- No two files of a list share a key. -/
structure Keyed (s : Store) (files : List FileId) : Prop where
  nodup : files.Nodup
  keys : ∀ f ∈ files, ∀ g ∈ files, f ≠ g → KeysDiffer (s.files f) (s.files g)

theorem InfoWF.keyed {s : Store} {fi : FolderInfoId} (h : s.InfoWF fi) : s.Keyed (s.infos fi).files :=
  ⟨h.nodup, h.keys⟩

theorem KeysDiffer.symm {a b : FileInfo} (h : KeysDiffer a b) : KeysDiffer b a :=
  ⟨h.1.symm, h.2.1.symm, h.2.2.symm⟩

/-- A list that a file is added to, or replaces another one in. -/
theorem Keyed.putOnce {s : Store} {files : List FileId} (h : s.Keyed files) (f : FileId) :
    s.Keyed (s.putOnce f files) := by
  unfold Store.putOnce
  split
  · rename_i hnone
    have hfree := collision_eq_none.mp hnone
    have hnotMem : f ∉ files := fun hf => (hfree f hf).1 rfl
    refine ⟨List.nodup_append.mpr ⟨h.nodup, List.nodup_singleton f, fun a ha b hb => ?_⟩, fun a ha b hb hab => ?_⟩
    · rintro rfl
      exact hnotMem (List.mem_singleton.mp hb ▸ ha)
    · rcases List.mem_append.mp ha with ha | ha
      · rcases List.mem_append.mp hb with hb | hb
        · exact h.keys a ha b hb hab
        · rw [List.mem_singleton.mp hb]
          exact hfree a ha
      · rw [List.mem_singleton.mp ha] at hab ⊢
        rcases List.mem_append.mp hb with hb | hb
        · exact (hfree b hb).symm
        · exact absurd (List.mem_singleton.mp hb).symm hab
  · rename_i g hg
    split
    · exact h
    · rename_i hrest
      have hfree : ∀ a ∈ files, a ≠ g → KeysDiffer (s.files a) (s.files f) := fun a ha hag =>
        collision_eq_none.mp (Option.not_isSome_iff_eq_none.mp hrest) a
          (List.mem_filter.mpr ⟨ha, by simpa using hag⟩)
      have hmem : ∀ a, a ∈ files.map (fun k => if k = g then f else k) → a = f ∨ (a ∈ files ∧ a ≠ g) := by
        intro a ha
        obtain ⟨k, hk, rfl⟩ := List.mem_map.mp ha
        by_cases hkg : k = g
        · exact .inl (if_pos hkg)
        · rw [if_neg hkg]
          exact .inr ⟨hk, hkg⟩
      refine ⟨(List.nodup_map_iff_inj_on h.nodup).mpr fun a ha b hb hab => ?_, fun a ha b hb hab => ?_⟩
      · -- the file itself may only be there where it is put
        have hself : ∀ k ∈ files, k ≠ g → k ≠ f := fun k hk hkg heq => (hfree k hk hkg).1 (by rw [heq])
        by_cases hag : a = g
        · by_cases hbg : b = g
          · rw [hag, hbg]
          · rw [if_pos hag, if_neg hbg] at hab
            exact absurd hab.symm (hself b hb hbg)
        · by_cases hbg : b = g
          · rw [if_neg hag, if_pos hbg] at hab
            exact absurd hab (hself a ha hag)
          · rwa [if_neg hag, if_neg hbg] at hab
      · rcases hmem a ha with rfl | ⟨hold, hag⟩
        · rcases hmem b hb with rfl | ⟨hold, hbg⟩
          · exact absurd rfl hab
          · exact (hfree b hold hbg).symm
        · rcases hmem b hb with rfl | ⟨hold', hbg⟩
          · exact hfree a hold hag
          · exact h.keys a hold b hold' hab

/-- The maps of all folder infos are in order, and their sequences positive. -/
structure Listed (s : Store) : Prop where
  infos : ∀ fi, s.InfoWF fi
  disjoint : ∀ fi fi', ∀ f ∈ (s.infos fi).files, f ∈ (s.infos fi').files → fi = fi'
  maxSequence : ∀ fi, 0 ≤ (s.infos fi).maxSequence
  positive : ∀ fi, ∀ f ∈ (s.infos fi).files, 0 < (s.files f).sequence

/-- The names of the files of a folder info are unique. -/
theorem Listed.eq_of_name {s : Store} (h : s.Listed) {fi : FolderInfoId} {f g : FileId}
    (hf : f ∈ (s.infos fi).files) (hg : g ∈ (s.infos fi).files) (hname : (s.files f).name = (s.files g).name) :
    f = g := by
  by_contra hne
  exact ((h.infos fi).keys f hf g hg hne).2.1 hname

/-- The store after files of a folder info have been announced. -/
structure Renewed (fi : FolderInfoId) (s t : Store) : Prop where
  listed : t.Listed
  blocks : SameBlocks s t
  others : ∀ fi', fi' ≠ fi → t.infos fi' = s.infos fi' ∧ ∀ g ∈ (s.infos fi').files, t.files g = s.files g
  index : (t.infos fi).index = (s.infos fi).index
  maxSequence : (s.infos fi).maxSequence ≤ (t.infos fi).maxSequence
  files : ∀ g ∈ (t.infos fi).files, (g ∈ (s.infos fi).files ∧ t.files g = s.files g) ∨
    (s.infos fi).maxSequence < (t.files g).sequence

namespace Renewed

variable {fi : FolderInfoId} {s t u : Store}

theorem refl (h : s.Listed) (fi : FolderInfoId) : Renewed fi s s where
  listed := h
  blocks := SameBlocks.refl s
  others _ _ := ⟨rfl, fun _ _ => rfl⟩
  index := rfl
  maxSequence := Int.le_refl _
  files _ hg := .inl ⟨hg, rfl⟩

theorem trans (h : Renewed fi s t) (h' : Renewed fi t u) : Renewed fi s u where
  listed := h'.listed
  blocks := h.blocks.trans h'.blocks
  others fi' hfi := by
    obtain ⟨hinfo, hfiles⟩ := h.others fi' hfi
    obtain ⟨hinfo', hfiles'⟩ := h'.others fi' hfi
    exact ⟨hinfo'.trans hinfo, fun g hg => (hfiles' g (by rw [hinfo]; exact hg)).trans (hfiles g hg)⟩
  index := h'.index.trans h.index
  maxSequence := Int.le_trans h.maxSequence h'.maxSequence
  files g hg := by
    rcases h'.files g hg with ⟨hg, heq⟩ | hlt
    · rw [heq]
      exact h.files g hg
    · exact .inr (Int.lt_of_le_of_lt h.maxSequence hlt)

end Renewed

/-! ## One round -/

/-- A file is taken aside: it is in no map, and everything else is as it was. -/
structure Aside (fi : FolderInfoId) (s : Store) (f : FileId) (t : Store) : Prop where
  blocks : SameBlocks s t
  others : ∀ fi', fi' ≠ fi → t.infos fi' = s.infos fi'
  info : t.infos fi = { s.infos fi with files := (t.infos fi).files }
  listed : (t.infos fi).files.Sublist (s.infos fi).files
  unlisted : f ∉ (t.infos fi).files
  files : ∀ g, g ≠ f → g < s.nextFile → t.files g = s.files g
  allocated : f < t.nextFile
  nextFile : s.nextFile ≤ t.nextFile
  owner : f ∈ (s.infos fi).files ∨ s.nextFile ≤ f

namespace Aside

variable {fi : FolderInfoId} {s t : Store} {f : FileId}

/-- The files of the folder info that are still there. -/
theorem same (h : Aside fi s f t) (hs : s.Listed) {g : FileId} (hg : g ∈ (t.infos fi).files) :
    g ∈ (s.infos fi).files ∧ t.files g = s.files g := by
  have hmem := h.listed.subset hg
  refine ⟨hmem, h.files g ?_ ((hs.infos fi).allocated g hmem)⟩
  rintro rfl
  exact h.unlisted hg

/-- The files of the other folder infos. -/
theorem elsewhere (h : Aside fi s f t) (hs : s.Listed) {fi' : FolderInfoId} (hfi : fi' ≠ fi) {g : FileId}
    (hg : g ∈ (s.infos fi').files) : g ≠ f ∧ t.files g = s.files g := by
  have hlt := (hs.infos fi').allocated g hg
  have hne : g ≠ f := by
    rintro rfl
    rcases h.owner with hmem | hle
    · exact hfi (hs.disjoint fi' fi g hg hmem)
    · exact Nat.not_le_of_lt hlt hle
  exact ⟨hne, h.files g hne hlt⟩

theorem keyed (h : Aside fi s f t) (hs : s.Listed) : t.Keyed (t.infos fi).files where
  nodup := (hs.infos fi).nodup.sublist h.listed
  keys a ha b hb hab := by
    obtain ⟨ha, hfa⟩ := h.same hs ha
    obtain ⟨hb, hfb⟩ := h.same hs hb
    rw [hfa, hfb]
    exact (hs.infos fi).keys a ha b hb hab

theorem destroy (h : Aside fi s f t) {g : FileId} (hg : g = f ∨ s.nextFile ≤ g)
    (hunlisted : g ∉ (t.infos fi).files) : Aside fi s f (t.destroy g) := by
  have hsame := SameBut.destroy t g
  refine ⟨h.blocks.trans hsame.toSameBlocks, ?_, ?_, ?_, ?_, fun a ha hlt => ?_, ?_, ?_, h.owner⟩
  · rw [hsame.infos]
    exact h.others
  · rw [hsame.infos]
    exact h.info
  · rw [hsame.infos]
    exact h.listed
  · rw [hsame.infos]
    exact h.unlisted
  · rw [hsame.files a, h.files a ha hlt]
    rintro rfl
    rcases hg with hg | hle
    · exact ha hg
    · exact Nat.not_le_of_lt hlt hle
  · rw [hsame.nextFile]
    exact h.allocated
  · rw [hsame.nextFile]
    exact h.nextFile

/-- The maps with the files of the folder info replaced. -/
theorem listed_of_info (h : Aside fi s f t) (hs : s.Listed) {u : Store} (hfiles : u.files = t.files)
    (hnext : u.nextFile = t.nextFile) (hothers : ∀ fi', fi' ≠ fi → u.infos fi' = t.infos fi')
    (hkeyed : u.Keyed (u.infos fi).files)
    (hmem : ∀ g ∈ (u.infos fi).files, g = f ∨ g ∈ (t.infos fi).files)
    (hmax : (s.infos fi).maxSequence ≤ (u.infos fi).maxSequence)
    (hnew : f ∈ (u.infos fi).files → (s.infos fi).maxSequence < (t.files f).sequence ∧
      (t.files f).sequence ≤ (u.infos fi).maxSequence) : u.Listed := by
  have hinfos : ∀ fi', fi' ≠ fi → u.infos fi' = s.infos fi' := fun fi' hfi =>
    (hothers fi' hfi).trans (h.others fi' hfi)
  have hother : ∀ fi', fi' ≠ fi → ∀ g ∈ (s.infos fi').files, g ≠ f ∧ u.files g = s.files g := by
    intro fi' hfi g hg
    rw [hfiles]
    exact h.elsewhere hs hfi hg
  have hcases : ∀ g ∈ (u.infos fi).files, (g = f ∧ (s.infos fi).maxSequence < (u.files g).sequence ∧
      (u.files g).sequence ≤ (u.infos fi).maxSequence) ∨ (g ∈ (s.infos fi).files ∧ u.files g = s.files g) := by
    intro g hg
    rw [hfiles]
    rcases hmem g hg with rfl | hold
    · exact .inl ⟨rfl, hnew hg⟩
    · exact .inr (h.same hs hold)
  refine ⟨fun fi' => ?_, fun a b g ha hb => ?_, fun fi' => ?_, fun fi' g hg => ?_⟩
  · by_cases hfi : fi' = fi
    · subst hfi
      refine ⟨fun g hg => ?_, hkeyed.nodup, hkeyed.keys, fun g hg => ?_⟩
      · rw [hnext]
        rcases hcases g hg with ⟨rfl, -⟩ | ⟨hold, -⟩
        · exact h.allocated
        · exact Nat.lt_of_lt_of_le ((hs.infos fi').allocated g hold) h.nextFile
      · rcases hcases g hg with ⟨-, -, hle⟩ | ⟨hold, heq⟩
        · exact hle
        · rw [heq]
          exact Int.le_trans ((hs.infos fi').bound g hold) hmax
    · refine (hs.infos fi').of_eq ?_ ?_ ?_
      · rw [hinfos fi' hfi]
      · rw [hnext]
        exact h.nextFile
      · intro g hg
        exact (hother fi' hfi g hg).2
  · -- a file of two folder infos
    by_cases ha' : a = fi
    · by_cases hb' : b = fi
      · rw [ha', hb']
      · rw [ha'] at ha
        rw [hinfos b hb'] at hb
        rcases hcases g ha with ⟨rfl, -⟩ | ⟨hold, -⟩
        · exact absurd rfl (hother b hb' g hb).1
        · exact ha'.trans (hs.disjoint fi b g hold hb)
    · rw [hinfos a ha'] at ha
      by_cases hb' : b = fi
      · rw [hb'] at hb
        rcases hcases g hb with ⟨rfl, -⟩ | ⟨hold, -⟩
        · exact absurd rfl (hother a ha' g ha).1
        · exact (hs.disjoint a fi g ha hold).trans hb'.symm
      · rw [hinfos b hb'] at hb
        exact hs.disjoint a b g ha hb
  · by_cases hfi : fi' = fi
    · rw [hfi]
      exact Int.le_trans (hs.maxSequence fi) hmax
    · rw [hinfos fi' hfi]
      exact hs.maxSequence fi'
  · by_cases hfi : fi' = fi
    · rw [hfi] at hg
      rcases hcases g hg with ⟨-, hlt, -⟩ | ⟨hold, heq⟩
      · exact Int.lt_of_le_of_lt (hs.maxSequence fi) hlt
      · rw [heq]
        exact hs.positive fi g hold
    · rw [hinfos fi' hfi] at hg
      rw [(hother fi' hfi g hg).2]
      exact hs.positive fi' g hg

/-- The file is not added. -/
theorem renewed (h : Aside fi s f t) (hs : s.Listed) : Renewed fi s t where
  listed := h.listed_of_info hs rfl rfl (fun _ _ => rfl) (h.keyed hs) (fun _ hg => .inr hg)
    (by rw [h.info]) fun hf => absurd hf h.unlisted
  blocks := h.blocks
  others fi' hfi := ⟨h.others fi' hfi, fun _ hg => (h.elsewhere hs hfi hg).2⟩
  index := by rw [h.info]
  maxSequence := by rw [h.info]
  files _ hg := .inl (h.same hs hg)

/-- **The end of a round**: the file is added if its sequence is larger than all before. -/
theorem renewed_addFile (h : Aside fi s f t) (hs : s.Listed) : Renewed fi s (UpdateFolder.addFile fi t f) := by
  have hmaxEq : (t.infos fi).maxSequence = (s.infos fi).maxSequence := by rw [h.info]
  by_cases hseq : (t.infos fi).maxSequence < (t.files f).sequence
  · have heq : UpdateFolder.addFile fi t f = (t.setMaxSequence fi (t.files f).sequence).put fi f := by
      simp only [UpdateFolder.addFile, addStrict, if_pos hseq, if_true]
    rw [heq]
    have hinfo : ((t.setMaxSequence fi (t.files f).sequence).put fi f).infos fi = { t.infos fi with
        maxSequence := (t.files f).sequence
        files := t.putOnce f (t.putOnce f (t.putOnce f (t.infos fi).files)) } := by
      simp only [put, setMaxSequence, Function.update_self]
      rfl
    have hothers : ∀ fi', fi' ≠ fi →
        ((t.setMaxSequence fi (t.files f).sequence).put fi f).infos fi' = t.infos fi' := by
      intro fi' hfi
      simp only [put, setMaxSequence, Function.update_of_ne hfi]
    have hmem : ∀ g, g ∈ t.putOnce f (t.putOnce f (t.putOnce f (t.infos fi).files)) →
        g = f ∨ g ∈ (t.infos fi).files := fun g hg => (mem_putOnce_thrice hg).symm
    have hlt : (s.infos fi).maxSequence < (t.files f).sequence := hmaxEq ▸ hseq
    have hkeyed := (((h.keyed hs).putOnce f).putOnce f).putOnce f
    refine ⟨h.listed_of_info hs rfl rfl hothers ?_ ?_ ?_ fun _ => ⟨hlt, ?_⟩, ⟨h.blocks.hash, h.blocks.size,
      h.blocks.blockMap, h.blocks.nextBlock⟩, fun fi' hfi => ?_, ?_, ?_, fun g hg => ?_⟩
    · rw [hinfo]
      exact ⟨hkeyed.nodup, hkeyed.keys⟩
    · rw [hinfo]
      exact hmem
    · rw [hinfo]
      exact Int.le_of_lt hlt
    · rw [hinfo]
    · exact ⟨(hothers fi' hfi).trans (h.others fi' hfi), fun g hg => (h.elsewhere hs hfi hg).2⟩
    · rw [hinfo, h.info]
    · rw [hinfo]
      exact Int.le_of_lt hlt
    · rw [hinfo] at hg
      rcases hmem g hg with rfl | hold
      · exact .inr hlt
      · exact .inl (h.same hs hold)
  · have heq : UpdateFolder.addFile fi t f = t.destroy f := by
      simp only [UpdateFolder.addFile, addStrict, if_neg hseq]
      rfl
    rw [heq]
    exact (h.destroy (.inl rfl) h.unlisted).renewed hs

end Aside

/-- **One announced file.** -/
theorem renewed_of_applyFile {fi : FolderInfoId} {s t : Store} (hs : s.Listed) {uuid : Uuid}
    {f : Proto.FileInfo} (h : UpdateFolder.applyFile fi s uuid f = some t) : Renewed fi s t := by
  obtain ⟨u, hu, h⟩ := Option.bind_eq_some_iff.mp h
  obtain ⟨file, -, hu⟩ := Option.bind_eq_some_iff.mp hu
  have hsame : SameBut s.nextFile (s.create file) u := by
    split at hu
    · obtain ⟨hashes, -, hu⟩ := Option.bind_eq_some_iff.mp hu
      exact (SameId.assignHashes hu).toSameBut
    · cases hu
      exact SameBut.refl _ _
  have hinfos : u.infos = s.infos := hsame.infos
  have hnext : u.nextFile = s.nextFile + 1 := hsame.nextFile
  have hfiles : ∀ g, g < s.nextFile → u.files g = s.files g := by
    intro g hg
    have hne : g ≠ s.nextFile := Nat.ne_of_lt hg
    exact (hsame.files g hne).trans (Function.update_of_ne hne _ _)
  have hfree : ∀ g ∈ (s.infos fi).files, g ≠ s.nextFile := fun g hg =>
    Nat.ne_of_lt ((hs.infos fi).allocated g hg)
  have hblocks : SameBlocks s u :=
    SameBlocks.trans (t := s.create file) ⟨fun _ => rfl, fun _ => rfl, rfl, rfl⟩ hsame.toSameBlocks
  -- the new object
  have haside : Aside fi s s.nextFile u := by
    refine ⟨hblocks, fun _ _ => by rw [hinfos], by rw [hinfos], by rw [hinfos], ?_, fun g _ hlt => hfiles g hlt,
      ?_, ?_, .inr (Nat.le_refl _)⟩
    · rw [hinfos]
      exact fun hmem => hfree _ hmem rfl
    · rw [hnext]
      exact Nat.lt_succ_self _
    · rw [hnext]
      exact Nat.le_succ _
  split at h
  · rename_i prev hprev
    have hmem : prev ∈ (s.infos fi).files := by
      have hmem := List.mem_of_find?_eq_some hprev
      rwa [hinfos] at hmem
    split at h
    · -- the known object is taken out of the map and updated
      obtain ⟨w, hw, h⟩ := Option.bind_eq_some_iff.mp h
      cases h
      have hup := (SameId.update hw).toSameBut
      have hinfo : w.infos fi = { s.infos fi with files := (w.infos fi).files } := by
        rw [hup.infos]
        simp only [remove, Function.update_self, hinfos]
      have hsub : ∀ g ∈ (w.infos fi).files, g ∈ (s.infos fi).files ∧ g ≠ prev := by
        intro g hg
        rw [hup.infos] at hg
        simp only [remove, Function.update_self, hinfos] at hg
        obtain ⟨hg, hkeys⟩ := List.mem_filter.mp hg
        refine ⟨hg, ?_⟩
        rintro rfl
        simp at hkeys
      have hupdated : Aside fi s prev w := by
        refine ⟨?_, fun fi' hfi => ?_, hinfo, ?_, fun hmem => (hsub prev hmem).2 rfl, fun g hg hlt => ?_, ?_, ?_,
          .inl hmem⟩
        · exact SameBlocks.trans (t := u.remove fi prev)
            (hblocks.trans ⟨fun _ => rfl, fun _ => rfl, rfl, rfl⟩) hup.toSameBlocks
        · rw [hup.infos]
          simp only [remove, Function.update_of_ne hfi, hinfos]
        · rw [hup.infos]
          simp only [remove, Function.update_self, hinfos]
          exact List.filter_sublist
        · exact (hup.files g hg).trans (hfiles g hlt)
        · rw [hup.nextFile]
          show prev < u.nextFile
          rw [hnext]
          exact Nat.lt_succ_of_lt ((hs.infos fi).allocated prev hmem)
        · rw [hup.nextFile]
          show s.nextFile ≤ u.nextFile
          rw [hnext]
          exact Nat.le_succ _
      exact (hupdated.destroy (.inr (Nat.le_refl _)) fun hmem => hfree _ (hsub _ hmem).1 rfl).renewed_addFile hs
    · split at h
      · cases h
        exact (haside.destroy (.inl rfl) haside.unlisted).renewed hs
      · cases h
        exact haside.renewed_addFile hs
  · cases h
    exact haside.renewed_addFile hs

/-- **The files of an index message**, one after another. -/
theorem renewed_of_applyFiles {fi : FolderInfoId} {ps : List (Uuid × Proto.FileInfo)} :
    ∀ {s t : Store}, s.Listed → UpdateFolder.applyFiles fi s ps = some t → Renewed fi s t := by
  induction ps with
  | nil =>
    rintro s t hs ⟨⟩
    exact Renewed.refl hs fi
  | cons p ps ih =>
    intro s t hs h
    obtain ⟨u, hu, h⟩ := Option.bind_eq_some_iff.mp h
    have hround := renewed_of_applyFile hs hu
    exact hround.trans (ih hround.listed h)

end Store

end SyncSpirit
