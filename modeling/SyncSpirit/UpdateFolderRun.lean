import SyncSpirit.FileTransfer

/-!
# The loop of an index message, with everything it leaves alone

`UpdateFolderSpec` says what a round does to the files of one folder info. Here a round
(`Round`) and the whole loop (`Loop`) also say that the files of the other folder infos
stay as they are, and which link target a file ends up with: an updated object takes it
over from link to link only.

`ran_of_apply` is the way in: a diff that has been applied has run the loop.
-/

namespace SyncSpirit

namespace UpdateFolder

open Store

/-! ## One round -/

theorem files_addFile {fi : FolderInfoId} {s : Store} {f g : FileId} (hg : g ≠ f) :
    (addFile fi s f).files g = s.files g := by
  by_cases hseq : (s.infos fi).maxSequence < (s.files f).sequence
  · simp only [addFile, addStrict, if_pos hseq, if_true]
    rfl
  · simp only [addFile, addStrict, if_neg hseq]
    exact (SameBut.destroy s f).files g hg

theorem device_addFile (fi fi' : FolderInfoId) (s : Store) (f : FileId) :
    ((addFile fi s f).infos fi').device = (s.infos fi').device := by
  by_cases hseq : (s.infos fi).maxSequence < (s.files f).sequence
  · simp only [addFile, addStrict, if_pos hseq, if_true, put, setMaxSequence]
    by_cases hfi : fi' = fi
    · simp [hfi]
    · simp [hfi]
  · simp only [addFile, addStrict, if_neg hseq]
    rw [show (if false = true then s else s.destroy f) = s.destroy f from rfl,
      (SameBut.destroy s f).infos]

/-- What the map has after the end of a round: what it had, or the new file as it is. -/
theorem mem_addFile {fi : FolderInfoId} {s : Store} {f g : FileId}
    (hg : g ∈ ((addFile fi s f).infos fi).files) :
    g ∈ (s.infos fi).files ∨ (g = f ∧ (addFile fi s f).files f = s.files f) := by
  by_cases hseq : (s.infos fi).maxSequence < (s.files f).sequence
  · have heq : addFile fi s f = (s.setMaxSequence fi (s.files f).sequence).put fi f := by
      simp only [addFile, addStrict, if_pos hseq, if_true]
    rw [heq] at hg ⊢
    simp only [put, setMaxSequence, Function.update_self] at hg
    rcases mem_putOnce_thrice hg with hg | rfl
    · exact .inl hg
    · exact .inr ⟨rfl, rfl⟩
  · have heq : addFile fi s f = s.destroy f := by
      simp only [addFile, addStrict, if_neg hseq]
      rfl
    rw [heq, (SameBut.destroy s f).infos] at hg
    exact .inl hg

/-- One round, with what `Applied` leaves open. -/
structure Round (fi : FolderInfoId) (s : Store) (uuid : Uuid) (f : Proto.FileInfo) (t : Store) :
    Prop extends Applied fi s uuid f t where
  nextFile : s.nextFile ≤ t.nextFile
  device : (t.infos fi).device = (s.infos fi).device
  untouched : ∀ g, g < s.nextFile → s.byName fi f.name ≠ some g → t.files g = s.files g
  linkTarget : ∀ g ∈ (t.infos fi).files, (t.files g).name = f.name →
    Store.linkTarget (t.files g) =
      nextTarget (s.recordOf fi f.name) (asFlags f.type) f.symlinkTarget

/-- The link target of the new object. -/
theorem linkTarget_instantiate {s u : Store} {fi : FolderInfoId} {uuid : Uuid} {f : Proto.FileInfo}
    (hinst : Instantiated s uuid f u) (hu : instantiate s fi uuid f = some u)
    (hnamed : f.name ≠ "") (hcount : f.version.counters ≠ []) :
    linkTarget (u.files s.nextFile) = if asFlags f.type = .file then "" else f.symlinkTarget := by
  have htype : (u.files s.nextFile).isFile = true ↔ asFlags f.type = .file := by
    rw [isFile_iff, hinst.carries.type]
  by_cases hf : asFlags f.type = .file
  · rw [if_pos hf]
    exact linkTarget_of_isFile (hinst.wf.coherent _) (htype.mpr hf)
  · -- a directory or a link gets no blocks
    obtain ⟨file, hfile, hblank⟩ := @blank_of_fieldsUpdate (s.infos fi).uuid uuid f hnamed hcount
    unfold instantiate at hu
    rw [hfile, Option.bind_eq_bind, Option.bind_some, if_neg] at hu
    · cases hu
      rw [show (s.create file).files s.nextFile = file from Function.update_self ..]
      exact hblank.linkTarget
    · rintro ⟨hisFile, -⟩
      rw [isFile_iff, hblank.type] at hisFile
      exact hf hisFile

/-- **One round of the loop.** -/
theorem round_of_applyFile {fi : FolderInfoId} {s t : Store} (hwf : s.WF) {M : Int}
    {p : Uuid × Proto.FileInfo} (h : Ready fi s M p) (ht : applyFile fi s p.1 p.2 = some t) :
    Round fi s p.1 p.2 t := by
  have hkind : Applicable fi s p.2 := by
    by_contra hnot
    rw [applyFile_of_not_applicable hwf h hnot] at ht
    cases ht
  obtain ⟨t', ht', happ⟩ := applyFile_spec hwf h hkind
  rw [ht] at ht'
  cases ht'
  obtain ⟨u, hu, hinst⟩ := h.instantiate hwf hkind.named
  have hlink := linkTarget_instantiate hinst hu hkind.named h.counters
  unfold applyFile at ht
  dsimp only at ht
  rw [hu, Option.bind_eq_bind, Option.bind_some, hinst.byName hwf] at ht
  cases hprev : s.byName fi p.2.name with
  | none =>
    rw [hprev] at ht
    cases ht
    have hnone : s.recordOf fi p.2.name = none := by rw [recordOf, hprev]; rfl
    refine ⟨happ, ?_, ?_, fun g hg _ => ?_, fun g hg hname => ?_⟩
    · rw [nextFile_addFile, hinst.nextFile]
      exact Nat.le_succ _
    · rw [device_addFile, hinst.infos]
    · rw [files_addFile (Nat.ne_of_lt hg), hinst.files g (Nat.ne_of_lt hg)]
    · rcases mem_addFile hg with hmem | ⟨rfl, hfile⟩
      · rw [hinst.infos] at hmem
        have hlt := (hwf.infos fi).allocated g hmem
        rw [files_addFile (Nat.ne_of_lt hlt), hinst.files_listed hwf hmem] at hname
        exact absurd hname (byName_eq_none.mp hprev g hmem)
      · rw [hfile, hlink, hnone]
        rfl
  | some prev =>
    obtain ⟨hmem, hpname⟩ := (byName_eq_some (hwf.infos fi)).mp hprev
    have hlt : prev < s.nextFile := (hwf.infos fi).allocated prev hmem
    have hmem' : prev ∈ (u.infos fi).files := by rw [hinst.infos]; exact hmem
    have hfile : u.files prev = s.files prev := hinst.files_listed hwf hmem
    have hseq : (u.files prev).sequence < (u.files s.nextFile).sequence := by
      rw [hfile, hinst.carries.sequence]
      exact Int.lt_of_le_of_lt (h.prev prev hprev).1 h.sequence
    rw [hprev] at ht
    dsimp only at ht
    rw [if_pos hseq] at ht
    obtain ⟨v, hv, ht⟩ := Option.bind_eq_some_iff.mp ht
    cases ht
    have hrlinked := (hinst.wf.remove hmem').1.linked
    have hup := updated_of_update (f := prev) hrlinked (hinst.wf.coherent prev)
      (hinst.wf.coherent s.nextFile) (by
        show (u.files prev).name = (u.files s.nextFile).name
        rw [hfile, hpname, hinst.carries.name]) hv
    have hnew : ∀ g, g ≠ prev → g ≠ s.nextFile →
        (addFile fi (v.destroy s.nextFile) prev).files g = u.files g := by
      intro g hgp hgn
      rw [files_addFile hgp, (SameBut.destroy v s.nextFile).files g hgn, hup.same.files g hgp]
      rfl
    refine ⟨happ, ?_, ?_, fun g hg hne => ?_, fun g hg hname => ?_⟩
    · rw [nextFile_addFile, (SameBut.destroy v s.nextFile).nextFile, hup.same.nextFile]
      show s.nextFile ≤ u.nextFile
      rw [hinst.nextFile]
      exact Nat.le_succ _
    · rw [device_addFile, (SameBut.destroy v s.nextFile).infos, hup.same.infos,
        files_remove (hinst.wf.infos fi) hmem', hinst.infos]
      simp
    · have hgp : g ≠ prev := fun heq => hne (by rw [hprev, heq])
      rw [hnew g hgp (Nat.ne_of_lt hg), hinst.files g (Nat.ne_of_lt hg)]
    · rcases mem_addFile hg with hgmem | ⟨rfl, hgfile⟩
      · -- the other files of the map have other names
        rw [(SameBut.destroy v s.nextFile).infos, hup.same.infos, files_remove (hinst.wf.infos fi) hmem'] at hgmem
        simp only [Function.update_self] at hgmem
        obtain ⟨hgmem, hgp⟩ := List.mem_filter.mp hgmem
        have hgp : g ≠ prev := by simpa using hgp
        rw [hinst.infos] at hgmem
        rw [hnew g hgp (Nat.ne_of_lt ((hwf.infos fi).allocated g hgmem)),
          hinst.files_listed hwf hgmem] at hname
        exact absurd (hname.trans hpname.symm) ((hwf.infos fi).keys g hgmem prev hmem hgp).2.1
      · have hrecord : s.recordOf fi p.2.name = some (record (s.files g)) := by
          rw [recordOf, hprev]
          rfl
        rw [hgfile, (SameBut.destroy v s.nextFile).files g (Nat.ne_of_lt hlt), hrecord]
        have hkeep := linkTarget_update hup hv
        rw [show (u.remove fi g).files g = s.files g from hfile, hlink, hinst.carries.type] at hkeep
        rw [hkeep]
        unfold nextTarget
        split
        · rfl
        · rfl

/-! ## The whole loop -/

/-- The last round that keeps a file: its sequence is larger than all before. -/
def Lasting (files : List Proto.FileInfo) (f : Proto.FileInfo) : Prop :=
  ∃ pre post, files = pre ++ f :: post ∧ ∀ q ∈ pre, q.sequence < f.sequence

/-- The loop over the accepted files, with what `Run` leaves open. -/
structure Loop (fi : FolderInfoId) (s : Store) (ps : List (Uuid × Proto.FileInfo)) (t : Store) :
    Prop extends Run fi s ps t where
  nextFile : s.nextFile ≤ t.nextFile
  device : (t.infos fi).device = (s.infos fi).device
  elsewhere : ∀ fi', fi' ≠ fi → t.infos fi' = s.infos fi' ∧
    ∀ g ∈ (s.infos fi').files, t.files g = s.files g
  linkTarget : ∀ p ∈ ps, ∀ g ∈ (t.infos fi).files, (t.files g).name = p.2.name →
    Store.linkTarget (t.files g) =
      nextTarget (s.recordOf fi p.2.name) (asFlags p.2.type) p.2.symlinkTarget

theorem Round.recordOf {fi : FolderInfoId} {s t : Store} (hwf : s.WF) {uuid : Uuid}
    {f : Proto.FileInfo} (h : Round fi s uuid f t) {name : String} (hne : name ≠ f.name) :
    t.recordOf fi name = s.recordOf fi name := by
  unfold Store.recordOf
  rw [h.toApplied.byName hwf hne]
  cases hprev : s.byName fi name with
  | none => rfl
  | some prev =>
    obtain ⟨hmem, hname⟩ := (byName_eq_some (hwf.infos fi)).mp hprev
    rw [Option.map_some, Option.map_some, h.toApplied.files_eq hmem (by rw [hname]; exact hne)]

theorem Loop.nil {fi : FolderInfoId} {s : Store} (hwf : s.WF) : Loop fi s [] s :=
  ⟨Run.nil hwf, Nat.le_refl _, rfl, fun _ _ => ⟨rfl, fun _ _ => rfl⟩, fun _ hp => absurd hp List.not_mem_nil⟩

/-- A round, and the rest of the loop after it. -/
theorem Loop.cons {fi : FolderInfoId} {s t u : Store} (hwf : s.WF) {p : Uuid × Proto.FileInfo}
    {ps : List (Uuid × Proto.FileInfo)} (hdist : Distinct (p :: ps)) (h : Round fi s p.1 p.2 t)
    (hloop : Loop fi t ps u) : Loop fi s (p :: ps) u := by
  obtain ⟨hhead, -⟩ := List.pairwise_cons.mp hdist
  refine ⟨Run.cons hdist h.toApplied hloop.toRun, Nat.le_trans h.nextFile hloop.nextFile,
    hloop.device.trans h.device, fun fi' hfi => ?_, fun q hq g hg hname => ?_⟩
  · obtain ⟨hinfos, hfiles⟩ := hloop.elsewhere fi' hfi
    have hfirst := h.others fi' hfi
    refine ⟨hinfos.trans hfirst, fun g hg => ?_⟩
    rw [hfiles g (by rw [hfirst]; exact hg)]
    refine h.untouched g ((hwf.infos fi').allocated g hg) fun hprev => ?_
    -- a file of two folder infos
    exact hfi (hwf.disjoint fi' fi g hg ((byName_eq_some (hwf.infos fi)).mp hprev).1)
  · rcases List.mem_cons.mp hq with rfl | hq
    · have hnot : ∀ r ∈ ps, r.2.name ≠ (u.files g).name := fun r hr => by
        rw [hname]
        exact (hhead r hr).1.symm
      obtain ⟨hgt, hgname⟩ := (hloop.others _ hnot g).mp ⟨hg, rfl⟩
      have hfile : u.files g = t.files g := hloop.same g hgt (by rw [hgname]; exact hnot)
      rw [hfile] at hname ⊢
      exact h.linkTarget g hgt hname
    · rw [hloop.linkTarget q hq g hg hname, h.recordOf hwf (hhead q hq).1.symm]

/-- **The loop.** -/
theorem loop_of_applyFiles {fi : FolderInfoId} {M : Int} {ps : List (Uuid × Proto.FileInfo)} :
    ∀ {s t : Store}, s.WF → Distinct ps → (∀ p ∈ ps, Ready fi s M p) →
      applyFiles fi s ps = some t → Loop fi s ps t := by
  induction ps with
  | nil =>
    rintro s t hwf - - ⟨⟩
    exact Loop.nil hwf
  | cons p ps ih =>
    intro s t hwf hdist hready h
    obtain ⟨hhead, htail⟩ := List.pairwise_cons.mp hdist
    obtain ⟨u, hu, h⟩ := Option.bind_eq_some_iff.mp h
    have hround := round_of_applyFile hwf (hready p (List.mem_cons_self ..)) hu
    refine Loop.cons hwf hdist hround (ih hround.wf htail (fun q hq => ?_) h)
    exact (hready q (List.mem_cons_of_mem _ hq)).of_applied hwf hround.toApplied
      (hhead q hq).1.symm (hhead q hq).2.symm

/-! ## A message that has been accepted and applied -/

/-- A message of a peer, accepted and applied: `s` is the state with the new blocks, and `t`
the one after the loop. -/
structure Processed (c : Cluster) (fi : FolderInfoId) (message : Proto.IndexBase) (d : Diff)
    (s t : Store) : Prop where
  created : ∃ nextUuid, Created c.toStore fi nextUuid message d
  started : Started fi c.toStore d s
  loop : Loop fi s (d.uuids.zip d.files) t

theorem processed_of_apply {c : Cluster} (hwf : c.WF) (hb : c.BlocksWF) {nextUuid : Nat → Uuid}
    {source : Sha256} {message : Proto.IndexBase} {folder : Folder} {fi : FolderInfoId} {d : Diff}
    (hfolder : c.folderById message.folder = some folder)
    (hfi : c.byDeviceId folder source = some fi)
    (hfresh : FreshUuids c.toStore fi nextUuid message.files.length)
    (hcreate : create c nextUuid source message = .ok d) {t : Store} (ht : apply c d = some t) :
    ∃ s, Processed c fi message d s t := by
  obtain ⟨hcreated, hid, hpeer⟩ := create_ok hcreate hfolder hfi
  obtain ⟨s, happly, hstart⟩ := started_of_created hwf hb hfresh hcreated (by rw [hid]; exact hfolder)
    (by rw [hpeer]; exact hfi)
  rw [happly] at ht
  exact ⟨s, ⟨_, hcreated⟩, hstart, loop_of_applyFiles (hstart.same.wf hwf) hstart.distinct hstart.ready ht⟩

namespace Processed

variable {c : Cluster} {fi : FolderInfoId} {message : Proto.IndexBase} {d : Diff} {s t : Store}

/-- An accepted file by its place in the loop. -/
theorem split (h : Processed c fi message d s t) {pre post : List Proto.FileInfo} {f : Proto.FileInfo}
    (heq : d.files = pre ++ f :: post) :
    ∃ pre' p post', d.uuids.zip d.files = pre' ++ p :: post' ∧ p.2 = f ∧ pre'.map Prod.snd = pre := by
  have hmap := h.started.files
  rw [heq, List.map_eq_append_iff] at hmap
  obtain ⟨pre', rest, hzip, hpre, hrest⟩ := hmap
  obtain ⟨p, post', rfl, hp, -⟩ := List.map_eq_cons_iff.mp hrest
  exact ⟨pre', p, post', by rw [heq]; exact hzip, hp, hpre⟩

theorem files_wf (h : Processed c fi message d s t) : t.WF := h.loop.wf

/-- Names are unique among the accepted files. -/
theorem names (h : Processed c fi message d s t) :
    d.files.Pairwise fun f g => f.name ≠ g.name := by
  obtain ⟨nextUuid, hc⟩ := h.created
  exact (latest_names message.files).sublist hc.accepts.sublist

/-- **A file that lasts** is in the folder info as it has been announced. -/
theorem lasting (h : Processed c fi message d s t) {f : Proto.FileInfo} (hf : Lasting d.files f) :
    ∃ uuid, ∃ g ∈ (t.infos fi).files, Carries s uuid f (t.files g) := by
  obtain ⟨pre, post, heq, hpre⟩ := hf
  obtain ⟨pre', p, post', hzip, rfl, hmap⟩ := h.split heq
  obtain ⟨g, hg, hc⟩ := h.loop.added pre' p post' hzip
    (by
      rw [h.started.same.infos]
      exact (h.started.ready p (by rw [hzip]; simp)).sequence)
    fun q hq => hpre q.2 (by rw [← hmap]; exact List.mem_map_of_mem hq)
  exact ⟨p.1, g, hg, hc⟩

/-- A file that does not last is not there at all. -/
theorem lasting_of_mem (h : Processed c fi message d s t) {f : Proto.FileInfo} (hf : f ∈ d.files)
    {g : FileId} (hg : g ∈ (t.infos fi).files) (hname : (t.files g).name = f.name) :
    Lasting d.files f := by
  obtain ⟨pre, post, heq⟩ := List.append_of_mem hf
  obtain ⟨pre', p, post', hzip, rfl, hmap⟩ := h.split heq
  refine ⟨pre, post, heq, fun q hq => ?_⟩
  by_contra hle
  obtain ⟨q', hq', rfl⟩ := List.mem_map.mp (hmap ▸ hq)
  exact h.loop.dropped pre' p post' hzip (.inl ⟨q', hq', by omega⟩) g hg hname

/-- **A file of the folder info** with an accepted name is what has been announced. -/
theorem carries (h : Processed c fi message d s t) {f : Proto.FileInfo} (hf : f ∈ d.files)
    {g : FileId} (hg : g ∈ (t.infos fi).files) (hname : (t.files g).name = f.name) :
    ∃ uuid, Carries s uuid f (t.files g) := by
  obtain ⟨uuid, g', hg', hc⟩ := h.lasting (h.lasting_of_mem hf hg hname)
  have heq : g' = g := by
    by_contra hne
    exact ((h.files_wf.infos fi).keys g' hg' g hg hne).2.1 (hc.name.trans hname.symm)
  exact ⟨uuid, heq ▸ hc⟩

/-- Any other file is the one of before. -/
theorem other (h : Processed c fi message d s t) {name : String} (hname : ∀ f ∈ d.files, f.name ≠ name)
    (g : FileId) :
    (g ∈ (t.infos fi).files ∧ (t.files g).name = name) ↔
      (g ∈ (c.infos fi).files ∧ (c.files g).name = name) := by
  have hnot : ∀ p ∈ d.uuids.zip d.files, p.2.name ≠ name := by
    intro p hp
    refine hname p.2 ?_
    rw [← h.started.files]
    exact List.mem_map_of_mem hp
  rw [h.loop.others name hnot g, h.started.same.infos, h.started.same.files]

theorem files_other (h : Processed c fi message d s t) {g : FileId} (hg : g ∈ (c.infos fi).files)
    (hname : ∀ f ∈ d.files, f.name ≠ (c.files g).name) : t.files g = c.files g := by
  have hsame := h.loop.same g (by rw [h.started.same.infos]; exact hg) fun p hp => by
    rw [h.started.same.files]
    refine hname p.2 ?_
    rw [← h.started.files]
    exact List.mem_map_of_mem hp
  rw [hsame, h.started.same.files]

/-- The other folder infos. -/
theorem elsewhere (h : Processed c fi message d s t) {fi' : FolderInfoId} (hfi : fi' ≠ fi) :
    t.infos fi' = c.infos fi' ∧ ∀ g ∈ (c.infos fi').files, t.files g = c.files g := by
  obtain ⟨hinfos, hfiles⟩ := h.loop.elsewhere fi' hfi
  rw [h.started.same.infos] at hinfos hfiles
  refine ⟨hinfos, fun g hg => ?_⟩
  rw [hfiles g hg, h.started.same.files]

end Processed

end UpdateFolder

end SyncSpirit
