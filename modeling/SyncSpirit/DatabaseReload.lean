import SyncSpirit.DatabaseLoad
import SyncSpirit.DatabaseRun

/-!
# The records of a model are loaded

The records are those that another model has left behind. They are loaded kind by kind: the folder
infos (`Begun`), then the blocks (`Stocked`), then the files (`Filled`). Each of these says what is
there after some of the records; a step lemma takes in one more of them, and a run lemma the rest.

The new model has other ids for its folder infos, blocks and files. `Twin` and `Holds` say what
corresponds to what.
-/

namespace SyncSpirit

open Store Availability AdvanceRun UpdateFolder

namespace Database

open Fallible WriteLog

/-! ## The records of a table -/

section Records

variable {discr : UInt8} {table : Table} {key : Bytes} {v : Value}

theorem mem_load : (key, v) ∈ load discr table ↔ key.head? = some discr ∧ table[key]? = some v := by
  unfold load
  rw [List.mem_filter, Std.ExtTreeMap.mem_toList_iff_getElem?_eq_some, decide_eq_true_eq]
  exact and_comm

theorem mem_of_value (h : table[key]? = some v) : key ∈ table :=
  Std.ExtTreeMap.isSome_getElem?_iff_mem.mp (Option.isSome_of_eq_some h)

theorem nodup_load (discr : UInt8) (table : Table) : ((load discr table).map Prod.fst).Nodup := by
  rw [List.Nodup, List.pairwise_map]
  refine (Std.ExtTreeMap.distinct_keys_toList.imp fun h heq => ?_).filter _
  rw [Std.LawfulEqCmp.compare_eq_iff_eq] at h
  exact h heq

variable {α : Type} {item : Bytes × Value → Option (Bytes × α)} {make : α → Value}

/-- The records of one kind. -/
def Picks (item : Bytes × Value → Option (Bytes × α)) (make : α → Value) : Prop :=
  ∀ r key a, item r = some (key, a) ↔ r = (key, make a)

theorem picks_block : Picks blockItem .block := by
  rintro ⟨key, v⟩ key' a
  cases v <;> simp [blockItem]

theorem picks_file : Picks fileItem .file := by
  rintro ⟨key, v⟩ key' a
  cases v <;> simp [fileItem]

theorem picks_folderInfo : Picks folderInfoItem .folderInfo := by
  rintro ⟨key, v⟩ key' a
  cases v <;> simp [folderInfoItem]

theorem mem_items (h : Picks item make) {a : α} :
    (key, a) ∈ (load discr table).filterMap item ↔ key.head? = some discr ∧ table[key]? = some (make a) := by
  rw [List.mem_filterMap, ← mem_load]
  constructor
  · rintro ⟨r, hr, hitem⟩
    rwa [(h r key a).mp hitem] at hr
  · exact fun hmem => ⟨_, hmem, (h _ key a).mpr rfl⟩

theorem nodup_items (h : Picks item make) : (((load discr table).filterMap item).map Prod.fst).Nodup := by
  refine (nodup_load discr table).sublist ?_
  induction load discr table with
  | nil => exact List.Sublist.refl _
  | cons r rs ih =>
    rw [List.filterMap_cons, List.map_cons]
    cases hr : item r with
    | none => exact ih.cons _
    | some r' =>
      obtain ⟨key, a⟩ := r'
      rw [(h r key a).mp hr]
      exact ih.cons_cons _

/-- All records with the prefix are of that kind. -/
theorem mapM_items {rs : List (Bytes × Value)} (hall : ∀ r ∈ rs, (item r).isSome = true) :
    rs.mapM item = some (rs.filterMap item) := by
  induction rs with
  | nil => rfl
  | cons r rs ih =>
    obtain ⟨r', hr'⟩ := Option.isSome_iff_exists.mp (hall r (List.mem_cons_self ..))
    rw [List.mapM_cons, ih fun r hr => hall r (List.mem_cons_of_mem _ hr), hr', List.filterMap_cons, hr']
    rfl

end Records

/-! ## The records of a model -/

section Mirrored

variable {c : Cluster} {table : Table} {key : Bytes}

theorem mem_blockItems (h : Mirrors Key.bytes table (content c)) {size : Int32} :
    (key, size) ∈ (load blockInfoPrefix table).filterMap blockItem ↔
      ∃ hash, key = blockInfoPrefix :: hash ∧ content c (.block hash) = some (.block size) := by
  rw [mem_items picks_block]
  constructor
  · rintro ⟨hhead, hvalue⟩
    obtain ⟨hash, rfl⟩ : ∃ hash, key = blockInfoPrefix :: hash := List.head?_eq_some_iff.mp hhead
    exact ⟨hash, rfl, by rw [← h.value]; exact hvalue⟩
  · rintro ⟨hash, rfl, hvalue⟩
    exact ⟨rfl, by rw [← hvalue, ← h.value]; rfl⟩

theorem mem_fileItems (h : Mirrors Key.bytes table (content c)) {record : Db.FileInfo} :
    (key, record) ∈ (load FileDb.filePrefix table).filterMap fileItem ↔
      ∃ folder uuid, key = (Key.file folder uuid).bytes ∧ content c (.file folder uuid) = some (.file record) := by
  rw [mem_items picks_file]
  constructor
  · rintro ⟨hhead, hvalue⟩
    obtain ⟨k, rfl⟩ := h.coded key (mem_of_value hvalue)
    cases k with
    | file folder uuid => exact ⟨folder, uuid, rfl, by rw [← h.value]; exact hvalue⟩
    | block hash => exact absurd (Option.some.inj hhead) (by decide : blockInfoPrefix ≠ FileDb.filePrefix)
    | folderInfo device folder uuid =>
      exact absurd (Option.some.inj hhead) (by decide : folderInfoPrefix ≠ FileDb.filePrefix)
  · rintro ⟨folder, uuid, rfl, hvalue⟩
    exact ⟨rfl, by rw [← hvalue, ← h.value]⟩

/-- The record of a folder info. -/
def infoItem (c : Cluster) (p : Share) : Bytes × Db.FolderInfo :=
  ((infoKey c p).bytes, ⟨(c.infos p.2).index, (c.infos p.2).maxSequence, devicePrefix :: (c.infos p.2).introducer⟩)

theorem exists_share {device : Sha256} {folder uuid : Uuid} {v : Value}
    (h : content c (.folderInfo device folder uuid) = some v) :
    ∃ p ∈ shares c, infoKey c p = .folderInfo device folder uuid ∧ v = infoValue (c.infos p.2) := by
  obtain ⟨p, hp, rfl⟩ := Option.map_eq_some_iff.mp h
  exact ⟨p, List.mem_of_find?_eq_some hp, by simpa using List.find?_some hp, rfl⟩

/-- What the table has under the prefix of the folder infos. -/
theorem exists_share_of_mem (h : Mirrors Key.bytes table (content c)) {r : Bytes × Value}
    (hr : r ∈ load folderInfoPrefix table) : ∃ p ∈ shares c, folderInfoItem r = some (infoItem c p) := by
  obtain ⟨key, v⟩ := r
  obtain ⟨hhead, hvalue⟩ := mem_load.mp hr
  obtain ⟨k, rfl⟩ := h.coded key (mem_of_value hvalue)
  cases k with
  | folderInfo device folder uuid =>
    rw [h.value] at hvalue
    obtain ⟨p, hp, hkey, rfl⟩ := exists_share hvalue
    exact ⟨p, hp, by rw [← hkey]; rfl⟩
  | block hash => exact absurd (Option.some.inj hhead) (by decide : blockInfoPrefix ≠ folderInfoPrefix)
  | file folder uuid => exact absurd (Option.some.inj hhead) (by decide : FileDb.filePrefix ≠ folderInfoPrefix)

/-- A list of pictures. -/
theorem exists_map_of_forall {α β : Type} {f : α → β} {P : α → Prop} {bs : List β}
    (h : ∀ b ∈ bs, ∃ a, P a ∧ b = f a) : ∃ as : List α, (∀ a ∈ as, P a) ∧ bs = as.map f := by
  induction bs with
  | nil => exact ⟨[], by simp, rfl⟩
  | cons b bs ih =>
    obtain ⟨a, ha, rfl⟩ := h b (List.mem_cons_self ..)
    obtain ⟨as, has, rfl⟩ := ih fun b hb => h b (List.mem_cons_of_mem _ hb)
    exact ⟨a :: as, List.forall_mem_cons.mpr ⟨ha, has⟩, rfl⟩

/-- **The folder infos** of the table are those of the model. -/
theorem infos_of_mirrors (hc : Regular c) (h : Mirrors Key.bytes table (content c)) :
    ∃ ps : List Share, (load folderInfoPrefix table).mapM folderInfoItem = some (ps.map (infoItem c)) ∧
      ps.Nodup ∧ ∀ p, p ∈ ps ↔ p ∈ shares c := by
  have hpicked := @mapM_items _ folderInfoItem (load folderInfoPrefix table) fun r hr => by
    obtain ⟨p, -, hitem⟩ := exists_share_of_mem h hr
    rw [hitem]
    rfl
  obtain ⟨ps, hps, hmap⟩ := @exists_map_of_forall _ _ (infoItem c) (· ∈ shares c)
    ((load folderInfoPrefix table).filterMap folderInfoItem) (by
      intro item hitem
      obtain ⟨r, hr, hitem⟩ := List.mem_filterMap.mp hitem
      obtain ⟨p, hp, heq⟩ := exists_share_of_mem h hr
      exact ⟨p, hp, Option.some.inj (hitem.symm.trans heq)⟩)
  have hnodup := @nodup_items folderInfoPrefix table _ _ _ picks_folderInfo
  rw [hmap, List.map_map] at hnodup
  refine ⟨ps, by rw [hpicked, hmap], hnodup.of_map _, fun p => ⟨hps p, fun hp => ?_⟩⟩
  have hmem : infoItem c p ∈ (load folderInfoPrefix table).filterMap folderInfoItem := by
    refine (mem_items picks_folderInfo).mpr ⟨rfl, ?_⟩
    exact (h.value (infoKey c p)).trans (content_info hc hp)
  rw [hmap] at hmem
  obtain ⟨q, hq, heq⟩ := List.mem_map.mp hmem
  have hkey : infoKey c q = infoKey c p := Key.bytes_injective (congrArg Prod.fst heq)
  rwa [← hc.uuids q (hps q hq) p hp (Key.folderInfo.inj hkey).2.2]

end Mirrored

/-! ## The folder infos -/

theorem mem_shares {c : Cluster} {p : Share} : p ∈ shares c ↔ p.1 ∈ c.folders ∧ p.2 ∈ p.1.infos := by
  constructor
  · intro h
    obtain ⟨folder, hfolder, hp⟩ := List.mem_flatMap.mp h
    obtain ⟨fi, hfi, rfl⟩ := List.mem_map.mp hp
    exact ⟨hfolder, hfi⟩
  · rintro ⟨hfolder, hfi⟩
    exact List.mem_flatMap.mpr ⟨p.1, hfolder, List.mem_map_of_mem hfi⟩

/-- The devices and the folders of the model have been loaded, and a device is in a folder only
once. -/
structure Cataloged (catalog : Catalog) (c : Cluster) : Prop where
  folders : c.folders.map (fun folder => (folder.id, folder.uuid)) = catalog.folders
  distinct : (c.folders.map Folder.uuid).Nodup
  devices : ∀ p ∈ shares c, (c.infos p.2).device ∈ catalog.devices ∧ (c.infos p.2).device.length = digestLength
  once : ∀ p ∈ shares c, ∀ q ∈ shares c, p.1.uuid = q.1.uuid → (c.infos p.2).device = (c.infos q.2).device → p = q

theorem Cataloged.nodup_uuids {catalog : Catalog} {c : Cluster} (h : Cataloged catalog c) {folders : List Folder}
    (hfolders : folders.map (fun folder => (folder.id, folder.uuid)) = catalog.folders) :
    (folders.map Folder.uuid).Nodup := by
  have hboth := congrArg (List.map Prod.snd) (hfolders.trans h.folders.symm)
  rw [List.map_map, List.map_map] at hboth
  have huuids : folders.map Folder.uuid = c.folders.map Folder.uuid := hboth
  rw [huuids]
  exact h.distinct

/-- A folder info before its files are loaded. -/
def bare (info : FolderInfo) : FolderInfo := { info with files := [] }

theorem bare_eq {a b : FolderInfo} (h : bare a = bare b) : a.uuid = b.uuid ∧ a.device = b.device ∧
    a.maxSequence = b.maxSequence ∧ a.index = b.index ∧ a.introducer = b.introducer := by
  obtain ⟨huuid, hdevice, -, hsequence, hindex, hintroducer⟩ := FolderInfo.mk.inj h
  exact ⟨huuid, hdevice, hsequence, hindex, hintroducer⟩

/-- What has been loaded of the folder infos. -/
structure Begun (catalog : Catalog) (c : Cluster) (ps : List Share) (l : Loading) : Prop where
  infos : l.infos = ps.map fun p => bare (c.infos p.2)
  folders : l.folders.map (fun folder => (folder.id, folder.uuid)) = catalog.folders
  listed : ∀ folder ∈ l.folders, ∀ fi, fi ∈ folder.infos ↔ ∃ p, ps[fi]? = some p ∧ p.1.uuid = folder.uuid

section Begin

variable {catalog : Catalog} {c : Cluster} {ps : List Share} {p q : Share} {l : Loading} {devices : List Sha256}

theorem begun_nil (catalog : Catalog) (c : Cluster) :
    Begun catalog c [] ⟨[], catalog.folders.map fun f => ⟨f.1, f.2, []⟩⟩ where
  infos := rfl
  folders := by
    rw [List.map_map]
    exact List.map_id _
  listed folder hfolder fi := by
    obtain ⟨f, -, rfl⟩ := List.mem_map.mp hfolder
    simp

theorem drop_infoItem (hlength : (c.infos p.2).device.length = digestLength) :
    (infoItem c p).1.drop 33 = p.1.uuid.bytes ++ (c.infos p.2).uuid.bytes := List.drop_left' hlength

theorem drop_infoItem_uuid (hlength : (c.infos p.2).device.length = digestLength) :
    (infoItem c p).1.drop 49 = (c.infos p.2).uuid.bytes := by
  have hdrop : ((infoItem c p).1.drop 33).drop 16 = (c.infos p.2).uuid.bytes := by
    rw [drop_infoItem hlength]
    exact List.drop_left' p.1.uuid.length_bytes
  rwa [List.drop_drop] at hdrop

theorem folderInfoUuid_infoItem (hlength : (c.infos p.2).device.length = digestLength) :
    folderInfoUuid (infoItem c p).1 = (c.infos p.2).uuid.bytes := by
  unfold folderInfoUuid
  rw [drop_infoItem_uuid hlength]
  exact List.take_of_length_le (c.infos p.2).uuid.length_bytes.le

/-- One record. -/
theorem loadFolderInfo_item {folder : Folder} (hdevice : (c.infos p.2).device ∈ devices)
    (hlength : (c.infos p.2).device.length = digestLength)
    (hfolder : l.folders.find? (fun folder => folder.uuid.bytes = p.1.uuid.bytes) = some folder) :
    loadFolderInfo devices l (infoItem c p) = .ok ⟨l.infos ++ [bare (c.infos p.2)], l.folders.map fun f =>
      if f.uuid = folder.uuid then { f with infos := putInfo l.infos (bare (c.infos p.2)) f.infos } else f⟩ := by
  have hhead : ((infoItem c p).1.drop 1).take digestLength = (c.infos p.2).device := List.take_left' hlength
  have hmiddle : ((infoItem c p).1.drop 33).take 16 = p.1.uuid.bytes := by
    rw [drop_infoItem hlength]
    exact List.take_left' p.1.uuid.length_bytes
  unfold loadFolderInfo
  dsimp only
  rw [hhead, hmiddle, drop_infoItem_uuid hlength, if_neg (not_not.mpr hdevice), hfolder, Uuid.ofBytes_bytes]
  rfl

/-- The folder of a record. -/
theorem Begun.find (h : Begun catalog c ps l) (hcat : Cataloged catalog c) (hp : p ∈ shares c) :
    ∃ folder, l.folders.find? (fun folder => folder.uuid.bytes = p.1.uuid.bytes) = some folder ∧
      folder.uuid = p.1.uuid := by
  have hmem : (p.1.id, p.1.uuid) ∈ l.folders.map fun folder => (folder.id, folder.uuid) := by
    rw [h.folders, ← hcat.folders]
    exact List.mem_map_of_mem (mem_shares.mp hp).1
  obtain ⟨folder, hfolder, heq⟩ := List.mem_map.mp hmem
  have huuid : folder.uuid = p.1.uuid := (Prod.mk.inj heq).2
  obtain ⟨found, hfound⟩ :
      ∃ found, l.folders.find? (fun folder => folder.uuid.bytes = p.1.uuid.bytes) = some found := by
    rw [← Option.isSome_iff_exists, List.find?_isSome]
    exact ⟨folder, hfolder, by simp [huuid]⟩
  exact ⟨found, hfound, Uuid.eq_of_bytes (by simpa using List.find?_some hfound)⟩

/-- Nothing is replaced. -/
theorem Begun.putInfo_eq (h : Begun catalog c ps l) (hcat : Cataloged catalog c) (hc : Regular c)
    (hps : ∀ q ∈ ps, q ∈ shares c) (hp : p ∈ shares c) (hnew : p ∉ ps) {folder : Folder} (hfolder : folder ∈ l.folders)
    (huuid : folder.uuid = p.1.uuid) :
    putInfo l.infos (bare (c.infos p.2)) folder.infos = folder.infos ++ [ps.length] := by
  unfold putInfo
  rw [h.infos, List.length_map]
  congr 1
  refine List.filter_eq_self.mpr fun fi hfi => ?_
  obtain ⟨q, hq, hquuid⟩ := (h.listed folder hfolder fi).mp hfi
  have hmem : q ∈ ps := List.mem_of_getElem? hq
  have hne : q ≠ p := by
    rintro rfl
    exact hnew hmem
  have hget : (ps.map fun p => bare (c.infos p.2)).getD fi default = bare (c.infos q.2) := by
    rw [List.getD_eq_getElem?_getD, List.getElem?_map, hq]
    rfl
  rw [hget, decide_eq_true_eq]
  exact ⟨fun heq => hne (hc.uuids q (hps q hmem) p hp heq),
    fun heq => hne (hcat.once q (hps q hmem) p hp (hquuid.trans huuid) heq)⟩

/-- **One more record**. -/
theorem Begun.step (h : Begun catalog c ps l) (hcat : Cataloged catalog c) (hc : Regular c)
    (hps : ∀ q ∈ ps, q ∈ shares c) (hp : p ∈ shares c) (hnew : p ∉ ps) :
    ∃ l', loadFolderInfo catalog.devices l (infoItem c p) = .ok l' ∧ Begun catalog c (ps ++ [p]) l' := by
  obtain ⟨folder, hfind, huuid⟩ := h.find hcat hp
  obtain ⟨hdevice, hlength⟩ := hcat.devices p hp
  refine ⟨_, loadFolderInfo_item hdevice hlength hfind, ?_, ?_, ?_⟩
  · rw [h.infos, List.map_append]
    rfl
  · rw [← h.folders, List.map_map]
    refine List.map_congr_left fun f _ => ?_
    dsimp only [Function.comp_apply]
    split <;> rfl
  · intro f' hf' fi
    obtain ⟨f, hf, rfl⟩ := List.mem_map.mp hf'
    have hlisted := h.listed f hf fi
    -- the address of the new folder info is the length of the row
    have hsplit : (∃ q, (ps ++ [p])[fi]? = some q ∧ q.1.uuid = f.uuid) ↔
        (∃ q, ps[fi]? = some q ∧ q.1.uuid = f.uuid) ∨ fi = ps.length ∧ p.1.uuid = f.uuid := by
      rcases Nat.lt_trichotomy fi ps.length with hlt | rfl | hlt
      · rw [List.getElem?_append_left hlt]
        exact ⟨.inl, fun h => h.resolve_right fun hlast => absurd hlast.1 (Nat.ne_of_lt hlt)⟩
      · simp
      · rw [List.getElem?_eq_none (by simpa using hlt), List.getElem?_eq_none (Nat.le_of_lt hlt)]
        simp [Nat.ne_of_gt hlt]
    by_cases hsame : f.uuid = folder.uuid
    · rw [if_pos hsame]
      dsimp only
      rw [h.putInfo_eq hcat hc hps hp hnew hf (hsame.trans huuid), List.mem_append, List.mem_singleton, hlisted, hsplit]
      exact or_congr_right (by rw [hsame, huuid]; exact (and_iff_left rfl).symm)
    · rw [if_neg hsame, hlisted, hsplit]
      refine ⟨.inl, fun h => h.resolve_right fun hlast => hsame ?_⟩
      rw [← hlast.2, huuid]

/-- **All records**. -/
theorem Begun.run (hcat : Cataloged catalog c) (hc : Regular c) {qs : List Share} :
    ∀ {ps : List Share} {l : Loading}, Begun catalog c ps l → (∀ q ∈ ps ++ qs, q ∈ shares c) → (ps ++ qs).Nodup →
      ∃ l', (qs.map (infoItem c)).foldlM (loadFolderInfo catalog.devices) l = .ok l' ∧
        Begun catalog c (ps ++ qs) l' := by
  induction qs with
  | nil =>
    intro ps l h _ _
    exact ⟨l, rfl, by rwa [List.append_nil]⟩
  | cons q qs ih =>
    intro ps l h hall hnodup
    have hnot : q ∉ ps := fun hmem => (List.nodup_append.mp hnodup).2.2 q hmem q (List.mem_cons_self ..) rfl
    obtain ⟨mid, hmid, hbegun⟩ := h.step hcat hc (fun q' hq' => hall q' (List.mem_append_left _ hq'))
      (hall q (by simp)) hnot
    obtain ⟨l', hl', hend⟩ := ih hbegun (by rwa [← List.append_cons]) (by rwa [← List.append_cons])
    refine ⟨l', ?_, by rwa [List.append_cons]⟩
    rw [List.map_cons, List.foldlM_cons, hmid]
    exact hl'

end Begin

/-! ## Corresponding folder infos -/

/-- The same folder info at another address, apart from the files. -/
def Matches (c : Cluster) (s : Store) (p p' : Share) : Prop :=
  p.1.uuid = p'.1.uuid ∧ bare (c.infos p.2) = bare (s.infos p'.2)

/-- The folder infos of the one model are those of the other one, in other places. -/
structure Twin (c c' : Cluster) : Prop where
  back : ∀ p' ∈ shares c', ∃ p ∈ shares c, Matches c c'.toStore p p'
  forth : ∀ p ∈ shares c, ∃ p' ∈ shares c', Matches c c'.toStore p p'
  uuids : ∀ p ∈ shares c', ∀ q ∈ shares c', (c'.infos p.2).uuid = (c'.infos q.2).uuid → p = q

section Twins

variable {catalog : Catalog} {c c' : Cluster} {ps : List Share} {l : Loading} {p p' : Share} {t : Store}

theorem Matches.uuid (h : Matches c t p p') : (c.infos p.2).uuid = (t.infos p'.2).uuid := (bare_eq h.2).1

theorem Matches.maxSequence (h : Matches c t p p') : (c.infos p.2).maxSequence = (t.infos p'.2).maxSequence :=
  (bare_eq h.2).2.2.1

theorem Matches.infoKey (h : Matches c c'.toStore p p') : infoKey c p = infoKey c' p' := by
  obtain ⟨huuid, hdevice, -⟩ := bare_eq h.2
  unfold Database.infoKey
  rw [hdevice, h.1, huuid]

theorem Matches.infoValue (h : Matches c c'.toStore p p') : infoValue (c.infos p.2) = infoValue (c'.infos p'.2) := by
  obtain ⟨-, -, hsequence, hindex, hintroducer⟩ := bare_eq h.2
  unfold Database.infoValue
  rw [hindex, hsequence, hintroducer]

/-- Only the files have changed. -/
theorem Twin.of_bare (h : Twin c c') (hinfos : ∀ fi, bare (t.infos fi) = bare (c'.infos fi)) :
    Twin c { c' with toStore := t } where
  back p' hp' := by
    obtain ⟨p, hp, hfolder, hbare⟩ := h.back p' hp'
    exact ⟨p, hp, hfolder, hbare.trans (hinfos p'.2).symm⟩
  forth p hp := by
    obtain ⟨p', hp', hfolder, hbare⟩ := h.forth p hp
    exact ⟨p', hp', hfolder, hbare.trans (hinfos p'.2).symm⟩
  uuids p hp q hq huuid := by
    refine h.uuids p hp q hq ?_
    have hsame : ∀ fi, (t.infos fi).uuid = (c'.infos fi).uuid := fun fi => (bare_eq (hinfos fi)).1
    rwa [← hsame, ← hsame]

/-- The devices and the folders are the same. -/
theorem Twin.cataloged (h : Twin c c') (hcat : Cataloged catalog c)
    (hfolders : c'.folders.map (fun folder => (folder.id, folder.uuid)) = catalog.folders) : Cataloged catalog c' where
  folders := hfolders
  distinct := hcat.nodup_uuids hfolders
  devices p' hp' := by
    obtain ⟨p, hp, -, hbare⟩ := h.back p' hp'
    rw [← (bare_eq hbare).2.1]
    exact hcat.devices p hp
  once p' hp' q' hq' hfolder hdevice := by
    obtain ⟨p, hp, hmatch⟩ := h.back p' hp'
    obtain ⟨q, hq, hmatch'⟩ := h.back q' hq'
    have heq : p = q := by
      refine hcat.once p hp q hq (hmatch.1.trans (hfolder.trans hmatch'.1.symm)) ?_
      rw [(bare_eq hmatch.2).2.1, (bare_eq hmatch'.2).2.1, hdevice]
    rw [heq] at hmatch
    exact h.uuids p' hp' q' hq' (hmatch.uuid.symm.trans hmatch'.uuid)

/-- The model that the load begins with. -/
def begun (l : Loading) : Cluster := ⟨Store.initial fun fi => l.infos.getD fi default, l.folders⟩

theorem Begun.infos_eq (h : Begun catalog c ps l) (fi : FolderInfoId) :
    (begun l).infos fi = ((ps[fi]?).map fun p => bare (c.infos p.2)).getD default := by
  show l.infos.getD fi default = _
  rw [h.infos, List.getD_eq_getElem?_getD, List.getElem?_map]

theorem Begun.files_eq_nil (h : Begun catalog c ps l) (fi : FolderInfoId) : ((begun l).infos fi).files = [] := by
  rw [h.infos_eq]
  cases ps[fi]? <;> rfl

theorem Begun.twin (h : Begun catalog c ps l) (hcat : Cataloged catalog c) (hc : Regular c)
    (hall : ∀ p, p ∈ ps ↔ p ∈ shares c) (hnodup : ps.Nodup) : Twin c (begun l) := by
  -- an address is a place in the row, and each share of the other model has one place there
  have hlisted : ∀ p' ∈ shares (begun l), ∃ p, ps[p'.2]? = some p ∧ p.1.uuid = p'.1.uuid := fun p' hp' =>
    (h.listed p'.1 (mem_shares.mp hp').1 p'.2).mp (mem_shares.mp hp').2
  have hget : ∀ {fi p}, ps[fi]? = some p → bare (c.infos p.2) = bare ((begun l).infos fi) := by
    intro fi p hp
    rw [h.infos_eq, hp]
    rfl
  have hdistinct : (l.folders.map Folder.uuid).Nodup := hcat.nodup_uuids h.folders
  refine ⟨fun p' hp' => ?_, fun p hp => ?_, fun p' hp' q' hq' huuid => ?_⟩
  · obtain ⟨p, hp, hfolder⟩ := hlisted p' hp'
    exact ⟨p, (hall p).mp (List.mem_of_getElem? hp), hfolder, hget hp⟩
  · obtain ⟨i, hi⟩ := List.mem_iff_getElem?.mp ((hall p).mpr hp)
    obtain ⟨folder, hfind, huuid⟩ := h.find hcat hp
    have hfolder := List.mem_of_find?_eq_some hfind
    exact ⟨(folder, i), mem_shares.mpr ⟨hfolder, (h.listed folder hfolder i).mpr ⟨p, hi, huuid.symm⟩⟩,
      huuid.symm, hget hi⟩
  · obtain ⟨p, hp, hpfolder⟩ := hlisted p' hp'
    obtain ⟨q, hq, hqfolder⟩ := hlisted q' hq'
    have hpuuid : (c.infos p.2).uuid = ((begun l).infos p'.2).uuid := (bare_eq (hget hp)).1
    have hquuid : (c.infos q.2).uuid = ((begun l).infos q'.2).uuid := (bare_eq (hget hq)).1
    have heq : p = q := hc.uuids p ((hall p).mp (List.mem_of_getElem? hp)) q ((hall q).mp (List.mem_of_getElem? hq))
      (hpuuid.trans (huuid.trans hquuid.symm))
    rw [heq] at hp hpfolder
    obtain ⟨hlt, -⟩ := List.getElem?_eq_some_iff.mp hp
    have haddress : p'.2 = q'.2 := (List.getElem?_inj hlt hnodup).mp (hp.trans hq.symm)
    have hfolder : p'.1 = q'.1 := List.inj_on_of_nodup_map hdistinct (mem_shares.mp hp').1 (mem_shares.mp hq').1
      (hpfolder.symm.trans hqfolder)
    exact Prod.ext hfolder haddress

end Twins

/-! ## The blocks -/

/-- The blocks of the records have been loaded, and nothing else has changed. -/
structure Stocked (s : Store) (items : List (Bytes × Int32)) (t : Store) : Prop where
  sound : Sound ∅ t
  nextFile : t.nextFile = s.nextFile
  infos : t.infos = s.infos
  sizes : ∀ hash size, (t.byHash hash).map (fun b => (t.blocks b).size) = some size ↔
    (blockInfoPrefix :: hash, size) ∈ items

section Stock

variable {s t : Store} {items : List (Bytes × Int32)} {hash : Bytes} {size : Int32}

theorem loadBlock_new (hlength : hash.length = digestLength) (hnone : t.byHash hash = none) :
    loadBlock t (blockInfoPrefix :: hash, size) = .ok (t.pushBlock hash size) := by
  unfold loadBlock Store.putBlock
  rw [if_neg (by simp [hlength]), if_neg (by simp), List.drop_one, List.tail_cons, if_neg (by simp [hnone])]

/-- **One more block**. -/
theorem Stocked.step (h : Stocked s items t) (hnone : t.byHash hash = none) :
    Stocked s (items ++ [(blockInfoPrefix :: hash, size)]) (t.pushBlock hash size) := by
  refine ⟨h.sound.pushBlock hash size, h.nextFile, h.infos, fun hash' size' => ?_⟩
  rw [byHash_pushBlock h.sound.mapped, List.mem_append, List.mem_singleton, ← h.sizes]
  by_cases heq : hash' = hash
  · rw [heq, hnone, if_pos rfl]
    simp [Store.pushBlock, eq_comm]
  · rw [if_neg heq, Option.or_none]
    cases hb : t.byHash hash' with
    | none => simp [heq]
    | some b =>
      rw [Option.map_some, Option.map_some, blocks_pushBlock h.sound.mapped hash size (byHash_eq_some hb).1]
      simp [heq]

/-- **All blocks**. -/
theorem Stocked.run {rest : List (Bytes × Int32)} : ∀ {items : List (Bytes × Int32)} {t : Store}, Stocked s items t →
    (∀ item ∈ rest, ∃ hash, item.1 = blockInfoPrefix :: hash ∧ hash.length = digestLength) →
    ((items ++ rest).map Prod.fst).Nodup →
    ∃ u, rest.foldlM loadBlock t = .ok u ∧ Stocked s (items ++ rest) u := by
  induction rest with
  | nil =>
    intro items t h _ _
    exact ⟨t, rfl, by rwa [List.append_nil]⟩
  | cons item rest ih =>
    intro items t h hall hnodup
    obtain ⟨key, size⟩ := item
    obtain ⟨hash, rfl, hlength⟩ := hall (key, size) (List.mem_cons_self ..)
    have hnew : ∀ size', (blockInfoPrefix :: hash, size') ∉ items := by
      intro size' hmem
      rw [List.map_append] at hnodup
      exact (List.nodup_append.mp hnodup).2.2 _ (List.mem_map_of_mem hmem) (blockInfoPrefix :: hash) (by simp) rfl
    -- a block with this hash would be from a record with the same key
    have hnone : t.byHash hash = none := by
      refine Option.eq_none_iff_forall_ne_some.mpr fun b hb => ?_
      exact hnew (t.blocks b).size ((h.sizes hash _).mp (by rw [hb]; rfl))
    obtain ⟨u, hu, hend⟩ := ih (h.step hnone) (fun item hitem => hall item (List.mem_cons_of_mem _ hitem))
      (by rwa [← List.append_cons])
    refine ⟨u, ?_, by rwa [List.append_cons]⟩
    rw [List.foldlM_cons, loadBlock_new hlength hnone]
    exact hu

end Stock

/-! ## A file -/

section File

variable {s t u : Store} {file : FileInfo} {allFi : List FolderInfoId} {key : Bytes} {data : Db.FileInfo}

/-- What the loader needs of a record. -/
def Loadable (record : Db.FileInfo) : Prop :=
  record.name ≠ "" ∧ record.version.counters ≠ [] ∧ (record.size ≠ 0 ∨ record.blocks = [])

/-- A restored file has the record of the stored one. -/
theorem asDb_restored (hc : file.Coherent) (hassigned : ∀ v ∈ file.targets, v ≠ none)
    (hknown : FileDb.KnownBlocks s file) (hmap : FileDb.SameBlockMap s t) :
    FileDb.asDb t (FileDb.restored file (FileDb.loadedSlots s t file)) = FileDb.asDb s file := by
  have htargets := FileDb.targets_restored (s := s) (t := t) hc hassigned
  -- a block of the file, and what is under its hash now
  have hfound : ∀ v ∈ file.targets, ∃ b b', v = some b ∧ (v.map fun b => (s.blocks b).hash).bind t.byHash = some b' ∧
      (t.blocks b').hash = (s.blocks b).hash ∧ (t.blocks b').size = (s.blocks b).size := by
    intro v hv
    obtain ⟨b, rfl⟩ := Option.ne_none_iff_exists'.mp (hassigned v hv)
    obtain ⟨b', hb', hhash, hsize⟩ := FileDb.byHash_of_known hknown hmap hv
    exact ⟨b, b', rfl, hb', hhash, hsize⟩
  have hsizes : (FileDb.restored file (FileDb.loadedSlots s t file)).targets.map t.blockSize =
      file.targets.map s.blockSize := by
    rw [htargets, List.map_map]
    refine List.map_congr_left fun v hv => ?_
    obtain ⟨b, b', rfl, hb', -, hsize⟩ := hfound v hv
    rw [Function.comp_apply, hb']
    simp only [blockSize, Option.map_some, BlockInfo.getSize, hsize]
  have hsize : t.getSize (FileDb.restored file (FileDb.loadedSlots s t file)) = s.getSize file :=
    getSize_congr rfl rfl rfl hsizes
  have hblock : t.getBlockSize (FileDb.restored file (FileDb.loadedSlots s t file)) = s.getBlockSize file := by
    unfold getBlockSize
    rw [htargets, List.head?_map]
    show (if file.isFile then _ else _) = _
    split
    · cases hhead : file.targets.head? with
      | none => rfl
      | some v =>
        obtain ⟨b, b', rfl, hb', -, hsize⟩ := hfound v (List.mem_of_head? hhead)
        rw [Option.map_some, hb']
        simp only [Option.map_some, hsize]
    · rfl
  have hhashes : FileDb.blockHashes t (FileDb.restored file (FileDb.loadedSlots s t file)) =
      FileDb.blockHashes s file := by
    unfold FileDb.blockHashes
    rw [htargets, List.filterMap_map]
    refine List.filterMap_congr fun v hv => ?_
    obtain ⟨b, b', rfl, hb', hhash, -⟩ := hfound v hv
    rw [Function.comp_apply, hb', Option.map_some, Option.map_some, hhash]
  have hlink : file.isFile = false →
      (FileDb.restored file (FileDb.loadedSlots s t file)).linkTarget = file.linkTarget := by
    intro hf
    unfold FileInfo.linkTarget FileDb.restored
    dsimp only
    rw [if_neg (by rw [hf]; exact Bool.false_ne_true)]
    rfl
  have hrecord : ∀ size blockSize, FileDb.record t (FileDb.restored file (FileDb.loadedSlots s t file)) size blockSize =
      FileDb.record s file size blockSize := by
    intro size blockSize
    have hversion : (Version.ofProto file.version.toProto).toProto = file.version.toProto :=
      Version.toProto_ofProto (Version.unmarked_toProto _)
    unfold FileDb.record
    rw [hhashes]
    show ({ FileDb.record s file size blockSize with
      version := (Version.ofProto file.version.toProto).toProto
      symlinkTarget := if file.isFile then "" else
        (FileDb.restored file (FileDb.loadedSlots s t file)).linkTarget } : Db.FileInfo) =
        FileDb.record s file size blockSize
    rw [hversion]
    cases hf : file.isFile with
    | true => simp [FileDb.record, hf]
    | false => simp [FileDb.record, hf, hlink hf]
  unfold FileDb.asDb
  rw [hsize, hblock]
  simp only [hrecord]

/-- What the loader does to the store. -/
theorem loadFile_cases (h : Sound Set.univ t) (hu : FileDb.loadFile t allFi key data = .ok u) :
    ∃ fi v, allFi.find? (fun fi => (t.infos fi).uuid.bytes = (key.drop 1).take 16) = some fi ∧ Sound Set.univ v ∧
      SameBlocks t v ∧ v.nextFile = t.nextFile + 1 ∧ v.infos = t.infos ∧ (∀ g, g ≠ t.nextFile → v.files g = t.files g) ∧
      data.name ≠ "" ∧ data.version.counters ≠ [] ∧ u = v.addRelaxed fi t.nextFile := by
  obtain ⟨fi, hfi, hu⟩ := Fallible.bind_ok.mp hu
  obtain ⟨file, hfile, hu⟩ := Fallible.bind_ok.mp hu
  obtain ⟨v, hv, hu⟩ := Fallible.bind_ok.mp hu
  cases hu
  obtain ⟨folderUuid, uuid, hfields⟩ : ∃ folderUuid uuid,
      FileInfo.fieldsUpdate folderUuid uuid data.fields = some file := by
    unfold FileDb.createFile at hfile
    split at hfile
    · cases hfile
    · split at hfile
      · cases hfile
      · obtain ⟨folderUuid, -, hfile⟩ := Fallible.bind_ok.mp hfile
        obtain ⟨uuid, -, hfile⟩ := Fallible.bind_ok.mp hfile
        split at hfile
        · exact ⟨folderUuid, uuid, FileDb.asserted_ok.mp hfile⟩
        · cases hfile
  obtain ⟨hc, n, hslots⟩ := fieldsUpdate_coherent hfields
  -- `fields_update` refuses the others
  have hnamed : ¬ (data.name = "" ∨ data.version.counters = []) := by
    intro hor
    unfold FileInfo.fieldsUpdate at hfields
    rw [if_pos (show data.fields.name = "" ∨ data.fields.version.counters = [] from hor)] at hfields
    cases hfields
  rw [not_or] at hnamed
  have hv := FileDb.asserted_ok.mp hv
  have hcreate := h.create hc hslots
  obtain ⟨hmarked, hsame, -⟩ := hcreate.toMarked.assignHashes (.inl (Set.mem_univ t.nextFile)) hv
  obtain ⟨⟨l, hl⟩, -⟩ := files_assignHashes hv
  -- blocks are assigned to the new object only, which nobody lists yet
  have hsound : Sound Set.univ v := by
    refine hcreate.of_sameBut hsame (.inl (Nat.lt_succ_self _)) hmarked ?_
    rw [hl]
    exact (hcreate.coherent t.nextFile).setSlots l
  refine ⟨fi, v, FileDb.asserted_ok.mp hfi, hsound, ⟨hsame.hash, hsame.size, hsame.blockMap, hsame.nextBlock⟩,
    hsame.nextFile, hsame.infos, fun g hg => ?_, hnamed.1, hnamed.2, rfl⟩
  rw [hsame.files g hg]
  exact Function.update_of_ne hg _ _

end File

/-! ## The files -/

/-- The object has the record. -/
def Holds (t : Store) (item : Bytes × Db.FileInfo) (g : FileId) : Prop :=
  item.1 = FileDb.key (t.files g) ∧ FileDb.asDb t (t.files g) = some item.2

/-- The record of a listed file whose blocks are all in the block map. -/
structure Stored (c : Cluster) (item : Bytes × Db.FileInfo) (p : Share) (f : FileId) : Prop where
  share : p ∈ shares c
  listed : f ∈ (c.infos p.2).files
  holds : Holds c.toStore item f
  known : FileDb.KnownBlocks c.toStore (c.files f)
  assigned : ∀ v ∈ (c.files f).targets, v ≠ none

/-- The folder infos and the blocks are those of the other model. -/
structure Prepared (c : Cluster) (allFi : List FolderInfoId) (base : Store) : Prop where
  blocks : FileDb.SameBlockMap c.toStore base
  back : ∀ fi ∈ allFi, ∃ p ∈ shares c, bare (c.infos p.2) = bare (base.infos fi)
  forth : ∀ p ∈ shares c, ∃ fi ∈ allFi, bare (c.infos p.2) = bare (base.infos fi)

/-- The slots of the file have the blocks that are found under their hashes. -/
def Found (t : Store) (file : FileInfo) : Prop :=
  ∀ v ∈ file.targets, ∃ b ∈ v, t.byHash (t.blocks b).hash = some b

/-- The files of some records have been loaded. -/
structure Filled (base : Store) (allFi : List FolderInfoId) (items : List (Bytes × Db.FileInfo)) (t : Store) :
    Prop where
  sound : Sound Set.univ t
  blocks : SameBlocks base t
  infos : ∀ fi, bare (t.infos fi) = bare (base.infos fi)
  wf : ∀ fi, t.InfoWF fi
  disjoint : ∀ fi fi', ∀ g ∈ (t.infos fi).files, g ∈ (t.infos fi').files → fi = fi'
  homed : ∀ fi, t.Homed fi
  holds : ∀ fi, ∀ g ∈ (t.infos fi).files, fi ∈ allFi ∧ ∃ item ∈ items, Holds t item g
  loaded : ∀ item ∈ items, ∃ fi ∈ allFi, ∃ g ∈ (t.infos fi).files, Holds t item g
  found : ∀ fi, ∀ g ∈ (t.infos fi).files, Found t (t.files g)

section Fill

variable {c : Cluster} {base t u : Store} {allFi : List FolderInfoId} {items : List (Bytes × Db.FileInfo)}
  {item : Bytes × Db.FileInfo} {p : Share} {f g : FileId} {fi : FolderInfoId}

theorem sameBlockMap_trans {s : Store} (h : FileDb.SameBlockMap s base) (hsame : SameBlocks base t) :
    FileDb.SameBlockMap s t := by
  intro hash
  rw [← h hash, hsame.byHash]
  simp only [hsame.size]

/-- Nothing has been loaded. -/
theorem filled_nil (h : Sound Set.univ base) (hnil : ∀ fi, (base.infos fi).files = []) :
    Filled base allFi [] base := by
  have hnot : ∀ fi g, g ∉ (base.infos fi).files := fun fi g hg => by
    rw [hnil] at hg
    cases hg
  exact ⟨h, SameBlocks.refl base, fun _ => rfl,
    fun fi => ⟨fun g hg => absurd hg (hnot fi g), by rw [hnil]; exact List.nodup_nil,
      fun g hg => absurd hg (hnot fi g), fun g hg => absurd hg (hnot fi g)⟩,
    fun fi _ g hg => absurd hg (hnot fi g), fun fi g hg => absurd hg (hnot fi g),
    fun fi g hg => absurd hg (hnot fi g), fun item hitem => absurd hitem List.not_mem_nil,
    fun fi g hg => absurd hg (hnot fi g)⟩

/-- Other objects do not matter. -/
theorem Found.of_sameBlocks {file : FileInfo} (h : Found t file) (hsame : SameBlocks t u) : Found u file := by
  intro v hv
  obtain ⟨b, hb, hfound⟩ := h v hv
  exact ⟨b, hb, by rw [hsame.hash, hsame.byHash, hfound]⟩

theorem found_restored {s : Store} {file : FileInfo} (hc : file.Coherent) (hassigned : ∀ v ∈ file.targets, v ≠ none)
    (hknown : FileDb.KnownBlocks s file) (hmap : FileDb.SameBlockMap s t) :
    Found t (FileDb.restored file (FileDb.loadedSlots s t file)) := by
  intro v' hv'
  rw [FileDb.targets_restored hc hassigned] at hv'
  obtain ⟨v, hv, rfl⟩ := List.mem_map.mp hv'
  obtain ⟨b, rfl⟩ := Option.ne_none_iff_exists'.mp (hassigned v hv)
  obtain ⟨b', hb', hhash, -⟩ := FileDb.byHash_of_known hknown hmap hv
  exact ⟨b', hb', by rw [hhash]; exact hb'⟩

/-- The names and the sequences of files with the same record. -/
theorem header_of_asDb {s : Store} {a b : FileInfo} {r : Db.FileInfo} (h : FileDb.asDb s a = some r)
    (h' : FileDb.asDb t b = some r) : a.name = b.name ∧ a.sequence = b.sequence := by
  obtain ⟨_, _, -, -, hr⟩ := FileDb.asDb_eq_some.mp h
  obtain ⟨_, _, -, -, hr'⟩ := FileDb.asDb_eq_some.mp h'
  exact ⟨congrArg Db.FileInfo.name (hr.symm.trans hr'), congrArg Db.FileInfo.sequence (hr.symm.trans hr')⟩

theorem key_injective {a b : FileInfo} (h : FileDb.key a = FileDb.key b) :
    a.folderUuid = b.folderUuid ∧ a.uuid = b.uuid :=
  Key.file.inj (@Key.bytes_injective (fileKey a) (fileKey b) h)

/-- The folder info where the file of a record goes to. -/
theorem Filled.target (h : Filled base allFi items t) (hb : Prepared c allFi base) (hc : Regular c)
    (hs : Stored c item p f) : ∃ fi ∈ allFi, (t.infos fi).uuid = (c.files f).folderUuid := by
  obtain ⟨fi, hfi, hbare⟩ := hb.forth p hs.share
  refine ⟨fi, hfi, ?_⟩
  have huuid : (c.infos p.2).uuid = (t.infos fi).uuid :=
    (bare_eq (hbare.trans (h.infos fi).symm)).1
  rw [← huuid]
  exact (hc.homed p hs.share f hs.listed).symm

/-- The loader, applied to such a record. -/
theorem load_stored (hmap : FileDb.SameBlockMap c.toStore t)
    (hfi : ∃ fi ∈ allFi, (t.infos fi).uuid = (c.files f).folderUuid) (hc : Regular c) (hs : Stored c item p f)
    (hname : item.2.name ≠ "") (hcount : item.2.version.counters ≠ []) :
    ((∃ u, FileDb.loadFile t allFi item.1 item.2 = .ok u) ↔ item.2.size ≠ 0 ∨ item.2.blocks = []) ∧
      ∀ u, FileDb.loadFile t allFi item.1 item.2 = .ok u →
        u.files t.nextFile = FileDb.restored (c.files f) (FileDb.loadedSlots c.toStore t (c.files f)) := by
  obtain ⟨key, data⟩ := item
  obtain ⟨hkey, hdata⟩ := hs.holds
  obtain ⟨size, blockSize, -, -, hrecord⟩ := FileDb.asDb_eq_some.mp hdata
  have hcoherent := hc.sound.coherent f
  dsimp only at hkey hrecord hname hcount ⊢
  subst hkey hrecord
  have hversion : (c.files f).version.counters ≠ [] := by
    intro hnil
    exact hcount (by simp [FileDb.record, Version.toProto, hnil])
  obtain ⟨honly, hif⟩ := FileDb.load_record hcoherent hname hversion hs.known hmap hfi size blockSize
  have hblocks := FileDb.blocks_record (s := c.toStore) hcoherent size blockSize
  rw [hblocks]
  refine ⟨⟨?_, fun hor => ?_⟩, fun u hu => ?_⟩
  · rintro ⟨u, hu⟩
    exact honly u hu
  · obtain ⟨u, hu, -⟩ := hif hor
    exact ⟨u, hu⟩
  · obtain ⟨u', hu', -, -, hfile⟩ := hif (honly u hu)
    rw [hu] at hu'
    cases hu'
    exact hfile

/-- The keys of the new file are free. -/
theorem Filled.keysDiffer (h : Filled base allFi items t) (hc : Regular c)
    (hstored : ∀ item ∈ items, ∃ p f, Stored c item p f) (hs : Stored c item p f)
    (hnew : ∀ item' ∈ items, item'.1 ≠ item.1) (huuid : (t.infos fi).uuid = (c.infos p.2).uuid)
    (hg : g ∈ (t.infos fi).files) : KeysDiffer (t.files g) (c.files f) := by
  obtain ⟨-, item', hitem', hholds⟩ := h.holds fi g hg
  obtain ⟨p', f', hs'⟩ := hstored item' hitem'
  obtain ⟨hfolder, hfile⟩ := key_injective (hholds.1.symm.trans hs'.holds.1)
  obtain ⟨hname, hsequence⟩ := header_of_asDb hholds.2 hs'.holds.2
  -- both records are from one folder info, where the keys are distinct
  have heq : p' = p := by
    refine hc.uuids p' hs'.share p hs.share ?_
    rw [← hc.homed p' hs'.share f' hs'.listed, ← hfolder, h.homed fi g hg, huuid]
  have hne : f' ≠ f := by
    rintro rfl
    exact hnew item' hitem' (hs'.holds.1.trans hs.holds.1.symm)
  obtain ⟨hkey₁, hkey₂, hkey₃⟩ := (hc.infos p.2).keys f' (heq ▸ hs'.listed) f hs.listed hne
  exact ⟨by rwa [hfile], by rwa [hname], by rwa [hsequence]⟩

/-- The folder info has one more file. -/
def enlist (infos : FolderInfoId → FolderInfo) (fi : FolderInfoId) (g : FileId) : FolderInfoId → FolderInfo :=
  Function.update infos fi { infos fi with files := (infos fi).files ++ [g] }

section Enlist

variable {infos : FolderInfoId → FolderInfo} {fi fi' : FolderInfoId} {g g' : FileId}

theorem enlist_self : enlist infos fi g fi = { infos fi with files := (infos fi).files ++ [g] } :=
  Function.update_self ..

theorem enlist_of_ne (h : fi' ≠ fi) : enlist infos fi g fi' = infos fi' := Function.update_of_ne h ..

theorem mem_enlist : g' ∈ (enlist infos fi g fi').files ↔ g' ∈ (infos fi').files ∨ fi' = fi ∧ g' = g := by
  by_cases h : fi' = fi
  · rw [h, enlist_self, List.mem_append, List.mem_singleton]
    exact or_congr_right (and_iff_right rfl).symm
  · rw [enlist_of_ne h]
    exact ⟨.inl, fun hor => hor.resolve_right fun hlast => h hlast.1⟩

theorem bare_enlist : bare (enlist infos fi g fi') = bare (infos fi') := by
  by_cases h : fi' = fi
  · rw [h, enlist_self]
    rfl
  · rw [enlist_of_ne h]

theorem nodup_enlist (h : ∀ fi', (infos fi').files.Nodup) (hnew : g ∉ (infos fi).files) :
    (enlist infos fi g fi').files.Nodup := by
  by_cases heq : fi' = fi
  · rw [heq, enlist_self, List.nodup_append]
    refine ⟨h fi, List.nodup_singleton _, fun a ha b hb hab => hnew ?_⟩
    rwa [← List.mem_singleton.mp hb, ← hab]
  · rw [enlist_of_ne heq]
    exact h fi'

end Enlist

/-- `add_relaxed` of a file with free keys, whose sequence is not a new maximum. -/
theorem addRelaxed_of_free (hfree : ∀ g' ∈ (t.infos fi).files, KeysDiffer (t.files g') (t.files g))
    (hmax : (t.files g).sequence ≤ (t.infos fi).maxSequence) :
    t.addRelaxed fi g = { t with infos := enlist t.infos fi g } := by
  unfold addRelaxed
  rw [put_of_free hfree]
  simp [Store.setMaxSequence, max_eq_left hmax, enlist]

/-- Only objects that are not listed have changed. -/
theorem Filled.frame (h : Filled base allFi items t) (hsound : Sound Set.univ u) (hsame : SameBlocks t u)
    (hinfos : u.infos = t.infos) (hnext : t.nextFile ≤ u.nextFile)
    (hfiles : ∀ fi, ∀ g ∈ (t.infos fi).files, u.files g = t.files g) : Filled base allFi items u := by
  have hholds : ∀ fi, ∀ g ∈ (t.infos fi).files, ∀ item, Holds t item g → Holds u item g := by
    rintro fi g hg item ⟨hkey, hrecord⟩
    unfold Holds
    rw [hfiles fi g hg, asDb_of_records h.sound hsame.sameRecords]
    exact ⟨hkey, hrecord⟩
  constructor
  case sound => exact hsound
  case blocks => exact h.blocks.trans hsame
  case infos => exact hinfos ▸ h.infos
  case wf => exact fun fi => (h.wf fi).of_eq (by rw [hinfos]) hnext (hfiles fi)
  case disjoint => exact hinfos ▸ h.disjoint
  case homed =>
    intro fi g hg
    rw [hinfos] at hg ⊢
    rw [hfiles fi g hg]
    exact h.homed fi g hg
  case holds =>
    intro fi g hg
    rw [hinfos] at hg
    obtain ⟨hfi, item, hitem, hg'⟩ := h.holds fi g hg
    exact ⟨hfi, item, hitem, hholds fi g hg item hg'⟩
  case loaded =>
    intro item hitem
    obtain ⟨fi, hfi, g, hg, hg'⟩ := h.loaded item hitem
    exact ⟨fi, hfi, g, by rwa [hinfos], hholds fi g hg item hg'⟩
  case found =>
    intro fi g hg
    rw [hinfos] at hg
    rw [hfiles fi g hg]
    exact (h.found fi g hg).of_sameBlocks hsame

/-- A new object is listed. -/
theorem Filled.enlist (h : Filled base allFi items t) (hfi : fi ∈ allFi) (hlt : g < t.nextFile)
    (hnew : t.Unlisted g) (hfree : ∀ g' ∈ (t.infos fi).files, KeysDiffer (t.files g') (t.files g))
    (hbound : (t.files g).sequence ≤ (t.infos fi).maxSequence)
    (hhome : (t.files g).folderUuid = (t.infos fi).uuid) (hholds : Holds t item g) (hfound : Found t (t.files g)) :
    Filled base allFi (items ++ [item]) { t with infos := Database.enlist t.infos fi g } := by
  constructor
  case sound =>
    refine h.sound.setInfo fun g' hg' => ?_
    rcases List.mem_append.mp hg' with hold | hlast
    · exact (h.wf fi).allocated g' hold
    · rwa [List.mem_singleton.mp hlast]
  case blocks => exact h.blocks.trans ⟨fun _ => rfl, fun _ => rfl, rfl, rfl⟩
  case infos => exact fun fi' => bare_enlist.trans (h.infos fi')
  case wf =>
    refine fun fi' => ⟨fun g' hg' => ?_, nodup_enlist (fun fi' => (h.wf fi').nodup) (hnew fi),
      fun g₁ h₁ g₂ h₂ hne => ?_, fun g' hg' => ?_⟩
    · rcases mem_enlist.mp hg' with hold | ⟨-, rfl⟩
      · exact (h.wf fi').allocated g' hold
      · exact hlt
    · rcases mem_enlist.mp h₁ with hold₁ | ⟨rfl, rfl⟩ <;> rcases mem_enlist.mp h₂ with hold₂ | hlast
      · exact (h.wf fi').keys g₁ hold₁ g₂ hold₂ hne
      · rw [hlast.2]
        exact hfree g₁ (hlast.1 ▸ hold₁)
      · obtain ⟨huuid, hname, hsequence⟩ := hfree g₂ hold₂
        exact ⟨huuid.symm, hname.symm, hsequence.symm⟩
      · exact absurd hlast.2.symm hne
    · show (t.files g').sequence ≤ (Database.enlist t.infos fi g fi').maxSequence
      rw [(bare_eq bare_enlist).2.2.1]
      rcases mem_enlist.mp hg' with hold | ⟨rfl, rfl⟩
      · exact (h.wf fi').bound g' hold
      · exact hbound
  case disjoint =>
    intro fi₁ fi₂ g' h₁ h₂
    rcases mem_enlist.mp h₁ with hold₁ | ⟨rfl, rfl⟩ <;> rcases mem_enlist.mp h₂ with hold₂ | hlast
    · exact h.disjoint fi₁ fi₂ g' hold₁ hold₂
    · exact absurd (hlast.2 ▸ hold₁) (hnew fi₁)
    · exact absurd hold₂ (hnew fi₂)
    · exact hlast.1.symm
  case homed =>
    intro fi' g' hg'
    show (t.files g').folderUuid = (Database.enlist t.infos fi g fi').uuid
    rw [(bare_eq bare_enlist).1]
    rcases mem_enlist.mp hg' with hold | ⟨rfl, rfl⟩
    · exact h.homed fi' g' hold
    · exact hhome
  case holds =>
    intro fi' g' hg'
    rcases mem_enlist.mp hg' with hold | ⟨rfl, rfl⟩
    · obtain ⟨hfi', item', hitem', hg'⟩ := h.holds fi' g' hold
      exact ⟨hfi', item', List.mem_append_left _ hitem', hg'⟩
    · exact ⟨hfi, item, List.mem_append_right _ (List.mem_singleton_self _), hholds⟩
  case loaded =>
    intro item' hitem'
    rcases List.mem_append.mp hitem' with hold | hlast
    · obtain ⟨fi', hfi', g', hg', hg''⟩ := h.loaded item' hold
      exact ⟨fi', hfi', g', mem_enlist.mpr (.inl hg'), hg''⟩
    · rw [List.mem_singleton.mp hlast]
      exact ⟨fi, hfi, g, mem_enlist.mpr (.inr ⟨rfl, rfl⟩), hholds⟩
  case found =>
    intro fi' g' hg'
    rcases mem_enlist.mp hg' with hold | ⟨rfl, rfl⟩
    · exact h.found fi' g' hold
    · exact hfound

/-- Where the loader puts the file of a record. -/
theorem Filled.located (h : Filled base allFi items t) (hb : Prepared c allFi base) (hc : Regular c)
    (hs : Stored c item p f)
    (hfi : allFi.find? (fun fi => (t.infos fi).uuid.bytes = (item.1.drop 1).take 16) = some fi) :
    (t.infos fi).uuid = (c.infos p.2).uuid ∧ (c.files f).sequence ≤ (t.infos fi).maxSequence := by
  have hhome : (t.infos fi).uuid = (c.infos p.2).uuid := by
    rw [← hc.homed p hs.share f hs.listed]
    refine Uuid.eq_of_bytes ?_
    rw [← FileDb.take_key, ← hs.holds.1]
    simpa using List.find?_some hfi
  refine ⟨hhome, ?_⟩
  obtain ⟨q, hq, hbare⟩ := hb.back fi (List.mem_of_find?_eq_some hfi)
  have hmatch := hbare.trans (h.infos fi).symm
  -- the uuids of the folder infos are distinct
  have heq : q = p := hc.uuids q hq p hs.share ((bare_eq hmatch).1.trans hhome)
  rw [heq] at hmatch
  rw [← (bare_eq hmatch).2.2.1]
  exact (hc.infos p.2).bound f hs.listed

/-- **One more file**. -/
theorem Filled.step (h : Filled base allFi items t) (hb : Prepared c allFi base) (hc : Regular c)
    (hstored : ∀ item ∈ items, ∃ p f, Stored c item p f) (hs : Stored c item p f)
    (hnew : ∀ item' ∈ items, item'.1 ≠ item.1) (hu : FileDb.loadFile t allFi item.1 item.2 = .ok u) :
    Loadable item.2 ∧ Filled base allFi (items ++ [item]) u := by
  obtain ⟨fi, v, hfind, hsound, hsame, hnext, hinfos, hfiles, hname, hcount, rfl⟩ := loadFile_cases h.sound hu
  have hmap := sameBlockMap_trans hb.blocks h.blocks
  obtain ⟨hiff, hfile⟩ := load_stored hmap (h.target hb hc hs) hc hs hname hcount
  have hloaded : v.files t.nextFile = FileDb.restored (c.files f) (FileDb.loadedSlots c.toStore v (c.files f)) := by
    have hby : v.byHash = t.byHash := funext hsame.byHash
    have hslots : FileDb.loadedSlots c.toStore v = FileDb.loadedSlots c.toStore t := by
      unfold FileDb.loadedSlots
      rw [hby]
    rw [hslots]
    exact hfile (v.addRelaxed fi t.nextFile) hu
  refine ⟨⟨hname, hcount, hiff.mp ⟨_, hu⟩⟩, ?_⟩
  obtain ⟨hhome, hbound⟩ := h.located hb hc hs hfind
  have hframe : Filled base allFi items v := h.frame hsound hsame hinfos (by rw [hnext]; exact Nat.le_succ _)
    fun fi g hg => hfiles g (Nat.ne_of_lt ((h.wf fi).allocated g hg))
  -- first there is an object that is not listed, then it is
  have hunlisted : v.Unlisted t.nextFile := by
    intro fi hg
    rw [hinfos] at hg
    exact Nat.lt_irrefl _ ((h.wf fi).allocated _ hg)
  rw [← hinfos] at hhome hbound
  -- what is said of the stored file is true of the restored one
  have hfree : ∀ g ∈ (v.infos fi).files, KeysDiffer (v.files g) (v.files t.nextFile) := by
    intro g hg
    rw [hloaded]
    exact hframe.keysDiffer hc hstored hs hnew hhome hg
  have hmax : (v.files t.nextFile).sequence ≤ (v.infos fi).maxSequence := by
    rw [hloaded]
    exact hbound
  have hholds : Holds v item t.nextFile := by
    refine ⟨by rw [hloaded]; exact hs.holds.1, ?_⟩
    rw [hloaded, asDb_restored (hc.sound.coherent f) hs.assigned hs.known (sameBlockMap_trans hmap hsame)]
    exact hs.holds.2
  rw [addRelaxed_of_free hfree hmax]
  refine hframe.enlist (List.mem_of_find?_eq_some hfind) (by rw [hnext]; exact Nat.lt_succ_self _) hunlisted hfree hmax
    ?_ hholds ?_
  · rw [hloaded, hhome]
    exact hc.homed p hs.share f hs.listed
  · rw [hloaded]
    exact found_restored (hc.sound.coherent f) hs.assigned hs.known (sameBlockMap_trans hmap hsame)

theorem loadFileInfo_ok : loadFileInfo allFi t item = .ok u ↔ FileDb.loadFile t allFi item.1 item.2 = .ok u := by
  unfold loadFileInfo
  cases FileDb.loadFile t allFi item.1 item.2 <;> simp [Except.mapError]

/-- **All files**: the loop succeeds exactly if every record can be loaded. -/
theorem Filled.run (hb : Prepared c allFi base) (hc : Regular c) {rest : List (Bytes × Db.FileInfo)} :
    ∀ {items : List (Bytes × Db.FileInfo)} {t : Store}, Filled base allFi items t →
      (∀ item ∈ items ++ rest, ∃ p f, Stored c item p f) → ((items ++ rest).map Prod.fst).Nodup →
      ((∃ u, rest.foldlM (loadFileInfo allFi) t = .ok u) ↔ ∀ item ∈ rest, Loadable item.2) ∧
        ∀ u, rest.foldlM (loadFileInfo allFi) t = .ok u → Filled base allFi (items ++ rest) u := by
  induction rest with
  | nil =>
    intro items t h _ _
    refine ⟨⟨fun _ item hitem => absurd hitem List.not_mem_nil, fun _ => ⟨t, rfl⟩⟩, fun u hu => ?_⟩
    cases hu
    rwa [List.append_nil]
  | cons item rest ih =>
    intro items t h hall hnodup
    obtain ⟨p, f, hs⟩ := hall item (by simp)
    have hstored : ∀ item ∈ items, ∃ p f, Stored c item p f := fun item hitem =>
      hall item (List.mem_append_left _ hitem)
    have hnew : ∀ item' ∈ items, item'.1 ≠ item.1 := by
      intro item' hitem' heq
      rw [List.map_append] at hnodup
      exact (List.nodup_append.mp hnodup).2.2 _ (List.mem_map_of_mem hitem') item.1 (by simp) heq
    -- what the rest of the loop does
    have hnext : ∀ mid, loadFileInfo allFi t item = .ok mid → Loadable item.2 ∧
        ((∃ u, rest.foldlM (loadFileInfo allFi) mid = .ok u) ↔ ∀ item ∈ rest, Loadable item.2) ∧
          ∀ u, rest.foldlM (loadFileInfo allFi) mid = .ok u → Filled base allFi (items ++ item :: rest) u := by
      intro mid hmid
      obtain ⟨hloadable, hfilled⟩ := h.step hb hc hstored hs hnew (loadFileInfo_ok.mp hmid)
      have hrest := ih hfilled (by rwa [← List.append_cons]) (by rwa [← List.append_cons])
      rw [← List.append_cons] at hrest
      exact ⟨hloadable, hrest⟩
    simp only [List.foldlM_cons, Fallible.bind_ok]
    constructor
    · constructor
      · rintro ⟨u, mid, hmid, hu⟩
        obtain ⟨hloadable, hiff, -⟩ := hnext mid hmid
        exact List.forall_mem_cons.mpr ⟨hloadable, hiff.mp ⟨u, hu⟩⟩
      · intro hloadable
        obtain ⟨hname, hcount, hsized⟩ := hloadable item (List.mem_cons_self ..)
        have hmap := sameBlockMap_trans hb.blocks h.blocks
        obtain ⟨mid, hmid⟩ := (load_stored hmap (h.target hb hc hs) hc hs hname hcount).1.mpr hsized
        obtain ⟨-, hiff, -⟩ := hnext mid (loadFileInfo_ok.mpr hmid)
        obtain ⟨u, hu⟩ := hiff.mpr fun item hitem => hloadable item (List.mem_cons_of_mem _ hitem)
        exact ⟨u, mid, loadFileInfo_ok.mpr hmid, hu⟩
    · rintro u ⟨mid, hmid, hu⟩
      exact (hnext mid hmid).2.2 u hu

end Fill

end Database

end SyncSpirit
