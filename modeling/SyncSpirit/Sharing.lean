import SyncSpirit.Network
import SyncSpirit.Lib.Fallible
import SyncSpirit.Lib.Keyed

/-!
# Who shares what with whom

What a diff does to the folder infos, without their files: `Network.rows` lists the
folder infos as rows of a table, with the keys that the maps go by. `Network.Tidy` is
the invariant of the maps: no key occurs twice. `Effect` says what a change does to
rows, devices, folders and pending folders, and `apply_effect` that every change which
succeeds does just that, as long as the uuids it brings are new.
-/

namespace SyncSpirit

open Fallible

/-- A folder info without its files. -/
structure Row where
  folderId : String
  folder : Uuid
  info : FolderInfoId
  uuid : Uuid
  device : Sha256
  introducer : Sha256
  deriving DecidableEq, Repr

/-- `folder_info_t::get_key`. -/
def Row.key (r : Row) : Uuid × Sha256 := (r.folder, r.device)

namespace Network

/-- The row of a folder info. -/
def row (n : Network) (folder : Folder) (fi : FolderInfoId) : Row :=
  ⟨folder.id, folder.uuid, fi, (n.infos fi).uuid, (n.infos fi).device, (n.infos fi).introducer⟩

/-- The rows of a folder. -/
def rowsOf (n : Network) (folder : Folder) : List Row := folder.infos.map (n.row folder)

/-- All folder infos. -/
def rows (n : Network) : List Row := n.folders.flatMap n.rowsOf

/-- The known devices. -/
def ids (n : Network) : List Sha256 := n.devices.map Device.id

theorem deref_ok {α : Type} {o : Option α} {a : α} : deref o = .ok a ↔ o = some a := by
  cases o <;> simp [deref]

theorem mem_rows {n : Network} {r : Row} :
    r ∈ n.rows ↔ ∃ folder ∈ n.folders, ∃ fi ∈ folder.infos, n.row folder fi = r := by
  simp [rows, rowsOf]

theorem mem_ids {n : Network} {id : Sha256} : id ∈ n.ids ↔ (n.device? id).isSome = true := by
  simp [ids, device?, List.find?_isSome]

theorem id_of_device? {n : Network} {id : Sha256} {d : Device} (h : n.device? id = some d) : d.id = id := by
  simpa using List.find?_some h

theorem mem_shares {n : Network} {share : Share} :
    share ∈ n.shares ↔ share.1 ∈ n.folders ∧ share.2 ∈ share.1.infos := by
  obtain ⟨folder, fi⟩ := share
  simp [shares]

/-- The maps are in order: no key occurs twice. -/
structure Tidy (n : Network) : Prop where
  folderIds : (n.folders.map Folder.id).Nodup
  folderUuids : (n.folders.map Folder.uuid).Nodup
  infos : (n.rows.map Row.info).Nodup
  uuids : (n.rows.map Row.uuid).Nodup
  keys : (n.rows.map Row.key).Nodup
  allocated : ∀ r ∈ n.rows, r.info < n.nextInfo
  pendingKeys : (n.pendingFolders.map PendingFolder.key).Nodup
  pendingIds : (n.pendingFolders.map PendingFolder.id).Nodup

namespace Tidy

variable {n : Network} (h : n.Tidy)

include h

theorem folderById_iff {id : String} {folder : Folder} :
    n.folderById id = some folder ↔ folder ∈ n.folders ∧ folder.id = id :=
  Keyed.find?_iff h.folderIds

theorem folderByUuid_iff {uuid : Uuid} {folder : Folder} :
    n.folderByUuid uuid = some folder ↔ folder ∈ n.folders ∧ folder.uuid = uuid :=
  Keyed.find?_iff h.folderUuids

/-- A device has one folder info in a folder. -/
theorem devices {folder : Folder} (hfolder : folder ∈ n.folders) :
    (folder.infos.map fun fi => (n.infos fi).device).Nodup := by
  obtain ⟨s, t, hfolders⟩ := List.append_of_mem hfolder
  have hkeys := h.keys
  rw [rows, hfolders, List.flatMap_append, List.flatMap_cons, List.map_append, List.map_append] at hkeys
  have hof := (List.nodup_append.mp (List.nodup_append.mp hkeys).2.1).1
  rw [rowsOf, List.map_map] at hof
  refine List.Nodup.of_map (fun d => (folder.uuid, d)) ?_
  rw [List.map_map]
  exact hof

theorem byDeviceId_iff {folder : Folder} (hfolder : folder ∈ n.folders) {device : Sha256}
    {fi : FolderInfoId} : n.byDeviceId folder device = some fi ↔
      fi ∈ folder.infos ∧ (n.infos fi).device = device :=
  Keyed.find?_iff (h.devices hfolder)

theorem share?_iff {folderId : String} {device : Sha256} {share : Share} :
    n.share? folderId device = some share ↔ share.1 ∈ n.folders ∧ share.1.id = folderId ∧
      share.2 ∈ share.1.infos ∧ (n.infos share.2).device = device := by
  obtain ⟨folder, fi⟩ := share
  unfold share?
  rw [Option.bind_eq_some_iff]
  constructor
  · rintro ⟨folder', hfolder', hmap⟩
    obtain ⟨fi', hfi', heq⟩ := Option.map_eq_some_iff.mp hmap
    cases heq
    obtain ⟨hmem, hid⟩ := h.folderById_iff.mp hfolder'
    exact ⟨hmem, hid, (h.byDeviceId_iff hmem).mp hfi'⟩
  · rintro ⟨hmem, hid, hfi⟩
    refine ⟨folder, h.folderById_iff.mpr ⟨hmem, hid⟩, ?_⟩
    rw [(h.byDeviceId_iff hmem).mpr hfi]
    rfl

/-- A row is determined by its key. -/
theorem eq_of_key {r r' : Row} (hr : r ∈ n.rows) (hr' : r' ∈ n.rows) (hkey : r.key = r'.key) : r = r' :=
  List.inj_on_of_nodup_map h.keys hr hr' hkey

/-- A folder info is in one folder. -/
theorem eq_of_info {r r' : Row} (hr : r ∈ n.rows) (hr' : r' ∈ n.rows) (hinfo : r.info = r'.info) :
    r = r' :=
  List.inj_on_of_nodup_map h.infos hr hr' hinfo

theorem eq_of_folderId {f g : Folder} (hf : f ∈ n.folders) (hg : g ∈ n.folders) (hid : f.id = g.id) :
    f = g :=
  List.inj_on_of_nodup_map h.folderIds hf hg hid

theorem eq_of_folderUuid {f g : Folder} (hf : f ∈ n.folders) (hg : g ∈ n.folders)
    (huuid : f.uuid = g.uuid) : f = g :=
  List.inj_on_of_nodup_map h.folderUuids hf hg huuid

/-! ### Shares and rows -/

theorem eq_of_row {share share' : Share} (hs : share ∈ n.shares) (hs' : share' ∈ n.shares)
    (hinfo : share.2 = share'.2) : share = share' := by
  obtain ⟨hf, hfi⟩ := mem_shares.mp hs
  obtain ⟨hf', hfi'⟩ := mem_shares.mp hs'
  have hrow := h.eq_of_info (mem_rows.mpr ⟨_, hf, _, hfi, rfl⟩) (mem_rows.mpr ⟨_, hf', _, hfi', rfl⟩) hinfo
  exact Prod.ext (h.eq_of_folderId hf hf' (congrArg Row.folderId hrow)) hinfo

theorem nodup_shares : n.shares.Nodup := by
  refine List.Nodup.of_map Prod.snd ?_
  have hmap : n.shares.map Prod.snd = n.rows.map Row.info := by
    simp only [shares, rows, rowsOf, List.map_flatMap, List.map_map]
    rfl
  rw [hmap]
  exact h.infos

theorem mem_sharesOf {device : Sha256} {share : Share} :
    share ∈ n.sharesOf device ↔ share ∈ n.shares ∧ (n.infos share.2).device = device := by
  unfold sharesOf
  rw [List.mem_filterMap, mem_shares]
  constructor
  · rintro ⟨folder, hfolder, hmap⟩
    obtain ⟨fi, hfi, rfl⟩ := Option.map_eq_some_iff.mp hmap
    obtain ⟨hmem, hdevice⟩ := (h.byDeviceId_iff hfolder).mp hfi
    exact ⟨⟨hfolder, hmem⟩, hdevice⟩
  · rintro ⟨⟨hfolder, hmem⟩, hdevice⟩
    refine ⟨share.1, hfolder, ?_⟩
    rw [(h.byDeviceId_iff hfolder).mpr ⟨hmem, hdevice⟩]
    rfl

theorem share?_of_mem {share : Share} (hs : share ∈ n.shares) :
    n.share? share.1.id (n.infos share.2).device = some share := by
  obtain ⟨hf, hfi⟩ := mem_shares.mp hs
  exact h.share?_iff.mpr ⟨hf, rfl, hfi, rfl⟩

end Tidy

/-! ## Rows that come and go -/

section Rows

variable {n : Network}

/-- The identity of a folder info. -/
def SameIdentity (a b : FolderInfo) : Prop :=
  a.uuid = b.uuid ∧ a.device = b.device ∧ a.introducer = b.introducer

theorem rows_congr {t : Network} (hfolders : t.folders = n.folders)
    (hinfos : ∀ fi, SameIdentity (t.infos fi) (n.infos fi)) : t.rows = n.rows := by
  have hrow : t.row = n.row := by
    funext folder fi
    obtain ⟨h₁, h₂, h₃⟩ := hinfos fi
    simp only [row, h₁, h₂, h₃]
  unfold rows
  rw [hfolders]
  unfold rowsOf
  rw [hrow]

@[simp] theorem map_id_setInfos (folderId : String) (infos : List FolderInfoId) :
    (n.setInfos folderId infos).folders.map Folder.id = n.folders.map Folder.id := by
  simp only [setInfos, List.map_map]
  refine List.map_congr_left fun f _ => ?_
  simp only [Function.comp_apply]
  split <;> rfl

@[simp] theorem map_uuid_setInfos (folderId : String) (infos : List FolderInfoId) :
    (n.setInfos folderId infos).folders.map Folder.uuid = n.folders.map Folder.uuid := by
  simp only [setInfos, List.map_map]
  refine List.map_congr_left fun f _ => ?_
  simp only [Function.comp_apply]
  split <;> rfl

/-- Other folder infos in one folder. -/
theorem rows_setInfos (h : n.Tidy) {folder : Folder} (hfolder : folder ∈ n.folders)
    (infos : List FolderInfoId) :
    ∃ s t, n.folders = s ++ folder :: t ∧
      (n.setInfos folder.id infos).rows =
        s.flatMap n.rowsOf ++ infos.map (n.row folder) ++ t.flatMap n.rowsOf := by
  exact Keyed.flatMap_modify h.folderIds hfolder (fun f => { f with infos := infos }) n.rowsOf

/-- **Remove** a folder info by its key. -/
theorem removeFolderInfo_spec (h : n.Tidy) {key : Uuid × Sha256} {t : Network}
    (hok : n.removeFolderInfo key = .ok t) : (∃ r ∈ n.rows, r.key = key) ∧
      t.rows = n.rows.filter (fun r => r.key ≠ key) ∧
      ∃ folderId infos, t = n.setInfos folderId infos := by
  unfold removeFolderInfo at hok
  obtain ⟨folder, hfolder, hok⟩ := bind_ok.mp hok
  obtain ⟨fi, hfi, hok⟩ := bind_ok.mp hok
  cases hok
  obtain ⟨hmem, huuid⟩ := h.folderByUuid_iff.mp (deref_ok.mp hfolder)
  obtain ⟨hfimem, hdevice⟩ := (h.byDeviceId_iff hmem).mp (deref_ok.mp hfi)
  have hrow : n.row folder fi ∈ n.rows := mem_rows.mpr ⟨folder, hmem, fi, hfimem, rfl⟩
  have hkey : (n.row folder fi).key = key := Prod.ext huuid hdevice
  refine ⟨⟨_, hrow, hkey⟩, ?_, folder.id, _, rfl⟩
  -- in another folder every key is different, in this one the device decides
  obtain ⟨s, t, hfolders, hrows⟩ := rows_setInfos h hmem (folder.infos.filter fun g =>
    (n.infos g).uuid ≠ (n.infos fi).uuid ∧ (n.infos g).device ≠ (n.infos fi).device)
  have huuids := h.folderUuids
  rw [hfolders, List.map_append, List.map_cons] at huuids
  obtain ⟨-, hright, hleft⟩ := List.nodup_append.mp huuids
  have hother : ∀ l : List Folder, (∀ g ∈ l, g.uuid ≠ folder.uuid) →
      (l.flatMap n.rowsOf).filter (fun r => r.key ≠ key) = l.flatMap n.rowsOf := by
    intro l hl
    refine List.filter_eq_self.mpr fun r hr => ?_
    obtain ⟨g, hg, hr⟩ := List.mem_flatMap.mp hr
    obtain ⟨gi, -, rfl⟩ := List.mem_map.mp hr
    have hne : (n.row g gi).key ≠ key := fun heq => hl g hg ((congrArg Prod.fst heq).trans huuid.symm)
    simpa using hne
  have hhere : (folder.infos.filter fun g =>
      (n.infos g).uuid ≠ (n.infos fi).uuid ∧ (n.infos g).device ≠ (n.infos fi).device).map (n.row folder) =
      (n.rowsOf folder).filter (fun r => r.key ≠ key) := by
    rw [rowsOf, List.filter_map]
    refine congrArg _ (List.filter_congr fun g hg => ?_)
    have hgrow : n.row folder g ∈ n.rows := mem_rows.mpr ⟨folder, hmem, g, hg, rfl⟩
    by_cases hd : (n.infos g).device = (n.infos fi).device
    · have hgkey : (n.row folder g).key = key := Prod.ext huuid (hd.trans hdevice)
      simp [hd, hgkey]
    · have hu : (n.infos g).uuid ≠ (n.infos fi).uuid := by
        intro hu
        have heq : n.row folder g = n.row folder fi :=
          List.inj_on_of_nodup_map h.uuids hgrow hrow hu
        exact hd (congrArg Row.device heq)
      have hgkey : (n.row folder g).key ≠ key := fun heq =>
        hd ((congrArg Prod.snd heq).trans hdevice.symm)
      simp [hd, hu, hgkey]
  rw [hrows, hhere, rows, hfolders, List.flatMap_append, List.flatMap_cons, List.filter_append,
    List.filter_append, List.append_assoc, hother s, hother t]
  · intro g hg heq
    exact (List.nodup_cons.mp hright).1 (heq ▸ List.mem_map_of_mem hg)
  · intro g hg heq
    exact hleft _ (List.mem_map_of_mem hg) _ (List.mem_cons_self ..) heq

/-- **Add** a folder info for a device that has none in the folder. -/
theorem putInfo_spec (h : n.Tidy) {folder : Folder} (hfolder : folder ∈ n.folders) {info : FolderInfo}
    (hdevice : ∀ r ∈ n.rowsOf folder, r.device ≠ info.device) (huuid : ∀ r ∈ n.rows, r.uuid ≠ info.uuid) :
    (n.putInfo folder info).rows.Perm
      (⟨folder.id, folder.uuid, n.nextInfo, info.uuid, info.device, info.introducer⟩ :: n.rows) := by
  have hin : ∀ g, ∀ fi ∈ g.infos, g ∈ n.folders → n.row g fi ∈ n.rows := fun g fi hfi hg =>
    mem_rows.mpr ⟨g, hg, fi, hfi, rfl⟩
  have hfilter : (folder.infos.filter fun fi =>
      (n.infos fi).uuid ≠ info.uuid ∧ (n.infos fi).device ≠ info.device) = folder.infos := by
    refine List.filter_eq_self.mpr fun fi hfi => ?_
    have h₁ : (n.infos fi).uuid ≠ info.uuid := huuid _ (hin folder fi hfi hfolder)
    have h₂ : (n.infos fi).device ≠ info.device := hdevice _ (List.mem_map_of_mem hfi)
    simpa using ⟨h₁, h₂⟩
  -- the old folder infos keep their addresses
  have hold : ∀ g ∈ n.folders, ∀ fi ∈ g.infos,
      (n.setInfo n.nextInfo info).row g fi = n.row g fi := by
    intro g hg fi hfi
    have hlt : fi < n.nextInfo := h.allocated _ (hin g fi hfi hg)
    simp only [row, setInfo, Function.update_of_ne (Nat.ne_of_lt hlt)]
  have hrowsOf : ∀ l : List Folder, (∀ g ∈ l, g ∈ n.folders) →
      l.flatMap (n.setInfo n.nextInfo info).rowsOf = l.flatMap n.rowsOf := by
    intro l hl
    refine List.flatMap_congr fun g hg => ?_
    exact List.map_congr_left fun fi hfi => hold g (hl g hg) fi hfi
  obtain ⟨s, t, hfolders, hrows⟩ := Keyed.flatMap_modify h.folderIds hfolder
    (fun f => { f with infos := folder.infos ++ [n.nextInfo] }) (n.setInfo n.nextInfo info).rowsOf
  have hs : ∀ g ∈ s, g ∈ n.folders := fun g hg => hfolders ▸ List.mem_append_left _ hg
  have ht : ∀ g ∈ t, g ∈ n.folders := fun g hg =>
    hfolders ▸ List.mem_append_right _ (List.mem_cons_of_mem _ hg)
  have hput : (n.putInfo folder info).rows = s.flatMap n.rowsOf ++ (n.rowsOf folder ++
      [⟨folder.id, folder.uuid, n.nextInfo, info.uuid, info.device, info.introducer⟩]) ++
      t.flatMap n.rowsOf := by
    have hnew : (n.setInfo n.nextInfo info).rowsOf { folder with infos := folder.infos ++ [n.nextInfo] } =
        n.rowsOf folder ++
          [⟨folder.id, folder.uuid, n.nextInfo, info.uuid, info.device, info.introducer⟩] := by
      rw [rowsOf, List.map_append]
      refine congrArg₂ _ (List.map_congr_left fun fi hfi => hold folder hfolder fi hfi) ?_
      simp [row, setInfo]
    rw [← hnew, ← hrowsOf s hs, ← hrowsOf t ht, ← hrows, putInfo, hfilter]
    rfl
  rw [hput, rows, hfolders, List.flatMap_append, List.flatMap_cons, List.append_assoc,
    List.append_assoc]
  refine (List.Perm.append_left _ (List.perm_middle)).trans ?_
  exact List.perm_middle

end Rows

end Network

/-! ## The effect of a change -/

namespace Change

/-- The rows that a change removes. -/
def Drops : Change → Row → Prop
  | .removeFolderInfos keys, r => r.key ∈ keys
  | .removeFolder id, r => r.folderId = id
  | _, _ => False

/-- The devices that a change removes. -/
def gone : Change → List Sha256
  | .removePeer device => [device]
  | _ => []

/-- The devices that a change adds. -/
def joined : Change → List Sha256
  | .updatePeer device => [device.id]
  | _ => []

/-- The uuid that a change brings is new, or that of the same share. -/
def Fresh (n : Network) : Change → Prop
  | .upsertFolder uuid _ => ∀ folder ∈ n.folders, folder.uuid ≠ uuid
  | .upsertFolderInfo uuid device _ folderId _ =>
    ∀ r ∈ n.rows, r.uuid = uuid → r.folderId = folderId ∧ r.device = device
  | _ => True

instance (n : Network) : ∀ c : Change, Decidable (c.Fresh n)
  | .upsertFolder uuid _ => inferInstanceAs (Decidable (∀ folder ∈ n.folders, folder.uuid ≠ uuid))
  | .upsertFolderInfo uuid device _ folderId _ => inferInstanceAs
      (Decidable (∀ r ∈ n.rows, r.uuid = uuid → r.folderId = folderId ∧ r.device = device))
  | .clearViews _ | .removeFiles .. | .removeFolderInfos _ | .removeBlocks _ | .removeFolder _
  | .removePeer _ | .removePendingFolders _ | .addPendingFolders _ | .updateRemoteViews ..
  | .removePendingDevice _ | .removeIgnoredDevice _ | .updatePeer _ => inferInstanceAs (Decidable True)

end Change

/-- What a change does to a network. -/
structure Effect (n : Network) (c : Change) (t : Network) : Prop where
  tidy : t.Tidy
  self : t.self = n.self
  kept : ∀ r ∈ n.rows, ¬ c.Drops r → r ∈ t.rows
  rows : ∀ r ∈ t.rows, (r ∈ n.rows ∧ ¬ c.Drops r) ∨ (r.device ∈ n.ids ∧
    ∃ index, c = .upsertFolderInfo r.uuid r.device r.introducer r.folderId index)
  ids : ∀ id, id ∈ t.ids ↔ (id ∈ n.ids ∧ id ∉ c.gone) ∨ id ∈ c.joined
  folderIds : ∀ id ∈ t.folders.map Folder.id,
    id ∈ n.folders.map Folder.id ∨ ∃ uuid, c = .upsertFolder uuid id
  folderUuids : ∀ uuid ∈ t.folders.map Folder.uuid,
    uuid ∈ n.folders.map Folder.uuid ∨ ∃ id, c = .upsertFolder uuid id

namespace Network

variable {n t : Network}

theorem ids_modifyDevice {id : Sha256} {f : Device → Device}
    (hf : ∀ d ∈ n.devices, d.id = id → (f d).id = id) : (n.modifyDevice id f).ids = n.ids := by
  simp only [ids, modifyDevice, List.map_map]
  refine List.map_congr_left fun d hd => ?_
  simp only [Function.comp_apply]
  split
  · rename_i heq
    rw [hf d hd heq, heq]
  · rfl

/-- A change that leaves the folder infos alone. -/
theorem Tidy.of_same (h : n.Tidy) (hids : t.folders.map Folder.id = n.folders.map Folder.id)
    (huuids : t.folders.map Folder.uuid = n.folders.map Folder.uuid) (hrows : t.rows = n.rows)
    (hnext : t.nextInfo = n.nextInfo)
    (hkeys : (t.pendingFolders.map PendingFolder.key).Nodup)
    (hpending : (t.pendingFolders.map PendingFolder.id).Nodup) : t.Tidy where
  folderIds := hids ▸ h.folderIds
  folderUuids := huuids ▸ h.folderUuids
  infos := hrows ▸ h.infos
  uuids := hrows ▸ h.uuids
  keys := hrows ▸ h.keys
  allocated := by
    rw [hrows, hnext]
    exact h.allocated
  pendingKeys := hkeys
  pendingIds := hpending

theorem Effect.of_same {c : Change} (h : n.Tidy) (hdrops : ∀ r, ¬ c.Drops r)
    (hself : t.self = n.self) (hfolders : t.folders = n.folders)
    (hinfos : ∀ fi, SameIdentity (t.infos fi) (n.infos fi)) (hnext : t.nextInfo = n.nextInfo)
    (hkeys : (t.pendingFolders.map PendingFolder.key).Nodup)
    (hpending : (t.pendingFolders.map PendingFolder.id).Nodup)
    (hids : ∀ id, id ∈ t.ids ↔ (id ∈ n.ids ∧ id ∉ c.gone) ∨ id ∈ c.joined) : Effect n c t := by
  have hrows : t.rows = n.rows := rows_congr hfolders hinfos
  refine ⟨h.of_same (by rw [hfolders]) (by rw [hfolders]) hrows hnext hkeys hpending, hself, ?_, ?_,
    hids, ?_, ?_⟩
  · intro r hr _
    rwa [hrows]
  · intro r hr
    rw [hrows] at hr
    exact .inl ⟨hr, hdrops r⟩
  · intro id hid
    rw [hfolders] at hid
    exact .inl hid
  · intro uuid huuid
    rw [hfolders] at huuid
    exact .inl huuid

/-- Rows are removed. -/
theorem Effect.of_filter {c : Change} (h : n.Tidy) (hself : t.self = n.self)
    (hids : (t.folders.map Folder.id).Sublist (n.folders.map Folder.id))
    (huuids : (t.folders.map Folder.uuid).Sublist (n.folders.map Folder.uuid))
    {p : Row → Bool} (hrows : t.rows = n.rows.filter p) (hp : ∀ r ∈ n.rows, p r = true ↔ ¬ c.Drops r)
    (hnext : t.nextInfo = n.nextInfo) (hpending : t.pendingFolders = n.pendingFolders)
    (hdevices : t.devices = n.devices) (hgone : c.gone = []) (hjoined : c.joined = []) :
    Effect n c t := by
  have hsub : t.rows.Sublist n.rows := hrows ▸ List.filter_sublist
  refine ⟨⟨hids.nodup h.folderIds, huuids.nodup h.folderUuids, (hsub.map _).nodup h.infos,
    (hsub.map _).nodup h.uuids, (hsub.map _).nodup h.keys, ?_, ?_, ?_⟩, hself, ?_, ?_, ?_, ?_, ?_⟩
  · intro r hr
    rw [hnext]
    exact h.allocated r (hsub.subset hr)
  · rw [hpending]
    exact h.pendingKeys
  · rw [hpending]
    exact h.pendingIds
  · intro r hr hdrops
    rw [hrows]
    exact List.mem_filter.mpr ⟨hr, (hp r hr).mpr hdrops⟩
  · intro r hr
    rw [hrows] at hr
    obtain ⟨hr, hpr⟩ := List.mem_filter.mp hr
    exact .inl ⟨hr, (hp r hr).mp hpr⟩
  · intro id
    simp [ids, hdevices, hgone, hjoined]
  · exact fun id hid => .inl (hids.subset hid)
  · exact fun uuid huuid => .inl (huuids.subset huuid)

/-! ### Each change -/

theorem effect_modifyDevice {c : Change} (h : n.Tidy) {id : Sha256} {f : Device → Device}
    (hf : ∀ d ∈ n.devices, d.id = id → (f d).id = id) (hdrops : ∀ r, ¬ c.Drops r)
    (hgone : c.gone = []) (hjoined : ∀ x ∈ c.joined, x ∈ n.ids) : Effect n c (n.modifyDevice id f) := by
  refine Effect.of_same h hdrops rfl rfl (fun fi => ⟨rfl, rfl, rfl⟩) rfl h.pendingKeys h.pendingIds ?_
  intro x
  rw [ids_modifyDevice hf, hgone]
  constructor
  · exact fun hx => .inl ⟨hx, List.not_mem_nil⟩
  · rintro (⟨hx, -⟩ | hx)
    · exact hx
    · exact hjoined x hx

theorem effect_refl {c : Change} (h : n.Tidy) (hdrops : ∀ r, ¬ c.Drops r) (hgone : c.gone = [])
    (hjoined : c.joined = []) : Effect n c n := by
  refine Effect.of_same h hdrops rfl rfl (fun fi => ⟨rfl, rfl, rfl⟩) rfl h.pendingKeys h.pendingIds ?_
  intro x
  simp [hgone, hjoined]

theorem effect_upsertFolder (h : n.Tidy) {uuid : Uuid} {id : String}
    (hfresh : ∀ folder ∈ n.folders, folder.uuid ≠ uuid) :
    Effect n (.upsertFolder uuid id) (n.upsertFolder uuid id) := by
  unfold upsertFolder
  split
  · exact effect_refl h (fun _ hd => hd) rfl rfl
  · rename_i hnone
    have hnew : ∀ folder ∈ n.folders, folder.id ≠ id := by
      intro folder hfolder
      have := List.find?_eq_none.mp hnone folder hfolder
      simpa using this
    have hfilter : n.folders.filter (fun f => f.uuid ≠ uuid) = n.folders :=
      List.filter_eq_self.mpr fun f hf => by simpa using hfresh f hf
    rw [hfilter]
    have hrows : Network.rows { n with folders := n.folders ++ [⟨id, uuid, []⟩] } = n.rows := by
      show (n.folders ++ [(⟨id, uuid, []⟩ : Folder)]).flatMap n.rowsOf = n.rows
      rw [List.flatMap_append]
      exact List.append_nil _
    refine ⟨⟨Keyed.nodup_append h.folderIds hnew, Keyed.nodup_append h.folderUuids hfresh, ?_, ?_, ?_, ?_,
      h.pendingKeys, h.pendingIds⟩, rfl, ?_, ?_, ?_, ?_, ?_⟩
    · rw [hrows]
      exact h.infos
    · rw [hrows]
      exact h.uuids
    · rw [hrows]
      exact h.keys
    · rw [hrows]
      exact h.allocated
    · intro r hr _
      rwa [hrows]
    · intro r hr
      rw [hrows] at hr
      exact .inl ⟨hr, fun hd => hd⟩
    · intro x
      simp [ids, Change.gone, Change.joined]
    · intro x hx
      rw [List.map_append] at hx
      rcases List.mem_append.mp hx with hx | hx
      · exact .inl hx
      · rw [show x = id by simpa using hx]
        exact .inr ⟨uuid, rfl⟩
    · intro x hx
      rw [List.map_append] at hx
      rcases List.mem_append.mp hx with hx | hx
      · exact .inl hx
      · rw [show x = uuid by simpa using hx]
        exact .inr ⟨id, rfl⟩

/-- What `upsert_folder_info_t` looks up. -/
theorem upsertFolderInfo_ok {uuid : Uuid} {device introducer : Sha256} {folderId : String}
    {index : UInt64} (hok : n.upsertFolderInfo uuid device introducer folderId index = .ok t) :
    device ∈ n.ids ∧ ∃ folder, n.folderById folderId = some folder ∧
      ((∃ fi, n.byDeviceId folder device = some fi ∧ t = n.setInfo fi (setIndex (n.infos fi) index)) ∨
        (n.byDeviceId folder device = none ∧
          t = n.putInfo folder ⟨uuid, device, [], 0, index, introducer⟩)) := by
  unfold upsertFolderInfo at hok
  split at hok
  · cases hok
  · rename_i d hd
    refine ⟨mem_ids.mpr (by rw [hd]; rfl), ?_⟩
    split at hok
    · cases hok
    · rename_i folder hfolder
      refine ⟨folder, hfolder, ?_⟩
      split at hok
      · rename_i fi hfi
        cases hok
        exact .inl ⟨fi, hfi, rfl⟩
      · rename_i hnone
        cases hok
        exact .inr ⟨hnone, rfl⟩

theorem effect_upsertFolderInfo (h : n.Tidy) {uuid : Uuid} {device introducer : Sha256}
    {folderId : String} {index : UInt64}
    (hsame : ∀ r ∈ n.rows, r.uuid = uuid → r.folderId = folderId ∧ r.device = device)
    (hok : n.upsertFolderInfo uuid device introducer folderId index = .ok t) :
    Effect n (.upsertFolderInfo uuid device introducer folderId index) t := by
  obtain ⟨hdevice, folder, hfolder, hcase⟩ := upsertFolderInfo_ok hok
  obtain ⟨hmem, hid⟩ := h.folderById_iff.mp hfolder
  rcases hcase with ⟨fi, -, rfl⟩ | ⟨hnone, rfl⟩
  · refine Effect.of_same h (fun _ hd => hd) rfl rfl (fun g => ?_) rfl h.pendingKeys h.pendingIds ?_
    · by_cases hg : g = fi
      · subst hg
        simp only [setInfo, Function.update_self, setIndex]
        split <;> exact ⟨rfl, rfl, rfl⟩
      · simp only [setInfo, Function.update_of_ne hg]
        exact ⟨rfl, rfl, rfl⟩
    · intro x
      simp [ids, setInfo, Change.gone, Change.joined]
  · have hother : ∀ r ∈ n.rowsOf folder, r.device ≠ device := by
      intro r hr heq
      obtain ⟨fi, hfi, rfl⟩ := List.mem_map.mp hr
      have := (h.byDeviceId_iff hmem).mpr ⟨hfi, heq⟩
      rw [hnone] at this
      cases this
    -- the device has no share here, so the uuid is new
    have hfresh : ∀ r ∈ n.rows, r.uuid ≠ uuid := by
      intro r hr heq
      obtain ⟨hf, hd⟩ := hsame r hr heq
      obtain ⟨g, hg, gi, hgi, rfl⟩ := mem_rows.mp hr
      have hgf : g = folder := h.eq_of_folderId hg hmem (hf.trans hid.symm)
      subst hgf
      exact hother _ (List.mem_map_of_mem hgi) hd
    have hperm := @putInfo_spec n h folder hmem ⟨uuid, device, [], 0, index, introducer⟩ hother hfresh
    have hkey : ∀ r ∈ n.rows, r.key ≠ (folder.uuid, device) := by
      intro r hr heq
      obtain ⟨g, hg, gi, hgi, rfl⟩ := mem_rows.mp hr
      have hgf : g = folder := h.eq_of_folderUuid hg hmem (congrArg Prod.fst heq)
      subst hgf
      exact hother _ (List.mem_map_of_mem hgi) (congrArg Prod.snd heq)
    have hids : (n.putInfo folder ⟨uuid, device, [], 0, index, introducer⟩).folders.map Folder.id =
        n.folders.map Folder.id := map_id_setInfos _ _
    have huuids : (n.putInfo folder ⟨uuid, device, [], 0, index, introducer⟩).folders.map Folder.uuid =
        n.folders.map Folder.uuid := map_uuid_setInfos _ _
    refine ⟨⟨?_, ?_, ?_, ?_, ?_, ?_, h.pendingKeys, h.pendingIds⟩, rfl, ?_, ?_, ?_, ?_, ?_⟩
    · rw [hids]
      exact h.folderIds
    · rw [huuids]
      exact h.folderUuids
    · refine (hperm.map _).nodup_iff.mpr (List.nodup_cons.mpr ⟨fun hin => ?_, h.infos⟩)
      obtain ⟨r, hr, heq⟩ := List.mem_map.mp hin
      exact Nat.ne_of_lt (h.allocated r hr) heq
    · refine (hperm.map _).nodup_iff.mpr (List.nodup_cons.mpr ⟨fun hin => ?_, h.uuids⟩)
      obtain ⟨r, hr, heq⟩ := List.mem_map.mp hin
      exact hfresh r hr heq
    · refine (hperm.map _).nodup_iff.mpr (List.nodup_cons.mpr ⟨fun hin => ?_, h.keys⟩)
      obtain ⟨r, hr, heq⟩ := List.mem_map.mp hin
      exact hkey r hr heq
    · intro r hr
      show r.info < n.nextInfo + 1
      rcases List.mem_cons.mp (hperm.subset hr) with rfl | hr
      · exact Nat.lt_succ_self _
      · exact Nat.lt_succ_of_lt (h.allocated r hr)
    · intro r hr _
      exact hperm.symm.subset (List.mem_cons_of_mem _ hr)
    · intro r hr
      rcases List.mem_cons.mp (hperm.subset hr) with rfl | hr
      · refine .inr ⟨hdevice, index, ?_⟩
        rw [hid]
      · exact .inl ⟨hr, fun hd => hd⟩
    · intro x
      simp [ids, putInfo, setInfos, setInfo, Change.gone, Change.joined]
    · intro x hx
      rw [hids] at hx
      exact .inl hx
    · intro x hx
      rw [huuids] at hx
      exact .inl hx

/-- The loop of `remove_files_t` changes files only. -/
theorem removeFiles_identity {fi : FolderInfoId} {uuids : List Uuid} :
    ∀ {s s' : Store}, uuids.foldlM (fun s u => (s.byUuid fi u).map fun f => s.remove fi f) s = some s' →
      ∀ g, SameIdentity (s'.infos g) (s.infos g) := by
  induction uuids with
  | nil =>
    intro s s' h g
    cases h
    exact ⟨rfl, rfl, rfl⟩
  | cons u uuids ih =>
    intro s s' h g
    rw [List.foldlM_cons] at h
    obtain ⟨mid, hmid, h⟩ := Option.bind_eq_some_iff.mp h
    obtain ⟨f, -, rfl⟩ := Option.map_eq_some_iff.mp hmid
    obtain ⟨h₁, h₂, h₃⟩ := ih h g
    by_cases hg : g = fi
    · subst hg
      rw [SameIdentity, h₁, h₂, h₃]
      simp [Store.remove]
    · rw [SameIdentity, h₁, h₂, h₃]
      simp [Store.remove, hg]

theorem effect_removeFiles (h : n.Tidy) {folderId : String} {device : Sha256} {uuids : List Uuid}
    (hok : n.removeFiles folderId device uuids = .ok t) :
    Effect n (.removeFiles folderId device uuids) t := by
  unfold removeFiles at hok
  split at hok
  · cases hok
    exact effect_refl h (fun _ hd => hd) rfl rfl
  · obtain ⟨s, hs, hok⟩ := bind_ok.mp hok
    cases hok
    refine Effect.of_same h (fun _ hd => hd) rfl rfl (removeFiles_identity (deref_ok.mp hs)) rfl
      h.pendingKeys h.pendingIds ?_
    intro x
    simp [ids, Change.gone, Change.joined]

/-- The loop of `remove_folder_infos_t`. -/
theorem removeFolderInfos_spec {keys : List (Uuid × Sha256)} :
    ∀ {n t : Network}, n.Tidy → keys.foldlM removeFolderInfo n = .ok t →
      t.rows = n.rows.filter (fun r => r.key ∉ keys) ∧
      t = { n with folders := t.folders } ∧
      t.folders.map Folder.id = n.folders.map Folder.id ∧
      t.folders.map Folder.uuid = n.folders.map Folder.uuid := by
  induction keys with
  | nil =>
    intro n t h hok
    cases hok
    exact ⟨by simp, rfl, rfl, rfl⟩
  | cons key keys ih =>
    intro n t h hok
    rw [List.foldlM_cons] at hok
    obtain ⟨mid, hmid, hok⟩ := bind_ok.mp hok
    obtain ⟨-, hrows, folderId, infos, rfl⟩ := removeFolderInfo_spec h hmid
    have heffect : Effect n (.removeFolderInfos [key]) (n.setInfos folderId infos) := by
      refine Effect.of_filter h rfl (by simp) (by simp) hrows ?_ rfl rfl rfl rfl rfl
      intro r _
      simp [Change.Drops]
    obtain ⟨hrows', hsame, hids, huuids⟩ := ih heffect.tidy hok
    refine ⟨?_, hsame, hids.trans (map_id_setInfos _ _), huuids.trans (map_uuid_setInfos _ _)⟩
    rw [hrows', hrows, List.filter_filter]
    refine List.filter_congr fun r _ => ?_
    simp [Bool.and_comm]

theorem effect_removeFolderInfos (h : n.Tidy) {keys : List (Uuid × Sha256)}
    (hok : keys.foldlM removeFolderInfo n = .ok t) : Effect n (.removeFolderInfos keys) t := by
  obtain ⟨hrows, hsame, hids, huuids⟩ := removeFolderInfos_spec h hok
  refine Effect.of_filter h (by rw [hsame]) (by rw [hids]) (by rw [huuids]) hrows (fun r _ => ?_)
    (by rw [hsame]) (by rw [hsame]) (by rw [hsame]) rfl rfl
  simp [Change.Drops]

theorem eraseBlocks_infos {hashes : List Bytes} :
    ∀ {s s' : Store}, hashes.foldlM Store.eraseBlock s = some s' → s'.infos = s.infos := by
  induction hashes with
  | nil =>
    intro s s' h
    cases h
    rfl
  | cons hash hashes ih =>
    intro s s' h
    rw [List.foldlM_cons] at h
    obtain ⟨mid, hmid, h⟩ := Option.bind_eq_some_iff.mp h
    obtain ⟨b, -, hmid⟩ := Option.bind_eq_some_iff.mp hmid
    cases hmid
    exact (ih h).trans rfl

theorem effect_removeFolder (h : n.Tidy) {id : String} {folder : Folder}
    (hfolder : n.folderById id = some folder) :
    Effect n (.removeFolder id)
      { n with folders := n.folders.filter fun f => f.uuid ≠ folder.uuid ∧ f.id ≠ folder.id } := by
  obtain ⟨hmem, hid⟩ := h.folderById_iff.mp hfolder
  have hfilter : n.folders.filter (fun f => f.uuid ≠ folder.uuid ∧ f.id ≠ folder.id) =
      n.folders.filter fun f => f.id ≠ id := by
    refine List.filter_congr fun f hf => ?_
    by_cases hfid : f.id = id
    · simp [hfid, hid]
    · have huuid : f.uuid ≠ folder.uuid := by
        intro heq
        exact hfid ((congrArg Folder.id (h.eq_of_folderUuid hf hmem heq)).trans hid)
      simp [hfid, hid, huuid]
  refine @Effect.of_filter _ _ _ h rfl (List.filter_sublist.map _)
    (List.filter_sublist.map _) (fun r => r.folderId ≠ id) ?_ ?_ rfl rfl rfl rfl rfl
  · rw [hfilter]
    show (n.folders.filter fun f => f.id ≠ id).flatMap n.rowsOf = n.rows.filter _
    unfold rows
    induction n.folders with
    | nil => rfl
    | cons f fs ih =>
      rw [List.flatMap_cons, List.filter_append, ← ih]
      by_cases hf : f.id = id
      · rw [List.filter_cons_of_neg (by simpa using hf)]
        have hnone : (n.rowsOf f).filter (fun r => r.folderId ≠ id) = [] := by
          refine List.filter_eq_nil_iff.mpr fun r hr => ?_
          obtain ⟨fi, -, rfl⟩ := List.mem_map.mp hr
          simp [row, hf]
        rw [hnone, List.nil_append]
      · rw [List.filter_cons_of_pos (by simpa using hf), List.flatMap_cons]
        have hall : (n.rowsOf f).filter (fun r => r.folderId ≠ id) = n.rowsOf f := by
          refine List.filter_eq_self.mpr fun r hr => ?_
          obtain ⟨fi, -, rfl⟩ := List.mem_map.mp hr
          simp [row, hf]
        rw [hall]
  · intro r _
    simp [Change.Drops]

/-- Only pending folders change. -/
structure SamePending (n t : Network) : Prop where
  same : t = { n with pendingFolders := t.pendingFolders }
  keys : (t.pendingFolders.map PendingFolder.key).Nodup
  ids : (t.pendingFolders.map PendingFolder.id).Nodup

theorem SamePending.effect {c : Change} (h : n.Tidy) (hs : SamePending n t) (hdrops : ∀ r, ¬ c.Drops r)
    (hgone : c.gone = []) (hjoined : c.joined = []) : Effect n c t := by
  refine Effect.of_same h hdrops (by rw [hs.same]) (by rw [hs.same]) (fun fi => ?_) (by rw [hs.same])
    hs.keys hs.ids ?_
  · rw [hs.same]
    exact ⟨rfl, rfl, rfl⟩
  · intro x
    rw [hs.same]
    simp [Network.ids, hgone, hjoined]

/-- A loop over pending folders. -/
theorem samePending_of_foldlM {α : Type} {step : Network → α → Except Failure Network}
    (hstep : ∀ n a t, (n.pendingFolders.map PendingFolder.key).Nodup →
      (n.pendingFolders.map PendingFolder.id).Nodup → step n a = .ok t → SamePending n t) {l : List α} :
    ∀ {n t : Network}, (n.pendingFolders.map PendingFolder.key).Nodup →
      (n.pendingFolders.map PendingFolder.id).Nodup → l.foldlM step n = .ok t → SamePending n t := by
  induction l with
  | nil =>
    intro n t hkeys hids hok
    cases hok
    exact ⟨rfl, hkeys, hids⟩
  | cons a l ih =>
    intro n t hkeys hids hok
    rw [List.foldlM_cons] at hok
    obtain ⟨mid, hmid, hok⟩ := bind_ok.mp hok
    have hfirst := hstep n a mid hkeys hids hmid
    have hrest := ih hfirst.keys hfirst.ids hok
    refine ⟨?_, hrest.keys, hrest.ids⟩
    conv_lhs => rw [hrest.same, hfirst.same]

theorem samePending_removePendingFolder {key : Uuid × Sha256}
    (hkeys : (n.pendingFolders.map PendingFolder.key).Nodup)
    (hids : (n.pendingFolders.map PendingFolder.id).Nodup) (hok : n.removePendingFolder key = .ok t) :
    SamePending n t := by
  obtain ⟨p, -, hok⟩ := bind_ok.mp hok
  cases hok
  exact ⟨rfl, Keyed.nodup_filter hkeys _, Keyed.nodup_filter hids _⟩

theorem samePending_addPendingFolder {p : PendingFolder}
    (hkeys : (n.pendingFolders.map PendingFolder.key).Nodup)
    (hids : (n.pendingFolders.map PendingFolder.id).Nodup) (hok : n.addPendingFolder p = .ok t) :
    SamePending n t := by
  obtain ⟨d, -, hok⟩ := bind_ok.mp hok
  cases hok
  refine ⟨rfl, Keyed.nodup_put hkeys fun q hq => ?_, Keyed.nodup_put hids fun q hq => ?_⟩
  · exact (of_decide_eq_true hq).1
  · exact (of_decide_eq_true hq).2

theorem effect_updatePeer {parsable : String → Bool} (h : n.Tidy) {device : Device}
    (hok : n.updatePeer parsable device = .ok t) : Effect n (.updatePeer device) t := by
  unfold updatePeer at hok
  split at hok
  · split at hok
    · cases hok
      refine Effect.of_same h (fun _ hd => hd) rfl rfl (fun fi => ⟨rfl, rfl, rfl⟩) rfl h.pendingKeys
        h.pendingIds fun x => ?_
      simp [ids, Change.gone, Change.joined]
    · rename_i d hd
      cases hok
      refine effect_modifyDevice h (fun _ _ _ => rfl) (fun _ hd => hd) rfl fun x hx => ?_
      rw [List.mem_singleton.mp hx]
      exact mem_ids.mpr (by rw [hd]; rfl)
  · cases hok

/-- **The effect of a change** that succeeds. -/
theorem apply_effect {parsable : String → Bool} (h : n.Tidy) {c : Change} (hfresh : c.Fresh n)
    (hok : c.apply parsable n = .ok t) : Effect n c t := by
  cases c with
  | clearViews peer =>
    obtain ⟨d, -, hok⟩ := bind_ok.mp hok
    cases hok
    exact effect_modifyDevice h (fun _ _ hd => hd) (fun _ hd => hd) rfl (by simp [Change.joined])
  | upsertFolder uuid id =>
    cases hok
    exact effect_upsertFolder h hfresh
  | upsertFolderInfo uuid device introducer folderId index => exact effect_upsertFolderInfo h hfresh hok
  | removeFiles folderId device uuids => exact effect_removeFiles h hok
  | removeFolderInfos keys => exact effect_removeFolderInfos h hok
  | removeBlocks hashes =>
    obtain ⟨s, hs, hok⟩ := bind_ok.mp hok
    cases hok
    have hinfos := eraseBlocks_infos (deref_ok.mp hs)
    refine Effect.of_same h (fun _ hd => hd) rfl rfl (fun fi => ?_) rfl h.pendingKeys h.pendingIds ?_
    · rw [hinfos]
      exact ⟨rfl, rfl, rfl⟩
    · intro x
      simp [ids, Change.gone, Change.joined]
  | removeFolder id =>
    obtain ⟨folder, hfolder, hok⟩ := bind_ok.mp hok
    cases hok
    exact effect_removeFolder h (deref_ok.mp hfolder)
  | removePeer device =>
    unfold Change.apply at hok
    dsimp only at hok
    split at hok
    · cases hok
    · split at hok
      · cases hok
      · cases hok
        refine Effect.of_same h (fun _ hd => hd) rfl rfl (fun fi => ⟨rfl, rfl, rfl⟩) rfl h.pendingKeys
          h.pendingIds fun x => ?_
        simp only [ids, Change.gone, Change.joined]
        grind
  | removePendingFolders keys =>
    exact SamePending.effect h (samePending_of_foldlM (fun _ _ _ => samePending_removePendingFolder)
      h.pendingKeys h.pendingIds hok) (fun _ hd => hd) rfl rfl
  | addPendingFolders items =>
    exact SamePending.effect h (samePending_of_foldlM (fun _ _ _ => samePending_addPendingFolder)
      h.pendingKeys h.pendingIds hok) (fun _ hd => hd) rfl rfl
  | updateRemoteViews peer views =>
    obtain ⟨d, -, hok⟩ := bind_ok.mp hok
    cases hok
    exact effect_modifyDevice h (fun _ _ hd => hd) (fun _ hd => hd) rfl (by simp [Change.joined])
  | removePendingDevice device =>
    unfold Change.apply at hok
    dsimp only at hok
    split at hok
    · cases hok
      refine Effect.of_same h (fun _ hd => hd) rfl rfl (fun fi => ⟨rfl, rfl, rfl⟩) rfl h.pendingKeys
        h.pendingIds fun x => ?_
      simp [ids, Change.gone, Change.joined]
    · cases hok
  | removeIgnoredDevice device =>
    unfold Change.apply at hok
    dsimp only at hok
    split at hok
    · cases hok
      refine Effect.of_same h (fun _ hd => hd) rfl rfl (fun fi => ⟨rfl, rfl, rfl⟩) rfl h.pendingKeys
        h.pendingIds fun x => ?_
      simp [ids, Change.gone, Change.joined]
    · cases hok
  | updatePeer device => exact effect_updatePeer h hok

end Network

end SyncSpirit
