import SyncSpirit.UpdateFolder

/-!
# Devices and shares (`diff/modify`)

`Network` is the cluster with its devices, pending folders and folder infos. A diff
on it is a list of `Change`s, in the order in which they are applied: a nested diff
stands before the work of the diff itself. `Change.apply` performs one of them.

A null pointer that is dereferenced is the failure `nullPointer`.
-/

namespace SyncSpirit

/-- What a peer knows of a device in a folder (`remote_view_t`). -/
structure View where
  device : Sha256
  folderId : String
  index : UInt64
  maxSequence : Int
  deriving DecidableEq, Repr, Inhabited

/-- `device_t`. Who has introduced the device, `origin`, is not written down in the
source; nothing below reads it but the statements about runs. -/
structure Device where
  id : Sha256
  addresses : List String
  introducer : Bool
  autoAccept : Bool
  skipIntroductionRemovals : Bool
  views : List View
  origin : Option Sha256
  deriving DecidableEq, Repr, Inhabited

/-- `pending_folder_t`: a folder that a device offers. -/
structure PendingFolder where
  uuid : Uuid
  device : Sha256
  id : String
  index : UInt64
  maxSequence : Int
  deriving DecidableEq, Repr, Inhabited

/-- `pending_folder_t::get_key`. -/
def PendingFolder.key (p : PendingFolder) : Uuid × Sha256 := (p.uuid, p.device)

/-- `cluster_t`, with the devices. `self` is the local one. -/
structure Network extends Cluster where
  self : Sha256
  devices : List Device
  pendingFolders : List PendingFolder
  pendingDevices : List Sha256
  ignoredDevices : List Sha256
  nextInfo : FolderInfoId

/-- A folder info with its folder. -/
abbrev Share := Folder × FolderInfoId

/-- The errors of the diffs. -/
inductive Failure where
  | noSuchDevice
  | noSuchFolder
  | cannotRemoveSelf
  | malformedDeviceId
  | malformedUrl
  | noPath
  | nullPointer
  deriving DecidableEq, Repr

namespace Network

/-- A pointer that is dereferenced. -/
def deref {α : Type} : Option α → Except Failure α
  | some a => .ok a
  | none => .error .nullPointer

/-- `devices_map_t::by_sha256`. -/
def device? (n : Network) (id : Sha256) : Option Device := n.devices.find? fun d => d.id = id

/-- `folders_map_t::by_key`. -/
def folderByUuid (n : Network) (uuid : Uuid) : Option Folder :=
  n.folders.find? fun f => f.uuid = uuid

/-- The folder info of a device in a folder, with the folder. -/
def share? (n : Network) (folderId : String) (device : Sha256) : Option Share :=
  (n.folderById folderId).bind fun folder => (n.byDeviceId folder device).map fun fi => (folder, fi)

/-- All folder infos. -/
def shares (n : Network) : List Share := n.folders.flatMap fun folder => folder.infos.map fun fi => (folder, fi)

/-- The folder infos of a device (`folder_t::is_shared_with`). -/
def sharesOf (n : Network) (device : Sha256) : List Share :=
  n.folders.filterMap fun folder => (n.byDeviceId folder device).map fun fi => (folder, fi)

end Network

/-! ## Changes -/

/-- The work of one diff, without the nested ones. -/
inductive Change where
  | clearViews (peer : Sha256)
  | upsertFolder (uuid : Uuid) (id : String)
  | upsertFolderInfo (uuid : Uuid) (device introducer : Sha256) (folderId : String) (index : UInt64)
  | removeFiles (folderId : String) (device : Sha256) (uuids : List Uuid)
  | removeFolderInfos (keys : List (Uuid × Sha256))
  | removeBlocks (hashes : List Bytes)
  | removeFolder (id : String)
  | removePeer (device : Sha256)
  | removePendingFolders (keys : List (Uuid × Sha256))
  | addPendingFolders (items : List PendingFolder)
  | updateRemoteViews (peer : Sha256) (views : List View)
  | removePendingDevice (device : Sha256)
  | removeIgnoredDevice (device : Sha256)
  | updatePeer (device : Device)
  deriving DecidableEq, Repr

namespace Network

variable (n : Network)

/-- `folder_info_t::set_index`. -/
def setIndex (info : FolderInfo) (index : UInt64) : FolderInfo :=
  if index ≠ info.index then { info with index := index, maxSequence := 0, files := [] } else info

/-- Replace a folder info. -/
def setInfo (fi : FolderInfoId) (info : FolderInfo) : Network :=
  { n with infos := Function.update n.infos fi info }

/-- Replace the folder infos of a folder. -/
def setInfos (folderId : String) (infos : List FolderInfoId) : Network :=
  { n with folders := n.folders.map fun f => if f.id = folderId then { f with infos := infos } else f }

/-- `upsert_folder_t::apply_impl`: a folder that exists keeps its folder infos. -/
def upsertFolder (uuid : Uuid) (id : String) : Network :=
  match n.folderById id with
  | some _ => n
  | none => { n with folders := (n.folders.filter fun f => f.uuid ≠ uuid) ++ [⟨id, uuid, []⟩] }

/-- A new folder info, put into the map of its folder. -/
def putInfo (folder : Folder) (info : FolderInfo) : Network :=
  { (n.setInfo n.nextInfo info).setInfos folder.id ((folder.infos.filter fun fi =>
      (n.infos fi).uuid ≠ info.uuid ∧ (n.infos fi).device ≠ info.device) ++ [n.nextInfo]) with
    nextInfo := n.nextInfo + 1 }

/-- `upsert_folder_info_t::apply_impl`. -/
def upsertFolderInfo (uuid : Uuid) (device introducer : Sha256) (folderId : String) (index : UInt64) :
    Except Failure Network :=
  match n.device? device with
  | none => .error .noSuchDevice
  | some _ =>
    match n.folderById folderId with
    | none => .error .noSuchFolder
    | some folder =>
      match n.byDeviceId folder device with
      | some fi => .ok (n.setInfo fi (setIndex (n.infos fi) index))
      | none => .ok (n.putInfo folder ⟨uuid, device, [], 0, index, introducer⟩)

/-- `remove_files_t::apply_impl`: a folder info that is gone is skipped, a file is not.
The objects stay in the heap; nothing here reads a file that is in no map. -/
def removeFiles (folderId : String) (device : Sha256) (uuids : List Uuid) : Except Failure Network :=
  match n.share? folderId device with
  | none => .ok n
  | some (_, fi) => do
    let s ← deref (uuids.foldlM (fun s u => (s.byUuid fi u).map fun f => s.remove fi f) n.toStore)
    return { n with toStore := s }

/-- One key of `remove_folder_infos_t::apply_impl`. -/
def removeFolderInfo (key : Uuid × Sha256) : Except Failure Network := do
  let folder ← deref (n.folderByUuid key.1)
  let fi ← deref (n.byDeviceId folder key.2)
  return n.setInfos folder.id (folder.infos.filter fun g =>
    (n.infos g).uuid ≠ (n.infos fi).uuid ∧ (n.infos g).device ≠ (n.infos fi).device)

/-- One key of `remove_pending_folders_t::apply_impl`; the map has a second index by the
id of the folder. -/
def removePendingFolder (key : Uuid × Sha256) : Except Failure Network := do
  let p ← deref (n.pendingFolders.find? fun p => p.key = key)
  return { n with pendingFolders := n.pendingFolders.filter fun q => q.key ≠ p.key ∧ q.id ≠ p.id }

/-- One item of `add_pending_folders_t::apply_impl`. -/
def addPendingFolder (p : PendingFolder) : Except Failure Network := do
  let _ ← deref (n.device? p.device)
  return { n with pendingFolders :=
    (n.pendingFolders.filter fun q => q.key ≠ p.key ∧ q.id ≠ p.id) ++ [p] }

/-- Change a device. -/
def modifyDevice (id : Sha256) (f : Device → Device) : Network :=
  { n with devices := n.devices.map fun d => if d.id = id then f d else d }

/-- `remote_view_map_t::push`. -/
def pushView (views : List View) (v : View) : List View :=
  views.filter (fun w => ¬ (w.device = v.device ∧ w.folderId = v.folderId)) ++ [v]

/-- `update_peer_t::apply_impl`. An address that cannot be parsed is an error. -/
def updatePeer (parsable : String → Bool) (device : Device) : Except Failure Network :=
  if device.addresses.all parsable then
    match n.device? device.id with
    | none => .ok { n with devices := n.devices ++ [device] }
    | some _ => .ok (n.modifyDevice device.id fun d =>
        { device with views := d.views, origin := d.origin })
  else .error .malformedUrl

end Network

/-- Apply one change. -/
def Change.apply (parsable : String → Bool) (n : Network) : Change → Except Failure Network
  | .clearViews peer => do
    let _ ← Network.deref (n.device? peer)
    return n.modifyDevice peer fun d => { d with views := [] }
  | .upsertFolder uuid id => .ok (n.upsertFolder uuid id)
  | .upsertFolderInfo uuid device introducer folderId index =>
    n.upsertFolderInfo uuid device introducer folderId index
  | .removeFiles folderId device uuids => n.removeFiles folderId device uuids
  | .removeFolderInfos keys => keys.foldlM Network.removeFolderInfo n
  | .removeBlocks hashes => do
    let s ← Network.deref (hashes.foldlM Store.eraseBlock n.toStore)
    return { n with toStore := s }
  | .removeFolder id => do
    let folder ← Network.deref (n.folderById id)
    return { n with folders := n.folders.filter fun f => f.uuid ≠ folder.uuid ∧ f.id ≠ folder.id }
  | .removePeer device =>
    match n.device? device with
    | none => .error .noSuchDevice
    | some _ =>
      if device = n.self then .error .cannotRemoveSelf
      else .ok { n with devices := n.devices.filter fun d => d.id ≠ device }
  | .removePendingFolders keys => keys.foldlM Network.removePendingFolder n
  | .addPendingFolders items => items.foldlM Network.addPendingFolder n
  | .updateRemoteViews peer views => do
    let _ ← Network.deref (n.device? peer)
    return n.modifyDevice peer fun d => { d with views := views.foldl Network.pushView d.views }
  | .removePendingDevice device =>
    if device ∈ n.pendingDevices then
      .ok { n with pendingDevices := n.pendingDevices.filter fun d => d ≠ device }
    else .error .noSuchDevice
  | .removeIgnoredDevice device =>
    if device ∈ n.ignoredDevices then
      .ok { n with ignoredDevices := n.ignoredDevices.filter fun d => d ≠ device }
    else .error .noSuchDevice
  | .updatePeer device => n.updatePeer parsable device

/-- Apply a diff. -/
def Network.applyAll (parsable : String → Bool) (n : Network) (changes : List Change) :
    Except Failure Network :=
  changes.foldlM (Change.apply parsable) n

/-! ## The diffs as lists of changes -/

namespace Network

variable (n : Network)

/-- `remove_files_t` for all files of a folder info. -/
def removeFilesOf (share : Share) : Change :=
  .removeFiles share.1.id (n.infos share.2).device
    ((n.infos share.2).files.map fun f => (n.files f).uuid)

/-- `reset_folder_infos_t`. -/
def resetFolderInfos (shares : List Share) : List Change :=
  (shares.filter fun share => (n.infos share.2).files ≠ []).map n.removeFilesOf

/-- `remove_folder_infos_t`. -/
def removeFolderInfos (shares : List Share) : List Change :=
  n.resetFolderInfos shares ++
    [.removeFolderInfos (shares.map fun share => (share.1.uuid, (n.infos share.2).device))]

/-- The files that are recorded as going to be removed. -/
def recorded (shares : List Share) : List FileId := shares.flatMap fun share => (n.infos share.2).files

/-- `remove_blocks_t` for the orphans of these files, if there are any. -/
def removeOrphans (shares : List Share) : List Change :=
  match UpdateFolder.deduce n.toStore (n.recorded shares) [] with
  | [] => []
  | hashes => [.removeBlocks hashes]

/-- `remove_pending_folders_t`, if there are any. -/
def removePending (keys : List (Uuid × Sha256)) : List Change :=
  if keys = [] then [] else [.removePendingFolders keys]

/-- The keys of the folders that a device offers. -/
def pendingOf (device : Sha256) : List (Uuid × Sha256) :=
  (n.pendingFolders.filter fun p => p.device = device).map PendingFolder.key

/-- `remove_peer_t`: what the device offers, what it shares, and the device. -/
def removePeer (peer : Sha256) : List Change :=
  removePending (n.pendingOf peer) ++
  (n.sharesOf peer).flatMap (fun share => n.removeFolderInfos [share]) ++
  n.removeOrphans (n.sharesOf peer) ++ [.removePeer peer]

/-- `update_peer_t` for a device that is not known. -/
def introducePeer (device : Device) : List Change :=
  (if device.id ∈ n.pendingDevices then [.removePendingDevice device.id] else []) ++
  (if device.id ∈ n.ignoredDevices then [.removeIgnoredDevice device.id] else []) ++
  [.updatePeer device]

/-! ### The diffs of the user -/

/-- `upsert_folder_t`, with the folder info of the local device if it has none. -/
def createFolder (uuid infoUuid : Uuid) (id : String) (index : UInt64) : List Change :=
  .upsertFolder uuid id ::
    if (n.share? id n.self).isSome then [] else [.upsertFolderInfo infoUuid n.self n.self id index]

/-- `share_folder_t`; what the peer has offered is not pending any more. -/
def shareFolder (uuid : Uuid) (peer introducer : Sha256) (folder : Folder) : Option (List Change) :=
  if (n.byDeviceId folder peer).isSome then none
  else match n.pendingFolders.find? fun p => p.device = peer ∧ p.id = folder.id with
    | some p => some [.upsertFolderInfo uuid peer introducer folder.id p.index, .removePendingFolders [p.key]]
    | none => some [.upsertFolderInfo uuid peer introducer folder.id 0]

/-- `unshare_folder_t`. -/
def unshareFolder (share : Share) : List Change := n.removeFolderInfos [share] ++ n.removeOrphans [share]

/-- The folders that the peers go on offering. -/
def offersOf (nextUuid : Nat → Uuid) (folder : Folder) : List PendingFolder :=
  (folder.infos.filter fun fi => (n.infos fi).device ≠ n.self ∧ (n.infos fi).index ≠ 0).zipIdx.map fun p =>
    ⟨nextUuid p.2, (n.infos p.1).device, folder.id, (n.infos p.1).index, (n.infos p.1).maxSequence⟩

/-- `remove_folder_t`. -/
def deleteFolder (nextUuid : Nat → Uuid) (folder : Folder) : List Change :=
  folder.infos.flatMap (fun fi => n.removeFolderInfos [(folder, fi)]) ++
  n.removeOrphans (folder.infos.map fun fi => (folder, fi)) ++
  (if n.offersOf nextUuid folder = [] then [] else [.addPendingFolders (n.offersOf nextUuid folder)]) ++
  [.removeFolder folder.id]

end Network

end SyncSpirit
