import SyncSpirit.Network

/-!
# Cluster configurations (`diff/peer/cluster_update.cpp`)

A `ClusterConfig` message says which folders a peer shares with which devices.
`ClusterUpdate.create` walks over it twice: the first pass is about the source of the
message, the second one about the devices it may introduce. What is not confirmed by
the message is removed, and the diff is put together as one long chain of nested
diffs (`Plan.changes`).
-/

namespace SyncSpirit

namespace ClusterUpdate

open Network

/-- What the constructor takes from outside: whether a directory can be made of a label,
whether an address can be parsed, and what the sequencer hands out. -/
structure Env where
  makeDir : String → Bool
  parsable : String → Bool
  nextUuid : Nat → Uuid
  nextIndex : Nat → UInt64

/-- `upserted_folder_info_t`. -/
structure Upserted where
  folderId : String
  device : Sha256
  index : UInt64
  deriving DecidableEq, Repr

/-- The local variables of the constructor. -/
structure Acc where
  pairs : List (String × Bytes)
  seen : List Sha256
  views : List View
  newPending : List PendingFolder
  confirmedPending : List (Uuid × Sha256)
  removedPending : List (Uuid × Sha256)
  confirmed : List FolderInfoId
  reset : List Share
  folders : List String
  infos : List Upserted
  introduced : List Device
  uuids : Nat

/-- No entry of the message has been seen. -/
def Acc.start : Acc := ⟨[], [], [], [], [], [], [], [], [], [], [], 0⟩

section Passes

variable (env : Env) (n : Network) (source : Device)

/-- The loop of `add_pending` over the pending folders: is there one that is up to date? -/
def checkPending (folderId : String) (d : Proto.Device) : List PendingFolder → Acc → Bool × Acc
  | [], acc => (false, acc)
  | p :: ps, acc =>
    if p.device = source.id ∧ p.id = folderId then
      let acc := { acc with confirmedPending := p.key :: acc.confirmedPending }
      if p.index = d.index ∧ p.maxSequence = d.maxSequence then (true, acc)
      else checkPending folderId d ps { acc with removedPending := acc.removedPending ++ [p.key] }
    else checkPending folderId d ps acc

/-- `add_pending`. -/
def addPending (acc : Acc) (folderId : String) (d : Proto.Device) : Acc :=
  let (actual, acc) := checkPending source folderId d n.pendingFolders acc
  if actual then acc
  else { acc with
    newPending := acc.newPending ++ [⟨env.nextUuid acc.uuids, source.id, folderId, d.index, d.maxSequence⟩]
    uuids := acc.uuids + 1 }

/-- `add_folder_info`. -/
def addFolderInfo (acc : Acc) (folderId : String) (d : Proto.Device) : Acc :=
  { acc with infos := acc.infos ++ [⟨folderId, d.id, d.index⟩] }

/-- `add_folder`: the directory is named after the label or the id. -/
def addFolder (acc : Acc) (f : Proto.Folder) : Except Failure Acc :=
  if (f.label ≠ "" ∧ env.makeDir f.label) ∨ (f.id ≠ "" ∧ env.makeDir f.id) then
    .ok { acc with folders := acc.folders ++ [f.id] }
  else .error .noPath

/-- The source shares a folder that is not shared with it here. -/
def offerFolder (acc : Acc) (f : Proto.Folder) (d : Proto.Device) : Except Failure Acc :=
  if source.autoAccept then
    if (n.folderById f.id).isSome then .ok (addFolderInfo acc f.id d)
    else (addFolder env acc f).map fun acc => addFolderInfo acc f.id d
  else .ok (addPending env n source acc f.id d)

/-- The source shares a folder that is shared with it: a new index resets it. -/
def confirmFolder (acc : Acc) (share : Share) (d : Proto.Device) : Acc :=
  let acc := if d.index ≠ (n.infos share.2).index then
      { acc with
        reset := acc.reset ++ [share]
        infos := acc.infos ++ [⟨share.1.id, (n.infos share.2).device, d.index⟩] }
    else acc
  { acc with confirmed := share.2 :: acc.confirmed }

/-- The first pass, one device of a folder. -/
def firstPass (acc : Acc) (e : Proto.Folder × Proto.Device) : Except Failure Acc :=
  let (f, d) := e
  if d.id.length ≠ 32 then .error .malformedDeviceId
  else if (f.id, d.id) ∈ acc.pairs then .ok acc
  else
    let acc := { acc with pairs := (f.id, d.id) :: acc.pairs }
    if (n.device? d.id).isNone then .ok acc
    else
      let acc := { acc with seen := d.id :: acc.seen }
      if d.id ≠ source.id ∧ d.id ≠ n.self then .ok acc
      else
        let acc := { acc with views := acc.views ++ [⟨d.id, f.id, d.index, d.maxSequence⟩] }
        if d.id = n.self then .ok acc
        else
          match n.share? f.id d.id with
          | none => offerFolder env n source acc f d
          | some share => .ok (confirmFolder n acc share d)

/-- `is_shared_with_source`. -/
def isSharedWithSource (acc : Acc) (folderId : String) : Bool :=
  (n.share? folderId source.id).isSome || folderId ∈ acc.folders

/-- The addresses of an introduced device. -/
def addressesOf (d : Proto.Device) : List String := d.addresses.filter fun a => a ≠ "dynamic"

/-- `introduce_device`. -/
def introduceDevice (acc : Acc) (folderId : String) (d : Proto.Device) : Except Failure Acc :=
  if ∃ k ∈ acc.introduced, k.id = d.id then .ok (addFolderInfo acc folderId d)
  else if (addressesOf d).all env.parsable then
    .ok (addFolderInfo { acc with
      seen := d.id :: acc.seen
      introduced := acc.introduced ++ [⟨d.id, addressesOf d, d.introducer, false,
        d.skipIntroductionRemovals, [], some source.id⟩] } folderId d)
  else .error .malformedUrl

/-- The second pass, one device of a folder. A known device is shared with whether the
folder exists or not. -/
def secondPass (acc : Acc) (e : Proto.Folder × Proto.Device) : Except Failure Acc :=
  let (f, d) := e
  if d.id = source.id ∨ d.id = n.self then .ok acc
  else if (n.device? d.id).isNone then
    if source.introducer ∧ isSharedWithSource n source acc f.id then introduceDevice env source acc f.id d
    else .ok acc
  else
    let acc := { acc with seen := d.id :: acc.seen }
    match n.share? f.id d.id with
    | none => .ok (if source.introducer then addFolderInfo acc f.id d else acc)
    | some share => .ok { acc with confirmed := share.2 :: acc.confirmed }

/-- The devices of all folders, in the order of the loops. -/
def entries (message : Proto.ClusterConfig) : List (Proto.Folder × Proto.Device) :=
  message.folders.flatMap fun f => f.devices.map fun d => (f, d)

/-- Both passes. -/
def walk (message : Proto.ClusterConfig) : Except Failure Acc := do
  let acc ← (entries message).foldlM (firstPass env n source) Acc.start
  (entries message).foldlM (secondPass env n source) acc

end Passes

/-! ## What is removed -/

section Removals

variable (n : Network) (source : Device) (acc : Acc)

/-- The pending folders of the source that the message does not confirm. -/
def unconfirmedPending : List (Uuid × Sha256) :=
  (n.pendingOf source.id).filter fun key => key ∉ acc.confirmedPending

/-- The shares of the source that the message does not confirm; those without a sequence
are left as they are. -/
def unconfirmedShares : List Share :=
  (n.sharesOf source.id).filter fun share =>
    share.2 ∉ acc.confirmed ∧ (n.infos share.2).maxSequence ≠ 0

/-- Devices and shares that are removed. -/
structure Removed where
  devices : List Sha256
  shares : List Share

/-- One folder info of the loop over those that the source has introduced. -/
def removeIntroduced (r : Removed) (share : Share) : Removed :=
  let info := n.infos share.2
  if info.introducer = source.id ∧ share.2 ∉ acc.confirmed ∧
      r.shares.all (fun other => (n.infos other.2).uuid ≠ info.uuid) then
    if info.device ∈ acc.seen then { r with shares := r.shares ++ [share] }
    else { r with devices := if info.device ∈ r.devices then r.devices else r.devices ++ [info.device] }
  else r

/-- The loop, unless the source is not allowed to remove what it has introduced. -/
def removed : Removed :=
  let start : Removed := ⟨[], unconfirmedShares n source acc⟩
  if source.skipIntroductionRemovals then start
  else n.shares.foldl (removeIntroduced n source acc) start

end Removals

/-! ## The diff -/

/-- `cluster_update_t`: what is to be done, and the chain of the nested diffs. -/
structure Plan where
  acc : Acc
  removed : Removed
  changes : List Change

section Assembly

variable (env : Env) (n : Network) (source : Device) (acc : Acc) (r : Removed)

/-- `upsert_folder_t` with the folder info of the local device. -/
def upsertFolders : List Change :=
  acc.folders.zipIdx.flatMap fun p =>
    [.upsertFolder (env.nextUuid (acc.uuids + 2 * p.2)) p.1,
     .upsertFolderInfo (env.nextUuid (acc.uuids + 2 * p.2 + 1)) n.self n.self p.1 (env.nextIndex p.2)]

/-- A share that has been removed is made anew, without an index. -/
def reshare (share : Share) : Change :=
  let info := n.infos share.2
  .upsertFolderInfo info.uuid info.device info.introducer share.1.id 0

/-- The shares of the message. -/
def upsertFolderInfos : List Change :=
  acc.infos.zipIdx.map fun p =>
    .upsertFolderInfo (env.nextUuid (acc.uuids + 2 * acc.folders.length + p.2)) p.1.device source.id
      p.1.folderId p.1.index

/-- The part of the chain that removes. -/
def removals : List Change :=
  n.resetFolderInfos acc.reset ++
  r.devices.flatMap n.removePeer ++
  (if r.shares = [] then [] else n.removeFolderInfos r.shares) ++
  n.removeOrphans (acc.reset ++ r.shares) ++
  removePending (acc.removedPending ++ unconfirmedPending n source acc)

/-- The part of the chain that adds. -/
def additions : List Change :=
  (unconfirmedShares n source acc).map (reshare n) ++
  (if acc.newPending = [] then [] else [.addPendingFolders acc.newPending]) ++
  (if acc.views = [] then [] else [.updateRemoteViews source.id acc.views]) ++
  acc.introduced.flatMap n.introducePeer ++
  upsertFolderInfos env source acc

end Assembly

/-- `cluster_update_t::create`. -/
def create (env : Env) (n : Network) (source : Device) (message : Proto.ClusterConfig) :
    Except Failure Plan := do
  let acc ← walk env n source message
  let r := removed n source acc
  -- a device that is to be removed is looked up
  let _ ← r.devices.mapM fun id => deref (n.device? id)
  return ⟨acc, r, upsertFolders env n acc ++ removals n source acc r ++ additions env n source acc⟩

/-- `cluster_update_t::apply_impl`. -/
def apply (env : Env) (n : Network) (source : Device) (plan : Plan) : Except Failure Network :=
  n.applyAll env.parsable (.clearViews source.id :: plan.changes)

end ClusterUpdate

end SyncSpirit
