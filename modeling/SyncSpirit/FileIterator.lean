import SyncSpirit.LocalDifference
import SyncSpirit.Network
import SyncSpirit.Resolver
import SyncSpirit.Lib.Run
import SyncSpirit.Lib.SortedSet

/-!
# Which file is next (`model/misc/file_iterator.cpp`)

For every folder that is shared with a peer, `FileIterator` has a queue of the files of
the peer that the local device should take. `FileIterator.next` takes them out again, and
the diffs put them in: a new index message or index id (`onUpsertInfo`), other options of
the folder (`onUpsertFolder`), a folder that is not shared any more (`onRemove`), and a
file that should be looked at again (`recheck`).

A queue is a `std::set` of raw pointers, ordered by `fileComparator`. The comparator reads
the files, and these change while they are in the set.

`Event` is what happens between two steps of the program; the diffs call the iterator at
their end. What the iterator owes is written down next to it in `State`: `due` and
`returned` are not in the source.
-/

namespace SyncSpirit

/-- `db::FolderType`. -/
inductive FolderType where
  | send
  | receive
  | sendAndReceive
  deriving DecidableEq, Repr, Inhabited

/-- `db::PullOrder`. -/
inductive PullOrder where
  | random
  | alphabetic
  | smallest
  | largest
  | oldest
  | newest
  deriving DecidableEq, Repr, Inhabited

/-- The options of a folder that the user sets (`folder_data_t`). -/
structure FolderOptions where
  type : FolderType
  pullOrder : PullOrder
  paused : Bool
  scheduled : Bool
  ignoreDelete : Bool
  deriving DecidableEq, Repr, Inhabited

/-- The address of a `folder_t`. -/
abbrev FolderAddr := Nat

/-- `folder_t`, with its folder infos: the one of the local device, the one of the peer,
and those of other devices. -/
structure FolderState extends FolderOptions where
  suspended : Bool
  localInfo : FolderInfoId
  peerInfo : Option FolderInfoId
  others : List FolderInfoId
  deriving DecidableEq, Repr, Inhabited

/-- What the iterator of one peer reads. -/
structure Scene where
  platform : Platform
  store : Store
  folders : FolderAddr → FolderState
  /-- `folder_info_t::get_folder` -/
  folderOf : FolderInfoId → FolderAddr
  nextInfo : FolderInfoId
  /-- `cluster_t::is_locked` -/
  locked : String → Bool
  /-- what the peer says of its own files in the folder (`get_remote_view_map`) -/
  view : FolderAddr → Option Int

namespace Scene

variable (w : Scene)

/-- The files of a folder info. -/
def files (fi : FolderInfoId) : List FileId := (w.store.infos fi).files

/-- The folder is not a send-only one. -/
def receives (d : FolderAddr) : Bool := (w.folders d).type ≠ .send

/-- A folder info for the resolver: the devices of a folder are told apart by their folder
infos. -/
def infoView (fi : FolderInfoId) : FolderInfoView := ⟨fi, (w.files fi).map w.store.files⟩

/-- A folder for the resolver. -/
def folderView (d : FolderAddr) : FolderView where
  ignoreDelete := (w.folders d).ignoreDelete
  infos := ((w.folders d).localInfo :: (w.folders d).peerInfo.toList ++ (w.folders d).others).map w.infoView

/-- The local file of the name of a file of the peer. -/
def localFile (fi : FolderInfoId) (f : FileId) : Option FileId :=
  w.store.byName (w.folders (w.folderOf fi)).localInfo (w.store.files f).name

/-- `resolve` for a file of a folder info of the peer. -/
def action (fi : FolderInfoId) (f : FileId) : AdvanceAction :=
  let localFi := (w.folders (w.folderOf fi)).localInfo
  resolve w.platform (w.folderView (w.folderOf fi)) localFi fi (w.infoView localFi) (w.store.files f)
    ((w.localFile fi f).map w.store.files)

/-- The local device should take the file. -/
def wanted (fi : FolderInfoId) (f : FileId) : Bool := w.action fi f ≠ .ignore

/-- The name of the file is locked. -/
def isLocked (f : FileId) : Bool := w.locked (w.store.files f).name

/-- Files that should be taken. -/
def wantedFiles (fi : FolderInfoId) : List FileId := (w.files fi).filter fun f => w.wanted fi f

/-- `file_infos_map_t::range`. A set does not depend on the order of the files. -/
def range (fi : FolderInfoId) (lower upper : Int) : List FileId :=
  (w.files fi).filter fun f => lower ≤ (w.store.files f).sequence ∧ (w.store.files f).sequence ≤ upper

end Scene

/-! ## The comparator -/

/-- `blocks_iterator_t::get_total`. -/
def FileInfo.totalBlocks (f : FileInfo) : Nat := if f.isFile then f.slots.length else 0

/-- The characters of a name. A `char` is signed. -/
def nameChars (name : String) : List Int := name.toByteArray.data.toList.map fun b => b.toInt8.toInt

namespace FileIterator

/-- `file_info_t::get_size`; a file in a queue has all its blocks. -/
def sizeOf (s : Store) (f : FileId) : Int := (s.getSize (s.files f)).getD 0

/-- The comparison that the pull order asks for. -/
def comparePulled (order : PullOrder) (s : Store) (l r : FileId) : Ordering :=
  match order with
  | .newest => compare (s.files r).modifiedS (s.files l).modifiedS
  | .oldest => compare (s.files l).modifiedS (s.files r).modifiedS
  | .smallest => compare (sizeOf s l) (sizeOf s r)
  | .largest => compare (sizeOf s r) (sizeOf s l)
  | .random => .eq
  | .alphabetic => .eq

/-- `file_comparator_t`: files without blocks come first. -/
def fileComparator (order : PullOrder) (s : Store) (l r : FileId) : Bool :=
  let le := (s.files l).totalBlocks = 0
  let re := (s.files r).totalBlocks = 0
  if le ∧ ¬ re then true
  else if re ∧ ¬ le then false
  else
    match comparePulled order s l r with
    | .lt => true
    | .gt => false
    | .eq => nameChars (s.files l).name < nameChars (s.files r).name

end FileIterator

/-- `folder_iterator_t`. The order of the comparator is fixed when the set is made. -/
structure FolderIterator where
  peerFolder : FolderInfoId
  order : PullOrder
  queue : List FileId
  seenIndex : UInt64
  seenSequence : Int
  canReceive : Bool
  deriving DecidableEq, Repr, Inhabited

/-- `file_iterator_t`. -/
structure FileIterator where
  folderIndex : Nat
  entries : List FolderIterator
  deriving DecidableEq, Repr, Inhabited

/-- `result_t`, if a file has been found. -/
structure Found where
  peerFile : FileId
  peerFolder : FolderInfoId
  localFile : Option FileId
  action : AdvanceAction
  deriving DecidableEq, Repr

namespace FolderIterator

variable (w : Scene)

/-- Insert files into the queue. -/
def insertAll (it : FolderIterator) (files : List FileId) : FolderIterator :=
  { it with queue := SortedSet.insertAll (FileIterator.fileComparator it.order w.store) it.queue files }

/-- `file_iterator_t::prepare_folder`. -/
def prepare (fi : FolderInfoId) : FolderIterator :=
  let folder := w.folders (w.folderOf fi)
  let it : FolderIterator := ⟨fi, folder.pullOrder, [], 0, 0, w.receives (w.folderOf fi)⟩
  if w.receives (w.folderOf fi) then
    { it.insertAll w (w.wantedFiles fi) with
      seenIndex := (w.store.infos fi).index
      seenSequence := (w.store.infos fi).maxSequence }
  else it

/-- `file_iterator_t::populate`. The sequence the range starts at is read before it is set
to zero, and `seen_index` stays as it is. -/
def populate (it : FolderIterator) : FolderIterator :=
  let info := w.store.infos it.peerFolder
  let seenSequence := it.seenSequence
  let it := if info.index ≠ it.seenIndex then { it with seenSequence := 0, queue := [] } else it
  let files := (w.range it.peerFolder (seenSequence + 1) info.maxSequence).filter fun f =>
    w.wanted it.peerFolder f
  { it.insertAll w files with seenSequence := info.maxSequence }

/-- The loop body of `file_iterator_t::on_upsert(folder_t &)`. -/
def upsertFolder (it : FolderIterator) : FolderIterator :=
  let folder := w.folders (w.folderOf it.peerFolder)
  let it' :=
    if w.receives (w.folderOf it.peerFolder) then
      if !it.canReceive then { it with seenSequence := 0 }.populate w
      else if it.order ≠ folder.pullOrder then
        { it with order := folder.pullOrder, queue := [] }.insertAll w it.queue
      else it
    else if it.canReceive then { it with queue := [] }
    else it
  { it' with canReceive := w.receives (w.folderOf it.peerFolder) }

/-- The folder is looked into by `next`. -/
def scannable (it : FolderIterator) : Bool :=
  let folder := w.folders (w.folderOf it.peerFolder)
  !folder.paused && !folder.scheduled && !folder.suspended && !it.queue.isEmpty &&
    match w.view (w.folderOf it.peerFolder) with
    | some maxSequence => maxSequence ≤ (w.store.infos it.peerFolder).maxSequence
    | none => false

/-- The loop over a queue: files that are locked or should not be taken are dropped. -/
def scan (fi : FolderInfoId) : List FileId → Option Found × List FileId
  | [] => (none, [])
  | f :: queue =>
    if w.isLocked f then scan fi queue
    else if w.action fi f = .ignore then scan fi queue
    else (some ⟨f, fi, w.localFile fi f, w.action fi f⟩, queue)

end FolderIterator

namespace FileIterator

variable (w : Scene)

/-- Change the first element that satisfies a condition. -/
def modifyFirst {α : Type} (p : α → Bool) (g : α → α) : List α → List α
  | [] => []
  | a :: as => if p a then g a :: as else a :: modifyFirst p g as

/-- An iterator of the folder that takes files. -/
def accepts (d : FolderAddr) (it : FolderIterator) : Bool := w.folderOf it.peerFolder = d ∧ it.canReceive = true

/-- The constructor. `folders` are the folders of the cluster; each of them is shared with
the local device. -/
def create (folders : List FolderAddr) : FileIterator :=
  ⟨0, folders.filterMap fun d => (w.folders d).peerInfo.map (FolderIterator.prepare w)⟩

/-- `on_upsert(folder_info_ptr_t)`. -/
def onUpsertInfo (x : FileIterator) (fi : FolderInfoId) : FileIterator :=
  if x.entries.any (accepts w (w.folderOf fi)) then
    { x with entries := modifyFirst (accepts w (w.folderOf fi)) (FolderIterator.populate w) x.entries }
  else { x with entries := x.entries ++ [FolderIterator.prepare w fi] }

/-- `on_upsert(folder_t &)`. -/
def onUpsertFolder (x : FileIterator) (d : FolderAddr) : FileIterator :=
  { x with entries := x.entries.map fun it =>
      if w.folderOf it.peerFolder = d then it.upsertFolder w else it }

/-- `on_remove`. -/
def onRemove (x : FileIterator) (fi : FolderInfoId) : FileIterator :=
  if x.entries.any (fun it => it.peerFolder = fi) then
    ⟨0, x.entries.eraseP fun it => it.peerFolder = fi⟩
  else x

/-- `recheck`. -/
def recheck (x : FileIterator) (fi : FolderInfoId) (f : FileId) : FileIterator :=
  let insert := fun it : FolderIterator =>
    if it.canReceive && w.wanted fi f then it.insertAll w [f] else it
  { x with entries := modifyFirst (fun it => it.peerFolder = fi) insert x.entries }

/-- The loop of `next`, for at most `n` more folders. -/
def nextFrom : Nat → FileIterator → Option Found × FileIterator
  | 0, x => (none, x)
  | n + 1, x =>
    match x.entries[x.folderIndex]? with
    | none => (none, x)
    | some it =>
      let (found, queue) :=
        if it.scannable w then FolderIterator.scan w it.peerFolder it.queue else (none, it.queue)
      let x := { x with entries := x.entries.set x.folderIndex { it with queue := queue } }
      match found with
      | some found => (some found, x)
      | none => nextFrom n { x with folderIndex := (x.folderIndex + 1) % x.entries.length }

/-- `next`. -/
def next (x : FileIterator) : Option Found × FileIterator := nextFrom w x.entries.length x

end FileIterator

/-! ## Runs -/

namespace Scene

variable (w : Scene)

/-- `update_folder_t::apply_impl`: the files of an index message. -/
def applyIndex (fi : FolderInfoId) (files : List (Uuid × Proto.FileInfo)) : Option Scene :=
  (UpdateFolder.applyFiles fi w.store files).map fun s => { w with store := s }

/-- Replace a folder info. -/
def setInfo (fi : FolderInfoId) (info : FolderInfo) : Scene :=
  { w with store := { w.store with infos := Function.update w.store.infos fi info } }

/-- Replace a folder. -/
def setFolder (d : FolderAddr) (folder : FolderState) : Scene :=
  { w with folders := Function.update w.folders d folder }

/-- `folder_data_t::assign_fields`. -/
def setOptions (d : FolderAddr) (options : FolderOptions) : Scene :=
  w.setFolder d { w.folders d with toFolderOptions := options }

/-- `upsert_folder_info_t::apply_impl` for a folder that is not shared with the peer yet. -/
def addInfo (d : FolderAddr) (info : FolderInfo) : Scene :=
  { (w.setInfo w.nextInfo info).setFolder d { w.folders d with peerInfo := some w.nextInfo } with
    folderOf := Function.update w.folderOf w.nextInfo d
    nextInfo := w.nextInfo + 1 }

/-- `remove_folder_infos_t::apply_impl`; the files are removed before. -/
def removeInfo (d : FolderAddr) (fi : FolderInfoId) : Scene :=
  (w.setInfo fi { w.store.infos fi with files := [] }).setFolder d { w.folders d with peerInfo := none }

end Scene

/-- What happens to the cluster. `elsewhere` is everything that concerns neither the folder
infos of the peer nor the options of a folder. -/
inductive Event where
  | index (d : FolderAddr) (files : List (Uuid × Proto.FileInfo))
  | upsertFolderInfo (d : FolderAddr) (uuid : Uuid) (device introducer : Sha256) (index : UInt64)
  | upsertFolder (d : FolderAddr) (options : FolderOptions)
  | removeFolderInfo (d : FolderAddr)
  | recheck (d : FolderAddr) (name : String)
  | elsewhere (w : Scene)
  | next

/-- The cluster and the iterator of a peer. `due fi` are the files of a folder info that have
to be offered, and `returned` are the files that `next` has returned and that have not been
offered again since. -/
structure State where
  scene : Scene
  iterator : FileIterator
  due : FolderInfoId → List FileId
  returned : List FileId

namespace State

/-- The files that have to be offered when a run starts. -/
def initial (w : Scene) (folders : List FolderAddr) : State where
  scene := w
  iterator := FileIterator.create w folders
  due fi := if w.receives (w.folderOf fi) then w.wantedFiles fi else []
  returned := []

variable (st : State)

/-- The cluster and the iterator have changed, and files of a folder info have to be looked
at. What is due is a file of the folder info that should be taken, as long as the folder is not
a send-only one. -/
def arrive (w : Scene) (x : FileIterator) (fi : FolderInfoId) (files : List FileId) : State :=
  let isDue := fun fi f => decide (w.receives (w.folderOf fi) = true ∧ f ∈ w.files fi ∧ w.wanted fi f = true)
  { scene := w
    iterator := x
    due := fun fi' => (st.due fi' ++ if fi' = fi then files else []).filter (isDue fi')
    returned := st.returned.filter fun f => ¬ (f ∈ files ∧ isDue fi f = true) }

/-- The files of a folder info that a new scene has added or changed. -/
def renewed (w : Scene) (fi : FolderInfoId) : List FileId :=
  (w.files fi).filter fun f => ¬ (f ∈ st.scene.files fi ∧ w.store.files f = st.scene.store.files f)

/-- One event. A null pointer that is dereferenced ends the run. -/
def step : Event → Option State
  | .index d files =>
    match (st.scene.folders d).peerInfo with
    | none => some st
    | some fi => (st.scene.applyIndex fi files).map fun w =>
      st.arrive w (st.iterator.onUpsertInfo w fi) fi (st.renewed w fi)
  | .upsertFolderInfo d uuid device introducer index =>
    match (st.scene.folders d).peerInfo with
    | some fi =>
      let w := st.scene.setInfo fi (Network.setIndex (st.scene.store.infos fi) index)
      some (st.arrive w (st.iterator.onUpsertInfo w fi) fi
        (if index ≠ (st.scene.store.infos fi).index then w.files fi else []))
    | none =>
      let fi := st.scene.nextInfo
      let w := st.scene.addInfo d ⟨uuid, device, [], 0, index, introducer⟩
      some (st.arrive w (st.iterator.onUpsertInfo w fi) fi (w.files fi))
  | .upsertFolder d options =>
    let w := st.scene.setOptions d options
    match (w.folders d).peerInfo with
    | none => some (st.arrive w st.iterator 0 [])
    | some fi => some (st.arrive w (st.iterator.onUpsertFolder w d) fi
      (if st.scene.receives d then [] else w.files fi))
  | .removeFolderInfo d =>
    match (st.scene.folders d).peerInfo with
    | none => some st
    | some fi => some (st.arrive (st.scene.removeInfo d fi) (st.iterator.onRemove fi) fi [])
  | .recheck d name =>
    match (st.scene.folders d).peerInfo.bind fun fi => (st.scene.store.byName fi name).map fun f => (fi, f) with
    | none => some st
    | some (fi, f) => some (st.arrive st.scene (st.iterator.recheck st.scene fi f) fi [f])
  | .elsewhere w => some (st.arrive w st.iterator 0 [])
  | .next =>
    let (found, x) := st.iterator.next st.scene
    some { st with
      iterator := x
      due := fun fi => (st.due fi).filter fun f => !st.scene.isLocked f && st.scene.wanted fi f &&
        found.map Found.peerFile ≠ some f
      returned := st.returned ++ (found.map Found.peerFile).toList }

end State

end SyncSpirit
