import SyncSpirit.AdvanceDiff
import SyncSpirit.FileDb
import SyncSpirit.Network
import SyncSpirit.Lib.WriteLog

/-!
# The database actor (`net/db_actor.cpp`)

Once the model has applied a diff, the database actor visits it and writes down what has
changed: the records of the files, blocks and folder infos the diff is about, read from the
model as it is *now*. All writes of one visit go to one transaction, and a visit that writes
ends with a commit.

`content` is what the database ought to have, and `Db.current` what it has with the open
transaction. A handler `Refreshes` keys: it writes down what the content has under them.
`mirrors_of_visit`: a database that mirrors the model before a diff mirrors it after the
visit, if the content changes under the refreshed keys only.

The records stand for their encoding, which is not part of this repository. A null pointer
that is dereferenced and a failed write, which shuts the actor down, are `none`.
-/

namespace SyncSpirit

/-- `db::FolderInfo`. -/
structure Db.FolderInfo where
  indexId : UInt64
  maxSequence : Int
  introducerDeviceKey : Bytes
  deriving DecidableEq, Repr

namespace Database

open WriteLog

/-! ## Keys and records -/

/-- `db::prefix::device`. -/
def devicePrefix : UInt8 := 0x10

/-- `db::prefix::folder_info`. -/
def folderInfoPrefix : UInt8 := 0x12

/-- `db::prefix::block_info`. -/
def blockInfoPrefix : UInt8 := 0x17

/-- What a record is about. -/
inductive Key where
  | block (hash : Bytes)
  | file (folder uuid : Uuid)
  | folderInfo (device : Sha256) (folder uuid : Uuid)
  deriving DecidableEq, Repr

/-- The key of the record: `get_full_id` behind its prefix for a file, `get_key` for a
folder info. -/
def Key.bytes : Key → Bytes
  | .block hash => blockInfoPrefix :: hash
  | .file folder uuid => FileDb.filePrefix :: (folder.bytes ++ uuid.bytes)
  | .folderInfo device folder uuid => folderInfoPrefix :: (device ++ (folder.bytes ++ uuid.bytes))

/-- A record, before it is encoded. -/
inductive Value where
  | block (size : Int32)
  | file (record : Db.FileInfo)
  | folderInfo (record : Db.FolderInfo)
  deriving DecidableEq, Repr

/-- The records, ordered by their keys. -/
abbrev Table := Std.ExtTreeMap Bytes Value compare

theorem Uuid.eq_of_bytes {u v : Uuid} (h : u.bytes = v.bytes) : u = v := by
  cases u
  cases v
  cases h
  rfl

theorem Uuid.pair_injective {u v u' v' : Uuid} (h : u.bytes ++ v.bytes = u'.bytes ++ v'.bytes) : u = u' ∧ v = v' := by
  obtain ⟨hu, hv⟩ := List.append_inj h (by rw [u.length_bytes, u'.length_bytes])
  exact ⟨Uuid.eq_of_bytes hu, Uuid.eq_of_bytes hv⟩

/-- Different records have different keys. -/
theorem Key.bytes_injective : Function.Injective Key.bytes := by
  intro k k' h
  cases k <;> cases k' <;> simp only [bytes, List.cons.injEq] at h
  case block.block => rw [h.2]
  case file.file =>
    obtain ⟨rfl, rfl⟩ := Uuid.pair_injective h.2
    rfl
  case folderInfo.folderInfo d u v d' u' v' =>
    -- the two uuids at the end have a fixed length
    obtain ⟨rfl, h'⟩ := List.append_inj' h.2 (by simp [Uuid.length_bytes])
    obtain ⟨rfl, rfl⟩ := Uuid.pair_injective h'
    rfl
  all_goals exact absurd h.1 (by decide)

/-! ## What the database ought to have -/

/-- All folder infos, with their folders. -/
def shares (c : Cluster) : List Share := c.folders.flatMap fun folder => folder.infos.map fun fi => (folder, fi)

/-- `folder_info_t::get_key`. -/
def infoKey (c : Cluster) (p : Share) : Key := .folderInfo (c.infos p.2).device p.1.uuid (c.infos p.2).uuid

/-- `folder_info_t::serialize`. -/
def infoValue (info : FolderInfo) : Value :=
  .folderInfo ⟨info.index, info.maxSequence, devicePrefix :: info.introducer⟩

/-- The key of a file. -/
def fileKey (file : FileInfo) : Key := .file file.folderUuid file.uuid

/-- The content of the model. -/
def content (c : Cluster) : Key → Option Value
  | .block hash => (c.byHash hash).map fun b => .block (c.blocks b).size
  | .file folder uuid => do
    let p ← (shares c).find? fun p => (c.infos p.2).uuid = folder
    let f ← c.byUuid p.2 uuid
    let record ← FileDb.asDb c.toStore (c.files f)
    return .file record
  | .folderInfo device folder uuid =>
    ((shares c).find? fun p => infoKey c p = .folderInfo device folder uuid).map fun p => infoValue (c.infos p.2)

theorem content_block (c : Cluster) (hash : Bytes) :
    content c (.block hash) = (c.byHash hash).map fun b => .block (c.blocks b).size := rfl

/-! ## Transactions -/

/-- The database with the transaction that is open, if there is one, and the counter of its
writes. -/
structure Db where
  committed : Table
  txn : Option Table
  uncommitted : Nat

namespace Db

/-- What is read in the transaction. -/
def current (db : Db) : Table := db.txn.getD db.committed

/-- `get_txn`. -/
def getTxn (db : Db) : Db :=
  match db.txn with
  | some _ => db
  | none => { db with txn := some db.committed, uncommitted := 0 }

/-- `db::save`. -/
def save (db : Db) (k : Key) (v : Value) : Db := { db with txn := some (db.current.insert k.bytes v) }

/-- `db::remove`: nothing under the key is an error. -/
def removeBytes (db : Db) (key : Bytes) : Option Db :=
  if key ∈ db.current then some { db with txn := some (db.current.erase key) } else none

/-- The record is removed. -/
def remove (db : Db) (k : Key) : Option Db := db.removeBytes k.bytes

/-- `force_commit`. -/
def forceCommit (threshold : Nat) (db : Db) : Db := { db with uncommitted := threshold }

/-- `commit_on_demand`. -/
def commitOnDemand (threshold : Nat) (db : Db) : Db :=
  match db.txn with
  | none => db
  | some table =>
    if threshold ≤ db.uncommitted + 1 then ⟨table, none, db.uncommitted + 1⟩
    else { db with uncommitted := db.uncommitted + 1 }

@[simp] theorem current_getTxn (db : Db) : db.getTxn.current = db.current := by
  unfold getTxn current
  cases h : db.txn with
  | none => simp
  | some table => simp [h]

@[simp] theorem current_save (db : Db) (k : Key) (v : Value) :
    (db.save k v).current = db.current.insert k.bytes v := rfl

@[simp] theorem current_forceCommit (threshold : Nat) (db : Db) : (db.forceCommit threshold).current = db.current := rfl

/-- After `force_commit` everything is committed. -/
theorem commitOnDemand_of_forced {threshold : Nat} {db : Db} (h : db.uncommitted = threshold) :
    (db.commitOnDemand threshold).txn = none ∧ (db.commitOnDemand threshold).committed = db.current := by
  unfold commitOnDemand current
  cases htxn : db.txn with
  | none => exact ⟨htxn, rfl⟩
  | some table =>
    dsimp only
    rw [if_pos (by omega)]
    exact ⟨rfl, rfl⟩

end Db

/-! ## The visitor -/

/-- The state of a visit: the database, and the folder infos that are saved at its end. -/
structure Visit where
  db : Db
  dirty : List Share

variable (threshold : Nat) (host : Advance.Host) (c : Cluster)

/-- `force_commit` at the end of a handler. -/
def Visit.force (v : Visit) : Visit := { v with db := v.db.forceCommit threshold }

/-- One block of `add_blocks_t`. The block is looked up by the hash as it was announced. -/
def saveBlock (db : Db) (b : Proto.BlockInfo) : Option Db := do
  let block ← c.byHash b.hash
  return db.save (.block (c.blocks block).hash) (.block (c.blocks block).size)

/-- One file. -/
def saveFile (db : Db) (f : FileId) : Option Db := do
  let record ← FileDb.asDb c.toStore (c.files f)
  return db.save (fileKey (c.files f)) (.file record)

/-- `save_folder_info`. -/
def saveFolderInfo (v : Visit) (p : Share) : Visit where
  db := (v.db.getTxn.save (infoKey c p) (infoValue (c.infos p.2))).forceCommit threshold
  dirty := v.dirty.filter (· ≠ p)

/-- `operator()` for `remove_blocks_t`, which is `remove` with the prefix of the blocks. -/
def visitRemoveBlocks (hashes : List Bytes) (v : Visit) : Option Visit := do
  let db ← hashes.foldlM (fun db hash => db.remove (.block hash)) v.db.getTxn
  return { v with db := db.forceCommit threshold }

/-- `operator()` for `add_blocks_t`; `next` is its sibling. -/
def visitAddBlocks (blocks : List Proto.BlockInfo) (next : Visit → Option Visit) (v : Visit) : Option Visit := do
  let db ← blocks.foldlM (saveBlock c) v.db.getTxn
  let v ← next { v with db := db }
  return v.force threshold

/-- The nested diffs. There is none for an empty list. -/
def visitNested (added : List Proto.BlockInfo) (removed : List Bytes) : Visit → Option Visit :=
  let next := if removed = [] then some else visitRemoveBlocks threshold removed
  if added = [] then next else visitAddBlocks threshold c added next

/-- The first half of `operator()` for `advance_t`: the file is saved as it is now. -/
def saveAdvanced (suspended : Bool) (d : Advance.Diff) (v : Visit) : Option Visit :=
  match c.folderById d.folderId with
  | none => some v
  | some folder =>
    if suspended then some v
    else match c.byDeviceId folder host.self with
      | none => some v
      | some fi =>
        match c.byName fi d.protoLocal.name with
        | none => some v
        | some f => do
          let db ← saveFile c v.db.getTxn f
          return { db := db, dirty := v.dirty.insert (folder, fi) }

/-- `operator()` for `advance_t`. -/
def visitAdvance (suspended : Bool) (d : Advance.Diff) (sibling : Visit → Option Visit) (v : Visit) :
    Option Visit := do
  let v ← saveAdvanced host c suspended d v
  let v ← visitNested threshold c d.added d.removed v
  let v ← sibling v
  return v.force threshold

/-- A file of the diff, by its name. -/
def saveNamed (fi : FolderInfoId) (db : Db) (f : Proto.FileInfo) : Option Db :=
  (c.byName fi f.name).bind (saveFile c db)

/-- `operator()` for `update_folder_t`. -/
def visitUpdateFolder (d : UpdateFolder.Diff) (v : Visit) : Option Visit := do
  let folder ← c.folderById d.folderId
  let fi ← c.byDeviceId folder d.peerId
  let db := v.db.getTxn.save (infoKey c (folder, fi)) (infoValue (c.infos fi))
  let db ← d.files.foldlM (saveNamed c fi) db
  let v ← visitNested threshold c d.blocks d.removedBlocks { v with db := db }
  return v.force threshold

/-! ## Changes of the model -/

/-- A diff that the model is given. -/
inductive Change where
  | index (d : UpdateFolder.Diff)
  | advance (d : Advance.Tree) (suspended : Bool)

/-- The model applies the diff. -/
def Change.apply : Change → Option Store
  | .index d => UpdateFolder.apply c d
  | .advance d suspended => d.apply host c suspended

/-- The handlers run for a diff. -/
def Change.handle : Change → Visit → Option Visit
  | .index d => visitUpdateFolder threshold c d
  | .advance (.single d) suspended => visitAdvance threshold host c suspended d some
  | .advance (.remoteWin rename copy) suspended =>
    visitAdvance threshold host c suspended rename (visitAdvance threshold host c suspended copy some)

/-- `visit`. -/
def visit (handle : Visit → Option Visit) (db : Db) : Option Db := do
  let v ← handle ⟨db, []⟩
  return (v.dirty.foldl (saveFolderInfo threshold c) v).db.commitOnDemand threshold

/-- The model and its database. -/
structure State where
  cluster : Cluster
  db : Db

/-- A diff is applied, and then the database visits it. -/
def step (st : State) (e : Change) : Option State := do
  let s ← e.apply host st.cluster
  let c : Cluster := { st.cluster with toStore := s }
  let db ← visit threshold c (e.handle threshold host c) st.db
  return ⟨c, db⟩

/-! ## What a visit refreshes -/

section Refreshes

variable {threshold : Nat} {c : Cluster} {m m' : Visit → Option Visit} {f : Db → Option Db} {keys keys' : List Key}
  {marks marks' : List Share} {K : Key → Option Value}

/-- The records under the keys become those of the content. -/
def Updates (K : Key → Option Value) (f : Db → Option Db) (keys : List Key) : Prop :=
  ∀ db t, run Key.bytes db.current (keys.map (refresh K)) = some t →
    ∃ db', f db = some db' ∧ db'.current = t

/-- So are those under the keys, and the folder infos are marked. -/
def Refreshes (K : Key → Option Value) (m : Visit → Option Visit) (keys : List Key) (marks : List Share) : Prop :=
  ∀ v t, run Key.bytes v.db.current (keys.map (refresh K)) = some t →
    ∃ v', m v = some v' ∧ v'.db.current = t ∧ ∀ p, p ∈ v'.dirty ↔ p ∈ marks ∨ p ∈ v.dirty

theorem updates_single {k : Key} (h : ∀ db t, write Key.bytes db.current (refresh K k) = some t →
    ∃ db', f db = some db' ∧ db'.current = t) : Updates K f [k] := by
  intro db t ht
  rw [List.map_singleton, run_cons] at ht
  obtain ⟨u, hu, hnil⟩ := Option.bind_eq_some_iff.mp ht
  obtain ⟨db', hdb', hcurrent⟩ := h db u hu
  exact ⟨db', hdb', hcurrent.trans (Option.some.inj hnil)⟩

theorem updates_foldlM {α : Type} {step : Db → α → Option Db} {key : α → Key} {as : List α}
    (h : ∀ a ∈ as, Updates K (fun db => step db a) [key a]) :
    Updates K (fun db => as.foldlM step db) (as.map key) := by
  induction as with
  | nil =>
    rintro db t ⟨⟩
    exact ⟨db, rfl, rfl⟩
  | cons a as ih =>
    intro db t ht
    rw [List.map_cons, List.map_cons, run_cons] at ht
    obtain ⟨u, hu, ht⟩ := Option.bind_eq_some_iff.mp ht
    obtain ⟨db', hdb', hcurrent⟩ := h a (List.mem_cons_self ..) db u (by
      rw [List.map_singleton, run_cons, hu]
      rfl)
    rw [← hcurrent] at ht
    obtain ⟨db'', hdb'', hlast⟩ := ih (fun b hb => h b (List.mem_cons_of_mem _ hb)) db' t ht
    refine ⟨db'', ?_, hlast⟩
    show (a :: as).foldlM step db = some db''
    rw [List.foldlM_cons, show step db a = some db' from hdb']
    exact hdb''

/-- A loop that succeeds has taken every element, and what its steps keep has been there all the time. -/
theorem exists_of_foldlM {α β : Type} {step : β → α → Option β} {inv : β → Prop}
    (hstep : ∀ x a y, inv x → step x a = some y → inv y) {as : List α} :
    ∀ {b b' : β}, inv b → as.foldlM step b = some b' → inv b' ∧ ∀ a ∈ as, ∃ x y, inv x ∧ step x a = some y := by
  induction as with
  | nil =>
    rintro b b' hb ⟨⟩
    exact ⟨hb, fun a ha => absurd ha List.not_mem_nil⟩
  | cons a as ih =>
    intro b b' hb h
    obtain ⟨mid, hmid, h⟩ := Option.bind_eq_some_iff.mp h
    obtain ⟨hlast, hall⟩ := ih (hstep b a mid hb hmid) h
    refine ⟨hlast, fun a' ha' => ?_⟩
    rcases List.mem_cons.mp ha' with rfl | ha'
    · exact ⟨b, mid, hb, hmid⟩
    · exact hall a' ha'

/-- A block that is there under the hash it was announced with. -/
theorem updates_saveBlock {b : Proto.BlockInfo} (h : (c.byHash b.hash).isSome = true)
    (hK : K (.block b.hash) = content c (.block b.hash)) : Updates K (fun db => saveBlock c db b) [.block b.hash] := by
  obtain ⟨block, hblock⟩ := Option.isSome_iff_exists.mp h
  refine updates_single fun db t ht => ?_
  have hcontent : content c (.block b.hash) = some (.block (c.blocks block).size) := by
    rw [content_block, hblock]
    rfl
  rw [refresh_of_some (hK.trans hcontent)] at ht
  refine ⟨db.save (.block b.hash) (.block (c.blocks block).size), ?_, Option.some.inj ht⟩
  unfold saveBlock
  rw [hblock, Option.bind_eq_bind, Option.bind_some, (Store.byHash_eq_some hblock).2]
  rfl

/-- A record that is gone. -/
theorem updates_remove {k : Key} (h : K k = none) : Updates K (fun db => db.remove k) [k] := by
  refine updates_single fun db t ht => ?_
  rw [refresh_of_none h] at ht
  unfold write at ht
  unfold Db.remove Db.removeBytes
  dsimp only at ht
  split at ht
  · rename_i hmem
    rw [if_pos hmem]
    exact ⟨_, rfl, Option.some.inj ht⟩
  · cases ht

theorem updates_saveFile {g : FileId} {record : Db.FileInfo} (hrecord : FileDb.asDb c.toStore (c.files g) = some record)
    (hcontent : K (fileKey (c.files g)) = some (.file record)) :
    Updates K (fun db => saveFile c db g) [fileKey (c.files g)] := by
  refine updates_single fun db t ht => ?_
  rw [refresh_of_some hcontent] at ht
  refine ⟨db.save (fileKey (c.files g)) (.file record), ?_, Option.some.inj ht⟩
  unfold saveFile
  rw [hrecord]
  rfl

theorem refreshes_some : Refreshes K some [] [] := by
  rintro v t ⟨⟩
  exact ⟨v, rfl, rfl, by simp⟩

theorem Refreshes.bind (h : Refreshes K m keys marks) (h' : Refreshes K m' keys' marks') :
    Refreshes K (fun v => (m v).bind m') (keys ++ keys') (marks' ++ marks) := by
  intro v t ht
  rw [List.map_append, run_append] at ht
  obtain ⟨u, hu, ht⟩ := Option.bind_eq_some_iff.mp ht
  obtain ⟨w, hw, hcurrent, hdirty⟩ := h v u hu
  rw [← hcurrent] at ht
  obtain ⟨w', hw', hcurrent', hdirty'⟩ := h' w t ht
  refine ⟨w', Option.bind_eq_some_iff.mpr ⟨w, hw, hw'⟩, hcurrent', fun p => ?_⟩
  rw [hdirty', hdirty, List.mem_append, or_assoc]

theorem Refreshes.force (threshold : Nat) (h : Refreshes K m keys marks) :
    Refreshes K (fun v => (m v).bind fun v => some (v.force threshold)) keys marks := by
  intro v t ht
  obtain ⟨w, hw, hcurrent, hdirty⟩ := h v t ht
  exact ⟨w.force threshold, Option.bind_eq_some_iff.mpr ⟨w, hw, rfl⟩, hcurrent, hdirty⟩

/-- **The nested diffs**. -/
theorem refreshes_nested (threshold : Nat) {added : List Proto.BlockInfo} {removed : List Bytes}
    (hadded : ∀ b ∈ added, (c.byHash b.hash).isSome = true ∧ K (.block b.hash) = content c (.block b.hash))
    (hremoved : ∀ hash ∈ removed, K (.block hash) = none) : Refreshes K (visitNested threshold c added removed)
      (added.map (fun b => .block b.hash) ++ removed.map .block) [] := by
  have hnext : Refreshes K (if removed = [] then some else visitRemoveBlocks threshold removed)
      (removed.map .block) [] := by
    split
    · rename_i hnil
      subst hnil
      exact refreshes_some
    · intro v t ht
      obtain ⟨db, hdb, hcurrent⟩ := updates_foldlM (fun hash hmem => updates_remove (hremoved hash hmem))
        v.db.getTxn t (by rwa [Db.current_getTxn])
      exact ⟨{ v with db := db.forceCommit threshold }, Option.bind_eq_some_iff.mpr ⟨db, hdb, rfl⟩, hcurrent, by simp⟩
  unfold visitNested
  dsimp only
  split
  · rename_i hnil
    subst hnil
    exact hnext
  · intro v t ht
    rw [List.map_append, run_append] at ht
    obtain ⟨u, hu, ht⟩ := Option.bind_eq_some_iff.mp ht
    obtain ⟨db, hdb, hcurrent⟩ := updates_foldlM (fun b hmem => updates_saveBlock (hadded b hmem).1 (hadded b hmem).2)
      v.db.getTxn u (by rwa [Db.current_getTxn])
    rw [← hcurrent] at ht
    obtain ⟨w, hw, hlast, hdirty⟩ := hnext { v with db := db } t ht
    refine ⟨w.force threshold, ?_, hlast, hdirty⟩
    exact Option.bind_eq_some_iff.mpr ⟨db, hdb, Option.bind_eq_some_iff.mpr ⟨w, hw, rfl⟩⟩

/-- The nested diffs have found their blocks. -/
theorem found_of_nested {added : List Proto.BlockInfo} {removed : List Bytes} {v v' : Visit}
    (h : visitNested threshold c added removed v = some v') : ∀ b ∈ added, (c.byHash b.hash).isSome = true := by
  intro b hb
  have hne : added ≠ [] := List.ne_nil_of_mem hb
  unfold visitNested at h
  rw [if_neg hne] at h
  obtain ⟨_, hfold, -⟩ := Option.bind_eq_some_iff.mp h
  obtain ⟨-, hall⟩ := @exists_of_foldlM _ _ _ (fun _ => True) (fun _ _ _ _ _ => trivial) _ _ _ trivial hfold
  obtain ⟨_, _, -, hsave⟩ := hall b hb
  obtain ⟨block, hblock, -⟩ := Option.bind_eq_some_iff.mp hsave
  rw [hblock]
  rfl

/-- The blocks of the database are blocks of the model. -/
def BlocksKnown (c : Cluster) (db : Db) : Prop := ∀ x, (Key.block x).bytes ∈ db.current → (c.byHash x).isSome = true

namespace BlocksKnown

variable {db : Db}

theorem of_mirrors (h : Mirrors Key.bytes db.current (content c)) : BlocksKnown c db := by
  intro x hx
  have hsome := Std.ExtTreeMap.isSome_getElem?_iff_mem.mpr hx
  rw [h.value, content_block, Option.isSome_map] at hsome
  exact hsome

theorem getTxn (h : BlocksKnown c db) : BlocksKnown c db.getTxn := by
  unfold BlocksKnown
  rw [Db.current_getTxn]
  exact h

theorem save (h : BlocksKnown c db) {k : Key} {v : Value} (hk : ∀ x, k = .block x → (c.byHash x).isSome = true) :
    BlocksKnown c (db.save k v) := by
  intro x hx
  rw [Db.current_save, Std.ExtTreeMap.mem_insert] at hx
  rcases hx with heq | hx
  · exact hk x (Key.bytes_injective (Std.LawfulEqCmp.eq_of_compare heq))
  · exact h x hx

theorem saveFile (h : BlocksKnown c db) {f : FileId} {db' : Db} (hsave : Database.saveFile c db f = some db') :
    BlocksKnown c db' := by
  obtain ⟨_, -, hsave⟩ := Option.bind_eq_some_iff.mp hsave
  cases hsave
  exact h.save fun x hk => by cases hk

theorem saveBlock (h : BlocksKnown c db) {b : Proto.BlockInfo} {db' : Db}
    (hsave : Database.saveBlock c db b = some db') : BlocksKnown c db' := by
  obtain ⟨block, hblock, hsave⟩ := Option.bind_eq_some_iff.mp hsave
  cases hsave
  refine h.save fun x hk => ?_
  rw [(Store.byHash_eq_some hblock).2] at hk
  cases hk
  exact Option.isSome_iff_exists.mpr ⟨block, hblock⟩

theorem remove (h : BlocksKnown c db) {k : Key} {db' : Db} (hremove : db.remove k = some db') : BlocksKnown c db' := by
  unfold Db.remove Db.removeBytes at hremove
  split at hremove
  · cases hremove
    intro x hx
    exact h x (Std.ExtTreeMap.mem_erase.mp hx).2
  · cases hremove

/-- What is removed has been there. -/
theorem of_remove (h : BlocksKnown c db) {x : Bytes} {db' : Db} (hremove : db.remove (.block x) = some db') :
    (c.byHash x).isSome = true := by
  unfold Db.remove Db.removeBytes at hremove
  split at hremove
  · exact h x ‹_›
  · cases hremove

end BlocksKnown

/-- The nested diffs have removed blocks of the model only. -/
theorem removed_of_nested {added : List Proto.BlockInfo} {removed : List Bytes} {v v' : Visit}
    (hknown : BlocksKnown c v.db) (h : visitNested threshold c added removed v = some v') :
    ∀ x ∈ removed, (c.byHash x).isSome = true := by
  intro x hx
  have hremove : ∀ {v v' : Visit}, BlocksKnown c v.db →
      (if removed = [] then some else visitRemoveBlocks threshold removed) v = some v' →
      (c.byHash x).isSome = true := by
    intro v v' hknown h
    rw [if_neg (List.ne_nil_of_mem hx)] at h
    obtain ⟨_, hfold, -⟩ := Option.bind_eq_some_iff.mp h
    obtain ⟨-, hall⟩ := exists_of_foldlM (fun _ _ _ hdb hstep => hdb.remove hstep) hknown.getTxn hfold
    obtain ⟨_, _, hdb, hstep⟩ := hall x hx
    exact hdb.of_remove hstep
  unfold visitNested at h
  split at h
  · exact hremove hknown h
  · obtain ⟨_, hfold, h⟩ := Option.bind_eq_some_iff.mp h
    obtain ⟨_, hnext, -⟩ := Option.bind_eq_some_iff.mp h
    obtain ⟨hdb, -⟩ := exists_of_foldlM (fun _ _ _ hdb hstep => hdb.saveBlock hstep) hknown.getTxn hfold
    exact hremove hdb hnext

/-- The folder infos are saved at the end. -/
theorem current_foldl_saveFolderInfo {ps : List Share}
    (hinfo : ∀ p ∈ ps, K (infoKey c p) = some (infoValue (c.infos p.2))) :
    ∀ {v : Visit}, v.db.uncommitted = threshold →
      (ps.foldl (saveFolderInfo threshold c) v).db.uncommitted = threshold ∧
      run Key.bytes v.db.current ((ps.map (infoKey c)).map (refresh K)) =
        some (ps.foldl (saveFolderInfo threshold c) v).db.current := by
  induction ps with
  | nil => exact fun hforced => ⟨hforced, rfl⟩
  | cons p ps ih =>
    intro v _
    obtain ⟨hforced, hrun⟩ := ih (fun q hq => hinfo q (List.mem_cons_of_mem _ hq))
      (v := saveFolderInfo threshold c v p) rfl
    refine ⟨hforced, ?_⟩
    rw [List.map_cons, List.map_cons, run_cons, refresh_of_some (hinfo p (List.mem_cons_self ..)),
      List.foldl_cons, ← hrun]
    show run Key.bytes (v.db.current.insert _ _) _ = run Key.bytes (v.db.getTxn.current.insert _ _) _
    rw [Db.current_getTxn]

/-- **A visit**: a database that mirrors the content of before mirrors that of after. -/
theorem mirrors_of_visit {db : Db} {before : Key → Option Value} (hmirrors : Mirrors Key.bytes db.current before)
    (href : Refreshes K m keys marks) (hforced : ∀ v v', m v = some v' → v'.db.uncommitted = threshold)
    (hinfo : ∀ p ∈ marks, K (infoKey c p) = some (infoValue (c.infos p.2)))
    (hrest : ∀ k, k ∉ keys → k ∉ marks.map (infoKey c) → K k = before k)
    (hnodup : (keys.filter fun k => (K k).isNone).Nodup)
    (hthere : ∀ k ∈ keys, K k = none → (before k).isSome = true) :
    ∃ db', visit threshold c m db = some db' ∧ db'.txn = none ∧ Mirrors Key.bytes db'.committed (K) := by
  have hkeys : (run Key.bytes db.current (keys.map (refresh (K)))).isSome = true := by
    rw [run_isSome_iff Key.bytes_injective (says_refresh _ _), removals_refresh]
    refine ⟨hnodup, fun k hk => ?_⟩
    obtain ⟨hmem, hnone⟩ := List.mem_filter.mp hk
    rw [hmirrors.value k]
    exact hthere k hmem (by simpa using hnone)
  obtain ⟨t, ht⟩ := Option.isSome_iff_exists.mp hkeys
  obtain ⟨v, hv, hcurrent, hdirty⟩ := href ⟨db, []⟩ t ht
  have hmarks : ∀ p, p ∈ v.dirty ↔ p ∈ marks := by simpa using hdirty
  obtain ⟨hfinal, hrun⟩ := current_foldl_saveFolderInfo (fun p hp => hinfo p ((hmarks p).mp hp)) (hforced _ _ hv)
  obtain ⟨htxn, hcommitted⟩ := Db.commitOnDemand_of_forced hfinal
  refine ⟨_, by unfold visit; rw [hv]; rfl, htxn, ?_⟩
  rw [hcommitted]
  refine mirrors_of_log Key.bytes_injective hmirrors
    (says_refresh K (keys ++ v.dirty.map (infoKey c))) (fun k hk => ?_) ?_
  · rw [keys_refresh, List.mem_append, not_or] at hk
    refine hrest k hk.1 fun hmem => hk.2 ?_
    obtain ⟨p, hp, rfl⟩ := List.mem_map.mp hmem
    exact List.mem_map_of_mem ((hmarks p).mpr hp)
  · rw [List.map_append, run_append, ht, Option.bind_some, ← hcurrent, hrun]

end Refreshes

end Database

end SyncSpirit
