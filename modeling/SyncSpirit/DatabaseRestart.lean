import SyncSpirit.DatabaseReload

/-!
# The program is started again

The model is loaded from a database that mirrors another model.

`restart_spec`: the load succeeds exactly if every file that is not corrupted is `Loadable`, and
the new model has the content of the other one, without the corrupted files. Their records are
removed, so that the database mirrors the new model, and the next start changes nothing.
-/

namespace SyncSpirit

open Store Availability AdvanceRun UpdateFolder

namespace Database

open Fallible WriteLog

/-! ## What is left after the load -/

/-- All blocks of the record are known. -/
def unbroken (c : Cluster) : Value → Bool
  | .file record => record.blocks.all fun hash => (c.byHash hash).isSome
  | _ => true

/-- The content without the corrupted files. -/
def intact (c : Cluster) (k : Key) : Option Value := (content c k).filter (unbroken c)

/-- The slots of the listed files have blocks, and no other block is in the block map under their
hashes. -/
def Anchored (c : Cluster) : Prop :=
  ∀ p ∈ shares c, ∀ f ∈ (c.infos p.2).files, ∀ v ∈ (c.files f).targets,
    ∃ b ∈ v, ∀ b' ∈ c.byHash (c.blocks b).hash, b' = b

section Intact

variable {c : Cluster} {k : Key} {v : Value} {hash : Bytes} {size : Int32} {record : Db.FileInfo}

theorem intact_eq_some : intact c k = some v ↔ content c k = some v ∧ unbroken c v = true := Option.filter_eq_some_iff

theorem content_block_eq_some : content c (.block hash) = some v ↔
    ∃ size, (c.byHash hash).map (fun b => (c.blocks b).size) = some size ∧ v = .block size := by
  rw [content_block, Option.map_eq_some_iff]
  constructor
  · rintro ⟨b, hb, rfl⟩
    exact ⟨_, by rw [hb]; rfl, rfl⟩
  · rintro ⟨size, hsize, rfl⟩
    obtain ⟨b, hb, rfl⟩ := Option.map_eq_some_iff.mp hsize
    exact ⟨b, hb, rfl⟩

/-- Only the key of a file has a file. -/
theorem exists_file (h : content c k = some (.file record)) : ∃ folder uuid, k = .file folder uuid := by
  cases k with
  | file folder uuid => exact ⟨folder, uuid, rfl⟩
  | block hash =>
    obtain ⟨_, -, h⟩ := content_block_eq_some.mp h
    cases h
  | folderInfo device folder uuid =>
    obtain ⟨_, -, -, h⟩ := exists_share h
    cases h

/-- The file of a record. -/
theorem stored_of_content (hc : Regular c) (hanchored : Anchored c) {folder uuid : Uuid}
    (h : intact c (.file folder uuid) = some (.file record)) :
    ∃ p f, Stored c ((Key.file folder uuid).bytes, record) p f := by
  obtain ⟨hcontent, hknown⟩ := intact_eq_some.mp h
  obtain ⟨f, ⟨p, hp, hf, hkey⟩, r, hr, heq⟩ := (content_file hc).mp hcontent
  cases heq
  obtain ⟨size, blockSize, -, -, hrecord⟩ := FileDb.asDb_eq_some.mp hr
  have hanchor := hanchored p hp f hf
  refine ⟨p, f, hp, hf, ⟨by rw [← hkey]; rfl, hr⟩, fun b hb => ?_, fun v hv => ?_⟩
  · obtain ⟨b₀, hb₀, hunique⟩ := hanchor (some b) hb
    cases hb₀
    -- the hash is in the record, so it is known
    have hmem : (c.blocks b).hash ∈ record.blocks := by
      rw [hrecord, FileDb.blocks_record (hc.sound.coherent f)]
      exact List.mem_filterMap.mpr ⟨some b, hb, rfl⟩
    obtain ⟨b', hb'⟩ := Option.isSome_iff_exists.mp (List.all_eq_true.mp hknown _ hmem)
    rw [hb', hunique b' hb']
  · obtain ⟨b, hb, -⟩ := hanchor v hv
    rintro rfl
    cases hb

end Intact

/-! ## The loaded model -/

section Model

variable {c c' : Cluster} {allFi : List FolderInfoId} {items : List (Bytes × Db.FileInfo)} {t : Store} {k : Key}

/-- The items are the records of the files that are left. -/
def Items (c : Cluster) (items : List (Bytes × Db.FileInfo)) : Prop :=
  ∀ key record, (key, record) ∈ items ↔
    ∃ folder uuid, key = (Key.file folder uuid).bytes ∧ intact c (.file folder uuid) = some (.file record)

theorem Prepared.regular (hb : Prepared c allFi c'.toStore) (hc : Regular c) (htwin : Twin c c')
    (h : Filled c'.toStore allFi items t) : Regular { c' with toStore := t } := by
  have hnext := htwin.of_bare h.infos
  refine ⟨h.sound, h.wf, ⟨fun fi g hg => (h.wf fi).allocated g hg, h.disjoint⟩, fun p _ => h.homed p.2,
    hnext.uuids, fun p hp g hg => ?_, fun hash hhash => ?_⟩
  · obtain ⟨-, item, -, -, hrecord⟩ := h.holds p.2 g hg
    exact Option.isSome_of_eq_some hrecord
  · refine hc.digests hash ?_
    have heq := congrArg Option.isSome (sameBlockMap_trans hb.blocks h.blocks hash)
    rw [Option.isSome_map, Option.isSome_map] at heq
    exact heq.symm.trans hhash

/-- The loaded files are anchored. -/
theorem Filled.anchored (h : Filled c'.toStore allFi items t) : Anchored { c' with toStore := t } := by
  intro p _ g hg v hv
  obtain ⟨b, hb, hfound⟩ := h.found p.2 g hg v hv
  exact ⟨b, hb, fun b' hb' => Option.some.inj (hb'.symm.trans hfound)⟩

/-- **The content** of the loaded model. -/
theorem content_filled (hc : Regular c) (hb : Prepared c ((shares c').map Prod.snd) c'.toStore) (htwin : Twin c c')
    (hitems : Items c items) (h : Filled c'.toStore ((shares c').map Prod.snd) items t) :
    content { c' with toStore := t } = intact c := by
  have hregular := hb.regular hc htwin h
  have hnext := htwin.of_bare h.infos
  funext k
  refine Option.ext fun v => ?_
  rw [intact_eq_some]
  cases k with
  | block hash =>
    rw [content_block_eq_some, content_block_eq_some, sameBlockMap_trans hb.blocks h.blocks hash]
    refine ⟨fun hv => ⟨hv, ?_⟩, And.left⟩
    obtain ⟨size, -, rfl⟩ := hv
    rfl
  | folderInfo device folder uuid =>
    constructor
    · intro hv
      obtain ⟨p', hp', hkey, rfl⟩ := exists_share hv
      obtain ⟨p, hp, hmatch⟩ := hnext.back p' hp'
      rw [← hkey, ← hmatch.infoKey, content_info hc hp, ← hmatch.infoValue]
      exact ⟨rfl, rfl⟩
    · rintro ⟨hv, -⟩
      obtain ⟨p, hp, hkey, rfl⟩ := exists_share hv
      obtain ⟨p', hp', hmatch⟩ := hnext.forth p hp
      rw [← hkey, hmatch.infoKey, content_info hregular hp', hmatch.infoValue]
  | file folder uuid =>
    rw [content_file hregular]
    constructor
    · -- a listed file is from an item, and the item is from the table
      rintro ⟨g, ⟨p', hp', hg, hkey⟩, r, hr, rfl⟩
      obtain ⟨-, item, hitem, hholds⟩ := h.holds p'.2 g hg
      obtain ⟨key, record⟩ := item
      obtain ⟨folder', uuid', rfl, hintact⟩ := (hitems key record).mp hitem
      have hrecord : r = record := Option.some.inj (hr.symm.trans hholds.2)
      have hsame : Key.file folder' uuid' = .file folder uuid :=
        (Key.bytes_injective hholds.1).trans hkey
      rw [hsame] at hintact
      rw [hrecord]
      exact intact_eq_some.mp hintact
    · intro hv
      obtain ⟨f, -, record, -, rfl⟩ := (content_file hc).mp hv.1
      obtain ⟨fi, hfi, g, hg, hholds⟩ := h.loaded _ ((hitems _ record).mpr ⟨folder, uuid, rfl, intact_eq_some.mpr hv⟩)
      obtain ⟨p', hp', rfl⟩ := List.mem_map.mp hfi
      exact ⟨g, ⟨p', hp', hg, (Key.bytes_injective hholds.1).symm⟩, record, hholds.2, rfl⟩

/-- A model without corrupted files. -/
theorem intact_of_content (h : content c' = intact c) : intact c' = content c' := by
  -- the blocks are all there
  have hblocks : ∀ hash, (c.byHash hash).isSome = true → (c'.byHash hash).isSome = true := by
    intro hash hsome
    obtain ⟨b, hb⟩ := Option.isSome_iff_exists.mp hsome
    have hcontent : content c' (.block hash) = some (.block (c.blocks b).size) := by
      rw [h, intact_eq_some, content_block, hb]
      exact ⟨rfl, rfl⟩
    obtain ⟨_, hsize, -⟩ := content_block_eq_some.mp hcontent
    obtain ⟨b', hb', -⟩ := Option.map_eq_some_iff.mp hsize
    exact Option.isSome_of_eq_some hb'
  funext k
  refine Option.ext fun v => ?_
  rw [intact_eq_some, and_iff_left_iff_imp]
  intro hv
  rw [h] at hv
  have hunbroken := (intact_eq_some.mp hv).2
  cases v with
  | block size => rfl
  | folderInfo info => rfl
  | file record => exact List.all_eq_true.mpr fun hash hmem => hblocks hash (List.all_eq_true.mp hunbroken hash hmem)

end Model

/-! ## The corrupted files -/

section Corrupted

variable {threshold : Nat} {c c' : Cluster} {table : Table} {ks : List Key} {K : Key → Option Value}

theorem refreshes_corrupted (h : ∀ k ∈ ks, K k = none) :
    Refreshes K (visitCorrupted threshold (ks.map Key.bytes)) ks [] := by
  intro v t ht
  have hupdates := @updates_foldlM K Key Db.remove id ks fun k hk => updates_remove (h k hk)
  rw [List.map_id] at hupdates
  obtain ⟨db, hdb, hcurrent⟩ := hupdates v.db.getTxn t (by rwa [Db.current_getTxn])
  refine ⟨{ v with db := db.forceCommit threshold }, ?_, hcurrent, by simp⟩
  unfold visitCorrupted
  rw [List.foldlM_map]
  exact Option.bind_eq_some_iff.mpr ⟨db, hdb, rfl⟩

/-- **The records of the corrupted files** are removed. -/
theorem mirrors_of_corrupted (h : Mirrors Key.bytes table (content c)) (hnodup : (ks.map Key.bytes).Nodup)
    (hks : ∀ k, k ∈ ks ↔ (content c k).isSome = true ∧ intact c k = none) :
    ∃ db, visit threshold c' (if ks.map Key.bytes = [] then some else visitCorrupted threshold (ks.map Key.bytes))
      ⟨table, none, 0⟩ = some db ∧ db.txn = none ∧ Mirrors Key.bytes db.committed (intact c) := by
  have hrest : ∀ k, k ∉ ks → intact c k = content c k := by
    intro k hk
    rw [hks, not_and] at hk
    cases hcontent : content c k with
    | none =>
      unfold intact
      rw [hcontent]
      rfl
    | some v =>
      obtain ⟨w, hw⟩ := Option.ne_none_iff_exists'.mp (hk (by rw [hcontent]; rfl))
      rw [hw, ← (intact_eq_some.mp hw).1, hcontent]
  split
  · -- there is no such diff when nothing is corrupted
    rename_i hnil
    have hnone : ks = [] := List.map_eq_nil_iff.mp hnil
    subst hnone
    have hsame : intact c = content c := funext fun k => hrest k List.not_mem_nil
    rw [hsame]
    exact ⟨⟨table, none, 0⟩, rfl, rfl, h⟩
  · have hdb : Mirrors Key.bytes (Db.current ⟨table, none, 0⟩) (content c) := h
    have hmarks : ∀ q ∈ ([] : List Share), intact c (infoKey c' q) = some (infoValue (c'.infos q.2)) :=
      fun q hq => absurd hq List.not_mem_nil
    refine mirrors_of_visit hdb (refreshes_corrupted fun k hk => ((hks k).mp hk).2) (fun v v' hv => ?_) hmarks
      (fun k hk _ => hrest k hk) (hnodup.of_map _ |>.filter _) fun k hk _ => ((hks k).mp hk).1
    obtain ⟨db, -, hdb⟩ := Option.bind_eq_some_iff.mp hv
    cases hdb
    rfl

end Corrupted

/-! ## What is unpacked -/

/-- The records of the table are still to be unpacked, and the folder infos are known. -/
structure Started (c : Cluster) (table : Table) (p : PartialLoad) : Prop where
  diffs : p.diffs = []
  knownHashes : p.knownHashes = []
  blocks : p.blocks = load blockInfoPrefix table
  files : p.files = load FileDb.filePrefix table
  uuids : ∀ q ∈ shares c, (c.infos q.2).uuid.bytes ∈ p.folderInfosUuids
  corruptedFiles : p.corruptedFiles = []

section Unpacked

variable {c : Cluster} {table : Table} {p : PartialLoad} {record : Db.FileInfo}

theorem Started.blockItems (hp : Started c table p) :
    p.blockItems = (load blockInfoPrefix table).filterMap blockItem := by
  unfold PartialLoad.blockItems
  rw [hp.blocks]

theorem Started.fileItems (hp : Started c table p) :
    p.fileItems = (load FileDb.filePrefix table).filterMap fileItem := by
  unfold PartialLoad.fileItems
  rw [hp.files]

theorem Started.mem_allHashes (hp : Started c table p) (h : Mirrors Key.bytes table (content c)) {hash : Bytes} :
    hash ∈ p.allHashes ↔ (c.byHash hash).isSome = true := by
  unfold PartialLoad.allHashes
  rw [hp.knownHashes, List.nil_append, hp.blockItems, List.mem_map]
  constructor
  · rintro ⟨item, hitem, rfl⟩
    obtain ⟨key, size⟩ := item
    obtain ⟨hash, rfl, hcontent⟩ := (mem_blockItems h).mp hitem
    obtain ⟨_, hsize, -⟩ := content_block_eq_some.mp hcontent
    obtain ⟨b, hb, -⟩ := Option.map_eq_some_iff.mp hsize
    exact Option.isSome_of_eq_some hb
  · intro hsome
    obtain ⟨b, hb⟩ := Option.isSome_iff_exists.mp hsome
    refine ⟨(blockInfoPrefix :: hash, (c.blocks b).size), (mem_blockItems h).mpr ⟨hash, rfl, ?_⟩, rfl⟩
    exact content_block_eq_some.mpr ⟨_, by rw [hb]; rfl, rfl⟩

/-- A file of the model is restored if all of its blocks are known. -/
theorem Started.restorable_eq (hp : Started c table p) (hc : Regular c) (h : Mirrors Key.bytes table (content c))
    {folder uuid : Uuid} (hcontent : content c (.file folder uuid) = some (.file record)) :
    restorable p.allHashes p.folderInfosUuids ((Key.file folder uuid).bytes, record) = unbroken c (.file record) := by
  have hfolder : ((Key.file folder uuid).bytes.drop 1).take 16 ∈ p.folderInfosUuids := by
    obtain ⟨f, ⟨q, hq, hf, hkey⟩, -⟩ := (content_file hc).mp hcontent
    have htake : ((Key.file folder uuid).bytes.drop 1).take 16 = folder.bytes := List.take_left' folder.length_bytes
    rw [htake, ← (Key.file.inj hkey).1, hc.homed q hq f hf]
    exact hp.uuids q hq
  unfold restorable unbroken
  dsimp only
  rw [decide_eq_true hfolder, Bool.and_true]
  congr 1
  funext hash
  rw [Bool.eq_iff_iff, decide_eq_true_eq]
  exact hp.mem_allHashes h

/-- **The files that are loaded**. -/
theorem Started.items (hp : Started c table p) (hc : Regular c) (h : Mirrors Key.bytes table (content c)) :
    Items c p.kept := by
  intro key record
  unfold PartialLoad.kept
  rw [hp.fileItems, List.mem_filter, mem_fileItems h]
  constructor
  · rintro ⟨⟨folder, uuid, rfl, hcontent⟩, hrestorable⟩
    rw [hp.restorable_eq hc h hcontent] at hrestorable
    exact ⟨folder, uuid, rfl, intact_eq_some.mpr ⟨hcontent, hrestorable⟩⟩
  · rintro ⟨folder, uuid, rfl, hintact⟩
    obtain ⟨hcontent, hunbroken⟩ := intact_eq_some.mp hintact
    exact ⟨⟨folder, uuid, rfl, hcontent⟩, (hp.restorable_eq hc h hcontent).trans hunbroken⟩

theorem Started.nodup_kept (hp : Started c table p) : (p.kept.map Prod.fst).Nodup := by
  unfold PartialLoad.kept
  rw [hp.fileItems]
  exact (nodup_items picks_file).sublist (List.filter_sublist.map _)

/-- **The files that are not**. -/
theorem Started.corrupted (hp : Started c table p) (hc : Regular c) (h : Mirrors Key.bytes table (content c)) :
    ∃ ks : List Key, p.corrupted = ks.map Key.bytes ∧ (ks.map Key.bytes).Nodup ∧
      ∀ k, k ∈ ks ↔ (content c k).isSome = true ∧ intact c k = none := by
  have hmem : ∀ key, key ∈ p.corrupted ↔
      ∃ k, key = Key.bytes k ∧ (content c k).isSome = true ∧ intact c k = none := by
    intro key
    unfold PartialLoad.corrupted
    rw [hp.corruptedFiles, List.nil_append, hp.fileItems, List.mem_map]
    constructor
    · rintro ⟨item, hitem, rfl⟩
      obtain ⟨key, record⟩ := item
      obtain ⟨hitem, hbroken⟩ := List.mem_filter.mp hitem
      obtain ⟨folder, uuid, rfl, hcontent⟩ := (mem_fileItems h).mp hitem
      rw [hp.restorable_eq hc h hcontent] at hbroken
      refine ⟨.file folder uuid, rfl, Option.isSome_of_eq_some hcontent, Option.eq_none_iff_forall_ne_some.mpr ?_⟩
      intro v hv
      obtain ⟨hv, hunbroken⟩ := intact_eq_some.mp hv
      rw [hcontent] at hv
      cases hv
      rw [hunbroken] at hbroken
      cases hbroken
    · rintro ⟨k, rfl, hsome, hnone⟩
      obtain ⟨v, hv⟩ := Option.isSome_iff_exists.mp hsome
      have hbroken : unbroken c v = false := by
        by_contra htrue
        rw [intact_eq_some.mpr ⟨hv, by simpa using htrue⟩] at hnone
        cases hnone
      -- blocks and folder infos are never corrupted
      cases v with
      | block size => cases hbroken
      | folderInfo info => cases hbroken
      | file record =>
        obtain ⟨folder, uuid, rfl⟩ := exists_file hv
        refine ⟨((Key.file folder uuid).bytes, record), List.mem_filter.mpr
          ⟨(mem_fileItems h).mpr ⟨folder, uuid, rfl, hv⟩, ?_⟩, rfl⟩
        rw [hp.restorable_eq hc h hv, hbroken]
        rfl
  obtain ⟨ks, hks, hmap⟩ := exists_map_of_forall fun key hkey => by
    obtain ⟨k, heq, hk⟩ := (hmem key).mp hkey
    exact ⟨k, hk, heq⟩
  refine ⟨ks, hmap, ?_, fun k => ⟨hks k, fun hk => ?_⟩⟩
  · rw [← hmap]
    unfold PartialLoad.corrupted
    rw [hp.corruptedFiles, List.nil_append, hp.fileItems]
    exact (nodup_items picks_file).sublist (List.filter_sublist.map _)
  · have hbytes : k.bytes ∈ ks.map Key.bytes := by
      rw [← hmap]
      exact (hmem _).mpr ⟨k, rfl, hk⟩
    obtain ⟨k', hk', heq⟩ := List.mem_map.mp hbytes
    rwa [← Key.bytes_injective heq]

end Unpacked

/-! ## The restart -/

section Restart

variable {threshold maxBlocks maxFiles fuel : Nat} {catalog : Catalog} {st : State}

/-- The model into which the files are loaded. -/
theorem exists_prepared (h : Consistent st) (hcat : Cataloged catalog st.cluster) {ps : List Share} {p : PartialLoad}
    (hp : Started st.cluster st.db.committed p) (hall : ∀ q, q ∈ ps ↔ q ∈ shares st.cluster) (hnodup : ps.Nodup) :
    ∃ l s, loadInfos catalog (ps.map (infoItem st.cluster)) = .ok (begun l) ∧
      l.folders.map (fun folder => (folder.id, folder.uuid)) = catalog.folders ∧
      p.blockItems.foldlM loadBlock (begun l).toStore = .ok s ∧
      Twin st.cluster { begun l with toStore := s } ∧
      Prepared st.cluster ((shares (begun l)).map Prod.snd) s ∧ Filled s ((shares (begun l)).map Prod.snd) [] s := by
  have hc := h.regular
  obtain ⟨l, hl, hbegun⟩ := @Begun.run catalog st.cluster hcat hc ps [] _ (begun_nil catalog st.cluster)
    (fun q hq => (hall q).mp hq) hnodup
  have hbegun : Begun catalog st.cluster ps l := hbegun
  have hempty : Stocked (begun l).toStore [] (begun l).toStore :=
    ⟨Sound.initial hbegun.files_eq_nil, rfl, rfl, fun hash size => by simp [begun, Store.initial, Store.byHash]⟩
  obtain ⟨s, hs, hstocked⟩ := @Stocked.run _ p.blockItems [] _ hempty (fun item hitem => by
      obtain ⟨key, size⟩ := item
      rw [hp.blockItems] at hitem
      obtain ⟨hash, rfl, hcontent⟩ := (mem_blockItems h.mirrors).mp hitem
      obtain ⟨_, hsize, -⟩ := content_block_eq_some.mp hcontent
      obtain ⟨b, hb, -⟩ := Option.map_eq_some_iff.mp hsize
      exact ⟨hash, rfl, hc.digests hash (Option.isSome_of_eq_some hb)⟩) (by
      rw [List.nil_append, hp.blockItems]
      exact nodup_items picks_block)
  rw [List.nil_append] at hstocked
  have hinfos : ∀ fi, s.infos fi = (begun l).infos fi := fun fi => by rw [hstocked.infos]
  have htwin : Twin st.cluster { begun l with toStore := s } :=
    (hbegun.twin hcat hc hall hnodup).of_bare fun fi => by rw [hinfos]
  refine ⟨l, s, ?_, hbegun.folders, hs, htwin,
    ⟨fun hash => Option.ext fun size => ?_, fun fi hfi => ?_, fun q hq => ?_⟩, ?_⟩
  · unfold loadInfos
    rw [hl]
    rfl
  · rw [hstocked.sizes, hp.blockItems, mem_blockItems h.mirrors]
    constructor
    · rintro ⟨hash', heq, hcontent⟩
      cases heq
      obtain ⟨_, hsize, hvalue⟩ := content_block_eq_some.mp hcontent
      cases hvalue
      exact hsize
    · exact fun hsize => ⟨hash, rfl, content_block_eq_some.mpr ⟨size, hsize, rfl⟩⟩
  · obtain ⟨p', hp', rfl⟩ := List.mem_map.mp hfi
    obtain ⟨q, hq, -, hbare⟩ := htwin.back p' hp'
    exact ⟨q, hq, hbare⟩
  · obtain ⟨p', hp', -, hbare⟩ := htwin.forth q hq
    exact ⟨p'.2, List.mem_map_of_mem hp', hbare⟩
  · exact filled_nil (hstocked.sound.mono (Set.empty_subset _)) fun fi => by rw [hinfos, hbegun.files_eq_nil]

/-- What has to succeed one after the other. -/
theorem restart_eq_some {table : Table} {infos : List (Bytes × Db.FolderInfo)} {diffs : List LoadDiff} {c : Cluster}
    {st' : State} (hinfos : (load folderInfoPrefix table).mapM folderInfoItem = some infos)
    (hdiffs : partialLoad maxBlocks maxFiles fuel ⟨[], [], load blockInfoPrefix table, load FileDb.filePrefix table,
      infos.map fun item => folderInfoUuid item.1, []⟩ = some diffs)
    (hc : loadInfos catalog infos = .ok c) :
    restart threshold maxBlocks maxFiles fuel catalog table = some st' ↔
      ∃ t db, diffs.foldlM (LoadDiff.apply ((shares c).map Prod.snd)) c.toStore = .ok t ∧
        visit threshold { c with toStore := t } (if diffs.flatMap LoadDiff.removed = [] then some
          else visitCorrupted threshold (diffs.flatMap LoadDiff.removed)) ⟨table, none, 0⟩ = some db ∧
        st' = ⟨{ c with toStore := t }, db⟩ := by
  unfold restart
  rw [hinfos, Option.bind_eq_bind, Option.bind_some, hdiffs, Option.bind_eq_bind, Option.bind_some, hc]
  show (Except.toOption (diffs.foldlM _ _)).bind _ = _ ↔ _
  rw [Option.bind_eq_some_iff]
  simp only [toOption_eq_some, Option.bind_eq_bind, Option.bind_eq_some_iff, Option.pure_def, Option.some.injEq]
  constructor
  · rintro ⟨t, ht, db, hdb, rfl⟩
    exact ⟨t, db, ht, hdb, rfl⟩
  · rintro ⟨t, db, ht, hdb, rfl⟩
    exact ⟨t, ht, db, hdb, rfl⟩

/-- **A start**: the program starts exactly if every file that is not corrupted can be loaded. -/
theorem restart_loads (h : Consistent st) (hanchored : Anchored st.cluster) (hcat : Cataloged catalog st.cluster)
    (hblocks : 0 < maxBlocks) (hfiles : 0 < maxFiles)
    (hfuel : (load blockInfoPrefix st.db.committed).length + (load FileDb.filePrefix st.db.committed).length < fuel) :
    ((restart threshold maxBlocks maxFiles fuel catalog st.db.committed).isSome = true ↔
      ∀ k record, intact st.cluster k = some (.file record) → Loadable record) ∧
    ∀ st', restart threshold maxBlocks maxFiles fuel catalog st.db.committed = some st' →
      Consistent st' ∧ content st'.cluster = intact st.cluster ∧
        Anchored st'.cluster ∧ Cataloged catalog st'.cluster := by
  have hc := h.regular
  obtain ⟨ps, hinfos, hnodup, hall⟩ := infos_of_mirrors hc h.mirrors
  obtain ⟨p, hpeq⟩ : ∃ p : PartialLoad, p = ⟨[], [], load blockInfoPrefix st.db.committed,
    load FileDb.filePrefix st.db.committed, (ps.map (infoItem st.cluster)).map fun item => folderInfoUuid item.1, []⟩ :=
    ⟨_, rfl⟩
  have hp : Started st.cluster st.db.committed p := by
    rw [hpeq]
    refine ⟨rfl, rfl, rfl, rfl, fun q hq => ?_, rfl⟩
    rw [← folderInfoUuid_infoItem (hcat.devices q hq).2]
    exact List.mem_map_of_mem (List.mem_map_of_mem ((hall q).mpr hq))
  obtain ⟨l, s, hl, hfolders, hs, htwin, hprepared, hfilled⟩ := exists_prepared h hcat hp hall hnodup
  obtain ⟨diffs, hdiffs, hunpacked⟩ := @partialLoad_spec maxBlocks maxFiles hblocks hfiles fuel p (by
    rw [hp.blocks, hp.files]
    exact hfuel)
  obtain ⟨ks, hcorrupted, hkeys, hks⟩ := hp.corrupted hc h.mirrors
  have hitems := hp.items hc h.mirrors
  -- all chunks together load the blocks, then the files that are kept
  obtain ⟨hiff, hloaded⟩ := @Filled.run st.cluster s _ hprepared hc p.kept [] _ hfilled (fun item hitem => by
    obtain ⟨key, record⟩ := item
    obtain ⟨folder, uuid, rfl, hintact⟩ := (hitems key record).mp hitem
    exact stored_of_content hc hanchored hintact) hp.nodup_kept
  have happly : diffs.foldlM (LoadDiff.apply ((shares (begun l)).map Prod.snd)) (begun l).toStore =
      p.kept.foldlM (loadFileInfo ((shares (begun l)).map Prod.snd)) s := by
    rw [hunpacked.apply, hp.diffs, List.foldlM_nil, pure_bind, hs]
    rfl
  have hremoved : diffs.flatMap LoadDiff.removed = ks.map Key.bytes := by
    rw [hunpacked.removed, hp.diffs, hcorrupted]
    rfl
  -- after a load the database is as the new model
  have hvisit : ∀ t : Store, ∃ db, visit threshold { begun l with toStore := t }
      (if ks.map Key.bytes = [] then some else visitCorrupted threshold (ks.map Key.bytes))
      ⟨st.db.committed, none, 0⟩ = some db ∧ db.txn = none ∧ Mirrors Key.bytes db.committed (intact st.cluster) :=
    fun t => mirrors_of_corrupted h.mirrors hkeys hks
  have hrestart : ∀ st', restart threshold maxBlocks maxFiles fuel catalog st.db.committed = some st' ↔
      ∃ t db, p.kept.foldlM (loadFileInfo ((shares (begun l)).map Prod.snd)) s = .ok t ∧
        visit threshold { begun l with toStore := t }
          (if ks.map Key.bytes = [] then some else visitCorrupted threshold (ks.map Key.bytes))
          ⟨st.db.committed, none, 0⟩ = some db ∧ st' = ⟨{ begun l with toStore := t }, db⟩ := by
    intro st'
    rw [restart_eq_some hinfos (by rw [← hpeq]; exact hdiffs) hl, happly, hremoved]
  constructor
  · rw [Option.isSome_iff_exists]
    constructor
    · rintro ⟨st', hst'⟩ k record hrecord
      obtain ⟨t, -, ht, -⟩ := (hrestart st').mp hst'
      obtain ⟨folder, uuid, rfl⟩ := exists_file (intact_eq_some.mp hrecord).1
      exact hiff.mp ⟨t, ht⟩ _ ((hitems _ record).mpr ⟨folder, uuid, rfl, hrecord⟩)
    · intro hloadable
      obtain ⟨t, ht⟩ := hiff.mpr fun item hitem => by
        obtain ⟨key, record⟩ := item
        obtain ⟨folder, uuid, -, hintact⟩ := (hitems key record).mp hitem
        exact hloadable _ record hintact
      obtain ⟨db, hdb, -⟩ := hvisit t
      exact ⟨_, (hrestart _).mpr ⟨t, db, ht, hdb, rfl⟩⟩
  · intro st' hst'
    obtain ⟨t, db, ht, hdb, rfl⟩ := (hrestart st').mp hst'
    have hfinal := hloaded t ht
    obtain ⟨db', hdb', htxn, hmirrors⟩ := hvisit t
    rw [hdb] at hdb'
    cases hdb'
    have hcontent : content { begun l with toStore := t } = intact st.cluster :=
      @content_filled st.cluster { begun l with toStore := s } p.kept t hc hprepared htwin hitems hfinal
    refine ⟨⟨?_, htxn, ?_⟩, hcontent, ?_, ?_⟩
    · exact @Prepared.regular st.cluster { begun l with toStore := s } _ p.kept t hprepared hc htwin hfinal
    · show Mirrors Key.bytes db.committed (content { begun l with toStore := t })
      rw [hcontent]
      exact hmirrors
    · exact @Filled.anchored { begun l with toStore := s } _ p.kept t hfinal
    · exact (htwin.of_bare hfinal.infos).cataloged hcat hfolders

/-- **Restart**: the program starts exactly if every file that is not corrupted can be loaded. Its
model then has the content of before, without the corrupted files, and so has its database. From
then on a start changes nothing. -/
theorem restart_spec (h : Consistent st) (hanchored : Anchored st.cluster) (hcat : Cataloged catalog st.cluster)
    (hblocks : 0 < maxBlocks) (hfiles : 0 < maxFiles)
    (hfuel : (load blockInfoPrefix st.db.committed).length + (load FileDb.filePrefix st.db.committed).length < fuel) :
    ((restart threshold maxBlocks maxFiles fuel catalog st.db.committed).isSome = true ↔
      ∀ k record, intact st.cluster k = some (.file record) → Loadable record) ∧
    ∀ st', restart threshold maxBlocks maxFiles fuel catalog st.db.committed = some st' →
      Consistent st' ∧ content st'.cluster = intact st.cluster ∧
      ∀ fuel', (load blockInfoPrefix st'.db.committed).length +
          (load FileDb.filePrefix st'.db.committed).length < fuel' →
        ∃ st'', restart threshold maxBlocks maxFiles fuel' catalog st'.db.committed = some st'' ∧ Consistent st'' ∧
          content st''.cluster = content st'.cluster := by
  obtain ⟨hiff, hloaded⟩ := restart_loads h hanchored hcat hblocks hfiles hfuel
  refine ⟨hiff, fun st' hst' => ?_⟩
  obtain ⟨hconsistent, hcontent, hanchored', hcat'⟩ := hloaded st' hst'
  refine ⟨hconsistent, hcontent, fun fuel' hfuel' => ?_⟩
  obtain ⟨hiff', hloaded'⟩ := restart_loads hconsistent hanchored' hcat' hblocks hfiles hfuel'
  have hintact : intact st'.cluster = content st'.cluster := intact_of_content hcontent
  -- what could be loaded once can be loaded again
  have hloadable : ∀ k record, intact st'.cluster k = some (.file record) → Loadable record := by
    rw [hintact, hcontent]
    exact hiff.mp (Option.isSome_of_eq_some hst')
  obtain ⟨st'', hst''⟩ := Option.isSome_iff_exists.mp (hiff'.mpr hloadable)
  obtain ⟨hconsistent', hcontent', -⟩ := hloaded' st'' hst''
  exact ⟨st'', hst'', hconsistent', hcontent'.trans hintact⟩

end Restart

/-! ## A start -/

instance (record : Db.FileInfo) : Decidable (Loadable record) :=
  inferInstanceAs (Decidable (record.name ≠ "" ∧ record.version.counters ≠ [] ∧ (record.size ≠ 0 ∨ record.blocks = [])))

/-- The file of a record. -/
def Value.fileInfo : Value → Option Db.FileInfo
  | .file record => some record
  | _ => none

/-- It is enough to look at the listed files. -/
theorem loadable_of_listed {c : Cluster} (hc : Regular c)
    (h : ∀ p ∈ shares c, ∀ f ∈ (c.infos p.2).files, ∀ r ∈ FileDb.asDb c.toStore (c.files f), Loadable r) :
    ∀ k record, intact c k = some (.file record) → Loadable record := by
  intro k record hintact
  obtain ⟨hcontent, -⟩ := intact_eq_some.mp hintact
  obtain ⟨folder, uuid, rfl⟩ := exists_file hcontent
  obtain ⟨f, ⟨p, hp, hf, -⟩, r, hr, heq⟩ := (content_file hc).mp hcontent
  cases heq
  exact h p hp f hf _ hr

/-- The id of a device, in full. -/
def deviceId (n : UInt8) : Sha256 := List.replicate digestLength n

/-- As many rounds as there are blocks and files, and one more. -/
def fuelOf (st : State) : Nat :=
  ((load blockInfoPrefix st.db.committed).length + (load FileDb.filePrefix st.db.committed).length).succ

def homeHost : Advance.Host := { conflictHost with self := deviceId 1 }

def homeCluster : Cluster where
  toStore := Store.initial fun
    | 0 => ⟨Uuid.ofByte 1, deviceId 1, [], 0, 0, []⟩
    | _ => ⟨Uuid.ofByte 2, deviceId 2, [], 0, 0, []⟩
  folders := [⟨"f", Uuid.ofByte 3, [0, 1]⟩]

def homeCatalog : Catalog := ⟨[deviceId 1, deviceId 2], [("f", Uuid.ofByte 3)]⟩

/-- The file of the device is found. -/
def homeScan (n hash : UInt8) (c : Cluster) : Option Change :=
  (Advance.localUpdate homeHost (nilEnv n) c (announceFull "a" 0 hash) "f" false).map fun d =>
    .advance (.single d) false

/-- The peer announces a file. -/
def homeIndex (file : Proto.FileInfo) (c : Cluster) : Option Change :=
  (UpdateFolder.create c (fun k => Uuid.ofByte (100 + k.toUInt8)) (deviceId 2) ⟨"f", [file]⟩).toOption.map .index

/-- What becomes of the file of the peer. -/
inductive Ending where
  | kept
  /-- It has blocks and is invalid. -/
  | invalid
  /-- A diff that is made before the message and applied after it takes its block away. -/
  | corrupted
  deriving DecidableEq

/-- A file is found, and the peer announces one. -/
def homeDiary : Ending → Option (List Change)
  | .kept => record homeHost homeCluster [homeScan 10 7, homeIndex (announceFull "b" 1 8)]
  | .invalid => record homeHost homeCluster [homeScan 10 7, homeIndex { announceFull "b" 1 8 with invalid := true }]
  | .corrupted => do
    let scans ← record homeHost homeCluster [homeScan 10 7]
    let c ← Run.exec (Change.next homeHost) homeCluster scans
    let late ← homeScan 40 9 c
    let rest ← record homeHost c [homeIndex (announceFull "b" 1 7), fun _ => some late]
    return scans ++ rest

/-- The model after that. -/
def homeModel (ending : Ending) : Option Cluster :=
  (homeDiary ending).bind fun es => Run.exec (Change.next homeHost) homeCluster es

theorem homeCluster_files (fi : FolderInfoId) : (homeCluster.infos fi).files = [] := by
  cases fi <;> rfl

theorem homeCluster_regular : Regular homeCluster :=
  regular_initial homeCluster_files (by decide +kernel)

theorem homeCluster_consistent : ∃ db, Consistent ⟨homeCluster, db⟩ :=
  exists_consistent homeCluster_files homeCluster_regular

theorem homeModel_consistent (ending : Ending) : ∃ st, Consistent st ∧ homeModel ending = some st.cluster := by
  obtain ⟨db, hdb⟩ := homeCluster_consistent
  have hdiary : (homeDiary ending).isSome = true := by cases ending <;> decide +kernel
  have hmodel : (homeModel ending).isSome = true := by cases ending <;> decide +kernel
  have hsane : ∀ es ∈ homeDiary ending,
      Run.Meets (Change.next homeHost) (Sane homeHost) homeCluster es := by cases ending <;> decide +kernel
  obtain ⟨es, hes⟩ := Option.isSome_iff_exists.mp hdiary
  obtain ⟨c, hc⟩ := Option.isSome_iff_exists.mp hmodel
  have hexec : Run.exec (Change.next homeHost) homeCluster es = some c := by
    unfold homeModel at hc
    rwa [hes] at hc
  obtain ⟨db', -, hconsistent⟩ := hdb.run 1 (hsane es hes) hexec
  exact ⟨⟨c, db'⟩, hconsistent, hc⟩

theorem homeModel_anchored {ending : Ending} : ∀ c ∈ homeModel ending, Anchored c := by
  unfold Anchored
  cases ending <;> decide +kernel

theorem homeModel_cataloged {ending : Ending} {c : Cluster} (h : homeModel ending = some c) :
    Cataloged homeCatalog c := by
  have hfolders : ∀ c ∈ homeModel ending,
      c.folders.map (fun folder => (folder.id, folder.uuid)) = homeCatalog.folders := by
    cases ending <;> decide +kernel
  have hdistinct : ∀ c ∈ homeModel ending, (c.folders.map Folder.uuid).Nodup := by cases ending <;> decide +kernel
  have hdevices : ∀ c ∈ homeModel ending, ∀ p ∈ shares c, (c.infos p.2).device ∈ homeCatalog.devices ∧
      (c.infos p.2).device.length = digestLength := by cases ending <;> decide +kernel
  have honce : ∀ c ∈ homeModel ending, ∀ p ∈ shares c, ∀ q ∈ shares c, p.1.uuid = q.1.uuid →
      (c.infos p.2).device = (c.infos q.2).device → p = q := by cases ending <;> decide +kernel
  exact ⟨hfolders c h, hdistinct c h, hdevices c h, honce c h⟩

theorem homeModel_loadable {ending : Ending} (h : ending ≠ .invalid) : ∀ c ∈ homeModel ending, ∀ p ∈ shares c,
    ∀ f ∈ (c.infos p.2).files, ∀ r ∈ FileDb.asDb c.toStore (c.files f), Loadable r := by
  cases ending with
  | kept => decide +kernel
  | invalid => exact absurd rfl h
  | corrupted => decide +kernel

/-- The program starts again with what it has had. A file whose block has been taken away is not
part of it any more. With an invalid file that has blocks, which the model and the database take, the
program does not start at all. -/
theorem home_restarts :
    (∃ st fuel st', homeModel .kept = some st.cluster ∧ Consistent st ∧
      restart 1 1 1 fuel homeCatalog st.db.committed = some st' ∧ Consistent st' ∧
      content st'.cluster = intact st.cluster ∧ content st'.cluster (.block (deviceId 8)) = some (.block 5)) ∧
    (∃ st fuel st', homeModel .corrupted = some st.cluster ∧ Consistent st ∧
      (content st.cluster (.file (Uuid.ofByte 2) (Uuid.ofByte 100))).isSome = true ∧
      restart 1 1 1 fuel homeCatalog st.db.committed = some st' ∧ Consistent st' ∧
      content st'.cluster = intact st.cluster ∧
      content st'.cluster (.file (Uuid.ofByte 2) (Uuid.ofByte 100)) = none ∧
      content st'.cluster (.block (deviceId 9)) = some (.block 5)) ∧
    ∃ st fuel, homeModel .invalid = some st.cluster ∧ Consistent st ∧
      restart 1 1 1 fuel homeCatalog st.db.committed = none := by
  have hspec : ∀ {ending st}, Consistent st → homeModel ending = some st.cluster →
      ((restart 1 1 1 (fuelOf st) homeCatalog st.db.committed).isSome = true ↔
        ∀ k record, intact st.cluster k = some (.file record) → Loadable record) ∧
      ∀ st', restart 1 1 1 (fuelOf st) homeCatalog st.db.committed = some st' →
        Consistent st' ∧ content st'.cluster = intact st.cluster := by
    intro ending st hst hmodel
    obtain ⟨hiff, hcontent⟩ := @restart_spec 1 1 1 (fuelOf st) homeCatalog st hst (homeModel_anchored _ hmodel)
      (homeModel_cataloged hmodel) Nat.one_pos Nat.one_pos (Nat.lt_succ_self _)
    exact ⟨hiff, fun st' hst' => ⟨(hcontent st' hst').1, (hcontent st' hst').2.1⟩⟩
  refine ⟨?_, ?_, ?_⟩
  · obtain ⟨st, hst, hmodel⟩ := homeModel_consistent .kept
    obtain ⟨hiff, hcontent⟩ := hspec hst hmodel
    have hloadable := loadable_of_listed hst.regular (homeModel_loadable (by decide) _ hmodel)
    have hblock : ∀ c ∈ homeModel .kept, intact c (.block (deviceId 8)) = some (.block 5) := by decide +kernel
    obtain ⟨st', hst'⟩ := Option.isSome_iff_exists.mp (hiff.mpr hloadable)
    obtain ⟨hconsistent, hsame⟩ := hcontent st' hst'
    exact ⟨st, fuelOf st, st', hmodel, hst, hst', hconsistent, hsame, by rw [hsame]; exact hblock _ hmodel⟩
  · obtain ⟨st, hst, hmodel⟩ := homeModel_consistent .corrupted
    obtain ⟨hiff, hcontent⟩ := hspec hst hmodel
    have hloadable := loadable_of_listed hst.regular (homeModel_loadable (by decide) _ hmodel)
    have hlost : ∀ c ∈ homeModel .corrupted, (content c (.file (Uuid.ofByte 2) (Uuid.ofByte 100))).isSome = true ∧
        intact c (.file (Uuid.ofByte 2) (Uuid.ofByte 100)) = none ∧
        intact c (.block (deviceId 9)) = some (.block 5) := by decide +kernel
    obtain ⟨hlisted, hgone, hblock⟩ := hlost _ hmodel
    obtain ⟨st', hst'⟩ := Option.isSome_iff_exists.mp (hiff.mpr hloadable)
    obtain ⟨hconsistent, hsame⟩ := hcontent st' hst'
    exact ⟨st, fuelOf st, st', hmodel, hst, hlisted, hst', hconsistent, hsame, by rw [hsame]; exact hgone,
      by rw [hsame]; exact hblock⟩
  · obtain ⟨st, hst, hmodel⟩ := homeModel_consistent .invalid
    obtain ⟨hiff, -⟩ := hspec hst hmodel
    have hbroken : ∀ c ∈ homeModel .invalid, ∃ v ∈ intact c (.file (Uuid.ofByte 2) (Uuid.ofByte 100)),
        ∃ r ∈ v.fileInfo, ¬ Loadable r := by decide +kernel
    refine ⟨st, fuelOf st, hmodel, hst, ?_⟩
    rw [← Option.not_isSome_iff_eq_none, hiff]
    intro hall
    obtain ⟨v, hv, r, hr, hnot⟩ := hbroken _ hmodel
    cases v with
    | file record =>
      cases hr
      exact hnot (hall _ _ hv)
    | block size => cases hr
    | folderInfo info => cases hr

end Database

end SyncSpirit
