import SyncSpirit.DatabaseIndex
import SyncSpirit.LocalBatch

/-!
# The database follows the model

The model takes one diff after another, and the database visits each of them. `Consistent`
says that everything is committed and that the tables are what the model has. It holds at the
start (`exists_consistent`), and `follows_of_run` keeps it over every run of index messages
and advances.

`isSome_step_iff_of_create` says which messages of a peer the database actor does not survive.
-/

namespace SyncSpirit

namespace Database

open Fallible Store Availability AdvanceRun UpdateFolder WriteLog

/-! ## Steps -/

/-- **The invariant**: the model is in order, and the database has its content. -/
structure Consistent (st : State) : Prop where
  regular : Regular st.cluster
  closed : st.db.txn = none
  mirrors : Mirrors Key.bytes st.db.committed (content st.cluster)

section Steps

variable {threshold : Nat} {host : Advance.Host} {st st' : State}

theorem Consistent.current (h : Consistent st) : Mirrors Key.bytes st.db.current (content st.cluster) := by
  unfold Db.current
  rw [h.closed]
  exact h.mirrors

theorem step_eq_some {e : Change} : step threshold host st e = some st' ↔
    ∃ t db, e.apply host st.cluster = some t ∧
      visit threshold { st.cluster with toStore := t }
        (e.handle threshold host { st.cluster with toStore := t }) st.db = some db ∧
        st' = ⟨{ st.cluster with toStore := t }, db⟩ := by
  unfold step
  constructor
  · intro h
    obtain ⟨t, ht, h⟩ := Option.bind_eq_some_iff.mp h
    obtain ⟨db, hdb, h⟩ := Option.bind_eq_some_iff.mp h
    cases h
    exact ⟨t, db, ht, hdb, rfl⟩
  · rintro ⟨t, db, ht, hdb, rfl⟩
    exact Option.bind_eq_some_iff.mpr ⟨t, ht, Option.bind_eq_some_iff.mpr ⟨db, hdb, rfl⟩⟩

/-- **The database survives an index message** exactly if it is `Writable`. -/
theorem isSome_step_iff_of_create (h : Consistent st) {nextUuid : Nat → Uuid} {source : Sha256}
    {message : Proto.IndexBase} {d : UpdateFolder.Diff} {p : Share}
    (hcreate : UpdateFolder.create st.cluster nextUuid source message = .ok d)
    (hp : shareOf st.cluster message.folder source = some p)
    (hfresh : FreshUuids st.cluster.toStore p.2 nextUuid message.files.length)
    (happly : (UpdateFolder.apply st.cluster d).isSome = true) :
    ((step threshold host st (.index d)).isSome = true ↔ Writable d) ∧
      ∀ st', step threshold host st (.index d) = some st' → Consistent st' := by
  have hsane := indexSane_of_create h.regular.wf hcreate hp hfresh
  obtain ⟨hfolder, hfi⟩ := shareOf_eq_some.mp hp
  obtain ⟨-, hid, hpeer⟩ := create_ok hcreate hfolder hfi
  rw [← hid, ← hpeer] at hp
  obtain ⟨t, ht⟩ := Option.isSome_iff_exists.mp happly
  have hwritable : ∀ st', step threshold host st (.index d) = some st' → Writable d := by
    intro st' hst
    obtain ⟨t', db, ht', hdb, -⟩ := step_eq_some.mp hst
    obtain ⟨v, hv, -⟩ := Option.bind_eq_some_iff.mp hdb
    exact writable_of_visit h.regular hp hsane ht' hv
  have hmirrors : ∀ hw : Writable d, ∃ db, step threshold host st (.index d) =
      some ⟨{ st.cluster with toStore := t }, db⟩ ∧ Consistent ⟨{ st.cluster with toStore := t }, db⟩ := by
    intro hw
    obtain ⟨hregular, db, hdb, htxn, hmirrors⟩ := mirrors_of_index threshold h.regular hp hsane hw h.current ht
    exact ⟨db, step_eq_some.mpr ⟨t, db, ht, hdb, rfl⟩, hregular, htxn, hmirrors⟩
  refine ⟨⟨fun hsome => ?_, fun hw => ?_⟩, fun st' hst => ?_⟩
  · obtain ⟨st', hst⟩ := Option.isSome_iff_exists.mp hsome
    exact hwritable st' hst
  · obtain ⟨db, hstep, -⟩ := hmirrors hw
    rw [hstep]
    rfl
  · obtain ⟨db, hstep, hconsistent⟩ := hmirrors (hwritable st' hst)
    rw [hst] at hstep
    cases hstep
    exact hconsistent

/-! ## Diffs that have just been made -/

section Made

variable {c : Cluster} {d : Advance.Diff} {env : Advance.Env} {suspended : Bool}

/-- The diff has been made for the model. -/
def Made (host : Advance.Host) (env : Advance.Env) (c : Cluster) (d : Advance.Diff) : Prop :=
  (∃ found folderId disable, Advance.localUpdate host env c found folderId disable = some d) ∨
    ∃ source sourceFi, Advance.create host env c .remoteCopy source sourceFi = some (.single d)

/-- What `advance_t::initialize` sees to. -/
structure Initialized (c : Cluster) (d : Advance.Diff) : Prop where
  nodup : d.removed.Nodup
  unknown : ∀ b ∈ d.added, c.byHash b.hash = none
  needed : (strictHashes (Advance.neededBlocks d.protoLocal)).isSome = true

theorem initialized_of_some (hc : Regular c) {fi : FolderInfoId} {action : Advance.Action} {disable : Bool}
    {nextUuid unset : Uuid} {folderId : String} {peerId : Sha256} {source : Proto.FileInfo} {localName : String}
    (h : Advance.initializeAdvance c.toStore fi action disable nextUuid unset folderId peerId source localName =
      some d) : Initialized c d := by
  obtain ⟨hashes, hhashes, rfl⟩ := initializeAdvance_eq_some h
  refine ⟨List.Nodup.filter _ ?_, fun b hb => ?_, Option.isSome_iff_exists.mpr ⟨hashes, hhashes⟩⟩
  · unfold Advance.orphansOf
    split
    · exact List.nodup_nil
    · split
      · exact List.nodup_nil
      · exact (deduce_spec _ _ _).1
  · obtain ⟨hash, hmem, hstrict⟩ := mem_strictHashes (LocalBatch.strictHashes_newBlocks hhashes) hb
    by_contra hne
    -- a block of the model has the whole hash
    have hblock : c.HasBlock b.hash := Option.isSome_iff_ne_none.mpr hne
    rw [makeStrictHash_of_full (hc.digests b.hash hblock)] at hstrict
    cases hstrict
    exact hne (by simpa using (List.mem_filter.mp hmem).2)

theorem initialized_of_made (hc : Regular c) (h : Made host env c d) : Initialized c d := by
  rcases h with ⟨found, folderId, disable, h⟩ | ⟨source, sourceFi, h⟩
  · unfold Advance.localUpdate at h
    split at h
    · cases h
    · obtain ⟨_, -, h⟩ := Option.bind_eq_some_iff.mp h
      obtain ⟨_, -, h⟩ := Option.bind_eq_some_iff.mp h
      obtain ⟨_, -, h⟩ := Option.bind_eq_some_iff.mp h
      split at h
      · obtain ⟨_, -, h⟩ := Option.bind_eq_some_iff.mp h
        exact initialized_of_some hc h
      · obtain ⟨d', hd', h⟩ := Option.bind_eq_some_iff.mp h
        obtain ⟨hnodup, hunknown, hneeded⟩ := initialized_of_some hc hd'
        -- only the uuid and the version are changed then
        split at h
        · cases h
          exact ⟨hnodup, hunknown, hneeded⟩
        · cases h
          exact ⟨hnodup, hunknown, hneeded⟩
  · obtain ⟨_, -, h⟩ := Option.bind_eq_some_iff.mp h
    obtain ⟨_, -, h⟩ := Option.bind_eq_some_iff.mp h
    obtain ⟨d', hd', h⟩ := Option.bind_eq_some_iff.mp h
    cases h
    obtain ⟨_, -, hd'⟩ := Option.bind_eq_some_iff.mp hd'
    exact initialized_of_some hc hd'

theorem uuid_of_made (h : Made host env c d) {fi : FolderInfoId} (hfi : Advance.localInfo host c d.folderId = some fi)
    (hnone : c.byName fi d.protoLocal.name = none) : d.uuid = env.nextUuid 0 ∨ d.uuid = env.nextUuid 1 := by
  rcases h with ⟨found, folderId, disable, h⟩ | ⟨source, sourceFi, h⟩
  · obtain ⟨hid, huuid⟩ := localUpdate_key h
    exact .inl (huuid fi (hid ▸ hfi) hnone)
  · obtain ⟨_, -, h⟩ := Option.bind_eq_some_iff.mp h
    obtain ⟨_, -, h⟩ := Option.bind_eq_some_iff.mp h
    obtain ⟨d', hd', h⟩ := Option.bind_eq_some_iff.mp h
    cases h
    obtain ⟨hid, -, -, hname, huuid⟩ := remoteCopy_key hd'
    rw [hname] at hnone
    rw [huuid fi (hid ▸ hfi), hnone]
    exact .inr rfl

/-- **A diff is sane** in the model that it has been made for, if it is not ignored. -/
theorem advanceSane_of_made (hc : Regular c) (h : Made host env c d)
    (hfull : ∀ b ∈ d.added, b.hash.length = digestLength) (hthere : ∀ x ∈ d.removed, c.HasBlock x)
    (hplain : asFlags d.protoLocal.type ≠ .file → Advance.neededBlocks d.protoLocal = [])
    (hfresh : ∀ fi, Advance.localInfo host c d.folderId = some fi → ∀ g ∈ (c.infos fi).files,
      (c.files g).uuid ≠ env.nextUuid 0 ∧ (c.files g).uuid ≠ env.nextUuid 1)
    (htaken : d.isIgnored c suspended ≠ true) : AdvanceSane host c suspended d := by
  obtain ⟨hnodup, hunknown, hneeded⟩ := initialized_of_made hc h
  refine ⟨hfull, fun b hb hmem => ?_, hnodup, hneeded, hplain, fun fi hfi hnone g hg => ?_,
    fun hignored => absurd hignored htaken⟩
  · have hblock := hthere b.hash hmem
    unfold Store.HasBlock at hblock
    rw [hunknown b hb] at hblock
    cases hblock
  · obtain ⟨hlocal, hremote⟩ := hfresh fi hfi g hg
    rcases uuid_of_made h hfi hnone with huuid | huuid
    · rw [huuid]
      exact hlocal
    · rw [huuid]
      exact hremote

end Made

/-! ## Runs -/

/-- The model takes the diff. -/
def Change.next (host : Advance.Host) (c : Cluster) (e : Change) : Option Cluster :=
  (e.apply host c).map fun s => { c with toStore := s }

/-- What is promised of a diff. A `remote_win_t` is not among them. -/
def Sane (host : Advance.Host) (c : Cluster) : Change → Prop
  | .index d => ∃ p ∈ shareOf c d.folderId d.peerId, IndexSane c p.2 d ∧ Writable d
  | .advance (.single d) suspended => AdvanceSane host c suspended d
  | .advance (.remoteWin _ _) _ => False

instance (host : Advance.Host) (c : Cluster) : ∀ e, Decidable (Sane host c e)
  | .index d => inferInstanceAs (Decidable (∃ p ∈ shareOf c d.folderId d.peerId, IndexSane c p.2 d ∧ Writable d))
  | .advance (.single d) suspended => inferInstanceAs (Decidable (AdvanceSane host c suspended d))
  | .advance (.remoteWin _ _) _ => inferInstanceAs (Decidable False)

/-- **One step**. -/
theorem Consistent.step (h : Consistent st) {e : Change} {c : Cluster} (hsane : Sane host st.cluster e)
    (hnext : e.next host st.cluster = some c) :
    ∃ db, Database.step threshold host st e = some ⟨c, db⟩ ∧ Consistent ⟨c, db⟩ := by
  obtain ⟨t, ht, rfl⟩ := Option.map_eq_some_iff.mp hnext
  cases e with
  | index d =>
    obtain ⟨p, hp, hindex, hw⟩ := hsane
    obtain ⟨hregular, db, hdb, htxn, hmirrors⟩ :=
      mirrors_of_index threshold h.regular hp hindex hw h.current ht
    exact ⟨db, step_eq_some.mpr ⟨t, db, ht, hdb, rfl⟩, hregular, htxn, hmirrors⟩
  | advance tree suspended =>
    cases tree with
    | single d =>
      obtain ⟨hregular, db, hdb, htxn, hmirrors⟩ :=
        mirrors_of_advance host threshold h.regular hsane h.current ht
      exact ⟨db, step_eq_some.mpr ⟨t, db, ht, hdb, rfl⟩, hregular, htxn, hmirrors⟩
    | remoteWin rename copy => exact hsane.elim

variable (threshold) in
/-- **A run** that the model takes: the database takes it as well. -/
theorem Consistent.run {es : List Change} {c : Cluster} (h : Consistent st)
    (hsane : Run.Meets (Change.next host) (Sane host) st.cluster es)
    (hrun : Run.exec (Change.next host) st.cluster es = some c) :
    ∃ db, Run.exec (Database.step threshold host) st es = some ⟨c, db⟩ ∧ Consistent ⟨c, db⟩ := by
  let R : Cluster → State → Prop := fun c st => st.cluster = c ∧ Consistent st
  have hstep : ∀ s u e s', R s u → Sane host s e → e.next host s = some s' →
      ∃ u', Database.step threshold host u e = some u' ∧ R s' u' := by
    rintro s u e s' ⟨rfl, hu⟩ hcond hnext
    obtain ⟨db, hstep, hdb⟩ := hu.step hcond hnext
    exact ⟨⟨s', db⟩, hstep, rfl, hdb⟩
  obtain ⟨⟨_, db⟩, hexec, rfl, hconsistent⟩ := Run.exec_sim hstep ⟨rfl, h⟩ hsane hrun
  exact ⟨db, hexec, hconsistent⟩

/-- A diff that has just been made for the model: one of an index message that the database actor
survives, or of a local update or a remote copy that is not ignored. -/
def JustMade (host : Advance.Host) (c : Cluster) : Change → Prop
  | .index d => Writable d ∧ ∃ nextUuid source message p, UpdateFolder.create c nextUuid source message = .ok d ∧
      shareOf c message.folder source = some p ∧ FreshUuids c.toStore p.2 nextUuid message.files.length
  | .advance (.single d) suspended => d.isIgnored c suspended ≠ true ∧ (∀ b ∈ d.added, b.hash.length = digestLength) ∧
      (∀ x ∈ d.removed, c.HasBlock x) ∧
      (asFlags d.protoLocal.type ≠ .file → Advance.neededBlocks d.protoLocal = []) ∧
      ∃ env, Made host env c d ∧ ∀ fi, Advance.localInfo host c d.folderId = some fi → ∀ g ∈ (c.infos fi).files,
        (c.files g).uuid ≠ env.nextUuid 0 ∧ (c.files g).uuid ≠ env.nextUuid 1
  | .advance (.remoteWin _ _) _ => False

theorem JustMade.sane {c : Cluster} (hc : Regular c) : ∀ {e : Change}, JustMade host c e → Sane host c e := by
  intro e h
  cases e with
  | index d =>
    obtain ⟨hw, nextUuid, source, message, p, hcreate, hp, hfresh⟩ := h
    obtain ⟨hfolder, hfi⟩ := shareOf_eq_some.mp hp
    obtain ⟨-, hid, hpeer⟩ := create_ok hcreate hfolder hfi
    exact ⟨p, by rw [hid, hpeer]; exact hp, indexSane_of_create hc.wf hcreate hp hfresh, hw⟩
  | advance tree suspended =>
    cases tree with
    | single d =>
      obtain ⟨htaken, hfull, hthere, hplain, env, hmade, hfresh⟩ := h
      exact advanceSane_of_made hc hmade hfull hthere hplain hfresh htaken
    | remoteWin rename copy => exact h.elim

/-- So is a run of diffs each of which has just been made. -/
theorem Consistent.sane_of_made {es : List Change} (h : Consistent st)
    (hmade : Run.Meets (Change.next host) (JustMade host) st.cluster es) :
    Run.Meets (Change.next host) (Sane host) st.cluster es := by
  have hsane : ∀ c e, (∃ db, Consistent ⟨c, db⟩) → JustMade host c e → Sane host c e := by
    rintro c e ⟨_, hdb⟩ he
    exact he.sane hdb.regular
  refine Run.Meets.mono hsane (fun c e c' hc he hnext => ?_) ⟨st.db, h⟩ hmade
  obtain ⟨_, hdb⟩ := hc
  obtain ⟨db', -, hdb'⟩ := @Consistent.step 0 host _ hdb _ _ (hsane c e ⟨_, hdb⟩ he) hnext
  exact ⟨db', hdb'⟩

/-! ## The start -/

/-- Nothing has been shared yet. -/
theorem regular_initial {infos : FolderInfoId → FolderInfo} {folders : List Folder}
    (hfiles : ∀ fi, (infos fi).files = [])
    (huuids : ∀ p ∈ shares ⟨Store.initial infos, folders⟩, ∀ q ∈ shares ⟨Store.initial infos, folders⟩,
      (infos p.2).uuid = (infos q.2).uuid → p = q) : Regular ⟨Store.initial infos, folders⟩ := by
  have hnil : ∀ fi f, f ∉ (infos fi).files := fun fi f hf => by
    rw [hfiles fi] at hf
    cases hf
  refine ⟨(Sound.initial hfiles).mono (Set.empty_subset _), (WF.initial hfiles).infos,
    ⟨fun fi f hf => absurd hf (hnil fi f), fun fi _ f hf => absurd hf (hnil fi f)⟩,
    fun p _ f hf => absurd hf (hnil p.2 f), huuids, fun p _ f hf => absurd hf (hnil p.2 f), fun x hx => ?_⟩
  cases hx

/-- The folder infos are all there is to write down. -/
theorem exists_consistent {infos : FolderInfoId → FolderInfo} {folders : List Folder}
    (hfiles : ∀ fi, (infos fi).files = []) (h : Regular ⟨Store.initial infos, folders⟩) :
    ∃ db, Consistent ⟨⟨Store.initial infos, folders⟩, db⟩ := by
  let c : Cluster := ⟨Store.initial infos, folders⟩
  have hinfo : ∀ p ∈ shares c, content c (infoKey c p) = some (infoValue (infos p.2)) := fun p hp => content_info h hp
  have hgone : ((shares c).map (infoKey c)).filter (fun k => (content c k).isNone) = [] := by
    rw [List.filter_eq_nil_iff]
    intro k hk
    obtain ⟨p, hp, rfl⟩ := List.mem_map.mp hk
    rw [hinfo p hp]
    exact Bool.false_ne_true
  have hrest : ∀ k, k ∉ (shares c).map (infoKey c) → content c k = none := by
    intro k hk
    cases k with
    | block hash => rfl
    | file folder uuid =>
      refine Option.eq_none_iff_forall_ne_some.mpr fun v hv => ?_
      obtain ⟨f, ⟨p, -, hf, -⟩, -⟩ := (content_file h).mp hv
      have hf : f ∈ (infos p.2).files := hf
      rw [hfiles] at hf
      cases hf
    | folderInfo device folder uuid =>
      refine Option.map_eq_none_iff.mpr (List.find?_eq_none.mpr fun p hp hkey => hk ?_)
      have hkey : infoKey c p = .folderInfo device folder uuid := by simpa using hkey
      rw [← hkey]
      exact List.mem_map_of_mem hp
  have hthere : ∀ k ∈ (shares c).map (infoKey c), content c k = none → (none : Option Value).isSome = true := by
    intro k hk hnone
    obtain ⟨p, hp, rfl⟩ := List.mem_map.mp hk
    rw [hinfo p hp] at hnone
    cases hnone
  have hempty : Mirrors Key.bytes (∅ : Table) fun _ => none :=
    ⟨fun _ => Std.ExtTreeMap.getElem?_empty, fun b hb => absurd hb Std.ExtTreeMap.not_mem_empty⟩
  obtain ⟨t, -, hmirrors⟩ := mirrors_of_refresh Key.bytes_injective hempty hrest
    (by rw [hgone]; exact List.nodup_nil) hthere
  exact ⟨⟨t, none, 0⟩, h, rfl, hmirrors⟩

/-- **The database follows the model**: from a model with nothing in it, the database takes
every run of sane diffs that the model takes, and at the end everything has been written down.
Diffs that have just been made are sane. -/
theorem follows_of_run {infos : FolderInfoId → FolderInfo} {folders : List Folder}
    (hfiles : ∀ fi, (infos fi).files = [])
    (huuids : ∀ p ∈ shares ⟨Store.initial infos, folders⟩, ∀ q ∈ shares ⟨Store.initial infos, folders⟩,
      (infos p.2).uuid = (infos q.2).uuid → p = q) :
    ∃ db, Consistent ⟨⟨Store.initial infos, folders⟩, db⟩ ∧
      (∀ es c, Run.Meets (Change.next host) (Sane host) ⟨Store.initial infos, folders⟩ es →
        Run.exec (Change.next host) ⟨Store.initial infos, folders⟩ es = some c →
        ∃ db', Run.exec (step threshold host) ⟨⟨Store.initial infos, folders⟩, db⟩ es = some ⟨c, db'⟩ ∧
          Consistent ⟨c, db'⟩) ∧
      ∀ es, Run.Meets (Change.next host) (JustMade host) ⟨Store.initial infos, folders⟩ es →
        Run.Meets (Change.next host) (Sane host) ⟨Store.initial infos, folders⟩ es := by
  obtain ⟨db, hdb⟩ := exists_consistent hfiles (regular_initial hfiles huuids)
  exact ⟨db, hdb, fun es c hsane hrun => hdb.run threshold hsane hrun, fun es => hdb.sane_of_made⟩

end Steps

/-! ## A run -/

/-- Diffs that are made one after another, each of the model as it is then. -/
def record (host : Advance.Host) : Cluster → List (Cluster → Option Change) → Option (List Change)
  | _, [] => some []
  | c, make :: makes => do
    let e ← make c
    let c ← e.next host c
    let es ← record host c makes
    return e :: es

/-- A file with one block, with the whole hash. -/
def announceFull (name : String) (sequence : Int) (hash : UInt8) : Proto.FileInfo :=
  { announce name sequence hash with blocks := [⟨5, List.replicate digestLength hash, 0⟩] }

def scanned (n hash : UInt8) (name : String) (c : Cluster) : Option Change :=
  (Advance.localUpdate conflictHost (nilEnv n) c (announceFull name 0 hash) "f" false).map fun d =>
    .advance (.single d) false

def received (files : List Proto.FileInfo) (c : Cluster) : Option Change :=
  (UpdateFolder.create c (fun k => Uuid.ofByte (100 + k.toUInt8)) [2] ⟨"f", files⟩).toOption.map .index

def copied (n : UInt8) (name : String) (c : Cluster) : Option Change := do
  let source ← c.byName 1 name
  let d ← Advance.create conflictHost (nilEnv n) c .remoteCopy source 1
  return .advance d false

/-- A file is found, one is announced and fetched, and the first one has another content. -/
def diary : List Change :=
  (record conflictHost conflictCluster [scanned 10 7 "a", received [announceFull "b" 1 8], copied 30 "b",
    scanned 40 9 "a"]).get (by decide +kernel)

theorem conflictCluster_regular : Regular conflictCluster :=
  regular_initial conflictCluster_files (by decide +kernel)

theorem conflictCluster_consistent : ∃ db, Consistent ⟨conflictCluster, db⟩ :=
  exists_consistent conflictCluster_files conflictCluster_regular

/-- The database has it all, and the block that nobody needs any more is gone. -/
theorem diary_consistent : ∃ db c db', Run.exec (step 1 conflictHost) ⟨conflictCluster, db⟩ diary = some ⟨c, db'⟩ ∧
    Consistent ⟨c, db'⟩ ∧ db'.committed[(Key.block (List.replicate digestLength 7)).bytes]? = none ∧
    db'.committed[(Key.block (List.replicate digestLength 8)).bytes]? = some (.block 5) := by
  obtain ⟨db, -, hall, -⟩ := @follows_of_run 1 conflictHost _ conflictCluster.folders conflictCluster_files
    (by decide +kernel)
  have hmodel : (Run.exec (Change.next conflictHost) conflictCluster diary).isSome = true := by decide +kernel
  obtain ⟨c, hc⟩ := Option.isSome_iff_exists.mp hmodel
  have hsane : Run.Meets (Change.next conflictHost) (Sane conflictHost) conflictCluster diary := by decide +kernel
  obtain ⟨db', hexec, hconsistent⟩ := hall diary c hsane hc
  have hblocks : (Run.exec (Change.next conflictHost) conflictCluster diary).map (fun c =>
      (content c (.block (List.replicate digestLength 7)), content c (.block (List.replicate digestLength 8)))) =
      some (none, some (.block 5)) := by decide +kernel
  rw [hc] at hblocks
  have hblocks := Prod.mk.inj (Option.some.inj hblocks)
  exact ⟨db, c, db', hexec, hconsistent, (hconsistent.mirrors.value _).trans hblocks.1,
    (hconsistent.mirrors.value _).trans hblocks.2⟩

/-- The second file has a smaller sequence: the model takes the message, and the database actor
dereferences a null pointer. -/
def descending : List Proto.FileInfo := [announceFull "a" 2 7, announceFull "b" 1 8]

theorem descending_not_survived : ∃ db d, Consistent ⟨conflictCluster, db⟩ ∧
    (received descending conflictCluster).isSome = true ∧ (UpdateFolder.apply conflictCluster d).isSome = true ∧
    d.files = descending ∧ step 1 conflictHost ⟨conflictCluster, db⟩ (.index d) = none := by
  obtain ⟨db, hdb⟩ := conflictCluster_consistent
  have hmade : (UpdateFolder.create conflictCluster (fun k => Uuid.ofByte (100 + k.toUInt8)) [2]
      ⟨"f", descending⟩).toOption.map
        (fun d => (d.files, (UpdateFolder.apply conflictCluster d).isSome)) =
          some (descending, true) := by decide +kernel
  obtain ⟨d, hd, hfields⟩ := Option.map_eq_some_iff.mp hmade
  obtain ⟨hfiles, happly⟩ := Prod.mk.inj hfields
  have hcreate := toOption_eq_some.mp hd
  have hshare : shareOf conflictCluster "f" [2] = some (⟨"f", Uuid.ofByte 3, [0, 1]⟩, 1) := by decide +kernel
  have hfresh : FreshUuids conflictCluster.toStore 1 (fun k => Uuid.ofByte (100 + k.toUInt8)) 2 :=
    ⟨by decide +kernel, fun _ _ f hf => by rw [conflictCluster_files] at hf; cases hf⟩
  obtain ⟨hiff, -⟩ := @isSome_step_iff_of_create 1 conflictHost _ hdb _ _ _ _ _ hcreate hshare hfresh happly
  refine ⟨db, d, hdb, by rw [received, hd]; rfl, happly, hfiles, ?_⟩
  rw [← Option.not_isSome_iff_eq_none, hiff]
  intro hw
  have hascending := hw.ascending
  rw [hfiles] at hascending
  exact absurd hascending (by decide)

end Database

end SyncSpirit
