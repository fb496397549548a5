import SyncSpirit.DatabaseRun

/-!
# Where the database does not follow the model

There are two advances that leave the database behind.

- A diff that the model ignores is visited all the same, with its nested diffs: the records of
  the blocks that it would have removed are gone, and the model still has the blocks. If they have
  left the model since the diff was made, as they do with their folder, the database actor does not
  survive (`consistent_iff_of_ignored`).
- A `remote_win_t` puts two new files into the place of one. Nobody removes the record of that
  one, whose key has its uuid; it is overwritten only if the unassigned uuid of the copy happens
  to be the same (`consistent_iff_of_remoteWin`). After a restart there are two records of one
  name.
-/

namespace SyncSpirit

namespace Database

open Fallible Store Availability AdvanceRun Advance WriteLog

/-- Two contents of one table are the same. -/
theorem mirrors_iff_of_mirrors {table : Table} {K K' : Key → Option Value} (h : Mirrors Key.bytes table K) :
    Mirrors Key.bytes table K' ↔ ∀ k, K' k = K k :=
  ⟨fun h' k => (h'.value k).symm.trans (h.value k), fun heq => ⟨fun k => (h.value k).trans (heq k).symm, h.coded⟩⟩

/-! ## Ignored diffs -/

section Ignored

variable {threshold : Nat} {host : Host} {st : State} {d : Advance.Diff} {suspended : Bool}

/-- The content without some blocks. -/
def withoutBlocks (removed : List Bytes) (K : Key → Option Value) (k : Key) : Option Value :=
  if k ∈ removed.map Key.block then none else K k

theorem withoutBlocks_of_not_mem {removed : List Bytes} {K : Key → Option Value} {k : Key}
    (h : k ∉ removed.map Key.block) : withoutBlocks removed K k = K k := if_neg h

theorem withoutBlocks_block {removed : List Bytes} {K : Key → Option Value} {x : Bytes} (h : x ∈ removed) :
    withoutBlocks removed K (.block x) = none := if_pos (List.mem_map_of_mem h)

/-- What is not a block is as before. -/
theorem withoutBlocks_eq {removed : List Bytes} {K : Key → Option Value} {k : Key} (h : ∀ x, k ≠ .block x) :
    withoutBlocks removed K k = K k := by
  refine withoutBlocks_of_not_mem fun hmem => ?_
  obtain ⟨x, -, rfl⟩ := List.mem_map.mp hmem
  exact h x rfl

variable (threshold host suspended) in
/-- **The visit** of an ignored diff: the orphaned blocks are gone, and the new ones are known already. -/
theorem mirrors_of_ignored (h : Consistent st) (hadded : ∀ b ∈ d.added, st.cluster.HasBlock b.hash)
    (hkept : ∀ b ∈ d.added, b.hash ∉ d.removed) (hnodup : d.removed.Nodup)
    (hthere : ∀ x ∈ d.removed, st.cluster.HasBlock x) :
    ∃ db, visit threshold st.cluster (visitAdvance threshold host st.cluster suspended d some) st.db = some db ∧
      db.txn = none ∧ Mirrors Key.bytes db.committed (withoutBlocks d.removed (content st.cluster)) := by
  have hsaved : ∀ k ∈ savedKeys host st.cluster suspended d,
      withoutBlocks d.removed (content st.cluster) k = content st.cluster k := by
    intro k hk
    refine withoutBlocks_eq ?_
    rintro x rfl
    obtain ⟨r, -, hkey⟩ := mem_savedKeys.mp hk
    cases hkey
  have hold : ∀ b ∈ d.added,
      withoutBlocks d.removed (content st.cluster) (.block b.hash) = content st.cluster (.block b.hash) := by
    intro b hb
    refine withoutBlocks_of_not_mem fun hmem => ?_
    obtain ⟨x, hx, hkey⟩ := List.mem_map.mp hmem
    cases hkey
    exact hkept b hb hx
  have href := refreshes_advance host d suspended threshold h.regular refreshes_some hsaved
    (fun b hb => ⟨hadded b hb, hold b hb⟩) (fun x hx => withoutBlocks_block hx)
  rw [List.append_nil, List.nil_append] at href
  -- what is saved is in the content
  have hsome : ∀ k ∈ savedKeys host st.cluster suspended d ++ d.added.map fun b => .block b.hash,
      (withoutBlocks d.removed (content st.cluster) k).isSome = true := by
    intro k hk
    rcases List.mem_append.mp hk with hk | hk
    · rw [hsaved k hk]
      exact content_of_savedKeys h.regular hk
    · obtain ⟨b, hb, rfl⟩ := List.mem_map.mp hk
      rw [hold b hb, content_block, Option.isSome_map]
      exact hadded b hb
  rw [← List.append_assoc] at href
  refine mirrors_of_visit (c := st.cluster) h.current href (fun _ _ => forced_of_advance) (fun p hp => ?_)
    (fun k hk _ => ?_) ?_ (fun k hk hnone => ?_)
  · exact (withoutBlocks_eq fun x hkey => by cases hkey).trans (content_info h.regular (mem_shares_of_savedMarks hp))
  · rw [List.mem_append, not_or] at hk
    exact withoutBlocks_of_not_mem hk.2
  · rw [List.filter_append, List.filter_eq_nil_iff.mpr fun k hk => ?_, List.nil_append]
    · exact (hnodup.map fun x y heq => Key.block.inj heq).filter _
    · simpa using Option.isSome_iff_ne_none.mp (hsome k hk)
  · rcases List.mem_append.mp hk with hk | hk
    · have hk := hsome k hk
      rw [hnone] at hk
      cases hk
    · obtain ⟨x, hx, rfl⟩ := List.mem_map.mp hk
      rw [content_block, Option.isSome_map]
      exact hthere x hx

/-- What the visit has met. -/
theorem found_of_visit {c : Cluster} {db db' : Db} (hknown : BlocksKnown c db)
    (h : visit threshold c (visitAdvance threshold host c suspended d some) db = some db') :
    (∀ b ∈ d.added, c.HasBlock b.hash) ∧ ∀ x ∈ d.removed, c.HasBlock x := by
  obtain ⟨v, hv, -⟩ := Option.bind_eq_some_iff.mp h
  obtain ⟨w, hsaved, hv⟩ := Option.bind_eq_some_iff.mp hv
  obtain ⟨_, hnested, -⟩ := Option.bind_eq_some_iff.mp hv
  refine ⟨found_of_nested hnested, removed_of_nested ?_ hnested⟩
  -- the file, if there is one, comes before the blocks
  rw [saveAdvanced_eq] at hsaved
  cases hfile : savedFile host c suspended d with
  | none =>
    rw [hfile] at hsaved
    cases hsaved
    exact hknown
  | some r =>
    rw [hfile] at hsaved
    obtain ⟨_, hfile, hsaved⟩ := Option.bind_eq_some_iff.mp hsaved
    cases hsaved
    exact hknown.getTxn.saveFile hfile

theorem step_of_ignored (hignored : d.isIgnored st.cluster suspended = true) :
    step threshold host st (.advance (.single d) suspended) =
      (visit threshold st.cluster (visitAdvance threshold host st.cluster suspended d some) st.db).map fun db =>
        ⟨st.cluster, db⟩ := by
  have happly : Change.apply host st.cluster (.advance (.single d) suspended) = some st.cluster.toStore := by
    show Diff.apply host st.cluster suspended d = _
    unfold Diff.apply
    rw [if_pos hignored]
  unfold step
  rw [happly, Option.bind_eq_bind, Option.bind_some, Option.map_eq_bind]
  rfl

/-- **A diff that is ignored** in a later state than that which it has been made for. The database
actor survives if the new blocks have become known since and the orphaned ones are known still; then
the model stays as it is, and the database loses the orphaned blocks. -/
theorem consistent_iff_of_ignored (h : Consistent st) {env : Env} {before : Cluster} (hbefore : Regular before)
    (hmade : Made host env before d) (hthere : ∀ x ∈ d.removed, before.HasBlock x)
    (hignored : d.isIgnored st.cluster suspended = true) :
    ((step threshold host st (.advance (.single d) suspended)).isSome = true ↔
      (∀ b ∈ d.added, st.cluster.HasBlock b.hash) ∧ ∀ x ∈ d.removed, st.cluster.HasBlock x) ∧
      ∀ st', step threshold host st (.advance (.single d) suspended) = some st' →
        st'.cluster = st.cluster ∧ Mirrors Key.bytes st'.db.committed (withoutBlocks d.removed (content st.cluster)) ∧
          (Consistent st' ↔ d.removed = []) := by
  obtain ⟨hnodup, hunknown, -⟩ := initialized_of_made hbefore hmade
  have hkept : ∀ b ∈ d.added, b.hash ∉ d.removed := by
    intro b hb hmem
    have hblock : (before.byHash b.hash).isSome = true := hthere b.hash hmem
    rw [hunknown b hb] at hblock
    cases hblock
  rw [step_of_ignored hignored, Option.isSome_map]
  have hfound := fun db => @found_of_visit threshold host d suspended _ _ db (BlocksKnown.of_mirrors h.current)
  refine ⟨⟨fun hsome => ?_, fun hblocks => ?_⟩, fun st' hst => ?_⟩
  · obtain ⟨db, hdb⟩ := Option.isSome_iff_exists.mp hsome
    exact hfound db hdb
  · obtain ⟨db, hdb, -⟩ := mirrors_of_ignored threshold host suspended h hblocks.1 hkept hnodup hblocks.2
    rw [hdb]
    rfl
  · obtain ⟨db, hdb, rfl⟩ := Option.map_eq_some_iff.mp hst
    obtain ⟨hadded, hremoved⟩ := hfound db hdb
    obtain ⟨db', hdb', htxn, hmirrors⟩ := mirrors_of_ignored threshold host suspended h hadded hkept hnodup hremoved
    rw [hdb] at hdb'
    cases hdb'
    refine ⟨rfl, hmirrors, fun hconsistent => ?_, fun hnil => ?_⟩
    · -- the model still has a block that has been removed
      by_contra hne
      obtain ⟨x, hx⟩ := List.exists_mem_of_ne_nil _ hne
      have hsame := (mirrors_iff_of_mirrors hmirrors).mp hconsistent.mirrors (.block x)
      rw [withoutBlocks_block hx, content_block, Option.map_eq_none_iff] at hsame
      have hblock : (st.cluster.byHash x).isSome = true := hremoved x hx
      rw [hsame] at hblock
      cases hblock
    · refine ⟨h.regular, htxn, (mirrors_iff_of_mirrors hmirrors).mpr fun k => ?_⟩
      rw [hnil]
      exact (withoutBlocks_of_not_mem (by simp)).symm

end Ignored

/-- The device and the peer have two files of one name. -/
def meeting : List Change :=
  (record conflictHost conflictCluster [scanned 10 7 "a", received [announceFull "a" 1 9]]).get (by decide +kernel)

/-- Another file is found after that. -/
def afterMeeting : List Change :=
  (record conflictHost conflictCluster [scanned 10 7 "a", received [announceFull "a" 1 9],
    scanned 50 11 "b"]).get (by decide +kernel)

theorem consistent_of_exec {es : List Change} {c : Cluster}
    (hsane : Run.Meets (Change.next conflictHost) (Sane conflictHost) conflictCluster es)
    (hc : c ∈ Run.exec (Change.next conflictHost) conflictCluster es) : ∃ db, Consistent ⟨c, db⟩ := by
  obtain ⟨db, hdb⟩ := conflictCluster_consistent
  obtain ⟨db', -, hdb'⟩ := hdb.run 1 hsane hc
  exact ⟨db', hdb'⟩

theorem meeting_consistent {c : Cluster} (hc : c ∈ Run.exec (Change.next conflictHost) conflictCluster meeting) :
    ∃ db, Consistent ⟨c, db⟩ := consistent_of_exec (by decide +kernel) hc

/-- The folder is gone. -/
def deserted : Cluster := { conflictCluster with folders := [] }

theorem deserted_consistent : ∃ db, Consistent ⟨deserted, db⟩ :=
  exists_consistent conflictCluster_files (regular_initial conflictCluster_files (by decide +kernel))

/-- The file of the peer is taken. -/
def taken (c : Cluster) : Option Advance.Diff := do
  let source ← c.byName 1 "a"
  let .single d ← Advance.create conflictHost (nilEnv 30) c .remoteCopy source 1 | none
  return d

theorem made_of_taken {c : Cluster} {d : Advance.Diff} (h : d ∈ taken c) : Made conflictHost (nilEnv 30) c d := by
  obtain ⟨source, -, h⟩ := Option.bind_eq_some_iff.mp h
  obtain ⟨tree, htree, h⟩ := Option.bind_eq_some_iff.mp h
  cases tree with
  | single d' =>
    cases h
    exact .inr ⟨source, 1, htree⟩
  | remoteWin rename copy => cases h

/-- Another file has been found since, and the folder has been suspended: the model keeps the block,
and the database does not. If the folder is gone by then, there is no such block any more, and the
database actor does not survive. -/
theorem meeting_ignored : ∃ c d, d ∈ taken c ∧
    (∃ c' db db', Consistent ⟨c', db⟩ ∧ c'.byName 0 "b" ≠ c.byName 0 "b" ∧
      step 1 conflictHost ⟨c', db⟩ (.advance (.single d) true) = some ⟨c', db'⟩ ∧ ¬Consistent ⟨c', db'⟩ ∧
      content c' (.block (List.replicate digestLength 7)) = some (.block 5) ∧
      db'.committed[(Key.block (List.replicate digestLength 7)).bytes]? = none) ∧
    ∃ db, Consistent ⟨deserted, db⟩ ∧ step 1 conflictHost ⟨deserted, db⟩ (.advance (.single d) false) = none := by
  obtain ⟨c, hc, d, hd, hthere, hadded, hremoved, hgone, c', hc', hname, hignored, hblock⟩ :
      ∃ c ∈ Run.exec (Change.next conflictHost) conflictCluster meeting, ∃ d ∈ taken c,
        (∀ x ∈ d.removed, (c.byHash x).isSome = true) ∧ d.added = [] ∧ d.removed = [List.replicate digestLength 7] ∧
        d.isIgnored deserted false = true ∧
        ∃ c' ∈ Run.exec (Change.next conflictHost) conflictCluster afterMeeting, c'.byName 0 "b" ≠ c.byName 0 "b" ∧
        d.isIgnored c' true = true ∧ content c' (.block (List.replicate digestLength 7)) = some (.block 5) := by
    decide +kernel
  obtain ⟨_, hbefore⟩ := meeting_consistent hc
  have hmade := made_of_taken hd
  refine ⟨c, d, hd, ?_, ?_⟩
  · obtain ⟨db, hdb⟩ := consistent_of_exec (by decide +kernel) hc'
    obtain ⟨hiff, hall⟩ :=
      @consistent_iff_of_ignored 1 conflictHost _ _ _ hdb _ _ hbefore.regular hmade hthere hignored
    have hfound : ∀ x ∈ d.removed, c'.HasBlock x := by
      intro x hx
      rw [hremoved, List.mem_singleton] at hx
      have hsome : (content c' (.block (List.replicate digestLength 7))).isSome = true := by rw [hblock]; rfl
      rw [content_block, Option.isSome_map, ← hx] at hsome
      exact hsome
    obtain ⟨⟨_, db'⟩, hst⟩ := Option.isSome_iff_exists.mp (hiff.mpr ⟨by simp [hadded], hfound⟩)
    obtain ⟨rfl, hmirrors, hconsistent⟩ := hall _ hst
    refine ⟨_, db, db', hdb, hname, hst, fun h => ?_, hblock, ?_⟩
    · rw [hconsistent.mp h] at hremoved
      cases hremoved
    · rw [hmirrors.value, hremoved]
      rfl
  · obtain ⟨db, hdb⟩ := deserted_consistent
    obtain ⟨hiff, -⟩ := @consistent_iff_of_ignored 1 conflictHost _ _ _ hdb _ _ hbefore.regular hmade hthere hgone
    refine ⟨db, hdb, Option.not_isSome_iff_eq_none.mp fun hsome => ?_⟩
    have hblock : (deserted.byHash (List.replicate digestLength 7)).isSome = true :=
      (hiff.mp hsome).2 _ (by rw [hremoved]; exact List.mem_singleton_self _)
    cases hblock

/-! ## A file that is taken out of its map -/

section Removed

variable {c : Cluster} {p : Share} {f : FileId}

theorem mem_files_remove (hc : Regular c) (hf : f ∈ (c.infos p.2).files) {fi : FolderInfoId} {g : FileId} :
    g ∈ ((c.remove p.2 f).infos fi).files ↔ g ∈ (c.infos fi).files ∧ (fi = p.2 → g ≠ f) := by
  by_cases hfi : fi = p.2
  · subst hfi
    rw [files_remove (hc.infos p.2) hf]
    simp
  · have hsame : (c.remove p.2 f).infos fi = c.infos fi := by
      rw [files_remove (hc.infos p.2) hf]
      exact Function.update_of_ne hfi _ _
    rw [hsame]
    exact ⟨fun hg => ⟨hg, fun heq => absurd heq hfi⟩, fun hg => hg.1⟩

theorem infos_remove (hc : Regular c) (hf : f ∈ (c.infos p.2).files) (fi : FolderInfoId) :
    ((c.remove p.2 f).infos fi).uuid = (c.infos fi).uuid ∧
      infoValue ((c.remove p.2 f).infos fi) = infoValue (c.infos fi) ∧
      ((c.remove p.2 f).infos fi).device = (c.infos fi).device := by
  rw [files_remove (hc.infos p.2) hf]
  by_cases hfi : fi = p.2
  · subst hfi
    simp [infoValue]
  · simp [hfi]

/-- **The model stays in order**. -/
theorem Regular.remove (hc : Regular c) (hf : f ∈ (c.infos p.2).files) :
    Regular { c with toStore := c.remove p.2 f } := by
  have hmem := fun fi g => @mem_files_remove c p f hc hf fi g
  have huuid := fun fi => (infos_remove hc hf fi).1
  obtain ⟨hseparate, helse⟩ := hc.separate.remove p.2 f
  have hsafe : Safe p.2 [] c.toStore := ⟨hc.infos p.2, by simp⟩
  have hby : c.byName p.2 (c.files f).name = some f := (byName_eq_some (hc.infos p.2)).mpr ⟨hf, rfl⟩
  refine ⟨hc.sound.remove p.2 f, fun fi => ?_, hseparate, fun q hq g hg => ?_, fun q hq q' hq' heq => ?_,
    fun q hq g hg => ?_, hc.digests⟩
  · by_cases hfi : fi = p.2
    · rw [hfi]
      exact (hsafe.remove hby).1.infoWF
    · exact (hc.infos fi).of_eq (helse.infos fi hfi) helse.nextFile (helse.files fi hfi)
  · exact (hc.homed q hq g ((hmem q.2 g).mp hg).1).trans (huuid q.2).symm
  · exact hc.uuids q hq q' hq' (((huuid q.2).symm.trans heq).trans (huuid q'.2))
  · exact hc.written q hq g ((hmem q.2 g).mp hg).1

/-- Only its record is gone. -/
theorem content_remove (hc : Regular c) (hf : f ∈ (c.infos p.2).files) {k : Key}
    (hk : k ≠ fileKey (c.files f)) : content { c with toStore := c.remove p.2 f } k = content c k := by
  cases k with
  | block x => rfl
  | file folder uuid =>
    refine Option.ext fun v => ?_
    rw [content_file hc, content_file (hc.remove hf)]
    refine exists_congr fun g => and_congr_left fun _ => ?_
    refine exists_congr fun q => and_congr_right fun hq => ?_
    show g ∈ ((c.remove p.2 f).infos q.2).files ∧ fileKey (c.files g) = _ ↔ _
    rw [mem_files_remove hc hf]
    refine ⟨fun h => ⟨h.1.1, h.2⟩, fun h => ⟨⟨h.1, ?_⟩, h.2⟩⟩
    rintro - rfl
    exact hk h.2.symm
  | folderInfo device folder uuid =>
    have hkey : ∀ q, infoKey { c with toStore := c.remove p.2 f } q = infoKey c q := by
      intro q
      obtain ⟨huuid, -, hdevice⟩ := infos_remove hc hf q.2
      show Key.folderInfo ((c.remove p.2 f).infos q.2).device q.1.uuid ((c.remove p.2 f).infos q.2).uuid = _
      rw [huuid, hdevice]
      rfl
    show ((shares c).find? fun q => infoKey { c with toStore := c.remove p.2 f } q = _).map
      (fun q => infoValue ((c.remove p.2 f).infos q.2)) = _
    simp only [hkey, (infos_remove hc hf _).2.1]
    rfl

theorem content_removed (hc : Regular c) (hp : p ∈ shares c) (hf : f ∈ (c.infos p.2).files) :
    content { c with toStore := c.remove p.2 f } (fileKey (c.files f)) = none := by
  refine Option.eq_none_iff_forall_ne_some.mpr fun v hv => ?_
  obtain ⟨g, ⟨q, hq, hg, hkey⟩, -⟩ := (content_file (hc.remove hf)).mp hv
  obtain ⟨hold, hne⟩ := (mem_files_remove hc hf).mp hg
  obtain ⟨hfolder, huuid⟩ := Key.file.inj hkey
  have hinfo : (c.infos q.2).uuid = (c.infos p.2).uuid := by
    rw [← hc.homed q hq g hold, ← hc.homed p hp f hf]
    exact hfolder
  have heq := hc.uuids q hq p hp hinfo
  rw [heq] at hold hne
  exact ((hc.infos p.2).keys g hold f hf (hne rfl)).1 huuid

end Removed

/-! ## A conflict that the peer wins -/

/-- What is known of a `remote_win_t`; `prev` is the local file. -/
structure Conflict (host : Host) (c : Cluster) (p : Share) (prev : FileId) (rename copy : Advance.Diff) : Prop where
  share : shareOf c rename.folderId host.self = some p
  paired : Paired rename copy
  taken : rename.isIgnored c false ≠ true
  known : c.byName p.2 rename.protoSource.name = some prev
  apart : rename.protoLocal.name ≠ rename.protoSource.name
  added : rename.added = [] ∧ copy.added = []
  removed : rename.removed.Nodup ∧ copy.removed = []
  needed : (UpdateFolder.strictHashes (neededBlocks rename.protoLocal)).isSome = true ∧
    (UpdateFolder.strictHashes (neededBlocks copy.protoLocal)).isSome = true
  plain : (asFlags rename.protoLocal.type ≠ .file → neededBlocks rename.protoLocal = []) ∧
    (asFlags copy.protoLocal.type ≠ .file → neededBlocks copy.protoLocal = [])
  fresh : c.byName p.2 rename.protoLocal.name = none →
    rename.uuid ≠ copy.uuid ∧ ∀ g ∈ (c.infos p.2).files, (c.files g).uuid ≠ rename.uuid
  careful : ∀ g ∈ (c.infos p.2).files, (c.files g).uuid = copy.uuid → g = prev

section Conflict

variable {threshold : Nat} {host : Host} {c : Cluster} {p : Share} {prev : FileId}
  {rename copy : Advance.Diff} {s t : Store} {st : State}

/-- A directory or a link has no blocks. -/
theorem neededBlocks_of_asProto {s : Store} {file : FileInfo} {r : Proto.FileInfo} (h : s.asProto file true = some r)
    (hfile : file.Coherent) (hne : asFlags r.type ≠ .file) : neededBlocks r = [] := by
  unfold asProto at h
  cases hcontent : file.content with
  | nonFile target =>
    rw [hcontent] at h
    cases h
    exact if_neg fun hsize => hsize rfl
  | file blocks =>
    rw [hcontent] at h
    obtain ⟨size, -, h⟩ := Option.bind_eq_some_iff.mp h
    obtain ⟨blockSize, -, h⟩ := Option.bind_eq_some_iff.mp h
    obtain ⟨bs, -, h⟩ := Option.bind_eq_some_iff.mp h
    cases h
    refine absurd ?_ hne
    show asFlags (asType file.type) = .file
    rw [asFlags_asType]
    exact isFile_iff.mp (hfile.mpr ⟨blocks, hcontent⟩)

/-- Only a local update may bring new blocks. -/
theorem added_nil_of_initializeAdvance {fi : FolderInfoId} {action : Action} {disable : Bool} {nextUuid unset : Uuid}
    {folderId : String} {peerId : Sha256} {source : Proto.FileInfo} {localName : String} {d : Advance.Diff}
    (h : initializeAdvance s fi action disable nextUuid unset folderId peerId source localName = some d)
    (haction : action ≠ .localUpdate) : d.added = [] := by
  unfold initializeAdvance at h
  dsimp only at h
  split at h
  · cases h
  · obtain ⟨hashes, -, h⟩ := Option.bind_eq_some_iff.mp h
    split at h
    · cases h
    · rename_i hassert
      cases h
      by_contra hne
      exact hassert ⟨hne, haction⟩

/-- **A conflict as it is created**. -/
theorem conflict_of_create (hc : Regular c) {env : Env} {source : FileId} {sourceFi : FolderInfoId}
    (hcreate : Advance.create host env c .resolveRemoteWin source sourceFi = some (.remoteWin rename copy))
    (hp : shareOf c rename.folderId host.self = some p) (hsource : sourceFi ∈ p.1.infos)
    (hprev : c.byName p.2 (c.files source).name = some prev)
    (hname : host.makeConflictingName (c.files prev) ∉ ["", (c.files prev).name])
    (hfresh : ∀ g ∈ (c.infos p.2).files, (c.files g).uuid ≠ env.nextUuid 0) (hunset : env.unset ≠ env.nextUuid 0)
    (hcareful : ∀ g ∈ (c.infos p.2).files, (c.files g).uuid = env.unset → g = prev) :
    Conflict host c p prev rename copy ∧ copy.uuid = env.unset := by
  obtain ⟨folder, -, hcreate⟩ := Option.bind_eq_some_iff.mp hcreate
  obtain ⟨protoFile, hproto, hcreate⟩ := Option.bind_eq_some_iff.mp hcreate
  obtain ⟨r, hrename, hcreate⟩ := Option.bind_eq_some_iff.mp hcreate
  obtain ⟨d, hcopy, hcreate⟩ := Option.bind_eq_some_iff.mp hcreate
  cases hcreate
  obtain ⟨hid, hpeerId, haction, hprotoSource, fi, -, hfi, -, huuid⟩ := renameLocal_key hrename
  obtain ⟨hid', hpeerId', haction', hname', huuid'⟩ := remoteCopy_key hcopy
  obtain ⟨hfolder, hself⟩ := shareOf_eq_some.mp hp
  have hlocal : localInfo host c folder.id = some p.2 := by
    rw [← hid]
    exact Option.bind_eq_some_iff.mpr ⟨p.1, hfolder, hself⟩
  have hpeer : (c.byDeviceId p.1 (c.infos sourceFi).device).isSome = true := by
    unfold Cluster.byDeviceId
    rw [List.find?_isSome]
    exact ⟨sourceFi, hsource, by simp⟩
  rw [← asProto_name hproto] at hprev
  have hprevName : (c.files prev).name = protoFile.name := ((byName_eq_some (hc.infos p.2)).mp hprev).2
  rw [hlocal] at hfi
  cases hfi
  obtain ⟨fi, hfi, hrename⟩ := Option.bind_eq_some_iff.mp hrename
  rw [hlocal] at hfi
  cases hfi
  obtain ⟨f, hf, hrename⟩ := Option.bind_eq_some_iff.mp hrename
  rw [hprev] at hf
  cases hf
  obtain ⟨localSource, hlocalSource, hrename⟩ := Option.bind_eq_some_iff.mp hrename
  obtain ⟨fi, hfi, hcopy⟩ := Option.bind_eq_some_iff.mp hcopy
  rw [hlocal] at hfi
  cases hfi
  have hnone := added_nil_of_initializeAdvance hrename (by decide)
  have hnone' := added_nil_of_initializeAdvance hcopy (by decide)
  have hmade := initialized_of_some hc hrename
  have hmade' := initialized_of_some hc hcopy
  obtain ⟨hashes, -, hd⟩ := initializeAdvance_eq_some hrename
  obtain ⟨hashes', -, hd'⟩ := initializeAdvance_eq_some hcopy
  have hcopyUuid : copy.uuid = env.unset := by
    rw [huuid' p.2 hlocal, hprev]
    rfl
  have hrenameUuid : c.byName p.2 rename.protoLocal.name = none → rename.uuid = env.nextUuid 0 := by
    intro hby
    rw [huuid, hby]
    rfl
  have hconflicting : rename.protoLocal.name = host.makeConflictingName (c.files prev) := by
    rw [hd]
    exact if_neg fun hnil => hname (by simp [hnil])
  have hplain : ∀ {r : Proto.FileInfo} {file : FileId}, c.asProto (c.files file) true = some r →
      asFlags r.type ≠ .file → neededBlocks r = [] := fun hr =>
    neededBlocks_of_asProto hr (hc.sound.coherent _)
  refine ⟨⟨hp, ⟨by rw [hid, hid'], by rw [hpeerId, hpeerId'], by rw [haction]; decide,
    by rw [haction']; decide, by rw [hname', hprotoSource]⟩, ?_, by rw [hprotoSource]; exact hprev, ?_,
    ⟨hnone, hnone'⟩, ⟨hmade.nodup, ?_⟩, ⟨hmade.needed, hmade'.needed⟩, ⟨?_, ?_⟩, fun hby => ?_, ?_⟩, hcopyUuid⟩
  · unfold Diff.isIgnored
    rw [hpeerId, hfolder]
    simp [Option.isSome_iff_ne_none.mp hpeer]
  · rw [hconflicting, hprotoSource, ← hprevName]
    exact fun heq => hname (by simp [heq])
  · -- nothing is removed for the copy
    rw [hd']
    show (orphansOf _ (c.byName p.2 protoFile.name) true).filter _ = []
    rw [hprev]
    rfl
  · have hempty := hplain hlocalSource
    rw [hd]
    exact hempty
  · have hempty := hplain hproto
    rw [hd']
    exact hempty
  · rw [hrenameUuid hby, hcopyUuid]
    exact ⟨hunset.symm, hfresh⟩
  · rw [hcopyUuid]
    exact hcareful

/-- The two halves, applied. -/
structure Won (c : Cluster) (p : Share) (prev : FileId) (rename copy : Advance.Diff) (s t : Store) (g₁ g₂ : FileId) :
    Prop where
  first : Settled { c with toStore := c.remove p.2 prev } p rename s g₁
  second : Settled { c with toStore := s } p copy t g₂
  renameUuid : (s.files g₁).uuid ≠ (c.files prev).uuid
  copyUuid : (t.files g₂).uuid = copy.uuid

theorem Conflict.mem_prev (h : Conflict host c p prev rename copy) (hc : Regular c) :
    prev ∈ (c.infos p.2).files ∧ (c.files prev).name = copy.protoLocal.name := by
  obtain ⟨hmem, hname⟩ := (byName_eq_some (hc.infos p.2)).mp h.known
  exact ⟨hmem, hname.trans h.paired.name.symm⟩

/-- **A conflict is applied**. -/
theorem Conflict.won (h : Conflict host c p prev rename copy) (hc : Regular c)
    (ht : Tree.apply host c false (.remoteWin rename copy) = some t) :
    ∃ s g₁ g₂, Won c p prev rename copy s t g₁ g₂ := by
  obtain ⟨hmem, hprevName⟩ := h.mem_prev hc
  have hwf := hc.infos p.2
  unfold Tree.apply at ht
  dsimp only at ht
  rw [if_neg h.taken] at ht
  obtain ⟨fi, hfi, ht⟩ := Option.bind_eq_some_iff.mp ht
  obtain ⟨hfolder, hself⟩ := shareOf_eq_some.mp h.share
  have hlocal : localInfo host c rename.folderId = some p.2 := Option.bind_eq_some_iff.mpr ⟨p.1, hfolder, hself⟩
  rw [hlocal] at hfi
  cases hfi
  obtain ⟨f, hf, ht⟩ := Option.bind_eq_some_iff.mp ht
  rw [h.known] at hf
  cases hf
  obtain ⟨s, hs, ht⟩ := Option.bind_eq_some_iff.mp ht
  have hremoved := hc.remove hmem
  have helse := (hc.separate.remove p.2 prev).2
  have hlisted : ∀ g, g ∈ ((c.remove p.2 prev).infos p.2).files ↔ g ∈ (c.infos p.2).files ∧ g ≠ prev := fun g => by
    rw [mem_files_remove hc hmem]
    exact and_congr_right fun _ => ⟨fun hne => hne rfl, fun hne _ => hne⟩
  -- the name of the renamed file is free if it has been before
  have hfree : (c.remove p.2 prev).byName p.2 rename.protoLocal.name = none →
      c.byName p.2 rename.protoLocal.name = none := by
    intro hnone
    refine byName_eq_none.mpr fun g hg hname => ?_
    refine byName_eq_none.mp hnone g ((hlisted g).mpr ⟨hg, ?_⟩) hname
    rintro rfl
    exact h.apart (hname.symm.trans (hprevName.trans h.paired.name))
  have hsane : AdvanceSane host { c with toStore := c.remove p.2 prev } false rename := by
    refine ⟨by simp [h.added.1], by simp [h.added.1], h.removed.1, h.needed.1, h.plain.1, fun fi' hfi' hnone g hg => ?_,
      fun hignored => ?_⟩
    · have hfi' : localInfo host { c with toStore := c.remove p.2 prev } rename.folderId = some fi' := hfi'
      rw [localInfo_congr helse.device_eq, hlocal] at hfi'
      cases hfi'
      exact (h.fresh (hfree hnone)).2 g ((hlisted g).mp hg).1
    · rw [isIgnored_congr helse.device_eq] at hignored
      exact absurd hignored h.taken
  obtain ⟨g₁, hfirst⟩ := settled_of_applyImpl hremoved hsane (by rw [shareOf_of_elsewhere helse]; exact h.share) hs
  have hdevice : ∀ fi, (s.infos fi).device = (c.infos fi).device := fun fi =>
    (hfirst.changed.elsewhere.device_eq fi).trans (helse.device_eq fi)
  have hcopyTaken : copy.isIgnored { c with toStore := s } false ≠ true := by
    rw [isIgnored_congr hdevice, h.paired.isIgnored]
    exact h.taken
  obtain ⟨-, q, hq, ht⟩ := shareOf_of_not_ignored ht hcopyTaken
  rw [h.paired.folderId, shareOf_of_elsewhere (hfirst.changed.elsewhere)] at hq
  rw [shareOf_of_elsewhere helse, h.share] at hq
  cases hq
  have hrenameUuid : (s.files g₁).uuid ≠ (c.files prev).uuid ∧ (s.files g₁).uuid ≠ copy.uuid := by
    rcases hfirst.uuid with ⟨f, hf, -, huuid⟩ | ⟨hnone, huuid⟩
    · have hf := (hlisted f).mp hf
      rw [show (s.files g₁).uuid = (c.files f).uuid from huuid]
      exact ⟨(hwf.keys f hf.1 prev hmem hf.2).1, fun heq => hf.2 (h.careful f hf.1 heq)⟩
    · obtain ⟨hne, hall⟩ := h.fresh (hfree hnone)
      rw [huuid]
      exact ⟨fun heq => hall prev hmem heq.symm, hne⟩
  have hnone : s.byName p.2 copy.protoLocal.name = none := by
    refine byName_eq_none.mpr fun g hg hname => ?_
    have hnot : (s.files g).name ∉ [rename.protoLocal.name] := by
      rw [hname, h.paired.name, List.mem_singleton]
      exact h.apart.symm
    obtain ⟨hgmem, hgfile⟩ := hfirst.changed.undisturbed.only g hg hnot
    obtain ⟨hgmem, hne⟩ := (hlisted g).mp hgmem
    rw [show s.files g = c.files g from hgfile] at hname
    exact (hwf.keys g hgmem prev hmem hne).2.1 (hname.trans hprevName.symm)
  have hsane' : AdvanceSane host { c with toStore := s } false copy := by
    refine ⟨by simp [h.added.2], by simp [h.added.2], by rw [h.removed.2]; exact List.nodup_nil, h.needed.2, h.plain.2,
      fun fi' hfi' _ g hg => ?_, fun hignored => absurd hignored hcopyTaken⟩
    have hfi' : localInfo host { c with toStore := s } copy.folderId = some fi' := hfi'
    rw [localInfo_congr hdevice, h.paired.folderId, hlocal] at hfi'
    cases hfi'
    by_cases hname : (s.files g).name = rename.protoLocal.name
    · have heq : g = g₁ := by
        by_contra hne
        exact ((hfirst.regular.infos p.2).keys g hg g₁ hfirst.listed hne).2.1 (hname.trans hfirst.name.symm)
      rw [heq]
      exact hrenameUuid.2
    · obtain ⟨hgmem, hgfile⟩ := hfirst.changed.undisturbed.only g hg (by rwa [List.mem_singleton])
      obtain ⟨hgmem, hne⟩ := (hlisted g).mp hgmem
      rw [show s.files g = c.files g from hgfile]
      exact fun heq => hne (h.careful g hgmem heq)
  obtain ⟨g₂, hsecond⟩ := settled_of_applyImpl hfirst.regular hsane' (by
    rw [shareOf_of_elsewhere hfirst.changed.elsewhere, shareOf_of_elsewhere helse, h.paired.folderId]
    exact h.share) ht
  refine ⟨s, g₁, g₂, hfirst, hsecond, hrenameUuid.1, ?_⟩
  rcases hsecond.uuid with ⟨f, hf, hname, -⟩ | ⟨-, huuid⟩
  · exact absurd hname (byName_eq_none.mp hnone f hf)
  · exact huuid

namespace Won

variable {g₁ g₂ : FileId}

/-- The renamed file is not concerned by the copy. -/
theorem renamed (h : Won c p prev rename copy s t g₁ g₂) (hconflict : Conflict host c p prev rename copy) :
    g₁ ∈ (t.infos p.2).files ∧ t.files g₁ = s.files g₁ := by
  refine h.second.changed.undisturbed.kept g₁ h.first.listed ?_
  show (s.files g₁).name ∉ [copy.protoLocal.name]
  rw [h.first.name, hconflict.paired.name, List.mem_singleton]
  exact hconflict.apart

theorem infos_uuid (h : Won c p prev rename copy s t g₁ g₂) (hc : Regular c) (hmem : prev ∈ (c.infos p.2).files) :
    (t.infos p.2).uuid = (c.infos p.2).uuid :=
  (h.second.changed.uuid.trans h.first.changed.uuid).trans (infos_remove hc hmem p.2).1

/-- The folder info keeps its key. -/
theorem infoKey_eq (h : Won c p prev rename copy s t g₁ g₂) (hc : Regular c) (hmem : prev ∈ (c.infos p.2).files) :
    infoKey { c with toStore := s } p = infoKey c p ∧ infoKey { c with toStore := t } p = infoKey c p := by
  have hfirst : infoKey { c with toStore := s } p = infoKey c p := by
    refine (h.first.changed.infoKey p).trans ?_
    obtain ⟨huuid, -, hdevice⟩ := infos_remove hc hmem p.2
    show Key.folderInfo ((c.remove p.2 prev).infos p.2).device p.1.uuid ((c.remove p.2 prev).infos p.2).uuid = _
    rw [huuid, hdevice]
    rfl
  exact ⟨hfirst, (h.second.changed.infoKey p).trans hfirst⟩

/-- The key of a new file is that of the old one if they have the same uuid. -/
theorem fileKey_eq_iff (h : Won c p prev rename copy s t g₁ g₂) (hc : Regular c) (hp : p ∈ shares c)
    (hmem : prev ∈ (c.infos p.2).files) {g : FileId} (hg : g ∈ (t.infos p.2).files) :
    fileKey (t.files g) = fileKey (c.files prev) ↔ (t.files g).uuid = (c.files prev).uuid := by
  have hfolder : (t.files g).folderUuid = (c.files prev).folderUuid := by
    rw [hc.homed p hp prev hmem, ← h.infos_uuid hc hmem]
    exact h.second.regular.homed p hp g hg
  unfold fileKey
  rw [Key.file.injEq, hfolder]
  exact and_iff_right rfl

/-- **Everything else** has its content from before, when the old file has been taken out. -/
theorem content_rest (h : Won c p prev rename copy s t g₁ g₂) (hconflict : Conflict host c p prev rename copy)
    (hc : Regular c) {k : Key} (h₁ : k ≠ fileKey (t.files g₁)) (h₂ : k ≠ fileKey (t.files g₂))
    (hblocks : ∀ x ∈ rename.removed, k ≠ .block x) (hinfo : k ≠ infoKey c p) :
    content { c with toStore := t } k = content { c with toStore := c.remove p.2 prev } k := by
  obtain ⟨hmem, -⟩ := hconflict.mem_prev hc
  obtain ⟨hkey, -⟩ := h.infoKey_eq hc hmem
  have honly : ∀ {u : Store} {g g' : FileId} {name : String}, u.InfoWF p.2 → g ∈ (u.infos p.2).files →
      (u.files g).name ∈ [name] → g' ∈ (u.infos p.2).files → (u.files g').name = name → g = g' := by
    intro u g g' name hwf hg hname hg' hname'
    by_contra hne
    exact (hwf.keys g hg g' hg' hne).2.1 ((List.mem_singleton.mp hname).trans hname'.symm)
  have hsecond : content { c with toStore := t } k = content { c with toStore := s } k := by
    refine h.second.changed.content_eq h.first.regular h.second.regular (fun g hg hname => ?_) ?_ ?_
    · rw [honly (h.second.regular.infos p.2) hg hname h.second.listed h.second.name]
      exact h₂.symm
    · rw [hconflict.added.2, hconflict.removed.2]
      simp
    · rw [hkey]
      exact hinfo
  refine hsecond.trans (h.first.changed.content_eq (hc.remove hmem) h.first.regular (fun g hg hname => ?_) ?_ ?_)
  · rw [honly (h.first.regular.infos p.2) hg hname h.first.listed h.first.name, ← (h.renamed hconflict).2]
    exact h₁.symm
  · rw [hconflict.added.1]
    simpa using hblocks
  · rw [← h.first.changed.infoKey, hkey]
    exact hinfo

/-- The record of the old file is not part of the content any more. -/
theorem content_old (h : Won c p prev rename copy s t g₁ g₂) (hconflict : Conflict host c p prev rename copy)
    (hc : Regular c) (hne : (c.files prev).uuid ≠ copy.uuid) :
    content { c with toStore := t } (fileKey (c.files prev)) = none := by
  obtain ⟨hmem, -⟩ := hconflict.mem_prev hc
  have hp := mem_shares_of_shareOf hconflict.share
  obtain ⟨hmem₁, hfile₁⟩ := h.renamed hconflict
  rw [h.content_rest hconflict hc, content_removed hc hp hmem]
  · rw [ne_comm, Ne, h.fileKey_eq_iff hc hp hmem hmem₁, hfile₁]
    exact h.renameUuid
  · rw [ne_comm, Ne, h.fileKey_eq_iff hc hp hmem h.second.listed, h.copyUuid]
    exact hne.symm
  · exact fun x _ hk => by cases hk
  · exact fun hk => by cases hk

end Won

/-! ## What a conflict leaves behind -/

/-- The content with what has been under a key, unless it is the key of a new file. -/
def withOld (old new : Key) (before K : Key → Option Value) (k : Key) : Option Value :=
  if k = old ∧ k ≠ new then before k else K k

theorem withOld_of_ne {old new k : Key} {before K : Key → Option Value} (h : k ≠ old) :
    withOld old new before K k = K k :=
  if_neg fun hk => h hk.1

/-- What is in the database after the conflict. -/
def leftover (c : Cluster) (t : Store) (prev g : FileId) : Key → Option Value :=
  withOld (fileKey (c.files prev)) (fileKey (t.files g)) (content c) (content { c with toStore := t })

namespace Won

variable {g₁ g₂ : FileId}

/-- The two new files are written as they are now. -/
theorem leftover_fileKey (h : Won c p prev rename copy s t g₁ g₂) (hconflict : Conflict host c p prev rename copy)
    (hc : Regular c) : ∀ g ∈ [g₁, g₂],
      leftover c t prev g₂ (fileKey (t.files g)) = content { c with toStore := t } (fileKey (t.files g)) ∧
      (leftover c t prev g₂ (fileKey (t.files g))).isSome = true := by
  obtain ⟨hmem, -⟩ := hconflict.mem_prev hc
  have hp := mem_shares_of_shareOf hconflict.share
  obtain ⟨hmem₁, hfile₁⟩ := h.renamed hconflict
  intro g hg
  have hlisted : g ∈ (t.infos p.2).files ∧
      ¬(fileKey (t.files g) = fileKey (c.files prev) ∧ fileKey (t.files g) ≠ fileKey (t.files g₂)) := by
    rcases List.mem_cons.mp hg with rfl | hg
    · refine ⟨hmem₁, fun hold => h.renameUuid ?_⟩
      rw [← hfile₁]
      exact (h.fileKey_eq_iff hc hp hmem hmem₁).mp hold.1
    · rw [List.mem_singleton.mp hg]
      exact ⟨h.second.listed, fun hold => hold.2 rfl⟩
  obtain ⟨r, -, hr⟩ := content_fileKey h.second.regular hp hlisted.1
  have hleft : leftover c t prev g₂ (fileKey (t.files g)) = content { c with toStore := t } (fileKey (t.files g)) :=
    if_neg hlisted.2
  exact ⟨hleft, by rw [hleft]; exact Option.isSome_iff_exists.mpr ⟨_, hr⟩⟩

/-- The record of the old file is there, or it has been overwritten. -/
theorem leftover_old (h : Won c p prev rename copy s t g₁ g₂) (hconflict : Conflict host c p prev rename copy)
    (hc : Regular c) : (leftover c t prev g₂ (fileKey (c.files prev))).isSome = true := by
  obtain ⟨hmem, -⟩ := hconflict.mem_prev hc
  by_cases heq : fileKey (c.files prev) = fileKey (t.files g₂)
  · rw [heq]
    exact (h.leftover_fileKey hconflict hc g₂ (by simp)).2
  · obtain ⟨r, -, hr⟩ := content_fileKey hc (mem_shares_of_shareOf hconflict.share) hmem
    have hleft : leftover c t prev g₂ (fileKey (c.files prev)) = content c (fileKey (c.files prev)) := if_pos ⟨rfl, heq⟩
    rw [hleft, hr]
    rfl

/-- The orphaned blocks are gone. -/
theorem leftover_removed (h : Won c p prev rename copy s t g₁ g₂) (hconflict : Conflict host c p prev rename copy) :
    ∀ x ∈ rename.removed, leftover c t prev g₂ (.block x) = none ∧ c.HasBlock x := by
  intro x hx
  have hnone : s.byHash x = none := by
    by_contra hne
    exact ((h.first.hasBlock x).mp (Option.isSome_iff_ne_none.mpr hne)).2 hx
  have hrest := h.second.changed.byHash x (by simp [hconflict.added.2, hconflict.removed.2])
  refine ⟨(withOld_of_ne fun hk => by cases hk).trans ?_,
    (h.first.erased x hx).resolve_right (by simp [hconflict.added.1])⟩
  show (t.byHash x).map _ = none
  rw [hrest.trans hnone]
  rfl

/-- **The rest** has not changed. -/
theorem leftover_rest (h : Won c p prev rename copy s t g₁ g₂) (hconflict : Conflict host c p prev rename copy)
    (hc : Regular c) {k : Key} (h₁ : k ≠ fileKey (t.files g₁)) (h₂ : k ≠ fileKey (t.files g₂))
    (hblocks : ∀ x ∈ rename.removed, k ≠ .block x) (hinfo : k ≠ infoKey c p) :
    leftover c t prev g₂ k = content c k := by
  by_cases hold : k = fileKey (c.files prev)
  · exact if_pos ⟨hold, h₂⟩
  · rw [leftover, withOld_of_ne hold, h.content_rest hconflict hc h₁ h₂ hblocks hinfo,
      content_remove hc (hconflict.mem_prev hc).1 hold]

/-- It is the content if the copy has the key of the old file. -/
theorem leftover_eq (h : Won c p prev rename copy s t g₁ g₂) (hconflict : Conflict host c p prev rename copy)
    (hc : Regular c) (heq : (c.files prev).uuid = copy.uuid) (k : Key) :
    leftover c t prev g₂ k = content { c with toStore := t } k := by
  have hnew : fileKey (t.files g₂) = fileKey (c.files prev) :=
    (h.fileKey_eq_iff hc (mem_shares_of_shareOf hconflict.share) (hconflict.mem_prev hc).1 h.second.listed).mpr
      (h.copyUuid.trans heq.symm)
  exact if_neg fun hk => hk.2 (hk.1.trans hnew.symm)

/-- **The visit of a conflict**: the two new files are saved, and nothing is removed but blocks. -/
theorem refreshes (h : Won c p prev rename copy s t g₁ g₂)
    (hconflict : Conflict host c p prev rename copy) (hc : Regular c) {K : Key → Option Value}
    (hK : ∀ g ∈ [g₁, g₂], K (fileKey (t.files g)) = content { c with toStore := t } (fileKey (t.files g)))
    (hgone : ∀ x ∈ rename.removed, K (.block x) = none) :
    Refreshes K (Change.handle threshold host { c with toStore := t } (.advance (.remoteWin rename copy) false))
      (fileKey (t.files g₁) :: (rename.removed.map .block ++ [fileKey (t.files g₂)])) [p, p] := by
  have hshare : ∀ d : Advance.Diff, d.folderId = rename.folderId →
      shareOf { c with toStore := t } d.folderId host.self = some p := by
    intro d hd
    rw [shareOf_of_elsewhere (h.second.changed.elsewhere), shareOf_of_elsewhere (h.first.changed.elsewhere), hd,
      shareOf_of_elsewhere (hc.separate.remove p.2 prev).2]
    exact hconflict.share
  obtain ⟨hmem, hfile⟩ := h.renamed hconflict
  have hsaved : savedFile host { c with toStore := t } false rename = some (p, g₁) := by
    refine savedFile_eq_some.mpr ⟨rfl, hshare rename rfl, (byName_eq_some (h.second.regular.infos p.2)).mpr ⟨hmem, ?_⟩⟩
    show (t.files g₁).name = _
    rw [hfile]
    exact h.first.name
  have hsaved' : savedFile host { c with toStore := t } false copy = some (p, g₂) :=
    savedFile_eq_some.mpr ⟨rfl, hshare copy hconflict.paired.folderId,
      (byName_eq_some (h.second.regular.infos p.2)).mpr ⟨h.second.listed, h.second.name⟩⟩
  have hcopy := refreshes_advance host copy false threshold (K := K)
    h.second.regular refreshes_some (fun k hk => by
      obtain ⟨r, hr, rfl⟩ := mem_savedKeys.mp hk
      rw [hsaved'] at hr
      cases hr
      exact hK g₂ (by simp)) (by simp [hconflict.added.2]) (by simp [hconflict.removed.2])
  have hrename := refreshes_advance host rename false threshold (K := K)
    h.second.regular hcopy (fun k hk => by
      obtain ⟨r, hr, rfl⟩ := mem_savedKeys.mp hk
      rw [hsaved] at hr
      cases hr
      exact hK g₁ (by simp)) (by simp [hconflict.added.1]) hgone
  unfold savedKeys savedMarks at hrename
  rw [hsaved, hsaved', hconflict.added.1, hconflict.added.2, hconflict.removed.2] at hrename
  simpa [Change.handle] using hrename

variable (threshold) in
/-- **The visit**: the database has the leftover. -/
theorem mirrors (h : Won c p prev rename copy s t g₁ g₂) (hconflict : Conflict host c p prev rename copy)
    (hc : Regular c) {db : Db} (hmirrors : Mirrors Key.bytes db.current (content c)) :
    ∃ db', visit threshold { c with toStore := t }
      (Change.handle threshold host { c with toStore := t } (.advance (.remoteWin rename copy) false)) db = some db' ∧
      db'.txn = none ∧ Mirrors Key.bytes db'.committed (leftover c t prev g₂) := by
  have hkeys := h.leftover_fileKey hconflict hc
  have hsome : ∀ k ∈ [fileKey (t.files g₁), fileKey (t.files g₂)], (leftover c t prev g₂ k).isSome = true := by
    intro k hk
    rcases List.mem_cons.mp hk with rfl | hk
    · exact (hkeys g₁ (by simp)).2
    · rw [List.mem_singleton.mp hk]
      exact (hkeys g₂ (by simp)).2
  have hthere : ∀ {k}, leftover c t prev g₂ k = none → k ∉ [fileKey (t.files g₁), fileKey (t.files g₂)] := by
    intro k hnone hk
    have hk := hsome k hk
    rw [hnone] at hk
    cases hk
  refine mirrors_of_visit (c := { c with toStore := t }) hmirrors
    (h.refreshes hconflict hc (fun g hg => (hkeys g hg).1) fun x hx => (h.leftover_removed hconflict x hx).1)
    (fun _ _ => forced_of_advance) (fun q hq => ?_) (fun k hk hmarks => ?_) ?_ fun k hk hnone => ?_
  · have hq : q = p := by simpa using hq
    rw [hq]
    have hp : p ∈ shares { c with toStore := t } := mem_shares_of_shareOf (c := c) hconflict.share
    exact (withOld_of_ne fun hk => by cases hk).trans (content_info h.second.regular hp)
  · rw [List.mem_cons, List.mem_append, List.mem_singleton, not_or, not_or] at hk
    refine h.leftover_rest hconflict hc hk.1 hk.2.2 ?_ ?_
    · rintro x hx rfl
      exact hk.2.1 (List.mem_map_of_mem hx)
    · rintro rfl
      exact hmarks (by simp [(h.infoKey_eq hc (hconflict.mem_prev hc).1).2])
  · have hfilter : ∀ g ∈ [g₁, g₂], (leftover c t prev g₂ (fileKey (t.files g))).isNone = false := fun g hg => by
      rw [← Option.not_isSome, (hkeys g hg).2, Bool.not_true]
    rw [List.filter_cons, hfilter g₁ (by simp), if_neg Bool.false_ne_true, List.filter_append, List.filter_singleton,
      hfilter g₂ (by simp), Bool.cond_false, List.append_nil]
    exact (hconflict.removed.1.map fun x y heq => Key.block.inj heq).filter _
  · have hnot := hthere hnone
    simp only [List.mem_cons, List.mem_append, List.not_mem_nil, or_false, not_or] at hk hnot
    obtain ⟨x, hx, rfl⟩ := List.mem_map.mp ((hk.resolve_left hnot.1).resolve_right hnot.2)
    rw [content_block, Option.isSome_map]
    exact (h.leftover_removed hconflict x hx).2

end Won

/-- What is in the database after a conflict; `g` is the copy in the new model `t`. -/
structure Outdated (c : Cluster) (t : Store) (p : Share) (prev g : FileId) (rename copy : Advance.Diff) (db : Db) :
    Prop where
  copied : t.byName p.2 copy.protoLocal.name = some g
  /-- The renamed file and the copy are written. -/
  saved : ∀ name ∈ [rename.protoLocal.name, copy.protoLocal.name], ∃ f record, t.byName p.2 name = some f ∧
    FileDb.asDb t (t.files f) = some record ∧ db.committed[(fileKey (t.files f)).bytes]? = some (.file record)
  /-- So is the removal of the orphaned blocks. -/
  removed : ∀ x ∈ rename.removed, db.committed[(Key.block x).bytes]? = none
  /-- Nobody has removed the record of the old file. -/
  old : (db.committed[(fileKey (c.files prev)).bytes]?).isSome = true
  mirrors : Mirrors Key.bytes db.committed (leftover c t prev g)

theorem Won.outdated {g₁ g₂ : FileId} (h : Won c p prev rename copy s t g₁ g₂)
    (hconflict : Conflict host c p prev rename copy) (hc : Regular c) {db : Db}
    (hmirrors : Mirrors Key.bytes db.committed (leftover c t prev g₂)) :
    Outdated c t p prev g₂ rename copy db := by
  have hwf := h.second.regular.infos p.2
  have hp : p ∈ shares { c with toStore := t } := mem_shares_of_shareOf (c := c) hconflict.share
  obtain ⟨hmem₁, hfile₁⟩ := h.renamed hconflict
  have hsaved : ∀ g ∈ [g₁, g₂], g ∈ (t.infos p.2).files → ∃ record, FileDb.asDb t (t.files g) = some record ∧
      db.committed[(fileKey (t.files g)).bytes]? = some (.file record) := by
    intro g hg hlisted
    obtain ⟨record, hrecord, hcontent⟩ := content_fileKey h.second.regular hp hlisted
    refine ⟨record, hrecord, ?_⟩
    rw [hmirrors.value, (h.leftover_fileKey hconflict hc g hg).1]
    exact hcontent
  have hcopied : t.byName p.2 copy.protoLocal.name = some g₂ :=
    (byName_eq_some hwf).mpr ⟨h.second.listed, h.second.name⟩
  refine ⟨hcopied, fun name hname => ?_, fun x hx => ?_, ?_, hmirrors⟩
  · rcases List.mem_cons.mp hname with rfl | hname
    · obtain ⟨record, hrecord⟩ := hsaved g₁ (by simp) hmem₁
      refine ⟨g₁, record, (byName_eq_some hwf).mpr ⟨hmem₁, ?_⟩, hrecord⟩
      show (t.files g₁).name = _
      rw [hfile₁]
      exact h.first.name
    · rw [List.mem_singleton.mp hname]
      obtain ⟨record, hrecord⟩ := hsaved g₂ (by simp) h.second.listed
      exact ⟨g₂, record, hcopied, hrecord⟩
  · rw [hmirrors.value]
    exact (h.leftover_removed hconflict x hx).1
  · rw [hmirrors.value]
    exact h.leftover_old hconflict hc

theorem consistent_iff_of_conflict (h : Consistent st) (hconflict : Conflict host st.cluster p prev rename copy)
    (ht : Tree.apply host st.cluster false (.remoteWin rename copy) = some t) :
    ∃ db g, step threshold host st (.advance (.remoteWin rename copy) false) =
        some ⟨{ st.cluster with toStore := t }, db⟩ ∧ Outdated st.cluster t p prev g rename copy db ∧
      (Consistent ⟨{ st.cluster with toStore := t }, db⟩ ↔ (st.cluster.files prev).uuid = copy.uuid) := by
  have hc := h.regular
  obtain ⟨s, g₁, g₂, hwon⟩ := hconflict.won hc ht
  obtain ⟨db, hdb, htxn, hmirrors⟩ := hwon.mirrors threshold hconflict hc h.current
  have houtdated := hwon.outdated hconflict hc hmirrors
  refine ⟨db, g₂, step_eq_some.mpr ⟨t, db, ht, hdb, rfl⟩, houtdated, fun hconsistent => ?_, fun heq => ?_⟩
  · by_contra hne
    have hold := houtdated.old
    rw [hconsistent.mirrors.value, hwon.content_old hconflict hc hne] at hold
    cases hold
  · exact ⟨hwon.second.regular, htxn, (mirrors_iff_of_mirrors hmirrors).mpr fun k =>
      (hwon.leftover_eq hconflict hc heq k).symm⟩

/-- **A conflict that the peer wins** is written down, and it leaves the record of the local file
behind, unless the unassigned uuid of the copy is that of the file. -/
theorem consistent_iff_of_remoteWin (h : Consistent st) {env : Env} {source : FileId} {sourceFi : FolderInfoId}
    (hcreate : Advance.create host env st.cluster .resolveRemoteWin source sourceFi = some (.remoteWin rename copy))
    (hp : shareOf st.cluster rename.folderId host.self = some p) (hsource : sourceFi ∈ p.1.infos)
    (hprev : st.cluster.byName p.2 (st.cluster.files source).name = some prev)
    (hname : host.makeConflictingName (st.cluster.files prev) ∉ ["", (st.cluster.files prev).name])
    (hfresh : ∀ g ∈ (st.cluster.infos p.2).files, (st.cluster.files g).uuid ≠ env.nextUuid 0)
    (hunset : env.unset ≠ env.nextUuid 0)
    (hcareful : ∀ g ∈ (st.cluster.infos p.2).files, (st.cluster.files g).uuid = env.unset → g = prev)
    (ht : Tree.apply host st.cluster false (.remoteWin rename copy) = some t) :
    ∃ db g, step threshold host st (.advance (.remoteWin rename copy) false) =
        some ⟨{ st.cluster with toStore := t }, db⟩ ∧ Outdated st.cluster t p prev g rename copy db ∧
      (Consistent ⟨{ st.cluster with toStore := t }, db⟩ ↔ (st.cluster.files prev).uuid = env.unset) := by
  obtain ⟨hconflict, huuid⟩ := conflict_of_create h.regular hcreate hp hsource hprev hname hfresh hunset hcareful
  rw [← huuid]
  exact consistent_iff_of_conflict h hconflict ht

/-- The file of the peer wins. -/
def won (source : FileId) (c : Cluster) : Option (Advance.Diff × Advance.Diff) := do
  let .remoteWin rename copy ← Advance.create conflictHost (nilEnv 30) c .resolveRemoteWin source 1 | none
  return (rename, copy)

theorem create_of_won {source : FileId} {c : Cluster} {r : Advance.Diff × Advance.Diff} (h : r ∈ won source c) :
    Advance.create conflictHost (nilEnv 30) c .resolveRemoteWin source 1 = some (.remoteWin r.1 r.2) := by
  obtain ⟨tree, htree, h⟩ := Option.bind_eq_some_iff.mp h
  cases tree with
  | single d' => cases h
  | remoteWin rename copy =>
    cases h
    exact htree

/-- There is a record too many: the file that it is about has been renamed. -/
theorem meeting_won : ∃ c db st' f, Consistent ⟨c, db⟩ ∧ c.byName 0 "a" = some f ∧
    (∃ e, step 1 conflictHost ⟨c, db⟩ e = some st') ∧ ¬Consistent st' ∧
    (st'.db.committed[(fileKey (c.files f)).bytes]?).isSome = true := by
  obtain ⟨c, hc, prev, hlocal, source, -, r, hr, hshare, hprev, hname, hfresh, hcareful, ht, huuid⟩ :
      ∃ c ∈ Run.exec (Change.next conflictHost) conflictCluster meeting, ∃ prev ∈ c.byName 0 "a",
        ∃ source ∈ c.byName 1 "a", ∃ r ∈ won source c,
        shareOf c r.1.folderId conflictHost.self = some (⟨"f", Uuid.ofByte 3, [0, 1]⟩, 0) ∧
        c.byName 0 (c.files source).name = some prev ∧
        conflictHost.makeConflictingName (c.files prev) ∉ ["", (c.files prev).name] ∧
        (∀ g ∈ (c.infos 0).files, (c.files g).uuid ≠ (nilEnv 30).nextUuid 0) ∧
        (∀ g ∈ (c.infos 0).files, (c.files g).uuid = (nilEnv 30).unset → g = prev) ∧
        (Tree.apply conflictHost c false (.remoteWin r.1 r.2)).isSome = true ∧
        (c.files prev).uuid ≠ (nilEnv 30).unset := by decide +kernel
  obtain ⟨db, hdb⟩ := meeting_consistent hc
  obtain ⟨t, ht⟩ := Option.isSome_iff_exists.mp ht
  obtain ⟨db', _, hstep, houtdated, hiff⟩ := @consistent_iff_of_remoteWin 1 conflictHost _ _ _ _ _ _ hdb _ _ _
    (create_of_won hr) hshare (by decide) hprev hname hfresh (by decide +kernel) hcareful ht
  exact ⟨c, db, _, prev, hdb, hlocal, ⟨_, hstep⟩, fun h => huuid (hiff.mp h), houtdated.old⟩

end Conflict

end Database

end SyncSpirit
