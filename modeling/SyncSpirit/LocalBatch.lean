import SyncSpirit.AdvanceContent

/-!
# Batches of local changes (`local_keeper/folder_context.cpp`)

A scan makes a `local_update_t` of every change it finds, all of them in one state of the
cluster, and they are applied one after another. Each of them has decided already which
blocks to add, and which ones nobody else needs.

- `Scanned`: a change and the diff that has been built of it;
- `Spares`: no change takes away the blocks of a later one;
- `Replays`: the changes of one name follow upon each other;
- `recorded_iff`: these two conditions are exact;
- `movedContent_fails`: the content of a changed file turns up under another name.
-/

namespace SyncSpirit

namespace LocalBatch

open Store Advance AdvanceRun
open Availability (Sound)

/-! ## A batch -/

/-- A change that a scan has found, and the `local_update_t` that is made of it in the
state `c`. -/
structure Scanned (host : Host) (c : Cluster) where
  env : Env
  found : Proto.FileInfo
  folderId : String
  disableBlocksRemoval : Bool
  fi : FolderInfoId
  diff : Advance.Diff
  isLocal : localInfo host c folderId = some fi
  built : localUpdate host env c found folderId disableBlocksRemoval = some diff

/-- The diffs of a batch are applied one after another. A folder that is being scanned is
not suspended. -/
def applyAll (host : Host) (c : Cluster) (ds : List Advance.Diff) : Option Cluster :=
  ds.foldlM (fun c d => (d.apply host c false).map fun s => { c with toStore := s }) c

/-- What is stored under a name. -/
structure Entry where
  record : Record
  deleted : Bool
  hashes : List (Option (Bytes × Bool))

def entryOf (s : Store) (fi : FolderInfoId) (name : String) : Option Entry :=
  (s.byName fi name).map fun g => ⟨record (s.files g), (s.files g).deleted, s.hashesOf (s.files g)⟩

/-- The blocks a scanned file needs. -/
def wantsOf (found : Proto.FileInfo) : List Bytes :=
  (UpdateFolder.strictHashes (neededBlocks found)).getD []

/-- The name has the scanned content: the type, all the blocks, the target of a link. -/
def HasContent (s : Store) (fi : FolderInfoId) (found : Proto.FileInfo) : Prop :=
  ∃ e ∈ entryOf s fi found.name, e.record.type = asFlags found.type ∧ e.deleted = found.deleted ∧
    e.hashes = (wantsOf found).map (fun x => some (x, true)) ∧
    (asFlags found.type = .link → e.record.linkTarget = found.symlinkTarget)

namespace Scanned

variable {host : Host} {c : Cluster}

/-- Two changes of one file. -/
def SameName (e l : Scanned host c) : Prop := e.fi = l.fi ∧ e.found.name = l.found.name

instance (e l : Scanned host c) : Decidable (SameName e l) :=
  inferInstanceAs (Decidable (e.fi = l.fi ∧ e.found.name = l.found.name))

def wants (ch : Scanned host c) : List Bytes := wantsOf ch.found

/-- The blocks that only the known file refers to, and that it will not need any more. -/
def drops (ch : Scanned host c) : List Bytes :=
  (orphansOf c.toStore (c.byName ch.fi ch.found.name) ch.disableBlocksRemoval).filter (· ∉ ch.wants)

end Scanned

section Conditions

variable {host : Host} {c : Cluster}

/-- No change takes away what a later one needs, or takes away as well. -/
def Spares (batch : List (Scanned host c)) : Prop :=
  batch.Pairwise fun e l => ∀ x ∈ e.drops, x ∉ l.wants ∧ x ∉ l.drops

/-- The record a change leaves behind. -/
def nextOf (r : FolderInfoId → String → Option Record) (ch : Scanned host c) : Record :=
  nextRecord (r ch.fi ch.found.name) ch.diff.uuid ch.diff.protoLocal

def enter (r : FolderInfoId → String → Option Record) (ch : Scanned host c) :
    FolderInfoId → String → Option Record :=
  fun fi name => if fi = ch.fi ∧ name = ch.found.name then some (nextOf r ch) else r fi name

/-- The changes of one name follow upon each other: each of them is made for the uuid or
the version that is there, and the last one gets the target of its link. -/
def Replays : (FolderInfoId → String → Option Record) → List (Scanned host c) → Prop
  | _, [] => True
  | r, ch :: rest => Matches (r ch.fi ch.found.name) ch.diff.uuid ch.diff.protoLocal ∧
    ((∀ l ∈ rest, ¬ ch.SameName l) → asFlags ch.found.type = .link →
      (nextOf r ch).linkTarget = ch.found.symlinkTarget) ∧ Replays (enter r ch) rest

instance decidableReplays : ∀ (r : FolderInfoId → String → Option Record) (batch : List (Scanned host c)),
    Decidable (Replays r batch)
  | _, [] => inferInstanceAs (Decidable True)
  | r, ch :: rest =>
    have := decidableReplays (enter r ch) rest
    inferInstanceAs (Decidable (_ ∧ ((∀ l ∈ rest, ¬ ch.SameName l) → _ → _) ∧ _))

instance (batch : List (Scanned host c)) : Decidable (Spares batch) :=
  inferInstanceAs (Decidable (batch.Pairwise fun e l => ∀ x ∈ e.drops, x ∉ l.wants ∧ x ∉ l.drops))

/-- **The batch goes through**, and every name has what has been scanned last. -/
def Recorded (batch : List (Scanned host c)) : Prop :=
  ∃ t, applyAll host c (batch.map Scanned.diff) = some t ∧
    ∀ pre ch post, batch = pre ++ ch :: post → (∀ l ∈ post, ¬ ch.SameName l) →
      HasContent t.toStore ch.fi ch.found

/-- The sequencer hands out new uuids. -/
structure Fresh (batch : List (Scanned host c)) : Prop where
  distinct : batch.Pairwise fun e l => e.env.nextUuid 0 ≠ l.env.nextUuid 0
  unused : ∀ ch ∈ batch, ∀ fi, ∀ g ∈ (c.infos fi).files, (c.files g).uuid ≠ ch.env.nextUuid 0

end Conditions

/-! ## The original of a scanned file -/

/-- The original is a file of that name, with that content. -/
theorem getOriginal_eq_some {host : Host} {s : Store} {found : Proto.FileInfo} {fis : List FolderInfoId}
    {original : FileId} (h : getOriginal host s fis found = some (some original)) :
    ∃ fi ∈ fis, s.byName fi found.name = some original ∧ sameFile s found (s.files original) = some true := by
  have hloop : ∀ (l : List FolderInfoId) (r : Option FileId), l ⊆ fis →
      (∀ f ∈ r, ∃ fi ∈ fis, s.byName fi found.name = some f ∧ sameFile s found (s.files f) = some true) →
      l.foldlM (pick host s found) r = some (some original) →
      ∃ fi ∈ fis, s.byName fi found.name = some original ∧
        sameFile s found (s.files original) = some true := by
    intro l
    induction l with
    | nil =>
      rintro r - hr ⟨⟩
      exact hr original rfl
    | cons fi l ih =>
      intro r hsub hr hl
      obtain ⟨r', hpick, hl⟩ := Option.bind_eq_some_iff.mp hl
      refine ih r' (fun x hx => hsub (List.mem_cons_of_mem _ hx)) ?_ hl
      unfold pick at hpick
      split at hpick
      · cases hpick
        exact hr
      · split at hpick
        · cases hpick
          exact hr
        · rename_i candidate hcandidate
          obtain ⟨matched, hmatched, hpick⟩ := Option.bind_eq_some_iff.mp hpick
          have hnew : matched = true → ∃ fi ∈ fis, s.byName fi found.name = some candidate ∧
              sameFile s found (s.files candidate) = some true := by
            rintro rfl
            exact ⟨fi, hsub (List.mem_cons_self ..), hcandidate, hmatched⟩
          split at hpick
          · rename_i htrue
            split at hpick
            · cases hpick
              rintro f ⟨⟩
              exact hnew htrue
            · cases hpick
              rintro f ⟨⟩
              split
              · exact hnew htrue
              · exact hr _ rfl
          · cases hpick
            exact hr
  exact hloop fis none (List.Subset.refl _) (fun f hf => by cases hf) h

theorem strictHashes_congr : ∀ {bs bs' : List Proto.BlockInfo},
    bs.map Proto.BlockInfo.hash = bs'.map Proto.BlockInfo.hash →
    UpdateFolder.strictHashes bs = UpdateFolder.strictHashes bs' := by
  intro bs bs' h
  have hmap : ∀ bs : List Proto.BlockInfo,
      UpdateFolder.strictHashes bs = (bs.map Proto.BlockInfo.hash).mapM makeStrictHash := fun bs => by
    rw [List.mapM_map]
    rfl
  rw [hmap, hmap, h]

/-- The blocks of a file, as they are announced: no slot is null. -/
theorem blocksProto_hashes {s : Store} :
    ∀ {slots : List (Option Slot)} {offset : Int} {bs : List Proto.BlockInfo},
      s.blocksProto offset (slots.map fun v => v.map Prod.fst) = some bs →
      slots.takeWhile Option.isSome = slots ∧ (slots.filterMap id).length = slots.length ∧
        bs.map Proto.BlockInfo.hash = (slots.filterMap id).map fun p => (s.blocks p.1).hash := by
  intro slots
  induction slots with
  | nil =>
    rintro offset bs ⟨⟩
    exact ⟨rfl, rfl, rfl⟩
  | cons v slots ih =>
    intro offset bs h
    obtain ⟨b, hb, h⟩ := Option.bind_eq_some_iff.mp h
    obtain ⟨bs', hbs', h⟩ := Option.bind_eq_some_iff.mp h
    cases h
    obtain ⟨p, rfl, rfl⟩ := Option.map_eq_some_iff.mp hb
    obtain ⟨htake, hlen, hhash⟩ := ih hbs'
    refine ⟨?_, ?_, ?_⟩
    · simp [htake]
    · show (p :: slots.filterMap id).length = _
      rw [List.length_cons, hlen, List.length_cons]
    · simp [hhash, BlockInfo.asBep]

/-- Two lists of the same length whose hashes match pairwise. -/
theorem map_hash_eq {s : Store} : ∀ {ps : List Slot} {bs : List Proto.BlockInfo}, ps.length = bs.length →
    (∀ q ∈ ps.zip bs, (s.blocks q.1.1).hash = q.2.hash) →
    ps.map (fun p => (s.blocks p.1).hash) = bs.map Proto.BlockInfo.hash := by
  intro ps
  induction ps with
  | nil =>
    intro bs hlen _
    rw [List.length_nil] at hlen
    rw [List.eq_nil_of_length_eq_zero hlen.symm]
    rfl
  | cons p ps ih =>
    intro bs hlen h
    cases bs with
    | nil => cases hlen
    | cons b bs =>
      rw [List.zip_cons_cons] at h
      rw [List.map_cons, List.map_cons, h _ (List.mem_cons_self ..),
        ih (Nat.succ.inj hlen) fun q hq => h q (List.mem_cons_of_mem _ hq)]

/-- **The original**, taken in place of the scanned file, has its content. Nothing is said
about the target of a link. -/
theorem asProto_of_sameFile {s : Store} {found source : Proto.FileInfo} {file : FileInfo}
    (hc : file.Coherent) (hsame : sameFile s found file = some true)
    (hsource : s.asProto file true = some source) :
    asFlags source.type = asFlags found.type ∧ source.deleted = found.deleted ∧
      source.version = file.version.toProto ∧
      UpdateFolder.strictHashes (neededBlocks source) = UpdateFolder.strictHashes (neededBlocks found) := by
  obtain ⟨size, hsize, hsame⟩ := Option.bind_eq_some_iff.mp hsame
  obtain ⟨rfl, htype, hdeleted, -, -, hblocks⟩ := of_decide_eq_true (Option.some.inj hsame)
  unfold asProto at hsource
  dsimp only at hsource
  cases hcontent : file.content with
  | file blocks =>
    rw [hcontent] at hsource
    dsimp only at hsource
    obtain ⟨size, hsize', hsource⟩ := Option.bind_eq_some_iff.mp hsource
    rw [hsize] at hsize'
    cases hsize'
    obtain ⟨blockSize, -, hsource⟩ := Option.bind_eq_some_iff.mp hsource
    rw [if_pos rfl] at hsource
    obtain ⟨bs, hbs, hsource⟩ := Option.bind_eq_some_iff.mp hsource
    cases hsource
    refine ⟨by rw [asFlags_asType, htype], hdeleted.symm, rfl, strictHashes_congr ?_⟩
    unfold neededBlocks
    dsimp only
    by_cases hzero : found.size = 0
    · simp [hzero]
    · rw [if_pos hzero, if_pos hzero]
      -- a file without slots has no size
      have htargets : file.targets ≠ [] := by
        intro hnil
        refine hzero (Option.some.inj (hsize.symm.trans ?_))
        simp [Store.getSize, hnil]
      rw [if_neg fun hcon => htargets hcon.1]
      obtain ⟨hlen, hhash⟩ := hblocks (hc.mpr ⟨blocks, hcontent⟩)
      obtain ⟨htake, hlen', hhashes⟩ := blocksProto_hashes hbs
      rw [htake] at hhash
      rw [hhashes]
      exact map_hash_eq (hlen'.trans hlen) hhash
  | nonFile target =>
    rw [hcontent] at hsource
    cases hsource
    have hnot : file.isFile = false := by
      rw [Bool.eq_false_iff]
      intro hcon
      obtain ⟨blocks, hb⟩ := hc.mp hcon
      rw [hcontent] at hb
      cases hb
    have hzero : found.size = 0 := by
      refine Option.some.inj (hsize.symm.trans ?_)
      simp [Store.getSize, hnot]
    refine ⟨by rw [asFlags_asType, htype], hdeleted.symm, rfl, ?_⟩
    simp [neededBlocks, hzero]

/-! ## What has been built -/

theorem Version.toProto_ne_nil {v : Version} (h : v.counters ≠ []) : v.toProto.counters ≠ [] := by
  unfold Version.toProto
  simpa using h

theorem Version.update_ne_nil (v : Version) (id now : UInt64) : (v.update id now).counters ≠ [] := by
  unfold Version.update
  dsimp only
  cases hi : v.counters.findIdx? (fun c => c.id == id) with
  | none => simp
  | some i =>
    dsimp only
    split
    · rename_i hany
      intro hnil
      rw [List.modify_eq_nil_iff] at hnil
      rw [hnil] at hany
      cases hany
    · simp

/-- The hashes of the blocks that are added. -/
theorem strictHashes_newBlocks {s : Store} : ∀ {bs : List Proto.BlockInfo} {hashes : List Bytes},
    UpdateFolder.strictHashes bs = some hashes →
    UpdateFolder.strictHashes (newBlocks s bs hashes) = some (hashes.filter fun x => (s.byHash x).isNone) := by
  intro bs
  induction bs with
  | nil =>
    rintro hashes ⟨⟩
    rfl
  | cons b bs ih =>
    intro hashes hh
    obtain ⟨hash, hs, hhash, hbs, rfl⟩ := UpdateFolder.strictHashes_cons.mp hh
    have hrest := ih hbs
    unfold newBlocks at hrest ⊢
    rw [List.zip_cons_cons]
    by_cases hnone : (s.byHash hash).isNone
    · rw [List.filter_cons_of_pos (by simpa using hnone), List.map_cons,
        List.filter_cons_of_pos (by simpa using hnone)]
      exact UpdateFolder.strictHashes_cons.mpr ⟨hash, _, hhash, hrest, rfl⟩
    · rw [List.filter_cons_of_neg (by simpa using hnone),
        List.filter_cons_of_neg (by simpa using hnone)]
      exact hrest

/-- The cluster a batch is built in. -/
structure Orderly (c : Cluster) : Prop where
  wf : c.WF
  blocksWF : c.BlocksWF
  versions : ∀ fi, ∀ f ∈ (c.infos fi).files, (c.files f).version.counters ≠ []

/-- A scanned directory or link has no blocks. -/
def Plain (found : Proto.FileInfo) : Prop := asFlags found.type ≠ .file → neededBlocks found = []

namespace Scanned

variable {host : Host} {c : Cluster}

/-- What `local_update_t` makes of a change. -/
structure Built (ch : Scanned host c) : Prop where
  folderId : ch.diff.folderId = ch.folderId
  action : ch.diff.action = .localUpdate
  name : ch.diff.protoLocal.name = ch.found.name
  type : asFlags ch.diff.protoLocal.type = asFlags ch.found.type
  deleted : ch.diff.protoLocal.deleted = ch.found.deleted
  named : ch.diff.protoLocal.name ≠ ""
  version : ch.diff.protoLocal.version.counters ≠ []
  wants : UpdateFolder.strictHashes (neededBlocks ch.diff.protoLocal) = some ch.wants
  kind : asFlags ch.diff.protoLocal.type ≠ .file → neededBlocks ch.diff.protoLocal = []
  added : UpdateFolder.strictHashes ch.diff.added = some (ch.wants.filter fun x => (c.byHash x).isNone)
  removed : ch.diff.removed = ch.drops
  uuid : c.byName ch.fi ch.found.name = none → ch.diff.uuid = ch.env.nextUuid 0

/-- An orphan is in the block map. -/
theorem hasBlock_of_orphan (hc : Orderly c) {f : Option FileId} {disable : Bool} {x : Bytes}
    (hx : x ∈ orphansOf c.toStore f disable) : c.HasBlock x := by
  unfold orphansOf at hx
  split at hx
  · cases hx
  · split at hx
    · cases hx
    · obtain ⟨-, f, -, q, hslot, rfl, -⟩ := (UpdateFolder.deduce_spec _ _ _).2 x hx
      obtain ⟨i, hi⟩ := List.mem_iff_getElem?.mp hslot
      have hknown := hc.blocksWF.known f i q.1 q.2 (by
        show (c.files f).slots[i]?.join = some (q.1, q.2)
        rw [hi]
        rfl)
      unfold HasBlock
      rw [hknown]
      rfl

theorem hasBlock_of_drops (hc : Orderly c) {ch : Scanned host c} {x : Bytes} (hx : x ∈ ch.drops) :
    c.HasBlock x :=
  hasBlock_of_orphan hc (List.mem_filter.mp hx).1

theorem nodup_drops (ch : Scanned host c) : ch.drops.Nodup := by
  refine List.Nodup.filter _ ?_
  unfold orphansOf
  split
  · exact List.nodup_nil
  · split
    · exact List.nodup_nil
    · exact (UpdateFolder.deduce_spec _ _ _).1

/-- The diff of a file `source` with the scanned content. The version and the uuid are set
in the end. -/
theorem built_of_source (hc : Orderly c) {ch : Scanned host c} (hplain : Plain ch.found)
    (hname : ch.found.name ≠ "") {source : Proto.FileInfo} {d : Advance.Diff}
    (hd : initializeAdvance c.toStore ch.fi .localUpdate ch.disableBlocksRemoval (ch.env.nextUuid 0) ch.env.unset
      ch.folderId host.self source ch.found.name = some d)
    (htype : asFlags source.type = asFlags ch.found.type) (hdeleted : source.deleted = ch.found.deleted)
    (hneeded : UpdateFolder.strictHashes (neededBlocks source) =
      UpdateFolder.strictHashes (neededBlocks ch.found)) {uuid : Uuid} {version : Proto.Vector}
    (hdiff : ch.diff = { d with uuid := uuid, protoLocal := { d.protoLocal with version := version } })
    (hversion : version.counters ≠ [])
    (huuid : c.byName ch.fi ch.found.name = none → uuid = ch.env.nextUuid 0 ∨ uuid = d.uuid) : ch.Built := by
  obtain ⟨hashes, hh, rfl⟩ := initializeAdvance_eq_some hd
  have hwants : ch.wants = hashes := by
    unfold wants wantsOf
    rw [← hneeded, hh]
    rfl
  have hlocal : asFlags source.type ≠ .file → neededBlocks source = [] := by
    intro hne
    rw [hplain (htype ▸ hne)] at hneeded
    cases hblocks : neededBlocks source with
    | nil => rfl
    | cons b bs =>
      rw [hblocks] at hneeded
      obtain ⟨hash, hs, -, -, hnil⟩ := UpdateFolder.strictHashes_cons.mp hneeded
      cases hnil
  rw [if_neg hname] at hdiff
  constructor
  · rw [hdiff]
  · rw [hdiff]
  · rw [hdiff]
  · rw [hdiff]
    exact htype
  · rw [hdiff]
    exact hdeleted
  · rw [hdiff]
    exact hname
  · rw [hdiff]
    exact hversion
  · rw [hdiff, hwants]
    exact hh
  · rw [hdiff]
    exact hlocal
  · rw [hdiff, hwants]
    exact strictHashes_newBlocks hh
  · rw [hdiff]
    refine List.filter_congr fun x hx => ?_
    have hsome : (c.byHash x).isSome = true := hasBlock_of_orphan hc hx
    rw [hwants]
    simp [hsome]
  · intro hnone
    rw [hdiff]
    rcases huuid hnone with heq | heq
    · exact heq
    · rw [if_neg hname, hnone] at heq
      exact heq

/-- **Construction**: what the diff will need and remove, in terms of the change. -/
theorem build_spec (hc : Orderly c) {ch : Scanned host c} (hplain : Plain ch.found) : ch.Built := by
  have hbuilt := ch.built
  have hlocal := ch.isLocal
  unfold localUpdate at hbuilt
  split at hbuilt
  · cases hbuilt
  · rename_i hname
    obtain ⟨folder, hfolder, hbuilt⟩ := Option.bind_eq_some_iff.mp hbuilt
    obtain ⟨fi, hfi, hbuilt⟩ := Option.bind_eq_some_iff.mp hbuilt
    obtain ⟨original, horiginal, hbuilt⟩ := Option.bind_eq_some_iff.mp hbuilt
    have hfi' : fi = ch.fi := by
      unfold localInfo at hlocal
      rw [hfolder, Option.bind_eq_bind, Option.bind_some, hfi] at hlocal
      exact Option.some.inj hlocal
    subst hfi'
    cases original with
    | some original =>
      obtain ⟨source, hsource, hbuilt⟩ := Option.bind_eq_some_iff.mp hbuilt
      obtain ⟨fi', -, hby, hsame⟩ := getOriginal_eq_some horiginal
      obtain ⟨htype, hdeleted, hversion, hneeded⟩ := asProto_of_sameFile (hc.wf.coherent original) hsame hsource
      have hlisted := ((byName_eq_some (hc.wf.infos fi')).mp hby).1
      refine built_of_source hc hplain hname hbuilt htype hdeleted hneeded rfl ?_ fun _ => .inr rfl
      obtain ⟨hashes, -, hdiff⟩ := initializeAdvance_eq_some hbuilt
      show ch.diff.protoLocal.version.counters ≠ []
      rw [hdiff]
      show source.version.counters ≠ []
      rw [hversion]
      exact Version.toProto_ne_nil (hc.versions fi' original hlisted)
    | none =>
      obtain ⟨d, hd, hbuilt⟩ := Option.bind_eq_some_iff.mp hbuilt
      split at hbuilt
      · rename_i f hf
        refine built_of_source hc hplain hname hd rfl rfl rfl (Option.some.inj hbuilt).symm
          (Version.toProto_ne_nil (Version.update_ne_nil _ _ _)) fun hnone => ?_
        rw [hf] at hnone
        cases hnone
      · exact built_of_source hc hplain hname hd rfl rfl rfl (Option.some.inj hbuilt).symm
          (Version.toProto_ne_nil (Version.update_ne_nil _ _ _)) fun _ => .inr rfl

end Scanned

/-! ## One change -/

theorem recordOf_eq (s : Store) (fi : FolderInfoId) (name : String) :
    s.recordOf fi name = (entryOf s fi name).map Entry.record := by
  unfold recordOf entryOf
  rw [Option.map_map]
  rfl

/-- A name that is not touched keeps its content. -/
theorem entryOf_of_undisturbed {fi : FolderInfoId} {names : List String} {s t : Store}
    (h : Undisturbed fi names s t) (hs : s.InfoWF fi) (ht : t.InfoWF fi) (hsound : Sound Set.univ s)
    (hhashes : SameHashes s t) {name : String} (hname : name ∉ names) :
    entryOf t fi name = entryOf s fi name := by
  have hkept : ∀ g, s.byName fi name = some g → t.byName fi name = some g ∧ t.files g = s.files g := by
    intro g hg
    obtain ⟨hmem, rfl⟩ := (byName_eq_some hs).mp hg
    obtain ⟨hmem', heq⟩ := h.kept g hmem hname
    exact ⟨(byName_eq_some ht).mpr ⟨hmem', by rw [heq]⟩, heq⟩
  unfold entryOf
  cases hby : s.byName fi name with
  | some g =>
    obtain ⟨hby', heq⟩ := hkept g hby
    rw [hby', Option.map_some, Option.map_some, heq]
    -- the blocks of the file exist, so their hashes are the same
    have hblocks : t.hashesOf (s.files g) = s.hashesOf (s.files g) := by
      refine List.map_congr_left fun v hv => ?_
      cases v with
      | none => rfl
      | some p =>
        show some ((t.blocks p.1).hash, p.2) = some ((s.blocks p.1).hash, p.2)
        rw [hhashes.hash p.1 (hsound.toMarked.lt_nextBlock hv)]
    rw [hblocks]
  | none =>
    cases hby' : t.byName fi name with
    | none => rfl
    | some g =>
      obtain ⟨hmem, hname'⟩ := (byName_eq_some ht).mp hby'
      obtain ⟨hmem', heq⟩ := h.only g hmem (hname' ▸ hname)
      rw [heq] at hname'
      exact absurd hname' (byName_eq_none.mp hby g hmem')

section Steps

variable {host : Host} {c : Cluster}

/-- The state after some of the changes. -/
structure Stage (done : List (Scanned host c)) (r : FolderInfoId → String → Option Record) (s : Store) :
    Prop where
  sound : Sound Set.univ s
  separate : Separate s
  infoWF : ∀ fi, s.InfoWF fi
  device : ∀ fi, (s.infos fi).device = (c.infos fi).device
  record : ∀ fi name, s.recordOf fi name = r fi name
  known : ∀ fi name, (c.byName fi name).isSome → (s.byName fi name).isSome
  uuids : ∀ fi, ∀ g ∈ (s.infos fi).files,
    (∃ g' ∈ (c.infos fi).files, (c.files g').uuid = (s.files g).uuid) ∨
      ∃ e ∈ done, (s.files g).uuid = e.env.nextUuid 0
  blocks : ∀ x, c.HasBlock x → (s.HasBlock x ↔ ∀ e ∈ done, x ∉ e.drops)

theorem Stage.initial (hc : Orderly c) : @Stage host c [] c.recordOf c.toStore where
  sound := by
    have hmapped : ∀ f i b l, c.graph.slot f i = some (b, l) → b < c.nextBlock := fun f i b l hs =>
      hc.blocksWF.mapped b (byHash_eq_some (hc.blocksWF.known f i b l hs)).1
    exact ⟨⟨hc.wf.linked, fun b e _ hnot => absurd (Set.mem_univ _) hnot, hmapped, hc.blocksWF.mapped⟩,
      hc.wf.coherent, hc.wf.fresh, fun fi => (hc.wf.infos fi).allocated⟩
  separate := ⟨fun fi => (hc.wf.infos fi).allocated, hc.wf.disjoint⟩
  infoWF := hc.wf.infos
  device _ := rfl
  record _ _ := rfl
  known _ _ h := h
  uuids fi g hg := .inl ⟨g, hg, rfl⟩
  blocks x hx := ⟨fun _ e he => absurd he List.not_mem_nil, fun _ => hx⟩

/-- A diff of the batch is applied in the folder info it has been built for. -/
theorem Scanned.Built.apply {ch : Scanned host c} (hb : ch.Built) {s : Store}
    (hdevice : ∀ fi, (s.infos fi).device = (c.infos fi).device) :
    ch.diff.apply host { c with toStore := s } false = ch.diff.applyImpl ch.fi s := by
  have hlocal : localInfo host { c with toStore := s } ch.diff.folderId = some ch.fi := by
    rw [localInfo_congr hdevice, hb.folderId]
    exact ch.isLocal
  have hfolder : ∃ folder, Cluster.folderById { c with toStore := s } ch.diff.folderId = some folder := by
    obtain ⟨folder, hfolder, -⟩ := Option.bind_eq_some_iff.mp hlocal
    exact ⟨folder, hfolder⟩
  obtain ⟨folder, hfolder⟩ := hfolder
  have hignored : ch.diff.isIgnored { c with toStore := s } false = false := by
    unfold Advance.Diff.isIgnored
    rw [hfolder, hb.action]
    rfl
  unfold Advance.Diff.apply
  rw [hignored, if_neg Bool.false_ne_true, hlocal]
  rfl

/-- **One change**: it succeeds exactly if no earlier one has dropped one of its blocks, and
if it has been made for the file that is there. -/
theorem Stage.step_iff {done : List (Scanned host c)} {r : FolderInfoId → String → Option Record} {s : Store}
    (h : Stage done r s) (hc : Orderly c) {ch : Scanned host c} (hb : ch.Built) :
    (∃ t, ch.diff.applyImpl ch.fi s = some t) ↔
      (∀ e ∈ done, ∀ x ∈ e.drops, x ∉ ch.wants ∧ x ∉ ch.drops) ∧
        Matches (r ch.fi ch.found.name) ch.diff.uuid ch.diff.protoLocal := by
  have hadded : ∀ {x}, x ∈ ch.wants.filter (fun x => (c.byHash x).isNone) ↔ x ∈ ch.wants ∧ ¬ c.HasBlock x := by
    intro x
    simp [HasBlock, List.mem_filter]
  -- a block that has been dropped is not there, and nobody adds it
  have hgone : ∀ e ∈ done, ∀ x ∈ e.drops,
      ¬ (s.HasBlock x ∨ x ∈ ch.wants.filter fun x => (c.byHash x).isNone) := by
    rintro e he x hx (hhas | hmem)
    · exact (h.blocks x (Scanned.hasBlock_of_drops hc hx)).mp hhas e he hx
    · exact (hadded.mp hmem).2 (Scanned.hasBlock_of_drops hc hx)
  rw [(applyImpl_iff h.sound (h.infoWF ch.fi) hb.named hb.version hb.kind hb.wants hb.added
    (hb.removed ▸ ch.nodup_drops)).1]
  constructor
  · intro hruns
    refine ⟨fun e he x hx => ⟨fun hwants => ?_, fun hdrops => ?_⟩, ?_⟩
    · exact hgone e he x hx (hruns.needed x hwants).1
    · exact hgone e he x hx (hruns.removed x (hb.removed ▸ hdrops))
    · rw [← h.record, ← hb.name]
      exact hruns.known
  · rintro ⟨hspares, hmatch⟩
    refine ⟨fun x hx => ?_, ?_, fun x hx => ⟨?_, ?_⟩⟩
    · rw [hb.removed] at hx
      refine .inl ((h.blocks x (Scanned.hasBlock_of_drops hc hx)).mpr fun e he hx' => ?_)
      exact (hspares e he x hx').2 hx
    · rw [hb.name, h.record]
      exact hmatch
    · by_cases hhas : c.HasBlock x
      · exact .inl ((h.blocks x hhas).mpr fun e he hx' => (hspares e he x hx').1 hx)
      · exact .inr (hadded.mpr ⟨hx, hhas⟩)
    · rw [hb.removed]
      intro hdrops
      have hnot := (List.mem_filter.mp hdrops).2
      simp [hx] at hnot

/-- What a change leaves behind. -/
structure Stepped (s : Store) (r : FolderInfoId → String → Option Record) (ch : Scanned host c)
    (t : Store) : Prop where
  entry : entryOf t ch.fi ch.found.name =
    some ⟨nextOf r ch, ch.found.deleted, ch.wants.map fun x => some (x, true)⟩
  other : ∀ fi name, ¬ (fi = ch.fi ∧ name = ch.found.name) → entryOf t fi name = entryOf s fi name

theorem Stage.step_spec {done : List (Scanned host c)} {r : FolderInfoId → String → Option Record} {s t : Store}
    (h : Stage done r s) {ch : Scanned host c} (hb : ch.Built)
    (hfresh : ∀ fi, ∀ g ∈ (c.infos fi).files, (c.files g).uuid ≠ ch.env.nextUuid 0)
    (hdistinct : ∀ e ∈ done, e.env.nextUuid 0 ≠ ch.env.nextUuid 0)
    (ht : ch.diff.applyImpl ch.fi s = some t) :
    Stage (done ++ [ch]) (enter r ch) t ∧ Stepped s r ch t := by
  obtain ⟨hrun, hran⟩ := applyImpl_iff h.sound (h.infoWF ch.fi) hb.named hb.version hb.kind hb.wants hb.added
    (hb.removed ▸ ch.nodup_drops)
  have hran := hran t ht
  -- a name that is not known has not been known before, and the uuid is new
  have huuid : s.byName ch.fi ch.found.name = none → ch.diff.uuid = ch.env.nextUuid 0 := by
    intro hnone
    refine hb.uuid ?_
    cases hby : c.byName ch.fi ch.found.name with
    | none => rfl
    | some f =>
      have hsome := h.known ch.fi ch.found.name (by rw [hby]; rfl)
      rw [hnone] at hsome
      cases hsome
  have hfree : s.byName ch.fi ch.diff.protoLocal.name = none →
      ∀ g ∈ (s.infos ch.fi).files, (s.files g).uuid ≠ ch.diff.uuid := by
    intro hnone g hg heq
    rw [hb.name] at hnone
    rw [huuid hnone] at heq
    rcases h.uuids ch.fi g hg with ⟨g', hg', huuid'⟩ | ⟨e, he, huuid'⟩
    · exact hfresh ch.fi g' hg' (huuid'.trans heq)
    · exact hdistinct e he (huuid'.symm.trans heq)
  obtain ⟨ks, hsafe, hagree, hkey⟩ : ∃ ks, Safe ch.fi ks s ∧ AdvanceRun.Agree ks ∧
      (key ch.diff ∈ ks ∨ (s.byName ch.fi ch.diff.protoLocal.name).isSome) := by
    cases hby : s.byName ch.fi ch.diff.protoLocal.name with
    | none =>
      refine ⟨[key ch.diff], ⟨h.infoWF ch.fi, fun k hk g hg heq => ?_⟩, fun k hk k' hk' _ => ?_,
        .inl (List.mem_singleton_self _)⟩
      · rw [List.mem_singleton.mp hk] at heq
        exact absurd heq (hfree hby g hg)
      · rw [List.mem_singleton.mp hk, List.mem_singleton.mp hk']
    | some f => exact ⟨[], ⟨h.infoWF ch.fi, fun k hk => (nomatch hk)⟩, fun k hk => (nomatch hk), .inr rfl⟩
  obtain ⟨hsafe', hundisturbed, -, g, hp⟩ := hsafe.applyImpl hagree hkey ht
  obtain ⟨hseparate, helse⟩ := h.separate.of_touches hp.touches hp.nextFile
  have hwf : ∀ fi, t.InfoWF fi := by
    intro fi
    by_cases hfi : fi = ch.fi
    · rw [hfi]
      exact hsafe'.infoWF
    · exact (h.infoWF fi).of_eq (helse.infos fi hfi) helse.nextFile (helse.files fi hfi)
  have hg : g = (s.byName ch.fi ch.diff.protoLocal.name).getD s.nextFile := hp.eq_getD (h.infoWF ch.fi)
  have hby : t.byName ch.fi ch.found.name = some g := by
    refine (byName_eq_some (hwf ch.fi)).mpr ⟨(hp.mem_infos g).mpr (.inr rfl), ?_⟩
    rw [hp.name, hb.name]
  have hentry : entryOf t ch.fi ch.found.name =
      some ⟨nextOf r ch, ch.found.deleted, ch.wants.map fun x => some (x, true)⟩ := by
    have hrecord := hran.record
    have hdeleted := hran.deleted
    have hhashes := hran.hashes
    rw [← hg] at hrecord hdeleted hhashes
    unfold entryOf nextOf
    rw [hby, Option.map_some, hrecord, hdeleted, hhashes, hb.name, hb.deleted, h.record]
  have hother : ∀ fi name, ¬ (fi = ch.fi ∧ name = ch.found.name) → entryOf t fi name = entryOf s fi name := by
    intro fi name hne
    by_cases hfi : fi = ch.fi
    · subst hfi
      refine entryOf_of_undisturbed hundisturbed (h.infoWF _) (hwf _) h.sound hran.toSameHashes ?_
      rw [List.mem_singleton, hb.name]
      exact fun heq => hne ⟨rfl, heq⟩
    · exact entryOf_of_undisturbed (Undisturbed.of_elsewhere helse hfi []) (h.infoWF fi) (hwf fi) h.sound
        hran.toSameHashes List.not_mem_nil
  refine ⟨⟨hran.sound, hseparate, hwf, fun fi => ?_, fun fi name => ?_, fun fi name hknown => ?_,
    fun fi g' hg' => ?_, fun x hx => ?_⟩, hentry, hother⟩
  · exact (helse.device_eq fi).trans (h.device fi)
  · rw [recordOf_eq]
    unfold enter
    split
    · rename_i heq
      rw [heq.1, heq.2, hentry]
      rfl
    · rename_i hne
      rw [hother fi name hne, ← recordOf_eq, h.record]
  · have hsome : (entryOf t fi name).isSome := by
      by_cases heq : fi = ch.fi ∧ name = ch.found.name
      · rw [heq.1, heq.2, hentry]
        rfl
      · rw [hother fi name heq, entryOf, Option.isSome_map]
        exact h.known fi name hknown
    rwa [entryOf, Option.isSome_map] at hsome
  · -- a uuid is an old one, or that of a change
    have hold : ∀ g' ∈ (s.infos fi).files, t.files g' = s.files g' ∨ (t.files g').uuid = (s.files g').uuid →
        (∃ f ∈ (c.infos fi).files, (c.files f).uuid = (t.files g').uuid) ∨
          ∃ e ∈ done ++ [ch], (t.files g').uuid = e.env.nextUuid 0 := by
      intro g' hg' heq
      have heq' : (t.files g').uuid = (s.files g').uuid := by
        rcases heq with heq | heq
        · rw [heq]
        · exact heq
      rw [heq']
      rcases h.uuids fi g' hg' with hu | ⟨e, he, hu⟩
      · exact .inl hu
      · exact .inr ⟨e, List.mem_append_left _ he, hu⟩
    by_cases hfi : fi = ch.fi
    · subst hfi
      rcases (hp.mem_infos g').mp hg' with ⟨hg', hne⟩ | rfl
      · exact hold g' hg' (.inl (hp.files g' hne (Nat.ne_of_lt ((h.infoWF _).allocated g' hg'))))
      · rcases hp.origin with ⟨hmem, -, heq⟩ | ⟨-, hnone, heq⟩
        · exact hold g' hmem (.inr heq)
        · refine .inr ⟨ch, List.mem_append_right _ (List.mem_singleton_self _), ?_⟩
          rw [heq]
          exact huuid (hb.name ▸ hnone)
    · rw [helse.infos fi hfi] at hg'
      exact hold g' hg' (.inl (helse.files fi hfi g' hg'))
  · rw [hran.hasBlock, hb.removed]
    have hnot : x ∉ ch.wants.filter fun x => (c.byHash x).isNone := by
      intro hmem
      have hnone := (List.mem_filter.mp hmem).2
      unfold HasBlock at hx
      rw [Option.isNone_iff_eq_none.mp hnone] at hx
      cases hx
    simp only [hnot, or_false, h.blocks x hx, List.forall_mem_append, List.forall_mem_singleton]

/-! ## The whole batch -/

/-- The rest of a batch can be applied in this state. -/
structure Ready (done rest : List (Scanned host c)) : Prop where
  built : ∀ ch ∈ rest, ch.Built
  unused : ∀ ch ∈ rest, ∀ fi, ∀ g ∈ (c.infos fi).files, (c.files g).uuid ≠ ch.env.nextUuid 0
  distinct : (done ++ rest).Pairwise fun e l => e.env.nextUuid 0 ≠ l.env.nextUuid 0

theorem Ready.tail {done rest : List (Scanned host c)} {ch : Scanned host c} (h : Ready done (ch :: rest)) :
    Ready (done ++ [ch]) rest := by
  refine ⟨fun l hl => h.built l (List.mem_cons_of_mem _ hl),
    fun l hl => h.unused l (List.mem_cons_of_mem _ hl), ?_⟩
  rw [List.append_assoc]
  exact h.distinct

theorem Ready.step {done rest : List (Scanned host c)} {ch : Scanned host c} (h : Ready done (ch :: rest))
    {r : FolderInfoId → String → Option Record} {s t : Store} (hstage : Stage done r s)
    (ht : ch.diff.applyImpl ch.fi s = some t) :
    Stage (done ++ [ch]) (enter r ch) t ∧ Stepped s r ch t := by
  have hmem : ch ∈ ch :: rest := List.mem_cons_self ..
  refine hstage.step_spec (h.built ch hmem) (h.unused ch hmem) (fun e he => ?_) ht
  exact (List.pairwise_append.mp h.distinct).2.2 e he ch hmem

theorem applyAll_cons {done rest : List (Scanned host c)} {ch : Scanned host c} (h : Ready done (ch :: rest))
    {r : FolderInfoId → String → Option Record} {s : Store} (hstage : Stage done r s) {t : Cluster} :
    applyAll host { c with toStore := s } ((ch :: rest).map Scanned.diff) = some t ↔
      ∃ u, ch.diff.applyImpl ch.fi s = some u ∧
        applyAll host { c with toStore := u } (rest.map Scanned.diff) = some t := by
  have happly := (h.built ch (List.mem_cons_self ..)).apply hstage.device
  unfold applyAll
  rw [List.map_cons, List.foldlM_cons, happly, Option.bind_eq_bind, Option.bind_eq_some_iff]
  constructor
  · rintro ⟨_, hmap, ht⟩
    obtain ⟨u, hu, rfl⟩ := Option.map_eq_some_iff.mp hmap
    exact ⟨u, hu, ht⟩
  · rintro ⟨u, hu, ht⟩
    exact ⟨_, Option.map_eq_some_iff.mpr ⟨u, hu, rfl⟩, ht⟩

/-- The changes of other names do not matter. -/
theorem entryOf_applyAll {rest : List (Scanned host c)} :
    ∀ {done : List (Scanned host c)} {r : FolderInfoId → String → Option Record} {s : Store} {t : Cluster},
      Ready done rest → Stage done r s →
      applyAll host { c with toStore := s } (rest.map Scanned.diff) = some t →
      ∀ fi name, (∀ l ∈ rest, ¬ (fi = l.fi ∧ name = l.found.name)) →
        entryOf t.toStore fi name = entryOf s fi name := by
  induction rest with
  | nil =>
    rintro done r s t - - ⟨⟩ fi name -
    rfl
  | cons ch rest ih =>
    intro done r s t hready hstage ht fi name hother
    obtain ⟨u, hu, ht⟩ := (applyAll_cons hready hstage).mp ht
    obtain ⟨hstage', hstepped⟩ := hready.step hstage hu
    rw [ih hready.tail hstage' ht fi name fun l hl => hother l (List.mem_cons_of_mem _ hl)]
    exact hstepped.other fi name (hother ch (List.mem_cons_self ..))

/-- Only the target of a link depends on what has been there before. -/
theorem hasContent_of_entry {s : Store} {r : FolderInfoId → String → Option Record} {ch : Scanned host c}
    (hb : ch.Built) (h : entryOf s ch.fi ch.found.name =
      some ⟨nextOf r ch, ch.found.deleted, ch.wants.map fun x => some (x, true)⟩) :
    HasContent s ch.fi ch.found ↔
      (asFlags ch.found.type = .link → (nextOf r ch).linkTarget = ch.found.symlinkTarget) := by
  unfold HasContent
  rw [h]
  constructor
  · rintro ⟨e, ⟨⟩, -, -, -, htarget⟩
    exact htarget
  · exact fun htarget => ⟨_, rfl, hb.type, rfl, rfl, htarget⟩

/-- **The rest of a batch**, from any stage on. -/
theorem recorded_from {rest : List (Scanned host c)} (hc : Orderly c) :
    ∀ {done : List (Scanned host c)} {r : FolderInfoId → String → Option Record} {s : Store},
      Ready done rest → Stage done r s →
      ((∃ t, applyAll host { c with toStore := s } (rest.map Scanned.diff) = some t ∧
        ∀ pre ch post, rest = pre ++ ch :: post → (∀ l ∈ post, ¬ ch.SameName l) →
          HasContent t.toStore ch.fi ch.found) ↔
        (∀ e ∈ done, ∀ l ∈ rest, ∀ x ∈ e.drops, x ∉ l.wants ∧ x ∉ l.drops) ∧ Spares rest ∧ Replays r rest) := by
  induction rest with
  | nil =>
    intro done r s _ _
    refine ⟨fun _ => ⟨fun e _ l hl => absurd hl List.not_mem_nil, List.Pairwise.nil, trivial⟩, fun _ => ?_⟩
    refine ⟨_, rfl, fun pre ch post heq => ?_⟩
    simp at heq
  | cons ch rest ih =>
    intro done r s hready hstage
    have hb := hready.built ch (List.mem_cons_self ..)
    have hiff := hstage.step_iff hc hb
    -- the content of the first change, when nothing follows for its name
    have hfirst : ∀ u, ch.diff.applyImpl ch.fi s = some u → ∀ t,
        applyAll host { c with toStore := u } (rest.map Scanned.diff) = some t →
        (∀ l ∈ rest, ¬ ch.SameName l) → (HasContent t.toStore ch.fi ch.found ↔
          (asFlags ch.found.type = .link → (nextOf r ch).linkTarget = ch.found.symlinkTarget)) := by
      intro u hu t ht hlast
      obtain ⟨hstage', hstepped⟩ := hready.step hstage hu
      refine hasContent_of_entry hb ?_
      rw [entryOf_applyAll hready.tail hstage' ht _ _ hlast]
      exact hstepped.entry
    constructor
    · rintro ⟨t, ht, hcontent⟩
      obtain ⟨u, hu, ht⟩ := (applyAll_cons hready hstage).mp ht
      obtain ⟨hspares, hmatch⟩ := hiff.mp ⟨u, hu⟩
      obtain ⟨hstage', -⟩ := hready.step hstage hu
      obtain ⟨hcross, hrest, hreplays⟩ := (ih hready.tail hstage').mp ⟨t, ht, fun pre l post heq =>
        hcontent (ch :: pre) l post (by rw [heq]; rfl)⟩
      refine ⟨fun e he l hl => ?_, List.pairwise_cons.mpr ⟨fun l hl => ?_, hrest⟩, hmatch, fun hlast => ?_,
        hreplays⟩
      · rcases List.mem_cons.mp hl with rfl | hl
        · exact hspares e he
        · exact hcross e (List.mem_append_left _ he) l hl
      · exact hcross ch (List.mem_append_right _ (List.mem_singleton_self _)) l hl
      · exact (hfirst u hu t ht hlast).mp (hcontent [] ch rest rfl hlast)
    · rintro ⟨hcross, hspares, hmatch, htarget, hreplays⟩
      obtain ⟨hhead, hrest⟩ := List.pairwise_cons.mp hspares
      obtain ⟨u, hu⟩ := hiff.mpr ⟨fun e he => hcross e he ch (List.mem_cons_self ..), hmatch⟩
      obtain ⟨hstage', -⟩ := hready.step hstage hu
      obtain ⟨t, ht, hcontent⟩ := (ih hready.tail hstage').mpr ⟨fun e he l hl => by
        rcases List.mem_append.mp he with he | he
        · exact hcross e he l (List.mem_cons_of_mem _ hl)
        · rw [List.mem_singleton.mp he]
          exact hhead l hl, hrest, hreplays⟩
      refine ⟨t, (applyAll_cons hready hstage).mpr ⟨u, hu, ht⟩, fun pre l post heq hlast => ?_⟩
      cases pre with
      | nil =>
        obtain ⟨rfl, rfl⟩ := List.cons.inj heq
        exact (hfirst u hu t ht hlast).mpr (htarget hlast)
      | cons e pre =>
        exact hcontent pre l post (List.cons.inj heq).2 hlast

/-- **Batches**: all diffs are applied and every name has what has been scanned last, exactly
if no change drops a block that a later one needs, the changes of one name follow upon each
other and links get their targets. -/
theorem recorded_iff (hc : Orderly c) (batch : List (Scanned host c))
    (hplain : ∀ ch ∈ batch, Plain ch.found) (hfresh : Fresh batch) :
    Recorded batch ↔ Spares batch ∧ Replays c.recordOf batch := by
  have hready : Ready [] batch :=
    ⟨fun ch hch => Scanned.build_spec hc (hplain ch hch), hfresh.unused, hfresh.distinct⟩
  refine (recorded_from hc hready (Stage.initial hc)).trans ⟨fun h => h.2, fun h => ⟨?_, h⟩⟩
  exact fun e he => absurd he List.not_mem_nil

end Steps

/-- The diff of a change. -/
def scan {host : Host} {c : Cluster} (env : Env) (found : Proto.FileInfo) (folderId : String)
    (fi : FolderInfoId) (hfi : localInfo host c folderId = some fi)
    (h : (localUpdate host env c found folderId false).isSome = true) : Scanned host c where
  env := env
  found := found
  folderId := folderId
  disableBlocksRemoval := false
  fi := fi
  diff := (localUpdate host env c found folderId false).get h
  isLocal := hfi
  built := (Option.some_get h).symm

/-- Two new files. -/
def newFiles : List (Scanned conflictHost conflictCluster) :=
  [scan (nilEnv 10) (UpdateFolder.announce "a" 0 7) "f" 0 rfl (by decide +kernel),
    scan (nilEnv 20) (UpdateFolder.announce "b" 0 8) "f" 0 rfl (by decide +kernel)]

/-- They are recorded. -/
theorem newFiles_recorded : Recorded newFiles := by
  have horderly : Orderly conflictCluster := by
    refine ⟨WF.initial conflictCluster_files, BlocksWF.initial _, fun fi f hf => ?_⟩
    rw [conflictCluster_files] at hf
    cases hf
  have hfresh : Fresh newFiles := by
    refine ⟨by decide +kernel, fun ch _ fi g hg => ?_⟩
    rw [conflictCluster_files] at hg
    cases hg
  have hplain : ∀ ch ∈ newFiles, Plain ch.found := by
    intro ch hch
    rcases List.mem_cons.mp hch with rfl | hch
    · exact fun hne => absurd rfl hne
    · rw [List.mem_singleton.mp hch]
      exact fun hne => absurd rfl hne
  exact (recorded_iff horderly newFiles hplain hfresh).mpr ⟨by decide +kernel, by decide +kernel⟩

/-- The cluster with these two files. -/
def twoFiles : Cluster :=
  (applyAll conflictHost conflictCluster (newFiles.map Scanned.diff)).get (by decide +kernel)

/-- The content of the first file has been replaced, and turns up in a new file. -/
def movedContent : List (Scanned conflictHost twoFiles) :=
  [scan (nilEnv 30) (UpdateFolder.announce "a" 0 9) "f" 0 (by decide +kernel) (by decide +kernel),
    scan (nilEnv 40) (UpdateFolder.announce "c" 0 7) "f" 0 (by decide +kernel) (by decide +kernel)]

/-- The first diff removes the block that the second one needs: an assertion fails. -/
theorem movedContent_fails :
    applyAll conflictHost conflictCluster (newFiles.map Scanned.diff) = some twoFiles ∧
      applyAll conflictHost twoFiles (movedContent.map Scanned.diff) = none ∧ ¬ Recorded movedContent := by
  have hnone : applyAll conflictHost twoFiles (movedContent.map Scanned.diff) = none :=
    Option.isNone_iff_eq_none.mp (by decide +kernel)
  refine ⟨(Option.some_get _).symm, hnone, ?_⟩
  rintro ⟨t, ht, -⟩
  rw [hnone] at ht
  cases ht

end LocalBatch

end SyncSpirit
