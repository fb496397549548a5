import SyncSpirit.AdvanceRun
import SyncSpirit.FileDb
import SyncSpirit.Resolver

/-!
# What a local file lacks (`controller_actor_t::compare_with_local`)

Once `resolve` has decided for a peer's file, the controller compares it with the local
one. The verdict says what is to be done on disk: fetch blocks, make or remove an object
without content, set the times, or nothing at all. The record of the peer's file then
becomes the local one in any case.

`verdict_sound_iff`: the two verdicts that leave the content alone are right exactly if the
records agree in what the comparison does not look at.
-/

namespace SyncSpirit

/-- `local_difference_t`. -/
inductive LocalDifference where
  | content
  | trivialIo
  | metadata
  | unflushed
  | version
  deriving DecidableEq, Repr

namespace FileInfo

/-- What `iterate_blocks` yields: it stops at a null slot. -/
def iterateBlocks (f : FileInfo) : List Slot :=
  if f.isFile then (f.slots.takeWhile Option.isSome).filterMap id else []

/-- `file_info_t::is_locally_available`. -/
def isLocallyAvailable (f : FileInfo) : Bool := !f.isFile || f.available || f.slots.isEmpty

end FileInfo

namespace Store

/-- The hashes of a file's blocks. -/
def hashes (s : Store) (f : FileInfo) : List Bytes := f.iterateBlocks.map fun v => (s.blocks v.1).hash

/-- The loop over the blocks of both files. -/
def contentMatch (s : Store) : List Slot → List Slot → Bool
  | peer :: peers, loc :: locs => (s.blocks loc.1).hash = (s.blocks peer.1).hash && s.contentMatch peers locs
  | _ :: _, [] => false
  | [], locs => locs.isEmpty

/-- `compare_meta`. -/
def compareMeta (peer loc : FileInfo) : LocalDifference :=
  if loc.modifiedS ≠ peer.modifiedS then .metadata
  else if !loc.noPermissions && !peer.noPermissions && loc.permissions ≠ peer.permissions then .metadata
  else .version

/-- The end of `compare_with_local`: the blocks differ. -/
def missing (peer : FileInfo) : LocalDifference := if peer.isLocallyAvailable then .unflushed else .content

/-- A peer's file without blocks. -/
def compareBlockless (s : Store) (peer : FileInfo) : Option FileInfo → Option LocalDifference
  | none => some .trivialIo
  | some loc => (s.getBlockSize loc).map fun size => if size ≠ 0 then .trivialIo else compareMeta peer loc

/-- A peer's file with blocks. -/
def compareBlocks (s : Store) (peer : FileInfo) : Option FileInfo → LocalDifference
  | none => missing peer
  | some loc => if s.contentMatch peer.iterateBlocks loc.iterateBlocks then compareMeta peer loc else missing peer

/-- `compare_with_local`. A first block that is null is dereferenced. -/
def compareWithLocal (s : Store) (peer : FileInfo) (loc : Option FileInfo) : Option LocalDifference :=
  (s.getBlockSize peer).bind fun size =>
    if size = 0 then s.compareBlockless peer loc else some (s.compareBlocks peer loc)

theorem contentMatch_iff {s : Store} {peers locs : List Slot} : s.contentMatch peers locs = true ↔
    (locs.map fun v => (s.blocks v.1).hash) = peers.map fun v => (s.blocks v.1).hash := by
  induction peers generalizing locs with
  | nil =>
    cases locs with
    | nil => simp [contentMatch]
    | cons l locs => simp [contentMatch]
  | cons p peers ih =>
    cases locs with
    | nil => simp [contentMatch]
    | cons l locs => simp [contentMatch, ih]

end Store

/-! ## What a verdict promises -/

/-- The records are of the same object but for its times and permissions. -/
structure SameObject (s : Store) (peer loc : FileInfo) : Prop where
  type : loc.type = peer.type
  deleted : loc.deleted = peer.deleted
  target : loc.linkTarget = peer.linkTarget
  hashes : s.hashes loc = s.hashes peer

/-- Permissions count if both records have them. -/
def SamePermissions (peer loc : FileInfo) : Prop :=
  loc.noPermissions = false → peer.noPermissions = false → loc.permissions = peer.permissions

/-- **What a verdict promises**: with `version` nothing is to be done on disk, and with `meta` only
the times and the permissions are set. -/
def Promised (s : Store) (peer loc : FileInfo) : LocalDifference → Prop
  | .version => SameObject s peer loc ∧ loc.modifiedS = peer.modifiedS ∧ loc.modifiedNs = peer.modifiedNs ∧
      SamePermissions peer loc
  | .metadata => SameObject s peer loc
  | .content | .trivialIo | .unflushed => True

/-- What the comparison does not look at. -/
structure Unnoticed (s : Store) (peer loc : FileInfo) (verdict : LocalDifference) : Prop where
  deleted : loc.deleted = peer.deleted
  kind : s.getBlockSize peer = some 0 → loc.type = peer.type ∧ loc.linkTarget = peer.linkTarget ∧
    s.hashes loc = s.hashes peer
  nanoseconds : verdict = .version → loc.modifiedNs = peer.modifiedNs

/-! ## On disk -/

/-- What is on disk. A deleted object is not there, and its other fields are what was known of it. -/
structure DiskObject where
  type : FileType
  deleted : Bool
  target : String
  hashes : List Bytes
  modifiedS : Int
  permissions : UInt32

/-- What is on disk according to a record. -/
def Store.onDisk (s : Store) (f : FileInfo) : DiskObject :=
  ⟨f.type, f.deleted, f.linkTarget, s.hashes f, f.modifiedS, f.permissions⟩

/-- `io_update_meta`. `ignored` is for a platform or a folder without permissions. -/
def DiskObject.updateMeta (o : DiskObject) (ignored : Bool) (peer : FileInfo) : DiskObject :=
  { o with
    modifiedS := peer.modifiedS
    permissions := if ignored || peer.noPermissions then o.permissions else peer.permissions }

/-- What `pull_next` does on disk with a verdict that leaves the content alone. -/
def LocalDifference.perform (verdict : LocalDifference) (ignored : Bool) (peer : FileInfo) (o : DiskObject) :
    DiskObject :=
  if verdict = .metadata then o.updateMeta ignored peer else o

/-- The record that is announced describes what is on disk. -/
structure Describes (s : Store) (ignored : Bool) (peer loc : FileInfo) (o : DiskObject) : Prop where
  type : o.type = peer.type
  deleted : o.deleted = peer.deleted
  target : o.target = peer.linkTarget
  hashes : o.hashes = s.hashes peer
  modifiedS : o.modifiedS = peer.modifiedS
  permissions : ignored = false → loc.noPermissions = false → peer.noPermissions = false →
    o.permissions = peer.permissions

section Verdict

variable {s : Store} {peer loc : FileInfo} {verdict : LocalDifference}

/-- The verdicts that leave the content alone come from the comparison of the times. -/
def Quiet (verdict : LocalDifference) : Prop := verdict = .version ∨ verdict = .metadata

theorem not_quiet_missing : ¬ Quiet (Store.missing peer) := by
  unfold Store.missing Quiet
  split <;> simp

theorem linkTarget_of_iterateBlocks (h : loc.iterateBlocks ≠ []) : loc.type = .file ∧ loc.linkTarget = "" := by
  unfold FileInfo.iterateBlocks at h
  split at h
  · rename_i hfile
    refine ⟨by simpa [FileInfo.isFile] using hfile, ?_⟩
    unfold FileInfo.linkTarget
    cases hcontent : loc.content with
    | file blocks => rfl
    | nonFile target => simp [FileInfo.slots, hcontent] at h
  · exact absurd rfl h

/-- A first block with a size is a block. -/
theorem iterateBlocks_of_size {size : Int32} (h : s.getBlockSize peer = some size) (hsize : size ≠ 0) :
    peer.iterateBlocks ≠ [] := by
  unfold Store.getBlockSize at h
  split at h
  · rename_i hfile
    split at h
    · rename_i first hfirst
      obtain ⟨b, rfl, -⟩ := Option.map_eq_some_iff.mp h
      unfold FileInfo.targets at hfirst
      rw [List.head?_map] at hfirst
      obtain ⟨v, hv, hb⟩ := Option.map_eq_some_iff.mp hfirst
      obtain ⟨slot, rfl, -⟩ := Option.map_eq_some_iff.mp hb
      obtain ⟨rest, hrest⟩ := List.head?_eq_some_iff.mp hv
      unfold FileInfo.iterateBlocks
      rw [if_pos hfile, hrest]
      simp
    · cases h
      exact absurd rfl hsize
  · cases h
    exact absurd rfl hsize

/-- A quiet verdict: the times have been compared, and the blocks if the peer's file has some. -/
theorem compared (h : s.compareWithLocal peer (some loc) = some verdict) (hquiet : Quiet verdict) :
    verdict = Store.compareMeta peer loc ∧
      (s.getBlockSize peer ≠ some 0 →
        s.hashes loc = s.hashes peer ∧ peer.iterateBlocks ≠ [] ∧ loc.iterateBlocks ≠ []) := by
  obtain ⟨size, hsize, h⟩ := Option.bind_eq_some_iff.mp h
  split at h
  · rename_i hzero
    rw [hzero] at hsize
    obtain ⟨size', -, h⟩ := Option.map_eq_some_iff.mp h
    refine ⟨?_, fun hne => absurd hsize hne⟩
    split at h
    · rw [← h] at hquiet
      rcases hquiet with hquiet | hquiet <;> cases hquiet
    · exact h.symm
  · rename_i hnonzero
    cases h
    unfold Store.compareBlocks at hquiet ⊢
    dsimp only at hquiet ⊢
    split
    · rename_i hmatch
      have hhashes := Store.contentMatch_iff.mp hmatch
      have hpeer := iterateBlocks_of_size hsize hnonzero
      refine ⟨rfl, fun _ => ⟨hhashes, hpeer, fun hnil => hpeer ?_⟩⟩
      rw [hnil, List.map_nil, eq_comm, List.map_eq_nil_iff] at hhashes
      exact hhashes
    · rename_i hmatch
      rw [if_neg hmatch] at hquiet
      exact absurd hquiet not_quiet_missing

theorem compareMeta_eq_version : Store.compareMeta peer loc = .version ↔
    loc.modifiedS = peer.modifiedS ∧ SamePermissions peer loc := by
  unfold Store.compareMeta SamePermissions
  split
  · rename_i hne
    exact ⟨nofun, fun h => absurd h.1 hne⟩
  · rename_i heq
    split
    · rename_i hperms
      simp only [Bool.and_eq_true, Bool.not_eq_true', decide_eq_true_eq] at hperms
      exact ⟨nofun, fun h => absurd (h.2 hperms.1.1 hperms.1.2) hperms.2⟩
    · rename_i hperms
      simp only [Bool.and_eq_true, Bool.not_eq_true', decide_eq_true_eq, not_and, not_not] at hperms
      exact ⟨fun _ => ⟨not_not.mp heq, fun hl hp => hperms ⟨hl, hp⟩⟩, fun _ => rfl⟩

/-- The object is the same exactly if the records agree in what is not looked at. -/
theorem sameObject_iff (h : s.compareWithLocal peer (some loc) = some verdict) (hquiet : Quiet verdict) :
    SameObject s peer loc ↔ loc.deleted = peer.deleted ∧ (s.getBlockSize peer = some 0 →
      loc.type = peer.type ∧ loc.linkTarget = peer.linkTarget ∧ s.hashes loc = s.hashes peer) := by
  constructor
  · exact fun hsame => ⟨hsame.deleted, fun _ => ⟨hsame.type, hsame.target, hsame.hashes⟩⟩
  · rintro ⟨hdeleted, hkind⟩
    by_cases hsize : s.getBlockSize peer = some 0
    · obtain ⟨htype, htarget, hhashes⟩ := hkind hsize
      exact ⟨htype, hdeleted, htarget, hhashes⟩
    · -- both have blocks, so both are regular files
      obtain ⟨hhashes, hpeer, hloc⟩ := (compared h hquiet).2 hsize
      obtain ⟨hptype, hptarget⟩ := linkTarget_of_iterateBlocks hpeer
      obtain ⟨hltype, hltarget⟩ := linkTarget_of_iterateBlocks hloc
      exact ⟨hltype.trans hptype.symm, hdeleted, hltarget.trans hptarget.symm, hhashes⟩

/-- What a verdict promises is what is on disk afterwards. -/
theorem describes_of_promised (hquiet : Quiet verdict)
    (hpromised : Promised s peer loc verdict) (ignored : Bool) :
    Describes s ignored peer loc (verdict.perform ignored peer (s.onDisk loc)) := by
  rcases hquiet with rfl | rfl
  · obtain ⟨hsame, hmodified, -, hperms⟩ := hpromised
    exact ⟨hsame.type, hsame.deleted, hsame.target, hsame.hashes, hmodified, fun _ => hperms⟩
  · refine ⟨hpromised.type, hpromised.deleted, hpromised.target, hpromised.hashes, rfl, fun hignored _ hperms => ?_⟩
    show (if ignored || peer.noPermissions then loc.permissions else peer.permissions) = peer.permissions
    rw [hignored, hperms]
    rfl

/-- **The verdict**: exactly if the records agree in what the comparison does not look at, the verdict
is right. What is announced is then what is on disk. -/
theorem verdict_sound_iff (h : s.compareWithLocal peer (some loc) = some verdict) (hquiet : Quiet verdict) :
    (Promised s peer loc verdict ↔ Unnoticed s peer loc verdict) ∧
      (Unnoticed s peer loc verdict → ∀ ignored,
        Describes s ignored peer loc (verdict.perform ignored peer (s.onDisk loc))) := by
  have hiff : Promised s peer loc verdict ↔ Unnoticed s peer loc verdict := by
    have hobject := sameObject_iff h hquiet
    rcases hquiet with rfl | rfl
    · have hmeta := compareMeta_eq_version.mp (compared h (.inl rfl)).1.symm
      constructor
      · rintro ⟨hsame, -, hns, -⟩
        exact ⟨hsame.deleted, (hobject.mp hsame).2, fun _ => hns⟩
      · intro hun
        exact ⟨hobject.mpr ⟨hun.deleted, hun.kind⟩, hmeta.1, hun.nanoseconds rfl, hmeta.2⟩
    · constructor
      · intro hsame
        exact ⟨hsame.deleted, (hobject.mp hsame).2, nofun⟩
      · exact fun hun => hobject.mpr ⟨hun.deleted, hun.kind⟩
  exact ⟨hiff, fun hun => describes_of_promised hquiet (hiff.mpr hun)⟩

end Verdict

/-- A file with two blocks. -/
def twoBlocks (modified sequence : Int) (permissions : UInt32) : Proto.FileInfo :=
  { (default : Proto.FileInfo) with
    name := "a"
    size := 8
    modifiedS := modified
    sequence := sequence
    permissions := permissions
    version := ⟨[⟨1, 100⟩, ⟨2, 200⟩]⟩
    blocks := [⟨5, [7], 0⟩, ⟨3, [8], 5⟩] }

/-- Both devices have the file, and the peer has touched it. -/
def touched : List AdvanceRun.Event :=
  [.scan (AdvanceRun.nilEnv 10) (twoBlocks 100 0 0o644) "f" false, .apply 0 false,
    .receive (fun k => Uuid.ofByte (100 + k.toUInt8)) [2] ⟨"f", [twoBlocks 200 1 0o600]⟩, .apply 0 false]

/-- The time and the permissions are all that has to be set. -/
theorem metadata_of_touched : ∃ st ∈ Run.exec (AdvanceRun.step AdvanceRun.conflictHost)
      ⟨AdvanceRun.conflictCluster, []⟩ touched,
    (st.hashes (st.files 0)).length = 2 ∧ Promised st.toStore (st.files 1) (st.files 0) .metadata ∧
      Describes st.toStore false (st.files 1) (st.files 0)
        (LocalDifference.metadata.perform false (st.files 1) (st.onDisk (st.files 0))) := by
  obtain ⟨st, hst, hlength, hverdict, hdeleted, hsize⟩ :
      ∃ st ∈ Run.exec (AdvanceRun.step AdvanceRun.conflictHost) ⟨AdvanceRun.conflictCluster, []⟩ touched,
        (st.hashes (st.files 0)).length = 2 ∧
        st.compareWithLocal (st.files 1) (some (st.files 0)) = some .metadata ∧
        (st.files 0).deleted = (st.files 1).deleted ∧ st.getBlockSize (st.files 1) ≠ some 0 := by decide +kernel
  have hun : Unnoticed st.toStore (st.files 1) (st.files 0) .metadata :=
    ⟨hdeleted, fun h => absurd h hsize, fun h => by cases h⟩
  obtain ⟨hiff, hdescribes⟩ := verdict_sound_iff hverdict (.inr rfl)
  exact ⟨st, hst, hlength, hiff.mpr hun, hdescribes hun false⟩

/-- The device has an empty file, and the peer has deleted it without another time. -/
def emptyFileDeleted : List AdvanceRun.Event :=
  [.scan (AdvanceRun.nilEnv 10) { (default : Proto.FileInfo) with name := "a", modifiedS := 100 } "f" false,
    .apply 0 false,
    .receive (fun k => Uuid.ofByte (100 + k.toUInt8)) [2] ⟨"f", [{ (default : Proto.FileInfo) with
      name := "a", modifiedS := 100, deleted := true, sequence := 1, version := ⟨[⟨1, 100⟩, ⟨2, 200⟩]⟩ }]⟩,
    .apply 0 false]

/-- A platform that takes every name. -/
def anyPlatform : Platform where
  symlinksSupported := true
  pathSupported _ := true
  makeConflictingName file := file.name ++ ".sync-conflict-20260101-120000-AAAAAAA"
  isConflictName _ := false

theorem emptyFileDeleted_possible : (Run.exec (AdvanceRun.step AdvanceRun.conflictHost)
    ⟨AdvanceRun.conflictCluster, []⟩ emptyFileDeleted).isSome = true := by
  decide +kernel

/-- The state after these events. -/
def afterDeletion : AdvanceRun.State :=
  (Run.exec (AdvanceRun.step AdvanceRun.conflictHost) ⟨AdvanceRun.conflictCluster, []⟩ emptyFileDeleted).get
    emptyFileDeleted_possible

/-- The deletion is to be taken over, and nothing is to be done on disk: the file stays there, and its
deletion is announced. -/
theorem deletion_not_performed :
    Run.exec (AdvanceRun.step AdvanceRun.conflictHost) ⟨AdvanceRun.conflictCluster, []⟩ emptyFileDeleted =
        some afterDeletion ∧
      (afterDeletion.infos 0).files = [0] ∧ (afterDeletion.infos 1).files = [1] ∧
      resolve anyPlatform ⟨false, [⟨1, [afterDeletion.files 0]⟩, ⟨2, [afterDeletion.files 1]⟩]⟩ 1 2
        ⟨1, [afterDeletion.files 0]⟩ (afterDeletion.files 1) (some (afterDeletion.files 0)) = .remoteCopy ∧
      afterDeletion.toStore.compareWithLocal (afterDeletion.files 1) (some (afterDeletion.files 0)) =
        some .version ∧
      ¬ Promised afterDeletion.toStore (afterDeletion.files 1) (afterDeletion.files 0) .version := by
  refine ⟨(Option.some_get _).symm, by decide +kernel, by decide +kernel, by decide +kernel,
    by decide +kernel, fun hpromised => ?_⟩
  have hdeleted := hpromised.1.deleted
  revert hdeleted
  decide +kernel

end SyncSpirit
