import SyncSpirit.UpdateFolderRun

/-!
# What the validation of an index message misses

`update_folder_t::create` looks at the files of a message in turn. Looking at one either
violates an assertion (`Hazardous`), or answers the message with an error (`Refused`), or goes
on to the next one; which of them does not depend on the files before it. Building and applying
the diff then asserts that a file has a name and that its blocks do not meet a directory or a
link (`Applicable`), which nobody has checked.

`fold_assertion_iff` and `fold_ok_iff` are about the loop, `apply_isSome_iff` about the diff,
`validated_iff` about both.
-/

namespace SyncSpirit

namespace UpdateFolder

open Store

/-! ## One file -/

/-- Looking at the file violates an assertion: it cannot be compared with the known one, or one
of its hashes is too long. -/
def Hazardous (s : Store) (fi : FolderInfoId) (f : Proto.FileInfo) : Prop :=
  if f.sequence ≤ (s.infos fi).maxSequence then
    ∃ prev, s.byName fi f.name = some prev ∧ identicalTo s (s.files prev) f = none
  else 0 < f.sequence ∧ ∃ b ∈ f.blocks, digestLength < b.hash.length

/-- The file is answered with an error: it is not the known one, its sequence is not positive,
its size is not that of its blocks, or it has no version. -/
def Refused (s : Store) (fi : FolderInfoId) (f : Proto.FileInfo) : Prop :=
  if f.sequence ≤ (s.infos fi).maxSequence then
    ∀ prev, s.byName fi f.name = some prev → identicalTo s (s.files prev) f = some false
  else f.sequence ≤ 0 ∨ ((∀ b ∈ f.blocks, b.hash.length ≤ digestLength) ∧
    ((isDownloadable f = true ∧ f.size ≠ sizeByBlocks f) ∨ f.version.counters = []))

/-- Comparing the blocks dereferences a null slot, if all blocks before it are the same. -/
theorem sameBlocks_eq_none_iff {s : Store} {vs : List (Option BlockId)} :
    ∀ {bs : List Proto.BlockInfo}, sameBlocks s vs bs = none ↔
      ∃ i < bs.length, vs[i]? = some none ∧ ∀ j < i, ∃ k b, vs[j]? = some (some k) ∧ bs[j]? = some b ∧
        (s.blocks k).hash = b.hash := by
  induction vs with
  | nil =>
    intro bs
    constructor
    · intro h
      cases bs <;> cases h
    · rintro ⟨i, -, h, -⟩
      cases h
  | cons v vs ih =>
    intro bs
    cases bs with
    | nil => exact ⟨fun h => (by cases h), fun ⟨i, hi, _⟩ => absurd hi (Nat.not_lt_zero i)⟩
    | cons b bs =>
      cases v with
      | none =>
        exact ⟨fun _ => ⟨0, by simp, rfl, fun j hj => absurd hj (Nat.not_lt_zero j)⟩, fun _ => rfl⟩
      | some k =>
        by_cases hhash : (s.blocks k).hash = b.hash
        · have hstep : sameBlocks s (some k :: vs) (b :: bs) = sameBlocks s vs bs := by
            rw [sameBlocks, Option.bind_eq_bind, Option.bind_some, if_neg (not_not.mpr hhash)]
          rw [hstep, ih]
          constructor
          · rintro ⟨i, hi, hnone, hall⟩
            refine ⟨i + 1, by simpa using hi, by simpa using hnone, fun j hj => ?_⟩
            cases j with
            | zero => exact ⟨k, b, rfl, rfl, hhash⟩
            | succ j => simpa using hall j (by omega)
          · rintro ⟨i, hi, hnone, hall⟩
            cases i with
            | zero => cases hnone
            | succ i =>
              refine ⟨i, by simpa using hi, by simpa using hnone, fun j hj => ?_⟩
              simpa using hall (j + 1) (by omega)
        · have hstep : sameBlocks s (some k :: vs) (b :: bs) = some false := by
            rw [sameBlocks, Option.bind_eq_bind, Option.bind_some, if_pos hhash]
            rfl
          rw [hstep]
          refine ⟨fun h => (by cases h), ?_⟩
          rintro ⟨i, -, hnone, hall⟩
          cases i with
          | zero => cases hnone
          | succ i =>
            obtain ⟨k', b', hk, hb, heq⟩ := hall 0 (Nat.succ_pos i)
            cases hk
            cases hb
            exact absurd heq hhash

/-- **When a known file cannot be compared**: without a version; with a null slot in the way;
or when as many blocks are announced as the link target has bytes. -/
theorem identicalTo_eq_none_iff {s : Store} {file : FileInfo} {f : Proto.FileInfo} :
    identicalTo s file f = none ↔ f.version.counters = [] ∨
      (file.version.identicalTo (Version.ofProto f.version) = true ∧ match file.content with
        | .file _ => f.blocks.length = file.targets.length ∧ sameBlocks s file.targets f.blocks = none
        | .nonFile target => f.blocks.length = target.utf8ByteSize ∧ f.blocks ≠ []) := by
  unfold identicalTo
  by_cases hcount : f.version.counters = []
  · simp [hcount]
  · rw [if_neg hcount, or_iff_right hcount]
    by_cases hversion : file.version.identicalTo (Version.ofProto f.version) = true
    · rw [if_pos hversion, and_iff_right hversion]
      cases file.content with
      | file blocks =>
        dsimp only
        split
        · rename_i hlen
          rw [and_iff_right hlen]
        · rename_i hlen
          exact ⟨fun h => (by cases h), fun h => absurd h.1 hlen⟩
      | nonFile target =>
        dsimp only
        by_cases hlen : f.blocks.length = target.utf8ByteSize
        · rw [if_pos hlen, and_iff_right hlen]
          by_cases hnil : f.blocks = []
          · simp [hnil]
          · simp [hnil]
        · rw [if_neg hlen]
          exact ⟨fun h => (by cases h), fun h => absurd h.1 hlen⟩
    · rw [if_neg hversion]
      exact ⟨fun h => (by cases h), fun h => absurd h.1 hversion⟩

theorem makeStrictHash_isSome_iff {hash : Bytes} :
    (makeStrictHash hash).isSome = true ↔ hash.length ≤ digestLength := by
  unfold makeStrictHash
  split <;> simp_all

/-- The loop over the blocks fails at a hash that is too long, and only there. -/
theorem recordBlocks_isSome_iff {s : Store} {bs : List Proto.BlockInfo} :
    ∀ {news : List Proto.BlockInfo}, (bs.foldlM (recordBlock s) news).isSome = true ↔
      ∀ b ∈ bs, b.hash.length ≤ digestLength := by
  induction bs with
  | nil => exact fun {news} => ⟨fun _ b hb => absurd hb List.not_mem_nil, fun _ => rfl⟩
  | cons b bs ih =>
    intro news
    rw [List.foldlM_cons, List.forall_mem_cons, ← makeStrictHash_isSome_iff]
    cases hhash : makeStrictHash b.hash with
    | none => simp [recordBlock, hhash]
    | some hash =>
      obtain ⟨mid, hmid⟩ : ∃ mid, recordBlock s news b = some mid := by
        unfold recordBlock
        rw [hhash, Option.bind_eq_bind, Option.bind_some]
        split
        · exact ⟨_, rfl⟩
        · exact ⟨_, rfl⟩
      rw [hmid, Option.bind_eq_bind, Option.bind_some, ih]
      simp

/-- **One file**, whatever has been accepted before. -/
theorem processFile_cases (s : Store) (fi : FolderInfoId) (acc : Accepted) (f : Proto.FileInfo) :
    (Hazardous s fi f ∧ processFile s fi acc f = .error .assertion) ∨
    (Refused s fi f ∧ ¬ Hazardous s fi f ∧
      ∃ e, e ≠ Failure.assertion ∧ processFile s fi acc f = .error e) ∨
    (¬ Refused s fi f ∧ ¬ Hazardous s fi f ∧ ∃ acc', processFile s fi acc f = .ok acc' ∧
      acc'.files = if (s.infos fi).maxSequence < f.sequence then acc.files ++ [f] else acc.files) := by
  unfold processFile Refused Hazardous
  by_cases hknown : f.sequence ≤ (s.infos fi).maxSequence
  · simp only [if_pos hknown, if_neg (not_lt.mpr hknown)]
    cases hprev : s.byName fi f.name with
    | none => exact .inr (.inl ⟨by simp, by simp, .invalidSequence, by decide, rfl⟩)
    | some prev =>
      cases hid : identicalTo s (s.files prev) f with
      | none => exact .inl ⟨⟨prev, rfl, hid⟩, by dsimp only; rw [hid]⟩
      | some same =>
        cases same with
        | false =>
          exact .inr (.inl ⟨by simpa using hid, by simp [hid], .invalidSequence, by decide,
            by dsimp only; rw [hid]⟩)
        | true =>
          exact .inr (.inr ⟨by simp [hid], by simp [hid], acc, by dsimp only; rw [hid], rfl⟩)
  · simp only [if_neg hknown, if_pos (not_le.mp hknown)]
    by_cases hpos : f.sequence ≤ 0
    · rw [if_pos hpos]
      exact .inr (.inl ⟨.inl hpos, fun h => absurd h.1 (not_lt.mpr hpos), .invalidSequence, by decide,
        rfl⟩)
    · rw [if_neg hpos]
      by_cases hlong : ∀ b ∈ f.blocks, b.hash.length ≤ digestLength
      · have hnot : ¬ (0 < f.sequence ∧ ∃ b ∈ f.blocks, digestLength < b.hash.length) := by
          rintro ⟨-, b, hb, hlt⟩
          exact absurd (hlong b hb) (not_le.mpr hlt)
        obtain ⟨news, hnews⟩ := Option.isSome_iff_exists.mp
          ((@recordBlocks_isSome_iff s f.blocks acc.newBlocks).mpr hlong)
        simp only [hnews, expect, bind, Except.bind]
        by_cases hsize : isDownloadable f = true ∧ f.size ≠ sizeByBlocks f
        · rw [if_pos hsize]
          exact .inr (.inl ⟨.inr ⟨hlong, .inl hsize⟩, hnot, .mismatchFileSize, by decide, rfl⟩)
        · rw [if_neg hsize]
          by_cases hcount : f.version.counters = []
          · rw [if_pos hcount]
            exact .inr (.inl ⟨.inr ⟨hlong, .inr hcount⟩, hnot, .missingVersion, by decide, rfl⟩)
          · rw [if_neg hcount]
            refine .inr (.inr ⟨?_, hnot, _, rfl, rfl⟩)
            rintro (h | ⟨-, h | h⟩)
            · exact hpos h
            · exact hsize h
            · exact hcount h
      · have hnone : f.blocks.foldlM (recordBlock s) acc.newBlocks = none := by
          rw [← Option.not_isSome_iff_eq_none, recordBlocks_isSome_iff]
          exact hlong
        push Not at hlong
        exact .inl ⟨⟨not_le.mp hpos, hlong⟩, by simp only [hnone, expect]; rfl⟩

/-! ## The files of a message -/

/-- **The loop violates an assertion** exactly when a hazardous file stands before the first
refused one. -/
theorem fold_assertion_iff {s : Store} {fi : FolderInfoId} {fs : List Proto.FileInfo} :
    ∀ {acc : Accepted}, fs.foldlM (processFile s fi) acc = .error .assertion ↔
      ∃ pre f post, fs = pre ++ f :: post ∧ (∀ q ∈ pre, ¬ Refused s fi q) ∧ Hazardous s fi f := by
  induction fs with
  | nil =>
    intro acc
    refine ⟨fun h => (by cases h), ?_⟩
    rintro ⟨pre, f, post, heq, -⟩
    simp at heq
  | cons a fs ih =>
    intro acc
    rw [List.foldlM_cons]
    rcases processFile_cases s fi acc a with ⟨hhaz, hres⟩ | ⟨href, hnot, e, he, hres⟩ |
      ⟨href, hnot, acc', hres, -⟩
    · rw [hres]
      exact ⟨fun _ => ⟨[], a, fs, rfl, by simp, hhaz⟩, fun _ => rfl⟩
    · rw [hres]
      refine ⟨fun h => absurd (Except.error.inj h) he, ?_⟩
      rintro ⟨pre, f, post, heq, hpre, hf⟩
      cases pre with
      | nil =>
        cases heq
        exact absurd hf hnot
      | cons b pre =>
        cases heq
        exact absurd href (hpre a (List.mem_cons_self ..))
    · rw [hres]
      show fs.foldlM (processFile s fi) acc' = _ ↔ _
      rw [ih]
      constructor
      · rintro ⟨pre, f, post, rfl, hpre, hf⟩
        exact ⟨a :: pre, f, post, rfl, List.forall_mem_cons.mpr ⟨href, hpre⟩, hf⟩
      · rintro ⟨pre, f, post, heq, hpre, hf⟩
        cases pre with
        | nil =>
          cases heq
          exact absurd hf hnot
        | cons b pre =>
          cases heq
          exact ⟨pre, f, post, rfl, fun q hq => hpre q (List.mem_cons_of_mem _ hq), hf⟩

/-- **The loop comes to its end** exactly when no file is refused or hazardous. -/
theorem fold_ok_iff {s : Store} {fi : FolderInfoId} {fs : List Proto.FileInfo} :
    ∀ {acc : Accepted}, (∃ acc', fs.foldlM (processFile s fi) acc = .ok acc') ↔
      ∀ f ∈ fs, ¬ Refused s fi f ∧ ¬ Hazardous s fi f := by
  induction fs with
  | nil => exact fun {acc} => ⟨fun _ f hf => absurd hf List.not_mem_nil, fun _ => ⟨acc, rfl⟩⟩
  | cons a fs ih =>
    intro acc
    rw [List.foldlM_cons, List.forall_mem_cons]
    rcases processFile_cases s fi acc a with ⟨hhaz, hres⟩ | ⟨href, hnot, e, he, hres⟩ |
      ⟨href, hnot, acc', hres, -⟩
    · rw [hres]
      exact ⟨fun ⟨_, h⟩ => (by cases h), fun h => absurd hhaz h.1.2⟩
    · rw [hres]
      exact ⟨fun ⟨_, h⟩ => (by cases h), fun h => absurd href h.1.1⟩
    · rw [hres, and_iff_right ⟨href, hnot⟩]
      exact @ih acc'

/-- The new files have been accepted then. -/
theorem files_of_fold {s : Store} {fi : FolderInfoId} {fs : List Proto.FileInfo} :
    ∀ {acc acc' : Accepted}, fs.foldlM (processFile s fi) acc = .ok acc' →
      acc'.files = acc.files ++ fs.filter fun f => (s.infos fi).maxSequence < f.sequence := by
  induction fs with
  | nil =>
    rintro acc acc' ⟨⟩
    simp
  | cons a fs ih =>
    intro acc acc' h
    rw [List.foldlM_cons] at h
    rcases processFile_cases s fi acc a with ⟨-, hres⟩ | ⟨-, -, e, -, hres⟩ | ⟨-, -, mid, hres, hfiles⟩
    · rw [hres] at h
      cases h
    · rw [hres] at h
      cases h
    · rw [hres] at h
      rw [ih h, hfiles]
      by_cases hnew : (s.infos fi).maxSequence < a.sequence
      · simp [hnew]
      · simp [hnew]

/-- **Applying** the diff of an accepted message fails only for a file without a name and for
blocks that meet a directory or a link. -/
theorem apply_isSome_iff {c : Cluster} (hwf : c.WF) (hb : c.BlocksWF) {nextUuid : Nat → Uuid}
    {source : Sha256} {message : Proto.IndexBase} {folder : Folder} {fi : FolderInfoId} {d : Diff}
    (hfolder : c.folderById message.folder = some folder)
    (hfi : c.byDeviceId folder source = some fi)
    (hfresh : FreshUuids c.toStore fi nextUuid message.files.length)
    (hcreate : create c nextUuid source message = .ok d) :
    (∃ t, apply c d = some t) ↔ ∀ f ∈ d.files, Applicable fi c.toStore f := by
  obtain ⟨hcreated, hid, hpeer⟩ := create_ok hcreate hfolder hfi
  obtain ⟨s, happly, hstart⟩ := started_of_created hwf hb hfresh hcreated (by rw [hid]; exact hfolder)
    (by rw [hpeer]; exact hfi)
  have hwf' := hstart.same.wf hwf
  have hfiles : (∀ f ∈ d.files, Applicable fi c.toStore f) ↔
      ∀ p ∈ d.uuids.zip d.files, Applicable fi s p.2 := by
    conv_lhs => rw [← hstart.files, List.forall_mem_map]
    exact forall₂_congr fun p _ => (hstart.applicable_iff p.2).symm
  rw [happly, hfiles]
  constructor
  · rintro ⟨t, ht⟩
    by_contra hnot
    push Not at hnot
    rw [applyFiles_of_not_applicable hwf' hstart.distinct hstart.ready hnot] at ht
    cases ht
  · intro happ
    obtain ⟨t, ht, -⟩ := applyFiles_spec hwf' hstart.distinct hstart.ready happ
    exact ⟨t, ht⟩

/-! ## The validation -/

/-- No assertion fails, neither when the diff is built nor when it is applied. -/
def Validated (c : Cluster) (nextUuid : Nat → Uuid) (source : Sha256) (message : Proto.IndexBase) :
    Prop :=
  create c nextUuid source message ≠ .error .assertion ∧
    ∀ d, create c nextUuid source message = .ok d → ∃ t, apply c d = some t

/-- A message that the validation is good enough for: no hazardous file stands before the first
refused one, and if none is refused, then all new files are applicable. -/
def Harmless (s : Store) (fi : FolderInfoId) (files : List Proto.FileInfo) : Prop :=
  (∀ pre f post, latest files = pre ++ f :: post → (∀ q ∈ pre, ¬ Refused s fi q) →
    ¬ Hazardous s fi f) ∧
  ((∀ f ∈ latest files, ¬ Refused s fi f) →
    ∀ f ∈ latest files, (s.infos fi).maxSequence < f.sequence → Applicable fi s f)

/-- What `construct` relies on has been checked by the loop. -/
theorem construct_ok {s : Store} {fi : FolderInfoId} {fs : List Proto.FileInfo} {acc : Accepted}
    (h : Accepts s fi fs acc) (nextUuid : Nat → Uuid) (folderId : String) (peerId : Sha256) :
    ∃ d, construct s fi nextUuid folderId peerId acc = .ok d ∧ d.files = acc.files := by
  obtain ⟨white, hwhite⟩ := @strictHashes_isSome (acc.files.flatMap Proto.FileInfo.blocks) (by
    intro b hb
    obtain ⟨f, hf, hbf⟩ := List.mem_flatMap.mp hb
    obtain ⟨hash, hhash, -⟩ := h.covered f hf b hbf
    rw [hhash]
    rfl)
  obtain ⟨news, hnews⟩ := strictHashes_isSome h.strict
  unfold construct
  rw [hwhite, hnews]
  exact ⟨_, rfl, rfl⟩

/-- The message of a known folder: the outcome of `create`. -/
theorem create_eq {c : Cluster} {nextUuid : Nat → Uuid} {source : Sha256}
    {message : Proto.IndexBase} {folder : Folder} {fi : FolderInfoId}
    (hfolder : c.folderById message.folder = some folder)
    (hfi : c.byDeviceId folder source = some fi) :
    create c nextUuid source message = (do
      let acc ← (latest message.files).foldlM (processFile c.toStore fi) ⟨[], []⟩
      construct c.toStore fi nextUuid folder.id source acc) := by
  unfold create
  rw [hfolder]
  dsimp only
  rw [hfi]

/-- The files of a message that are new: of every name the last one, if its sequence is behind
the largest known one. -/
def announced (s : Store) (fi : FolderInfoId) (files : List Proto.FileInfo) : List Proto.FileInfo :=
  (latest files).filter fun f => (s.infos fi).maxSequence < f.sequence

theorem mem_announced {s : Store} {fi : FolderInfoId} {files : List Proto.FileInfo}
    {f : Proto.FileInfo} :
    f ∈ announced s fi files ↔ f ∈ latest files ∧ (s.infos fi).maxSequence < f.sequence := by
  simp [announced]

/-- An accepted message: every new file has been accepted. -/
theorem files_of_create {c : Cluster} {nextUuid : Nat → Uuid} {source : Sha256}
    {message : Proto.IndexBase} {folder : Folder} {fi : FolderInfoId} {d : Diff}
    (hfolder : c.folderById message.folder = some folder)
    (hfi : c.byDeviceId folder source = some fi)
    (hcreate : create c nextUuid source message = .ok d) :
    d.files = announced c.toStore fi message.files := by
  rw [create_eq hfolder hfi] at hcreate
  obtain ⟨acc, hacc, hd⟩ := Fallible.bind_ok.mp hcreate
  obtain ⟨d', hd', hfiles⟩ := construct_ok (accepts_of_create hacc) nextUuid folder.id source
  rw [hd'] at hd
  cases hd
  exact hfiles.trans (files_of_fold hacc)

/-- **The validation is complete** exactly for the harmless messages. -/
theorem validated_iff {c : Cluster} (hwf : c.WF) (hb : c.BlocksWF) {nextUuid : Nat → Uuid}
    {source : Sha256} {message : Proto.IndexBase}
    (hfresh : ∀ folder fi, c.folderById message.folder = some folder →
      c.byDeviceId folder source = some fi →
      FreshUuids c.toStore fi nextUuid message.files.length) :
    Validated c nextUuid source message ↔ ∀ folder fi, c.folderById message.folder = some folder →
      c.byDeviceId folder source = some fi → Harmless c.toStore fi message.files := by
  cases hfolder : c.folderById message.folder with
  | none =>
    have hcreate : create c nextUuid source message = .error .folderDoesNotExist := by
      unfold create
      rw [hfolder]
    refine ⟨fun _ folder fi h => (by cases h), fun _ => ⟨?_, fun d h => ?_⟩⟩
    · rw [hcreate]
      exact fun h => (by cases h)
    · rw [hcreate] at h
      cases h
  | some folder =>
    cases hfi : c.byDeviceId folder source with
    | none =>
      have hcreate : create c nextUuid source message = .error .folderIsNotShared := by
        unfold create
        rw [hfolder]
        dsimp only
        rw [hfi]
      refine ⟨fun _ folder' fi h hfi' => ?_, fun _ => ⟨?_, fun d h => ?_⟩⟩
      · cases h
        rw [hfi] at hfi'
        cases hfi'
      · rw [hcreate]
        exact fun h => (by cases h)
      · rw [hcreate] at h
        cases h
    | some fi =>
      have hone : (∀ folder' fi', some folder = some folder' → c.byDeviceId folder' source = some fi' →
          Harmless c.toStore fi' message.files) ↔ Harmless c.toStore fi message.files := by
        refine ⟨fun h => h folder fi rfl hfi, fun h folder' fi' hf hfi' => ?_⟩
        cases hf
        rw [hfi] at hfi'
        cases hfi'
        exact h
      have heq := @create_eq c nextUuid source message folder fi hfolder hfi
      -- the outcome of the loop decides about the outcome of `create`
      have hassert : create c nextUuid source message = .error .assertion ↔
          (latest message.files).foldlM (processFile c.toStore fi) ⟨[], []⟩ = .error .assertion := by
        rw [heq]
        cases hacc : (latest message.files).foldlM (processFile c.toStore fi) ⟨[], []⟩ with
        | error e => exact ⟨fun h => congrArg _ (Except.error.inj h), fun h => congrArg _ (Except.error.inj h)⟩
        | ok acc =>
          obtain ⟨d, hd, -⟩ := construct_ok (accepts_of_create hacc) nextUuid folder.id source
          show construct c.toStore fi nextUuid folder.id source acc = _ ↔ _
          rw [hd]
          exact ⟨fun h => (by cases h), fun h => (by cases h)⟩
      rw [hone]
      have hfirst : create c nextUuid source message ≠ .error .assertion ↔
          ∀ pre f post, latest message.files = pre ++ f :: post →
            (∀ q ∈ pre, ¬ Refused c.toStore fi q) → ¬ Hazardous c.toStore fi f := by
        rw [ne_eq, hassert, fold_assertion_iff]
        push Not
        rfl
      unfold Validated Harmless
      rw [hfirst]
      refine and_congr_right fun hsafe => ⟨fun happly hnone f hf hnew => ?_, fun h d hcreate => ?_⟩
      · -- nothing is refused, and so nothing is hazardous
        have hall : ∀ f ∈ latest message.files, ¬ Refused c.toStore fi f ∧ ¬ Hazardous c.toStore fi f := by
          intro f hf
          obtain ⟨pre, post, hsplit⟩ := List.append_of_mem hf
          refine ⟨hnone f hf, hsafe pre f post hsplit fun q hq => hnone q ?_⟩
          rw [hsplit]
          exact List.mem_append_left _ hq
        obtain ⟨acc, hacc⟩ := (@fold_ok_iff c.toStore fi _ ⟨[], []⟩).mpr hall
        obtain ⟨d, hd, hfiles⟩ := construct_ok (accepts_of_create hacc) nextUuid folder.id source
        have hcreate : create c nextUuid source message = .ok d := by
          rw [heq, hacc]
          exact hd
        refine (apply_isSome_iff hwf hb hfolder hfi (hfresh folder fi hfolder hfi) hcreate).mp
          (happly d hcreate) f ?_
        rw [hfiles, files_of_fold hacc]
        simp [hf, hnew]
      · rw [apply_isSome_iff hwf hb hfolder hfi (hfresh folder fi hfolder hfi) hcreate]
        rw [heq] at hcreate
        obtain ⟨acc, hacc, hd⟩ := Fallible.bind_ok.mp hcreate
        obtain ⟨d', hd', hfiles⟩ := construct_ok (accepts_of_create hacc) nextUuid folder.id source
        rw [hd'] at hd
        cases hd
        have hall := fold_ok_iff.mp ⟨acc, hacc⟩
        intro f hf
        rw [hfiles, files_of_fold hacc] at hf
        have hf : f ∈ latest message.files ∧ (c.infos fi).maxSequence < f.sequence := by
          simpa using hf
        exact h (fun q hq => (hall q hq).1) f hf.1 hf.2

/-- A message with one new file. -/
theorem validated_of_announced :
    Validated newPeer (fun k => Uuid.ofByte k.toUInt8) [2] ⟨"docs", [announce "a" 1 7]⟩ := by
  have hfresh : ∀ folder fi, newPeer.folderById "docs" = some folder →
      newPeer.byDeviceId folder [2] = some fi →
      FreshUuids newPeer.toStore fi (fun k => Uuid.ofByte k.toUInt8) 1 := by
    rintro folder fi - -
    exact ⟨by decide, by simp [newPeer, Store.initial]⟩
  refine (@validated_iff newPeer (WF.initial fun _ => rfl) (BlocksWF.initial _) _ [2]
    ⟨"docs", [announce "a" 1 7]⟩ hfresh).mpr ?_
  rintro folder fi - -
  have hone : latest [announce "a" 1 7] = [announce "a" 1 7] := by decide
  refine ⟨fun pre f post heq _ hf => ?_, fun _ f hf _ => ?_⟩
  · have hmem : f ∈ [announce "a" 1 7] := by
      rw [← hone, heq]
      simp
    have hnew : ¬ (announce "a" 1 7).sequence ≤ (newPeer.infos fi).maxSequence :=
      show ¬ (1 : Int) ≤ 0 by decide
    rw [List.mem_singleton.mp hmem, Hazardous, if_neg hnew] at hf
    obtain ⟨-, b, hb, hlong⟩ := hf
    rw [List.mem_singleton.mp hb] at hlong
    exact absurd hlong (by decide)
  · rw [hone, List.mem_singleton] at hf
    subst hf
    exact ⟨by decide, fun _ _ prev hprev => by cases hprev⟩

/-- A hash of 33 bytes violates the assertion of `make_strict_hash`, and a file without a name
that of the path cache. -/
theorem not_validated :
    create newPeer (fun k => Uuid.ofByte k.toUInt8) [2]
        ⟨"docs", [{ announce "a" 1 7 with blocks := [⟨5, List.replicate 33 7, 0⟩] }]⟩ =
      .error .assertion ∧
    create newPeer (fun k => Uuid.ofByte k.toUInt8) [2] ⟨"docs", [announce "" 1 7]⟩ =
      .ok (announceDiff [announce "" 1 7]) ∧
    apply newPeer (announceDiff [announce "" 1 7]) = none ∧
    ¬ Validated newPeer (fun k => Uuid.ofByte k.toUInt8) [2] ⟨"docs", [announce "" 1 7]⟩ := by
  have hcreate : create newPeer (fun k => Uuid.ofByte k.toUInt8) [2] ⟨"docs", [announce "" 1 7]⟩ =
      .ok (announceDiff [announce "" 1 7]) := rfl
  have happly : apply newPeer (announceDiff [announce "" 1 7]) = none := rfl
  refine ⟨rfl, hcreate, happly, fun hvalid => ?_⟩
  obtain ⟨t, ht⟩ := hvalid.2 _ hcreate
  rw [happly] at ht
  cases ht

end UpdateFolder

end SyncSpirit
