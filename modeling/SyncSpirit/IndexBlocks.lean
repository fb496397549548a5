import SyncSpirit.IndexValidation
import Mathlib

/-!
# The blocks of announced files

What an accepted and applied message leaves in the block slots of the files. The slots are
reserved whenever a size is announced, but filled only for a regular file that is not deleted
(`noneDangling_iff`); and a file knows the sizes of its blocks only through the block objects,
which belong to whoever announced a hash first (`tiled_iff`).
-/

namespace SyncSpirit

namespace Store

/-- The file has no null slot. -/
def SlotsFilled (file : FileInfo) : Prop := ∀ v ∈ file.slots, v ≠ none

/-- No file of any folder info has a null slot. -/
def NoneDangling (s : Store) : Prop := ∀ fi, ∀ g ∈ (s.infos fi).files, SlotsFilled (s.files g)

/-- `file_info_t::get_block_offset` (file_info.cpp:204–209): every block before it is as long
as the first one. The product of a 32-bit size and an index fits 64 bits. -/
def getBlockOffset (s : Store) (file : FileInfo) (index : Nat) : Option Int :=
  if file.isFile then
    match file.targets.head? with
    | some first => (s.blockSize first).map fun size => size * index
    | none => none
  else none

end Store

namespace UpdateFolder

open Store

/-! ## Null slots -/

/-- A deleted regular file that comes with a size and with blocks. -/
def Dangling (f : Proto.FileInfo) : Prop :=
  asFlags f.type = .file ∧ f.deleted = true ∧ f.size ≠ 0 ∧ f.blocks ≠ []

theorem Carries.filled_iff {s : Store} {uuid : Uuid} {f : Proto.FileInfo} {file : FileInfo}
    (hc : Carries s uuid f file)
    (hknown : ∀ b ∈ f.blocks, ((makeStrictHash b.hash).bind s.byHash).isSome = true) :
    SlotsFilled file ↔ ¬ Dangling f := by
  unfold SlotsFilled
  rw [← targets_ne_none_iff, hc.targets, blocksOf]
  by_cases ha : Assigned f
  · have hnot : ¬ Dangling f := fun hd => absurd (ha.2.1.symm.trans hd.2.1) (by decide)
    rw [if_pos ha]
    refine ⟨fun _ => hnot, fun _ v hv => ?_⟩
    obtain ⟨b, hb, rfl⟩ := List.mem_map.mp hv
    exact Option.isSome_iff_ne_none.mp (hknown b hb)
  · rw [if_neg ha]
    by_cases hreserved : asFlags f.type = .file ∧ f.size ≠ 0
    · -- reserved, and nobody fills them
      have hdeleted : f.deleted = true := by
        by_contra hdel
        exact ha ⟨hreserved.1, by simpa using hdel, hreserved.2⟩
      rw [if_pos hreserved]
      cases hblocks : f.blocks with
      | nil =>
        refine ⟨fun _ hd => hd.2.2.2 hblocks, fun _ v hv => ?_⟩
        simp at hv
      | cons b bs =>
        refine ⟨fun h => absurd rfl (h none (by simp)), fun h => absurd ?_ h⟩
        exact ⟨hreserved.1, hdeleted, hreserved.2, by rw [hblocks]; simp⟩
    · rw [if_neg hreserved]
      refine ⟨fun _ hd => hreserved ⟨hd.1, hd.2.2.1⟩, fun _ v hv => ?_⟩
      cases hv

theorem Processed.known {c : Cluster} {fi : FolderInfoId} {message : Proto.IndexBase} {d : Diff}
    {s t : Store} (h : Processed c fi message d s t) {f : Proto.FileInfo} (hf : f ∈ d.files) :
    ∀ b ∈ f.blocks, ((makeStrictHash b.hash).bind s.byHash).isSome = true := by
  intro b hb
  obtain ⟨hash, hhash, -, hsome⟩ := h.started.sizes f hf b hb
  rw [hhash]
  exact hsome

/-- **No dangling slots**: no file has a null slot after a message exactly when no file that the
message leaves alone has had one, and no file that it brings is deleted and has a size and
blocks. -/
theorem noneDangling_iff {c : Cluster} (hwf : c.WF) (hb : c.BlocksWF) {nextUuid : Nat → Uuid}
    {source : Sha256} {message : Proto.IndexBase} {folder : Folder} {fi : FolderInfoId} {d : Diff}
    (hfolder : c.folderById message.folder = some folder)
    (hfi : c.byDeviceId folder source = some fi)
    (hfresh : FreshUuids c.toStore fi nextUuid message.files.length)
    (hcreate : create c nextUuid source message = .ok d) {t : Store} (ht : apply c d = some t) :
    t.NoneDangling ↔
      (∀ fi', ∀ g ∈ (c.infos fi').files,
        (fi' = fi → ∀ f ∈ announced c.toStore fi message.files, f.name ≠ (c.files g).name) →
          SlotsFilled (c.files g)) ∧
      ∀ f, Lasting (announced c.toStore fi message.files) f → ¬ Dangling f := by
  rw [← files_of_create hfolder hfi hcreate]
  obtain ⟨s, h⟩ := processed_of_apply hwf hb hfolder hfi hfresh hcreate ht
  have hmem : ∀ f, Lasting d.files f → f ∈ d.files := by
    rintro f ⟨pre, post, heq, -⟩
    rw [heq]
    simp
  constructor
  · intro hall
    refine ⟨fun fi' g hg hkept => ?_, fun f hf => ?_⟩
    · by_cases hfi' : fi' = fi
      · subst hfi'
        have hfile := h.files_other hg (hkept rfl)
        rw [← hfile]
        exact hall fi' g ((h.other (hkept rfl) g).mpr ⟨hg, rfl⟩).1
      · obtain ⟨hinfos, hfiles⟩ := h.elsewhere hfi'
        rw [← hfiles g hg]
        exact hall fi' g (by rw [hinfos]; exact hg)
    · obtain ⟨uuid, g, hg, hc⟩ := h.lasting hf
      exact (hc.filled_iff (h.known (hmem f hf))).mp (hall fi g hg)
  · rintro ⟨hkept, hnew⟩ fi' g hg
    by_cases hfi' : fi' = fi
    · subst hfi'
      by_cases hname : ∃ f ∈ d.files, f.name = (t.files g).name
      · obtain ⟨f, hf, hname⟩ := hname
        obtain ⟨uuid, hc⟩ := h.carries hf hg hname.symm
        exact (hc.filled_iff (h.known hf)).mpr (hnew f (h.lasting_of_mem hf hg hname.symm))
      · push Not at hname
        obtain ⟨hgc, hcname⟩ := (h.other hname g).mp ⟨hg, rfl⟩
        have hnot : ∀ f ∈ d.files, f.name ≠ (c.files g).name := by
          rw [hcname]
          exact hname
        rw [h.files_other hgc hnot]
        exact hkept fi' g hgc fun _ => hnot
    · obtain ⟨hinfos, hfiles⟩ := h.elsewhere hfi'
      rw [hinfos] at hg
      rw [hfiles g hg]
      exact hkept fi' g hg fun heq => absurd heq hfi'

/-- A file that gets its blocks. -/
theorem noneDangling_of_announced :
    ∃ t, apply newPeer (announceDiff [announce "a" 1 7]) = some t ∧ t.NoneDangling := by
  have hfresh : FreshUuids newPeer.toStore 0 (fun k => Uuid.ofByte k.toUInt8) 1 :=
    ⟨by decide, by simp [newPeer, Store.initial]⟩
  have hcreate : create newPeer (fun k => Uuid.ofByte k.toUInt8) [2] ⟨"docs", [announce "a" 1 7]⟩ =
      .ok (announceDiff [announce "a" 1 7]) := rfl
  obtain ⟨t, ht⟩ : ∃ t, apply newPeer (announceDiff [announce "a" 1 7]) = some t :=
    Option.isSome_iff_exists.mp (by decide)
  refine ⟨t, ht, (@noneDangling_iff newPeer (WF.initial fun _ => rfl) (BlocksWF.initial _) _ _ _
    ⟨"docs", default, [0]⟩ 0 _ rfl rfl hfresh hcreate t ht).mpr ⟨?_, ?_⟩⟩
  · rintro fi' g hg
    cases hg
  · rintro f ⟨pre, post, heq, -⟩ hd
    have hmem : f ∈ (announceDiff [announce "a" 1 7]).files := by
      rw [@files_of_create newPeer _ _ _ ⟨"docs", default, [0]⟩ 0 _ rfl rfl hcreate, heq]
      simp
    rw [List.mem_singleton.mp hmem] at hd
    exact absurd hd.2.1 (by decide)

/-- A deleted file that still has its size and its block: the slot stays null, and `as_proto`
dereferences it. -/
theorem dangling_of_deleted :
    create newPeer (fun k => Uuid.ofByte k.toUInt8) [2]
        ⟨"docs", [{ announce "a" 1 7 with deleted := true }]⟩ =
      .ok (announceDiff [{ announce "a" 1 7 with deleted := true }]) ∧
    ∃ t, apply newPeer (announceDiff [{ announce "a" 1 7 with deleted := true }]) = some t ∧
      (t.infos 0).files.map (fun g => (t.asProto (t.files g) true).isSome) = [false] ∧
      ¬ t.NoneDangling := by
  have hrun : (apply newPeer (announceDiff [{ announce "a" 1 7 with deleted := true }])).map
      (fun t => (t.infos 0).files.map fun g => (t.asProto (t.files g) true).isSome) =
        some [false] := by decide
  obtain ⟨t, ht, hrun⟩ := Option.map_eq_some_iff.mp hrun
  refine ⟨rfl, t, ht, hrun, fun hall => ?_⟩
  obtain ⟨g, hg, hnone⟩ : ∃ g ∈ (t.infos 0).files, (t.asProto (t.files g) true).isSome = false := by
    have hmem : false ∈ (t.infos 0).files.map fun g => (t.asProto (t.files g) true).isSome := by
      rw [hrun]
      simp
    exact List.mem_map.mp hmem
  obtain ⟨p, hp⟩ := asProto_isSome_iff.mpr (hall 0 g hg)
  rw [hp] at hnone
  cases hnone

/-! ## The sizes of blocks -/

theorem knownSize_append (s : Store) (news bs : List Proto.BlockInfo) (hash : Bytes) :
    knownSize s (news ++ bs) hash = (knownSize s news hash).or
      ((bs.find? fun b => makeStrictHash b.hash = some hash).map
        fun b => (b.size.toUInt32.toNat : Int)) := by
  unfold knownSize
  rw [List.find?_append, Option.map_or, Option.or_assoc]

/-- A block that is not remembered would not be found anyway. -/
theorem knownSize_recordBlock {s : Store} {news news' : List Proto.BlockInfo} {b : Proto.BlockInfo}
    (h : recordBlock s news b = some news') (hash : Bytes) :
    knownSize s news' hash = knownSize s (news ++ [b]) hash := by
  obtain ⟨strict, hstrict, h⟩ := Option.bind_eq_some_iff.mp h
  split at h
  · cases h
    rfl
  · rename_i hold
    cases h
    rw [knownSize_append]
    by_cases heq : strict = hash
    · subst heq
      -- the hash has a block already
      have hsome : (knownSize s news strict).isSome = true := by
        rw [knownSize, Option.isSome_or, Bool.or_eq_true, sizeAt_isSome]
        by_contra hnone
        push Not at hnone
        refine hold ⟨by simpa using hnone.1, fun b' hb' hstrict' => hnone.2 ?_⟩
        rw [Option.isSome_map, List.find?_isSome]
        exact ⟨b', hb', by simpa using hstrict'⟩
      obtain ⟨n, hn⟩ := Option.isSome_iff_exists.mp hsome
      rw [hn, Option.some_or]
    · have hne : ¬ makeStrictHash b.hash = some hash := by
        rw [hstrict]
        simpa using heq
      simp [hne]

theorem knownSize_recordBlocks {s : Store} {bs : List Proto.BlockInfo} :
    ∀ {news news' : List Proto.BlockInfo}, bs.foldlM (recordBlock s) news = some news' →
      ∀ hash, knownSize s news' hash = knownSize s (news ++ bs) hash := by
  induction bs with
  | nil =>
    rintro news news' ⟨⟩ hash
    rw [List.append_nil]
  | cons b bs ih =>
    intro news news' h hash
    rw [List.foldlM_cons] at h
    obtain ⟨mid, hmid, h⟩ := Option.bind_eq_some_iff.mp h
    rw [ih h, knownSize_append, knownSize_recordBlock hmid, ← knownSize_append, List.append_assoc]
    rfl

/-- One file of pass 2. -/
theorem knownSize_processFile {s : Store} {fi : FolderInfoId} {acc acc' : Accepted}
    {f : Proto.FileInfo} (h : processFile s fi acc f = .ok acc') (hash : Bytes) :
    knownSize s acc'.newBlocks hash = knownSize s (acc.newBlocks ++
      if (s.infos fi).maxSequence < f.sequence then f.blocks else []) hash := by
  unfold processFile at h
  split at h
  · rename_i hknown
    have hsame : acc' = acc := by
      split at h
      · cases h
      · split at h
        · cases h
        · cases h
          rfl
        · cases h
    rw [hsame, if_neg (not_lt.mpr hknown), List.append_nil]
  · rename_i hnew
    split at h
    · cases h
    · obtain ⟨news, hnews, h⟩ := Fallible.bind_ok.mp h
      split at h
      · cases h
      · split at h
        · cases h
        · cases h
          rw [if_pos (not_le.mp hnew)]
          exact knownSize_recordBlocks (expect_ok.mp hnews) hash

theorem knownSize_fold {s : Store} {fi : FolderInfoId} {fs : List Proto.FileInfo} :
    ∀ {acc acc' : Accepted}, fs.foldlM (processFile s fi) acc = .ok acc' → ∀ hash,
      knownSize s acc'.newBlocks hash = knownSize s (acc.newBlocks ++
        (fs.filter fun f => (s.infos fi).maxSequence < f.sequence).flatMap Proto.FileInfo.blocks)
          hash := by
  induction fs with
  | nil =>
    rintro acc acc' ⟨⟩ hash
    simp
  | cons f fs ih =>
    intro acc acc' h hash
    rw [List.foldlM_cons] at h
    obtain ⟨mid, hmid, h⟩ := Fallible.bind_ok.mp h
    rw [ih h, knownSize_append, knownSize_processFile hmid, ← knownSize_append, List.append_assoc]
    by_cases hnew : (s.infos fi).maxSequence < f.sequence
    · simp [hnew]
    · simp [hnew]

/-- **The sizes of the new blocks** are those of the announced ones: the first block with a hash
decides. -/
theorem sizeOf_of_create {c : Cluster} {nextUuid : Nat → Uuid} {source : Sha256}
    {message : Proto.IndexBase} {folder : Folder} {fi : FolderInfoId} {d : Diff}
    (hfolder : c.folderById message.folder = some folder)
    (hfi : c.byDeviceId folder source = some fi)
    (hcreate : create c nextUuid source message = .ok d) (b : Proto.BlockInfo) :
    sizeOf c.toStore d.blocks b =
      sizeOf c.toStore ((announced c.toStore fi message.files).flatMap Proto.FileInfo.blocks) b := by
  rw [create_eq hfolder hfi] at hcreate
  obtain ⟨acc, hacc, hcreate⟩ := Fallible.bind_ok.mp hcreate
  obtain ⟨white, -, hcreate⟩ := Fallible.bind_ok.mp hcreate
  obtain ⟨news, -, hcreate⟩ := Fallible.bind_ok.mp hcreate
  rw [Fallible.pure_ok] at hcreate
  subst hcreate
  unfold sizeOf
  congr 2
  funext hash
  exact knownSize_fold hacc hash

/-! ## Sizes and offsets -/

/-- Steps of one length add up to the multiples of it, up to the last one. -/
theorem sum_take_iff {c : Int} {l : List Int} :
    (∀ i < l.length, c * i = (l.take i).sum) ↔ ∀ x ∈ l.dropLast, x = c := by
  constructor
  · intro h x hx
    obtain ⟨i, hi⟩ := List.mem_iff_getElem?.mp hx
    have hlt : i < l.dropLast.length := (List.getElem?_eq_some_iff.mp hi).1
    rw [List.length_dropLast] at hlt
    rw [List.getElem?_dropLast, if_pos hlt] at hi
    have hnext := h (i + 1) (by omega)
    rw [List.take_add_one, hi, List.sum_append, ← h i (by omega)] at hnext
    push_cast at hnext
    rw [Int.mul_add, Int.mul_one] at hnext
    simpa using (Int.add_left_cancel hnext).symm
  · intro h i hi
    have htake : l.take i = l.dropLast.take i := by
      rw [List.dropLast_eq_take, List.take_take, Nat.min_eq_left (by omega)]
    have hlen : (l.dropLast.take i).length = i := by
      rw [List.length_take, List.length_dropLast]
      omega
    rw [htake, List.sum_eq_card_nsmul _ c fun x hx => h x (List.mem_of_mem_take hx), hlen]
    simp [mul_comm]

/-- Accepted files have passed the check of the size. -/
theorem size_of_accepted {s : Store} {fi : FolderInfoId} {fs : List Proto.FileInfo} {acc : Accepted}
    (h : fs.foldlM (processFile s fi) ⟨[], []⟩ = .ok acc) :
    ∀ f ∈ acc.files, isDownloadable f = true → f.size = sizeByBlocks f := by
  have hstep : ∀ (done : List Proto.FileInfo) (b : Accepted) (a : Proto.FileInfo) (b' : Accepted),
      (∀ f ∈ b.files, isDownloadable f = true → f.size = sizeByBlocks f) →
      processFile s fi b a = .ok b' →
      ∀ f ∈ b'.files, isDownloadable f = true → f.size = sizeByBlocks f := by
    intro done b a b' hb hstep
    unfold processFile at hstep
    split at hstep
    · split at hstep
      · cases hstep
      · split at hstep
        · cases hstep
        · cases hstep
          exact hb
        · cases hstep
    · split at hstep
      · cases hstep
      · obtain ⟨news, -, hstep⟩ := Fallible.bind_ok.mp hstep
        split at hstep
        · cases hstep
        · rename_i hsize
          split at hstep
          · cases hstep
          · cases hstep
            intro f hf hdown
            rcases List.mem_append.mp hf with hf | hf
            · exact hb f hf hdown
            · rw [List.mem_singleton.mp hf] at hdown ⊢
              by_contra hne
              exact hsize ⟨hdown, hne⟩
  have hstart : ∀ f ∈ (⟨[], []⟩ : Accepted).files, isDownloadable f = true → f.size = sizeByBlocks f :=
    fun f hf => absurd hf List.not_mem_nil
  exact @Fallible.foldlM_ok_inv Failure Proto.FileInfo Accepted (processFile s fi)
    (fun _ acc => ∀ f ∈ acc.files, isDownloadable f = true → f.size = sizeByBlocks f) hstep fs []
    ⟨[], []⟩ acc hstart h

/-- What the blocks before the last one come to. -/
def spanOf (s : Store) (news : List Proto.BlockInfo) (f : Proto.FileInfo) (first : Proto.BlockInfo) : Int :=
  (f.blocks.length - 1 : Nat) * sizeOf s news first

/-- The announced sizes are those that the model has for the blocks: every block but the last
one is as long as the block object of the first one, and the last one as its own, less what these
blocks come to above 32 bits. As a block has less than 4 GiB, the last size is negative then. -/
def Tiled (s : Store) (news : List Proto.BlockInfo) (f : Proto.FileInfo) : Prop :=
  f.size = 0 ∨ ∀ first last, f.blocks.head? = some first → f.blocks.getLast? = some last →
    (∀ b ∈ f.blocks.dropLast, b.size.toInt = sizeOf s news first) ∧
      last.size.toInt = sizeOf s news last - 2 ^ 32 * (spanOf s news f first / 2 ^ 32)

theorem isDownloadable_iff {f : Proto.FileInfo} :
    isDownloadable f = true ↔ f.deleted = false ∧ f.invalid = false ∧ f.type = .file := by
  simp [isDownloadable, and_assoc]

/-- The offset of a block of a file that has its blocks. -/
theorem Started.getBlockOffset {fi : FolderInfoId} {s t : Store} {d : Diff} (h : Started fi s d t)
    {f : Proto.FileInfo} (hf : f ∈ d.files) (ha : Assigned f) {first : Proto.BlockInfo}
    (hfirst : f.blocks.head? = some first) {uuid : Uuid} {file : FileInfo}
    (hc : Carries t uuid f file) (i : Nat) :
    t.getBlockOffset file i = some (sizeOf s d.blocks first * i) := by
  have hfile : file.isFile = true := isFile_iff.mpr (hc.type.trans ha.1)
  unfold Store.getBlockOffset
  rw [if_pos hfile, hc.targets, blocksOf, if_pos ha, List.head?_map, hfirst, Option.map_some]
  dsimp only
  rw [h.blockSize hf (List.mem_of_head? hfirst)]
  rfl

theorem SameBlocks.getBlockOffset {s t : Store} (h : SameBlocks s t) (file : FileInfo) (i : Nat) :
    t.getBlockOffset file i = s.getBlockOffset file i := by
  have hblock : t.blockSize = s.blockSize := by
    funext v
    simp only [blockSize, BlockInfo.getSize, h.size]
  unfold Store.getBlockOffset
  rw [hblock]

/-- **Sizes and offsets**: for an accepted live regular file they are the announced ones exactly
when the block objects have the announced sizes, all the same but for the last one, and the blocks
before the last one come to less than 4 GiB. -/
theorem tiled_iff {c : Cluster} (hwf : c.WF) (hb : c.BlocksWF) {nextUuid : Nat → Uuid}
    {source : Sha256} {message : Proto.IndexBase} {folder : Folder} {fi : FolderInfoId} {d : Diff}
    (hfolder : c.folderById message.folder = some folder)
    (hfi : c.byDeviceId folder source = some fi)
    (hfresh : FreshUuids c.toStore fi nextUuid message.files.length)
    (hcreate : create c nextUuid source message = .ok d) {t : Store} (ht : apply c d = some t)
    {f : Proto.FileInfo} (hf : f ∈ announced c.toStore fi message.files)
    (hlive : isDownloadable f = true) {g : FileId}
    (hg : g ∈ (t.infos fi).files) (hname : (t.files g).name = f.name) :
    (t.getSize (t.files g) = some f.size ∧ ∀ i < (t.files g).slots.length,
      t.getBlockOffset (t.files g) i = some ((f.blocks.take i).map fun b => b.size.toInt).sum) ↔
      Tiled c.toStore ((announced c.toStore fi message.files).flatMap Proto.FileInfo.blocks) f := by
  have htiled : Tiled c.toStore
      ((announced c.toStore fi message.files).flatMap Proto.FileInfo.blocks) f ↔
        Tiled c.toStore d.blocks f := by
    unfold Tiled spanOf
    simp only [sizeOf_of_create hfolder hfi hcreate]
  rw [htiled]
  rw [← files_of_create hfolder hfi hcreate] at hf
  obtain ⟨s, h⟩ := processed_of_apply hwf hb hfolder hfi hfresh hcreate ht
  obtain ⟨uuid, hc⟩ := h.carries hf hg hname
  obtain ⟨hdel, hinv, htype⟩ := isDownloadable_iff.mp hlive
  have hsum : f.size = (f.blocks.map fun b => b.size.toInt).sum := by
    unfold create at hcreate
    rw [hfolder] at hcreate
    dsimp only at hcreate
    rw [hfi] at hcreate
    obtain ⟨acc, hacc, hcreate⟩ := Fallible.bind_ok.mp hcreate
    have hfiles : d.files = acc.files := by
      obtain ⟨white, -, hcreate⟩ := Fallible.bind_ok.mp hcreate
      obtain ⟨news, -, hcreate⟩ := Fallible.bind_ok.mp hcreate
      rw [Fallible.pure_ok] at hcreate
      rw [← hcreate]
    exact size_of_accepted hacc f (hfiles ▸ hf) hlive
  rw [h.loop.blocks.getSize, h.started.getSize hf hc]
  have hlen : (t.files g).slots.length = (blocksOf s f).length := by
    rw [← hc.targets, FileInfo.targets, List.length_map]
  rw [hlen]
  by_cases hsize : f.size = 0
  · have hnot : ¬ Assigned f := fun ha => ha.2.2 hsize
    have hnil : blocksOf s f = [] := by
      rw [blocksOf, if_neg hnot, if_neg fun ha => ha.2 hsize]
    rw [hnil, reportedSize, if_neg fun ha => hnot ha.1, hsize]
    exact ⟨fun _ => .inl hsize, fun _ => ⟨rfl, fun i hi => absurd hi (Nat.not_lt_zero i)⟩⟩
  · have ha : Assigned f := ⟨by rw [htype]; rfl, hdel, hsize⟩
    obtain ⟨first, rest, hblocks⟩ : ∃ first rest, f.blocks = first :: rest := by
      refine List.exists_cons_of_ne_nil fun hnil => hsize ?_
      rw [hsum, hnil]
      rfl
    obtain ⟨last, hlast⟩ : ∃ last, f.blocks.getLast? = some last := by
      rw [← Option.isSome_iff_exists, hblocks]
      simp
    have hfirst : f.blocks.head? = some first := by rw [hblocks]; rfl
    have hoffset : ∀ i, t.getBlockOffset (t.files g) i = some (sizeOf c.toStore d.blocks first * i) := by
      intro i
      rw [SameBlocks.getBlockOffset h.loop.blocks]
      exact h.started.getBlockOffset hf ha hfirst hc i
    have hoffsets : (∀ i < (blocksOf s f).length, t.getBlockOffset (t.files g) i =
        some ((f.blocks.take i).map fun b => b.size.toInt).sum) ↔
        ∀ b ∈ f.blocks.dropLast, b.size.toInt = sizeOf c.toStore d.blocks first := by
      have hmap := @sum_take_iff (sizeOf c.toStore d.blocks first) (f.blocks.map fun b => b.size.toInt)
      rw [← List.map_dropLast, List.forall_mem_map, List.length_map] at hmap
      rw [← hmap, blocksOf, if_pos ha, List.length_map]
      simp only [hoffset, Option.some.injEq, List.map_take]
    have hreported : reportedSize c.toStore d.blocks f = sizeOf c.toStore d.blocks last +
        spanOf c.toStore d.blocks f first % 2 ^ 32 := by
      rw [reportedSize, if_pos ⟨ha, hinv⟩, hfirst, hlast]
      rfl
    -- the announced sizes, when all but the last one are the same
    have htotal : (∀ b ∈ f.blocks.dropLast, b.size.toInt = sizeOf c.toStore d.blocks first) →
        f.size = last.size.toInt + spanOf c.toStore d.blocks f first := by
      intro hsteps
      have hsplit : f.blocks = f.blocks.dropLast ++ [last] :=
        (List.dropLast_append_getLast? last hlast).symm
      have hinit : (f.blocks.dropLast.map fun b => b.size.toInt).sum =
          spanOf c.toStore d.blocks f first := by
        unfold spanOf
        rw [List.sum_eq_card_nsmul _ (sizeOf c.toStore d.blocks first), List.length_map,
          List.length_dropLast, nsmul_eq_mul]
        intro x hx
        obtain ⟨b, hb, rfl⟩ := List.mem_map.mp hx
        exact hsteps b hb
      rw [hsum, hsplit, List.map_append, List.sum_append, hinit]
      simp [Int.add_comm]
    rw [hoffsets, hreported, Option.some.injEq]
    unfold Tiled
    rw [or_iff_right hsize]
    constructor
    · rintro ⟨hreported, hsteps⟩ first' last' hfirst' hlast'
      rw [hfirst] at hfirst'
      rw [hlast] at hlast'
      cases hfirst'
      cases hlast'
      rw [htotal hsteps] at hreported
      exact ⟨hsteps, by omega⟩
    · intro hall
      obtain ⟨hsteps, hend⟩ := hall first last hfirst hlast
      rw [htotal hsteps, hend]
      exact ⟨by omega, hsteps⟩

/-- A regular file with three blocks. -/
def threeBlocks (x y z : Int32) : Proto.FileInfo :=
  { announce "a" 1 7 with
    size := x.toInt + y.toInt + z.toInt
    blocks := [⟨x, [7], 0⟩, ⟨y, [8], x.toInt⟩, ⟨z, [9], x.toInt + y.toInt⟩] }

/-- Blocks of 5, 5 and 3 bytes. -/
theorem tiled_of_uniform :
    ∃ t, apply newPeer (announceDiff [threeBlocks 5 5 3]) = some t ∧ ∀ g ∈ (t.infos 0).files,
      (t.files g).name = "a" → t.getSize (t.files g) = some 13 ∧
        t.getBlockOffset (t.files g) 2 = some 10 := by
  have hfresh : FreshUuids newPeer.toStore 0 (fun k => Uuid.ofByte k.toUInt8) 1 :=
    ⟨by decide, by simp [newPeer, Store.initial]⟩
  have hcreate : create newPeer (fun k => Uuid.ofByte k.toUInt8) [2] ⟨"docs", [threeBlocks 5 5 3]⟩ =
      .ok (announceDiff [threeBlocks 5 5 3]) := rfl
  have hlen : (apply newPeer (announceDiff [threeBlocks 5 5 3])).map
      (fun t => (t.infos 0).files.map fun g => (t.files g).slots.length) = some [3] := by decide
  obtain ⟨t, ht, hlen⟩ := Option.map_eq_some_iff.mp hlen
  have htiled : Tiled newPeer.toStore (announceDiff [threeBlocks 5 5 3]).blocks (threeBlocks 5 5 3) := by
    refine .inr fun first last hfirst hlast => ?_
    cases hfirst
    cases hlast
    decide
  refine ⟨t, ht, fun g hg hname => ?_⟩
  obtain ⟨hsize, hoffset⟩ := (@tiled_iff newPeer (WF.initial fun _ => rfl) (BlocksWF.initial _) _ _ _
    ⟨"docs", default, [0]⟩ 0 _ rfl rfl hfresh hcreate t ht (threeBlocks 5 5 3)
    (List.mem_singleton_self _) rfl g hg hname).mpr htiled
  have hslots : (t.files g).slots.length ∈ (t.infos 0).files.map fun g => (t.files g).slots.length :=
    List.mem_map_of_mem hg
  rw [hlen, List.mem_singleton] at hslots
  exact ⟨hsize, hoffset 2 (by omega)⟩

/-- Blocks of 3, 5 and 2 bytes are accepted, as they add up to 10 bytes; the model makes 8 of
them, and puts the last one at 6 instead of 8. -/
theorem mixed_not_tiled :
    create newPeer (fun k => Uuid.ofByte k.toUInt8) [2] ⟨"docs", [threeBlocks 3 5 2]⟩ =
      .ok (announceDiff [threeBlocks 3 5 2]) ∧ (threeBlocks 3 5 2).size = 10 ∧
    ∃ t, apply newPeer (announceDiff [threeBlocks 3 5 2]) = some t ∧
      (t.infos 0).files.map (fun g => ((t.files g).name, t.getSize (t.files g),
        t.getBlockOffset (t.files g) 2)) = [("a", some 8, some 6)] := by
  have hrun : (apply newPeer (announceDiff [threeBlocks 3 5 2])).map
      (fun t => (t.infos 0).files.map fun g => ((t.files g).name, t.getSize (t.files g),
        t.getBlockOffset (t.files g) 2)) = some [("a", some 8, some 6)] := by decide
  obtain ⟨t, ht, hres⟩ := Option.map_eq_some_iff.mp hrun
  exact ⟨rfl, by decide, t, ht, hres⟩

end UpdateFolder

end SyncSpirit
