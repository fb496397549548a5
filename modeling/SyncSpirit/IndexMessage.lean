import SyncSpirit.UpdateFolderSpec
import SyncSpirit.Lib.Fallible

/-!
# From an index message to the folder info

`update_folder_t::create` and `apply` together. The accepted files have distinct
names and sequences behind the largest known one (`Accepts`), the blocks they need
are in the block map when the loop starts (`addBlocks_spec`, `eraseBlocks_spec`),
so that `applyFiles_spec` applies; `files_kept_iff` is the outcome.
-/

namespace SyncSpirit

namespace UpdateFolder

open Store Fallible

/-! ## What `create` accepts -/

/-- The blocks of a file are in the block map or will be added. -/
def Covered (s : Store) (newBlocks : List Proto.BlockInfo) (b : Proto.BlockInfo) : Prop :=
  ∃ hash, makeStrictHash b.hash = some hash ∧
    ((s.byHash hash).isSome = true ∨ ∃ b' ∈ newBlocks, makeStrictHash b'.hash = some hash)

/-- The state of pass 2 after the files `fs`. -/
structure Accepts (s : Store) (fi : FolderInfoId) (fs : List Proto.FileInfo) (acc : Accepted) :
    Prop where
  sublist : acc.files.Sublist fs
  counters : ∀ f ∈ acc.files, f.version.counters ≠ []
  sequence : ∀ f ∈ acc.files, (s.infos fi).maxSequence < f.sequence
  covered : ∀ f ∈ acc.files, ∀ b ∈ f.blocks, Covered s acc.newBlocks b
  strict : ∀ b ∈ acc.newBlocks, (makeStrictHash b.hash).isSome = true

theorem recordBlock_spec {s : Store} {news news' : List Proto.BlockInfo} {b : Proto.BlockInfo}
    (hstrict : ∀ b ∈ news, (makeStrictHash b.hash).isSome = true)
    (h : recordBlock s news b = some news') :
    news <+: news' ∧ Covered s news' b ∧ ∀ b ∈ news', (makeStrictHash b.hash).isSome = true := by
  obtain ⟨hash, hhash, h⟩ := Option.bind_eq_some_iff.mp h
  by_cases hnew : (s.byHash hash).isNone ∧ ∀ b' ∈ news, makeStrictHash b'.hash ≠ some hash
  · rw [if_pos hnew] at h
    cases h
    refine ⟨List.prefix_append _ _, ⟨hash, hhash, .inr ⟨b, by simp, hhash⟩⟩, fun b' hb' => ?_⟩
    rcases List.mem_append.mp hb' with hb' | hb'
    · exact hstrict b' hb'
    · rw [List.mem_singleton.mp hb', hhash]
      rfl
  · rw [if_neg hnew] at h
    cases h
    refine ⟨List.prefix_refl _, ⟨hash, hhash, ?_⟩, hstrict⟩
    by_cases hby : (s.byHash hash).isSome
    · exact .inl hby
    · right
      have hnone : (s.byHash hash).isNone = true := by simpa using hby
      by_contra hno
      exact hnew ⟨hnone, fun b' hb' heq => hno ⟨b', hb', heq⟩⟩

theorem Covered.mono {s : Store} {news news' : List Proto.BlockInfo} {b : Proto.BlockInfo}
    (h : Covered s news b) (hsub : news <+: news') : Covered s news' b := by
  obtain ⟨hash, hhash, hor⟩ := h
  exact ⟨hash, hhash, hor.imp_right fun ⟨b', hb', heq⟩ => ⟨b', hsub.subset hb', heq⟩⟩

theorem recordBlocks_spec {s : Store} {bs : List Proto.BlockInfo} :
    ∀ {news news' : List Proto.BlockInfo},
      (∀ b ∈ news, (makeStrictHash b.hash).isSome = true) →
      bs.foldlM (recordBlock s) news = some news' →
      news <+: news' ∧ (∀ b ∈ bs, Covered s news' b) ∧
        ∀ b ∈ news', (makeStrictHash b.hash).isSome = true := by
  induction bs with
  | nil =>
    intro news news' hstrict h
    cases h
    exact ⟨List.prefix_refl _, fun b hb => absurd hb List.not_mem_nil, hstrict⟩
  | cons b bs ih =>
    intro news news' hstrict h
    rw [List.foldlM_cons] at h
    obtain ⟨mid, hmid, h⟩ := Option.bind_eq_some_iff.mp h
    obtain ⟨hpre, hb, hstrict'⟩ := recordBlock_spec hstrict hmid
    obtain ⟨hpre', hbs, hstrict''⟩ := ih hstrict' h
    refine ⟨hpre.trans hpre', fun b' hb' => ?_, hstrict''⟩
    rcases List.mem_cons.mp hb' with rfl | hb'
    · exact hb.mono hpre'
    · exact hbs b' hb'

theorem expect_ok {α : Type} {o : Option α} {a : α} : expect o = .ok a ↔ o = some a := by
  cases o <;> simp [expect]

/-- One file of pass 2. -/
theorem processFile_spec {s : Store} {fi : FolderInfoId} {fs : List Proto.FileInfo}
    {acc acc' : Accepted} {f : Proto.FileInfo} (hacc : Accepts s fi fs acc)
    (h : processFile s fi acc f = .ok acc') : Accepts s fi (fs ++ [f]) acc' := by
  unfold processFile at h
  split at h
  · -- the sequence is known, and the file has to be, too
    split at h
    · cases h
    · split at h
      · cases h
      · cases h
        exact { hacc with sublist := hacc.sublist.trans (List.sublist_append_left _ _) }
      · cases h
  · rename_i hseq
    split at h
    · cases h
    · obtain ⟨news, hnews, h⟩ := bind_ok.mp h
      have hrec := recordBlocks_spec hacc.strict (expect_ok.mp hnews)
      split at h
      · cases h
      · split at h
        · cases h
        · rename_i hcount
          cases h
          obtain ⟨hpre, hcov, hstrict⟩ := hrec
          refine ⟨hacc.sublist.append (List.Sublist.refl [f]), fun g hg => ?_, fun g hg => ?_,
            fun g hg b hb => ?_, hstrict⟩
          all_goals rcases List.mem_append.mp hg with hg | hg
          · exact hacc.counters g hg
          · rw [List.mem_singleton.mp hg]
            exact hcount
          · exact hacc.sequence g hg
          · rw [List.mem_singleton.mp hg]
            omega
          · exact (hacc.covered g hg b hb).mono hpre
          · rw [List.mem_singleton.mp hg] at hb
            exact hcov b hb

theorem latest_sublist (fs : List Proto.FileInfo) : (latest fs).Sublist fs := by
  induction fs with
  | nil => exact List.Sublist.refl []
  | cons f fs ih =>
    rw [latest]
    split
    · exact ih.cons f
    · exact ih.cons_cons f

/-- Of every name one file is left. -/
theorem latest_names (fs : List Proto.FileInfo) :
    (latest fs).Pairwise fun f g => f.name ≠ g.name := by
  induction fs with
  | nil => exact List.Pairwise.nil
  | cons f fs ih =>
    rw [latest]
    split
    · exact ih
    · rename_i hnot
      refine List.Pairwise.cons (fun g hg hname => hnot ?_) ih
      exact List.any_eq_true.mpr ⟨g, (latest_sublist fs).subset hg, by simp [hname]⟩

/-- The accepted files of a whole message. -/
theorem accepts_of_create {s : Store} {fi : FolderInfoId} {fs : List Proto.FileInfo}
    {acc : Accepted} (h : (latest fs).foldlM (processFile s fi) ⟨[], []⟩ = .ok acc) :
    Accepts s fi (latest fs) acc := by
  have hstart : Accepts s fi [] ⟨[], []⟩ :=
    ⟨List.Sublist.refl [], by simp, by simp, by simp, by simp⟩
  have := foldlM_ok_inv (Accepts s fi) (fun done b a b' hb hstep => processFile_spec hb hstep) hstart h
  rwa [List.nil_append] at this

/-! ## Orphaned blocks -/

/-- A block of a recorded file that is not white-listed, and that no other file refers
to. -/
def Orphaned (s : Store) (recorded : List FileId) (whiteListed : List Bytes) (hash : Bytes) : Prop :=
  hash ∉ whiteListed ∧ ∃ f ∈ recorded, ∃ p, some p ∈ (s.files f).slots ∧
    (s.blocks p.1).hash = hash ∧ ∀ fb ∈ (s.blocks p.1).fileBlocks, fb.owner ∈ recorded

/-- The invariant of the loop in `deduce`. -/
structure Deduced (s : Store) (recorded : List FileId) (whiteListed : List Bytes)
    (r : List Bytes × List Bytes) : Prop where
  nodup : r.1.Nodup
  processed : ∀ hash ∈ r.1, hash ∈ r.2
  orphaned : ∀ hash ∈ r.1, Orphaned s recorded whiteListed hash

theorem Deduced.step {s : Store} {recorded : List FileId} {whiteListed : List Bytes}
    {r : List Bytes × List Bytes} (h : Deduced s recorded whiteListed r) {p : Slot} {f : FileId}
    (hf : f ∈ recorded) (hslot : some p ∈ (s.files f).slots) :
    Deduced s recorded whiteListed (deduceBlock s recorded whiteListed r p) := by
  unfold deduceBlock
  dsimp only
  split
  · exact h
  · rename_i hnew
    have hfresh : (s.blocks p.1).hash ∉ r.1 := fun hmem => hnew (.inr (h.processed _ hmem))
    split
    · rename_i hall
      refine ⟨List.nodup_append.mpr ⟨h.nodup, by simp, ?_⟩, fun hash hmem => ?_, fun hash hmem => ?_⟩
      · rintro a ha b hb rfl
        rw [List.mem_singleton.mp hb] at ha
        exact hfresh ha
      all_goals rcases List.mem_append.mp hmem with hmem | hmem
      · exact List.mem_cons_of_mem _ (h.processed hash hmem)
      · rw [List.mem_singleton.mp hmem]
        exact List.mem_cons_self ..
      · exact h.orphaned hash hmem
      · rw [List.mem_singleton.mp hmem]
        refine ⟨fun hw => hnew (.inl hw), f, hf, p, hslot, rfl, fun fb hfb => ?_⟩
        simpa using List.all_eq_true.mp hall fb hfb
    · exact ⟨h.nodup, fun hash hmem => List.mem_cons_of_mem _ (h.processed hash hmem), h.orphaned⟩

/-- The result of `deduce` is orphaned, and has every hash once. -/
theorem deduce_spec (s : Store) (recorded : List FileId) (whiteListed : List Bytes) :
    (deduce s recorded whiteListed).Nodup ∧ ∀ hash ∈ deduce s recorded whiteListed,
      Orphaned s recorded whiteListed hash := by
  have hloop : ∀ (blocks : List Slot) (r : List Bytes × List Bytes),
      (∀ p ∈ blocks, ∃ f ∈ recorded, some p ∈ (s.files f).slots) →
      Deduced s recorded whiteListed r →
      Deduced s recorded whiteListed (blocks.foldl (deduceBlock s recorded whiteListed) r) := by
    intro blocks
    induction blocks with
    | nil => exact fun r _ hr => hr
    | cons p blocks ih =>
      intro r hblocks hr
      obtain ⟨f, hf, hslot⟩ := hblocks p (List.mem_cons_self ..)
      exact ih _ (fun q hq => hblocks q (List.mem_cons_of_mem _ hq)) (hr.step hf hslot)
  have hres := hloop (((recorded.filter fun f => (s.files f).isFile).flatMap fun f =>
      ((s.files f).slots.takeWhile Option.isSome).filterMap id)) ([], []) (fun p hp => ?_)
    ⟨List.nodup_nil, by simp, by simp⟩
  · exact ⟨hres.nodup, hres.orphaned⟩
  · obtain ⟨f, hf, hp⟩ := List.mem_flatMap.mp hp
    obtain ⟨v, hv, heq⟩ := List.mem_filterMap.mp hp
    refine ⟨f, (List.mem_filter.mp hf).1, ?_⟩
    rw [← show v = some p from heq]
    exact (List.takeWhile_sublist _).subset hv

/-! ## The block map before the loop -/

/-- The stores differ in the block map and in blocks nothing refers to. -/
structure SameFiles (s t : Store) : Prop where
  files : t.files = s.files
  nextFile : t.nextFile = s.nextFile
  infos : t.infos = s.infos
  graph : t.graph = s.graph

theorem SameFiles.trans {s t u : Store} (h : SameFiles s t) (h' : SameFiles t u) : SameFiles s u :=
  ⟨h'.files.trans h.files, h'.nextFile.trans h.nextFile, h'.infos.trans h.infos,
    h'.graph.trans h.graph⟩

theorem SameFiles.wf {s t : Store} (h : SameFiles s t) (hwf : s.WF) : t.WF where
  linked := h.graph ▸ hwf.linked
  coherent f := h.files ▸ hwf.coherent f
  fresh f hf := by
    rw [h.nextFile] at hf
    rw [h.files]
    exact hwf.fresh f hf
  infos fi := (hwf.infos fi).of_eq (by rw [h.infos]) h.nextFile.ge fun f _ => by rw [h.files]
  disjoint := by
    rw [h.infos]
    exact hwf.disjoint

theorem SameFiles.byName {s t : Store} (h : SameFiles s t) (fi : FolderInfoId) (name : String) :
    t.byName fi name = s.byName fi name := by
  unfold Store.byName
  rw [h.infos, h.files]

/-- The size of the block with a hash. -/
def sizeAt (s : Store) (hash : Bytes) : Option Int := s.blockSize (s.byHash hash)

theorem blocks_pushBlock {s : Store} (hb : ∀ b ∈ s.blockMap, b < s.nextBlock) (hash : Bytes) (size : Int32) {k : BlockId}
    (hk : k ∈ s.blockMap) : (s.pushBlock hash size).blocks k = s.blocks k :=
  Function.update_of_ne (Nat.ne_of_lt (hb k hk)) _ _

/-- The new block is found, and everything else where it has been. -/
theorem byHash_pushBlock {s : Store} (hb : ∀ b ∈ s.blockMap, b < s.nextBlock) (hash : Bytes)
    (size : Int32) (h : Bytes) :
    (s.pushBlock hash size).byHash h =
      (s.byHash h).or (if h = hash then some s.nextBlock else none) := by
  have hcongr : s.blockMap.find? (fun k => ((s.pushBlock hash size).blocks k).hash = h) =
      s.byHash h := by
    refine List.find?_congr fun k hk => ?_
    rw [blocks_pushBlock hb hash size hk]
  have hnew : (s.pushBlock hash size).blocks s.nextBlock = ⟨hash, size, []⟩ := Function.update_self ..
  show (s.blockMap ++ [s.nextBlock]).find? _ = _
  rw [List.find?_append, hcongr]
  by_cases hh : h = hash
  · simp [hh, hnew]
  · simp [hh, hnew, Ne.symm hh]

theorem graph_pushBlock {s : Store} (hl : s.graph.Linked) (hb : s.BlocksWF) (hash : Bytes)
    (size : Int32) : (s.pushBlock hash size).graph = s.graph := by
  show Backlink.Graph.mk _ _ = Backlink.Graph.mk _ _
  congr 1
  funext k
  by_cases hk : k = s.nextBlock
  · -- nothing has referred to the new address
    have hnil := hb.fileBlocks_eq_nil hl (Nat.le_refl s.nextBlock)
    simp [pushBlock, hk, hnil]
  · simp [pushBlock, hk]

/-- One added block. -/
theorem addBlock_spec {s : Store} (hl : s.graph.Linked) (hb : s.BlocksWF) {b : Proto.BlockInfo}
    {hash : Bytes} (hhash : makeStrictHash b.hash = some hash) :
    ∃ t, s.addBlock b = some t ∧ SameFiles s t ∧ t.BlocksWF ∧
      ∀ h, sizeAt t h = (sizeAt s h).or (if h = hash then some b.size.toUInt32.toNat else none) := by
  unfold Store.addBlock
  rw [hhash, Option.bind_eq_bind, Option.bind_some]
  by_cases hsome : (s.byHash hash).isSome
  · rw [if_pos hsome]
    refine ⟨s, rfl, ⟨rfl, rfl, rfl, rfl⟩, hb, fun h => ?_⟩
    by_cases hh : h = hash
    · obtain ⟨k, hk⟩ := Option.isSome_iff_exists.mp hsome
      rw [hh]
      simp [sizeAt, hk, blockSize]
    · rw [if_neg hh, Option.or_none]
  · rw [if_neg hsome]
    have hby := byHash_pushBlock hb.mapped hash b.size
    have hgraph := graph_pushBlock hl hb hash b.size
    refine ⟨_, rfl, ⟨rfl, rfl, rfl, hgraph⟩, ⟨fun f i k l hslot => ?_, fun k hk => ?_⟩, fun h => ?_⟩
    · rw [hgraph] at hslot
      have hknown := hb.known f i k l hslot
      rw [blocks_pushBlock hb.mapped hash b.size (byHash_eq_some hknown).1, hby, hknown, Option.some_or]
    · rcases List.mem_append.mp hk with hk | hk
      · exact Nat.lt_succ_of_lt (hb.mapped k hk)
      · rw [List.mem_singleton.mp hk]
        exact Nat.lt_succ_self _
    · unfold sizeAt
      rw [hby]
      cases hs : s.byHash h with
      | some k => simp [blockSize, blocks_pushBlock hb.mapped hash b.size (byHash_eq_some hs).1]
      | none =>
        by_cases hh : h = hash
        · simp [hh, blockSize, BlockInfo.getSize, pushBlock]
        · simp [hh, blockSize]

/-- Blocks that exist keep their hashes. -/
theorem hash_addBlock {s t : Store} {b : Proto.BlockInfo} (h : s.addBlock b = some t) :
    s.nextBlock ≤ t.nextBlock ∧ ∀ k < s.nextBlock, (t.blocks k).hash = (s.blocks k).hash := by
  obtain ⟨hash, -, h⟩ := Option.bind_eq_some_iff.mp h
  split at h
  · cases h
    exact ⟨Nat.le_refl _, fun _ _ => rfl⟩
  · cases h
    refine ⟨Nat.le_succ _, fun k hk => ?_⟩
    show (Function.update s.blocks s.nextBlock _ k).hash = _
    rw [Function.update_of_ne (Nat.ne_of_lt hk)]

theorem hash_addBlocks {news : List Proto.BlockInfo} :
    ∀ {s t : Store}, news.foldlM Store.addBlock s = some t →
      s.nextBlock ≤ t.nextBlock ∧ ∀ k < s.nextBlock, (t.blocks k).hash = (s.blocks k).hash := by
  induction news with
  | nil =>
    rintro s t ⟨⟩
    exact ⟨Nat.le_refl _, fun _ _ => rfl⟩
  | cons b news ih =>
    intro s t h
    obtain ⟨u, hu, h⟩ := Option.bind_eq_some_iff.mp h
    obtain ⟨hnext, hhash⟩ := hash_addBlock hu
    obtain ⟨hnext', hhash'⟩ := ih h
    exact ⟨hnext.trans hnext', fun k hk =>
      (hhash' k (Nat.lt_of_lt_of_le hk hnext)).trans (hhash k hk)⟩

/-- The size of the block with a hash, when the announced blocks have been added. -/
def knownSize (s : Store) (news : List Proto.BlockInfo) (hash : Bytes) : Option Int :=
  (sizeAt s hash).or ((news.find? fun b => makeStrictHash b.hash = some hash).map
    fun b => (b.size.toUInt32.toNat : Int))

/-- **Add blocks**. -/
theorem addBlocks_spec {news : List Proto.BlockInfo} :
    ∀ {s : Store}, s.graph.Linked → s.BlocksWF →
      (∀ b ∈ news, (makeStrictHash b.hash).isSome = true) →
      ∃ t, news.foldlM Store.addBlock s = some t ∧ SameFiles s t ∧ t.BlocksWF ∧
        ∀ h, sizeAt t h = knownSize s news h := by
  induction news with
  | nil =>
    intro s _ hb _
    refine ⟨s, rfl, ⟨rfl, rfl, rfl, rfl⟩, hb, fun h => ?_⟩
    simp [knownSize]
  | cons b news ih =>
    intro s hl hb hstrict
    obtain ⟨hash, hhash⟩ := Option.isSome_iff_exists.mp (hstrict b (List.mem_cons_self ..))
    obtain ⟨t, ht, hsame, htb, hsize⟩ := addBlock_spec hl hb hhash
    obtain ⟨u, hu, hsame', hub, hsize'⟩ := ih (hsame.graph ▸ hl) htb fun b' hb' =>
      hstrict b' (List.mem_cons_of_mem _ hb')
    refine ⟨u, ?_, hsame.trans hsame', hub, fun h => ?_⟩
    · rw [List.foldlM_cons, ht]
      exact hu
    · rw [hsize', knownSize, hsize, knownSize, List.find?_cons, hhash]
      by_cases hh : h = hash
      · simp [hh]
      · have hne : ¬ (some hash = some h) := by simpa using Ne.symm hh
        simp [hh, hne]

/-- **Remove blocks** that are in the block map. -/
theorem eraseBlocks_spec {hashes : List Bytes} :
    ∀ {s : Store}, hashes.Nodup → (∀ h ∈ hashes, (s.byHash h).isSome = true) →
      ∃ t, hashes.foldlM Store.eraseBlock s = some t ∧ SameFiles s t ∧ t.blocks = s.blocks ∧
        ∀ h, h ∉ hashes → t.byHash h = s.byHash h := by
  induction hashes with
  | nil => exact fun _ _ => ⟨_, rfl, ⟨rfl, rfl, rfl, rfl⟩, rfl, fun _ _ => rfl⟩
  | cons hash hashes ih =>
    intro s hnodup hknown
    obtain ⟨hnot, hnodup'⟩ := List.nodup_cons.mp hnodup
    obtain ⟨k, hk⟩ := Option.isSome_iff_exists.mp (hknown hash (List.mem_cons_self ..))
    have hother : ∀ h, h ≠ hash →
        ({ s with blockMap := s.blockMap.filter fun b => (s.blocks b).hash ≠ hash } : Store).byHash h =
          s.byHash h := by
      intro h hh
      show (s.blockMap.filter _).find? _ = s.blockMap.find? _
      rw [List.find?_filter]
      refine List.find?_congr fun b _ => ?_
      by_cases hb : (s.blocks b).hash = h
      · simp [hb, hh]
      · simp [hb]
    obtain ⟨t, ht, hsame, hblocks, hby⟩ := @ih
      { s with blockMap := s.blockMap.filter fun b => (s.blocks b).hash ≠ hash } hnodup'
      (fun h hmem => by
        rw [hother h (fun heq => hnot (heq ▸ hmem))]
        exact hknown h (List.mem_cons_of_mem _ hmem))
    refine ⟨t, ?_, ⟨hsame.files, hsame.nextFile, hsame.infos, hsame.graph⟩, hblocks, fun h hmem => ?_⟩
    · rw [List.foldlM_cons, Store.eraseBlock, hk]
      exact ht
    · obtain ⟨hh, hmem⟩ : h ≠ hash ∧ h ∉ hashes := by simpa using hmem
      rw [hby h hmem, hother h hh]

/-! ## Uuids -/

/-- The next `n` uuids of the sequencer are new, and never the same. -/
structure FreshUuids (s : Store) (fi : FolderInfoId) (nextUuid : Nat → Uuid) (n : Nat) : Prop where
  injective : ∀ i < n, ∀ j < n, nextUuid i = nextUuid j → i = j
  fresh : ∀ k < n, ∀ f ∈ (s.infos fi).files, (s.files f).uuid ≠ nextUuid k

theorem length_chooseUuids {s : Store} {fi : FolderInfoId} {nextUuid : Nat → Uuid}
    (fs : List Proto.FileInfo) : ∀ n, (chooseUuids s fi nextUuid n fs).length = fs.length := by
  induction fs with
  | nil => exact fun _ => rfl
  | cons f fs ih =>
    intro n
    rw [chooseUuids]
    split <;> simp [ih]

/-- The uuid of a known file, or a new one. -/
theorem chooseUuids_spec {s : Store} {fi : FolderInfoId} {nextUuid : Nat → Uuid}
    {fs : List Proto.FileInfo} :
    ∀ n, ∀ p ∈ (chooseUuids s fi nextUuid n fs).zip fs, p.2 ∈ fs ∧
      (∀ prev, s.byName fi p.2.name = some prev → p.1 = (s.files prev).uuid) ∧
      (s.byName fi p.2.name = none → ∃ k, n ≤ k ∧ k < n + fs.length ∧ p.1 = nextUuid k) := by
  induction fs with
  | nil => simp [chooseUuids]
  | cons f fs ih =>
    intro n p hp
    rw [chooseUuids] at hp
    cases hprev : s.byName fi f.name with
    | some prev =>
      rw [hprev, List.zip_cons_cons] at hp
      rcases List.mem_cons.mp hp with rfl | hp
      · refine ⟨List.mem_cons_self .., fun prev' h => ?_, fun h => ?_⟩
        · rw [hprev] at h
          cases h
          rfl
        · rw [hprev] at h
          cases h
      · obtain ⟨hmem, h₁, h₂⟩ := ih n p hp
        refine ⟨List.mem_cons_of_mem _ hmem, h₁, fun h => ?_⟩
        obtain ⟨k, hk, hk', heq⟩ := h₂ h
        exact ⟨k, hk, by rw [List.length_cons]; omega, heq⟩
    | none =>
      rw [hprev, List.zip_cons_cons] at hp
      rcases List.mem_cons.mp hp with rfl | hp
      · refine ⟨List.mem_cons_self .., fun prev' h => ?_, fun _ => ⟨n, Nat.le_refl n, by simp, rfl⟩⟩
        rw [hprev] at h
        cases h
      · obtain ⟨hmem, h₁, h₂⟩ := ih (n + 1) p hp
        refine ⟨List.mem_cons_of_mem _ hmem, h₁, fun h => ?_⟩
        obtain ⟨k, hk, hk', heq⟩ := h₂ h
        exact ⟨k, Nat.le_of_succ_le hk, by rw [List.length_cons]; omega, heq⟩

/-- Files of different names have different uuids. -/
theorem distinct_chooseUuids {s : Store} {fi : FolderInfoId} (hwf : s.InfoWF fi)
    {nextUuid : Nat → Uuid} {m : Nat} (hfresh : FreshUuids s fi nextUuid m)
    {fs : List Proto.FileInfo} (hnames : fs.Pairwise fun f g => f.name ≠ g.name) :
    ∀ n, n + fs.length ≤ m → Distinct ((chooseUuids s fi nextUuid n fs).zip fs) := by
  induction fs with
  | nil => exact fun _ _ => List.Pairwise.nil
  | cons f fs ih =>
    intro n hm
    rw [List.length_cons] at hm
    obtain ⟨hhead, htail⟩ := List.pairwise_cons.mp hnames
    rw [chooseUuids]
    cases hprev : s.byName fi f.name with
    | some prev =>
      refine List.Pairwise.cons (fun q hq => ?_) (ih htail n (by omega))
      obtain ⟨hmem, hsome, hnone⟩ := chooseUuids_spec n q hq
      obtain ⟨hprevMem, hprevName⟩ := (byName_eq_some hwf).mp hprev
      refine ⟨hhead q.2 hmem, fun heq => ?_⟩
      cases hq' : s.byName fi q.2.name with
      | some prev' =>
        obtain ⟨hmem', hname'⟩ := (byName_eq_some hwf).mp hq'
        have hne : prev ≠ prev' := by
          rintro rfl
          exact hhead q.2 hmem (hprevName.symm.trans hname')
        exact (hwf.keys prev hprevMem prev' hmem' hne).1 (heq.trans (hsome prev' hq'))
      | none =>
        obtain ⟨k, -, hlt, hk⟩ := hnone hq'
        exact hfresh.fresh k (by omega) prev hprevMem (heq.trans hk)
    | none =>
      refine List.Pairwise.cons (fun q hq => ?_) (ih htail (n + 1) (by omega))
      obtain ⟨hmem, hsome, hnone⟩ := chooseUuids_spec (n + 1) q hq
      refine ⟨hhead q.2 hmem, fun heq => ?_⟩
      cases hq' : s.byName fi q.2.name with
      | some prev' =>
        obtain ⟨hmem', -⟩ := (byName_eq_some hwf).mp hq'
        exact hfresh.fresh n (by omega) prev' hmem' ((hsome prev' hq').symm.trans heq.symm)
      | none =>
        obtain ⟨k, hk, hlt, hkeq⟩ := hnone hq'
        have := hfresh.injective n (by omega) k (by omega) (heq.trans hkeq)
        omega

/-! ## The store the loop starts with -/

theorem mem_strictHashes {bs : List Proto.BlockInfo} {hashes : List Bytes}
    (h : strictHashes bs = some hashes) {b : Proto.BlockInfo} (hb : b ∈ bs) :
    ∃ hash ∈ hashes, makeStrictHash b.hash = some hash := by
  induction bs generalizing hashes with
  | nil => cases hb
  | cons b' bs ih =>
    obtain ⟨hash, hs, hhash, hhs, rfl⟩ := strictHashes_cons.mp h
    rcases List.mem_cons.mp hb with rfl | hb
    · exact ⟨hash, List.mem_cons_self .., hhash⟩
    · obtain ⟨hash', hmem, heq⟩ := ih hhs hb
      exact ⟨hash', List.mem_cons_of_mem _ hmem, heq⟩

theorem strictHashes_isSome {bs : List Proto.BlockInfo}
    (h : ∀ b ∈ bs, (makeStrictHash b.hash).isSome = true) : ∃ hashes, strictHashes bs = some hashes := by
  induction bs with
  | nil => exact ⟨[], rfl⟩
  | cons b bs ih =>
    obtain ⟨hash, hhash⟩ := Option.isSome_iff_exists.mp (h b (List.mem_cons_self ..))
    obtain ⟨hashes, hhs⟩ := ih fun b' hb' => h b' (List.mem_cons_of_mem _ hb')
    exact ⟨hash :: hashes, strictHashes_cons.mpr ⟨hash, hashes, hhash, hhs, rfl⟩⟩

/-- What an accepted message has been made of. -/
structure Created (s : Store) (fi : FolderInfoId) (nextUuid : Nat → Uuid)
    (message : Proto.IndexBase) (d : Diff) : Prop where
  accepts : Accepts s fi (latest message.files) ⟨d.files, d.blocks⟩
  uuids : d.uuids = chooseUuids s fi nextUuid 0 d.files
  removed : ∃ whiteListed, strictHashes (d.files.flatMap Proto.FileInfo.blocks) = some whiteListed ∧
    ∃ p, d.removedBlocks =
      (deduce s (d.files.filterMap fun f => s.byName fi f.name) whiteListed).filter p

theorem create_ok {c : Cluster} {nextUuid : Nat → Uuid} {source : Sha256}
    {message : Proto.IndexBase} {d : Diff} (h : create c nextUuid source message = .ok d)
    {folder : Folder} (hfolder : c.folderById message.folder = some folder) {fi : FolderInfoId}
    (hfi : c.byDeviceId folder source = some fi) :
    Created c.toStore fi nextUuid message d ∧ d.folderId = message.folder ∧ d.peerId = source := by
  unfold create at h
  rw [hfolder] at h
  dsimp only at h
  rw [hfi] at h
  dsimp only at h
  obtain ⟨acc, hacc, h⟩ := bind_ok.mp h
  obtain ⟨whiteListed, hwhite, h⟩ := bind_ok.mp h
  obtain ⟨newHashes, hnew, h⟩ := bind_ok.mp h
  rw [pure_ok] at h
  subst h
  refine ⟨⟨accepts_of_create hacc, rfl, whiteListed, expect_ok.mp hwhite, _, rfl⟩, ?_, rfl⟩
  simpa using List.find?_some hfolder

/-- **The start**: the new blocks have been added, the orphaned ones removed. -/
structure Started (fi : FolderInfoId) (s : Store) (d : Diff) (t : Store) : Prop where
  same : SameFiles s t
  ready : ∀ p ∈ d.uuids.zip d.files, Ready fi t (s.infos fi).maxSequence p
  distinct : Distinct (d.uuids.zip d.files)
  files : (d.uuids.zip d.files).map Prod.snd = d.files
  hash : ∀ k < s.nextBlock, (t.blocks k).hash = (s.blocks k).hash
  sizes : ∀ f ∈ d.files, ∀ b ∈ f.blocks, ∃ hash, makeStrictHash b.hash = some hash ∧
    sizeAt t hash = knownSize s d.blocks hash ∧ (t.byHash hash).isSome = true

theorem sizeAt_isSome (s : Store) (hash : Bytes) : (sizeAt s hash).isSome = (s.byHash hash).isSome := by
  simp [sizeAt, blockSize]

/-- A covered hash is known after the blocks have been added. -/
theorem Covered.knownSize {s : Store} {news : List Proto.BlockInfo} {b : Proto.BlockInfo}
    (h : Covered s news b) :
    ∃ hash, makeStrictHash b.hash = some hash ∧ (knownSize s news hash).isSome = true := by
  obtain ⟨hash, hhash, hor⟩ := h
  refine ⟨hash, hhash, ?_⟩
  rw [UpdateFolder.knownSize, Option.isSome_or, Bool.or_eq_true, sizeAt_isSome]
  refine hor.imp_right ?_
  rintro ⟨b', hb', heq⟩
  rw [Option.isSome_map, List.find?_isSome]
  exact ⟨b', hb', by simpa using heq⟩

theorem started_of_created {c : Cluster} (hwf : c.WF) (hb : c.BlocksWF) {folder : Folder}
    {fi : FolderInfoId} {nextUuid : Nat → Uuid} {message : Proto.IndexBase}
    (hfresh : FreshUuids c.toStore fi nextUuid message.files.length) {d : Diff}
    (hd : Created c.toStore fi nextUuid message d)
    (hfolder : c.folderById d.folderId = some folder) (hfi : c.byDeviceId folder d.peerId = some fi) :
    ∃ t, apply c d = applyFiles fi t (d.uuids.zip d.files) ∧ Started fi c.toStore d t := by
  obtain ⟨whiteListed, hwhite, p, hremoved⟩ := hd.removed
  obtain ⟨s₁, hs₁, hsame₁, hb₁, hsize₁⟩ := addBlocks_spec hwf.linked hb hd.accepts.strict
  obtain ⟨hnodup, horphans⟩ := deduce_spec c.toStore
    (d.files.filterMap fun f => c.toStore.byName fi f.name) whiteListed
  have hremoved' : ∀ h ∈ d.removedBlocks, Orphaned c.toStore
      (d.files.filterMap fun f => c.toStore.byName fi f.name) whiteListed h := by
    intro h hmem
    rw [hremoved] at hmem
    exact horphans h (List.mem_filter.mp hmem).1
  -- an orphaned block is in the block map, as a file refers to it
  have hknown : ∀ h ∈ d.removedBlocks, (s₁.byHash h).isSome = true := by
    intro h hmem
    obtain ⟨-, f, -, q, hslot, rfl, -⟩ := hremoved' h hmem
    obtain ⟨i, hi⟩ := List.mem_iff_getElem?.mp hslot
    have hknown := hb.known f i q.1 q.2 (by
      show (c.files f).slots[i]?.join = some (q.1, q.2)
      rw [hi]
      rfl)
    rw [← sizeAt_isSome, hsize₁, knownSize, Option.isSome_or, sizeAt_isSome, hknown]
    rfl
  obtain ⟨t, ht, hsame₂, hblocks₂, hby₂⟩ := eraseBlocks_spec (hremoved ▸ hnodup.filter p) hknown
  have hsame := hsame₁.trans hsame₂
  have hsizes : ∀ f ∈ d.files, ∀ b ∈ f.blocks, ∃ hash, makeStrictHash b.hash = some hash ∧
      sizeAt t hash = knownSize c.toStore d.blocks hash ∧ (t.byHash hash).isSome = true := by
    intro f hf b hbf
    obtain ⟨hash, hhash, hsome⟩ := (hd.accepts.covered f hf b hbf).knownSize
    obtain ⟨hash', hmem, hhash'⟩ := mem_strictHashes hwhite (List.mem_flatMap.mpr ⟨f, hf, hbf⟩)
    rw [hhash] at hhash'
    cases hhash'
    have hby : t.byHash hash = s₁.byHash hash := hby₂ hash fun hmem' => (hremoved' hash hmem').1 hmem
    have hsizeAt : sizeAt t hash = knownSize c.toStore d.blocks hash := by
      rw [← hsize₁, sizeAt, sizeAt, hby, blockSize, blockSize, hblocks₂]
    refine ⟨hash, hhash, hsizeAt, ?_⟩
    rw [← sizeAt_isSome, hsizeAt]
    exact hsome
  have hnames : d.files.Pairwise fun f g => f.name ≠ g.name :=
    (latest_names message.files).sublist hd.accepts.sublist
  have hlen : 0 + d.files.length ≤ message.files.length := by
    rw [Nat.zero_add]
    exact (hd.accepts.sublist.trans (latest_sublist _)).length_le
  refine ⟨t, ?_, hsame, fun q hq => ?_, ?_, ?_, fun k hk => ?_, hsizes⟩
  · have hs₁' : d.blocks.foldlM Store.addBlock c.toStore = some s₁ := hs₁
    simp only [apply, hfolder, hfi, hs₁', ht, Option.bind_eq_bind, Option.bind_some]
  · rw [hd.uuids] at hq
    obtain ⟨hmem, hsome, hnone⟩ := chooseUuids_spec 0 q hq
    have hstrict : ∀ b ∈ q.2.blocks, (makeStrictHash b.hash).isSome = true := by
      intro b hb
      obtain ⟨hash, hhash, -⟩ := hsizes q.2 hmem b hb
      rw [hhash]
      rfl
    refine ⟨hd.accepts.counters q.2 hmem, strictHashes_isSome hstrict, fun b hb => ?_,
      hd.accepts.sequence q.2 hmem, fun prev hprev => ?_, fun hprev g hg => ?_⟩
    · obtain ⟨hash, hhash, -, hsome⟩ := hsizes q.2 hmem b hb
      rw [hhash]
      exact hsome
    · rw [hsame.byName] at hprev
      rw [hsame.files]
      exact ⟨(hwf.infos fi).bound prev ((byName_eq_some (hwf.infos fi)).mp hprev).1,
        (hsome prev hprev).symm⟩
    · rw [hsame.byName] at hprev
      rw [hsame.infos] at hg
      rw [hsame.files]
      obtain ⟨k, -, hlt, hk⟩ := hnone hprev
      rw [hk]
      exact hfresh.fresh k (Nat.lt_of_lt_of_le hlt hlen) g hg
  · rw [hd.uuids]
    exact distinct_chooseUuids (hwf.infos fi) hfresh hnames 0 hlen
  · rw [hd.uuids]
    exact List.map_snd_zip (by rw [length_chooseUuids])
  · rw [hblocks₂]
    exact (hash_addBlocks hs₁).2 k hk

/-! ## The size of an accepted file -/

/-- The size of an announced block: of the block that has its hash already, if there is
one. -/
def sizeOf (s : Store) (news : List Proto.BlockInfo) (b : Proto.BlockInfo) : Int :=
  ((makeStrictHash b.hash).bind (knownSize s news)).getD 0

/-- The size an accepted file will report. -/
def reportedSize (s : Store) (news : List Proto.BlockInfo) (f : Proto.FileInfo) : Int :=
  if Assigned f ∧ f.invalid = false then
    match f.blocks.head?, f.blocks.getLast? with
    | some first, some last =>
      sizeOf s news last + (f.blocks.length - 1 : Nat) * sizeOf s news first % 2 ^ 32
    | _, _ => 0
  else 0

theorem Started.blockSize {fi : FolderInfoId} {s t : Store} {d : Diff} (h : Started fi s d t)
    {f : Proto.FileInfo} (hf : f ∈ d.files) {b : Proto.BlockInfo} (hb : b ∈ f.blocks) :
    t.blockSize ((makeStrictHash b.hash).bind t.byHash) = some (sizeOf s d.blocks b) := by
  obtain ⟨hash, hhash, hsize, hsome⟩ := h.sizes f hf b hb
  rw [← sizeAt_isSome] at hsome
  obtain ⟨n, hn⟩ := Option.isSome_iff_exists.mp hsome
  rw [sizeOf, hhash, Option.bind_some, Option.bind_some, ← hsize, hn]
  exact hn

theorem Started.getSize {fi : FolderInfoId} {s t : Store} {d : Diff} (h : Started fi s d t)
    {f : Proto.FileInfo} (hf : f ∈ d.files) {uuid : Uuid} {file : FileInfo}
    (hc : Carries t uuid f file) : t.getSize file = some (reportedSize s d.blocks f) := by
  have hfile : file.isFile = true ↔ asFlags f.type = .file := by
    simp only [FileInfo.isFile, hc.type, decide_eq_true_eq]
  unfold Store.getSize reportedSize
  rw [hc.deleted, hc.invalid, hc.targets]
  by_cases hlive : asFlags f.type = .file ∧ f.deleted = false ∧ f.invalid = false
  · obtain ⟨htype, hdel, hinv⟩ := hlive
    have hcond : (true && !false && !false) = true := rfl
    rw [hdel, hinv, hfile.mpr htype, if_pos hcond]
    by_cases hsize : f.size = 0
    · have hnot : ¬ Assigned f := fun ha => ha.2.2 hsize
      have hnil : blocksOf t f = [] := by
        rw [blocksOf, if_neg hnot, if_neg fun ha => ha.2 hsize]
      rw [hnil, if_neg (fun ha => hnot ha.1)]
      rfl
    · have hassigned : Assigned f := ⟨htype, hdel, hsize⟩
      rw [blocksOf, if_pos hassigned, if_pos ⟨hassigned, rfl⟩]
      cases hblocks : f.blocks with
      | nil => rfl
      | cons first rest =>
        obtain ⟨last, hlast⟩ : ∃ last, (first :: rest).getLast? = some last := by
          rw [← Option.isSome_iff_exists]
          simp
        have hmem₁ : first ∈ f.blocks := by
          rw [hblocks]
          exact List.mem_cons_self ..
        have hmem₂ : last ∈ f.blocks := by
          rw [hblocks]
          exact List.mem_of_getLast? hlast
        rw [List.head?_map, List.getLast?_map, hlast, List.head?_cons]
        simp only [Option.map_some, h.blockSize hf hmem₁, h.blockSize hf hmem₂, Option.bind_eq_bind,
          Option.bind_some, List.length_map, List.length_cons]
        cases rest with
        | nil => simp
        | cons second rest => simp
  · have hnot : ¬ (Assigned f ∧ f.invalid = false) := fun h => hlive ⟨h.1.1, h.1.2.1, h.2⟩
    have hcond : (file.isFile && !f.deleted && !f.invalid) = false := by
      rw [Bool.eq_false_iff]
      intro hall
      simp only [Bool.and_eq_true, Bool.not_eq_true'] at hall
      exact hlive ⟨hfile.mp hall.1.1, hall.1.2, hall.2⟩
    rw [hcond, if_neg hnot]
    rfl

/-! ## The outcome -/

/-- A file of the folder info is as it has been announced. -/
def Present (t : Store) (fi : FolderInfoId) (f : Proto.FileInfo) : Prop :=
  ∃ g ∈ (t.infos fi).files, (t.files g).name = f.name ∧
    (t.files g).version.toProto = f.version ∧ t.getSize (t.files g) = some f.size ∧
    (t.files g).type = asFlags f.type ∧ (t.files g).deleted = f.deleted ∧
    (t.files g).invalid = f.invalid ∧ (t.files g).noPermissions = f.noPermissions ∧
    (t.files g).sequence = f.sequence

/-- Nothing gets lost: the names of before and the accepted files are there, and
`max_sequence` is the largest sequence. -/
structure Kept (s : Store) (fi : FolderInfoId) (files : List Proto.FileInfo) (t : Store) : Prop where
  names : ∀ g ∈ (s.infos fi).files, ∃ g' ∈ (t.infos fi).files, (t.files g').name = (s.files g).name
  present : ∀ f ∈ files, Present t fi f
  maxSequence : (t.infos fi).maxSequence =
    files.foldl (fun m f => max m f.sequence) (s.infos fi).maxSequence

/-- The files of a message that can be kept. -/
structure Keepable (s : Store) (fi : FolderInfoId) (news : List Proto.BlockInfo)
    (files : List Proto.FileInfo) : Prop where
  increasing : files.Pairwise fun f g => f.sequence < g.sequence
  counters : ∀ f ∈ files, Version.Unmarked f.version.counters
  sizes : ∀ f ∈ files, f.size = reportedSize s news f
  applicable : ∀ f ∈ files, Applicable fi s f

theorem toProto_ofProto_iff {v : Proto.Vector} :
    (Version.ofProto v).toProto = v ↔ Version.Unmarked v.counters := by
  constructor
  · intro h
    rw [← h]
    exact Version.unmarked_toProto _
  · exact Version.toProto_ofProto

/-- A file that carries what has been announced is present as announced, up to what
cannot be represented. -/
theorem Started.present_iff {fi : FolderInfoId} {s t u : Store} {d : Diff} (h : Started fi s d t)
    (hblocks : SameBlocks t u) (hwf : u.WF) {f : Proto.FileInfo} (hf : f ∈ d.files) {uuid : Uuid}
    {g : FileId} (hg : g ∈ (u.infos fi).files) (hc : Carries t uuid f (u.files g)) :
    Present u fi f ↔ Version.Unmarked f.version.counters ∧ f.size = reportedSize s d.blocks f := by
  have hsize : u.getSize (u.files g) = some (reportedSize s d.blocks f) := by
    rw [hblocks.getSize]
    exact h.getSize hf hc
  constructor
  · rintro ⟨g', hg', hname, hversion, hsize', -⟩
    have heq : g' = g := by
      by_contra hne
      exact ((hwf.infos fi).keys g' hg' g hg hne).2.1 (hname.trans hc.name.symm)
    rw [heq] at hversion hsize'
    rw [hc.version, toProto_ofProto_iff] at hversion
    rw [hsize] at hsize'
    exact ⟨hversion, (Option.some.inj hsize').symm⟩
  · rintro ⟨hversion, hsize'⟩
    refine ⟨g, hg, hc.name, ?_, ?_, hc.type, hc.deleted, hc.invalid, hc.noPermissions, hc.sequence⟩
    · rw [hc.version, toProto_ofProto_iff]
      exact hversion
    · rw [hsize, ← hsize']

/-- The accepted files by their places in the message. -/
theorem Started.split {fi : FolderInfoId} {s t : Store} {d : Diff} (h : Started fi s d t)
    {f : Proto.FileInfo} (hf : f ∈ d.files) :
    ∃ pre p post, d.uuids.zip d.files = pre ++ p :: post ∧ p.2 = f := by
  rw [← h.files] at hf
  obtain ⟨p, hp, rfl⟩ := List.mem_map.mp hf
  obtain ⟨pre, post, heq⟩ := List.append_of_mem hp
  exact ⟨pre, p, post, heq, rfl⟩

/-- **Keepable is enough.** -/
theorem Started.kept {fi : FolderInfoId} {s t u : Store} {d : Diff} (h : Started fi s d t)
    (hrun : Run fi t (d.uuids.zip d.files) u) (hkeep : Keepable s fi d.blocks d.files) :
    Kept s fi d.files u := by
  have hpresent : ∀ f ∈ d.files, Present u fi f := by
    intro f hf
    obtain ⟨pre, p, post, heq, rfl⟩ := h.split hf
    have hsorted : (d.uuids.zip d.files).Pairwise fun p q => p.2.sequence < q.2.sequence := by
      have := hkeep.increasing
      rw [← h.files, List.pairwise_map] at this
      exact this
    rw [heq, List.pairwise_append] at hsorted
    obtain ⟨g, hg, hc⟩ := hrun.added pre p post heq
      (by
        rw [h.same.infos]
        exact (h.ready p (by rw [heq]; simp)).sequence)
      (fun q hq => hsorted.2.2 q hq p (List.mem_cons_self ..))
    exact (h.present_iff hrun.blocks hrun.wf hf hg hc).mpr
      ⟨hkeep.counters p.2 hf, hkeep.sizes p.2 hf⟩
  refine ⟨fun g hg => ?_, hpresent, ?_⟩
  · by_cases hname : ∃ f ∈ d.files, f.name = (s.files g).name
    · obtain ⟨f, hf, hname⟩ := hname
      obtain ⟨g', hg', hname', -⟩ := hpresent f hf
      exact ⟨g', hg', hname'.trans hname⟩
    · -- a name that the message does not have
      have hnot : ∀ p ∈ d.uuids.zip d.files, p.2.name ≠ (t.files g).name := by
        intro p hp heq
        refine hname ⟨p.2, ?_, ?_⟩
        · rw [← h.files]
          exact List.mem_map_of_mem hp
        · rw [heq, h.same.files]
      have hg' : g ∈ (t.infos fi).files := by
        rw [h.same.infos]
        exact hg
      obtain ⟨hmem, hn⟩ := (hrun.others _ hnot g).mpr ⟨hg', rfl⟩
      exact ⟨g, hmem, by rw [hn, h.same.files]⟩
  · have hfold : ∀ (ps : List (Uuid × Proto.FileInfo)) m,
        ps.foldl (fun m p => max m p.2.sequence) m =
          (ps.map Prod.snd).foldl (fun m f => max m f.sequence) m := by
      intro ps m
      rw [List.foldl_map]
    rw [hrun.maxSequence, hfold, h.files, h.same.infos]

/-- **Keepable is needed.** -/
theorem Started.keepable {fi : FolderInfoId} {s t u : Store} {d : Diff} (h : Started fi s d t)
    (hrun : Run fi t (d.uuids.zip d.files) u) (happ : ∀ f ∈ d.files, Applicable fi s f)
    (hkept : Kept s fi d.files u) : Keepable s fi d.blocks d.files := by
  have hready : ∀ p ∈ d.uuids.zip d.files, (t.infos fi).maxSequence < p.2.sequence := by
    intro p hp
    rw [h.same.infos]
    exact (h.ready p hp).sequence
  -- no file has been dropped, so none has met a larger sequence
  have hpre : ∀ pre p post, d.uuids.zip d.files = pre ++ p :: post →
      ∀ q ∈ pre, q.2.sequence < p.2.sequence := by
    intro pre p post heq q hq
    by_contra hle
    have hmem : p.2 ∈ d.files := by
      rw [← h.files, heq]
      simp
    obtain ⟨g, hg, hname, -⟩ := hkept.present p.2 hmem
    exact hrun.dropped pre p post heq (.inl ⟨q, hq, by omega⟩) g hg hname
  have hboth : ∀ f ∈ d.files, Version.Unmarked f.version.counters ∧
      f.size = reportedSize s d.blocks f := by
    intro f hf
    obtain ⟨pre, p, post, heq, rfl⟩ := h.split hf
    obtain ⟨g, hg, hc⟩ := hrun.added pre p post heq (hready p (by rw [heq]; simp))
      (hpre pre p post heq)
    exact (h.present_iff hrun.blocks hrun.wf hf hg hc).mp (hkept.present p.2 hf)
  refine ⟨?_, fun f hf => (hboth f hf).1, fun f hf => (hboth f hf).2, happ⟩
  rw [← h.files, List.pairwise_map]
  have hsorted : ∀ ps pre : List (Uuid × Proto.FileInfo), d.uuids.zip d.files = pre ++ ps →
      ps.Pairwise fun p q => p.2.sequence < q.2.sequence := by
    intro ps
    induction ps with
    | nil => exact fun _ _ => List.Pairwise.nil
    | cons p ps ih =>
      intro pre heq
      refine List.Pairwise.cons (fun q hq => ?_) (ih (pre ++ [p]) (by rw [heq]; simp))
      obtain ⟨mid, post, hsplit⟩ := List.append_of_mem hq
      refine hpre (pre ++ p :: mid) q post ?_ p (by simp)
      rw [heq, hsplit]
      simp
  exact hsorted _ [] rfl

theorem Started.applicable_iff {fi : FolderInfoId} {s t : Store} {d : Diff} (h : Started fi s d t)
    (f : Proto.FileInfo) : Applicable fi t f ↔ Applicable fi s f := by
  have hkind : KindKept fi t f ↔ KindKept fi s f := by
    unfold KindKept
    rw [h.same.byName, h.same.files]
  exact ⟨fun hf => ⟨hf.named, hkind.mp hf.kind⟩, fun hf => ⟨hf.named, hkind.mpr hf.kind⟩⟩

/-- **Index messages.** Nothing that `create` accepts gets lost exactly when the accepted
sequences increase, the counters leave the borrowed bit alone, the announced sizes are
those of the blocks, every file has a name, and no blocks meet a directory or a link. -/
theorem files_kept_iff {c : Cluster} (hwf : c.WF) (hb : c.BlocksWF) {nextUuid : Nat → Uuid}
    {source : Sha256} {message : Proto.IndexBase} {folder : Folder} {fi : FolderInfoId} {d : Diff}
    (hfolder : c.folderById message.folder = some folder)
    (hfi : c.byDeviceId folder source = some fi)
    (hfresh : FreshUuids c.toStore fi nextUuid message.files.length)
    (hcreate : create c nextUuid source message = .ok d) :
    (∃ t, apply c d = some t ∧ Kept c.toStore fi d.files t) ↔
      Keepable c.toStore fi d.blocks d.files := by
  obtain ⟨hcreated, hid, hpeer⟩ := create_ok hcreate hfolder hfi
  obtain ⟨t, happly, hstart⟩ := started_of_created hwf hb hfresh hcreated (by rw [hid]; exact hfolder)
    (by rw [hpeer]; exact hfi)
  have happ := @Started.applicable_iff fi c.toStore t d hstart
  rw [happly]
  constructor
  · rintro ⟨u, hu, hkept⟩
    have hkinds : ∀ p ∈ d.uuids.zip d.files, Applicable fi t p.2 := by
      by_contra hnot
      push Not at hnot
      rw [applyFiles_of_not_applicable (hstart.same.wf hwf) hstart.distinct hstart.ready hnot] at hu
      cases hu
    obtain ⟨u', hu', hrun⟩ := applyFiles_spec (hstart.same.wf hwf) hstart.distinct hstart.ready hkinds
    rw [hu] at hu'
    cases hu'
    refine hstart.keepable hrun (fun f hf => ?_) hkept
    rw [← hstart.files] at hf
    obtain ⟨p, hp, rfl⟩ := List.mem_map.mp hf
    exact (happ p.2).mp (hkinds p hp)
  · intro hkeep
    obtain ⟨u, hu, hrun⟩ := applyFiles_spec (hstart.same.wf hwf) hstart.distinct hstart.ready
      fun p hp => (happ p.2).mpr (hkeep.applicable p.2 (by
        rw [← hstart.files]
        exact List.mem_map_of_mem hp))
    exact ⟨u, hu, hstart.kept hrun hkeep⟩

/-- A peer with a shared folder and no files yet. -/
def newPeer : Cluster where
  toStore := Store.initial fun _ => ⟨default, [2], [], 0, 0, [1]⟩
  folders := [⟨"docs", default, [0]⟩]

/-- A regular file with one block. -/
def announce (name : String) (sequence : Int) (hash : UInt8) : Proto.FileInfo :=
  { (default : Proto.FileInfo) with
    name := name
    size := 5
    sequence := sequence
    version := ⟨[⟨2, 1⟩]⟩
    blocks := [⟨5, [hash], 0⟩] }

/-- What `create` makes of new files. -/
def announceDiff (files : List Proto.FileInfo) : Diff where
  folderId := "docs"
  peerId := [2]
  files := files
  uuids := (List.range files.length).map fun k => Uuid.ofByte k.toUInt8
  blocks := files.flatMap Proto.FileInfo.blocks
  removedBlocks := []

/-- Two new files in the order of their sequences. -/
theorem files_kept_of_ascending :
    ∃ t, apply newPeer (announceDiff [announce "a" 1 7, announce "b" 2 8]) = some t ∧
      Kept newPeer.toStore 0 [announce "a" 1 7, announce "b" 2 8] t := by
  have hfresh : FreshUuids newPeer.toStore 0 (fun k => Uuid.ofByte k.toUInt8) 2 :=
    ⟨by decide, by simp [newPeer, Store.initial]⟩
  have hcreate : create newPeer (fun k => Uuid.ofByte k.toUInt8) [2]
      ⟨"docs", [announce "a" 1 7, announce "b" 2 8]⟩ =
        .ok (announceDiff [announce "a" 1 7, announce "b" 2 8]) := rfl
  have hkeep : Keepable newPeer.toStore 0 (announceDiff [announce "a" 1 7, announce "b" 2 8]).blocks
      [announce "a" 1 7, announce "b" 2 8] := by
    refine ⟨by decide, ?_, by decide, fun f hf => ⟨?_, fun _ _ prev hprev => ?_⟩⟩
    · unfold Version.Unmarked
      decide
    · revert f
      decide
    · cases hprev
  exact (@files_kept_iff newPeer (WF.initial fun _ => rfl) (BlocksWF.initial _) _ _ _ ⟨"docs", default, [0]⟩ 0 _
    rfl rfl hfresh hcreate).mpr hkeep

/-- Two new files the other way round: both are accepted, and the second one is
dropped. -/
theorem file_lost_of_descending :
    create newPeer (fun k => Uuid.ofByte k.toUInt8) [2]
        ⟨"docs", [announce "a" 2 7, announce "b" 1 8]⟩ =
      .ok (announceDiff [announce "a" 2 7, announce "b" 1 8]) ∧
    ∃ t, apply newPeer (announceDiff [announce "a" 2 7, announce "b" 1 8]) = some t ∧
      (t.infos 0).files.map (fun g => (t.files g).name) = ["a"] ∧
      ¬ Kept newPeer.toStore 0 [announce "a" 2 7, announce "b" 1 8] t := by
  have hnames : (apply newPeer (announceDiff [announce "a" 2 7, announce "b" 1 8])).map
      (fun t => (t.infos 0).files.map fun g => (t.files g).name) = some ["a"] := by decide
  obtain ⟨t, ht, hnames⟩ := Option.map_eq_some_iff.mp hnames
  refine ⟨rfl, t, ht, hnames, fun hkept => ?_⟩
  obtain ⟨g, hg, hname, -⟩ := hkept.present (announce "b" 1 8) (by simp)
  have hmem : "b" ∈ (t.infos 0).files.map fun g => (t.files g).name :=
    List.mem_map.mpr ⟨g, hg, hname⟩
  rw [hnames] at hmem
  exact absurd hmem (by decide)

end UpdateFolder

end SyncSpirit
