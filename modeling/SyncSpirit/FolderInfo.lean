import SyncSpirit.FileUpdate

/-!
# The files of a folder info (`model/folder_info.cpp`, `file_infos_map_t`)

The files of one device in one folder are kept in a multi-index map with three
unique keys (uuid, name and sequence) beside `max_sequence`.

`Store.WF` is the invariant of the store: slots and back references match, the
union members fit the types, the keys in every map are unique and no sequence
exceeds `max_sequence`. In a well-formed store an insertion behind
`max_sequence` meets no other file (`put_of_free`), and removing a file by its
three keys removes nothing else (`files_remove`).
-/

namespace SyncSpirit

namespace Store

/-- `file_infos_map_t::by_name`. -/
def byName (s : Store) (fi : FolderInfoId) (name : String) : Option FileId :=
  (s.infos fi).files.find? fun f => (s.files f).name = name

/-- `file_infos_map_t::by_uuid`. -/
def byUuid (s : Store) (fi : FolderInfoId) (uuid : Uuid) : Option FileId :=
  (s.infos fi).files.find? fun f => (s.files f).uuid = uuid

/-- The element that prevents an insertion. The indices are tried one after
another: uuid, name, sequence. -/
def collision (s : Store) (files : List FileId) (f : FileId) : Option FileId :=
  files.find? (fun g => (s.files g).uuid = (s.files f).uuid) <|>
  files.find? (fun g => (s.files g).name = (s.files f).name) <|>
  files.find? (fun g => (s.files g).sequence = (s.files f).sequence)

/-- One of the three rounds of `file_infos_map_t::put`: insert, or replace the
element that is in the way unless another one is, too. -/
def putOnce (s : Store) (f : FileId) (files : List FileId) : List FileId :=
  match s.collision files f with
  | none => files ++ [f]
  | some g =>
    if (s.collision (files.filter (· ≠ g)) f).isSome then files
    else files.map fun h => if h = g then f else h

/-- `file_infos_map_t::put`. -/
def put (s : Store) (fi : FolderInfoId) (f : FileId) : Store :=
  { s with infos := Function.update s.infos fi { s.infos fi with
      files := s.putOnce f (s.putOnce f (s.putOnce f (s.infos fi).files)) } }

/-- `file_infos_map_t::remove`: by all three keys. -/
def remove (s : Store) (fi : FolderInfoId) (f : FileId) : Store :=
  { s with infos := Function.update s.infos fi { s.infos fi with
      files := (s.infos fi).files.filter fun g =>
        (s.files g).uuid ≠ (s.files f).uuid ∧ (s.files g).name ≠ (s.files f).name ∧
          (s.files g).sequence ≠ (s.files f).sequence } }

/-- Another `max_sequence`. -/
def setMaxSequence (s : Store) (fi : FolderInfoId) (seq : Int) : Store :=
  { s with infos := Function.update s.infos fi { s.infos fi with maxSequence := seq } }

/-- `folder_info_t::add_strict`. -/
def addStrict (s : Store) (fi : FolderInfoId) (f : FileId) : Bool × Store :=
  let seq := (s.files f).sequence
  if (s.infos fi).maxSequence < seq then (true, (s.setMaxSequence fi seq).put fi f)
  else (false, s)

/-- `folder_info_t::add_relaxed`. -/
def addRelaxed (s : Store) (fi : FolderInfoId) (f : FileId) : Store :=
  let s := s.put fi f
  s.setMaxSequence fi (max (s.infos fi).maxSequence (s.files f).sequence)

/-! ## Well-formed stores -/

/-- Two files share no key. -/
def KeysDiffer (a b : FileInfo) : Prop :=
  a.uuid ≠ b.uuid ∧ a.name ≠ b.name ∧ a.sequence ≠ b.sequence

/-- The map of a folder info is in order. -/
structure InfoWF (s : Store) (fi : FolderInfoId) : Prop where
  allocated : ∀ f ∈ (s.infos fi).files, f < s.nextFile
  nodup : (s.infos fi).files.Nodup
  keys : ∀ f ∈ (s.infos fi).files, ∀ g ∈ (s.infos fi).files, f ≠ g →
    KeysDiffer (s.files f) (s.files g)
  bound : ∀ f ∈ (s.infos fi).files, (s.files f).sequence ≤ (s.infos fi).maxSequence

/-- The invariant of the store. -/
structure WF (s : Store) : Prop where
  linked : s.graph.Linked
  coherent : ∀ f, (s.files f).Coherent
  fresh : ∀ f, s.nextFile ≤ f → (s.files f).slots = []
  infos : ∀ fi, s.InfoWF fi
  disjoint : ∀ fi fi', ∀ f ∈ (s.infos fi).files, f ∈ (s.infos fi').files → fi = fi'

/-- The invariant of the block map: the blocks that files refer to are in it, under
their hashes. -/
structure BlocksWF (s : Store) : Prop where
  known : ∀ f i b l, s.graph.slot f i = some (b, l) → s.byHash (s.blocks b).hash = some b
  mapped : ∀ b ∈ s.blockMap, b < s.nextBlock

/-- Nothing refers to an address that is still free. -/
theorem BlocksWF.fileBlocks_eq_nil {s : Store} (h : s.BlocksWF) (hl : s.graph.Linked) {b : BlockId}
    (hb : s.nextBlock ≤ b) : (s.blocks b).fileBlocks = [] := by
  cases hfbs : (s.blocks b).fileBlocks with
  | nil => rfl
  | cons fb fbs =>
    have hmem : fb ∈ s.graph.entries b := by
      show fb ∈ (s.blocks b).fileBlocks
      rw [hfbs]
      exact List.mem_cons_self ..
    obtain ⟨l, hslot⟩ := hl.slot_of_entry b fb hmem
    have hlt := h.mapped b (byHash_eq_some (h.known _ _ b l hslot)).1
    exact absurd hlt (Nat.not_lt.mpr hb)

/-- No files and no blocks yet. -/
def initial (infos : FolderInfoId → FolderInfo) : Store where
  blocks _ := default
  blockMap := []
  nextBlock := 0
  files _ := default
  nextFile := 0
  infos := infos

theorem WF.initial {infos : FolderInfoId → FolderInfo} (h : ∀ fi, (infos fi).files = []) :
    (initial infos).WF where
  linked := by
    refine ⟨fun b e he => ?_, fun f i b l hs => ?_, fun b => List.nodup_nil⟩
    · cases he
    · cases hs
  coherent f := ⟨fun _ => ⟨_, rfl⟩, fun _ => rfl⟩
  fresh f _ := rfl
  infos fi := by
    have hfiles : ((Store.initial infos).infos fi).files = [] := h fi
    refine ⟨?_, ?_, ?_, ?_⟩ <;> rw [hfiles]
    · simp
    · exact List.nodup_nil
    · simp
    · simp
  disjoint fi fi' f hf := by
    rw [show ((Store.initial infos).infos fi).files = [] from h fi] at hf
    cases hf

theorem BlocksWF.initial (infos : FolderInfoId → FolderInfo) : (Store.initial infos).BlocksWF where
  known f i b l hs := by cases hs
  mapped b hb := by cases hb

/-! ## Insertion and removal -/

theorem collision_eq_none {s : Store} {files : List FileId} {f : FileId} :
    s.collision files f = none ↔ ∀ g ∈ files, KeysDiffer (s.files g) (s.files f) := by
  unfold collision KeysDiffer
  simp only [Option.orElse_eq_orElse, Option.orElse_eq_or, Option.or_eq_none_iff,
    List.find?_eq_none, decide_eq_true_eq]
  constructor
  · rintro ⟨h₁, h₂, h₃⟩ g hg
    exact ⟨h₁ g hg, h₂ g hg, h₃ g hg⟩
  · intro h
    exact ⟨fun g hg => (h g hg).1, fun g hg => (h g hg).2.1, fun g hg => (h g hg).2.2⟩

/-- A file that is in the map already is replaced by itself. -/
theorem putOnce_self {s : Store} {files : List FileId} {f : FileId}
    (hfree : ∀ g ∈ files, KeysDiffer (s.files g) (s.files f)) :
    s.putOnce f (files ++ [f]) = files ++ [f] := by
  have hnotMem : f ∉ files := fun hf => (hfree f hf).1 rfl
  have hcol : s.collision (files ++ [f]) f = some f := by
    have hnone : files.find? (fun g => (s.files g).uuid = (s.files f).uuid) = none :=
      List.find?_eq_none.mpr fun g hg => by simpa using (hfree g hg).1
    simp [collision, List.find?_append, hnone]
  have hfilter : (files ++ [f]).filter (· ≠ f) = files := by
    have hall : files.filter (· ≠ f) = files :=
      List.filter_eq_self.mpr fun g hg => by
        simp only [ne_eq, decide_not, Bool.not_eq_true', decide_eq_false_iff_not]
        rintro rfl
        exact hnotMem hg
    rw [List.filter_append, hall]
    simp
  unfold putOnce
  rw [hcol]
  dsimp only
  rw [hfilter, collision_eq_none.mpr hfree, if_neg (by simp)]
  refine (List.map_congr_left fun h _ => ?_).trans (List.map_id _)
  by_cases hh : h = f
  · simp [hh]
  · simp [hh]

theorem mem_putOnce {s : Store} {f g : FileId} {files : List FileId} (h : g ∈ s.putOnce f files) :
    g ∈ files ∨ g = f := by
  unfold putOnce at h
  split at h
  · simpa using h
  · rename_i g' _
    split at h
    · exact .inl h
    · obtain ⟨k, hk, rfl⟩ := List.mem_map.mp h
      by_cases hg : k = g'
      · exact .inr (if_pos hg)
      · rw [if_neg hg]
        exact .inl hk

/-- Nothing but the file itself is added to the map. -/
theorem mem_putOnce_thrice {s : Store} {f g : FileId} {files : List FileId}
    (h : g ∈ s.putOnce f (s.putOnce f (s.putOnce f files))) : g ∈ files ∨ g = f := by
  rcases mem_putOnce h with h | rfl
  · rcases mem_putOnce h with h | rfl
    · exact mem_putOnce h
    · exact .inr rfl
  · exact .inr rfl

/-- **Put** a file none of whose keys is taken. -/
theorem put_of_free {s : Store} {fi : FolderInfoId} {f : FileId}
    (hfree : ∀ g ∈ (s.infos fi).files, KeysDiffer (s.files g) (s.files f)) :
    s.put fi f = { s with infos := Function.update s.infos fi { s.infos fi with
      files := (s.infos fi).files ++ [f] } } := by
  have hfirst : s.putOnce f (s.infos fi).files = (s.infos fi).files ++ [f] := by
    unfold putOnce
    rw [collision_eq_none.mpr hfree]
  unfold put
  rw [hfirst, putOnce_self hfree, putOnce_self hfree]

/-- **Remove** a file of the map. -/
theorem files_remove {s : Store} {fi : FolderInfoId} (hwf : s.InfoWF fi) {f : FileId}
    (hf : f ∈ (s.infos fi).files) :
    s.remove fi f = { s with infos := Function.update s.infos fi { s.infos fi with
      files := (s.infos fi).files.filter (· ≠ f) } } := by
  unfold remove
  have hfilter : (s.infos fi).files.filter (fun g =>
      (s.files g).uuid ≠ (s.files f).uuid ∧ (s.files g).name ≠ (s.files f).name ∧
        (s.files g).sequence ≠ (s.files f).sequence) = (s.infos fi).files.filter (· ≠ f) := by
    refine List.filter_congr fun g hg => ?_
    by_cases hgf : g = f
    · simp [hgf]
    · have hkeys : KeysDiffer (s.files g) (s.files f) := hwf.keys g hg f hf hgf
      simpa [hgf, KeysDiffer] using hkeys
  rw [hfilter]

theorem byName_eq_some {s : Store} {fi : FolderInfoId} (hwf : s.InfoWF fi) {name : String}
    {f : FileId} :
    s.byName fi name = some f ↔ f ∈ (s.infos fi).files ∧ (s.files f).name = name := by
  unfold byName
  constructor
  · intro h
    exact ⟨List.mem_of_find?_eq_some h, by simpa using List.find?_some h⟩
  · rintro ⟨hf, hname⟩
    cases h : (s.infos fi).files.find? fun g => (s.files g).name = name with
    | none =>
      have := List.find?_eq_none.mp h f hf
      simp [hname] at this
    | some g =>
      have hg := List.mem_of_find?_eq_some h
      have hgname : (s.files g).name = name := by simpa using List.find?_some h
      by_cases hgf : g = f
      · rw [hgf]
      · exact absurd (hgname.trans hname.symm) (hwf.keys g hg f hf hgf).2.1

theorem byName_eq_none {s : Store} {fi : FolderInfoId} {name : String} :
    s.byName fi name = none ↔ ∀ f ∈ (s.infos fi).files, (s.files f).name ≠ name := by
  simp [byName, List.find?_eq_none]

/-! ## What keeps the invariant -/

/-- The file is in no map. -/
def Unlisted (s : Store) (f : FileId) : Prop := ∀ fi, f ∉ (s.infos fi).files

theorem InfoWF.of_eq {s t : Store} {fi : FolderInfoId} (h : s.InfoWF fi)
    (hinfo : t.infos fi = s.infos fi) (hnext : s.nextFile ≤ t.nextFile)
    (hfiles : ∀ f ∈ (s.infos fi).files, t.files f = s.files f) : t.InfoWF fi where
  allocated f hf := Nat.lt_of_lt_of_le (h.allocated f (hinfo ▸ hf)) hnext
  nodup := hinfo ▸ h.nodup
  keys f hf g hg hne := by
    rw [hinfo] at hf hg
    rw [hfiles f hf, hfiles g hg]
    exact h.keys f hf g hg hne
  bound f hf := by
    rw [hinfo] at hf ⊢
    rw [hfiles f hf]
    exact h.bound f hf

/-- Whatever happens to an unlisted file and its blocks. -/
theorem WF.of_sameBut {s t : Store} (h : s.WF) {f : FileId} (hsame : SameBut f s t)
    (hlisted : s.Unlisted f) (halloc : f < s.nextFile) (hlinked : t.graph.Linked)
    (hcoherent : (t.files f).Coherent) : t.WF where
  linked := hlinked
  coherent g := by
    by_cases hg : g = f
    · rw [hg]
      exact hcoherent
    · rw [hsame.files g hg]
      exact h.coherent g
  fresh g hg := by
    rw [hsame.nextFile] at hg
    have hgf : g ≠ f := Nat.ne_of_gt (Nat.lt_of_lt_of_le halloc hg)
    rw [hsame.files g hgf]
    exact h.fresh g hg
  infos fi := by
    refine (h.infos fi).of_eq (by rw [hsame.infos]) hsame.nextFile.ge fun g hg => ?_
    refine hsame.files g ?_
    rintro rfl
    exact hlisted fi hg
  disjoint := by
    rw [hsame.infos]
    exact h.disjoint

theorem graph_create {s : Store} {file : FileInfo} {n : Nat}
    (hslots : file.slots = List.replicate n none) :
    (s.create file).graph = s.graph.reset s.nextFile n := by
  show (s.setFile s.nextFile file).graph = _
  rw [graph_setFile, hslots]
  rfl

theorem WF.create {s : Store} (h : s.WF) {file : FileInfo} (hc : file.Coherent) {n : Nat}
    (hslots : file.slots = List.replicate n none) : (s.create file).WF where
  linked := by
    rw [graph_create hslots]
    refine h.linked.reset (fun j => ?_) n
    show (s.files s.nextFile).slots[j]?.join = none
    rw [h.fresh _ (Nat.le_refl _)]
    rfl
  coherent g := by
    by_cases hg : g = s.nextFile
    · rw [hg]
      show (Function.update s.files s.nextFile file s.nextFile).Coherent
      rw [Function.update_self]
      exact hc
    · show (Function.update s.files s.nextFile file g).Coherent
      rw [Function.update_of_ne hg]
      exact h.coherent g
  fresh g hg := by
    have hlt : s.nextFile < g := hg
    show (Function.update s.files s.nextFile file g).slots = []
    rw [Function.update_of_ne (Nat.ne_of_gt hlt)]
    exact h.fresh g (Nat.le_of_lt hlt)
  infos fi := by
    refine (h.infos fi).of_eq rfl (Nat.le_succ _) fun g hg => ?_
    exact Function.update_of_ne (Nat.ne_of_lt ((h.infos fi).allocated g hg)) _ _
  disjoint := h.disjoint

theorem WF.unlisted_nextFile {s : Store} (h : s.WF) : s.Unlisted s.nextFile := fun fi hf =>
  Nat.lt_irrefl _ ((h.infos fi).allocated _ hf)

/-- Other files and another maximum in one folder info. -/
theorem WF.setInfo {s : Store} (h : s.WF) {fi : FolderInfoId} {info : FolderInfo}
    (hinfo : ({ s with infos := Function.update s.infos fi info } : Store).InfoWF fi)
    (hnew : ∀ f ∈ info.files, f ∈ (s.infos fi).files ∨ s.Unlisted f) :
    ({ s with infos := Function.update s.infos fi info } : Store).WF where
  linked := h.linked
  coherent := h.coherent
  fresh := h.fresh
  infos fi' := by
    by_cases hfi : fi' = fi
    · rw [hfi]
      exact hinfo
    · exact (h.infos fi').of_eq (Function.update_of_ne hfi _ _) (Nat.le_refl _) fun _ _ => rfl
  disjoint := by
    -- a listed file of another folder info has been listed there before
    have hother : ∀ fi', fi' ≠ fi → ∀ f ∈ info.files, f ∉ (s.infos fi').files := by
      intro fi' hfi f hf hf'
      rcases hnew f hf with hold | hun
      · exact hfi (h.disjoint fi' fi f hf' hold)
      · exact hun fi' hf'
    intro fi₁ fi₂ f h₁ h₂
    dsimp only at h₁ h₂
    by_cases hfi₁ : fi₁ = fi <;> by_cases hfi₂ : fi₂ = fi
    · rw [hfi₁, hfi₂]
    · rw [hfi₁, Function.update_self] at h₁
      rw [Function.update_of_ne hfi₂] at h₂
      exact absurd h₂ (hother fi₂ hfi₂ f h₁)
    · rw [hfi₂, Function.update_self] at h₂
      rw [Function.update_of_ne hfi₁] at h₁
      exact absurd h₁ (hother fi₁ hfi₁ f h₂)
    · rw [Function.update_of_ne hfi₁] at h₁
      rw [Function.update_of_ne hfi₂] at h₂
      exact h.disjoint fi₁ fi₂ f h₁ h₂

theorem WF.remove {s : Store} (h : s.WF) {fi : FolderInfoId} {f : FileId}
    (hf : f ∈ (s.infos fi).files) : (s.remove fi f).WF ∧ (s.remove fi f).Unlisted f := by
  rw [files_remove (h.infos fi) hf]
  constructor
  · refine h.setInfo ⟨?_, ?_, ?_, ?_⟩ fun g hg => .inl (List.mem_filter.mp hg).1
    · intro g hg
      simp only [Function.update_self] at hg
      exact (h.infos fi).allocated g (List.mem_filter.mp hg).1
    · simp only [Function.update_self]
      exact (h.infos fi).nodup.filter _
    · intro g hg g' hg'
      simp only [Function.update_self] at hg hg'
      exact (h.infos fi).keys g (List.mem_filter.mp hg).1 g' (List.mem_filter.mp hg').1
    · intro g hg
      simp only [Function.update_self] at hg ⊢
      exact (h.infos fi).bound g (List.mem_filter.mp hg).1
  · intro fi' hf'
    by_cases hfi : fi' = fi
    · simp [hfi] at hf'
    · simp only [ne_eq, hfi, not_false_eq_true, Function.update_of_ne] at hf'
      exact hfi (h.disjoint fi' fi f hf' hf)

theorem Unlisted.remove {s : Store} {g : FileId} (h : s.Unlisted g) (fi : FolderInfoId)
    (f : FileId) : (s.remove fi f).Unlisted g := by
  intro fi' hg
  by_cases hfi : fi' = fi
  · subst hfi
    simp only [Store.remove, Function.update_self] at hg
    exact h fi' (List.mem_filter.mp hg).1
  · simp only [Store.remove, Function.update_of_ne hfi] at hg
    exact h fi' hg

/-- A file behind all others is added. -/
theorem addStrict_of_free {s : Store} {fi : FolderInfoId} {f : FileId}
    (hkeys : ∀ g ∈ (s.infos fi).files, KeysDiffer (s.files g) (s.files f))
    (hseq : (s.infos fi).maxSequence < (s.files f).sequence) :
    s.addStrict fi f = (true, { s with infos := Function.update s.infos fi { s.infos fi with
      files := (s.infos fi).files ++ [f], maxSequence := (s.files f).sequence } }) := by
  unfold addStrict
  dsimp only
  rw [if_pos hseq, put_of_free]
  · simp [setMaxSequence]
  · simpa [setMaxSequence] using hkeys

/-- **Add strict**: a file behind all others is added, any other one is not. -/
theorem addStrict_of_lt {s : Store} (h : s.WF) {fi : FolderInfoId} {f : FileId}
    (hfree : ∀ g ∈ (s.infos fi).files, (s.files g).uuid ≠ (s.files f).uuid ∧
      (s.files g).name ≠ (s.files f).name)
    (hun : s.Unlisted f) (halloc : f < s.nextFile)
    (hseq : (s.infos fi).maxSequence < (s.files f).sequence) :
    ∃ t, s.addStrict fi f = (true, t) ∧ t.WF ∧
      t = { s with infos := Function.update s.infos fi { s.infos fi with
        files := (s.infos fi).files ++ [f], maxSequence := (s.files f).sequence } } := by
  have hkeys : ∀ g ∈ (s.infos fi).files, KeysDiffer (s.files g) (s.files f) := by
    intro g hg
    have := (h.infos fi).bound g hg
    exact ⟨(hfree g hg).1, (hfree g hg).2, by omega⟩
  have heq := addStrict_of_free hkeys hseq
  refine ⟨_, heq, h.setInfo ⟨?_, ?_, ?_, ?_⟩ ?_, rfl⟩
  · intro g hg
    simp only [Function.update_self, List.mem_append, List.mem_singleton] at hg
    rcases hg with hg | rfl
    · exact (h.infos fi).allocated g hg
    · exact halloc
  · simp only [Function.update_self]
    refine List.nodup_append.mpr ⟨(h.infos fi).nodup, by simp, ?_⟩
    rintro g hg g' hg' rfl
    rw [List.mem_singleton.mp hg'] at hg
    exact hun fi hg
  · intro g hg g' hg' hne
    simp only [Function.update_self, List.mem_append, List.mem_singleton] at hg hg'
    rcases hg with hg | rfl <;> rcases hg' with hg' | rfl
    · exact (h.infos fi).keys g hg g' hg' hne
    · exact hkeys g hg
    · obtain ⟨h₁, h₂, h₃⟩ := hkeys g' hg'
      exact ⟨h₁.symm, h₂.symm, h₃.symm⟩
    · exact absurd rfl hne
  · intro g hg
    simp only [Function.update_self, List.mem_append, List.mem_singleton] at hg ⊢
    rcases hg with hg | rfl
    · exact Int.le_of_lt (Int.lt_of_le_of_lt ((h.infos fi).bound g hg) hseq)
    · exact Int.le_refl _
  · intro g hg
    rcases List.mem_append.mp hg with hg | hg
    · exact .inl hg
    · rw [List.mem_singleton.mp hg]
      exact .inr hun

theorem addStrict_of_ge {s : Store} {fi : FolderInfoId} {f : FileId}
    (hseq : (s.files f).sequence ≤ (s.infos fi).maxSequence) : s.addStrict fi f = (false, s) := by
  unfold addStrict
  dsimp only
  rw [if_neg (by omega)]

/-- A destroyed file leaves a well-formed store. -/
theorem WF.destroy {s : Store} (h : s.WF) {f : FileId} (hun : s.Unlisted f)
    (halloc : f < s.nextFile) : (s.destroy f).WF := by
  refine h.of_sameBut (SameBut.destroy s f) hun halloc ?_ ?_
  · rw [graph_destroy h.linked]
    refine (h.linked.erase f).reset (fun j => ?_) 0
    rw [Backlink.Graph.slot_erase, if_pos rfl]
  · have hdefault : (s.destroy f).files f = default := files_setFile _ f _
    rw [hdefault]
    exact ⟨fun _ => ⟨_, rfl⟩, fun _ => rfl⟩

end Store

end SyncSpirit
