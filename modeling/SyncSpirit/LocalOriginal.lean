import SyncSpirit.AdvanceContent

/-!
# The original of a scanned file (`local_update_t::get_original`)

A scanned object that some peer has announced is recorded with the peer's record instead of a new
version. The container of the folder infos is a hash table, so what is said here holds for
all orders in which they come.

- `candidate`: the file of a peer that passes the comparison of the code;
- `getOriginal_eq`: the first candidate is taken, and no later one replaces it;
- `describes_iff`: what is taken describes the scanned object exactly if the candidates agree with it in
  what the comparison leaves out.
-/

namespace SyncSpirit

namespace Advance

open Store

section Original

variable (host : Host) (s : Store) (found : Proto.FileInfo)

/-- The size of the peer's file can be computed: `get_size` follows the first and the last slot. -/
def Sized (fi : FolderInfoId) : Prop :=
  (s.infos fi).device ≠ host.self → ∀ f ∈ s.byName fi found.name, (s.getSize (s.files f)).isSome = true

/-- The file of a peer, if it passes the comparison. -/
def candidate (fi : FolderInfoId) : Option FileId :=
  if (s.infos fi).device = host.self then none
  else (s.byName fi found.name).filter fun f => sameFile s found (s.files f) = some true

variable {host s found}

theorem sameFile_isSome {file : FileInfo} :
    (sameFile s found file).isSome = (s.getSize file).isSome := by
  unfold sameFile
  cases s.getSize file <;> rfl

/-- One round: what has been found stays, as `compare` never returns more than 1. -/
theorem pick_eq {fi : FolderInfoId} (h : Sized host s found fi) (r : Option FileId) :
    pick host s found r fi = some (r.or (candidate host s found fi)) := by
  unfold pick candidate
  by_cases hself : (s.infos fi).device = host.self
  · rw [if_pos hself, if_pos hself, Option.or_none]
  · rw [if_neg hself, if_neg hself]
    cases hby : s.byName fi found.name with
    | none => rw [Option.filter_none, Option.or_none]
    | some f =>
      obtain ⟨matched, hmatched⟩ := Option.isSome_iff_exists.mp
        ((@sameFile_isSome s found (s.files f)).trans (h hself f (by rw [hby]; rfl)))
      dsimp only
      rw [Option.filter_some, hmatched]
      cases matched with
      | false => cases r <;> rfl
      | true =>
        cases r with
        | none => rfl
        | some r =>
          show some (some (if _ then _ else _)) = _
          rw [if_neg (Int.not_lt.mpr (LocalUpdate.compare_le_one _ _))]
          rfl

theorem sized_of_pick {fi : FolderInfoId} {r r' : Option FileId} (h : pick host s found r fi = some r') :
    Sized host s found fi := by
  intro hself f hf
  unfold pick at h
  rw [if_neg hself, Option.mem_def.mp hf] at h
  obtain ⟨matched, hmatched, -⟩ := Option.bind_eq_some_iff.mp h
  rw [← @sameFile_isSome s found, hmatched]
  rfl

/-- **The original** is the file of the first peer that passes the comparison. -/
theorem getOriginal_eq {fis : List FolderInfoId} (h : ∀ fi ∈ fis, Sized host s found fi) :
    getOriginal host s fis found = some (fis.findSome? (candidate host s found)) := by
  have hloop : ∀ r, fis.foldlM (pick host s found) r = some (r.or (fis.findSome? (candidate host s found))) := by
    induction fis with
    | nil => exact fun r => congrArg some (Option.or_none ..).symm
    | cons fi fis ih =>
      intro r
      have hrest := ih fun fi' hfi' => h fi' (List.mem_cons_of_mem _ hfi')
      rw [List.foldlM_cons, pick_eq (h fi (List.mem_cons_self ..)), List.findSome?_cons]
      show fis.foldlM (pick host s found) _ = _
      rw [hrest, Option.or_assoc]
      cases candidate host s found fi <;> rfl
  exact hloop none

/-- It returns only if all the sizes can be computed. -/
theorem sized_of_getOriginal {fis : List FolderInfoId} {r : Option FileId}
    (h : getOriginal host s fis found = some r) : ∀ fi ∈ fis, Sized host s found fi := by
  have hloop : ∀ (l : List FolderInfoId) (r₀ : Option FileId), l.foldlM (pick host s found) r₀ = some r →
      ∀ fi ∈ l, Sized host s found fi := by
    intro l
    induction l with
    | nil => exact fun _ _ fi hfi => absurd hfi List.not_mem_nil
    | cons fi l ih =>
      intro r₀ hl fi' hfi'
      obtain ⟨r₁, hpick, hrest⟩ := Option.bind_eq_some_iff.mp hl
      rcases List.mem_cons.mp hfi' with rfl | hfi'
      · exact sized_of_pick hpick
      · exact ih r₁ hrest fi' hfi'
  exact hloop fis none h

theorem getOriginal_eq_some_iff {fis : List FolderInfoId} {f : FileId} :
    getOriginal host s fis found = some (some f) ↔
      (∀ fi ∈ fis, Sized host s found fi) ∧ fis.findSome? (candidate host s found) = some f := by
  constructor
  · intro h
    have hsized := sized_of_getOriginal h
    rw [getOriginal_eq hsized, Option.some.injEq] at h
    exact ⟨hsized, h⟩
  · rintro ⟨hsized, h⟩
    rw [getOriginal_eq hsized, h]

/-- Every candidate is taken if its peer comes first. -/
theorem findSome?_candidate_first {fis : List FolderInfoId} {fi : FolderInfoId} {f : FileId} (hfi : fi ∈ fis)
    (hf : candidate host s found fi = some f) : ∃ order : List FolderInfoId, order.Perm fis ∧
      order.findSome? (candidate host s found) = some f := by
  refine ⟨fi :: fis.erase fi, (List.perm_cons_erase hfi).symm, ?_⟩
  rw [List.findSome?_cons, hf]

theorem candidate_eq_some {fi : FolderInfoId} {f : FileId} : candidate host s found fi = some f ↔
    (s.infos fi).device ≠ host.self ∧ s.byName fi found.name = some f ∧
      sameFile s found (s.files f) = some true := by
  unfold candidate
  by_cases hself : (s.infos fi).device = host.self
  · simp [hself]
  · rw [if_neg hself, Option.filter_eq_some_iff, decide_eq_true_iff]
    exact ⟨fun h => ⟨hself, h.1, h.2⟩, fun h => h.2⟩

/-! ## What the original says of the scanned object -/

/-- The hashes of the blocks of a file, `none` for a null slot. -/
def slotHashes (s : Store) (file : FileInfo) : List (Option Bytes) :=
  file.targets.map fun v => v.map fun b => (s.blocks b).hash

/-- The record of the file describes the scanned object. -/
structure Portrays (s : Store) (found : Proto.FileInfo) (file : FileInfo) : Prop where
  type : asFlags found.type = file.type
  deleted : found.deleted = file.deleted
  invalid : found.invalid = file.invalid
  size : s.getSize file = some found.size
  hashes : file.type = .file → slotHashes s file = found.blocks.map fun b => some b.hash
  target : file.type = .link → linkTarget file = found.symlinkTarget
  permissions : found.noPermissions = false → file.noPermissions = false → found.permissions = file.permissions

/-- What the comparison leaves out: the target of a link, the permissions if both sides track them, and
the blocks behind a null slot. -/
structure Tracked (found : Proto.FileInfo) (file : FileInfo) : Prop where
  complete : file.type = .file → ∀ v ∈ file.slots, v ≠ none
  target : file.type = .link → linkTarget file = found.symlinkTarget
  permissions : found.noPermissions = false → file.noPermissions = false → found.permissions = file.permissions

theorem sameFile_eq_some_true {file : FileInfo} : sameFile s found file = some true ↔
    s.getSize file = some found.size ∧ asFlags found.type = file.type ∧ found.deleted = file.deleted ∧
      found.invalid = file.invalid ∧
      (found.noPermissions = file.noPermissions ∨ found.permissions = file.permissions) ∧
      (file.isFile → file.slots.length = found.blocks.length ∧
        ∀ p ∈ ((file.slots.takeWhile Option.isSome).filterMap id).zip found.blocks,
          (s.blocks p.1.1).hash = p.2.hash) := by
  unfold sameFile
  cases s.getSize file with
  | none => simp
  | some size =>
    show some (decide _) = some true ↔ _
    rw [Option.some.injEq, decide_eq_true_iff, Option.some.injEq]

theorem map_eq_map_of_zip {α β γ : Type} {f : α → γ} {g : β → γ} {as : List α} :
    ∀ {bs : List β}, as.length = bs.length → (∀ p ∈ as.zip bs, f p.1 = g p.2) → as.map f = bs.map g := by
  induction as with
  | nil =>
    intro bs hlen _
    rw [List.eq_nil_of_length_eq_zero hlen.symm]
    rfl
  | cons a as ih =>
    intro bs hlen hzip
    cases bs with
    | nil => cases hlen
    | cons b bs =>
      rw [List.map_cons, List.map_cons, hzip (a, b) (by simp),
        ih (Nat.succ.inj hlen) fun p hp => hzip p (List.mem_cons_of_mem _ hp)]

/-- The loop over the blocks of the candidate, if it has no null slot, compares all of them. -/
theorem slotHashes_eq {file : FileInfo} {bs : List Proto.BlockInfo} (hfull : ∀ v ∈ file.slots, v ≠ none)
    (hlen : file.slots.length = bs.length)
    (hzip : ∀ p ∈ ((file.slots.takeWhile Option.isSome).filterMap id).zip bs, (s.blocks p.1.1).hash = p.2.hash) :
    slotHashes s file = bs.map fun b => some b.hash := by
  obtain ⟨slots, hslots⟩ : ∃ slots : List Slot, file.slots = slots.map some := by
    refine ⟨file.slots.filterMap id, ?_⟩
    rw [List.map_filterMap_some_eq_filter_map_isSome, List.map_id, List.filter_eq_self.mpr]
    exact fun v hv => Option.isSome_iff_ne_none.mpr (hfull v hv)
  have hwhile : (file.slots.takeWhile Option.isSome).filterMap id = slots := by
    have hall : file.slots.takeWhile Option.isSome = file.slots :=
      List.takeWhile_eq_self_iff.mpr fun v hv => Option.isSome_iff_ne_none.mpr (hfull v hv)
    rw [hall, hslots, List.filterMap_map]
    exact List.filterMap_some
  rw [hwhile] at hzip
  rw [hslots, List.length_map] at hlen
  unfold slotHashes FileInfo.targets
  rw [hslots, List.map_map, List.map_map]
  exact map_eq_map_of_zip hlen fun p hp => congrArg some (hzip p hp)

/-- A file that passes the comparison describes the object exactly if the rest agrees, too. -/
theorem portrays_iff_tracked {file : FileInfo} (h : sameFile s found file = some true) :
    Portrays s found file ↔ Tracked found file := by
  obtain ⟨hsize, htype, hdeleted, hinvalid, -, hblocks⟩ := sameFile_eq_some_true.mp h
  constructor
  · intro hp
    refine ⟨fun hfile v hv hnone => ?_, hp.target, hp.permissions⟩
    have hmem : none ∈ slotHashes s file := by
      rw [slotHashes, FileInfo.targets, List.map_map]
      exact List.mem_map.mpr ⟨v, hv, by rw [hnone]; rfl⟩
    rw [hp.hashes hfile] at hmem
    obtain ⟨b, -, hb⟩ := List.mem_map.mp hmem
    cases hb
  · intro ht
    refine ⟨htype, hdeleted, hinvalid, hsize, fun hfile => ?_, ht.target, ht.permissions⟩
    obtain ⟨hlen, hzip⟩ := hblocks (isFile_iff.mpr hfile)
    exact slotHashes_eq (ht.complete hfile) hlen hzip

/-- **The original describes the scanned object**, whatever the order of the peers, exactly if every
candidate agrees with it in what is not compared, or the size of a peer's file cannot be computed. -/
theorem portrays_iff (host : Host) (s : Store) (fis : List FolderInfoId) (found : Proto.FileInfo) :
    (∀ order, order.Perm fis → ∀ f, getOriginal host s order found = some (some f) →
      Portrays s found (s.files f)) ↔
    ((∀ fi ∈ fis, Sized host s found fi) →
      ∀ fi ∈ fis, ∀ f ∈ candidate host s found fi, Tracked found (s.files f)) := by
  constructor
  · intro hall hsized fi hfi f hf
    obtain ⟨order, horder, hfirst⟩ := findSome?_candidate_first hfi hf
    have horiginal : getOriginal host s order found = some (some f) :=
      getOriginal_eq_some_iff.mpr ⟨fun fi' hfi' => hsized fi' (horder.mem_iff.mp hfi'), hfirst⟩
    exact (portrays_iff_tracked (candidate_eq_some.mp hf).2.2).mp (hall order horder f horiginal)
  · intro hall order horder f hf
    obtain ⟨hsized, hfirst⟩ := getOriginal_eq_some_iff.mp hf
    obtain ⟨fi, hfi, hcandidate⟩ := List.exists_of_findSome?_eq_some hfirst
    have htracked := hall (fun fi' hfi' => hsized fi' (horder.mem_iff.mpr hfi')) fi (horder.mem_iff.mp hfi) f
      hcandidate
    exact (portrays_iff_tracked (candidate_eq_some.mp hcandidate).2.2).mpr htracked

end Original

/-! ## A link that points elsewhere, and a file with other permissions -/

/-- The local device 1 has nothing yet, the device 2 has the file. -/
def peerHas (file : FileInfo) : Store :=
  { Store.initial fun fi => ⟨default, [fi.toUInt8 + 1], if fi = 1 then [0] else [], 1, 0, []⟩ with
    files := fun _ => file
    nextFile := 1 }

def scanHost : Host := ⟨[1], 1, FileInfo.name⟩

/-- The peer's link "a" points to "x"; the user has let it point to "y". -/
def peerLink : FileInfo := { (default : FileInfo) with name := "a", type := .link, content := .nonFile "x" }

def scannedLink : Proto.FileInfo := { (default : Proto.FileInfo) with name := "a", type := .symlink, symlinkTarget := "y" }

/-- The peer's directory "a" can be read by everybody; the user has changed that. -/
def peerDir : FileInfo :=
  { (default : FileInfo) with name := "a", type := .dir, content := .nonFile "", permissions := 0o755 }

def scannedDir : Proto.FileInfo := { (default : Proto.FileInfo) with name := "a", type := .directory, permissions := 0o700 }

/-- Both are taken for what the peer has. -/
theorem original_of_other_object :
    (getOriginal scanHost (peerHas peerLink) [0, 1] scannedLink = some (some 0) ∧
      ¬ Portrays (peerHas peerLink) scannedLink ((peerHas peerLink).files 0)) ∧
    (getOriginal scanHost (peerHas peerDir) [0, 1] scannedDir = some (some 0) ∧
      ¬ Portrays (peerHas peerDir) scannedDir ((peerHas peerDir).files 0)) := by
  refine ⟨⟨by decide, fun h => ?_⟩, by decide, fun h => ?_⟩
  · exact absurd (h.target rfl) (by decide)
  · exact absurd (h.permissions rfl rfl) (by decide)

end Advance

end SyncSpirit
