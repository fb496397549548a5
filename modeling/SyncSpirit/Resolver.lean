import SyncSpirit.FileInfo

/-!
# The conflict resolver (`model/misc/resolver.cpp`)

What a device does about a peer's file is decided by `resolve`: nothing, copy
the remote file, or let the remote file win and keep the local one under a
conflict name. Every device decides alone, so the decisions of two devices have
to fit together.
-/

namespace SyncSpirit

open Proto (Counter Vector)

/-- The 32-byte digest of a device; only compared. -/
abbrev DeviceId := Nat

/-- `advance_action_t`. -/
inductive AdvanceAction where
  | ignore
  | remoteCopy
  | localUpdate
  | resolveRemoteWin
  deriving DecidableEq, Repr, Inhabited

/-- The action asks for the remote file. -/
def AdvanceAction.TakesRemote (a : AdvanceAction) : Prop :=
  a = .remoteCopy ∨ a = .resolveRemoteWin

instance (a : AdvanceAction) : Decidable a.TakesRemote :=
  inferInstanceAs (Decidable (_ ∨ _))

/-- `compare_by_version` (resolver.cpp:12–61). -/
def compareByVersion (remote loc : FileInfo) : AdvanceAction :=
  let rBest := remote.version.getBest
  let lBest := loc.version.getBest
  if rBest.id = lBest.id then
    if lBest.value > rBest.value then .ignore
    else if lBest.value < rBest.value then .remoteCopy
    else .ignore
  else
    let rSuperior := remote.version.contains loc.version
    let lSuperior := loc.version.contains remote.version
    if !rSuperior && !lSuperior && remote.deleted then .ignore
    else if !rSuperior && !lSuperior && loc.deleted then .remoteCopy
    else if rSuperior then .remoteCopy
    else if lSuperior then .ignore
    else if remote.modifiedS > loc.modifiedS then .resolveRemoteWin
    else if loc.modifiedS > remote.modifiedS then .ignore
    else if rBest.id ≥ lBest.id then .resolveRemoteWin
    else .ignore

/-- What the platform and the local clock's time zone contribute: whether links
can be created, which names can be stored, and `make_conflicting_name`. -/
structure Platform where
  symlinksSupported : Bool
  pathSupported : String → Bool
  makeConflictingName : FileInfo → String
  /-- the last piece of the path contains `.sync-conflict-` -/
  isConflictName : String → Bool

/-- A `folder_info_t` as the resolver reads it. -/
structure FolderInfoView where
  device : DeviceId
  files : List FileInfo

/-- `file_infos_map_t::by_name`. -/
def FolderInfoView.byName (fi : FolderInfoView) (name : String) : Option FileInfo :=
  fi.files.find? fun f => f.name == name

/-- A `folder_t` as the resolver reads it. -/
structure FolderView where
  ignoreDelete : Bool
  infos : List FolderInfoView

/-- The loop of resolver.cpp:89–101: some device other than the local one holds,
under the remote file's name, a different object whose version the remote
version does not contain. The remote file is the object of that name that
`owner` holds. -/
def outdated (folder : FolderView) (self owner : DeviceId) (remote : FileInfo) : Bool :=
  folder.infos.any fun fi =>
    fi.device != self && fi.device != owner &&
      match fi.byName remote.name with
      | some other => !remote.version.contains other.version
      | none => false

/-- `_resolve` (resolver.cpp:74–116). -/
def resolveByVersion (folder : FolderView) (self owner : DeviceId) (remote : FileInfo)
    (loc : Option FileInfo) : AdvanceAction :=
  if remote.unreachable then .ignore
  else if remote.invalid then .ignore
  else if outdated folder self owner remote then .ignore
  else if remote.deleted && folder.ignoreDelete then .ignore
  else match loc with
    | none => .remoteCopy
    | some loc =>
      if !loc.isLocal then .ignore
      else if remote.deleted && loc.deleted then .ignore
      else compareByVersion remote loc

/-- `resolve` (resolver.cpp:118–141). -/
def resolve (p : Platform) (folder : FolderView) (self owner : DeviceId)
    (localFiles : FolderInfoView) (remote : FileInfo) (loc : Option FileInfo) :
    AdvanceAction :=
  if remote.isLink && !remote.deleted && !p.symlinksSupported then .ignore
  else if !p.pathSupported remote.name then .ignore
  else
    match resolveByVersion folder self owner remote loc with
    | .resolveRemoteWin =>
      if p.isConflictName remote.name then .ignore
      else
        match loc.bind fun l => localFiles.byName (p.makeConflictingName l) with
        | some _ => .ignore
        | none => .resolveRemoteWin
    | action => action

/-! ## Two devices -/

/-- Exactly one of the two devices takes the other one's file and the other one
keeps its own. -/
def Agree (f g : FileInfo) : Prop :=
  ((compareByVersion g f).TakesRemote ∧ compareByVersion f g = .ignore) ∨
    ((compareByVersion f g).TakesRemote ∧ compareByVersion g f = .ignore)

instance (f g : FileInfo) : Decidable (Agree f g) :=
  inferInstanceAs (Decidable (_ ∨ _))

/-- Best counters of one device: the larger value wins on both sides. -/
theorem agree_of_same_id {f g : FileInfo}
    (hid : f.version.getBest.id = g.version.getBest.id)
    (hne : f.version.getBest ≠ g.version.getBest) : Agree f g := by
  have hval : f.version.getBest.value ≠ g.version.getBest.value := by
    intro h
    exact hne (by cases hf : f.version.getBest; cases hg : g.version.getBest; simp_all)
  rcases uint64_lt_or_gt hval with hlt | hgt
  · refine .inl ⟨.inl ?_, ?_⟩
    · rw [compareByVersion, if_pos hid.symm, if_neg (UInt64.lt_asymm hlt), if_pos hlt]
    · rw [compareByVersion, if_pos hid, if_pos hlt]
  · refine .inr ⟨.inl ?_, ?_⟩
    · rw [compareByVersion, if_pos hid, if_neg (UInt64.lt_asymm hgt), if_pos hgt]
    · rw [compareByVersion, if_pos hid.symm, if_pos hgt]

/-- One version covers the other one's best counter: it is taken. -/
theorem agree_of_superior {f g : FileInfo}
    (hid : f.version.getBest.id ≠ g.version.getBest.id)
    (hfg : f.version.contains g.version = true)
    (hgf : g.version.contains f.version = false) : Agree f g := by
  refine .inr ⟨.inl ?_, ?_⟩
  · simp [compareByVersion, hid, hfg]
  · simp [compareByVersion, hid.symm, hfg, hgf]

theorem Agree.symm {f g : FileInfo} (h : Agree f g) : Agree g f := h.elim .inr .inl

/-- Neither version covers the other one: a live file beats a deleted one, then
the later modification wins, then the larger device. -/
theorem agree_of_concurrent {f g : FileInfo}
    (hid : f.version.getBest.id ≠ g.version.getBest.id)
    (hdel : ¬ (f.deleted = true ∧ g.deleted = true))
    (hfg : f.version.contains g.version = false)
    (hgf : g.version.contains f.version = false) : Agree f g := by
  cases hf : f.deleted with
  | true =>
    have hg : g.deleted = false := by simpa [hf] using hdel
    refine .inl ⟨.inl ?_, ?_⟩
    · simp [compareByVersion, hid.symm, hfg, hgf, hf, hg]
    · simp [compareByVersion, hid, hfg, hgf, hf]
  | false =>
    cases hg : g.deleted with
    | true =>
      refine .inr ⟨.inl ?_, ?_⟩
      · simp [compareByVersion, hid, hfg, hgf, hf, hg]
      · simp [compareByVersion, hid.symm, hfg, hgf, hg]
    | false =>
      rcases lt_trichotomy f.modifiedS g.modifiedS with hlt | heq | hgt
      · refine .inl ⟨.inr ?_, ?_⟩
        · simp [compareByVersion, hid.symm, hfg, hgf, hf, hg, hlt]
        · simp [compareByVersion, hid, hfg, hgf, hf, hg, hlt, not_lt_of_gt hlt]
      · rcases uint64_lt_or_gt hid with hlt | hgt
        · refine .inl ⟨.inr ?_, ?_⟩
          · simp [compareByVersion, hid.symm, hfg, hgf, hf, hg, heq, UInt64.le_of_lt hlt]
          · simp [compareByVersion, hid, hfg, hgf, hf, hg, heq, UInt64.not_le.mpr hlt]
        · refine .inr ⟨.inr ?_, ?_⟩
          · simp [compareByVersion, hid, hfg, hgf, hf, hg, heq, UInt64.le_of_lt hgt]
          · simp [compareByVersion, hid.symm, hfg, hgf, hf, hg, heq, UInt64.not_le.mpr hgt]
      · refine .inr ⟨.inr ?_, ?_⟩
        · simp [compareByVersion, hid, hfg, hgf, hf, hg, hgt]
        · simp [compareByVersion, hid.symm, hfg, hgf, hf, hg, hgt, not_lt_of_gt hgt]

/-- Each version covers the other one's best counter: both devices take the
other one's file and their contents are swapped. -/
theorem not_agree_of_mutual {f g : FileInfo}
    (hid : f.version.getBest.id ≠ g.version.getBest.id)
    (hfg : f.version.contains g.version = true)
    (hgf : g.version.contains f.version = true) : ¬ Agree f g := by
  have h₁ : compareByVersion f g = .remoteCopy := by simp [compareByVersion, hid, hfg]
  have h₂ : compareByVersion g f = .remoteCopy := by simp [compareByVersion, hid.symm, hgf]
  rintro (⟨-, h⟩ | ⟨-, h⟩)
  · rw [h₁] at h; cases h
  · rw [h₂] at h; cases h

/-- **Two-device agreement**: for two records that are not both deleted and have
different best counters, exactly one device takes the other one's file, unless
the best counters are of different devices and each version contains the other. -/
theorem agree_iff (f g : FileInfo) (hdel : ¬ (f.deleted = true ∧ g.deleted = true))
    (hbest : f.version.getBest ≠ g.version.getBest) :
    Agree f g ↔ f.version.getBest.id = g.version.getBest.id ∨
      ¬ (f.version.contains g.version = true ∧ g.version.contains f.version = true) := by
  by_cases hid : f.version.getBest.id = g.version.getBest.id
  · exact iff_of_true (agree_of_same_id hid hbest) (.inl hid)
  · cases hfg : f.version.contains g.version with
    | true =>
      cases hgf : g.version.contains f.version with
      | true => exact iff_of_false (not_agree_of_mutual hid hfg hgf) (by simp [hid])
      | false => exact iff_of_true (agree_of_superior hid hfg hgf) (.inr (by simp))
    | false =>
      cases hgf : g.version.contains f.version with
      | true => exact iff_of_true (agree_of_superior (Ne.symm hid) hgf hfg).symm (.inr (by simp))
      | false => exact iff_of_true (agree_of_concurrent hid hdel hfg hgf) (.inr (by simp))

/-- A live regular file with a received version and a modification time. -/
def received (v : Vector) (modifiedS : Int) : FileInfo :=
  { (default : FileInfo) with version := .ofProto v, modifiedS := modifiedS }

/-- Both records list the counters of devices 1 and 2 with the value 5, in either
order. The constructor marks the first one, so the best counters differ, and each
device copies the other one's file. -/
theorem swap_of_tied_counters :
    let f := received ⟨[⟨2, 5⟩, ⟨1, 5⟩]⟩ 100
    let g := received ⟨[⟨1, 5⟩, ⟨2, 5⟩]⟩ 100
    ¬ (f.deleted = true ∧ g.deleted = true) ∧ f.version.getBest ≠ g.version.getBest ∧
      compareByVersion g f = .remoteCopy ∧ compareByVersion f g = .remoteCopy ∧
      ¬ Agree f g := by
  decide

/-- Two concurrent edits, one a second later: the later one is taken. -/
theorem agree_iff_concurrent_edits :
    Agree (received ⟨[⟨1, 5⟩]⟩ 100) (received ⟨[⟨2, 4⟩]⟩ 101) :=
  (agree_iff _ _ (by decide) (by decide)).mpr (by decide)

end SyncSpirit
