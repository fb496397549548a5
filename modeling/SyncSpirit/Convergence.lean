import SyncSpirit.Resolver
import Mathlib

/-!
# Resolution among any number of devices

A snapshot of a folder shared by `n` devices after all indices have been
exchanged and every device has scanned its disk: each device sees the files of
every other device exactly as their owner has them. `decision` is what a device
makes of one peer's file.

The guard of resolver.cpp:89–101 skips a remote file as soon as some third
device holds a version that the remote one does not *contain*. It is meant for a
third device with a newer version, but a third *concurrent* version has the same
effect, so three devices that edited the file independently all wait for one
another.

`progress_iff` says exactly when some device acts.
-/

namespace SyncSpirit

/-- What each of `n` devices has in the folder; all of it scanned. -/
structure Snapshot (n : Nat) where
  files : Fin n → List FileInfo
  platform : Fin n → Platform
  ignoreDelete : Fin n → Bool

namespace Snapshot

variable {n : Nat}

/-- A file as another device has it from the exchanged index. -/
def announced (f : FileInfo) : FileInfo :=
  { f with unreachable := false, isLocal := false, available := false }

/-- A file on its own device after the scan. -/
def scanned (f : FileInfo) : FileInfo := { f with isLocal := true }

/-- The folder_info of device `p` on device `d`. -/
def info (s : Snapshot n) (d p : Fin n) : FolderInfoView :=
  ⟨p, if p = d then (s.files p).map scanned else (s.files p).map announced⟩

/-- The folder as device `d` sees it. -/
def view (s : Snapshot n) (d : Fin n) : FolderView :=
  ⟨s.ignoreDelete d, (List.finRange n).map (s.info d)⟩

/-- The file that device `p` has under a name. -/
def file (s : Snapshot n) (p : Fin n) (name : String) : Option FileInfo :=
  (s.files p).find? fun f => f.name == name

/-- What device `d` does about the file of that name on device `p`. -/
def decision (s : Snapshot n) (d p : Fin n) (name : String) : AdvanceAction :=
  match (s.info d p).byName name with
  | none => .ignore
  | some remote =>
    resolve (s.platform d) (s.view d) d p (s.info d d) remote ((s.info d d).byName name)

/-- Some device acts on the file of some other device. -/
def Progress (s : Snapshot n) (name : String) : Prop :=
  ∃ d p : Fin n, d ≠ p ∧ s.decision d p name ≠ .ignore

/-- Every file of that name is valid and not deleted. -/
def Live (s : Snapshot n) (name : String) : Prop :=
  ∀ p : Fin n, ∀ f ∈ s.file p name, f.invalid = false ∧ f.deleted = false

instance (s : Snapshot n) (name : String) : Decidable (s.Live name) :=
  inferInstanceAs (Decidable (∀ p : Fin n, ∀ f ∈ s.file p name, _))

instance (s : Snapshot n) (name : String) : Decidable (s.Progress name) :=
  inferInstanceAs (Decidable (∃ _ _ : Fin n, _))

/-- Every device has the file, no two of them the same version. -/
def AllDiffer (s : Snapshot n) (name : String) : Prop :=
  (∀ p : Fin n, (s.file p name).isSome) ∧
    ∀ p d : Fin n, p ≠ d → ∀ f ∈ s.file p name, ∀ g ∈ s.file d name, f.version ≠ g.version

instance (s : Snapshot n) (name : String) : Decidable (s.AllDiffer name) :=
  inferInstanceAs (Decidable (_ ∧ ∀ _ _ : Fin n, _))

/-- The version `f` of device `p` contains the version of every device other
than `p` and `d`. -/
def CoversThird (s : Snapshot n) (name : String) (p d : Fin n) (f : FileInfo) : Prop :=
  ∀ q : Fin n, q ≠ p → q ≠ d → ∀ g ∈ s.file q name, f.version.contains g.version = true

/-- A conflict copy of `f` can be made on device `d`. -/
def CanKeepCopy (s : Snapshot n) (name : String) (d : Fin n) (f : FileInfo) : Prop :=
  (s.platform d).isConflictName name = false ∧
    s.file d ((s.platform d).makeConflictingName (scanned f)) = none

/-- Device `d` can store a file like `f` under the name. -/
def CanStore (s : Snapshot n) (name : String) (d : Fin n) (f : FileInfo) : Prop :=
  (s.platform d).pathSupported name = true ∧
    (f.isLink = true → (s.platform d).symlinksSupported = true)

/-- The peer's file `f` is to replace `g` on device `d`: its best counter is a newer one of the
same device; or it is of another device, and the version of `f` contains the other one, or neither
contains the other, `f` is later, and `g` can be kept under another name. -/
def Beats (s : Snapshot n) (name : String) (d : Fin n) (f g : FileInfo) : Prop :=
  if f.version.getBest.id = g.version.getBest.id then
    g.version.getBest.value < f.version.getBest.value
  else f.version.contains g.version = true ∨ (g.version.contains f.version = false ∧
    (g.modifiedS < f.modifiedS ∨
      (f.modifiedS = g.modifiedS ∧ g.version.getBest.id ≤ f.version.getBest.id)) ∧
    s.CanKeepCopy name d g)

instance (s : Snapshot n) (name : String) (p d : Fin n) (f : FileInfo) :
    Decidable (s.CoversThird name p d f) :=
  inferInstanceAs (Decidable (∀ _ : Fin n, _))

instance (s : Snapshot n) (name : String) (d : Fin n) (f : FileInfo) :
    Decidable (s.CanKeepCopy name d f) :=
  inferInstanceAs (Decidable (_ ∧ _))

instance (s : Snapshot n) (name : String) (d : Fin n) (f : FileInfo) :
    Decidable (s.CanStore name d f) :=
  inferInstanceAs (Decidable (_ ∧ _))

instance (s : Snapshot n) (name : String) (d : Fin n) (f g : FileInfo) :
    Decidable (s.Beats name d f g) :=
  inferInstanceAs (Decidable (if f.version.getBest.id = g.version.getBest.id then _ else _))

theorem byName_info {s : Snapshot n} {d p : Fin n} {name : String} :
    (s.info d p).byName name =
      (s.file p name).map (if p = d then scanned else announced) := by
  unfold info FolderInfoView.byName file
  by_cases h : p = d
  · simp [h, List.find?_map, Function.comp_def, scanned]
  · simp [h, List.find?_map, Function.comp_def, announced]

theorem file_name {s : Snapshot n} {p : Fin n} {name : String} {f : FileInfo}
    (h : s.file p name = some f) : f.name = name := by
  simpa using List.find?_some h

theorem announced_name {s : Snapshot n} {p : Fin n} {name : String} {f : FileInfo}
    (h : s.file p name = some f) : (announced f).name = name := by
  show f.name = name
  exact file_name h

/-- The guard lets a remote file pass exactly if its version covers every third device. -/
theorem outdated_eq_false_iff {s : Snapshot n} {d p : Fin n} {name : String} {f : FileInfo}
    (hf : s.file p name = some f) :
    outdated (s.view d) d p (announced f) = false ↔ s.CoversThird name p d f := by
  have hname : (announced f).name = name := announced_name hf
  unfold outdated view
  rw [List.any_map, List.any_eq_false]
  constructor
  · intro hall q hqp hqd g hg
    have hq := hall q (List.mem_finRange q)
    have hother : (s.info d q).byName name = some (announced g) := by
      rw [byName_info, if_neg hqd, hg, Option.map_some]
    have hids : (q : DeviceId) ≠ d ∧ (q : DeviceId) ≠ p :=
      ⟨fun heq => hqd (Fin.ext heq), fun heq => hqp (Fin.ext heq)⟩
    rw [Function.comp_apply, hname, hother] at hq
    simpa [info, hids, announced] using hq
  · intro hcov q _ hq
    simp only [Function.comp_apply, Bool.and_eq_true, bne_iff_ne, ne_eq] at hq
    obtain ⟨⟨hqd, hqp⟩, hmatch⟩ := hq
    have hqd' : q ≠ d := fun h => hqd (by rw [h]; rfl)
    have hqp' : q ≠ p := fun h => hqp (by rw [h]; rfl)
    rw [hname, byName_info, if_neg hqd'] at hmatch
    cases hg : s.file q name with
    | none => simp [hg] at hmatch
    | some g =>
      have hc := hcov q hqp' hqd' g hg
      simp [hg, announced, hc] at hmatch

/-- The comparison of two files that are not deleted. -/
theorem compareByVersion_cases {f g : FileInfo} (hf : f.deleted = false) (hg : g.deleted = false) :
    (compareByVersion f g = .remoteCopy ↔
      if f.version.getBest.id = g.version.getBest.id then
        g.version.getBest.value < f.version.getBest.value
      else f.version.contains g.version = true) ∧
    (compareByVersion f g = .resolveRemoteWin ↔
      f.version.getBest.id ≠ g.version.getBest.id ∧ f.version.contains g.version = false ∧
        g.version.contains f.version = false ∧ (g.modifiedS < f.modifiedS ∨
          (f.modifiedS = g.modifiedS ∧ g.version.getBest.id ≤ f.version.getBest.id))) ∧
    (compareByVersion f g = .ignore ∨ compareByVersion f g = .remoteCopy ∨
      compareByVersion f g = .resolveRemoteWin) := by
  unfold compareByVersion
  grind

theorem beats_iff {s : Snapshot n} {name : String} {d : Fin n} {f g : FileInfo} (hf : f.deleted = false)
    (hg : g.deleted = false) : s.Beats name d f g ↔ compareByVersion f g = .remoteCopy ∨
      (compareByVersion f g = .resolveRemoteWin ∧ s.CanKeepCopy name d g) := by
  obtain ⟨hcopy, hwin, -⟩ := compareByVersion_cases hf hg
  rw [hcopy, hwin]
  unfold Beats
  by_cases hid : f.version.getBest.id = g.version.getBest.id
  · simp [hid]
  · cases hc : f.version.contains g.version with
    | true => simp [hid]
    | false => simp [hid, and_assoc]

/-- A file that is not to be kept out is compared with the local one. -/
theorem resolveByVersion_announced {s : Snapshot n} {d p : Fin n} {name : String} {f : FileInfo}
    (hlive : s.Live name) (hf : s.file p name = some f) :
    resolveByVersion (s.view d) d p (announced f) ((s.file d name).map scanned) =
      if s.CoversThird name p d f then
        match s.file d name with
        | none => .remoteCopy
        | some g => compareByVersion f g
      else .ignore := by
  obtain ⟨hinvalid, hdeleted⟩ := hlive p f hf
  unfold resolveByVersion
  by_cases hcov : s.CoversThird name p d f
  · rw [if_pos hcov, (outdated_eq_false_iff hf).mpr hcov]
    cases hg : s.file d name with
    | none => simp [announced, hinvalid, hdeleted]
    | some g =>
      have hcmp : compareByVersion (announced f) (scanned g) = compareByVersion f g := rfl
      simp [announced, scanned, hinvalid, hdeleted, ← hcmp]
  · have hout : outdated (s.view d) d p (announced f) = true := by
      rw [← Bool.not_eq_false, outdated_eq_false_iff hf]
      exact hcov
    rw [if_neg hcov, hout]
    simp [announced, hinvalid]

/-- What passes the guard is compared, and a lost conflict additionally needs a free name. -/
theorem decision_iff {s : Snapshot n} {d p : Fin n} {name : String} {f : FileInfo}
    (hlive : s.Live name) (hpd : p ≠ d) (hf : s.file p name = some f) :
    s.decision d p name ≠ .ignore ↔
      s.CanStore name d f ∧ s.CoversThird name p d f ∧ ∀ g ∈ s.file d name, s.Beats name d f g := by
  obtain ⟨-, hdeleted⟩ := hlive p f hf
  have hname : (announced f).name = name := announced_name hf
  have hlink : ((announced f).isLink && !(announced f).deleted && !(s.platform d).symlinksSupported) =
      (f.isLink && !(s.platform d).symlinksSupported) := by
    show (f.isLink && !f.deleted && !(s.platform d).symlinksSupported) = _
    rw [hdeleted]
    simp
  unfold decision CanStore
  rw [byName_info, if_neg hpd, hf, byName_info, if_pos rfl, Option.map_some]
  dsimp only
  unfold resolve
  rw [hname, hlink, resolveByVersion_announced hlive hf]
  by_cases hstore : (s.platform d).pathSupported name = true ∧
      (f.isLink = true → (s.platform d).symlinksSupported = true)
  · rw [if_neg (by grind), if_neg (by simp [hstore.1])]
    by_cases hcov : s.CoversThird name p d f
    · rw [if_pos hcov]
      cases hg : s.file d name with
      | none => simpa [hcov, hstore.1] using hstore.2
      | some g =>
        have hfree : (s.info d d).byName ((s.platform d).makeConflictingName (scanned g)) = none ↔
            s.file d ((s.platform d).makeConflictingName (scanned g)) = none := by
          rw [byName_info, Option.map_eq_none_iff]
        have hbeats := @beats_iff n s name d f g hdeleted (hlive d g hg).2
        have hall : (∀ g' ∈ some g, s.Beats name d f g') ↔ s.Beats name d f g := by simp
        rw [hall, hbeats, and_iff_right hstore, and_iff_right hcov]
        rcases (compareByVersion_cases hdeleted (hlive d g hg).2).2.2 with hact | hact | hact
        · simp [hact]
        · simp [hact]
        · -- the local file has to be kept
          unfold CanKeepCopy
          rw [hact, ← hfree]
          dsimp only [Option.map_some, Option.bind_some]
          grind
    · simp [hcov]
  · refine iff_of_false (fun hacts => hacts ?_) fun hall => hstore hall.1
    split
    · rfl
    · split
      · rfl
      · grind

/-- **When some device acts**: the version of some device's file covers every third device, and
some other device, which can store it, has no file of that name or one that is to be replaced. -/
theorem progress_iff (s : Snapshot n) (name : String) (hlive : s.Live name) :
    s.Progress name ↔ ∃ p d : Fin n, p ≠ d ∧ ∃ f ∈ s.file p name,
      s.CanStore name d f ∧ s.CoversThird name p d f ∧ ∀ g ∈ s.file d name, s.Beats name d f g := by
  constructor
  · rintro ⟨d, p, hne, hacts⟩
    cases hf : s.file p name with
    | none =>
      refine absurd ?_ hacts
      unfold decision
      rw [byName_info, hf, Option.map_none]
    | some f => exact ⟨p, d, hne.symm, f, hf, (decision_iff hlive hne.symm hf).mp hacts⟩
  · rintro ⟨p, d, hne, f, hf, htakes⟩
    exact ⟨d, p, hne.symm, (decision_iff hlive hne hf).mpr htakes⟩

/-- A name that `make_conflicting_name` has produced. -/
def conflictName : String := "a.sync-conflict-20240101-000000-ABCDEFG"

/-- Every name can be stored, links too. Of the names used below only
`conflictName` contains `.sync-conflict-`. -/
def anyPlatform : Platform where
  symlinksSupported := true
  pathSupported _ := true
  makeConflictingName f := f.name ++ ".sync-conflict-"
  isConflictName name := name == conflictName

/-- Each device has one file of that name, with its own version and modification
time. -/
def ofEdits (name : String) (edits : Fin n → Proto.Vector × Int) : Snapshot n where
  files p := [{ received (edits p).1 (edits p).2 with name := name }]
  platform _ := anyPlatform
  ignoreDelete _ := false

/-- Two different versions of a conflict copy. -/
def conflictCopies : Snapshot 2 :=
  ofEdits conflictName ![(⟨[⟨1, 7⟩]⟩, 100), (⟨[⟨2, 8⟩]⟩, 101)]

/-- Three devices created `a` independently. -/
def threeEdits : Snapshot 3 :=
  ofEdits "a" ![(⟨[⟨1, 7⟩]⟩, 100), (⟨[⟨2, 8⟩]⟩, 101), (⟨[⟨3, 9⟩]⟩, 102)]

/-- Two guards can stop every device although all versions differ: no conflict
copy is made of a conflict copy, and three concurrent versions all wait for one
another. -/
theorem stuck_of_guards :
    (conflictCopies.Live conflictName ∧ conflictCopies.AllDiffer conflictName ∧
      ¬ conflictCopies.Progress conflictName) ∧
    (threeEdits.Live "a" ∧ threeEdits.AllDiffer "a" ∧ ¬ threeEdits.Progress "a") := by
  decide

/-- Two of three devices have the same file, and the third one an earlier one: that device acts. -/
theorem progress_of_shared_edit :
    (ofEdits "a" ![(⟨[⟨1, 7⟩]⟩, 102), (⟨[⟨2, 8⟩]⟩, 101), (⟨[⟨1, 7⟩]⟩, 102)] : Snapshot 3).Progress "a" :=
  (progress_iff _ _ (by decide)).mpr ⟨0, 1, by decide, _, rfl, by decide, by decide, by decide⟩

end Snapshot

end SyncSpirit
