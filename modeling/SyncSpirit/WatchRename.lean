import SyncSpirit.Lib.Run
import SyncSpirit.WatchTree

/-!
# Renamed directories

A renamed directory gets a good path only below the root of its folder and only if it stays with its
parent: `Renameable` is the condition, and `Tree.renamed` says that the rename then changes the paths
of the directory and of everything watched below it. `Fits` has the conditions of all operations, and
`consistent_of_run` is the result for whole runs. `slash_lost` is the rename of a directory in
the root of a folder.
-/

namespace SyncSpirit

namespace WatchTable

namespace Table

/-! ## The new paths -/

section Rename

variable {t t' : Table} {wd d : Int} {g : Guard} {old new folderPath newPath : List Char} {size : Nat}

/-- The path after the renaming of `old` to `new`. -/
def movedPath (old new path : List Char) : List Char := new ++ path.drop old.length

/-- The directory and everything watched below it. -/
def subtree (t : Table) (d : Int) : List Int := (Forest.bfs t.subdirMap t.pathMap.length [d]).getD []

theorem Consistent.subtree_spec (h : t.Consistent) (hd : t.find d ≠ none) :
    Forest.bfs t.subdirMap t.pathMap.length [d] = some (t.subtree d) ∧ (t.subtree d).Nodup ∧
      ∀ wd, wd ∈ t.subtree d ↔ Forest.Below t.subdirMap d wd := by
  obtain ⟨order, horder, hnodup, hmem, -⟩ := Forest.bfs_spec h.ranked (mem_wds.mpr hd)
  rw [List.length_map] at horder
  have hsubtree : t.subtree d = order := by rw [subtree, horder]; rfl
  rw [hsubtree]
  exact ⟨horder, hnodup, hmem⟩

/-- What is below a directory is watched, and its path starts with the directory's. -/
theorem Consistent.below_path (h : t.Consistent) (hd : t.find d = some g) {wd : Int}
    (hbelow : Forest.Below t.subdirMap d wd) : ∃ g', t.find wd = some g' ∧ ∃ tail, g'.path = g.path ++ tail := by
  induction hbelow with
  | self => exact ⟨g, hd, [], (List.append_nil _).symm⟩
  | child _ hc ih =>
    obtain ⟨p, hp, tail, htail⟩ := ih
    obtain ⟨hnonneg, g', hg', rfl⟩ := (h.subdirs _ _).mp hc
    obtain ⟨p', hp', name, -, hpath⟩ := h.component _ g' hg' hnonneg
    obtain rfl : p = p' := Option.some_inj.mp (hp.symm.trans hp')
    exact ⟨g', hg', tail ++ '/' :: name, by rw [hpath, htail, List.append_assoc]⟩

/-- **Some of the paths have changed**: those of `done`. -/
structure Renaming (t : Table) (old new : List Char) (done : List Int) (t' : Table) : Prop where
  find : ∀ wd, t'.find wd = (t.find wd).map fun g =>
    if wd ∈ done then { g with path := movedPath old new g.path } else g
  inverse : ∀ path wd, t'.pathToWd path = some wd ↔ ∃ g, t'.find wd = some g ∧ g.path = path
  subdirMap : t'.subdirMap = t.subdirMap
  folders : t'.watchedFolders = t.watchedFolders

theorem Renaming.start (old new : List Char) (h : t.Consistent) : Renaming t old new [] t where
  find wd := by
    cases t.find wd with
    | none => rfl
    | some g => simp
  inverse := h.inverse
  subdirMap := rfl
  folders := rfl

/-- One directory. -/
theorem Renaming.next {done : List Int} (h : Renaming t old new done t') (hnew : folderPath ++ newPath = new)
    (hg : t.find wd = some g) (hdone : wd ∉ done) (hold : ∃ tail, g.path = old ++ tail)
    (hfree : ∀ wd' g', t'.find wd' = some g' → g'.path = movedPath old new g.path → wd' = wd) :
    ∃ t'', renameOne folderPath newPath old.length t' wd = some t'' ∧ Renaming t old new (done ++ [wd]) t'' := by
  have hfind : t'.find wd = some g := by
    rw [h.find, hg, Option.map_some, if_neg hdone]
  have hsize : old.length ≤ g.path.length := by
    obtain ⟨tail, htail⟩ := hold
    rw [htail, List.length_append]
    exact Nat.le_add_right _ _
  have hpath : folderPath ++ newPath ++ g.path.drop old.length = movedPath old new g.path := by
    rw [hnew]
    rfl
  obtain ⟨mid, hmid⟩ : ∃ mid, mid = (t'.forgetPath g.path).setPath wd (movedPath old new g.path) := ⟨_, rfl⟩
  have hone : renameOne folderPath newPath old.length t' wd = some (mid.keepPath (movedPath old new g.path) wd) := by
    rw [renameOne, hfind, Option.bind_eq_bind, Option.bind_some, if_pos hsize, hmid, ← hpath]
    rfl
  have hmidFind (wd' : Int) : mid.find wd' =
      (t'.find wd').map fun g₀ => if wd' = wd then { g₀ with path := movedPath old new g.path } else g₀ := by
    rw [hmid]
    exact find_setPath
  have hmidPath : mid.pathToWd = Function.update t'.pathToWd g.path none := by rw [hmid]; rfl
  -- the new path is free after the old one has been taken out
  have hempty : mid.pathToWd (movedPath old new g.path) = none := by
    rw [hmidPath, Function.update_apply]
    split
    · rfl
    · rename_i hne
      cases hto : t'.pathToWd (movedPath old new g.path) with
      | none => rfl
      | some wd' =>
        obtain ⟨g', hg', hpath'⟩ := (h.inverse _ wd').mp hto
        obtain rfl := hfree wd' g' hg' hpath'
        rw [hfind] at hg'
        cases hg'
        exact absurd hpath'.symm hne
  refine ⟨_, hone, ?_, ?_, ?_, ?_⟩
  · intro wd'
    rw [find_keepPath, hmidFind, h.find, Option.map_map]
    cases hold' : t.find wd' with
    | none => rfl
    | some g₀ =>
      simp only [Option.map_some, Function.comp_apply, List.mem_append, List.mem_singleton]
      by_cases heq : wd' = wd
      · subst heq
        rw [hg] at hold'
        cases hold'
        simp [hdone]
      · simp [heq]
  · intro path wd'
    rw [pathToWd_keepPath wd hempty, find_keepPath, hmidFind, hmidPath, Function.update_apply]
    split
    · rename_i heq
      rw [Option.some.injEq]
      constructor
      · rintro rfl
        exact ⟨{ g with path := movedPath old new g.path }, by rw [hfind, Option.map_some, if_pos rfl], heq.symm⟩
      · rintro ⟨g₀, hg₀, hpath₀⟩
        obtain ⟨g₁, hg₁, hg₀⟩ := Option.map_eq_some_iff.mp hg₀
        by_contra hne
        rw [if_neg fun h' => hne h'.symm] at hg₀
        exact hne (hfree wd' g₁ hg₁ (by rw [hg₀, hpath₀, heq])).symm
    · rename_i hne
      rw [Function.update_apply]
      split
      · rename_i heq
        refine ⟨fun hc => (by cases hc), ?_⟩
        rintro ⟨g₀, hg₀, hpath₀⟩
        obtain ⟨g₁, hg₁, hg₀⟩ := Option.map_eq_some_iff.mp hg₀
        split at hg₀
        · rw [← hg₀] at hpath₀
          exact absurd hpath₀.symm hne
        · rename_i hwd
          rw [hg₀] at hg₁
          have h₁ := (h.inverse path wd').mpr ⟨g₀, hg₁, hpath₀⟩
          have h₂ := (h.inverse path wd).mpr ⟨g, hfind, heq.symm⟩
          exact absurd (Option.some_inj.mp (h₁.symm.trans h₂)) hwd
      · rename_i hne'
        rw [h.inverse]
        constructor
        · rintro ⟨g₀, hg₀, hpath₀⟩
          refine ⟨g₀, ?_, hpath₀⟩
          rw [hg₀, Option.map_some, if_neg]
          rintro rfl
          rw [hfind] at hg₀
          cases hg₀
          exact hne' hpath₀.symm
        · rintro ⟨g₀, hg₀, hpath₀⟩
          obtain ⟨g₁, hg₁, hg₀⟩ := Option.map_eq_some_iff.mp hg₀
          split at hg₀
          · rw [← hg₀] at hpath₀
            exact absurd hpath₀.symm hne
          · rw [hg₀] at hg₁
            exact ⟨g₀, hg₁, hpath₀⟩
  · rw [subdirMap_keepPath, hmid]
    exact h.subdirMap
  · rw [watchedFolders_keepPath, hmid]
    exact h.folders

/-- **The loop of `rename_self_descending`** changes the paths of the walk from its queue. -/
theorem Renaming.loop (hc : t.Consistent) (hnew : folderPath ++ newPath = new) {fuel : Nat} {queue order done : List Int}
    (horder : Forest.bfs t.subdirMap fuel queue = some order) (h : Renaming t old new done t')
    (hnodup : (done ++ order).Nodup)
    (hold : ∀ wd ∈ done ++ order, ∃ g, t.find wd = some g ∧ ∃ tail, g.path = old ++ tail)
    (hfree : ∀ wd ∈ order, ∀ g wd' g', t.find wd = some g → t.find wd' = some g' →
      g'.path = movedPath old new g.path → wd' = wd) :
    ∃ t'', renameLoop folderPath newPath old.length fuel queue t' = some t'' ∧
      Renaming t old new (done ++ order) t'' := by
  induction fuel generalizing queue order done t' with
  | zero =>
    cases queue with
    | nil =>
      cases horder
      exact ⟨t', rfl, by rwa [List.append_nil]⟩
    | cons wd queue => cases horder
  | succ fuel ih =>
    cases queue with
    | nil =>
      cases horder
      exact ⟨t', rfl, by rwa [List.append_nil]⟩
    | cons wd queue =>
      obtain ⟨rest, hrest, rfl⟩ := Option.map_eq_some_iff.mp horder
      have hwdOrder : wd ∈ wd :: rest := List.mem_cons_self ..
      obtain ⟨g, hg, tail, htail⟩ := hold wd (List.mem_append_right _ hwdOrder)
      have hdone : wd ∉ done := fun hmem => (List.nodup_append.mp hnodup).2.2 wd hmem wd hwdOrder rfl
      have hnext := h.next hnew hg hdone ⟨tail, htail⟩ (by
        intro wd' g' hg' hpath
        rw [h.find] at hg'
        obtain ⟨g₀, hg₀, hg'⟩ := Option.map_eq_some_iff.mp hg'
        split at hg'
        · -- two paths that begin with the old one stay different
          rename_i hmem
          obtain ⟨g₁, hg₁, tail₁, htail₁⟩ := hold wd' (List.mem_append_left _ hmem)
          obtain rfl : g₀ = g₁ := Option.some_inj.mp (hg₀.symm.trans hg₁)
          rw [← hg'] at hpath
          refine hc.wd_unique hg₀ hg ?_
          have htails : tail₁ = tail := by
            simpa [movedPath, htail, htail₁] using hpath
          rw [htail, htail₁, htails]
        · rw [← hg'] at hpath
          exact hfree wd hwdOrder g wd' g₀ hg hg₀ hpath)
      obtain ⟨t₁, hone, hrenaming⟩ := hnext
      have happend : done ++ [wd] ++ rest = done ++ wd :: rest := by simp
      obtain ⟨t₂, hloop, hrenaming₂⟩ := ih hrest hrenaming (happend ▸ hnodup) (happend ▸ hold)
        fun wd' hmem => hfree wd' (List.mem_cons_of_mem _ hmem)
      refine ⟨t₂, ?_, happend ▸ hrenaming₂⟩
      rw [renameLoop, hone, Option.bind_some, hrenaming.subdirMap]
      exact hloop

end Rename

section Renamed

variable {t t' : Table} {wd d prevParent parent : Int} {g pg ng : Guard} {old new prev name : List Char}

/-- A directory that is renamed within its parent keeps the invariant. -/
theorem Tree.renaming (h : t.Tree) (hd : t.find d = some g) (hnonneg : 0 ≤ g.parentFd)
    (hparent : t.find g.parentFd = some pg) (hname : IsName name) (hnew : new = pg.path ++ '/' :: name)
    (hr : Renaming t g.path new (t.subtree d) t') : t'.Tree := by
  have hc := h.toConsistent
  have hmem := (hc.subtree_spec (d := d) (by simp [hd])).2.2
  -- the path of a directory after the renaming
  have hcases {wd : Int} {g' : Guard} (hfind : t'.find wd = some g') : ∃ g₀, t.find wd = some g₀ ∧
      g'.parentFd = g₀.parentFd ∧ g'.folderId = g₀.folderId ∧
      (Forest.Below t.subdirMap d wd ∧ g'.path = movedPath g.path new g₀.path ∨
        ¬ Forest.Below t.subdirMap d wd ∧ g'.path = g₀.path) := by
    rw [hr.find] at hfind
    obtain ⟨g₀, hg₀, rfl⟩ := Option.map_eq_some_iff.mp hfind
    refine ⟨g₀, hg₀, ?_⟩
    split
    · rename_i hin
      exact ⟨rfl, rfl, .inl ⟨(hmem wd).mp hin, rfl⟩⟩
    · rename_i hout
      exact ⟨rfl, rfl, .inr ⟨fun hb => hout ((hmem wd).mpr hb), rfl⟩⟩
  have hfind {wd : Int} {g₀ : Guard} (hg₀ : t.find wd = some g₀) : ∃ g', t'.find wd = some g' ∧
      g'.parentFd = g₀.parentFd ∧ g'.folderId = g₀.folderId ∧
      (Forest.Below t.subdirMap d wd → g'.path = movedPath g.path new g₀.path) ∧
      (¬ Forest.Below t.subdirMap d wd → g'.path = g₀.path) := by
    rw [hr.find, hg₀]
    by_cases hin : wd ∈ t.subtree d
    · exact ⟨_, rfl, by simp [hin], by simp [hin], by simp [hin], fun hb => absurd ((hmem wd).mp hin) hb⟩
    · exact ⟨_, rfl, by simp [hin], by simp [hin], fun hb => absurd ((hmem wd).mpr hb) hin, by simp [hin]⟩
  -- the parent of the directory is not below it
  have houter : ¬ Forest.Below t.subdirMap d g.parentFd := by
    intro hb
    obtain ⟨g', hg', tail, htail⟩ := hc.below_path hd hb
    have hlt := hc.rank_lt hd hnonneg
    rw [rank_eq hd, rank_eq hg', htail, List.length_append] at hlt
    omega
  refine ⟨⟨hr.inverse, ?_, ?_⟩, ?_, ?_, ?_⟩
  · intro p wd
    rw [hr.subdirMap, h.subdirs]
    refine and_congr_right fun _ => ⟨?_, ?_⟩
    · rintro ⟨g₀, hg₀, rfl⟩
      obtain ⟨g', hg', hpfd, -⟩ := hfind hg₀
      exact ⟨g', hg', hpfd⟩
    · rintro ⟨g', hg', rfl⟩
      obtain ⟨g₀, hg₀, hpfd, -⟩ := hcases hg'
      exact ⟨g₀, hg₀, hpfd.symm⟩
  · intro wd g' hg' hnn
    obtain ⟨g₀, hg₀, hpfd, -, hpath⟩ := hcases hg'
    rw [hpfd] at hnn ⊢
    obtain ⟨p, hp, n, hn, hcomponent⟩ := h.component wd g₀ hg₀ hnn
    obtain ⟨p', hp', -, -, hin, hout⟩ := hfind hp
    have hchild : wd ∈ t.subdirMap g₀.parentFd := (h.subdirs _ _).mpr ⟨hnn, g₀, hg₀, rfl⟩
    rcases hpath with ⟨hbelow, hpath⟩ | ⟨hnot, hpath⟩
    · cases hbelow with
      | self =>
        obtain rfl : g = g₀ := Option.some_inj.mp (hd.symm.trans hg₀)
        obtain rfl : pg = p := Option.some_inj.mp (hparent.symm.trans hp)
        refine ⟨p', hp', name, hname, ?_⟩
        rw [hpath, hout houter, movedPath, List.drop_length, List.append_nil, hnew]
      | child hb hc' =>
        -- both paths change in the same way
        obtain ⟨-, g₁, hg₁, rfl⟩ := (h.subdirs _ _).mp hc'
        obtain rfl : g₀ = g₁ := Option.some_inj.mp (hg₀.symm.trans hg₁)
        obtain ⟨p₁, hp₁, tail, htail⟩ := hc.below_path hd hb
        obtain rfl : p = p₁ := Option.some_inj.mp (hp.symm.trans hp₁)
        refine ⟨p', hp', n, hn, ?_⟩
        rw [hpath, hin hb, movedPath, movedPath, hcomponent, htail]
        simp
    · refine ⟨p', hp', n, hn, ?_⟩
      rw [hpath, hout fun hb => hnot (.child hb hchild), hcomponent]
  · intro wd g' hg'
    obtain ⟨g₀, hg₀, -⟩ := hcases hg'
    exact h.nonneg wd g₀ hg₀
  · intro wd g' hg'
    obtain ⟨g₀, hg₀, hpfd, hid, hpath⟩ := hcases hg'
    obtain ⟨folderPath, hfolder, hroot⟩ := h.folder wd g₀ hg₀
    refine ⟨folderPath, by rw [hr.folders, hid, hfolder], fun hneg => ?_⟩
    rw [hpfd] at hneg
    rcases hpath with ⟨hbelow, -⟩ | ⟨-, hpath⟩
    · -- a root is not below anything
      cases hbelow with
      | self =>
        obtain rfl : g = g₀ := Option.some_inj.mp (hd.symm.trans hg₀)
        exact absurd hnonneg (not_le.mpr hneg)
      | child hb hc' =>
        obtain ⟨hnn, g₁, hg₁, rfl⟩ := (h.subdirs _ _).mp hc'
        obtain rfl : g₀ = g₁ := Option.some_inj.mp (hg₀.symm.trans hg₁)
        exact absurd hnn (not_le.mpr hneg)
    · rw [hpath]
      exact hroot hneg
  · intro wd g' p' hg' hp' hnn
    obtain ⟨g₀, hg₀, hpfd, hid, -⟩ := hcases hg'
    rw [hpfd] at hp' hnn
    obtain ⟨p, hp, -, hid', -⟩ := hcases hp'
    rw [hid, hid']
    exact h.inherits wd g₀ p hg₀ hp hnn

/-- The path of a directory in its folder. -/
theorem Tree.folderPath (h : t.Tree) (hg : t.find wd = some g) : ∃ folderPath,
    t.watchedFolders g.folderId = some folderPath ∧
      (g.path = folderPath ∨ ∃ sub, sub ≠ [] ∧ g.path = folderPath ++ '/' :: sub) := by
  induction hn : t.rank wd using Nat.strong_induction_on generalizing wd g with
  | _ n ih =>
    obtain ⟨folderPath, hfolder, hroot⟩ := h.folder wd g hg
    refine ⟨folderPath, hfolder, ?_⟩
    rcases lt_or_ge g.parentFd 0 with hlt | hge
    · exact .inl (hroot hlt)
    · obtain ⟨p, hp, n, hname, hpath⟩ := h.component wd g hg hge
      obtain ⟨folderPath', hfolder', hcases⟩ := ih _ (hn ▸ h.toConsistent.rank_lt hg hge) hp rfl
      rw [h.inherits wd g p hg hp hge, hfolder] at hfolder'
      cases hfolder'
      rcases hcases with hp' | ⟨sub, -, hp'⟩
      · exact .inr ⟨n, hname.1, by rw [hpath, hp']⟩
      · exact .inr ⟨sub ++ '/' :: n, by simp, by rw [hpath, hp', List.append_assoc, List.cons_append]⟩

theorem prevName_isSome (prev : List Char) (h : t.Tree) (hg : t.find wd = some g) : (t.prevName wd prev).isSome := by
  obtain ⟨folderPath, hfolder, hcases⟩ := h.folderPath hg
  have hlength : ¬ g.path.length < folderPath.length := by
    rcases hcases with hpath | ⟨sub, -, hpath⟩
    · rw [hpath]
      exact lt_irrefl _
    · rw [hpath, List.length_append]
      omega
  rw [prevName, hg, Option.bind_eq_bind, Option.bind_some, hfolder, Option.bind_eq_bind, Option.bind_some,
    if_neg hlength]
  rfl

theorem relPath_eq (name : List Char) (hg : t.find wd = some g) {folderPath : List Char}
    (hfolder : t.watchedFolders g.folderId = some folderPath) (hlength : folderPath.length ≤ g.path.length) :
    t.relPath wd name = some ((g.path ++ '/' :: name).drop (folderPath.length + 1)) := by
  rw [relPath, hg, Option.bind_eq_bind, Option.bind_some, hfolder, Option.bind_eq_bind, Option.bind_some,
    if_neg (not_lt.mpr hlength)]
  dsimp only
  have : (g.path ++ '/' :: name).length - (g.path.length - folderPath.length + name.length) = folderPath.length + 1 := by
    rw [List.length_append, List.length_cons]
    omega
  rw [this]
  rfl

/-- Below the root both paths of an event are what they should be. -/
theorem prevName_eq (hg : t.find wd = some g) {folderPath sub : List Char}
    (hfolder : t.watchedFolders g.folderId = some folderPath) (hsub : sub ≠ [])
    (hpath : g.path = folderPath ++ '/' :: sub) :
    t.prevName wd prev = some (sub ++ '/' :: prev) := by
  have hlength : g.path.length = folderPath.length + 1 + sub.length := by
    rw [hpath, List.length_append, List.length_cons]
    omega
  have hbytes : g.path.length - folderPath.length - 1 = sub.length := by omega
  have hdrop : g.path.drop (g.path.length - sub.length) = sub := by
    rw [hlength, Nat.add_sub_cancel, hpath, ← List.drop_drop, List.drop_left]
    rfl
  rw [prevName, hg, Option.bind_eq_bind, Option.bind_some, hfolder, Option.bind_eq_bind, Option.bind_some,
    if_neg (by omega), hbytes]
  dsimp only
  rw [hdrop, if_neg (by simpa using hsub)]
  simp

end Renamed

section Fits

variable {t t' : Table} {wd d prevParent parent : Int} {g pg ng : Guard} {prev name : List Char}

/-- **The condition on a rename**: a directory that is watched stays with its parent, which is not the root of
its folder, and no other directory has one of the new paths; if the directory is not watched, no child
of the parent has a path that ends like the old one. -/
def Renameable (t : Table) (prevParent : Int) (prev : List Char) (parent : Int) (name : List Char) : Prop :=
  IsName prev ∧ IsName name ∧ (t.find prevParent).isSome ∧ (t.find parent).isSome ∧
    ∀ pg ∈ t.find prevParent, ∀ ng ∈ t.find parent,
      (∀ d ∈ t.pathToWd (pg.path ++ '/' :: prev),
        d ∈ t.subdirMap parent ∧ t.watchedFolders ng.folderId ≠ some ng.path ∧
          ∀ wd ∈ t.subtree d, ∀ g ∈ t.find wd, ∀ g' ∈ t.pathMap,
            g'.path = movedPath (pg.path ++ '/' :: prev) (ng.path ++ '/' :: name) g.path → g'.wd = wd) ∧
      (t.pathToWd (pg.path ++ '/' :: prev) = none →
        ∀ prevPath ∈ t.prevName prevParent prev, ∀ wd ∈ t.subdirMap parent, ∀ g ∈ t.find wd, ¬ prevPath <:+ g.path)

instance (t : Table) (prevParent : Int) (prev : List Char) (parent : Int) (name : List Char) :
    Decidable (t.Renameable prevParent prev parent name) := by
  unfold Renameable
  infer_instance

/-- **What a rename should do**: the paths of the directory and of everything watched below it change, and
nothing else. -/
def Renames (t : Table) (prevParent : Int) (prev : List Char) (parent : Int) (name : List Char) (t' : Table) : Prop :=
  ∀ pg ng, t.find prevParent = some pg → t.find parent = some ng → ∀ wd,
    (∀ d, t.pathToWd (pg.path ++ '/' :: prev) = some d → Forest.Below t.subdirMap d wd →
      t'.find wd = (t.find wd).map fun g =>
        { g with path := movedPath (pg.path ++ '/' :: prev) (ng.path ++ '/' :: name) g.path }) ∧
    ((∀ d, t.pathToWd (pg.path ++ '/' :: prev) = some d → ¬ Forest.Below t.subdirMap d wd) → t'.find wd = t.find wd)

/-- A child of a directory has a path that ends like `prev` below the directory's path only if it has this
name. -/
theorem suffix_iff {p sub n : List Char} (hprev : '/' ∉ prev) (hn : '/' ∉ n) (hsub : sub <:+ p) :
    sub ++ '/' :: prev <:+ p ++ '/' :: n ↔ n = prev := by
  constructor
  · rintro ⟨front, hfront⟩
    rw [← List.append_assoc] at hfront
    exact (split_unique hprev hn hfront).2.symm
  · rintro rfl
    obtain ⟨front, rfl⟩ := hsub
    exact ⟨front, by rw [← List.append_assoc]⟩

/-- The directory that is renamed is the child that is found. -/
theorem Tree.find_child (h : t.Tree) (hng : t.find parent = some ng) (hd : t.find d = some g)
    (hmem : d ∈ t.subdirMap parent) (hpath : g.path = ng.path ++ '/' :: prev) (hprev : IsName prev)
    {sub : List Char} (hsub : sub <:+ ng.path) :
    ((t.subdirMap parent).findSome? fun wd =>
      (t.find wd).filter fun g => (sub ++ '/' :: prev).isSuffixOf g.path) = some g := by
  have honly (c : Int) (hc : c ∈ t.subdirMap parent) (g' : Guard)
      (hg' : (t.find c).filter (fun g => (sub ++ '/' :: prev).isSuffixOf g.path) = some g') : g' = g := by
    rw [Option.filter_eq_some_iff, List.isSuffixOf_iff_suffix] at hg'
    obtain ⟨hfind, hsuffix⟩ := hg'
    obtain ⟨hnonneg, g₀, hg₀, rfl⟩ := (h.subdirs parent c).mp hc
    obtain rfl : g' = g₀ := Option.some_inj.mp (hfind.symm.trans hg₀)
    obtain ⟨p, hp, n, hn, hgpath⟩ := h.component c g' hfind hnonneg
    obtain rfl : ng = p := Option.some_inj.mp (hng.symm.trans hp)
    rw [hgpath, suffix_iff hprev.2 hn.2 hsub] at hsuffix
    have heq := h.wd_unique hfind hd (by rw [hgpath, hpath, hsuffix])
    rw [heq, hd] at hfind
    exact (Option.some_inj.mp hfind).symm
  have hself : (t.find d).filter (fun g => (sub ++ '/' :: prev).isSuffixOf g.path) = some g := by
    rw [Option.filter_eq_some_iff, List.isSuffixOf_iff_suffix, hpath, suffix_iff hprev.2 hprev.2 hsub]
    exact ⟨hd, rfl⟩
  cases hfind : (t.subdirMap parent).findSome? fun wd =>
      (t.find wd).filter fun g => (sub ++ '/' :: prev).isSuffixOf g.path with
  | none =>
    rw [List.findSome?_eq_none_iff] at hfind
    have := hfind d hmem
    rw [hself] at this
    cases this
  | some g' =>
    obtain ⟨c, hc, hg'⟩ := List.exists_of_findSome?_eq_some hfind
    rw [honly c hc g' hg']

theorem renamed_eq {prevPath newPath : List Char} (hprevPath : t.prevName prevParent prev = some prevPath)
    (hnewPath : t.relPath parent name = some newPath) (hng : t.find parent = some ng) :
    t.renamed prevParent prev parent name =
      match (t.subdirMap parent).findSome? fun wd => (t.find wd).filter fun g => prevPath.isSuffixOf g.path with
      | none => some t
      | some g => renameLoop (ng.path.take (g.path.length - prevPath.length)) newPath
          (g.path.length - prevPath.length + prevPath.length) t.pathMap.length [g.wd] t := by
  simp only [Table.renamed, hprevPath, hnewPath, renameSelfDescending, hng, Option.bind_eq_bind, Option.bind_some]
  rfl

/-- **A rename** that meets the condition does what it should. -/
theorem Tree.renamed (h : t.Tree) (hr : t.Renameable prevParent prev parent name) :
    ∃ t', t.renamed prevParent prev parent name = some t' ∧ t'.Tree ∧ t.Renames prevParent prev parent name t' := by
  obtain ⟨hprev, hname, hpg, hng, hr⟩ := hr
  obtain ⟨pg, hpg⟩ := Option.isSome_iff_exists.mp hpg
  obtain ⟨ng, hng⟩ := Option.isSome_iff_exists.mp hng
  obtain ⟨hwatched, hunwatched⟩ := hr pg hpg ng hng
  obtain ⟨prevPath, hprevPath⟩ := Option.isSome_iff_exists.mp (prevName_isSome prev h hpg)
  obtain ⟨folderPath, hfolder, hcases⟩ := h.folderPath hng
  have hlength : folderPath.length ≤ ng.path.length := by
    rcases hcases with hpath | ⟨sub, -, hpath⟩
    · rw [hpath]
    · rw [hpath, List.length_append]
      exact Nat.le_add_right _ _
  have hrelPath := relPath_eq name hng hfolder hlength
  rw [renamed_eq hprevPath hrelPath hng]
  cases hd : t.pathToWd (pg.path ++ '/' :: prev) with
  | some d =>
    obtain ⟨hmem, hroot, hfree⟩ := hwatched d hd
    obtain ⟨g, hg, hgpath⟩ := (h.inverse _ d).mp hd
    obtain ⟨hnonneg, g₀, hg₀, rfl⟩ := (h.subdirs parent d).mp hmem
    obtain rfl : g = g₀ := Option.some_inj.mp (hg.symm.trans hg₀)
    -- the directory has stayed with its parent
    obtain ⟨p, hp, n, hn, hcomponent⟩ := h.component d g hg hnonneg
    obtain rfl : ng = p := Option.some_inj.mp (hng.symm.trans hp)
    obtain ⟨hpgPath, rfl⟩ := split_unique hn.2 hprev.2 (hcomponent.symm.trans hgpath)
    have hsame := h.wd_unique hpg hng hpgPath.symm
    subst hsame
    obtain rfl : pg = ng := Option.some_inj.mp (hpg.symm.trans hng)
    -- below the root
    have hcases := hcases.resolve_left fun heq => hroot (by rw [hfolder, heq])
    obtain ⟨sub, hsub, hpath⟩ := hcases
    rw [prevName_eq hng hfolder hsub hpath] at hprevPath
    cases hprevPath
    have hsuffix : sub <:+ pg.path := ⟨folderPath ++ ['/'], by rw [hpath]; simp⟩
    rw [h.find_child hng hg hmem hcomponent hprev hsuffix]
    have hsize : g.path.length - (sub ++ '/' :: n).length = folderPath.length + 1 := by
      rw [hcomponent, hpath]
      simp only [List.length_append, List.length_cons]
      omega
    have htotal : folderPath.length + 1 + (sub ++ '/' :: n).length = g.path.length := by
      rw [hcomponent, hpath]
      simp only [List.length_append, List.length_cons]
      omega
    have hnew : pg.path.take (folderPath.length + 1) ++ (pg.path ++ '/' :: name).drop (folderPath.length + 1) =
        pg.path ++ '/' :: name := by
      have hle : folderPath.length + 1 ≤ pg.path.length := by
        rw [hpath]
        simp
      rw [← List.take_append_of_le_length hle, List.take_append_drop]
    obtain ⟨horder, hnodup, hbelow⟩ := h.toConsistent.subtree_spec (d := d) (by simp [hg])
    obtain ⟨t', hloop, hrenaming⟩ := Renaming.loop h.toConsistent hnew horder
      (Renaming.start g.path (pg.path ++ '/' :: name) h.toConsistent) hnodup
      (fun wd hwd => h.toConsistent.below_path hg ((hbelow wd).mp hwd)) (by
        intro wd hwd g₁ wd' g₂ hg₁ hg₂ hmoved
        obtain ⟨hin, hwd'⟩ := find_eq_some.mp hg₂
        rw [hgpath] at hmoved
        exact hwd'.symm.trans (hfree wd hwd g₁ hg₁ g₂ hin hmoved))
    rw [List.nil_append] at hrenaming
    refine ⟨t', ?_, h.renaming hg hnonneg hng hname rfl hrenaming, ?_⟩
    · dsimp only
      rw [hsize, htotal, find_wd hg]
      exact hloop
    · intro pg' ng' hpg' hng' wd
      obtain rfl : pg = pg' := Option.some_inj.mp (hpg.symm.trans hpg')
      obtain rfl : pg = ng' := Option.some_inj.mp (hng.symm.trans hng')
      rw [hd, hrenaming.find]
      constructor
      · rintro d' ⟨⟩ hb
        rw [hgpath]
        simp [(hbelow wd).mpr hb]
      · intro hnot
        have hout : wd ∉ t.subtree d := fun hin => hnot d rfl ((hbelow wd).mp hin)
        simp [hout]
  | none =>
    have hfind : ((t.subdirMap parent).findSome? fun wd =>
        (t.find wd).filter fun g => prevPath.isSuffixOf g.path) = none := by
      rw [List.findSome?_eq_none_iff]
      intro wd hwd
      rw [Option.filter_eq_none_iff]
      intro g hg
      rw [List.isSuffixOf_iff_suffix]
      exact hunwatched hd prevPath hprevPath wd hwd g hg
    rw [hfind]
    refine ⟨t, rfl, h, ?_⟩
    intro pg' ng' hpg' _ wd
    obtain rfl : pg = pg' := Option.some_inj.mp (hpg.symm.trans hpg')
    rw [hd]
    exact ⟨fun d hc => (by cases hc), fun _ => rfl⟩

end Fits

/-! ## Runs -/

/-- **The condition on an operation**: the kernel's descriptors are new, a scan is of proper paths, a folder that
is unwatched still has its root, a rename stays with its parent below the root, and a directory that is forgotten
has no children. -/
def Fits (t : Table) : Operation → Prop
  | .watch folderId path answer =>
    t.watchedFolders folderId = none → t.pathToWd path = none → ∀ fd ∈ answer, 0 ≤ fd → t.find fd = none
  | .notify scan answer => t.Enters scan answer → t.Scans scan answer
  | .unwatch folderId => ∀ path ∈ t.watchedFolders folderId, (t.pathToWd path).isSome
  | .renamed prevParent prev parent name => t.Renameable prevParent prev parent name
  | .forget wd => t.find wd ≠ none → t.subdirMap wd = []

instance (t : Table) (scan : ScanDir) (answer : List Char → Option Int) : Decidable (t.Enters scan answer) :=
  inferInstanceAs (Decidable (_ ∨ _ ∧ ∃ fd ∈ answer scan.path, 0 ≤ fd))

instance (t : Table) (scan : ScanDir) (answer : List Char → Option Int) : Decidable (t.Scans scan answer) :=
  decidable_of_iff (scan.dirPath.length ≤ bufferSize ∧
      (∀ item ∈ scan.items, scan.dirPath.length + item.1.length < bufferSize ∧ item.1 ≠ ['/']) ∧
      (t.pathToWd scan.dirPath = none → scan.dirPath = scan.path ∧ scan.path.getLast? ≠ some '/') ∧
      (∀ path ∈ scan.paths, ∀ fd ∈ answer path, 0 ≤ fd → t.find fd = none ∨ (t.pathToWd path).isSome) ∧
      ∀ path ∈ scan.paths, ∀ path' ∈ scan.paths, ∀ fd ∈ answer path, 0 ≤ fd → answer path' = some fd → path' = path)
    ⟨fun ⟨h₁, h₂, h₃, h₄, h₅⟩ => ⟨h₁, h₂, h₃, h₄, h₅⟩, fun h => ⟨h.dir, h.items, h.slash, h.fresh, h.distinct⟩⟩

instance (t : Table) : ∀ op, Decidable (t.Fits op)
  | .watch folderId path answer => inferInstanceAs (Decidable
      (t.watchedFolders folderId = none → t.pathToWd path = none → ∀ fd ∈ answer, 0 ≤ fd → t.find fd = none))
  | .notify scan answer => inferInstanceAs (Decidable (t.Enters scan answer → t.Scans scan answer))
  | .unwatch folderId => inferInstanceAs (Decidable (∀ path ∈ t.watchedFolders folderId, (t.pathToWd path).isSome))
  | .renamed prevParent prev parent name => inferInstanceAs (Decidable (t.Renameable prevParent prev parent name))
  | .forget wd => inferInstanceAs (Decidable (t.find wd ≠ none → t.subdirMap wd = []))

/-- **One operation** that meets the condition is possible and keeps the invariant. -/
theorem Tree.step {t : Table} (h : t.Tree) {op : Operation} (hfits : t.Fits op) :
    ∃ t', t.step op = some t' ∧ t'.Tree := by
  cases op with
  | watch folderId path answer => exact h.watch hfits
  | notify scan answer => exact h.notify hfits
  | unwatch folderId => exact h.unwatch hfits
  | renamed prevParent prev parent name =>
    obtain ⟨t', hrenamed, htree, -⟩ := h.renamed hfits
    exact ⟨t', hrenamed, htree⟩
  | forget wd => exact ⟨_, rfl, h.forget hfits⟩

/-- **The maps agree after every run** of operations that meet the condition, such a run does not stop, and a
rename that meets it changes the paths of the directory and of everything watched below it, and nothing
else. -/
theorem consistent_of_run {ops : List Operation} (h : Run.Meets Table.step Fits empty ops) :
    ∃ t, Run.exec Table.step empty ops = some t ∧ t.Consistent ∧
      ∀ prevParent prev parent name, t.Fits (.renamed prevParent prev parent name) →
        ∃ t', t.step (.renamed prevParent prev parent name) = some t' ∧ t'.Consistent ∧
          t.Renames prevParent prev parent name t' := by
  obtain ⟨t, hrun, htree⟩ := Run.exec_total (fun _ _ h hfits => Tree.step h hfits) tree_empty h
  refine ⟨t, hrun, htree.toConsistent, fun prevParent prev parent name hfits => ?_⟩
  obtain ⟨t', hrenamed, htree', hrenames⟩ := htree.renamed hfits
  exact ⟨t', hrenamed, htree'.toConsistent, hrenames⟩

/-- A folder with a directory that has two more, one of them is renamed. -/
def renamedBelow : List Operation :=
  [.watch "f" "/f".toList (some 1),
    .notify ⟨"/f".toList, [⟨"/f/s".toList, true⟩, ⟨"/f/file".toList, false⟩]⟩
      fun path => if path = "/f/s".toList then some 2 else none,
    .notify ⟨"/f/s".toList, [⟨"/f/s/a".toList, true⟩, ⟨"/f/s/xa".toList, true⟩]⟩
      fun path => if path = "/f/s/a".toList then some 4 else if path = "/f/s/xa".toList then some 3 else none,
    .notify ⟨"/f/s/a/y".toList, [⟨"/f/s/a/y/z".toList, true⟩]⟩
      fun path => if path = "/f/s/a/y".toList then some 5 else if path = "/f/s/a/y/z".toList then some 6 else none,
    .renamed 2 "a".toList 2 "b".toList,
    .forget 6]

theorem consistent_renamedBelow : ∃ t, Run.exec Table.step empty renamedBelow = some t ∧ t.Consistent ∧
    t.pathToWd "/f/s/b/y".toList = some 5 ∧ t.pathToWd "/f/s/xa".toList = some 3 := by
  obtain ⟨t, hrun, hconsistent, -⟩ := consistent_of_run
    (show Run.Meets Table.step Fits empty renamedBelow by decide +kernel)
  have hpaths : (Run.exec Table.step empty renamedBelow).map
      (fun t => (t.pathToWd "/f/s/b/y".toList, t.pathToWd "/f/s/xa".toList)) = some (some 5, some 3) := by
    decide +kernel
  rw [hrun, Option.map_some, Option.some.injEq, Prod.mk.injEq] at hpaths
  exact ⟨t, hrun, hconsistent, hpaths.1, hpaths.2⟩

/-- A directory in the root of a folder is renamed. -/
def renamedInRoot : List Operation :=
  [.watch "f" "/f".toList (some 1),
    .notify ⟨"/f".toList, [⟨"/f/a".toList, true⟩]⟩ fun path => if path = "/f/a".toList then some 2 else none,
    .renamed 1 "a".toList 1 "b".toList]

/-- **The slash is lost**: the new path is the one of the folder with the name at its end, so the directory is
not below its parent any more. -/
theorem slash_lost : ∃ t, Run.exec Table.step empty renamedInRoot = some t ∧
    (t.find 2).map Guard.path = some "/fb".toList ∧ ¬ t.Consistent := by
  obtain ⟨t, hrun⟩ := Option.isSome_iff_exists.mp
    (show (Run.exec Table.step empty renamedInRoot).isSome = true by decide +kernel)
  have hguards : (Run.exec Table.step empty renamedInRoot).map (fun t => (t.find 1, t.find 2)) =
      some (some ⟨1, "/f".toList, "f", -1⟩, some ⟨2, "/fb".toList, "f", 1⟩) := by
    decide +kernel
  rw [hrun, Option.map_some, Option.some.injEq, Prod.mk.injEq] at hguards
  obtain ⟨hroot, hdir⟩ := hguards
  refine ⟨t, hrun, by rw [hdir]; rfl, fun h => ?_⟩
  obtain ⟨parent, hparent, name, -, hpath⟩ := h.component 2 _ hdir (by decide)
  obtain rfl := Option.some_inj.mp (hroot.symm.trans hparent)
  simp at hpath

end Table

end WatchTable

end SyncSpirit
