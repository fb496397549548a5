import SyncSpirit.Lib.Run
import SyncSpirit.WatchTree

/-!
# New directories

After a directory has been scanned, `notify` should watch the directories in it that are not watched yet.
A name is looked up without its last character, so `ab` is taken for watched when `a` is, and the path is
put together in a buffer of 256 bytes. `notify_iff` says which scans lead to what they should, for every
table that can be reached: `Indexed` is all that is known of such a table.
-/

namespace SyncSpirit

namespace WatchTable

namespace Table

/-- What `scan_dir_t::process` finds: names in the directory, each of them once. -/
structure ScanDir.Listing (scan : ScanDir) : Prop where
  child : ∀ c ∈ scan.childInfos, ∃ name, IsName name ∧ c.path = scan.dirPath ++ '/' :: name
  nodup : (scan.childInfos.map ChildInfo.path).Nodup

/-! ## What holds for every table -/

/-- A path that is found belongs to a descriptor. This is kept by every operation, other than `Consistent`. -/
structure Indexed (t : Table) : Prop where
  guard : ∀ path wd, t.pathToWd path = some wd → ∃ g, t.find wd = some g ∧ g.path = path
  nonneg : ∀ wd g, t.find wd = some g → 0 ≤ wd

section Indexed

variable {t t' : Table} {wd : Int} {g : Guard} {path : List Char}

theorem indexed_empty : Indexed empty :=
  ⟨fun _ _ h => (by cases h), fun _ _ h => (by cases h)⟩

/-- Only the paths and the descriptors matter. -/
theorem Indexed.congr (h : t.Indexed) (hfind : ∀ wd, t'.find wd = t.find wd) (hpath : t'.pathToWd = t.pathToWd) :
    t'.Indexed := by
  refine ⟨fun path wd hwd => ?_, fun wd g hg => h.nonneg wd g ((hfind wd).symm.trans hg)⟩
  rw [hpath] at hwd
  rw [hfind]
  exact h.guard path wd hwd

theorem Indexed.insert (h : t.Indexed) (hi : Inserted t t' g) : t'.Indexed := by
  refine ⟨fun path wd hwd => ?_, fun wd g₀ hg₀ => ?_⟩
  · rw [hi.pathToWd, Function.update_apply] at hwd
    rw [hi.find]
    split at hwd
    · rename_i heq
      cases hwd
      exact ⟨g, if_pos rfl, heq.symm⟩
    · obtain ⟨g₀, hg₀, hpath⟩ := h.guard path wd hwd
      refine ⟨g₀, ?_, hpath⟩
      rw [if_neg, hg₀]
      rintro rfl
      rw [hi.free] at hg₀
      cases hg₀
  · rw [hi.find] at hg₀
    split at hg₀
    · rename_i heq
      rw [heq]
      exact hi.nonneg
    · exact h.nonneg wd g₀ hg₀

/-- A directory goes with its path. -/
theorem Indexed.remove (h : t.Indexed) (hg : t.find wd = some g) : ((t.forgetPath g.path).erase wd).Indexed := by
  refine ⟨fun path wd' hwd' => ?_, fun wd' g' hg' => ?_⟩
  · have hold : Function.update t.pathToWd g.path none path = some wd' := hwd'
    rw [Function.update_apply] at hold
    split at hold
    · cases hold
    · rename_i hne
      obtain ⟨g', hg', hpath⟩ := h.guard path wd' hold
      refine ⟨g', ?_, hpath⟩
      rw [find_erase, if_neg]
      · exact hg'
      · rintro rfl
        rw [hg] at hg'
        cases hg'
        exact hne hpath.symm
  · rw [find_erase] at hg'
    split at hg'
    · cases hg'
    · exact h.nonneg wd' g' hg'

theorem Indexed.watchPath (h : t.Indexed) {folderId : String} {parent : Int} {answer opt : Option Int}
    (hwatch : t.watchPath path folderId parent answer = some (t', opt)) : t'.Indexed := by
  rcases watchPath_spec hwatch with ⟨rfl, -⟩ | ⟨fd, -, -, -, hi⟩
  · exact h
  · exact h.insert hi

theorem Indexed.watch (h : t.Indexed) {folderId : String} {answer : Option Int}
    (hwatch : t.watch folderId path answer = some t') : t'.Indexed := by
  rw [Table.watch] at hwatch
  split at hwatch
  · cases hwatch
    exact h
  · obtain ⟨⟨t₁, opt⟩, hpath, heq⟩ := Option.bind_eq_some_iff.mp hwatch
    have hfolder : (t.setFolder folderId (some path)).Indexed := h.congr (fun _ => rfl) rfl
    have h₁ : t₁.Indexed := hfolder.watchPath hpath
    cases opt with
    | none =>
      cases heq
      exact h₁
    | some fd =>
      cases heq
      split
      · exact h₁.congr (fun _ => rfl) rfl
      · exact h₁

theorem Indexed.watchItem (h : t.Indexed) {dirPath : List Char} {folderId : String}
    {answer : List Char → Option Int} {item : List Char × Bool}
    (hwatch : Table.watchItem dirPath folderId wd answer t item = some t') : t'.Indexed := by
  rw [Table.watchItem] at hwatch
  split at hwatch
  · dsimp only at hwatch
    split at hwatch
    · cases hwatch
      exact h
    · obtain ⟨⟨t₁, opt⟩, hpath, heq⟩ := Option.map_eq_some_iff.mp hwatch
      cases heq
      exact h.watchPath hpath
  · cases hwatch

theorem Indexed.watchItems (h : t.Indexed) {scan : ScanDir} {answer : List Char → Option Int}
    (hwatch : t.watchItems scan wd answer = some t') : t'.Indexed := by
  rw [Table.watchItems] at hwatch
  obtain ⟨guard, -, hfold⟩ := Option.bind_eq_some_iff.mp hwatch
  split at hfold
  · generalize scan.items = items at hfold
    clear hwatch
    induction items generalizing t with
    | nil =>
      cases hfold
      exact h
    | cons item items ih =>
      rw [List.foldlM_cons] at hfold
      obtain ⟨t₁, hitem, hrest⟩ := Option.bind_eq_some_iff.mp hfold
      exact ih (h.watchItem hitem) hrest
  · cases hfold

theorem Indexed.notify (h : t.Indexed) {scan : ScanDir} {answer : List Char → Option Int}
    (hnotify : t.notify scan answer = some t') : t'.Indexed := by
  rw [Table.notify] at hnotify
  split at hnotify
  · exact h.watchItems hnotify
  · split at hnotify
    · cases hnotify
      exact h
    · obtain ⟨guard, -, hguard⟩ := Option.bind_eq_some_iff.mp hnotify
      obtain ⟨⟨t₁, opt⟩, hpath, hrest⟩ := Option.bind_eq_some_iff.mp hguard
      have h₁ : t₁.Indexed := h.watchPath hpath
      dsimp only at hrest
      split at hrest
      · exact h₁.watchItems hrest
      · cases hrest
        exact h₁

theorem Indexed.unwatchWd (h : t.Indexed) (hunwatch : t.unwatchWd wd = some t') : t'.Indexed := by
  rw [Table.unwatchWd] at hunwatch
  obtain ⟨guard, hguard, heq⟩ := Option.bind_eq_some_iff.mp hunwatch
  cases heq
  split
  · exact Indexed.remove (t := t.removeChild guard.parentFd wd) (h.congr (fun _ => rfl) rfl) hguard
  · exact h.remove hguard

theorem Indexed.unwatchLoop {fuel : Nat} {queue : List Int} (h : t.Indexed)
    (hloop : Table.unwatchLoop fuel queue t = some t') : t'.Indexed := by
  induction fuel generalizing t queue with
  | zero =>
    cases queue with
    | nil =>
      cases hloop
      exact h
    | cons wd queue => cases hloop
  | succ fuel ih =>
    cases queue with
    | nil =>
      cases hloop
      exact h
    | cons wd queue =>
      rw [Table.unwatchLoop] at hloop
      split at hloop
      · obtain ⟨t₁, hunwatch, hrest⟩ := Option.bind_eq_some_iff.mp hloop
        exact ih (h.unwatchWd hunwatch) hrest
      · exact ih h hloop

theorem Indexed.unwatch (h : t.Indexed) {folderId : String} (hunwatch : t.unwatch folderId = some t') :
    t'.Indexed := by
  rw [Table.unwatch] at hunwatch
  split at hunwatch
  · cases hunwatch
    exact h
  · split at hunwatch
    · obtain ⟨t₁, hrecurse, heq⟩ := Option.map_eq_some_iff.mp hunwatch
      cases heq
      rw [Table.unwatchRecurse] at hrecurse
      have h₁ : t₁.Indexed := by
        split at hrecurse
        · cases hrecurse
          exact h
        · exact h.unwatchLoop hrecurse
      exact h₁.congr (fun _ => rfl) rfl
    · cases hunwatch

theorem Indexed.forget (h : t.Indexed) (wd : Int) : (t.forget wd).Indexed := by
  rw [Table.forget]
  split
  · exact h
  · rename_i guard hguard
    have hchildren : (t.setChildren wd [] List.nodup_nil).Indexed := h.congr (fun _ => rfl) rfl
    dsimp only
    split
    · exact Indexed.remove (t := (t.setChildren wd [] List.nodup_nil).removeChild guard.parentFd wd)
        (hchildren.congr (fun _ => rfl) rfl) hguard
    · exact hchildren.remove hguard

/-- The path of a directory changes: the old one is forgotten, and the new one found unless it is taken. -/
theorem Indexed.renameOne {folderPath newPath : List Char} {size : Nat} (h : t.Indexed)
    (hrename : Table.renameOne folderPath newPath size t wd = some t') : t'.Indexed := by
  rw [Table.renameOne] at hrename
  obtain ⟨g, hg, hsize⟩ := Option.bind_eq_some_iff.mp hrename
  split at hsize
  · cases hsize
    generalize folderPath ++ newPath ++ g.path.drop size = new
    have hset : ((t.forgetPath g.path).setPath wd new).Indexed := by
      refine ⟨fun path wd' hwd' => ?_, fun wd' g' hg' => ?_⟩
      · have hold : Function.update t.pathToWd g.path none path = some wd' := hwd'
        rw [Function.update_apply] at hold
        split at hold
        · cases hold
        · rename_i hne
          obtain ⟨g', hg', hpath⟩ := h.guard path wd' hold
          have hother : wd' ≠ wd := by
            rintro rfl
            rw [hg] at hg'
            cases hg'
            exact hne hpath.symm
          refine ⟨g', ?_, hpath⟩
          rw [find_setPath]
          show (t.find wd').map _ = some g'
          rw [hg', Option.map_some, if_neg hother]
      · rw [find_setPath] at hg'
        obtain ⟨g₀, hg₀, -⟩ := Option.map_eq_some_iff.mp hg'
        exact h.nonneg wd' g₀ hg₀
    have hself : ((t.forgetPath g.path).setPath wd new).find wd = some { g with path := new } := by
      rw [find_setPath]
      show (t.find wd).map _ = _
      rw [hg, Option.map_some, if_pos rfl]
    rw [keepPath]
    split
    · exact hset
    · refine ⟨fun path wd' hwd' => ?_, hset.nonneg⟩
      have hnew : Function.update ((t.forgetPath g.path).setPath wd new).pathToWd new (some wd) path = some wd' := hwd'
      rw [Function.update_apply] at hnew
      split at hnew
      · rename_i heq
        cases hnew
        exact ⟨_, hself, heq.symm⟩
      · exact hset.guard path wd' hnew
  · cases hsize

theorem Indexed.renameLoop {folderPath newPath : List Char} {size fuel : Nat} {queue : List Int} (h : t.Indexed)
    (hloop : Table.renameLoop folderPath newPath size fuel queue t = some t') : t'.Indexed := by
  induction fuel generalizing t queue with
  | zero =>
    cases queue with
    | nil =>
      cases hloop
      exact h
    | cons wd queue => cases hloop
  | succ fuel ih =>
    cases queue with
    | nil =>
      cases hloop
      exact h
    | cons wd queue =>
      obtain ⟨t₁, hrename, hrest⟩ := Option.bind_eq_some_iff.mp hloop
      exact ih (h.renameOne hrename) hrest

theorem Indexed.renamed (h : t.Indexed) {prevParent parent : Int} {prev name : List Char}
    (hrenamed : t.renamed prevParent prev parent name = some t') : t'.Indexed := by
  obtain ⟨prevPath, -, hprev⟩ := Option.bind_eq_some_iff.mp hrenamed
  obtain ⟨newPath, -, hself⟩ := Option.bind_eq_some_iff.mp hprev
  obtain ⟨guard, -, hfound⟩ := Option.bind_eq_some_iff.mp hself
  split at hfound
  · cases hfound
    exact h
  · exact h.renameLoop hfound

/-- **Every operation** keeps it. -/
theorem Indexed.step (h : t.Indexed) {op : Operation} (hstep : t.step op = some t') : t'.Indexed := by
  cases op with
  | watch folderId path answer => exact h.watch hstep
  | notify scan answer => exact h.notify hstep
  | unwatch folderId => exact h.unwatch hstep
  | renamed prevParent prev parent name => exact h.renamed hstep
  | forget wd =>
    cases hstep
    exact h.forget wd

theorem indexed_of_run {ops : List Operation} (h : Run.exec Table.step empty ops = some t) : t.Indexed := by
  have hall : Run.Meets Table.step (fun _ _ => True) empty ops := Run.meets_of_forall fun _ _ => trivial
  exact Run.exec_inv (fun _ _ _ hindexed _ hstep => Indexed.step hindexed hstep) indexed_empty hall h

end Indexed

/-! ## The children of the directory -/

/-- A directory that should be watched: it is not watched yet, and the kernel has a descriptor for it. -/
def Wanted (t : Table) (answer : List Char → Option Int) (c : ChildInfo) : Prop :=
  c.isDirectory = true ∧ t.pathToWd c.path = none ∧ ∃ fd ∈ answer c.path, 0 ≤ fd

/-- It is watched, under its own path and below the directory `wd`. -/
def Registered (t : Table) (answer : List Char → Option Int) (folderId : String) (wd : Int) (c : ChildInfo) : Prop :=
  ∃ fd, answer c.path = some fd ∧ t.find fd = some ⟨fd, c.path, folderId, wd⟩ ∧ t.pathToWd c.path = some fd ∧
    fd ∈ t.subdirMap wd

/-- Nothing is in its way: the path without the last character is not watched, and the descriptor is new. -/
def Free (t : Table) (answer : List Char → Option Int) (c : ChildInfo) : Prop :=
  t.pathToWd c.path.dropLast = none ∧ ∀ fd ∈ answer c.path, t.find fd = none

/-- One child does not get into the way of a later one. -/
def Apart (answer : List Char → Option Int) (d c : ChildInfo) : Prop :=
  d.path ≠ c.path.dropLast ∧ answer d.path ≠ answer c.path

/-- What is watched stays as it is. -/
structure Extends (t t' : Table) : Prop where
  find : ∀ wd g, t.find wd = some g → t'.find wd = some g
  pathToWd : ∀ path wd, t.pathToWd path = some wd → t'.pathToWd path = some wd
  subdirs : ∀ parent wd, wd ∈ t.subdirMap parent → wd ∈ t'.subdirMap parent

section Children

variable {t t' : Table} {wd : Int} {g : Guard} {dirPath : List Char} {folderId : String}
  {answer : List Char → Option Int} {c d : ChildInfo}

theorem Extends.refl (t : Table) : t.Extends t := ⟨fun _ _ h => h, fun _ _ h => h, fun _ _ h => h⟩

theorem Extends.trans {t₁ t₂ : Table} (h : t.Extends t₁) (h' : t₁.Extends t₂) : t.Extends t₂ :=
  ⟨fun wd g hg => h'.find wd g (h.find wd g hg), fun path wd hwd => h'.pathToWd path wd (h.pathToWd path wd hwd),
    fun parent wd hwd => h'.subdirs parent wd (h.subdirs parent wd hwd)⟩

theorem Inserted.extends (hi : Inserted t t' g) : t.Extends t' := by
  refine ⟨fun wd g₀ hg₀ => ?_, fun path wd hwd => ?_, fun parent wd hwd => (hi.subdirs parent wd).mpr (.inl hwd)⟩
  · rw [hi.find, if_neg]
    · exact hg₀
    · rintro rfl
      rw [hi.free] at hg₀
      cases hg₀
  · rw [hi.pathToWd, Function.update_of_ne]
    · exact hwd
    · rintro rfl
      rw [hi.new] at hwd
      cases hwd

theorem Registered.mono (h : t.Registered answer folderId wd c) (hext : t.Extends t') :
    t'.Registered answer folderId wd c := by
  obtain ⟨fd, hanswer, hfind, hpath, hmem⟩ := h
  exact ⟨fd, hanswer, hext.find _ _ hfind, hext.pathToWd _ _ hpath, hext.subdirs _ _ hmem⟩

section WatchPath

variable {path : List Char} {fd : Int}

/-- A path that is watched, or that the kernel does not take. -/
theorem watchPath_same (folderId : String) (parent : Int) {answer : Option Int}
    (h : ¬ (t.pathToWd path = none ∧ ∃ fd ∈ answer, 0 ≤ fd)) :
    ∃ opt, t.watchPath path folderId parent answer = some (t, opt) := by
  unfold watchPath
  split
  · exact ⟨none, rfl⟩
  · rename_i hwatched
    rw [Bool.not_eq_true, Option.isSome_eq_false_iff, Option.isNone_iff_eq_none] at hwatched
    split
    · exact ⟨none, rfl⟩
    · rename_i fd
      by_cases hfd : fd < 0
      · exact ⟨some (-1), if_pos hfd⟩
      · exact absurd ⟨hwatched, fd, rfl, not_lt.mp hfd⟩ h

theorem watchPath_new (folderId : String) (parent : Int) (hnew : t.pathToWd path = none) (hnonneg : 0 ≤ fd)
    (hfree : t.find fd = none) :
    ∃ t', t.watchPath path folderId parent (some fd) = some (t', some fd) ∧
      Inserted t t' ⟨fd, path, folderId, parent⟩ := by
  have hwatch : ∃ t', t.watchPath path folderId parent (some fd) = some (t', some fd) := by
    unfold watchPath
    dsimp only
    rw [hnew, if_neg (not_lt.mpr hnonneg), emplace, dif_pos hfree]
    exact ⟨_, rfl⟩
  obtain ⟨t', hwatch⟩ := hwatch
  refine ⟨t', hwatch, ?_⟩
  rcases watchPath_spec hwatch with ⟨-, hneg⟩ | ⟨fd', hfd', -, -, hi⟩
  · exact absurd hnonneg (not_le.mpr (hneg fd rfl))
  · cases hfd'
    exact hi

/-- The assertion about the descriptor. -/
theorem watchPath_used (folderId : String) (parent : Int) (hnew : t.pathToWd path = none) (hnonneg : 0 ≤ fd)
    (hused : t.find fd ≠ none) :
    t.watchPath path folderId parent (some fd) = none := by
  unfold watchPath
  dsimp only
  rw [hnew, if_neg (not_lt.mpr hnonneg), emplace, dif_neg hused]
  rfl

end WatchPath

/-- The name with its slash, as `notify` has it in the queue. -/
def item (dirPath : List Char) (c : ChildInfo) : List Char × Bool := (c.path.drop dirPath.length, c.isDirectory)

section One

variable (hpath : ∃ name, c.path = dirPath ++ '/' :: name)
include hpath

theorem append_item : dirPath ++ (item dirPath c).1 = c.path := by
  obtain ⟨name, hname⟩ := hpath
  rw [item, hname, List.drop_left]

theorem length_item : dirPath.length + (item dirPath c).1.length = c.path.length := by
  rw [← List.length_append, append_item hpath]

/-- A path that does not fit. -/
theorem watchItem_long (hlong : ¬ c.path.length < bufferSize) :
    watchItem dirPath folderId wd answer t (item dirPath c) = none := by
  rw [watchItem, if_neg]
  rwa [length_item hpath]

/-- A path that does is looked up without its last character, and watched if it is not found. -/
theorem watchItem_fits (hfits : c.path.length < bufferSize) :
    watchItem dirPath folderId wd answer t (item dirPath c) =
      if (t.pathToWd c.path.dropLast).isSome then some t
      else (t.watchPath c.path folderId wd (if c.isDirectory then answer c.path else none)).map Prod.fst := by
  rw [watchItem, if_pos]
  · dsimp only
    rw [append_item hpath]
    rfl
  · rwa [length_item hpath]

/-- A child that should not be watched. -/
theorem watchItem_unwanted (hfits : c.path.length < bufferSize) (h : ¬ t.Wanted answer c) :
    watchItem dirPath folderId wd answer t (item dirPath c) = some t := by
  rw [watchItem_fits hpath hfits]
  split
  · rfl
  · have hsame : ¬ (t.pathToWd c.path = none ∧ ∃ fd ∈ if c.isDirectory then answer c.path else none, 0 ≤ fd) := by
      rintro ⟨hnew, fd, hfd, hnonneg⟩
      split at hfd
      · rename_i hdir
        exact h ⟨hdir, hnew, fd, hfd, hnonneg⟩
      · cases hfd
    obtain ⟨opt, hwatch⟩ := watchPath_same folderId wd hsame
    rw [hwatch]
    rfl

/-- A child that should be watched, with nothing in its way. -/
theorem watchItem_free (folderId : String) (wd : Int) (hfits : c.path.length < bufferSize) (h : t.Wanted answer c)
    (hfree : t.Free answer c) :
    ∃ fd t', answer c.path = some fd ∧ watchItem dirPath folderId wd answer t (item dirPath c) = some t' ∧
      Inserted t t' ⟨fd, c.path, folderId, wd⟩ := by
  obtain ⟨hdir, hnew, fd, hfd, hnonneg⟩ := h
  obtain ⟨t', hwatch, hi⟩ := watchPath_new folderId wd hnew hnonneg (hfree.2 fd hfd)
  refine ⟨fd, t', hfd, ?_, hi⟩
  rw [watchItem_fits hpath hfits, hfree.1, if_pos hdir, hfd, hwatch]
  rfl

/-- Otherwise it is not watched, or the assertion fails. -/
theorem watchItem_blocked (h : t.Wanted answer c) (hfree : ¬ t.Free answer c)
    (hwatch : watchItem dirPath folderId wd answer t (item dirPath c) = some t') : t' = t := by
  have hfits : c.path.length < bufferSize := by
    by_contra hlong
    rw [watchItem_long hpath hlong] at hwatch
    cases hwatch
  rw [watchItem_fits hpath hfits, if_pos h.1] at hwatch
  split at hwatch
  · cases hwatch
    rfl
  · rename_i hlast
    rw [Bool.not_eq_true, Option.isSome_eq_false_iff, Option.isNone_iff_eq_none] at hlast
    obtain ⟨⟨t₁, opt⟩, hwatched, rfl⟩ := Option.map_eq_some_iff.mp hwatch
    rcases watchPath_spec hwatched with ⟨hsame, -⟩ | ⟨fd, hfd, -, -, hi⟩
    · exact hsame
    · refine absurd ⟨hlast, fun fd' hfd' => ?_⟩ hfree
      rw [hfd] at hfd'
      cases hfd'
      exact hi.free

end One

/-- What the fold over the names leaves alone. -/
theorem foldlM_extends {children : List ChildInfo} (hchild : ∀ c ∈ children, ∃ name, c.path = dirPath ++ '/' :: name)
    (hfold : (children.map (item dirPath)).foldlM (watchItem dirPath folderId wd answer) t = some t') :
    t.Extends t' ∧ ∀ path, (∀ c ∈ children, c.path ≠ path) → t'.pathToWd path = t.pathToWd path := by
  induction children generalizing t with
  | nil =>
    cases hfold
    exact ⟨.refl _, fun _ _ => rfl⟩
  | cons c children ih =>
    have hpath := hchild c (List.mem_cons_self ..)
    rw [List.map_cons, List.foldlM_cons] at hfold
    obtain ⟨t₁, hitem, hrest⟩ := Option.bind_eq_some_iff.mp hfold
    obtain ⟨hext, hothers⟩ := ih (fun d hd => hchild d (List.mem_cons_of_mem _ hd)) hrest
    have hfits : c.path.length < bufferSize := by
      by_contra hlong
      rw [watchItem_long hpath hlong] at hitem
      cases hitem
    -- the first child is watched now, or nothing has changed
    by_cases hinsert : t.Wanted answer c ∧ t.Free answer c
    · obtain ⟨fd, t₂, -, hsome, hi⟩ := watchItem_free hpath folderId wd hfits hinsert.1 hinsert.2
      obtain rfl : t₂ = t₁ := Option.some_inj.mp (hsome.symm.trans hitem)
      refine ⟨hi.extends.trans hext, fun path hother => ?_⟩
      rw [hothers path fun d hd => hother d (List.mem_cons_of_mem _ hd), hi.pathToWd]
      exact Function.update_of_ne (fun heq => hother c (List.mem_cons_self ..) heq.symm) _ _
    · have hsame : t₁ = t := by
        by_cases hwanted : t.Wanted answer c
        · exact watchItem_blocked hpath hwanted (fun hfree => hinsert ⟨hwanted, hfree⟩) hitem
        · rw [watchItem_unwanted hpath hfits hwanted] at hitem
          exact (Option.some_inj.mp hitem).symm
      rw [hsame] at hext hothers
      exact ⟨hext, fun path hother => hothers path fun d hd => hother d (List.mem_cons_of_mem _ hd)⟩

/-- After one child has been watched, another one is wanted as before. -/
theorem Inserted.wanted_iff (hi : Inserted t t' g) (hne : d.path ≠ g.path) :
    t'.Wanted answer d ↔ t.Wanted answer d := by
  rw [Wanted, Wanted, hi.pathToWd, Function.update_of_ne hne]

/-- It may be in the way of the other one. -/
theorem Inserted.free_iff (hi : Inserted t t' g) (hanswer : answer c.path = some g.wd) (hc : g.path = c.path)
    (hd : ∃ fd, answer d.path = some fd) : t'.Free answer d ↔ t.Free answer d ∧ Apart answer c d := by
  obtain ⟨fd, hfd⟩ := hd
  rw [Free, Free, Apart, hi.pathToWd, hanswer, hfd, Function.update_apply, hc]
  have hnum : t'.find fd = none ↔ t.find fd = none ∧ g.wd ≠ fd := by
    rw [hi.find]
    split
    · rename_i heq
      simp [heq]
    · rename_i hne
      exact ⟨fun h => ⟨h, fun heq => hne heq.symm⟩, And.left⟩
  have hpath : (if d.path.dropLast = c.path then some g.wd else t.pathToWd d.path.dropLast) = none ↔
      t.pathToWd d.path.dropLast = none ∧ c.path ≠ d.path.dropLast := by
    split
    · rename_i heq
      simp [heq]
    · rename_i hne
      exact ⟨fun h => ⟨h, fun heq => hne heq.symm⟩, And.left⟩
  rw [hpath]
  simp only [Option.mem_some_iff, forall_eq', hnum, ne_eq, Option.some.injEq]
  tauto

/-- **The fold over the names** watches every child that should be watched if and only if the paths fit into the
buffer and nothing is in the way of a child, neither before nor after the children in front of it. -/
theorem foldlM_iff (folderId : String) (hwd : 0 ≤ wd) {children : List ChildInfo}
    (hchild : ∀ c ∈ children, ∃ name, c.path = dirPath ++ '/' :: name)
    (hnodup : (children.map ChildInfo.path).Nodup) :
    (∃ t', (children.map (item dirPath)).foldlM (watchItem dirPath folderId wd answer) t = some t' ∧
      ∀ c ∈ children, t.Wanted answer c → t'.Registered answer folderId wd c) ↔
    (∀ c ∈ children, c.path.length < bufferSize) ∧ (∀ c ∈ children, t.Wanted answer c → t.Free answer c) ∧
      children.Pairwise fun d c => t.Wanted answer d → t.Wanted answer c → Apart answer d c := by
  induction children generalizing t with
  | nil => simp
  | cons c children ih =>
    have hpath := hchild c (List.mem_cons_self ..)
    have hrest (d : ChildInfo) (hd : d ∈ children) := hchild d (List.mem_cons_of_mem _ hd)
    obtain ⟨hfresh, hnodup⟩ := List.nodup_cons.mp hnodup
    have hne (d : ChildInfo) (hd : d ∈ children) : d.path ≠ c.path := fun heq =>
      hfresh (List.mem_map.mpr ⟨d, hd, heq⟩)
    simp only [List.map_cons, List.foldlM_cons, List.forall_mem_cons, List.pairwise_cons]
    by_cases hfits : c.path.length < bufferSize
    swap
    · rw [watchItem_long hpath hfits]
      simp [hfits]
    by_cases hwanted : t.Wanted answer c
    · by_cases hfree : t.Free answer c
      · obtain ⟨fd, t₁, hanswer, hitem, hi⟩ := watchItem_free hpath folderId wd hfits hwanted hfree
        have hself : t₁.Registered answer folderId wd c := by
          refine ⟨fd, hanswer, ?_, ?_, (hi.subdirs wd fd).mpr (.inr ⟨hwd, rfl, rfl⟩)⟩
          · rw [hi.find, if_pos rfl]
          · rw [hi.pathToWd]
            exact Function.update_self ..
        have hwantedIff (d : ChildInfo) (hd : d ∈ children) : t₁.Wanted answer d ↔ t.Wanted answer d :=
          hi.wanted_iff (hne d hd)
        have hfreeIff (d : ChildInfo) (hd : t.Wanted answer d) :
            t₁.Free answer d ↔ t.Free answer d ∧ Apart answer c d := by
          obtain ⟨-, -, fd', hfd', -⟩ := hd
          exact hi.free_iff hanswer rfl ⟨fd', hfd'⟩
        have hih := ih (t := t₁) hrest hnodup
        rw [hitem, Option.bind_eq_bind, Option.bind_some]
        constructor
        · rintro ⟨t', hfold, -, hregistered⟩
          obtain ⟨hlong, hfree', hapart⟩ := hih.mp
            ⟨t', hfold, fun d hd hd' => hregistered d hd ((hwantedIff d hd).mp hd')⟩
          have hboth (d : ChildInfo) (hd : d ∈ children) (hd' : t.Wanted answer d) :=
            (hfreeIff d hd').mp (hfree' d hd ((hwantedIff d hd).mpr hd'))
          refine ⟨⟨hfits, hlong⟩, ⟨fun _ => hfree, fun d hd hd' => (hboth d hd hd').1⟩,
            fun d hd _ hd' => (hboth d hd hd').2, ?_⟩
          exact hapart.imp_of_mem fun hd he h hd' he' => h ((hwantedIff _ hd).mpr hd') ((hwantedIff _ he).mpr he')
        · rintro ⟨⟨-, hlong⟩, ⟨-, hfree'⟩, hfirst, hapart⟩
          obtain ⟨t', hfold, hregistered⟩ := hih.mpr ⟨hlong, fun d hd hd' => by
            have hd' := (hwantedIff d hd).mp hd'
            exact (hfreeIff d hd').mpr ⟨hfree' d hd hd', hfirst d hd hwanted hd'⟩, hapart.imp_of_mem
              fun hd he h hd' he' => h ((hwantedIff _ hd).mp hd') ((hwantedIff _ he).mp he')⟩
          exact ⟨t', hfold, fun _ => hself.mono (foldlM_extends hrest hfold).1,
            fun d hd hd' => hregistered d hd ((hwantedIff d hd).mpr hd')⟩
      · -- the table has nothing for this child, and the others do not put it in
        refine iff_of_false ?_ fun h => hfree (h.2.1.1 hwanted)
        rintro ⟨t', hfold, hregistered, -⟩
        obtain ⟨t₁, hitem, hfold⟩ := Option.bind_eq_some_iff.mp hfold
        have hsame := watchItem_blocked hpath hwanted hfree hitem
        rw [hsame] at hfold
        obtain ⟨fd, -, -, hfound, -⟩ := hregistered hwanted
        rw [(foldlM_extends hrest hfold).2 c.path hne, hwanted.2.1] at hfound
        cases hfound
    · rw [watchItem_unwanted hpath hfits hwanted, Option.bind_eq_bind, Option.bind_some]
      simp only [hfits, hwanted, false_imp_iff, true_and, implies_true]
      exact ih hrest hnodup

end Children

/-! ## The whole of `notify` -/

/-- `notify` asks for a watch of the directory itself: it has none, and its parent has. -/
def Asks (t : Table) (scan : ScanDir) : Prop :=
  t.pathToWd scan.dirPath = none ∧ ((rfind scan.dirPath).bind fun pos => t.pathToWd (scan.dirPath.take pos)).isSome

/-- The names are looked at: the directory is watched, or it is then found under the path it is watched with. -/
def Opens (t : Table) (scan : ScanDir) (answer : List Char → Option Int) : Prop :=
  (t.pathToWd scan.dirPath).isSome ∨ t.Asks scan ∧ scan.path = scan.dirPath ∧ ∃ fd ∈ answer scan.path, 0 ≤ fd

/-- **What `notify` is for**: the directories that should be watched are, below the scanned one, and what was
watched stays as it is. -/
structure Watches (t : Table) (scan : ScanDir) (answer : List Char → Option Int) (t' : Table) : Prop where
  new : ∀ c ∈ scan.childInfos, t.Wanted answer c →
    ∃ wd dir, t'.pathToWd scan.dirPath = some wd ∧ t'.find wd = some dir ∧ t'.Registered answer dir.folderId wd c
  kept : t.Extends t'

/-- The condition on the table, the scan and the answers of the kernel. -/
structure Watchable (t : Table) (scan : ScanDir) (answer : List Char → Option Int) : Prop where
  fits : t.Opens scan answer → scan.dirPath.length ≤ bufferSize ∧ ∀ c ∈ scan.childInfos, c.path.length < bufferSize
  opens : ∀ c ∈ scan.childInfos, t.Wanted answer c → t.Opens scan answer ∧ t.Free answer c
  apart : scan.childInfos.Pairwise fun d c => t.Wanted answer d → t.Wanted answer c → Apart answer d c
  own : t.Asks scan → t.pathToWd scan.path = none → ∀ fd ∈ answer scan.path, 0 ≤ fd → t.find fd = none ∧
    ∀ c ∈ scan.childInfos, t.Wanted answer c → answer c.path ≠ some fd

section Notify

variable {t t' : Table} {wd : Int} {scan : ScanDir} {answer : List Char → Option Int}

theorem rfind_append {dirPath name : List Char} (hname : '/' ∉ name) :
    rfind (dirPath ++ '/' :: name) = some dirPath.length := by
  have hnone : rfind name = none := by
    cases h : rfind name with
    | none => rfl
    | some pos =>
      obtain ⟨name', -, hdrop⟩ := rfind_spec h
      exact absurd (List.mem_of_mem_drop (hdrop ▸ List.mem_cons_self ..)) hname
  induction dirPath with
  | nil =>
    rw [List.nil_append, rfind, hnone]
    rfl
  | cons c dirPath ih =>
    rw [List.cons_append, rfind, ih]
    rfl

/-- The queue has every child. -/
theorem ScanDir.Listing.items_eq (h : scan.Listing) : scan.items = scan.childInfos.map (item scan.dirPath) := by
  rw [ScanDir.items, ← List.filterMap_eq_map]
  refine List.filterMap_congr fun c hc => ?_
  obtain ⟨name, hname, hpath⟩ := h.child c hc
  rw [hpath, rfind_append hname.2, Option.map_some, Function.comp, item, hpath]

/-- The names of a directory that is watched. -/
theorem Indexed.watchItems_iff (h : t.Indexed) (hscan : scan.Listing) (hwd : t.pathToWd scan.dirPath = some wd) :
    (∃ t', t.watchItems scan wd answer = some t' ∧ t.Watches scan answer t') ↔
      scan.dirPath.length ≤ bufferSize ∧ (∀ c ∈ scan.childInfos, c.path.length < bufferSize) ∧
        (∀ c ∈ scan.childInfos, t.Wanted answer c → t.Free answer c) ∧
        scan.childInfos.Pairwise fun d c => t.Wanted answer d → t.Wanted answer c → Apart answer d c := by
  obtain ⟨dir, hdir, hpath⟩ := h.guard _ _ hwd
  have hchild (c : ChildInfo) (hc : c ∈ scan.childInfos) : ∃ name, c.path = scan.dirPath ++ '/' :: name := by
    obtain ⟨name, -, hname⟩ := hscan.child c hc
    exact ⟨name, hname⟩
  rw [Table.watchItems, hdir, Option.bind_eq_bind, Option.bind_some, hscan.items_eq]
  by_cases hlong : scan.dirPath.length ≤ bufferSize
  · rw [if_pos hlong, and_iff_right hlong,
      ← foldlM_iff dir.folderId (h.nonneg wd dir hdir) hchild hscan.nodup]
    refine exists_congr fun t' => and_congr_right fun hfold => ?_
    have hext := (foldlM_extends hchild hfold).1
    refine ⟨fun hwatches c hc hwanted => ?_, fun hall => ⟨fun c hc hwanted => ?_, hext⟩⟩
    · obtain ⟨wd', dir', hwd', hdir', hregistered⟩ := hwatches.new c hc hwanted
      cases hwd'.symm.trans (hext.pathToWd _ _ hwd)
      cases hdir'.symm.trans (hext.find _ _ hdir)
      exact hregistered
    · exact ⟨wd, dir, hext.pathToWd _ _ hwd, hext.find _ _ hdir, hall c hc hwanted⟩
  · rw [if_neg hlong]
    simp [hlong]

/-- Where the table does not change, nothing may be wanted. -/
theorem watches_self_iff (hwd : t.pathToWd scan.dirPath = none) :
    t.Watches scan answer t ↔ ∀ c ∈ scan.childInfos, ¬ t.Wanted answer c := by
  refine ⟨fun h c hc hwanted => ?_, fun h => ⟨fun c hc hwanted => absurd hwanted (h c hc), .refl t⟩⟩
  obtain ⟨wd, dir, hfound, -⟩ := h.new c hc hwanted
  rw [hwd] at hfound
  cases hfound

theorem Indexed.extends_of_watchItems (h : t.Indexed) (hscan : scan.Listing)
    (hwd : t.pathToWd scan.dirPath = some wd) (hwatch : t.watchItems scan wd answer = some t') : t.Extends t' := by
  obtain ⟨dir, hdir, -⟩ := h.guard _ _ hwd
  rw [Table.watchItems, hdir, Option.bind_eq_bind, Option.bind_some, hscan.items_eq] at hwatch
  split at hwatch
  · refine (foldlM_extends (fun c hc => ?_) hwatch).1
    obtain ⟨name, -, hname⟩ := hscan.child c hc
    exact ⟨name, hname⟩
  · cases hwatch

/-- The directory itself has just been watched. -/
theorem Indexed.inserted_watches_iff (h : t.Indexed) (hscan : scan.Listing) (hasks : t.Asks scan)
    (hpath : scan.path = scan.dirPath) {t₁ : Table} {fd parent : Int} {folderId : String}
    (hanswer : answer scan.path = some fd) (hi : Inserted t t₁ ⟨fd, scan.path, folderId, parent⟩) :
    (∃ t', t₁.watchItems scan fd answer = some t' ∧ t.Watches scan answer t') ↔ t.Watchable scan answer := by
  have h₁ : t₁.Indexed := h.insert hi
  have hwd₁ : t₁.pathToWd scan.dirPath = some fd := by
    rw [hi.pathToWd, ← hpath]
    exact Function.update_self ..
  have hopens : t.Opens scan answer := .inr ⟨hasks, hpath, fd, hanswer, hi.nonneg⟩
  -- the path of a child is longer than the directory's, also without its last character
  have hlonger (c : ChildInfo) (hc : c ∈ scan.childInfos) : scan.path.length < c.path.dropLast.length := by
    obtain ⟨name, hname, hchild⟩ := hscan.child c hc
    have := List.length_pos_iff.mpr hname.1
    rw [hchild, hpath, List.length_dropLast, List.length_append, List.length_cons]
    omega
  have hwantedIff (c : ChildInfo) (hc : c ∈ scan.childInfos) : t₁.Wanted answer c ↔ t.Wanted answer c := by
    refine hi.wanted_iff fun heq => ?_
    have := hlonger c hc
    rw [heq, List.length_dropLast] at this
    dsimp only at this
    omega
  have hfreeIff (c : ChildInfo) (hc : c ∈ scan.childInfos) (hwanted : t.Wanted answer c) :
      t₁.Free answer c ↔ t.Free answer c ∧ answer c.path ≠ some fd := by
    obtain ⟨-, -, fd', hfd', -⟩ := hwanted
    rw [hi.free_iff (c := ⟨scan.path, true⟩) hanswer rfl ⟨fd', hfd'⟩, Apart, hanswer]
    refine and_congr_right fun _ => ⟨fun hapart heq => hapart.2 heq.symm, fun hne => ⟨fun heq => ?_, hne.symm⟩⟩
    exact absurd (hlonger c hc) (by rw [← heq]; exact lt_irrefl _)
  have hsame : (∃ t', t₁.watchItems scan fd answer = some t' ∧ t.Watches scan answer t') ↔
      ∃ t', t₁.watchItems scan fd answer = some t' ∧ t₁.Watches scan answer t' := by
    refine exists_congr fun t' => and_congr_right fun hwatch => ?_
    have hext := h₁.extends_of_watchItems hscan hwd₁ hwatch
    exact ⟨fun hw => ⟨fun c hc hwanted => hw.new c hc ((hwantedIff c hc).mp hwanted), hext⟩,
      fun hw => ⟨fun c hc hwanted => hw.new c hc ((hwantedIff c hc).mpr hwanted), hi.extends.trans hext⟩⟩
  rw [hsame, h₁.watchItems_iff hscan hwd₁]
  constructor
  · rintro ⟨hdir, hlong, hfree, hapart⟩
    have hboth (c : ChildInfo) (hc : c ∈ scan.childInfos) (hwanted : t.Wanted answer c) :=
      (hfreeIff c hc hwanted).mp (hfree c hc ((hwantedIff c hc).mpr hwanted))
    refine ⟨fun _ => ⟨hdir, hlong⟩, fun c hc hwanted => ⟨hopens, (hboth c hc hwanted).1⟩, ?_, ?_⟩
    · exact hapart.imp_of_mem fun hd hc hdc hd' hc' => hdc ((hwantedIff _ hd).mpr hd') ((hwantedIff _ hc).mpr hc')
    · intro _ _ fd' hfd' _
      cases hanswer.symm.trans hfd'
      exact ⟨hi.free, fun c hc hwanted => (hboth c hc hwanted).2⟩
  · intro hw
    have hown := (hw.own hasks hi.new fd hanswer hi.nonneg).2
    refine ⟨(hw.fits hopens).1, (hw.fits hopens).2, fun c hc hwanted => ?_, ?_⟩
    · have hwanted := (hwantedIff c hc).mp hwanted
      exact (hfreeIff c hc hwanted).mpr ⟨(hw.opens c hc hwanted).2, hown c hc hwanted⟩
    · exact hw.apart.imp_of_mem fun hd hc hdc hd' hc' => hdc ((hwantedIff _ hd).mp hd') ((hwantedIff _ hc).mp hc')

/-- **`notify` does what it is for** if and only if the scan is watchable. -/
theorem Indexed.watches_iff (h : t.Indexed) (hscan : scan.Listing) :
    (∃ t', t.notify scan answer = some t' ∧ t.Watches scan answer t') ↔ t.Watchable scan answer := by
  rw [Table.notify]
  cases hwd : t.pathToWd scan.dirPath with
  | some wd =>
    have hopens : t.Opens scan answer := .inl (by rw [hwd]; rfl)
    have hasks : ¬ t.Asks scan := fun hasks => by
      rw [Asks, hwd] at hasks
      cases hasks.1
    dsimp only
    rw [h.watchItems_iff hscan hwd]
    constructor
    · rintro ⟨hdir, hlong, hfree, hapart⟩
      exact ⟨fun _ => ⟨hdir, hlong⟩, fun c hc hwanted => ⟨hopens, hfree c hc hwanted⟩, hapart,
        fun hask => absurd hask hasks⟩
    · intro hw
      exact ⟨(hw.fits hopens).1, (hw.fits hopens).2, fun c hc hwanted => (hw.opens c hc hwanted).2, hw.apart⟩
  | none =>
    dsimp only
    have hopened (hopens : t.Opens scan answer) :
        t.Asks scan ∧ scan.path = scan.dirPath ∧ ∃ fd ∈ answer scan.path, 0 ≤ fd := by
      refine hopens.resolve_left fun hfound => ?_
      rw [hwd] at hfound
      cases hfound
    -- without a watch for the directory nothing may be wanted
    have hunopened (hclosed : ¬ t.Opens scan answer)
        (hown : t.Asks scan → t.pathToWd scan.path = none → ∀ fd ∈ answer scan.path, 0 ≤ fd → t.find fd = none) :
        t.Watchable scan answer ↔ ∀ c ∈ scan.childInfos, ¬ t.Wanted answer c := by
      refine ⟨fun hw c hc hwanted => hclosed (hw.opens c hc hwanted).1, fun hnot => ⟨fun hopen => absurd hopen hclosed,
        fun c hc hwanted => absurd hwanted (hnot c hc), ?_, ?_⟩⟩
      · exact List.pairwise_of_forall_mem_list fun d hd c _ hwanted => absurd hwanted (hnot d hd)
      · exact fun hask hnew fd hfd hnonneg =>
          ⟨hown hask hnew fd hfd hnonneg, fun c hc hwanted => absurd hwanted (hnot c hc)⟩
    cases hparent : (rfind scan.dirPath).bind fun pos => t.pathToWd (scan.dirPath.take pos) with
    | none =>
      have hasks : ¬ t.Asks scan := fun hasks => by
        rw [Asks, hparent] at hasks
        cases hasks.2
      rw [hunopened (fun hopens => hasks (hopened hopens).1) fun hask => absurd hask hasks, ← watches_self_iff hwd]
      simp
    | some parent =>
      have hasks : t.Asks scan := ⟨hwd, by rw [hparent]; rfl⟩
      obtain ⟨pos, -, hto⟩ := Option.bind_eq_some_iff.mp hparent
      obtain ⟨guard, hguard, -⟩ := h.guard _ parent hto
      dsimp only
      rw [hguard, Option.bind_eq_bind, Option.bind_some]
      by_cases hnew : t.pathToWd scan.path = none ∧ ∃ fd ∈ answer scan.path, 0 ≤ fd
      · obtain ⟨hnone, fd, hfd, hnonneg⟩ := hnew
        rw [Option.mem_def] at hfd
        rw [hfd]
        by_cases hfree : t.find fd = none
        · obtain ⟨t₁, hwatch, hi⟩ := watchPath_new guard.folderId parent hnone hnonneg hfree
          rw [hwatch, Option.bind_eq_bind, Option.bind_some]
          dsimp only
          rw [hi.pathToWd, Function.update_apply]
          by_cases hpath : scan.path = scan.dirPath
          · rw [if_pos hpath.symm]
            exact h.inserted_watches_iff hscan hasks hpath hfd hi
          · -- it is watched under the path with the slash, and not found
            rw [if_neg fun heq => hpath heq.symm, hwd, hunopened fun hopens => hpath (hopened hopens).2.1]
            · constructor
              · rintro ⟨t', heq, hw⟩ c hc hwanted
                cases heq
                obtain ⟨wd, dir, hfound, -⟩ := hw.new c hc hwanted
                rw [hi.pathToWd, Function.update_of_ne fun heq => hpath heq.symm, hwd] at hfound
                cases hfound
              · exact fun hnot => ⟨t₁, rfl, fun c hc hwanted => absurd hwanted (hnot c hc), hi.extends⟩
            · intro _ _ fd' hfd' _
              cases hfd.symm.trans hfd'
              exact hfree
        · rw [watchPath_used guard.folderId parent hnone hnonneg hfree]
          refine iff_of_false (fun hsome => ?_) fun hw => hfree (hw.own hasks hnone fd hfd hnonneg).1
          obtain ⟨t', hsome, -⟩ := hsome
          cases hsome
      · obtain ⟨opt, hwatch⟩ := watchPath_same guard.folderId parent hnew
        rw [hwatch, Option.bind_eq_bind, Option.bind_some]
        dsimp only
        rw [hwd, hunopened, ← watches_self_iff hwd]
        · simp
        · intro hopens
          obtain ⟨-, hpath, haccepted⟩ := hopened hopens
          exact hnew ⟨hpath ▸ hwd, haccepted⟩
        · exact fun _ hnone fd hfd hnonneg => absurd ⟨hnone, fd, hfd, hnonneg⟩ hnew

/-- **New directories are watched** exactly where the scan is watchable, after every run. -/
theorem notify_iff {ops : List Operation} (h : Run.exec Table.step empty ops = some t) (hscan : scan.Listing)
    (answer : List Char → Option Int) :
    (∃ t', t.notify scan answer = some t' ∧ t.Watches scan answer t') ↔ t.Watchable scan answer :=
  (indexed_of_run h).watches_iff hscan

end Notify

/-! ## Siblings -/

section Siblings

variable (t : Table) (scan : ScanDir) (answer : List Char → Option Int) (c d : ChildInfo)

instance : Decidable (t.Wanted answer c) := inferInstanceAs (Decidable (_ ∧ _ ∧ _))

instance : Decidable (t.Free answer c) := inferInstanceAs (Decidable (_ ∧ _))

instance : Decidable (Apart answer d c) := inferInstanceAs (Decidable (_ ∧ _))

instance : Decidable (t.Asks scan) := inferInstanceAs (Decidable (_ ∧ _))

instance : Decidable (t.Opens scan answer) := inferInstanceAs (Decidable (_ ∨ _))

instance : Decidable (t.Watchable scan answer) :=
  decidable_of_iff ((t.Opens scan answer →
      scan.dirPath.length ≤ bufferSize ∧ ∀ c ∈ scan.childInfos, c.path.length < bufferSize) ∧
    (∀ c ∈ scan.childInfos, t.Wanted answer c → t.Opens scan answer ∧ t.Free answer c) ∧
    scan.childInfos.Pairwise (fun d c => t.Wanted answer d → t.Wanted answer c → Apart answer d c) ∧
    (t.Asks scan → t.pathToWd scan.path = none → ∀ fd ∈ answer scan.path, 0 ≤ fd → t.find fd = none ∧
      ∀ c ∈ scan.childInfos, t.Wanted answer c → answer c.path ≠ some fd))
    ⟨fun ⟨h₁, h₂, h₃, h₄⟩ => ⟨h₁, h₂, h₃, h₄⟩, fun h => ⟨h.fits, h.opens, h.apart, h.own⟩⟩

end Siblings

/-- A folder with the directory `a`. -/
def watchedOne : List Operation :=
  [.watch "f" "/f".toList (some 1),
    .notify ⟨"/f".toList, [⟨"/f/a".toList, true⟩]⟩ fun path => if path = "/f/a".toList then some 2 else none]

/-- It has a second directory now, and a file. -/
def secondScan (name : List Char) : ScanDir :=
  ⟨"/f".toList, [⟨"/f/z".toList, false⟩, ⟨"/f/".toList ++ name, true⟩, ⟨"/f/a".toList, true⟩]⟩

/-- The kernel takes the new one. -/
def secondAnswer (name path : List Char) : Option Int := if path = "/f/".toList ++ name then some 3 else none

theorem listing_secondScan {name : List Char} (hname : IsName name) (hz : name ≠ ['z']) (ha : name ≠ ['a']) :
    (secondScan name).Listing := by
  refine ⟨?_, ?_⟩
  · intro c hc
    rcases List.mem_cons.mp hc with rfl | hc
    · exact ⟨['z'], by decide, rfl⟩
    · rcases List.mem_cons.mp hc with rfl | hc
      · exact ⟨name, hname, rfl⟩
      · rw [List.mem_singleton.mp hc]
        exact ⟨['a'], by decide, rfl⟩
  · show ([['z'], name, ['a']].map ("/f/".toList ++ ·)).Nodup
    refine (List.nodup_map_iff (List.append_right_injective _)).mpr ?_
    simp [hz.symm, ha]

theorem notify_b : ∃ t t', Run.exec Table.step empty watchedOne = some t ∧
    t.notify (secondScan ['b']) (secondAnswer ['b']) = some t' ∧
      t.Watches (secondScan ['b']) (secondAnswer ['b']) t' := by
  have hwatchable : (Run.exec Table.step empty watchedOne).any
      (fun t => decide (t.Watchable (secondScan ['b']) (secondAnswer ['b']))) = true := by
    decide +kernel
  obtain ⟨t, hrun, hdecide⟩ := (Option.any_eq_true _ _).mp hwatchable
  obtain ⟨t', hnotify, hwatches⟩ := (notify_iff hrun (listing_secondScan (by decide) (by decide) (by decide)) _).mpr
    (of_decide_eq_true hdecide)
  exact ⟨t, t', hrun, hnotify, hwatches⟩

/-- **A sibling is skipped**: `ab` without its last character is `a`. -/
theorem extension_skipped : ∃ t, Run.exec Table.step empty watchedOne = some t ∧ (secondScan ['a', 'b']).Listing ∧
    ¬ ∃ t', t.notify (secondScan ['a', 'b']) (secondAnswer ['a', 'b']) = some t' ∧
      t.Watches (secondScan ['a', 'b']) (secondAnswer ['a', 'b']) t' := by
  obtain ⟨t, hrun⟩ := Option.isSome_iff_exists.mp
    (show (Run.exec Table.step empty watchedOne).isSome = true by decide +kernel)
  refine ⟨t, hrun, listing_secondScan (by decide) (by decide) (by decide), ?_⟩
  rintro ⟨t', hnotify, hwatches⟩
  -- the directory is not in the table afterwards
  have hmissing : ((Run.exec Table.step empty watchedOne).bind fun t =>
      (t.notify (secondScan ['a', 'b']) (secondAnswer ['a', 'b'])).map fun t' =>
        (t.pathToWd "/f/ab".toList, t'.pathToWd "/f/ab".toList)) = some (none, none) := by
    decide +kernel
  rw [hrun, Option.bind_some, hnotify, Option.map_some, Option.some.injEq, Prod.mk.injEq] at hmissing
  have hwanted : t.Wanted (secondAnswer ['a', 'b']) ⟨"/f/ab".toList, true⟩ := ⟨rfl, hmissing.1, 3, rfl, by decide⟩
  obtain ⟨wd, dir, -, -, fd, -, -, hpath, -⟩ := hwatches.new ⟨"/f/ab".toList, true⟩ (by decide) hwanted
  rw [hmissing.2] at hpath
  cases hpath

end Table

end WatchTable

end SyncSpirit
