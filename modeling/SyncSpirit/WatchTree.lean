import SyncSpirit.Lib.Forest
import SyncSpirit.WatchTable

/-!
# The tree of the watched directories

`Consistent` is what the three maps should say: `pathToWd` is the inverse of `pathMap`, `subdirMap` has
the children, and the path of a child is the path of its parent and one name. `Tree` is the invariant;
a new directory keeps it (`Tree.insert`), and so does one without children that goes (`Tree.remove`).
From these follow `watch`, `notify`, `unwatch` and `forget`, each under its own condition.
-/

namespace SyncSpirit

namespace WatchTable

/-- One component of a path. -/
def IsName (name : List Char) : Prop := name ≠ [] ∧ '/' ∉ name

instance (name : List Char) : Decidable (IsName name) := inferInstanceAs (Decidable (_ ∧ _))

namespace Table

/-- **The maps agree.** -/
structure Consistent (t : Table) : Prop where
  inverse : ∀ path wd, t.pathToWd path = some wd ↔ ∃ g, t.find wd = some g ∧ g.path = path
  subdirs : ∀ parent wd, wd ∈ t.subdirMap parent ↔ 0 ≤ parent ∧ ∃ g, t.find wd = some g ∧ g.parentFd = parent
  component : ∀ wd g, t.find wd = some g → 0 ≤ g.parentFd → ∃ parent, t.find g.parentFd = some parent ∧
    ∃ name, IsName name ∧ g.path = parent.path ++ '/' :: name

/-- **The invariant**: the maps agree, and every directory belongs to a watched folder, whose path is the
one of the root. -/
structure Tree (t : Table) : Prop extends Consistent t where
  nonneg : ∀ wd g, t.find wd = some g → 0 ≤ wd
  folder : ∀ wd g, t.find wd = some g → ∃ folderPath, t.watchedFolders g.folderId = some folderPath ∧
    (g.parentFd < 0 → g.path = folderPath)
  inherits : ∀ wd g parent, t.find wd = some g → t.find g.parentFd = some parent → 0 ≤ g.parentFd →
    parent.folderId = g.folderId

theorem tree_empty : Tree empty := by
  refine ⟨⟨?_, ?_, ?_⟩, ?_, ?_, ?_⟩
  · intro path wd
    simp [empty, find]
  · intro parent wd
    simp [empty, find]
  all_goals
    intro wd g
    simp [empty, find]

section Basic

variable {t : Table} {wd wd' : Int} {g g' : Guard} {path : List Char}

theorem find_wd (h : t.find wd = some g) : g.wd = wd := (find_eq_some.mp h).2

@[simp]
theorem find_erase : (t.erase wd).find wd' = if wd' = wd then none else t.find wd' := by
  split
  · rename_i heq
    rw [find_eq_none]
    intro g hg
    rw [heq]
    simpa using (List.mem_filter.mp hg).2
  · rename_i hne
    cases hfind : t.find wd' with
    | none =>
      rw [find_eq_none] at hfind ⊢
      intro g hg
      exact hfind g (List.mem_filter.mp hg).1
    | some g =>
      rw [find_eq_some] at hfind ⊢
      refine ⟨List.mem_filter.mpr ⟨hfind.1, ?_⟩, hfind.2⟩
      rw [hfind.2]
      simpa using hne

@[simp]
theorem find_setPath : (t.setPath wd path).find wd' =
    (t.find wd').map fun g => if wd' = wd then { g with path := path } else g := by
  cases hfind : t.find wd' with
  | none =>
    rw [Option.map_none, find_eq_none]
    rw [find_eq_none] at hfind
    intro g hg
    obtain ⟨g₀, hg₀, rfl⟩ := List.mem_map.mp hg
    split <;> exact hfind g₀ hg₀
  | some g =>
    rw [find_eq_some] at hfind
    rw [Option.map_some, find_eq_some]
    refine ⟨List.mem_map.mpr ⟨g, hfind.1, ?_⟩, ?_⟩
    · rw [hfind.2]
    · split <;> exact hfind.2

theorem find_emplace {t' : Table} (h : t.emplace g = some t') :
    t.find g.wd = none ∧ (∀ wd, t'.find wd = if wd = g.wd then some g else t.find wd) ∧
      t'.pathToWd = t.pathToWd ∧ t'.subdirMap = t.subdirMap ∧ t'.watchedFolders = t.watchedFolders := by
  unfold emplace at h
  split at h
  · rename_i hnone
    cases h
    refine ⟨hnone, fun wd => ?_, rfl, rfl, rfl⟩
    split
    · rename_i heq
      rw [find_eq_some]
      exact ⟨List.mem_append_right _ (List.mem_singleton_self g), heq.symm⟩
    · rename_i hne
      cases hfind : t.find wd with
      | none =>
        rw [find_eq_none] at hfind ⊢
        intro g' hg'
        rcases List.mem_append.mp hg' with hg' | hg'
        · exact hfind g' hg'
        · rw [List.mem_singleton.mp hg']
          exact fun heq => hne heq.symm
      | some g' =>
        rw [find_eq_some] at hfind ⊢
        exact ⟨List.mem_append_left _ hfind.1, hfind.2⟩
  · cases h

@[simp]
theorem find_keepPath : (t.keepPath path wd).find wd' = t.find wd' := by
  unfold keepPath
  split <;> rfl

@[simp]
theorem subdirMap_keepPath : (t.keepPath path wd).subdirMap = t.subdirMap := by
  unfold keepPath
  split <;> rfl

@[simp]
theorem watchedFolders_keepPath : (t.keepPath path wd).watchedFolders = t.watchedFolders := by
  unfold keepPath
  split <;> rfl

theorem pathToWd_keepPath (wd : Int) (h : t.pathToWd path = none) :
    (t.keepPath path wd).pathToWd = Function.update t.pathToWd path (some wd) := by
  rw [keepPath, h]
  rfl

theorem mem_addChild {parent parent' : Int} :
    wd' ∈ (t.addChild parent wd).subdirMap parent' ↔ wd' ∈ t.subdirMap parent' ∨ parent' = parent ∧ wd' = wd := by
  unfold addChild
  split
  · rename_i hmem
    refine ⟨.inl, ?_⟩
    rintro (h | ⟨rfl, rfl⟩)
    · exact h
    · exact hmem
  · show wd' ∈ Function.update t.subdirMap parent _ parent' ↔ _
    rw [Function.update_apply]
    split
    · rename_i heq
      rw [List.mem_orderedInsert, heq]
      tauto
    · rename_i hne
      exact ⟨.inl, fun h => h.resolve_right fun h' => hne h'.1⟩

theorem mem_removeChild {parent parent' : Int} :
    wd' ∈ (t.removeChild parent wd).subdirMap parent' ↔ wd' ∈ t.subdirMap parent' ∧ (parent' = parent → wd' ≠ wd) := by
  show wd' ∈ Function.update t.subdirMap parent _ parent' ↔ _
  rw [Function.update_apply]
  split
  · rename_i heq
    rw [List.mem_filter, decide_eq_true_eq, heq]
    simp
  · rename_i hne
    exact ⟨fun h => ⟨h, fun heq => absurd heq hne⟩, And.left⟩

end Basic

/-! ## Ranks -/

section Ranks

variable {t : Table} {wd wd' : Int} {g g' : Guard}

/-- The length of the path. -/
def rank (t : Table) (wd : Int) : Nat := ((t.find wd).map fun g => g.path.length).getD 0

/-- The parent, if there is one. -/
def parent (t : Table) (wd : Int) : Option Int :=
  (t.find wd).bind fun g => if 0 ≤ g.parentFd then some g.parentFd else none

theorem rank_eq (h : t.find wd = some g) : t.rank wd = g.path.length := by rw [rank, h]; rfl

theorem Consistent.rank_lt (h : t.Consistent) (hg : t.find wd = some g) (hparent : 0 ≤ g.parentFd) :
    t.rank g.parentFd < t.rank wd := by
  obtain ⟨p, hp, name, -, hpath⟩ := h.component wd g hg hparent
  rw [rank_eq hg, rank_eq hp, hpath, List.length_append, List.length_cons]
  omega

theorem mem_wds : wd ∈ t.pathMap.map Guard.wd ↔ t.find wd ≠ none := by
  rw [Option.ne_none_iff_exists', List.mem_map]
  constructor
  · rintro ⟨g, hg, hwd⟩
    exact ⟨g, find_eq_some.mpr ⟨hg, hwd⟩⟩
  · rintro ⟨g, hg⟩
    exact ⟨g, find_eq_some.mp hg⟩

/-- **The watched directories are a forest.** -/
theorem Consistent.ranked (h : t.Consistent) :
    Forest.Ranked (t.pathMap.map Guard.wd) t.parent t.subdirMap t.rank where
  mem {p c} hc := by
    obtain ⟨hp, g, hg, rfl⟩ := (h.subdirs p c).mp hc
    refine ⟨mem_wds.mpr (by simp [hg]), ?_⟩
    rw [parent, hg, Option.bind_some, if_pos hp]
  nodup := t.subdirNodup
  rank_lt {p c} _ hparent := by
    obtain ⟨g, hg, hp⟩ := Option.bind_eq_some_iff.mp hparent
    split at hp
    · rename_i hnonneg
      cases hp
      exact h.rank_lt hg hnonneg
    · cases hp

/-- Two descriptors of one path are the same. -/
theorem Consistent.wd_unique (h : t.Consistent) (hg : t.find wd = some g) (hg' : t.find wd' = some g')
    (hpath : g.path = g'.path) : wd = wd' :=
  Option.some_inj.mp (((h.inverse g.path wd).mpr ⟨g, hg, rfl⟩).symm.trans
    ((h.inverse g.path wd').mpr ⟨g', hg', hpath.symm⟩))

end Ranks

/-! ## A new directory -/

section Insert

variable {t t' : Table} {wd : Int} {g : Guard}

/-- A directory has come in, without children. -/
structure Inserted (t t' : Table) (g : Guard) : Prop where
  nonneg : 0 ≤ g.wd
  free : t.find g.wd = none
  new : t.pathToWd g.path = none
  find : ∀ wd, t'.find wd = if wd = g.wd then some g else t.find wd
  pathToWd : t'.pathToWd = Function.update t.pathToWd g.path (some g.wd)
  subdirs : ∀ parent wd, wd ∈ t'.subdirMap parent ↔
    wd ∈ t.subdirMap parent ∨ 0 ≤ g.parentFd ∧ parent = g.parentFd ∧ wd = g.wd
  folders : t'.watchedFolders = t.watchedFolders

/-- What `watch_path` does. -/
theorem watchPath_spec {path : List Char} {folderId : String} {parent : Int} {answer opt : Option Int}
    (h : t.watchPath path folderId parent answer = some (t', opt)) :
    t' = t ∧ (∀ fd ∈ opt, fd < 0) ∨
      ∃ fd, answer = some fd ∧ opt = some fd ∧ 0 ≤ fd ∧ Inserted t t' ⟨fd, path, folderId, parent⟩ := by
  unfold watchPath at h
  split at h
  · cases h
    exact .inl ⟨rfl, by simp⟩
  · rename_i hpath
    rw [Bool.not_eq_true, Option.isSome_eq_false_iff, Option.isNone_iff_eq_none] at hpath
    split at h
    · cases h
      exact .inl ⟨rfl, by simp⟩
    · rename_i fd
      split at h
      · cases h
        exact .inl ⟨rfl, by simp⟩
      · rename_i hfd
        rw [not_lt] at hfd
        obtain ⟨t₁, hemplace, heq⟩ := Option.bind_eq_some_iff.mp h
        obtain ⟨hfree, hfind, hto, hsub, hfolders⟩ := find_emplace hemplace
        rw [← hto] at hpath
        have hto' := pathToWd_keepPath fd hpath
        rw [hto] at hto'
        cases heq
        refine .inr ⟨fd, rfl, rfl, hfd, hfd, hfree, hto ▸ hpath, fun wd => ?_, ?_, fun p wd => ?_, ?_⟩
        · rw [← hfind wd]
          split
          · rw [addChild]
            split <;> exact find_keepPath
          · exact find_keepPath
        · split
          · rw [addChild]
            split <;> exact hto'
          · exact hto'
        · split
          · rename_i hparent
            rw [mem_addChild, subdirMap_keepPath, hsub]
            simp [hparent]
          · rename_i hparent
            rw [subdirMap_keepPath, hsub]
            simp [hparent]
        · split
          · rw [addChild]
            split <;> exact watchedFolders_keepPath.trans hfolders
          · exact watchedFolders_keepPath.trans hfolders

/-- With a new descriptor the assertion of `watch_path` holds. -/
theorem watchPath_isSome (path : List Char) (folderId : String) (parent : Int) {answer : Option Int}
    (h : t.pathToWd path = none → ∀ fd, answer = some fd → 0 ≤ fd → t.find fd = none) :
    ∃ t' opt, t.watchPath path folderId parent answer = some (t', opt) := by
  unfold watchPath
  split
  · exact ⟨_, _, rfl⟩
  · rename_i hpath
    rw [Bool.not_eq_true, Option.isSome_eq_false_iff, Option.isNone_iff_eq_none] at hpath
    split
    · exact ⟨_, _, rfl⟩
    · rename_i fd
      split
      · exact ⟨_, _, rfl⟩
      · rename_i hfd
        rw [emplace, dif_pos (h hpath fd rfl (not_lt.mp hfd))]
        exact ⟨_, _, rfl⟩

/-- **A new directory** keeps the invariant if it is a root or a child of its parent. -/
theorem Tree.insert (h : t.Tree) (hi : Inserted t t' g)
    (hroot : g.parentFd < 0 → t.watchedFolders g.folderId = some g.path)
    (hchild : 0 ≤ g.parentFd → ∃ parent, t.find g.parentFd = some parent ∧ parent.folderId = g.folderId ∧
      ∃ name, IsName name ∧ g.path = parent.path ++ '/' :: name) : t'.Tree := by
  have hother {wd : Int} {g₀ : Guard} (hfind : t.find wd = some g₀) : t'.find wd = some g₀ := by
    rw [hi.find, if_neg]
    · exact hfind
    · rintro rfl
      rw [hi.free] at hfind
      cases hfind
  have hcases {wd : Int} {g₀ : Guard} (hfind : t'.find wd = some g₀) : wd = g.wd ∧ g₀ = g ∨ t.find wd = some g₀ := by
    rw [hi.find] at hfind
    split at hfind
    · rename_i heq
      cases hfind
      exact .inl ⟨heq, rfl⟩
    · exact .inr hfind
  have hself : t'.find g.wd = some g := by rw [hi.find, if_pos rfl]
  refine ⟨⟨?_, ?_, ?_⟩, ?_, ?_, ?_⟩
  · intro path wd
    rw [hi.pathToWd, Function.update_apply]
    split
    · rename_i heq
      constructor
      · rintro ⟨⟩
        exact ⟨g, hself, heq.symm⟩
      · rintro ⟨g₀, hg₀, hpath⟩
        rcases hcases hg₀ with ⟨rfl, -⟩ | hold
        · rfl
        · have := (h.inverse path wd).mpr ⟨g₀, hold, hpath⟩
          rw [heq, hi.new] at this
          cases this
    · rename_i hne
      rw [h.inverse]
      constructor
      · rintro ⟨g₀, hg₀, hpath⟩
        exact ⟨g₀, hother hg₀, hpath⟩
      · rintro ⟨g₀, hg₀, hpath⟩
        rcases hcases hg₀ with ⟨-, rfl⟩ | hold
        · exact absurd hpath.symm hne
        · exact ⟨g₀, hold, hpath⟩
  · intro parent wd
    rw [hi.subdirs, h.subdirs]
    constructor
    · rintro (⟨hp, g₀, hg₀, hparent⟩ | ⟨hp, rfl, rfl⟩)
      · exact ⟨hp, g₀, hother hg₀, hparent⟩
      · exact ⟨hp, g, hself, rfl⟩
    · rintro ⟨hp, g₀, hg₀, rfl⟩
      rcases hcases hg₀ with ⟨rfl, rfl⟩ | hold
      · exact .inr ⟨hp, rfl, rfl⟩
      · exact .inl ⟨hp, g₀, hold, rfl⟩
  · intro wd g₀ hg₀ hparent
    rcases hcases hg₀ with ⟨-, rfl⟩ | hold
    · obtain ⟨p, hp, -, hname⟩ := hchild hparent
      exact ⟨p, hother hp, hname⟩
    · obtain ⟨p, hp, hname⟩ := h.component wd g₀ hold hparent
      exact ⟨p, hother hp, hname⟩
  · intro wd g₀ hg₀
    rcases hcases hg₀ with ⟨rfl, -⟩ | hold
    · exact hi.nonneg
    · exact h.nonneg wd g₀ hold
  · intro wd g₀ hg₀
    rw [hi.folders]
    rcases hcases hg₀ with ⟨-, rfl⟩ | hold
    · rcases lt_or_ge g₀.parentFd 0 with hlt | hge
      · exact ⟨g₀.path, hroot hlt, fun _ => rfl⟩
      · obtain ⟨p, hp, hid, -⟩ := hchild hge
        obtain ⟨folderPath, hfolder, -⟩ := h.folder _ p hp
        exact ⟨folderPath, hid ▸ hfolder, fun hlt => absurd hge (not_le.mpr hlt)⟩
    · exact h.folder wd g₀ hold
  · intro wd g₀ p hg₀ hp hparent
    rcases hcases hg₀ with ⟨rfl, rfl⟩ | hold
    · obtain ⟨p', hp', hid, -⟩ := hchild hparent
      obtain rfl : p' = p := Option.some_inj.mp ((hother hp').symm.trans hp)
      exact hid
    · obtain ⟨p', hp', -⟩ := h.component wd g₀ hold hparent
      obtain rfl : p' = p := Option.some_inj.mp ((hother hp').symm.trans hp)
      exact h.inherits wd g₀ p' hold hp' hparent

/-- The folders may change where no directory is. -/
theorem Tree.setFolder (h : t.Tree) {folderId : String} (folder : Option (List Char))
    (hfree : ∀ wd g, t.find wd = some g → g.folderId ≠ folderId) :
    (t.setFolder folderId folder).Tree := by
  refine ⟨⟨h.inverse, h.subdirs, h.component⟩, h.nonneg, fun wd g hg => ?_, h.inherits⟩
  show ∃ folderPath, Function.update t.watchedFolders folderId folder g.folderId = some folderPath ∧ _
  rw [Function.update_of_ne (hfree wd g hg)]
  exact h.folder wd g hg

/-- `on_watch`. -/
theorem Tree.watch (h : t.Tree) {folderId : String} {path : List Char} {answer : Option Int}
    (hnew : t.watchedFolders folderId = none → t.pathToWd path = none → ∀ fd ∈ answer, 0 ≤ fd → t.find fd = none) :
    ∃ t', t.watch folderId path answer = some t' ∧ t'.Tree := by
  rw [Table.watch]
  split
  · exact ⟨t, rfl, h⟩
  · rename_i hfolder
    rw [Bool.not_eq_true, Option.isSome_eq_false_iff, Option.isNone_iff_eq_none] at hfolder
    have hunused (wd : Int) (g : Guard) (hg : t.find wd = some g) : g.folderId ≠ folderId := by
      rintro rfl
      obtain ⟨folderPath, hsome, -⟩ := h.folder wd g hg
      rw [hfolder] at hsome
      cases hsome
    have h₀ := h.setFolder (some path) hunused
    obtain ⟨t₁, opt, hwatch⟩ := watchPath_isSome (t := t.setFolder folderId (some path)) path folderId (-1)
      (hnew hfolder)
    simp only [hwatch, Option.bind_eq_bind, Option.bind_some]
    rcases watchPath_spec hwatch with ⟨rfl, hopt⟩ | ⟨fd, -, rfl, hfd, hi⟩
    · cases opt with
      | none => exact ⟨_, rfl, h₀⟩
      | some fd =>
        show ∃ t' : Table, some (if fd < 0 then _ else _) = some t' ∧ t'.Tree
        rw [if_pos (hopt fd rfl)]
        exact ⟨_, rfl, Tree.setFolder h₀ none hunused⟩
    · show ∃ t' : Table, some (if fd < 0 then _ else _) = some t' ∧ t'.Tree
      rw [if_neg (not_lt.mpr hfd)]
      refine ⟨_, rfl, h₀.insert hi (fun _ => ?_) fun hparent => absurd hparent (show ¬ (0 : Int) ≤ -1 by decide)⟩
      exact Function.update_self ..

end Insert

/-! ## A scanned directory -/

section Notify

variable {t t' : Table} {wd : Int} {g : Guard} {path : List Char}

/-- The last component of a path is determined. -/
theorem split_unique {a b c d : List Char} (hc : '/' ∉ c) (hd : '/' ∉ d) (h : a ++ '/' :: c = b ++ '/' :: d) :
    a = b ∧ c = d := by
  have hlast (a c : List Char) (hc : '/' ∉ c) : (a ++ '/' :: c).reverse.takeWhile (· ≠ '/') = c.reverse := by
    rw [List.reverse_append, List.reverse_cons, List.append_assoc, List.takeWhile_append_of_pos]
    · simp
    · intro x hx
      have : x ≠ '/' := fun heq => hc (heq ▸ List.mem_reverse.mp hx)
      simpa using this
  have heq : c = d := by
    rw [← List.reverse_inj, ← hlast a c hc, ← hlast b d hd, h]
  subst heq
  exact ⟨List.append_cancel_right h, rfl⟩

theorem rfind_spec {p : List Char} {pos : Nat} (h : rfind p = some pos) :
    ∃ name, '/' ∉ name ∧ p.drop pos = '/' :: name := by
  have hnone (p : List Char) (h : rfind p = none) : '/' ∉ p := by
    induction p with
    | nil => simp
    | cons c cs ih =>
      rw [rfind] at h
      split at h
      · cases h
      · rename_i hcs
        split at h
        · cases h
        · rename_i hc
          rw [List.mem_cons, not_or]
          exact ⟨fun heq => hc heq.symm, ih hcs⟩
  induction p generalizing pos with
  | nil => cases h
  | cons c cs ih =>
    rw [rfind] at h
    split at h
    · rename_i pos' hcs
      cases h
      exact ih hcs
    · rename_i hcs
      split at h
      · rename_i hc
        cases h
        exact ⟨cs, hnone cs hcs, by rw [List.drop_zero, hc]⟩
      · cases h

/-- What the kernel answers is new: a descriptor that is in use belongs to a path that is watched. -/
def Fresh (t : Table) (paths : List (List Char)) (answer : List Char → Option Int) : Prop :=
  ∀ path ∈ paths, ∀ fd ∈ answer path, 0 ≤ fd → t.find fd = none ∨ (t.pathToWd path).isSome

/-- Different paths have different descriptors. -/
def Distinct (paths : List (List Char)) (answer : List Char → Option Int) : Prop :=
  ∀ path ∈ paths, ∀ path' ∈ paths, ∀ fd ∈ answer path, 0 ≤ fd → answer path' = some fd → path' = path

theorem Fresh.insert {paths : List (List Char)} {answer : List Char → Option Int} (h : t.Fresh paths answer)
    (hd : Distinct paths answer) (hi : Inserted t t' g) (hmem : g.path ∈ paths) (hanswer : answer g.path = some g.wd) :
    t'.Fresh paths answer := by
  intro path hpath fd hfd hnonneg
  rw [hi.pathToWd, Function.update_apply, hi.find]
  by_cases heq : fd = g.wd
  · rw [heq] at hfd
    rw [hd g.path hmem path hpath g.wd hanswer hi.nonneg hfd]
    simp
  · rw [if_neg heq]
    refine (h path hpath fd hfd hnonneg).imp id fun hsome => ?_
    split
    · rfl
    · exact hsome

/-- The directory whose names are watched. -/
structure Open (t : Table) (wd : Int) (dirPath : List Char) (folderId : String) (paths : List (List Char))
    (answer : List Char → Option Int) : Prop where
  tree : t.Tree
  guard : ∃ g, t.find wd = some g ∧ g.path = dirPath ∧ g.folderId = folderId
  fresh : t.Fresh paths answer

/-- One name. -/
theorem Open.watchItem {dirPath : List Char} {folderId : String} {paths : List (List Char)}
    {answer : List Char → Option Int} (h : Open t wd dirPath folderId paths answer) (hd : Distinct paths answer)
    {item : List Char × Bool} (hbuffer : dirPath.length + item.1.length < bufferSize)
    (hname : ∃ name, IsName name ∧ item.1 = '/' :: name) (hmem : dirPath ++ item.1 ∈ paths) :
    ∃ t', Table.watchItem dirPath folderId wd answer t item = some t' ∧ Open t' wd dirPath folderId paths answer := by
  rw [Table.watchItem, if_pos hbuffer]
  dsimp only
  split
  · exact ⟨t, rfl, h⟩
  · have hfresh (hnone : t.pathToWd (dirPath ++ item.1) = none) (fd : Int)
        (hfd : (if item.2 then answer (dirPath ++ item.1) else none) = some fd) (hnonneg : 0 ≤ fd) :
        t.find fd = none := by
      split at hfd
      · exact (h.fresh _ hmem fd hfd hnonneg).resolve_right (by simp [hnone])
      · cases hfd
    obtain ⟨t', opt, hwatch⟩ := watchPath_isSome (dirPath ++ item.1) folderId wd hfresh
    refine ⟨t', by rw [hwatch]; rfl, ?_⟩
    rcases watchPath_spec hwatch with ⟨rfl, -⟩ | ⟨fd, hfd, -, -, hi⟩
    · exact h
    · obtain ⟨g, hg, hpath, hid⟩ := h.guard
      obtain ⟨name, hisName, hitem⟩ := hname
      have hanswer : answer (dirPath ++ item.1) = some fd := by
        split at hfd
        · exact hfd
        · cases hfd
      have hwd : 0 ≤ wd := h.tree.nonneg wd g hg
      refine ⟨h.tree.insert hi (fun hlt => absurd hwd (not_le.mpr hlt)) fun _ => ?_, ⟨g, ?_, hpath, hid⟩, ?_⟩
      · exact ⟨g, hg, hid, name, hisName, by rw [hpath, ← hitem]⟩
      · rw [hi.find, if_neg]
        · exact hg
        · rintro rfl
          rw [hi.free] at hg
          cases hg
      · exact h.fresh.insert hd hi hmem hanswer

/-- The paths that a scan may ask the kernel for. -/
def ScanDir.paths (scan : ScanDir) : List (List Char) := scan.path :: scan.items.map fun item => scan.dirPath ++ item.1

/-- The directory is watched, or will be: its parent is, and the kernel has a descriptor for it. -/
def Enters (t : Table) (scan : ScanDir) (answer : List Char → Option Int) : Prop :=
  (t.pathToWd scan.dirPath).isSome ∨
    ((rfind scan.dirPath).bind fun pos => t.pathToWd (scan.dirPath.take pos)).isSome ∧ ∃ fd ∈ answer scan.path, 0 ≤ fd

/-- The condition on a scan that is entered: the paths fit into the buffer, the directory has no slash at
its end unless it is watched, no child has one, and the kernel's descriptors are new. -/
structure Scans (t : Table) (scan : ScanDir) (answer : List Char → Option Int) : Prop where
  dir : scan.dirPath.length ≤ bufferSize
  items : ∀ item ∈ scan.items, scan.dirPath.length + item.1.length < bufferSize ∧ item.1 ≠ ['/']
  slash : t.pathToWd scan.dirPath = none → scan.dirPath = scan.path ∧ scan.path.getLast? ≠ some '/'
  fresh : t.Fresh scan.paths answer
  distinct : Distinct scan.paths answer

theorem Scans.watchItems {scan : ScanDir} {answer : List Char → Option Int} {t₀ : Table} (hs : Scans t₀ scan answer)
    (h : t.Tree) (hfresh : t.Fresh scan.paths answer) (hwd : t.pathToWd scan.dirPath = some wd) :
    ∃ t', t.watchItems scan wd answer = some t' ∧ t'.Tree := by
  obtain ⟨g, hg, hpath⟩ := (h.inverse _ wd).mp hwd
  have hopen : Open t wd scan.dirPath g.folderId scan.paths answer := ⟨h, ⟨g, hg, hpath, rfl⟩, hfresh⟩
  -- what is said about each name, for the fold over the names
  have hitems : ∀ item ∈ scan.items, scan.dirPath.length + item.1.length < bufferSize ∧
      (∃ name, IsName name ∧ item.1 = '/' :: name) ∧ scan.dirPath ++ item.1 ∈ scan.paths := by
    intro item hitem
    obtain ⟨hlength, hne⟩ := hs.items item hitem
    refine ⟨hlength, ?_, List.mem_cons_of_mem _ (List.mem_map.mpr ⟨item, hitem, rfl⟩)⟩
    obtain ⟨child, -, hchild⟩ := List.mem_filterMap.mp hitem
    obtain ⟨pos, hpos, heq⟩ := Option.map_eq_some_iff.mp hchild
    obtain ⟨name, hslash, hdrop⟩ := rfind_spec hpos
    have hitemName : item.1 = '/' :: name := by
      rw [← heq]
      exact hdrop
    refine ⟨name, ⟨?_, hslash⟩, hitemName⟩
    rintro rfl
    exact hne hitemName
  rw [Table.watchItems, hg]
  show ∃ t', (if scan.dirPath.length ≤ bufferSize then _ else none) = some t' ∧ _
  rw [if_pos hs.dir]
  generalize scan.items = items at hitems
  clear hg hpath hfresh h hwd
  induction items generalizing t with
  | nil => exact ⟨t, rfl, hopen.tree⟩
  | cons item items ih =>
    obtain ⟨hlength, hname, hmem⟩ := hitems item (List.mem_cons_self ..)
    obtain ⟨t₁, hstep, hopen₁⟩ := hopen.watchItem hs.distinct hlength hname hmem
    obtain ⟨t₂, hrest, htree⟩ := ih hopen₁ fun item' h' => hitems item' (List.mem_cons_of_mem _ h')
    refine ⟨t₂, ?_, htree⟩
    rw [List.foldlM_cons, hstep]
    exact hrest

/-- `notify`. -/
theorem Tree.notify (h : t.Tree) {scan : ScanDir} {answer : List Char → Option Int}
    (hs : t.Enters scan answer → t.Scans scan answer) : ∃ t', t.notify scan answer = some t' ∧ t'.Tree := by
  rw [Table.notify]
  split
  · rename_i wd hwd
    have hs := hs (.inl (by rw [hwd]; rfl))
    exact hs.watchItems h hs.fresh hwd
  · rename_i hnone
    split
    · exact ⟨t, rfl, h⟩
    · rename_i parent hparent
      obtain ⟨pos, hpos, hto⟩ := Option.bind_eq_some_iff.mp hparent
      obtain ⟨g, hg, hgpath⟩ := (h.inverse _ parent).mp hto
      have hscans (fd : Int) (hfd : answer scan.path = some fd) (hnonneg : 0 ≤ fd) : t.Scans scan answer :=
        hs (.inr ⟨by rw [hparent]; rfl, fd, hfd, hnonneg⟩)
      obtain ⟨t₁, opt, hwatch⟩ := watchPath_isSome scan.path g.folderId parent fun hnone fd hfd hnonneg =>
        ((hscans fd hfd hnonneg).fresh scan.path (List.mem_cons_self ..) fd hfd hnonneg).resolve_right (by simp [hnone])
      rw [hg]
      rw [Option.bind_eq_bind, Option.bind_some, hwatch, Option.bind_eq_bind, Option.bind_some]
      rcases watchPath_spec hwatch with ⟨rfl, -⟩ | ⟨fd, hfd, -, hnonneg, hi⟩
      · simp only [hnone]
        exact ⟨t₁, rfl, h⟩
      · have hs := hscans fd hfd hnonneg
        obtain ⟨hdir, hslash⟩ := hs.slash hnone
        have hto₁ : t₁.pathToWd scan.dirPath = some fd := by
          rw [hi.pathToWd, hdir]
          exact Function.update_self ..
        -- the directory itself is a child of its parent
        have htree : t₁.Tree := by
          refine h.insert hi (fun hlt => absurd (h.nonneg parent g hg) (not_le.mpr hlt)) fun _ => ⟨g, hg, rfl, ?_⟩
          obtain ⟨name, hname, hdrop⟩ := rfind_spec hpos
          have hpath : scan.path = g.path ++ '/' :: name := by
            rw [hgpath, ← hdrop, List.take_append_drop, hdir]
          refine ⟨name, ⟨?_, hname⟩, hpath⟩
          rintro rfl
          rw [hpath] at hslash
          simp at hslash
        simp only [hto₁]
        exact hs.watchItems htree (hs.fresh.insert hs.distinct hi (List.mem_cons_self ..) hfd) hto₁

end Notify

/-! ## A directory goes -/

section Remove

variable {t t' : Table} {wd start : Int} {g : Guard} {queue : List Int}

/-- A directory without children has gone. -/
structure Removed (t t' : Table) (g : Guard) : Prop where
  find : ∀ wd, t'.find wd = if wd = g.wd then none else t.find wd
  pathToWd : t'.pathToWd = Function.update t.pathToWd g.path none
  subdirs : ∀ parent wd, wd ∈ t'.subdirMap parent ↔ wd ∈ t.subdirMap parent ∧ wd ≠ g.wd
  folders : t'.watchedFolders = t.watchedFolders
  length : t'.pathMap.length < t.pathMap.length

theorem Removed.find_of_find (hr : Removed t t' g) {wd : Int} {g₀ : Guard} (h : t'.find wd = some g₀) :
    t.find wd = some g₀ ∧ wd ≠ g.wd := by
  rw [hr.find] at h
  split at h
  · cases h
  · rename_i hne
    exact ⟨h, hne⟩

/-- **A directory without children that goes** leaves the invariant. -/
theorem Tree.remove (h : t.Tree) (hg : t.find wd = some g) (hleaf : t.subdirMap wd = []) (hr : Removed t t' g) :
    t'.Tree := by
  have hwd : g.wd = wd := find_wd hg
  have hother {wd' : Int} {g₀ : Guard} (hfind : t.find wd' = some g₀) (hne : wd' ≠ wd) : t'.find wd' = some g₀ := by
    rw [hr.find, hwd, if_neg hne]
    exact hfind
  -- nobody has this directory as its parent
  have hparent {wd' : Int} {g₀ : Guard} (hfind : t.find wd' = some g₀) (hnonneg : 0 ≤ g₀.parentFd) :
      g₀.parentFd ≠ wd := by
    intro heq
    have := (h.subdirs wd wd').mpr ⟨heq ▸ hnonneg, g₀, hfind, heq⟩
    rw [hleaf] at this
    cases this
  refine ⟨⟨?_, ?_, ?_⟩, ?_, ?_, ?_⟩
  · intro path wd'
    rw [hr.pathToWd, Function.update_apply]
    split
    · rename_i heq
      refine ⟨fun hc => (by cases hc), ?_⟩
      rintro ⟨g₀, hg₀, hpath⟩
      obtain ⟨hold, hne⟩ := hr.find_of_find hg₀
      exact absurd (h.wd_unique hold hg (hpath.trans heq)) (hwd ▸ hne)
    · rename_i hne
      rw [h.inverse]
      constructor
      · rintro ⟨g₀, hg₀, hpath⟩
        refine ⟨g₀, hother hg₀ ?_, hpath⟩
        rintro rfl
        rw [hg] at hg₀
        cases hg₀
        exact hne hpath.symm
      · rintro ⟨g₀, hg₀, hpath⟩
        exact ⟨g₀, (hr.find_of_find hg₀).1, hpath⟩
  · intro p wd'
    rw [hr.subdirs, h.subdirs, hwd]
    constructor
    · rintro ⟨⟨hp, g₀, hg₀, heq⟩, hne⟩
      exact ⟨hp, g₀, hother hg₀ hne, heq⟩
    · rintro ⟨hp, g₀, hg₀, heq⟩
      obtain ⟨hold, hne⟩ := hr.find_of_find hg₀
      exact ⟨⟨hp, g₀, hold, heq⟩, hwd ▸ hne⟩
  · intro wd' g₀ hg₀ hnonneg
    obtain ⟨hold, -⟩ := hr.find_of_find hg₀
    obtain ⟨p, hp, hname⟩ := h.component wd' g₀ hold hnonneg
    exact ⟨p, hother hp (hparent hold hnonneg), hname⟩
  · intro wd' g₀ hg₀
    exact h.nonneg wd' g₀ (hr.find_of_find hg₀).1
  · intro wd' g₀ hg₀
    rw [hr.folders]
    exact h.folder wd' g₀ (hr.find_of_find hg₀).1
  · intro wd' g₀ p hg₀ hp hnonneg
    exact h.inherits wd' g₀ p (hr.find_of_find hg₀).1 (hr.find_of_find hp).1 hnonneg

/-- The children of the parent lose the directory. -/
theorem Consistent.mem_removeParent (h : t.Consistent) (hg : t.find wd = some g) {parent wd' : Int} :
    wd' ∈ (if 0 ≤ g.parentFd then t.removeChild g.parentFd wd else t).subdirMap parent ↔
      wd' ∈ t.subdirMap parent ∧ wd' ≠ wd := by
  have hother (hmem : wd ∈ t.subdirMap parent) : 0 ≤ g.parentFd ∧ parent = g.parentFd := by
    obtain ⟨hp, g₀, hg₀, rfl⟩ := (h.subdirs parent wd).mp hmem
    obtain rfl : g = g₀ := Option.some_inj.mp (hg.symm.trans hg₀)
    exact ⟨hp, rfl⟩
  split
  · rw [mem_removeChild]
    refine and_congr_right fun hmem => ⟨fun hne heq => ?_, fun hne _ => hne⟩
    rw [heq] at hmem
    exact hne (hother hmem).2 heq
  · rename_i hneg
    refine ⟨fun hmem => ⟨hmem, fun heq => ?_⟩, And.left⟩
    rw [heq] at hmem
    exact hneg (hother hmem).1

theorem length_erase (hg : t.find wd = some g) : (t.erase wd).pathMap.length < t.pathMap.length := by
  obtain ⟨hmem, hwd⟩ := find_eq_some.mp hg
  refine List.length_filter_lt_length_iff_exists.mpr ⟨g, hmem, ?_⟩
  simp [hwd]

theorem unwatchWd_spec (h : t.Consistent) (hg : t.find wd = some g) :
    ∃ t', t.unwatchWd wd = some t' ∧ Removed t t' g := by
  have hwd : g.wd = wd := find_wd hg
  rw [unwatchWd, hg]
  refine ⟨_, rfl, ?_, ?_, ?_, ?_, ?_⟩
  · intro wd'
    rw [find_erase, hwd]
    split
    · rfl
    · split <;> rfl
  · split <;> rfl
  · intro p wd'
    rw [hwd]
    exact h.mem_removeParent hg
  · split <;> rfl
  · refine (length_erase (t := Table.forgetPath _ g.path) (g := g) ?_).trans_eq ?_
    · split <;> exact hg
    · split <;> rfl

theorem forget_spec (h : t.Consistent) (hg : t.find wd = some g) (hleaf : t.subdirMap wd = []) :
    Removed t (t.forget wd) g := by
  have hwd : g.wd = wd := find_wd hg
  have hsame : t.setChildren wd [] List.nodup_nil = t := by
    obtain ⟨pathMap, hnodup, pathToWd, subdirMap, hsubdir, folders⟩ := t
    simp only [setChildren, mk.injEq, true_and, and_true]
    rw [← hleaf]
    exact Function.update_eq_self ..
  have heq : t.forget wd = (((if 0 ≤ g.parentFd then t.removeChild g.parentFd wd else t).forgetPath g.path).erase wd) := by
    rw [forget, hg]
    simp only [hsame]
  obtain ⟨t', hunwatch, hr⟩ := unwatchWd_spec h hg
  rw [unwatchWd, hg] at hunwatch
  rw [heq]
  cases hunwatch
  exact hr

/-- What the loop of `unwatch_recurse` keeps: a parent is never before its child in the queue, and the parent
of everything but the start is in the queue. -/
structure Unwatching (t : Table) (start : Int) (queue : List Int) : Prop where
  tree : t.Tree
  nodup : queue.Nodup
  watched : ∀ wd ∈ queue, t.find wd ≠ none
  entered : ∀ wd ∈ queue, wd = start ∨ ∃ g, t.find wd = some g ∧ g.parentFd ∈ queue
  order : queue.Pairwise fun wd wd' => ∀ g, t.find wd' = some g → g.parentFd ≠ wd
  above : ∀ wd ∈ queue, t.find start ≠ none → t.rank start ≤ t.rank wd

theorem Unwatching.length (h : Unwatching t start queue) : queue.length ≤ t.pathMap.length := by
  have hsub : queue ⊆ t.pathMap.map Guard.wd := fun wd hwd => mem_wds.mpr (h.watched wd hwd)
  have := (h.nodup.subperm hsub).length_le
  rwa [List.length_map] at this

/-- The front of the queue goes. -/
theorem Unwatching.pop (h : Unwatching t start (wd :: queue)) (hg : t.find wd = some g)
    (hleaf : t.subdirMap wd = []) (hr : Removed t t' g) : Unwatching t' start queue := by
  have hwd : g.wd = wd := find_wd hg
  obtain ⟨hnotMem, hnodup⟩ := List.nodup_cons.mp h.nodup
  obtain ⟨hfirst, horder⟩ := List.pairwise_cons.mp h.order
  have hfind {wd' : Int} (hmem : wd' ∈ queue) : t'.find wd' = t.find wd' := by
    rw [hr.find, hwd, if_neg]
    rintro rfl
    exact hnotMem hmem
  have hrank {wd' : Int} (hne : wd' ≠ wd) : t'.rank wd' = t.rank wd' := by
    rw [rank, rank, hr.find, hwd, if_neg hne]
  refine ⟨h.tree.remove hg hleaf hr, hnodup, ?_, ?_, ?_, ?_⟩
  · intro wd' hmem
    rw [hfind hmem]
    exact h.watched wd' (List.mem_cons_of_mem _ hmem)
  · intro wd' hmem
    refine (h.entered wd' (List.mem_cons_of_mem _ hmem)).imp id ?_
    rintro ⟨g₀, hg₀, hparent⟩
    refine ⟨g₀, (hfind hmem).trans hg₀, (List.mem_cons.mp hparent).resolve_left ?_⟩
    exact hfirst wd' hmem g₀ hg₀
  · refine horder.imp_of_mem fun {a b} _ hb hab g₀ hg₀ => hab g₀ ?_
    rw [← hfind hb]
    exact hg₀
  · intro wd' hmem hstart
    have hne : start ≠ wd := by
      rintro rfl
      rw [hr.find, hwd, if_pos rfl] at hstart
      exact hstart rfl
    rw [hrank hne, hrank fun heq => hnotMem (heq ▸ hmem)]
    refine h.above wd' (List.mem_cons_of_mem _ hmem) ?_
    rw [hr.find, hwd, if_neg hne] at hstart
    exact hstart

/-- The children of the front come before it. -/
theorem Unwatching.push (h : Unwatching t start (wd :: queue)) :
    Unwatching t start ((t.subdirMap wd).reverse ++ wd :: queue) := by
  have hcons := h.tree.toConsistent
  have hself : wd ∈ wd :: queue := List.mem_cons_self ..
  obtain ⟨hfirst, horder⟩ := List.pairwise_cons.mp h.order
  have hchild {c : Int} (hc : c ∈ t.subdirMap wd) : ∃ g, t.find c = some g ∧ g.parentFd = wd ∧ t.rank wd < t.rank c := by
    obtain ⟨hp, g, hg, hparent⟩ := (hcons.subdirs wd c).mp hc
    have := hcons.rank_lt hg (hparent ▸ hp)
    rw [hparent] at this
    exact ⟨g, hg, hparent, this⟩
  -- a child has not been in the queue: it would be behind its parent
  have hnew {c : Int} (hc : c ∈ t.subdirMap wd) : c ∉ wd :: queue := by
    obtain ⟨g, hg, hparent, hlt⟩ := hchild hc
    intro hmem
    rcases List.mem_cons.mp hmem with rfl | hmem
    · exact lt_irrefl _ hlt
    · exact hfirst c hmem g hg hparent
  refine ⟨h.tree, ?_, ?_, ?_, ?_, ?_⟩
  · refine List.nodup_append.mpr ⟨List.nodup_reverse.mpr (t.subdirNodup wd), h.nodup, fun c hc x hx heq => ?_⟩
    rw [heq] at hc
    exact hnew (List.mem_reverse.mp hc) hx
  · intro x hx
    rcases List.mem_append.mp hx with hx | hx
    · obtain ⟨g, hg, -⟩ := hchild (List.mem_reverse.mp hx)
      simp [hg]
    · exact h.watched x hx
  · intro x hx
    rcases List.mem_append.mp hx with hx | hx
    · obtain ⟨g, hg, hparent, -⟩ := hchild (List.mem_reverse.mp hx)
      exact .inr ⟨g, hg, List.mem_append_right _ (hparent ▸ hself)⟩
    · refine (h.entered x hx).imp id ?_
      rintro ⟨g, hg, hparent⟩
      exact ⟨g, hg, List.mem_append_right _ hparent⟩
  · refine List.pairwise_append.mpr ⟨?_, h.order, ?_⟩
    · refine List.pairwise_of_forall_mem_list fun c hc c' hc' g hg heq => ?_
      obtain ⟨g', hg', hparent, hlt⟩ := hchild (List.mem_reverse.mp hc')
      obtain ⟨-, -, -, hlt'⟩ := hchild (List.mem_reverse.mp hc)
      obtain rfl : g = g' := Option.some_inj.mp (hg.symm.trans hg')
      rw [← heq, hparent] at hlt'
      exact lt_irrefl _ hlt'
    · intro c hc x hx g hg heq
      have hc := List.mem_reverse.mp hc
      obtain ⟨-, -, -, hlt⟩ := hchild hc
      rcases h.entered x hx with rfl | ⟨g', hg', hparent⟩
      · -- the start is not below anything in the queue
        have hnonneg : 0 ≤ g.parentFd := by
          obtain ⟨gc, hgc, -⟩ := hchild hc
          rw [heq]
          exact h.tree.nonneg c gc hgc
        have hlt' := hcons.rank_lt hg hnonneg
        rw [heq] at hlt'
        have habove := h.above wd hself (by simp [hg])
        omega
      · obtain rfl : g = g' := Option.some_inj.mp (hg.symm.trans hg')
        rw [heq] at hparent
        exact hnew hc hparent
  · intro x hx hstart
    rcases List.mem_append.mp hx with hx | hx
    · obtain ⟨-, -, -, hlt⟩ := hchild (List.mem_reverse.mp hx)
      exact (h.above wd hself hstart).trans hlt.le
    · exact h.above x hx hstart

/-- **The loop of `unwatch_recurse`** ends, and what was in the queue is not watched any more. Each round takes a
directory out of the map or puts one into the queue. -/
theorem unwatchLoop_spec {fuel : Nat} (h : Unwatching t start queue)
    (hfuel : 2 * t.pathMap.length ≤ fuel + queue.length) :
    ∃ t', unwatchLoop fuel queue t = some t' ∧ t'.Tree ∧ t'.watchedFolders = t.watchedFolders ∧
      (∀ wd g, t'.find wd = some g → t.find wd = some g) ∧ ∀ wd ∈ queue, t'.find wd = none := by
  induction fuel generalizing t queue with
  | zero =>
    cases queue with
    | nil => exact ⟨t, rfl, h.tree, rfl, fun _ _ hg => hg, by simp⟩
    | cons wd queue =>
      have := h.length
      rw [List.length_cons] at this hfuel
      omega
  | succ fuel ih =>
    cases queue with
    | nil => exact ⟨t, rfl, h.tree, rfl, fun _ _ hg => hg, by simp⟩
    | cons wd queue =>
      obtain ⟨g, hg⟩ := Option.ne_none_iff_exists'.mp (h.watched wd (List.mem_cons_self ..))
      rw [unwatchLoop]
      split
      · rename_i hleaf
        obtain ⟨t₁, hunwatch, hr⟩ := unwatchWd_spec h.tree.toConsistent hg
        have hlength := hr.length
        rw [List.length_cons] at hfuel
        obtain ⟨t', hloop, htree, hfolders, hsub, hgone⟩ := ih (h.pop hg hleaf hr) (by omega)
        refine ⟨t', ?_, htree, hfolders.trans hr.folders, fun wd' g' hg' => ?_, fun wd' hmem => ?_⟩
        · rw [hunwatch]
          exact hloop
        · exact (hr.find_of_find (hsub wd' g' hg')).1
        · rcases List.mem_cons.mp hmem with rfl | hmem
          · cases hfind : t'.find wd' with
            | none => rfl
            | some g' => exact absurd (find_wd hg).symm (hr.find_of_find (hsub wd' g' hfind)).2
          · exact hgone wd' hmem
      · rename_i hchildren
        have hpos : 0 < (t.subdirMap wd).length := List.length_pos_iff.mpr hchildren
        obtain ⟨t', hloop, htree, hfolders, hsub, hgone⟩ := ih h.push (by
          rw [List.length_append, List.length_reverse]
          omega)
        exact ⟨t', hloop, htree, hfolders, hsub, fun wd' hmem => hgone wd' (List.mem_append_right _ hmem)⟩

/-- Every directory has a root above it, of the same folder. -/
theorem Tree.root (h : t.Tree) (hg : t.find wd = some g) :
    ∃ wd' root, t.find wd' = some root ∧ root.folderId = g.folderId ∧ root.parentFd < 0 := by
  induction hn : t.rank wd using Nat.strong_induction_on generalizing wd g with
  | _ n ih =>
    rcases lt_or_ge g.parentFd 0 with hlt | hge
    · exact ⟨wd, g, hg, rfl, hlt⟩
    · obtain ⟨p, hp, -⟩ := h.component wd g hg hge
      have hlt := h.toConsistent.rank_lt hg hge
      obtain ⟨wd', root, hroot, hid, hneg⟩ := ih _ (hn ▸ hlt) hp rfl
      exact ⟨wd', root, hroot, hid.trans (h.inherits wd g p hg hp hge), hneg⟩

/-- `on_unwatch`: with the root everything of the folder goes. -/
theorem Tree.unwatch (h : t.Tree) {folderId : String}
    (hroot : ∀ path ∈ t.watchedFolders folderId, (t.pathToWd path).isSome) :
    ∃ t', t.unwatch folderId = some t' ∧ t'.Tree := by
  rw [Table.unwatch]
  split
  · exact ⟨t, rfl, h⟩
  · rename_i path hfolder
    rw [if_pos (hroot path hfolder)]
    obtain ⟨wd, hwd⟩ := Option.isSome_iff_exists.mp (hroot path hfolder)
    obtain ⟨g, hg, hpath⟩ := (h.inverse path wd).mp hwd
    have hstart : Unwatching t wd [wd] := by
      refine ⟨h, List.nodup_cons.mpr ⟨List.not_mem_nil, List.nodup_nil⟩, ?_, ?_, List.pairwise_singleton _ _, ?_⟩
      · intro wd' hmem
        rw [List.mem_singleton.mp hmem, hg]
        simp
      · intro wd' hmem
        exact .inl (List.mem_singleton.mp hmem)
      · intro wd' hmem _
        rw [List.mem_singleton.mp hmem]
    obtain ⟨t', hloop, htree, hfolders, hsub, hgone⟩ := unwatchLoop_spec hstart
      (show 2 * t.pathMap.length ≤ 2 * t.pathMap.length + [wd].length from Nat.le_add_right _ _)
    rw [unwatchRecurse, hwd]
    refine ⟨t'.setFolder folderId none, by simp only [hloop]; rfl, htree.setFolder none fun wd' g' hg' hid => ?_⟩
    -- its root would be left, and it has the path of the folder
    obtain ⟨wd₀, root, hroot₀, hid₀, hneg⟩ := htree.root hg'
    obtain ⟨folderPath, hfolder₀, hpath₀⟩ := htree.folder wd₀ root hroot₀
    rw [hid₀, hid, hfolders, hfolder] at hfolder₀
    cases hfolder₀
    have heq := h.wd_unique (hsub wd₀ root hroot₀) hg ((hpath₀ hneg).trans hpath.symm)
    rw [heq, hgone wd (List.mem_singleton_self wd)] at hroot₀
    cases hroot₀

/-- `forget`. -/
theorem Tree.forget (h : t.Tree) (hleaf : t.find wd ≠ none → t.subdirMap wd = []) : (t.forget wd).Tree := by
  cases hg : t.find wd with
  | none =>
    rw [Table.forget, hg]
    exact h
  | some g =>
    have hleaf := hleaf (by simp [hg])
    exact h.remove hg hleaf (forget_spec h.toConsistent hg hleaf)

end Remove

end Table

end WatchTable

end SyncSpirit
