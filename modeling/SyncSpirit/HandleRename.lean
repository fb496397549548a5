import SyncSpirit.AdvanceDiff
import SyncSpirit.Lib.Forest
import SyncSpirit.Lib.Keyed
import SyncSpirit.Lib.Relocation
import SyncSpirit.Lib.Run

/-!
# Renamed files (`net/local_keeper.cpp`)

`handle_rename` makes diffs of a rename that has been seen on disk: every file at or below the old path is
created under its new name, and then all of them are deleted under their old names. The diffs of a batch are
built against the model as it is before the batch. What has been renamed earlier in the batch is known from two
tables; what there is below a directory is always taken from the model.

- `handleRename`: the files in the order of the queue, and the `local_update_t` that are asked for;
- `Disk`: where the files of the model really are, one rename after the other;
- `Follows`: the tables and the model agree with the disk as far as one rename looks at them;
- `good_of_run`: then what is asked for is what has happened.

A name is a list of characters; one that is cut within a character is not followed any further. The set
`just_created_dirs`, which is for other events, is left out.
-/

namespace SyncSpirit

namespace HandleRename

open Store Advance

/-! ## Names -/

abbrev Name := List Char

/-- `size()`, in bytes. -/
def size (name : Name) : Nat := (name.map Char.utf8Size).sum

/-- `substr(pos)`. It throws if the position is behind the end. -/
def substr : Name → Nat → Option Name
  | [], pos => if pos = 0 then some [] else none
  | x :: name, pos =>
    if pos = 0 then some (x :: name)
    else if x.utf8Size ≤ pos then substr name (pos - x.utf8Size) else none

theorem substr_zero (name : Name) : substr name 0 = some name := by
  cases name with
  | nil => rfl
  | cons x name => rw [substr, if_pos rfl]

theorem substr_append (name rest : Name) : substr (name ++ rest) (size name) = some rest := by
  induction name with
  | nil => exact substr_zero rest
  | cons x name ih =>
    have hsize : size (x :: name) = x.utf8Size + size name := by simp [size]
    have hpos : 0 < x.utf8Size := Char.utf8Size_pos x
    rw [hsize, List.cons_append, substr, if_neg (by omega), if_pos (Nat.le_add_right ..), Nat.add_sub_cancel_left]
    exact ih

section Model

variable (c : Cluster) (fi : FolderInfoId)

def nameOf (f : FileId) : Name := (c.files f).name.toList

/-- `by_name` in the local folder. -/
def find (name : Name) : Option FileId := c.byName fi (String.ofList name)

/-- The name of the directory that a file is in. -/
def parentName (name : Name) : Option Name :=
  if '/' ∈ name then some (name.rdropWhile (· ≠ '/')).dropLast else none

def isDir (f : FileId) : Bool := (c.files f).type = .dir

/-- `get_parent` of the presence: there is one entity for each path. -/
def parentOf (f : FileId) : Option FileId := (parentName (nameOf c f)).bind (find c fi)

/-- `child_comparator_t`, for the children of one directory. -/
def Precedes (f g : FileId) : Prop :=
  (isDir c f = true ∧ isDir c g = false) ∨ (isDir c f = isDir c g ∧ nameOf c f ≤ nameOf c g)

instance : DecidableRel (Precedes c) := fun _ _ => inferInstanceAs (Decidable (_ ∨ _))

/-- What is put into the queue after a file: the children that this device has and that are not deleted. -/
def members (f : FileId) : List FileId :=
  if isDir c f then
    ((c.infos fi).files.filter fun g => parentOf c fi g = some f ∧ (c.files g).deleted = false).insertionSort
      (Precedes c)
  else []

/-! ## `handle_rename` -/

/-- A rename (`file_info_t` with a `prev_path`), and what the sequencer and the clock say when the two diffs of a
file are built. -/
structure Rename where
  prevPath : Name
  name : Name
  created : FileId → Env
  vacated : FileId → Env

/-- The arguments of a `local_update_t` made of a file of the model. -/
structure Order where
  file : FileId
  name : Name
  deletes : Bool
  env : Env

/-- `lc_context_t`. -/
structure Context where
  name2File : Name → Option FileId
  file2Name : FileId → Option Name
  orders : List Order

def Context.empty : Context := ⟨fun _ => none, fun _ => none, []⟩

/-- The name of a file as far as the context knows. -/
def Context.nameOf (ctx : Context) (f : FileId) : Name := (ctx.file2Name f).getD (HandleRename.nameOf c f)

/-- The entries of a file that is created under a new name. `emplace` keeps an entry that is there. -/
def Context.record (ctx : Context) (f : FileId) (subName : Name) (env : Env) : Context where
  name2File := Function.update ctx.name2File subName (some ((ctx.name2File subName).getD f))
  file2Name := Function.update ctx.file2Name f (some subName)
  orders := ctx.orders ++ [⟨f, subName, false, env⟩]

/-- One file: what is asked for, and the deletions in the assembler. -/
def renameFile (change : Rename) (ctx : Context) (vacated : List Order) (f : FileId) :
    Option (Context × List Order) := do
  let pName := ctx.nameOf c f
  let rest ← substr pName (size change.prevPath)
  return (ctx.record f (change.name ++ rest) (change.created f), ⟨f, pName, true, change.vacated f⟩ :: vacated)

/-- The loop over the queue. -/
def walk (change : Rename) : Nat → List FileId → Context → List Order → Option (Context × List Order)
  | _, [], ctx, vacated => some (ctx, vacated)
  | 0, _ :: _, _, _ => none
  | fuel + 1, f :: queue, ctx, vacated => do
    let (ctx, vacated) ← renameFile c change ctx vacated f
    walk change fuel (queue ++ members c fi f) ctx vacated

/-- `f_root`. -/
def lookup (ctx : Context) (name : Name) : Option FileId := (find c fi name).or (ctx.name2File name)

/-- `handle_rename`. The queue meets every file once at most. -/
def handleRename (ctx : Context) (change : Rename) : Option Context :=
  match lookup c fi ctx change.prevPath with
  | none => some ctx
  | some root => do
    let (ctx, vacated) ← walk c fi change (c.infos fi).files.length [root] ctx []
    return { ctx with orders := ctx.orders ++ vacated }

/-- `pr_new` or `pr_prev`. -/
def Order.found (o : Order) : Option Proto.FileInfo :=
  (c.asProto (c.files o.file) (!o.deletes)).map fun p =>
    { p with name := String.ofList o.name, deleted := o.deletes || p.deleted }

/-- The diff. The cluster does not change during a batch. -/
def Order.diff (host : Host) (folderId : String) (o : Order) : Option Advance.Diff :=
  (o.found c).bind fun found => localUpdate host o.env c found folderId o.deletes

/-! ## What happens on disk -/

/-- Where the files of the model are that exist, and what has happened to them. -/
structure Disk where
  places : FileId → Option Name
  moves : List Order

def Disk.initial : Disk where
  places f := if f ∈ (c.infos fi).files ∧ (c.files f).deleted = false then some (nameOf c f) else none
  moves := []

/-- A file and everything below it in the model. -/
def tour (root : FileId) : List FileId :=
  (Forest.bfs (members c fi) (c.infos fi).files.length [root]).getD []

/-- The file at a path. -/
def Disk.fileAt (d : Disk) (name : Name) : Option FileId := (c.infos fi).files.find? fun f => d.places f = some name

/-- What is moved with the file at a path. -/
def Disk.moved (d : Disk) (name : Name) : List FileId := ((d.fileAt c fi name).map (tour c fi)).getD []

/-- Where a file is moved to. -/
def Disk.target (d : Disk) (change : Rename) (f : FileId) : Name :=
  change.name ++ ((d.places f).bind (Relocation.rest '/' change.prevPath)).getD []

def Disk.creation (d : Disk) (change : Rename) (f : FileId) : Order :=
  ⟨f, d.target change f, false, change.created f⟩

def Disk.deletion (d : Disk) (change : Rename) (f : FileId) : Order :=
  ⟨f, (d.places f).getD [], true, change.vacated f⟩

def Disk.rename (d : Disk) (change : Rename) : Disk where
  places := Relocation.rename '/' change.prevPath change.name d.places
  moves := d.moves ++ (d.moved c fi change.prevPath).map (d.creation change) ++
    ((d.moved c fi change.prevPath).map (d.deletion change)).reverse

/-- The context of the batch and the disk. -/
structure World where
  ctx : Context
  disk : Disk

def World.initial : World := ⟨Context.empty, Disk.initial c fi⟩

def World.step (w : World) (change : Rename) : Option World :=
  (handleRename c fi w.ctx change).map fun ctx => ⟨ctx, w.disk.rename c fi change⟩

/-- The file is somewhere strictly below the other one. -/
def Disk.Above (d : Disk) (f g : FileId) : Prop :=
  ∃ p ∈ d.places f, ∃ q ∈ d.places g, ∃ r ∈ Relocation.rest '/' p q, r ≠ []

/-- The file that is found is where the rename begins, what the model has below it is what there is, what is in a
directory there is below it in the model, too, and nothing is below the new path, which is not below the old one. -/
structure Moves (d : Disk) (change : Rename) (root : FileId) : Prop where
  found : d.places root = some change.prevPath
  whole : ∀ f ∈ (c.infos fi).files, f ∈ tour c fi root ↔
    ∃ p ∈ d.places f, (Relocation.rest '/' change.prevPath p).isSome
  nested : ∀ f ∈ tour c fi root, ∀ g ∈ tour c fi root, d.Above g f → f ∈ tour c fi g
  named : change.name ≠ []
  outside : Relocation.rest '/' change.prevPath change.name = none
  empty : ∀ f ∈ (c.infos fi).files, ∀ p ∈ d.places f, ∀ r ∈ Relocation.rest '/' change.name p, r = []

/-- **The model and the tables agree with the disk** where the rename looks at them. If the old path is not known,
then no file of the model is at or below it, and none is replaced. -/
def Follows (w : World) (change : Rename) : Prop :=
  match lookup c fi w.ctx change.prevPath with
  | none => ∀ f ∈ (c.infos fi).files, ∀ p ∈ w.disk.places f,
      Relocation.rest '/' change.prevPath p = none ∧ p ≠ change.name
  | some root => Moves c fi w.disk change root

instance (d : Disk) (f g : FileId) : Decidable (d.Above f g) :=
  inferInstanceAs (Decidable (∃ p ∈ d.places f, ∃ q ∈ d.places g, ∃ r ∈ Relocation.rest '/' p q, r ≠ []))

instance (d : Disk) (change : Rename) (root : FileId) : Decidable (Moves c fi d change root) :=
  decidable_of_iff (d.places root = some change.prevPath ∧
    (∀ f ∈ (c.infos fi).files, f ∈ tour c fi root ↔
      ∃ p ∈ d.places f, (Relocation.rest '/' change.prevPath p).isSome = true) ∧
    (∀ f ∈ tour c fi root, ∀ g ∈ tour c fi root, d.Above g f → f ∈ tour c fi g) ∧ change.name ≠ [] ∧
    Relocation.rest '/' change.prevPath change.name = none ∧
    ∀ f ∈ (c.infos fi).files, ∀ p ∈ d.places f, ∀ r ∈ Relocation.rest '/' change.name p, r = [])
    ⟨fun h => ⟨h.1, h.2.1, h.2.2.1, h.2.2.2.1, h.2.2.2.2.1, h.2.2.2.2.2⟩,
      fun h => ⟨h.found, h.whole, h.nested, h.named, h.outside, h.empty⟩⟩

instance (w : World) (change : Rename) : Decidable (Follows c fi w change) :=
  match h : lookup c fi w.ctx change.prevPath with
  | none => decidable_of_iff (∀ f ∈ (c.infos fi).files, ∀ p ∈ w.disk.places f,
      Relocation.rest '/' change.prevPath p = none ∧ p ≠ change.name) (by rw [Follows, h])
  | some root => decidable_of_iff (Moves c fi w.disk change root) (by rw [Follows, h])

end Model

/-! ## The walk over the queue -/

section Walk

variable {c : Cluster} {fi : FolderInfoId} {change : Rename}

theorem length_parentName {name parent : Name} (h : parentName name = some parent) : parent.length < name.length := by
  unfold parentName at h
  split at h
  · rename_i hsep
    cases h
    have hpos : 0 < name.length := List.length_pos_of_mem hsep
    have hle : (name.rdropWhile (· ≠ '/')).length ≤ name.length :=
      (List.rdropWhile_prefix (fun x : Char => decide (x ≠ '/')) (l := name)).length_le
    rw [List.length_dropLast]
    omega
  · cases h

theorem mem_members {f g : FileId} : g ∈ members c fi f ↔ isDir c f = true ∧ g ∈ (c.infos fi).files ∧
    parentOf c fi g = some f ∧ (c.files g).deleted = false := by
  unfold members
  split
  · rename_i hdir
    simp [List.mem_insertionSort, List.mem_filter, hdir]
  · rename_i hdir
    simp [hdir]

/-- A child has a longer name than the directory it is in. -/
theorem ranked_members (h : c.InfoWF fi) : Forest.Ranked (c.infos fi).files (parentOf c fi) (members c fi)
    fun f => (nameOf c f).length where
  mem hc := ⟨(mem_members.mp hc).2.1, (mem_members.mp hc).2.2.1⟩
  nodup f := by
    unfold members
    split
    · exact (List.perm_insertionSort _ _).nodup_iff.mpr (h.nodup.filter _)
    · exact List.nodup_nil
  rank_lt {f g} _ hparent := by
    obtain ⟨parent, hname, hfind⟩ := Option.bind_eq_some_iff.mp hparent
    have hparentName : nameOf c f = parent := by
      rw [nameOf, ((byName_eq_some h).mp hfind).2, String.toList_ofList]
    rw [hparentName]
    exact length_parentName hname

/-- The walk ends, meets no file twice, and meets a directory before what is in it. -/
theorem tour_spec (h : c.InfoWF fi) {root : FileId} (hroot : root ∈ (c.infos fi).files) :
    Forest.bfs (members c fi) (c.infos fi).files.length [root] = some (tour c fi root) ∧
      (tour c fi root).Nodup ∧ (∀ f, f ∈ tour c fi root ↔ Forest.Below (members c fi) root f) ∧
        (tour c fi root).Pairwise fun f g => ¬ Forest.Below (members c fi) g f := by
  obtain ⟨order, horder, hnodup, hmem, hpairwise⟩ := Forest.bfs_spec (ranked_members h) hroot
  have htour : tour c fi root = order := by rw [tour, horder]; rfl
  rw [htour]
  exact ⟨horder, hnodup, hmem, hpairwise⟩

theorem mem_files_of_below {root f : FileId} (hroot : root ∈ (c.infos fi).files)
    (h : Forest.Below (members c fi) root f) : f ∈ (c.infos fi).files := by
  cases h with
  | self => exact hroot
  | child _ hc => exact (mem_members.mp hc).2.1

/-- The queue does not depend on what is done with the files. -/
theorem walk_eq {fuel : Nat} {queue : List FileId} {ctx : Context} {vacated : List Order} :
    walk c fi change fuel queue ctx vacated = (Forest.bfs (members c fi) fuel queue).bind fun order =>
      order.foldlM (fun p f => renameFile c change p.1 p.2 f) (ctx, vacated) := by
  induction fuel generalizing queue ctx vacated with
  | zero =>
    cases queue with
    | nil => rfl
    | cons f queue => rfl
  | succ fuel ih =>
    cases queue with
    | nil => rfl
    | cons f queue =>
      rw [walk, Forest.bfs, Option.bind_map]
      simp only [ih, Option.bind_eq_bind, Function.comp_def, List.foldlM_cons]
      rw [Option.bind_comm]

/-- What is known of a file before it is renamed. -/
structure Stands (d : Disk) (change : Rename) (ctx : Context) (f : FileId) : Prop where
  place : d.places f = some (ctx.nameOf c f)
  below : (Relocation.rest '/' change.prevPath (ctx.nameOf c f)).isSome

/-- **One file** that is where the context says. -/
theorem renameFile_eq {d : Disk} {ctx : Context} {f : FileId} (h : Stands (c := c) d change ctx f)
    (vacated : List Order) : ∃ ctx', renameFile c change ctx vacated f = some (ctx', d.deletion change f :: vacated) ∧
      ctx'.orders = ctx.orders ++ [d.creation change f] ∧
      ∀ g, ctx'.nameOf c g = if g = f then d.target change f else ctx.nameOf c g := by
  obtain ⟨rest, hrest⟩ := Option.isSome_iff_exists.mp h.below
  obtain ⟨hname, -⟩ := Relocation.rest_eq_some.mp hrest
  have htarget : d.target change f = change.name ++ rest := by
    rw [Disk.target, h.place, Option.bind_some, hrest, Option.getD_some]
  have hdeletion : d.deletion change f = ⟨f, ctx.nameOf c f, true, change.vacated f⟩ := by
    rw [Disk.deletion, h.place, Option.getD_some]
  have hsubstr : substr (ctx.nameOf c f) (size change.prevPath) = some rest := by
    rw [hname]
    exact substr_append change.prevPath rest
  refine ⟨ctx.record f (change.name ++ rest) (change.created f), ?_, ?_, fun g => ?_⟩
  · rw [renameFile, hsubstr, hdeletion]
    rfl
  · rw [Disk.creation, htarget]
    rfl
  · rw [htarget]
    show ((Function.update ctx.file2Name f (some (change.name ++ rest))) g).getD (nameOf c g) = _
    by_cases hg : g = f
    · subst hg
      rw [Function.update_self, Option.getD_some, if_pos rfl]
    · rw [Function.update_of_ne hg, if_neg hg]
      rfl

/-- **All files of the queue.** What is known of one is not changed by the others. -/
theorem foldlM_renameFile {d : Disk} {order : List FileId} (hnodup : order.Nodup) {ctx : Context}
    (h : ∀ f ∈ order, Stands (c := c) d change ctx f) (vacated : List Order) :
    ∃ ctx', order.foldlM (fun p f => renameFile c change p.1 p.2 f) (ctx, vacated) =
        some (ctx', (order.map (d.deletion change)).reverse ++ vacated) ∧
      ctx'.orders = ctx.orders ++ order.map (d.creation change) ∧
      ∀ g, ctx'.nameOf c g = if g ∈ order then d.target change g else ctx.nameOf c g := by
  induction order generalizing ctx vacated with
  | nil => exact ⟨ctx, rfl, by simp, fun g => by simp⟩
  | cons f order ih =>
    obtain ⟨hf, hnodup⟩ := List.nodup_cons.mp hnodup
    obtain ⟨mid, hmid, horders, hnames⟩ := renameFile_eq (h f (List.mem_cons_self ..)) vacated
    have hstands : ∀ g ∈ order, Stands (c := c) d change mid g := by
      intro g hg
      have hne : g ≠ f := fun heq => hf (heq ▸ hg)
      have hg' := h g (List.mem_cons_of_mem _ hg)
      have hname : mid.nameOf c g = ctx.nameOf c g := by rw [hnames, if_neg hne]
      exact ⟨by rw [hname]; exact hg'.place, by rw [hname]; exact hg'.below⟩
    obtain ⟨ctx', hctx', horders', hnames'⟩ := ih hnodup hstands (d.deletion change f :: vacated)
    refine ⟨ctx', ?_, ?_, fun g => ?_⟩
    · rw [List.foldlM_cons, hmid, Option.bind_eq_bind, Option.bind_some, hctx']
      simp
    · rw [horders', horders]
      simp
    · rw [hnames', hnames]
      by_cases hg : g = f
      · subst hg
        simp
      · simp [hg]

end Walk

/-! ## What is asked for is what has happened -/

section Run

variable (c : Cluster) (fi : FolderInfoId)

/-- The last thing that has happened at a path agrees with what is there. -/
def Disk.Tracks (d : Disk) (name : Name) : Prop :=
  match Keyed.last Order.name d.moves name with
  | none => ∀ f, d.places f = some name ↔ (Disk.initial c fi).places f = some name
  | some o => if o.deletes then ∀ f, d.places f ≠ some name else d.places o.file = some name

/-- No later one is strictly above an earlier one. -/
def TopDown (orders : List Order) : Prop :=
  orders.Pairwise fun o o' => ∀ r ∈ Relocation.rest '/' o'.name o.name, r = []

/-- One rename after the other: directories are created before what is in them, and then what is in them is deleted
before they are. -/
inductive Layered : List Order → Prop
  | nil : Layered []
  | rename {log created vacated : List Order} : Layered log → TopDown created → TopDown vacated.reverse →
      (∀ o ∈ created, o.deletes = false) → (∀ o ∈ vacated, o.deletes = true) →
      created.map Order.file = vacated.reverse.map Order.file → Layered (log ++ created ++ vacated)

/-- **The context of a batch agrees with the disk.** -/
structure World.Good (w : World) : Prop where
  listed : ∀ f p, w.disk.places f = some p → f ∈ (c.infos fi).files ∧ (c.files f).deleted = false
  apart : Relocation.Injective w.disk.places
  names : ∀ f p, w.disk.places f = some p → w.ctx.nameOf c f = p
  orders : w.ctx.orders = w.disk.moves
  moved : ∀ o ∈ w.disk.moves, (o.file ∈ (c.infos fi).files ∧ (c.files o.file).deleted = false) ∧ o.name ≠ []
  tracks : ∀ name, w.disk.Tracks c fi name
  layered : Layered w.disk.moves

variable {c fi}

theorem places_initial {f : FileId} {p : Name} (h : (Disk.initial c fi).places f = some p) :
    (f ∈ (c.infos fi).files ∧ (c.files f).deleted = false) ∧ nameOf c f = p := by
  unfold Disk.initial at h
  dsimp only at h
  split at h
  · rename_i hlive
    exact ⟨hlive, Option.some.inj h⟩
  · cases h

theorem World.good_initial (h : c.InfoWF fi) : (World.initial c fi).Good c fi where
  listed f p hp := (places_initial hp).1
  apart f g p hf hg := by
    obtain ⟨⟨hmem, -⟩, hname⟩ := places_initial hf
    obtain ⟨⟨hmem', -⟩, hname'⟩ := places_initial hg
    by_contra hne
    exact (h.keys f hmem g hmem' hne).2.1 (String.toList_inj.mp (hname.trans hname'.symm))
  names f p hp := (places_initial hp).2
  orders := rfl
  moved o ho := absurd ho List.not_mem_nil
  tracks _ _ := Iff.rfl
  layered := .nil

section Step

variable {d : Disk} {change : Rename} {root f g : FileId} {name : Name}

/-- What is moved, with its old and its new path. -/
theorem Moves.target_of_mem (h : Moves c fi d change root) (hf : f ∈ tour c fi root)
    (hmem : f ∈ (c.infos fi).files) : ∃ p r, d.places f = some p ∧ Relocation.rest '/' change.prevPath p = some r ∧
      (d.deletion change f).name = p ∧ (d.creation change f).name = change.name ++ r := by
  obtain ⟨p, hp, hrest⟩ := (h.whole f hmem).mp hf
  obtain ⟨r, hr⟩ := Option.isSome_iff_exists.mp hrest
  have hp : d.places f = some p := hp
  refine ⟨p, r, hp, hr, ?_, ?_⟩
  · rw [Disk.deletion, hp, Option.getD_some]
  · rw [Disk.creation, Disk.target, hp, Option.bind_some, hr, Option.getD_some]

theorem Moves.free (h : Moves c fi d change root) (hlisted : ∀ f p, d.places f = some p → f ∈ (c.infos fi).files) :
    Relocation.Free '/' change.prevPath change.name d.places where
  outside := h.outside
  empty f p r hp hr := h.empty f (hlisted f p hp) p hp r hr

/-- Relative positions do not change. -/
theorem rest_append_left {p q r : Name} : Relocation.rest '/' (p ++ q) (p ++ r) = Relocation.rest '/' q r := by
  refine Option.ext fun t => ?_
  rw [Relocation.rest_eq_some, Relocation.rest_eq_some, List.append_assoc, List.append_cancel_left_eq]

/-- The disk after a rename of a file that is there. -/
theorem Moves.moved_eq (h : Moves c fi d change root) (hroot : root ∈ (c.infos fi).files)
    (hapart : Relocation.Injective d.places) : d.moved c fi change.prevPath = tour c fi root := by
  have hfile : d.fileAt c fi change.prevPath = some root := by
    cases hfind : d.fileAt c fi change.prevPath with
    | none => exact absurd h.found (by simpa using List.find?_eq_none.mp hfind root hroot)
    | some f =>
      have hf : d.places f = some change.prevPath := by simpa using List.find?_some hfind
      rw [hapart f root _ hf h.found]
  rw [Disk.moved, hfile]
  rfl

/-- What one rename starts from. -/
structure Setting (c : Cluster) (fi : FolderInfoId) (d : Disk) (change : Rename) (root : FileId) : Prop
    extends Moves c fi d change root where
  listed : ∀ f p, d.places f = some p → f ∈ (c.infos fi).files
  apart : Relocation.Injective d.places
  walked : ∀ f ∈ tour c fi root, f ∈ (c.infos fi).files
  topDown : (tour c fi root).Pairwise fun f g => ¬ d.Above g f

/-- On disk, too, the walk meets a directory before what is in it. -/
theorem Moves.topDown (hc : c.InfoWF fi) (h : Moves c fi d change root) (hroot : root ∈ (c.infos fi).files) :
    (tour c fi root).Pairwise fun f g => ¬ d.Above g f := by
  obtain ⟨-, -, hmem, hpairwise⟩ := tour_spec hc hroot
  refine hpairwise.imp_of_mem fun {f g} hf hg hbelow habove => hbelow ?_
  have hin := mem_files_of_below hroot ((hmem g).mp hg)
  exact ((tour_spec hc hin).2.2.1 f).mp (h.nested f hf g hg habove)

namespace Setting

theorem target_of_mem (h : Setting c fi d change root) (hf : f ∈ tour c fi root) :
    ∃ p r, d.places f = some p ∧ Relocation.rest '/' change.prevPath p = some r ∧
      (d.deletion change f).name = p ∧ (d.creation change f).name = change.name ++ r :=
  h.toMoves.target_of_mem hf (h.walked f hf)

theorem free (h : Setting c fi d change root) :
    Relocation.Free '/' change.prevPath change.name d.places :=
  h.toMoves.free h.listed

theorem places_of_mem (h : Setting c fi d change root) (hf : f ∈ tour c fi root) :
    (d.rename c fi change).places f = some (d.creation change f).name := by
  obtain ⟨p, r, hp, hr, -, hname⟩ := h.target_of_mem hf
  exact Relocation.rename_eq_some.mpr (.inl ⟨p, r, hp, hr, hname⟩)

/-- A file that is somewhere afterwards has been moved, or is where it was. -/
theorem places_cases (h : Setting c fi d change root)
    (hf : (d.rename c fi change).places f = some name) :
    (f ∈ tour c fi root ∧ (d.creation change f).name = name) ∨
      (d.places f = some name ∧ Relocation.rest '/' change.prevPath name = none ∧ name ≠ change.name) := by
  rcases Relocation.rename_eq_some.mp hf with ⟨p, r, hp, hr, rfl⟩ | hstays
  · have hmem : f ∈ tour c fi root := (h.whole f (h.listed f p hp)).mpr ⟨p, hp, by rw [hr]; rfl⟩
    refine .inl ⟨hmem, ?_⟩
    rw [Disk.creation, Disk.target, hp, Option.bind_some, hr, Option.getD_some]
  · exact .inr hstays

theorem nodup_creations (h : Setting c fi d change root) (hnodup : (tour c fi root).Nodup) :
    (((tour c fi root).map (d.creation change)).map Order.name).Nodup := by
  rw [List.map_map]
  refine hnodup.map_on fun f hf g hg heq => ?_
  have hf' := h.places_of_mem hf
  rw [show (d.creation change f).name = (d.creation change g).name from heq] at hf'
  exact Relocation.injective_rename h.free h.apart f g _ hf' (h.places_of_mem hg)

theorem nodup_deletions (h : Setting c fi d change root) (hnodup : (tour c fi root).Nodup) :
    (((tour c fi root).map (d.deletion change)).reverse.map Order.name).Nodup := by
  rw [List.map_reverse, List.nodup_reverse, List.map_map]
  refine hnodup.map_on fun f hf g hg heq => ?_
  obtain ⟨p, -, hp, -, hname, -⟩ := h.target_of_mem hf
  obtain ⟨q, -, hq, -, hname', -⟩ := h.target_of_mem hg
  have heq : (d.deletion change f).name = (d.deletion change g).name := heq
  rw [hname, hname'] at heq
  exact h.apart f g p hp (heq ▸ hq)

theorem moves_eq (h : Setting c fi d change root) (hroot : root ∈ (c.infos fi).files) :
    (d.rename c fi change).moves = d.moves ++ (tour c fi root).map (d.creation change) ++
      ((tour c fi root).map (d.deletion change)).reverse := by
  rw [Disk.rename, h.toMoves.moved_eq hroot h.apart]

/-- **Paths after a rename.** One that has been left is empty, one that has been taken has the file that has been
moved there, and nothing has happened at the others. -/
theorem tracks (h : Setting c fi d change root) (hroot : root ∈ (c.infos fi).files)
    (hnodup : (tour c fi root).Nodup) (htracks : d.Tracks c fi name) :
    (d.rename c fi change).Tracks c fi name := by
  have hrootPlace : root ∈ tour c fi root := (h.whole root hroot).mpr ⟨_, h.found, by rw [Relocation.rest_self]; rfl⟩
  unfold Disk.Tracks
  rw [h.moves_eq hroot, Keyed.last_append, Keyed.last_append]
  by_cases hleft : ∃ f ∈ tour c fi root, (d.deletion change f).name = name
  · obtain ⟨f, hf, rfl⟩ := hleft
    obtain ⟨p, r, hp, hr, hname, -⟩ := h.target_of_mem hf
    rw [Keyed.last_of_nodup (h.nodup_deletions hnodup) (List.mem_reverse.mpr (List.mem_map_of_mem hf)), Option.some_or]
    show ∀ g, _
    intro g hg
    rw [hname] at hg
    rcases h.places_cases hg with ⟨hg, hcreated⟩ | ⟨-, hnone, -⟩
    · -- what is moved does not come to be below the old path
      obtain ⟨q, s, -, hs, -, hcreation⟩ := h.target_of_mem hg
      have houtside := h.free.rest_moved h.found (Relocation.rest_eq_some.mp hs).2
      rw [← hcreation, hcreated, hr] at houtside
      cases houtside
    · rw [hr] at hnone
      cases hnone
  · have hlast : Keyed.last Order.name ((tour c fi root).map (d.deletion change)).reverse name = none := by
      refine Keyed.last_eq_none.mpr fun o ho heq => ?_
      obtain ⟨f, hf, rfl⟩ := List.mem_map.mp (List.mem_reverse.mp ho)
      exact hleft ⟨f, hf, heq⟩
    rw [hlast, Option.none_or]
    by_cases htaken : ∃ f ∈ tour c fi root, (d.creation change f).name = name
    · obtain ⟨f, hf, rfl⟩ := htaken
      rw [Keyed.last_of_nodup (h.nodup_creations hnodup) (List.mem_map_of_mem hf), Option.some_or]
      exact h.places_of_mem hf
    · have hlast' : Keyed.last Order.name ((tour c fi root).map (d.creation change)) name = none := by
        refine Keyed.last_eq_none.mpr fun o ho heq => ?_
        obtain ⟨f, hf, rfl⟩ := List.mem_map.mp ho
        exact htaken ⟨f, hf, heq⟩
      rw [hlast', Option.none_or]
      have hstays : ∀ g, (d.rename c fi change).places g = some name ↔ d.places g = some name := by
        refine fun g => ⟨fun hg => ?_, fun hg => Relocation.rename_eq_some.mpr (.inr ⟨hg, ?_, fun heq => ?_⟩)⟩
        · rcases h.places_cases hg with ⟨hmem, heq⟩ | ⟨hplace, -⟩
          · exact absurd ⟨g, hmem, heq⟩ htaken
          · exact hplace
        · -- it is neither moved away nor replaced
          cases hrest : Relocation.rest '/' change.prevPath name with
          | none => rfl
          | some r =>
            have hmem : g ∈ tour c fi root := (h.whole g (h.listed g _ hg)).mpr ⟨name, hg, by rw [hrest]; rfl⟩
            obtain ⟨p, -, hp, -, hname, -⟩ := h.target_of_mem hmem
            rw [hg] at hp
            cases hp
            exact absurd ⟨g, hmem, hname⟩ hleft
        · obtain ⟨p, r, hp, hr, -, hname⟩ := h.target_of_mem hrootPlace
          rw [h.found] at hp
          cases hp
          rw [Relocation.rest_self] at hr
          cases hr
          rw [List.append_nil, ← heq] at hname
          exact htaken ⟨root, hrootPlace, hname⟩
      unfold Disk.Tracks at htracks
      cases hold : Keyed.last Order.name d.moves name with
      | none =>
        rw [hold] at htracks
        exact fun g => (hstays g).trans (htracks g)
      | some o =>
        rw [hold] at htracks
        dsimp only at htracks ⊢
        split
        · rename_i hdeletes
          rw [if_pos hdeletes] at htracks
          exact fun g hg => htracks g ((hstays g).mp hg)
        · rename_i hcreates
          rw [if_neg hcreates] at htracks
          exact (hstays _).mpr htracks

theorem topDown_creations (h : Setting c fi d change root) :
    TopDown ((tour c fi root).map (d.creation change)) := by
  refine List.pairwise_map.mpr (h.topDown.imp_of_mem fun {f g} hf hg habove r hr => ?_)
  obtain ⟨p, s, hp, hs, -, hname⟩ := h.target_of_mem hf
  obtain ⟨q, t, hq, ht, -, hname'⟩ := h.target_of_mem hg
  obtain ⟨rfl, -⟩ := Relocation.rest_eq_some.mp hs
  obtain ⟨rfl, -⟩ := Relocation.rest_eq_some.mp ht
  rw [hname, hname', rest_append_left] at hr
  by_contra hne
  exact habove ⟨_, hq, _, hp, r, by rw [rest_append_left]; exact hr, hne⟩

theorem topDown_deletions (h : Setting c fi d change root) :
    TopDown ((tour c fi root).map (d.deletion change)) := by
  refine List.pairwise_map.mpr (h.topDown.imp_of_mem fun {f g} hf hg habove r hr => ?_)
  obtain ⟨p, -, hp, -, hname, -⟩ := h.target_of_mem hf
  obtain ⟨q, -, hq, -, hname', -⟩ := h.target_of_mem hg
  rw [hname, hname'] at hr
  by_contra hne
  exact habove ⟨_, hq, _, hp, r, hr, hne⟩

end Setting

end Step

/-- A rename of what the model does not know leaves its files where they are. -/
theorem Disk.rename_of_unknown {d : Disk} {change : Rename}
    (h : ∀ f p, d.places f = some p → Relocation.rest '/' change.prevPath p = none ∧ p ≠ change.name) :
    d.rename c fi change = d := by
  have hplaces : Relocation.rename '/' change.prevPath change.name d.places = d.places := by
    funext f
    unfold Relocation.rename
    cases hp : d.places f with
    | none => rfl
    | some p =>
      obtain ⟨hrest, hne⟩ := h f p hp
      simp [hrest, hne]
  have hmoved : d.moved c fi change.prevPath = [] := by
    have hnone : d.fileAt c fi change.prevPath = none := by
      refine List.find?_eq_none.mpr fun f _ hf => ?_
      have hf : d.places f = some change.prevPath := by simpa using hf
      have hself := (h f _ hf).1
      rw [Relocation.rest_self] at hself
      cases hself
    rw [Disk.moved, hnone]
    rfl
  unfold Disk.rename
  rw [hplaces, hmoved, List.map_nil, List.map_nil, List.reverse_nil, List.append_nil, List.append_nil]

/-- **One rename**: the files that are moved are the ones that diffs are asked for. -/
theorem World.Good.step (hc : c.InfoWF fi) {w : World} (h : w.Good c fi) {change : Rename}
    (hnames : ∀ f ∈ (c.infos fi).files, (c.files f).name ≠ "") (hfollows : Follows c fi w change) :
    ∃ w', w.step c fi change = some w' ∧ w'.Good c fi := by
  unfold Follows at hfollows
  unfold World.step handleRename
  split at hfollows
  · rename_i hlookup
    have hunknown : w.disk.rename c fi change = w.disk := Disk.rename_of_unknown fun f p hp =>
      hfollows f (h.listed f p hp).1 p hp
    refine ⟨⟨w.ctx, w.disk.rename c fi change⟩, rfl, ?_⟩
    rw [hunknown]
    exact h
  · rename_i root hlookup
    obtain ⟨hroot, -⟩ := h.listed root _ hfollows.found
    obtain ⟨hbfs, hnodup, hmem, -⟩ := tour_spec hc hroot
    have hs : Setting c fi w.disk change root := ⟨hfollows, fun f p hp => (h.listed f p hp).1, h.apart,
      fun f hf => mem_files_of_below hroot ((hmem f).mp hf), hfollows.topDown hc hroot⟩
    have hstands : ∀ f ∈ tour c fi root, Stands (c := c) w.disk change w.ctx f := by
      intro f hf
      obtain ⟨p, r, hp, hr, -, -⟩ := hs.target_of_mem hf
      have hname := h.names f p hp
      exact ⟨by rw [hname]; exact hp, by rw [hname, hr]; rfl⟩
    obtain ⟨ctx', hctx', horders, hnames'⟩ := foldlM_renameFile hnodup hstands []
    have hmoves := hs.moves_eq hroot
    rw [walk_eq, hbfs, Option.bind_some, hctx', List.append_nil]
    refine ⟨_, rfl, ?_⟩
    constructor
    · intro f p hp
      rcases hs.places_cases hp with ⟨hf, -⟩ | ⟨hp, -⟩
      · obtain ⟨q, -, hq, -⟩ := hs.target_of_mem hf
        exact h.listed f q hq
      · exact h.listed f p hp
    · exact Relocation.injective_rename hs.free h.apart
    · intro f p hp
      show ctx'.nameOf c f = p
      rw [hnames']
      rcases hs.places_cases hp with ⟨hf, heq⟩ | ⟨hp, hrest, -⟩
      · rw [if_pos hf]
        exact heq
      · rw [if_neg, h.names f p hp]
        intro hf
        obtain ⟨q, r, hq, hr, -⟩ := hs.target_of_mem hf
        rw [hp] at hq
        cases hq
        rw [hr] at hrest
        cases hrest
    · show ctx'.orders ++ _ = _
      rw [hmoves, horders, h.orders]
    · intro o ho
      rw [hmoves, List.mem_append, List.mem_append] at ho
      rcases ho with (ho | ho) | ho
      · exact h.moved o ho
      · obtain ⟨f, hf, rfl⟩ := List.mem_map.mp ho
        obtain ⟨p, r, hp, -, -, hname⟩ := hs.target_of_mem hf
        refine ⟨h.listed f p hp, ?_⟩
        rw [hname]
        exact fun hnil => hfollows.named (List.append_eq_nil_iff.mp hnil).1
      · obtain ⟨f, hf, rfl⟩ := List.mem_map.mp (List.mem_reverse.mp ho)
        obtain ⟨p, r, hp, -, hname, -⟩ := hs.target_of_mem hf
        refine ⟨h.listed f p hp, ?_⟩
        rw [hname]
        -- nothing has the empty path: it would have come there by an order or from the model
        rintro rfl
        have htracks := h.tracks []
        unfold Disk.Tracks at htracks
        cases hlast : Keyed.last Order.name w.disk.moves [] with
        | none =>
          rw [hlast] at htracks
          exact hnames f (h.listed f [] hp).1 (String.toList_eq_nil_iff.mp (places_initial ((htracks f).mp hp)).2)
        | some o =>
          obtain ⟨ho, hname⟩ := Keyed.mem_of_last hlast
          exact (h.moved o ho).2 hname
    · exact fun name => hs.tracks hroot hnodup (h.tracks name)
    · show Layered (w.disk.rename c fi change).moves
      rw [hmoves]
      refine h.layered.rename hs.topDown_creations ?_ (fun o ho => ?_) (fun o ho => ?_) ?_
      · rw [List.reverse_reverse]
        exact hs.topDown_deletions
      · obtain ⟨f, -, rfl⟩ := List.mem_map.mp ho
        rfl
      · obtain ⟨f, -, rfl⟩ := List.mem_map.mp (List.mem_reverse.mp ho)
        rfl
      · rw [List.reverse_reverse, List.map_map, List.map_map]
        rfl

/-- **A batch of renames** that agree with the disk one after the other. -/
theorem good_of_run (hc : c.InfoWF fi) (hnames : ∀ f ∈ (c.infos fi).files, (c.files f).name ≠ "")
    {changes : List Rename} (hrun : Run.Meets (World.step c fi) (Follows c fi) (World.initial c fi) changes) :
    ∃ w, Run.exec (World.step c fi) (World.initial c fi) changes = some w ∧ w.Good c fi :=
  Run.exec_total (fun _ _ hw hfollows => hw.step hc hnames hfollows) (World.good_initial hc) hrun

end Run

/-- A directory with a file in it. -/
def treeCluster : Cluster where
  blocks
    | 0 => ⟨List.replicate digestLength 7, 5, [⟨1, 0, true⟩]⟩
    | _ => default
  blockMap := [0]
  nextBlock := 1
  files
    | 0 => { (default : FileInfo) with
        uuid := Uuid.ofByte 5, name := "d", sequence := 1, type := .dir, content := .nonFile ""
        version := Version.ofDevice 1 5 }
    | 1 => { (default : FileInfo) with
        uuid := Uuid.ofByte 6, name := "d/x", sequence := 2, type := .file, content := .file [some (0, true)]
        version := Version.ofDevice 1 5 }
    | _ => default
  nextFile := 2
  infos
    | 0 => ⟨Uuid.ofByte 1, [1], [0, 1], 2, 0, [1]⟩
    | _ => ⟨Uuid.ofByte 2, [2], [], 0, 0, [1]⟩
  folders := [⟨"f", Uuid.ofByte 3, [0, 1]⟩]

/-- What the sequencer and the clock say. -/
def treeEnv (n : UInt8) (f : FileId) : Env := ⟨fun _ => Uuid.ofByte (n + f.toUInt8), Uuid.ofByte 0, 100⟩

/-- The directory is renamed, and then the file is moved out of it. -/
def treeRenames : List Rename :=
  [⟨"d".toList, "e".toList, treeEnv 10, treeEnv 20⟩, ⟨"e/x".toList, "y".toList, treeEnv 30, treeEnv 40⟩]

theorem infoWF_treeCluster (fi : FolderInfoId) : treeCluster.InfoWF fi := by
  cases fi with
  | zero => exact ⟨by decide +kernel, by decide +kernel, by unfold KeysDiffer; decide +kernel, by decide +kernel⟩
  | succ fi => exact ⟨fun f hf => absurd hf List.not_mem_nil, List.nodup_nil, fun f hf => absurd hf List.not_mem_nil,
      fun f hf => absurd hf List.not_mem_nil⟩

/-- The second rename begins where the first one has ended. -/
theorem treeRenames_good :
    ∃ w, Run.exec (World.step treeCluster 0) (World.initial treeCluster 0) treeRenames = some w ∧
      w.Good treeCluster 0 :=
  good_of_run (infoWF_treeCluster 0) (by decide +kernel) (by decide +kernel)

example : ((Run.exec (World.step treeCluster 0) (World.initial treeCluster 0) treeRenames).map fun w =>
    w.ctx.orders.map fun o => (String.ofList o.name, o.deletes)) =
      some [("e", false), ("e/x", false), ("d/x", true), ("d", true), ("y", false), ("e/x", true)] := by
  decide +kernel

/-- A file that an earlier rename has moved out of a directory is taken along all the same: both are asked for under
one path then. -/
example : ((Run.exec (World.step treeCluster 0) (World.initial treeCluster 0)
    [⟨"d/x".toList, "z".toList, treeEnv 10, treeEnv 20⟩, ⟨"d".toList, "e".toList, treeEnv 30, treeEnv 40⟩]).map fun w =>
      w.ctx.orders.map fun o => (String.ofList o.name, o.deletes)) =
        some [("z", false), ("d/x", true), ("e", false), ("e", false), ("z", true), ("d", true)] := by
  decide +kernel

end HandleRename

end SyncSpirit
