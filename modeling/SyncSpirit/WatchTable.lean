import Mathlib
import SyncSpirit.Lib.Keyed

/-!
# Watched directories (`fs/platform/unix/watcher.cpp`, `fs/platform/linux/watcher.cpp`)

The watcher has a descriptor for every directory of a folder. Three maps describe the tree:
`pathMap` has the path and the parent of a descriptor, `pathToWd` the descriptor of a path, and
`subdirMap` the descriptors below one. They change when a folder is watched or unwatched, when a
directory has been scanned (`notify`), and on the events of `inotify` about a renamed or a deleted
directory.

A path is the list of its characters, one for each byte of the source. What the kernel answers to
`inotify_add_watch` is an argument. A failed assertion and undefined behaviour are `none`.
-/

namespace SyncSpirit

namespace WatchTable

/-- `path_guard_t`, with its descriptor. A folder's root has the parent `-1`. -/
structure Guard where
  wd : Int
  path : List Char
  folderId : String
  parentFd : Int
  deriving DecidableEq, Repr

/-- The maps of `watcher_t`, and the folders that are watched with their paths. A descriptor that is
not in `subdir_map` has no children. -/
structure Table where
  pathMap : List Guard
  nodup : (pathMap.map Guard.wd).Nodup
  pathToWd : List Char → Option Int
  subdirMap : Int → List Int
  subdirNodup : ∀ wd, (subdirMap wd).Nodup
  watchedFolders : String → Option (List Char)

namespace Table

def empty : Table := ⟨[], List.nodup_nil, fun _ => none, fun _ => [], fun _ => List.nodup_nil, fun _ => none⟩

/-- `path_map.find`. -/
def find (t : Table) (wd : Int) : Option Guard := t.pathMap.find? fun g => g.wd = wd

theorem find_eq_some {t : Table} {wd : Int} {g : Guard} : t.find wd = some g ↔ g ∈ t.pathMap ∧ g.wd = wd :=
  Keyed.find?_iff t.nodup

theorem find_eq_none {t : Table} {wd : Int} : t.find wd = none ↔ ∀ g ∈ t.pathMap, g.wd ≠ wd := by
  rw [find, List.find?_eq_none]
  simp

/-- `path_map.emplace`. `none` if the descriptor is there. -/
def emplace (t : Table) (g : Guard) : Option Table :=
  if h : t.find g.wd = none then
    some { t with pathMap := t.pathMap ++ [g], nodup := Keyed.nodup_append t.nodup (find_eq_none.mp h) }
  else none

/-- `path_map.erase`. -/
def erase (t : Table) (wd : Int) : Table :=
  { t with pathMap := t.pathMap.filter fun g => g.wd ≠ wd, nodup := Keyed.nodup_filter t.nodup _ }

/-- The path of a guard is assigned. -/
def setPath (t : Table) (wd : Int) (path : List Char) : Table :=
  { t with
    pathMap := t.pathMap.map fun g => if g.wd = wd then { g with path := path } else g
    nodup := by
      have hmap : (t.pathMap.map fun g => if g.wd = wd then { g with path := path } else g).map Guard.wd =
          t.pathMap.map Guard.wd := by
        rw [List.map_map]
        refine List.map_congr_left fun g _ => ?_
        show (if g.wd = wd then { g with path := path } else g).wd = g.wd
        split <;> rfl
      rw [hmap]
      exact t.nodup }

/-- `path_to_wd.erase`. -/
def forgetPath (t : Table) (path : List Char) : Table :=
  { t with pathToWd := Function.update t.pathToWd path none }

/-- `path_to_wd.emplace`: what is there stays. -/
def keepPath (t : Table) (path : List Char) (wd : Int) : Table :=
  if (t.pathToWd path).isSome then t else { t with pathToWd := Function.update t.pathToWd path (some wd) }

/-- `watched_folders` gets a folder or loses it. -/
def setFolder (t : Table) (folderId : String) (folder : Option (List Char)) : Table :=
  { t with watchedFolders := Function.update t.watchedFolders folderId folder }

/-- The children of one directory are replaced. -/
def setChildren (t : Table) (parent : Int) (children : List Int) (h : children.Nodup) : Table :=
  { t with
    subdirMap := Function.update t.subdirMap parent children
    subdirNodup := by
      intro wd
      rw [Function.update_apply]
      split
      · exact h
      · exact t.subdirNodup wd }

/-- `subdir_map[parent].emplace`: a set, in the order of the descriptors. -/
def addChild (t : Table) (parent wd : Int) : Table :=
  if h : wd ∈ t.subdirMap parent then t
  else t.setChildren parent ((t.subdirMap parent).orderedInsert (· ≤ ·) wd)
    ((List.perm_orderedInsert _ _ _).nodup_iff.mpr (List.nodup_cons.mpr ⟨h, t.subdirNodup parent⟩))

/-- `subdir_map[parent].erase`. -/
def removeChild (t : Table) (parent wd : Int) : Table :=
  t.setChildren parent ((t.subdirMap parent).filter (· ≠ wd)) ((t.subdirNodup parent).filter _)

/-! ## `watch_path` -/

/-- `watch_path`, with what is returned: nothing, a negative number after an error, or the descriptor.
`answer` is what the kernel says. -/
def watchPath (t : Table) (path : List Char) (folderId : String) (parent : Int) (answer : Option Int) :
    Option (Table × Option Int) :=
  if (t.pathToWd path).isSome then some (t, none)
  else
    match answer with
    | none => some (t, none)
    | some fd =>
      if fd < 0 then some (t, some (-1))
      else do
        let t ← t.emplace ⟨fd, path, folderId, parent⟩
        let t := t.keepPath path fd
        return (if 0 ≤ parent then t.addChild parent fd else t, some fd)

/-- `on_watch`. -/
def watch (t : Table) (folderId : String) (path : List Char) (answer : Option Int) : Option Table :=
  if (t.watchedFolders folderId).isSome then some t
  else do
    let (t, opt) ← (t.setFolder folderId (some path)).watchPath path folderId (-1) answer
    match opt with
    | none => return t
    | some fd => return if fd < 0 then t.setFolder folderId none else t

/-! ## `notify` -/

/-- `rfind('/')`. -/
def rfind : List Char → Option Nat
  | [] => none
  | c :: cs =>
    match rfind cs with
    | some pos => some (pos + 1)
    | none => if c = '/' then some 0 else none

/-- What a scan has found in a directory. -/
structure ChildInfo where
  path : List Char
  isDirectory : Bool
  deriving DecidableEq, Repr

/-- `scan_dir_t`. -/
structure ScanDir where
  path : List Char
  childInfos : List ChildInfo
  deriving DecidableEq, Repr

/-- The queue of `notify`: the names with their leading slash. -/
def ScanDir.items (scan : ScanDir) : List (List Char × Bool) :=
  scan.childInfos.filterMap fun child => (rfind child.path).map fun pos => (child.path.drop pos, child.isDirectory)

/-- The path without a slash at its end. -/
def ScanDir.dirPath (scan : ScanDir) : List Char :=
  if scan.path.getLast? = some '/' then scan.path.dropLast else scan.path

/-- `NAME_MAX + 1`, the size of the buffer for the path. -/
def bufferSize : Nat := 256

/-- One name. It is looked up without its last character, and the buffer may overflow. -/
def watchItem (dirPath : List Char) (folderId : String) (wd : Int) (answer : List Char → Option Int) (t : Table)
    (item : List Char × Bool) : Option Table :=
  if dirPath.length + item.1.length < bufferSize then
    let full := dirPath ++ item.1
    if (t.pathToWd full.dropLast).isSome then some t
    else (t.watchPath full folderId wd (if item.2 then answer full else none)).map Prod.fst
  else none

/-- The names of a directory that is watched. -/
def watchItems (t : Table) (scan : ScanDir) (wd : Int) (answer : List Char → Option Int) : Option Table := do
  let guard ← t.find wd
  if scan.dirPath.length ≤ bufferSize then
    scan.items.foldlM (watchItem scan.dirPath guard.folderId wd answer) t
  else none

/-- `notify`. A directory that is not watched is watched first if its parent is; the path that is watched
is the one of the scan, with a slash at its end if it has one. -/
def notify (t : Table) (scan : ScanDir) (answer : List Char → Option Int) : Option Table :=
  match t.pathToWd scan.dirPath with
  | some wd => t.watchItems scan wd answer
  | none =>
    match (rfind scan.dirPath).bind fun pos => t.pathToWd (scan.dirPath.take pos) with
    | none => some t
    | some parent => do
      let guard ← t.find parent
      let (t, _) ← t.watchPath scan.path guard.folderId parent (answer scan.path)
      match t.pathToWd scan.dirPath with
      | some wd => t.watchItems scan wd answer
      | none => return t

/-! ## `unwatch_recurse` and `forget` -/

/-- `unwatch_wd`. -/
def unwatchWd (t : Table) (wd : Int) : Option Table := do
  let guard ← t.find wd
  let t := if 0 ≤ guard.parentFd then t.removeChild guard.parentFd wd else t
  return (t.forgetPath guard.path).erase wd

/-- The loop of `unwatch_recurse`: a directory is unwatched when nothing is watched below it. -/
def unwatchLoop : Nat → List Int → Table → Option Table
  | _, [], t => some t
  | 0, _ :: _, _ => none
  | fuel + 1, wd :: queue, t =>
    if t.subdirMap wd = [] then (t.unwatchWd wd).bind (unwatchLoop fuel queue)
    else unwatchLoop fuel ((t.subdirMap wd).reverse ++ wd :: queue) t

/-- `unwatch_recurse`. Every directory is met at most twice. -/
def unwatchRecurse (t : Table) (path : List Char) : Option Table :=
  match t.pathToWd path with
  | none => some t
  | some wd => unwatchLoop (2 * t.pathMap.length) [wd] t

/-- `on_unwatch`. -/
def unwatch (t : Table) (folderId : String) : Option Table :=
  match t.watchedFolders folderId with
  | none => some t
  | some path =>
    if (t.pathToWd path).isSome then
      (t.unwatchRecurse path).map fun t => t.setFolder folderId none
    else none

/-- `forget`. What is watched below is not looked at. -/
def forget (t : Table) (wd : Int) : Table :=
  match t.find wd with
  | none => t
  | some guard =>
    let t := t.setChildren wd [] List.nodup_nil
    let t := if 0 ≤ guard.parentFd then t.removeChild guard.parentFd wd else t
    (t.forgetPath guard.path).erase wd

/-! ## `rename_self_descending` -/

/-- One directory gets its new path: `folderPath` and `newPath` in place of the first `size` characters. -/
def renameOne (folderPath newPath : List Char) (size : Nat) (t : Table) (wd : Int) : Option Table := do
  let guard ← t.find wd
  if size ≤ guard.path.length then
    let path := folderPath ++ newPath ++ guard.path.drop size
    return ((t.forgetPath guard.path).setPath wd path).keepPath path wd
  else none

/-- The loop of `rename_self_descending`: a directory and everything below it. -/
def renameLoop (folderPath newPath : List Char) (size : Nat) : Nat → List Int → Table → Option Table
  | _, [], t => some t
  | 0, _ :: _, _ => none
  | fuel + 1, wd :: queue, t =>
    (renameOne folderPath newPath size t wd).bind fun t' =>
      renameLoop folderPath newPath size fuel (queue ++ t'.subdirMap wd) t'

/-- `rename_self_descending`: the first child whose path ends with `prevPath`. -/
def renameSelfDescending (t : Table) (parentWd : Int) (prevPath newPath : List Char) : Option Table := do
  let parent ← t.find parentWd
  match (t.subdirMap parentWd).findSome? fun wd => (t.find wd).filter fun g => prevPath.isSuffixOf g.path with
  | none => return t
  | some guard =>
    let folderPathSz := guard.path.length - prevPath.length
    renameLoop (parent.path.take folderPathSz) newPath (folderPathSz + prevPath.length) t.pathMap.length [guard.wd] t

/-- The path of a directory of an event, relative to its folder. A slash is put in only below the root. -/
def prevName (t : Table) (wd : Int) (name : List Char) : Option (List Char) := do
  let guard ← t.find wd
  let folderPath ← t.watchedFolders guard.folderId
  if guard.path.length < folderPath.length then none
  else
    let bytes := guard.path.length - folderPath.length - 1
    return guard.path.drop (guard.path.length - bytes) ++ (if bytes = 0 then [] else ['/']) ++ name

/-- The same for the new path, from the end of the full one. -/
def relPath (t : Table) (wd : Int) (name : List Char) : Option (List Char) := do
  let guard ← t.find wd
  let folderPath ← t.watchedFolders guard.folderId
  if guard.path.length < folderPath.length then none
  else
    let full := guard.path ++ '/' :: name
    return full.drop (full.length - (guard.path.length - folderPath.length + name.length))

/-- A directory has been renamed: the pair of `IN_MOVED_FROM` and `IN_MOVED_TO`. -/
def renamed (t : Table) (prevParent : Int) (prev : List Char) (parent : Int) (name : List Char) : Option Table := do
  let prevPath ← t.prevName prevParent prev
  let newPath ← t.relPath parent name
  t.renameSelfDescending parent prevPath newPath

/-! ## The operations -/

/-- What can happen to the table. -/
inductive Operation where
  | watch (folderId : String) (path : List Char) (answer : Option Int)
  | notify (scan : ScanDir) (answer : List Char → Option Int)
  | unwatch (folderId : String)
  | renamed (prevParent : Int) (prev : List Char) (parent : Int) (name : List Char)
  | forget (wd : Int)

/-- One operation. -/
def step (t : Table) : Operation → Option Table
  | .watch folderId path answer => t.watch folderId path answer
  | .notify scan answer => t.notify scan answer
  | .unwatch folderId => t.unwatch folderId
  | .renamed prevParent prev parent name => t.renamed prevParent prev parent name
  | .forget wd => some (t.forget wd)

end Table

end WatchTable

end SyncSpirit
