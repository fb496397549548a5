import Mathlib
import SyncSpirit.Resolver

/-!
# The presentation tree (`presentation/`)

A folder is presented as a tree of entities, one for each path that some device has a file of. An entity has
presences, one for each device that has the file, and one of them is the best one. Statistics are kept twice: an
entity counts the best presences at and below it, and a presence counts itself and what the same device has
below it.

None of the sums is ever computed. `push_stats` adds a difference to an entity and its parents, or to a presence
and its parents, whenever a presence appears, changes, disappears, or becomes the best one. A file of
which the parent has no entity yet is an orphan.

`Tree` has the members of the entities and of the presences by their paths and devices. The parent of an
entity is known from its path if it is among the children there. The presence without a device is the missing one of
`file_entity_t`. Of the statistics there are the size and the number of entities; the others
are `local_entries`, kept in the same way, and `cluster_entries`, which are counted on demand.
-/

namespace SyncSpirit

namespace Presentation

/-- `entity_stats_t`. -/
@[ext]
structure Stats where
  size : Int
  entities : Int
  deriving DecidableEq, Repr

namespace Stats

instance : Zero Stats := ⟨⟨0, 0⟩⟩

instance : Add Stats := ⟨fun a b => ⟨a.size + b.size, a.entities + b.entities⟩⟩

instance : Neg Stats := ⟨fun a => ⟨-a.size, -a.entities⟩⟩

instance : Sub Stats := ⟨fun a b => ⟨a.size - b.size, a.entities - b.entities⟩⟩

instance : AddCommGroup Stats where
  add_assoc a b c := Stats.ext (Int.add_assoc ..) (Int.add_assoc ..)
  zero_add a := Stats.ext (Int.zero_add _) (Int.zero_add _)
  add_zero a := Stats.ext (Int.add_zero _) (Int.add_zero _)
  add_comm a b := Stats.ext (Int.add_comm ..) (Int.add_comm ..)
  neg_add_cancel a := Stats.ext (Int.add_left_neg _) (Int.add_left_neg _)
  sub_eq_add_neg a b := Stats.ext Int.sub_eq_add_neg Int.sub_eq_add_neg
  nsmul := nsmulRec
  zsmul := zsmulRec

end Stats

/-- The pieces of a path within the folder, the last one first. -/
abbrev Path := List String

/-- A file of a device, with its size (`get_size`). -/
structure File where
  info : FileInfo
  size : Int

/-- `refresh_own_stats`. -/
def refreshOwnStats (f : File) : Stats := ⟨f.size, 1⟩

/-- `model::compare`. -/
def compare (f g : FileInfo) : Int :=
  if f.deleted && g.deleted then 0 else if compareByVersion g f = .ignore then 1 else -1

/-- A folder with the files of its devices, and how it is presented.

- `files`, `devices`: the files of each device, and the devices that share the folder;
- `orphans`: the entities that wait for their parent;
- `children`, `presences`, `best`, `statistics`: of an entity;
- `own`, `counted`, `linked`: of a presence, its `own_statistics`, its `statistics`, and if it has a parent;
- `height`: no path is longer. -/
structure Tree (δ : Type) where
  files : δ → Path → Option File
  devices : List δ
  orphans : List Path
  children : Path → List String
  presences : Path → List (Option δ)
  best : Path → Option δ
  statistics : Path → Stats
  own : Option δ → Path → Stats
  counted : Option δ → Path → Stats
  linked : Option δ → Path → Bool
  height : Nat

instance source_lawfulBEq {δ : Type} [DecidableEq δ] : LawfulBEq (Option δ) := inferInstance

namespace Tree

variable {δ : Type} [DecidableEq δ]

/-- The parent of an entity. -/
def parent (t : Tree δ) : Path → Option Path
  | [] => none
  | n :: p => if n ∈ t.children p then some p else none

/-- What an entity counts itself: its best presence. -/
def weight (t : Tree δ) (p : Path) : Stats := (t.best p).elim 0 fun b => t.own (some b) p

/-- The children in which a device has a presence whose parent is the presence here. -/
def below (t : Tree δ) (d : δ) (p : Path) : List String :=
  (t.children p).filter fun n => t.linked (some d) (n :: p)

/-- Another member at one path. -/
def setChildren (t : Tree δ) (p : Path) (names : List String) : Tree δ :=
  { t with children := Function.update t.children p names }

def setBest (t : Tree δ) (p : Path) (best : Option δ) : Tree δ := { t with best := Function.update t.best p best }

def setOwn (t : Tree δ) (k : Option δ) (p : Path) (stats : Stats) : Tree δ :=
  { t with own := Function.update t.own k (Function.update (t.own k) p stats) }

def setCounted (t : Tree δ) (k : Option δ) (p : Path) (stats : Stats) : Tree δ :=
  { t with counted := Function.update t.counted k (Function.update (t.counted k) p stats) }

def setLinked (t : Tree δ) (k : Option δ) (p : Path) (linked : Bool) : Tree δ :=
  { t with linked := Function.update t.linked k (Function.update (t.linked k) p linked) }

/-! ## The best presence -/

/-- `determine_best`: this presence or the other one. -/
def determineBest (t : Tree δ) (p : Path) (this other : δ) : δ :=
  match t.files this p, t.files other p with
  | some f, some g => if compare f.info g.info ≥ 0 then this else other
  | _, _ => other

/-- `recalc_best`, the result. -/
def recalcBest (t : Tree δ) (p : Path) : Option δ :=
  if (t.parent p).isSome then
    ((t.presences p).filterMap id).foldl (fun best d => some (best.elim d fun b => t.determineBest p d b)) none
  else none

/-! ## `push_stats` -/

/-- The step of `push_stats` for one entity. -/
def bump (t : Tree δ) (diff : Stats) (source : Option δ) (best : Bool) (p : Path) : Tree δ :=
  let t := if best then { t with statistics := Function.update t.statistics p (t.statistics p + diff) } else t
  if source ≠ none ∧ source ∈ t.presences p then t.setCounted source p (t.counted source p + diff) else t

/-- `push_stats`. It ends early where the source has no presence. -/
def pushStats (diff : Stats) (source : Option δ) (best : Bool) : Path → Tree δ → Tree δ
  | [], t => t.bump diff source best []
  | n :: p, t =>
    let t := t.bump diff source best (n :: p)
    if (source = none ∨ source ∈ t.presences (n :: p)) ∧ n ∈ t.children p then pushStats diff source best p t else t

/-! ## Presences and entities that appear -/

/-- `presence_t::set_parent`: the presence of a device gets its parent, and so do those below it that have none. -/
def setParent : Nat → Path → δ → Tree δ → Tree δ
  | fuel + 1, n :: p, d, t =>
    if some d ∈ t.presences p then
      let t := pushStats (t.counted (some d) (n :: p)) (some d) false p (t.setLinked (some d) (n :: p) true)
      (t.children (n :: p)).foldl (fun t m =>
        if some d ∈ t.presences (m :: n :: p) ∧ t.linked (some d) (m :: n :: p) = false then
          setParent fuel (m :: n :: p) d t
        else t) t
    else t
  | _, _, _, t => t

/-- The constructor of `file_entity_t`: the missing presence, and one for each device that has the file. -/
def create (t : Tree δ) (p : Path) : Tree δ :=
  let stats (k : Option δ) : Stats :=
    k.elim 0 fun d => if d ∈ t.devices then ((t.files d p).map refreshOwnStats).getD 0 else 0
  { t with
    orphans := t.orphans.erase p
    children := Function.update t.children p []
    presences := Function.update t.presences p
      (none :: (t.devices.filter fun d => (t.files d p).isSome).map some)
    best := Function.update t.best p none
    statistics := Function.update t.statistics p 0
    own := fun k => Function.update (t.own k) p (stats k)
    counted := fun k => Function.update (t.counted k) p (stats k)
    linked := fun k => Function.update (t.linked k) p false
    height := max t.height p.length }

/-- `add_child`. The children are ordered by their names. -/
def addChild (t : Tree δ) (p : Path) (n : String) : Tree δ :=
  let t := t.setChildren p ((t.children p).orderedInsert (· ≤ ·) n)
  ((t.presences (n :: p)).filterMap id).foldl (fun t d => setParent (t.height + 1) (n :: p) d t) t

/-- An orphan is added to its parent. -/
def adopt (t : Tree δ) : Path → Tree δ
  | [] => t
  | n :: p => { t with orphans := t.orphans.erase (n :: p) }.addChild p n

/-- `reap_children`: the orphans that the entities of a queue are the parents of. -/
def reapChildren : Nat → List Path → Tree δ → Tree δ
  | fuel + 1, item :: queue, t =>
    let found := t.orphans.filter fun q => q ≠ [] ∧ q.tail = item
    reapChildren fuel (queue ++ found) (found.foldl adopt t)
  | _, _, t => t

/-- `commit`, one entity. -/
def commitAt (t : Tree δ) (p : Path) : Tree δ :=
  match t.recalcBest p with
  | some b => pushStats (-t.weight p + t.own (some b) p) none true p (t.setBest p (some b))
  | none => t.setBest p none

/-- `commit`: the children first, as far as the device has presences. -/
def commit : Nat → δ → Path → Tree δ → Tree δ
  | fuel + 1, d, p, t =>
    if some d ∈ t.presences p then
      ((t.children p).foldl (fun t n => commit fuel d (n :: p) t) t).commitAt p
    else t
  | 0, _, _, t => t

/-- `file_entity_t::on_insert`. -/
def fileInsert (t : Tree δ) (p : Path) (d : δ) : Tree δ :=
  if some d ∈ t.presences p then t
  else
    let stats := ((t.files d p).map refreshOwnStats).getD 0
    let t := ({ t with presences := Function.update t.presences p (t.presences p ++ [some d]) } : Tree δ)
    let t := ((t.setOwn (some d) p stats).setCounted (some d) p stats).setLinked (some d) p false
    if (t.parent p).isSome then setParent (t.height + 1) p d t else t

/-- The entity hangs below the folder. -/
def attached (t : Tree δ) : Path → Bool
  | [] => true
  | n :: p => n ∈ t.children p && t.attached p

/-- `folder_entity_t::on_insert` of a file. -/
def folderInsert (t : Tree δ) (d : δ) : Path → Tree δ
  | [] => t
  | n :: p =>
    if t.attached (n :: p) then commit (t.height + 1) d (n :: p) (t.fileInsert (n :: p) d)
    else if t.attached p then
      let t := (t.create (n :: p)).addChild p n
      let t := reapChildren (t.orphans.length + 1) [n :: p] t
      let t := commit (t.height + 1) d (n :: p) t
      t.setBest [] (t.recalcBest [])
    else if n :: p ∈ t.orphans then t.fileInsert (n :: p) d
    else
      let t := t.create (n :: p)
      { t with orphans := t.orphans ++ [n :: p] }

/-! ## Updates -/

/-- `cluster_file_presence_t::on_update`. Without a best presence a null pointer is dereferenced. -/
def onUpdate (t : Tree δ) (p : Path) (d : δ) : Option (Tree δ) :=
  let presenceDiff := ((t.files d p).map refreshOwnStats).getD 0 - t.own (some d) p
  let entityStats := t.statistics p
  let prevBest := t.best p
  (t.recalcBest p).map fun newBest =>
    let bestChanged := prevBest ≠ some newBest ∧ newBest = d
    let bestUpdated := ¬ bestChanged ∧ d = newBest
    let t := pushStats presenceDiff (some d) (decide bestUpdated) p (t.setBest p (some newBest))
    let t := t.setOwn (some d) p (t.own (some d) p + presenceDiff)
    if bestChanged then pushStats (t.counted (some d) p - entityStats) none true p t else t

/-! ## Presences and entities that disappear -/

/-- A presence is destroyed. -/
def forget (t : Tree δ) (p : Path) (k : Option δ) : Tree δ :=
  let t := ({ t with presences := Function.update t.presences p ((t.presences p).erase k) } : Tree δ)
  ((t.setOwn k p 0).setCounted k p 0).setLinked k p false

/-- `remove_presense`, the presence itself. -/
def dropPresence (t : Tree δ) (p : Path) (k : Option δ) : Tree δ :=
  let stats := t.own k p
  let restat := k ≠ none ∧ t.best p = k
  let t := (pushStats (-stats) k false p t).forget p k
  if restat then
    let best := t.recalcBest p
    pushStats (-stats + best.elim 0 fun b => t.own (some b) p) none true p (t.setBest p best)
  else t

/-- A child leaves its parent. -/
def eraseChild (t : Tree δ) (p : Path) (n : String) : Tree δ := t.setChildren p ((t.children p).erase n)

/-- `detach_child`: everything below the entity goes, then its presences, the missing one first. -/
def detachChild : Nat → Path → Tree δ → Tree δ
  | fuel + 1, p, t =>
    let t := (t.children p).foldl (fun t n => (detachChild fuel (n :: p) t).eraseChild p n) t
    (t.presences p).foldl (fun t k => t.dropPresence p k) t
  | 0, _, t => t

/-- `remove_presense`. What the device has below goes first, with the entities that nobody has any more. If
only the missing presence is left, it goes, too. In the source a child is not among its siblings
meanwhile, so that it does not detach itself. -/
def removePresence : Nat → Path → Option δ → Tree δ → Tree δ
  | fuel + 1, p, k, t =>
    let strip (k : Option δ) (t : Tree δ) : Tree δ :=
      ((t.children p).foldl (fun t n =>
        if k ∈ t.presences (n :: p) then
          let t := removePresence fuel (n :: p) k t
          if t.presences (n :: p) = [] then (detachChild (t.height + 1) (n :: p) t).eraseChild p n else t
        else t) t).dropPresence p k
    let t := strip k t
    if t.presences p = [none] then strip none t else t
  | 0, _, _, t => t

/-- `clear_presense` of a file or a folder that is gone. An entity that nobody has any more is detached. -/
def clearPresence (t : Tree δ) (p : Path) (d : δ) : Tree δ :=
  let t := removePresence (t.height + 1) p (some d) t
  match p with
  | [] => t
  | n :: q =>
    if t.presences (n :: q) = [] ∧ n ∈ t.children q then (detachChild (t.height + 1) (n :: q) t).eraseChild q n
    else t

/-! ## Events -/

/-- A file appears in the model.-/
def setFile (t : Tree δ) (d : δ) (p : Path) (f : Option File) : Tree δ :=
  { t with files := Function.update t.files d (Function.update (t.files d) p f) }

end Tree

/-- What happens to a folder: a file of a device appears in the model, it is presented, it is
updated, it is gone, or the folder of the device is gone. -/
inductive Event (δ : Type) where
  | add (d : δ) (p : Path) (f : File)
  | insert (d : δ) (p : Path)
  | update (d : δ) (p : Path) (f : File)
  | remove (d : δ) (p : Path)
  | removeFolder (d : δ)

namespace Tree

variable {δ : Type} [DecidableEq δ]

/-- One event; `none` if it is not possible. -/
def step (t : Tree δ) : Event δ → Option (Tree δ)
  | .add d p f => if d ∈ t.devices ∧ t.files d p = none ∧ p ≠ [] then some (t.setFile d p (some f)) else none
  | .insert d p => if d ∈ t.devices ∧ t.files d p ≠ none then some (t.folderInsert d p) else none
  | .update d p f =>
    if t.files d p ≠ none then
      let t := t.setFile d p (some f)
      if some d ∈ t.presences p then t.onUpdate p d else some t
    else none
  | .remove d p =>
    if t.files d p ≠ none then
      let t := t.setFile d p none
      some (if some d ∈ t.presences p then t.clearPresence p d else t)
    else none
  | .removeFolder d =>
    if d ∈ t.devices then some ({ t with devices := t.devices.erase d }.clearPresence [] d) else none

/-- A folder without files that some devices share (`folder_entity_t`, the constructor). -/
def initial (devices : List δ) : Tree δ where
  files _ _ := none
  devices := devices
  orphans := []
  children _ := []
  presences p := if p = [] then devices.map some else []
  best _ := none
  statistics _ := 0
  own _ _ := 0
  counted _ _ := 0
  linked _ _ := false
  height := 0

end Tree

end Presentation

end SyncSpirit
