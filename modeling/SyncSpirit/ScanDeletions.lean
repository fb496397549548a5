import SyncSpirit.Lib.Postorder
import SyncSpirit.Proto

/-!
# Deletions that a scan finds (`net/local_keeper/folder_context.cpp`)

A scan that does not find a directory any more emits a deletion for it and for everything that this
device has below it. `process(removed_dir_t)` walks over the presences with a list that it uses as a
stack. An entry with children stays there until they are done, and is marked as processed for that time. So
what is emitted is the post-order of the local presences (`removedDir_spec`).

What other devices have deleted, and what this device has never had, is imported at the end of a scan of the
directory above. `import_loop` takes its entities from one end of a list and drops them at the
other one. That is the same for a list of one element, and `imports_iff` says that it is right for nothing else.
-/

namespace SyncSpirit

namespace ScanDeletions

/-- The bits of `presence_t::features_t` that are read here. -/
structure Features where
  isLocal : Bool
  directory : Bool
  deleted : Bool
  deriving DecidableEq, Repr

/-- The arguments of a `local_update_t`. -/
structure LocalUpdate where
  data : Proto.FileInfo
  folderId : String

/-! ## `process(removed_dir_t)` -/

/-- The presences of a folder by their addresses. `children` is what `get_children` returns for this device:
for each child of the entity its presence here, or the missing one. `asProto` is `as_proto` of the file. -/
structure Presences (P : Type) where
  features : P → Features
  children : P → List P
  asProto : P → Bool → Proto.FileInfo
  height : P → Nat
  trees : Forest.Trees children height

namespace Presences

variable {P : Type} [DecidableEq P] (t : Presences P)

/-- `removed_dir_t`: a directory that this device has had. -/
structure RemovedDir where
  presence : P
  isLocal : (t.features presence).isLocal = true

/-- The lambda `get_children`: the set `processed` and, at the first visit, the children. -/
def getChildren (processed : Finset P) (p : P) : Finset P × Option (List P) :=
  if (t.features p).isLocal || (t.features p).directory then
    if p ∈ processed then (processed.erase p, none)
    else if t.children p ≠ [] then (insert p processed, some (t.children p))
    else (processed, none)
  else (processed, none)

def deletion (folderId : String) (p : P) : LocalUpdate := ⟨{ t.asProto p false with deleted := true }, folderId⟩

/-- The loop, with what it emits. Pushing the children in reverse order leaves them in front in order. -/
def walk (folderId : String) : Nat → List P → Finset P → Option (List LocalUpdate)
  | _, [], _ => some []
  | 0, _ :: _, _ => none
  | fuel + 1, item :: queue, processed =>
    match t.getChildren processed item with
    | (processed, some children) =>
      walk folderId fuel (children.filter (fun c => (t.features c).isLocal) ++ item :: queue) processed
    | (processed, none) => (walk folderId fuel queue processed).map (t.deletion folderId item :: ·)

/-- `process(removed_dir_t)`. -/
def processRemovedDir (folderId : String) (fuel : Nat) (item : t.RemovedDir) : Option (List LocalUpdate) :=
  t.walk folderId fuel [item.presence] ∅

/-- The children that this device has. -/
def localChildren (p : P) : List P := (t.children p).filter fun c => (t.features c).isLocal

variable {t}

omit [DecidableEq P] in
theorem localTrees : Forest.Trees t.localChildren t.height := t.trees.filter _

/-- The first visit of an entry with children. -/
theorem walk_enter {folderId : String} {p : P} (hp : (t.features p).isLocal = true) (hc : t.children p ≠ [])
    {processed : Finset P} (hnew : p ∉ processed) (fuel : Nat) (queue : List P) :
    t.walk folderId (fuel + 1) (p :: queue) processed =
      t.walk folderId fuel (t.localChildren p ++ p :: queue) (insert p processed) := by
  rw [walk, getChildren, if_pos (by simp [hp]), if_neg hnew, if_pos hc]
  rfl

/-- The second visit. -/
theorem walk_leave {folderId : String} {p : P} (hp : (t.features p).isLocal = true) {processed : Finset P}
    (hnew : p ∉ processed) (fuel : Nat) (queue : List P) :
    t.walk folderId (fuel + 1) (p :: queue) (insert p processed) =
      (t.walk folderId fuel queue processed).map (t.deletion folderId p :: ·) := by
  rw [walk, getChildren, if_pos (by simp [hp]), if_pos (Finset.mem_insert_self ..), Finset.erase_insert hnew]

/-- The only visit of an entry without children. -/
theorem walk_leaf {folderId : String} {p : P} (hc : t.children p = []) {processed : Finset P}
    (hnew : p ∉ processed) (fuel : Nat) (queue : List P) :
    t.walk folderId (fuel + 1) (p :: queue) processed =
      (t.walk folderId fuel queue processed).map (t.deletion folderId p :: ·) := by
  have hnone : t.getChildren processed p = (processed, none) := by
    unfold getChildren
    rw [if_neg hnew, if_neg (not_not.mpr hc), ite_self]
  rw [walk, hnone]

/-- Siblings are walked over one after another, if each of them is. -/
theorem walk_siblings {folderId : String} {order : P → List P} {processed : Finset P} {siblings : List P}
    (h : ∀ p ∈ siblings, ∀ queue, ∃ steps, ∀ fuel, t.walk folderId (fuel + steps) (p :: queue) processed =
      (t.walk folderId fuel queue processed).map ((order p).map (t.deletion folderId) ++ ·)) (queue : List P) :
    ∃ steps, ∀ fuel, t.walk folderId (fuel + steps) (siblings ++ queue) processed =
      (t.walk folderId fuel queue processed).map ((siblings.flatMap order).map (t.deletion folderId) ++ ·) := by
  induction siblings with
  | nil => exact ⟨0, fun fuel => by simp⟩
  | cons p siblings ih =>
    obtain ⟨rest, hrest⟩ := ih fun q hq => h q (List.mem_cons_of_mem _ hq)
    obtain ⟨steps, hsteps⟩ := h p (List.mem_cons_self ..) (siblings ++ queue)
    refine ⟨rest + steps, fun fuel => ?_⟩
    rw [← Nat.add_assoc, List.cons_append, hsteps, hrest, Option.map_map, List.flatMap_cons, List.map_append]
    congr 1
    funext out
    exact (List.append_assoc ..).symm

/-- An entry leaves the list when everything below it is emitted, and `processed` is as before. -/
theorem walk_item (folderId : String) {n : Nat} {p : P} (hn : t.height p ≤ n) (hp : (t.features p).isLocal = true)
    {processed : Finset P} (hnew : ∀ x, Forest.Below t.localChildren p x → x ∉ processed) (queue : List P) :
    ∃ steps, ∀ fuel, t.walk folderId (fuel + steps) (p :: queue) processed =
      (t.walk folderId fuel queue processed).map
        ((Forest.postorder t.localChildren n p).map (t.deletion folderId) ++ ·) := by
  induction n generalizing p processed queue with
  | zero =>
    have hc : t.children p = [] := by
      refine List.eq_nil_iff_forall_not_mem.mpr fun c hc => ?_
      have := t.trees.height_lt hc
      omega
    exact ⟨1, fun fuel => walk_leaf hc (hnew p .self) fuel queue⟩
  | succ n ih =>
    by_cases hc : t.children p = []
    · refine ⟨1, fun fuel => ?_⟩
      rw [walk_leaf hc (hnew p .self), Forest.postorder, localChildren, hc]
      rfl
    · -- the children are walked over while `p` is marked, which is not below any of them
      have hchildren : ∀ c ∈ t.localChildren p, ∀ queue, ∃ steps, ∀ fuel,
          t.walk folderId (fuel + steps) (c :: queue) (insert p processed) =
            (t.walk folderId fuel queue (insert p processed)).map
              ((Forest.postorder t.localChildren n c).map (t.deletion folderId) ++ ·) := by
        intro c hc queue
        have hheight := localTrees.height_lt hc
        refine ih (by omega) (List.mem_filter.mp hc).2 (fun x hx => ?_) queue
        rw [Finset.mem_insert, not_or]
        constructor
        · rintro rfl
          rcases localTrees.below_height hx with rfl | hlt
          · exact lt_irrefl _ hheight
          · exact Nat.lt_asymm hheight hlt
        · exact hnew x (Forest.below_iff.mpr (.inr ⟨c, hc, hx⟩))
      obtain ⟨steps, hsteps⟩ := walk_siblings hchildren (p :: queue)
      refine ⟨1 + steps + 1, fun fuel => ?_⟩
      rw [← Nat.add_assoc, walk_enter hp hc (hnew p .self), ← Nat.add_assoc, hsteps, walk_leave hp (hnew p .self),
        Option.map_map, Forest.postorder, List.map_append]
      congr 1
      funext out
      simp

/-- A directory with a directory of one file, and with a file that only other devices have. -/
def removedTree : Presences (Fin 4) where
  features p := ⟨p ≠ 3, p = 0 ∨ p = 1, false⟩
  children p := if p = 0 then [1, 3] else if p = 1 then [2] else []
  asProto p _ := { (default : Proto.FileInfo) with name := toString p }
  height p := if p = 0 then 2 else if p = 1 then 1 else 0
  trees := ⟨by decide, by decide, by decide⟩

end Presences

/-! ## The end of `post_process(scan_dir_t)` -/

/-- The entities of a folder. `best` has the features of the best presence, and `asProto` is `as_proto` of its file;
`isRecorded` says if this device has a presence. There is no disk here: a child that is on disk and has no presence
of this device counts as one to import. -/
structure Entities (E : Type) where
  children : E → List E
  best : E → Features
  asProto : E → Bool → Proto.FileInfo
  isRecorded : E → Bool
  height : E → Nat
  trees : Forest.Trees children height

namespace Entities

variable {E : Type} (t : Entities E)

/-- The child is in `checked_children`: of a name on disk only the presence of this device is found, and of the
children that are not on disk those with a presence of this device are added. -/
def checked (c : E) : Bool := t.isRecorded c

/-- The list before the loop. -/
def importQueue (dir : E) : List E := (t.children dir).filter fun c => !t.checked c && (t.best c).deleted

/-- What the loop adds for an entity. It asks for each child if the best presence of the entity itself is
deleted. -/
def pushed (e : E) : List E :=
  if (t.best e).directory then (t.children e).filter fun _ => (t.best e).deleted else []

/-- The loop: `front()` and `pop_back()`. These are the entities it imports, in order. -/
def importLoop : Nat → List E → Option (List E)
  | _, [] => some []
  | 0, _ :: _ => none
  | fuel + 1, e :: queue => (importLoop fuel ((e :: queue).dropLast ++ t.pushed e)).map (e :: ·)

/-- The updates that are emitted. -/
def importDeleted (folderId : String) (fuel : Nat) (dir : E) : Option (List LocalUpdate) :=
  (t.importLoop fuel (t.importQueue dir)).map fun order => order.map fun e => ⟨t.asProto e true, folderId⟩

/-- The children whose best presence is deleted. -/
def deletedChildren (p : E) : List E := (t.children p).filter fun c => (t.best c).deleted

/-- The entity is not on disk and was never here, its best presence is deleted, and so it is up to the scanned
directory. -/
def Importable (dir e : E) : Prop := ∃ c ∈ t.importQueue dir, Forest.Below t.deletedChildren c e

/-- The loop ends, each importable entity is imported once, and no entity whose best presence is not deleted. -/
def Imports [DecidableEq E] (dir : E) : Prop :=
  ∃ fuel order, t.importLoop fuel (t.importQueue dir) = some order ∧
    (∀ e, t.Importable dir e → order.count e = 1) ∧ ∀ e ∈ order, (t.best e).deleted = true

/-- The entity is all there is to import, or it is a directory with one child, which is deleted,
and of which the same holds. -/
inductive Chain : E → Prop
  | file {e : E} : (t.best e).directory = false → t.deletedChildren e = [] → Chain e
  | empty {e : E} : (t.best e).directory = true → t.children e = [] → Chain e
  | directory {e c : E} : (t.best e).directory = true → t.children e = [c] → (t.best c).deleted = true →
      Chain c → Chain e

/-- There is at most one entity to import, and below it no second one next to another. -/
def AtMostOne (dir : E) : Prop :=
  t.importQueue dir = [] ∨ ∃ e, t.importQueue dir = [e] ∧ t.Chain e

variable {t}

theorem deletedTrees : Forest.Trees t.deletedChildren t.height := t.trees.filter _

theorem deleted_of_mem_importQueue {dir e : E} (h : e ∈ t.importQueue dir) : (t.best e).deleted = true := by
  have hcond := (List.mem_filter.mp h).2
  rw [Bool.and_eq_true] at hcond
  exact hcond.2

theorem deleted_of_below {e x : E} (he : (t.best e).deleted = true) (h : Forest.Below t.deletedChildren e x) :
    (t.best x).deleted = true := by
  cases h with
  | self => exact he
  | child _ hx => exact (List.mem_filter.mp hx).2

theorem pushed_of_deleted {e : E} (h : (t.best e).deleted = true) :
    t.pushed e = if (t.best e).directory then t.children e else [] := by
  rw [pushed, h, List.filter_true]

/-- One round. -/
theorem importLoop_cons {fuel : Nat} {e : E} {queue order : List E} (h : t.importLoop fuel (e :: queue) = some order) :
    ∃ fuel' rest, t.importLoop fuel' ((e :: queue).dropLast ++ t.pushed e) = some rest ∧ order = e :: rest := by
  cases fuel with
  | zero => cases h
  | succ fuel =>
    obtain ⟨rest, hrest, rfl⟩ := Option.map_eq_some_iff.mp h
    exact ⟨fuel, rest, hrest, rfl⟩

/-- **The defect**: of two elements the first one stays, and is imported again. -/
theorem importLoop_twice {fuel : Nat} {e d : E} {queue order : List E}
    (h : t.importLoop fuel (e :: d :: queue) = some order) : ∃ rest, order = e :: e :: rest := by
  obtain ⟨fuel', rest, hrest, rfl⟩ := importLoop_cons h
  rw [List.dropLast_cons_cons, List.cons_append] at hrest
  obtain ⟨-, rest', -, rfl⟩ := importLoop_cons hrest
  exact ⟨rest', rfl⟩

/-- A chain is imported from above, each entity once. -/
theorem Chain.importLoop [DecidableEq E] {e : E} (h : t.Chain e) (he : (t.best e).deleted = true) :
    ∃ fuel order, t.importLoop fuel [e] = some order ∧ order.Nodup ∧
      ∀ x, x ∈ order ↔ Forest.Below t.deletedChildren e x := by
  have hleaf : ∀ {e : E}, t.pushed e = [] → t.deletedChildren e = [] →
      ∃ fuel order, t.importLoop fuel [e] = some order ∧ order.Nodup ∧
        ∀ x, x ∈ order ↔ Forest.Below t.deletedChildren e x := by
    intro e hpushed hnone
    refine ⟨1, [e], ?_, List.nodup_singleton e, fun x => ?_⟩
    · rw [Entities.importLoop, hpushed]
      rfl
    · rw [Forest.below_iff, hnone, List.mem_singleton]
      simp
  induction h with
  | file hdir hnone => exact hleaf (by rw [pushed_of_deleted he, hdir]; rfl) hnone
  | empty hdir hnone =>
    refine hleaf (by rw [pushed_of_deleted he, hdir, hnone]; rfl) ?_
    rw [deletedChildren, hnone, List.filter_nil]
  | @directory e c hdir hone hdeleted _ ih =>
    obtain ⟨fuel, order, hrun, hnodup, hmem⟩ := ih hdeleted
    have hchildren : t.deletedChildren e = [c] := by
      rw [deletedChildren, hone, List.filter_singleton, hdeleted]
      rfl
    refine ⟨fuel + 1, e :: order, ?_, List.nodup_cons.mpr ⟨fun he' => ?_, hnodup⟩, fun x => ?_⟩
    · rw [Entities.importLoop, pushed_of_deleted he, hdir, if_pos rfl, hone]
      show (t.importLoop fuel [c]).map _ = _
      rw [hrun]
      rfl
    · have hbelow := (hmem e).mp he'
      have hlt := deletedTrees.height_lt (hchildren ▸ List.mem_singleton_self c : c ∈ t.deletedChildren e)
      rcases deletedTrees.below_height hbelow with rfl | hlt'
      · exact lt_irrefl _ hlt
      · exact Nat.lt_asymm hlt hlt'
    · rw [Forest.below_iff, hchildren, List.mem_cons, hmem]
      simp

/-- A run that imports everything below an entity once has been over a chain. -/
theorem chain_of_importLoop [DecidableEq E] {n : Nat} {e : E} (hn : t.height e < n) {fuel : Nat} {order : List E}
    (hrun : t.importLoop fuel [e] = some order)
    (honce : ∀ x, Forest.Below t.deletedChildren e x → order.count x = 1)
    (hdeleted : ∀ x ∈ order, (t.best x).deleted = true) : t.Chain e := by
  induction n generalizing e fuel order with
  | zero => exact absurd hn (Nat.not_lt_zero _)
  | succ n ih =>
    obtain ⟨fuel', rest, hrest, rfl⟩ := importLoop_cons hrun
    rw [List.dropLast_singleton, List.nil_append, pushed_of_deleted (hdeleted e (List.mem_cons_self ..))] at hrest
    -- something else below the entity has to be in the rest
    have hbelow : ∀ x, Forest.Below t.deletedChildren e x → x ≠ e → rest.count x = 1 := by
      intro x hx hne
      have := honce x hx
      rwa [List.count_cons_of_ne hne.symm] at this
    have hchild : ∀ c ∈ t.deletedChildren e, c ≠ e := by
      rintro c hc rfl
      exact lt_irrefl _ (deletedTrees.height_lt hc)
    cases hdir : (t.best e).directory with
    | false =>
      rw [hdir, if_neg Bool.false_ne_true] at hrest
      refine .file hdir (List.eq_nil_iff_forall_not_mem.mpr fun c hc => ?_)
      have hcount := hbelow c (.child .self hc) (hchild c hc)
      cases fuel' <;> cases hrest <;> cases hcount
    | true =>
      rw [hdir, if_pos rfl] at hrest
      cases hc : t.children e with
      | nil => exact .empty hdir hc
      | cons c siblings =>
        rw [hc] at hrest
        have hmem : c ∈ t.children e := hc ▸ List.mem_cons_self ..
        obtain ⟨-, rest', -, hrest'⟩ := importLoop_cons hrest
        have hcdeleted : (t.best c).deleted = true :=
          hdeleted c (List.mem_cons_of_mem _ (hrest' ▸ List.mem_cons_self ..))
        have hcmem : c ∈ t.deletedChildren e := List.mem_filter.mpr ⟨hmem, hcdeleted⟩
        cases siblings with
        | nil =>
          refine .directory hdir hc hcdeleted (ih ?_ hrest (fun x hx => ?_) fun x hx =>
            hdeleted x (List.mem_cons_of_mem _ hx))
          · have := t.trees.height_lt hmem
            omega
          · refine hbelow x (Forest.below_iff.mpr (.inr ⟨c, hcmem, hx⟩)) ?_
            rintro rfl
            have hlt := deletedTrees.height_lt hcmem
            rcases deletedTrees.below_height hx with rfl | hlt'
            · exact lt_irrefl _ hlt
            · exact Nat.lt_asymm hlt hlt'
        | cons d siblings =>
          obtain ⟨rest'', rfl⟩ := importLoop_twice hrest
          have hcount := hbelow c (.child .self hcmem) (hchild c hcmem)
          rw [List.count_cons_self, List.count_cons_self] at hcount
          omega

/-- **One entity at most**: the loop imports what it should if and only if there is no second entity next to
another. -/
theorem imports_iff [DecidableEq E] (t : Entities E) (dir : E) : t.Imports dir ↔ t.AtMostOne dir := by
  constructor
  · rintro ⟨fuel, order, hrun, honce, hdeleted⟩
    cases hqueue : t.importQueue dir with
    | nil => exact .inl hqueue
    | cons e queue =>
      have hone : ∀ x, Forest.Below t.deletedChildren e x → order.count x = 1 := by
        intro x hx
        exact honce x ⟨e, hqueue ▸ List.mem_cons_self .., hx⟩
      rw [hqueue] at hrun
      cases queue with
      | nil => exact .inr ⟨e, hqueue, chain_of_importLoop (Nat.lt_succ_self _) hrun hone hdeleted⟩
      | cons d queue =>
        obtain ⟨rest, rfl⟩ := importLoop_twice hrun
        have hcount := hone e .self
        rw [List.count_cons_self, List.count_cons_self] at hcount
        omega
  · rintro (hqueue | ⟨e, hqueue, hchain⟩)
    · refine ⟨0, [], by rw [hqueue]; rfl, ?_, fun e he => absurd he List.not_mem_nil⟩
      rintro e ⟨c, hc, -⟩
      rw [hqueue] at hc
      exact absurd hc List.not_mem_nil
    · have he : (t.best e).deleted = true :=
        deleted_of_mem_importQueue (hqueue ▸ List.mem_singleton_self e : e ∈ t.importQueue dir)
      obtain ⟨fuel, order, hrun, hnodup, hmem⟩ := hchain.importLoop he
      refine ⟨fuel, order, by rw [hqueue, hrun], ?_, fun x hx => ?_⟩
      · rintro x ⟨c, hc, hx⟩
        rw [hqueue, List.mem_singleton] at hc
        subst hc
        exact List.count_eq_one_of_mem hnodup ((hmem x).mpr hx)
      · exact deleted_of_below he ((hmem x).mp hx)

/-- A directory with two entities below it. -/
def twoDeleted : Entities (Fin 3) where
  children e := if e = 0 then [1, 2] else []
  best e := ⟨false, e = 0, e ≠ 0⟩
  asProto _ _ := default
  isRecorded e := e = 0
  height e := if e = 0 then 1 else 0
  trees := ⟨by decide, by decide, by decide⟩

/-- Of two files that other devices have deleted one is imported twice, and the other one never. -/
theorem imports_twice : ¬ ∀ (E : Type) [DecidableEq E] (t : Entities E) (dir : E), t.Imports dir := by
  intro h
  obtain ⟨fuel, order, hrun, honce, -⟩ := h (Fin 3) twoDeleted 0
  obtain ⟨rest, rfl⟩ := importLoop_twice (show twoDeleted.importLoop fuel [1, 2] = _ from hrun)
  have hcount := honce 1 ⟨1, by decide, .self⟩
  rw [List.count_cons_self, List.count_cons_self] at hcount
  omega

end Entities

end ScanDeletions

end SyncSpirit
