import SyncSpirit.FileIteratorSpec

/-!
# The pull order (`model/misc/file_iterator.cpp`)

`file_comparator_t` compares whether there are blocks, then what the pull order asks for, then the names. A queue is a
set with this comparison: of files that are equivalent it would keep one only. Files with different names are not
equivalent (`differ`), so a queue keeps all of them (`insertAll_perm`), and so does `on_upsert` when it fills a new
set because the order is another one (`upsertFolder_perm`).
-/

namespace SyncSpirit

namespace FileIterator

variable {order : PullOrder} {s : Store}

/-- Files with different names. -/
def Differ (s : Store) (f g : FileId) : Prop := (s.files f).name ≠ (s.files g).name

theorem irrefl (f : FileId) : fileComparator order s f f = false := by
  rw [← Bool.not_eq_true, compares order s]
  exact lt_irrefl _

theorem trans {f g h : FileId} (hfg : fileComparator order s f g = true) (hgh : fileComparator order s g h = true) :
    fileComparator order s f h = true := by
  rw [compares order s] at hfg hgh ⊢
  exact hfg.trans hgh

/-- One of two files with different names comes first. -/
theorem differ {f g : FileId} (hne : Differ s f g) :
    fileComparator order s f g = !fileComparator order s g f := by
  have hkey : sortKey order s f ≠ sortKey order s g := fun h => hne (name_of_sortKey h)
  rcases lt_or_gt_of_ne hkey with hlt | hgt
  · rw [(compares order s f g).mpr hlt, eq_comm, Bool.not_eq_true', ← Bool.not_eq_true, compares order s]
    exact hlt.not_gt
  · rw [(compares order s g f).mpr hgt, Bool.not_true, ← Bool.not_eq_true, compares order s]
    exact hgt.not_gt

theorem empty_first {f g : FileId} (hf : (s.files f).totalBlocks = 0) (hg : (s.files g).totalBlocks ≠ 0) :
    fileComparator order s f g = true := by
  unfold fileComparator
  exact if_pos ⟨hf, hg⟩

/-- **A queue** of files with different names has all of them. -/
theorem insertAll_perm {files : List FileId} (hdiffer : files.Pairwise (Differ s)) :
    (SortedSet.insertAll (fileComparator order s) [] files).Perm files := by
  have hnodup : files.Nodup := hdiffer.imp fun {f g} hne heq => hne (by rw [heq])
  have hsorted : SortedSet.Sorted (fileComparator order s) (SortedSet.insertAll (fileComparator order s) [] files) :=
    SortedSet.sorted_insertAll (compares order s) SortedSet.sorted_nil
  refine (List.perm_ext_iff_of_nodup (hsorted.nodup (compares order s)) hnodup).mpr fun f => ?_
  have hinj : ∀ f ∈ files, ∀ g, g ∈ [] ∨ g ∈ files → sortKey order s g = sortKey order s f → g = f := by
    intro f hf g hg heq
    have hnames : (files.map fun f => (s.files f).name).Nodup := List.pairwise_map.mpr hdiffer
    exact List.inj_on_of_nodup_map hnames (hg.resolve_left List.not_mem_nil) hf (name_of_sortKey heq)
  rw [SortedSet.mem_insertAll (compares order s) hinj]
  simp

/-- **Another pull order** keeps the files of the queue. -/
theorem upsertFolder_perm (w : Scene) {it : FolderIterator} (hdiffer : it.queue.Pairwise (Differ w.store))
    (hreceives : w.receives (w.folderOf it.peerFolder) = true) (hcan : it.canReceive = true) :
    (it.upsertFolder w).queue.Perm it.queue := by
  have hqueue : (it.upsertFolder w).queue = if it.order ≠ (w.folders (w.folderOf it.peerFolder)).pullOrder then
      SortedSet.insertAll (fileComparator (w.folders (w.folderOf it.peerFolder)).pullOrder w.store) [] it.queue
      else it.queue := by
    unfold FolderIterator.upsertFolder
    dsimp only
    rw [if_pos hreceives, hcan]
    show (if it.order ≠ _ then _ else it : FolderIterator).queue = _
    split <;> rfl
  rw [hqueue]
  split
  · exact insertAll_perm hdiffer
  · exact .refl _

/-- **The comparator** is a strict total order on files with different names, files without blocks come first, and
neither a queue nor a change of the order loses a file. -/
theorem pullOrder_total (order : PullOrder) (s : Store) :
    (∀ f, fileComparator order s f f = false) ∧
    (∀ f g h, fileComparator order s f g = true → fileComparator order s g h = true →
      fileComparator order s f h = true) ∧
    (∀ f g, Differ s f g → fileComparator order s f g = !fileComparator order s g f) ∧
    (∀ f g, (s.files f).totalBlocks = 0 → (s.files g).totalBlocks ≠ 0 → fileComparator order s f g = true) ∧
    (∀ files : List FileId, files.Pairwise (Differ s) →
      (SortedSet.insertAll (fileComparator order s) [] files).Perm files) ∧
    ∀ (w : Scene) (it : FolderIterator), w.store = s → it.queue.Pairwise (Differ s) →
      w.receives (w.folderOf it.peerFolder) = true → it.canReceive = true → (it.upsertFolder w).queue.Perm it.queue := by
  refine ⟨irrefl, fun f g h => trans, fun f g => differ, fun f g => empty_first, fun files => insertAll_perm, ?_⟩
  rintro w it rfl hdiffer hreceives hcan
  exact upsertFolder_perm w hdiffer hreceives hcan

/-- Two files that differ in their names only. -/
def twoFiles : Store :=
  { Store.initial fun _ => default with
    files := fun f => { (default : FileInfo) with name := if f = 0 then "b" else "a" } }

theorem pullOrder_total_of_two :
    (SortedSet.insertAll (fileComparator .largest twoFiles) [] [0, 1]).Perm [0, 1] :=
  (pullOrder_total .largest twoFiles).2.2.2.2.1 [0, 1]
    (List.pairwise_pair.mpr (show (twoFiles.files 0).name ≠ (twoFiles.files 1).name by decide))

end FileIterator

end SyncSpirit
