import SyncSpirit.FileIterator
import SyncSpirit.Renewal

/-!
# The queues of the file iterator

The comparator compares keys (`compares`), and two files of a folder info have different
ones. So a queue is in order, and has no file twice, as long as the keys of its files do not
change (`FolderIterator.Holds`).

Then one spec lemma for each operation: which files are in the queue afterwards
(`prepare_spec`, `populate_spec`, `upsertFolder_spec`), and which ones `next` has taken out
(`next_spec`).
-/

namespace SyncSpirit

namespace FileIterator

/-! ## The order of a queue -/

theorem nameChars_inj {a b : String} (h : nameChars a = nameChars b) : a = b := by
  have hinj : Function.Injective fun b : UInt8 => b.toInt8.toInt := fun x y hxy =>
    Function.LeftInverse.injective UInt8.toUInt8_toInt8 (Int8.toInt_inj.mp hxy)
  have hlist := List.map_injective_iff.mpr hinj h
  refine String.toByteArray_inj.mp (ByteArray.ext ?_)
  exact Array.toList_inj.mp hlist

/-- The number that a pull order looks at; the smaller one comes first. -/
def rank (order : PullOrder) (s : Store) (f : FileId) : Int :=
  match order with
  | .newest => -(s.files f).modifiedS
  | .oldest => (s.files f).modifiedS
  | .smallest => sizeOf s f
  | .largest => -sizeOf s f
  | .random => 0
  | .alphabetic => 0

theorem comparePulled_eq (order : PullOrder) (s : Store) (l r : FileId) :
    comparePulled order s l r = compare (rank order s l) (rank order s r) := by
  have hneg : ∀ a b : Int, compare b a = compare (-a) (-b) := by
    intro a b
    rcases lt_trichotomy a b with h | h | h
    · rw [compare_gt_iff_gt.mpr h, eq_comm, compare_gt_iff_gt]
      exact neg_lt_neg h
    · rw [h, compare_eq_iff_eq.mpr rfl, compare_eq_iff_eq.mpr rfl]
    · rw [compare_lt_iff_lt.mpr h, eq_comm, compare_lt_iff_lt]
      exact neg_lt_neg h
  cases order with
  | newest => exact hneg _ _
  | oldest => rfl
  | smallest => rfl
  | largest => exact hneg _ _
  | random => rfl
  | alphabetic => rfl

/-- What the comparator looks at, in this order. -/
def sortKey (order : PullOrder) (s : Store) (f : FileId) : Bool ×ₗ Int ×ₗ List Int :=
  toLex (decide ((s.files f).totalBlocks ≠ 0), toLex (rank order s f, nameChars (s.files f).name))

/-- **The comparator** compares keys. -/
theorem compares (order : PullOrder) (s : Store) :
    SortedSet.Compares (fileComparator order s) (sortKey order s) := by
  intro l r
  unfold fileComparator sortKey
  rw [Prod.Lex.toLex_lt_toLex, Prod.Lex.toLex_lt_toLex, comparePulled_eq]
  dsimp only
  by_cases hl : (s.files l).totalBlocks = 0
  · by_cases hr : (s.files r).totalBlocks = 0
    · rcases lt_trichotomy (rank order s l) (rank order s r) with h | h | h
      · simp [hl, hr, compare_lt_iff_lt.mpr h, h]
      · simp [hl, hr, h]
      · simp [hl, hr, compare_gt_iff_gt.mpr h, h.not_gt, h.ne']
    · simp [hl, hr]
  · by_cases hr : (s.files r).totalBlocks = 0
    · simp [hl, hr]
    · rcases lt_trichotomy (rank order s l) (rank order s r) with h | h | h
      · simp [hl, hr, compare_lt_iff_lt.mpr h, h]
      · simp [hl, hr, h]
      · simp [hl, hr, compare_gt_iff_gt.mpr h, h.not_gt, h.ne']

theorem name_of_sortKey {order : PullOrder} {s : Store} {f g : FileId} (h : sortKey order s f = sortKey order s g) :
    (s.files f).name = (s.files g).name := by
  have hinner := congrArg (fun k => (ofLex (ofLex k).2).2) h
  exact nameChars_inj hinner

theorem fileComparator_congr {order : PullOrder} {s t : Store} {f g : FileId}
    (hf : sortKey order t f = sortKey order s f) (hg : sortKey order t g = sortKey order s g) :
    fileComparator order t f g = fileComparator order s f g := by
  rw [Bool.eq_iff_iff, compares order t f g, compares order s f g, hf, hg]

/-! ## Lists of entries -/

section Lists

variable {α : Type} {p q : α → Bool} {g : α → α}

theorem modifyFirst_append {a : α} {as bs : List α} (has : ∀ x ∈ as, p x = false) (ha : p a = true) :
    modifyFirst p g (as ++ a :: bs) = as ++ g a :: bs := by
  induction as with
  | nil => exact if_pos ha
  | cons x as ih =>
    have hx : p x = false := has x (List.mem_cons_self ..)
    rw [List.cons_append, modifyFirst, if_neg (by simp [hx]), ih fun y hy => has y (List.mem_cons_of_mem x hy),
      List.cons_append]

theorem mem_modifyFirst {l : List α} {b : α} (h : b ∈ modifyFirst p g l) :
    b ∈ l ∨ ∃ a ∈ l, p a = true ∧ b = g a := by
  induction l with
  | nil => cases h
  | cons a l ih =>
    unfold modifyFirst at h
    split at h
    · rename_i ha
      rcases List.mem_cons.mp h with rfl | h
      · exact .inr ⟨a, List.mem_cons_self .., ha, rfl⟩
      · exact .inl (List.mem_cons_of_mem a h)
    · rcases List.mem_cons.mp h with rfl | h
      · exact .inl (List.mem_cons_self ..)
      · rcases ih h with h | ⟨c, hc, hpc, rfl⟩
        · exact .inl (List.mem_cons_of_mem a h)
        · exact .inr ⟨c, List.mem_cons_of_mem a hc, hpc, rfl⟩

/-- What a change of the first element does not touch. -/
theorem map_modifyFirst {β : Type} {k : α → β} (hk : ∀ a, k (g a) = k a) (l : List α) :
    (modifyFirst p g l).map k = l.map k := by
  induction l with
  | nil => rfl
  | cons a l ih =>
    unfold modifyFirst
    split
    · rw [List.map_cons, List.map_cons, hk]
    · rw [List.map_cons, List.map_cons, ih]

/-- There is no second element that could have been changed. -/
theorem mem_modifyFirst_of_unique {l : List α} (hunique : l.Pairwise fun a b => p a = true → p b = false) {b : α}
    (h : b ∈ modifyFirst p g l) : (b ∈ l ∧ p b = false) ∨ ∃ a ∈ l, p a = true ∧ b = g a := by
  induction l with
  | nil => cases h
  | cons a l ih =>
    obtain ⟨hfirst, hrest⟩ := List.pairwise_cons.mp hunique
    unfold modifyFirst at h
    split at h
    · rename_i ha
      rcases List.mem_cons.mp h with rfl | h
      · exact .inr ⟨a, List.mem_cons_self .., ha, rfl⟩
      · exact .inl ⟨List.mem_cons_of_mem a h, hfirst b h ha⟩
    · rename_i ha
      rcases List.mem_cons.mp h with rfl | h
      · exact .inl ⟨List.mem_cons_self .., by simpa using ha⟩
      · rcases ih hrest h with ⟨h, hb⟩ | ⟨c, hc, hpc, rfl⟩
        · exact .inl ⟨List.mem_cons_of_mem a h, hb⟩
        · exact .inr ⟨c, List.mem_cons_of_mem a hc, hpc, rfl⟩

/-- The first element of another kind is another one. -/
theorem find?_modifyFirst_of_disjoint {l : List α} (h : ∀ a, p a = true → q a = false ∧ q (g a) = false) :
    (modifyFirst p g l).find? q = l.find? q := by
  induction l with
  | nil => rfl
  | cons a l ih =>
    unfold modifyFirst
    split
    · rename_i ha
      rw [List.find?_cons_of_neg (by simp [(h a ha).2]), List.find?_cons_of_neg (by simp [(h a ha).1])]
    · rw [List.find?_cons, List.find?_cons, ih]

/-- The first element of the same kind is the one that is changed. -/
theorem find?_modifyFirst {l : List α} (hpq : ∀ a ∈ l, p a = q a) (hg : ∀ a, q (g a) = q a) :
    (modifyFirst p g l).find? q = (l.find? q).map g := by
  induction l with
  | nil => rfl
  | cons a l ih =>
    have ha : p a = q a := hpq a (List.mem_cons_self ..)
    unfold modifyFirst
    split
    · rename_i hpa
      rw [List.find?_cons_of_pos (by rw [hg, ← ha, hpa]), List.find?_cons_of_pos (ha ▸ hpa)]
      rfl
    · rename_i hpa
      rw [List.find?_cons_of_neg (ha ▸ hpa), List.find?_cons_of_neg (ha ▸ hpa),
        ih fun b hb => hpq b (List.mem_cons_of_mem a hb)]

/-- The first element of a kind, and those before it. -/
theorem exists_first {l : List α} (h : l.any p = true) :
    ∃ as a bs, l = as ++ a :: bs ∧ (∀ x ∈ as, p x = false) ∧ p a = true := by
  obtain ⟨a, ha⟩ := Option.isSome_iff_exists.mp (List.find?_isSome.mpr (List.any_eq_true.mp h))
  obtain ⟨hpa, as, bs, rfl, has⟩ := List.find?_eq_some_iff_append.mp ha
  exact ⟨as, a, bs, rfl, fun x hx => by simpa using has x hx, hpa⟩

end Lists

end FileIterator

namespace FolderIterator

open FileIterator

/-! ## One queue -/

/-- The queue is what the set is meant to be: its elements are files of the folder info, in
order. -/
structure Holds (w : Scene) (it : FolderIterator) : Prop where
  listed : ∀ f ∈ it.queue, f ∈ w.files it.peerFolder
  sorted : SortedSet.Sorted (fileComparator it.order w.store) it.queue

instance (w : Scene) (it : FolderIterator) : Decidable (it.Holds w) :=
  have : Decidable (SortedSet.Sorted (fileComparator it.order w.store) it.queue) :=
    inferInstanceAs (Decidable (List.Pairwise _ it.queue))
  decidable_of_iff ((∀ f ∈ it.queue, f ∈ w.files it.peerFolder) ∧
    SortedSet.Sorted (fileComparator it.order w.store) it.queue) ⟨fun h => ⟨h.1, h.2⟩, fun h => ⟨h.listed, h.sorted⟩⟩

theorem Holds.of_nil {w : Scene} {it : FolderIterator} (h : it.queue = []) : it.Holds w where
  listed f hf := by
    rw [h] at hf
    cases hf
  sorted := by
    rw [h]
    exact SortedSet.sorted_nil

/-- Files are taken out of the queue. -/
theorem Holds.sublist {w : Scene} {it : FolderIterator} (h : it.Holds w) {queue : List FileId}
    (hsub : queue.Sublist it.queue) : { it with queue := queue }.Holds w :=
  ⟨fun f hf => h.listed f (hsub.subset hf), h.sorted.sublist hsub⟩

variable {w : Scene}

/-- **Insertion** of files of the folder info. -/
theorem insertAll_spec (hw : w.store.Listed) {it : FolderIterator} (h : it.Holds w) {files : List FileId}
    (hfiles : ∀ f ∈ files, f ∈ w.files it.peerFolder) :
    (it.insertAll w files).Holds w ∧ ∀ f, f ∈ (it.insertAll w files).queue ↔ f ∈ it.queue ∨ f ∈ files := by
  have hmem : ∀ f, f ∈ (it.insertAll w files).queue ↔ f ∈ it.queue ∨ f ∈ files := by
    intro f
    refine SortedSet.mem_insertAll (compares it.order w.store) fun a ha b hb hkey => ?_
    have hb' : b ∈ w.files it.peerFolder := hb.elim (h.listed b) (hfiles b)
    exact hw.eq_of_name hb' (hfiles a ha) (name_of_sortKey hkey)
  refine ⟨⟨fun f hf => ?_, SortedSet.sorted_insertAll (compares it.order w.store) h.sorted⟩, hmem⟩
  exact ((hmem f).mp hf).elim (h.listed f) (hfiles f)

/-- The queue survives `populate`, or is cleared by it. -/
def Keeps (w : Scene) (it : FolderIterator) : Prop :=
  (w.store.infos it.peerFolder).index = it.seenIndex → it.Holds w

instance (w : Scene) (it : FolderIterator) : Decidable (it.Keeps w) :=
  inferInstanceAs (Decidable (_ → _))

theorem Holds.keeps {it : FolderIterator} (h : it.Holds w) : it.Keeps w := fun _ => h

/-- The entry after `populate`. -/
structure Populated (w : Scene) (it it' : FolderIterator) : Prop where
  peerFolder : it'.peerFolder = it.peerFolder
  order : it'.order = it.order
  seenIndex : it'.seenIndex = it.seenIndex
  canReceive : it'.canReceive = it.canReceive
  seenSequence : it'.seenSequence = (w.store.infos it.peerFolder).maxSequence
  holds : it'.Holds w
  queue : ∀ f, f ∈ it'.queue ↔
    ((w.store.infos it.peerFolder).index = it.seenIndex ∧ f ∈ it.queue) ∨
      (f ∈ w.files it.peerFolder ∧ it.seenSequence < (w.store.files f).sequence ∧ w.wanted it.peerFolder f = true)

@[simp] theorem peerFolder_populate (w : Scene) (it : FolderIterator) : (it.populate w).peerFolder = it.peerFolder := by
  unfold populate
  dsimp only
  split
  · rfl
  · rfl

theorem peerFolder_upsertFolder (w : Scene) (it : FolderIterator) : (it.upsertFolder w).peerFolder = it.peerFolder := by
  unfold upsertFolder
  dsimp only
  split
  · split
    · exact peerFolder_populate w _
    · split
      · rfl
      · rfl
  · split
    · rfl
    · rfl

/-- **Populate**: what is newer than the sequence seen so far, and what was there, unless the
index id differs from the one of the first time. -/
theorem populate_spec (hw : w.store.Listed) {it : FolderIterator} (h : it.Keeps w) :
    Populated w it (it.populate w) := by
  have hnew : ∀ f, f ∈ (w.range it.peerFolder (it.seenSequence + 1)
      (w.store.infos it.peerFolder).maxSequence).filter (fun f => w.wanted it.peerFolder f) ↔
      f ∈ w.files it.peerFolder ∧ it.seenSequence < (w.store.files f).sequence ∧
        w.wanted it.peerFolder f = true := by
    intro f
    rw [List.mem_filter, Scene.range, List.mem_filter, decide_eq_true_eq]
    constructor
    · rintro ⟨⟨hf, hlower, -⟩, hwanted⟩
      exact ⟨hf, by omega, hwanted⟩
    · rintro ⟨hf, hlt, hwanted⟩
      exact ⟨⟨hf, by omega, (hw.infos it.peerFolder).bound f hf⟩, hwanted⟩
  have hfiles := fun f hf => ((hnew f).mp hf).1
  by_cases hindex : (w.store.infos it.peerFolder).index = it.seenIndex
  · have heq : it.populate w = { it.insertAll w ((w.range it.peerFolder (it.seenSequence + 1)
        (w.store.infos it.peerFolder).maxSequence).filter fun f => w.wanted it.peerFolder f) with
        seenSequence := (w.store.infos it.peerFolder).maxSequence } := by
      unfold populate
      dsimp only
      rw [if_neg (not_not.mpr hindex)]
    obtain ⟨hholds, hmem⟩ := insertAll_spec hw (h hindex) hfiles
    rw [heq]
    refine ⟨rfl, rfl, rfl, rfl, rfl, ⟨hholds.listed, hholds.sorted⟩, fun f => ?_⟩
    rw [show f ∈ FolderIterator.queue _ ↔ _ from hmem f, hnew]
    simp [hindex]
  · have heq : it.populate w = { insertAll w { it with queue := [], seenSequence := 0 }
        ((w.range it.peerFolder (it.seenSequence + 1)
        (w.store.infos it.peerFolder).maxSequence).filter fun f => w.wanted it.peerFolder f) with
        seenSequence := (w.store.infos it.peerFolder).maxSequence } := by
      unfold populate
      dsimp only
      rw [if_pos hindex]
    obtain ⟨hholds, hmem⟩ := @insertAll_spec w hw { it with queue := [], seenSequence := 0 }
      (Holds.of_nil rfl) _ hfiles
    rw [heq]
    refine ⟨rfl, rfl, rfl, rfl, rfl, ⟨hholds.listed, hholds.sorted⟩, fun f => ?_⟩
    rw [show f ∈ FolderIterator.queue _ ↔ _ from hmem f, hnew]
    simp [hindex]

/-- The queue belongs to the folder as it is: only a folder that is not a send-only one has files
in it. -/
structure Sound (w : Scene) (it : FolderIterator) : Prop extends Holds w it where
  canReceive : it.canReceive = w.receives (w.folderOf it.peerFolder)
  silent : it.canReceive = false → it.queue = []

/-- A new entry. -/
structure Prepared (w : Scene) (fi : FolderInfoId) (it : FolderIterator) : Prop extends Sound w it where
  peerFolder : it.peerFolder = fi
  order : it.order = (w.folders (w.folderOf fi)).pullOrder
  seenSequence : it.canReceive = true → it.seenSequence = (w.store.infos fi).maxSequence
  queue : ∀ f, f ∈ it.queue ↔ w.receives (w.folderOf fi) = true ∧ f ∈ w.wantedFiles fi

/-- **Prepare** a folder. -/
theorem prepare_spec (hw : w.store.Listed) (fi : FolderInfoId) : Prepared w fi (prepare w fi) := by
  unfold prepare
  dsimp only
  split
  · rename_i hreceives
    obtain ⟨hholds, hmem⟩ := @insertAll_spec w hw ⟨fi, (w.folders (w.folderOf fi)).pullOrder, [], 0, 0,
      w.receives (w.folderOf fi)⟩ (Holds.of_nil rfl) (w.wantedFiles fi) fun f hf => (List.mem_filter.mp hf).1
    refine ⟨⟨⟨hholds.listed, hholds.sorted⟩, rfl, fun hfalse => ?_⟩, rfl, rfl, fun _ => rfl, fun f => ?_⟩
    · have hfalse' : w.receives (w.folderOf fi) = false := hfalse
      rw [hreceives] at hfalse'
      cases hfalse'
    · rw [show f ∈ FolderIterator.queue _ ↔ _ from hmem f]
      simp [hreceives]
  · rename_i hreceives
    refine ⟨⟨Holds.of_nil rfl, rfl, fun _ => rfl⟩, rfl, rfl, fun htrue => absurd htrue hreceives, fun f => ?_⟩
    simp [hreceives]

/-- The entry of a folder whose options have changed from `receives` on. -/
structure Upserted (w : Scene) (it it' : FolderIterator) : Prop extends Sound w it' where
  peerFolder : it'.peerFolder = it.peerFolder
  order : it.canReceive = true → it'.canReceive = true → it'.order = (w.folders (w.folderOf it.peerFolder)).pullOrder
  restarted : it.canReceive = false → it'.order = it.order
  seenSequence : it'.canReceive = true →
    it'.seenSequence = if it.canReceive then it.seenSequence else (w.store.infos it.peerFolder).maxSequence
  queue : it'.canReceive = true → ∀ f, f ∈ it'.queue ↔
    if it.canReceive then f ∈ it.queue else f ∈ w.wantedFiles it.peerFolder

/-- **Other options of the folder**: the queue of a folder that takes files again is made anew,
but by the old comparator. -/
theorem upsertFolder_spec (hw : w.store.Listed) {it : FolderIterator} (h : it.Holds w)
    (hsilent : it.canReceive = false → it.queue = []) : Upserted w it (it.upsertFolder w) := by
  cases hreceives : w.receives (w.folderOf it.peerFolder) with
  | false =>
    cases hcan : it.canReceive with
    | false =>
      have heq : it.upsertFolder w = { it with canReceive := false } := by
        simp [upsertFolder, hreceives, hcan]
      rw [heq]
      exact ⟨⟨⟨h.listed, h.sorted⟩, hreceives.symm, fun _ => hsilent hcan⟩, rfl, by simp, fun _ => rfl, by simp,
        by simp⟩
    | true =>
      have heq : it.upsertFolder w = { it with queue := [], canReceive := false } := by
        simp [upsertFolder, hreceives, hcan]
      rw [heq]
      exact ⟨⟨Holds.of_nil rfl, hreceives.symm, fun _ => rfl⟩, rfl, by simp, by simp [hcan], by simp, by simp⟩
  | true =>
    cases hcan : it.canReceive with
    | false =>
      have heq : it.upsertFolder w = { populate w { it with seenSequence := 0 } with canReceive := true } := by
        simp [upsertFolder, hreceives, hcan]
      have hkeeps : Holds w { it with seenSequence := 0 } := ⟨h.listed, h.sorted⟩
      have hpop := @populate_spec w hw { it with seenSequence := 0 } hkeeps.keeps
      rw [heq]
      refine ⟨⟨⟨hpop.holds.listed, hpop.holds.sorted⟩, ?_, by simp⟩, hpop.peerFolder, by simp [hcan],
        fun _ => hpop.order, fun _ => ?_, fun _ f => ?_⟩
      · show true = w.receives (w.folderOf (populate w { it with seenSequence := 0 }).peerFolder)
        rw [hpop.peerFolder, hreceives]
      · simpa [hcan] using hpop.seenSequence
      · -- all sequences are positive
        rw [show f ∈ FolderIterator.queue _ ↔ _ from hpop.queue f]
        have hpositive : f ∈ w.files it.peerFolder → 0 < (w.store.files f).sequence :=
          hw.positive it.peerFolder f
        simp only [hsilent hcan, List.not_mem_nil, and_false, false_or, hcan, Bool.false_eq_true, if_false,
          Scene.wantedFiles, List.mem_filter]
        exact ⟨fun hf => ⟨hf.1, hf.2.2⟩, fun hf => ⟨hf.1, hpositive hf.1, hf.2⟩⟩
    | true =>
      by_cases horder : it.order = (w.folders (w.folderOf it.peerFolder)).pullOrder
      · have heq : it.upsertFolder w = it := by
          have hself : ({ it with canReceive := true } : FolderIterator) = it := by rw [← hcan]
          simpa [upsertFolder, hreceives, hcan, horder] using hself
        rw [heq]
        exact ⟨⟨h, hcan.trans hreceives.symm, hsilent⟩, rfl, fun _ _ => horder, by simp [hcan], by simp [hcan],
          by simp [hcan]⟩
      · have heq : it.upsertFolder w = { insertAll w { it with
            order := (w.folders (w.folderOf it.peerFolder)).pullOrder, queue := [] } it.queue with
            canReceive := true } := by
          simp [upsertFolder, hreceives, hcan, horder]
        obtain ⟨hholds, hmem⟩ := @insertAll_spec w hw { it with
          order := (w.folders (w.folderOf it.peerFolder)).pullOrder, queue := [] } (Holds.of_nil rfl)
          it.queue h.listed
        rw [heq]
        refine ⟨⟨⟨hholds.listed, hholds.sorted⟩, hreceives.symm, by simp⟩, rfl, fun _ _ => rfl, by simp [hcan],
          by simp [hcan, insertAll], fun _ f => ?_⟩
        rw [show f ∈ FolderIterator.queue _ ↔ _ from hmem f]
        simp [hcan]

end FolderIterator

end SyncSpirit
