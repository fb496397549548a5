import SyncSpirit.Lib.Run
import SyncSpirit.Lib.Tally

/-!
# The hash budget of the local keeper (`net/local_keeper/folder_context.cpp`)

All folder contexts share one pool of blocks. A file on the stack takes blocks out of it for a
segment (`schedule_hash`), the segment is popped and read (`segment_iterator_t::process`), and
every digest puts one block back. A segment that cannot be read requests no digests at all.

`accounted_of_run` is about the runs in which a segment fails before its first block is read, or
not at all, the last block of a file is a digest only if no segment of the file has failed, and
the folder stays in the model (`Accountable`).
-/

namespace SyncSpirit

namespace Hashing

open Tally

variable {π : Type} [DecidableEq π]

/-- A hash item: the context it belongs to and its path do not change. -/
structure Item (π : Type) where
  context : Nat
  path : π
  number : Nat
  deriving DecidableEq, Repr

/-- What is pushed to the stack when all blocks are hashed. -/
inductive Outcome where
  | childReady
  | rehashedIncomplete
  | abortHashing
  deriving DecidableEq, Repr

/-- `hash_base_t`. `committed` is whether its error has been; the blocks of the failed segments and
the failed digests are remembered. -/
structure HashFile where
  size : Int
  blockSize : Int
  totalBlocks : Int
  unprocessedBlocks : Int
  unhashedBlocks : Int
  erroredBlocks : Int
  incomplete : Bool
  outcome : Option Outcome
  committed : Bool
  failed : Int
  refused : Int
  deriving DecidableEq, Repr

/-- `segment_iterator_t`; a segment without a block cannot be made. -/
structure Segment (π : Type) where
  item : Item π
  offset : Int
  blockIndex : Int
  blockCount : Nat
  blockSize : Int
  lastBlockSize : Int
  blockCount_pos : 0 < blockCount
  deriving DecidableEq, Repr

/-- The local keeper with its folder contexts, the segments that are with the file system (popped,
and read), and the blocks that are with the hashers. -/
structure Keeper (π : Type) where
  hashesPool : Int
  files : Item π → Option HashFile
  stack : List (Item π)
  pendingIo : List (Segment π)
  tasksIn : List (Segment π)
  tasksOut : List (Segment π × Option Nat)
  digesting : List (Item π × Int)
  hashing : Nat → Int
  hashingFiles : Nat → π → Option Int

/-- A file on disk: whether it can be opened and has not been modified, and which blocks of a segment
can be read. -/
structure Disk where
  opens : Bool
  reads : Nat → Bool

/-- What happens. `folder` is whether the model still has it. -/
inductive Event (π : Type) where
  | push (item : Item π) (size blockSize totalBlocks : Int) (incomplete : Bool)
  | schedule (item : Item π)
  | pop (context : Nat)
  | execute (i : Nat) (disk : Disk)
  | report (i : Nat) (folder : Bool)
  | digest (i : Nat) (ok folder : Bool)

/-! ## A file -/

/-- A new hash item. -/
def HashFile.create (size blockSize totalBlocks : Int) (incomplete : Bool) : HashFile :=
  ⟨size, blockSize, totalBlocks, totalBlocks, totalBlocks, 0, incomplete, none, false, 0, 0⟩

/-- `last_block_sz` of a segment of so many blocks. -/
def HashFile.lastBlockSize (h : HashFile) (maxBlocks : Int) : Int :=
  if h.unprocessedBlocks = maxBlocks ∧ 1 < h.totalBlocks then
    h.size - h.blockSize * (h.totalBlocks - 1)
  else h.blockSize

/-- `commit_error`. -/
def HashFile.commitError (h : HashFile) (delta : Int) : HashFile × Bool :=
  ({ h with erroredBlocks := h.erroredBlocks + delta },
    h.erroredBlocks + delta + h.unprocessedBlocks = h.unhashedBlocks)

/-- A digest of the file, as far as the file is concerned. -/
def HashFile.digested (h : HashFile) (ok : Bool) : HashFile :=
  let h :=
    if ok then { h with unhashedBlocks := h.unhashedBlocks - 1 }
    else
      { h with
        unhashedBlocks := h.unhashedBlocks - 1
        erroredBlocks := h.erroredBlocks + 1
        refused := h.refused + 1 }
  if h.unhashedBlocks = 0 then
    { h with
      outcome := some
        (if h.erroredBlocks ≠ 0 then .abortHashing
          else if h.incomplete then .rehashedIncomplete else .childReady) }
  else h

/-- The first loop of `segment_iterator_t::process`; an error with `current_block`. -/
def readBlocks (reads : Nat → Bool) : Nat → Nat → Except Nat Unit
  | 0, _ => .ok ()
  | count + 1, current =>
    if reads current then readBlocks reads count (current + 1) else .error (current + 1)

/-- `segment_iterator_t::process`: the blocks to be hashed. -/
def Segment.process (g : Segment π) (disk : Disk) : Except Nat (List (Item π × Int)) := do
  if ¬ disk.opens then throw 0
  readBlocks disk.reads g.blockCount 0
  return (List.range g.blockCount).map fun j : Nat => (g.item, g.blockIndex + (j : Int))

/-! ## The keeper -/

namespace Keeper

/-- Another value for a file. -/
def setFile (s : Keeper π) (item : Item π) (h : HashFile) : Keeper π :=
  { s with files := Function.update s.files item (some h) }

/-- `ensure_folder_existance`, without a folder. -/
def dropFolder (s : Keeper π) (context : Nat) : Keeper π :=
  { s with
    stack := s.stack.filter fun item => item.context ≠ context
    pendingIo := s.pendingIo.filter fun g => g.item.context ≠ context }

/-- `hashing_files[path] += n`. -/
def addHashing (s : Keeper π) (item : Item π) (n : Int) : Keeper π :=
  { s with
    hashing := Function.update s.hashing item.context (s.hashing item.context + n)
    hashingFiles := Function.update s.hashingFiles item.context
      (Function.update (s.hashingFiles item.context) item.path
        (some ((s.hashingFiles item.context item.path).getD 0 + n))) }

/-- The counters of a context go down; one that comes to nothing is erased. -/
def subHashing (s : Keeper π) (item : Item π) (n : Int) : Option (Keeper π) :=
  (s.hashingFiles item.context item.path).map fun count =>
    { s with
      hashing := Function.update s.hashing item.context (s.hashing item.context - n)
      hashingFiles := Function.update s.hashingFiles item.context
        (Function.update (s.hashingFiles item.context) item.path
          (if count - n = 0 then none else some (count - n))) }

/-- `schedule_hash`, with its result. -/
def scheduleHash (s : Keeper π) (item : Item π) (h : HashFile) : Option (Keeper π × Int) :=
  if h.erroredBlocks ≠ 0 then some (s, 1)
  else if s.hashesPool = 0 then some (s, -1)
  else
    let firstBlock := h.totalBlocks - h.unprocessedBlocks
    let maxBlocks := min s.hashesPool h.unprocessedBlocks
    -- the assertions here and in the constructor of the segment
    if hblocks : h.lastBlockSize maxBlocks ≤ 0 ∨ maxBlocks ≤ 0 then none
    else
      let sub : Segment π :=
        ⟨item, firstBlock * h.blockSize, firstBlock, maxBlocks.toNat, h.blockSize,
          h.lastBlockSize maxBlocks, by omega⟩
      let left := h.unprocessedBlocks - maxBlocks
      some ({ s.setFile item { h with unprocessedBlocks := left } with
          pendingIo := s.pendingIo ++ [sub]
          hashesPool := s.hashesPool - maxBlocks }, if left = 0 then 0 else -1)

/-- A hash item is processed; it stays on the stack if the result is negative. -/
def process (s : Keeper π) (item : Item π) : Option (Keeper π) := do
  let h ← s.files item
  let (s, result) ← s.scheduleHash item h
  return if 0 ≤ result then { s with stack := s.stack.erase item } else s

/-- `pop_task`. -/
def popTask (s : Keeper π) (context : Nat) : Option (Keeper π) :=
  let i := s.pendingIo.findIdx fun g => g.item.context = context
  (s.pendingIo[i]?).map fun g =>
    { s with pendingIo := s.pendingIo.eraseIdx i, tasksIn := s.tasksIn ++ [g] }.addHashing g.item g.blockCount

/-- A segment is read. -/
def execute (s : Keeper π) (i : Nat) (disk : Disk) : Option (Keeper π) :=
  (s.tasksIn[i]?).map fun g =>
    let s := { s with tasksIn := s.tasksIn.eraseIdx i }
    match g.process disk with
    | .ok blocks =>
      { s with tasksOut := s.tasksOut ++ [(g, none)], digesting := s.digesting ++ blocks }
    | .error current => { s with tasksOut := s.tasksOut ++ [(g, some current)] }

/-- `post_process` of a segment. -/
def postProcess (s : Keeper π) (g : Segment π) : Option Nat → Option (Keeper π)
  | none => some s
  | some current => do
    let h ← s.files g.item
    let s ← s.subHashing g.item g.blockCount
    let delta : Int := g.blockCount - current
    let (h, commit) := h.commitError delta
    return { s.setFile g.item
        { h with committed := h.committed || commit, failed := h.failed + g.blockCount } with
      hashesPool := s.hashesPool + delta }

/-- `post_process` of a digest. -/
def postDigest (s : Keeper π) (item : Item π) (ok : Bool) : Option (Keeper π) := do
  let h ← s.files item
  if s.hashing item.context ≤ 0 then none
  let s ← s.subHashing item 1
  return { s.setFile item (h.digested ok) with hashesPool := s.hashesPool + 1 }

/-- One event. -/
def step (s : Keeper π) : Event π → Option (Keeper π)
  | .push item size blockSize totalBlocks incomplete =>
    if s.files item = none ∧ 0 < totalBlocks then
      some { s.setFile item (.create size blockSize totalBlocks incomplete) with
        stack := item :: s.stack }
    else none
  | .schedule item => if item ∈ s.stack then s.process item else none
  | .pop context => s.popTask context
  | .execute i disk => s.execute i disk
  | .report i folder =>
    (s.tasksOut[i]?).bind fun (g, error) =>
      let s := { s with tasksOut := s.tasksOut.eraseIdx i }
      if folder then s.postProcess g error else some (s.dropFolder g.item.context)
  | .digest i ok folder =>
    (s.digesting[i]?).bind fun (item, _) =>
      let s := { s with digesting := s.digesting.eraseIdx i }
      if folder then s.postDigest item ok else some (s.dropFolder item.context)

/-- Nothing has been scheduled. -/
def initial (π : Type) (limit : Int) : Keeper π :=
  ⟨limit, fun _ => none, [], [], [], [], [], fun _ => 0, fun _ _ => none⟩

/-! ## The account -/

/-- The blocks of the segments that wait, as far as their files count. -/
def waiting (s : Keeper π) (weight : Item π → Int) : Int :=
  total (fun g => weight g.item * g.blockCount) s.pendingIo

/-- The blocks of the popped segments that are neither digested nor failed. -/
def popped (s : Keeper π) (weight : Item π → Int) : Int :=
  total (fun g => weight g.item * g.blockCount) s.tasksIn +
    total (fun r => if r.2 = none then 0 else weight r.1.item * r.1.blockCount) s.tasksOut +
    total (fun d => weight d.1) s.digesting

end Keeper

/-- Every file. -/
def every : Item π → Int := fun _ => 1

/-- The files of a context. -/
def ofContext (context : Nat) : Item π → Int := fun item => if item.context = context then 1 else 0

/-- The files of a context with a path. -/
def ofPath (context : Nat) (path : π) : Item π → Int := fun item =>
  if item.context = context ∧ item.path = path then 1 else 0

/-- One file. -/
def only (item : Item π) : Item π → Int := fun item' => if item' = item then 1 else 0

/-- The blocks of a file that are scheduled and neither digested nor failed. -/
def Keeper.outstanding (s : Keeper π) (item : Item π) : Int :=
  s.waiting (only item) + s.popped (only item)

/-- **The account** of a keeper with a limit. -/
structure Accounted (limit : Int) (s : Keeper π) : Prop where
  pool : s.hashesPool + s.waiting every + s.popped every = limit
  hashing : ∀ context, s.hashing context = s.popped (ofContext context)
  hashingFiles : ∀ context path, s.hashingFiles context path =
    if s.popped (ofPath context path) = 0 then none else some (s.popped (ofPath context path))
  settled : ∀ item h, s.files item = some h →
    ((h.unhashedBlocks = 0 ∨ h.committed = true) ↔
      s.outstanding item = 0 ∧ (h.unprocessedBlocks = 0 ∨ 0 < h.erroredBlocks))

/-- **The condition**: the folder is there; a segment that fails has not read a block, and no digest
of its file has failed; and where a digest is the last block of its file, no segment of the
file has failed, and if a digest has, then all blocks have been scheduled. -/
def Accountable (s : Keeper π) : Event π → Prop
  | .report i folder =>
    match s.tasksOut[i]? with
    | none => True
    | some (g, none) => folder = true ∨ ∀ g' ∈ s.pendingIo, g'.item.context ≠ g.item.context
    | some (g, some current) => folder = true ∧ current = 0 ∧ ∀ h ∈ s.files g.item, h.refused = 0
  | .digest i ok folder =>
    match s.digesting[i]? with
    | none => True
    | some (item, _) => folder = true ∧ ∀ h ∈ s.files item, s.outstanding item = 1 →
        h.failed = 0 ∧ (ok = false ∨ 0 < h.refused → h.unprocessedBlocks = 0)
  | _ => True

instance Accountable.decidable (s : Keeper π) (e : Event π) : Decidable (Accountable s e) := by
  unfold Accountable
  split
  · split <;> infer_instance
  · split <;> infer_instance
  · infer_instance

/-! ## Sums -/

section Sums

variable {s : Keeper π} {item : Item π} {w : Item π → Int}

@[simp] theorem only_self : only item item = 1 := if_pos rfl

theorem only_of_ne {item' : Item π} (h : item' ≠ item) : only item item' = 0 := if_neg h

omit [DecidableEq π] in
theorem total_blocks (g : Segment π) (count : Nat) :
    total (fun d => w d.1) ((List.range count).map fun j : Nat => (g.item, g.blockIndex + (j : Int))) =
      w g.item * count := by
  rw [total_map]
  induction count with
  | zero => simp
  | succ n ih =>
    rw [List.range_succ, total_append, ih, total_cons, total_nil]
    push_cast
    rw [Int.mul_add, Int.mul_one, Int.add_zero]

omit [DecidableEq π] in
theorem Keeper.waiting_nonneg (hw : ∀ item, 0 ≤ w item) : 0 ≤ s.waiting w :=
  total_nonneg fun g _ => Int.mul_nonneg (hw g.item) (Int.natCast_nonneg _)

omit [DecidableEq π] in
theorem Keeper.popped_nonneg (hw : ∀ item, 0 ≤ w item) : 0 ≤ s.popped w := by
  refine Int.add_nonneg (Int.add_nonneg ?_ ?_) (total_nonneg fun d _ => hw d.1)
  · exact total_nonneg fun g _ => Int.mul_nonneg (hw g.item) (Int.natCast_nonneg _)
  · refine total_nonneg fun r _ => ?_
    split
    · exact Int.le_refl 0
    · exact Int.mul_nonneg (hw r.1.item) (Int.natCast_nonneg _)

theorem only_nonneg (item' : Item π) : 0 ≤ only item item' := by
  unfold only
  split <;> decide

theorem ofPath_nonneg {context : Nat} {path : π} (item : Item π) : 0 ≤ ofPath context path item := by
  unfold ofPath
  split <;> decide

theorem Keeper.outstanding_nonneg : 0 ≤ s.outstanding item :=
  Int.add_nonneg (waiting_nonneg only_nonneg) (popped_nonneg only_nonneg)

end Sums

/-! ## The counters of a context -/

/-- The counters say what is in `popped`. -/
structure Counted (s : Keeper π) (popped : (Item π → Int) → Int) : Prop where
  hashing : ∀ context, s.hashing context = popped (ofContext context)
  hashingFiles : ∀ context path, s.hashingFiles context path =
    if popped (ofPath context path) = 0 then none else some (popped (ofPath context path))

section Counters

variable {s s' : Keeper π} {popped popped' : (Item π → Int) → Int} {item : Item π} {n : Int}

theorem Counted.add (h : Counted s popped) (hn : 0 < n)
    (hnonneg : 0 ≤ popped (ofPath item.context item.path))
    (hpopped : ∀ w, popped' w = popped w + w item * n) : Counted (s.addHashing item n) popped' := by
  constructor
  · intro context
    rw [hpopped, Keeper.addHashing]
    dsimp only
    by_cases hc : context = item.context
    · subst hc
      rw [Function.update_self, h.hashing]
      simp [ofContext]
    · rw [Function.update_of_ne hc, h.hashing]
      simp [ofContext, Ne.symm hc]
  · intro context path
    rw [hpopped, Keeper.addHashing]
    dsimp only
    by_cases hc : context = item.context
    · subst hc
      rw [Function.update_self]
      by_cases hp : path = item.path
      · subst hp
        have hone : ofPath item.context item.path item = 1 := if_pos ⟨rfl, rfl⟩
        have hcount : ((if popped (ofPath item.context item.path) = 0 then none
            else some (popped (ofPath item.context item.path))) : Option Int).getD 0 =
              popped (ofPath item.context item.path) := by
          split
          · rename_i hzero
            exact hzero.symm
          · rfl
        rw [Function.update_self, h.hashingFiles, hcount, hone, Int.one_mul,
          if_neg (by generalize popped _ = k at *; omega)]
      · rw [Function.update_of_ne hp, h.hashingFiles]
        simp [ofPath, Ne.symm hp]
    · rw [Function.update_of_ne hc, h.hashingFiles]
      simp [ofPath, Ne.symm hc]

theorem Counted.sub (h : Counted s popped) (hsub : s.subHashing item n = some s')
    (hpopped : ∀ w, popped' w = popped w - w item * n) : Counted s' popped' := by
  obtain ⟨count, hcount, rfl⟩ := Option.map_eq_some_iff.mp hsub
  constructor
  · intro context
    rw [hpopped]
    dsimp only
    by_cases hc : context = item.context
    · subst hc
      rw [Function.update_self, h.hashing]
      simp [ofContext]
    · rw [Function.update_of_ne hc, h.hashing]
      simp [ofContext, Ne.symm hc]
  · intro context path
    rw [hpopped]
    dsimp only
    by_cases hc : context = item.context
    · subst hc
      rw [Function.update_self]
      by_cases hp : path = item.path
      · subst hp
        have hone : ofPath item.context item.path item = 1 := if_pos ⟨rfl, rfl⟩
        rw [h.hashingFiles] at hcount
        obtain rfl := Option.some.inj (Option.ite_none_left_eq_some.mp hcount).2
        rw [Function.update_self, hone, Int.one_mul]
      · rw [Function.update_of_ne hp, h.hashingFiles]
        simp [ofPath, Ne.symm hp]
    · rw [Function.update_of_ne hc, h.hashingFiles]
      simp [ofPath, Ne.symm hc]

end Counters

/-! ## The books of a file -/

/-- What is said about a file with so many outstanding blocks. -/
structure Booked (outstanding : Int) (h : HashFile) : Prop where
  unhashed : h.unhashedBlocks = h.unprocessedBlocks + outstanding + h.failed
  errored : h.erroredBlocks = h.refused + h.failed
  unprocessed : 0 ≤ h.unprocessedBlocks
  failed : 0 ≤ h.failed
  refused : 0 ≤ h.refused
  committed : h.committed = true ↔ 0 < h.failed ∧ outstanding = 0
  last : outstanding = 0 → 0 < h.refused → h.failed = 0 ∧ h.unprocessedBlocks = 0

section Booked

variable {o n : Int} {h : HashFile}

theorem Booked.settled (hb : Booked o h) (ho : 0 ≤ o) : (h.unhashedBlocks = 0 ∨ h.committed = true) ↔
    o = 0 ∧ (h.unprocessedBlocks = 0 ∨ 0 < h.erroredBlocks) := by
  obtain ⟨hunhashed, herrored, hunprocessed, hfailed, hrefused, hcommitted, hlast⟩ := hb
  rw [hcommitted]
  constructor
  · rintro (hzero | ⟨hpos, ho⟩)
    · exact ⟨by omega, .inl (by omega)⟩
    · exact ⟨ho, .inr (by omega)⟩
  · rintro ⟨rfl, hend⟩
    by_cases hpos : 0 < h.failed
    · exact .inr ⟨hpos, rfl⟩
    · -- what has been refused is the end of the file
      have hprocessed : h.unprocessedBlocks = 0 := by
        rcases hend with hend | hend
        · exact hend
        · exact (hlast rfl (by omega)).2
      exact .inl (by omega)

theorem Booked.create {size blockSize totalBlocks : Int} {incomplete : Bool} (h : 0 < totalBlocks) :
    Booked 0 (.create size blockSize totalBlocks incomplete) :=
  ⟨by simp [HashFile.create], rfl, Int.le_of_lt h, Int.le_refl 0, Int.le_refl 0,
    by simp [HashFile.create], fun _ hrefused => absurd hrefused (Int.lt_irrefl 0)⟩

/-- A segment is scheduled. -/
theorem Booked.schedule (hb : Booked o h) (ho : 0 ≤ o) (hzero : h.erroredBlocks = 0) (hn : 0 < n)
    (hle : n ≤ h.unprocessedBlocks) :
    Booked (o + n) { h with unprocessedBlocks := h.unprocessedBlocks - n } := by
  obtain ⟨hunhashed, herrored, hunprocessed, hfailed, hrefused, hcommitted, hlast⟩ := hb
  refine ⟨?_, herrored, ?_, hfailed, hrefused, ?_, ?_⟩
  · show h.unhashedBlocks = h.unprocessedBlocks - n + (o + n) + h.failed
    omega
  · show 0 ≤ h.unprocessedBlocks - n
    omega
  · rw [hcommitted]
    show 0 < h.failed ∧ o = 0 ↔ 0 < h.failed ∧ o + n = 0
    omega
  · intro hzero'
    omega

/-- A segment fails before its first block. -/
theorem Booked.fail (hb : Booked (o + n) h) (ho : 0 ≤ o) (hn : 0 < n) (hrefused : h.refused = 0) :
    Booked o { (h.commitError n).1 with
      committed := h.committed || (h.commitError n).2, failed := h.failed + n } := by
  obtain ⟨hunhashed, herrored, hunprocessed, hfailed, -, hcommitted, -⟩ := hb
  have hfalse : h.committed = false := by
    rw [← Bool.not_eq_true, hcommitted]
    omega
  refine ⟨?_, ?_, hunprocessed, ?_, Int.le_of_eq hrefused.symm, ?_, ?_⟩
  · show h.unhashedBlocks = h.unprocessedBlocks + o + (h.failed + n)
    omega
  · show h.erroredBlocks + n = h.refused + (h.failed + n)
    omega
  · show 0 ≤ h.failed + n
    omega
  · show (h.committed || decide (h.erroredBlocks + n + h.unprocessedBlocks = h.unhashedBlocks)) = true ↔
      0 < h.failed + n ∧ o = 0
    rw [hfalse, Bool.false_or, decide_eq_true_iff]
    omega
  · exact fun _ hpos => absurd (show 0 < h.refused from hpos) (by omega)

theorem digested_eq (h : HashFile) (ok : Bool) : ∃ outcome, h.digested ok =
    { h with
      unhashedBlocks := h.unhashedBlocks - 1
      erroredBlocks := h.erroredBlocks + if ok then 0 else 1
      refused := h.refused + if ok then 0 else 1
      outcome := outcome } := by
  unfold HashFile.digested
  cases ok <;> simp only [Bool.false_eq_true, if_false, if_true, Int.add_zero] <;> split <;> exact ⟨_, rfl⟩

/-- A digest. -/
theorem Booked.digest {ok : Bool} (hb : Booked (o + 1) h) (ho : 0 ≤ o)
    (hend : o = 0 → h.failed = 0 ∧ (ok = false ∨ 0 < h.refused → h.unprocessedBlocks = 0)) :
    Booked o (h.digested ok) := by
  obtain ⟨hunhashed, herrored, hunprocessed, hfailed, hrefused, hcommitted, -⟩ := hb
  obtain ⟨outcome, heq⟩ := digested_eq h ok
  have hnonneg : 0 ≤ (if ok then 0 else 1 : Int) := by split <;> decide
  rw [heq]
  refine ⟨?_, ?_, hunprocessed, hfailed, ?_, ?_, ?_⟩
  · show h.unhashedBlocks - 1 = h.unprocessedBlocks + o + h.failed
    omega
  · show h.erroredBlocks + _ = h.refused + _ + h.failed
    omega
  · show 0 ≤ h.refused + _
    omega
  · rw [hcommitted]
    show 0 < h.failed ∧ o + 1 = 0 ↔ 0 < h.failed ∧ o = 0
    constructor
    · omega
    · rintro ⟨hpos, hzero⟩
      exact absurd (hend hzero).1 (Int.ne_of_gt hpos)
  · intro hzero hpos
    refine ⟨(hend hzero).1, (hend hzero).2 ?_⟩
    cases ok with
    | false => exact .inl rfl
    | true => exact .inr (by simpa using hpos)

end Booked

/-! ## Runs -/

/-- What every step that meets the condition keeps. -/
structure Books (limit : Int) (s : Keeper π) : Prop where
  pool : s.hashesPool + s.waiting every + s.popped every = limit
  counted : Counted s s.popped
  booked : ∀ item h, s.files item = some h → Booked (s.outstanding item) h
  unknown : ∀ item, s.files item = none → s.outstanding item = 0

section Runs

variable {limit : Int} {s s' : Keeper π} {item : Item π} {h : HashFile}

theorem Books.accounted (hs : Books limit s) : Accounted limit s :=
  ⟨hs.pool, hs.counted.hashing, hs.counted.hashingFiles,
    fun item h hh => (hs.booked item h hh).settled Keeper.outstanding_nonneg⟩

/-- A step that only moves blocks around. -/
theorem Books.move (hs : Books limit s) (hpool : s'.hashesPool = s.hashesPool)
    (hfiles : s'.files = s.files) (hwaiting : ∀ w, s'.waiting w + s'.popped w = s.waiting w + s.popped w)
    (hcounted : Counted s' s'.popped) : Books limit s' := by
  have hout : ∀ item, s'.outstanding item = s.outstanding item := fun item => hwaiting (only item)
  refine ⟨?_, hcounted, fun item h hh => ?_, fun item hh => ?_⟩
  · rw [hpool, Int.add_assoc, hwaiting, ← Int.add_assoc]
    exact hs.pool
  · rw [hout]
    exact hs.booked item h (hfiles ▸ hh)
  · rw [hout]
    exact hs.unknown item (hfiles ▸ hh)

/-- A step that changes a file, and how many of its blocks are outstanding, by `n`. -/
theorem Books.change {n : Int} {h' : HashFile} (hs : Books limit s)
    (hpool : s'.hashesPool = s.hashesPool - n)
    (hfiles : s'.files = Function.update s.files item (some h'))
    (hwaiting : ∀ w, s'.waiting w + s'.popped w = s.waiting w + s.popped w + w item * n)
    (hcounted : Counted s' s'.popped)
    (hbooked : Booked (s.outstanding item + n) h') : Books limit s' := by
  have hout : s'.outstanding item = s.outstanding item + n := by
    refine (hwaiting (only item)).trans ?_
    rw [only_self, Int.one_mul]
    rfl
  have hother : ∀ item', item' ≠ item → s'.outstanding item' = s.outstanding item' := by
    intro item' hne
    refine (hwaiting (only item')).trans ?_
    rw [only_of_ne hne.symm, Int.zero_mul, Int.add_zero]
    rfl
  refine ⟨?_, hcounted, fun item' k hk => ?_, fun item' hk => ?_⟩
  · have hall := hwaiting every
    have hsum := hs.pool
    have hone : every item * n = n := Int.one_mul n
    rw [hpool]
    omega
  · rw [hfiles] at hk
    by_cases heq : item' = item
    · subst heq
      rw [Function.update_self] at hk
      obtain rfl := Option.some.inj hk
      rw [hout]
      exact hbooked
    · rw [Function.update_of_ne heq] at hk
      rw [hother item' heq]
      exact hs.booked item' k hk
  · rw [hfiles] at hk
    by_cases heq : item' = item
    · subst heq
      rw [Function.update_self] at hk
      cases hk
    · rw [Function.update_of_ne heq] at hk
      rw [hother item' heq]
      exact hs.unknown item' hk

theorem Books.push {size blockSize totalBlocks : Int} {incomplete : Bool} (hs : Books limit s)
    (hstep : s.step (.push item size blockSize totalBlocks incomplete) = some s') : Books limit s' := by
  obtain ⟨⟨hnone, hpos⟩, heq⟩ := Option.ite_none_right_eq_some.mp hstep
  obtain rfl := Option.some.inj heq
  refine hs.change (n := 0) (Int.sub_zero _).symm rfl (fun w => ?_)
    ⟨hs.counted.hashing, hs.counted.hashingFiles⟩ ?_
  · rw [Int.mul_zero, Int.add_zero]
    rfl
  · rw [hs.unknown item hnone]
    exact .create hpos

/-- The stack is not looked at. -/
theorem Books.withStack (hs : Books limit s) (stack : List (Item π)) :
    Books limit { s with stack := stack } :=
  hs.move rfl rfl (fun _ => rfl) ⟨hs.counted.hashing, hs.counted.hashingFiles⟩

theorem Books.scheduleHash {result : Int} (hs : Books limit s) (hh : s.files item = some h)
    (hschedule : s.scheduleHash item h = some (s', result)) : Books limit s' := by
  unfold Keeper.scheduleHash at hschedule
  split at hschedule
  · cases hschedule
    exact hs
  · rename_i hzero
    split at hschedule
    · cases hschedule
      exact hs
    · dsimp only at hschedule
      split at hschedule
      · cases hschedule
      · rename_i hblocks
        obtain ⟨hmax, hle⟩ : 0 < min s.hashesPool h.unprocessedBlocks ∧
            min s.hashesPool h.unprocessedBlocks ≤ h.unprocessedBlocks := by omega
        obtain ⟨rfl, -⟩ := Prod.mk.inj (Option.some.inj hschedule)
        refine hs.change rfl rfl (fun w => ?_) ⟨hs.counted.hashing, hs.counted.hashingFiles⟩
          ((hs.booked item h hh).schedule Keeper.outstanding_nonneg (by omega) hmax hle)
        show total _ (s.pendingIo ++ [_]) + s.popped w = total _ s.pendingIo + s.popped w + _
        rw [total_append, total_cons, total_nil, Int.toNat_of_nonneg (Int.le_of_lt hmax)]
        dsimp only
        omega

theorem Books.schedule (hs : Books limit s) (hstep : s.step (.schedule item) = some s') :
    Books limit s' := by
  obtain ⟨-, hprocess⟩ := Option.ite_none_right_eq_some.mp hstep
  obtain ⟨h, hh, hrest⟩ := Option.bind_eq_some_iff.mp hprocess
  obtain ⟨⟨t, result⟩, ht, heq⟩ := Option.bind_eq_some_iff.mp hrest
  have hbooks := hs.scheduleHash hh ht
  obtain rfl := Option.some.inj heq
  split
  · exact hbooks.withStack _
  · exact hbooks

theorem Books.pop {context : Nat} (hs : Books limit s) (hstep : s.step (.pop context) = some s') :
    Books limit s' := by
  obtain ⟨g, hg, rfl⟩ := Option.map_eq_some_iff.mp hstep
  have hcount : (0 : Int) < g.blockCount := Int.natCast_pos.mpr g.blockCount_pos
  set i := s.pendingIo.findIdx fun g => g.item.context = context
  have hpopped : ∀ w, Keeper.popped { s with
      pendingIo := s.pendingIo.eraseIdx i, tasksIn := s.tasksIn ++ [g] } w =
        s.popped w + w g.item * g.blockCount := by
    intro w
    unfold Keeper.popped
    dsimp only
    rw [total_append, total_cons, total_nil]
    omega
  have hcounted : Counted { s with
      pendingIo := s.pendingIo.eraseIdx i, tasksIn := s.tasksIn ++ [g] } s.popped :=
    ⟨hs.counted.hashing, hs.counted.hashingFiles⟩
  refine hs.move rfl rfl (fun w => ?_) (hcounted.add hcount (Keeper.popped_nonneg ofPath_nonneg) hpopped)
  show total _ (s.pendingIo.eraseIdx i) + Keeper.popped { s with
    pendingIo := s.pendingIo.eraseIdx i, tasksIn := s.tasksIn ++ [g] } w = total _ s.pendingIo + s.popped w
  rw [total_eraseIdx hg, hpopped]
  omega

omit [DecidableEq π] in
theorem process_ok {g : Segment π} {disk : Disk} {blocks : List (Item π × Int)}
    (h : g.process disk = .ok blocks) :
    blocks = (List.range g.blockCount).map fun j : Nat => (g.item, g.blockIndex + (j : Int)) := by
  unfold Segment.process at h
  split at h
  · cases h
  · cases hread : readBlocks disk.reads g.blockCount 0 with
    | error current =>
      rw [hread] at h
      cases h
    | ok _ =>
      rw [hread] at h
      exact (Except.ok.inj h).symm

/-- A segment that is read either leads to all of its digests, or to none. -/
theorem Books.execute {i : Nat} {disk : Disk} (hs : Books limit s)
    (hstep : s.step (.execute i disk) = some s') : Books limit s' := by
  obtain ⟨g, hg, rfl⟩ := Option.map_eq_some_iff.mp hstep
  have hsame : ∀ w, Keeper.popped (match g.process disk with
      | .ok blocks => { s with
          tasksIn := s.tasksIn.eraseIdx i
          tasksOut := s.tasksOut ++ [(g, none)]
          digesting := s.digesting ++ blocks }
      | .error current => { s with
          tasksIn := s.tasksIn.eraseIdx i
          tasksOut := s.tasksOut ++ [(g, some current)] }) w = s.popped w := by
    intro w
    cases hprocess : g.process disk with
    | ok blocks =>
      have htotal := total_blocks (w := w) g g.blockCount
      unfold Keeper.popped
      dsimp only
      rw [total_eraseIdx hg, total_append, total_append, process_ok hprocess, htotal, total_cons, total_nil,
        if_pos rfl]
      omega
    | error current =>
      unfold Keeper.popped
      dsimp only
      rw [total_eraseIdx hg, total_append, total_cons, total_nil, if_neg (Option.some_ne_none current)]
      dsimp only
      omega
  cases hprocess : g.process disk with
  | ok blocks =>
    rw [hprocess] at hsame
    refine hs.move rfl rfl (fun w => congrArg _ (hsame w)) ?_
    rw [show Keeper.popped _ = s.popped from funext hsame]
    exact ⟨hs.counted.hashing, hs.counted.hashingFiles⟩
  | error current =>
    rw [hprocess] at hsame
    refine hs.move rfl rfl (fun w => congrArg _ (hsame w)) ?_
    rw [show Keeper.popped _ = s.popped from funext hsame]
    exact ⟨hs.counted.hashing, hs.counted.hashingFiles⟩

/-- The other fields are not touched. -/
theorem subHashing_eq {n : Int} (hsub : s.subHashing item n = some s') :
    s' = { s with hashing := s'.hashing, hashingFiles := s'.hashingFiles } := by
  obtain ⟨count, -, rfl⟩ := Option.map_eq_some_iff.mp hsub
  rfl

/-- `n` blocks of a file come back, as digests or because they have failed. -/
theorem Books.leave {n : Int} {h' : HashFile} {out : List (Segment π × Option Nat)}
    {digesting : List (Item π × Int)} (hs : Books limit s) (hh : s.files item = some h)
    (hpopped : ∀ w, Keeper.popped { s with tasksOut := out, digesting := digesting } w =
      s.popped w - w item * n)
    (hsub : Keeper.subHashing { s with tasksOut := out, digesting := digesting } item n = some s')
    (hbooked : ∀ o, 0 ≤ o → s.outstanding item = o + n → Booked (o + n) h → Booked o h') :
    Books limit { s'.setFile item h' with hashesPool := s'.hashesPool + n } := by
  have hcounted : Counted { s with tasksOut := out, digesting := digesting } s.popped :=
    ⟨hs.counted.hashing, hs.counted.hashingFiles⟩
  have hcounted' := hcounted.sub hsub hpopped
  have hpopped' : s'.popped = Keeper.popped { s with tasksOut := out, digesting := digesting } := by
    rw [subHashing_eq hsub]
    rfl
  have hwaiting : s'.waiting = s.waiting := by
    rw [subHashing_eq hsub]
    rfl
  have hleft : s'.outstanding item = s.outstanding item - n := by
    have hone := hpopped (only item)
    rw [only_self, Int.one_mul] at hone
    unfold Keeper.outstanding
    rw [hpopped', hwaiting, hone]
    omega
  have hnonneg : 0 ≤ s.outstanding item - n := hleft ▸ Keeper.outstanding_nonneg
  have hfiles : { s'.setFile item h' with hashesPool := s'.hashesPool + n }.files =
      Function.update s.files item (some h') := by
    rw [subHashing_eq hsub]
    rfl
  refine hs.change (n := -n) ?_ hfiles (fun w => ?_) ?_ ?_
  · show s'.hashesPool + n = s.hashesPool - -n
    rw [subHashing_eq hsub]
    dsimp only
    omega
  · show s'.waiting w + s'.popped w = s.waiting w + s.popped w + w item * -n
    rw [hwaiting, hpopped', hpopped, Int.mul_neg]
    omega
  · show Counted _ s'.popped
    rw [hpopped']
    exact ⟨hcounted'.hashing, hcounted'.hashingFiles⟩
  · refine hbooked _ (by omega) (by omega) ?_
    rw [Int.neg_add_cancel_right]
    exact hs.booked item h hh

/-- A segment comes back. -/
theorem Books.report {i : Nat} {folder : Bool} (hs : Books limit s)
    (hcond : Accountable s (.report i folder)) (hstep : s.step (.report i folder) = some s') :
    Books limit s' := by
  obtain ⟨⟨g, error⟩, hg, hpost⟩ := Option.bind_eq_some_iff.mp hstep
  have hsum : ∀ w, Keeper.popped { s with tasksOut := s.tasksOut.eraseIdx i } w =
      s.popped w - if error = none then 0 else w g.item * g.blockCount := by
    intro w
    unfold Keeper.popped
    dsimp only
    rw [total_eraseIdx hg]
    dsimp only
    omega
  cases error with
  | none =>
    have hgone : folder = true ∨ ∀ g' ∈ s.pendingIo, g'.item.context ≠ g.item.context := by
      simpa only [Accountable, hg] using hcond
    have hsame : Keeper.popped { s with tasksOut := s.tasksOut.eraseIdx i } = s.popped :=
      funext fun w => (hsum w).trans (Int.sub_zero _)
    have hbooks : Books limit { s with tasksOut := s.tasksOut.eraseIdx i } := by
      refine hs.move rfl rfl (fun w => congrArg _ (congrFun hsame w)) ?_
      rw [hsame]
      exact ⟨hs.counted.hashing, hs.counted.hashingFiles⟩
    cases folder with
    | true =>
      obtain rfl := Option.some.inj hpost
      exact hbooks
    | false =>
      obtain rfl := Option.some.inj hpost
      have hnothing : s.pendingIo.filter (fun g' => g'.item.context ≠ g.item.context) = s.pendingIo :=
        List.filter_eq_self.mpr fun g' hg' => decide_eq_true (hgone.resolve_left Bool.false_ne_true g' hg')
      unfold Keeper.dropFolder
      dsimp only
      rw [hnothing]
      exact hbooks.withStack _
  | some current =>
    obtain ⟨rfl, rfl, hrefused⟩ : folder = true ∧ current = 0 ∧
        ∀ h ∈ s.files g.item, h.refused = 0 := by simpa only [Accountable, hg] using hcond
    obtain ⟨h, hh, hrest⟩ := Option.bind_eq_some_iff.mp hpost
    obtain ⟨t, ht, heq⟩ := Option.bind_eq_some_iff.mp hrest
    obtain rfl := Option.some.inj heq
    have hcount : (0 : Int) < g.blockCount := Int.natCast_pos.mpr g.blockCount_pos
    exact hs.leave hh hsum ht fun o ho _ hb => hb.fail ho hcount (hrefused h hh)

/-- A digest comes back. -/
theorem Books.digest {i : Nat} {ok folder : Bool} (hs : Books limit s)
    (hcond : Accountable s (.digest i ok folder)) (hstep : s.step (.digest i ok folder) = some s') :
    Books limit s' := by
  obtain ⟨⟨item, index⟩, hi, hpost⟩ := Option.bind_eq_some_iff.mp hstep
  obtain ⟨rfl, hlast⟩ : folder = true ∧ ∀ h ∈ s.files item, s.outstanding item = 1 →
      h.failed = 0 ∧ (ok = false ∨ 0 < h.refused → h.unprocessedBlocks = 0) := by
    simpa only [Accountable, hi] using hcond
  have hsum : ∀ w, Keeper.popped { s with digesting := s.digesting.eraseIdx i } w =
      s.popped w - w item * 1 := by
    intro w
    unfold Keeper.popped
    dsimp only
    rw [total_eraseIdx hi]
    dsimp only
    omega
  obtain ⟨h, hh, hrest⟩ := Option.bind_eq_some_iff.mp hpost
  obtain ⟨-, hrest⟩ := Option.ite_none_left_eq_some.mp hrest
  obtain ⟨t, ht, heq⟩ := Option.bind_eq_some_iff.mp hrest
  obtain rfl := Option.some.inj heq
  refine hs.leave hh hsum ht fun o ho hout hb => hb.digest ho fun hzero => ?_
  exact hlast h hh (by omega)

theorem books_initial : Books limit (Keeper.initial π limit) := by
  have hpopped : ∀ w, Keeper.popped (Keeper.initial π limit) w = 0 := fun _ => rfl
  have hwaiting : ∀ w, Keeper.waiting (Keeper.initial π limit) w = 0 := fun _ => rfl
  refine ⟨?_, ⟨fun context => (hpopped _).symm, fun context path => ?_⟩, fun item h hh => ?_, fun item _ => ?_⟩
  · rw [hwaiting, hpopped, Int.add_zero, Int.add_zero]
    rfl
  · rw [hpopped, if_pos rfl]
    rfl
  · cases hh
  · unfold Keeper.outstanding
    rw [hwaiting, hpopped]
    rfl

/-- **The hash budget**: in every run whose steps meet the condition the pool, the counters and the
files agree with what is outstanding. -/
theorem accounted_of_run (limit : Int) (events : List (Event π))
    (hmeets : Run.Meets Keeper.step Accountable (Keeper.initial π limit) events)
    (hrun : Run.exec Keeper.step (Keeper.initial π limit) events = some s) : Accounted limit s := by
  have hstep : ∀ (s : Keeper π) (e : Event π) (s' : Keeper π), Books limit s → Accountable s e →
      s.step e = some s' → Books limit s' := by
    intro s e s' hs hcond hstep
    cases e with
    | push item size blockSize totalBlocks incomplete => exact hs.push hstep
    | schedule item => exact hs.schedule hstep
    | pop context => exact hs.pop hstep
    | execute i disk => exact hs.execute hstep
    | report i folder => exact hs.report hcond hstep
    | digest i ok folder => exact hs.digest hcond hstep
  exact (Run.exec_inv hstep books_initial hmeets hrun).accounted

end Runs

/-- Two blocks of a file are hashed, and the third cannot be read any more. -/
def vanished : List (Event String) :=
  [.push ⟨0, "a", 0⟩ 30 10 3 false, .schedule ⟨0, "a", 0⟩, .pop 0, .execute 0 ⟨true, fun _ => true⟩,
    .report 0 true, .digest 1 true true, .digest 0 true true, .schedule ⟨0, "a", 0⟩, .pop 0,
    .execute 0 ⟨false, fun _ => true⟩, .report 0 true]

theorem accounted_of_vanished :
    ∃ s, Run.exec Keeper.step (Keeper.initial String 2) vanished = some s ∧ Accounted 2 s :=
  ⟨_, rfl, accounted_of_run 2 vanished (by decide) rfl⟩

/-- A block that cannot be read is never put back. Neither is an error committed if a digest of the file
comes after it. -/
theorem budget_lost :
    (Run.exec Keeper.step (Keeper.initial String 1)
      [.push ⟨0, "a", 0⟩ 10 10 1 false, .schedule ⟨0, "a", 0⟩, .pop 0,
        .execute 0 ⟨true, fun _ => false⟩, .report 0 true]).map
      (fun s => (s.hashesPool, s.waiting every, s.popped every)) = some (0, 0, 0) ∧
    (Run.exec Keeper.step (Keeper.initial String 2)
      [.push ⟨0, "a", 0⟩ 30 10 3 false, .schedule ⟨0, "a", 0⟩, .pop 0, .execute 0 ⟨true, fun _ => true⟩,
        .report 0 true, .digest 0 true true, .schedule ⟨0, "a", 0⟩, .pop 0,
        .execute 0 ⟨false, fun _ => true⟩, .report 0 true, .digest 0 true true]).map
      (fun s => (s.outstanding ⟨0, "a", 0⟩,
        (s.files ⟨0, "a", 0⟩).map fun h => (h.unprocessedBlocks, h.unhashedBlocks, h.committed))) =
        some (0, some (0, 1, false)) ∧
    ¬ ∀ (limit : Int) (events : List (Event String)) (s : Keeper String),
      Run.exec Keeper.step (Keeper.initial String limit) events = some s → Accounted limit s := by
  have hlost : (Run.exec Keeper.step (Keeper.initial String 1)
      [.push ⟨0, "a", 0⟩ 10 10 1 false, .schedule ⟨0, "a", 0⟩, .pop 0,
        .execute 0 ⟨true, fun _ => false⟩, .report 0 true]).map
      (fun s => (s.hashesPool, s.waiting every, s.popped every)) = some (0, 0, 0) := by decide
  refine ⟨hlost, by decide, fun hall => ?_⟩
  obtain ⟨s, hs, heq⟩ := Option.map_eq_some_iff.mp hlost
  have hpool := (hall 1 _ s hs).pool
  simp only [Prod.mk.injEq] at heq
  omega

end Hashing

end SyncSpirit
