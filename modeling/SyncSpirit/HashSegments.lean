import SyncSpirit.HashBudget
import SyncSpirit.Lib.Cut

/-!
# The segments of a file (`net/local_keeper/hash_base.cpp`, `fs/task/segment_iterator.cpp`)

A file is hashed in blocks, and the blocks are read in segments, as many at a time as the budget
allows. The number of blocks is computed when the hash item is made: from the size of the file
alone (`get_block_size`), from the block size of a peer's file of that size (`hash_base_t`),
or it is the number of the peer's blocks (`hash_incomplete_file_t`). The segments are cut later (`schedule_hash`),
and each of them is read block by block (`segment_iterator_t::process`).

`hash_base_t` asks for a last block with the remainder of the wrong division, by the number of blocks. `Fits`
says when that makes no difference, and `partitions_iff` that then, and only then, the blocks
are a partition of the file, whatever the budgets are.
-/

namespace SyncSpirit

namespace Hashing

open Cut

/-! ## `get_block_size` (fs/utils.cpp) -/

/-- `block_sizes`. -/
def blockSizes : List Int := [2 ^ 17, 2 ^ 18, 2 ^ 19, 2 ^ 20, 2 ^ 21, 2 ^ 22, 2 ^ 23, 2 ^ 24]

/-- `max_blocks_count`. -/
def maxBlocksCount : Int := 2000

/-- `block_division_t`. -/
structure BlockDivision where
  count : Int
  size : Int
  deriving DecidableEq, Repr

/-- The block size that has been used before, if the file still has a full block of the smallest size. -/
def keptSize (sz prevSize : Int) : Int :=
  if 2 ^ 17 ≤ sz then (blockSizes.find? fun b => b = prevSize).getD 0 else 0

/-- The smallest block size with at most `max_blocks_count` blocks. -/
def smallestSize (sz : Int) : Int :=
  ((blockSizes.find? fun b => sz ≤ b * maxBlocksCount).map fun b => min b sz).getD 0

/-- The end of `get_block_size`; `count` and `size` are `std::int32_t`. -/
def divide (sz bs : Int) : BlockDivision :=
  if bs = 0 then ⟨0, 0⟩
  else
    let count := (sz.tdiv bs).bmod (2 ^ 32)
    ⟨if count * bs < sz then (count + 1).bmod (2 ^ 32) else count, bs.bmod (2 ^ 32)⟩

/-- `get_block_size`. -/
def getBlockSize (sz prevSize : Int) : BlockDivision :=
  let bs := keptSize sz prevSize
  let bs := if bs = 0 then smallestSize sz else bs
  divide sz (if bs = 0 ∧ sz ≠ 0 then 2 ^ 24 else bs)

/-! ## The hash items -/

/-- `hash_base_t::hash_base_t`. The block size is converted to `std::uintmax_t` for the divisions, and the count to
`std::int32_t` at the end. `none` is a division by zero. -/
def hashBase (size : UInt64) (blockSize : Int32) : Option HashFile :=
  if blockSize = 0 then
    let div := getBlockSize (Int.bmod size.toNat (2 ^ 64)) 0
    some (.create size.toNat div.size div.count false)
  else
    let count := size.toNat / (blockSize.toInt % 2 ^ 64).toNat
    if count = 0 then none
    else
      let count := if size.toNat % count ≠ 0 then count + 1 else count
      some (.create size.toNat blockSize.toInt (Int.bmod count (2 ^ 32)) false)

/-- `hash_incomplete_file_t`: what `hash_base_t` has computed is replaced by the peer's block size and the number of
its blocks. -/
def hashIncompleteFile (size : UInt64) (blockSize : Int32) (total : UInt32) : HashFile :=
  .create size.toNat blockSize.toInt (Int.bmod total.toNat (2 ^ 32)) true

/-- How a hash item is made: for a file as it is, with a peer's block size or zero, or for an incomplete
file of a peer. -/
inductive Origin where
  | base (blockSize : Int32)
  | incomplete (blockSize : Int32) (total : UInt32)

def Origin.create (size : UInt64) : Origin → Option HashFile
  | .base blockSize => hashBase size blockSize
  | .incomplete blockSize total => some (hashIncompleteFile size blockSize total)

/-! ## The runs -/

/-- The blocks that `segment_iterator_t::process` reads. The index goes with the digest, which is stored there. -/
def Segment.pieces {π : Type} (g : Segment π) : List Piece :=
  (List.range g.blockCount).map fun j : Nat =>
    ⟨g.blockIndex + j, g.offset + g.blockSize * j, if j + 1 = g.blockCount then g.lastBlockSize else g.blockSize⟩

namespace Keeper

/-- The item is on the stack, and nothing is scheduled. -/
def start (item : Item String) (h : HashFile) : Keeper String :=
  { (initial String 0).setFile item h with stack := [item] }

/-- The item is processed with this budget, if it is still on the stack. -/
def schedule (s : Keeper String) (item : Item String) (budget : Nat) : Option (Keeper String) :=
  if item ∈ s.stack then { s with hashesPool := budget }.process item else some s

/-- One budget after another. -/
def scheduleAll (s : Keeper String) (item : Item String) (budgets : List Nat) : Option (Keeper String) :=
  budgets.foldlM (fun s budget => s.schedule item budget) s

end Keeper

/-- The item has as many blocks as the file, and with whatever budgets no assertion fails, and the segments have one
block after another: as many as the budgets allow, or all of them. -/
def Partitions (n : Nat) (h : HashFile) : Prop :=
  ∃ b : Nat, 0 < b ∧ h.blockSize = b ∧ h.totalBlocks = (n ⌈/⌉ b : Nat) ∧
    ∀ (item : Item String) (budgets : List Nat), ∃ s,
      (Keeper.start item h).scheduleAll item budgets = some s ∧
        s.pendingIo.flatMap Segment.pieces = (cut n b).take budgets.sum

/-- The condition. A block size that is given is positive and not larger than the file, the remainder of the file is no
multiple of the number of full blocks, unless it is zero, and the number of blocks fits. -/
def Origin.Fits (size : UInt64) : Origin → Prop
  | .base blockSize =>
    if blockSize = 0 then size.toNat ≤ (2 ^ 31 - 1) * 2 ^ 24
    else
      0 < blockSize.toInt ∧ blockSize.toInt ≤ size.toNat ∧
        (size.toNat % blockSize.toInt.toNat = 0 ∨
          size.toNat % blockSize.toInt.toNat % (size.toNat / blockSize.toInt.toNat) ≠ 0) ∧
        size.toNat ⌈/⌉ blockSize.toInt.toNat < 2 ^ 31
  | .incomplete blockSize total =>
    0 < blockSize.toInt ∧ total.toNat < 2 ^ 31 ∧ total.toNat = size.toNat ⌈/⌉ blockSize.toInt.toNat ∧
      (total.toNat = 1 → blockSize.toInt = size.toNat)

instance (size : UInt64) (origin : Origin) : Decidable (origin.Fits size) := by
  cases origin <;> unfold Origin.Fits <;> infer_instance

/-! ## One step -/

/-- The item is right: this is what the constructors should give. -/
structure Even (n b : Nat) (h : HashFile) : Prop where
  pos : 0 < b
  size : h.size = n
  blockSize : h.blockSize = b
  total : h.totalBlocks = (n ⌈/⌉ b : Nat)
  single : n ⌈/⌉ b = 1 → b = n
  errored : h.erroredBlocks = 0

/-- The first `k` blocks are scheduled. -/
structure Scheduled (n b : Nat) (item : Item String) (h : HashFile) (k : Nat) (s : Keeper String) : Prop where
  le : k ≤ n ⌈/⌉ b
  files : s.files item = some { h with unprocessedBlocks := h.totalBlocks - k }
  stack : s.stack = if k = n ⌈/⌉ b then [] else [item]
  pieces : s.pendingIo.flatMap Segment.pieces = (cut n b).take k

variable {n b k : Nat} {item : Item String} {h : HashFile} {s : Keeper String}

/-- The last block of a segment has the size it should have. -/
theorem Even.lastBlockSize (he : Even n b h) {m : Nat} (hm : 0 < m) (hle : k + m ≤ n ⌈/⌉ b) :
    HashFile.lastBlockSize { h with unprocessedBlocks := h.totalBlocks - k } m = (piece n b (k + (m - 1))).size := by
  have hn : n ≤ b * (n ⌈/⌉ b) := (ceilDiv_le_iff_le_mul he.pos).mp le_rfl
  have hlast := size_piece he.pos (show k + (m - 1) < n ⌈/⌉ b by omega)
  unfold HashFile.lastBlockSize
  dsimp only
  rw [he.total, he.size, he.blockSize]
  split
  · next hwhole =>
    -- the segment ends the file, which has some blocks before
    have hind : k + (m - 1) = n ⌈/⌉ b - 1 := by omega
    have hstart := start_lt he.pos (show n ⌈/⌉ b - 1 < n ⌈/⌉ b by omega)
    have hmul : b * (n ⌈/⌉ b) = b * (n ⌈/⌉ b - 1) + b := by
      rw [← Nat.mul_succ]
      congr 1
      omega
    have hcast : (b : Int) * ((n ⌈/⌉ b : Nat) - 1) = (b * (n ⌈/⌉ b - 1) : Nat) := by
      rw [Nat.cast_mul, Nat.cast_sub (by omega)]
      rfl
    rw [hind, piece, hcast]
    dsimp only
    rw [← Nat.cast_mul]
    omega
  · next hpart =>
    by_cases hnext : k + (m - 1) + 1 < n ⌈/⌉ b
    · exact (hlast.2.2 hnext).symm
    · -- the only block
      have hone : n ⌈/⌉ b = 1 := by omega
      have hzero : k + (m - 1) = 0 := by omega
      rw [hzero, piece, ← he.single hone]
      simp

theorem pieces_segment {g : Segment String} (hb : 0 < b) (hle : k + g.blockCount ≤ n ⌈/⌉ b)
    (hindex : g.blockIndex = k) (hoffset : g.offset = k * b) (hsize : g.blockSize = b)
    (hlast : g.lastBlockSize = (piece n b (k + (g.blockCount - 1))).size) :
    g.pieces = (List.range g.blockCount).map fun j => piece n b (k + j) := by
  unfold Segment.pieces
  refine List.map_congr_left fun j hj => ?_
  rw [List.mem_range] at hj
  have hmul : (k * b + b * j : Int) = b * (k + j : Nat) := by
    push_cast
    ring
  rw [hindex, hoffset, hsize, hmul, hlast]
  by_cases hj' : j + 1 = g.blockCount
  · rw [if_pos hj', show g.blockCount - 1 = j by omega]
    rfl
  · have hfull := (size_piece hb (show k + j < n ⌈/⌉ b by omega)).2.2 (by omega)
    rw [if_neg hj']
    exact congrArg (Piece.mk _ _) hfull.symm

namespace Keeper

/-- Without a budget nothing is scheduled. -/
theorem scheduleHash_zero (herr : h.erroredBlocks = 0) (hpool : s.hashesPool = 0) :
    s.scheduleHash item h = some (s, -1) := by
  rw [scheduleHash, if_neg (not_not.mpr herr), if_pos hpool]

/-- What a segment is made of, and how the item goes on. -/
theorem scheduleHash_segment {m : Nat} (herr : h.erroredBlocks = 0) (hpool : s.hashesPool ≠ 0)
    (hm : min s.hashesPool h.unprocessedBlocks = m) (hpos : 0 < m) (hlast : 0 < h.lastBlockSize m) :
    ∃ g : Segment String, ∃ s', s.scheduleHash item h = some (s', if h.unprocessedBlocks - m = 0 then 0 else -1) ∧
      s'.pendingIo = s.pendingIo ++ [g] ∧ s'.stack = s.stack ∧
      s'.files = Function.update s.files item (some { h with unprocessedBlocks := h.unprocessedBlocks - m }) ∧
      g.blockIndex = h.totalBlocks - h.unprocessedBlocks ∧
      g.offset = (h.totalBlocks - h.unprocessedBlocks) * h.blockSize ∧
      g.blockCount = m ∧ g.blockSize = h.blockSize ∧ g.lastBlockSize = h.lastBlockSize m := by
  have hno : ¬(h.lastBlockSize m ≤ 0 ∨ (m : Int) ≤ 0) := by omega
  let g : Segment String := ⟨item, (h.totalBlocks - h.unprocessedBlocks) * h.blockSize,
    h.totalBlocks - h.unprocessedBlocks, m, h.blockSize, h.lastBlockSize m, hpos⟩
  refine ⟨g, { s.setFile item { h with unprocessedBlocks := h.unprocessedBlocks - m } with
    pendingIo := s.pendingIo ++ [g], hashesPool := s.hashesPool - m }, ?_, rfl, rfl, rfl, rfl, rfl, rfl, rfl, rfl⟩
  rw [scheduleHash, if_neg (not_not.mpr herr), if_neg hpool]
  simp only [hm, dif_neg hno, Int.toNat_natCast]
  rfl

theorem process_eq {t : Keeper String} {result : Int} (hfiles : s.files item = some h)
    (hrun : s.scheduleHash item h = some (t, result)) :
    s.process item = some (if 0 ≤ result then { t with stack := t.stack.erase item } else t) := by
  rw [process, hfiles]
  show (s.scheduleHash item h).bind _ = _
  rw [hrun]
  rfl

end Keeper

/-- **One budget**: so many blocks more, or all that are left. -/
theorem Scheduled.schedule (he : Even n b h) (hs : Scheduled n b item h k s) (budget : Nat) :
    ∃ s', s.schedule item budget = some s' ∧ Scheduled n b item h (min (n ⌈/⌉ b) (k + budget)) s' := by
  have hle := hs.le
  unfold Keeper.schedule
  by_cases hdone : k = n ⌈/⌉ b
  · rw [hs.stack, if_pos hdone, if_neg List.not_mem_nil]
    rw [show min (n ⌈/⌉ b) (k + budget) = k by omega]
    exact ⟨s, rfl, hs⟩
  · have hstack : s.stack = [item] := hs.stack.trans (if_neg hdone)
    rw [if_pos (by rw [hstack]; exact List.mem_singleton_self item)]
    by_cases hbudget : budget = 0
    · subst hbudget
      rw [Nat.add_zero, Nat.min_eq_right hle]
      have hzero := @Keeper.scheduleHash_zero item { h with unprocessedBlocks := h.totalBlocks - k }
        { s with hashesPool := (0 : Nat) } he.errored rfl
      exact ⟨_, Keeper.process_eq hs.files hzero, hs.le, hs.files, hs.stack, hs.pieces⟩
    · have hm : min (budget : Int) (h.totalBlocks - k) = (min budget (n ⌈/⌉ b - k) : Nat) := by
        rw [he.total, Nat.cast_min, Nat.cast_sub hle]
      have hlast := he.lastBlockSize (k := k) (m := min budget (n ⌈/⌉ b - k)) (by omega) (by omega)
      have hpos := (size_piece he.pos (show k + (min budget (n ⌈/⌉ b - k) - 1) < n ⌈/⌉ b by omega)).1
      obtain ⟨g, s', hrun, hpending, hstack', hfiles, hindex, hoffset, hcount, hsize, hglast⟩ :=
        @Keeper.scheduleHash_segment item { h with unprocessedBlocks := h.totalBlocks - k }
          { s with hashesPool := budget } _ he.errored (by simpa using hbudget) hm (by omega) (by rwa [hlast])
      have hless : h.totalBlocks - k - (min budget (n ⌈/⌉ b - k) : Nat) =
          h.totalBlocks - (min (n ⌈/⌉ b) (k + budget) : Nat) := by omega
      have hg : g.pieces = (List.range g.blockCount).map fun j => piece n b (k + j) := by
        refine pieces_segment he.pos (by omega) ?_ ?_ (hsize.trans he.blockSize) ?_
        · rw [hindex]
          dsimp only
          omega
        · rw [hoffset, ← he.blockSize]
          dsimp only
          rw [sub_sub_cancel]
        · rw [hglast, hcount]
          exact hlast
      have hpieces : s'.pendingIo.flatMap Segment.pieces = (cut n b).take (min (n ⌈/⌉ b) (k + budget)) := by
        rw [hpending, List.flatMap_append, List.flatMap_singleton, hs.pieces, hg, take_cut hle, hcount,
          take_cut (Nat.min_le_left ..), show min (n ⌈/⌉ b) (k + budget) = k + min budget (n ⌈/⌉ b - k) by omega,
          List.range_add, List.map_append, List.map_map]
        rfl
      have hfiles' : s'.files item =
          some { h with unprocessedBlocks := h.totalBlocks - (min (n ⌈/⌉ b) (k + budget) : Nat) } := by
        rw [hfiles, Function.update_self]
        dsimp only
        rw [hless]
      have htotal := he.total
      refine ⟨_, Keeper.process_eq hs.files hrun, Nat.min_le_left .., ?_, ?_, ?_⟩
      · split
        · exact hfiles'
        · exact hfiles'
      · dsimp only
        by_cases hall : min (n ⌈/⌉ b) (k + budget) = n ⌈/⌉ b
        · rw [if_pos (show h.totalBlocks - k - (min budget (n ⌈/⌉ b - k) : Nat) = 0 by omega), if_pos le_rfl,
            if_pos hall]
          show s'.stack.erase item = []
          rw [hstack', hstack, List.erase_cons_head]
        · rw [if_neg (show h.totalBlocks - k - (min budget (n ⌈/⌉ b - k) : Nat) ≠ 0 by omega), if_neg (by decide),
            if_neg hall]
          exact hstack'.trans hstack
      · split
        · exact hpieces
        · exact hpieces

theorem Scheduled.scheduleAll (he : Even n b h) {budgets : List Nat} (hs : Scheduled n b item h k s) :
    ∃ s', s.scheduleAll item budgets = some s' ∧ Scheduled n b item h (min (n ⌈/⌉ b) (k + budgets.sum)) s' := by
  induction budgets generalizing k s with
  | nil =>
    rw [List.sum_nil, Nat.add_zero, Nat.min_eq_right hs.le]
    exact ⟨s, rfl, hs⟩
  | cons budget budgets ih =>
    obtain ⟨t, ht, hs'⟩ := hs.schedule he budget
    obtain ⟨s', hrun, hdone⟩ := ih hs'
    refine ⟨s', ?_, ?_⟩
    · show (s.schedule item budget).bind _ = _
      rw [ht]
      exact hrun
    · rw [List.sum_cons, ← Nat.add_assoc]
      rwa [show min (n ⌈/⌉ b) (min (n ⌈/⌉ b) (k + budget) + budgets.sum) =
        min (n ⌈/⌉ b) (k + budget + budgets.sum) by omega] at hdone

theorem even_create {n b : Nat} {blockSize total : Int} {incomplete : Bool} :
    Even n b (.create n blockSize total incomplete) ↔
      0 < b ∧ blockSize = b ∧ total = (n ⌈/⌉ b : Nat) ∧ (n ⌈/⌉ b = 1 → b = n) :=
  ⟨fun h => ⟨h.pos, h.blockSize, h.total, h.single⟩, fun h => ⟨h.1, rfl, h.2.1, h.2.2.1, h.2.2.2, rfl⟩⟩

/-- The block of an item that has only one is as large as the block size, whatever the file is. -/
theorem scheduleAll_single {size blockSize : Int} {incomplete : Bool} (item : Item String) (hpos : 0 < blockSize) :
    ∃ s, (Keeper.start item (.create size blockSize 1 incomplete)).scheduleAll item [1] = some s ∧
      s.pendingIo.flatMap Segment.pieces = [⟨0, 0, blockSize⟩] := by
  have hmem : item ∈ (Keeper.start item (.create size blockSize 1 incomplete)).stack := List.mem_singleton_self item
  have hfiles : (Keeper.start item (.create size blockSize 1 incomplete)).files item =
      some (.create size blockSize 1 incomplete) := Function.update_self (f := fun _ => none) ..
  have hsize : (HashFile.create size blockSize 1 incomplete).lastBlockSize (1 : Nat) = blockSize := by
    unfold HashFile.lastBlockSize HashFile.create
    simp
  obtain ⟨g, s, hschedule, hpending, -, -, hindex, hoffset, hcount, -, hlast⟩ :=
    @Keeper.scheduleHash_segment item (.create size blockSize 1 incomplete)
      { Keeper.start item (.create size blockSize 1 incomplete) with hashesPool := (1 : Nat) } 1 rfl one_ne_zero rfl
      Nat.one_pos (by rwa [hsize])
  have hpieces : s.pendingIo.flatMap Segment.pieces = [⟨0, 0, blockSize⟩] := by
    rw [hpending]
    show [g].flatMap _ = _
    rw [List.flatMap_singleton, Segment.pieces, hcount, List.range_one, List.map_singleton, if_pos rfl, hlast, hsize,
      hindex, hoffset]
    simp [HashFile.create]
  refine ⟨{ s with stack := s.stack.erase item }, ?_, hpieces⟩
  show (Keeper.schedule _ item 1).bind _ = _
  rw [Keeper.schedule, if_pos hmem, Keeper.process_eq
    (s := { Keeper.start item (.create size blockSize 1 incomplete) with hashesPool := (1 : Nat) }) hfiles hschedule]
  rfl

/-- A new item is right if and only if its blocks are a partition of the file. -/
theorem partitions_iff_even {n : Nat} {blockSize total : Int} {incomplete : Bool} (hn : 0 < n) :
    Partitions n (.create n blockSize total incomplete) ↔
      ∃ b : Nat, Even n b (.create n blockSize total incomplete) := by
  constructor
  · rintro ⟨b, hb, hsize, htotal, hruns⟩
    refine ⟨b, hb, rfl, hsize, htotal, fun hone => ?_, rfl⟩
    change blockSize = b at hsize
    change total = (n ⌈/⌉ b : Nat) at htotal
    rw [hone] at htotal
    subst hsize htotal
    -- the only block is read
    obtain ⟨s, hrun, hpieces⟩ := hruns ⟨0, "", 0⟩ [1]
    obtain ⟨s', hrun', hpieces'⟩ := @scheduleAll_single n b incomplete ⟨0, "", 0⟩ (by exact_mod_cast hb)
    obtain rfl : s = s' := Option.some.inj (hrun.symm.trans hrun')
    have hpiece := hpieces'.symm.trans hpieces
    rw [List.sum_singleton, take_cut (Nat.le_of_eq hone.symm), List.range_one, List.map_singleton] at hpiece
    have hsize : (b : Int) = min (b : Int) (n - b * (0 : Nat)) :=
      congrArg Piece.size (List.singleton_inj.mp hpiece)
    have hle : n ≤ b * 1 := (ceilDiv_le_iff_le_mul hb).mp (Nat.le_of_eq hone)
    omega
  · rintro ⟨b, he⟩
    refine ⟨b, he.pos, he.blockSize, he.total, fun item budgets => ?_⟩
    have hpos : n ⌈/⌉ b ≠ 0 := by
      intro h0
      have := (ceilDiv_le_iff_le_mul he.pos).mp (Nat.le_of_eq h0)
      omega
    have hstart : Scheduled n b item (.create n blockSize total incomplete) 0
        (Keeper.start item (.create n blockSize total incomplete)) :=
      ⟨Nat.zero_le _, by simp [Keeper.start, Keeper.setFile, HashFile.create], by
        rw [if_neg (Ne.symm hpos)]
        rfl, rfl⟩
    obtain ⟨s, hrun, hdone⟩ := hstart.scheduleAll he
    refine ⟨s, hrun, ?_⟩
    rw [hdone.pieces, Nat.zero_add, Nat.min_comm, ← length_cut, ← List.take_take, List.take_length]

/-- With budgets for all blocks every byte of the file is read once. -/
theorem Partitions.covers (hp : Partitions n h) (item : Item String) {budgets : List Nat}
    (hall : h.totalBlocks ≤ budgets.sum) :
    ∃ s, (Keeper.start item h).scheduleAll item budgets = some s ∧
      ∀ x < n, (s.pendingIo.flatMap Segment.pieces).countP (fun p => p.Covers x) = 1 := by
  obtain ⟨b, hb, -, htotal, hruns⟩ := hp
  obtain ⟨s, hrun, hpieces⟩ := hruns item budgets
  refine ⟨s, hrun, fun x hx => ?_⟩
  have hle : (cut n b).length ≤ budgets.sum := by
    rw [length_cut]
    omega
  rw [hpieces, List.take_of_length_le hle]
  exact countP_cut hb hx

/-! ## The constructors -/

theorem bmod_lt (x : Int) : x.bmod (2 ^ 32) < 2 ^ 31 := by
  have := @Int.bmod_lt x (2 ^ 32) (by decide)
  omega

/-- A number of 31 bits is kept. -/
theorem bmod_eq {k : Nat} (h : k < 2 ^ 31) : Int.bmod k (2 ^ 32) = k := by
  rw [Int.bmod_def]
  omega

theorem keptSize_zero (sz : Int) : keptSize sz 0 = 0 := by
  unfold keptSize
  split <;> rfl

/-- The block size that `get_block_size` settles on. -/
theorem chosenSize {n : Nat} (hn : 0 < n) :
    ∃ b : Nat, (if smallestSize n = 0 ∧ (n : Int) ≠ 0 then 2 ^ 24 else smallestSize n) = b ∧
      0 < b ∧ b ≤ n ∧ b ≤ 2 ^ 24 ∧ (n ≤ b * 2000 ∨ b = 2 ^ 24) := by
  unfold smallestSize maxBlocksCount
  cases hfind : blockSizes.find? fun b => decide ((n : Int) ≤ b * 2000) with
  | none =>
    have hlarge := List.find?_eq_none.mp hfind (2 ^ 24) (by decide)
    rw [decide_eq_true_iff] at hlarge
    refine ⟨2 ^ 24, ?_, by decide, by omega, le_rfl, .inr rfl⟩
    rw [if_pos ⟨rfl, by omega⟩]
    rfl
  | some b =>
    have hle : (n : Int) ≤ b * 2000 := by simpa using List.find?_some hfind
    have hsizes : ∀ b ∈ blockSizes, 0 < b ∧ b ≤ 2 ^ 24 := by decide
    have hb := hsizes b (List.mem_of_find?_eq_some hfind)
    rw [Option.map_some, Option.getD_some, if_neg (by omega)]
    refine ⟨(min b n).toNat, by omega, by omega, by omega, by omega, ?_⟩
    left
    rcases Int.le_total b n with hcase | hcase
    · rw [Int.min_eq_left hcase]
      omega
    · rw [Int.min_eq_right hcase]
      omega

theorem getBlockSize_spec {n : Nat} (hn : 0 < n) :
    ∃ b : Nat, getBlockSize n 0 = divide n b ∧ 0 < b ∧ b ≤ n ∧ b ≤ 2 ^ 24 ∧ (n ≤ b * 2000 ∨ b = 2 ^ 24) := by
  obtain ⟨b, hchosen, hb⟩ := chosenSize hn
  refine ⟨b, ?_, hb⟩
  rw [← hchosen, getBlockSize, keptSize_zero]
  rfl

/-- Both fields have 32 bits. -/
theorem getBlockSize_lt (sz prevSize : Int) :
    (getBlockSize sz prevSize).count < 2 ^ 31 ∧ (getBlockSize sz prevSize).size < 2 ^ 31 := by
  unfold getBlockSize
  extract_lets bs bs'
  generalize (if bs' = 0 ∧ sz ≠ 0 then 2 ^ 24 else bs' : Int) = size
  unfold divide
  split
  · exact ⟨by decide, by decide⟩
  · refine ⟨?_, bmod_lt _⟩
    show (if _ then _ else _ : Int) < _
    split
    · exact bmod_lt _
    · exact bmod_lt _

/-- The division is right if the number of blocks fits. -/
theorem divide_eq {n b : Nat} (hb : 0 < b) (hsize : b < 2 ^ 31) (hcount : n ⌈/⌉ b < 2 ^ 31) :
    divide n b = ⟨(n ⌈/⌉ b : Nat), b⟩ := by
  have hdiv := Nat.div_add_mod' n b
  have hceil := ceilDiv_eq (n := n) hb
  have hcast : ((n / b : Nat) : Int) * b = (n / b * b : Nat) := (Nat.cast_mul _ _).symm
  rw [divide, if_neg (by omega), ← Int.ofNat_tdiv, bmod_eq (by omega), bmod_eq hsize]
  dsimp only
  rw [hcast]
  by_cases hmod : n % b = 0
  · rw [if_pos hmod] at hceil
    rw [if_neg (by omega), hceil]
    rfl
  · rw [if_neg hmod] at hceil
    rw [if_pos (by omega), ← Nat.cast_succ, bmod_eq (by omega), hceil]

/-- The largest block size is enough. -/
theorem div_lt {n b : Nat} (hb : 0 < b) (hcase : n ≤ b * 2000 ∨ b = 2 ^ 24) (hn : n ≤ (2 ^ 31 - 1) * 2 ^ 24) :
    n ⌈/⌉ b < 2 ^ 31 := by
  rcases hcase with hsmall | rfl
  · have := (ceilDiv_le_iff_le_mul hb).mpr hsmall
    omega
  · have := (ceilDiv_le_iff_le_mul hb).mpr (show n ≤ 2 ^ 24 * (2 ^ 31 - 1) by omega)
    omega

/-- A file size is not negative as `std::int64_t`. -/
theorem bmod_size {n : Nat} (h : n < 2 ^ 63) : Int.bmod n (2 ^ 64) = n := by
  rw [Int.bmod_def]
  omega

/-- **A chosen block size** is right up to the number of blocks that `std::int32_t` has. -/
theorem even_chosen {size : UInt64} (hsize : 0 < size.toNat) :
    (∃ h, hashBase size 0 = some h ∧ ∃ b, Even size.toNat b h) ↔ size.toNat ≤ (2 ^ 31 - 1) * 2 ^ 24 := by
  have hzero : hashBase size 0 = some (.create size.toNat (getBlockSize (Int.bmod size.toNat (2 ^ 64)) 0).size
      (getBlockSize (Int.bmod size.toNat (2 ^ 64)) 0).count false) := by
    rw [hashBase, if_pos rfl]
  rw [hzero]
  constructor
  · rintro ⟨h, hh, b, he⟩
    obtain rfl := Option.some.inj hh
    obtain ⟨hb, hblock, htotal, -⟩ := even_create.mp he
    have hle : size.toNat ≤ b * (size.toNat ⌈/⌉ b) := (ceilDiv_le_iff_le_mul hb).mp le_rfl
    have hbounds := getBlockSize_lt (Int.bmod size.toNat (2 ^ 64)) 0
    -- the size is not negative for `get_block_size`, so the block size is one of its choices
    have hsmall : b * (size.toNat ⌈/⌉ b) ≤ 2 ^ 31 * 2 ^ 31 := Nat.mul_le_mul (by omega) (by omega)
    rw [bmod_size (by omega)] at hblock
    obtain ⟨b', heq, hb', -, hmax, -⟩ := getBlockSize_spec hsize
    have hmul : b * (size.toNat ⌈/⌉ b) ≤ 2 ^ 24 * (2 ^ 31 - 1) := by
      refine Nat.mul_le_mul ?_ (by omega)
      rw [heq, divide, if_neg (by omega)] at hblock
      dsimp only at hblock
      rw [bmod_eq (by omega)] at hblock
      omega
    omega
  · intro hle
    rw [bmod_size (by omega)]
    obtain ⟨b, heq, hb, hbn, hmax, hcase⟩ := getBlockSize_spec hsize
    rw [heq, divide_eq hb (by omega) (div_lt hb hcase hle)]
    refine ⟨_, rfl, b, even_create.mpr ⟨hb, rfl, rfl, fun hone => ?_⟩⟩
    have := (ceilDiv_le_iff_le_mul hb).mp (Nat.le_of_eq hone)
    omega

/-- The blocks that `hash_base_t` counts: the remainder is one by the number of blocks. -/
def counted (n b : Nat) : Nat := n / b + if n % (n / b) ≠ 0 then 1 else 0

theorem hashBase_given {size : UInt64} {blockSize : Int32} {b : Nat} (hgiven : blockSize ≠ 0)
    (hb : (blockSize.toInt % 2 ^ 64).toNat = b) :
    hashBase size blockSize = if size.toNat / b = 0 then none
      else some (.create size.toNat blockSize.toInt (Int.bmod (counted size.toNat b) (2 ^ 32)) false) := by
  rw [hashBase, if_neg hgiven, hb, counted]
  dsimp only
  split
  · rfl
  · split <;> rfl

/-- The remainder by the number of blocks is that of the rest of the file. -/
theorem counted_eq {n b : Nat} : counted n b = n / b + if n % b % (n / b) ≠ 0 then 1 else 0 := by
  have hmod : n % (n / b) = (b * (n / b) + n % b) % (n / b) := by rw [Nat.div_add_mod]
  rw [counted, hmod, Nat.mul_add_mod']

/-- One block may be missing. -/
theorem counted_le {n b : Nat} (hb : 0 < b) : counted n b ≤ n ⌈/⌉ b ∧ n ⌈/⌉ b ≤ counted n b + 1 := by
  rw [counted_eq, ceilDiv_eq hb]
  by_cases hrest : n % b = 0
  · rw [if_pos hrest, hrest, Nat.zero_mod, if_neg (not_not.mpr rfl)]
    omega
  · rw [if_neg hrest]
    split <;> omega

theorem counted_eq_iff {n b : Nat} (hb : 0 < b) :
    counted n b = n ⌈/⌉ b ↔ n % b = 0 ∨ n % b % (n / b) ≠ 0 := by
  rw [counted_eq, ceilDiv_eq hb]
  by_cases hrest : n % b = 0
  · rw [hrest, Nat.zero_mod]
    simp
  · rw [if_neg hrest]
    by_cases hcode : n % b % (n / b) = 0
    · rw [if_neg (not_not.mpr hcode)]
      simp [hrest, hcode]
    · rw [if_pos hcode]
      simp [hcode]

/-- **A given block size** is right if the rest of the file gets its own block. -/
theorem even_given {size : UInt64} {blockSize : Int32} (hgiven : blockSize ≠ 0) :
    (∃ h, hashBase size blockSize = some h ∧ ∃ b, Even size.toNat b h) ↔
      0 < blockSize.toInt ∧ blockSize.toInt ≤ size.toNat ∧
        (size.toNat % blockSize.toInt.toNat = 0 ∨
          size.toNat % blockSize.toInt.toNat % (size.toNat / blockSize.toInt.toNat) ≠ 0) ∧
        size.toNat ⌈/⌉ blockSize.toInt.toNat < 2 ^ 31 := by
  have hbits := blockSize.toInt_lt
  constructor
  · rintro ⟨h, hh, b, he⟩
    rw [hashBase_given hgiven rfl] at hh
    obtain ⟨hcount, hh⟩ := Option.ite_none_left_eq_some.mp hh
    obtain rfl := Option.some.inj hh
    obtain ⟨hb, hblock, htotal, -⟩ := even_create.mp he
    rw [hblock] at hcount htotal hbits ⊢
    have hdivisor : ((b : Int) % 2 ^ 64).toNat = b := by omega
    rw [hdivisor] at hcount htotal
    rw [Int.toNat_natCast]
    have hle : b ≤ size.toNat := by
      by_contra hgt
      exact hcount (Nat.div_eq_of_lt (Nat.not_le.mp hgt))
    have hfits := bmod_lt (counted size.toNat b)
    have hfew := counted_le (n := size.toNat) hb
    refine ⟨by exact_mod_cast hb, by exact_mod_cast hle, (counted_eq_iff hb).mp ?_, by omega⟩
    rw [bmod_eq (by omega)] at htotal
    exact_mod_cast htotal
  · rintro ⟨hpos, hle, hrest, hfits⟩
    obtain ⟨b, hblock⟩ := Int.eq_ofNat_of_zero_le (Int.le_of_lt hpos)
    rw [hblock] at hpos hle hrest hfits hbits
    rw [Int.toNat_natCast] at hrest hfits
    have hb : 0 < b := by exact_mod_cast hpos
    have hle : b ≤ size.toNat := by exact_mod_cast hle
    have hdivisor : (blockSize.toInt % 2 ^ 64).toNat = b := by
      rw [hblock]
      omega
    have hcount : size.toNat / b ≠ 0 := by
      rw [Nat.div_ne_zero_iff]
      omega
    rw [hashBase_given hgiven hdivisor, if_neg hcount, (counted_eq_iff hb).mpr hrest, bmod_eq hfits]
    refine ⟨_, rfl, b, even_create.mpr ⟨hb, hblock, rfl, fun hone => ?_⟩⟩
    have := (ceilDiv_le_iff_le_mul hb).mp (Nat.le_of_eq hone)
    omega

theorem create_eq {size : UInt64} {origin : Origin} {h : HashFile} (hh : origin.create size = some h) :
    ∃ blockSize total incomplete, h = .create size.toNat blockSize total incomplete := by
  cases origin with
  | base blockSize =>
    change hashBase size blockSize = some h at hh
    by_cases hgiven : blockSize = 0
    · rw [hashBase, if_pos hgiven] at hh
      exact ⟨_, _, _, (Option.some.inj hh).symm⟩
    · rw [hashBase_given hgiven rfl] at hh
      exact ⟨_, _, _, (Option.some.inj (Option.ite_none_left_eq_some.mp hh).2).symm⟩
  | incomplete blockSize total => exact ⟨_, _, _, (Option.some.inj hh).symm⟩

theorem even_incomplete {size : UInt64} {blockSize : Int32} {total : UInt32} :
    (∃ b, Even size.toNat b (hashIncompleteFile size blockSize total)) ↔
      (Origin.incomplete blockSize total).Fits size := by
  have hbits : total.toNat < 2 ^ 32 := total.toNat_lt
  constructor
  · rintro ⟨b, he⟩
    obtain ⟨hb, hblock, htotal, hone⟩ := even_create.mp he
    have hfits := bmod_lt total.toNat
    have hsame : total.toNat = size.toNat ⌈/⌉ b := by
      rw [Int.bmod_def] at htotal
      omega
    rw [Origin.Fits, hblock, Int.toNat_natCast]
    refine ⟨by exact_mod_cast hb, by omega, hsame, fun h1 => ?_⟩
    exact_mod_cast hone (hsame.symm.trans h1)
  · rintro ⟨hpos, hfits, hsame, hone⟩
    obtain ⟨b, hblock⟩ := Int.eq_ofNat_of_zero_le (Int.le_of_lt hpos)
    rw [hblock] at hpos hsame hone
    rw [Int.toNat_natCast] at hsame
    refine ⟨b, even_create.mpr ⟨by exact_mod_cast hpos, hblock, ?_, fun h1 => ?_⟩⟩
    · rw [bmod_eq hfits, hsame]
    · exact_mod_cast hone (hsame.trans h1)

theorem partitions_iff_create {size : UInt64} (hsize : 0 < size.toNat) {origin : Origin} :
    (∃ h, origin.create size = some h ∧ Partitions size.toNat h) ↔
      ∃ h, origin.create size = some h ∧ ∃ b, Even size.toNat b h := by
  refine exists_congr fun h => and_congr_right fun hh => ?_
  obtain ⟨blockSize, total, incomplete, rfl⟩ := create_eq hh
  exact partitions_iff_even hsize

/-- **When hashing partitions a file**: exactly if the blocks are counted right. -/
theorem partitions_iff (size : UInt64) (hsize : 0 < size.toNat) (origin : Origin) :
    (∃ h, origin.create size = some h ∧ Partitions size.toNat h) ↔ origin.Fits size := by
  rw [partitions_iff_create hsize]
  cases origin with
  | base blockSize =>
    show (∃ h, hashBase size blockSize = some h ∧ _) ↔ _
    rw [Origin.Fits]
    split
    · next hzero =>
      subst hzero
      exact even_chosen hsize
    · next hgiven => exact even_given hgiven
  | incomplete blockSize total =>
    rw [← even_incomplete]
    refine ⟨?_, fun he => ⟨_, rfl, he⟩⟩
    rintro ⟨h, hh, he⟩
    cases hh
    exact he

/-- Three full blocks and a rest of 5 bytes. -/
theorem partitions_with_rest :
    ∃ h, (Origin.base 131072).create 393221 = some h ∧ Partitions 393221 h :=
  (partitions_iff 393221 (by decide) (.base 131072)).mpr (by decide)

/-- Two full blocks and a rest of 2 bytes: the rest is divided by the number of blocks, so it is part of the
second block. -/
theorem rest_lost :
    ¬ ∀ (size : UInt64) (origin : Origin), 0 < size.toNat →
      ∃ h, origin.create size = some h ∧ Partitions size.toNat h := by
  intro h
  obtain ⟨-, -, hrest, -⟩ := (@even_given 262146 131072 (by decide)).mp
    ((partitions_iff_create (by decide)).mp (h 262146 (.base 131072) (by decide)))
  revert hrest
  decide

end Hashing

end SyncSpirit
