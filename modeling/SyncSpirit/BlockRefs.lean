import SyncSpirit.BlockOffset
import SyncSpirit.Lib.Run

/-!
# The back references of a block (`model/block_info.cpp`)

The files that have a block are kept in a union: one back reference, or a vector of them. Which one it is, is said
by a bit of the word that the reference counter and the lock are in. What the union and the word stand for is a
plain list with a counter and a flag (`Plain`), and every operation does to the list what it should
(`Refines.step`), as long as the counter stays in its 30 bits and an index in its 31.

- `testBit_word`: the bits of the word;
- `collect_spec`: the iterator gives the entries in their order;
- `mirrors_of_run`: the whole run.
-/

namespace SyncSpirit

namespace BlockRefs

open BlockOffset Backlink

/-! ## The word -/

/-- `LOCK_MASK`. -/
def lockMask : UInt32 := 0x80000000

/-- `SINGLE_MASK`. -/
def singleMask : UInt32 := 0x40000000

/-- `COUNTER_MASK`. -/
def counterMask : UInt32 := ~~~ (lockMask ||| singleMask)

/-- The word of a lock, a kind of union and a count. -/
def word (locked single : Bool) (count : Nat) : UInt32 :=
  (if locked then lockMask else 0) ||| (if single then singleMask else 0) ||| .ofNat count

section Word

variable {locked single : Bool} {count i : Nat}

theorem eq_of_testBit {x y : UInt32} (h : ∀ i < 32, x.toNat.testBit i = y.toNat.testBit i) : x = y := by
  refine UInt32.toNat_inj.mp (Nat.eq_of_testBit_eq fun i => ?_)
  by_cases hi : i < 32
  · exact h i hi
  · have hle : 2 ^ 32 ≤ 2 ^ i := Nat.pow_le_pow_right (by decide) (by omega)
    rw [Nat.testBit_lt_two_pow (Nat.lt_of_lt_of_le x.toNat_lt hle),
      Nat.testBit_lt_two_pow (Nat.lt_of_lt_of_le y.toNat_lt hle)]

theorem testBit_lockMask (i : Nat) : lockMask.toNat.testBit i = decide (i = 31) := by
  rw [show lockMask.toNat = 2 ^ 31 from rfl, Nat.testBit_two_pow]
  simp [eq_comm]

theorem testBit_singleMask (i : Nat) : singleMask.toNat.testBit i = decide (i = 30) := by
  rw [show singleMask.toNat = 2 ^ 30 from rfl, Nat.testBit_two_pow]
  simp [eq_comm]

theorem testBit_counterMask (i : Nat) : counterMask.toNat.testBit i = decide (i < 30) := by
  rw [show counterMask.toNat = 2 ^ 30 - 1 from rfl, Nat.testBit_two_pow_sub_one]

theorem testBit_not (x : UInt32) (hi : i < 32) : (~~~ x).toNat.testBit i = !x.toNat.testBit i := by
  have hnot : (~~~ x).toNat = 2 ^ 32 - (x.toNat + 1) := by
    rw [UInt32.toNat_not, UInt32.size]
    omega
  rw [hnot, Nat.testBit_two_pow_sub_succ x.toNat_lt]
  simp [hi]

/-- **The bits of the word**: none of them is used twice. -/
theorem testBit_word (hcount : count < 2 ^ 30) (i : Nat) : (word locked single count).toNat.testBit i =
    (locked && decide (i = 31) || single && decide (i = 30) || count.testBit i) := by
  have hofNat : (UInt32.ofNat count).toNat = count := UInt32.toNat_ofNat_of_lt' (by simp only [UInt32.size]; omega)
  rw [word, UInt32.toNat_or, UInt32.toNat_or, Nat.testBit_or, Nat.testBit_or, hofNat]
  cases locked <;> cases single <;> simp [testBit_lockMask, testBit_singleMask]

theorem testBit_count (hcount : count < 2 ^ 30) (hi : 30 ≤ i) : count.testBit i = false :=
  Nat.testBit_lt_two_pow (Nat.lt_of_lt_of_le hcount (Nat.pow_le_pow_right (by decide) hi))

theorem word_and_singleMask (hcount : count < 2 ^ 30) :
    word locked single count &&& singleMask = if single then singleMask else 0 := by
  refine eq_of_testBit fun i _ => ?_
  rw [UInt32.toNat_and, Nat.testBit_and, testBit_word hcount, testBit_singleMask]
  by_cases hi : i = 30
  · subst hi
    cases single <;> simp [testBit_count hcount (Nat.le_refl 30), testBit_singleMask]
  · cases single <;> simp [hi, testBit_singleMask]

theorem word_and_lockMask (hcount : count < 2 ^ 30) :
    word locked single count &&& lockMask = if locked then lockMask else 0 := by
  refine eq_of_testBit fun i _ => ?_
  rw [UInt32.toNat_and, Nat.testBit_and, testBit_word hcount, testBit_lockMask]
  by_cases hi : i = 31
  · subst hi
    cases locked <;> simp [testBit_count hcount (by decide : 30 ≤ 31), testBit_lockMask]
  · cases locked <;> simp [hi, testBit_lockMask]

theorem word_or_singleMask (hcount : count < 2 ^ 30) :
    word locked single count ||| singleMask = word locked true count := by
  refine eq_of_testBit fun i _ => ?_
  rw [UInt32.toNat_or, Nat.testBit_or, testBit_word hcount, testBit_word hcount, testBit_singleMask]
  cases single <;> cases decide (i = 30) <;> simp

theorem word_or_lockMask (hcount : count < 2 ^ 30) :
    word locked single count ||| lockMask = word true single count := by
  refine eq_of_testBit fun i _ => ?_
  rw [UInt32.toNat_or, Nat.testBit_or, testBit_word hcount, testBit_word hcount, testBit_lockMask]
  cases locked <;> cases decide (i = 31) <;> simp

theorem word_and_not_singleMask (hcount : count < 2 ^ 30) :
    word locked single count &&& ~~~ singleMask = word locked false count := by
  refine eq_of_testBit fun i hi => ?_
  rw [UInt32.toNat_and, Nat.testBit_and, testBit_word hcount, testBit_word hcount, testBit_not _ hi,
    testBit_singleMask]
  by_cases hi : i = 30
  · subst hi
    simp [testBit_count hcount (Nat.le_refl 30)]
  · simp [hi]

theorem word_and_not_lockMask (hcount : count < 2 ^ 30) :
    word locked single count &&& ~~~ lockMask = word false single count := by
  refine eq_of_testBit fun i hi => ?_
  rw [UInt32.toNat_and, Nat.testBit_and, testBit_word hcount, testBit_word hcount, testBit_not _ hi,
    testBit_lockMask]
  by_cases hi : i = 31
  · subst hi
    simp [testBit_count hcount (by decide : 30 ≤ 31)]
  · simp [hi]

theorem counterMask_and_word (hcount : count < 2 ^ 30) :
    counterMask &&& word locked single count = .ofNat count := by
  have hofNat : (UInt32.ofNat count).toNat = count := UInt32.toNat_ofNat_of_lt' (by simp only [UInt32.size]; omega)
  refine eq_of_testBit fun i _ => ?_
  rw [UInt32.toNat_and, Nat.testBit_and, testBit_word hcount, testBit_counterMask, hofNat]
  by_cases hi : i < 30
  · have h30 : i ≠ 30 := by omega
    have h31 : i ≠ 31 := by omega
    simp [hi, h30, h31]
  · simp [hi, testBit_count hcount (by omega : 30 ≤ i)]

/-- What `save_bits` saves. -/
theorem masks_and_word (hcount : count < 2 ^ 30) :
    (lockMask ||| singleMask) &&& word locked single count = word locked single 0 := by
  refine eq_of_testBit fun i _ => ?_
  rw [UInt32.toNat_and, UInt32.toNat_or, Nat.testBit_and, Nat.testBit_or, testBit_word hcount,
    testBit_word (by decide), testBit_lockMask, testBit_singleMask, Nat.zero_testBit]
  by_cases hi : 30 ≤ i
  · rw [testBit_count hcount hi]
    cases decide (i = 31) <;> cases decide (i = 30) <;> cases locked <;> cases single <;> rfl
  · have h30 : i ≠ 30 := by omega
    have h31 : i ≠ 31 := by omega
    simp [h30, h31]

theorem word_zero_or : word locked single 0 ||| .ofNat count = word locked single count := by
  have hzero : UInt32.ofNat 0 = 0 := rfl
  rw [word, word, hzero, UInt32.or_zero]

end Word

/-! ## `block_info_t` -/

/-- `file_blocks_union_t`, with the alternative that is active. -/
inductive FileBlocks
  | single (fb : PackedBlock)
  | multi (fbs : List PackedBlock)

/-- `block_info_t` at its address. -/
structure Block where
  address : BlockId
  fileBlocks : FileBlocks
  counter : UInt32

namespace Block

/-- A new block. -/
def create (address : BlockId) : Block := ⟨address, .multi [], 0⟩

/-- The bit of the union is set. -/
def isSingle (b : Block) : Bool := b.counter &&& singleMask ≠ 0

/-- `is_locked`. -/
def isLocked (b : Block) : Bool := b.counter &&& lockMask ≠ 0

/-- `use_count`. -/
def useCount (b : Block) : UInt32 := b.counter &&& counterMask

/-- `file_blocks_iterator_t::next`, with the next index. An access to the alternative that is not active is
`none`. -/
def next (b : Block) (nextIndex : UInt32) : Option (Option (PackedBlock × UInt32)) :=
  if b.isSingle then
    match b.fileBlocks with
    | .single fb => some (if nextIndex = 0 then some (fb, nextIndex + 1) else none)
    | .multi _ => none
  else
    match b.fileBlocks with
    | .single _ => none
    | .multi fbs => some (fbs[nextIndex.toNat]?.map fun fb => (fb, nextIndex + 1))

/-- What the iterator gives, with a bound for the number of steps. -/
def collect : Nat → Block → UInt32 → Option (List PackedBlock)
  | 0, _, _ => none
  | fuel + 1, b, nextIndex =>
    match b.next nextIndex with
    | none => none
    | some none => some []
    | some (some (fb, nextIndex)) => (collect fuel b nextIndex).map (fb :: ·)

/-- `file_blocks_iterator_t::get_total`. -/
def getTotal (b : Block) : Nat :=
  match b.fileBlocks with
  | .single _ => 1
  | .multi fbs => fbs.length

/-- `local_file`: whether there is one. -/
def localFile (b : Block) : Option Bool :=
  (collect (b.getTotal + 1) b 0).map fun fbs => fbs.any PackedBlock.isLocallyAvailable

/-- The constructor of `file_block_t`. -/
def fileBlock (b : Block) (file : FileId) (blockIndex : UInt64) : Option PackedBlock :=
  b.localFile.map (PackedBlock.pack b.address file blockIndex.toUInt32)

/-- `emplace_back`. The size of the vector has 32 bits, an exception ends the process. -/
def emplaceBack (b : Block) (file : FileId) (blockIndex : UInt64) : Option Block :=
  match b.fileBlocks with
  | .single _ => none
  | .multi fbs =>
    if fbs.length + 1 < 2 ^ 32 then
      (b.fileBlock file blockIndex).map fun fb => { b with fileBlocks := .multi (fbs ++ [fb]) }
    else none

/-- `link`. -/
def link (b : Block) (file : FileId) (blockIndex : UInt64) : Option Block :=
  if b.isSingle then
    match b.fileBlocks with
    | .single first =>
      { b with fileBlocks := .multi [first], counter := b.counter &&& ~~~ singleMask }.emplaceBack file blockIndex
    | .multi _ => none
  else
    match b.fileBlocks with
    | .single _ => none
    | .multi [] =>
      -- the new entry looks for a local file before the bit is set, and finds the empty vector that zeros stand for
      (b.fileBlock file blockIndex).map fun fb =>
        { b with fileBlocks := .single fb, counter := b.counter ||| singleMask }
    | .multi (_ :: _) => b.emplaceBack file blockIndex

/-- `file_block_t::matches`. -/
def matchesFile (b : Block) (file : FileId) (fb : PackedBlock) : Bool := fb.block = b.address ∧ fb.file = file

/-- The loop of `unlink`: the removed indices and what is left. -/
def unlinkLoop (b : Block) (file : FileId) : List PackedBlock → List UInt32 × List PackedBlock
  | [] => ([], [])
  | fb :: fbs =>
    let r := b.unlinkLoop file fbs
    if b.matchesFile file fb then (fb.blockIndex :: r.1, r.2) else (r.1, fb :: r.2)

/-- `unlink`, with the removed indices. The assertion that there are some is not in a release build. -/
def unlink (b : Block) (file : FileId) : Option (List UInt32 × Block) :=
  if b.isSingle then
    match b.fileBlocks with
    | .single fb =>
      some (if b.matchesFile file fb then
        ([fb.blockIndex], { b with fileBlocks := .multi [], counter := b.counter &&& ~~~ singleMask })
      else ([], b))
    | .multi _ => none
  else
    match b.fileBlocks with
    | .single _ => none
    | .multi fbs =>
      let r := b.unlinkLoop file fbs
      match r.2 with
      | [first] => some (r.1, { b with fileBlocks := .single first, counter := b.counter ||| singleMask })
      | rest => some (r.1, { b with fileBlocks := .multi rest })

/-- `file_block_t::mark_locally_available`. -/
def markLocallyAvailable (fb : PackedBlock) : PackedBlock := { fb with blockIdx := fb.blockIdx ||| localMask }

/-- The loop of `mark_local_available`: up to the first entry of the file. -/
def markLoop (b : Block) (file : FileId) : List PackedBlock → List PackedBlock
  | [] => []
  | fb :: fbs => if b.matchesFile file fb then markLocallyAvailable fb :: fbs else fb :: b.markLoop file fbs

/-- `mark_local_available`. -/
def markLocalAvailable (b : Block) (file : FileId) : Option Block :=
  if b.isSingle then
    match b.fileBlocks with
    | .single fb =>
      some { b with fileBlocks := .single (if b.matchesFile file fb then markLocallyAvailable fb else fb) }
    | .multi _ => none
  else
    match b.fileBlocks with
    | .single _ => none
    | .multi fbs => some { b with fileBlocks := .multi (b.markLoop file fbs) }

/-- `lock`. Its assertion and that of `unlock` are not in a release build. -/
def lock (b : Block) : Block := { b with counter := b.counter ||| lockMask }

/-- `unlock`. -/
def unlock (b : Block) : Block := { b with counter := b.counter &&& ~~~ lockMask }

/-- `refcouner_inc`. -/
def refcounerInc (b : Block) : Block :=
  let saveBits := (lockMask ||| singleMask) &&& b.counter
  let value := (counterMask &&& b.counter) + 1
  { b with counter := saveBits ||| value }

/-- `refcouner_dec`. -/
def refcounerDec (b : Block) : Block :=
  let saveBits := (lockMask ||| singleMask) &&& b.counter
  let value := (counterMask &&& b.counter) - 1
  { b with counter := saveBits ||| value }

end Block

/-- An operation on a block. -/
inductive Op
  | link (file : FileId) (blockIndex : UInt64)
  | unlink (file : FileId)
  | markLocalAvailable (file : FileId)
  | lock
  | unlock
  | refcounerInc
  | refcounerDec

/-- One operation. -/
def step (b : Block) : Op → Option Block
  | .link file blockIndex => b.link file blockIndex
  | .unlink file => (b.unlink file).map Prod.snd
  | .markLocalAvailable file => b.markLocalAvailable file
  | .lock => some b.lock
  | .unlock => some b.unlock
  | .refcounerInc => some b.refcounerInc
  | .refcounerDec => some b.refcounerDec

/-! ## The plain list -/

/-- A list of back references with a lock and a counter. -/
structure Plain where
  entries : List (Entry FileId)
  locked : Bool
  count : Nat
  deriving DecidableEq

namespace Plain

/-- The indices of a file. -/
def indices (p : Plain) (file : FileId) : List Nat := (p.entries.filter fun e => e.owner = file).map Entry.index

/-- One operation. -/
def step (p : Plain) : Op → Plain
  | .link file blockIndex => { p with entries := p.entries ++ [⟨file, blockIndex.toNat, p.entries.any Entry.flag⟩] }
  | .unlink file => { p with entries := p.entries.filter fun e => e.owner ≠ file }
  | .markLocalAvailable file => { p with entries := Graph.markFirst file p.entries }
  | .lock => { p with locked := true }
  | .unlock => { p with locked := false }
  | .refcounerInc => { p with count := p.count + 1 }
  | .refcounerDec => { p with count := p.count - 1 }

end Plain

/-! ## The iterator -/

/-- The union is a single entry. -/
def FileBlocks.isSingle : FileBlocks → Bool
  | .single _ => true
  | .multi _ => false

/-- The entries of the union. -/
def FileBlocks.entries : FileBlocks → List PackedBlock
  | .single fb => [fb]
  | .multi fbs => fbs

/-- What an entry stands for. -/
def toEntry (fb : PackedBlock) : Entry FileId := ⟨fb.file, fb.blockIndex.toNat, fb.isLocallyAvailable⟩

variable {b b' : Block} {p : Plain} {file : FileId} {i : UInt32} {blockIndex : UInt64}

theorem length_entries (b : Block) : b.fileBlocks.entries.length = b.getTotal := by
  rw [Block.getTotal]
  cases b.fileBlocks <;> rfl

/-- While the bit is right, the iterator reads the active alternative. -/
theorem next_eq (hbit : b.isSingle = b.fileBlocks.isSingle) (i : UInt32) :
    b.next i = some (b.fileBlocks.entries[i.toNat]?.map fun fb => (fb, i + 1)) := by
  rw [Block.next, hbit]
  cases b.fileBlocks with
  | multi fbs => rfl
  | single fb =>
    rw [FileBlocks.isSingle, FileBlocks.entries, if_pos rfl]
    dsimp only
    by_cases hi : i = 0
    · rw [if_pos hi, hi]
      rfl
    · have hlen : [fb].length ≤ i.toNat := Nat.pos_of_ne_zero fun hzero => hi (UInt32.toNat_inj.mp hzero)
      rw [if_neg hi, List.getElem?_eq_none hlen]
      rfl

/-- **The iterator gives the entries**, in their order. -/
theorem collect_spec (hbit : b.isSingle = b.fileBlocks.isSingle) (hsize : b.getTotal < 2 ^ 32) {fuel : Nat}
    (hi : i.toNat ≤ b.getTotal) (hfuel : b.getTotal < i.toNat + fuel) :
    Block.collect fuel b i = some (b.fileBlocks.entries.drop i.toNat) := by
  induction fuel generalizing i with
  | zero => omega
  | succ fuel ih =>
    have hlength := length_entries b
    rw [Block.collect, next_eq hbit]
    by_cases hlt : i.toNat < b.fileBlocks.entries.length
    · have hnext : (i + 1).toNat = i.toNat + 1 := by
        rw [UInt32.toNat_add, UInt32.toNat_one]
        exact Nat.mod_eq_of_lt (by omega)
      rw [List.getElem?_eq_getElem hlt]
      dsimp only [Option.map_some]
      rw [ih (by omega) (by omega), hnext, List.drop_eq_getElem_cons hlt]
      rfl
    · rw [List.getElem?_eq_none (by omega), List.drop_eq_nil_of_le (by omega)]
      rfl

theorem localFile_eq (hbit : b.isSingle = b.fileBlocks.isSingle) (hsize : b.getTotal < 2 ^ 32) :
    b.localFile = some (b.fileBlocks.entries.any PackedBlock.isLocallyAvailable) := by
  rw [Block.localFile, collect_spec hbit hsize (Nat.zero_le _) (by rw [UInt32.toNat_zero]; omega)]
  rfl

/-! ## Refinement -/

/-- A block stands for a plain list. -/
structure Refines (b : Block) (p : Plain) : Prop where
  counter : b.counter = word p.locked b.fileBlocks.isSingle p.count
  count : p.count < 2 ^ 30
  shape : ∀ fbs, b.fileBlocks = .multi fbs → fbs.length ≠ 1
  entries : b.fileBlocks.entries.map toEntry = p.entries
  own : ∀ fb ∈ b.fileBlocks.entries, fb.block = b.address
  size : b.getTotal < 2 ^ 32

/-- An operation that has room: the index leaves a bit for the flag, the counter stays in its bits and the vector
in its size. -/
def Fits (b : Block) : Op → Prop
  | .link _ blockIndex => blockIndex.toNat < 2 ^ 31 ∧ b.getTotal + 1 < 2 ^ 32
  | .refcounerInc => b.useCount.toNat + 1 < 2 ^ 30
  | .refcounerDec => 0 < b.useCount.toNat
  | _ => True

theorem isSingle_of_word {locked single : Bool} {count : Nat} (hcounter : b.counter = word locked single count)
    (hcount : count < 2 ^ 30) : b.isSingle = single := by
  rw [Block.isSingle, hcounter, word_and_singleMask hcount]
  cases single <;> rfl

theorem isLocked_of_word {locked single : Bool} {count : Nat} (hcounter : b.counter = word locked single count)
    (hcount : count < 2 ^ 30) : b.isLocked = locked := by
  rw [Block.isLocked, hcounter, word_and_lockMask hcount]
  cases locked <;> rfl

theorem useCount_of_word {locked single : Bool} {count : Nat} (hcounter : b.counter = word locked single count)
    (hcount : count < 2 ^ 30) : b.useCount.toNat = count := by
  rw [Block.useCount, hcounter, UInt32.and_comm, counterMask_and_word hcount]
  exact UInt32.toNat_ofNat_of_lt' (by simp only [UInt32.size]; omega)

theorem Refines.isSingle (h : Refines b p) : b.isSingle = b.fileBlocks.isSingle := isSingle_of_word h.counter h.count

theorem Refines.create (address : BlockId) : Refines (.create address) ⟨[], false, 0⟩ where
  counter := show (0 : UInt32) = word false false 0 by decide
  count := by decide
  shape := by
    rintro fbs hfbs
    cases hfbs
    decide
  entries := rfl
  own _ hfb := absurd hfb List.not_mem_nil
  size := show 0 < 2 ^ 32 by decide

/-- A back reference that has room for its flag. -/
theorem toEntry_pack (address : BlockId) (isLocal : Bool) (hindex : blockIndex.toNat < 2 ^ 31) :
    toEntry (.pack address file blockIndex.toUInt32 isLocal) = ⟨file, blockIndex.toNat, isLocal⟩ := by
  have hcast : blockIndex.toUInt32.toNat = blockIndex.toNat := by
    rw [UInt64.toNat_toUInt32]
    exact Nat.mod_eq_of_lt (by omega)
  have hbit : blockIndex.toNat.testBit 31 = false := Nat.testBit_lt_two_pow hindex
  rw [toEntry, toNat_blockIndex_pack, hcast, Nat.mod_eq_of_lt hindex, isLocallyAvailable_eq]
  cases isLocal with
  | false =>
    have hpack : (PackedBlock.pack address file blockIndex.toUInt32 false).blockIdx = blockIndex.toUInt32 := rfl
    rw [hpack, hcast, hbit]
    rfl
  | true =>
    have hpack : (PackedBlock.pack address file blockIndex.toUInt32 true).blockIdx =
      blockIndex.toUInt32 ||| localMask := rfl
    rw [hpack, UInt32.toNat_or, Nat.testBit_or, hcast, hbit]
    rfl

theorem toEntry_markLocallyAvailable (fb : PackedBlock) :
    toEntry (Block.markLocallyAvailable fb) = { toEntry fb with flag := true } := by
  have hindex : (Block.markLocallyAvailable fb).blockIndex.toNat = fb.blockIndex.toNat := by
    show ((fb.blockIdx ||| localMask) &&& indexMask).toNat = (fb.blockIdx &&& indexMask).toNat
    rw [toNat_indexMask, toNat_indexMask, UInt32.toNat_or, Nat.or_mod_two_pow]
    exact Nat.or_zero _
  have hflag : (Block.markLocallyAvailable fb).isLocallyAvailable = true := by
    have hmask : localMask.toNat.testBit 31 = true := rfl
    rw [isLocallyAvailable_eq]
    show (fb.blockIdx ||| localMask).toNat.testBit 31 = true
    rw [UInt32.toNat_or, Nat.testBit_or, hmask, Bool.or_true]
  rw [toEntry, hindex, hflag]
  rfl

theorem any_flag (fbs : List PackedBlock) :
    fbs.any PackedBlock.isLocallyAvailable = (fbs.map toEntry).any Entry.flag := by
  rw [List.any_map]
  rfl

/-- The constructor of the new entry. -/
theorem fileBlock_eq (hbit : b.isSingle = b.fileBlocks.isSingle) (hsize : b.getTotal < 2 ^ 32) (file : FileId)
    (blockIndex : UInt64) : b.fileBlock file blockIndex = some (.pack b.address file blockIndex.toUInt32
      ((b.fileBlocks.entries.map toEntry).any Entry.flag)) := by
  rw [Block.fileBlock, localFile_eq hbit hsize, any_flag]
  rfl

/-- A new entry at the end of the vector. -/
theorem emplaceBack_eq {fbs : List PackedBlock} (hmulti : b.fileBlocks = .multi fbs) (hbit : b.isSingle = false)
    (hsize : fbs.length + 1 < 2 ^ 32) (file : FileId) (blockIndex : UInt64) :
    b.emplaceBack file blockIndex = some { b with fileBlocks := .multi (fbs ++ [.pack b.address file
      blockIndex.toUInt32 ((fbs.map toEntry).any Entry.flag)]) } := by
  have htotal : b.getTotal = fbs.length := by rw [← length_entries, hmulti, FileBlocks.entries]
  have hfb := fileBlock_eq (b := b) (by rw [hbit, hmulti, FileBlocks.isSingle]) (by omega) file blockIndex
  rw [hmulti] at hfb
  rw [Block.emplaceBack, hmulti]
  dsimp only
  rw [if_pos hsize, hfb]
  rfl

theorem Refines.link (h : Refines b p) (hindex : blockIndex.toNat < 2 ^ 31) (hroom : b.getTotal + 1 < 2 ^ 32) :
    ∃ b', b.link file blockIndex = some b' ∧ Refines b' (p.step (.link file blockIndex)) := by
  have hbit := h.isSingle
  obtain ⟨address, fileBlocks, counter⟩ := b
  obtain ⟨entries, locked, count⟩ := p
  obtain ⟨hcounter, hcount, hshape, hentries, hown, hsize⟩ := h
  dsimp only at hcounter hcount hshape hentries hown
  rw [← length_entries] at hroom
  rw [Block.link, hbit]
  cases fileBlocks with
  | single first =>
    -- from one to two
    have hcounter' : counter &&& ~~~ singleMask = word locked false count := by
      rw [hcounter, word_and_not_singleMask hcount]
    have hlink := emplaceBack_eq (b := ⟨address, .multi [first], counter &&& ~~~ singleMask⟩) rfl
      (isSingle_of_word hcounter' hcount) (by simp) file blockIndex
    refine ⟨_, hlink, hcounter', hcount, ?_, ?_, ?_, by simp [Block.getTotal]⟩
    · rintro fbs hfbs
      cases hfbs
      simp
    · rw [Plain.step, ← hentries]
      simp [FileBlocks.entries, toEntry_pack _ _ hindex]
    · simpa [FileBlocks.entries, PackedBlock.pack] using hown
  | multi fbs =>
    cases fbs with
    | nil =>
      -- from none to one
      have hfb := fileBlock_eq (b := ⟨address, .multi [], counter⟩) hbit hsize file blockIndex
      refine ⟨_, by rw [if_neg (by simp [FileBlocks.isSingle])]; dsimp only; rw [hfb, Option.map_some], ?_⟩
      refine ⟨?_, hcount, ?_, ?_, ?_, by simp [Block.getTotal]⟩
      · show counter ||| singleMask = word locked true count
        rw [hcounter, word_or_singleMask hcount]
      · rintro fbs hfbs
        cases hfbs
      · rw [Plain.step, ← hentries]
        simp [FileBlocks.entries, toEntry_pack _ _ hindex]
      · simp [FileBlocks.entries, PackedBlock.pack]
    | cons fb fbs =>
      have hlink := emplaceBack_eq (b := ⟨address, .multi (fb :: fbs), counter⟩) rfl hbit hroom file blockIndex
      refine ⟨_, hlink, hcounter, hcount, ?_, ?_, ?_, ?_⟩
      · rintro fbs' hfbs'
        cases hfbs'
        simp
      · rw [Plain.step, ← hentries]
        simp [FileBlocks.entries, toEntry_pack _ _ hindex]
      · simp only [FileBlocks.entries, List.forall_mem_append, List.forall_mem_singleton, PackedBlock.pack]
        exact ⟨hown, trivial⟩
      · simpa [Block.getTotal, FileBlocks.entries] using hroom

theorem unlinkLoop_eq (b : Block) (file : FileId) {fbs : List PackedBlock} (hown : ∀ fb ∈ fbs, fb.block = b.address) :
    b.unlinkLoop file fbs =
      ((fbs.filter fun fb => fb.file = file).map PackedBlock.blockIndex, fbs.filter fun fb => fb.file ≠ file) := by
  induction fbs with
  | nil => rfl
  | cons fb fbs ih =>
    obtain ⟨hfb, hfbs⟩ := List.forall_mem_cons.mp hown
    rw [Block.unlinkLoop, ih hfbs]
    by_cases hfile : fb.file = file
    · simp [Block.matchesFile, hfb, hfile]
    · simp [Block.matchesFile, hfile]

theorem markLoop_eq (b : Block) (file : FileId) {fbs : List PackedBlock} (hown : ∀ fb ∈ fbs, fb.block = b.address) :
    (b.markLoop file fbs).map toEntry = Graph.markFirst file (fbs.map toEntry) ∧
      (∀ fb ∈ b.markLoop file fbs, fb.block = b.address) ∧ (b.markLoop file fbs).length = fbs.length := by
  induction fbs with
  | nil => exact ⟨rfl, hown, rfl⟩
  | cons fb fbs ih =>
    obtain ⟨hfb, hfbs⟩ := List.forall_mem_cons.mp hown
    obtain ⟨hmap, hown', hlength⟩ := ih hfbs
    have howner : (toEntry fb).owner = fb.file := rfl
    rw [Block.markLoop, List.map_cons, Graph.markFirst, howner]
    by_cases hfile : fb.file = file
    · rw [if_pos (by simp [Block.matchesFile, hfb, hfile]), if_pos hfile, List.map_cons,
        toEntry_markLocallyAvailable]
      exact ⟨rfl, List.forall_mem_cons.mpr ⟨hfb, hfbs⟩, rfl⟩
    · rw [if_neg (by simp [Block.matchesFile, hfile]), if_neg hfile, List.map_cons, hmap]
      refine ⟨rfl, List.forall_mem_cons.mpr ⟨hfb, hown'⟩, ?_⟩
      rw [List.length_cons, List.length_cons, hlength]

theorem indices_eq (h : Refines b p) (file : FileId) :
    ((b.fileBlocks.entries.filter fun fb => fb.file = file).map PackedBlock.blockIndex).map UInt32.toNat =
      p.indices file := by
  rw [Plain.indices, ← h.entries, List.filter_map, List.map_map, List.map_map]
  rfl

/-- Entries are taken out, and the union follows. -/
theorem Refines.unlink (h : Refines b p) (file : FileId) : ∃ r b', b.unlink file = some (r, b') ∧
    r.map UInt32.toNat = p.indices file ∧ Refines b' (p.step (.unlink file)) := by
  have hbit := h.isSingle
  have hindices := indices_eq h file
  obtain ⟨address, fileBlocks, counter⟩ := b
  obtain ⟨entries, locked, count⟩ := p
  obtain ⟨hcounter, hcount, hshape, hentries, hown, hsize⟩ := h
  dsimp only at hcounter hcount hshape hentries hown hindices
  subst hentries
  rw [Block.unlink, hbit]
  cases fileBlocks with
  | single fb =>
    have hfb : fb.block = address := hown fb (List.mem_singleton_self fb)
    rw [FileBlocks.isSingle, if_pos rfl]
    dsimp only
    rw [Block.matchesFile]
    by_cases hfile : fb.file = file
    · rw [if_pos (by simp [hfb, hfile])]
      refine ⟨_, _, rfl, ?_, ?_⟩
      · rw [← hindices]
        simp [FileBlocks.entries, hfile]
      · refine ⟨?_, hcount, ?_, ?_, fun _ hfb => absurd hfb List.not_mem_nil, by simp [Block.getTotal]⟩
        · show counter &&& ~~~ singleMask = word locked false count
          rw [hcounter, word_and_not_singleMask hcount]
        · rintro fbs hfbs
          cases hfbs
          simp
        · simp [Plain.step, FileBlocks.entries, toEntry, hfile]
    · rw [if_neg (by simp [hfile])]
      refine ⟨_, _, rfl, ?_, hcounter, hcount, hshape, ?_, hown, hsize⟩
      · rw [← hindices]
        simp [FileBlocks.entries, hfile]
      · simp [Plain.step, FileBlocks.entries, toEntry, hfile]
  | multi fbs =>
    rw [FileBlocks.entries] at hown hindices
    have hentries : (fbs.map toEntry).filter (fun e => e.owner ≠ file) =
        (fbs.filter fun fb => fb.file ≠ file).map toEntry := List.filter_map
    have hown' : ∀ fb ∈ fbs.filter (fun fb => fb.file ≠ file), fb.block = address :=
      fun fb hfb => hown fb (List.mem_of_mem_filter hfb)
    have hsize' : (fbs.filter fun fb => fb.file ≠ file).length < 2 ^ 32 :=
      Nat.lt_of_le_of_lt (List.length_filter_le _ _) hsize
    rw [FileBlocks.isSingle, if_neg Bool.false_ne_true]
    dsimp only
    rw [unlinkLoop_eq _ file hown, Plain.step, FileBlocks.entries, hentries]
    dsimp only
    generalize fbs.filter (fun fb => fb.file ≠ file) = rest at *
    split
    · rename_i first
      -- one entry is left
      refine ⟨_, _, rfl, hindices, ?_, hcount, ?_, rfl, hown', by simp [Block.getTotal]⟩
      · show counter ||| singleMask = word locked true count
        rw [hcounter, word_or_singleMask hcount]
      · rintro fbs' hfbs'
        cases hfbs'
    · rename_i hmany
      refine ⟨_, _, rfl, hindices, hcounter, hcount, ?_, rfl, hown', hsize'⟩
      rintro fbs' hfbs'
      cases hfbs'
      intro hone
      obtain ⟨first, hfirst⟩ := List.length_eq_one_iff.mp hone
      exact hmany first hfirst

theorem Refines.markLocalAvailable (h : Refines b p) (file : FileId) :
    ∃ b', b.markLocalAvailable file = some b' ∧ Refines b' (p.step (.markLocalAvailable file)) := by
  have hbit := h.isSingle
  obtain ⟨address, fileBlocks, counter⟩ := b
  obtain ⟨entries, locked, count⟩ := p
  obtain ⟨hcounter, hcount, hshape, hentries, hown, hsize⟩ := h
  dsimp only at hcounter hcount hshape hentries hown
  subst hentries
  obtain ⟨hmap, hmark, hlength⟩ := markLoop_eq ⟨address, fileBlocks, counter⟩ file hown
  rw [Block.markLocalAvailable, hbit]
  cases fileBlocks with
  | single fb =>
    have hloop : Block.markLoop ⟨address, .single fb, counter⟩ file [fb] =
        [if Block.matchesFile ⟨address, .single fb, counter⟩ file fb then Block.markLocallyAvailable fb else fb] := by
      rw [Block.markLoop, Block.markLoop]
      split <;> rfl
    rw [FileBlocks.entries, hloop] at hmap hmark
    refine ⟨_, rfl, hcounter, hcount, ?_, hmap, hmark, by simp [Block.getTotal]⟩
    rintro fbs hfbs
    cases hfbs
  | multi fbs =>
    rw [FileBlocks.entries] at hlength
    refine ⟨_, rfl, hcounter, hcount, ?_, hmap, hmark, lt_of_eq_of_lt hlength hsize⟩
    rintro fbs' hfbs'
    cases hfbs'
    rw [hlength]
    exact hshape fbs rfl

/-- The lock and the counter are another word, the entries are kept. -/
theorem Refines.withCounter (h : Refines b p) {locked : Bool} {count : Nat} {counter : UInt32}
    (hcounter : counter = word locked b.fileBlocks.isSingle count) (hcount : count < 2 ^ 30) :
    Refines { b with counter := counter } { p with locked := locked, count := count } :=
  ⟨hcounter, hcount, h.shape, h.entries, h.own, h.size⟩

/-- The counter is taken out of the word and put back. -/
theorem save_or {locked single : Bool} {count count' : Nat} {value : UInt32} (hcount : count < 2 ^ 30)
    (hvalue : value.toNat = count') :
    (lockMask ||| singleMask) &&& word locked single count ||| value = word locked single count' := by
  have hword : word locked single 0 ||| .ofNat count' = word locked single count' := word_zero_or
  rw [masks_and_word hcount, ← hword, ← hvalue, UInt32.ofNat_toNat]

/-- **One operation** that has room. -/
theorem Refines.step (h : Refines b p) {op : Op} (hfits : Fits b op) :
    ∃ b', BlockRefs.step b op = some b' ∧ Refines b' (p.step op) := by
  have hcount := h.count
  have huse := useCount_of_word h.counter h.count
  have hvalue : (counterMask &&& b.counter).toNat = p.count := by
    rw [UInt32.and_comm]
    exact huse
  cases op with
  | link file blockIndex => exact h.link hfits.1 hfits.2
  | unlink file =>
    obtain ⟨r, b', hunlink, -, hrefines⟩ := h.unlink file
    exact ⟨b', by rw [BlockRefs.step, hunlink, Option.map_some], hrefines⟩
  | markLocalAvailable file => exact h.markLocalAvailable file
  | lock => exact ⟨_, rfl, h.withCounter (by rw [h.counter, word_or_lockMask hcount]) hcount⟩
  | unlock => exact ⟨_, rfl, h.withCounter (by rw [h.counter, word_and_not_lockMask hcount]) hcount⟩
  | refcounerInc =>
    have hroom : p.count + 1 < 2 ^ 30 := huse ▸ hfits
    have hnext : ((counterMask &&& b.counter) + 1).toNat = p.count + 1 := by
      rw [UInt32.toNat_add, UInt32.toNat_one, hvalue]
      exact Nat.mod_eq_of_lt (by omega)
    refine ⟨_, rfl, h.withCounter ?_ hroom⟩
    generalize (counterMask &&& b.counter) + 1 = value at *
    rw [h.counter, save_or hcount hnext]
  | refcounerDec =>
    have hpos : 0 < p.count := huse ▸ hfits
    have hnext : ((counterMask &&& b.counter) - 1).toNat = p.count - 1 := by
      rw [UInt32.toNat_sub_of_le _ _ (UInt32.le_iff_toNat_le.mpr (by rw [hvalue, UInt32.toNat_one]; omega)), hvalue,
        UInt32.toNat_one]
    refine ⟨_, rfl, h.withCounter ?_ (by omega)⟩
    generalize (counterMask &&& b.counter) - 1 = value at *
    rw [h.counter, save_or hcount hnext]

/-! ## Runs -/

/-- A block does what the plain list does: the iterator gives the entries, `unlink` gives the removed indices, the
bit says which alternative is active, and the counter and the lock are kept by `link` and `unlink`. -/
structure Mirrors (b : Block) (p : Plain) : Prop where
  enumerates : ∃ fuel fbs, Block.collect fuel b 0 = some fbs ∧ fbs.map toEntry = p.entries
  single_iff : b.isSingle = true ↔ ∃ fb, b.fileBlocks = .single fb
  isLocked : b.isLocked = p.locked
  useCount : b.useCount.toNat = p.count
  unlink : ∀ file, ∃ r b', b.unlink file = some (r, b') ∧ r.map UInt32.toNat = p.indices file ∧
    b'.useCount = b.useCount ∧ b'.isLocked = b.isLocked
  link : ∀ file blockIndex b', b.link file blockIndex = some b' → b'.useCount = b.useCount ∧ b'.isLocked = b.isLocked

theorem counter_emplaceBack (hlink : b.emplaceBack file blockIndex = some b') : b'.counter = b.counter := by
  unfold Block.emplaceBack at hlink
  split at hlink
  · cases hlink
  · split at hlink
    · obtain ⟨fb, -, rfl⟩ := Option.map_eq_some_iff.mp hlink
      rfl
    · cases hlink

/-- `link` changes the bit of the union at most, whatever the index is. -/
theorem Refines.counter_link (h : Refines b p) (hlink : b.link file blockIndex = some b') :
    ∃ single, b'.counter = word p.locked single p.count := by
  unfold Block.link at hlink
  split at hlink
  · split at hlink
    · exact ⟨false, by rw [counter_emplaceBack hlink, h.counter, word_and_not_singleMask h.count]⟩
    · cases hlink
  · split at hlink
    · cases hlink
    · obtain ⟨fb, -, rfl⟩ := Option.map_eq_some_iff.mp hlink
      exact ⟨true, by rw [h.counter, word_or_singleMask h.count]⟩
    · exact ⟨_, by rw [counter_emplaceBack hlink, h.counter]⟩

theorem Refines.mirrors (h : Refines b p) : Mirrors b p where
  enumerates := by
    refine ⟨b.getTotal + 1, _, collect_spec h.isSingle h.size (Nat.zero_le _) ?_, h.entries⟩
    rw [UInt32.toNat_zero]
    omega
  single_iff := by
    rw [h.isSingle]
    cases b.fileBlocks <;> simp [FileBlocks.isSingle]
  isLocked := isLocked_of_word h.counter h.count
  useCount := useCount_of_word h.counter h.count
  unlink file := by
    obtain ⟨r, b', hunlink, hr, hrefines⟩ := h.unlink file
    refine ⟨r, b', hunlink, hr, UInt32.toNat_inj.mp ?_, ?_⟩
    · rw [useCount_of_word hrefines.counter hrefines.count, useCount_of_word h.counter h.count]
      rfl
    · rw [isLocked_of_word hrefines.counter hrefines.count, isLocked_of_word h.counter h.count]
      rfl
  link file blockIndex b' hlink := by
    obtain ⟨single, hcounter⟩ := h.counter_link hlink
    refine ⟨UInt32.toNat_inj.mp ?_, ?_⟩
    · rw [useCount_of_word hcounter h.count, useCount_of_word h.counter h.count]
    · rw [isLocked_of_word hcounter h.count, isLocked_of_word h.counter h.count]

theorem refines_of_run {ops : List Op} (h : Refines b p) (hfits : Run.Meets step Fits b ops) :
    ∃ b', Run.exec step b ops = some b' ∧ Refines b' (ops.foldl Plain.step p) := by
  induction ops generalizing b p with
  | nil => exact ⟨b, rfl, h⟩
  | cons op ops ih =>
    obtain ⟨b', hstep, hrefines⟩ := h.step hfits.1
    obtain ⟨b'', hrun, hrefines'⟩ := ih hrefines (hfits.2 b' hstep)
    refine ⟨b'', ?_, hrefines'⟩
    rw [Run.exec, hstep]
    exact hrun

/-- **The whole run**: a block whose operations have room stands for the plain list that they make. -/
theorem mirrors_of_run (address : BlockId) (ops : List Op) (hfits : Run.Meets step Fits (.create address) ops) :
    ∃ b, Run.exec step (.create address) ops = some b ∧ Mirrors b (ops.foldl Plain.step ⟨[], false, 0⟩) := by
  obtain ⟨b, hrun, hrefines⟩ := refines_of_run (.create address) hfits
  exact ⟨b, hrun, hrefines.mirrors⟩

instance (b : Block) (op : Op) : Decidable (Fits b op) := by
  cases op <;> unfold Fits <;> infer_instance

/-- From none to two entries and back, with a lock and a reference. -/
theorem mirrors_of_a_run : ∃ b, Run.exec step (.create 1) [.refcounerInc, .link 7 0, .link 8 3, .lock,
    .markLocalAvailable 8, .unlink 7, .unlock, .link 9 5, .unlink 8, .unlink 9] = some b ∧
      Mirrors b ⟨[], false, 1⟩ :=
  mirrors_of_run 1 [.refcounerInc, .link 7 0, .link 8 3, .lock, .markLocalAvailable 8, .unlink 7, .unlock,
    .link 9 5, .unlink 8, .unlink 9] (by decide +kernel)

/-- An index of 32 bits: the entry has another one, and is taken for a local one. -/
theorem index_truncated : ¬ ∀ (address : BlockId) (ops : List Op),
    ∃ b, Run.exec step (.create address) ops = some b ∧ Mirrors b (ops.foldl Plain.step ⟨[], false, 0⟩) := by
  intro h
  obtain ⟨b, hrun, hmirrors⟩ := h 1 [.link 7 0x80000000]
  obtain ⟨r, b', hunlink, hindices, -⟩ := hmirrors.unlink 7
  have hremoved : (Run.exec step (.create 1) [.link 7 0x80000000]).bind
      (fun b => (b.unlink 7).map Prod.fst) = some [0] := by decide +kernel
  rw [hrun, Option.bind_some, hunlink, Option.map_some, Option.some.injEq] at hremoved
  rw [show r = [0] from hremoved] at hindices
  exact absurd hindices (by decide)

/-- One reference more than the counter has room for sets the bit of the union. -/
theorem isSingle_refcounerInc (hfull : b.useCount.toNat + 1 = 2 ^ 30) : b.refcounerInc.isSingle = true := by
  have hvalue : (counterMask &&& b.counter) + 1 = singleMask := by
    refine UInt32.toNat_inj.mp ?_
    rw [UInt32.and_comm, UInt32.toNat_add, UInt32.toNat_one]
    show (b.useCount.toNat + 1) % 2 ^ 32 = singleMask.toNat
    rw [hfull]
    rfl
  have hbit : b.refcounerInc.counter &&& singleMask = singleMask := by
    rw [Block.refcounerInc]
    dsimp only
    rw [hvalue]
    refine eq_of_testBit fun i _ => ?_
    rw [UInt32.toNat_and, UInt32.toNat_or, Nat.testBit_and, Nat.testBit_or, testBit_singleMask]
    cases decide (i = 30) <;> simp
  rw [Block.isSingle, hbit]
  rfl

end BlockRefs

end SyncSpirit
