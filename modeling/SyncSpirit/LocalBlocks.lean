import SyncSpirit.Availability
import SyncSpirit.BlockOffset

/-!
# Blocks that stay (`model/file_info.cpp`, `model/misc/block_iterator.cpp`)

A file of a peer is downloaded block by block into a temporary file. When a newer record of it comes, `update`
takes over the new blocks and marks those as available whose hash the file has had locally. It does not look where.
The temporary file has a block at the offset at which the old record had it, and the iterator over the blocks skips
what is marked.

- `mem_iterated_iff`: the iterator yields exactly the slots that are not marked;
- `update_placed_iff`: after an update, what is marked is in its place exactly if every block that the file has had
  locally stays where it was.
-/

namespace SyncSpirit

namespace LocalBlocks

open Store BlockOffset

/-! ## `blocks_iterator_t` -/

/-- `blocks_iterator_t`; no index is `wrong_index`. -/
structure BlocksIterator where
  i : Option Nat
  sequence : Int
  deriving DecidableEq, Repr

/-- Is the slot marked as local? -/
def marked (slot : Option Slot) : Bool := (slot.map Prod.snd).getD false

namespace BlocksIterator

/-- The loop of `advance`: marked slots are skipped. -/
def skip : List (Option Slot) → Nat → Nat
  | [], i => i
  | slot :: slots, i => if marked slot then skip slots (i + 1) else i

/-- `prepare`. -/
def prepare (file : FileInfo) (i : Nat) : Option Nat :=
  if file.unreachable || file.slots.length ≤ i then none else some i

/-- `advance`. -/
def advance (file : FileInfo) (i : Nat) : Option Nat := prepare file (skip (file.slots.drop i) i)

/-- The constructor. -/
def create (file : FileInfo) : BlocksIterator :=
  if file.slots = [] then ⟨none, 0⟩ else ⟨advance file 0, file.sequence⟩

/-- `operator bool`. -/
def isValid (it : BlocksIterator) (file : FileInfo) : Bool := it.i.isSome && file.sequence == it.sequence

/-- `next`: the index of the block, and the iterator behind it. -/
def next (it : BlocksIterator) (file : FileInfo) : Option (Nat × BlocksIterator) :=
  it.i.map fun i => (i, { it with i := advance file (i + 1) })

/-- The blocks that `pull_next` gets, if nothing happens to the file meanwhile. -/
def iterate (file : FileInfo) : Nat → BlocksIterator → List Nat
  | 0, _ => []
  | fuel + 1, it =>
    if it.isValid file then
      (it.next file).elim [] fun (i, it) => i :: iterate file fuel it
    else []

end BlocksIterator

/-- All blocks that the iterator yields. -/
def iterated (file : FileInfo) : List Nat := BlocksIterator.iterate file file.slots.length (.create file)

/-! ## What is in its place -/

/-- The block of a slot. -/
def blockAt (file : FileInfo) (i : Nat) : Option BlockId := ((file.slots[i]?).join).map Prod.fst

/-- A slot that is marked. -/
def IsLocal (file : FileInfo) (i : Nat) : Prop := marked ((file.slots[i]?).join) = true

instance (file : FileInfo) (i : Nat) : Decidable (IsLocal file i) := inferInstanceAs (Decidable (_ = _))

/-- The temporary file has the block of the slot at the offset of the slot: before the update the slot has been
marked, with the same hash and at the same offset. -/
def InPlace (s t : Store) (f : FileId) (i : Nat) : Prop :=
  IsLocal (s.files f) i ∧ i * firstSize s f = i * firstSize t f ∧
    (blockAt (t.files f) i).map (fun b => (t.blocks b).hash) = (blockAt (s.files f) i).map fun b => (s.blocks b).hash

/-- After an update, what is marked is in its place, and the iterator yields everything that is not. -/
structure Placed (s t : Store) (f : FileId) : Prop where
  sound : ∀ i, IsLocal (t.files f) i → InPlace s t f i
  asked : (t.files f).unreachable = false → ∀ i < (t.files f).slots.length, ¬ InPlace s t f i → i ∈ iterated (t.files f)

/-- The file has a block with the hash, and refers to it as local. -/
def HasLocally (s : Store) (f : FileId) (hash : Bytes) : Prop :=
  ∃ b, some b ∈ (s.files f).targets ∧ (s.blocks b).hash = hash ∧
    ∃ fb ∈ (s.blocks b).fileBlocks, fb.flag = true ∧ fb.owner = f

/-- The size of the first block of a record, 0 if there is none. -/
def headSize (s : Store) (file : FileInfo) : Nat :=
  (file.slots.head?.join.map fun first => (s.blocks first.1).size.toUInt32.toNat).getD 0

/-- Every block of the new record that the file has locally stays where it is marked, and but for the first block that
needs blocks of the same size. -/
def Stays (s : Store) (f : FileId) (other : FileInfo) : Prop :=
  ∀ i b, blockAt other i = some b → HasLocally s f (s.blocks b).hash →
    IsLocal (s.files f) i ∧ (blockAt (s.files f) i).map (fun b => (s.blocks b).hash) = some (s.blocks b).hash ∧
      (i = 0 ∨ headSize s (s.files f) = headSize s other)

/-! ## The iteration -/

namespace BlocksIterator

variable {file : FileInfo}

theorem skip_spec (slots : List (Option Slot)) (i : Nat) :
    i ≤ skip slots i ∧ skip slots i ≤ i + slots.length ∧
      (∀ j, i ≤ j → j < skip slots i → marked ((slots[j - i]?).join) = true) ∧
      (skip slots i < i + slots.length → marked ((slots[skip slots i - i]?).join) = false) := by
  induction slots generalizing i with
  | nil => exact ⟨le_rfl, le_rfl, fun j hi hj => absurd hj (Nat.not_lt.mpr hi), fun h => absurd h (lt_irrefl _)⟩
  | cons slot slots ih =>
    by_cases hslot : marked slot = true
    · obtain ⟨hle, hlen, hmarked, hstop⟩ := ih (i + 1)
      have hskip : skip (slot :: slots) i = skip slots (i + 1) := by rw [skip, if_pos hslot]
      rw [hskip, List.length_cons]
      refine ⟨by omega, by omega, fun j hi hj => ?_, fun h => ?_⟩
      · rcases Nat.eq_or_lt_of_le hi with rfl | hi
        · rw [Nat.sub_self]
          exact hslot
        · have hsub : j - i = j - (i + 1) + 1 := by omega
          rw [hsub, List.getElem?_cons_succ]
          exact hmarked j hi hj
      · have hsub : skip slots (i + 1) - i = skip slots (i + 1) - (i + 1) + 1 := by omega
        rw [hsub, List.getElem?_cons_succ]
        exact hstop (by omega)
    · have hskip : skip (slot :: slots) i = i := by rw [skip, if_neg hslot]
      rw [hskip, List.length_cons, Nat.sub_self]
      exact ⟨le_rfl, by omega, fun j hi hj => absurd hj (Nat.not_lt.mpr hi),
        fun _ => Bool.eq_false_iff.mpr hslot⟩

/-- Where `advance` gets to: all slots before are marked, and the next one is not. -/
theorem advance_spec {k : Nat} (hk : k ≤ file.slots.length) :
    advance file k = none ∧ (file.unreachable = true ∨ ∀ j, k ≤ j → j < file.slots.length → IsLocal file j) ∨
      ∃ p, advance file k = some p ∧ file.unreachable = false ∧ k ≤ p ∧ p < file.slots.length ∧
        (∀ j, k ≤ j → j < p → IsLocal file j) ∧ ¬ IsLocal file p := by
  obtain ⟨hle, hlen, hmarked, hstop⟩ := skip_spec (file.slots.drop k) k
  have hat (j : Nat) (hj : k ≤ j) : (file.slots.drop k)[j - k]? = file.slots[j]? := by
    rw [List.getElem?_drop, Nat.add_sub_cancel' hj]
  rw [List.length_drop] at hlen hstop
  have hlocal : ∀ j, k ≤ j → j < skip (file.slots.drop k) k → IsLocal file j := by
    intro j hj hlt
    have := hmarked j hj hlt
    rwa [hat j hj] at this
  unfold advance prepare
  cases hreach : file.unreachable with
  | true => exact .inl ⟨rfl, .inl rfl⟩
  | false =>
    by_cases hend : file.slots.length ≤ skip (file.slots.drop k) k
    · exact .inl ⟨by simp [hend], .inr fun j hj hlt => hlocal j hj (by omega)⟩
    · refine .inr ⟨_, by simp [hend], rfl, hle, by omega, hlocal, ?_⟩
      have hnot := hstop (by omega)
      rw [hat _ hle] at hnot
      exact Bool.eq_false_iff.mp hnot

theorem mem_iterate {fuel k i : Nat} (hk : k ≤ file.slots.length) (hfuel : file.slots.length ≤ fuel + k) :
    i ∈ iterate file fuel ⟨advance file k, file.sequence⟩ ↔
      file.unreachable = false ∧ k ≤ i ∧ i < file.slots.length ∧ ¬ IsLocal file i := by
  induction fuel generalizing k with
  | zero =>
    refine iff_of_false (List.not_mem_nil) ?_
    rintro ⟨-, hki, hi, -⟩
    omega
  | succ fuel ih =>
    rcases advance_spec hk with ⟨hnone, hall⟩ | ⟨p, hsome, hreach, hkp, hp, hlocal, hnot⟩
    · rw [hnone]
      refine iff_of_false (List.not_mem_nil) ?_
      rintro ⟨hreach, hki, hi, hfree⟩
      rcases hall with hunreach | hall
      · rw [hreach] at hunreach
        cases hunreach
      · exact hfree (hall i hki hi)
    · have hiter : iterate file (fuel + 1) ⟨advance file k, file.sequence⟩ =
          p :: iterate file fuel ⟨advance file (p + 1), file.sequence⟩ := by
        rw [hsome]
        simp [iterate, isValid, next]
      rw [hiter, List.mem_cons, ih (Nat.succ_le_of_lt hp) (by omega)]
      constructor
      · rintro (rfl | ⟨-, hpi, hi, hfree⟩)
        · exact ⟨hreach, hkp, hp, hnot⟩
        · exact ⟨hreach, by omega, hi, hfree⟩
      · rintro ⟨-, hki, hi, hfree⟩
        rcases Nat.lt_trichotomy i p with hlt | rfl | hgt
        · exact absurd (hlocal i hki hlt) hfree
        · exact .inl rfl
        · exact .inr ⟨hreach, hgt, hi, hfree⟩

end BlocksIterator

/-- **The iterator** yields the slots that are not marked, if the file can be reached. -/
theorem mem_iterated_iff {file : FileInfo} {i : Nat} :
    i ∈ iterated file ↔ file.unreachable = false ∧ i < file.slots.length ∧ ¬ IsLocal file i := by
  by_cases hnil : file.slots = []
  · refine iff_of_false ?_ ?_
    · rw [iterated, hnil]
      exact List.not_mem_nil
    · rintro ⟨-, hi, -⟩
      rw [hnil] at hi
      cases hi
  · rw [iterated, BlocksIterator.create, if_neg hnil, BlocksIterator.mem_iterate (Nat.zero_le _) le_rfl]
    simp

/-! ## The update -/

section Update

variable {s t : Store} {f : FileId} {other : FileInfo}

theorem blockAt_eq (file : FileInfo) (i : Nat) : blockAt file i = (file.targets[i]?).join :=
  (getElem_targets file i).symm

theorem firstSize_eq (s : Store) (f : FileId) : firstSize s f = headSize s (s.files f) := rfl

/-- The hashes that `update` keeps are those of the blocks the file has locally. -/
theorem mem_keptHashes (hc : (s.files f).Coherent) (hash : Bytes) : hash ∈ s.keptHashes f ↔ HasLocally s f hash := by
  unfold Store.keptHashes HasLocally
  split
  · unfold Store.localBlockHashes FileInfo.targets
    constructor
    · intro hmem
      obtain ⟨slot, hslot, hsome⟩ := List.mem_filterMap.mp hmem
      cases slot with
      | none => cases hsome
      | some slot =>
        obtain ⟨hany, hhash⟩ := Option.ite_none_right_eq_some.mp hsome
        obtain ⟨fb, hfb, hflag⟩ := List.any_eq_true.mp hany
        exact ⟨slot.1, List.mem_map.mpr ⟨some slot, hslot, rfl⟩, Option.some.inj hhash, fb, hfb, by simpa using hflag⟩
    · rintro ⟨b, hb, hhash, fb, hfb, hflag, howner⟩
      obtain ⟨slot, hslot, hblock⟩ := List.mem_map.mp hb
      obtain ⟨slot, rfl, rfl⟩ := Option.map_eq_some_iff.mp hblock
      refine List.mem_filterMap.mpr ⟨some slot, hslot, ?_⟩
      have hany : (s.blocks slot.1).fileBlocks.any (fun fb => fb.flag && decide (fb.owner = f)) = true :=
        List.any_eq_true.mpr ⟨fb, hfb, by simp [hflag, howner]⟩
      simp only [hany, if_true, hhash]
  · rename_i hfile
    refine iff_of_false List.not_mem_nil ?_
    rintro ⟨b, hb, -⟩
    rw [FileInfo.targets, hc.slots_eq_nil (Bool.eq_false_iff.mpr hfile)] at hb
    cases hb

/-- After the update the blocks are those of the new record. -/
theorem blockAt_of_updated (h : Updated s f other t) (i : Nat) :
    blockAt (t.files f) i = blockAt other i := by
  rw [blockAt_eq, blockAt_eq, h.targets]

/-- The slots that are marked: those of blocks that the file has had locally. -/
theorem isLocal_iff (h : Updated s f other t) (hc : (s.files f).Coherent) (i : Nat) :
    IsLocal (t.files f) i ↔ ∃ b, blockAt other i = some b ∧ HasLocally s f (s.blocks b).hash := by
  unfold IsLocal blockAt
  rw [h.slots, Store.adopted, List.getElem?_map]
  rcases other.slots[i]? with - | - | slot
  · simp [marked]
  · simp [marked]
  · simp [marked, mem_keptHashes hc]

theorem firstSize_of_updated (h : Updated s f other t) : firstSize t f = headSize s other := by
  have hhead (u : Store) (file : FileInfo) : headSize u file =
      (file.targets.head?.join.map fun b => (u.blocks b).size.toUInt32.toNat).getD 0 := by
    rw [headSize, head_targets, Option.map_map]
    rfl
  rw [firstSize_eq, hhead, hhead, h.targets]
  simp only [h.same.size]

/-- **Blocks that stay.** After an update, what is marked is in its place exactly if every block of the new record
that the file has locally stays where it is marked. -/
theorem update_placed_iff (hl : s.graph.Linked) (hc : (s.files f).Coherent) (ho : other.Coherent)
    (ht : s.update f other = some t) : Placed s t f ↔ Stays s f other := by
  have hname : (s.files f).name = other.name := by
    by_contra hne
    rw [Store.update, if_neg fun h => hne h.1] at ht
    cases ht
  have hup := updated_of_update hl hc ho hname ht
  have hhash (i : Nat) {b : BlockId} (hb : blockAt other i = some b) :
      (blockAt (t.files f) i).map (fun b => (t.blocks b).hash) = some (s.blocks b).hash := by
    rw [blockAt_of_updated hup, hb, ← hup.same.hash]
    rfl
  constructor
  · intro h i b hb hlocally
    obtain ⟨hlocal, hoffset, hsame⟩ := h.sound i ((isLocal_iff hup hc i).mpr ⟨b, hb, hlocally⟩)
    refine ⟨hlocal, hsame.symm.trans (hhash i hb), ?_⟩
    rw [firstSize_of_updated hup, firstSize_eq, mul_eq_mul_left_iff] at hoffset
    exact hoffset.symm
  · intro h
    have hsound : ∀ i, IsLocal (t.files f) i → InPlace s t f i := by
      intro i hi
      obtain ⟨b, hb, hlocally⟩ := (isLocal_iff hup hc i).mp hi
      obtain ⟨hlocal, hsame, hsize⟩ := h i b hb hlocally
      refine ⟨hlocal, ?_, (hhash i hb).trans hsame.symm⟩
      rw [firstSize_of_updated hup, firstSize_eq, mul_eq_mul_left_iff]
      exact hsize.symm
    exact ⟨hsound, fun hreach i hi hout => mem_iterated_iff.mpr ⟨hreach, hi, mt (hsound i) hout⟩⟩

end Update

/-- A file with two blocks, the first of which has been downloaded, and a newer record of it with the blocks `x`
and `y`. -/
def twoRecords (x y : BlockId) : Store where
  blocks b := ⟨[UInt8.ofNat b], 4, (if b = 0 then [⟨0, 0, true⟩] else []) ++ (if b = 1 then [⟨0, 1, false⟩] else []) ++
    (if b = x then [⟨1, 0, false⟩] else []) ++ (if b = y then [⟨1, 1, false⟩] else [])⟩
  blockMap := [0, 1, 2]
  nextBlock := 3
  files f := { (default : FileInfo) with
    name := "a"
    sequence := f + 1
    content := .file (if f = 0 then [some (0, true), some (1, false)]
      else if f = 1 then [some (x, false), some (y, false)] else []) }
  nextFile := 2
  infos _ := default

theorem linked_twoRecords (x y : BlockId) : (twoRecords x y).graph.Linked where
  slot_of_entry b e he := by
    have hmem : e ∈ (twoRecords x y).graph.entries b := he
    simp only [Store.graph, twoRecords, List.mem_append, List.mem_ite_nil_right, List.mem_singleton] at hmem
    rcases hmem with ((⟨rfl, rfl⟩ | ⟨rfl, rfl⟩) | ⟨rfl, rfl⟩) | ⟨rfl, rfl⟩ <;> exact ⟨_, rfl⟩
  entry_of_slot f i b l hs := by
    show ∃ e ∈ ((twoRecords x y).blocks b).fileBlocks, _
    rcases f with - | - | f
    · rcases i with - | - | i
      · cases hs
        exact ⟨⟨0, 0, true⟩, by simp [twoRecords], rfl, rfl⟩
      · cases hs
        exact ⟨⟨0, 1, false⟩, by simp [twoRecords], rfl, rfl⟩
      · cases hs
    · rcases i with - | - | i
      · cases hs
        exact ⟨⟨1, 0, false⟩, by simp [twoRecords], rfl, rfl⟩
      · cases hs
        exact ⟨⟨1, 1, false⟩, by simp [twoRecords], rfl, rfl⟩
      · cases hs
    · cases hs
  nodup b := by
    show (List.map _ ((twoRecords x y).blocks b).fileBlocks).Nodup
    simp only [twoRecords]
    split_ifs <;> decide

/-- The first block stays, and the second one is new. -/
theorem placed_of_new_tail : ∃ t, (twoRecords 0 2).update 0 ((twoRecords 0 2).files 1) = some t ∧
    Placed (twoRecords 0 2) t 0 := by
  have hsome : ((twoRecords 0 2).update 0 ((twoRecords 0 2).files 1)).isSome = true := by decide +kernel
  obtain ⟨t, ht⟩ := Option.isSome_iff_exists.mp hsome
  have hcoherent (f : FileId) : ((twoRecords 0 2).files f).Coherent := ⟨fun _ => ⟨_, rfl⟩, fun _ => rfl⟩
  refine ⟨t, ht, (update_placed_iff (linked_twoRecords 0 2) (hcoherent 0) (hcoherent 1) ht).mpr ?_⟩
  intro i b hb hlocally
  rcases i with - | - | i
  · cases hb
    exact ⟨rfl, rfl, .inl rfl⟩
  · cases hb
    obtain ⟨b, hmem, hhash, -⟩ := hlocally
    have hb : b = 0 ∨ b = 1 := by simpa [twoRecords, FileInfo.targets, FileInfo.slots] using hmem
    rcases hb with rfl | rfl <;> exact absurd hhash (by decide)
  · cases hb

/-- The first block of the old record is the second one of the new record. It is marked there, the temporary file
has it at another offset, and the iterator yields the first slot only. -/
theorem marked_elsewhere : ∃ t, (twoRecords 2 0).update 0 ((twoRecords 2 0).files 1) = some t ∧
    IsLocal (t.files 0) 1 ∧ iterated (t.files 0) = [0] ∧ ¬ Placed (twoRecords 2 0) t 0 := by
  have hsome : ((twoRecords 2 0).update 0 ((twoRecords 2 0).files 1)).isSome = true := by decide +kernel
  have hlocal : ∀ t ∈ (twoRecords 2 0).update 0 ((twoRecords 2 0).files 1),
      IsLocal (t.files 0) 1 ∧ iterated (t.files 0) = [0] := by decide +kernel
  obtain ⟨t, ht⟩ := Option.isSome_iff_exists.mp hsome
  obtain ⟨hmarked, hiterated⟩ := hlocal t ht
  refine ⟨t, ht, hmarked, hiterated, fun h => ?_⟩
  exact absurd (h.sound 1 hmarked).1 (by decide +kernel)

end LocalBlocks

end SyncSpirit
