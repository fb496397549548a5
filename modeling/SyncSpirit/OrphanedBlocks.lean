import SyncSpirit.IndexMessage

/-!
# Orphaned blocks (`model/misc/orphaned_blocks.cpp`)

When files go, the blocks that no other file refers to go, too. A block does not count its files: it has a
union of one inline `file_block_t` or a vector of them, and `deduce` counts the usages of a block down
while it walks through that union.

- `Links`: the union; `Links.ofList` is the one that `link` and `unlink` keep for a list of back references;
- `usages_eq`: the counter ends at the number of back references of other files;
- `deduce_eq`: so the walk gives what `UpdateFolder.deduce` gives;
- `mem_deduce_iff`: the result is exact.
-/

namespace SyncSpirit

namespace OrphanedBlocks

open Store Backlink

/-! ## The back references of a block -/

/-- `file_blocks_union_t` with its `SINGLE_MASK`. -/
inductive Links where
  | single (fb : FileBlock)
  | multi (fbs : List FileBlock)
  deriving DecidableEq, Repr

namespace Links

/-- `block_info_t::link`. -/
def link : Links → FileBlock → Links
  | .single first, fb => .multi [first, fb]
  | .multi [], fb => .single fb
  | .multi (first :: rest), fb => .multi (first :: rest ++ [fb])

/-- `block_info_t::unlink`: the removed indices. A vector that is left with one entry is put inline. -/
def unlink (f : FileId) : Links → List Nat × Links
  | .single fb => if fb.owner = f then ([fb.index], .multi []) else ([], .single fb)
  | .multi fbs =>
    ((fbs.filter fun fb => fb.owner = f).map Entry.index,
      match fbs.filter fun fb => fb.owner ≠ f with
      | [first] => .single first
      | rest => .multi rest)

/-- `file_blocks_iterator_t::get_total`. -/
def getTotal : Links → Nat
  | .single _ => 1
  | .multi fbs => fbs.length

/-- `file_blocks_iterator_t::next`, at an index. -/
def next (nextIndex : Nat) : Links → Option FileBlock
  | .single fb => if nextIndex = 0 then some fb else none
  | .multi fbs => fbs[nextIndex]?

/-- The union of a block with these back references. -/
def ofList : List FileBlock → Links
  | [fb] => .single fb
  | fbs => .multi fbs

theorem link_ofList (fbs : List FileBlock) (fb : FileBlock) : (ofList fbs).link fb = ofList (fbs ++ [fb]) := by
  match fbs with
  | [] => rfl
  | [_] => rfl
  | _ :: _ :: _ => rfl

theorem unlink_ofList (fbs : List FileBlock) (f : FileId) : (ofList fbs).unlink f =
    ((fbs.filter fun fb => fb.owner = f).map Entry.index, ofList (fbs.filter fun fb => fb.owner ≠ f)) := by
  match fbs with
  | [] => rfl
  | [fb] =>
    by_cases hf : fb.owner = f
    · simp [ofList, unlink, hf]
    · simp [ofList, unlink, hf]
  | a :: b :: fbs =>
    show (_, match (a :: b :: fbs).filter fun fb => fb.owner ≠ f with
      | [first] => Links.single first
      | rest => Links.multi rest) = _
    congr 1

theorem getTotal_ofList (fbs : List FileBlock) : (ofList fbs).getTotal = fbs.length := by
  match fbs with
  | [] => rfl
  | [_] => rfl
  | _ :: _ :: _ => rfl

theorem next_ofList (fbs : List FileBlock) (i : Nat) : (ofList fbs).next i = fbs[i]? := by
  match fbs with
  | [] => rfl
  | [fb] =>
    cases i with
    | zero => rfl
    | succ i => simp [ofList, next]
  | _ :: _ :: _ => rfl

end Links

/-! ## `deduce` -/

/-- The loop over the back references of a block: each one of a recorded file takes a usage away. There
are `rounds` of them left. -/
def countDown (recorded : List FileId) (links : Links) : Nat → Nat → Nat → Nat
  | 0, _, usages => usages
  | rounds + 1, i, usages =>
    match links.next i with
    | none => usages
    | some fb => countDown recorded links rounds (i + 1) (if fb.owner ∈ recorded then usages - 1 else usages)

/-- The usages of a block by files that are not recorded. -/
def usages (recorded : List FileId) (links : Links) : Nat :=
  countDown recorded links links.getTotal 0 links.getTotal

/-- One block: the result, and the hashes that have been processed. -/
def deduceBlock (s : Store) (recorded : List FileId) (whiteListed : List Bytes)
    (r : List Bytes × List Bytes) (b : BlockId) : List Bytes × List Bytes :=
  let hash := (s.blocks b).hash
  if hash ∈ whiteListed then r
  else if hash ∈ r.2 then r
  else (if usages recorded (Links.ofList (s.blocks b).fileBlocks) = 0 then r.1 ++ [hash] else r.1, hash :: r.2)

/-- The blocks that the iteration over a file returns: it ends at a null slot. -/
def iterated (file : FileInfo) : List BlockId :=
  ((file.slots.takeWhile Option.isSome).filterMap id).map Prod.fst

/-- `orphaned_blocks_t::deduce`, for the files that have been recorded. -/
def deduce (s : Store) (recorded : List FileId) (whiteListed : List Bytes) : List Bytes :=
  (recorded.foldl (fun r f =>
    if (s.files f).isFile then (iterated (s.files f)).foldl (deduceBlock s recorded whiteListed) r else r)
    ([], [])).1

/-! ## The usages -/

theorem countDown_eq (recorded : List FileId) (fbs : List FileBlock) :
    ∀ (rounds i u : Nat), i + rounds = fbs.length →
      countDown recorded (Links.ofList fbs) rounds i u =
        u - (fbs.drop i).countP fun fb => fb.owner ∈ recorded := by
  intro rounds
  induction rounds with
  | zero =>
    intro i u hi
    rw [countDown, List.drop_eq_nil_of_le (by omega), List.countP_nil, Nat.sub_zero]
  | succ rounds ih =>
    intro i u hi
    have hlt : i < fbs.length := by omega
    rw [countDown, Links.next_ofList, List.getElem?_eq_getElem hlt, List.drop_eq_getElem_cons hlt,
      List.countP_cons]
    dsimp only
    rw [ih (i + 1) _ (by omega)]
    by_cases hmem : fbs[i].owner ∈ recorded
    · rw [if_pos hmem, if_pos (decide_eq_true hmem)]
      omega
    · rw [if_neg hmem, if_neg (by simpa using hmem)]
      omega

/-- Each usage that is left is one by a file that stays. -/
theorem usages_eq (recorded : List FileId) (fbs : List FileBlock) :
    usages recorded (Links.ofList fbs) = fbs.countP fun fb => fb.owner ∉ recorded := by
  have hcount := List.length_eq_countP_add_countP (fun fb : FileBlock => decide (fb.owner ∈ recorded)) (l := fbs)
  rw [usages, Links.getTotal_ofList, countDown_eq recorded fbs _ _ _ (Nat.zero_add _), List.drop_zero]
  have hnot : (fbs.countP fun fb => ¬ decide (fb.owner ∈ recorded) = true) =
      fbs.countP fun fb => fb.owner ∉ recorded := List.countP_congr fun fb _ => by simp
  omega

theorem usages_eq_zero_iff {recorded : List FileId} {fbs : List FileBlock} :
    usages recorded (Links.ofList fbs) = 0 ↔ ∀ fb ∈ fbs, fb.owner ∈ recorded := by
  rw [usages_eq, List.countP_eq_zero]
  exact forall₂_congr fun fb _ => by simp

/-! ## Refinement -/

section Refinement

variable (s : Store) (recorded : List FileId) (whiteListed : List Bytes)

theorem deduceBlock_eq (r : List Bytes × List Bytes) (p : Slot) :
    deduceBlock s recorded whiteListed r p.1 = UpdateFolder.deduceBlock s recorded whiteListed r p := by
  unfold deduceBlock UpdateFolder.deduceBlock
  have hall : ((s.blocks p.1).fileBlocks.all fun fb => fb.owner ∈ recorded) = true ↔
      usages recorded (Links.ofList (s.blocks p.1).fileBlocks) = 0 := by
    rw [usages_eq_zero_iff, List.all_eq_true]
    exact forall₂_congr fun fb _ => by simp
  by_cases hwhite : (s.blocks p.1).hash ∈ whiteListed
  · rw [if_pos hwhite, if_pos (Or.inl hwhite)]
  · rw [if_neg hwhite]
    by_cases hprocessed : (s.blocks p.1).hash ∈ r.2
    · rw [if_pos hprocessed, if_pos (Or.inr hprocessed)]
    · rw [if_neg hprocessed, if_neg (not_or.mpr ⟨hwhite, hprocessed⟩)]
      by_cases hzero : usages recorded (Links.ofList (s.blocks p.1).fileBlocks) = 0
      · rw [if_pos hzero, if_pos (hall.mpr hzero)]
      · rw [if_neg hzero, if_neg (mt hall.mp hzero)]

/-- All blocks that are looked at. -/
def lookedAt : List BlockId := (recorded.filter fun f => (s.files f).isFile).flatMap fun f => iterated (s.files f)

theorem deduce_eq_foldl : deduce s recorded whiteListed =
    ((lookedAt s recorded).foldl (deduceBlock s recorded whiteListed) ([], [])).1 := by
  have hgen : ∀ (fs : List FileId) (r : List Bytes × List Bytes),
      fs.foldl (fun r f => if (s.files f).isFile then
        (iterated (s.files f)).foldl (deduceBlock s recorded whiteListed) r else r) r =
      (lookedAt s fs).foldl (deduceBlock s recorded whiteListed) r := by
    intro fs
    induction fs with
    | nil => exact fun _ => rfl
    | cons f fs ih =>
      intro r
      rw [List.foldl_cons, ih]
      unfold lookedAt
      by_cases hf : (s.files f).isFile = true
      · rw [if_pos hf, List.filter_cons, if_pos hf, List.flatMap_cons, List.foldl_append]
      · rw [if_neg hf, List.filter_cons, if_neg hf]
  exact congrArg Prod.fst (hgen recorded ([], []))

/-- The walk through the unions gives what the lists of back references give. -/
theorem deduce_eq : deduce s recorded whiteListed = UpdateFolder.deduce s recorded whiteListed := by
  rw [deduce_eq_foldl]
  unfold UpdateFolder.deduce
  have hblocks : lookedAt s recorded = ((recorded.filter fun f => (s.files f).isFile).flatMap fun f =>
      ((s.files f).slots.takeWhile Option.isSome).filterMap id).map Prod.fst := by
    rw [List.map_flatMap]
    rfl
  rw [hblocks, List.foldl_map]
  simp only [deduceBlock_eq]

end Refinement

/-! ## Exactness -/

/-- The file has the block `hash` in one of its slots. -/
def Contains (s : Store) (f : FileId) (hash : Bytes) : Prop :=
  ∃ p, some p ∈ (s.files f).slots ∧ (s.blocks p.1).hash = hash

/-- The block `hash` has a back reference to the file. -/
def LinkedTo (s : Store) (hash : Bytes) (f : FileId) : Prop :=
  ∃ b, (s.blocks b).hash = hash ∧ ∃ fb ∈ (s.blocks b).fileBlocks, fb.owner = f

/-- What holds between two diffs: slots and back references match, files refer to blocks of the block map,
and a recorded file has no empty slot before a block (its slots are all assigned, or none of
them is). -/
structure Settled (s : Store) (recorded : List FileId) : Prop where
  linked : s.graph.Linked
  blocks : s.BlocksWF
  whole : ∀ f ∈ recorded, (s.files f).isFile = true → ∀ v ∈ (s.files f).slots.dropWhile Option.isSome, v = none

section Exact

variable {s : Store} {recorded : List FileId} {whiteListed : List Bytes}

/-- The blocks that files refer to are known by their hashes. -/
theorem Settled.block_inj (h : Settled s recorded) {f g : FileId} {p q : Slot}
    (hp : some p ∈ (s.files f).slots) (hq : some q ∈ (s.files g).slots)
    (heq : (s.blocks p.1).hash = (s.blocks q.1).hash) : p.1 = q.1 := by
  have hknown : ∀ {f : FileId} {p : Slot}, some p ∈ (s.files f).slots →
      s.byHash (s.blocks p.1).hash = some p.1 := by
    intro f p hp
    obtain ⟨i, hi⟩ := List.mem_iff_getElem?.mp hp
    refine h.blocks.known f i p.1 p.2 ?_
    show ((s.files f).slots[i]?).join = _
    rw [hi]
    rfl
  have hboth := (hknown hp).symm.trans ((congrArg s.byHash heq).trans (hknown hq))
  exact Option.some.inj hboth

/-- Every block of a recorded regular file is looked at. -/
theorem Settled.mem_lookedAt_iff (h : Settled s recorded) {b : BlockId} :
    b ∈ lookedAt s recorded ↔ ∃ f ∈ recorded, (s.files f).isFile = true ∧ ∃ p, some p ∈ (s.files f).slots ∧ p.1 = b := by
  unfold lookedAt
  rw [List.mem_flatMap]
  constructor
  · rintro ⟨f, hf, hb⟩
    obtain ⟨p, hp, hpb⟩ := List.mem_map.mp hb
    obtain ⟨v, hv, hvp⟩ := List.mem_filterMap.mp hp
    refine ⟨f, (List.mem_filter.mp hf).1, (List.mem_filter.mp hf).2, p, ?_, hpb⟩
    rw [← show v = some p from hvp]
    exact (List.takeWhile_sublist _).subset hv
  · rintro ⟨f, hf, hfile, p, hp, hpb⟩
    refine ⟨f, List.mem_filter.mpr ⟨hf, hfile⟩, List.mem_map.mpr ⟨p, List.mem_filterMap.mpr ⟨some p, ?_, rfl⟩, hpb⟩⟩
    rw [← @List.takeWhile_append_dropWhile _ Option.isSome (s.files f).slots] at hp
    rcases List.mem_append.mp hp with hp | hp
    · exact hp
    · cases h.whole f hf hfile _ hp

/-- **The loop**: a hash is in the result exactly if one of its blocks that have been looked at is used by
recorded files only. -/
theorem mem_foldl_iff (hinj : ∀ b ∈ lookedAt s recorded, ∀ c ∈ lookedAt s recorded,
      (s.blocks b).hash = (s.blocks c).hash → b = c) :
    ∀ bs : List BlockId, bs ⊆ lookedAt s recorded → ∀ hash,
      (hash ∈ (bs.foldl (deduceBlock s recorded whiteListed) ([], [])).2 ↔
        hash ∉ whiteListed ∧ ∃ b ∈ bs, (s.blocks b).hash = hash) ∧
      (hash ∈ (bs.foldl (deduceBlock s recorded whiteListed) ([], [])).1 ↔
        hash ∉ whiteListed ∧ ∃ b ∈ bs, (s.blocks b).hash = hash ∧
          ∀ fb ∈ (s.blocks b).fileBlocks, fb.owner ∈ recorded) := by
  intro bs
  induction bs using List.reverseRecOn with
  | nil => exact fun _ hash => ⟨by simp, by simp⟩
  | append_singleton bs b ih =>
    intro hsub hash
    have hbs : bs ⊆ lookedAt s recorded := fun c hc => hsub (List.mem_append_left _ hc)
    have hb : b ∈ lookedAt s recorded := hsub (by simp)
    obtain ⟨hprocessed, hresult⟩ := ih hbs hash
    obtain ⟨hseen, -⟩ := ih hbs (s.blocks b).hash
    rw [List.foldl_append, List.foldl_cons, List.foldl_nil]
    generalize bs.foldl (deduceBlock s recorded whiteListed) ([], []) = r at hprocessed hresult hseen
    unfold deduceBlock
    dsimp only
    by_cases hwhite : (s.blocks b).hash ∈ whiteListed
    · rw [if_pos hwhite, hprocessed, hresult]
      constructor
      · refine and_congr_right fun hnot => ?_
        simp only [List.mem_append, List.mem_singleton]
        exact ⟨fun ⟨c, hc, hch⟩ => ⟨c, .inl hc, hch⟩, by grind⟩
      · refine and_congr_right fun hnot => ?_
        simp only [List.mem_append, List.mem_singleton]
        exact ⟨fun ⟨c, hc, hch⟩ => ⟨c, .inl hc, hch⟩, by grind⟩
    · rw [if_neg hwhite]
      by_cases hdone : (s.blocks b).hash ∈ r.2
      -- the hash has been processed, and its block is the same one
      · rw [if_pos hdone, hprocessed, hresult]
        obtain ⟨-, c, hc, hch⟩ := hseen.mp hdone
        obtain rfl : c = b := hinj c (hbs hc) b hb hch
        simp only [List.mem_append, List.mem_singleton]
        constructor <;> grind
      · rw [if_neg hdone]
        constructor
        · rw [List.mem_cons, hprocessed]
          simp only [List.mem_append, List.mem_singleton]
          grind
        · have hzero := @usages_eq_zero_iff recorded (s.blocks b).fileBlocks
          by_cases hall : usages recorded (Links.ofList (s.blocks b).fileBlocks) = 0
          · rw [if_pos hall, List.mem_append, hresult, List.mem_singleton]
            simp only [List.mem_append, List.mem_singleton]
            grind
          · rw [if_neg hall, hresult]
            simp only [List.mem_append, List.mem_singleton]
            grind

/-- **Orphan deduction is exact**: the hashes that are not white-listed, of which a recorded regular file has
a block, and whose back references are all to recorded files. -/
theorem mem_deduce_iff (h : Settled s recorded) (whiteListed : List Bytes) (hash : Bytes) :
    hash ∈ deduce s recorded whiteListed ↔ hash ∉ whiteListed ∧
      (∃ f ∈ recorded, (s.files f).isFile = true ∧ Contains s f hash) ∧
      ∀ g, LinkedTo s hash g → g ∈ recorded := by
  have hinj : ∀ b ∈ lookedAt s recorded, ∀ c ∈ lookedAt s recorded,
      (s.blocks b).hash = (s.blocks c).hash → b = c := by
    intro b hb c hc heq
    obtain ⟨f, -, -, p, hp, rfl⟩ := h.mem_lookedAt_iff.mp hb
    obtain ⟨g, -, -, q, hq, rfl⟩ := h.mem_lookedAt_iff.mp hc
    exact h.block_inj hp hq heq
  rw [deduce_eq_foldl, (mem_foldl_iff hinj _ (List.Subset.refl _) hash).2]
  refine and_congr_right fun _ => ?_
  constructor
  · rintro ⟨b, hb, rfl, hall⟩
    obtain ⟨f, hf, hfile, p, hp, rfl⟩ := h.mem_lookedAt_iff.mp hb
    refine ⟨⟨f, hf, hfile, p, hp, rfl⟩, ?_⟩
    rintro g ⟨c, hc, fb, hfb, rfl⟩
    -- another block of this hash with a back reference would be the same one
    obtain ⟨l, hslot⟩ := h.linked.slot_of_entry c fb hfb
    have hmem : some (c, l) ∈ (s.files fb.owner).slots :=
      List.mem_of_getElem? (Option.join_eq_some_iff.mp hslot)
    obtain rfl : c = p.1 := h.block_inj hmem hp hc
    exact hall fb hfb
  · rintro ⟨⟨f, hf, hfile, p, hp, rfl⟩, hall⟩
    exact ⟨p.1, h.mem_lookedAt_iff.mpr ⟨f, hf, hfile, p, hp, rfl⟩, rfl, fun fb hfb =>
      hall fb.owner ⟨p.1, rfl, fb, hfb, rfl⟩⟩

end Exact

/-! ## A block of two files -/

/-- The file 0 has the block [1] once and the block [2] twice, the file 1 has the block [2], too. -/
def sharedBlock : Store :=
  { Store.initial fun _ => default with
    blocks := fun b => match b with
      | 0 => ⟨[1], 5, [⟨0, 0, false⟩]⟩
      | 1 => ⟨[2], 5, [⟨0, 1, false⟩, ⟨1, 0, false⟩, ⟨0, 2, false⟩]⟩
      | _ => default
    blockMap := [0, 1]
    nextBlock := 2
    files := fun f => match f with
      | 0 => { (default : FileInfo) with content := .file [some (0, false), some (1, false), some (1, false)] }
      | 1 => { (default : FileInfo) with content := .file [some (1, false)] }
      | _ => default
    nextFile := 2 }

theorem slot_sharedBlock {f i : Nat} {b : BlockId} {l : Bool} (h : sharedBlock.graph.slot f i = some (b, l)) :
    (f = 0 ∧ i = 0 ∧ b = 0) ∨ (f = 0 ∧ i = 1 ∧ b = 1) ∨ (f = 0 ∧ i = 2 ∧ b = 1) ∨ (f = 1 ∧ i = 0 ∧ b = 1) := by
  match f, i with
  | 0, 0 | 0, 1 | 0, 2 | 1, 0 =>
    cases h
    simp
  | 0, _ + 3 | 1, _ + 1 | _ + 2, _ => cases h

theorem settled_sharedBlock (recorded : List FileId) : Settled sharedBlock recorded where
  linked := by
    refine ⟨fun b e he => ?_, fun f i b l h => ?_, fun b => ?_⟩
    · match b with
      | 0 | 1 => fin_cases he <;> exact ⟨false, rfl⟩
      | _ + 2 => cases he
    · rcases slot_sharedBlock h with ⟨rfl, rfl, rfl⟩ | ⟨rfl, rfl, rfl⟩ | ⟨rfl, rfl, rfl⟩ | ⟨rfl, rfl, rfl⟩ <;> decide
    · match b with
      | 0 | 1 => decide
      | _ + 2 => exact List.nodup_nil
  blocks := by
    refine ⟨fun f i b l h => ?_, by decide⟩
    rcases slot_sharedBlock h with ⟨-, -, rfl⟩ | ⟨-, -, rfl⟩ | ⟨-, -, rfl⟩ | ⟨-, -, rfl⟩ <;> decide
  whole f _ _ v hv := by
    match f with
    | 0 | 1 | _ + 2 => cases hv

/-- Without the first file the block [1] is gone, and the block [2] is still used. -/
theorem mem_deduce_of_sharedBlock :
    [1] ∈ deduce sharedBlock [0] [] ∧ [2] ∉ deduce sharedBlock [0] [] := by
  constructor
  · refine (mem_deduce_iff (settled_sharedBlock [0]) [] [1]).mpr
      ⟨by decide, ⟨0, by decide, rfl, (0, false), by decide, rfl⟩, ?_⟩
    rintro g ⟨b, hb, fb, hfb, rfl⟩
    match b with
    | 0 =>
      cases hfb with
      | head => decide
      | tail _ h => cases h
    | 1 => cases hb
    | _ + 2 => cases hb
  · intro h
    have hg := ((mem_deduce_iff (settled_sharedBlock [0]) [] [2]).mp h).2.2 1 ⟨1, rfl, ⟨1, 0, false⟩, by decide, rfl⟩
    exact absurd hg (by decide)

end OrphanedBlocks

end SyncSpirit
