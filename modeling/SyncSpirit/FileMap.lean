import SyncSpirit.FolderInfo

/-!
# The map of files (`file_infos_map_t`)

A multi-index container has one set of elements, whatever the index they are looked up with, and refuses an
element if any of its keys is taken. `put` tries three times, through one index after another, and each time
replaces the element that is in the way. A replacement is refused, too, if another element is in the way; that is
not looked at, and `put` says `true`.

- `coherent_iff`: a file is put as it should be exactly if at most one other file has to go, and is removed with
  all files that share a key with it and no others.
-/

namespace SyncSpirit

open Store

/-- `file_infos_map_t`. The keys of its elements are unique. -/
structure FileMap (s : Store) where
  files : List FileId
  keyed : files.Pairwise fun g h => KeysDiffer (s.files g) (s.files h)

namespace FileMap

variable {s : Store} {files : List FileId} {f g h : FileId} {m m' : FileMap s}

/-- `file_infos_map_t::by_uuid`. -/
def byUuid (m : FileMap s) (uuid : Uuid) : Option FileId :=
  m.files.find? fun f => (s.files f).uuid = uuid

/-- `file_infos_map_t::by_name`. -/
def byName (m : FileMap s) (name : String) : Option FileId :=
  m.files.find? fun f => (s.files f).name = name

/-- `file_infos_map_t::by_sequence`. -/
def bySequence (m : FileMap s) (sequence : Int) : Option FileId :=
  m.files.find? fun f => (s.files f).sequence = sequence

/-! ## Elements of a map -/

theorem keysDiffer_comm {a b : FileInfo} : KeysDiffer a b ↔ KeysDiffer b a :=
  and_congr ne_comm (and_congr ne_comm ne_comm)

theorem not_keysDiffer_self (a : FileInfo) : ¬ KeysDiffer a a := fun h => h.1 rfl

/-- Two elements of a map that share a key are the same. -/
theorem eq_of_keyed (hkeyed : files.Pairwise fun g h => KeysDiffer (s.files g) (s.files h)) (hg : g ∈ files)
    (hh : h ∈ files) (hshared : ¬ KeysDiffer (s.files g) (s.files h)) : g = h := by
  have hsymm : Std.Symm fun g h => KeysDiffer (s.files g) (s.files h) := ⟨fun _ _ hk => keysDiffer_comm.mp hk⟩
  by_contra hne
  exact hshared (hkeyed.forall hg hh hne)

/-- A lookup with a key finds the one element that has it. -/
theorem find?_eq_some_iff {α : Type} [DecidableEq α] (key : FileId → α) (m : FileMap s)
    (hkey : ∀ g h, key g = key h → ¬ KeysDiffer (s.files g) (s.files h)) (k : α) :
    m.files.find? (fun g => key g = k) = some f ↔ f ∈ m.files ∧ key f = k := by
  constructor
  · intro hfind
    exact ⟨List.mem_of_find?_eq_some hfind, by simpa using List.find?_some hfind⟩
  · rintro ⟨hf, rfl⟩
    obtain ⟨g, hfind⟩ : ∃ g, m.files.find? (fun g => key g = key f) = some g :=
      Option.isSome_iff_exists.mp (List.find?_isSome.mpr ⟨f, hf, by simp⟩)
    have hg : key g = key f := by simpa using List.find?_some hfind
    rw [hfind, eq_of_keyed m.keyed (List.mem_of_find?_eq_some hfind) hf (hkey g f hg)]

theorem byUuid_eq_some {uuid : Uuid} : m.byUuid uuid = some f ↔ f ∈ m.files ∧ (s.files f).uuid = uuid :=
  find?_eq_some_iff (fun g => (s.files g).uuid) m (fun _ _ h hk => hk.1 h) uuid

theorem byName_eq_some {name : String} : m.byName name = some f ↔ f ∈ m.files ∧ (s.files f).name = name :=
  find?_eq_some_iff (fun g => (s.files g).name) m (fun _ _ h hk => hk.2.1 h) name

theorem bySequence_eq_some {sequence : Int} :
    m.bySequence sequence = some f ↔ f ∈ m.files ∧ (s.files f).sequence = sequence :=
  find?_eq_some_iff (fun g => (s.files g).sequence) m (fun _ _ h hk => hk.2.2 h) sequence

/-- A file is the answer for all three of its own keys. -/
def Holds (m : FileMap s) (f : FileId) : Prop :=
  m.byUuid (s.files f).uuid = some f ∧ m.byName (s.files f).name = some f ∧
    m.bySequence (s.files f).sequence = some f

/-- A file is no answer for any key. -/
def Gone (m : FileMap s) (f : FileId) : Prop :=
  (∀ uuid, m.byUuid uuid ≠ some f) ∧ (∀ name, m.byName name ≠ some f) ∧
    ∀ sequence, m.bySequence sequence ≠ some f

theorem holds_iff : m.Holds f ↔ f ∈ m.files := by
  simp [Holds, byUuid_eq_some, byName_eq_some, bySequence_eq_some]

theorem gone_iff : m.Gone f ↔ f ∉ m.files := by
  simp [Gone, byUuid_eq_some, byName_eq_some, bySequence_eq_some]

/-! ## `put` -/

/-- One of the three blocks of `put`, with the value of `inserted` at its end. -/
def putBlock (s : Store) (f : FileId) (replace : Bool) (files : List FileId) : Bool × List FileId :=
  match s.collision files f with
  | none => (true, files ++ [f])
  | some g =>
    if replace then
      -- `inserted` is set whether the replacement was done or not
      (true, if (s.collision (files.filter (· ≠ g)) f).isSome then files
        else files.map fun h => if h = g then f else h)
    else (false, files)

theorem putBlock_replace (s : Store) (f : FileId) (files : List FileId) :
    putBlock s f true files = (true, s.putOnce f files) := by
  rw [putBlock, putOnce]
  cases s.collision files f <;> rfl

theorem collision_some (hcollision : s.collision files f = some g) :
    g ∈ files ∧ ¬ KeysDiffer (s.files g) (s.files f) := by
  simp only [collision, Option.orElse_eq_orElse, Option.orElse_eq_or, Option.or_eq_some_iff] at hcollision
  obtain h | ⟨-, h | ⟨-, h⟩⟩ := hcollision
  · exact ⟨List.mem_of_find?_eq_some h, fun hk => hk.1 (by simpa using List.find?_some h)⟩
  · exact ⟨List.mem_of_find?_eq_some h, fun hk => hk.2.1 (by simpa using List.find?_some h)⟩
  · exact ⟨List.mem_of_find?_eq_some h, fun hk => hk.2.2 (by simpa using List.find?_some h)⟩

/-- A file takes the place of another one. -/
theorem keyed_map (hkeyed : files.Pairwise fun g h => KeysDiffer (s.files g) (s.files h)) (hg : g ∈ files)
    (hfree : ∀ h ∈ files, h ≠ g → KeysDiffer (s.files h) (s.files f)) :
    (files.map fun h => if h = g then f else h).Pairwise fun a b => KeysDiffer (s.files a) (s.files b) := by
  refine List.pairwise_map.mpr (hkeyed.imp_of_mem fun {a b} ha hb hab => ?_)
  by_cases hag : a = g
  · have hbg : b ≠ g := by
      rintro rfl
      exact not_keysDiffer_self _ (hag ▸ hab)
    simpa [hag, hbg] using keysDiffer_comm.mp (hfree b hb hbg)
  · by_cases hbg : b = g
    · simpa [hag, hbg] using hfree a ha hag
    · simpa [hag, hbg] using hab

theorem keyed_putBlock (hkeyed : files.Pairwise fun g h => KeysDiffer (s.files g) (s.files h)) (replace : Bool) :
    (putBlock s f replace files).2.Pairwise fun g h => KeysDiffer (s.files g) (s.files h) := by
  unfold putBlock
  split
  · rename_i hcollision
    refine List.pairwise_append.mpr ⟨hkeyed, List.pairwise_singleton _ _, fun g hg h hh => ?_⟩
    rw [List.mem_singleton.mp hh]
    exact collision_eq_none.mp hcollision g hg
  · rename_i g hcollision
    split
    · split
      · exact hkeyed
      · rename_i hothers
        refine keyed_map hkeyed (collision_some hcollision).1 fun h hh hne => ?_
        exact collision_eq_none.mp (by simpa using hothers) h (List.mem_filter.mpr ⟨hh, by simpa using hne⟩)
    · exact hkeyed

/-- One of the three blocks of `put`, on a map. -/
def putRound (m : FileMap s) (f : FileId) (replace : Bool) : Bool × FileMap s :=
  ((putBlock s f replace m.files).1, ⟨(putBlock s f replace m.files).2, keyed_putBlock m.keyed replace⟩)

/-- `file_infos_map_t::put`. The result of each block is overwritten by the next. -/
def put (m : FileMap s) (f : FileId) (replace : Bool) : Bool × FileMap s :=
  (((m.putRound f replace).2.putRound f replace).2).putRound f replace

/-- `file_infos_map_t::remove`: one index after another. -/
def remove (m : FileMap s) (f : FileId) : FileMap s where
  files := ((m.files.filter fun g => (s.files g).uuid ≠ (s.files f).uuid).filter
    fun g => (s.files g).name ≠ (s.files f).name).filter fun g => (s.files g).sequence ≠ (s.files f).sequence
  keyed := ((m.keyed.filter _).filter _).filter _

/-- The map of a folder info as `Store.put` has it. -/
theorem put_files (m : FileMap s) (f : FileId) :
    (m.put f true).2.files = s.putOnce f (s.putOnce f (s.putOnce f m.files)) := by
  simp [put, putRound, putBlock_replace]

theorem put_result (m : FileMap s) (f : FileId) : (m.put f true).1 = true := by
  simp [put, putRound, putBlock_replace]

theorem mem_remove : g ∈ (m.remove f).files ↔ g ∈ m.files ∧ KeysDiffer (s.files g) (s.files f) := by
  simp only [remove, KeysDiffer, List.mem_filter, decide_eq_true_eq, and_assoc]

/-! ## When a file is put as it should be -/

/-- A file is put in with `put`: it is the answer for its keys, another file is the answer for all its keys or
gone, is changed only if it shares a key, and the result says whether the file is in the map. -/
structure PutRight (m : FileMap s) (f : FileId) (result : Bool) (m' : FileMap s) : Prop where
  uuid : m'.byUuid (s.files f).uuid = some f
  name : m'.byName (s.files f).name = some f
  sequence : m'.bySequence (s.files f).sequence = some f
  gone : ∀ g, ¬ m'.Holds g → m'.Gone g
  kept : ∀ g, m.Holds g → KeysDiffer (s.files g) (s.files f) → m'.Holds g
  only : ∀ g, m'.Holds g → m.Holds g ∨ g = f
  result_iff : result = true ↔ m'.Holds f

/-- A file is taken out with `remove`. -/
structure RemoveRight (m : FileMap s) (f : FileId) (m' : FileMap s) : Prop where
  gone : m'.Gone f
  kept : ∀ g, m.Holds g → KeysDiffer (s.files g) (s.files f) → m'.Holds g
  only : ∀ g, m'.Holds g → m.Holds g

/-- All elements that are in the way of a file are the same. -/
def OneInTheWay (m : FileMap s) (f : FileId) : Prop :=
  ∀ g ∈ m.files, ∀ h ∈ m.files, ¬ KeysDiffer (s.files g) (s.files f) → ¬ KeysDiffer (s.files h) (s.files f) → g = h

theorem remove_right (m : FileMap s) (f : FileId) : RemoveRight m f (m.remove f) where
  gone := gone_iff.mpr fun h => not_keysDiffer_self _ (mem_remove.mp h).2
  kept _ hg hk := holds_iff.mpr (mem_remove.mpr ⟨holds_iff.mp hg, hk⟩)
  only _ hg := holds_iff.mpr (mem_remove.mp (holds_iff.mp hg)).1

/-- Two elements are in the way: no replacement is done. -/
theorem putOnce_blocked (hblocked : ¬ m.OneInTheWay f) : s.putOnce f m.files = m.files := by
  rw [putOnce]
  cases hcollision : s.collision m.files f with
  | none =>
    have hfree := collision_eq_none.mp hcollision
    exact absurd (fun a ha _ _ hk _ => absurd (hfree a ha) hk) hblocked
  | some g =>
    refine if_pos (Option.isSome_iff_ne_none.mpr fun hnone => hblocked ?_)
    have hothers : ∀ h ∈ m.files, ¬ KeysDiffer (s.files h) (s.files f) → h = g := by
      intro h hh hk
      by_contra hne
      exact hk (collision_eq_none.mp hnone h (List.mem_filter.mpr ⟨hh, by simpa using hne⟩))
    intro a ha b hb hka hkb
    rw [hothers a ha hka, hothers b hb hkb]

/-- At most one element is in the way: it makes place. -/
theorem mem_putOnce_of_one (hone : m.OneInTheWay f) :
    g ∈ s.putOnce f m.files ↔ g = f ∨ g ∈ m.files ∧ KeysDiffer (s.files g) (s.files f) := by
  rw [putOnce]
  cases hcollision : s.collision m.files f with
  | none =>
    have hfree := collision_eq_none.mp hcollision
    simp only [List.mem_append, List.mem_singleton]
    constructor
    · rintro (hg | rfl)
      · exact .inr ⟨hg, hfree g hg⟩
      · exact .inl rfl
    · rintro (rfl | ⟨hg, -⟩)
      · exact .inr rfl
      · exact .inl hg
  | some k =>
    obtain ⟨hk, hshared⟩ := collision_some hcollision
    have hothers : ∀ h ∈ m.files, h ≠ k → KeysDiffer (s.files h) (s.files f) := by
      intro h hh hne
      by_contra hkeys
      exact hne (hone h hh k hk hkeys hshared)
    have hnone : s.collision (m.files.filter (· ≠ k)) f = none :=
      collision_eq_none.mpr fun h hh => hothers h (List.mem_of_mem_filter hh) (by simpa using (List.mem_filter.mp hh).2)
    simp only [hnone, Option.isSome_none, Bool.false_eq_true, if_false, List.mem_map]
    constructor
    · rintro ⟨h, hh, rfl⟩
      by_cases hhk : h = k
      · exact .inl (if_pos hhk)
      · rw [if_neg hhk]
        exact .inr ⟨hh, hothers h hh hhk⟩
    · rintro (rfl | ⟨hg, hkeys⟩)
      · exact ⟨k, hk, if_pos rfl⟩
      · refine ⟨g, hg, if_neg ?_⟩
        rintro rfl
        exact hshared hkeys

/-- The later blocks replace the file by itself. -/
theorem mem_put (hone : m.OneInTheWay f) :
    g ∈ (m.put f true).2.files ↔ g = f ∨ g ∈ m.files ∧ KeysDiffer (s.files g) (s.files f) := by
  -- after the first block the file itself is the only one in the way
  have hstep : ∀ m' : FileMap s, (∀ g, g ∈ m'.files ↔ g = f ∨ g ∈ m.files ∧ KeysDiffer (s.files g) (s.files f)) →
      ∀ g, g ∈ s.putOnce f m'.files ↔ g = f ∨ g ∈ m.files ∧ KeysDiffer (s.files g) (s.files f) := by
    intro m' hm' g
    have hself : ∀ h ∈ m'.files, ¬ KeysDiffer (s.files h) (s.files f) → h = f := by
      intro h hh hk
      exact ((hm' h).mp hh).resolve_right fun hkept => hk hkept.2
    rw [mem_putOnce_of_one fun a ha b hb hka hkb => (hself a ha hka).trans (hself b hb hkb).symm, hm']
    have hfree : KeysDiffer (s.files g) (s.files f) → g ≠ f := by
      rintro hk rfl
      exact not_keysDiffer_self _ hk
    tauto
  have hround : ∀ m' : FileMap s, (m'.putRound f true).2.files = s.putOnce f m'.files := by
    intro m'
    simp [putRound, putBlock_replace]
  rw [put, hround]
  refine hstep _ (fun h => ?_) g
  rw [hround]
  refine hstep _ (fun k => ?_) h
  rw [hround]
  exact mem_putOnce_of_one hone

theorem put_blocked (hblocked : ¬ m.OneInTheWay f) : (m.put f true).2.files = m.files := by
  rw [put_files, putOnce_blocked hblocked, putOnce_blocked hblocked, putOnce_blocked hblocked]

/-- An element of the map is the only one in its own way. -/
theorem oneInTheWay_of_mem (hf : f ∈ m.files) : m.OneInTheWay f := fun _ hg _ hh hkg hkh =>
  (eq_of_keyed m.keyed hg hf hkg).trans (eq_of_keyed m.keyed hh hf hkh).symm

theorem put_right (hone : m.OneInTheWay f) : PutRight m f (m.put f true).1 (m.put f true).2 := by
  have hf : (m.put f true).2.Holds f := holds_iff.mpr ((mem_put hone).mpr (.inl rfl))
  constructor
  case uuid => exact hf.1
  case name => exact hf.2.1
  case sequence => exact hf.2.2
  case gone => exact fun g hg => gone_iff.mpr fun hmem => hg (holds_iff.mpr hmem)
  case kept => exact fun g hg hk => holds_iff.mpr ((mem_put hone).mpr (.inr ⟨holds_iff.mp hg, hk⟩))
  case only =>
    intro g hg
    obtain rfl | ⟨hg, -⟩ := (mem_put hone).mp (holds_iff.mp hg)
    · exact .inr rfl
    · exact .inl (holds_iff.mpr hg)
  case result_iff => simpa [put_result] using hf

/-- **The file map is coherent** after `put` with a replacement exactly if at most one file has to go, and always
after `remove`. -/
theorem coherent_iff {s : Store} (m : FileMap s) (f : FileId) :
    (PutRight m f (m.put f true).1 (m.put f true).2 ↔ m.OneInTheWay f) ∧ RemoveRight m f (m.remove f) := by
  refine ⟨⟨fun hput => ?_, put_right⟩, remove_right m f⟩
  by_contra hblocked
  have hmem : f ∈ (m.put f true).2.files := (byUuid_eq_some.mp hput.uuid).1
  rw [put_blocked hblocked] at hmem
  exact hblocked (oneInTheWay_of_mem hmem)

/-- Three files: the last one has the uuid of the first and the name of the second. -/
def threeFiles : Store :=
  { Store.initial (fun _ => default) with
    files := fun f => { (default : FileInfo) with
      uuid := .ofByte (if f = 1 then 1 else 0), name := if f = 0 then "a" else "b", sequence := f } }

/-- The file stays out, as two are in its way, and `put` says that it is in. -/
theorem two_in_the_way :
    ¬ ∀ (s : Store) (m : FileMap s) (f : FileId), PutRight m f (m.put f true).1 (m.put f true).2 ∧
      RemoveRight m f (m.remove f) := by
  intro h
  let m : FileMap threeFiles := ⟨[0, 1], by simp [KeysDiffer, threeFiles, Uuid.ofByte]⟩
  have hlookup : (m.put 2 true).2.byUuid (threeFiles.files 2).uuid = some 0 := by decide
  exact absurd (hlookup.symm.trans (h threeFiles m 2).1.uuid) (by decide)

end FileMap

end SyncSpirit
