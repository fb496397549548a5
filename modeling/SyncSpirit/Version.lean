import SyncSpirit.Proto
import Mathlib

/-!
# File versions (`model/version.cpp`)

`version_t` is a list of `(device, value)` counters. The most significant bit of
a counter's value, `BEST_MASK`, is borrowed to remember which counter is the
*best* one, i.e. which device wrote last; the remaining 63 bits are the value.

- `Version.ofProto`: the constructor from a received vector, which marks the
  first counter with the largest raw value;
- `Version.update`: a local edit by a device at a clock reading;
- `Version.getBest` / `Version.contains`: the fast comparison that looks only at
  the other version's best counter.

`Dominates` is the textbook comparison of version vectors: it is what `contains`
is meant to decide.
-/

namespace SyncSpirit

open Proto (Counter Vector)

/-! ## The borrowed bit -/

/-- `BEST_MASK` (version.cpp:11). -/
def bestMask : UInt64 := 0x8000000000000000

/-- `value | BEST_MASK`. -/
def mark (v : UInt64) : UInt64 := v ||| bestMask

/-- `value & ~BEST_MASK`. -/
def unmark (v : UInt64) : UInt64 := v &&& ~~~bestMask

/-- `value & BEST_MASK`, as a condition. -/
def isMarked (v : UInt64) : Bool := v &&& bestMask != 0

theorem unmark_toNat (v : UInt64) : (unmark v).toNat = v.toNat % 2 ^ 63 := by
  have h : (~~~bestMask).toNat = 2 ^ 63 - 1 := by decide
  rw [unmark, UInt64.toNat_and, h, Nat.and_two_pow_sub_one_eq_mod]

@[simp] theorem unmark_mark (v : UInt64) : unmark (mark v) = unmark v := by
  apply UInt64.toNat_inj.mp
  have h : bestMask.toNat % 2 ^ 63 = 0 := by decide
  rw [unmark_toNat, unmark_toNat, mark, UInt64.toNat_or, Nat.or_mod_two_pow, h,
    Nat.or_zero]

theorem isMarked_iff (v : UInt64) : isMarked v = true ↔ 2 ^ 63 ≤ v.toNat := by
  have h : bestMask.toNat = 2 ^ 63 := by decide
  have hand : (v &&& bestMask).toNat = (v.toNat.testBit 63).toNat * 2 ^ 63 := by
    rw [UInt64.toNat_and, h, Nat.and_two_pow]
  have hv : v.toNat < 2 ^ 64 := v.toNat_lt
  rw [isMarked, bne_iff_ne, ne_eq, ← UInt64.toNat_inj, hand, UInt64.toNat_zero,
    Nat.testBit_eq_decide_div_mod_eq]
  simp
  omega

@[simp] theorem isMarked_mark (v : UInt64) : isMarked (mark v) = true := by
  have h : bestMask.toNat = 2 ^ 63 := by decide
  rw [isMarked_iff, mark, UInt64.toNat_or, h]
  exact Nat.right_le_or

@[simp] theorem isMarked_unmark (v : UInt64) : isMarked (unmark v) = false := by
  rw [Bool.eq_false_iff]
  intro h
  rw [isMarked_iff, unmark_toNat] at h
  omega

/-- A value that leaves the borrowed bit alone is its own 63-bit part. -/
theorem unmark_of_not_isMarked {v : UInt64} (h : isMarked v = false) : unmark v = v := by
  have hlt : ¬ 2 ^ 63 ≤ v.toNat := by
    rw [← isMarked_iff, h]
    exact Bool.false_ne_true
  apply UInt64.toNat_inj.mp
  rw [unmark_toNat, Nat.mod_eq_of_lt (by omega)]

/-- A marked value is its 63-bit part, marked. -/
theorem mark_unmark {v : UInt64} (h : isMarked v = true) : mark (unmark v) = v := by
  have hmask : bestMask.toNat = 2 ^ 63 * 1 := by decide
  have hv : v.toNat < 2 ^ 64 := v.toNat_lt
  rw [isMarked_iff] at h
  apply UInt64.toNat_inj.mp
  rw [mark, UInt64.toNat_or, unmark_toNat, hmask, Nat.lor_comm,
    ← Nat.two_pow_add_eq_or_of_lt (Nat.mod_lt _ (by decide))]
  omega

theorem uint64_lt_or_gt {a b : UInt64} (h : a ≠ b) : a < b ∨ b < a := by
  have hne : a.toNat ≠ b.toNat := fun he => h (UInt64.toNat_inj.mp he)
  rw [UInt64.lt_iff_toNat_lt, UInt64.lt_iff_toNat_lt]
  omega

/-! ## `version_t` -/

/-- `version_t`: its counters, the best one carrying `BEST_MASK`. -/
structure Version where
  counters : List Counter
  deriving DecidableEq, Repr, Inhabited

namespace Version

/-- The scan of version.cpp:22–29: `best` is the largest raw value so far, `k`
its index, `i` the index of the head of the remaining counters. -/
def bestFrom (best : UInt64) (k : Nat) (i : Nat) : List Counter → Nat
  | [] => k
  | c :: cs => if best < c.value then bestFrom c.value i (i + 1) cs
               else bestFrom best k (i + 1) cs

/-- The index the constructor marks: the first counter with the largest value. -/
def bestIndex : List Counter → Nat
  | [] => 0
  | c :: cs => bestFrom c.value 0 0 (c :: cs)

/-- Put `BEST_MASK` on a counter. -/
def markCounter (c : Counter) : Counter := { c with value := mark c.value }

/-- `version_t::version_t(const proto::Vector &)`. The constructor asserts that
there is a counter; `FileInfo.fieldsUpdate` carries that assertion. -/
def ofProto (v : Vector) : Version :=
  ⟨v.counters.modify (bestIndex v.counters) markCounter⟩

/-- `version_t::to_proto` / `as_proto`: the counters without the borrowed bit. -/
def toProto (v : Version) : Vector :=
  ⟨v.counters.map fun c => ⟨c.id, unmark c.value⟩⟩

/-- The value `update` writes (version.cpp:55–63): the clock, or one more than a
marked counter if that is larger. -/
def nextValue (now : UInt64) (cs : List Counter) : UInt64 :=
  cs.foldl (fun v c => if isMarked c.value then max (unmark c.value + 1) v else v) now

/-- `version_t::update` by device `id` at clock reading `now`. The old best
counter keeps its mark: only `to_proto` followed by the constructor clears it. -/
def update (v : Version) (id now : UInt64) : Version :=
  let value := mark (nextValue now v.counters)
  match v.counters.findIdx? (fun c => c.id == id) with
  | some i =>
    if v.counters.any (fun c => isMarked c.value) then
      ⟨v.counters.modify i fun c => { c with value := value }⟩
    else ⟨v.counters ++ [⟨id, value⟩]⟩
  | none => ⟨v.counters ++ [⟨id, value⟩]⟩

/-- `version_t::version_t(const device_t &)`. -/
def ofDevice (id now : UInt64) : Version := update ⟨[]⟩ id now

/-- `version_t::get_best`: the last marked counter, `Counter()` if there is none. -/
def getBest (v : Version) : Counter :=
  v.counters.foldl (fun r c => if isMarked c.value then ⟨c.id, unmark c.value⟩ else r) ⟨0, 0⟩

/-- The value of the first counter of a device (the loop of version.cpp:96–106). -/
def lookup (cs : List Counter) (id : UInt64) : Option UInt64 :=
  (cs.find? fun c => c.id == id).map fun c => unmark c.value

/-- `version_t::contains`: is the other version's best counter covered? -/
def contains (v other : Version) : Bool :=
  match lookup v.counters other.getBest.id with
  | some value => other.getBest.value ≤ value
  | none => false

/-- `version_t::identical_to`. -/
def identicalTo (v other : Version) : Bool :=
  v.toProto = other.toProto

/-- Full domination of version vectors: every counter of `w` is present in `v`
with a value at least as large. -/
def Dominates (v w : Version) : Prop :=
  ∀ c ∈ w.counters, ∃ d ∈ v.counters, d.id = c.id ∧ unmark c.value ≤ unmark d.value

instance (v w : Version) : Decidable (Dominates v w) :=
  inferInstanceAs (Decidable (∀ c ∈ w.counters, ∃ d ∈ v.counters, _))

/-! ## What the constructor marks -/

/-- The scan invariant: `k` is the index of the first largest value before `i`. -/
theorem bestFrom_spec (l : List Counter) :
    ∀ (cs : List Counter) (best : UInt64) (k i : Nat), l.drop i = cs →
      (∃ c, l[k]? = some c ∧ c.value = best) →
      (∀ j < i, ∀ c, l[j]? = some c → c.value ≤ best) →
      (∀ j < k, ∀ c, l[j]? = some c → c.value < best) →
      ∃ c, l[bestFrom best k i cs]? = some c ∧ (∀ c' ∈ l, c'.value ≤ c.value) ∧
        ∀ j < bestFrom best k i cs, ∀ c', l[j]? = some c' → c'.value < c.value := by
  intro cs
  induction cs with
  | nil =>
    intro best k i hdrop hk hle hfirst
    obtain ⟨c, hc, rfl⟩ := hk
    refine ⟨c, hc, fun c' hc' => ?_, hfirst⟩
    obtain ⟨j, hj⟩ := List.mem_iff_getElem?.mp hc'
    have hlen : l.length ≤ i := List.drop_eq_nil_iff.mp hdrop
    have hjl : j < l.length := (List.getElem?_eq_some_iff.mp hj).1
    exact hle j (by omega) c' hj
  | cons d ds ih =>
    intro best k i hdrop hk hle hfirst
    have hi : l[i]? = some d := by
      have := @List.getElem?_drop _ l i 0
      rw [hdrop] at this
      simpa using this.symm
    have hdrop' : l.drop (i + 1) = ds := by
      rw [← List.tail_drop, hdrop, List.tail_cons]
    rw [bestFrom]
    split
    · rename_i hlt
      have hbelow : ∀ j < i, ∀ c, l[j]? = some c → c.value < d.value := fun j hj c hc =>
        UInt64.lt_of_le_of_lt (hle j hj c hc) hlt
      refine ih d.value i (i + 1) hdrop' ⟨d, hi, rfl⟩ (fun j hj c hc => ?_) hbelow
      rcases Nat.lt_succ_iff_lt_or_eq.mp hj with hj | rfl
      · exact UInt64.le_of_lt (hbelow j hj c hc)
      · rw [hi] at hc
        cases hc
        exact UInt64.le_refl _
    · rename_i hge
      refine ih best k (i + 1) hdrop' hk (fun j hj c hc => ?_) hfirst
      rcases Nat.lt_succ_iff_lt_or_eq.mp hj with hj | rfl
      · exact hle j hj c hc
      · rw [hi] at hc
        cases hc
        exact UInt64.not_lt.mp hge

/-- The marked index is in range and has the largest value, for the first time. -/
theorem bestIndex_first {l : List Counter} (hl : l ≠ []) :
    ∃ c, l[bestIndex l]? = some c ∧ (∀ c' ∈ l, c'.value ≤ c.value) ∧
      ∀ j < bestIndex l, ∀ c', l[j]? = some c' → c'.value < c.value := by
  cases l with
  | nil => exact absurd rfl hl
  | cons c cs =>
    exact bestFrom_spec (c :: cs) (c :: cs) c.value 0 0 rfl ⟨c, rfl, rfl⟩
      (fun j hj => absurd hj (Nat.not_lt_zero j)) fun j hj => absurd hj (Nat.not_lt_zero j)

/-- The marked index is in range and has the largest value. -/
theorem bestIndex_spec {l : List Counter} (hl : l ≠ []) :
    ∃ c, l[bestIndex l]? = some c ∧ ∀ c' ∈ l, c'.value ≤ c.value := by
  obtain ⟨c, hc, hmax, -⟩ := bestIndex_first hl
  exact ⟨c, hc, hmax⟩

/-- No counter uses the borrowed bit. -/
def Unmarked (l : List Counter) : Prop := ∀ c ∈ l, isMarked c.value = false

theorem foldl_unmarked {β : Type} (f : β → Counter → β) :
    ∀ (l : List Counter) (b : β), Unmarked l →
      l.foldl (fun r c => if isMarked c.value then f r c else r) b = b
  | [], _, _ => rfl
  | c :: cs, b, h => by
    rw [List.foldl_cons, h c (List.mem_cons_self ..), if_neg Bool.false_ne_true]
    exact foldl_unmarked f cs b fun c' hc' => h c' (List.mem_cons_of_mem _ hc')

/-- A fold over marked counters, after one of them has been marked. -/
theorem foldl_modify_mark {β : Type} (f : β → Counter → β) {l : List Counter} {k : Nat}
    {c : Counter} (hu : Unmarked l) (hk : l[k]? = some c) (b : β) :
    (l.modify k markCounter).foldl (fun r c => if isMarked c.value then f r c else r) b =
      f b (markCounter c) := by
  obtain ⟨hlen, hget⟩ := List.getElem?_eq_some_iff.mp hk
  have htake : Unmarked (l.take k) := fun d hd => hu d (List.mem_of_mem_take hd)
  have hdrop : Unmarked (l.drop (k + 1)) := fun d hd => hu d (List.mem_of_mem_drop hd)
  rw [List.modify_eq_take_cons_drop hlen, List.foldl_append, List.foldl_cons,
    foldl_unmarked f _ b htake, hget, foldl_unmarked f _ _ hdrop]
  simp [markCounter]

/-- The received vector is recovered, unless it used the borrowed bit. -/
theorem toProto_ofProto {v : Vector} (hu : Unmarked v.counters) : (ofProto v).toProto = v := by
  have hmap : (v.counters.modify (bestIndex v.counters) markCounter).map
      (fun c => (⟨c.id, unmark c.value⟩ : Counter)) = v.counters := by
    refine List.ext_getElem? fun i => ?_
    rw [List.getElem?_map, List.getElem?_modify]
    cases hi : v.counters[i]? with
    | none => simp
    | some c =>
      have hc : unmark c.value = c.value :=
        unmark_of_not_isMarked (hu c (List.mem_of_getElem? hi))
      by_cases h : bestIndex v.counters = i
      · simp [h, markCounter, hc]
      · simp [h, hc]
  cases v
  exact congrArg Proto.Vector.mk hmap

theorem unmarked_toProto (v : Version) : Unmarked v.toProto.counters := by
  intro c hc
  obtain ⟨d, -, rfl⟩ := List.mem_map.mp hc
  exact isMarked_unmark d.value

/-- The first largest counter is marked, and no other one. -/
def OneBest (v : Version) : Prop :=
  ∀ i < v.counters.length, ∀ c, v.counters[i]? = some c →
    (isMarked c.value = true ↔ i = bestIndex v.toProto.counters)

instance (v : Version) : Decidable v.OneBest :=
  inferInstanceAs (Decidable (∀ i < v.counters.length, ∀ c, v.counters[i]? = some c → _))

/-- The constructor recovers a version from its vector if it would mark the same counter. -/
theorem ofProto_toProto_iff (v : Version) : ofProto v.toProto = v ↔ v.OneBest := by
  have hget : ∀ i : Nat, (ofProto v.toProto).counters[i]? = v.counters[i]?.map fun c =>
      if i = bestIndex v.toProto.counters then ⟨c.id, mark (unmark c.value)⟩
      else ⟨c.id, unmark c.value⟩ := by
    intro i
    show (v.toProto.counters.modify _ markCounter)[i]? = _
    rw [List.getElem?_modify]
    show (v.counters.map _)[i]?.map _ = _
    rw [List.getElem?_map, Option.map_map]
    congr 1
    funext c
    by_cases h : i = bestIndex v.toProto.counters
    · simp [h, markCounter]
    · simp [h, Ne.symm h]
  have hval : ∀ (i : Nat) (c : Counter),
      ((if i = bestIndex v.toProto.counters then ⟨c.id, mark (unmark c.value)⟩
        else ⟨c.id, unmark c.value⟩ : Counter) = c ↔
          (isMarked c.value = true ↔ i = bestIndex v.toProto.counters)) := by
    intro i c
    obtain ⟨id, value⟩ := c
    by_cases h : i = bestIndex v.toProto.counters
    · have hiff : mark (unmark value) = value ↔ isMarked value = true :=
        ⟨fun he => he ▸ isMarked_mark _, mark_unmark⟩
      simp only [h, if_true, iff_true, Counter.mk.injEq, true_and]
      exact hiff
    · have hiff : unmark value = value ↔ isMarked value = false :=
        ⟨fun he => he ▸ isMarked_unmark _, unmark_of_not_isMarked⟩
      simp only [h, if_false, iff_false, Counter.mk.injEq, true_and, Bool.not_eq_true]
      exact hiff
  constructor
  · intro heq i _ c hc
    have hi := hget i
    rw [heq, hc, Option.map_some, Option.some.injEq] at hi
    exact (hval i c).mp hi.symm
  · intro h
    have hlist : (ofProto v.toProto).counters = v.counters := by
      refine List.ext_getElem? fun i => ?_
      rw [hget]
      cases hc : v.counters[i]? with
      | none => rfl
      | some c =>
        rw [Option.map_some, (hval i c).mpr (h i (List.getElem?_eq_some_iff.mp hc).1 c hc)]
    cases v
    exact congrArg Version.mk hlist

/-- The best counter of a received version is its first largest one. -/
theorem getBest_ofProto {v : Vector} {c : Counter} (hu : Unmarked v.counters)
    (hc : v.counters[bestIndex v.counters]? = some c) : (ofProto v).getBest = c := by
  have hval : unmark c.value = c.value :=
    unmark_of_not_isMarked (hu c (List.mem_of_getElem? hc))
  show (v.counters.modify _ markCounter).foldl _ _ = c
  rw [foldl_modify_mark (fun _ c => (⟨c.id, unmark c.value⟩ : Counter)) hu hc]
  simp [markCounter, hval]

/-- An edit of a received version exceeds its best value. -/
theorem nextValue_ofProto {v : Vector} {c : Counter} (hu : Unmarked v.counters)
    (hc : v.counters[bestIndex v.counters]? = some c) (now : UInt64) :
    nextValue now (ofProto v).counters = max (c.value + 1) now := by
  have hval : unmark c.value = c.value :=
    unmark_of_not_isMarked (hu c (List.mem_of_getElem? hc))
  show (v.counters.modify _ markCounter).foldl _ _ = _
  rw [foldl_modify_mark (fun (v : UInt64) c => max (unmark c.value + 1) v) hu hc]
  simp [markCounter, hval]

end Version

end SyncSpirit
