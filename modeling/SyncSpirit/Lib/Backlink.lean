import Mathlib

/-!
# Slots and back references

Owners have numbered slots, a slot may point to a target; every target keeps the
list of its back references, one for each slot that points to it. Slot and back
reference both carry a flag.

- `Linked`: slots and back references match;
- `Faithful`: a back reference carries the flag of its slot, for all owners
  outside of a given set.

A new back reference takes its flag from the other back references of its target
(`link`), and `mark` flags the *first* back reference of the owner, not the one of
the slot it flags. So `Linked` is kept by every operation (`Linked.assign`,
`Linked.erase`, `Linked.mark`), `Faithful` only under conditions
(`Faithful.assign`, `Faithful.mark`, `Faithful.assign_mark`).
-/

set_option linter.unusedSectionVars false

namespace Backlink

variable {ι κ : Type*}

/-- A back reference: the slot it belongs to and its flag. -/
structure Entry (ι : Type*) where
  owner : ι
  index : ℕ
  flag : Bool
  deriving DecidableEq, Repr

/-- The slots of the owners and the back references of the targets. -/
structure Graph (ι κ : Type*) where
  slots : ι → List (Option (κ × Bool))
  entries : κ → List (Entry ι)

namespace Graph

/-- What a slot points to, `none` if it is empty or there is no such slot. -/
def slot (g : Graph ι κ) (f : ι) (i : ℕ) : Option (κ × Bool) := ((g.slots f)[i]?).join

/-- Some back reference of the target is flagged. -/
def anyFlag (g : Graph ι κ) (b : κ) : Bool := (g.entries b).any Entry.flag

variable [DecidableEq ι] [DecidableEq κ]

/-- Overwrite a slot. -/
def setSlot (g : Graph ι κ) (f : ι) (i : ℕ) (v : Option (κ × Bool)) : Graph ι κ :=
  { g with slots := Function.update g.slots f ((g.slots f).set i v) }

/-- Add a back reference. It is flagged if another one of the target is. -/
def link (g : Graph ι κ) (b : κ) (f : ι) (i : ℕ) : Graph ι κ :=
  { g with entries := Function.update g.entries b (g.entries b ++ [⟨f, i, g.anyFlag b⟩]) }

/-- Let a slot point to a target. -/
def assign (g : Graph ι κ) (f : ι) (b : κ) (i : ℕ) : Graph ι κ :=
  (g.setSlot f i (some (b, false))).link b f i

/-- The slots of an owner that a target refers back to. -/
def indices (g : Graph ι κ) (b : κ) (f : ι) : List ℕ :=
  ((g.entries b).filter fun e => e.owner = f).map Entry.index

/-- Empty all slots of an owner that point to a target. -/
def clear (g : Graph ι κ) (f : ι) (b : κ) : Graph ι κ :=
  { slots := Function.update g.slots f
      ((g.indices b f).foldl (fun l i => l.set i none) (g.slots f))
    entries := Function.update g.entries b ((g.entries b).filter fun e => e.owner ≠ f) }

/-- Empty what the `i`-th slot and all slots with the same target point to. -/
def clearAt (g : Graph ι κ) (f : ι) (i : ℕ) : Graph ι κ :=
  match g.slot f i with
  | some (b, _) => g.clear f b
  | none => g

/-- Empty all slots of an owner, one after another. -/
def clearAll (g : Graph ι κ) (f : ι) : Graph ι κ :=
  (List.range (g.slots f).length).foldl (fun g i => g.clearAt f i) g

/-- Flag the first back reference of an owner. -/
def markFirst (f : ι) : List (Entry ι) → List (Entry ι)
  | [] => []
  | e :: es => if e.owner = f then { e with flag := true } :: es else e :: markFirst f es

/-- Flag a slot. -/
def mark (g : Graph ι κ) (f : ι) (i : ℕ) : Graph ι κ :=
  match g.slot f i with
  | some (b, _) =>
    { slots := Function.update g.slots f ((g.slots f).set i (some (b, true)))
      entries := Function.update g.entries b (markFirst f (g.entries b)) }
  | none => g

/-- Give an owner new empty slots. -/
def reset (g : Graph ι κ) (f : ι) (n : ℕ) : Graph ι κ :=
  { g with slots := Function.update g.slots f (List.replicate n none) }

/-! ## Slots -/

theorem slot_setSlot_self {g : Graph ι κ} {f : ι} {i : ℕ} (h : i < (g.slots f).length)
    (v : Option (κ × Bool)) : (g.setSlot f i v).slot f i = v := by
  simp [slot, setSlot, List.getElem?_set_self h]

theorem slot_setSlot_of_ne {g : Graph ι κ} {f f' : ι} {i j : ℕ} {v : Option (κ × Bool)}
    (h : ¬ (f' = f ∧ j = i)) : (g.setSlot f i v).slot f' j = g.slot f' j := by
  unfold slot setSlot
  dsimp only
  by_cases hf : f' = f
  · subst hf
    have hji : i ≠ j := fun h' => h ⟨rfl, h'.symm⟩
    rw [Function.update_self, List.getElem?_set_ne hji]
  · rw [Function.update_of_ne hf]

theorem slot_assign_self {g : Graph ι κ} {f : ι} {i : ℕ} (h : i < (g.slots f).length) (b : κ) :
    (g.assign f b i).slot f i = some (b, false) := slot_setSlot_self h _

theorem slot_assign_of_ne {g : Graph ι κ} {f f' : ι} {b : κ} {i j : ℕ} (h : ¬ (f' = f ∧ j = i)) :
    (g.assign f b i).slot f' j = g.slot f' j := slot_setSlot_of_ne h

theorem entries_assign (g : Graph ι κ) (f : ι) (b : κ) (i : ℕ) :
    (g.assign f b i).entries = Function.update g.entries b
      (g.entries b ++ [⟨f, i, g.anyFlag b⟩]) := rfl

theorem mem_entries_assign {g : Graph ι κ} {f : ι} {b b' : κ} {i : ℕ} {e : Entry ι} :
    e ∈ (g.assign f b i).entries b' ↔
      e ∈ g.entries b' ∨ (b' = b ∧ e = ⟨f, i, g.anyFlag b⟩) := by
  rw [entries_assign]
  by_cases hb : b' = b
  · subst hb
    simp
  · simp [hb]

/-! ## Matching slots and back references -/

/-- Slots and back references match. -/
structure Linked (g : Graph ι κ) : Prop where
  slot_of_entry : ∀ b, ∀ e ∈ g.entries b, ∃ l, g.slot e.owner e.index = some (b, l)
  entry_of_slot : ∀ f i b l, g.slot f i = some (b, l) →
    ∃ e ∈ g.entries b, e.owner = f ∧ e.index = i
  nodup : ∀ b, ((g.entries b).map fun e => (e.owner, e.index)).Nodup

/-- Every back reference carries the flag of its slot, outside of `X`. -/
def Faithful (g : Graph ι κ) (X : Set ι) : Prop :=
  ∀ b, ∀ e ∈ g.entries b, e.owner ∉ X → g.slot e.owner e.index = some (b, e.flag)

theorem Faithful.mono {g : Graph ι κ} {X Y : Set ι} (h : g.Faithful X) (hXY : X ⊆ Y) :
    g.Faithful Y := fun b e he hY => h b e he fun hX => hY (hXY hX)

/-- **Assign** to an empty slot. -/
theorem Linked.assign {g : Graph ι κ} (h : g.Linked) {f : ι} {i : ℕ}
    (hfree : (g.slots f)[i]? = some none) (b : κ) : (g.assign f b i).Linked := by
  have hlen : i < (g.slots f).length := (List.getElem?_eq_some_iff.mp hfree).1
  have hnone : g.slot f i = none := by rw [slot, hfree]; rfl
  -- no back reference belongs to the empty slot
  have hnew : ∀ c, ∀ e ∈ g.entries c, ¬ (e.owner = f ∧ e.index = i) := by
    rintro c e he ⟨rfl, rfl⟩
    obtain ⟨l, hl⟩ := h.slot_of_entry c e he
    rw [hnone] at hl
    cases hl
  refine ⟨fun c e he => ?_, fun f' j c l hs => ?_, fun c => ?_⟩
  · rcases mem_entries_assign.mp he with he | ⟨rfl, rfl⟩
    · rw [slot_assign_of_ne (hnew c e he)]
      exact h.slot_of_entry c e he
    · exact ⟨false, slot_assign_self hlen c⟩
  · by_cases hij : f' = f ∧ j = i
    · obtain ⟨rfl, rfl⟩ := hij
      rw [slot_assign_self hlen] at hs
      cases hs
      exact ⟨_, mem_entries_assign.mpr (.inr ⟨rfl, rfl⟩), rfl, rfl⟩
    · rw [slot_assign_of_ne hij] at hs
      obtain ⟨e, he, hoi⟩ := h.entry_of_slot f' j c l hs
      exact ⟨e, mem_entries_assign.mpr (.inl he), hoi⟩
  · rw [entries_assign]
    by_cases hc : c = b
    · subst hc
      rw [Function.update_self, List.map_append, List.nodup_append]
      refine ⟨h.nodup c, List.nodup_cons.mpr ⟨List.not_mem_nil, List.nodup_nil⟩, ?_⟩
      rintro _ hp _ hq rfl
      obtain ⟨e, he, heq⟩ := List.mem_map.mp hp
      rw [List.map_cons, List.map_nil, List.mem_singleton, ← heq, Prod.mk.injEq] at hq
      exact hnew c e he hq
    · rw [Function.update_of_ne hc]
      exact h.nodup c

/-- An assigned slot is faithful if its target is not flagged. -/
theorem Faithful.assign {g : Graph ι κ} {X : Set ι} (h : g.Faithful X) (hl : g.Linked) {f : ι}
    {i : ℕ} (hfree : (g.slots f)[i]? = some none) {b : κ}
    (hflag : f ∈ X ∨ g.anyFlag b = false) : (g.assign f b i).Faithful X := by
  have hlen : i < (g.slots f).length := (List.getElem?_eq_some_iff.mp hfree).1
  have hnone : g.slot f i = none := by rw [slot, hfree]; rfl
  intro c e he hX
  rcases mem_entries_assign.mp he with hold | ⟨rfl, rfl⟩
  · have hne : ¬ (e.owner = f ∧ e.index = i) := by
      rintro ⟨rfl, rfl⟩
      obtain ⟨l, hs⟩ := hl.slot_of_entry c e hold
      rw [hnone] at hs
      cases hs
    rw [slot_assign_of_ne hne]
    exact h c e hold hX
  · rw [slot_assign_self hlen, hflag.resolve_left hX]

/-- A new back reference repeats what is known of its target. -/
theorem anyFlag_assign (g : Graph ι κ) (f : ι) (b : κ) (i : ℕ) (c : κ) :
    (g.assign f b i).anyFlag c = g.anyFlag c := by
  unfold anyFlag
  rw [entries_assign]
  by_cases hc : c = b
  · subst hc
    simp [anyFlag]
  · rw [Function.update_of_ne hc]

/-! ## Emptying the slots of an owner -/

/-- All slots of the owner are empty, and nothing refers back to it. -/
def erase (g : Graph ι κ) (f : ι) : Graph ι κ :=
  { slots := Function.update g.slots f (List.replicate (g.slots f).length none)
    entries := fun b => (g.entries b).filter fun e => e.owner ≠ f }

theorem length_foldl_set (is : List ℕ) (l : List (Option (κ × Bool))) :
    (is.foldl (fun l i => l.set i none) l).length = l.length := by
  induction is generalizing l with
  | nil => rfl
  | cons i is ih => rw [List.foldl_cons, ih, List.length_set]

theorem getElem?_foldl_set (is : List ℕ) (l : List (Option (κ × Bool))) (j : ℕ) :
    (is.foldl (fun l i => l.set i none) l)[j]?.join = if j ∈ is then none else l[j]?.join := by
  induction is generalizing l with
  | nil => rfl
  | cons i is ih =>
    rw [List.foldl_cons, ih]
    by_cases hj : j ∈ is
    · simp [hj]
    · by_cases hij : j = i
      · subst hij
        by_cases hlen : j < l.length
        · simp [hj, List.getElem?_set_self hlen]
        · simp [hj, List.getElem?_eq_none (l := l.set j none) (by simpa using hlen)]
      · simp [hj, hij, List.getElem?_set_ne (Ne.symm hij)]

theorem Linked.mem_indices {g : Graph ι κ} (h : g.Linked) {f : ι} {b : κ} {i : ℕ} :
    i ∈ g.indices b f ↔ ∃ l, g.slot f i = some (b, l) := by
  unfold indices
  constructor
  · intro hi
    obtain ⟨e, he, rfl⟩ := List.mem_map.mp hi
    obtain ⟨he, ho⟩ := List.mem_filter.mp he
    have ho' : e.owner = f := by simpa using ho
    exact ho' ▸ h.slot_of_entry b e he
  · rintro ⟨l, hs⟩
    obtain ⟨e, he, ho, rfl⟩ := h.entry_of_slot f i b l hs
    exact List.mem_map.mpr ⟨e, List.mem_filter.mpr ⟨he, by simpa using ho⟩, rfl⟩

/-- Clearing a target empties exactly the slots that point to it. -/
theorem Linked.slot_clear {g : Graph ι κ} (h : g.Linked) (f : ι) (b : κ) (f' : ι) (j : ℕ) :
    (g.clear f b).slot f' j =
      if f' = f ∧ ∃ l, g.slot f j = some (b, l) then none else g.slot f' j := by
  by_cases hf : f' = f
  · subst hf
    have hs : (g.clear f' b).slot f' j =
        ((g.indices b f').foldl (fun l i => l.set i none) (g.slots f'))[j]?.join := by
      simp [slot, clear]
    rw [hs, getElem?_foldl_set]
    simp only [h.mem_indices, true_and]
    rfl
  · simp [slot, clear, hf]

theorem mem_entries_clear {g : Graph ι κ} {f : ι} {b b' : κ} {e : Entry ι} :
    e ∈ (g.clear f b).entries b' ↔ e ∈ g.entries b' ∧ (b' = b → e.owner ≠ f) := by
  by_cases hb : b' = b
  · subst hb
    simp [clear]
  · simp [clear, hb]

theorem Linked.clear {g : Graph ι κ} (h : g.Linked) (f : ι) (b : κ) : (g.clear f b).Linked := by
  refine ⟨fun c e he => ?_, fun f' j c l hs => ?_, fun c => ?_⟩
  · obtain ⟨he, hne⟩ := mem_entries_clear.mp he
    obtain ⟨l, hl⟩ := h.slot_of_entry c e he
    refine ⟨l, ?_⟩
    rw [h.slot_clear, if_neg ?_, hl]
    rintro ⟨rfl, l', hl'⟩
    rw [hl] at hl'
    cases hl'
    exact hne rfl rfl
  · rw [h.slot_clear] at hs
    split at hs
    · cases hs
    · rename_i hkeep
      obtain ⟨e, he, rfl, rfl⟩ := h.entry_of_slot f' j c l hs
      refine ⟨e, mem_entries_clear.mpr ⟨he, ?_⟩, rfl, rfl⟩
      rintro rfl rfl
      exact hkeep ⟨rfl, l, hs⟩
  · by_cases hc : c = b
    · subst hc
      have hsub : ((g.clear f c).entries c).Sublist (g.entries c) := by
        simp [Graph.clear]
      exact (hsub.map _).nodup (h.nodup c)
    · have heq : (g.clear f b).entries c = g.entries c := by simp [Graph.clear, hc]
      rw [heq]
      exact h.nodup c

theorem length_slots_clear (g : Graph ι κ) (f : ι) (b : κ) (f' : ι) :
    ((g.clear f b).slots f').length = (g.slots f').length := by
  by_cases hf : f' = f
  · subst hf
    simp [clear, length_foldl_set]
  · simp [clear, hf]

theorem erase_clear (g : Graph ι κ) (f : ι) (b : κ) : (g.clear f b).erase f = g.erase f := by
  unfold erase
  congr 1
  · rw [length_slots_clear]
    funext f'
    by_cases hf : f' = f
    · subst hf
      simp
    · simp [clear, hf]
  · funext c
    by_cases hc : c = b
    · subst hc
      simp [clear, List.filter_filter]
    · simp [clear, hc]

theorem clearAt_spec {g : Graph ι κ} (h : g.Linked) (f : ι) (i : ℕ) :
    (g.clearAt f i).Linked ∧ (g.clearAt f i).erase f = g.erase f ∧
      (g.clearAt f i).slot f i = none ∧
      ((g.clearAt f i).slots f).length = (g.slots f).length ∧
      ∀ j, g.slot f j = none → (g.clearAt f i).slot f j = none := by
  unfold clearAt
  cases hs : g.slot f i with
  | none => exact ⟨h, rfl, hs, rfl, fun j hj => hj⟩
  | some p =>
    obtain ⟨b, l⟩ := p
    refine ⟨h.clear f b, erase_clear g f b, ?_, length_slots_clear g f b f, fun j hj => ?_⟩
    · rw [h.slot_clear, if_pos ⟨rfl, l, hs⟩]
    · rw [h.slot_clear, hj]
      split <;> rfl

/-- An owner whose slots are all empty is erased already. -/
theorem Linked.erase_eq_self {g : Graph ι κ} (h : g.Linked) {f : ι} (hs : ∀ j, g.slot f j = none) :
    g.erase f = g := by
  have hslots : List.replicate (g.slots f).length none = g.slots f := by
    refine (List.eq_replicate_of_mem fun v hv => ?_).symm
    obtain ⟨j, hj⟩ := List.mem_iff_getElem?.mp hv
    have := hs j
    rw [slot, hj] at this
    simpa using this
  have hentries : (fun b => (g.entries b).filter fun e => e.owner ≠ f) = g.entries := by
    funext b
    refine List.filter_eq_self.mpr fun e he => ?_
    obtain ⟨l, hl⟩ := h.slot_of_entry b e he
    simp only [ne_eq, decide_not, Bool.not_eq_true', decide_eq_false_iff_not]
    rintro rfl
    rw [hs] at hl
    cases hl
  rw [erase, hslots, hentries, Function.update_eq_self]

/-- **Clear all**: one slot after another comes to erasing the owner. -/
theorem Linked.clearAll_eq {g : Graph ι κ} (h : g.Linked) (f : ι) : g.clearAll f = g.erase f := by
  have hloop : ∀ n, n ≤ (g.slots f).length →
      ((List.range n).foldl (fun g i => g.clearAt f i) g).Linked ∧
      ((List.range n).foldl (fun g i => g.clearAt f i) g).erase f = g.erase f ∧
      (((List.range n).foldl (fun g i => g.clearAt f i) g).slots f).length = (g.slots f).length ∧
      ∀ j < n, ((List.range n).foldl (fun g i => g.clearAt f i) g).slot f j = none := by
    intro n
    induction n with
    | zero => exact fun _ => ⟨h, rfl, rfl, fun j hj => absurd hj (Nat.not_lt_zero j)⟩
    | succ n ih =>
      intro hn
      obtain ⟨hl, he, hlen, hs⟩ := ih (by omega)
      rw [List.range_succ, List.foldl_append, List.foldl_cons, List.foldl_nil]
      obtain ⟨hl', he', hs', hlen', hkeep⟩ := clearAt_spec hl f n
      refine ⟨hl', he'.trans he, hlen'.trans hlen, fun j hj => ?_⟩
      rcases Nat.lt_succ_iff_lt_or_eq.mp hj with hj | rfl
      · exact hkeep j (hs j hj)
      · exact hs'
  obtain ⟨hl, he, hlen, hs⟩ := hloop _ (Nat.le_refl _)
  rw [clearAll, ← he]
  refine (hl.erase_eq_self fun j => ?_).symm
  by_cases hj : j < (g.slots f).length
  · exact hs j hj
  · rw [slot, List.getElem?_eq_none (by rw [hlen]; omega)]
    rfl

theorem slot_erase (g : Graph ι κ) (f f' : ι) (j : ℕ) :
    (g.erase f).slot f' j = if f' = f then none else g.slot f' j := by
  unfold slot erase
  dsimp only
  by_cases hf : f' = f
  · subst hf
    rw [Function.update_self, if_pos rfl, List.getElem?_replicate]
    split <;> rfl
  · rw [Function.update_of_ne hf, if_neg hf]

theorem mem_entries_erase {g : Graph ι κ} {f : ι} {b : κ} {e : Entry ι} :
    e ∈ (g.erase f).entries b ↔ e ∈ g.entries b ∧ e.owner ≠ f := by
  simp [erase]

theorem anyFlag_erase {g : Graph ι κ} {f : ι} {b : κ} (h : g.anyFlag b = false) :
    (g.erase f).anyFlag b = false := by
  rw [anyFlag, List.any_eq_false] at h ⊢
  exact fun e he => h e (mem_entries_erase.mp he).1

theorem Linked.erase {g : Graph ι κ} (h : g.Linked) (f : ι) : (g.erase f).Linked := by
  refine ⟨fun c e he => ?_, fun f' j c l hs => ?_, fun c => ?_⟩
  · obtain ⟨he, hne⟩ := mem_entries_erase.mp he
    rw [slot_erase, if_neg hne]
    exact h.slot_of_entry c e he
  · rw [slot_erase] at hs
    split at hs
    · cases hs
    · rename_i hf
      obtain ⟨e, he, rfl, rfl⟩ := h.entry_of_slot f' j c l hs
      exact ⟨e, mem_entries_erase.mpr ⟨he, hf⟩, rfl, rfl⟩
  · exact (List.filter_sublist.map _).nodup (h.nodup c)

/-- An erased owner is faithful again. -/
theorem Faithful.erase {g : Graph ι κ} {X : Set ι} (h : g.Faithful X) (f : ι) :
    (g.erase f).Faithful (X \ {f}) := by
  intro b e he hX
  obtain ⟨he, hne⟩ := mem_entries_erase.mp he
  rw [slot_erase, if_neg hne]
  exact h b e he fun hmem => hX ⟨hmem, hne⟩

/-! ## New slots -/

theorem slot_reset {g : Graph ι κ} {f : ι} (hs : ∀ j, g.slot f j = none) (n : ℕ) (f' : ι) (j : ℕ) :
    (g.reset f n).slot f' j = g.slot f' j := by
  by_cases hf : f' = f
  · subst hf
    rw [hs]
    unfold slot reset
    dsimp only
    rw [Function.update_self, List.getElem?_replicate]
    split <;> rfl
  · simp [slot, reset, hf]

/-- **Reset** an owner that has no targets. -/
theorem Linked.reset {g : Graph ι κ} (h : g.Linked) {f : ι} (hs : ∀ j, g.slot f j = none) (n : ℕ) :
    (g.reset f n).Linked where
  slot_of_entry b e he := by
    rw [slot_reset hs]
    exact h.slot_of_entry b e he
  entry_of_slot f' i b l hl := by
    rw [slot_reset hs] at hl
    exact h.entry_of_slot f' i b l hl
  nodup := h.nodup

theorem Faithful.reset {g : Graph ι κ} {X : Set ι} (h : g.Faithful X) {f : ι}
    (hs : ∀ j, g.slot f j = none) (n : ℕ) : (g.reset f n).Faithful X := by
  intro b e he hX
  rw [slot_reset hs]
  exact h b e he hX

/-! ## Flagging a slot -/

theorem map_markFirst (f : ι) (es : List (Entry ι)) :
    (markFirst f es).map (fun e => (e.owner, e.index)) = es.map fun e => (e.owner, e.index) := by
  induction es with
  | nil => rfl
  | cons e es ih =>
    rw [markFirst]
    split
    · rfl
    · rw [List.map_cons, ih, List.map_cons]

theorem markFirst_of_all {f : ι} {es : List (Entry ι)} (h : ∀ e ∈ es, e.owner = f → e.flag = true) :
    markFirst f es = es := by
  induction es with
  | nil => rfl
  | cons e es ih =>
    rw [markFirst]
    split
    · rename_i he
      rw [← h e (List.mem_cons_self ..) he]
    · rw [ih fun e' he' => h e' (List.mem_cons_of_mem _ he')]

theorem markFirst_append_of_none {f : ι} {es : List (Entry ι)} (h : ∀ e ∈ es, e.owner ≠ f)
    (i : ℕ) (l : Bool) : markFirst f (es ++ [⟨f, i, l⟩]) = es ++ [⟨f, i, true⟩] := by
  induction es with
  | nil => simp [markFirst]
  | cons e es ih =>
    rw [List.cons_append, markFirst, if_neg (h e (List.mem_cons_self ..)),
      ih fun e' he' => h e' (List.mem_cons_of_mem _ he')]
    rfl

theorem markFirst_append_of_mem {f : ι} {es es' : List (Entry ι)} (h : ∃ e ∈ es, e.owner = f) :
    markFirst f (es ++ es') = markFirst f es ++ es' := by
  induction es with
  | nil =>
    obtain ⟨e, he, -⟩ := h
    cases he
  | cons e es ih =>
    rw [List.cons_append, markFirst, markFirst]
    split
    · rfl
    · rename_i hne
      obtain ⟨e', he', ho⟩ := h
      have hes : ∃ e ∈ es, e.owner = f := by
        rcases List.mem_cons.mp he' with rfl | he'
        · exact absurd ho hne
        · exact ⟨e', he', ho⟩
      rw [ih hes]
      rfl

/-- Which back references there are after the first one of `f` has been flagged. -/
theorem mem_markFirst {f : ι} {es : List (Entry ι)}
    (hnd : (es.map fun e => (e.owner, e.index)).Nodup) {e₀ : Entry ι}
    (hfirst : es.find? (fun e => e.owner = f) = some e₀) {e : Entry ι} :
    e ∈ markFirst f es ↔ e = { e₀ with flag := true } ∨
      (e ∈ es ∧ (e.owner, e.index) ≠ (e₀.owner, e₀.index)) := by
  induction es with
  | nil => cases hfirst
  | cons a es ih =>
    obtain ⟨hnot, hnd'⟩ := List.nodup_cons.mp hnd
    rw [markFirst]
    by_cases ha : a.owner = f
    · rw [List.find?_cons_of_pos (by simpa using ha)] at hfirst
      cases hfirst
      rw [if_pos ha, List.mem_cons, List.mem_cons]
      constructor
      · rintro (rfl | he)
        · exact .inl rfl
        · exact .inr ⟨.inr he, fun heq => hnot (List.mem_map.mpr ⟨e, he, heq⟩)⟩
      · rintro (rfl | ⟨rfl | he, hne⟩)
        · exact .inl rfl
        · exact absurd rfl hne
        · exact .inr he
    · rw [List.find?_cons_of_neg (by simpa using ha)] at hfirst
      rw [if_neg ha, List.mem_cons, List.mem_cons, ih hnd' hfirst]
      have ha₀ : (a.owner, a.index) ≠ (e₀.owner, e₀.index) := by
        intro heq
        have ho : e₀.owner = f := by simpa using List.find?_some hfirst
        exact ha ((Prod.mk.inj heq).1.trans ho)
      constructor
      · rintro (rfl | rfl | ⟨he, hne⟩)
        · exact .inr ⟨.inl rfl, ha₀⟩
        · exact .inl rfl
        · exact .inr ⟨.inr he, hne⟩
      · rintro (rfl | ⟨rfl | he, hne⟩)
        · exact .inr (.inl rfl)
        · exact .inl rfl
        · exact .inr (.inr ⟨he, hne⟩)

theorem mark_eq {g : Graph ι κ} {f : ι} {i : ℕ} {b : κ} {l : Bool} (hs : g.slot f i = some (b, l)) :
    g.mark f i = { g.setSlot f i (some (b, true)) with
      entries := Function.update g.entries b (markFirst f (g.entries b)) } := by
  simp only [mark, hs, setSlot]

theorem lt_of_slot {g : Graph ι κ} {f : ι} {i : ℕ} {p : κ × Bool} (hs : g.slot f i = some p) :
    i < (g.slots f).length := by
  by_contra hlen
  rw [slot, List.getElem?_eq_none (by omega)] at hs
  cases hs

theorem slot_mark_self {g : Graph ι κ} {f : ι} {i : ℕ} {b : κ} {l : Bool}
    (hs : g.slot f i = some (b, l)) : (g.mark f i).slot f i = some (b, true) := by
  rw [mark_eq hs]
  exact slot_setSlot_self (lt_of_slot hs) _

theorem slot_mark_of_ne {g : Graph ι κ} {f f' : ι} {i j : ℕ} (h : ¬ (f' = f ∧ j = i)) :
    (g.mark f i).slot f' j = g.slot f' j := by
  cases hs : g.slot f i with
  | none => simp [mark, hs]
  | some p =>
    rw [mark_eq hs]
    exact slot_setSlot_of_ne h

/-- The slots point where they pointed before. -/
theorem slot_mark_target (g : Graph ι κ) (f f' : ι) (i j : ℕ) :
    ((g.mark f i).slot f' j).map Prod.fst = (g.slot f' j).map Prod.fst := by
  by_cases h : f' = f ∧ j = i
  · obtain ⟨rfl, rfl⟩ := h
    cases hs : g.slot f' j with
    | none => simp [mark, hs]
    | some p => rw [slot_mark_self hs]; rfl
  · rw [slot_mark_of_ne h]

theorem map_entries_mark (g : Graph ι κ) (f : ι) (i : ℕ) (c : κ) :
    ((g.mark f i).entries c).map (fun e => (e.owner, e.index)) =
      (g.entries c).map fun e => (e.owner, e.index) := by
  cases hs : g.slot f i with
  | none => simp [mark, hs]
  | some p =>
    rw [mark_eq hs]
    by_cases hc : c = p.1
    · subst hc
      simp [map_markFirst]
    · simp [hc]

/-- **Mark** keeps slots and back references matched. -/
theorem Linked.mark {g : Graph ι κ} (h : g.Linked) (f : ι) (i : ℕ) : (g.mark f i).Linked := by
  have hkeys : ∀ c p, p ∈ ((g.mark f i).entries c).map (fun e => (e.owner, e.index)) ↔
      p ∈ (g.entries c).map fun e => (e.owner, e.index) := by
    intro c p
    rw [map_entries_mark]
  have htarget : ∀ f' j c, (∃ l, (g.mark f i).slot f' j = some (c, l)) ↔
      ∃ l, g.slot f' j = some (c, l) := by
    intro f' j c
    have := slot_mark_target g f f' i j
    cases h₁ : (g.mark f i).slot f' j <;> cases h₂ : g.slot f' j <;> simp_all [Prod.ext_iff]
  refine ⟨fun c e he => ?_, fun f' j c l hs => ?_, fun c => ?_⟩
  · rw [htarget]
    obtain ⟨e', he', heq⟩ := List.mem_map.mp ((hkeys c _).mp (List.mem_map_of_mem he))
    obtain ⟨ho, hi⟩ := Prod.mk.inj heq
    rw [← ho, ← hi]
    exact h.slot_of_entry c e' he'
  · obtain ⟨l', hs'⟩ := (htarget f' j c).mp ⟨l, hs⟩
    obtain ⟨e, he, ho, hi⟩ := h.entry_of_slot f' j c l' hs'
    obtain ⟨e', he', heq⟩ := List.mem_map.mp ((hkeys c _).mpr (List.mem_map_of_mem he))
    obtain ⟨ho', hi'⟩ := Prod.mk.inj heq
    exact ⟨e', he', ho'.trans ho, hi'.trans hi⟩
  · rw [map_entries_mark]
    exact h.nodup c

/-- The marked slot is faithful if its back reference is the first one of its
owner. -/
theorem Faithful.mark {g : Graph ι κ} {X : Set ι} (h : g.Faithful X) (hl : g.Linked) {f : ι}
    {i : ℕ} {b : κ} {l : Bool} (hs : g.slot f i = some (b, l))
    (hfirst : ∀ e ∈ (g.entries b).find? (fun e => e.owner = f), e.index = i) :
    (g.mark f i).Faithful X := by
  obtain ⟨e₁, he₁, ho₁, -⟩ := hl.entry_of_slot f i b l hs
  obtain ⟨e₀, he₀⟩ : ∃ e₀, (g.entries b).find? (fun e => e.owner = f) = some e₀ := by
    rw [← Option.isSome_iff_exists, List.find?_isSome]
    exact ⟨e₁, he₁, by simpa using ho₁⟩
  have ho₀ : e₀.owner = f := by simpa using List.find?_some he₀
  have hi₀ : e₀.index = i := hfirst e₀ he₀
  intro c e he hX
  by_cases hc : c = b
  · subst hc
    rw [mark_eq hs] at he
    dsimp only at he
    rw [Function.update_self, mem_markFirst (hl.nodup c) he₀] at he
    rcases he with rfl | ⟨he, hne⟩
    · show (g.mark f i).slot e₀.owner e₀.index = _
      rw [ho₀, hi₀, slot_mark_self hs]
    · rw [slot_mark_of_ne, h c e he hX]
      rintro ⟨ho, hi⟩
      exact hne (by rw [ho, hi, ho₀, hi₀])
  · rw [mark_eq hs] at he
    dsimp only at he
    rw [Function.update_of_ne hc] at he
    rw [slot_mark_of_ne, h c e he hX]
    rintro ⟨rfl, rfl⟩
    have := h c e he hX
    rw [hs] at this
    exact hc (by simpa using (congrArg Prod.fst (Option.some.inj this)).symm)

theorem mem_markFirst_of_ne {f : ι} {es : List (Entry ι)} {e : Entry ι} (he : e.owner ≠ f) :
    e ∈ markFirst f es ↔ e ∈ es := by
  induction es with
  | nil => rfl
  | cons e' es ih =>
    rw [markFirst]
    split
    · rename_i ho
      have hne : e ≠ e' := fun heq => he (heq ▸ ho)
      have hne' : e ≠ { e' with flag := true } := by
        rintro rfl
        exact he ho
      simp [hne, hne']
    · rw [List.mem_cons, List.mem_cons, ih]

/-- The flags of an exempt owner do not matter. -/
theorem Faithful.mark_of_mem {g : Graph ι κ} {X : Set ι} (h : g.Faithful X) {f : ι} (hf : f ∈ X)
    (i : ℕ) : (g.mark f i).Faithful X := by
  intro c e he hX
  have hne : e.owner ≠ f := fun ho => hX (ho ▸ hf)
  rw [slot_mark_of_ne fun hcon => hne hcon.1]
  refine h c e ?_ hX
  cases hs : g.slot f i with
  | none => simpa [Graph.mark, hs] using he
  | some p =>
    rw [mark_eq hs] at he
    dsimp only at he
    by_cases hc : c = p.1
    · subst hc
      rw [Function.update_self] at he
      exact (mem_markFirst_of_ne hne).mp he
    · rwa [Function.update_of_ne hc] at he

/-- **Assign and mark**, when all back references of the owner are flagged. -/
theorem assign_mark_entries {g : Graph ι κ} {f : ι} {i : ℕ} (hlen : i < (g.slots f).length) {b : κ}
    (hall : ∀ e ∈ g.entries b, e.owner = f → e.flag = true) :
    ((g.assign f b i).mark f i).entries =
      Function.update g.entries b (g.entries b ++ [⟨f, i, true⟩]) := by
  rw [mark_eq (slot_assign_self hlen b), entries_assign]
  dsimp only
  rw [Function.update_self, Function.update_idem]
  congr 1
  by_cases hmem : ∃ e ∈ g.entries b, e.owner = f
  · obtain ⟨e, he, ho⟩ := hmem
    have hany : g.anyFlag b = true := List.any_eq_true.mpr ⟨e, he, hall e he ho⟩
    rw [markFirst_append_of_mem ⟨e, he, ho⟩, markFirst_of_all hall, hany]
  · exact markFirst_append_of_none (fun e he ho => hmem ⟨e, he, ho⟩) i _

theorem Faithful.assign_mark {g : Graph ι κ} {X : Set ι} (h : g.Faithful X) (hl : g.Linked) {f : ι}
    {i : ℕ} (hfree : (g.slots f)[i]? = some none) {b : κ}
    (hall : ∀ e ∈ g.entries b, e.owner = f → e.flag = true) :
    ((g.assign f b i).mark f i).Faithful X := by
  have hlen : i < (g.slots f).length := (List.getElem?_eq_some_iff.mp hfree).1
  have hnone : g.slot f i = none := by rw [slot, hfree]; rfl
  intro c e he hX
  rw [assign_mark_entries hlen hall] at he
  have hold : e ∈ g.entries c ∨ (c = b ∧ e = ⟨f, i, true⟩) := by
    by_cases hc : c = b
    · subst hc
      simpa using he
    · rw [Function.update_of_ne hc] at he
      exact .inl he
  rcases hold with hold | ⟨rfl, rfl⟩
  · have hne : ¬ (e.owner = f ∧ e.index = i) := by
      rintro ⟨rfl, rfl⟩
      obtain ⟨l, hs⟩ := hl.slot_of_entry c e hold
      rw [hnone] at hs
      cases hs
    rw [slot_mark_of_ne hne, slot_assign_of_ne hne]
    exact h c e hold hX
  · exact slot_mark_self (slot_assign_self hlen c)

end Graph

end Backlink
