import Mathlib

/-!
# Tables and logs of writes

An ordered table whose keys are coded (as bytes, say), and a log of writes to it. A removal
fails if there is nothing under the key.

A log `Says` a content if each of its writes leaves under its key what the content has there;
then the order of the writes does not matter, nor how often a key is written:

- `getElem?_run`: what such a log leaves behind;
- `run_isSome_iff`: when it succeeds, which depends on its removals only;
- `mirrors_of_log`: a table that has a content has the next one after the log, if the two
  agree at the keys that are not written;
- `mirrors_of_refresh`: the same for a list of keys that are written as the next content has
  them.
-/

namespace WriteLog

open Std

/-- A write. -/
inductive Write (κ ν : Type) where
  | save (key : κ) (value : ν)
  | remove (key : κ)
  deriving DecidableEq, Repr

namespace Write

variable {κ ν : Type}

def key : Write κ ν → κ
  | .save k _ => k
  | .remove k => k

/-- What is under the key afterwards. -/
def value : Write κ ν → Option ν
  | .save _ v => some v
  | .remove _ => none

/-- The key that is removed. -/
def removed : Write κ ν → Option κ
  | .save _ _ => none
  | .remove k => some k

theorem removed_eq_some {w : Write κ ν} {k : κ} : w.removed = some k ↔ w = .remove k := by
  cases w <;> simp [removed]

end Write

variable {κ β ν : Type} {cmp : β → β → Ordering} [TransCmp cmp] (code : κ → β)

/-- One write. -/
def write (t : ExtTreeMap β ν cmp) : Write κ ν → Option (ExtTreeMap β ν cmp)
  | .save k v => some (t.insert (code k) v)
  | .remove k => if code k ∈ t then some (t.erase (code k)) else none

/-- A log. -/
def run (t : ExtTreeMap β ν cmp) (log : List (Write κ ν)) : Option (ExtTreeMap β ν cmp) := log.foldlM (write code) t

/-- The keys that a log removes. -/
def removals (log : List (Write κ ν)) : List κ := log.filterMap Write.removed

/-- The write that brings a key up to date. -/
def refresh (content : κ → Option ν) (k : κ) : Write κ ν :=
  match content k with
  | some v => .save k v
  | none => .remove k

/-- Each write leaves what the content has under its key. -/
def Says (content : κ → Option ν) (log : List (Write κ ν)) : Prop := ∀ w ∈ log, w.value = content w.key

/-- The table has the content, and nothing else. -/
structure Mirrors (t : ExtTreeMap β ν cmp) (content : κ → Option ν) : Prop where
  value : ∀ k, t[code k]? = content k
  coded : ∀ b ∈ t, ∃ k, code k = b

variable {code}

theorem mem_removals {log : List (Write κ ν)} {k : κ} : k ∈ removals log ↔ Write.remove k ∈ log := by
  simp only [removals, List.mem_filterMap, Write.removed_eq_some, exists_eq_right]

section Says

variable {content : κ → Option ν} {log log' : List (Write κ ν)} {w : Write κ ν} {k : κ} {v : ν}

theorem Says.head (h : Says content (w :: log)) : w.value = content w.key := h w (List.mem_cons_self ..)

theorem Says.tail (h : Says content (w :: log)) : Says content log := fun w' hw => h w' (List.mem_cons_of_mem _ hw)

theorem refresh_of_some (h : content k = some v) : refresh content k = .save k v := by
  unfold refresh
  rw [h]

theorem refresh_of_none (h : content k = none) : refresh content k = .remove k := by
  unfold refresh
  rw [h]

@[simp] theorem key_refresh (content : κ → Option ν) (k : κ) : (refresh content k).key = k := by
  unfold refresh
  split <;> rfl

@[simp] theorem value_refresh (content : κ → Option ν) (k : κ) : (refresh content k).value = content k := by
  unfold refresh
  split
  · rename_i h
    rw [h]
    rfl
  · rename_i h
    rw [h]
    rfl

theorem says_refresh (content : κ → Option ν) (keys : List κ) : Says content (keys.map (refresh content)) := by
  intro w hw
  obtain ⟨k, -, rfl⟩ := List.mem_map.mp hw
  rw [value_refresh, key_refresh]

theorem keys_refresh (content : κ → Option ν) (keys : List κ) :
    (keys.map (refresh content)).map Write.key = keys := by
  rw [List.map_map]
  conv_rhs => rw [← List.map_id keys]
  exact List.map_congr_left fun k _ => key_refresh content k

/-- The keys that are gone are removed. -/
theorem removals_refresh (content : κ → Option ν) (keys : List κ) :
    removals (keys.map (refresh content)) = keys.filter fun k => (content k).isNone := by
  induction keys with
  | nil => rfl
  | cons k keys ih =>
    rw [List.map_cons, removals, List.filterMap_cons, List.filter_cons]
    cases h : content k with
    | some v =>
      rw [refresh_of_some h]
      exact ih
    | none =>
      rw [refresh_of_none h]
      exact congrArg (k :: ·) ih

end Says

section Run

variable {t t' : ExtTreeMap β ν cmp} {content before : κ → Option ν} {log log' : List (Write κ ν)}
  {w : Write κ ν}

theorem run_cons (t : ExtTreeMap β ν cmp) (w : Write κ ν) (log : List (Write κ ν)) :
    run code t (w :: log) = (write code t w).bind fun u => run code u log := List.foldlM_cons ..

theorem run_append (t : ExtTreeMap β ν cmp) (log log' : List (Write κ ν)) :
    run code t (log ++ log') = (run code t log).bind fun u => run code u log' := List.foldlM_append ..

variable [LawfulEqCmp cmp] [DecidableEq κ]

/-- **One write**: nothing else changes. -/
theorem getElem?_write (hcode : Function.Injective code) (h : write code t w = some t') (k : κ) :
    t'[code k]? = if w.key = k then w.value else t[code k]? := by
  have hiff : ∀ k', cmp (code k') (code k) = .eq ↔ k' = k := fun k' => by
    rw [LawfulEqCmp.compare_eq_iff_eq, hcode.eq_iff]
  cases w with
  | save k' v =>
    cases h
    rw [ExtTreeMap.getElem?_insert]
    exact if_congr (hiff k') rfl rfl
  | remove k' =>
    unfold write at h
    dsimp only at h
    split at h
    · cases h
      rw [ExtTreeMap.getElem?_erase]
      exact if_congr (hiff k') rfl rfl
    · cases h

theorem getElem?_write_key (hcode : Function.Injective code) (h : write code t w = some t') :
    t'[code w.key]? = w.value := by
  rw [getElem?_write hcode h, if_pos rfl]

theorem getElem?_write_of_ne (hcode : Function.Injective code) (h : write code t w = some t') {k : κ}
    (hne : w.key ≠ k) : t'[code k]? = t[code k]? := by
  rw [getElem?_write hcode h, if_neg hne]

omit [DecidableEq κ] in
/-- Nothing is written but under coded keys. -/
theorem coded_write (h : write code t w = some t') (hcoded : ∀ b ∈ t, ∃ k, code k = b) :
    ∀ b ∈ t', ∃ k, code k = b := by
  intro b hb
  cases w with
  | save k v =>
    cases h
    rcases ExtTreeMap.mem_insert.mp hb with heq | hb
    · exact ⟨k, LawfulEqCmp.compare_eq_iff_eq.mp heq⟩
    · exact hcoded b hb
  | remove k =>
    unfold write at h
    dsimp only at h
    split at h
    · cases h
      exact hcoded b (ExtTreeMap.mem_erase.mp hb).2
    · cases h

omit [DecidableEq κ] in
theorem coded_run : ∀ {log : List (Write κ ν)} {t : ExtTreeMap β ν cmp}, run code t log = some t' →
    (∀ b ∈ t, ∃ k, code k = b) → ∀ b ∈ t', ∃ k, code k = b := by
  intro log
  induction log with
  | nil =>
    rintro t ⟨⟩ hcoded
    exact hcoded
  | cons w log ih =>
    intro t h hcoded
    rw [run_cons] at h
    obtain ⟨u, hu, h⟩ := Option.bind_eq_some_iff.mp h
    exact ih h (coded_write hu hcoded)

/-- **A log** that says a content leaves it under the keys it writes. -/
theorem getElem?_run (hcode : Function.Injective code) :
    ∀ {log : List (Write κ ν)} {t : ExtTreeMap β ν cmp}, Says content log → run code t log = some t' →
      ∀ k, t'[code k]? = if k ∈ log.map Write.key then content k else t[code k]? := by
  intro log
  induction log with
  | nil =>
    rintro t - ⟨⟩ k
    rfl
  | cons w log ih =>
    intro t htells h k
    rw [run_cons] at h
    obtain ⟨u, hu, h⟩ := Option.bind_eq_some_iff.mp h
    rw [ih htells.tail h k, getElem?_write hcode hu k]
    by_cases hlog : k ∈ log.map Write.key
    · rw [if_pos hlog, if_pos (by exact List.mem_cons_of_mem _ hlog)]
    · by_cases hk : w.key = k
      · -- the last write to the key is the first one of the log
        rw [if_neg hlog, if_pos hk, if_pos (by rw [← hk]; exact List.mem_cons_self ..), htells.head, hk]
      · rw [if_neg hlog, if_neg hk, if_neg]
        rw [List.map_cons, List.mem_cons, not_or]
        exact ⟨fun heq => hk heq.symm, hlog⟩

/-- **When a log succeeds**: what it removes is there, and it removes nothing twice. -/
theorem run_isSome_iff (hcode : Function.Injective code) :
    ∀ {log : List (Write κ ν)} {t : ExtTreeMap β ν cmp}, Says content log →
      ((run code t log).isSome = true ↔
        (removals log).Nodup ∧ ∀ k ∈ removals log, (t[code k]?).isSome = true) := by
  intro log
  induction log with
  | nil => exact fun _ => ⟨fun _ => ⟨List.nodup_nil, by simp [removals]⟩, fun _ => rfl⟩
  | cons w log ih =>
    intro t htells
    rw [run_cons]
    cases w with
    | save k v =>
      show (run code (t.insert (code k) v) log).isSome = true ↔ _
      rw [ih htells.tail]
      refine and_congr_right fun _ => forall₂_congr fun k' hk' => ?_
      -- the key is not both saved and removed
      have hne : k ≠ k' := by
        rintro rfl
        have hgone := htells _ (List.mem_cons_of_mem _ (mem_removals.mp hk'))
        exact absurd (hgone.trans htells.head.symm) (by simp [Write.value])
      have hw : write code t (.save k v) = some (t.insert (code k) v) := rfl
      rw [getElem?_write_of_ne hcode hw hne]
    | remove k =>
      have hremovals : removals (Write.remove k :: log) = k :: removals log := rfl
      rw [hremovals, List.nodup_cons, List.forall_mem_cons]
      by_cases hmem : code k ∈ t
      · have hsome : (t[code k]?).isSome = true := by
          rw [ExtTreeMap.isSome_getElem?_iff_mem]
          exact hmem
        have hw : write code t (.remove k) = some (t.erase (code k)) := if_pos hmem
        rw [hw, Option.bind_some, ih htells.tail]
        constructor
        · rintro ⟨hnodup, hall⟩
          have hnot : k ∉ removals log := by
            intro hk
            have hgone := hall k hk
            have hnone : (t.erase (code k))[code k]? = none := getElem?_write_key hcode hw
            rw [hnone] at hgone
            cases hgone
          refine ⟨⟨hnot, hnodup⟩, hsome, fun k' hk' => ?_⟩
          have hthere := hall k' hk'
          have hne : k ≠ k' := by
            rintro rfl
            exact hnot hk'
          rwa [getElem?_write_of_ne hcode hw hne] at hthere
        · rintro ⟨⟨hnot, hnodup⟩, -, hall⟩
          refine ⟨hnodup, fun k' hk' => ?_⟩
          have hne : k ≠ k' := by
            rintro rfl
            exact hnot hk'
          rw [getElem?_write_of_ne hcode hw hne]
          exact hall k' hk'
      · have hw : write code t (.remove k) = none := if_neg hmem
        rw [hw]
        refine ⟨fun h => absurd h (by simp), fun h => absurd ?_ hmem⟩
        rw [← ExtTreeMap.isSome_getElem?_iff_mem]
        exact h.2.1

/-- **A table follows a content**: the log has to write wherever the content changes. -/
theorem mirrors_of_log (hcode : Function.Injective code) (h : Mirrors code t before)
    (htells : Says content log) (hrest : ∀ k, k ∉ log.map Write.key → content k = before k)
    (hrun : run code t log = some t') : Mirrors code t' content := by
  refine ⟨fun k => ?_, coded_run hrun h.coded⟩
  rw [getElem?_run hcode htells hrun k]
  split
  · rfl
  · rename_i hk
    rw [h.value k, hrest k hk]

/-- **Refresh**: the keys that are gone have to be there before, once each. -/
theorem mirrors_of_refresh (hcode : Function.Injective code) {keys : List κ} (h : Mirrors code t before)
    (hrest : ∀ k, k ∉ keys → content k = before k) (hnodup : (keys.filter fun k => (content k).isNone).Nodup)
    (hthere : ∀ k ∈ keys, content k = none → (before k).isSome = true) :
    ∃ t', run code t (keys.map (refresh content)) = some t' ∧ Mirrors code t' content := by
  have htells := says_refresh content keys
  have hrun : (run code t (keys.map (refresh content))).isSome = true := by
    rw [run_isSome_iff hcode htells, removals_refresh]
    refine ⟨hnodup, fun k hk => ?_⟩
    obtain ⟨hmem, hnone⟩ := List.mem_filter.mp hk
    rw [h.value k]
    exact hthere k hmem (by simpa using hnone)
  obtain ⟨t', ht'⟩ := Option.isSome_iff_exists.mp hrun
  exact ⟨t', ht', mirrors_of_log hcode h htells (fun k hk => hrest k (by rwa [keys_refresh] at hk)) ht'⟩

end Run

end WriteLog
