import Mathlib

/-!
# Lists with a key

A multi-index map is a list whose elements differ in each of their keys. `find?_iff`
is the lookup by a key, `nodup_put` the insertion that replaces, and
`flatMap_modify` says what the elements of the elements are when one of them is
modified. In a log, where keys come again, `last` is the last element with a key.
-/

namespace Keyed

variable {α β κ : Type} {l : List α} {key : α → κ}

theorem find?_iff [DecidableEq κ] (h : (l.map key).Nodup) {k : κ} {a : α} :
    l.find? (fun b => key b = k) = some a ↔ a ∈ l ∧ key a = k := by
  constructor
  · intro hfind
    exact ⟨List.mem_of_find?_eq_some hfind, by simpa using List.find?_some hfind⟩
  · rintro ⟨ha, hk⟩
    cases hfind : l.find? fun b => key b = k with
    | none =>
      have := List.find?_eq_none.mp hfind a ha
      simp [hk] at this
    | some b =>
      have hb := List.mem_of_find?_eq_some hfind
      have hkb : key b = k := by simpa using List.find?_some hfind
      rw [List.inj_on_of_nodup_map h hb ha (hkb.trans hk.symm)]

theorem nodup_filter (h : (l.map key).Nodup) (p : α → Bool) : ((l.filter p).map key).Nodup :=
  (List.filter_sublist.map key).nodup h

/-- A new element whose key is free. -/
theorem nodup_append (h : (l.map key).Nodup) {a : α} (ha : ∀ b ∈ l, key b ≠ key a) :
    ((l ++ [a]).map key).Nodup := by
  rw [List.map_append]
  refine List.nodup_append.mpr ⟨h, by simp, ?_⟩
  intro k hk k' hk' heq
  obtain ⟨b, hb, rfl⟩ := List.mem_map.mp hk
  exact ha b hb (heq.trans (by simpa using hk'))

/-- What is in the way is removed, whatever else is. -/
theorem nodup_put (h : (l.map key).Nodup) {a : α} {p : α → Bool}
    (hp : ∀ b, p b = true → key b ≠ key a) : ((l.filter p ++ [a]).map key).Nodup :=
  nodup_append (nodup_filter h p) fun b hb => hp b (List.mem_filter.mp hb).2

/-- One element is modified. -/
theorem flatMap_modify [DecidableEq κ] (h : (l.map key).Nodup) {a : α} (ha : a ∈ l) (f : α → α) (g : α → List β) :
    ∃ s t, l = s ++ a :: t ∧
      (l.map fun b => if key b = key a then f b else b).flatMap g = s.flatMap g ++ g (f a) ++ t.flatMap g := by
  obtain ⟨s, t, rfl⟩ := List.append_of_mem ha
  rw [List.map_append, List.map_cons] at h
  obtain ⟨-, hright, hleft⟩ := List.nodup_append.mp h
  have hs : ∀ b ∈ s, key b ≠ key a := fun b hb =>
    hleft _ (List.mem_map_of_mem hb) _ (List.mem_cons_self ..)
  have ht : ∀ b ∈ t, key b ≠ key a := fun b hb heq =>
    (List.nodup_cons.mp hright).1 (heq ▸ List.mem_map_of_mem hb)
  have hmap : ∀ r : List α, (∀ b ∈ r, key b ≠ key a) →
      r.map (fun b => if key b = key a then f b else b) = r := fun r hr =>
    (List.map_congr_left fun b hb => if_neg (hr b hb)).trans (List.map_id' r)
  refine ⟨s, t, rfl, ?_⟩
  rw [List.map_append, List.map_cons, hmap s hs, hmap t ht, if_pos rfl, List.flatMap_append,
    List.flatMap_cons, List.append_assoc]

/-! ## The last element with a key -/

section Last

variable [DecidableEq κ] {k : κ} {a : α}

/-- The last element of a log with a key. -/
def last (key : α → κ) (log : List α) (k : κ) : Option α := (log.filter fun a => key a = k).getLast?

theorem last_append (log log' : List α) (k : κ) : last key (log ++ log') k = (last key log' k).or (last key log k) := by
  unfold last
  rw [List.filter_append, List.getLast?_append]

theorem last_eq_none : last key l k = none ↔ ∀ a ∈ l, key a ≠ k := by
  simp [last]

theorem mem_of_last (h : last key l k = some a) : a ∈ l ∧ key a = k := by
  have hmem := List.mem_filter.mp (List.mem_of_getLast? h)
  exact ⟨hmem.1, of_decide_eq_true hmem.2⟩

/-- Without repetitions it is the element with the key. -/
theorem last_of_nodup (h : (l.map key).Nodup) (ha : a ∈ l) : last key l (key a) = some a := by
  cases hlast : last key l (key a) with
  | none => exact absurd rfl (last_eq_none.mp hlast a ha)
  | some b =>
    obtain ⟨hb, hkey⟩ := mem_of_last hlast
    rw [List.inj_on_of_nodup_map h hb ha hkey]

/-- Nothing with the key comes after it. -/
theorem exists_split_of_last : ∀ {l : List α}, last key l k = some a →
    ∃ pre post, l = pre ++ a :: post ∧ ∀ b ∈ post, key b ≠ k := by
  intro l
  induction l using List.reverseRecOn with
  | nil =>
    intro h
    cases h
  | append_singleton l b ih =>
    intro h
    rw [last_append] at h
    by_cases hb : key b = k
    · have hsingle : last key [b] k = some b := by simp [last, hb]
      rw [hsingle] at h
      cases h
      exact ⟨l, [], rfl, fun b hb => absurd hb List.not_mem_nil⟩
    · have hsingle : last key [b] k = none := by simp [last, hb]
      rw [hsingle, Option.none_or] at h
      obtain ⟨pre, post, rfl, hpost⟩ := ih h
      refine ⟨pre, post ++ [b], by simp, fun x hx => ?_⟩
      rcases List.mem_append.mp hx with hx | hx
      · exact hpost x hx
      · rw [List.mem_singleton.mp hx]
        exact hb

end Last

end Keyed
