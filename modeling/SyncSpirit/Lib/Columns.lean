import Mathlib

/-!
# Columns of a sorted table

Words in lexicographic order that start with the same letters are sorted by their next letter, too (`column_le`), so
those that have a given next letter stand together (`exists_split`). A table can be searched for a word by one
letter after another this way: what is left are the words that start with the letters so far (`withPrefix_concat`).
If no word of the table starts with another one, a word of the table is the only one left in the end
(`withPrefix_of_mem`).
-/

namespace Columns

variable {α : Type*} {table l : List (List α)} {u v w p : List α} {k : ℕ} {x c : α}

theorem concat_prefix_iff : p ++ [c] <+: w ↔ p <+: w ∧ w[p.length]? = some c := by
  constructor
  · rintro ⟨rest, rfl⟩
    exact ⟨⟨c :: rest, by simp⟩, by simp⟩
  · rintro ⟨⟨rest, rfl⟩, hc⟩
    rw [List.getElem?_append_right (le_refl _), Nat.sub_self] at hc
    obtain ⟨rest', rfl⟩ : ∃ rest', rest = c :: rest' := by
      cases rest with
      | nil => cases hc
      | cons d rest => exact ⟨rest, by simpa using hc⟩
    exact ⟨rest', by simp⟩

variable [LinearOrder α]

/-- The order of two words that start with the same `k` letters is that of their next letters. -/
theorem column_le (hlt : u < v) (htake : u.take k = v.take k) (hx : u[k]? = some x) : ∃ y, v[k]? = some y ∧ x ≤ y := by
  induction k generalizing u v with
  | zero =>
    cases u with
    | nil => cases hx
    | cons a u =>
      cases v with
      | nil => exact absurd hlt (List.not_lt_nil _)
      | cons b v =>
        obtain rfl : a = x := by simpa using hx
        refine ⟨b, rfl, ?_⟩
        rcases List.cons_lt_cons_iff.mp hlt with hab | ⟨rfl, -⟩
        · exact le_of_lt hab
        · exact le_rfl
  | succ k ih =>
    cases u with
    | nil => cases hx
    | cons a u =>
      cases v with
      | nil => exact absurd hlt (List.not_lt_nil _)
      | cons b v =>
        obtain ⟨rfl, htail⟩ : a = b ∧ u.take k = v.take k := by simpa using htake
        rcases List.cons_lt_cons_iff.mp hlt with haa | ⟨-, hrest⟩
        · exact absurd haa (lt_irrefl a)
        · exact ih hrest htail (by simpa using hx)

/-- The words are sorted by their letter in one column. Words that are too short stand anywhere before. -/
def SortedAt (k : ℕ) (l : List (List α)) : Prop :=
  l.Pairwise fun u v => ∀ x, u[k]? = some x → ∃ y, v[k]? = some y ∧ x ≤ y

/-- **The words with a given letter stand together**, between those with a smaller or no letter and those with a
greater one. -/
theorem exists_split (hsorted : SortedAt k l) (c : α) : ∃ pre mid post, l = pre ++ (mid ++ post) ∧
    (∀ w ∈ pre, ∀ x, w[k]? = some x → x < c) ∧ (∀ w ∈ mid, w[k]? = some c) ∧
    ∀ w ∈ post, ∃ x, w[k]? = some x ∧ c < x := by
  induction l with
  | nil => exact ⟨[], [], [], rfl, by simp, by simp, by simp⟩
  | cons w l ih =>
    obtain ⟨hw, hl⟩ := List.pairwise_cons.mp hsorted
    obtain ⟨pre, mid, post, rfl, hpre, hmid, hpost⟩ := ih hl
    by_cases hbefore : ∀ x, w[k]? = some x → x < c
    · exact ⟨w :: pre, mid, post, rfl, List.forall_mem_cons.mpr ⟨hbefore, hpre⟩, hmid, hpost⟩
    · push Not at hbefore
      obtain ⟨x, hx, hcx⟩ := hbefore
      -- behind this word no letter is smaller
      obtain rfl : pre = [] := by
        refine List.eq_nil_iff_forall_not_mem.mpr fun u hu => ?_
        obtain ⟨y, hy, hxy⟩ := hw u (List.mem_append_left _ hu) x hx
        exact absurd (hpre u hu y hy) (not_lt.mpr (hcx.trans hxy))
      rcases hcx.eq_or_lt with rfl | hlt
      · exact ⟨[], w :: mid, post, rfl, by simp, List.forall_mem_cons.mpr ⟨hx, hmid⟩, hpost⟩
      · obtain rfl : mid = [] := by
          refine List.eq_nil_iff_forall_not_mem.mpr fun u hu => ?_
          obtain ⟨y, hy, hxy⟩ := hw u (by simp [hu]) x hx
          rw [hmid u hu, Option.some.injEq] at hy
          exact absurd (hlt.trans_le (hy ▸ hxy)) (lt_irrefl c)
        exact ⟨[], [], w :: post, rfl, by simp, by simp, List.forall_mem_cons.mpr ⟨⟨x, hx, hlt⟩, hpost⟩⟩

/-- The words of the table that start with some letters. -/
def withPrefix (table : List (List α)) (p : List α) : List (List α) := table.filter fun w => p <+: w

theorem mem_withPrefix : w ∈ withPrefix table p ↔ w ∈ table ∧ p <+: w := by simp [withPrefix]

@[simp] theorem withPrefix_nil (table : List (List α)) : withPrefix table [] = table := by simp [withPrefix]

/-- One letter more. -/
theorem withPrefix_concat (table : List (List α)) (p : List α) (c : α) :
    withPrefix table (p ++ [c]) = (withPrefix table p).filter fun w => w[p.length]? = some c := by
  rw [withPrefix, withPrefix, List.filter_filter]
  refine List.filter_congr fun w _ => ?_
  rw [← Bool.decide_and]
  exact decide_eq_decide.mpr (concat_prefix_iff.trans and_comm)

theorem sortedAt_withPrefix (hsorted : table.Pairwise (· < ·)) (p : List α) :
    SortedAt p.length (withPrefix table p) := by
  refine (hsorted.filter _).imp_of_mem fun {u v} hu hv hlt x hx => ?_
  have hstart : ∀ w ∈ withPrefix table p, w.take p.length = p :=
    fun w hw => (List.prefix_iff_eq_take.mp (mem_withPrefix.mp hw).2).symm
  exact column_le hlt ((hstart u hu).trans (hstart v hv).symm) hx

/-- **A word of the table** is all that is left with its letters. -/
theorem withPrefix_of_mem (hnodup : table.Nodup) (hfree : ∀ u ∈ table, ∀ v ∈ table, u <+: v → u = v) (hw : w ∈ table) :
    withPrefix table w = [w] := by
  have hfilter : withPrefix table w = table.filter fun v => v = w := by
    refine List.filter_congr fun v hv => ?_
    refine decide_eq_decide.mpr ⟨fun h => (hfree w hw v hv h).symm, ?_⟩
    rintro rfl
    exact List.prefix_rfl
  rw [hfilter, List.filter_eq, List.count_eq_one_of_mem hnodup hw]
  rfl

end Columns
