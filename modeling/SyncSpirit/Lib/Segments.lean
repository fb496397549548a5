import Mathlib

/-!
# Segments between separators

What `List.splitOn` makes of a list, beside what is said about it there: no segment has a separator
(`sep_notMem_of_mem_splitOn`).

A list can be cut into its segments, too, if their lengths are known, one separator between them (`cut`). The pieces
are the segments exactly if the lengths are those of the segments (`cut_splitOn`, `lengths_eq_of_cut`), and then they
start where the lengths say (`starts_le`).
-/

namespace Segments

variable {α : Type*} [BEq α] [LawfulBEq α] {sep : α}

theorem sep_notMem_of_mem_splitOn {l s : List α} (hs : s ∈ l.splitOn sep) : sep ∉ s := by
  induction l generalizing s with
  | nil =>
    rw [List.splitOn_nil, List.mem_singleton] at hs
    rw [hs]
    exact List.not_mem_nil
  | cons x l ih =>
    rw [List.splitOn_cons_eq_if_modifyHead] at hs
    split at hs
    · rcases List.mem_cons.mp hs with rfl | hs
      · exact List.not_mem_nil
      · exact ih hs
    · rename_i hx
      obtain ⟨t, ts, hsplit⟩ := List.exists_cons_of_ne_nil (List.splitOn_ne_nil sep l)
      rw [hsplit, List.modifyHead_cons] at hs
      rw [hsplit] at ih
      rcases List.mem_cons.mp hs with rfl | hs
      · rw [List.mem_cons, not_or]
        exact ⟨fun h => hx (by simp [h]), ih (List.mem_cons_self ..)⟩
      · exact ih (List.mem_cons_of_mem _ hs)

/-! ## Cutting by lengths -/

section Cut

variable {α : Type*} {sep x : α} {l : List α} {ls : List ℕ} {b : ℕ}

/-- Cut pieces of the given lengths, and one that has the rest. Behind each piece an element is left out. -/
def cut (l : List α) : List ℕ → List (List α)
  | [] => [l]
  | n :: ls => l.take n :: cut (l.drop (n + 1)) ls

/-- Where the pieces behind the first one start, which starts at `b`. -/
def starts (b : ℕ) : List ℕ → List ℕ
  | [] => []
  | n :: ls => (b + n + 1) :: starts (b + n + 1) ls

theorem cut_ne_nil (l : List α) (ls : List ℕ) : cut l ls ≠ [] := by
  cases ls <;> simp [cut]

theorem length_cut (l : List α) (ls : List ℕ) : (cut l ls).length = ls.length + 1 := by
  induction ls generalizing l with
  | nil => rfl
  | cons n ls ih => rw [cut, List.length_cons, ih, List.length_cons]

theorem length_starts (b : ℕ) (ls : List ℕ) : (starts b ls).length = ls.length := by
  induction ls generalizing b with
  | nil => rfl
  | cons n ls ih => rw [starts, List.length_cons, ih, List.length_cons]

theorem lt_of_mem_starts {o : ℕ} (ho : o ∈ starts b ls) : b < o := by
  induction ls generalizing b with
  | nil => cases ho
  | cons n ls ih =>
    rcases List.mem_cons.mp ho with rfl | ho
    · omega
    · have := ih ho
      omega

/-- A segment and what follows it. -/
theorem intercalate_cons (s : List α) {ss : List (List α)} (hne : ss ≠ []) :
    [sep].intercalate (s :: ss) = s ++ sep :: [sep].intercalate ss := by
  rw [List.intercalate_cons_of_ne_nil hne, List.append_assoc, List.singleton_append]

theorem intercalate_concat {ss : List (List α)} (hne : ss ≠ []) (s : List α) :
    [sep].intercalate (ss ++ [s]) = [sep].intercalate ss ++ sep :: s := by
  induction ss with
  | nil => exact absurd rfl hne
  | cons t ts ih =>
    rw [List.cons_append, intercalate_cons t (by simp)]
    by_cases hts : ts = []
    · subst hts
      rw [List.nil_append, List.intercalate_singleton, List.intercalate_singleton]
    · rw [ih hts, intercalate_cons t hts, List.append_assoc, List.cons_append]

theorem head?_intercalate {s : List α} {ss : List (List α)} (hs : sep ∉ s) (hne : ss ≠ []) :
    ([sep].intercalate (s :: ss)).head? = some sep ↔ s = [] := by
  rw [intercalate_cons s hne]
  cases s with
  | nil => exact iff_of_true rfl rfl
  | cons x s =>
    refine iff_of_false (fun h => hs ?_) (List.cons_ne_nil _ _)
    rw [show x = sep from Option.some.inj h]
    exact List.mem_cons_self ..

theorem getLast?_intercalate {s : List α} {ss : List (List α)} (hs : sep ∉ s) (hne : ss ≠ []) :
    ([sep].intercalate (ss ++ [s])).getLast? = some sep ↔ s = [] := by
  rw [intercalate_concat hne, List.getLast?_append_cons, List.getLast?_eq_some_getLast (List.cons_ne_nil _ _),
    Option.some.injEq]
  by_cases hnil : s = []
  · subst hnil
    exact iff_of_true rfl rfl
  · rw [List.getLast_cons hnil]
    exact iff_of_false (fun h => hs (h ▸ List.getLast_mem hnil)) hnil

/-- Segments joined and cut by their lengths. -/
theorem cut_intercalate {ss : List (List α)} (hne : ss ≠ []) :
    cut ([sep].intercalate ss) (ss.dropLast.map List.length) = ss := by
  induction ss with
  | nil => exact absurd rfl hne
  | cons s ss ih =>
    by_cases hss : ss = []
    · subst hss
      rw [List.intercalate_singleton]
      rfl
    · rw [intercalate_cons s hss, List.dropLast_cons_of_ne_nil hss, List.map_cons, cut, List.take_left]
      have hdrop : (s ++ sep :: [sep].intercalate ss).drop (s.length + 1) = [sep].intercalate ss := by
        rw [List.drop_append, Nat.add_sub_cancel_left, List.drop_eq_nil_of_le (Nat.le_succ _)]
        rfl
      rw [hdrop, ih hss]

/-- **The lengths are determined**: pieces that make the list with separators between them have the lengths they
were cut with. -/
theorem lengths_eq_of_cut (h : [sep].intercalate (cut l ls) = l) : (cut l ls).dropLast.map List.length = ls := by
  induction ls generalizing l with
  | nil => rfl
  | cons n ls ih =>
    have hne := cut_ne_nil (l.drop (n + 1)) ls
    rw [cut, intercalate_cons _ hne] at h
    rw [cut, List.dropLast_cons_of_ne_nil hne, List.map_cons]
    have hlength := congrArg List.length h
    rw [List.length_append, List.length_cons, List.length_take] at hlength
    have htake : (l.take n).length = n := by
      rw [List.length_take]
      omega
    have hdrop : [sep].intercalate (cut (l.drop (n + 1)) ls) = l.drop (n + 1) := by
      have hbehind := congrArg (List.drop (n + 1)) h
      rw [List.drop_append, htake, Nat.add_sub_cancel_left, List.drop_eq_nil_of_le (by omega)] at hbehind
      exact hbehind
    rw [htake, ih hdrop]

/-- The pieces start within the list. -/
theorem starts_le {ss : List (List α)} (hne : ss ≠ []) {o : ℕ} (ho : o ∈ starts b (ss.dropLast.map List.length)) :
    o ≤ b + ([sep].intercalate ss).length := by
  induction ss generalizing b with
  | nil => exact absurd rfl hne
  | cons s ss ih =>
    by_cases hss : ss = []
    · subst hss
      cases ho
    · rw [List.dropLast_cons_of_ne_nil hss, List.map_cons, starts] at ho
      rw [intercalate_cons s hss, List.length_append, List.length_cons]
      rcases List.mem_cons.mp ho with rfl | ho
      · omega
      · have := ih hss ho
        omega

/-- The last piece is what is behind the last start. -/
theorem getLast_cut (l : List α) (b : ℕ) (ls : List ℕ) :
    (cut (l.drop b) ls).getLast (cut_ne_nil _ _) = l.drop ((b :: starts b ls).getLast (List.cons_ne_nil _ _)) := by
  induction ls generalizing b with
  | nil => rfl
  | cons n ls ih =>
    have hdrop : (l.drop b).drop (n + 1) = l.drop (b + n + 1) := by
      rw [List.drop_drop]
      rfl
    have hlast := ih (b + n + 1)
    simp only [cut, starts, hdrop, List.getLast_cons (cut_ne_nil _ _)]
    rw [List.getLast_cons (List.cons_ne_nil _ _)]
    exact hlast

end Cut

end Segments
