import Mathlib

/-!
# Sums over the entries of a list

What happens to the sum of a quantity over a list when one entry is replaced or removed.
-/

namespace Tally

variable {α : Type*} {f : α → Int} {l : List α} {i : Nat} {x y : α}

/-- The sum of a quantity. -/
def total (f : α → Int) (l : List α) : Int := (l.map f).sum

@[simp] theorem total_nil : total f [] = 0 := rfl

@[simp] theorem total_cons : total f (x :: l) = f x + total f l := by simp [total]

@[simp] theorem total_append {l' : List α} : total f (l ++ l') = total f l + total f l' := by simp [total]

theorem total_congr {g : α → Int} (h : ∀ a ∈ l, f a = g a) : total f l = total g l :=
  congrArg List.sum (List.map_congr_left h)

theorem total_eq_zero (h : ∀ a ∈ l, f a = 0) : total f l = 0 := by
  induction l with
  | nil => rfl
  | cons a l ih =>
    rw [total_cons, h a (List.mem_cons_self ..), ih fun b hb => h b (List.mem_cons_of_mem _ hb), add_zero]

theorem total_nonneg (h : ∀ a ∈ l, 0 ≤ f a) : 0 ≤ total f l := by
  induction l with
  | nil => exact Int.le_refl 0
  | cons a l ih =>
    rw [total_cons]
    exact Int.add_nonneg (h a (List.mem_cons_self ..)) (ih fun b hb => h b (List.mem_cons_of_mem _ hb))

theorem total_map {β : Type*} {g : β → Int} {h : α → β} : total g (l.map h) = total (fun a => g (h a)) l := by
  simp [total, Function.comp_def]

/-- One entry is replaced. -/
theorem total_set (h : l[i]? = some x) : total f (l.set i y) = total f l - f x + f y := by
  induction l generalizing i with
  | nil => cases h
  | cons a l ih =>
    cases i with
    | zero =>
      cases h
      rw [List.set_cons_zero, total_cons, total_cons]
      omega
    | succ i =>
      rw [List.set_cons_succ, total_cons, total_cons, ih (by simpa using h)]
      omega

/-- Two quantities that agree on all entries but one. -/
theorem total_sub_congr {g : α → Int} (h : l[i]? = some x) (hfg : ∀ j y, j ≠ i → l[j]? = some y → f y = g y) :
    total f l - f x = total g l - g x := by
  induction l generalizing i with
  | nil => cases h
  | cons a l ih =>
    rw [total_cons, total_cons]
    cases i with
    | zero =>
      cases h
      have hrest : total f l = total g l := by
        refine total_congr fun y hy => ?_
        obtain ⟨j, hj⟩ := List.mem_iff_getElem?.mp hy
        exact hfg (j + 1) y (Nat.succ_ne_zero j) (by simpa using hj)
      omega
    | succ i =>
      have hhead : f a = g a := hfg 0 a (Nat.succ_ne_zero i).symm rfl
      have hrest := ih (by simpa using h) fun j y hj hy => hfg (j + 1) y (by omega) (by simpa using hy)
      omega

/-- One entry is removed. -/
theorem total_eraseIdx (h : l[i]? = some x) : total f (l.eraseIdx i) = total f l - f x := by
  induction l generalizing i with
  | nil => cases h
  | cons a l ih =>
    cases i with
    | zero =>
      cases h
      rw [List.eraseIdx_cons_zero, total_cons]
      omega
    | succ i =>
      rw [List.eraseIdx_cons_succ, total_cons, total_cons, ih (by simpa using h)]
      omega

theorem le_total (h : l[i]? = some x) (hf : ∀ a ∈ l, 0 ≤ f a) : f x ≤ total f l := by
  have hrest := total_nonneg (f := f) (l := l.eraseIdx i) fun a ha => hf a (List.mem_of_mem_eraseIdx ha)
  rw [total_eraseIdx h] at hrest
  omega

/-- Two entries. -/
theorem add_le_total {j : Nat} (hi : l[i]? = some x) (hj : l[j]? = some y) (hne : i ≠ j) (hf : ∀ a ∈ l, 0 ≤ f a) :
    f x + f y ≤ total f l := by
  induction l generalizing i j with
  | nil => cases hi
  | cons a l ih =>
    have hrest : ∀ b ∈ l, 0 ≤ f b := fun b hb => hf b (List.mem_cons_of_mem _ hb)
    have ha := hf a (List.mem_cons_self ..)
    rw [total_cons]
    rcases i with - | i <;> rcases j with - | j
    · exact absurd rfl hne
    · cases hi
      have hle := le_total (by simpa using hj) hrest
      omega
    · cases hj
      have hle := le_total (by simpa using hi) hrest
      omega
    · have hle := ih (by simpa using hi) (by simpa using hj) (fun h => hne (congrArg _ h)) hrest
      omega

end Tally
