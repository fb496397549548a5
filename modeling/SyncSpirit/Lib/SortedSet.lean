import Mathlib

/-!
# Sorted lists as sets

An ordered set whose elements are compared by `lt`, as a list in ascending order. Of elements that
are equivalent, that is, neither of which is less than the other one, a set keeps the first.

The comparison is one of keys (`Compares`), and `lt` may be replaced as long as the list is sorted
by the new one, too: a set does not notice when its elements change.
-/

namespace SortedSet

variable {α κ : Type*} (lt : α → α → Bool)

/-- Insert an element, unless an equivalent one is there. -/
def insert (a : α) : List α → List α
  | [] => [a]
  | b :: q => if lt a b then a :: b :: q else if lt b a then b :: insert a q else b :: q

/-- Insert elements one after another. -/
def insertAll (q as : List α) : List α := as.foldl (fun q a => insert lt a q) q

/-- In ascending order. -/
def Sorted (q : List α) : Prop := q.Pairwise fun a b => lt a b = true

/-- The comparison is one of keys. -/
def Compares [LinearOrder κ] (key : α → κ) : Prop := ∀ a b, lt a b = true ↔ key a < key b

variable {lt}

theorem sorted_nil : Sorted lt [] := List.Pairwise.nil

theorem sorted_singleton (a : α) : Sorted lt [a] := List.pairwise_singleton ..

theorem Sorted.sublist {q q' : List α} (h : Sorted lt q) (hsub : q'.Sublist q) : Sorted lt q' :=
  List.Pairwise.sublist hsub h

/-- Elements that are compared as before. -/
theorem Sorted.congr {lt' : α → α → Bool} {q : List α} (h : Sorted lt q)
    (heq : ∀ a ∈ q, ∀ b ∈ q, lt' a b = lt a b) : Sorted lt' q :=
  List.Pairwise.imp_of_mem (fun ha hb hab => (heq _ ha _ hb).trans hab) h

theorem mem_of_mem_insert {a x : α} {q : List α} (h : x ∈ insert lt a q) : x = a ∨ x ∈ q := by
  induction q with
  | nil => exact .inl (List.mem_singleton.mp h)
  | cons b q ih =>
    unfold insert at h
    split at h
    · exact List.mem_cons.mp h
    · split at h
      · rcases List.mem_cons.mp h with rfl | h
        · exact .inr (List.mem_cons_self ..)
        · exact (ih h).imp_right (List.mem_cons_of_mem b)
      · exact .inr h

theorem mem_insert_of_mem {a x : α} {q : List α} (h : x ∈ q) : x ∈ insert lt a q := by
  induction q with
  | nil => cases h
  | cons b q ih =>
    unfold insert
    split
    · exact List.mem_cons_of_mem a h
    · split
      · rcases List.mem_cons.mp h with rfl | h
        · exact List.mem_cons_self ..
        · exact List.mem_cons_of_mem b (ih h)
      · exact h

theorem mem_of_mem_insertAll {as q : List α} {x : α} (h : x ∈ insertAll lt q as) : x ∈ q ∨ x ∈ as := by
  induction as generalizing q with
  | nil => exact .inl h
  | cons a as ih =>
    rcases ih h with h | h
    · rcases mem_of_mem_insert h with rfl | h
      · exact .inr (List.mem_cons_self ..)
      · exact .inl h
    · exact .inr (List.mem_cons_of_mem a h)

theorem mem_insertAll_of_mem {as q : List α} {x : α} (h : x ∈ q) : x ∈ insertAll lt q as := by
  induction as generalizing q with
  | nil => exact h
  | cons a as ih => exact ih (mem_insert_of_mem h)

section Keys

variable [LinearOrder κ] {key : α → κ}

theorem Sorted.nodup (hkey : Compares lt key) {q : List α} (h : Sorted lt q) : q.Nodup :=
  List.Pairwise.imp (fun {a b} hab heq => by
    have hlt := (hkey a b).mp hab
    rw [heq] at hlt
    exact lt_irrefl _ hlt) h

/-- **Insertion** keeps the order. -/
theorem sorted_insert (hkey : Compares lt key) {a : α} {q : List α} (h : Sorted lt q) :
    Sorted lt (insert lt a q) := by
  induction q with
  | nil => exact sorted_singleton a
  | cons b q ih =>
    obtain ⟨hb, hq⟩ := List.pairwise_cons.mp h
    unfold insert
    split
    · rename_i hab
      refine List.pairwise_cons.mpr ⟨fun c hc => ?_, h⟩
      rcases List.mem_cons.mp hc with rfl | hc
      · exact hab
      · exact (hkey a c).mpr (((hkey a b).mp hab).trans ((hkey b c).mp (hb c hc)))
    · split
      · rename_i hba
        refine List.pairwise_cons.mpr ⟨fun c hc => ?_, ih hq⟩
        rcases mem_of_mem_insert hc with rfl | hc
        · exact hba
        · exact hb c hc
      · exact h

theorem sorted_insertAll (hkey : Compares lt key) {as q : List α} (h : Sorted lt q) :
    Sorted lt (insertAll lt q as) := by
  induction as generalizing q with
  | nil => exact h
  | cons a as ih => exact ih (sorted_insert hkey h)

/-- The element is in the set afterwards, if no other one has its key. -/
theorem mem_insert_self (hkey : Compares lt key) {a : α} {q : List α} (hinj : ∀ b ∈ q, key b = key a → b = a) :
    a ∈ insert lt a q := by
  induction q with
  | nil => exact List.mem_cons_self ..
  | cons b q ih =>
    unfold insert
    split
    · exact List.mem_cons_self ..
    · rename_i hab
      split
      · exact List.mem_cons_of_mem b (ih fun c hc => hinj c (List.mem_cons_of_mem b hc))
      · rename_i hba
        -- neither is less than the other one
        have heq : key b = key a := by
          rw [hkey] at hab hba
          exact le_antisymm (not_lt.mp hab) (not_lt.mp hba)
        rw [hinj b (List.mem_cons_self ..) heq]
        exact List.mem_cons_self ..

/-- **All elements** are in the set afterwards, if keys are unique. -/
theorem mem_insertAll (hkey : Compares lt key) {as q : List α} {x : α}
    (hinj : ∀ a ∈ as, ∀ b, b ∈ q ∨ b ∈ as → key b = key a → b = a) :
    x ∈ insertAll lt q as ↔ x ∈ q ∨ x ∈ as := by
  refine ⟨mem_of_mem_insertAll, ?_⟩
  induction as generalizing q with
  | nil => exact fun h => h.elim id fun h => absurd h List.not_mem_nil
  | cons a as ih =>
    intro h
    show x ∈ insertAll lt (insert lt a q) as
    rcases h with h | h
    · exact mem_insertAll_of_mem (mem_insert_of_mem h)
    · rcases List.mem_cons.mp h with rfl | h
      · exact mem_insertAll_of_mem (mem_insert_self hkey fun b hb =>
          hinj x (List.mem_cons_self ..) b (.inl hb))
      · refine ih (fun c hc b hb heq => ?_) (.inr h)
        refine hinj c (List.mem_cons_of_mem a hc) b ?_ heq
        rcases hb with hb | hb
        · rcases mem_of_mem_insert hb with rfl | hb
          · exact .inr (List.mem_cons_self ..)
          · exact .inl hb
        · exact .inr (List.mem_cons_of_mem a hb)

end Keys

end SortedSet
