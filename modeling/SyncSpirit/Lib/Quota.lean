import Mathlib

/-!
# Taking elements until a quota is reached

Elements of a list are taken from its front as long as what has been taken is below a quota. The last one may
exceed it, no other one does.

`reachMod` does the same with a counter that wraps around. Both agree unless the last element takes the counter
around, to a value below the quota, and there is more to take (`reachMod_eq_reach_iff`).
-/

namespace Quota

variable {α : Type*} (size : α → Nat) {quota : Nat} {taken l : List α}

/-- The shortest part of the list that reaches the quota, the whole list if there is none. -/
def reach : Nat → List α → List α
  | _, [] => []
  | quota, x :: l => if quota = 0 then [] else x :: reach (quota - size x) l

/-- What is taken before an element is below the quota, and only then nothing else is taken if there is more. -/
structure Stops (quota : Nat) (taken l : List α) : Prop where
  isPrefix : taken <+: l
  below : ∀ before x after, taken = before ++ x :: after → (before.map size).sum < quota
  reached : quota ≤ (taken.map size).sum ∨ taken = l

theorem stops_reach : Stops size quota (reach size quota l) l := by
  induction l generalizing quota with
  | nil => exact ⟨List.prefix_rfl, fun before x after h => by simp [reach] at h, .inr rfl⟩
  | cons x l ih =>
    by_cases hquota : quota = 0
    · subst hquota
      exact ⟨by simp [reach], fun before x after h => by simp [reach] at h, .inl (Nat.zero_le _)⟩
    · obtain ⟨hpre, hbelow, hreached⟩ := @ih (quota - size x)
      have hreach : reach size quota (x :: l) = x :: reach size (quota - size x) l := by
        rw [reach, if_neg hquota]
      rw [hreach]
      refine ⟨List.cons_prefix_cons.mpr ⟨rfl, hpre⟩, fun before y after h => ?_, ?_⟩
      · cases before with
        | nil => exact Nat.pos_of_ne_zero hquota
        | cons z before =>
          obtain ⟨rfl, htail⟩ := List.cons.inj h
          have hlt := hbelow before y after htail
          rw [List.map_cons, List.sum_cons]
          omega
      · rcases hreached with hle | heq
        · refine .inl ?_
          rw [List.map_cons, List.sum_cons]
          omega
        · exact .inr (by rw [heq])

variable {size}

/-- A longer part that stops at the quota is the same one. -/
theorem Stops.eq_of_isPrefix {taken' : List α} (h : Stops size quota taken l) (h' : Stops size quota taken' l)
    (hle : taken <+: taken') : taken = taken' := by
  obtain ⟨rest, rfl⟩ := hle
  cases rest with
  | nil => rw [List.append_nil]
  | cons x rest =>
    have hlt := h'.below taken x rest rfl
    rcases h.reached with hreached | rfl
    · omega
    · have hlen := h'.isPrefix.length_le
      rw [List.length_append, List.length_cons] at hlen
      omega

/-- **There is one way to stop at the quota.** -/
theorem Stops.eq_reach (h : Stops size quota taken l) : taken = reach size quota l := by
  have hreach := @stops_reach α size quota l
  rcases List.prefix_or_prefix_of_prefix h.isPrefix hreach.isPrefix with hle | hle
  · exact h.eq_of_isPrefix hreach hle
  · exact (hreach.eq_of_isPrefix h hle).symm

/-! ## A counter that wraps around -/

variable (size) (m : Nat)

/-- Elements are taken as long as the counter, which counts modulo `m`, is below the quota. -/
def reachMod (quota : Nat) : Nat → List α → List α
  | _, [] => []
  | count, x :: l => if count < quota then x :: reachMod quota ((count + size x) % m) l else []

/-- Until the quota is reached, the counter does not wrap around. -/
theorem reachMod_eq (hquota : quota ≤ m) {count : Nat} (hcount : count < m) :
    reachMod size m quota count l = reach size (quota - count) l ++
      reachMod size m quota ((count + ((reach size (quota - count) l).map size).sum) % m)
        (l.drop (reach size (quota - count) l).length) := by
  induction l generalizing count with
  | nil => rfl
  | cons x l ih =>
    by_cases hlt : count < quota
    · have hreach : reach size (quota - count) (x :: l) = x :: reach size (quota - count - size x) l := by
        rw [reach, if_neg (by omega)]
      rw [hreach, reachMod, if_pos hlt, List.cons_append, List.map_cons, List.sum_cons, List.length_cons,
        List.drop_succ_cons]
      congr 1
      by_cases hwrap : count + size x < m
      · rw [ih (Nat.mod_lt _ (by omega)), Nat.mod_eq_of_lt hwrap, Nat.sub_sub, Nat.add_assoc]
      · have hzero : quota - count - size x = 0 := by omega
        rw [hzero]
        cases l <;> simp [reach, reachMod]
    · have hzero : quota - count = 0 := by omega
      rw [hzero]
      simp [reach, Nat.mod_eq_of_lt hcount]

theorem reachMod_eq_nil_iff {count : Nat} : reachMod size m quota count l = [] ↔ l = [] ∨ quota ≤ count := by
  cases l with
  | nil => simp [reachMod]
  | cons x l =>
    rw [reachMod]
    split <;> simp <;> omega

/-- **The counter stops at the quota** exactly when everything has been taken, or it has not wrapped around to a
value below the quota. -/
theorem reachMod_eq_reach_iff (hquota : quota < m) : reachMod size m quota 0 l = reach size quota l ↔
    reach size quota l = l ∨ quota ≤ ((reach size quota l).map size).sum % m := by
  rw [reachMod_eq size m hquota.le (by omega), Nat.sub_zero, Nat.zero_add, List.append_right_eq_self,
    reachMod_eq_nil_iff, List.drop_eq_nil_iff]
  have hpre := (@stops_reach α size quota l).isPrefix
  have hall : l.length ≤ (reach size quota l).length ↔ reach size quota l = l :=
    ⟨fun h => hpre.eq_of_length_le h, fun h => by rw [h]⟩
  rw [hall]

theorem reachMod_isPrefix {count : Nat} : reachMod size m quota count l <+: l := by
  induction l generalizing count with
  | nil => exact List.prefix_rfl
  | cons x l ih =>
    rw [reachMod]
    split
    · exact List.cons_prefix_cons.mpr ⟨rfl, ih⟩
    · exact List.nil_prefix

end Quota
