import Mathlib

/-!
# Numbers from their digits

`value b` is the number with the given digits, the most significant one first. It is `Nat.ofDigits` of
the reversed list.
-/

namespace Radix

/-- The number with these digits. -/
def value (b : Nat) (digits : List Nat) : Nat := Nat.ofDigits b digits.reverse

variable {b : Nat} {l m : List Nat} {d : Nat}

@[simp] theorem value_nil (b : Nat) : value b [] = 0 := rfl

@[simp] theorem value_singleton (b d : Nat) : value b [d] = d := Nat.ofDigits_singleton

theorem value_append (b : Nat) (l m : List Nat) : value b (l ++ m) = value b l * b ^ m.length + value b m := by
  rw [value, List.reverse_append, Nat.ofDigits_append, List.length_reverse, Nat.add_comm, Nat.mul_comm]
  rfl

theorem value_cons (b d : Nat) (l : List Nat) : value b (d :: l) = d * b ^ l.length + value b l := by
  rw [← List.singleton_append, value_append, value_singleton]

theorem value_concat (b : Nat) (l : List Nat) (d : Nat) : value b (l ++ [d]) = value b l * b + d := by
  rw [value_append, value_singleton, List.length_singleton, pow_one]

theorem value_lt (hb : 1 < b) (hl : ∀ d ∈ l, d < b) : value b l < b ^ l.length := by
  rw [← List.length_reverse]
  exact Nat.ofDigits_lt_base_pow_length hb fun d hd => hl d (List.mem_reverse.mp hd)

/-- **The digits are determined** by the number and how many there are. -/
theorem value_injective (hb : 1 < b) (hlength : l.length = m.length) (hl : ∀ d ∈ l, d < b) (hm : ∀ d ∈ m, d < b)
    (h : value b l = value b m) : l = m := by
  refine List.reverse_injective (Nat.ofDigits_inj_of_len_eq hb ?_ ?_ ?_ h)
  · rw [List.length_reverse, List.length_reverse, hlength]
  · exact fun d hd => hl d (List.mem_reverse.mp hd)
  · exact fun d hd => hm d (List.mem_reverse.mp hd)

/-- The first digits are the number without its last ones. -/
theorem value_take (hb : 1 < b) (hl : ∀ d ∈ l, d < b) (k : Nat) :
    value b (l.take k) = value b l / b ^ (l.length - k) := by
  have hdrop : value b (l.drop k) < b ^ (l.length - k) := by
    rw [← List.length_drop]
    exact value_lt hb fun d hd => hl d (List.mem_of_mem_drop hd)
  have hsplit : value b l = value b (l.take k) * b ^ (l.length - k) + value b (l.drop k) := by
    rw [← List.length_drop, ← value_append, List.take_append_drop]
  rw [hsplit, Nat.add_comm, Nat.add_mul_div_right _ _ (Nat.pow_pos (Nat.zero_lt_of_lt hb)), Nat.div_eq_of_lt hdrop,
    Nat.zero_add]

end Radix
