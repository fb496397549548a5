import Mathlib

/-!
# Cutting a range into pieces

`cut n b` are the pieces of `b` elements of the range up to `n`; the last one has what is left.
There are `n ⌈/⌉ b` of them, none is empty, and each element is in exactly one (`countP_cut`).
-/

namespace Cut

/-- A piece with its number. -/
structure Piece where
  index : Int
  offset : Int
  size : Int
  deriving DecidableEq, Repr

/-- The piece is about this element. -/
def Piece.Covers (p : Piece) (x : Int) : Prop := p.offset ≤ x ∧ x < p.offset + p.size

instance (p : Piece) (x : Int) : Decidable (p.Covers x) := inferInstanceAs (Decidable (_ ∧ _))

/-- The piece with this number. -/
def piece (n b i : Nat) : Piece := ⟨i, b * i, min b (n - b * i)⟩

def cut (n b : Nat) : List Piece := (List.range (n ⌈/⌉ b)).map (piece n b)

variable {n b k i : Nat}

theorem ceilDiv_eq (hb : 0 < b) : n ⌈/⌉ b = n / b + if n % b = 0 then 0 else 1 := by
  rw [Nat.ceilDiv_eq_add_pred_div]
  have hdiv := Nat.div_add_mod' n b
  have hlt := Nat.mod_lt n hb
  split
  · next h0 =>
    refine Nat.div_eq_of_lt_le ?_ ?_
    · rw [Nat.add_zero]
      omega
    · rw [Nat.add_zero, Nat.add_mul]
      omega
  · next h0 =>
    refine Nat.div_eq_of_lt_le ?_ ?_
    · rw [Nat.add_mul]
      omega
    · rw [Nat.add_mul, Nat.add_mul]
      omega

/-- The piece with this number starts within the range. -/
theorem start_lt (hb : 0 < b) (hi : i < n ⌈/⌉ b) : b * i < n := by
  rw [← Nat.not_le] at hi ⊢
  exact fun h => hi ((ceilDiv_le_iff_le_mul hb).mpr h)

theorem length_cut : (cut n b).length = n ⌈/⌉ b := by rw [cut, List.length_map, List.length_range]

theorem take_cut (h : k ≤ n ⌈/⌉ b) : (cut n b).take k = (List.range k).map (piece n b) := by
  rw [cut, ← List.map_take, List.take_range, Nat.min_eq_left h]

/-- All pieces but the last one have the full size, and the last one is not empty. -/
theorem size_piece (hb : 0 < b) (hi : i < n ⌈/⌉ b) :
    0 < (piece n b i).size ∧ (piece n b i).size ≤ b ∧ (i + 1 < n ⌈/⌉ b → (piece n b i).size = b) := by
  have hstart : (b * i : Int) < n := by exact_mod_cast start_lt hb hi
  refine ⟨?_, min_le_left .., fun hi' => ?_⟩
  · show 0 < min (b : Int) (n - b * i)
    omega
  · have hnext : (b * (i + 1) : Int) < n := by exact_mod_cast start_lt hb hi'
    show min (b : Int) (n - b * i) = b
    rw [Int.mul_add] at hnext
    omega

/-- **Each element is in exactly one piece.** -/
theorem countP_cut (hb : 0 < b) {x : Nat} (hx : x < n) : (cut n b).countP (fun p => p.Covers x) = 1 := by
  have hdiv := Nat.div_add_mod x b
  have hmod := Nat.mod_lt x hb
  have hmem : x / b < n ⌈/⌉ b := by
    rw [← Nat.not_le, ceilDiv_le_iff_le_mul hb]
    omega
  have hcovers : ∀ i ∈ List.range (n ⌈/⌉ b), (decide ((piece n b i).Covers x) = true ↔ decide (i = x / b) = true) := by
    intro i hi
    have hstart : (b * i : Int) < n := by exact_mod_cast start_lt hb (List.mem_range.mp hi)
    rw [decide_eq_true_iff, decide_eq_true_iff]
    constructor
    · rintro ⟨hlo, hhi⟩
      change (b * i : Int) ≤ x at hlo
      change (x : Int) < b * i + min (b : Int) (n - b * i) at hhi
      refine (Nat.div_eq_of_lt_le ?_ ?_).symm
      · rw [Nat.mul_comm]
        exact_mod_cast hlo
      · rw [Nat.mul_comm, Nat.mul_add, Nat.mul_one]
        omega
    · rintro rfl
      have hint : (b * (x / b : Nat) : Int) + (x % b : Nat) = x := by exact_mod_cast hdiv
      constructor
      · show (b * (x / b : Nat) : Int) ≤ x
        omega
      · show (x : Int) < b * (x / b : Nat) + min (b : Int) (n - b * (x / b : Nat))
        omega
  rw [cut, List.countP_map]
  show (List.range _).countP (fun i => decide ((piece n b i).Covers x)) = 1
  rw [List.countP_congr hcovers]
  have hcount : (List.range (n ⌈/⌉ b)).count (x / b) = 1 :=
    List.count_eq_one_of_mem List.nodup_range (List.mem_range.mpr hmem)
  rw [← hcount, List.count]
  congr 1

end Cut
