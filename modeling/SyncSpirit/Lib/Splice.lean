import Mathlib

/-!
# Writing pieces into a sequence

`splice` writes a piece at an offset, as a positioned write into a file does: it
overwrites what is there, extends the sequence where the piece reaches past its
end, and fills a gap in front of the piece with `z`.

A target sequence is put together by writing pieces of it. `Holds` says that the
written ranges agree with the target; it survives every further piece of the
target (`Holds.splice`), and once the written ranges cover the target, the result
is the target up to what was behind its end before (`eq_iff_of_cover`).
-/

namespace Splice

variable {β : Type*}

/-- Write `data` at `offset`. -/
def splice (z : β) (bs : List β) (offset : ℕ) (data : List β) : List β :=
  if data = [] then bs
  else (bs ++ List.replicate (offset - bs.length) z).take offset ++ data ++
    bs.drop (offset + data.length)

/-- The piece of `target` of the given length at the offset. -/
def slice (target : List β) (offset length : ℕ) : List β := (target.drop offset).take length

/-- A written range: its offset and its length. -/
abbrev Range := ℕ × ℕ

/-- The index is in one of the ranges. -/
def Covered (ws : List Range) (i : ℕ) : Prop := ∃ w ∈ ws, w.1 ≤ i ∧ i < w.1 + w.2

/-- All ranges are within the target, and there `bs` agrees with it. -/
def Holds (target bs : List β) (ws : List Range) : Prop :=
  (∀ w ∈ ws, w.1 + w.2 ≤ target.length) ∧ ∀ i, Covered ws i → bs[i]? = target[i]?

theorem length_splice {z : β} {bs data : List β} {offset : ℕ} (hd : data ≠ []) :
    (splice z bs offset data).length = max bs.length (offset + data.length) := by
  rw [splice, if_neg hd]
  simp only [List.length_append, List.length_take, List.length_replicate, List.length_drop]
  omega

theorem length_splice_le {z : β} {bs data : List β} {offset n : ℕ}
    (h : offset + data.length ≤ n) : (splice z bs offset data).length ≤ max bs.length n := by
  by_cases hd : data = []
  · rw [splice, if_pos hd]
    exact Nat.le_max_left ..
  · rw [length_splice hd]
    omega

theorem le_length_splice (z : β) (bs data : List β) (offset : ℕ) :
    bs.length ≤ (splice z bs offset data).length := by
  by_cases hd : data = []
  · exact Nat.le_of_eq (by rw [splice, if_pos hd])
  · rw [length_splice hd]
    exact Nat.le_max_left ..

/-- Inside the piece the data is read back. -/
theorem getElem?_splice_inside {z : β} {bs data : List β} {offset i : ℕ} (hlo : offset ≤ i)
    (hhi : i < offset + data.length) : (splice z bs offset data)[i]? = data[i - offset]? := by
  have hd : data ≠ [] := by
    rintro rfl
    simp at hhi
    omega
  have hlen : ((bs ++ List.replicate (offset - bs.length) z).take offset).length = offset := by
    simp only [List.length_take, List.length_append, List.length_replicate]
    omega
  rw [splice, if_neg hd, List.append_assoc, List.getElem?_append_right (by omega), hlen,
    List.getElem?_append_left (by omega)]

/-- Outside of the piece nothing changes. -/
theorem getElem?_splice_outside {z : β} {bs data : List β} {offset i : ℕ} (hi : i < bs.length)
    (hout : i < offset ∨ offset + data.length ≤ i) :
    (splice z bs offset data)[i]? = bs[i]? := by
  by_cases hd : data = []
  · rw [splice, if_pos hd]
  have hlen : ((bs ++ List.replicate (offset - bs.length) z).take offset).length = offset := by
    simp only [List.length_take, List.length_append, List.length_replicate]
    omega
  rw [splice, if_neg hd, List.append_assoc]
  rcases hout with hlt | hge
  · rw [List.getElem?_append_left (by omega), List.getElem?_take_of_lt hlt,
      List.getElem?_append_left hi]
  · rw [List.getElem?_append_right (by omega), hlen, List.getElem?_append_right (by omega),
      List.getElem?_drop]
    congr 1
    omega

theorem length_slice {target : List β} {offset length : ℕ}
    (h : offset + length ≤ target.length) : (slice target offset length).length = length := by
  rw [slice, List.length_take, List.length_drop]
  omega

theorem getElem?_slice {target : List β} {offset length i : ℕ} (hi : i < length) :
    (slice target offset length)[i]? = target[offset + i]? := by
  rw [slice, List.getElem?_take_of_lt hi, List.getElem?_drop]

/-- **Another piece of the target** is added to what has been written. -/
theorem Holds.splice {target bs : List β} {ws : List Range} (h : Holds target bs ws) (z : β)
    {offset length : ℕ} (hle : offset + length ≤ target.length) :
    Holds target (splice z bs offset (slice target offset length)) (ws ++ [(offset, length)]) := by
  have hlen := length_slice hle
  refine ⟨fun w hw => ?_, fun i hi => ?_⟩
  · rcases List.mem_append.mp hw with hw | hw
    · exact h.1 w hw
    · rw [List.mem_singleton.mp hw]
      exact hle
  · by_cases hin : offset ≤ i ∧ i < offset + length
    · rw [getElem?_splice_inside hin.1 (by omega), getElem?_slice (by omega)]
      congr 1
      omega
    · -- an index of an older range: it exists already
      obtain ⟨w, hw, hlo, hhi⟩ := hi
      rcases List.mem_append.mp hw with hw | hw
      · have hold := h.2 i ⟨w, hw, hlo, hhi⟩
        have hit : i < target.length := Nat.lt_of_lt_of_le hhi (h.1 w hw)
        have hib : i < bs.length := by
          rw [List.getElem?_eq_getElem hit] at hold
          exact (List.getElem?_eq_some_iff.mp hold).1
        rw [getElem?_splice_outside hib (by omega), hold]
      · rw [List.mem_singleton.mp hw] at hlo hhi
        exact absurd ⟨hlo, hhi⟩ hin

/-- **Everything written**: once the ranges cover the target, the result is the
target iff it has no bytes behind its end. -/
theorem Holds.eq_iff_of_cover {target bs : List β} {ws : List Range} (h : Holds target bs ws)
    (hcover : ∀ i < target.length, Covered ws i) :
    bs = target ↔ bs.length ≤ target.length := by
  constructor
  · rintro rfl
    exact Nat.le_refl _
  · intro hle
    refine List.ext_getElem? fun i => ?_
    by_cases hi : i < target.length
    · exact h.2 i (hcover i hi)
    · rw [List.getElem?_eq_none (by omega), List.getElem?_eq_none (by omega)]

end Splice
