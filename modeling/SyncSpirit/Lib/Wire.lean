import Mathlib

/-!
# Numbers on the wire

Unsigned numbers of a fixed width in network byte order, inside a buffer of bytes.

- `encode`, `decode`: a number as bytes, most significant first;
- `number`, `read`: the number at an offset, for `read` `none` if it is not wholly inside
  the buffer;
- `slice`: a part of the buffer, `none` if it is not wholly inside;
- `resize`: the buffer cut, or filled up with zeros, to a size.
-/

namespace Wire

/-- The low `width` bytes of a number. -/
def encode : Nat → Nat → List UInt8
  | 0, _ => []
  | width + 1, v => UInt8.ofNat (v / 256 ^ width) :: encode width v

/-- The number that the bytes stand for. -/
def decode : List UInt8 → Nat
  | [] => 0
  | b :: bs => b.toNat * 256 ^ bs.length + decode bs

/-- The number of `width` bytes at an offset. -/
def number (buf : List UInt8) (off width : Nat) : Nat := decode ((buf.drop off).take width)

/-- The number, if it is there. -/
def read (width : Nat) (buf : List UInt8) (off : Nat) : Option Nat :=
  if off + width ≤ buf.length then some (number buf off width) else none

/-- `len` bytes from an offset on. -/
def slice (buf : List UInt8) (off len : Nat) : Option (List UInt8) :=
  if off + len ≤ buf.length then some ((buf.drop off).take len) else none

/-- The buffer as one of the given size. -/
def resize (buf : List UInt8) (size : Nat) : List UInt8 := (buf ++ List.replicate size 0).take size

@[simp] theorem length_resize (buf : List UInt8) (size : Nat) : (resize buf size).length = size := by
  simp only [resize, List.length_take, List.length_append, List.length_replicate]
  omega

theorem resize_length (buf : List UInt8) : resize buf buf.length = buf := List.take_left

@[simp] theorem length_encode (width v : Nat) : (encode width v).length = width := by
  induction width with
  | zero => rfl
  | succ width ih => exact congrArg (· + 1) ih

/-- A number comes back without what does not fit. -/
theorem decode_encode (width v : Nat) : decode (encode width v) = v % 256 ^ width := by
  induction width with
  | zero => simp [encode, decode, Nat.mod_one]
  | succ width ih =>
    have hbyte : (UInt8.ofNat (v / 256 ^ width)).toNat = v / 256 ^ width % 256 := UInt8.toNat_ofNat'
    rw [encode, decode, ih, length_encode, hbyte, Nat.pow_succ, Nat.mod_mul, Nat.mul_comm, Nat.add_comm]

/-- What does not fit does not matter. -/
theorem encode_add_mul (width a v : Nat) : encode width (a * 256 ^ width + v) = encode width v := by
  induction width generalizing a with
  | zero => rfl
  | succ width ih =>
    have hsplit : a * 256 ^ (width + 1) + v = a * 256 * 256 ^ width + v := by rw [Nat.pow_succ]; ring
    have hbyte : UInt8.ofNat (a * 256 + v / 256 ^ width) = UInt8.ofNat (v / 256 ^ width) := by
      rw [← UInt8.toNat_inj, UInt8.toNat_ofNat', UInt8.toNat_ofNat']
      omega
    rw [encode, encode, hsplit, ih, Nat.add_comm, Nat.add_mul_div_right _ _ (Nat.pow_pos (by omega)), Nat.add_comm, hbyte]

/-- The bytes come back from their number. -/
theorem encode_decode (bs : List UInt8) : encode bs.length (decode bs) = bs := by
  induction bs with
  | nil => rfl
  | cons b bs ih =>
    have hlt : decode bs < 256 ^ bs.length := by
      rw [← ih, decode_encode, length_encode]
      exact Nat.mod_lt _ (Nat.pow_pos (by omega))
    have hbyte : (b.toNat * 256 ^ bs.length + decode bs) / 256 ^ bs.length = b.toNat := by
      rw [Nat.add_comm, Nat.add_mul_div_right _ _ (Nat.pow_pos (by omega)), Nat.div_eq_of_lt hlt, Nat.zero_add]
    rw [decode, List.length_cons, encode, hbyte, encode_add_mul, ih, UInt8.ofNat_toNat]

theorem decode_encode_of_lt {width v : Nat} (h : v < 256 ^ width) : decode (encode width v) = v := by
  rw [decode_encode, Nat.mod_eq_of_lt h]

section Bounds

variable {buf : List UInt8} {off len : Nat}

theorem read_of_le (h : off + len ≤ buf.length) : read len buf off = some (number buf off len) :=
  if_pos h

theorem read_of_lt (h : buf.length < off + len) : read len buf off = none :=
  if_neg (Nat.not_le.mpr h)

theorem slice_of_le (h : off + len ≤ buf.length) : slice buf off len = some ((buf.drop off).take len) :=
  if_pos h

theorem slice_of_lt (h : buf.length < off + len) : slice buf off len = none :=
  if_neg (Nat.not_le.mpr h)

end Bounds

/-- What is read does not depend on what follows. -/
theorem take_drop_cut {p q : List UInt8} (hp : p <+: q) {off len : Nat} (h : off + len ≤ p.length) :
    (p.drop off).take len = (q.drop off).take len := by
  obtain ⟨t, rfl⟩ := hp
  rw [List.drop_append_of_le_length (by omega),
    List.take_append_of_le_length (by simp only [List.length_drop]; omega)]

theorem number_cut {p q : List UInt8} (hp : p <+: q) {off width : Nat}
    (h : off + width ≤ p.length) : number p off width = number q off width :=
  congrArg decode (take_drop_cut hp h)

/-- A number that has been written behind some other bytes. -/
theorem number_append {width v off : Nat} {before after : List UInt8} (hv : v < 256 ^ width)
    (hoff : before.length = off) : number (before ++ encode width v ++ after) off width = v := by
  rw [number, List.append_assoc, List.drop_left' hoff, List.take_left' (length_encode width v),
    decode_encode_of_lt hv]

end Wire
