import SyncSpirit.CanonicalIds

/-!
# Base32 with its counters (`utils/base32.cpp`)

`encode` writes its letters into a buffer at `out_index` and cuts the buffer there in the end, `decode` counts the
letters with `in_idx` until there are as many as the text has. Both counters have 32 bits, the sizes they stand for
do not. As long as there are less than 2^32 letters they are `Base32.encode` and `Base32.decode`.

- `length_encode`: the text is as long as the counter says;
- `survives_iff`: bytes survive exactly if their letters can be counted.
-/

namespace SyncSpirit

namespace Base32

open DeviceText (letter_mem bytes_injective)

namespace Counted

/-- `std::string::resize`. -/
def resize (encoded : List UInt8) (size : Nat) : List UInt8 :=
  encoded.take size ++ List.replicate (size - encoded.length) 0

/-- The loop of `encode`, at most so many rounds. -/
def encodeLoop : Nat → Encoder → UInt32 → List UInt8 → Option (List UInt8)
  | rounds, e, outIndex, encoded =>
    if e.rest = [] ∧ e.inBits ≤ 0 then some (resize encoded outIndex.toNat)
    else
      match rounds with
      | 0 => none
      | rounds + 1 =>
        -- a write behind the end of the buffer is `none`; a counter that starts again overwrites the first letters
        if outIndex.toNat < encoded.length then
          encodeLoop rounds e.next (outIndex + 1)
            (encoded.set outIndex.toNat (letter ((e.window &&& 31 <<< 11) >>> 11)))
        else none

def encode (input : List UInt8) : Option (List UInt8) :=
  encodeLoop (encodedSize input.length) (Encoder.pullIn (Encoder.pullIn ⟨0, 0, 0, input⟩)) 0
    (List.replicate (encodedSize input.length) 0)

/-- `push_out`, with `out`, `out_bits` and the bytes written. A write behind the end is `none`. -/
def pushOut (size out outBits : Nat) (decoded : List UInt8) : Option (Nat × Nat × List UInt8) :=
  if 8 ≤ outBits then
    let shift := outBits - 8
    if decoded.length < size then
      some (out &&& (1 <<< shift - 1), shift, decoded ++ [((out &&& 255 <<< shift) >>> shift).toUInt8])
    else none
  else some (out, outBits, decoded)

/-- The loop of `decode`. A read behind the end of the text is `none`. -/
def decodeLoop (size inputSize : Nat) :
    List UInt8 → UInt32 → Nat → Nat → List UInt8 → Option (Option (List UInt8))
  | [], _, _, _, _ => none
  | c :: input, inIdx, out, outBits, decoded =>
    match outAlphabet[signedIndex c]? with
    | none => none
    | some quartet =>
      if quartet = -1 then some none
      else
        match pushOut size (out <<< 5 ||| quartet.toNat) (outBits + 5) decoded with
        | none => none
        | some (out, outBits, decoded) =>
          if (inIdx + 1).toNat = inputSize then some (some decoded)
          else decodeLoop size inputSize input (inIdx + 1) out outBits decoded

def decode (input : List UInt8) : Option (Option (List UInt8)) :=
  (decodeLoop (decodedSize input.length) input.length input 0 0 0 []).map fun result =>
    result.map fun decoded => decoded ++ List.replicate (decodedSize input.length - decoded.length) 0

variable {e : Encoder} {rounds size inputSize out outBits : Nat} {outIndex inIdx : UInt32}
  {input encoded decoded letters : List UInt8}

theorem toNat_succ (i : UInt32) : (i + 1).toNat = (i.toNat + 1) % 2 ^ 32 := by
  rw [UInt32.toNat_add]
  rfl

/-! ## `encode` -/

theorem encodeLoop_end (hend : e.rest = [] ∧ e.inBits ≤ 0) (hfits : outIndex.toNat ≤ encoded.length) :
    encodeLoop rounds e outIndex encoded = some (encoded.take outIndex.toNat) := by
  have hresize : resize encoded outIndex.toNat = encoded.take outIndex.toNat := by
    rw [resize, Nat.sub_eq_zero_of_le hfits, List.replicate_zero, List.append_nil]
  cases rounds with
  | zero => rw [encodeLoop, if_pos hend, hresize]
  | succ rounds => rw [encodeLoop, if_pos hend, hresize]

/-- A letter is put behind the others. -/
theorem take_set {n : Nat} {c : UInt8} (hn : n < encoded.length) :
    (encoded.set n c).take (n + 1) = encoded.take n ++ [c] := by
  rw [List.take_succ_eq_append_getElem (by rwa [List.length_set]), List.take_set_of_le (Nat.le_refl n),
    List.getElem_set_self]

/-- **The loop of `encode`** writes as many letters as there are, and counts them modulo 2^32. -/
theorem encodeLoop_spec (hloop : Base32.encodeLoop rounds e = some letters)
    (hfits : outIndex.toNat + letters.length ≤ encoded.length) :
    ∃ text, encodeLoop rounds e outIndex encoded = some text ∧
      text.length = (outIndex.toNat + letters.length) % 2 ^ 32 ∧
      (outIndex.toNat + letters.length < 2 ^ 32 → text = encoded.take outIndex.toNat ++ letters) := by
  induction rounds generalizing e outIndex encoded letters with
  | zero =>
    have hend : e.rest = [] ∧ e.inBits ≤ 0 := by
      by_contra hend
      rw [Base32.encodeLoop, if_neg hend] at hloop
      cases hloop
    rw [encodeLoop_stop hend.1 hend.2, Option.some.injEq] at hloop
    subst hloop
    exact ⟨_, encodeLoop_end hend (by simpa using hfits), by simpa using hfits, fun _ => by simp⟩
  | succ rounds ih =>
    by_cases hend : e.rest = [] ∧ e.inBits ≤ 0
    · rw [encodeLoop_stop hend.1 hend.2, Option.some.injEq] at hloop
      subst hloop
      exact ⟨_, encodeLoop_end hend (by simpa using hfits), by simpa using hfits, fun _ => by simp⟩
    · rw [Base32.encodeLoop, if_neg hend] at hloop
      obtain ⟨rest, hrest, rfl⟩ := Option.map_eq_some_iff.mp hloop
      rw [List.length_cons] at hfits
      have hindex : outIndex.toNat < encoded.length := by omega
      have hnext := toNat_succ outIndex
      have hlt := outIndex.toNat_lt
      have hfits' : (outIndex + 1).toNat + rest.length ≤
          (encoded.set outIndex.toNat (letter ((e.window &&& 31 <<< 11) >>> 11))).length := by
        rw [List.length_set]
        omega
      obtain ⟨text, htext, hlength, hvalue⟩ := ih hrest hfits'
      refine ⟨text, ?_, ?_, fun hcount => ?_⟩
      · rw [encodeLoop, if_neg hend, if_pos hindex, htext]
      · rw [hlength, List.length_cons]
        omega
      · -- below 2^32 the counter does not start again
        rw [List.length_cons] at hcount
        rw [Nat.mod_eq_of_lt (by omega)] at hnext
        rw [hvalue (by omega), hnext, take_set hindex, List.append_assoc]
        rfl

/-- `encode` writes all letters, and cuts the text at their number modulo 2^32. -/
theorem encode_spec (input : List UInt8) : ∃ codes pad text, Base32.encode input = some (codes.map letter) ∧
    (∀ c ∈ codes, c < 32) ∧ pad < 5 ∧ 5 * codes.length = 8 * input.length + pad ∧
    Radix.value 32 codes = Radix.value 256 (input.map UInt8.toNat) * 2 ^ pad ∧
    encode input = some text ∧ text.length = codes.length % 2 ^ 32 ∧
    (codes.length < 2 ^ 32 → text = codes.map letter) := by
  obtain ⟨codes, pad, hencode, hcodes, hpad, hcount, hnumber⟩ := Base32.encode_spec input
  have hfits : (0 : UInt32).toNat + (codes.map letter).length ≤
      (List.replicate (encodedSize input.length) (0 : UInt8)).length := by
    rw [List.length_map, List.length_replicate, encodedSize, UInt32.toNat_zero]
    omega
  obtain ⟨text, htext, hlength, hvalue⟩ := encodeLoop_spec hencode hfits
  rw [List.length_map, UInt32.toNat_zero, Nat.zero_add] at hlength hvalue
  rw [List.take_zero, List.nil_append] at hvalue
  exact ⟨codes, pad, text, hencode, hcodes, hpad, hcount, hnumber, htext, hlength, hvalue⟩

/-! ## `decode` -/

/-- One letter of `Base32.decodeLoop`. -/
theorem decodeLoop_cons (size : Nat) (c : UInt8) (input : List UInt8) (out outBits : Nat) (decoded : List UInt8) :
    Base32.decodeLoop size (c :: input) out outBits decoded =
      match outAlphabet[signedIndex c]? with
      | none => none
      | some quartet =>
        if quartet = -1 then some none
        else
          match pushOut size (out <<< 5 ||| quartet.toNat) (outBits + 5) decoded with
          | none => none
          | some (out, outBits, decoded) => Base32.decodeLoop size input out outBits decoded := by
  rw [Base32.decodeLoop]
  cases outAlphabet[signedIndex c]? with
  | none => rfl
  | some quartet =>
    dsimp only
    by_cases hquartet : quartet = -1
    · rw [if_pos hquartet, if_pos hquartet]
    · rw [if_neg hquartet, if_neg hquartet, pushOut]
      by_cases hbits : 8 ≤ outBits + 5
      · rw [if_pos hbits, if_pos hbits]
        dsimp only
        by_cases hsize : decoded.length < size
        · rw [if_pos hsize, if_pos hsize]
        · rw [if_neg hsize, if_neg hsize]
      · rw [if_neg hbits, if_neg hbits]

/-- **The loop of `decode`** ends with the text if its letters can be counted. -/
theorem decodeLoop_eq (hne : input ≠ []) (hcount : inIdx.toNat + input.length = inputSize)
    (hsize : inputSize < 2 ^ 32) :
    decodeLoop size inputSize input inIdx out outBits decoded =
      Base32.decodeLoop size input out outBits decoded := by
  induction input generalizing inIdx out outBits decoded with
  | nil => exact absurd rfl hne
  | cons c input ih =>
    rw [List.length_cons] at hcount
    have hnext : (inIdx + 1).toNat = inIdx.toNat + 1 := by
      rw [toNat_succ]
      exact Nat.mod_eq_of_lt (by omega)
    rw [decodeLoop, decodeLoop_cons]
    cases outAlphabet[signedIndex c]? with
    | none => rfl
    | some quartet =>
      dsimp only
      by_cases hquartet : quartet = -1
      · rw [if_pos hquartet, if_pos hquartet]
      · rw [if_neg hquartet, if_neg hquartet]
        cases pushOut size (out <<< 5 ||| quartet.toNat) (outBits + 5) decoded with
        | none => rfl
        | some pushed =>
          obtain ⟨out', outBits', decoded'⟩ := pushed
          dsimp only
          cases input with
          | nil =>
            rw [List.length_nil] at hcount
            rw [if_pos (by omega), Base32.decodeLoop]
          | cons c' input =>
            rw [List.length_cons] at hcount
            rw [if_neg (by omega)]
            exact ih (by simp) (by rw [List.length_cons]; omega)

theorem decode_eq (hsize : input.length < 2 ^ 32) : decode input = Base32.decode input := by
  cases input with
  | nil => rfl
  | cons c input =>
    rw [decode, Base32.decode, if_neg (by simp)]
    rw [decodeLoop_eq (by simp) (by rw [UInt32.toNat_zero, Nat.zero_add]) hsize]

/-! ## The round trip -/

/-- The letters of bytes: as many as needed, from the alphabet, and the bytes can be read from them. -/
def Survives (input : List UInt8) : Prop :=
  ∃ text, encode input = some text ∧ text.length = (8 * input.length + 4) / 5 ∧ (∀ c ∈ text, c ∈ inAlphabet) ∧
    decode text = some (some input)

theorem length_encode {text : List UInt8} (hencode : encode input = some text) :
    text.length = (8 * input.length + 4) / 5 % 2 ^ 32 := by
  obtain ⟨codes, pad, text', -, -, hpad, hcount, -, htext, hlength, -⟩ := encode_spec input
  obtain rfl : text' = text := Option.some.inj (htext.symm.trans hencode)
  rw [hlength, show codes.length = (8 * input.length + 4) / 5 by omega]

/-- **Bytes survive** the way to letters and back exactly if their letters can be counted. -/
theorem survives_iff (input : List UInt8) (hne : input ≠ []) :
    Survives input ↔ (8 * input.length + 4) / 5 < 2 ^ 32 := by
  constructor
  · rintro ⟨text, hencode, hlength, -⟩
    have := length_encode hencode
    omega
  · intro hsmall
    obtain ⟨codes, pad, text, -, hcodes, hpad, hcount, hnumber, hencode, -, htext⟩ := encode_spec input
    have hpos := List.length_pos_iff.mpr hne
    obtain rfl := htext (by omega)
    refine ⟨codes.map letter, hencode, by rw [List.length_map]; omega,
      List.forall_mem_map.mpr fun c hc => letter_mem c (hcodes c hc), ?_⟩
    obtain ⟨bytes, hdecode, hbytes, hvalue⟩ := decode_spec (List.ne_nil_of_length_pos (by omega)) hcodes
    have hpad' : codes.length * 5 % 8 = pad := by omega
    rw [hnumber, hpad', Nat.mul_div_cancel _ (Nat.two_pow_pos _)] at hvalue
    rw [decode_eq (by rw [List.length_map]; omega), hdecode, bytes_injective (by omega) hvalue]

/-- Text that the tests have: the bytes of "foo-b". -/
theorem survives_of_five_bytes : Survives [102, 111, 111, 45, 98] :=
  (survives_iff [102, 111, 111, 45, 98] (by decide)).mpr (by decide)

/-- There are 2^32 letters, and `encode` cuts the text at no letter. -/
theorem uncountable_letters : ¬ ∀ input : List UInt8, input ≠ [] → Survives input := by
  intro h
  have hlength : (List.replicate 2684354560 (0 : UInt8)).length = 2684354560 := List.length_replicate
  obtain ⟨text, hencode, htext, -⟩ :=
    h (List.replicate 2684354560 0) (List.ne_nil_of_length_pos (by rw [hlength]; decide))
  have hcut := length_encode hencode
  rw [hlength] at htext hcut
  omega

end Counted

end Base32

end SyncSpirit
