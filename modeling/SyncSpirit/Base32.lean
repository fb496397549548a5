import SyncSpirit.Lib.Radix

/-!
# Base32 (`utils/base32.cpp`)

`encode` takes five bits at a time from the top of a window of 16 bits, `decode` collects the codes of the
letters and writes a byte as soon as there are eight bits. What they mean is said with numbers: the letters
of `encode` are the digits to the base 32 of the bytes, followed by as many zero bits as are missing, and
`decode` drops what does not fill a byte.

A letter is a byte. A write behind the end of the output and a read behind the end of a table are `none`.
-/

namespace SyncSpirit

namespace Base32

/-- `in_alphabet`. -/
def inAlphabet : List UInt8 :=
  ['A', 'B', 'C', 'D', 'E', 'F', 'G', 'H', 'I', 'J', 'K', 'L', 'M', 'N', 'O', 'P',
    'Q', 'R', 'S', 'T', 'U', 'V', 'W', 'X', 'Y', 'Z', '2', '3', '4', '5', '6', '7'].map fun c => c.toNat.toUInt8

/-- `out_alphabet`. The table has 255 entries. -/
def outAlphabet : List Int :=
  List.replicate 50 (-1) ++ (List.range 6).map (fun i => (i : Int) + 26) ++ List.replicate 9 (-1) ++
    (List.range 26).map (fun i => (i : Int)) ++ List.replicate 164 (-1)

/-- `in_alphabet[index]`. -/
def letter (index : Nat) : UInt8 := inAlphabet.getD index 0

/-! ## `encode` -/

/-- The variables of `encode`. -/
structure Encoder where
  window : Nat
  inBits : Int
  signBits : Int
  rest : List UInt8

/-- `pull_in`. -/
def Encoder.pullIn (e : Encoder) : Encoder :=
  match e.rest with
  | [] => { e with signBits := e.signBits + 8 }
  | b :: rest => ⟨e.window ||| b.toNat <<< (16 - (e.inBits + 8)).toNat, e.inBits + 8, e.signBits + 8, rest⟩

/-- One letter has been taken. -/
def Encoder.next (e : Encoder) : Encoder :=
  let e' : Encoder := ⟨(e.window <<< 5) &&& 65534, e.inBits - 5, e.signBits - 5, e.rest⟩
  if e'.signBits ≤ 8 ∧ e'.rest ≠ [] then e'.pullIn else e'

/-- The loop of `encode`, with the letters that still fit. -/
def encodeLoop : Nat → Encoder → Option (List UInt8)
  | fits, e =>
    if e.rest = [] ∧ e.inBits ≤ 0 then some []
    else
      match fits with
      | 0 => none
      | fits + 1 => (encodeLoop fits e.next).map (letter ((e.window &&& 31 <<< 11) >>> 11) :: ·)

/-- `encoded_size`. -/
def encodedSize (size : Nat) : Nat := (size + 4) / 5 * 8

def encode (input : List UInt8) : Option (List UInt8) :=
  encodeLoop (encodedSize input.length) (Encoder.pullIn (Encoder.pullIn ⟨0, 0, 0, input⟩))

/-! ## What `encode` writes -/

section Encode

variable {e : Encoder} {v k fits : Nat}

/-- The index is the first five bits of the window. -/
theorem window_index {window : Nat} (h : window < 2 ^ 16) : (window &&& 31 <<< 11) >>> 11 = window / 2 ^ 11 := by
  have hmask : (31 <<< 11) >>> 11 = 2 ^ 5 - 1 := by decide
  rw [Nat.shiftRight_and_distrib, hmask, Nat.and_two_pow_sub_one_eq_mod, Nat.shiftRight_eq_div_pow]
  exact Nat.mod_eq_of_lt (by omega)

/-- They leave the window. -/
theorem window_next (window : Nat) : (window <<< 5) &&& 65534 = window * 2 ^ 5 % 2 ^ 16 := by
  have hmask : 65534 = (2 ^ 15 - 1) <<< 1 := by decide
  have hshift : window <<< 5 = (window <<< 4) <<< 1 := by rw [← Nat.shiftLeft_add]
  rw [hmask, hshift, ← Nat.shiftLeft_and_distrib, Nat.and_two_pow_sub_one_eq_mod, Nat.shiftLeft_eq, Nat.shiftLeft_eq]
  omega

/-- The next byte comes behind the bits that are there. -/
theorem window_or {v k : Nat} (hk : k ≤ 8) (b : UInt8) :
    v * 2 ^ (16 - k) ||| b.toNat <<< (16 - (k + 8)) = (v * 256 + b.toNat) * 2 ^ (16 - (k + 8)) := by
  have hbyte : b.toNat <<< (16 - (k + 8)) < 2 ^ (16 - k) := by
    have hsplit : 2 ^ (16 - k) = 256 * 2 ^ (16 - (k + 8)) := by
      rw [show 16 - k = 8 + (16 - (k + 8)) by omega, Nat.pow_add]
    rw [Nat.shiftLeft_eq, hsplit]
    exact Nat.mul_lt_mul_of_pos_right b.toNat_lt (Nat.two_pow_pos _)
  rw [Nat.mul_comm, ← Nat.two_pow_add_eq_or_of_lt hbyte, Nat.shiftLeft_eq,
    show 16 - k = 8 + (16 - (k + 8)) by omega, Nat.pow_add]
  ring

/-- The window starts with `k` bits that are not written yet, the number `v`. -/
structure Window (e : Encoder) (v k : Nat) : Prop where
  bits : e.inBits = k
  le : k ≤ 16
  lt : v < 2 ^ k
  window : e.window = v * 2 ^ (16 - k)

/-- What holds at the start of a round: while there is more to read there are at least nine bits. -/
structure Pending (e : Encoder) (v k : Nat) : Prop extends Window e v k where
  more : e.rest ≠ [] → e.signBits = k ∧ 9 ≤ k

/-- The bytes that are not read yet, behind the bits of the window. -/
def Encoder.total (e : Encoder) (v : Nat) : Nat :=
  v * 256 ^ e.rest.length + Radix.value 256 (e.rest.map UInt8.toNat)

theorem Window.window_lt (h : Window e v k) : e.window < 2 ^ 16 := by
  rw [h.window, show (16 : Nat) = k + (16 - k) by have := h.le; omega, Nat.pow_add, show k + (16 - k) - k = 16 - k by omega]
  exact Nat.mul_lt_mul_of_pos_right h.lt (Nat.two_pow_pos _)

/-- The five bits at the front are `v` without its other bits. -/
theorem Pending.index_eq (h : Pending e v k) (hk : 5 ≤ k) : (e.window &&& 31 <<< 11) >>> 11 = v / 2 ^ (k - 5) := by
  have hsplit : (2 : Nat) ^ 11 = 2 ^ (k - 5) * 2 ^ (16 - k) := by
    rw [← Nat.pow_add]
    congr 1
    have := h.le
    omega
  rw [window_index h.window_lt, h.window, hsplit, Nat.mul_div_mul_right _ _ (Nat.two_pow_pos _)]

/-- `pull_in` while there are at most eight bits. -/
theorem Window.pullIn {b : UInt8} {rest : List UInt8} (h : Window e v k) (hrest : e.rest = b :: rest) (hk : k ≤ 8) :
    Window e.pullIn (v * 256 + b.toNat) (k + 8) ∧ e.pullIn.signBits = e.signBits + 8 ∧ e.pullIn.rest = rest ∧
      e.pullIn.total (v * 256 + b.toNat) = e.total v := by
  have hpull : e.pullIn = ⟨(v * 256 + b.toNat) * 2 ^ (16 - (k + 8)), k + 8, e.signBits + 8, rest⟩ := by
    have hshift : (16 - ((k : Int) + 8)).toNat = 16 - (k + 8) := by omega
    rw [Encoder.pullIn, hrest]
    dsimp only
    rw [h.bits, h.window, hshift, window_or hk]
  rw [hpull]
  refine ⟨⟨by push_cast; rfl, by omega, ?_, rfl⟩, rfl, rfl, ?_⟩
  · have := b.toNat_lt
    have := h.lt
    rw [Nat.pow_add]
    omega
  · rw [Encoder.total, Encoder.total, hrest, List.map_cons, Radix.value_cons, List.length_cons, List.length_map]
    ring

/-- **One letter**: its code is the first digit of what is pending. -/
theorem Pending.next (h : Pending e v k) (hk : 5 ≤ k) : ∃ v' k', Pending e.next v' k' ∧
    k' + 8 * e.next.rest.length + 5 = k + 8 * e.rest.length ∧
      e.total v = v / 2 ^ (k - 5) * 2 ^ (k' + 8 * e.next.rest.length) + e.next.total v' := by
  have hle := h.le
  have hbits : e.inBits - 5 = ((k - 5 : Nat) : Int) := by
    rw [h.bits]
    omega
  have hlt : v % 2 ^ (k - 5) < 2 ^ (k - 5) := Nat.mod_lt _ (Nat.two_pow_pos _)
  have hwindow : (e.window <<< 5) &&& 65534 = v % 2 ^ (k - 5) * 2 ^ (16 - (k - 5)) := by
    have hsplit : (2 : Nat) ^ 16 = 2 ^ (k - 5) * 2 ^ (16 - (k - 5)) := by
      rw [← Nat.pow_add]
      congr 1
      omega
    have hshift : 2 ^ (16 - k) * 2 ^ 5 = 2 ^ (16 - (k - 5)) := by
      rw [← Nat.pow_add]
      congr 1
      omega
    rw [window_next, h.window, Nat.mul_assoc, hshift, hsplit, Nat.mul_mod_mul_right]
  have hwindowed : Window ⟨(e.window <<< 5) &&& 65534, e.inBits - 5, e.signBits - 5, e.rest⟩ (v % 2 ^ (k - 5))
      (k - 5) := ⟨hbits, by omega, hlt, hwindow⟩
  -- the total without the letter
  have htotal : e.total v =
      v / 2 ^ (k - 5) * 2 ^ (k - 5 + 8 * e.rest.length) + e.total (v % 2 ^ (k - 5)) := by
    have hpow : 2 ^ (k - 5 + 8 * e.rest.length) = 2 ^ (k - 5) * 256 ^ e.rest.length := by
      rw [Nat.pow_add, Nat.pow_mul]
    rw [Encoder.total, Encoder.total, hpow]
    conv_lhs => rw [← Nat.div_add_mod v (2 ^ (k - 5))]
    ring
  rw [Encoder.next]
  dsimp only
  split
  · rename_i hpull
    obtain ⟨hsmall, hne⟩ := hpull
    obtain ⟨hsign, hnine⟩ := h.more hne
    obtain ⟨b, rest, hrest⟩ := List.exists_cons_of_ne_nil hne
    obtain ⟨hpulled, hsign', hrest', htotal'⟩ := Window.pullIn hwindowed hrest (by omega)
    refine ⟨_, _, ⟨hpulled, fun _ => ⟨?_, by omega⟩⟩, ?_, ?_⟩
    · rw [hsign']
      push_cast
      omega
    · rw [hrest', hrest, List.length_cons]
      omega
    · have hlength : k - 5 + 8 + 8 * rest.length = k - 5 + 8 * e.rest.length := by
        rw [hrest, List.length_cons]
        omega
      rw [htotal', hrest', hlength]
      exact htotal
  · rename_i hkeep
    refine ⟨_, _, ⟨hwindowed, fun hne => ?_⟩, ?_, htotal⟩
    · obtain ⟨hsign, hnine⟩ := h.more hne
      have : ¬ e.signBits - 5 ≤ 8 := fun hsmall => hkeep ⟨hsmall, hne⟩
      dsimp only
      omega
    · dsimp only
      omega

/-- The text has the digits to the base 32 of a number of so many bits, with zeros behind it up to a full
letter. -/
def Encodes (text : Option (List UInt8)) (bits number : Nat) : Prop :=
  ∃ codes pad, text = some (codes.map letter) ∧ (∀ c ∈ codes, c < 32) ∧ pad < 5 ∧
    5 * codes.length = bits + pad ∧ Radix.value 32 codes = number * 2 ^ pad

theorem encodeLoop_stop (hrest : e.rest = []) (hbits : e.inBits ≤ 0) (fits : Nat) : encodeLoop fits e = some [] := by
  cases fits with
  | zero => rw [encodeLoop, if_pos ⟨hrest, hbits⟩]
  | succ fits => rw [encodeLoop, if_pos ⟨hrest, hbits⟩]

theorem Pending.stop (h : Pending e v 0) (hrest : e.rest = []) (fits : Nat) :
    Encodes (encodeLoop fits e) (0 + 8 * e.rest.length) (e.total v) := by
  have hbits := h.bits
  have hv := h.lt
  rw [pow_zero, Nat.lt_one_iff] at hv
  refine ⟨[], 0, encodeLoop_stop hrest (by omega) fits, by simp, by omega, by rw [hrest]; rfl, ?_⟩
  rw [hv, Encoder.total, hrest]
  rfl

/-- The last letter is filled up with zeros. -/
theorem Pending.last (h : Pending e v k) (hk : k ≤ 5) (hrest : e.rest = []) :
    (e.window &&& 31 <<< 11) >>> 11 = v * 2 ^ (5 - k) ∧ ∀ fits, encodeLoop fits e.next = some [] := by
  have hsplit : 2 ^ (16 - k) = 2 ^ (5 - k) * 2 ^ 11 := by
    rw [← Nat.pow_add]
    congr 1
    omega
  have hbits := h.bits
  have hnext : e.next = ⟨(e.window <<< 5) &&& 65534, e.inBits - 5, e.signBits - 5, e.rest⟩ :=
    if_neg fun hpull => hpull.2 hrest
  refine ⟨?_, fun fits => encodeLoop_stop ?_ ?_ fits⟩
  · rw [window_index h.window_lt, h.window, hsplit, ← Nat.mul_assoc, Nat.mul_div_cancel _ (Nat.two_pow_pos _)]
  · rw [hnext]
    exact hrest
  · rw [hnext]
    dsimp only
    omega

/-- **The loop of `encode`** writes what is pending and what is not read. -/
theorem encodeLoop_spec (h : Pending e v k) (hfits : k + 8 * e.rest.length ≤ 5 * fits) :
    Encodes (encodeLoop fits e) (k + 8 * e.rest.length) (e.total v) := by
  induction fits generalizing e v k with
  | zero =>
    obtain rfl : k = 0 := by omega
    exact h.stop (List.eq_nil_iff_length_eq_zero.mpr (by omega)) 0
  | succ fits ih =>
    have hbits := h.bits
    by_cases hstop : e.rest = [] ∧ k = 0
    · obtain ⟨hrest, rfl⟩ := hstop
      exact h.stop hrest _
    · have hindex : (e.window &&& 31 <<< 11) >>> 11 < 32 := by
        have := h.window_lt
        rw [window_index h.window_lt]
        omega
      rw [encodeLoop, if_neg fun hend => hstop ⟨hend.1, by omega⟩]
      by_cases hk : 5 ≤ k
      · obtain ⟨v', k', hnext, hcount, htotal⟩ := h.next hk
        obtain ⟨codes, pad, hloop, hcodes, hpad, hlength, hvalue⟩ := ih hnext (by omega)
        refine ⟨(e.window &&& 31 <<< 11) >>> 11 :: codes, pad, ?_, ?_, hpad, ?_, ?_⟩
        · rw [hloop]
          rfl
        · exact List.forall_mem_cons.mpr ⟨hindex, hcodes⟩
        · rw [List.length_cons]
          omega
        · have hpow : 32 ^ codes.length = 2 ^ (k' + 8 * e.next.rest.length) * 2 ^ pad := by
            rw [← Nat.pow_add, ← hlength, Nat.pow_mul]
          rw [Radix.value_cons, h.index_eq hk, hvalue, htotal, hpow]
          ring
      · have hrest : e.rest = [] := by
          by_contra hne
          have := (h.more hne).2
          omega
        obtain ⟨hvalue, hend⟩ := h.last (by omega) hrest
        refine ⟨[(e.window &&& 31 <<< 11) >>> 11], 5 - k, ?_, List.forall_mem_singleton.mpr hindex, ?_, ?_, ?_⟩
        · rw [hend]
          rfl
        · have : k ≠ 0 := fun hzero => hstop ⟨hrest, hzero⟩
          omega
        · rw [List.length_singleton, hrest, List.length_nil]
          omega
        · rw [Radix.value_singleton, hvalue, Encoder.total, hrest]
          simp

/-- **`encode`** writes the bytes. -/
theorem encode_spec (input : List UInt8) :
    Encodes (encode input) (8 * input.length) (Radix.value 256 (input.map UInt8.toNat)) := by
  have hstart : Window ⟨0, 0, 0, input⟩ 0 0 := ⟨rfl, by omega, by omega, rfl⟩
  have htotal : Encoder.total ⟨0, 0, 0, input⟩ 0 = Radix.value 256 (input.map UInt8.toNat) := by
    rw [Encoder.total, Nat.zero_mul, Nat.zero_add]
  rw [encode, ← htotal]
  cases input with
  | nil => exact encodeLoop_spec (k := 0) ⟨⟨rfl, by omega, by omega, rfl⟩, fun hne => absurd rfl hne⟩ (Nat.zero_le _)
  | cons b input =>
    obtain ⟨hone, hsign, hrest, htotal₁⟩ := hstart.pullIn rfl (by omega)
    rw [← htotal₁]
    generalize Encoder.pullIn ⟨0, 0, 0, b :: input⟩ = e at *
    cases input with
    | nil =>
      have hpull : e.pullIn = { e with signBits := e.signBits + 8 } := by rw [Encoder.pullIn, hrest]
      have hpending : Pending e.pullIn (0 * 256 + b.toNat) 8 := by
        rw [hpull]
        exact ⟨⟨hone.bits, hone.le, hone.lt, hone.window⟩, fun hne => absurd hrest hne⟩
      have hrest' : e.pullIn.rest = [] := by
        rw [hpull]
        exact hrest
      have htotal' : e.pullIn.total (0 * 256 + b.toNat) = e.total (0 * 256 + b.toNat) := by
        rw [hpull]
        rfl
      have hloop := encodeLoop_spec hpending
        (show 8 + 8 * e.pullIn.rest.length ≤ 5 * encodedSize 1 by rw [hrest']; decide)
      rw [hrest', htotal'] at hloop
      exact hloop
    | cons c input =>
      obtain ⟨htwo, hsign₂, hrest₂, htotal₂⟩ := hone.pullIn hrest (by omega)
      rw [← htotal₂]
      have hpending : Pending e.pullIn ((0 * 256 + b.toNat) * 256 + c.toNat) 16 := by
        refine ⟨htwo, fun _ => ⟨?_, by omega⟩⟩
        rw [hsign₂, hsign]
        rfl
      have hloop := encodeLoop_spec hpending
        (show 16 + 8 * e.pullIn.rest.length ≤ 5 * encodedSize (b :: c :: input).length by
          rw [hrest₂, encodedSize, List.length_cons, List.length_cons]
          omega)
      rw [hrest₂] at hloop
      have hlength : 8 * (b :: c :: input).length = 16 + 8 * input.length := by
        rw [List.length_cons, List.length_cons]
        omega
      rw [hlength]
      exact hloop

end Encode

/-! ## `decode` -/

/-- A letter as an index of `out_alphabet`: a `char` is signed. -/
def signedIndex (c : UInt8) : Nat := if c.toNat < 128 then c.toNat else 2 ^ 32 - 256 + c.toNat

/-- The loop of `decode`: `out` has `outBits` bits, and `size` bytes fit. -/
def decodeLoop (size : Nat) : List UInt8 → Nat → Nat → List UInt8 → Option (Option (List UInt8))
  | [], _, _, decoded => some (some decoded)
  | c :: input, out, outBits, decoded =>
    match outAlphabet[signedIndex c]? with
    | none => none
    | some quartet =>
      if quartet = -1 then some none
      else
        let out := out <<< 5 ||| quartet.toNat
        if 8 ≤ outBits + 5 then
          let shift := outBits + 5 - 8
          if decoded.length < size then
            decodeLoop size input (out &&& (1 <<< shift - 1)) shift
              (decoded ++ [((out &&& 255 <<< shift) >>> shift).toUInt8])
          else none
        else decodeLoop size input out (outBits + 5) decoded

/-- `decoded_size`. -/
def decodedSize (size : Nat) : Nat := size * 5 / 8

/-- The text is read before its end is looked for. What is not written is zero. -/
def decode (input : List UInt8) : Option (Option (List UInt8)) :=
  if input = [] then none
  else
    (decodeLoop (decodedSize input.length) input 0 0 []).map fun result =>
      result.map fun decoded => decoded ++ List.replicate (decodedSize input.length - decoded.length) 0

/-! ## What `decode` reads -/

section Decode

variable {size out bits c shift : Nat} {decoded : List UInt8} {codes : List Nat}

theorem outAlphabet_letter : ∀ c < 32, outAlphabet[signedIndex (letter c)]? = some (c : Int) := by decide +kernel

theorem out_or (out : Nat) (hc : c < 32) : out <<< 5 ||| c = out * 32 + c := by
  rw [Nat.shiftLeft_eq, Nat.mul_comm, ← Nat.two_pow_add_eq_or_of_lt (show c < 2 ^ 5 from hc), Nat.mul_comm]

theorem out_byte (hout : out < 2 ^ (shift + 8)) :
    ((out &&& 255 <<< shift) >>> shift).toUInt8.toNat = out / 2 ^ shift := by
  have hlt : out / 2 ^ shift < 256 := by
    rw [Nat.pow_add] at hout
    exact Nat.div_lt_of_lt_mul hout
  have hmask : 255 = 2 ^ 8 - 1 := by decide
  rw [Nat.shiftRight_and_distrib, Nat.shiftLeft_shiftRight, hmask, Nat.and_two_pow_sub_one_eq_mod,
    Nat.shiftRight_eq_div_pow, Nat.toUInt8, UInt8.toNat_ofNat', Nat.mod_mod, Nat.mod_eq_of_lt hlt]

theorem out_rest (out shift : Nat) : out &&& (1 <<< shift - 1) = out % 2 ^ shift := by
  rw [Nat.one_shiftLeft, Nat.and_two_pow_sub_one_eq_mod]

/-- **The loop of `decode`** writes the bits of `out` and of the letters, eight at a time. -/
theorem decodeLoop_spec (hcodes : ∀ c ∈ codes, c < 32) (hbits : bits < 8) (hout : out < 2 ^ bits)
    (hfits : 8 * decoded.length + bits + 5 * codes.length < 8 * (size + 1)) :
    ∃ bytes left rest, decodeLoop size (codes.map letter) out bits decoded = some (some bytes) ∧ left < 8 ∧
      rest < 2 ^ left ∧ 8 * bytes.length + left = 8 * decoded.length + bits + 5 * codes.length ∧
      Radix.value 256 (bytes.map UInt8.toNat) * 2 ^ left + rest =
        (Radix.value 256 (decoded.map UInt8.toNat) * 2 ^ bits + out) * 32 ^ codes.length + Radix.value 32 codes := by
  induction codes generalizing out bits decoded with
  | nil =>
    refine ⟨decoded, bits, out, rfl, hbits, hout, rfl, ?_⟩
    rw [List.length_nil, pow_zero, Nat.mul_one, Radix.value_nil, Nat.add_zero]
  | cons c codes ih =>
    obtain ⟨hc, hcodes⟩ := List.forall_mem_cons.mp hcodes
    rw [List.length_cons] at hfits
    have hout' : out * 32 + c < 2 ^ (bits + 5) := by
      rw [Nat.pow_add]
      omega
    rw [List.map_cons, decodeLoop, outAlphabet_letter c hc]
    dsimp only
    rw [if_neg (by omega), Int.toNat_natCast, out_or out hc]
    split
    · rename_i height
      have hshift : bits + 5 - 8 + 8 = bits + 5 := by omega
      generalize bits + 5 - 8 = shift at *
      rw [if_pos (by omega), out_rest]
      have hbyte := out_byte (hshift ▸ hout')
      obtain ⟨bytes, left, rest, hloop, hleft, hrest, hlength, hvalue⟩ :=
        ih hcodes (show shift < 8 by omega) (Nat.mod_lt _ (Nat.two_pow_pos shift))
          (show 8 * (decoded ++ [((out * 32 + c &&& 255 <<< shift) >>> shift).toUInt8]).length + shift +
              5 * codes.length < 8 * (size + 1) by
            rw [List.length_append, List.length_singleton]
            omega)
      rw [List.length_append, List.length_singleton] at hlength
      rw [List.map_append, List.map_singleton, Radix.value_concat, hbyte] at hvalue
      refine ⟨bytes, left, rest, hloop, hleft, hrest, by rw [List.length_cons]; omega, ?_⟩
      have hpow : 2 ^ bits * 32 = 2 ^ shift * 256 := by
        rw [show 2 ^ bits * 32 = 2 ^ (bits + 5) by rw [Nat.pow_add], ← hshift, Nat.pow_add]
      -- the new byte and what is left of it are what was there
      have hnumber (n : Nat) : (n * 256 + (out * 32 + c) / 2 ^ shift) * 2 ^ shift + (out * 32 + c) % 2 ^ shift =
          (n * 2 ^ bits + out) * 32 + c := by
        have hdiv := Nat.div_add_mod (out * 32 + c) (2 ^ shift)
        calc (n * 256 + (out * 32 + c) / 2 ^ shift) * 2 ^ shift + (out * 32 + c) % 2 ^ shift
            = n * (2 ^ shift * 256) + (2 ^ shift * ((out * 32 + c) / 2 ^ shift) + (out * 32 + c) % 2 ^ shift) := by ring
          _ = n * (2 ^ bits * 32) + (out * 32 + c) := by rw [hdiv, hpow]
          _ = (n * 2 ^ bits + out) * 32 + c := by ring
      rw [hvalue, hnumber, Radix.value_cons, List.length_cons]
      ring
    · obtain ⟨bytes, left, rest, hloop, hleft, hrest, hlength, hvalue⟩ :=
        ih hcodes (show bits + 5 < 8 by omega) hout'
          (show 8 * decoded.length + (bits + 5) + 5 * codes.length < 8 * (size + 1) by omega)
      refine ⟨bytes, left, rest, hloop, hleft, hrest, by rw [List.length_cons]; omega, ?_⟩
      rw [hvalue, Radix.value_cons, List.length_cons]
      ring

/-- **`decode`** reads as many bytes as there are full ones. -/
theorem decode_spec (hne : codes ≠ []) (hcodes : ∀ c ∈ codes, c < 32) :
    ∃ bytes, decode (codes.map letter) = some (some bytes) ∧ bytes.length = codes.length * 5 / 8 ∧
      Radix.value 256 (bytes.map UInt8.toNat) = Radix.value 32 codes / 2 ^ (codes.length * 5 % 8) := by
  obtain ⟨bytes, left, rest, hloop, hleft, hrest, hlength, hvalue⟩ :=
    decodeLoop_spec hcodes (show 0 < 8 by omega) (show 0 < 2 ^ 0 by omega)
      (show 8 * ([] : List UInt8).length + 0 + 5 * codes.length < 8 * (decodedSize codes.length + 1) by
        rw [decodedSize, List.length_nil]
        omega)
  rw [List.length_nil] at hlength
  rw [List.map_nil, Radix.value_nil, Nat.zero_mul, Nat.zero_add, Nat.zero_mul, Nat.zero_add] at hvalue
  obtain rfl : left = codes.length * 5 % 8 := by omega
  refine ⟨bytes, ?_, by omega, ?_⟩
  · have hfull : decodedSize codes.length - bytes.length = 0 := by
      rw [decodedSize]
      omega
    rw [decode, if_neg (by simpa using hne), List.length_map, hloop, Option.map_some, Option.map_some, hfull,
      List.replicate_zero, List.append_nil]
  · rw [← hvalue, Nat.add_comm, Nat.add_mul_div_right _ _ (Nat.two_pow_pos _), Nat.div_eq_of_lt hrest, Nat.zero_add]

end Decode

end Base32

end SyncSpirit
