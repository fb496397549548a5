import SyncSpirit.CanonicalIds

/-!
# The short forms of a device id

`getShort` are the first letters of the text, `makeShort` and `makeShortOf` compute them from the number and
from the digest. The number zero has no short form, and on a little-endian host the short form of a digest is
made from its first eight bytes in the wrong order.
-/

namespace SyncSpirit

namespace DeviceText

open Base32

/-! ## Numbers in memory -/

section Memory

variable {host : Endian} {bytes : List UInt8}

theorem encode_decode_bytes (hlength : bytes.length = 8) : Wire.encode 8 (Wire.decode bytes) = bytes := by
  rw [← hlength]
  exact Wire.encode_decode bytes

/-- `native_to_big` of the number that starts with these bytes has them in this order in memory. -/
theorem store_nativeToBig (host : Endian) (hlength : bytes.length = 8) :
    store host (nativeToBig host (Wire.decode bytes)) = bytes := by
  cases host with
  | big => exact encode_decode_bytes hlength
  | little =>
    have hstore : store .little (Wire.decode bytes) = bytes.reverse := by rw [store, encode_decode_bytes hlength]
    rw [nativeToBig, hstore, List.reverse_reverse, load, store, encode_decode_bytes (by rwa [List.length_reverse]),
      List.reverse_reverse]

theorem nativeToBig_load (host : Endian) (hlength : bytes.length = 8) :
    nativeToBig host (load host bytes) = Wire.decode bytes := by
  cases host with
  | big => rfl
  | little =>
    have hstore : store .little (load .little bytes) = bytes := by
      rw [store, load, encode_decode_bytes (by rwa [List.length_reverse]), List.reverse_reverse]
    rw [nativeToBig, hstore, load, List.reverse_reverse]

/-- In place, on the bytes of a digest: a little-endian host turns them around. -/
theorem store_nativeToBig_load (host : Endian) (hlength : bytes.length = 8) :
    store host (nativeToBig host (load host bytes)) = if host = .little then bytes.reverse else bytes := by
  cases host with
  | big => exact store_nativeToBig .big hlength
  | little => exact store_nativeToBig .little (by rwa [List.length_reverse])

/-- The number is zero if all bytes are. -/
theorem decode_eq_zero (hlength : bytes.length = 8) : Wire.decode bytes = 0 ↔ bytes = List.replicate 8 0 := by
  constructor
  · intro hzero
    rw [← encode_decode_bytes hlength, hzero]
    decide
  · rintro rfl
    decide

end Memory

/-! ## The first letters -/

section Letters

variable {s : Digest} {codes : List Nat} {l bytes : List UInt8}

/-- The number of the first seven letters. -/
def head (bytes : List UInt8) : Nat := Radix.value 256 ((bytes.take 5).map UInt8.toNat) / 32

theorem shortLetters_spec (hlength : bytes.length = 8) : ∃ codes : List Nat, shortLetters bytes = some (codes.map letter) ∧
    codes.length = 7 ∧ (∀ c ∈ codes, c < 32) ∧ Radix.value 32 codes = head bytes := by
  obtain ⟨codes, pad, hencode, hcodes, hpad, hcount, hvalue⟩ := encode_spec (bytes.take 5)
  rw [List.length_take, hlength] at hcount
  obtain rfl : pad = 0 := by omega
  have hcount : codes.length = 8 := by omega
  refine ⟨codes.take 7, ?_, ?_, fun c hc => hcodes c (List.mem_of_mem_take hc), ?_⟩
  · rw [shortLetters, hencode, Option.map_some, List.map_take]
  · rw [List.length_take, hcount]
    rfl
  · rw [Radix.value_take (by decide) hcodes, hcount, hvalue, head]
    simp

theorem TextOf.getShort (h : TextOf s codes l) : getShort ⟨dashed 8 l, s⟩ = (codes.take 7).map letter := by
  obtain ⟨digit, -, hrest⟩ := Option.bind_eq_some_iff.mp h.luhnize
  obtain ⟨rest, -, hl⟩ := Option.bind_eq_some_iff.mp hrest
  obtain rfl := Option.some_inj.mp hl
  have hthirteen : ((codes.map letter).take 13).length = 13 := by
    rw [List.length_take, List.length_map, h.count]
    rfl
  have hgroup : (((codes.map letter).take 13 ++ digit :: rest).take 7).length = 7 := by
    rw [List.length_take, List.length_append]
    omega
  have hdashed : dashed 8 ((codes.map letter).take 13 ++ digit :: rest) =
      ((codes.map letter).take 13 ++ digit :: rest).take 7 ++
        dash :: dashed 7 (((codes.map letter).take 13 ++ digit :: rest).drop 7) := rfl
  rw [DeviceText.getShort, hdashed, List.take_left' hgroup, List.take_append_of_le_length (by omega), List.take_take,
    List.map_take]
  rfl

theorem TextOf.value_head (h : TextOf s codes l) : Radix.value 32 (codes.take 7) = head s.bytes := by
  have hpow : (32 : Nat) ^ 45 = 2 ^ 221 * 2 ^ 4 := by norm_num
  have hpow' : (256 : Nat) ^ 27 * 32 = 2 ^ 221 := by norm_num
  rw [Radix.value_take (by decide) h.bounded, h.count, h.number, head, List.map_take,
    Radix.value_take (by decide) (bytes_lt s.bytes), List.length_map, s.size, Nat.div_div_eq_div_mul, hpow',
    hpow, Nat.mul_div_mul_right _ _ (Nat.two_pow_pos 4)]
  rfl

/-- The letters of the bytes are those of the text if the numbers are the same. -/
theorem TextOf.shortLetters_iff (h : TextOf s codes l) (hlength : bytes.length = 8) :
    shortLetters bytes = some (DeviceText.getShort ⟨dashed 8 l, s⟩) ↔ head bytes = head s.bytes := by
  obtain ⟨codes', hshort, hcount, hbounded, hvalue⟩ := shortLetters_spec hlength
  have hbounded' : ∀ c ∈ codes.take 7, c < 32 := fun c hc => h.bounded c (List.mem_of_mem_take hc)
  rw [hshort, h.getShort, Option.some_inj, ← hvalue, ← h.value_head]
  constructor
  · intro heq
    rw [map_letter_injective hbounded hbounded' heq]
  · intro heq
    rw [Radix.value_injective (by decide) (by rw [hcount, List.length_take, h.count]; rfl) hbounded hbounded' heq]

/-- The first four digits to the base 256 of a number with five digits, from the number without its last bits. -/
theorem digits_of_div {x₀ x₁ x₂ x₃ x₄ y₀ y₁ y₂ y₃ y₄ : Nat} (hx₁ : x₁ < 256) (hx₂ : x₂ < 256) (hx₃ : x₃ < 256)
    (hx₄ : x₄ < 256) (hy₁ : y₁ < 256) (hy₂ : y₂ < 256) (hy₃ : y₃ < 256) (hy₄ : y₄ < 256)
    (h : (x₀ * 256 ^ 4 + (x₁ * 256 ^ 3 + (x₂ * 256 ^ 2 + (x₃ * 256 ^ 1 + x₄)))) / 32 =
      (y₀ * 256 ^ 4 + (y₁ * 256 ^ 3 + (y₂ * 256 ^ 2 + (y₃ * 256 ^ 1 + y₄)))) / 32) :
    x₀ = y₀ ∧ x₁ = y₁ ∧ x₂ = y₂ ∧ x₃ = y₃ := by
  have h₀ : x₀ = y₀ := by omega
  subst h₀
  have h₁ : x₁ = y₁ := by omega
  subst h₁
  have h₂ : x₂ = y₂ := by omega
  subst h₂
  exact ⟨rfl, rfl, rfl, by omega⟩

theorem head_cons (b₀ b₁ b₂ b₃ b₄ : UInt8) (bytes : List UInt8) : head (b₀ :: b₁ :: b₂ :: b₃ :: b₄ :: bytes) =
    (b₀.toNat * 256 ^ 4 + (b₁.toNat * 256 ^ 3 + (b₂.toNat * 256 ^ 2 + (b₃.toNat * 256 ^ 1 + b₄.toNat)))) / 32 := by
  simp only [head, List.take_succ_cons, List.take_zero, List.map_cons, List.map_nil, Radix.value_cons,
    Radix.value_nil, List.length_cons, List.length_nil, Nat.zero_add, Nat.reduceAdd, pow_zero, Nat.mul_one,
    Nat.add_zero]

/-- Eight bytes and the same in the other order have the same first letters only if they are the same. -/
theorem head_reverse (hlength : bytes.length = 8) : head bytes.reverse = head bytes ↔ bytes.reverse = bytes := by
  refine ⟨fun h => ?_, fun h => by rw [h]⟩
  rcases bytes with _ | ⟨b₀, _ | ⟨b₁, _ | ⟨b₂, _ | ⟨b₃, _ | ⟨b₄, _ | ⟨b₅, _ | ⟨b₆, _ | ⟨b₇, _ | ⟨b₈, bytes⟩⟩⟩⟩⟩⟩⟩⟩⟩
  all_goals simp at hlength
  have hhead : head [b₇, b₆, b₅, b₄, b₃, b₂, b₁, b₀] = head [b₀, b₁, b₂, b₃, b₄, b₅, b₆, b₇] := h
  rw [head_cons, head_cons] at hhead
  obtain ⟨h₀, h₁, h₂, h₃⟩ := digits_of_div b₆.toNat_lt b₅.toNat_lt b₄.toNat_lt b₃.toNat_lt b₁.toNat_lt b₂.toNat_lt
    b₃.toNat_lt b₄.toNat_lt hhead
  rw [UInt8.toNat_inj] at h₀ h₁ h₂ h₃
  rw [h₀, h₁, h₂, h₃]
  rfl

end Letters

/-! ## Digests -/

/-- **A digest as it should be**: it has an id, whose text is read back, and the short forms are one. -/
structure Faithful (host : Endian) (s : Digest) (id : Id) : Prop where
  written : fromSha256 s.bytes = some (some id)
  read : fromString id.value = some (some ⟨id.value, s⟩)
  number : makeShort host (getUint host id) = some (getShort id)
  digest : makeShortOf host s.bytes = some (getShort id)

/-- The first eight bytes are not all zero, and on a little-endian host they are the same from both ends. -/
def ShortForms (host : Endian) (s : Digest) : Prop :=
  s.bytes.take 8 ≠ List.replicate 8 0 ∧ (host = .little → (s.bytes.take 8).reverse = s.bytes.take 8)

instance (host : Endian) (s : Digest) : Decidable (ShortForms host s) := inferInstanceAs (Decidable (_ ∧ _))

section Faithful

variable {host : Endian} {s : Digest} {codes : List Nat} {l : List UInt8} {id : Id}

theorem length_take_eight (s : Digest) : (s.bytes.take 8).length = 8 := by
  rw [List.length_take, s.size]
  rfl

theorem head_take_eight (s : Digest) : head (s.bytes.take 8) = head s.bytes := by
  rw [head, head, List.take_take]
  rfl

/-- The short form of the number is the one of the text unless the number is zero. -/
theorem TextOf.makeShort_iff (h : TextOf s codes l) (host : Endian) :
    makeShort host (getUint host ⟨dashed 8 l, s⟩) = some (DeviceText.getShort ⟨dashed 8 l, s⟩) ↔
      s.bytes.take 8 ≠ List.replicate 8 0 := by
  have height := length_take_eight s
  rw [getUint, nativeToBig_load host height, makeShort, ne_eq, ← decode_eq_zero height]
  split
  · rename_i hzero
    refine iff_of_false (fun heq => ?_) fun hne => hne hzero
    have hlength := congrArg List.length (Option.some_inj.mp heq)
    rw [h.getShort, List.length_map, List.length_take, h.count] at hlength
    cases hlength
  · rename_i hzero
    refine iff_of_true ?_ hzero
    rw [store_nativeToBig host height]
    exact (h.shortLetters_iff height).mpr (head_take_eight s)

/-- The short form of the digest is the one of the text unless the host turns different bytes around. -/
theorem TextOf.makeShortOf_iff (h : TextOf s codes l) (host : Endian) :
    makeShortOf host s.bytes = some (DeviceText.getShort ⟨dashed 8 l, s⟩) ↔
      (host = .little → (s.bytes.take 8).reverse = s.bytes.take 8) := by
  have height := length_take_eight s
  rw [makeShortOf, store_nativeToBig_load host height]
  split
  · rename_i hlittle
    rw [h.shortLetters_iff (by rw [List.length_reverse, height]), ← head_take_eight, head_reverse height]
    exact ⟨fun heq _ => heq, fun heq => heq hlittle⟩
  · rename_i hbig
    exact iff_of_true ((h.shortLetters_iff height).mpr (head_take_eight s)) fun hlittle => absurd hlittle hbig

/-- **The short forms of a digest** are one exactly under the condition; its text is always read back. -/
theorem faithful_iff_shortForms (host : Endian) (s : Digest) : (∃ id, Faithful host s id) ↔ ShortForms host s := by
  obtain ⟨codes, l, h⟩ := exists_textOf s
  constructor
  · rintro ⟨id, hwritten, -, hnumber, hdigest⟩
    rw [h.fromSha256, Option.some_inj, Option.some_inj] at hwritten
    rw [← hwritten] at hnumber hdigest
    exact ⟨(h.makeShort_iff host).mp hnumber, (h.makeShortOf_iff host).mp hdigest⟩
  · rintro ⟨hzero, hreverse⟩
    exact ⟨_, h.fromSha256, h.fromString, (h.makeShort_iff host).mpr hzero, (h.makeShortOf_iff host).mpr hreverse⟩

/-- Where the texts are those of the digests, ids are the same by text and by digest. -/
theorem Canonical.sha256_eq_iff {id id' : Id} (h : Canonical id) (h' : Canonical id') :
    id.sha256 = id'.sha256 ↔ id.value = id'.value := by
  obtain ⟨codes, l, htext⟩ := exists_textOf id.sha256
  obtain ⟨codes', l', htext'⟩ := exists_textOf id'.sha256
  have hvalue : id.value = dashed 8 l := by
    obtain ⟨written, hwritten, hvalue⟩ := h
    rw [htext.fromSha256, Option.some_inj, Option.some_inj] at hwritten
    rw [← hvalue, ← hwritten]
  have hvalue' : id'.value = dashed 8 l' := by
    obtain ⟨written, hwritten, hvalue⟩ := h'
    rw [htext'.fromSha256, Option.some_inj, Option.some_inj] at hwritten
    rw [← hvalue, ← hwritten]
  constructor
  · intro heq
    obtain ⟨written, hwritten, hsame⟩ := h
    obtain ⟨written', hwritten', hsame'⟩ := h'
    rw [heq, hwritten', Option.some_inj, Option.some_inj] at hwritten
    rw [← hsame, ← hsame', hwritten]
  · intro heq
    have hread := htext.fromString
    rw [← hvalue, heq, hvalue', htext'.fromString, Option.some_inj, Option.some_inj] at hread
    exact ((Id.mk.injEq ..).mp hread).2.symm

end Faithful

/-- **Device ids are canonical** exactly for these digests and these texts, and ids that are canonical are the
same by digest and by text. -/
theorem device_ids_iff (host : Endian) (s : Digest) (text : List UInt8) (id id' : Id) :
    ((∃ id, Faithful host s id) ↔ ShortForms host s) ∧
      (Answers text ↔ (text.length = 63 → WellWritten text)) ∧
      (Canonical id → Canonical id' → (id.sha256 = id'.sha256 ↔ id.value = id'.value)) :=
  ⟨faithful_iff_shortForms host s, answers_iff text, fun h h' => h.sha256_eq_iff h'⟩

/-- The bytes of a text. -/
def bytesOf (text : String) : List UInt8 := text.toList.map fun c => c.toNat.toUInt8

instance (text : List UInt8) (i : Nat) : Decidable (Reached text i) := inferInstanceAs (Decidable (∀ j < i, _))

/-- A text with the first dash one place further on. -/
def shiftedDash : List UInt8 := bytesOf "KHQNO2S5-QSILRK-YX4JZZ4-7L77APM-QNVGZJT-EKU7IFI-PNEPBMY-4MXFMQD"

/-- **Three ways to go wrong**: the short form of a digest on a little-endian host, a dash one place further on,
and a text of dashes only. -/
theorem not_canonical :
    (¬ ∃ id, Faithful .little ⟨1 :: List.replicate 31 0, by decide⟩ id) ∧
      ¬ Answers shiftedDash ∧ ¬ Answers (List.replicate 63 dash) := by
  refine ⟨?_, ?_, ?_⟩
  · rw [faithful_iff_shortForms]
    decide
  · rw [answers_iff]
    intro h
    have hreached : Reached shiftedDash 4 := by decide +kernel
    have hdashed : ¬ Dashed shiftedDash := by decide +kernel
    exact hdashed ((h rfl).canonical hreached).1
  · rw [answers_iff]
    intro h
    exact dash_not_letter ((h rfl).letters 0 (by decide) (fun j hj => absurd hj (Nat.not_lt_zero j)) dash (by decide +kernel))

end DeviceText

end SyncSpirit
