import SyncSpirit.DeviceText

/-!
# One text for each device id

A digest has one text: `fromSha256` writes it and `fromString` reads it back. `fromString` also reads other
texts. It does not look where the dashes are, it does not look at the bits of the last letter that belong to
no byte, and the check digit is computed before it is known that there are only letters. The short forms of
an id are not the same either. `device_ids_iff` has the digests and the texts for which all is as it should be.
-/

namespace SyncSpirit

namespace DeviceText

open Base32

/-! ## Letters -/

section Letters

variable {c d : UInt8} {text : List UInt8}

theorem letter_eq {code : Nat} (h : code < 32) : letter code = inAlphabet[code] := by
  rw [letter, List.getD_eq_getElem?_getD, List.getElem?_eq_getElem h, Option.getD_some]

theorem letter_mem (code : Nat) (h : code < 32) : letter code ∈ inAlphabet := by
  rw [letter_eq h]
  exact List.getElem_mem _

theorem exists_code (c : UInt8) (hc : c ∈ inAlphabet) : ∃ code < 32, letter code = c := by
  obtain ⟨code, hcode, rfl⟩ := List.mem_iff_getElem.mp hc
  exact ⟨code, hcode, letter_eq hcode⟩

/-- The letters as numbers. -/
def letterNumbers : List Nat := (List.range 26).map (· + 65) ++ (List.range 6).map (· + 50)

theorem mem_inAlphabet : c ∈ inAlphabet ↔ c.toNat ∈ letterNumbers := by
  have hmap : inAlphabet.map UInt8.toNat = letterNumbers := by decide +kernel
  rw [← hmap, List.mem_map_of_injective fun a b h => UInt8.toNat_inj.mp h]

theorem codes_of_letters (h : ∀ c ∈ text, c ∈ inAlphabet) :
    ∃ codes : List Nat, (∀ c ∈ codes, c < 32) ∧ codes.map letter = text := by
  induction text with
  | nil => exact ⟨[], by simp, rfl⟩
  | cons c text ih =>
    obtain ⟨hc, htext⟩ := List.forall_mem_cons.mp h
    obtain ⟨code, hcode, rfl⟩ := exists_code c hc
    obtain ⟨codes, hcodes, rfl⟩ := ih htext
    exact ⟨code :: codes, List.forall_mem_cons.mpr ⟨hcode, hcodes⟩, rfl⟩

theorem letter_injective (a : Nat) (ha : a < 32) (b : Nat) (hb : b < 32) (h : letter a = letter b) : a = b := by
  have hcode := outAlphabet_letter a ha
  rw [h, outAlphabet_letter b hb, Option.some_inj] at hcode
  omega

theorem map_letter_injective {codes codes' : List Nat} (h : ∀ c ∈ codes, c < 32) (h' : ∀ c ∈ codes', c < 32)
    (heq : codes.map letter = codes'.map letter) : codes = codes' := by
  induction codes generalizing codes' with
  | nil => exact (List.map_eq_nil_iff.mp heq.symm).symm
  | cons c codes ih =>
    obtain ⟨c', codes', rfl, hc, hrest⟩ := List.map_eq_cons_iff.mp heq.symm
    obtain ⟨hbound, hbounds⟩ := List.forall_mem_cons.mp h
    obtain ⟨hbound', hbounds'⟩ := List.forall_mem_cons.mp h'
    rw [letter_injective c' hbound' c hbound hc, ih hbounds hbounds' hrest.symm]

theorem dash_not_letter : dash ∉ inAlphabet := by
  rw [mem_inAlphabet]
  decide +kernel

/-- The table has a code for the letters only. -/
theorem outAlphabet_byte (c : UInt8) : c ∈ inAlphabet ↔ ∃ code ∈ outAlphabet[c.toNat]?, 0 ≤ code := by
  have hsign : ∀ p ∈ outAlphabet.zipIdx, 0 ≤ p.1 ↔ p.2 ∈ letterNumbers := by decide +kernel
  have hentry {code : Int} (h : outAlphabet[c.toNat]? = some code) : 0 ≤ code ↔ c ∈ inAlphabet := by
    rw [mem_inAlphabet]
    exact hsign (code, c.toNat) (List.mk_mem_zipIdx_iff_getElem?.mpr h)
  constructor
  · intro hc
    have hbound : ∀ n ∈ letterNumbers, n < outAlphabet.length := by decide +kernel
    have hsome := List.getElem?_eq_getElem (hbound _ (mem_inAlphabet.mp hc))
    exact ⟨_, hsome, (hentry hsome).mpr hc⟩
  · rintro ⟨code, hcode, hnonneg⟩
    exact (hentry hcode).mp hnonneg

/-- `calc` needs letters. -/
theorem calcLoop_iff (factor sum : Nat) : (∃ n, calcLoop text factor sum = some n) ↔ ∀ c ∈ text, c ∈ inAlphabet := by
  induction text generalizing factor sum with
  | nil => simp [calcLoop]
  | cons c text ih =>
    have hbyte := outAlphabet_byte c
    rw [List.forall_mem_cons, calcLoop]
    split
    · rename_i hnone
      rw [hnone] at hbyte
      simp [hbyte]
    · rename_i code hcode
      rw [hcode] at hbyte
      split
      · rename_i hnonneg
        rw [ih, iff_and_self]
        exact fun _ => hbyte.mpr ⟨code, rfl, hnonneg⟩
      · rename_i hneg
        simp [hbyte, hneg]

theorem calculate_iff : (∃ digit, calculate text = some digit) ↔ ∀ c ∈ text, c ∈ inAlphabet := by
  rw [← calcLoop_iff 1 0]
  constructor
  · rintro ⟨digit, hdigit⟩
    obtain ⟨sum, hsum, -⟩ := Option.map_eq_some_iff.mp hdigit
    exact ⟨sum, hsum⟩
  · rintro ⟨sum, hsum⟩
    exact ⟨_, by rw [calculate, hsum]; rfl⟩

theorem calculate_mem (h : calculate text = some d) : d ∈ inAlphabet := by
  obtain ⟨sum, -, rfl⟩ := Option.map_eq_some_iff.mp h
  exact letter_mem _ (Nat.mod_lt _ (by omega))

/-- A piece is valid if its last letter is the check digit of the others. -/
theorem validate_concat (text : List UInt8) (c : UInt8) :
    validate (text ++ [c]) = (calculate text).map fun digit => decide (c = digit) := by
  rw [validate, if_neg (by simp), List.dropLast_concat, List.getLast?_concat]
  simp

end Letters

/-! ## Check digits -/

section CheckDigits

variable {n c : Nat} {d : UInt8} {p l letters : List UInt8}

theorem removeCheckDigits_append (h : c + p.length = 13) (d : UInt8) (l : List UInt8) :
    removeCheckDigits c (p ++ d :: l) = p ++ removeCheckDigits 0 l := by
  induction p generalizing c with
  | nil => rw [List.nil_append, removeCheckDigits, if_pos (by simpa using h), List.nil_append]
  | cons x p ih =>
    rw [List.length_cons] at h
    rw [List.cons_append, removeCheckDigits, if_neg (by omega), ih (by omega), List.cons_append]

/-- The first piece of a text with check digits. -/
theorem exists_piece (h : l.length = 14 * (n + 1)) : ∃ p d l', l = p ++ d :: l' ∧ p.length = 13 ∧ l'.length = 14 * n := by
  have hdrop : (l.drop 13).length = 14 * n + 1 := by
    rw [List.length_drop]
    omega
  obtain ⟨d, l', hcons⟩ := List.exists_cons_of_length_eq_add_one hdrop
  rw [hcons, List.length_cons] at hdrop
  refine ⟨l.take 13, d, l', by rw [← hcons, List.take_append_drop], ?_, by omega⟩
  rw [List.length_take]
  omega

theorem take_piece (hp : p.length = 13) : ((p ++ d :: l).drop (14 * 0)).take 14 = p ++ [d] := by
  rw [Nat.mul_zero, List.drop_zero, List.take_append, List.take_of_length_le (by omega), hp]
  rfl

theorem drop_piece (hp : p.length = 13) (i : Nat) : (p ++ d :: l).drop (14 * (i + 1)) = l.drop (14 * i) := by
  rw [List.drop_append, List.drop_of_length_le (by omega), hp, List.nil_append,
    show 14 * (i + 1) - 13 = 14 * i + 1 by omega, List.drop_succ_cons]

theorem luhnize_append (hp : p.length = 13) (hdigit : calculate p = some d) (hrest : luhnize n letters = some l) :
    luhnize (n + 1) (p ++ letters) = some (p ++ d :: l) := by
  rw [luhnize, List.take_left' hp, List.drop_left' hp, hdigit, hrest]
  rfl

/-- **The check digits of letters** are valid, and the letters are left without them. -/
theorem luhnize_spec (hlength : letters.length = 13 * n) (hletters : ∀ c ∈ letters, c ∈ inAlphabet) :
    ∃ l, luhnize n letters = some l ∧ l.length = 14 * n ∧ removeCheckDigits 0 l = letters ∧
      (∀ c ∈ l, c ∈ inAlphabet) ∧ ∀ i < n, validate ((l.drop (14 * i)).take 14) = some true := by
  induction n generalizing letters with
  | zero =>
    rw [List.eq_nil_iff_length_eq_zero.mpr hlength]
    exact ⟨[], rfl, rfl, rfl, by simp, by simp⟩
  | succ n ih =>
    rw [← List.take_append_drop 13 letters] at hletters ⊢
    have hp : (letters.take 13).length = 13 := by
      rw [List.length_take]
      omega
    obtain ⟨hfirst, hrest⟩ := List.forall_mem_append.mp hletters
    obtain ⟨d, hd⟩ := calculate_iff.mpr hfirst
    obtain ⟨l, hl, hllength, hremove, hlletters, hvalid⟩ := ih (by rw [List.length_drop]; omega) hrest
    generalize letters.take 13 = p at *
    refine ⟨p ++ d :: l, luhnize_append hp hd hl, ?_, ?_, ?_, ?_⟩
    · rw [List.length_append, List.length_cons]
      omega
    · rw [removeCheckDigits_append (by omega), hremove]
    · exact List.forall_mem_append.mpr ⟨hfirst, List.forall_mem_cons.mpr ⟨calculate_mem hd, hlletters⟩⟩
    · intro i hi
      cases i with
      | zero =>
        rw [take_piece hp, validate_concat, hd]
        simp
      | succ i =>
        rw [drop_piece hp]
        exact hvalid i (by omega)

/-- **Valid pieces** are the text of their letters. -/
theorem luhnize_of_valid (hlength : l.length = 14 * n) (hvalid : ∀ i < n, validate ((l.drop (14 * i)).take 14) = some true) :
    luhnize n (removeCheckDigits 0 l) = some l ∧ (removeCheckDigits 0 l).length = 13 * n ∧
      (∀ c ∈ removeCheckDigits 0 l, c ∈ inAlphabet) ∧ ∀ c ∈ l, c ∈ inAlphabet := by
  induction n generalizing l with
  | zero =>
    rw [List.eq_nil_iff_length_eq_zero.mpr hlength]
    exact ⟨rfl, rfl, by simp [removeCheckDigits], by simp⟩
  | succ n ih =>
    obtain ⟨p, d, l', rfl, hp, hlength'⟩ := exists_piece hlength
    have hfirst := hvalid 0 (by omega)
    rw [take_piece hp, validate_concat] at hfirst
    obtain ⟨digit, hdigit, heq⟩ := Option.map_eq_some_iff.mp hfirst
    obtain rfl : d = digit := of_decide_eq_true heq
    have hletters := calculate_iff.mp ⟨d, hdigit⟩
    obtain ⟨hluhnize, hcount, hremoved, hrest⟩ := ih hlength' fun i hi => by
      rw [← drop_piece hp]
      exact hvalid (i + 1) (by omega)
    rw [removeCheckDigits_append (by omega)]
    refine ⟨luhnize_append hp hdigit hluhnize, ?_, List.forall_mem_append.mpr ⟨hletters, hremoved⟩,
      List.forall_mem_append.mpr ⟨hletters, List.forall_mem_cons.mpr ⟨calculate_mem hdigit, hrest⟩⟩⟩
    rw [List.length_append]
    omega

/-- The last letter of the digest is in front of the last check digit. -/
theorem getLast?_removeCheckDigits (hlength : l.length = 14 * (n + 1)) :
    (removeCheckDigits 0 l).getLast? = l[14 * n + 12]? := by
  induction n generalizing l with
  | zero =>
    obtain ⟨p, d, l', rfl, hp, hlength'⟩ := exists_piece hlength
    obtain rfl : l' = [] := List.eq_nil_iff_length_eq_zero.mpr hlength'
    rw [removeCheckDigits_append (by omega), removeCheckDigits, List.append_nil, List.getLast?_eq_getElem?, hp,
      List.getElem?_append_left (by omega)]
  | succ n ih =>
    obtain ⟨p, d, l', rfl, hp, hlength'⟩ := exists_piece hlength
    have hsome : (l'[14 * n + 12]?).isSome := by
      rw [List.getElem?_eq_getElem (by omega)]
      rfl
    rw [removeCheckDigits_append (by omega), List.getLast?_append, ih hlength', Option.or_of_isSome hsome,
      List.getElem?_append_right (by omega), hp, show 14 * (n + 1) + 12 - 13 = 14 * n + 12 + 1 by omega,
      List.getElem?_cons_succ]

end CheckDigits

/-! ## Dashes -/

/-- The dashes are where they belong. -/
def Dashed (text : List UInt8) : Prop := ∀ i < text.length, text[i]? = some dash ↔ i % 8 = 7

instance (text : List UInt8) : Decidable (Dashed text) := inferInstanceAs (Decidable (∀ i < _, _))

section Dashes

variable {n : Nat} {l p text : List UInt8}

theorem dashed_short (hlength : text.length = 7) : Dashed text ↔ ∀ c ∈ text, c ≠ dash := by
  constructor
  · rintro h c hc rfl
    obtain ⟨i, hi, heq⟩ := List.mem_iff_getElem.mp hc
    have := (h i hi).mp (List.getElem?_eq_some_iff.mpr ⟨hi, heq⟩)
    omega
  · intro h i hi
    refine iff_of_false (fun heq => h dash (List.mem_of_getElem? heq) rfl) (by omega)

/-- A group of seven and its dash do not matter for the rest. -/
theorem dashed_append (hp : p.length = 7) : Dashed (p ++ dash :: text) ↔ (∀ c ∈ p, c ≠ dash) ∧ Dashed text := by
  have hrest (i : Nat) : (p ++ dash :: text)[i + 8]? = text[i]? := by
    rw [List.getElem?_append_right (by omega), hp, show i + 8 - 7 = i + 1 by omega, List.getElem?_cons_succ]
  constructor
  · intro h
    constructor
    · rw [← dashed_short hp]
      intro i hi
      rw [← h i (by rw [List.length_append]; omega), List.getElem?_append_left hi]
    · intro i hi
      rw [← hrest, h (i + 8) (by rw [List.length_append, List.length_cons]; omega)]
      omega
  · rintro ⟨hfirst, htext⟩ i hi
    rw [List.length_append, List.length_cons] at hi
    rcases lt_trichotomy i 7 with hlt | rfl | hgt
    · rw [List.getElem?_append_left (by omega), (dashed_short hp).mpr hfirst i (by omega)]
    · rw [List.getElem?_append_right (by omega), hp]
      simp
    · obtain ⟨j, rfl⟩ : ∃ j, i = j + 8 := ⟨i - 8, by omega⟩
      rw [hrest, htext j (by omega)]
      omega

theorem filter_letters (h : ∀ c ∈ l, c ≠ dash) : l.filter (· ≠ dash) = l :=
  List.filter_eq_self.mpr fun c hc => decide_eq_true (h c hc)

/-- **Dashes are put in** where they belong, and taken out again. -/
theorem dashed_spec (hlength : l.length = 7 * (n + 1)) (hl : ∀ c ∈ l, c ≠ dash) :
    (dashed (n + 1) l).length + 1 = 8 * (n + 1) ∧ (dashed (n + 1) l).filter (· ≠ dash) = l ∧
      Dashed (dashed (n + 1) l) := by
  induction n generalizing l with
  | zero =>
    have hsame : dashed 1 l = l := List.take_of_length_le (by omega)
    rw [hsame]
    exact ⟨by omega, filter_letters hl, (dashed_short hlength).mpr hl⟩
  | succ n ih =>
    rw [← List.take_append_drop 7 l] at hl ⊢
    obtain ⟨hfirst, hrest⟩ := List.forall_mem_append.mp hl
    have hp : (l.take 7).length = 7 := by
      rw [List.length_take]
      omega
    obtain ⟨hcount, hfilter, hdashed⟩ := ih (by rw [List.length_drop]; omega) hrest
    generalize l.take 7 = p, l.drop 7 = r at *
    have hcons : dashed (n + 1 + 1) (p ++ r) = p ++ dash :: dashed (n + 1) r := by
      rw [dashed, List.take_left' hp, List.drop_left' hp]
      omega
    rw [hcons]
    refine ⟨?_, ?_, (dashed_append hp).mpr ⟨hfirst, hdashed⟩⟩
    · rw [List.length_append, List.length_cons]
      omega
    · rw [List.filter_append, filter_letters hfirst, List.filter_cons_of_neg (by simp), hfilter]

/-- A text with the dashes where they belong is the one of what it has between them. -/
theorem Dashed.eq_dashed (hlength : text.length + 1 = 8 * (n + 1)) (h : Dashed text) :
    text = dashed (n + 1) (text.filter (· ≠ dash)) ∧ (text.filter (· ≠ dash)).length = 7 * (n + 1) := by
  induction n generalizing text with
  | zero =>
    rw [filter_letters ((dashed_short (by omega)).mp h)]
    exact ⟨(List.take_of_length_le (by omega)).symm, by omega⟩
  | succ n ih =>
    have hdash : text[7]? = some dash := (h 7 (by omega)).mpr rfl
    obtain ⟨hlt, hget⟩ := List.getElem?_eq_some_iff.mp hdash
    have hp : (text.take 7).length = 7 := by
      rw [List.length_take]
      omega
    have hsplit : text = text.take 7 ++ dash :: text.drop 8 := by
      rw [← hget, ← List.drop_eq_getElem_cons, List.take_append_drop]
    have hr : (text.drop 8).length + 1 = 8 * (n + 1) := by
      rw [List.length_drop]
      omega
    generalize text.take 7 = p, text.drop 8 = r at *
    subst hsplit
    obtain ⟨hfirst, hrest⟩ := (dashed_append hp).mp h
    obtain ⟨heq, hcount⟩ := ih hr hrest
    rw [List.filter_append, filter_letters hfirst, List.filter_cons_of_neg (by simp)]
    constructor
    · rw [dashed, List.take_left' hp, List.drop_left' hp, ← heq]
      omega
    · rw [List.length_append]
      omega

end Dashes

/-! ## The text of a digest -/

/-- The number that a digest is. -/
def Digest.number (s : Digest) : Nat := Radix.value 256 (s.bytes.map UInt8.toNat)

theorem bytes_lt (bytes : List UInt8) : ∀ d ∈ bytes.map UInt8.toNat, d < 256 :=
  List.forall_mem_map.mpr fun c _ => c.toNat_lt

/-- Bytes are determined by their number and how many they are. -/
theorem bytes_injective {l m : List UInt8} (hlength : l.length = m.length)
    (hvalue : Radix.value 256 (l.map UInt8.toNat) = Radix.value 256 (m.map UInt8.toNat)) : l = m := by
  refine List.map_injective_iff.mpr (fun a b heq => UInt8.toNat_inj.mp heq) ?_
  exact Radix.value_injective (by decide) (by simpa using hlength) (bytes_lt l) (bytes_lt m) hvalue

theorem Digest.number_injective {s s' : Digest} (h : s.number = s'.number) : s = s' := by
  obtain ⟨bytes, hsize⟩ := s
  obtain ⟨bytes', hsize'⟩ := s'
  obtain rfl : bytes = bytes' := bytes_injective (hsize.trans hsize'.symm) h
  rfl

/-- The codes of a digest and its letters with the check digits. -/
structure TextOf (s : Digest) (codes : List Nat) (l : List UInt8) : Prop where
  encode : Base32.encode s.bytes = some (codes.map letter)
  bounded : ∀ c ∈ codes, c < 32
  count : codes.length = 52
  number : Radix.value 32 codes = s.number * 2 ^ 4
  luhnize : luhnize 4 (codes.map letter) = some l
  length : l.length = 56
  remove : removeCheckDigits 0 l = codes.map letter
  letters : ∀ c ∈ l, c ∈ inAlphabet
  valid : ∀ i < 4, validate ((l.drop (14 * i)).take 14) = some true

section TextOf

variable {s : Digest} {codes : List Nat} {l text : List UInt8} {n i : Nat}

theorem exists_textOf (s : Digest) : ∃ codes l, TextOf s codes l := by
  obtain ⟨codes, pad, hencode, hcodes, hpad, hcount, hnumber⟩ := encode_spec s.bytes
  rw [s.size] at hcount
  obtain rfl : pad = 4 := by omega
  have hletters : ∀ c ∈ codes.map letter, c ∈ inAlphabet :=
    List.forall_mem_map.mpr fun c hc => letter_mem c (hcodes c hc)
  obtain ⟨l, hluhnize, hlength, hremove, hl, hvalid⟩ :=
    luhnize_spec (n := 4) (by rw [List.length_map]; omega) hletters
  exact ⟨codes, l, hencode, hcodes, by omega, hnumber, hluhnize, hlength, hremove, hl, hvalid⟩

theorem TextOf.noDash (h : TextOf s codes l) : ∀ c ∈ l, c ≠ dash := by
  rintro c hc rfl
  exact dash_not_letter (h.letters _ hc)

/-- `from_sha256`. -/
theorem TextOf.fromSha256 (h : TextOf s codes l) : fromSha256 s.bytes = some (some ⟨dashed 8 l, s⟩) := by
  rw [DeviceText.fromSha256, h.encode, Option.bind_eq_bind, Option.bind_some,
    if_neg (by rw [List.length_map, h.count]; omega), h.luhnize, Option.bind_eq_bind, Option.bind_some, make,
    dif_pos s.size]
  rfl

/-- The text of a digest without its dashes. -/
theorem take_compact_dashed (hlength : l.length = 56) (hl : ∀ c ∈ l, c ≠ dash) : (compact (dashed 8 l)).take 56 = l := by
  rw [compact, (dashed_spec (n := 7) hlength hl).2.1]
  exact List.take_left' hlength

theorem piece_eq (hi : i < 4) : piece text i = (((compact text).take 56).drop (14 * i)).take 14 := by
  rw [piece, List.drop_take, List.take_take, Nat.min_eq_left (by omega)]

/-- The pieces are looked at up to the first one that is not valid. -/
theorem validateFrom_range (k n : Nat) : (∃ r, validateFrom text (List.range' k n) = some r) ↔
    ∀ i, k ≤ i → i < k + n → (∀ j, k ≤ j → j < i → validate (piece text j) = some true) →
      ∃ r, validate (piece text i) = some r := by
  induction n generalizing k with
  | zero => exact iff_of_true ⟨true, rfl⟩ fun i hk hi => absurd hi (by omega)
  | succ n ih =>
    rw [List.range'_succ, validateFrom]
    cases hvalid : validate (piece text k) with
    | none =>
      refine iff_of_false (by simp) fun h => ?_
      obtain ⟨r, hr⟩ := h k le_rfl (by omega) fun j hkj hjk => absurd hjk (by omega)
      rw [hvalid] at hr
      cases hr
    | some valid =>
      cases valid with
      | false =>
        refine iff_of_true ⟨false, rfl⟩ fun i hk hi hbefore => ?_
        rcases Nat.eq_or_lt_of_le hk with rfl | hlt
        · exact ⟨false, hvalid⟩
        · have := hbefore k le_rfl hlt
          rw [hvalid] at this
          cases this
      | true =>
        dsimp only
        rw [ih]
        constructor
        · intro h i hk hi hbefore
          rcases Nat.eq_or_lt_of_le hk with rfl | hlt
          · exact ⟨true, hvalid⟩
          · exact h i hlt (by omega) fun j hkj hji => hbefore j (by omega) hji
        · intro h i hk hi hbefore
          refine h i (by omega) (by omega) fun j hkj hji => ?_
          rcases Nat.eq_or_lt_of_le hkj with rfl | hlt
          · exact hvalid
          · exact hbefore j hlt hji

theorem validateFrom_true {is : List Nat} :
    validateFrom text is = some true ↔ ∀ i ∈ is, validate (piece text i) = some true := by
  induction is with
  | nil => simp [validateFrom]
  | cons i is ih =>
    rw [validateFrom, List.forall_mem_cons, ← ih]
    split <;> simp_all

/-- 52 letters are a digest, without the last four bits. -/
theorem decode_codes (hcodes : ∀ c ∈ codes, c < 32) (hcount : codes.length = 52) :
    ∃ s : Digest, decode (codes.map letter) = some (some s.bytes) ∧ s.number = Radix.value 32 codes / 2 ^ 4 := by
  have hne : codes ≠ [] := by
    rintro rfl
    cases hcount
  obtain ⟨bytes, hdecode, hsize, hvalue⟩ := decode_spec hne hcodes
  rw [hcount] at hsize hvalue
  exact ⟨⟨bytes, hsize⟩, hdecode, hvalue⟩

/-- What `from_string` makes of a text whose pieces are valid. -/
structure ReadAs (text : List UInt8) (s : Digest) (codes : List Nat) : Prop where
  remove : removeCheckDigits 0 ((compact text).take 56) = codes.map letter
  bounded : ∀ c ∈ codes, c < 32
  count : codes.length = 52
  luhnize : luhnize 4 (codes.map letter) = some ((compact text).take 56)
  letters : ∀ c ∈ (compact text).take 56, c ∈ inAlphabet
  number : s.number = Radix.value 32 codes / 2 ^ 4
  result : fromString text = some (some ⟨text, s⟩)

theorem length_compact (text : List UInt8) : (compact text).length = text.length := by
  have := List.length_filter_le (· ≠ dash) text
  rw [compact, List.length_append, List.length_drop]
  omega

theorem exists_readAs (hlength : text.length = 63) (hvalid : ∀ i < 4, validate (piece text i) = some true) :
    ∃ s codes, ReadAs text s codes := by
  have htake : ((compact text).take 56).length = 14 * 4 := by
    rw [List.length_take, length_compact]
    omega
  obtain ⟨hluhnize, hcount, hletters, hall⟩ := luhnize_of_valid htake fun i hi => by
    rw [← piece_eq hi]
    exact hvalid i hi
  obtain ⟨codes, hcodes, hmap⟩ := codes_of_letters hletters
  rw [← hmap] at hluhnize hcount
  rw [List.length_map] at hcount
  obtain ⟨s, hdecode, hnumber⟩ := decode_codes hcodes hcount
  refine ⟨s, codes, hmap.symm, hcodes, hcount, hluhnize, hall, hnumber, ?_⟩
  have hvalidate : validateFrom text (List.range 4) = some true :=
    validateFrom_true.mpr fun i hi => hvalid i (List.mem_range.mp hi)
  rw [fromString, if_neg (by omega), hvalidate]
  dsimp only
  rw [← hmap, hdecode]
  dsimp only
  rw [make, dif_pos s.size]
  rfl

/-- **The text of a digest is read back.** -/
theorem TextOf.fromString (h : TextOf s codes l) : fromString (dashed 8 l) = some (some ⟨dashed 8 l, s⟩) := by
  have hcompact := take_compact_dashed h.length h.noDash
  have hlength : (dashed 8 l).length = 63 := by
    have : (dashed 8 l).length + 1 = 8 * 8 := (dashed_spec (n := 7) h.length h.noDash).1
    omega
  obtain ⟨s', codes', hread⟩ := exists_readAs hlength fun i hi => by
    rw [piece_eq hi, hcompact]
    exact h.valid i hi
  have hmap := hread.remove
  rw [hcompact, h.remove] at hmap
  obtain rfl := map_letter_injective h.bounded hread.bounded hmap
  have hnumber := hread.number
  rw [h.number, Nat.mul_div_cancel _ (Nat.two_pow_pos 4)] at hnumber
  obtain rfl := Digest.number_injective hnumber
  exact hread.result

end TextOf

/-! ## Texts -/

/-- The text of the id is the one of its digest. -/
def Canonical (id : Id) : Prop := ∃ id', fromSha256 id.sha256.bytes = some (some id') ∧ id'.value = id.value

/-- `from_string` comes to an end, and does not make a second text for a digest. -/
def Answers (text : List UInt8) : Prop := ∃ r, fromString text = some r ∧ ∀ id ∈ r, Canonical id

/-- The pieces in front of this one are valid. -/
def Reached (text : List UInt8) (i : Nat) : Prop := ∀ j < i, validate (piece text j) = some true

/-- The condition on a text of 63 bytes: a piece that is looked at starts with 13 letters, and if all pieces
are valid the dashes are where they belong and the last letter of the digest is `A` or `Q`. -/
structure WellWritten (text : List UInt8) : Prop where
  letters : ∀ i < 4, Reached text i → ∀ c ∈ (piece text i).take 13, c ∈ inAlphabet
  canonical : Reached text 4 →
    Dashed text ∧ ((compact text)[54]? = some (letter 0) ∨ (compact text)[54]? = some (letter 16))

section Texts

variable {text : List UInt8} {s : Digest} {codes : List Nat} {i : Nat}

theorem length_piece (hlength : text.length = 63) (hi : i < 4) : (piece text i).length = 14 := by
  rw [piece, List.length_take, List.length_drop, length_compact]
  omega

theorem validate_iff (hlength : text.length = 63) (hi : i < 4) :
    (∃ r, validate (piece text i) = some r) ↔ ∀ c ∈ (piece text i).take 13, c ∈ inAlphabet := by
  have hpiece := length_piece hlength hi
  have hfirst : (piece text i).dropLast = (piece text i).take 13 := by rw [List.dropLast_eq_take, hpiece]
  rw [validate, if_neg (by omega), hfirst, ← calculate_iff]
  cases calculate ((piece text i).take 13) with
  | none => simp
  | some digit => simp

/-- The last four bits are zero. -/
theorem value_mod {c : Nat} (hlast : codes.getLast? = some c) : Radix.value 32 codes % 16 = c % 16 := by
  obtain ⟨init, rfl⟩ := List.getLast?_eq_some_iff.mp hlast
  rw [Radix.value_concat]
  omega

/-- **A text that is read** is the one of its digest if and only if the dashes are where they belong and the last
four bits are zero. -/
theorem ReadAs.canonical_iff (h : ReadAs text s codes) (hlength : text.length = 63) : Canonical ⟨text, s⟩ ↔
    Dashed text ∧ ((compact text)[54]? = some (letter 0) ∨ (compact text)[54]? = some (letter 16)) := by
  obtain ⟨codes', l, htext⟩ := exists_textOf s
  have hcanonical : Canonical ⟨text, s⟩ ↔ dashed 8 l = text := by
    rw [Canonical, htext.fromSha256]
    simp
  obtain ⟨c, hlast⟩ : ∃ c, codes.getLast? = some c := by
    have hne : codes ≠ [] := by
      rintro rfl
      cases h.count
    exact ⟨_, List.getLast?_eq_some_getLast hne⟩
  have htake : ((compact text).take 56).length = 14 * (3 + 1) := by
    rw [List.length_take, length_compact]
    omega
  have hletter : (compact text)[54]? = some (letter c) := by
    have hremoved := getLast?_removeCheckDigits htake
    rw [h.remove, List.getLast?_map, hlast, List.getElem?_take_of_lt (by omega)] at hremoved
    exact hremoved.symm
  have hc : c < 32 := h.bounded c (List.mem_of_getLast? hlast)
  have hbits : ((compact text)[54]? = some (letter 0) ∨ (compact text)[54]? = some (letter 16)) ↔
      Radix.value 32 codes % 16 = 0 := by
    have hiff (d : Nat) (hd : d < 32) : letter c = letter d ↔ c = d := ⟨letter_injective c hc d hd, congrArg letter⟩
    rw [hletter, Option.some_inj, Option.some_inj, hiff 0 (by omega), hiff 16 (by omega), value_mod hlast]
    omega
  have hsame : Radix.value 32 codes % 16 = 0 ↔ codes' = codes := by
    have hnumber := htext.number
    have hread := h.number
    constructor
    · intro hzero
      refine Radix.value_injective (by decide) (htext.count.trans h.count.symm) htext.bounded h.bounded ?_
      omega
    · rintro rfl
      omega
  rw [hcanonical, hbits, hsame]
  constructor
  · rintro rfl
    have hremove := h.remove
    rw [take_compact_dashed htext.length htext.noDash, htext.remove] at hremove
    exact ⟨(dashed_spec (n := 7) htext.length htext.noDash).2.2, map_letter_injective htext.bounded h.bounded hremove⟩
  · rintro ⟨hdashed, rfl⟩
    obtain ⟨heq, hcount⟩ := hdashed.eq_dashed (show text.length + 1 = 8 * (7 + 1) by omega)
    have hfilter : (compact text).take 56 = text.filter (· ≠ dash) := List.take_left' hcount
    have hluhnize := h.luhnize
    rw [htext.luhnize, hfilter, Option.some_inj] at hluhnize
    rw [hluhnize]
    exact heq.symm

/-- **A text is answered** as it should be exactly if it is well written, or does not have 63 bytes. -/
theorem answers_iff (text : List UInt8) : Answers text ↔ (text.length = 63 → WellWritten text) := by
  by_cases hlength : text.length = 63
  swap
  · refine iff_of_true ⟨none, ?_, by simp⟩ fun h => absurd h hlength
    rw [fromString, if_pos hlength]
  have hstart : (∃ r, validateFrom text (List.range 4) = some r) ↔
      ∀ i < 4, Reached text i → ∀ c ∈ (piece text i).take 13, c ∈ inAlphabet := by
    rw [List.range_eq_range', validateFrom_range]
    constructor
    · intro h i hi hreached
      exact (validate_iff hlength hi).mp (h i (Nat.zero_le i) (by omega) fun j _ hj => hreached j hj)
    · intro h i _ hi hbefore
      exact (validate_iff hlength (by omega)).mpr (h i (by omega) fun j hj => hbefore j (Nat.zero_le j) hj)
  rw [forall_prop_of_true hlength]
  constructor
  · rintro ⟨r, hr, hcanonical⟩
    refine ⟨hstart.mp ?_, fun hall => ?_⟩
    · cases hvalidate : validateFrom text (List.range 4) with
      | none =>
        rw [fromString, if_neg (by omega), hvalidate] at hr
        cases hr
      | some valid => exact ⟨valid, rfl⟩
    · obtain ⟨s, codes, hread⟩ := exists_readAs hlength hall
      rw [hread.result, Option.some_inj] at hr
      exact (hread.canonical_iff hlength).mp (hcanonical _ (by rw [← hr]; rfl))
  · intro h
    obtain ⟨valid, hvalid⟩ := hstart.mpr h.letters
    cases valid with
    | false =>
      refine ⟨none, ?_, by simp⟩
      rw [fromString, if_neg (by omega), hvalid]
    | true =>
      have hall : Reached text 4 := fun i hi => validateFrom_true.mp hvalid i (List.mem_range.mpr hi)
      obtain ⟨s, codes, hread⟩ := exists_readAs hlength hall
      refine ⟨_, hread.result, fun id hid => ?_⟩
      rw [← Option.some_inj.mp hid]
      exact (hread.canonical_iff hlength).mpr (h.canonical hall)

end Texts

end DeviceText

end SyncSpirit
