import SyncSpirit.Lib.Columns
import SyncSpirit.Lib.LexicalPath
import SyncSpirit.Lib.Segments

/-!
# Names that Windows has no files for (`utils/platform.cpp`)

A peer must not create a file that Windows takes for a device. `path_supported` looks up the stem of every
component in the sorted table of the device names, letter by letter: `bisect` narrows the range of the names that
start with the letters so far (`Covers.bisect`), and a stem is a device if all its letters are used up and one name of
its length is left (`isDevice_iff`).

The letters are made small by a `switch` that keeps the `M` and has no `U`, and the check for control characters
leaves out the last one, 31.

- `pathSupported_eq_false`: what the code refuses;
- `refuses_iff`: when that is what it should refuse.
-/

namespace SyncSpirit

namespace WindowsNames

open Columns LexicalPath Segments

/-! ## The table -/

/-- `reserved_names`. -/
def reservedNames : List (List Char) :=
  ["aux",
    "com0", "com1", "com2", "com3", "com4", "com5", "com6", "com7", "com8", "com9", "com²", "com³", "com¹",
    "con",
    "lpt0", "lpt1", "lpt2", "lpt3", "lpt4", "lpt5", "lpt6", "lpt7", "lpt8", "lpt9", "lpt²", "lpt³", "lpt¹",
    "nul",
    "prn"].map String.toList

/-- `range_t`. -/
structure Range where
  a : Int
  b : Int

/-- `range_t::is_valid`. -/
def Range.isValid (r : Range) : Bool := r.a ≤ r.b

/-- The names of a range. -/
def Range.names (r : Range) : List (List Char) := (reservedNames.drop r.a.toNat).take (r.b + 1 - r.a).toNat

/-- The first loop of `bisect`: the index of the first name with the letter. -/
def scanA (needle : Char) (offset : Nat) : List (List Char) → Int → Option Int
  | [], _ => none
  | source :: rest, a =>
    match source[offset]? with
    | none => scanA needle offset rest (a + 1)
    | some symbol =>
      if symbol = needle then some a
      else if needle < symbol then none
      else scanA needle offset rest (a + 1)

/-- The second loop of `bisect`: the first index with a greater letter or none, or the one behind the range. -/
def scanB (needle : Char) (offset : Nat) : List (List Char) → Int → Int
  | [], b => b
  | source :: rest, b =>
    match source[offset]? with
    | none => b
    | some symbol => if needle < symbol then b else scanB needle offset rest (b + 1)

/-- `bisect`. However the second loop ends, `overmatch_b` is set. -/
def bisect (needle : Char) (offset : Nat) (r : Range) : Range :=
  match scanA needle offset r.names r.a with
  | none => ⟨0, -1⟩
  | some a => ⟨a, scanB needle offset (Range.names ⟨a, r.b⟩) a - 1⟩

/-! ## `path_supported` -/

/-- The `switch` over the letters of a stem. -/
def lowerSymbol (symbol : Char) : Char :=
  match symbol with
  | 'A' => 'a'
  | 'C' => 'c'
  | 'L' => 'l'
  | 'M' => 'M'
  | 'N' => 'n'
  | 'O' => 'o'
  | 'P' => 'p'
  | 'R' => 'r'
  | 'T' => 't'
  | 'X' => 'x'
  | _ => symbol

/-- The loop over the letters of a stem: `true` if it makes `path_supported` return `false`. -/
def stemLoop (size : Nat) : List Char → Nat → Range → Bool
  | [], _, _ => false
  | symbol :: rest, i, range =>
    if symbol = '/' then true
    else
      let range := bisect (lowerSymbol symbol) i range
      if !range.isValid then false
      else if range.a = range.b ∧ i + 1 = size then (reservedNames.getD range.a.toNat []).length = size
      else stemLoop size rest (i + 1) range

/-- The stem is the name of a device. -/
def isDevice (stem : List Char) : Bool := stemLoop stem.length stem 0 ⟨0, reservedNames.length - 1⟩

/-- A letter that no name may have. -/
def isReserved (symbol : Char) : Bool := symbol ∈ ['<', '>', ':', '"', '\\', '|', '?', '*']

/-- An element that a path is made of. -/
inductive Element
  | rootName (name : List Char)
  | rootDirectory
  | fileName (name : List Char)
  deriving DecidableEq

/-- `std::filesystem::path::stem` of an element. -/
def Element.stem : Element → List Char
  | .rootName _ => []
  | .rootDirectory => []
  | .fileName name => LexicalPath.stem name

section

variable (widen : List UInt8 → List Char) (rootNameSize : List Char → Nat)

/-- The elements that a `std::filesystem::path` iterates over. How long its root name is, is up to the
implementation; the other separator has been refused before. -/
def elements (path : List Char) : List Element :=
  let rest := path.drop (rootNameSize path)
  let names := parts rest
  (if 0 < rootNameSize path then [.rootName (path.take (rootNameSize path))] else []) ++
    (if isAbsolute rest then [.rootDirectory] else []) ++ names.map .fileName ++
    (if rest.getLast? = some '/' ∧ names ≠ [] then [.fileName []] else [])

/-- `platform_t::path_supported` on Windows. `widen` is `boost::nowide::widen`. -/
def pathSupported (strPath : List UInt8) : Bool :=
  let wname := widen strPath
  if wname.any fun symbol => symbol.val < 31 || isReserved symbol then false
  else !(elements rootNameSize wname).any fun element => isDevice element.stem

end

/-! ## The search -/

variable {needle c : Char} {offset i : Nat} {pre mid post rest : List (List Char)} {p stem : List Char}
  {r : Range} {a b : Int}

theorem sorted_reservedNames : reservedNames.Pairwise (· < ·) := by decide +kernel

theorem nodup_reservedNames : reservedNames.Nodup := by decide +kernel

/-- No name starts with another one. -/
theorem prefixFree_reservedNames : ∀ u ∈ reservedNames, ∀ v ∈ reservedNames, u <+: v → u = v := by decide +kernel

theorem scanA_append (hpre : ∀ w ∈ pre, ∀ x, w[offset]? = some x → x < needle) (rest : List (List Char)) (a : Int) :
    scanA needle offset (pre ++ rest) a = scanA needle offset rest (a + pre.length) := by
  induction pre generalizing a with
  | nil => simp
  | cons w pre ih =>
    obtain ⟨hw, hpre⟩ := List.forall_mem_cons.mp hpre
    have hnext : scanA needle offset (pre ++ rest) (a + 1) =
        scanA needle offset rest (a + (w :: pre).length) := by
      rw [ih hpre, List.length_cons]
      push_cast
      congr 1
      ring
    rw [List.cons_append, scanA]
    cases hx : w[offset]? with
    | none => exact hnext
    | some x =>
      have hlt := hw x hx
      dsimp only
      rw [if_neg hlt.ne, if_neg (not_lt.mpr hlt.le)]
      exact hnext

theorem scanA_greater (hpost : ∀ w ∈ post, ∃ x, w[offset]? = some x ∧ needle < x) (a : Int) :
    scanA needle offset post a = none := by
  cases post with
  | nil => rfl
  | cons w post =>
    obtain ⟨x, hx, hlt⟩ := hpost w (List.mem_cons_self ..)
    rw [scanA, hx]
    dsimp only
    rw [if_neg hlt.ne', if_pos hlt]

theorem scanA_mid (hmid : ∀ w ∈ mid, w[offset]? = some needle) (hne : mid ≠ []) (rest : List (List Char)) (a : Int) :
    scanA needle offset (mid ++ rest) a = some a := by
  obtain ⟨w, mid, rfl⟩ := List.exists_cons_of_ne_nil hne
  rw [List.cons_append, scanA, hmid w (List.mem_cons_self ..)]
  dsimp only
  rw [if_pos rfl]

theorem scanB_append (hmid : ∀ w ∈ mid, w[offset]? = some needle)
    (hpost : ∀ w ∈ post, ∃ x, w[offset]? = some x ∧ needle < x) (b : Int) :
    scanB needle offset (mid ++ post) b = b + mid.length := by
  induction mid generalizing b with
  | nil =>
    cases post with
    | nil => simp [scanB]
    | cons w post =>
      obtain ⟨x, hx, hlt⟩ := hpost w (List.mem_cons_self ..)
      rw [List.nil_append, scanB, hx]
      dsimp only
      rw [if_pos hlt]
      simp
  | cons w mid ih =>
    obtain ⟨hw, hmid⟩ := List.forall_mem_cons.mp hmid
    rw [List.cons_append, scanB, hw]
    dsimp only
    rw [if_neg (lt_irrefl needle), ih hmid, List.length_cons]
    push_cast
    ring

/-- The range of the names that start with some letters. -/
structure Covers (r : Range) (p : List Char) : Prop where
  nonneg : 0 ≤ r.a
  valid : r.a ≤ r.b
  names : r.names = withPrefix reservedNames p
  size : (r.names.length : Int) = r.b + 1 - r.a

theorem Covers.start : Covers ⟨0, reservedNames.length - 1⟩ [] where
  nonneg := le_rfl
  valid := by decide
  names := by rw [withPrefix_nil]; decide
  size := by decide

/-- The names of a range without the first ones. -/
theorem names_drop (ha : 0 ≤ r.a) (n : Nat) : Range.names ⟨r.a + n, r.b⟩ = r.names.drop n := by
  rw [Range.names, Range.names, List.drop_take, List.drop_drop]
  congr 1
  · dsimp only
    omega
  · congr 1
    dsimp only
    omega

/-- **One letter**: either no name goes on with it, or the range of those that do is found. -/
theorem Covers.bisect (h : Covers r p) (c : Char) :
    withPrefix reservedNames (p ++ [c]) = [] ∧ (bisect c p.length r).isValid = false ∨
      Covers (bisect c p.length r) (p ++ [c]) := by
  have hsorted := sortedAt_withPrefix sorted_reservedNames p
  rw [← h.names] at hsorted
  obtain ⟨pre, mid, post, hsplit, hpre, hmid, hpost⟩ := exists_split hsorted c
  have hfilter : withPrefix reservedNames (p ++ [c]) = mid := by
    rw [withPrefix_concat, ← h.names, hsplit, List.filter_append, List.filter_append]
    have hpre' : pre.filter (fun w => w[p.length]? = some c) = [] := by
      refine List.filter_eq_nil_iff.mpr fun w hw hc => ?_
      exact lt_irrefl c (hpre w hw c (by simpa using hc))
    have hmid' : mid.filter (fun w => w[p.length]? = some c) = mid :=
      List.filter_eq_self.mpr fun w hw => by simpa using hmid w hw
    have hpost' : post.filter (fun w => w[p.length]? = some c) = [] := by
      refine List.filter_eq_nil_iff.mpr fun w hw hc => ?_
      obtain ⟨x, hx, hlt⟩ := hpost w hw
      obtain rfl : x = c := Option.some.inj (hx.symm.trans (by simpa using hc))
      exact lt_irrefl x hlt
    rw [hpre', hmid', hpost', List.nil_append, List.append_nil]
  by_cases hne : mid = []
  · refine .inl ⟨hfilter.trans hne, ?_⟩
    rw [WindowsNames.bisect, hsplit, scanA_append hpre, hne, List.nil_append, scanA_greater hpost]
    rfl
  · refine .inr ?_
    have hdrop : Range.names ⟨r.a + pre.length, r.b⟩ = mid ++ post := by
      rw [names_drop h.nonneg, hsplit, List.drop_left]
    have hbisect : WindowsNames.bisect c p.length r =
        ⟨r.a + pre.length, r.a + pre.length + mid.length - 1⟩ := by
      rw [WindowsNames.bisect, hsplit, scanA_append hpre, scanA_mid hmid hne]
      dsimp only
      rw [hdrop, scanB_append hmid hpost]
    rw [hbisect]
    have hpos : 0 < mid.length := List.length_pos_iff.mpr hne
    have hnonneg := h.nonneg
    have hlength := congrArg List.length hdrop
    rw [Range.names, List.length_take, List.length_append] at hlength
    dsimp only at hlength
    have hnames : Range.names ⟨r.a + pre.length, r.a + pre.length + mid.length - 1⟩ = mid := by
      have htake : (mid ++ post).take mid.length = mid := List.take_left
      rw [← hdrop, Range.names, List.take_take] at htake
      dsimp only at htake
      rw [Nat.min_eq_left (by omega)] at htake
      rw [Range.names]
      dsimp only
      rw [show (r.a + pre.length + mid.length - 1 + 1 - (r.a + pre.length)).toNat = mid.length by omega]
      exact htake
    refine ⟨by dsimp only; omega, by dsimp only; omega, hnames.trans hfilter.symm, ?_⟩
    rw [hnames]
    dsimp only
    omega

/-- One name is left. -/
theorem Covers.single (h : Covers r p) (hone : r.a = r.b) :
    withPrefix reservedNames p = [reservedNames.getD r.a.toNat []] := by
  have hnonneg := h.nonneg
  have hsize := h.size
  rw [h.names] at hsize
  obtain ⟨w, hw⟩ := List.length_eq_one_iff.mp (show (withPrefix reservedNames p).length = 1 by omega)
  have hnames : r.names = [w] := h.names.trans hw
  rw [Range.names, show (r.b + 1 - r.a).toNat = 1 by omega, List.take_one] at hnames
  have hget : reservedNames[r.a.toNat]? = some w := by
    rw [List.head?_drop] at hnames
    cases hget : reservedNames[r.a.toNat]? with
    | none => simp [hget] at hnames
    | some v => simpa [hget] using hnames
  rw [hw, List.getD_eq_getElem?_getD, hget, Option.getD_some]

/-- **The loop over a stem** finds out whether it is a name of the table. -/
theorem stemLoop_iff (h : Covers r p) (hne : stem ≠ []) (hsep : '/' ∉ stem) :
    stemLoop (p.length + stem.length) stem p.length r = true ↔ p ++ stem.map lowerSymbol ∈ reservedNames := by
  induction stem generalizing p r with
  | nil => exact absurd rfl hne
  | cons c stem ih =>
    rw [List.mem_cons, not_or] at hsep
    have hsize : p.length + (c :: stem).length = (p ++ [lowerSymbol c]).length + stem.length := by
      simp only [List.length_cons, List.length_append, List.length_nil]
      omega
    have hstem : p ++ (c :: stem).map lowerSymbol = (p ++ [lowerSymbol c]) ++ stem.map lowerSymbol := by simp
    rw [stemLoop, if_neg (Ne.symm hsep.1), hsize, hstem]
    dsimp only
    rcases h.bisect (lowerSymbol c) with ⟨hnone, hinvalid⟩ | hcovers
    · rw [hinvalid, if_pos (by rfl)]
      refine ⟨fun hfalse => absurd hfalse Bool.false_ne_true, fun hmem => ?_⟩
      have : _ ∈ withPrefix reservedNames (p ++ [lowerSymbol c]) :=
        mem_withPrefix.mpr ⟨hmem, List.prefix_append _ _⟩
      rw [hnone] at this
      exact absurd this List.not_mem_nil
    · have hvalid : (WindowsNames.bisect (lowerSymbol c) p.length r).isValid = true := decide_eq_true hcovers.valid
      rw [hvalid, if_neg (by decide)]
      cases stem with
      | cons d stem =>
        rw [if_neg (by simp)]
        have hrec := ih hcovers (by simp) hsep.2
        rw [List.length_append, List.length_singleton] at hrec
        rw [List.length_append, List.length_singleton]
        exact hrec
      | nil =>
        rw [List.map_nil, List.append_nil, List.length_nil, Nat.add_zero]
        generalize WindowsNames.bisect (lowerSymbol c) p.length r = r' at *
        generalize hq : p ++ [lowerSymbol c] = q at *
        have hlength : p.length + 1 = q.length := by rw [← hq, List.length_append, List.length_singleton]
        by_cases hone : r'.a = r'.b
        · rw [if_pos ⟨hone, hlength⟩, decide_eq_true_iff]
          have hsingle := hcovers.single hone
          generalize reservedNames.getD r'.a.toNat [] = w at *
          constructor
          · -- the one name that starts with the letters has no others
            intro hlen
            have hw : w ∈ withPrefix reservedNames q := hsingle ▸ List.mem_singleton_self w
            obtain ⟨hmem, hprefix⟩ := mem_withPrefix.mp hw
            exact hprefix.eq_of_length hlen.symm ▸ hmem
          · intro hmem
            rw [withPrefix_of_mem nodup_reservedNames prefixFree_reservedNames hmem] at hsingle
            exact congrArg List.length (List.singleton_injective hsingle).symm
        · rw [if_neg fun hand => hone hand.1, stemLoop]
          refine ⟨fun hfalse => absurd hfalse Bool.false_ne_true, fun hmem => absurd ?_ hone⟩
          have hsize := hcovers.size
          rw [hcovers.names, withPrefix_of_mem nodup_reservedNames prefixFree_reservedNames hmem,
            List.length_singleton] at hsize
          omega

theorem isDevice_iff (hsep : '/' ∉ stem) : isDevice stem = true ↔ stem.map lowerSymbol ∈ reservedNames := by
  by_cases hne : stem = []
  · subst hne
    decide
  · have hloop := stemLoop_iff Covers.start hne hsep
    rw [List.length_nil, Nat.zero_add, List.nil_append] at hloop
    exact hloop

/-! ## Small letters -/

/-- The symbols of the table. -/
def tableSymbols : List Char :=
  ['a', 'c', 'l', 'm', 'n', 'o', 'p', 'r', 't', 'u', 'x',
    '0', '1', '2', '3', '4', '5', '6', '7', '8', '9', '²', '³', '¹']

theorem mem_tableSymbols {w : List Char} (hw : w ∈ reservedNames) : ∀ x ∈ w, x ∈ tableSymbols := by
  have hall : reservedNames.all (fun w => w.all fun x => tableSymbols.contains x) = true := by decide +kernel
  simpa using List.all_eq_true.mp hall w hw

theorem tableSymbols_small {x : Char} (hx : x ∈ tableSymbols) :
    x.toLower = x ∧ lowerSymbol x = x ∧ x ≠ 'M' ∧ x ≠ 'U' := by
  have hall : tableSymbols.all (fun x => x.toLower = x ∧ lowerSymbol x = x ∧ x ≠ 'M' ∧ x ≠ 'U') = true := by
    decide +kernel
  exact of_decide_eq_true (List.all_eq_true.mp hall x hx)

theorem lowerSymbol_capital {n : Nat} (hn : n ∈ List.range' 65 26) {x : Char} (hx : x ∈ tableSymbols) :
    lowerSymbol (.ofNat n) = x ↔ (Char.ofNat n).toLower = x ∧ Char.ofNat n ≠ 'M' ∧ Char.ofNat n ≠ 'U' := by
  have hall : (List.range' 65 26).all (fun n => tableSymbols.all fun x => decide (lowerSymbol (.ofNat n) = x ↔
      (Char.ofNat n).toLower = x ∧ Char.ofNat n ≠ 'M' ∧ Char.ofNat n ≠ 'U')) = true := by decide +kernel
  exact of_decide_eq_true (List.all_eq_true.mp (List.all_eq_true.mp hall n hn) x hx)

/-- **The `switch`** makes the symbols of the table of all letters but `M` and `U`. -/
theorem lowerSymbol_eq_iff {x : Char} (hx : x ∈ tableSymbols) (c : Char) :
    lowerSymbol c = x ↔ c.toLower = x ∧ c ≠ 'M' ∧ c ≠ 'U' := by
  obtain ⟨hlower, hkept, hM, hU⟩ := tableSymbols_small hx
  by_cases hcapital : c.toNat ∈ List.range' 65 26
  · have hcapital' := lowerSymbol_capital hcapital hx
    rwa [Char.ofNat_toNat] at hcapital'
  · have hkeep : lowerSymbol c = c := by
      unfold lowerSymbol
      split <;> first | rfl | exact absurd (by decide) hcapital
    have hsame : c.toLower = c := by
      refine dif_neg fun hrange => hcapital (List.mem_range'_1.mpr ?_)
      have h65 : 65 ≤ c.toNat := hrange.1
      have h90 : c.toNat ≤ 90 := hrange.2
      omega
    rw [hkeep, hsame]
    refine ⟨?_, And.left⟩
    rintro rfl
    exact ⟨rfl, hM, hU⟩

theorem map_lowerSymbol_eq_iff {w : List Char} (hw : ∀ x ∈ w, x ∈ tableSymbols) (stem : List Char) :
    stem.map lowerSymbol = w ↔ stem.map Char.toLower = w ∧ 'M' ∉ stem ∧ 'U' ∉ stem := by
  induction stem generalizing w with
  | nil => simp
  | cons c stem ih =>
    cases w with
    | nil => simp
    | cons x w =>
      obtain ⟨hx, hw⟩ := List.forall_mem_cons.mp hw
      rw [List.map_cons, List.map_cons, List.cons.injEq, List.cons.injEq, lowerSymbol_eq_iff hx, ih hw,
        List.mem_cons, List.mem_cons, not_or, not_or, ne_comm, @ne_comm _ c 'U']
      tauto

/-! ## What is refused -/

section

variable {widen : List UInt8 → List Char} {rootNameSize : List Char → Nat} {path : List Char} {e : Element}

/-- The stem is the name of a device, in whatever letters. -/
def DeviceName (stem : List Char) : Prop := stem.map Char.toLower ∈ reservedNames

instance (stem : List Char) : Decidable (DeviceName stem) := inferInstanceAs (Decidable (_ ∈ _))

theorem sep_notMem_stem (he : e ∈ elements rootNameSize path) : '/' ∉ e.stem := by
  cases e with
  | rootName name => exact List.not_mem_nil
  | rootDirectory => exact List.not_mem_nil
  | fileName name =>
    refine fun hmem => absurd (mem_of_mem_stem hmem) ?_
    simp only [elements, List.mem_append, List.mem_map] at he
    rcases he with ((hroot | hdirectory) | ⟨part, hpart, hname⟩) | hlast
    · split at hroot <;> simp at hroot
    · split at hdirectory <;> simp at hdirectory
    · cases hname
      exact sep_notMem_of_mem_splitOn (List.mem_filter.mp hpart).1
    · split at hlast
      · cases List.mem_singleton.mp hlast
        exact List.not_mem_nil
      · simp at hlast

theorem isDevice_stem_iff (he : e ∈ elements rootNameSize path) :
    isDevice e.stem = true ↔ DeviceName e.stem ∧ 'M' ∉ e.stem ∧ 'U' ∉ e.stem := by
  rw [isDevice_iff (sep_notMem_stem he)]
  constructor
  · intro hmem
    obtain ⟨hlower, hletters⟩ := (map_lowerSymbol_eq_iff (mem_tableSymbols hmem) e.stem).mp rfl
    exact ⟨by rwa [DeviceName, hlower], hletters⟩
  · rintro ⟨hmem, hletters⟩
    rwa [(map_lowerSymbol_eq_iff (mem_tableSymbols hmem) e.stem).mpr ⟨rfl, hletters⟩]

/-- What the check is for: control characters, reserved symbols and names of devices. -/
def Refused (rootNameSize : List Char → Nat) (path : List Char) : Prop :=
  (∃ c ∈ path, c.val < 32 ∨ isReserved c) ∨ ∃ e ∈ elements rootNameSize path, DeviceName e.stem

/-- What the code does not see: the last control character, and a device with a capital `M` or `U`. -/
def Unseen (rootNameSize : List Char → Nat) (path : List Char) : Prop :=
  (∃ c ∈ path, c.val = 31) ∨ ∃ e ∈ elements rootNameSize path, DeviceName e.stem ∧ ('M' ∈ e.stem ∨ 'U' ∈ e.stem)

/-- What it sees. -/
def Seen (rootNameSize : List Char → Nat) (path : List Char) : Prop :=
  (∃ c ∈ path, c.val < 31 ∨ isReserved c) ∨
    ∃ e ∈ elements rootNameSize path, DeviceName e.stem ∧ 'M' ∉ e.stem ∧ 'U' ∉ e.stem

theorem pathSupported_eq_false (widen : List UInt8 → List Char) (rootNameSize : List Char → Nat)
    (strPath : List UInt8) :
    pathSupported widen rootNameSize strPath = false ↔ Seen rootNameSize (widen strPath) := by
  have hsymbols : ((widen strPath).any fun symbol => symbol.val < 31 || isReserved symbol) = true ↔
      ∃ c ∈ widen strPath, c.val < 31 ∨ isReserved c := by simp
  have hstems : ((elements rootNameSize (widen strPath)).any fun element => isDevice element.stem) = true ↔
      ∃ e ∈ elements rootNameSize (widen strPath), DeviceName e.stem ∧ 'M' ∉ e.stem ∧ 'U' ∉ e.stem := by
    rw [List.any_eq_true]
    exact exists_congr fun e => and_congr_right fun he => isDevice_stem_iff he
  rw [pathSupported, Seen, ← hsymbols, ← hstems]
  by_cases hsymbol : ((widen strPath).any fun symbol => symbol.val < 31 || isReserved symbol) = true
  · rw [if_pos hsymbol]
    exact iff_of_true rfl (.inl hsymbol)
  · rw [if_neg hsymbol, Bool.not_eq_false']
    exact (or_iff_right hsymbol).symm

theorem refused_iff : Refused rootNameSize path ↔ Seen rootNameSize path ∨ Unseen rootNameSize path := by
  have hcontrol (c : Char) : c.val < 32 ↔ c.val < 31 ∨ c.val = 31 := by
    rw [UInt32.lt_iff_toNat_lt, UInt32.lt_iff_toNat_lt, ← UInt32.toNat_inj]
    show c.val.toNat < 32 ↔ c.val.toNat < 31 ∨ c.val.toNat = 31
    omega
  constructor
  · rintro (⟨c, hc, hcontrol' | hreserved⟩ | ⟨e, he, hdevice⟩)
    · rcases (hcontrol c).mp hcontrol' with hlt | heq
      · exact .inl (.inl ⟨c, hc, .inl hlt⟩)
      · exact .inr (.inl ⟨c, hc, heq⟩)
    · exact .inl (.inl ⟨c, hc, .inr hreserved⟩)
    · by_cases hletters : 'M' ∈ e.stem ∨ 'U' ∈ e.stem
      · exact .inr (.inr ⟨e, he, hdevice, hletters⟩)
      · exact .inl (.inr ⟨e, he, hdevice, not_or.mp hletters⟩)
  · rintro ((⟨c, hc, hlt | hreserved⟩ | ⟨e, he, hdevice, -⟩) | ⟨c, hc, heq⟩ | ⟨e, he, hdevice, -⟩)
    · exact .inl ⟨c, hc, .inl ((hcontrol c).mpr (.inl hlt))⟩
    · exact .inl ⟨c, hc, .inr hreserved⟩
    · exact .inr ⟨e, he, hdevice⟩
    · exact .inl ⟨c, hc, .inl ((hcontrol c).mpr (.inr heq))⟩
    · exact .inr ⟨e, he, hdevice⟩

/-- **A path is refused as it should be** exactly if there is nothing that the code does not see, or something else
that it does. -/
theorem refuses_iff (widen : List UInt8 → List Char) (rootNameSize : List Char → Nat) (strPath : List UInt8) :
    (pathSupported widen rootNameSize strPath = false ↔ Refused rootNameSize (widen strPath)) ↔
      (Unseen rootNameSize (widen strPath) → Seen rootNameSize (widen strPath)) := by
  rw [pathSupported_eq_false, refused_iff]
  exact ⟨fun h hunseen => h.mpr (.inr hunseen), fun h => ⟨.inl, fun hor => hor.elim id h⟩⟩

/-- A file "AUX" is not refused. -/
theorem aux_in_capitals : ¬ ∀ (widen : List UInt8 → List Char) (rootNameSize : List Char → Nat)
    (strPath : List UInt8),
    pathSupported widen rootNameSize strPath = false ↔ Refused rootNameSize (widen strPath) := by
  intro h
  -- text of ASCII letters is widened letter by letter
  let ascii : List UInt8 → List Char := List.map fun b => .ofNat b.toNat
  have hsupported : pathSupported ascii (fun _ => 0) [65, 85, 88] = true := by decide +kernel
  have hrefused : Refused (fun _ => 0) (ascii [65, 85, 88]) :=
    .inr ⟨.fileName "AUX".toList, by decide +kernel, by decide +kernel⟩
  exact absurd ((h ascii (fun _ => 0) [65, 85, 88]).mpr hrefused) (by rw [hsupported]; decide)

end

end WindowsNames

end SyncSpirit
