import SyncSpirit.Lib.Segments
import SyncSpirit.Proto

/-!
# The pieces of a path (`model/misc/path.cpp`)

`path_t` keeps the name as it is and the offsets of its pieces behind the first one. It gets them from the elements
that `std::filesystem::path` finds in the name, with one separator between them. What the iterator gives is the name
cut at these offsets (`iterate_eq`), and that is what stands between the separators exactly if the elements are as
long as the parts of the name (`decomposes_iff`). A separator at the start is an element of its own,
and two separators that follow each other are taken for one.
-/

namespace SyncSpirit

namespace PathPieces

open Segments

/-- The separator of a POSIX system. -/
def sep : UInt8 := 47

/-- The elements that a `std::filesystem::path` iterates over: the root directory, the names, and an empty one behind
a separator in the end. -/
def elements (path : Bytes) : List Bytes :=
  let names := (path.splitOn sep).filter (· ≠ [])
  (if path.head? = some sep then [[sep]] else []) ++ names ++
    (if path.getLast? = some sep ∧ names ≠ [] then [[]] else [])

/-- `std::strlen` of an element that has been narrowed. -/
def strlen (s : Bytes) : Nat := (s.takeWhile (· ≠ 0)).length

/-- `path_t`. -/
structure Path where
  name : Bytes
  pieces : List Nat

/-- The loop of the constructor. -/
def offsets : Nat → List Bytes → List Nat
  | _, [] => []
  | prev, subName :: rest => (prev + 1) :: offsets (prev + (strlen subName + 1)) rest

namespace Path

/-- The constructor. `native` is the name as the path has it, which is made from the `widen`ed name. The first
element of a path without any is not there. -/
def create (native : Bytes → Bytes) (fullName : Bytes) : Option Path :=
  match elements (native fullName) with
  | [] => none
  | rootName :: rest => some ⟨fullName, offsets (strlen rootName) rest⟩

variable (p : Path)

/-- `get_pieces_size`. -/
def getPiecesSize : Nat := p.pieces.length + if p.name ≠ [] then 1 else 0

/-- `get_parent_name`. -/
def getParentName : Bytes :=
  match p.pieces.getLast? with
  | some lastOffset => p.name.take (lastOffset - 1)
  | none => []

/-- `get_own_name`. A view that starts behind the name is `none`. -/
def getOwnName : Option Bytes :=
  match p.pieces.getLast? with
  | some lastOffset => if lastOffset ≤ p.name.length then some (p.name.drop lastOffset) else none
  | none => some p.name

/-- Where a piece starts. -/
def start (position : Nat) : Nat := if position = 0 then 0 else p.pieces.getD (position - 1) 0

/-- `iterator_t::operator*`. `substr` from behind the name throws, which ends the process. -/
def deref (position : Nat) : Option Bytes :=
  let b := p.start position
  if p.name.length < b then none
  else
    match p.pieces[position]? with
    | some e => some ((p.name.drop b).take (e - 1 - b))
    | none => some (p.name.drop b)

/-- So many steps of the iterator. -/
def iterateFrom : Nat → Nat → Option (List Bytes)
  | 0, _ => some []
  | steps + 1, position =>
    (p.deref position).bind fun piece => (iterateFrom steps (position + 1)).map (piece :: ·)

/-- All pieces: the iterator is at its end behind the position `pieces.size()`. -/
def iterate : Option (List Bytes) := p.iterateFrom (p.pieces.length + 1) 0

/-- The path falls into its pieces. -/
structure Decomposed (ps : List Bytes) : Prop where
  iterate : p.iterate = some ps
  size : ps.length = p.getPiecesSize
  joined : [sep].intercalate ps = p.name
  apart : ∀ i piece, p.deref i = some piece → i < p.pieces.length → p.start i + piece.length < p.start (i + 1)
  ownName : p.getOwnName = ps.getLast?
  parentName : p.getParentName = [sep].intercalate ps.dropLast
  separated : ∀ piece ∈ ps, sep ∉ piece
  within : ∀ offset ∈ p.pieces, offset ≤ p.name.length

end Path

/-! ## What the iterator gives -/

section

variable {p : Path} {ls : List Nat} {b i : Nat} {ps : List Bytes}

/-- The offsets are those of pieces as long as the elements. -/
theorem offsets_eq (b : Nat) (rootName : Bytes) (rest : List Bytes) :
    offsets (b + strlen rootName) rest = starts b ((rootName :: rest).dropLast.map strlen) := by
  induction rest generalizing b rootName with
  | nil => rfl
  | cons subName rest ih =>
    rw [List.dropLast_cons_of_ne_nil (List.cons_ne_nil _ _), List.map_cons, starts, offsets, ← ih]
    congr 2
    omega

theorem le_getLast_starts (b : Nat) (ls : List Nat) : b ≤ (b :: starts b ls).getLast (List.cons_ne_nil _ _) := by
  rcases List.mem_cons.mp (List.getLast_mem (List.cons_ne_nil b (starts b ls))) with heq | hmem
  · exact heq.symm.le
  · exact (lt_of_mem_starts hmem).le

/-- **The iterator** cuts the name at the offsets, if the last of them is within the name. -/
theorem iterateFrom_eq (hpieces : p.pieces.drop i = starts b ls) (hstart : p.start i = b) :
    p.iterateFrom (ls.length + 1) i =
      if (b :: starts b ls).getLast (List.cons_ne_nil _ _) ≤ p.name.length then some (cut (p.name.drop b) ls)
      else none := by
  induction ls generalizing i b with
  | nil =>
    have hend : p.pieces[i]? = none := by
      have hlength := congrArg List.length hpieces
      rw [List.length_drop, starts, List.length_nil] at hlength
      exact List.getElem?_eq_none (by omega)
    rw [List.length_nil, Path.iterateFrom, Path.deref, hstart, hend]
    by_cases hb : p.name.length < b
    · rw [if_pos hb, if_neg (by simpa [starts] using hb)]
      rfl
    · rw [if_neg hb, if_pos (by simpa [starts] using hb)]
      rfl
  | cons n ls ih =>
    have hget : p.pieces[i]? = some (b + n + 1) := by
      rw [← List.head?_drop, hpieces]
      rfl
    have hnext : p.start (i + 1) = b + n + 1 := by
      rw [Path.start, if_neg (Nat.succ_ne_zero i), Nat.add_sub_cancel, List.getD_eq_getElem?_getD, hget]
      rfl
    have hdrop : p.pieces.drop (i + 1) = starts (b + n + 1) ls := by
      rw [← List.tail_drop, hpieces]
      rfl
    have hle := le_getLast_starts (b + n + 1) ls
    rw [List.length_cons, Path.iterateFrom, ih hdrop hnext, Path.deref, hstart, hget]
    simp only [starts, cut, List.getLast_cons (List.cons_ne_nil (b + n + 1) _)]
    by_cases hb : p.name.length < b
    · rw [if_pos hb, Option.bind_none, if_neg (by omega)]
    · rw [if_neg hb, Option.bind_some, List.drop_drop, show b + n + 1 - 1 - b = n by omega,
        show b + (n + 1) = b + n + 1 from rfl]
      split <;> rfl

/-! ## When a path falls into its pieces -/

variable {name : Bytes}

/-- Pieces of the given lengths. -/
theorem iterate_eq (name : Bytes) (ls : List Nat) : (Path.mk name (starts 0 ls)).iterate =
    if (0 :: starts 0 ls).getLast (List.cons_ne_nil _ _) ≤ name.length then some (cut name ls) else none := by
  rw [Path.iterate, length_starts]
  exact iterateFrom_eq rfl rfl

theorem lt_of_getElem?_starts {e : Nat} (he : (starts b ls)[i]? = some e) : (b :: starts b ls).getD i 0 < e := by
  induction ls generalizing b i with
  | nil => cases he
  | cons n ls ih =>
    cases i with
    | zero =>
      obtain rfl : b + n + 1 = e := Option.some.inj he
      rw [List.getD_cons_zero]
      omega
    | succ i => exact ih (b := b + n + 1) he

theorem start_eq (p : Path) (i : Nat) : p.start i = (0 :: p.pieces).getD i 0 := by
  cases i with
  | zero => rfl
  | succ i => rfl

/-- No piece reaches the start of the next one. -/
theorem apart {piece : Bytes} (hderef : (Path.mk name (starts 0 ls)).deref i = some piece) (hi : i < ls.length) :
    (Path.mk name (starts 0 ls)).start i + piece.length < (Path.mk name (starts 0 ls)).start (i + 1) := by
  obtain ⟨e, he⟩ : ∃ e, (starts 0 ls)[i]? = some e := by
    rw [← length_starts 0 ls] at hi
    exact ⟨_, List.getElem?_eq_getElem hi⟩
  have hlt := lt_of_getElem?_starts he
  have hnext : (0 :: starts 0 ls).getD (i + 1) 0 = e := by
    rw [List.getD_cons_succ, List.getD_eq_getElem?_getD, he, Option.getD_some]
  rw [Path.deref, start_eq] at hderef
  rw [start_eq, start_eq]
  dsimp only at hderef ⊢
  rw [he] at hderef
  split at hderef
  · cases hderef
  · obtain rfl := Option.some.inj hderef
    rw [hnext, List.length_take]
    omega

theorem getLast?_starts (hls : ls ≠ []) :
    (starts b ls).getLast? = some ((b :: starts b ls).getLast (List.cons_ne_nil _ _)) := by
  obtain ⟨n, ls, rfl⟩ := List.exists_cons_of_ne_nil hls
  rw [starts, List.getLast?_eq_some_getLast (List.cons_ne_nil _ _), List.getLast_cons (List.cons_ne_nil _ _)]

/-- **A path falls into its pieces** exactly if all but the last are as long as the parts between the separators. -/
theorem decomposed_iff (hne : name ≠ []) :
    (∃ ps, (Path.mk name (starts 0 ls)).Decomposed ps) ↔ ls = (name.splitOn sep).dropLast.map List.length := by
  constructor
  · rintro ⟨ps, h⟩
    obtain ⟨-, rfl⟩ : _ ∧ cut name ls = ps := by simpa [iterate_eq] using h.iterate
    have hsplit := List.splitOn_intercalate sep h.separated (cut_ne_nil name ls)
    have hlengths := lengths_eq_of_cut h.joined
    rw [h.joined] at hsplit
    rw [hsplit, hlengths]
  · intro hls
    have hsplit := List.splitOn_ne_nil sep name
    have hjoined : [sep].intercalate (name.splitOn sep) = name := List.intercalate_splitOn sep
    have hcut : cut name ls = name.splitOn sep := by
      have hcut : cut ([sep].intercalate (name.splitOn sep)) _ = _ := cut_intercalate hsplit
      rwa [hjoined, ← hls] at hcut
    have hwithin : ∀ o ∈ starts 0 ls, o ≤ name.length := by
      intro o ho
      rw [hls] at ho
      have hle : o ≤ 0 + ([sep].intercalate (name.splitOn sep)).length := starts_le hsplit ho
      rwa [hjoined, Nat.zero_add] at hle
    have hlast : (0 :: starts 0 ls).getLast (List.cons_ne_nil _ _) ≤ name.length := by
      rcases List.mem_cons.mp (List.getLast_mem (List.cons_ne_nil 0 (starts 0 ls))) with heq | hmem
      · rw [heq]
        exact Nat.zero_le _
      · exact hwithin _ hmem
    have hown : name.drop ((0 :: starts 0 ls).getLast (List.cons_ne_nil _ _)) = (name.splitOn sep).getLast hsplit := by
      have hown := getLast_cut name 0 ls
      simp only [List.drop_zero, hcut] at hown
      exact hown.symm
    refine ⟨name.splitOn sep, ?_⟩
    constructor
    case iterate => rw [iterate_eq, if_pos hlast, hcut]
    case size =>
      have hlength := length_cut name ls
      rw [hcut] at hlength
      rw [hlength, Path.getPiecesSize, length_starts, if_pos hne]
    case joined => exact hjoined
    case apart => exact fun i piece hderef hi => apart hderef (by rwa [length_starts] at hi)
    case separated => exact fun piece hpiece => sep_notMem_of_mem_splitOn hpiece
    case within => exact hwithin
    case ownName =>
      rw [List.getLast?_eq_some_getLast hsplit, ← hown, Path.getOwnName]
      dsimp only
      by_cases hnil : ls = []
      · subst hnil
        rfl
      · rw [getLast?_starts hnil]
        exact if_pos hlast
    case parentName =>
      rw [Path.getParentName]
      dsimp only
      by_cases hnil : ls = []
      · rw [hnil] at hcut
        rw [← hcut, hnil]
        rfl
      · rw [getLast?_starts hnil]
        dsimp only
        -- the name is its parent, a separator and its last piece
        have hdrop : (name.splitOn sep).dropLast ≠ [] := by
          intro hdrop
          rw [hdrop] at hls
          exact hnil hls
        have hname : [sep].intercalate (_ ++ [_]) = [sep].intercalate _ ++ sep :: _ :=
          intercalate_concat hdrop ((name.splitOn sep).getLast hsplit)
        rw [List.dropLast_concat_getLast hsplit, hjoined] at hname
        have hlength := congrArg List.length hname
        have hbehind := congrArg List.length hown
        rw [List.length_append, List.length_cons] at hlength
        rw [List.length_drop] at hbehind
        generalize (0 :: starts 0 ls).getLast (List.cons_ne_nil _ _) = o at *
        generalize [sep].intercalate (name.splitOn sep).dropLast = parent at *
        rw [show o - 1 = parent.length by omega, hname]
        exact List.take_left

/-! ## The elements of a name -/

/-- A name that falls into its pieces in the path that is made from it. -/
def Decomposes (native : Bytes → Bytes) (name : Bytes) : Prop :=
  ∃ p, Path.create native name = some p ∧ ∃ ps, p.Decomposed ps

/-- The lengths of the elements but the last, up to a `0`, are those of the parts of the name. -/
def Measured (native : Bytes → Bytes) (name : Bytes) : Prop :=
  elements (native name) ≠ [] ∧
    (elements (native name)).dropLast.map strlen = (name.splitOn sep).dropLast.map List.length

theorem decomposes_iff_measured {native : Bytes → Bytes} (hne : name ≠ []) :
    Decomposes native name ↔ Measured native name := by
  rw [Decomposes, Measured, Path.create]
  cases elements (native name) with
  | nil => simp
  | cons rootName rest =>
    have hoffsets := offsets_eq 0 rootName rest
    rw [Nat.zero_add] at hoffsets
    simp only [hoffsets, Option.some.injEq, exists_eq_left', ne_eq, List.cons_ne_nil, not_false_eq_true, true_and]
    exact decomposed_iff hne

theorem strlen_eq_iff {s : Bytes} : strlen s = s.length ↔ 0 ∉ s := by
  rw [strlen]
  constructor
  · intro hlength hzero
    have hself : s.takeWhile (· ≠ 0) = s := (List.takeWhile_prefix _).eq_of_length hlength
    rw [← hself] at hzero
    simpa using List.mem_takeWhile_imp hzero
  · intro hzero
    have hself : s.takeWhile (· ≠ 0) = s :=
      List.takeWhile_eq_self_iff.mpr fun c hc => by simpa using ne_of_mem_of_not_mem hc hzero
    rw [hself]

/-- No part but the last is empty or has a `0`. -/
def Plain (name : Bytes) : Prop := ∀ s ∈ (name.splitOn sep).dropLast, s ≠ [] ∧ 0 ∉ s

/-- A name of one part is its only element. -/
theorem elements_of_one (hne : name ≠ []) (hsplit : name.splitOn sep = [name]) : elements name = [name] := by
  have hsep : sep ∉ name := sep_notMem_of_mem_splitOn (hsplit ▸ List.mem_singleton_self name)
  have hhead : name.head? ≠ some sep := fun h => hsep (List.mem_of_head? h)
  have hlast : name.getLast? ≠ some sep := fun h => hsep (List.mem_of_getLast? h)
  rw [elements, hsplit]
  simp [hhead, hlast, hne]

/-- The elements of a name that does not start with a separator. -/
theorem elements_of_relative {s last : Bytes} {init : List Bytes} (hsplit : name.splitOn sep = s :: init ++ [last])
    (hs : s ≠ []) : elements name = (s :: init).filter (· ≠ []) ++ [last] := by
  have hparts : ∀ t ∈ s :: init ++ [last], sep ∉ t := fun t ht => sep_notMem_of_mem_splitOn (hsplit ▸ ht)
  have hname : name = [sep].intercalate (s :: init ++ [last]) := by rw [← hsplit, List.intercalate_splitOn]
  have hhead : name.head? ≠ some sep := by
    rw [hname]
    exact fun h => hs ((head?_intercalate (hparts s (by simp)) (by simp)).mp h)
  have hlast : name.getLast? = some sep ↔ last = [] := by
    rw [hname]
    exact getLast?_intercalate (hparts last (by simp)) (List.cons_ne_nil _ _)
  rw [elements, hsplit]
  by_cases hempty : last = []
  · simp [hhead, hlast, hempty, hs]
  · simp [hhead, hlast, hempty, hs]

/-- **A name that is read as it is.** -/
theorem measured_iff_plain {native : Bytes → Bytes} (hnative : native name = name) (hne : name ≠ []) :
    Measured native name ↔ Plain name := by
  rw [Measured, Plain, hnative]
  obtain ⟨init, last, hsplit⟩ : ∃ init last, name.splitOn sep = init ++ [last] :=
    ⟨_, _, (List.dropLast_concat_getLast (List.splitOn_ne_nil sep name)).symm⟩
  have hname : name = [sep].intercalate (init ++ [last]) := by rw [← hsplit, List.intercalate_splitOn]
  rw [hsplit, List.dropLast_concat]
  cases init with
  | nil =>
    rw [List.nil_append, List.intercalate_singleton] at hname
    rw [elements_of_one hne (by rw [hsplit, hname]; rfl)]
    simp
  | cons s init =>
    by_cases hs : s = []
    · -- the root directory has a length, the part before it has none
      have hparts : ∀ t ∈ s :: init ++ [last], sep ∉ t := fun t ht => sep_notMem_of_mem_splitOn (hsplit ▸ ht)
      have hhead : name.head? = some sep := by
        rw [hname]
        exact (head?_intercalate (hparts s (by simp)) (by simp)).mpr hs
      refine iff_of_false ?_ fun hplain => (hplain s (List.mem_cons_self ..)).1 hs
      rintro ⟨-, hlengths⟩
      rw [elements, if_pos hhead, List.append_assoc, List.singleton_append, List.map_cons] at hlengths
      generalize (name.splitOn sep).filter (· ≠ []) ++ _ = rest at hlengths
      cases rest with
      | nil => cases hlengths
      | cons t rest =>
        rw [List.dropLast_cons_of_ne_nil (List.cons_ne_nil _ _), List.map_cons, hs] at hlengths
        exact absurd (List.head_eq_of_cons_eq hlengths) (by decide)
    · rw [elements_of_relative hsplit hs, List.dropLast_concat]
      generalize s :: init = parts
      constructor
      · rintro ⟨-, hlengths⟩
        have hcount := congrArg List.length hlengths
        rw [List.length_map, List.length_map] at hcount
        have hfull : ∀ t ∈ parts, t ≠ [] := by simpa using List.length_filter_eq_length_iff.mp hcount
        rw [List.filter_eq_self.mpr (by simpa using hfull)] at hlengths
        exact fun t ht => ⟨hfull t ht, strlen_eq_iff.mp (List.map_inj_left.mp hlengths t ht)⟩
      · intro hplain
        rw [List.filter_eq_self.mpr fun t ht => by simpa using (hplain t ht).1]
        exact ⟨by simp, List.map_congr_left fun t ht => strlen_eq_iff.mpr (hplain t ht).2⟩

/-- **Path decomposition.** A name falls into its pieces exactly if the elements that are found in it are as long as
its parts. If it is read as it is, these are the names without an empty part and without a `0` before the last
part. -/
theorem decomposes_iff (native : Bytes → Bytes) (name : Bytes) (hne : name ≠ []) :
    (Decomposes native name ↔ Measured native name) ∧
      (native name = name → (Decomposes native name ↔ Plain name)) :=
  ⟨decomposes_iff_measured hne, fun hnative =>
    (decomposes_iff_measured hne).trans (measured_iff_plain hnative hne)⟩

instance (name : Bytes) : Decidable (Plain name) := inferInstanceAs (Decidable (∀ s ∈ _, _))

/-- "a/bb/c.txt". -/
theorem decomposes_of_text : Decomposes id [97, 47, 98, 98, 47, 99, 46, 116, 120, 116] :=
  ((decomposes_iff id [97, 47, 98, 98, 47, 99, 46, 116, 120, 116] (by decide)).2 rfl).mpr (by decide +kernel)

/-- "/a": the first piece is the separator. -/
theorem leading_separator : ¬ ∀ (native : Bytes → Bytes) (name : Bytes), native name = name → name ≠ [] →
    Decomposes native name := by
  intro h
  obtain ⟨p, hp, ps, hps⟩ := h id [47, 97] rfl (by decide)
  have hpieces : (Path.create id [47, 97]).bind Path.iterate = some [[47], []] := by decide +kernel
  rw [hp, Option.bind_some, hps.iterate, Option.some.injEq] at hpieces
  exact hps.separated [47] (by rw [hpieces]; decide) (by decide)

end

end PathPieces

end SyncSpirit
