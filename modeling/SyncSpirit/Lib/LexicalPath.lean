import Mathlib

/-!
# Paths as strings

Paths of a POSIX system in the way `std::filesystem::path` handles them, without a look
at the disk: a path is a string, its parts stand between separators.

- `join`: one path under another;
- `fileName`, `parentPath`, `stem`, `extension`: the last part and its pieces;
- `normal`: the parts of the lexically normal form;
- `Inside`: strictly below a directory;
- `inside_join_iff`: the names that are inside whatever directory they are joined to.
-/

namespace LexicalPath

/-- A piece of a path between two separators. -/
abbrev Part := List Char

/-- The part that leads one directory up. -/
def up : Part := ['.', '.']

/-- The path starts at the root directory. -/
def isAbsolute (path : List Char) : Bool := path.head? = some '/'

/-- The parts of a path; separators that follow each other count as one. -/
def parts (path : List Char) : List Part := (path.splitOn '/').filter (· ≠ [])

/-- `base / name`. -/
def join (base name : List Char) : List Char :=
  if isAbsolute name then name
  else if base = [] ∨ base.getLast? = some '/' then base ++ name
  else base ++ '/' :: name

/-- `filename`: what is behind the last separator. -/
def fileName (path : List Char) : Part := path.rtakeWhile (· ≠ '/')

/-- `parent_path`: what is before the last part, without the separators between. -/
def parentPath (path : List Char) : List Char :=
  match (path.rdropWhile (· ≠ '/')).rdropWhile (· = '/') with
  | [] => if path.rdropWhile (· ≠ '/') = [] then [] else ['/']
  | dir => dir

/-- `stem`: a last part without what is behind its last dot, unless the dot is all there
is before. -/
def stem (name : Part) : Part :=
  if name = up then name
  else
    match name.rdropWhile (· ≠ '.') with
    | [] | [_] => name
    | front => front.dropLast

/-- `extension`: the last dot and what is behind it. -/
def extension (name : Part) : Part :=
  if name = up then []
  else
    match name.rdropWhile (· ≠ '.') with
    | [] | [_] => []
    | _ => '.' :: name.rtakeWhile (· ≠ '.')

/-- One part, with the directories above it; those of a relative path may be unknown. -/
def enter (absolute : Bool) (above : List Part) (part : Part) : List Part :=
  if part = ['.'] then above
  else if part = up then
    match above with
    | [] => if absolute then [] else [up]
    | dir :: rest => if dir = up then up :: above else rest
  else part :: above

/-- `lexically_normal`, in parts. -/
def normal (path : List Char) : List Part := ((parts path).foldl (enter (isAbsolute path)) []).reverse

/-- Strictly below a directory, as far as the strings tell. -/
def Inside (dir path : List Char) : Prop :=
  isAbsolute path = isAbsolute dir ∧ ∃ below, below ≠ [] ∧ up ∉ below ∧ normal path = normal dir ++ below

/-- A name that leads below the directory it is used in. -/
def Confined (name : List Char) : Prop :=
  isAbsolute name = false ∧ normal name ≠ [] ∧ up ∉ normal name

instance (name : List Char) : Decidable (Confined name) :=
  inferInstanceAs (Decidable (_ ∧ _ ∧ _))

/-! ## Parts of a joined path -/

@[simp] theorem parts_nil : parts [] = [] := rfl

theorem parts_append_sep (a b : List Char) : parts (a ++ '/' :: b) = parts a ++ parts b := by
  rw [parts, List.splitOn_append_cons_self, List.filter_append]
  rfl

theorem parts_cons_sep (a : List Char) : parts ('/' :: a) = parts a := parts_append_sep [] a

theorem parts_of_part {part : Part} (hne : part ≠ []) (hsep : '/' ∉ part) : parts part = [part] := by
  rw [parts, List.splitOn_eq_singleton hsep]
  simp [hne]

theorem parts_append_of_getLast {base : List Char} (h : base.getLast? = some '/') (name : List Char) :
    parts (base ++ name) = parts base ++ parts name := by
  obtain ⟨front, rfl⟩ := List.getLast?_eq_some_iff.mp h
  rw [List.append_assoc, List.singleton_append, parts_append_sep, parts_append_sep, parts_nil,
    List.append_nil]

theorem parts_join {name : List Char} (h : isAbsolute name = false) (base : List Char) :
    parts (join base name) = parts base ++ parts name := by
  unfold join
  rw [if_neg (by simp [h])]
  split
  · rename_i hbase
    rcases hbase with rfl | hlast
    · rfl
    · exact parts_append_of_getLast hlast name
  · exact parts_append_sep base name

theorem isAbsolute_append {base : List Char} (hne : base ≠ []) (rest : List Char) :
    isAbsolute (base ++ rest) = isAbsolute base := by
  cases base with
  | nil => exact absurd rfl hne
  | cons c cs => rfl

theorem isAbsolute_join {name : List Char} (h : isAbsolute name = false) (base : List Char) :
    isAbsolute (join base name) = isAbsolute base := by
  unfold join
  rw [if_neg (by simp [h])]
  by_cases hbase : base = []
  · subst hbase
    rw [if_pos (.inl rfl), List.nil_append, h]
    rfl
  · split <;> exact isAbsolute_append hbase _

/-! ## The way through the directories -/

section Enter

variable {absolute : Bool} {above : List Part} {part dir : Part}

theorem enter_dot (absolute : Bool) (above : List Part) : enter absolute above ['.'] = above := rfl

theorem enter_up_cons (h : dir ≠ up) : enter absolute (dir :: above) up = above := by
  show (if dir = up then up :: dir :: above else above) = above
  rw [if_neg h]

theorem enter_of_name (hdot : part ≠ ['.']) (hup : part ≠ up) : enter absolute above part = part :: above := by
  unfold enter
  rw [if_neg hdot, if_neg hup]

end Enter

/-- Once the way has left what is known, it does not come back. -/
theorem up_mem_foldl {above : List Part} (h : up ∈ above) (ps : List Part) :
    up ∈ ps.foldl (enter false) above := by
  induction ps generalizing above with
  | nil => exact h
  | cons p ps ih =>
    refine ih ?_
    by_cases hdot : p = ['.']
    · rwa [hdot, enter_dot]
    · by_cases hup : p = up
      · cases above with
        | nil => cases h
        | cons dir rest =>
          by_cases hdir : dir = up
          · simp [enter, hup, hdir, up]
          · rw [hup, enter_up_cons hdir]
            exact (List.mem_cons.mp h).resolve_left (Ne.symm hdir)
      · rw [enter_of_name hdot hup]
        exact List.mem_cons_of_mem _ h

/-- A way that stays below is the same wherever it starts. -/
theorem foldl_enter_append {absolute : Bool} {ps : List Part} {above base : List Part}
    (habove : up ∉ above) (h : up ∉ ps.foldl (enter false) above) :
    ps.foldl (enter absolute) (above ++ base) = ps.foldl (enter false) above ++ base := by
  induction ps generalizing above with
  | nil => rfl
  | cons p ps ih =>
    rw [List.foldl_cons] at h
    have hnext : up ∉ enter false above p := fun hmem => h (up_mem_foldl hmem ps)
    have hstep : enter absolute (above ++ base) p = enter false above p ++ base := by
      by_cases hdot : p = ['.']
      · rw [hdot, enter_dot, enter_dot]
      · by_cases hup : p = up
        · cases above with
          | nil =>
            rw [hup] at hnext
            exact absurd (List.mem_singleton.mpr rfl) hnext
          | cons dir rest =>
            have hdir : dir ≠ up := fun heq => habove (by simp [heq])
            rw [hup, List.cons_append, enter_up_cons hdir, enter_up_cons hdir]
        · rw [enter_of_name hdot hup, enter_of_name hdot hup, List.cons_append]
    rw [List.foldl_cons, List.foldl_cons, hstep, ih hnext h]

theorem mem_enter {absolute : Bool} {above : List Part} {p q : Part} (h : q ∈ enter absolute above p) :
    q ∈ above ∨ q = up ∨ q = p := by
  by_cases hdot : p = ['.']
  · rw [hdot, enter_dot] at h
    exact .inl h
  · by_cases hup : p = up
    · cases above with
      | nil =>
        cases absolute with
        | true =>
          rw [hup] at h
          cases h
        | false =>
          rw [hup] at h
          exact .inr (.inl (List.mem_singleton.mp h))
      | cons dir rest =>
        by_cases hdir : dir = up
        · rw [hup, hdir] at h
          rcases List.mem_cons.mp h with rfl | h
          · exact .inr (.inl rfl)
          · exact .inl (hdir ▸ h)
        · rw [hup, enter_up_cons hdir] at h
          exact .inl (List.mem_cons_of_mem _ h)
    · rw [enter_of_name hdot hup] at h
      rcases List.mem_cons.mp h with rfl | h
      · exact .inr (.inr rfl)
      · exact .inl h

/-- The directories come from the start or from the path. -/
theorem mem_foldl_enter {absolute : Bool} {ps above : List Part} {q : Part}
    (h : q ∈ ps.foldl (enter absolute) above) : q ∈ above ∨ q = up ∨ q ∈ ps := by
  induction ps generalizing above with
  | nil => exact .inl h
  | cons p ps ih =>
    rcases ih h with hmem | rfl | hmem
    · rcases mem_enter hmem with hmem | rfl | rfl
      · exact .inl hmem
      · exact .inr (.inl rfl)
      · exact .inr (.inr List.mem_cons_self)
    · exact .inr (.inl rfl)
    · exact .inr (.inr (List.mem_cons_of_mem _ hmem))

/-- A way that leaves what it has entered also leaves the directory it started in. -/
theorem notMem_foldl_enter {ps above : List Part} {q : Part} (hq : q ∉ ps) (hne : q ≠ up)
    (habove : up ∉ above) (hnew : q ∉ above) (h : up ∈ ps.foldl (enter false) above) :
    q ∉ ps.foldl (enter true) (above ++ [q]) := by
  induction ps generalizing above with
  | nil => exact absurd h habove
  | cons p ps ih =>
    rw [List.mem_cons, not_or] at hq
    rw [List.foldl_cons] at h ⊢
    by_cases hdot : p = ['.']
    · rw [hdot, enter_dot] at h ⊢
      exact ih hq.2 habove hnew h
    · by_cases hup : p = up
      · rw [hup] at h ⊢
        cases above with
        | nil =>
          -- the directory itself is left
          rw [List.nil_append, enter_up_cons hne]
          intro hmem
          rcases mem_foldl_enter hmem with hmem | hmem | hmem
          · cases hmem
          · exact hne hmem
          · exact hq.2 hmem
        | cons dir rest =>
          have hdir : dir ≠ up := fun heq => habove (by simp [heq])
          rw [enter_up_cons hdir] at h
          rw [List.cons_append, enter_up_cons hdir]
          exact ih hq.2 (fun hmem => habove (List.mem_cons_of_mem _ hmem))
            (fun hmem => hnew (List.mem_cons_of_mem _ hmem)) h
      · rw [enter_of_name hdot hup] at h ⊢
        rw [← List.cons_append]
        refine ih hq.2 ?_ ?_ h
        · simpa [Ne.symm hup] using habove
        · simpa [hq.1] using hnew

/-! ## Inside -/

theorem normal_join {name : List Char} (h : isAbsolute name = false) (base : List Char) :
    normal (join base name) =
      ((parts name).foldl (enter (isAbsolute base))
        ((parts base).foldl (enter (isAbsolute base)) [])).reverse := by
  rw [normal, isAbsolute_join h, parts_join h, List.foldl_append]

theorem normal_join_of_confined {name : List Char} (h : Confined name) (base : List Char) :
    normal (join base name) = normal base ++ normal name := by
  obtain ⟨hrel, -, hup⟩ := h
  rw [normal, hrel, List.mem_reverse] at hup
  rw [normal_join hrel, ← List.nil_append ((parts base).foldl _ []),
    foldl_enter_append List.not_mem_nil hup, List.reverse_append, normal, normal, hrel]

theorem inside_join {name : List Char} (h : Confined name) (dir : List Char) : Inside dir (join dir name) :=
  ⟨isAbsolute_join h.1 dir, normal name, h.2.1, h.2.2, normal_join_of_confined h dir⟩

theorem not_inside_self (dir : List Char) : ¬ Inside dir dir := by
  rintro ⟨-, below, hne, -, heq⟩
  exact hne (List.append_right_eq_self.mp heq.symm)

/-- A directory that a name does not mention. -/
theorem exists_fresh (ps : List Part) : ∃ q : Part, q ≠ [] ∧ '/' ∉ q ∧ q ≠ up ∧ q ≠ ['.'] ∧ q ∉ ps := by
  refine ⟨List.replicate ((ps.map List.length).sum + 1) 'a', by simp [List.replicate_succ],
    fun h => absurd (List.eq_of_mem_replicate h) (by decide), ?_, ?_, ?_⟩
  · simp [List.replicate_succ, up]
  · simp [List.replicate_succ]
  · intro hmem
    have hle := List.le_sum_of_mem (List.mem_map_of_mem hmem (f := List.length))
    rw [List.length_replicate] at hle
    omega

/-- **Confinement**: a name stays inside every directory exactly if it leads below the
place where it starts. -/
theorem inside_join_iff (name : List Char) : (∀ dir, Inside dir (join dir name)) ↔ Confined name := by
  refine ⟨fun h => ?_, inside_join⟩
  have hrel : isAbsolute name = false := by
    by_contra habs
    have hself := h name
    rw [join, if_pos (by simpa using habs)] at hself
    exact not_inside_self name hself
  have hempty : normal name ≠ [] := by
    intro hnil
    obtain ⟨-, below, hne, -, heq⟩ := h []
    have hjoin : join [] name = name := by
      rw [join, if_neg (by simp [hrel]), if_pos (.inl rfl), List.nil_append]
    rw [hjoin, hnil] at heq
    exact hne (List.append_eq_nil_iff.mp heq.symm).2
  refine ⟨hrel, hempty, fun hup => ?_⟩
  -- the name goes up from a directory it does not mention and cannot come back to it
  obtain ⟨q, hne, hsep, hq, hdot, hfresh⟩ := exists_fresh (parts name)
  obtain ⟨-, below, -, -, heq⟩ := h ('/' :: q)
  have habs : isAbsolute ('/' :: q) = true := rfl
  have hparts : parts ('/' :: q) = [q] := by rw [parts_cons_sep, parts_of_part hne hsep]
  have hstart : [q].foldl (enter true) [] = [q] := by simp [enter, hq, hdot]
  rw [normal, hrel, List.mem_reverse] at hup
  have hgone := notMem_foldl_enter hfresh hq List.not_mem_nil List.not_mem_nil hup
  rw [normal_join hrel, normal, habs, hparts, hstart] at heq
  have hmem : q ∈ ((parts name).foldl (enter true) [q]).reverse := by
    rw [heq]
    simp
  exact hgone (List.mem_reverse.mp hmem)

/-! ## The parent and the last part -/

theorem parts_rdropWhile_sep (path : List Char) : parts (path.rdropWhile (· = '/')) = parts path := by
  induction path using List.reverseRecOn with
  | nil => rfl
  | append_singleton front c ih =>
    by_cases hc : c = '/'
    · subst hc
      rw [List.rdropWhile_concat_pos _ _ _ (by simp), ih, parts_append_sep, parts_nil, List.append_nil]
    · rw [List.rdropWhile_concat_neg _ _ _ (by simpa using hc)]

theorem parts_parentPath (path : List Char) :
    parts (parentPath path) = parts (path.rdropWhile (· ≠ '/')) := by
  rw [← parts_rdropWhile_sep (path.rdropWhile (· ≠ '/')), parentPath]
  split
  · rename_i htrim
    rw [htrim]
    split <;> rfl
  · rfl

theorem parts_eq (path : List Char) : parts path = parts (parentPath path) ++ parts (fileName path) := by
  have happend : path.rdropWhile (· ≠ '/') ++ fileName path = path :=
    List.rdropWhile_append_rtakeWhile
  rw [parts_parentPath]
  by_cases hdir : path.rdropWhile (· ≠ '/') = []
  · rw [hdir, List.nil_append] at happend
    rw [hdir, happend, parts_nil, List.nil_append]
  · have hlast : (path.rdropWhile (· ≠ '/')).getLast? = some '/' := by
      rw [List.getLast?_eq_some_getLast hdir]
      have hnot := List.rdropWhile_last_not (fun c => decide (c ≠ '/')) path hdir
      simpa using hnot
    rw [← parts_append_of_getLast hlast, happend]

theorem isAbsolute_of_head {path rest : List Char} (hpre : rest <+: path) (hne : rest ≠ []) :
    isAbsolute rest = isAbsolute path := by
  obtain ⟨tail, rfl⟩ := hpre
  exact (isAbsolute_append hne tail).symm

theorem isAbsolute_parentPath {path : List Char} (h : isAbsolute path = false) :
    isAbsolute (parentPath path) = false := by
  have hdir := List.rdropWhile_prefix (fun c => decide (c ≠ '/')) path
  unfold parentPath
  split
  · rename_i htrim
    split
    · rfl
    · rename_i hne
      -- only separators: the path would start with one
      cases hd : path.rdropWhile (· ≠ '/') with
      | nil => exact absurd hd hne
      | cons c cs =>
        have hall := List.rdropWhile_eq_nil_iff.mp htrim c (hd ▸ List.mem_cons_self)
        have habs := isAbsolute_of_head hdir hne
        rw [hd, h] at habs
        simp only [decide_eq_true_eq] at hall
        rw [hall] at habs
        cases habs
  · rename_i hne
    have htrim := List.rdropWhile_prefix (fun c => decide (c = '/')) (path.rdropWhile (· ≠ '/'))
    rw [isAbsolute_of_head (htrim.trans hdir) hne, h]

/-- Another last part leaves a confined name confined. -/
theorem Confined.sibling {name : List Char} (h : Confined name) {part : Part} (hne : part ≠ [])
    (hsep : '/' ∉ part) (hdot : part ≠ ['.']) (hup : part ≠ up) :
    Confined (join (parentPath name) part) := by
  obtain ⟨hrel, -, hnot⟩ := h
  have hpart : isAbsolute part = false := by
    cases part with
    | nil => exact absurd rfl hne
    | cons c cs =>
      have hc : c ≠ '/' := fun heq => hsep (by simp [heq])
      simpa [isAbsolute] using hc
  have hparent := isAbsolute_parentPath hrel
  have hnormal : normal (join (parentPath name) part) =
      ((parts (parentPath name)).foldl (enter false) []).reverse ++ [part] := by
    rw [normal_join hpart, hparent, parts_of_part hne hsep, List.foldl_cons, List.foldl_nil,
      enter_of_name hdot hup, List.reverse_cons]
  refine ⟨by rw [isAbsolute_join hpart, hparent], by simp [hnormal], ?_⟩
  rw [hnormal, List.mem_append, List.mem_reverse, List.mem_singleton, not_or]
  refine ⟨fun hmem => hnot ?_, Ne.symm hup⟩
  rw [normal, hrel, List.mem_reverse, parts_eq, List.foldl_append]
  exact up_mem_foldl hmem _

/-! ## Pieces of the last part -/

theorem sep_notMem_fileName (path : List Char) : '/' ∉ fileName path := by
  intro hmem
  have hne := List.mem_rtakeWhile_imp hmem
  simp at hne

theorem mem_of_mem_stem {name : Part} {c : Char} (h : c ∈ stem name) : c ∈ name := by
  have hpre := List.rdropWhile_prefix (fun c => decide (c ≠ '.')) name
  unfold stem at h
  split at h
  · exact h
  · split at h
    · exact h
    · exact h
    · exact hpre.subset (List.dropLast_subset _ h)

theorem mem_of_mem_extension {name : Part} {c : Char} (h : c ∈ extension name) : c = '.' ∨ c ∈ name := by
  unfold extension at h
  split at h
  · cases h
  · split at h
    · cases h
    · cases h
    · rcases List.mem_cons.mp h with rfl | h
      · exact .inl rfl
      · exact .inr ((List.rtakeWhile_suffix _ _).subset h)

end LexicalPath
