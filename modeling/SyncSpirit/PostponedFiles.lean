import SyncSpirit.Lib.Past
import SyncSpirit.Lib.Run
import Mathlib

/-!
# Postponed files (`model/misc/postponed_files.cpp`)

A file of which a block is being fetched for somebody else is postponed until the block
has come. `PostponedFiles` holds the pairs of blocks and files, and the files that are
ready.

- `Waits`, `Settled`: what the calls so far say about a file, without looking inside;
- `mem_advance`: a file that waits for another block as well is not moved at all;
- `exact_iff`: the pairs and the ready files are what the calls say, as long as a block
  comes only for files that wait for nothing else, and no file with a higher address waits when
  one is forgotten;
- `two_blocks_never_ready`: a file that waits for two blocks.
-/

namespace SyncSpirit

open Past

/-- `postponed_files_t`. Blocks and files are addresses; both containers are sets. An index of the
pairs is in the order of the addresses of the files. -/
structure PostponedFiles (β φ : Type) where
  block2Files : List (β × φ)
  ready : List φ
  deriving DecidableEq, Repr

namespace PostponedFiles

/-- A set gets an element. -/
def insert {α : Type} [DecidableEq α] (l : List α) (a : α) : List α := if a ∈ l then l else l ++ [a]

theorem mem_insert {α : Type} [DecidableEq α] {l : List α} {a b : α} : b ∈ insert l a ↔ b ∈ l ∨ b = a := by
  unfold insert
  split
  · rename_i h
    exact ⟨.inl, fun hb => hb.elim (fun hb => hb) fun heq => heq ▸ h⟩
  · simp

theorem nodup_insert {α : Type} [DecidableEq α] {l : List α} (h : l.Nodup) (a : α) : (insert l a).Nodup := by
  unfold insert
  split
  · exact h
  · rename_i ha
    rw [List.nodup_append]
    exact ⟨h, List.nodup_singleton a, fun x hx y hy heq => ha (by simp_all)⟩

section Operations

variable {β φ : Type} [DecidableEq β] [LinearOrder φ]

/-- `postpone`. -/
def postpone (p : PostponedFiles β φ) (block : β) (file : φ) : PostponedFiles β φ :=
  { p with block2Files := insert p.block2Files (block, file) }

/-- `forget`: the loop begins with the first pair of the file, if there is one, and erases all
pairs from there to the end of the index. -/
def forget (p : PostponedFiles β φ) (file : φ) : PostponedFiles β φ where
  block2Files :=
    if p.block2Files.any fun q => q.2 = file then p.block2Files.filter fun q => q.2 < file
    else p.block2Files
  ready := p.ready.filter fun f => f ≠ file

/-- One file of the block in the loop of `advance`: it is ready if it has no other pair. -/
def advanceOne (p : PostponedFiles β φ) (q : β × φ) : PostponedFiles β φ :=
  if (p.block2Files.filter fun q' => q'.2 = q.2).length = 1 then
    { block2Files := p.block2Files.filter fun q' => q' ≠ q, ready := insert p.ready q.2 }
  else p

/-- `advance`. -/
def advance (p : PostponedFiles β φ) (block : β) : PostponedFiles β φ :=
  (p.block2Files.filter fun q => q.1 = block).foldl advanceOne p

/-- What is called. Which of the ready files `get_ready` returns is up to the hash table. -/
inductive Call (β φ : Type) where
  | postpone (block : β) (file : φ)
  | advance (block : β)
  | forget (file : φ)
  | getReady (result : Option φ)
  | clear
  deriving DecidableEq, Repr

/-- One call. -/
def step (p : PostponedFiles β φ) : Call β φ → Option (PostponedFiles β φ)
  | .postpone block file => some (p.postpone block file)
  | .advance block => some (p.advance block)
  | .forget file => some (p.forget file)
  | .getReady (some file) =>
    if file ∈ p.ready then some { p with ready := p.ready.filter fun f => f ≠ file } else none
  | .getReady none => if p.ready = [] then some p else none
  | .clear => some ⟨[], []⟩

end Operations

/-! ## What the calls say -/

section Calls

variable {β φ : Type}

/-- The call ends what has been said about the file. -/
def Drops (file : φ) (c : Call β φ) : Prop :=
  c = .forget file ∨ c = .getReady (some file) ∨ c = .clear

/-- The file has been postponed because of the block, and neither forgotten nor returned since. -/
def Postponed (cs : List (Call β φ)) (block : β) (file : φ) : Prop :=
  Since (fun c => c = .postpone block file) (Drops file) cs

/-- The file has been postponed because of the block, which has not come since. -/
def Waits (cs : List (Call β φ)) (block : β) (file : φ) : Prop :=
  Since (fun c => c = .postpone block file) (fun c => Drops file c ∨ c = .advance block) cs

/-- The file has been postponed, and all of its blocks have come. -/
def Settled (cs : List (Call β φ)) (file : φ) : Prop :=
  (∃ block, Postponed cs block file) ∧ ∀ block, ¬ Waits cs block file

/-- The containers are what the calls say. -/
structure Exact (cs : List (Call β φ)) (p : PostponedFiles β φ) : Prop where
  nodup : p.block2Files.Nodup
  waits : ∀ block file, (block, file) ∈ p.block2Files ↔ Waits cs block file
  ready : ∀ file, file ∈ p.ready ↔ Settled cs file

/-- A block comes only for files that wait for nothing else, a file that is ready is not
postponed again before it has been returned, and when a file is forgotten that waits, no file with
a higher address waits. -/
def Careful [LinearOrder φ] (p : PostponedFiles β φ) : Call β φ → Prop
  | .advance block => ∀ q ∈ p.block2Files, q.1 = block → ∀ q' ∈ p.block2Files, q'.2 = q.2 → q' = q
  | .postpone _ file => file ∉ p.ready
  | .forget file => (∃ q ∈ p.block2Files, q.2 = file) → ∀ q ∈ p.block2Files, q.2 ≤ file
  | _ => True

instance [DecidableEq β] [LinearOrder φ] (p : PostponedFiles β φ) : ∀ c, Decidable (Careful p c)
  | .advance block => inferInstanceAs
      (Decidable (∀ q ∈ p.block2Files, q.1 = block → ∀ q' ∈ p.block2Files, q'.2 = q.2 → q' = q))
  | .postpone _ file => inferInstanceAs (Decidable (file ∉ p.ready))
  | .forget file => inferInstanceAs
      (Decidable ((∃ q ∈ p.block2Files, q.2 = file) → ∀ q ∈ p.block2Files, q.2 ≤ file))
  | .getReady _ | .clear => inferInstanceAs (Decidable True)

variable {cs : List (Call β φ)} {block : β} {file : φ}

@[simp] theorem drops_postpone {f : φ} : ¬ Drops f (.postpone block file : Call β φ) := by simp [Drops]

@[simp] theorem drops_advance : ¬ Drops file (.advance block : Call β φ) := by simp [Drops]

@[simp] theorem drops_forget {f : φ} : Drops f (.forget file : Call β φ) ↔ f = file := by
  simp [Drops, eq_comm (a := f)]

@[simp] theorem drops_getReady {f : φ} {result : Option φ} :
    Drops f (.getReady result : Call β φ) ↔ result = some f := by simp [Drops]

@[simp] theorem drops_clear : Drops file (.clear : Call β φ) := by simp [Drops]

theorem postponed_snoc {c : Call β φ} : Postponed (cs ++ [c]) block file ↔
    c = .postpone block file ∨ (Postponed cs block file ∧ ¬ Drops file c) := since_snoc

theorem waits_snoc {c : Call β φ} : Waits (cs ++ [c]) block file ↔
    c = .postpone block file ∨ (Waits cs block file ∧ ¬ Drops file c ∧ c ≠ .advance block) := by
  unfold Waits
  rw [since_snoc, not_or]

/-- A file that waits has been postponed. -/
theorem Waits.postponed (h : Waits cs block file) : Postponed cs block file := by
  obtain ⟨before, c, after, rfl, hc, hafter⟩ := h
  exact ⟨before, c, after, rfl, hc, fun c' hc' hd => hafter c' hc' (.inl hd)⟩

end Calls

/-! ## `advance` -/

section Advance

variable {β φ : Type} {p : PostponedFiles β φ}

/-- The file has the one pair only. -/
def Alone (p : PostponedFiles β φ) (q : β × φ) : Prop := ∀ q' ∈ p.block2Files, q'.2 = q.2 → q' = q

/-- The length of the range of a file tells whether a pair is alone. -/
theorem length_range [DecidableEq φ] (h : p.block2Files.Nodup) {q : β × φ} (hq : q ∈ p.block2Files) :
    (p.block2Files.filter fun q' => q'.2 = q.2).length = 1 ↔ Alone p q := by
  have hmem : q ∈ p.block2Files.filter fun q' => q'.2 = q.2 := by simpa using hq
  constructor
  · intro hlength q' hq' hfile
    obtain ⟨q₀, heq⟩ := List.length_eq_one_iff.mp hlength
    have hmem' : q' ∈ p.block2Files.filter fun q' => q'.2 = q.2 := by simpa using ⟨hq', hfile⟩
    rw [heq, List.mem_singleton] at hmem hmem'
    rw [hmem, hmem']
  · intro halone
    have hreplicate := List.eq_replicate_of_mem (a := q) fun q' hq' => by
      obtain ⟨hin, hfile⟩ := List.mem_filter.mp hq'
      exact halone q' hin (of_decide_eq_true hfile)
    have hle : (p.block2Files.filter fun q' => q'.2 = q.2).length ≤ 1 := by
      rw [← List.nodup_replicate (a := q), ← hreplicate]
      exact h.filter _
    exact Nat.le_antisymm hle (List.length_pos_of_mem hmem)

variable [DecidableEq β] [LinearOrder φ]

/-- The loop of `advance`, when some of the pairs of the block are done. -/
structure Advancing (p : PostponedFiles β φ) (done : List (β × φ)) (r : PostponedFiles β φ) : Prop where
  nodup : r.block2Files.Nodup
  pairs : ∀ q, q ∈ r.block2Files ↔ q ∈ p.block2Files ∧ ¬ (q ∈ done ∧ Alone p q)
  ready : ∀ file, file ∈ r.ready ↔ file ∈ p.ready ∨ ∃ q ∈ done, q.2 = file ∧ Alone p q

theorem Advancing.step {done : List (β × φ)} {r : PostponedFiles β φ} (h : Advancing p done r) {q : β × φ}
    (hq : q ∈ p.block2Files) (hnew : q ∉ done) :
    Advancing p (done ++ [q]) (advanceOne r q) := by
  have hin : q ∈ r.block2Files := (h.pairs q).mpr ⟨hq, fun hcon => hnew hcon.1⟩
  -- what has been removed so far belongs to other files
  have halone : Alone r q ↔ Alone p q := by
    constructor
    · intro hr q' hq' hfile
      by_cases hgone : q' ∈ done ∧ Alone p q'
      · exact absurd (hgone.2 q hq hfile.symm ▸ hgone.1) hnew
      · exact hr q' ((h.pairs q').mpr ⟨hq', hgone⟩) hfile
    · intro hp q' hq' hfile
      exact hp q' ((h.pairs q').mp hq').1 hfile
  unfold advanceOne
  by_cases hq1 : Alone p q
  · rw [if_pos ((length_range h.nodup hin).mpr (halone.mpr hq1))]
    refine ⟨h.nodup.filter _, fun q' => ?_, fun file => ?_⟩
    · simp only [List.mem_filter, h.pairs, decide_eq_true_eq, List.mem_append, List.mem_singleton]
      constructor
      · rintro ⟨⟨hin', hnot⟩, hne⟩
        refine ⟨hin', ?_⟩
        rintro ⟨hmem | heq, hal⟩
        · exact hnot ⟨hmem, hal⟩
        · exact hne heq
      · rintro ⟨hin', hnot⟩
        refine ⟨⟨hin', fun hcon => hnot ⟨.inl hcon.1, hcon.2⟩⟩, ?_⟩
        rintro rfl
        exact hnot ⟨.inr rfl, hq1⟩
    · simp only [mem_insert, h.ready, List.mem_append, List.mem_singleton]
      constructor
      · rintro ((hold | ⟨q', hq', hrest⟩) | rfl)
        · exact .inl hold
        · exact .inr ⟨q', .inl hq', hrest⟩
        · exact .inr ⟨q, .inr rfl, rfl, hq1⟩
      · rintro (hold | ⟨q', hq' | rfl, hfile, hal⟩)
        · exact .inl (.inl hold)
        · exact .inl (.inr ⟨q', hq', hfile, hal⟩)
        · exact .inr hfile.symm
  · rw [if_neg fun hlength => hq1 (halone.mp ((length_range h.nodup hin).mp hlength))]
    refine ⟨h.nodup, fun q' => ?_, fun file => ?_⟩
    · rw [h.pairs]
      simp only [List.mem_append, List.mem_singleton]
      constructor
      · rintro ⟨hin', hnot⟩
        refine ⟨hin', ?_⟩
        rintro ⟨hmem | rfl, hal⟩
        · exact hnot ⟨hmem, hal⟩
        · exact hq1 hal
      · rintro ⟨hin', hnot⟩
        exact ⟨hin', fun hcon => hnot ⟨.inl hcon.1, hcon.2⟩⟩
    · rw [h.ready]
      simp only [List.mem_append, List.mem_singleton]
      constructor
      · rintro (hold | ⟨q', hq', hrest⟩)
        · exact .inl hold
        · exact .inr ⟨q', .inl hq', hrest⟩
      · rintro (hold | ⟨q', hq' | rfl, hfile, hal⟩)
        · exact .inl hold
        · exact .inr ⟨q', hq', hfile, hal⟩
        · exact absurd hal hq1

theorem advancing_of_foldl {l : List (β × φ)} :
    ∀ {done : List (β × φ)} {r : PostponedFiles β φ}, Advancing p done r → (done ++ l).Nodup →
      (∀ q ∈ done ++ l, q ∈ p.block2Files) → Advancing p (done ++ l) (l.foldl advanceOne r) := by
  induction l with
  | nil =>
    intro done r hr _ _
    rwa [List.append_nil]
  | cons q l ih =>
    intro done r hr hnodup hsub
    have hnew : q ∉ done := fun hmem =>
      (List.nodup_append.mp hnodup).2.2 q hmem q (List.mem_cons_self ..) rfl
    have hstep := hr.step (hsub q (by simp)) hnew
    have hrest := ih hstep (by rwa [List.append_assoc]) (by rwa [List.append_assoc])
    rwa [List.append_assoc] at hrest

/-- **`advance`**: of the files of the block, those that wait for nothing else are ready. -/
theorem mem_advance (h : p.block2Files.Nodup) (block : β) :
    (p.advance block).block2Files.Nodup ∧
    (∀ q, q ∈ (p.advance block).block2Files ↔ q ∈ p.block2Files ∧ ¬ (q.1 = block ∧ Alone p q)) ∧
    ∀ file, file ∈ (p.advance block).ready ↔ file ∈ p.ready ∨
      ((block, file) ∈ p.block2Files ∧ Alone p (block, file)) := by
  have hstart : Advancing p [] p := ⟨h, by simp, by simp⟩
  have hloop := advancing_of_foldl (l := p.block2Files.filter fun q => q.1 = block) hstart
    (h.filter _) fun q hq => (List.mem_filter.mp hq).1
  rw [List.nil_append] at hloop
  refine ⟨hloop.nodup, fun q => ?_, fun file => ?_⟩
  · show q ∈ (List.foldl advanceOne p _).block2Files ↔ _
    rw [hloop.pairs, List.mem_filter]
    simp only [decide_eq_true_eq]
    exact and_congr_right fun hq => not_congr (by simp [hq])
  · show file ∈ (List.foldl advanceOne p _).ready ↔ _
    rw [hloop.ready]
    simp only [List.mem_filter, decide_eq_true_eq]
    refine or_congr_right ⟨?_, fun hq => ⟨_, ⟨hq.1, rfl⟩, rfl, hq.2⟩⟩
    rintro ⟨⟨b, f⟩, ⟨hin, hb⟩, hfile, hal⟩
    cases hb
    cases hfile
    exact ⟨hin, hal⟩

end Advance

/-! ## Runs -/

section Runs

variable {β φ : Type} [DecidableEq β] [LinearOrder φ] {cs : List (Call β φ)} {p t : PostponedFiles β φ}

theorem exact_postpone (h : Exact cs p) (block : β) (file : φ) :
    Exact (cs ++ [.postpone block file]) (p.postpone block file) ↔ file ∉ p.ready := by
  have hwaits : Waits (cs ++ [.postpone block file]) block file := waits_snoc.mpr (.inl rfl)
  constructor
  · intro h' hready
    exact ((h'.ready file).mp hready).2 block hwaits
  · intro hready
    refine ⟨nodup_insert h.nodup _, fun b f => ?_, fun f => ?_⟩
    · show (b, f) ∈ insert p.block2Files (block, file) ↔ _
      rw [mem_insert, h.waits, waits_snoc]
      constructor
      · rintro (hw | heq)
        · exact .inr ⟨hw, drops_postpone, by simp⟩
        · cases heq
          exact .inl rfl
      · rintro (heq | ⟨hw, -⟩)
        · cases heq
          exact .inr rfl
        · exact .inl hw
    · show f ∈ p.ready ↔ _
      by_cases hf : f = file
      · subst hf
        exact ⟨fun hin => absurd hin hready, fun hs => absurd hwaits (hs.2 block)⟩
      · have hne : ∀ b, (.postpone block file : Call β φ) ≠ .postpone b f := by
          intro b heq
          cases heq
          exact hf rfl
        rw [h.ready]
        unfold Settled
        simp [postponed_snoc, waits_snoc, hne]

theorem exact_advance (h : Exact cs p) (block : β) :
    Exact (cs ++ [.advance block]) (p.advance block) ↔
      ∀ q ∈ p.block2Files, q.1 = block → ∀ q' ∈ p.block2Files, q'.2 = q.2 → q' = q := by
  obtain ⟨hnodup, hpairs, hready⟩ := mem_advance h.nodup block
  constructor
  · rintro h' ⟨b, f⟩ hq hb
    cases hb
    -- the file does not wait for the block any more, so the pair is gone
    by_contra halone
    have hin := (hpairs (b, f)).mpr ⟨hq, fun hcon => halone hcon.2⟩
    rcases waits_snoc.mp ((h'.waits b f).mp hin) with heq | ⟨-, -, hne⟩
    · cases heq
    · exact hne rfl
  · intro hcareful
    refine ⟨hnodup, fun b f => ?_, fun f => ?_⟩
    · rw [hpairs, waits_snoc, h.waits]
      constructor
      · rintro ⟨hw, hnot⟩
        refine .inr ⟨hw, drops_advance, fun heq => ?_⟩
        cases heq
        exact hnot ⟨rfl, hcareful _ ((h.waits block f).mpr hw) rfl⟩
      · rintro (heq | ⟨hw, -, hne⟩)
        · cases heq
        · exact ⟨hw, fun hcon => hne (congrArg Call.advance hcon.1.symm)⟩
    · rw [hready, h.ready]
      constructor
      · rintro (⟨⟨b, hb⟩, hnone⟩ | ⟨hin, halone⟩)
        · refine ⟨⟨b, postponed_snoc.mpr (.inr ⟨hb, drops_advance⟩)⟩, fun b' hw => ?_⟩
          rcases waits_snoc.mp hw with heq | ⟨hw, -⟩
          · cases heq
          · exact hnone b' hw
        · have hw := (h.waits block f).mp hin
          refine ⟨⟨block, postponed_snoc.mpr (.inr ⟨hw.postponed, drops_advance⟩)⟩, fun b' hw' => ?_⟩
          rcases waits_snoc.mp hw' with heq | ⟨hw', -, hne⟩
          · cases heq
          · have heq := halone (b', f) ((h.waits b' f).mpr hw') rfl
            cases heq
            exact hne rfl
      · rintro ⟨⟨b, hb⟩, hnone⟩
        obtain ⟨hb, -⟩ := (postponed_snoc.mp hb).resolve_left (by simp)
        by_cases hw : Waits cs block f
        · have hin := (h.waits block f).mpr hw
          exact .inr ⟨hin, hcareful _ hin rfl⟩
        · refine .inl ⟨⟨b, hb⟩, fun b' hw' => hnone b' (waits_snoc.mpr (.inr ⟨hw', drops_advance, ?_⟩))⟩
          intro heq
          cases heq
          exact hw hw'

omit [DecidableEq β] [LinearOrder φ] in
/-- A call that ends what has been said about some files. -/
theorem exact_drop (h : Exact cs p) {c : Call β φ} (hpostpone : ∀ b f, c ≠ .postpone b f)
    (hadvance : ∀ b, c ≠ .advance b) (hnodup : t.block2Files.Nodup)
    (hpairs : ∀ b f, (b, f) ∈ t.block2Files ↔ (b, f) ∈ p.block2Files ∧ ¬ Drops f c)
    (hready : ∀ f, f ∈ t.ready ↔ f ∈ p.ready ∧ ¬ Drops f c) : Exact (cs ++ [c]) t := by
  refine ⟨hnodup, fun b f => ?_, fun f => ?_⟩
  · rw [hpairs, h.waits, waits_snoc]
    simp [hpostpone, hadvance]
  · rw [hready, h.ready]
    unfold Settled
    simp only [postponed_snoc, waits_snoc, hpostpone, hadvance, false_or, ne_eq, not_false_eq_true, and_true]
    by_cases hd : Drops f c <;> simp [hd]

omit [DecidableEq β] in
theorem exact_forget (h : Exact cs p) (file : φ) : Exact (cs ++ [.forget file]) (p.forget file) ↔
    ((∃ q ∈ p.block2Files, q.2 = file) → ∀ q ∈ p.block2Files, q.2 ≤ file) := by
  have hany : (p.block2Files.any fun q => q.2 = file) = true ↔ ∃ q ∈ p.block2Files, q.2 = file := by simp
  constructor
  · rintro h' hwaits ⟨b, f⟩ hq
    -- the other file has not been dropped, so it still has its pair
    by_cases heq : f = file
    · exact heq.le
    · have hstill : Waits (cs ++ [.forget file]) b f :=
        waits_snoc.mpr (.inr ⟨(h.waits b f).mp hq, by simpa using heq, by simp⟩)
      have hin : (b, f) ∈ (p.forget file).block2Files := (h'.waits b f).mpr hstill
      unfold forget at hin
      rw [if_pos (hany.mpr hwaits), List.mem_filter, decide_eq_true_eq] at hin
      exact hin.2.le
  · intro hcareful
    have hpairs : ∀ b f, (b, f) ∈ (p.forget file).block2Files ↔ (b, f) ∈ p.block2Files ∧ f ≠ file := by
      intro b f
      unfold forget
      by_cases hwaits : ∃ q ∈ p.block2Files, q.2 = file
      · rw [if_pos (hany.mpr hwaits), List.mem_filter, decide_eq_true_eq]
        exact and_congr_right fun hq => (hcareful hwaits _ hq).lt_iff_ne
      · rw [if_neg fun hcon => hwaits (hany.mp hcon)]
        exact ⟨fun hq => ⟨hq, fun heq => hwaits ⟨_, hq, heq⟩⟩, And.left⟩
    have hnodup : (p.forget file).block2Files.Nodup := by
      unfold forget
      dsimp only
      split
      · exact h.nodup.filter _
      · exact h.nodup
    refine exact_drop h (by simp) (by simp) hnodup (fun b f => ?_) fun f => ?_
    · rw [hpairs, drops_forget]
    · simp [forget]

/-- **One call** keeps the containers exact exactly if it is careful. -/
theorem exact_step (h : Exact cs p) {c : Call β φ} (hstep : step p c = some t) :
    Exact (cs ++ [c]) t ↔ Careful p c := by
  cases c with
  | postpone block file =>
    cases hstep
    exact exact_postpone h block file
  | advance block =>
    cases hstep
    exact exact_advance h block
  | forget file =>
    cases hstep
    exact exact_forget h file
  | getReady result =>
    refine ⟨fun _ => trivial, fun _ => ?_⟩
    cases result with
    | none =>
      obtain ⟨-, hstep⟩ := Option.ite_none_right_eq_some.mp hstep
      cases hstep
      refine exact_drop h (by simp) (by simp) h.nodup (fun b f => ?_) fun f => ?_
      · simp
      · simp
    | some file =>
      obtain ⟨hin, hstep⟩ := Option.ite_none_right_eq_some.mp hstep
      cases hstep
      refine exact_drop h (by simp) (by simp) h.nodup (fun b f => ?_) fun f => ?_
      · -- a file that is ready waits for nothing
        have hnone : (b, file) ∉ p.block2Files := fun hcon =>
          ((h.ready file).mp hin).2 b ((h.waits b file).mp hcon)
        rw [drops_getReady]
        refine ⟨fun hmem => ⟨hmem, fun heq => ?_⟩, And.left⟩
        cases heq
        exact hnone hmem
      · simp [eq_comm (a := f)]
  | clear =>
    cases hstep
    refine ⟨fun _ => trivial, fun _ => exact_drop h (by simp) (by simp) List.nodup_nil ?_ ?_⟩
    all_goals simp

/-- Nothing is postponed. -/
def empty : PostponedFiles β φ := ⟨[], []⟩

/-- **Postponed files**: after every call of a run a file waits for the blocks that have not come,
and is ready once all of them have, exactly if every call of the run is careful. -/
theorem exact_iff (cs : List (Call β φ)) :
    (∀ cs' p, cs' <+: cs → Run.exec step empty cs' = some p → Exact cs' p) ↔
      Run.Meets step Careful empty cs := by
  have hempty : Exact ([] : List (Call β φ)) empty := by
    refine ⟨List.nodup_nil, fun b f => ?_, fun f => ?_⟩
    · exact ⟨fun hin => (nomatch hin), fun hw => absurd hw not_since_nil⟩
    · exact ⟨fun hin => (nomatch hin), fun hs => absurd hs.1.choose_spec not_since_nil⟩
  have hnone : ∀ (p : PostponedFiles β φ) c, step p c = none → Careful p c := by
    intro p c hnone
    cases c with
    | getReady result => trivial
    | _ => cases hnone
  have hiff : Run.Meets step Careful empty cs ↔
      ∀ cs' p, cs' <+: cs → Run.exec step empty cs' = some p → Exact ([] ++ cs') p :=
    Run.meets_iff (P := Exact) (fun _ _ _ _ h hstep => exact_step h hstep) (fun _ p c _ => hnone p c) hempty
  exact hiff.symm

/-- A file that waits for two blocks is not ready when both have come. -/
theorem two_blocks_never_ready :
    let cs : List (Call Nat Nat) := [.postpone 1 7, .postpone 2 7, .advance 1, .advance 2]
    Settled cs 7 ∧ ∃ p, Run.exec step empty cs = some p ∧ 7 ∉ p.ready := by
  refine ⟨⟨⟨1, ?_⟩, fun b hw => ?_⟩, _, rfl, by decide⟩
  · exact ⟨[], _, _, rfl, rfl, by simp [Drops]⟩
  · have hw' : Waits ((([] ++ [.postpone 1 7]) ++ [.postpone 2 7]) ++ [.advance 1] ++ [.advance 2]) b 7 := hw
    have hnil : ¬ Waits ([] : List (Call Nat Nat)) b 7 := not_since_nil
    simp only [waits_snoc] at hw'
    grind

/-- A file that waits for a block is lost when a file with a lower address is forgotten: it is
not ready when the block has come. -/
example :
    let cs : List (Call Nat Nat) := [.postpone 1 7, .postpone 2 9, .forget 7, .advance 2]
    Settled cs 9 ∧ ∃ p, Run.exec step empty cs = some p ∧ 9 ∉ p.ready := by
  refine ⟨⟨⟨2, ?_⟩, fun b hw => ?_⟩, _, rfl, by decide⟩
  · exact ⟨[.postpone 1 7], _, _, rfl, rfl, by simp [Drops]⟩
  · have hw' : Waits ((([] ++ [.postpone 1 7]) ++ [.postpone 2 9]) ++ [.forget 7] ++ [.advance 2]) b 9 := hw
    have hnil : ¬ Waits ([] : List (Call Nat Nat)) b 9 := not_since_nil
    simp only [waits_snoc] at hw'
    grind

end Runs

end PostponedFiles

end SyncSpirit
