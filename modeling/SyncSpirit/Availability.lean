import SyncSpirit.Advance
import SyncSpirit.FileDb
import SyncSpirit.Lib.Run

/-!
# Which blocks are available locally

That a block of a file is on disk is written down twice: as `LOCAL_MASK` of the slot
of the file, and in the `file_block_t` of the block that refers back to the slot.
`controller_actor_t::io_clone_block` reads the second one.

Two operations let the two flags differ. `block_info_t::link` marks a new back
reference if *any* file has the block, and `block_info_t::mark_local_available` marks
the *first* back reference of the file, whatever the index is. `Careful` says when a
step does neither; `flags_agree_of_careful` is the run theorem.
-/

namespace SyncSpirit

open Backlink

namespace Availability

open Store

/-! ## The invariant -/

/-- Slots and back references match, and they have the same flags outside of `X`. -/
structure Marked (X : Set FileId) (s : Store) : Prop where
  linked : s.graph.Linked
  faithful : s.graph.Faithful X
  allocated : ∀ f i b l, s.graph.slot f i = some (b, l) → b < s.nextBlock
  mapped : ∀ b ∈ s.blockMap, b < s.nextBlock

/-- The invariant of the runs. -/
structure Sound (X : Set FileId) (s : Store) : Prop extends Marked X s where
  coherent : ∀ f, (s.files f).Coherent
  fresh : ∀ f, s.nextFile ≤ f → (s.files f).slots = []
  listed : ∀ fi, ∀ f ∈ (s.infos fi).files, f < s.nextFile

theorem Sound.initial {infos : FolderInfoId → FolderInfo} (h : ∀ fi, (infos fi).files = []) :
    Sound ∅ (Store.initial infos) where
  linked := (WF.initial h).linked
  faithful b e he := by cases he
  allocated f i b l hs := by cases hs
  mapped b hb := by cases hb
  coherent := (WF.initial h).coherent
  fresh := (WF.initial h).fresh
  listed fi f hf := by
    rw [show ((Store.initial infos).infos fi).files = [] from h fi] at hf
    cases hf

section Operations

variable {X : Set FileId} {s t : Store} {f : FileId}

theorem Marked.of_graph (h : Marked X s) (hgraph : t.graph = s.graph) (hnext : s.nextBlock ≤ t.nextBlock)
    (hmap : ∀ b ∈ t.blockMap, b < t.nextBlock) : Marked X t where
  linked := hgraph ▸ h.linked
  faithful := hgraph ▸ h.faithful
  allocated f i b l hs := Nat.lt_of_lt_of_le (h.allocated f i b l (hgraph ▸ hs)) hnext
  mapped := hmap

theorem Marked.of_sameBlocks (h : Marked X s) (hgraph : t.graph = s.graph) (hsame : SameBlocks s t) :
    Marked X t :=
  h.of_graph hgraph (Nat.le_of_eq hsame.nextBlock.symm) fun b hb => by
    rw [hsame.nextBlock]
    exact h.mapped b (hsame.blockMap ▸ hb)

theorem Marked.mono (h : Marked X s) {Y : Set FileId} (hXY : X ⊆ Y) : Marked Y s :=
  ⟨h.linked, h.faithful.mono hXY, h.allocated, h.mapped⟩

theorem Sound.mono (h : Sound X s) {Y : Set FileId} (hXY : X ⊆ Y) : Sound Y s :=
  ⟨h.toMarked.mono hXY, h.coherent, h.fresh, h.listed⟩

/-- The blocks of the slots are allocated. -/
theorem Marked.lt_nextBlock (h : Marked X s) {p : Slot} (hp : some p ∈ (s.files f).slots) :
    p.1 < s.nextBlock := by
  obtain ⟨i, hi⟩ := List.mem_iff_getElem?.mp hp
  refine h.allocated f i p.1 p.2 ?_
  show (s.files f).slots[i]?.join = _
  rw [hi]
  rfl

/-- **Assign**: the new back reference must not be marked, unless nobody looks at it. -/
theorem Marked.assignBlock (h : Marked X s) {b : BlockId} {i : Nat} (hb : b < s.nextBlock)
    (hflag : f ∈ X ∨ s.graph.anyFlag b = false) (ht : s.assignBlock f b i = some t) : Marked X t := by
  obtain ⟨hfree, hgraph⟩ := graph_assignBlock ht
  have hsame := SameBut.assignBlock ht
  refine ⟨hgraph ▸ h.linked.assign hfree b, hgraph ▸ h.faithful.assign h.linked hfree hflag, ?_, ?_⟩
  · intro f' j c l hs
    rw [hsame.nextBlock]
    rw [hgraph] at hs
    by_cases hne : f' = f ∧ j = i
    · obtain ⟨rfl, rfl⟩ := hne
      rw [Graph.slot_assign_self (List.getElem?_eq_some_iff.mp hfree).1] at hs
      cases hs
      exact hb
    · rw [Graph.slot_assign_of_ne hne] at hs
      exact h.allocated f' j c l hs
  · rw [hsame.blockMap, hsame.nextBlock]
    exact h.mapped

/-- The targets of marked slots are the same. -/
theorem allocated_mark (h : Marked X s) {i : Nat} (ht : s.markLocalAvailable f i = some t) :
    ∀ f' j b l, t.graph.slot f' j = some (b, l) → b < t.nextBlock := by
  intro f' j b l hs
  rw [(SameBut.markLocalAvailable ht).nextBlock]
  have htarget := Graph.slot_mark_target s.graph f f' i j
  rw [← (graph_markLocalAvailable ht).2, hs] at htarget
  obtain ⟨⟨b', l'⟩, hslot, heq⟩ := Option.map_eq_some_iff.mp htarget.symm
  cases heq
  exact h.allocated f' j b l' hslot

/-- **Mark** a slot: its back reference must be the first one of the file. -/
theorem Marked.markLocalAvailable (h : Marked X s) {i : Nat}
    (hfirst : f ∈ X ∨ ∀ b, s.graph.slot f i = some (b, false) →
      ∀ e ∈ (s.graph.entries b).find? (fun e => e.owner = f), e.index = i)
    (ht : s.markLocalAvailable f i = some t) : Marked X t := by
  obtain ⟨⟨b, hs⟩, hgraph⟩ := graph_markLocalAvailable ht
  have hsame := SameBut.markLocalAvailable ht
  refine ⟨hgraph ▸ h.linked.mark f i, ?_, allocated_mark h ht, ?_⟩
  · rw [hgraph]
    rcases hfirst with hX | hfirst
    · exact h.faithful.mark_of_mem hX i
    · exact h.faithful.mark h.linked hs (hfirst b hs)
  · rw [hsame.blockMap, hsame.nextBlock]
    exact h.mapped

/-- **Assign and mark**: right if all back references of the file are marked. -/
theorem Marked.assignMark (h : Marked X s) {u : Store} {b : BlockId} {i : Nat} (hb : b < s.nextBlock)
    (hall : ∀ e ∈ s.graph.entries b, e.owner = f → e.flag = true)
    (hu : s.assignBlock f b i = some u) (ht : u.markLocalAvailable f i = some t) :
    Marked X t ∧ t.graph.entries =
      Function.update s.graph.entries b (s.graph.entries b ++ [⟨f, i, true⟩]) := by
  obtain ⟨hfree, hgraph⟩ := graph_assignBlock hu
  obtain ⟨-, hgraph'⟩ := graph_markLocalAvailable ht
  rw [hgraph] at hgraph'
  -- for the rest of the invariant the flags do not matter
  have huniv : Marked Set.univ u :=
    (h.mono (Set.subset_univ X)).assignBlock hb (.inl (Set.mem_univ f)) hu
  have hsame := SameBut.markLocalAvailable ht
  refine ⟨⟨?_, ?_, allocated_mark huniv ht, ?_⟩, ?_⟩
  · rw [hgraph']
    exact (h.linked.assign hfree b).mark f i
  · rw [hgraph']
    exact h.faithful.assign_mark h.linked hfree hall
  · rw [hsame.blockMap, hsame.nextBlock]
    exact huniv.mapped
  · rw [hgraph']
    exact Graph.assign_mark_entries (List.getElem?_eq_some_iff.mp hfree).1 hall

/-- A file that loses its blocks loses its back references. -/
theorem Marked.erase (h : Marked X s) {n : Nat} (hsame : SameBlocks s t)
    (hgraph : t.graph = (s.graph.erase f).reset f n) : Marked (X \ {f}) t := by
  have hnone : ∀ j, (s.graph.erase f).slot f j = none := fun j => by
    rw [Graph.slot_erase, if_pos rfl]
  refine ⟨?_, ?_, ?_, ?_⟩
  · rw [hgraph]
    exact (h.linked.erase f).reset hnone n
  · rw [hgraph]
    exact (h.faithful.erase f).reset hnone n
  · intro f' j b l hs
    rw [hgraph, Graph.slot_reset hnone, Graph.slot_erase] at hs
    rw [hsame.nextBlock]
    split at hs
    · cases hs
    · exact h.allocated f' j b l hs
  · rw [hsame.blockMap, hsame.nextBlock]
    exact h.mapped

/-- One file has been changed. -/
theorem Sound.of_sameBut (h : Sound X s) {Y : Set FileId} (hsame : SameBut f s t)
    (hlt : f < s.nextFile ∨ (t.files f).slots = []) (hmarked : Marked Y t)
    (hcoherent : (t.files f).Coherent) : Sound Y t where
  toMarked := hmarked
  coherent g := by
    by_cases hg : g = f
    · rw [hg]
      exact hcoherent
    · rw [hsame.files g hg]
      exact h.coherent g
  fresh g hg := by
    rw [hsame.nextFile] at hg
    by_cases hgf : g = f
    · rw [hgf] at hg ⊢
      exact hlt.resolve_left (Nat.not_lt.mpr hg)
    · rw [hsame.files g hgf]
      exact h.fresh g hg
  listed fi g hg := by
    rw [hsame.nextFile]
    rw [hsame.infos] at hg
    exact h.listed fi g hg

/-- **Destroy**. -/
theorem Sound.destroy (h : Sound X s) (f : FileId) : Sound (X \ {f}) (s.destroy f) := by
  have hsame := SameBut.destroy s f
  have hdefault : (s.destroy f).files f = default := files_setFile _ f _
  refine h.of_sameBut hsame (.inr ?_) (h.toMarked.erase hsame.toSameBlocks
    (graph_destroy h.linked f)) ?_
  · rw [hdefault]
    rfl
  · rw [hdefault]
    exact ⟨fun _ => ⟨_, rfl⟩, fun _ => rfl⟩

/-- Only folder infos have been changed. -/
theorem Sound.of_infos (h : Sound X s) {infos : FolderInfoId → FolderInfo}
    (hlisted : ∀ fi, ∀ f ∈ (infos fi).files, f < s.nextFile) :
    Sound X { s with infos := infos } where
  linked := h.linked
  faithful := h.faithful
  allocated := h.allocated
  mapped := h.mapped
  coherent := h.coherent
  fresh := h.fresh
  listed := hlisted

/-- Another map of one folder info. -/
theorem Sound.setInfo (h : Sound X s) {fi : FolderInfoId} {info : FolderInfo}
    (hinfo : ∀ f ∈ info.files, f < s.nextFile) :
    Sound X { s with infos := Function.update s.infos fi info } := by
  refine h.of_infos fun fi' f hf => ?_
  by_cases hfi : fi' = fi
  · subst hfi
    rw [Function.update_self] at hf
    exact hinfo f hf
  · rw [Function.update_of_ne hfi] at hf
    exact h.listed fi' f hf

theorem Sound.put (h : Sound X s) (hf : f < s.nextFile) (fi : FolderInfoId) : Sound X (s.put fi f) := by
  refine h.setInfo fun g hg => ?_
  rcases mem_putOnce_thrice hg with hg | rfl
  · exact h.listed fi g hg
  · exact hf

theorem Sound.setMaxSequence (h : Sound X s) (fi : FolderInfoId) (seq : Int) :
    Sound X (s.setMaxSequence fi seq) := h.setInfo (h.listed fi)

theorem Sound.addStrict (h : Sound X s) (hf : f < s.nextFile) (fi : FolderInfoId) :
    Sound X (s.addStrict fi f).2 := by
  unfold Store.addStrict
  dsimp only
  split
  · exact (h.setMaxSequence fi _).put hf fi
  · exact h

theorem Sound.remove (h : Sound X s) (fi : FolderInfoId) (f : FileId) : Sound X (s.remove fi f) :=
  h.setInfo fun g hg => h.listed fi g (List.mem_filter.mp hg).1

theorem Sound.byName_lt (h : Sound X s) {fi : FolderInfoId} {name : String}
    (hf : s.byName fi name = some f) : f < s.nextFile :=
  h.listed fi f (List.mem_of_find?_eq_some hf)

/-- The flags and the sequence of a file do not matter. -/
theorem Sound.setFile (h : Sound X s) {file : FileInfo} (hslots : file.slots = (s.files f).slots)
    (hc : file.Coherent) : Sound X (s.setFile f file) := by
  have hsame := SameBut.setFile s f file
  refine h.of_sameBut hsame ?_ (h.toMarked.of_sameBlocks (graph_setFile_of_slots hslots)
    hsame.toSameBlocks) ?_
  · rw [files_setFile, hslots]
    by_cases hf : f < s.nextFile
    · exact .inl hf
    · exact .inr (h.fresh f (Nat.not_lt.mp hf))
  · rw [files_setFile]
    exact hc

end Operations

/-! ## The loops over the blocks -/

section Loops

variable {X : Set FileId} {f : FileId}

/-- No back reference of the block with this hash is marked. -/
def Clean (s : Store) (hash : Bytes) : Prop := ∀ b, s.byHash hash = some b → s.hasLocalFile b = false

/-- What the assigned blocks of a new file leave behind. -/
theorem Marked.assignHashes {hashes : List Bytes} :
    ∀ {s t : Store} {i : Nat}, Marked X s → (f ∈ X ∨ ∀ hash ∈ hashes, Clean s hash) →
      assignHashes f s i hashes = some t →
      Marked X t ∧ SameBut f s t ∧ (∀ b, t.graph.anyFlag b = s.graph.anyFlag b) ∧
        ∀ b e, e.owner ≠ f → (e ∈ t.graph.entries b ↔ e ∈ s.graph.entries b) := by
  induction hashes with
  | nil =>
    rintro s t i h - ⟨⟩
    exact ⟨h, SameBut.refl f s, fun _ => rfl, fun _ _ _ => Iff.rfl⟩
  | cons hash hashes ih =>
    intro s t i h hclean ht
    obtain ⟨b, hb, ht⟩ := Option.bind_eq_some_iff.mp ht
    obtain ⟨u, hu, ht⟩ := Option.bind_eq_some_iff.mp ht
    obtain ⟨-, hgraph⟩ := graph_assignBlock hu
    have hsame := SameBut.assignBlock hu
    have hany : ∀ c, u.graph.anyFlag c = s.graph.anyFlag c := fun c => by
      rw [hgraph, Graph.anyFlag_assign]
    have hmarked : Marked X u := by
      refine h.assignBlock (h.mapped b (byHash_eq_some hb).1) ?_ hu
      exact hclean.imp_right fun hall => hall hash (List.mem_cons_self ..) b hb
    obtain ⟨ht₁, ht₂, ht₃, ht₄⟩ := ih hmarked (hclean.imp_right fun hall h' hmem c hc =>
      (hany c).trans (hall h' (List.mem_cons_of_mem _ hmem) c (by rwa [hsame.byHash] at hc))) ht
    refine ⟨ht₁, hsame.trans ht₂, fun c => (ht₃ c).trans (hany c), fun c e he => ?_⟩
    rw [ht₄ c e he, hgraph, Graph.mem_entries_assign]
    constructor
    · rintro (hold | ⟨-, rfl⟩)
      · exact hold
      · exact absurd rfl he
    · exact .inl

/-- The blocks of another file are taken over; those that have been local are marked, the
other ones must not be marked anywhere. -/
theorem Marked.adoptBlocks {localHashes : List Bytes} {vs : List (Option Slot)} :
    ∀ {s t : Store} {i : Nat}, Marked X s → (∀ p, some p ∈ vs → p.1 < s.nextBlock) →
      (∀ p, some p ∈ vs → (s.blocks p.1).hash ∉ localHashes → s.graph.anyFlag p.1 = false) →
      (∀ b, (s.blocks b).hash ∈ localHashes → ∀ e ∈ s.graph.entries b, e.owner = f → e.flag = true) →
      adoptBlocks f localHashes s i vs = some t → Marked X t := by
  induction vs with
  | nil =>
    rintro s t i h - - - ⟨⟩
    exact h
  | cons v vs ih =>
    intro s t i h halloc hquiet hall ht
    have halloc' : ∀ p, some p ∈ vs → p.1 < s.nextBlock := fun p hp =>
      halloc p (List.mem_cons_of_mem _ hp)
    have hquiet' : ∀ p, some p ∈ vs → (s.blocks p.1).hash ∉ localHashes →
        s.graph.anyFlag p.1 = false := fun p hp => hquiet p (List.mem_cons_of_mem _ hp)
    cases v with
    | none => exact ih h halloc' hquiet' hall ht
    | some p =>
      obtain ⟨u, hu, ht⟩ := Option.bind_eq_some_iff.mp ht
      obtain ⟨w, hw, hu⟩ := Option.bind_eq_some_iff.mp hu
      have hsame := SameBut.assignBlock hw
      have hp : p.1 < s.nextBlock := halloc p (List.mem_cons_self ..)
      rw [hsame.hash] at hu
      by_cases hmem : (s.blocks p.1).hash ∈ localHashes
      · rw [if_pos hmem] at hu
        obtain ⟨hmarked, hentries⟩ := h.assignMark hp (hall p.1 hmem) hw hu
        have hsame' := hsame.trans (SameBut.markLocalAvailable hu)
        refine ih hmarked (fun q hq => ?_) (fun q hq hnot => ?_) (fun b hb e he ho => ?_) ht
        · rw [hsame'.nextBlock]
          exact halloc' q hq
        · -- another block: its back references are the same
          rw [hsame'.hash] at hnot
          have hne : q.1 ≠ p.1 := fun heq => hnot (heq ▸ hmem)
          rw [Graph.anyFlag, hentries, Function.update_of_ne hne]
          exact hquiet' q hq hnot
        · rw [hsame'.hash] at hb
          rw [hentries] at he
          by_cases hbp : b = p.1
          · subst hbp
            rw [Function.update_self, List.mem_append, List.mem_singleton] at he
            rcases he with he | rfl
            · exact hall _ hb e he ho
            · rfl
          · rw [Function.update_of_ne hbp] at he
            exact hall b hb e he ho
      · rw [if_neg hmem] at hu
        cases hu
        obtain ⟨-, hgraph⟩ := graph_assignBlock hw
        have hquietp := hquiet p (List.mem_cons_self ..) hmem
        refine ih (h.assignBlock hp (.inr hquietp) hw) (fun q hq => ?_) (fun q hq hnot => ?_)
          (fun b hb e he ho => ?_) ht
        · rw [hsame.nextBlock]
          exact halloc' q hq
        · rw [hsame.hash] at hnot
          rw [hgraph, Graph.anyFlag_assign]
          exact hquiet' q hq hnot
        · rw [hsame.hash] at hb
          rw [hgraph, Graph.mem_entries_assign] at he
          rcases he with he | ⟨rfl, -⟩
          · exact hall b hb e he ho
          · exact absurd hb hmem

/-- An exempt file may take over any blocks. -/
theorem Marked.adoptBlocks_of_mem (hX : f ∈ X) {localHashes : List Bytes} {vs : List (Option Slot)} :
    ∀ {s t : Store} {i : Nat}, Marked X s → (∀ p, some p ∈ vs → p.1 < s.nextBlock) →
      Store.adoptBlocks f localHashes s i vs = some t → Marked X t := by
  induction vs with
  | nil =>
    rintro s t i h - ⟨⟩
    exact h
  | cons v vs ih =>
    intro s t i h halloc ht
    have halloc' : ∀ p, some p ∈ vs → p.1 < s.nextBlock := fun p hp =>
      halloc p (List.mem_cons_of_mem _ hp)
    cases v with
    | none => exact ih h halloc' ht
    | some p =>
      obtain ⟨u, hu, ht⟩ := Option.bind_eq_some_iff.mp ht
      obtain ⟨w, hw, hu⟩ := Option.bind_eq_some_iff.mp hu
      have hsame := SameBut.assignBlock hw
      have hmarked := h.assignBlock (halloc p (List.mem_cons_self ..)) (.inl hX) hw
      split at hu
      · refine ih (hmarked.markLocalAvailable (.inl hX) hu) (fun q hq => ?_) ht
        rw [(hsame.trans (SameBut.markLocalAvailable hu)).nextBlock]
        exact halloc' q hq
      · cases hu
        exact ih hmarked (fun q hq => hsame.nextBlock ▸ halloc' q hq) ht

/-- The blocks of an advanced file: all of them are marked at once. -/
theorem Marked.advanceBlocks {bs : List Proto.BlockInfo} :
    ∀ {s t : Store} {i : Nat}, Marked X s →
      (∀ b, ∀ e ∈ s.graph.entries b, e.owner = f → e.flag = true) →
      Advance.assignBlocks f s i bs = some t → Marked X t ∧ SameBut f s t := by
  induction bs with
  | nil =>
    rintro s t i h - ⟨⟩
    exact ⟨h, SameBut.refl f s⟩
  | cons b bs ih =>
    intro s t i h hall ht
    obtain ⟨hash, -, ht⟩ := Option.bind_eq_some_iff.mp ht
    obtain ⟨block, hblock, ht⟩ := Option.bind_eq_some_iff.mp ht
    obtain ⟨w, hw, ht⟩ := Option.bind_eq_some_iff.mp ht
    obtain ⟨u, hu, ht⟩ := Option.bind_eq_some_iff.mp ht
    obtain ⟨hmarked, hentries⟩ :=
      h.assignMark (h.mapped block (byHash_eq_some hblock).1) (hall block) hw hu
    have hsame := (SameBut.assignBlock hw).trans (SameBut.markLocalAvailable hu)
    obtain ⟨ht₁, ht₂⟩ := ih hmarked (fun c e he ho => by
      rw [hentries] at he
      by_cases hc : c = block
      · subst hc
        rw [Function.update_self, List.mem_append, List.mem_singleton] at he
        rcases he with he | rfl
        · exact hall c e he ho
        · rfl
      · rw [Function.update_of_ne hc] at he
        exact hall c e he ho) ht
    exact ⟨ht₁, hsame.trans ht₂⟩

end Loops

/-! ## New and updated files -/

section Files

variable {X : Set FileId} {s t : Store} {f : FileId}

/-- **Create** a file without blocks. -/
theorem Sound.create (h : Sound X s) {file : FileInfo} (hc : file.Coherent) {n : Nat}
    (hslots : file.slots = List.replicate n none) : Sound X (s.create file) := by
  have hnone : ∀ j, s.graph.slot s.nextFile j = none := by
    intro j
    show (s.files s.nextFile).slots[j]?.join = none
    rw [h.fresh _ (Nat.le_refl _)]
    rfl
  have hfile : ∀ g, (s.create file).files g = if g = s.nextFile then file else s.files g := fun g =>
    Function.update_apply ..
  refine ⟨⟨?_, ?_, ?_, h.mapped⟩, ?_, ?_, ?_⟩
  · rw [graph_create hslots]
    exact h.linked.reset hnone n
  · rw [graph_create hslots]
    exact h.faithful.reset hnone n
  · intro f i b l hs
    rw [graph_create hslots, Graph.slot_reset hnone] at hs
    exact h.allocated f i b l hs
  · intro g
    rw [hfile]
    split
    · exact hc
    · exact h.coherent g
  · intro g hg
    have hlt : s.nextFile < g := hg
    rw [hfile, if_neg (Nat.ne_of_gt hlt)]
    exact h.fresh g (Nat.le_of_lt hlt)
  · intro fi g hg
    exact Nat.lt_succ_of_lt (h.listed fi g hg)

/-- `fields_update` makes a file without blocks. -/
theorem fieldsUpdate_coherent {folderUuid uuid : Uuid} {source : Fields} {file : FileInfo}
    (h : FileInfo.fieldsUpdate folderUuid uuid source = some file) :
    file.Coherent ∧ ∃ n, file.slots = List.replicate n none := by
  unfold FileInfo.fieldsUpdate at h
  split at h
  · cases h
  · cases h
    cases htype : asFlags source.type with
    | file => exact ⟨⟨fun _ => ⟨_, rfl⟩, fun _ => rfl⟩, _, rfl⟩
    | dir => exact ⟨⟨by simp [FileInfo.isFile], by simp⟩, 0, rfl⟩
    | link => exact ⟨⟨by simp [FileInfo.isFile], by simp⟩, 0, rfl⟩

/-- What a successful `update` has asserted and done. -/
theorem update_eq_some {other : FileInfo} (ho : other.Coherent) (ht : s.update f other = some t) :
    ∃ u, adoptBlocks f (s.keptHashes f) (s.prepareUpdate f other) 0 other.slots = some u ∧
      t = u.setFile f ((u.files f).copyFlags other) := by
  by_cases hassert : (s.files f).name = other.name ∧
      ((s.files f).uuid = other.uuid ∨ (s.files f).version.identicalTo other.version = true)
  · rw [update_eq ho hassert.1 hassert.2] at ht
    obtain ⟨u, hu, rfl⟩ := Option.map_eq_some_iff.mp ht
    exact ⟨u, hu, rfl⟩
  · unfold Store.update at ht
    dsimp only at ht
    rw [if_neg hassert] at ht
    cases ht

/-- **Update**. The blocks that the file has had locally are local again; the other ones
must not be marked anywhere. -/
theorem Sound.update (h : Sound X s) (hf : f < s.nextFile) {other : FileInfo} (ho : other.Coherent)
    (halloc : ∀ p, some p ∈ other.slots → p.1 < s.nextBlock)
    (hquiet : f ∈ X ∨ ∀ p, some p ∈ other.slots → (s.blocks p.1).hash ∉ s.keptHashes f →
      s.graph.anyFlag p.1 = false)
    (ht : s.update f other = some t) :
    Sound X t ∧ SameBut f s t ∧ (t.files f).sequence = other.sequence ∧
      (t.files f).slots = s.adopted (s.keptHashes f) other.slots := by
  obtain ⟨u, hu, rfl⟩ := update_eq_some ho ht
  have hp := prepareUpdate_spec h.linked (h.coherent f) ho
  have hkind : (s.files f).isFile = true ∨ ∀ v ∈ other.slots, v = none := by
    by_contra hcon
    push Not at hcon
    obtain ⟨hnot, v, hv, hne⟩ := hcon
    rw [update_of_nonFile h.linked (h.coherent f) ho (by simpa using hnot) ⟨v, hv, hne⟩] at ht
    cases ht
  obtain ⟨u', a, c, hu', hsame, hslots, hfile, hcontent⟩ := hp.adopt ho (s.keptHashes f) hkind
  rw [hu] at hu'
  cases hu'
  have hprep : Marked X (s.prepareUpdate f other) :=
    (h.toMarked.erase hp.same.toSameBlocks hp.graph).mono Set.sdiff_subset
  have halloc' : ∀ p, some p ∈ other.slots → p.1 < (s.prepareUpdate f other).nextBlock := by
    intro p hmem
    rw [hp.same.nextBlock]
    exact halloc p hmem
  have hmarked : Marked X u := by
    rcases hquiet with hX | hquiet
    · exact hprep.adoptBlocks_of_mem hX halloc' hu
    · refine hprep.adoptBlocks halloc' (fun p hmem hnot => ?_) (fun b _ e he hown => ?_) hu
      · rw [hp.same.hash] at hnot
        rw [hp.graph]
        exact Graph.anyFlag_erase (hquiet p hmem hnot)
      · rw [hp.graph] at he
        exact absurd hown (Graph.mem_entries_erase.mp he).2
  have hgraph : (u.setFile f ((u.files f).copyFlags other)).graph = u.graph :=
    graph_setFile_of_slots rfl
  have hall := (hp.same.trans hsame).trans (SameBut.setFile u f ((u.files f).copyFlags other))
  refine ⟨h.of_sameBut hall (.inl hf)
    (hmarked.of_sameBlocks hgraph (SameBut.setFile u f _).toSameBlocks) ?_, hall, ?_, ?_⟩
  · rw [files_setFile]
    exact hcontent.symm
  · obtain ⟨c', a', hfile'⟩ := hp.file
    rw [files_setFile, hfile, hfile']
    rfl
  · rw [files_setFile, ← hslots]
    rfl

/-- The loop over the announced blocks touches the slots only. -/
theorem files_assignHashes {hashes : List Bytes} :
    ∀ {s t : Store} {i : Nat}, assignHashes f s i hashes = some t →
      (∃ l, t.files f = (s.files f).setSlots l) ∧ ∀ p, some p ∈ (t.files f).slots →
        some p ∈ (s.files f).slots ∨ ∃ hash ∈ hashes, s.byHash hash = some p.1 := by
  induction hashes with
  | nil =>
    rintro s t i ⟨⟩
    exact ⟨⟨_, (FileInfo.setSlots_slots _).symm⟩, fun p hp => .inl hp⟩
  | cons hash hashes ih =>
    intro s t i ht
    obtain ⟨b, hb, ht⟩ := Option.bind_eq_some_iff.mp ht
    obtain ⟨u, hu, ht⟩ := Option.bind_eq_some_iff.mp ht
    obtain ⟨-, hfree, -⟩ := assignBlock_eq_some.mp hu
    obtain ⟨blocks, hc⟩ := content_of_slot hfree
    obtain ⟨⟨l, hl⟩, hmem⟩ := ih ht
    have hfile := files_assignBlock hu
    refine ⟨⟨l, by rw [hl, hfile, FileInfo.setSlots_setSlots]⟩, fun p hp => ?_⟩
    rcases hmem p hp with hp | ⟨hash', hh, hby⟩
    · rw [hfile, FileInfo.slots_setSlots hc] at hp
      rcases List.mem_or_eq_of_mem_set hp with hp | hp
      · exact .inl hp
      · cases hp
        exact .inr ⟨hash, List.mem_cons_self .., hb⟩
    · rw [(SameBut.assignBlock hu).byHash] at hby
      exact .inr ⟨hash', List.mem_cons_of_mem _ hh, hby⟩

theorem coherent_advanceBlocks {bs : List Proto.BlockInfo} :
    ∀ {s t : Store} {i : Nat}, (s.files f).Coherent → Advance.assignBlocks f s i bs = some t →
      (t.files f).Coherent := by
  induction bs with
  | nil =>
    rintro s t i h ⟨⟩
    exact h
  | cons b bs ih =>
    intro s t i h ht
    obtain ⟨hash, -, ht⟩ := Option.bind_eq_some_iff.mp ht
    obtain ⟨block, -, ht⟩ := Option.bind_eq_some_iff.mp ht
    obtain ⟨w, hw, ht⟩ := Option.bind_eq_some_iff.mp ht
    obtain ⟨u, hu, ht⟩ := Option.bind_eq_some_iff.mp ht
    obtain ⟨c, a, -, hfile⟩ := files_markLocalAvailable hu
    refine ih ?_ ht
    rw [hfile, files_assignBlock hw]
    exact (h.setSlots _).setSlots _

end Files

/-! ## A file of an index message -/

section Index

open UpdateFolder

variable {s t : Store} {fi : FolderInfoId} {uuid : Uuid} {f : Proto.FileInfo}

/-- The hashes of the blocks that the new object gets. -/
def indexedHashes (f : Proto.FileInfo) : List Bytes :=
  if asFlags f.type = .file ∧ f.deleted = false ∧ f.size ≠ 0 then (strictHashes f.blocks).getD []
  else []

/-- The new object does not stay, nor does the one it updates. -/
def Dropped (s : Store) (fi : FolderInfoId) (f : Proto.FileInfo) : Prop :=
  f.sequence ≤ (s.infos fi).maxSequence ∨
    ∃ prev, s.byName fi f.name = some prev ∧ (s.files prev).sequence = f.sequence

/-- When an announced file gets the flags of its back references right: none of its
blocks is marked anywhere, but those that the updated file itself has locally. -/
def IndexCareful (s : Store) (fi : FolderInfoId) (f : Proto.FileInfo) : Prop :=
  Dropped s fi f ∨ ∀ hash ∈ indexedHashes f, Clean s hash ∨
    ∃ prev, s.byName fi f.name = some prev ∧ (s.files prev).sequence < f.sequence ∧
      hash ∈ s.keptHashes prev

theorem instantiate_eq_some (h : instantiate s fi uuid f = some t) :
    ∃ file, FileInfo.fieldsUpdate (s.infos fi).uuid uuid f.fields = some file ∧
      file.name = f.name ∧ file.sequence = f.sequence ∧
      assignHashes s.nextFile (s.create file) 0 (indexedHashes f) = some t := by
  obtain ⟨file, hfile, h⟩ := Option.bind_eq_some_iff.mp h
  have hfields : file.name = f.name ∧ file.sequence = f.sequence ∧ file.type = asFlags f.type ∧
      file.deleted = f.deleted := by
    unfold FileInfo.fieldsUpdate at hfile
    split at hfile
    · cases hfile
    · cases hfile
      exact ⟨rfl, rfl, rfl, rfl⟩
  obtain ⟨hname, hseq, htype, hdel⟩ := hfields
  refine ⟨file, hfile, hname, hseq, ?_⟩
  have hiff : (file.isFile = true ∧ file.deleted = false ∧ f.size ≠ 0) ↔
      (asFlags f.type = .file ∧ f.deleted = false ∧ f.size ≠ 0) := by
    rw [hdel]
    simp [FileInfo.isFile, htype]
  unfold indexedHashes
  split at h
  · rename_i hassigned
    rw [if_pos (hiff.mp hassigned)]
    obtain ⟨hashes, hh, h⟩ := Option.bind_eq_some_iff.mp h
    rw [hh]
    exact h
  · rename_i hassigned
    rw [if_neg fun hcon => hassigned (hiff.mpr hcon)]
    exact h

/-- The store with the new object, the flags of which nobody has looked at. -/
structure Announced (s : Store) (f : Proto.FileInfo) (t : Store) : Prop where
  sound : Sound {s.nextFile} t
  clean : (∀ hash ∈ indexedHashes f, Clean s hash) → Sound ∅ t
  blocks : SameBlocks s t
  nextFile : t.nextFile = s.nextFile + 1
  infos : t.infos = s.infos
  files : ∀ g, g ≠ s.nextFile → t.files g = s.files g
  name : (t.files s.nextFile).name = f.name
  sequence : (t.files s.nextFile).sequence = f.sequence
  slots : ∀ p, some p ∈ (t.files s.nextFile).slots → ∃ hash ∈ indexedHashes f, s.byHash hash = some p.1
  anyFlag : ∀ b, t.graph.anyFlag b = s.graph.anyFlag b
  entries : ∀ b e, e.owner ≠ s.nextFile → (e ∈ t.graph.entries b ↔ e ∈ s.graph.entries b)

theorem announced_of_instantiate (h : Sound ∅ s) (ht : instantiate s fi uuid f = some t) :
    Announced s f t := by
  obtain ⟨file, hfile, hname, hseq, ht⟩ := instantiate_eq_some ht
  obtain ⟨hc, n, hslots⟩ := fieldsUpdate_coherent hfile
  have hcreate := h.create hc hslots
  have hnew : (s.create file).files s.nextFile = file := Function.update_self ..
  obtain ⟨⟨l, hl⟩, hmem⟩ := files_assignHashes ht
  have hfile' : t.files s.nextFile = file.setSlots l := by rw [hl, hnew]
  have hcoherent : (t.files s.nextFile).Coherent := hfile' ▸ hc.setSlots l
  have hentries : ∀ b, (s.create file).graph.entries b = s.graph.entries b := fun _ => rfl
  obtain ⟨hmarked, hsame, hany, hother⟩ := Marked.assignHashes
    (hcreate.toMarked.mono (Set.empty_subset {s.nextFile})) (.inl rfl) ht
  have hlt : s.nextFile < (s.create file).nextFile := Nat.lt_succ_self _
  refine ⟨hcreate.of_sameBut hsame (.inl hlt) hmarked hcoherent, fun hclean => ?_,
    ⟨hsame.hash, hsame.size, hsame.blockMap, hsame.nextBlock⟩, hsame.nextFile, hsame.infos,
    fun g hg => ?_, ?_, ?_, fun p hp => ?_, hany, hother⟩
  · exact hcreate.of_sameBut hsame (.inl hlt)
      (hcreate.toMarked.assignHashes (.inr hclean) ht).1 hcoherent
  · rw [hsame.files g hg]
    exact Function.update_of_ne hg _ _
  · rw [hfile', FileInfo.setSlots_eq]
    exact hname
  · rw [hfile', FileInfo.setSlots_eq]
    exact hseq
  · rcases hmem p hp with hold | hby
    · rw [hnew, hslots] at hold
      cases (List.eq_of_mem_replicate hold)
    · exact hby

/-- The end of a round: a file that does not stay may be wrong. -/
theorem Sound.addFile {g : FileId} (h : Sound {g} s) (hg : g < s.nextFile)
    (hkeep : (s.infos fi).maxSequence < (s.files g).sequence → Sound ∅ s) :
    Sound ∅ (addFile fi s g) := by
  by_cases hseq : (s.infos fi).maxSequence < (s.files g).sequence
  · have hadded := (hkeep hseq).addStrict hg fi
    have heq : UpdateFolder.addFile fi s g = (s.addStrict fi g).2 := by
      simp [UpdateFolder.addFile, Store.addStrict, hseq]
    rw [heq]
    exact hadded
  · have heq : UpdateFolder.addFile fi s g = s.destroy g := by
      simp [UpdateFolder.addFile, Store.addStrict, hseq]
    rw [heq]
    exact (h.destroy g).mono (by simp)

/-- The maps are the same, so are the names of the files in them. -/
theorem Announced.byName (ha : Announced s f t) (h : Sound ∅ s) (name : String) :
    t.byName fi name = s.byName fi name := by
  unfold Store.byName
  rw [ha.infos]
  refine List.find?_congr fun g hg => ?_
  rw [ha.files g (Nat.ne_of_lt (h.listed fi g hg))]

/-- Nobody else's back references are touched. -/
theorem Announced.keptHashes (ha : Announced s f t) {g : FileId} (hg : g ≠ s.nextFile) :
    t.keptHashes g = s.keptHashes g := by
  have hany : ∀ b, (t.blocks b).fileBlocks.any (fun fb => fb.flag && fb.owner = g) =
      (s.blocks b).fileBlocks.any (fun fb => fb.flag && fb.owner = g) := by
    intro b
    rw [Bool.eq_iff_iff, List.any_eq_true, List.any_eq_true]
    refine exists_congr fun e => and_congr_left fun he => ?_
    have ho : e.owner = g := by simpa using (Bool.and_eq_true_iff.mp he).2
    exact ha.entries b e (ho ▸ hg)
  unfold Store.keptHashes localBlockHashes
  rw [ha.files g hg]
  simp only [hany, ha.blocks.hash]

/-- A block of the new object that the updated file has not had locally is not marked. -/
theorem Announced.quiet (ha : Announced s f t) (hcareful : IndexCareful s fi f) {prev : FileId}
    (hprev : s.byName fi f.name = some prev) (hne : prev ≠ s.nextFile)
    (hseq : (s.files prev).sequence < f.sequence) (hmax : (s.infos fi).maxSequence < f.sequence) :
    ∀ p, some p ∈ (t.files s.nextFile).slots → (t.blocks p.1).hash ∉ t.keptHashes prev →
      t.graph.anyFlag p.1 = false := by
  intro p hp hnot
  obtain ⟨hash, hmem, hby⟩ := ha.slots p hp
  have hhash : (t.blocks p.1).hash = hash := (ha.blocks.hash p.1).trans (byHash_eq_some hby).2
  rw [ha.keptHashes hne, hhash] at hnot
  rw [ha.anyFlag]
  rcases hcareful with (hle | ⟨prev', hprev', heq⟩) | hall
  · omega
  · rw [hprev] at hprev'
    cases hprev'
    omega
  · rcases hall hash hmem with hcl | ⟨prev', hprev', -, hmem'⟩
    · exact hcl p.1 hby
    · rw [hprev] at hprev'
      cases hprev'
      exact absurd hmem' hnot

/-- **One announced file**. -/
theorem Sound.applyFile (h : Sound ∅ s) (hcareful : IndexCareful s fi f)
    (ht : applyFile fi s uuid f = some t) : Sound ∅ t := by
  unfold UpdateFolder.applyFile at ht
  obtain ⟨u, hu, ht⟩ := Option.bind_eq_some_iff.mp ht
  have ha := announced_of_instantiate h hu
  have hlt : s.nextFile < u.nextFile := ha.nextFile ▸ Nat.lt_succ_self _
  rw [ha.name, ha.byName h] at ht
  -- an object that is added has not been dropped
  have hclean : (∀ prev, s.byName fi f.name = some prev → ¬ (s.files prev).sequence < f.sequence) →
      (u.infos fi).maxSequence < (u.files s.nextFile).sequence →
      (∀ prev, s.byName fi f.name = some prev → (s.files prev).sequence ≠ f.sequence) →
      Sound ∅ u := by
    intro hnot hseq hne
    rw [ha.infos, ha.sequence] at hseq
    refine ha.clean fun hash hmem => ?_
    rcases hcareful with (hle | ⟨prev, hprev, heq⟩) | hall
    · omega
    · exact absurd heq (hne prev hprev)
    · rcases hall hash hmem with hcl | ⟨prev, hprev, hlt, -⟩
      · exact hcl
      · exact absurd hlt (hnot prev hprev)
  cases hprev : s.byName fi f.name with
  | none =>
    rw [hprev] at ht
    cases ht
    exact ha.sound.addFile hlt fun hseq => hclean (by simp [hprev]) hseq (by simp [hprev])
  | some prev =>
    rw [hprev] at ht
    dsimp only at ht
    have hprevlt := h.byName_lt hprev
    have hne : prev ≠ s.nextFile := Nat.ne_of_lt hprevlt
    rw [ha.files prev hne, ha.sequence] at ht
    split at ht
    · rename_i hseq
      obtain ⟨w, hw, ht⟩ := Option.bind_eq_some_iff.mp ht
      cases ht
      have hremoved := ha.sound.remove fi prev
      have hcoherent := ha.sound.coherent s.nextFile
      have halloc : ∀ p, some p ∈ (u.files s.nextFile).slots → p.1 < u.nextBlock := fun p hp =>
        ha.sound.toMarked.lt_nextBlock hp
      have hprevlt' : prev < u.nextFile := Nat.lt_trans hprevlt hlt
      -- whatever the flags are, both objects together are the only ones concerned
      obtain ⟨hboth, hsame, hwseq, -⟩ := (hremoved.mono (Set.subset_insert prev {s.nextFile})).update hprevlt'
        hcoherent halloc (.inl (Set.mem_insert prev _)) hw
      have hdestroyed : ((w.destroy s.nextFile).files prev) = w.files prev :=
        (SameBut.destroy w s.nextFile).files prev hne
      refine Sound.addFile ((hboth.destroy s.nextFile).mono ?_) ?_ fun hmax => ?_
      · intro g hg
        rcases hg.1 with rfl | hg'
        · rfl
        · exact absurd hg' hg.2
      · rw [(SameBut.destroy w s.nextFile).nextFile, hsame.nextFile]
        exact hprevlt'
      · have hmax' : (s.infos fi).maxSequence < f.sequence := by
          rw [hdestroyed, hwseq, (SameBut.destroy w s.nextFile).infos, hsame.infos] at hmax
          simpa [Store.remove, ha.infos, ha.sequence] using hmax
        have hquiet := ha.quiet hcareful hprev hne hseq hmax'
        obtain ⟨hs, -⟩ := hremoved.update hprevlt' hcoherent halloc (.inr hquiet) hw
        exact (hs.destroy s.nextFile).mono (by simp)
    · rename_i hseq
      split at ht
      · cases ht
        exact (ha.sound.destroy s.nextFile).mono (by simp)
      · rename_i hne'
        cases ht
        refine ha.sound.addFile hlt fun hmax => hclean ?_ hmax ?_
        · intro prev' hprev'
          rw [hprev] at hprev'
          cases hprev'
          exact hseq
        · intro prev' hprev'
          rw [hprev] at hprev'
          cases hprev'
          exact hne'

end Index

/-! ## Loaded and advanced files -/

section Local

variable {s t : Store} {fi : FolderInfoId}

/-- **One loaded file**: none of its blocks may be marked. -/
theorem Sound.loadFile (h : Sound ∅ s) {allFi : List FolderInfoId} {key : Bytes} {data : Db.FileInfo}
    (hclean : ∀ hash ∈ data.blocks, Clean s hash)
    (ht : FileDb.loadFile s allFi key data = .ok t) : Sound ∅ t := by
  obtain ⟨fi, -, ht⟩ := Fallible.bind_ok.mp ht
  obtain ⟨file, hfile, ht⟩ := Fallible.bind_ok.mp ht
  obtain ⟨u, hu, ht⟩ := Fallible.bind_ok.mp ht
  cases ht
  obtain ⟨folderUuid, uuid, hfields⟩ : ∃ folderUuid uuid,
      FileInfo.fieldsUpdate folderUuid uuid data.fields = some file := by
    unfold FileDb.createFile at hfile
    split at hfile
    · cases hfile
    · split at hfile
      · cases hfile
      · obtain ⟨folderUuid, -, hfile⟩ := Fallible.bind_ok.mp hfile
        obtain ⟨uuid, -, hfile⟩ := Fallible.bind_ok.mp hfile
        split at hfile
        · exact ⟨folderUuid, uuid, FileDb.asserted_ok.mp hfile⟩
        · cases hfile
  obtain ⟨hc, n, hslots⟩ := fieldsUpdate_coherent hfields
  have hu := FileDb.asserted_ok.mp hu
  have hcreate := h.create hc hslots
  have hlt : s.nextFile < (s.create file).nextFile := Nat.lt_succ_self _
  obtain ⟨hmarked, hsame, -⟩ := hcreate.toMarked.assignHashes (.inr hclean) hu
  obtain ⟨⟨l, hl⟩, -⟩ := files_assignHashes hu
  have hsound : Sound ∅ u := by
    refine hcreate.of_sameBut hsame (.inl hlt) hmarked ?_
    rw [hl]
    exact (hcreate.coherent s.nextFile).setSlots l
  unfold addRelaxed
  exact (hsound.put (hsame.nextFile ▸ hlt) fi).setMaxSequence fi _

/-- A file without blocks has no back references. -/
theorem Marked.owner_ne {X : Set FileId} (h : Marked X s) {f : FileId} {n : Nat}
    (hslots : (s.files f).slots = List.replicate n none) :
    ∀ b, ∀ e ∈ s.graph.entries b, e.owner ≠ f := by
  rintro b e he rfl
  obtain ⟨l, hs⟩ := h.linked.slot_of_entry b e he
  have hs' : (s.files e.owner).slots[e.index]?.join = some (b, l) := hs
  rw [hslots, List.getElem?_replicate] at hs'
  split at hs' <;> cases hs'

/-- The object that is advanced has no blocks yet. -/
theorem Sound.target {X : Set FileId} (h : Sound X s) {file : FileInfo} (hc : file.Coherent) {n : Nat}
    (hslots : file.slots = List.replicate n none) {g : FileId}
    (ht : Advance.target fi s file = some (g, t)) :
    Sound X t ∧ g < t.nextFile ∧ ∃ m, (t.files g).slots = List.replicate m none := by
  have hcreate := h.create hc hslots
  have hlt : s.nextFile < (s.create file).nextFile := Nat.lt_succ_self _
  unfold Advance.target at ht
  cases hprev : s.byName fi file.name with
  | none =>
    rw [hprev] at ht
    cases ht
    refine ⟨hcreate, hlt, n, ?_⟩
    rw [show (s.create file).files s.nextFile = file from Function.update_self ..]
    exact hslots
  | some prev =>
    rw [hprev] at ht
    obtain ⟨u, hu, heq⟩ := Option.map_eq_some_iff.mp ht
    obtain ⟨rfl, rfl⟩ := Prod.mk.inj heq
    have hprevlt := h.byName_lt hprev
    have hnone : ∀ p, some p ∉ file.slots := fun p hp => by
      rw [hslots] at hp
      cases List.eq_of_mem_replicate hp
    obtain ⟨hsound, hsame, -, hslots'⟩ := (hcreate.remove fi prev).update (Nat.lt_trans hprevlt hlt) hc
      (fun p hp => absurd hp (hnone p)) (.inr fun p hp => absurd hp (hnone p)) hu
    have hdestroy := SameBut.destroy u s.nextFile
    refine ⟨(hsound.destroy s.nextFile).mono Set.sdiff_subset, ?_, n, ?_⟩
    · rw [hdestroy.nextFile, hsame.nextFile]
      exact Nat.lt_trans hprevlt hlt
    · rw [hdestroy.files prev (Nat.ne_of_lt hprevlt), hslots', hslots]
      simp [adopted]

theorem Sound.markLocal {X : Set FileId} (h : Sound X s) (f : FileId) (value : Bool) :
    Sound X (s.markLocal f value) := by
  unfold Store.markLocal
  dsimp only
  split
  · exact h.setFile rfl (h.coherent f)
  · exact h.setFile rfl (h.coherent f)

/-- **One advanced file**. -/
theorem Sound.advanceFile {X : Set FileId} (h : Sound X s) {uuid : Uuid} {f : Proto.FileInfo}
    (ht : Advance.advanceFile fi s uuid f = some t) : Sound X t := by
  obtain ⟨file, hfile, ht⟩ := Option.bind_eq_some_iff.mp ht
  obtain ⟨⟨g, u⟩, hu, ht⟩ := Option.bind_eq_some_iff.mp ht
  obtain ⟨w, hw, ht⟩ := Option.bind_eq_some_iff.mp ht
  cases ht
  obtain ⟨hc, n, hslots⟩ := fieldsUpdate_coherent hfile
  obtain ⟨hsound, hlt, m, hm⟩ := h.target hc hslots hu
  have hnone := hsound.toMarked.owner_ne hm
  obtain ⟨hmarked, hsame⟩ := hsound.toMarked.advanceBlocks
    (fun b e he ho => absurd ho (hnone b e he)) hw
  have hw' : Sound X w := hsound.of_sameBut hsame (.inl hlt) hmarked
    (coherent_advanceBlocks (hsound.coherent g) hw)
  have hlocal := hw'.markLocal g true
  have hseq : Sound X ((w.markLocal g true).setFile g { (w.markLocal g true).files g with
      sequence := ((w.markLocal g true).infos fi).maxSequence + 1 }) :=
    hlocal.setFile rfl (hlocal.coherent g)
  refine hseq.addStrict ?_ fi
  show g < w.nextFile
  rw [hsame.nextFile]
  exact hlt

end Local

end Availability

end SyncSpirit
