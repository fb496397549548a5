import SyncSpirit.Diff
import Mathlib

/-!
# Assembling a chain of diffs (`model/diff/diff_assembler.cpp`)

`diff_assember_t` puts diffs into one chain of siblings and inserts an interrupt
after every batch. It keeps a pointer `next` to the link at which the next diff is
hung; `cluster_diff_t::assign_sibling` only asserts that nothing hangs there already.

- `Assembler.pushBack`, `Assembler.pushFront`, `Assembler.consume`;
- `Diff.links`: the diffs of a chain, one by one;
- `batches`: the links that a sequence of pushes should give.
-/

namespace SyncSpirit

namespace Diff

variable {α : Type}

/-- The diffs of a chain, each without its sibling. -/
def links : Diff α → List (Diff α)
  | .nil => []
  | .interrupt sibling => .interrupt .nil :: links sibling
  | .node before after child sibling => .node before after child .nil :: links sibling

/-- The length of a chain. -/
def length : Diff α → Nat
  | .nil => 0
  | .interrupt sibling => length sibling + 1
  | .node _ _ _ sibling => length sibling + 1

/-- The chain up to a link. -/
def keep : Nat → Diff α → Diff α
  | 0, _ => .nil
  | _ + 1, .nil => .nil
  | k + 1, .interrupt sibling => .interrupt (keep k sibling)
  | k + 1, .node before after child sibling => .node before after child (keep k sibling)

/-- `assign_sibling` at the link `next` of a chain: what has been hanging there is
overwritten. The result has the end of the new chain. -/
def assignSibling (d : Diff α) (next : Nat) (sibling : Diff α) : Diff α × Nat :=
  ((d.keep (next + 1)).append sibling, next + sibling.length)

theorem length_links (d : Diff α) : d.links.length = d.length := by
  induction d with
  | nil => rfl
  | interrupt sibling ih => exact congrArg (· + 1) ih
  | node before after child sibling _ ih => exact congrArg (· + 1) ih

@[simp] theorem links_append (x y : Diff α) : (x.append y).links = x.links ++ y.links := by
  induction x with
  | nil => rfl
  | interrupt sibling ih => exact congrArg (_ :: ·) ih
  | node before after child sibling _ ih => exact congrArg (_ :: ·) ih

@[simp] theorem links_keep (k : Nat) (d : Diff α) : (d.keep k).links = d.links.take k := by
  induction k generalizing d with
  | zero => rfl
  | succ k ih =>
    cases d with
    | nil => rfl
    | interrupt sibling => exact congrArg (_ :: ·) (ih sibling)
    | node before after child sibling => exact congrArg (_ :: ·) (ih sibling)

/-- The whole chain is kept. -/
theorem keep_of_length_le {k : Nat} {d : Diff α} (h : d.length ≤ k) : d.keep k = d := by
  induction k generalizing d with
  | zero =>
    cases d with
    | nil => rfl
    | interrupt sibling => simp [length] at h
    | node before after child sibling => simp [length] at h
  | succ k ih =>
    cases d with
    | nil => rfl
    | interrupt sibling => rw [keep, ih (Nat.le_of_succ_le_succ h)]
    | node before after child sibling => rw [keep, ih (Nat.le_of_succ_le_succ h)]

theorem length_append (x y : Diff α) : (x.append y).length = x.length + y.length := by
  rw [← length_links, links_append, List.length_append, length_links, length_links]

theorem length_pos {d : Diff α} (h : d ≠ .nil) : 0 < d.length := by
  cases d with
  | nil => exact absurd rfl h
  | interrupt sibling => exact Nat.succ_pos _
  | node before after child sibling => exact Nat.succ_pos _

/-- At the end of a chain `assign_sibling` appends. -/
theorem assignSibling_of_end {d sibling : Diff α} {next : Nat} (h : next + 1 = d.length) :
    d.assignSibling next sibling = (d.append sibling, next + sibling.length) := by
  rw [assignSibling, keep_of_length_le (Nat.le_of_eq h.symm)]

end Diff

/-! ## `diff_assember_t` -/

/-- `diff_assember_t`. `next` is a link of the chain of `root`, or null. -/
structure Assembler (α : Type) where
  batchLimit : Nat
  left : Nat
  total : Nat
  root : Diff α
  next : Option Nat

namespace Assembler

variable {α : Type}

/-- The constructor. -/
def new (batchLimit : Nat) : Assembler α := ⟨batchLimit, batchLimit, 0, .nil, none⟩

/-- `push_back`; the result says that an interrupt was inserted. The first diff sets
`next` to itself, a later one to the end of its chain. -/
def pushBack (a : Assembler α) (d : Diff α) : Assembler α × Bool :=
  let (root, next) := match a.next with
    | some next => a.root.assignSibling next d
    | none => (d, 0)
  if a.left - 1 = 0 then
    let (root, next) := root.assignSibling next (.interrupt .nil)
    ({ a with left := a.batchLimit, total := a.total + 1, root := root, next := some next }, true)
  else ({ a with left := a.left - 1, total := a.total + 1, root := root, next := some next }, false)

/-- `push_front`. -/
def pushFront (a : Assembler α) (d : Diff α) : Assembler α × Bool :=
  let root := match a.next with
    | some _ => (d.assignSibling 0 a.root).1
    | none => d
  if a.left - 1 = 0 then
    ({ a with left := a.batchLimit, total := a.total + 1,
              root := ((Diff.interrupt .nil).assignSibling 0 root).1, next := some 0 }, true)
  else ({ a with left := a.left - 1, total := a.total + 1, root := root, next := some 0 }, false)

/-- `has_diffs`. -/
def hasDiffs (a : Assembler α) : Bool := !a.root.isNil

/-- `is_overused`. -/
def isOverused (a : Assembler α) : Bool := a.batchLimit ≤ a.total

/-- `consume`. -/
def consume (a : Assembler α) : Diff α × Assembler α :=
  (a.root, { a with root := .nil, next := none, left := a.batchLimit })

/-- Push the diffs one after another. -/
def pushAll (batchLimit : Nat) (ds : List (Diff α)) : Assembler α :=
  ds.foldl (fun a d => (a.pushBack d).1) (new batchLimit)

/-- The chain of the pushed diffs. -/
def assemble (batchLimit : Nat) (ds : List (Diff α)) : Diff α := (pushAll batchLimit ds).consume.1

/-- Nothing has been pushed since the last `consume`. -/
def Idle (a : Assembler α) : Prop := a.root = .nil ∧ a.next = none ∧ a.left = a.batchLimit

theorem idle_new (batchLimit : Nat) : (new batchLimit : Assembler α).Idle := ⟨rfl, rfl, rfl⟩

theorem idle_consume (a : Assembler α) : a.consume.2.Idle := ⟨rfl, rfl, rfl⟩

/-- `next` is the end of the chain. -/
def AtEnd (a : Assembler α) : Prop := ∃ k, a.next = some k ∧ k + 1 = a.root.length

/-! ### Pushing at the back -/

/-- The chain after a push: the kept part, the pushed diff and perhaps an interrupt. -/
theorem pushBack_spec (a : Assembler α) {d : Diff α} {kept : Diff α}
    (hkept : ∀ k, a.next = some k → kept = a.root.keep (k + 1) ∧ k < a.root.length)
    (hnone : a.next = none → kept = .nil ∧ d.length = 1) (hd : d ≠ .nil) :
    (a.pushBack d).1.root =
        (if a.left - 1 = 0 then (kept.append d).append (.interrupt .nil) else kept.append d) ∧
      (a.pushBack d).1.AtEnd ∧ (a.pushBack d).1.batchLimit = a.batchLimit ∧
      (a.pushBack d).1.left = if a.left - 1 = 0 then a.batchLimit else a.left - 1 := by
  have hpos := Diff.length_pos hd
  -- where the chain ends before the interrupt
  obtain ⟨next, hassign, hnext⟩ : ∃ next, (match a.next with
      | some next => a.root.assignSibling next d
      | none => (d, 0)) = (kept.append d, next) ∧ next + 1 = (kept.append d).length := by
    cases ha : a.next with
    | some k =>
      obtain ⟨rfl, hk⟩ := hkept k ha
      refine ⟨k + d.length, rfl, ?_⟩
      rw [Diff.length_append, ← Diff.length_links (a.root.keep _), Diff.links_keep, List.length_take,
        Diff.length_links]
      omega
    | none =>
      obtain ⟨rfl, hlen⟩ := hnone ha
      exact ⟨0, rfl, hlen.symm⟩
  unfold pushBack
  rw [hassign]
  dsimp only
  split
  · rw [Diff.assignSibling_of_end hnext]
    refine ⟨rfl, ⟨_, rfl, ?_⟩, rfl, rfl⟩
    rw [Diff.length_append, ← hnext]
    rfl
  · exact ⟨rfl, ⟨next, rfl, hnext⟩, rfl, rfl⟩

/-- A push at the end of the chain, or of a first diff without a sibling. -/
theorem pushBack_root {a : Assembler α} {d : Diff α} (h : a.AtEnd ∨ (a.Idle ∧ d.length = 1)) (hd : d ≠ .nil) :
    (a.pushBack d).1.root =
        (if a.left - 1 = 0 then (a.root.append d).append (.interrupt .nil) else a.root.append d) ∧
      (a.pushBack d).1.AtEnd ∧ (a.pushBack d).1.batchLimit = a.batchLimit ∧
      (a.pushBack d).1.left = if a.left - 1 = 0 then a.batchLimit else a.left - 1 := by
  refine pushBack_spec a (fun k hk => ?_) (fun hnone => ?_) hd
  · rcases h with ⟨k', hk', hlen⟩ | ⟨⟨-, hnone, -⟩, -⟩
    · have heq : k = k' := Option.some.inj (hk.symm.trans hk')
      subst heq
      exact ⟨(Diff.keep_of_length_le (Nat.le_of_eq hlen.symm)).symm, Nat.lt_of_succ_le (Nat.le_of_eq hlen)⟩
    · rw [hnone] at hk
      cases hk
  · rcases h with ⟨k, hk, -⟩ | ⟨⟨hroot, -, -⟩, hlen⟩
    · rw [hnone] at hk
      cases hk
    · exact ⟨hroot, hlen⟩

theorem pushAll_concat (batchLimit : Nat) (ds : List (Diff α)) (d : Diff α) :
    pushAll batchLimit (ds ++ [d]) = ((pushAll batchLimit ds).pushBack d).1 := by
  simp [pushAll]

theorem ne_nil_of_length {d : Diff α} (h : d.length = 1) : d ≠ .nil := by
  rintro rfl
  cases h

/-- Diffs without siblings are always pushed at the end of the chain. -/
theorem ready_pushAll (batchLimit : Nat) {ds : List (Diff α)} (h : ∀ d ∈ ds, d.length = 1) :
    (pushAll batchLimit ds).AtEnd ∨ (pushAll batchLimit ds).Idle := by
  induction ds using List.reverseRecOn with
  | nil => exact .inr (idle_new batchLimit)
  | append_singleton ds d ih =>
    have hd := h d (List.mem_append_right _ (List.mem_singleton_self d))
    rw [pushAll_concat]
    exact .inl (pushBack_root ((ih fun e he => h e (List.mem_append_left _ he)).imp_right fun hi =>
      ⟨hi, hd⟩) (ne_nil_of_length hd)).2.1

theorem root_pushAll_concat (batchLimit : Nat) {ds : List (Diff α)} {d : Diff α}
    (h : ∀ e ∈ ds ++ [d], e.length = 1) :
    (pushAll batchLimit (ds ++ [d])).root = if (pushAll batchLimit ds).left - 1 = 0 then
        ((pushAll batchLimit ds).root.append d).append (.interrupt .nil)
      else (pushAll batchLimit ds).root.append d := by
  have hd := h d (List.mem_append_right _ (List.mem_singleton_self d))
  rw [pushAll_concat]
  exact (pushBack_root ((ready_pushAll batchLimit fun e he => h e (List.mem_append_left _ he)).imp_right
    fun hi => ⟨hi, hd⟩) (ne_nil_of_length hd)).1

/-- The interrupts do not change the work. -/
theorem plain_assemble (batchLimit : Nat) {ds : List (Diff α)} (h : ∀ d ∈ ds, d.length = 1) :
    (assemble batchLimit ds).plain = ds.flatMap Diff.plain := by
  show (pushAll batchLimit ds).root.plain = _
  induction ds using List.reverseRecOn with
  | nil => rfl
  | append_singleton ds d ih =>
    rw [root_pushAll_concat batchLimit h]
    have hds := ih fun e he => h e (List.mem_append_left _ he)
    split <;> simp [Diff.plain_append, Diff.plain, hds]

theorem length_of_single {d : Diff α} (h : d.Single) : d.length = 1 := by
  match d, h with
  | .node _ _ _ .nil, _ => rfl

/-- **An assembled chain at the top** of a tree is resumable. -/
theorem resumable_assemble (batchLimit : Nat) {ds : List (Diff α)} (h : ∀ d ∈ ds, d.Single) :
    (assemble batchLimit ds).Resumable := by
  have hlinks : (pushAll batchLimit ds).root.Links := by
    induction ds using List.reverseRecOn with
    | nil => trivial
    | append_singleton ds d ih =>
      have hds := ih fun e he => h e (List.mem_append_left _ he)
      have hd := (h d (List.mem_append_right _ (List.mem_singleton_self d))).links
      rw [root_pushAll_concat batchLimit fun e he => length_of_single (h e he)]
      split <;> simp [Diff.links_append_iff, Diff.Links, hds, hd]
  exact hlinks.resumable

/-- How far the assembler is: the number of pushed diffs, whether an interrupt
has been inserted and whether work follows it. -/
theorem pushAll_spec {batchLimit : Nat} (hlimit : 1 < batchLimit) {ds : List (Diff α)}
    (h : ∀ d ∈ ds, d.Single ∧ d.plain ≠ []) :
    (pushAll batchLimit ds).batchLimit = batchLimit ∧
      0 < (pushAll batchLimit ds).left ∧ (pushAll batchLimit ds).left ≤ batchLimit ∧
      (ds.length < batchLimit → (pushAll batchLimit ds).left = batchLimit - ds.length) ∧
      ((pushAll batchLimit ds).root.Broken ↔ batchLimit ≤ ds.length) ∧
      ((pushAll batchLimit ds).root.Complete ↔ ds.length ≤ batchLimit) := by
  induction ds using List.reverseRecOn with
  | nil =>
    refine ⟨rfl, Nat.lt_of_succ_lt hlimit, Nat.le_refl _, fun _ => rfl, ?_, ?_⟩
    · exact iff_of_false id (by simp only [List.length_nil]; omega)
    · exact iff_of_true trivial (Nat.zero_le _)
  | append_singleton ds d ih =>
    have hds := fun e he => h e (List.mem_append_left _ he)
    obtain ⟨hb, hpos, hle, hleft, hbroken, hcomplete⟩ := ih hds
    obtain ⟨hd, hne⟩ := h d (List.mem_append_right _ (List.mem_singleton_self d))
    have hdb := hd.not_broken
    have hdc := hd.complete
    obtain ⟨hroot, -, hlimit', hleft'⟩ := pushBack_root
      ((ready_pushAll batchLimit fun e he => length_of_single (hds e he).1).imp_right fun hi =>
        ⟨hi, length_of_single hd⟩) (ne_nil_of_length (length_of_single hd))
    rw [pushAll_concat, hroot, hlimit', hleft', hb, List.length_append, List.length_singleton]
    split
    · rename_i hfull
      rw [Diff.broken_append, Diff.complete_append_interrupt, Diff.complete_append hne]
      simp only [hdc, and_true, hbroken, hcomplete]
      refine ⟨trivial, by omega, by omega, by omega, ?_, by omega⟩
      exact iff_of_true (.inr trivial) (by omega)
    · rename_i hmore
      rw [Diff.broken_append, Diff.complete_append hne]
      simp only [hdb, hdc, or_false, and_true, hbroken, hcomplete]
      refine ⟨trivial, by omega, by omega, by omega, by omega, by omega⟩

/-! ### What a sequence of pushes gives -/

/-- The links of each push, with an interrupt after every full batch. `left` is what
remains of the first batch. -/
def batches (limit : Nat) : Nat → List (List (Diff α)) → List (List (Diff α))
  | _, [] => []
  | left, chain :: chains =>
    if left - 1 = 0 then chain :: [.interrupt .nil] :: batches limit limit chains
    else chain :: batches limit (left - 1) chains

/-- Only the first link of each chain. -/
def heads (chains : List (List (Diff α))) : List (List (Diff α)) := chains.map (List.take 1)

/-- Pushes at the back, onto the end of the chain. -/
theorem links_pushBack {ds : List (Diff α)} (hds : ∀ d ∈ ds, d ≠ .nil) :
    ∀ {a : Assembler α}, a.AtEnd →
      (ds.foldl (fun a d => (a.pushBack d).1) a).root.links =
        a.root.links ++ (batches a.batchLimit a.left (ds.map Diff.links)).flatten := by
  induction ds with
  | nil => exact fun _ => (List.append_nil _).symm
  | cons d ds ih =>
    intro a ha
    obtain ⟨hroot, hend, hlimit, hleft⟩ := pushBack_root (.inl ha) (hds d (List.mem_cons_self ..))
    rw [List.foldl_cons, ih (fun e he => hds e (List.mem_cons_of_mem _ he)) hend, hroot, hlimit, hleft,
      List.map_cons, batches]
    split
    · simp [Diff.links]
    · simp

/-- The second push overwrites what the first diff has carried. -/
theorem links_pushBack_cons {a : Assembler α} (ha : a.Idle) (hlimit : 1 < a.batchLimit) {d e : Diff α}
    {ds : List (Diff α)} (hds : ∀ d' ∈ d :: e :: ds, d' ≠ .nil) :
    ((d :: e :: ds).foldl (fun a d => (a.pushBack d).1) a).root.links =
      d.links.take 1 ++
        (batches a.batchLimit (a.batchLimit - 1) ((e :: ds).map Diff.links)).flatten := by
  obtain ⟨hroot, hnext, hleft⟩ := ha
  have hfirst : (a.pushBack d).1 = { a with
      left := a.left - 1, total := a.total + 1, root := d, next := some 0 } := by
    unfold pushBack
    rw [hnext]
    dsimp only
    rw [if_neg (by omega)]
  obtain ⟨hroot', hend, hlimit', hleft'⟩ := @pushBack_spec _ (a.pushBack d).1 e (d.keep 1)
    (fun k hk => by
      rw [hfirst] at hk ⊢
      cases hk
      exact ⟨rfl, Diff.length_pos (hds d (List.mem_cons_self ..))⟩)
    (fun hnone => by
      rw [hfirst] at hnone
      cases hnone)
    (hds e (List.mem_cons_of_mem _ (List.mem_cons_self ..)))
  rw [List.foldl_cons, List.foldl_cons, links_pushBack (fun d' hd' =>
    hds d' (List.mem_cons_of_mem _ (List.mem_cons_of_mem _ hd'))) hend, hroot', hlimit', hleft', hfirst]
  simp only [List.map_cons, batches, hleft]
  split
  · simp [Diff.links]
  · simp

/-- Pushes at the front: only the first link of what is pushed stays. -/
theorem links_pushFront {ds : List (Diff α)} :
    ∀ {a : Assembler α}, a.next.isSome = true →
      (ds.foldl (fun a d => (a.pushFront d).1) a).root.links =
        (batches a.batchLimit a.left (heads (ds.map Diff.links))).reverse.flatten ++ a.root.links := by
  induction ds with
  | nil => exact fun _ => rfl
  | cons d ds ih =>
    intro a ha
    obtain ⟨k, hk⟩ := Option.isSome_iff_exists.mp ha
    have hstep : (a.pushFront d).1.next.isSome = true ∧
        (a.pushFront d).1.batchLimit = a.batchLimit ∧
        (a.pushFront d).1.left = (if a.left - 1 = 0 then a.batchLimit else a.left - 1) ∧
        (a.pushFront d).1.root.links = (if a.left - 1 = 0 then [.interrupt .nil] else []) ++
          d.links.take 1 ++ a.root.links := by
      unfold pushFront
      rw [hk]
      dsimp only
      split
      · refine ⟨rfl, rfl, rfl, ?_⟩
        simp [Diff.assignSibling, Diff.links]
      · refine ⟨rfl, rfl, rfl, ?_⟩
        simp [Diff.assignSibling]
    obtain ⟨hsome, hlimit, hleft, hlinks⟩ := hstep
    rw [List.foldl_cons, ih hsome, hlimit, hleft, hlinks]
    simp only [heads, List.map_cons, batches]
    split <;> simp

theorem links_pushFront_cons {a : Assembler α} (ha : a.Idle) (hlimit : 1 < a.batchLimit) {d : Diff α}
    {ds : List (Diff α)} :
    ((d :: ds).foldl (fun a d => (a.pushFront d).1) a).root.links =
      (batches a.batchLimit (a.batchLimit - 1) (heads (ds.map Diff.links))).reverse.flatten ++ d.links := by
  obtain ⟨hroot, hnext, hleft⟩ := ha
  have hfirst : (a.pushFront d).1 = { a with
      left := a.left - 1, total := a.total + 1, root := d, next := some 0 } := by
    unfold pushFront
    rw [hnext]
    dsimp only
    rw [if_neg (by omega)]
  rw [List.foldl_cons, links_pushFront (by rw [hfirst]; rfl), hfirst, hleft]

/-- The interrupts depend on the number of pushes only. -/
theorem length_batches_heads {limit left : Nat} {chains : List (List (Diff α))} :
    (batches limit left (heads chains)).flatten.length + chains.flatten.length =
      (batches limit left chains).flatten.length + (heads chains).flatten.length := by
  induction chains generalizing left with
  | nil => rfl
  | cons chain chains ih =>
    simp only [heads, List.map_cons, batches] at ih ⊢
    split
    · have := @ih limit
      simp only [List.flatten_cons, List.length_append]
      omega
    · have := @ih (left - 1)
      simp only [List.flatten_cons, List.length_append]
      omega

theorem length_heads_le (chains : List (List (Diff α))) :
    (heads chains).flatten.length ≤ chains.flatten.length ∧
      ((heads chains).flatten.length = chains.flatten.length → ∀ chain ∈ chains, chain.length ≤ 1) := by
  induction chains with
  | nil => exact ⟨Nat.le_refl _, by simp⟩
  | cons chain chains ih =>
    have hlen : (chain.take 1).length ≤ chain.length := (List.take_sublist 1 chain).length_le
    simp only [heads, List.map_cons, List.flatten_cons, List.length_append] at ih ⊢
    refine ⟨by omega, fun heq c hc => ?_⟩
    rcases List.mem_cons.mp hc with rfl | hc
    · have hfirst : (c.take 1).length = c.length := by omega
      rw [← hfirst]
      exact List.length_take_le 1 c
    · exact ih.2 (by omega) c hc

@[simp] theorem consume_fst (a : Assembler α) : a.consume.1 = a.root := rfl

@[simp] theorem batchLimit_consume (a : Assembler α) : a.consume.2.batchLimit = a.batchLimit := rfl

/-- **Nothing is lost** on the way through the assembler, whether it is new or has been
consumed before: the chain has the links of all pushed diffs, in the order of the pushes
or the reverse one, with an interrupt after every batch. Pushes at the back need a first
diff without a sibling, pushes at the front need that of all diffs but the first. -/
theorem links_eq_batches_iff (a : Assembler α) (hlimit : 1 < a.batchLimit) {ds : List (Diff α)}
    (hds : ∀ d ∈ ds, d ≠ .nil) :
    ((ds.foldl (fun a d => (a.pushBack d).1) a.consume.2).consume.1.links =
        (batches a.batchLimit a.batchLimit (ds.map Diff.links)).flatten ↔
      (2 ≤ ds.length → ∀ d ∈ ds.head?, d.length = 1)) ∧
    ((ds.foldl (fun a d => (a.pushFront d).1) a.consume.2).consume.1.links =
        (batches a.batchLimit a.batchLimit (ds.map Diff.links)).reverse.flatten ↔
      ∀ d ∈ ds.tail, d.length = 1) := by
  have hfull : ¬ a.batchLimit - 1 = 0 := by omega
  match ds with
  | [] => simp [consume, batches, Diff.links]
  | d :: ds =>
    have hbatches : batches a.batchLimit a.batchLimit ((d :: ds).map Diff.links) =
        d.links :: batches a.batchLimit (a.batchLimit - 1) (ds.map Diff.links) := by
      rw [List.map_cons, batches, if_neg hfull]
    rw [hbatches]
    constructor
    · match ds with
      | [] =>
        have hone : ([d].foldl (fun a d => (a.pushBack d).1) a.consume.2).root = d := by
          show ((a.consume.2).pushBack d).1.root = d
          unfold pushBack consume
          dsimp only
          rw [if_neg hfull]
        rw [consume_fst, hone]
        simp [batches]
      | e :: ds =>
        rw [consume_fst, links_pushBack_cons a.idle_consume hlimit hds, batchLimit_consume,
          List.flatten_cons, List.append_cancel_right_eq, List.take_eq_self_iff, Diff.length_links]
        have hpos := Diff.length_pos (hds d (List.mem_cons_self ..))
        simp only [List.length_cons, List.head?_cons, Option.mem_def, Option.some.injEq, forall_eq']
        omega
    · rw [consume_fst, links_pushFront_cons a.idle_consume hlimit, batchLimit_consume,
        List.reverse_cons, List.flatten_append, List.flatten_singleton, List.append_cancel_right_eq,
        List.tail_cons]
      constructor
      · -- the same number of links
        intro heq d' hd'
        have hlen : ∀ l : List (List (Diff α)), l.reverse.flatten.length = l.flatten.length := fun l =>
          ((List.reverse_perm l).flatten).length_eq
        have hcount := congrArg List.length heq
        rw [hlen, hlen] at hcount
        have hheads := @length_batches_heads _ a.batchLimit (a.batchLimit - 1) (ds.map Diff.links)
        have hle := (length_heads_le (ds.map Diff.links)).2 (by omega) _ (List.mem_map_of_mem hd')
        rw [Diff.length_links] at hle
        have hpos := Diff.length_pos (hds d' (List.mem_cons_of_mem _ hd'))
        omega
      · intro hone
        have hheads : heads (ds.map Diff.links) = ds.map Diff.links := by
          rw [heads, List.map_map]
          refine List.map_congr_left fun d' hd' => ?_
          exact List.take_of_length_le (Nat.le_of_eq ((Diff.length_links d').trans (hone d' hd')))
        rw [hheads]

end Assembler

/-- `constants::diffs_batch`. -/
def diffsBatch : Nat := 256

/-- The tree of `remove_peer_t`: the pending folders, the shared folders and the
orphaned blocks go first, the device itself last (remove_peer.cpp:37–80). -/
def removePeer {α : Type} (peer : α) (children : List (Diff α)) : Diff α :=
  .node [] [peer] (Assembler.assemble diffsBatch children) .nil

/-- **A removed peer** is resumable iff its children fit in one batch. -/
theorem resumable_removePeer {α : Type} (peer : α) {children : List (Diff α)}
    (h : ∀ d ∈ children, d.Single ∧ d.plain ≠ []) :
    (removePeer peer children).Resumable ↔ children.length ≤ diffsBatch := by
  obtain ⟨-, -, -, -, -, hcomplete⟩ := Assembler.pushAll_spec (by decide : 1 < diffsBatch) h
  rw [← hcomplete]
  show (Diff.Complete (Assembler.pushAll diffsBatch children).root ∧ True) ∨ _ ↔ _
  simp

/-! ## A conflict in the middle of a batch -/

/-- `remote_win_t`: the conflict copy, with the `remote_copy_t` of the original as its
sibling (remote_win.cpp:13–23). -/
def remoteWin {α : Type} (copy original : α) : Diff α :=
  .node [copy] [] .nil (.node [original] [] .nil .nil)

theorem nothing_lost_of_second_remoteWin :
    ((([.node ["a"] [] .nil .nil, remoteWin "copy" "original", .node ["b"] [] .nil .nil].foldl
        (fun a d => (Assembler.pushBack a d).1) (Assembler.new 2).consume.2).consume.1.links =
      [.node ["a"] [] .nil .nil, .node ["copy"] [] .nil .nil, .node ["original"] [] .nil .nil,
        .interrupt .nil, .node ["b"] [] .nil .nil])) :=
  (Assembler.links_eq_batches_iff (Assembler.new 2) (by decide) (by simp [remoteWin])).1.mpr
    (by simp [Diff.length])

/-- A conflict resolution that is pushed first loses its second half. -/
theorem original_lost_of_first_remoteWin :
    ([remoteWin "copy" "original", .node ["b"] [] .nil .nil].foldl
        (fun a d => (Assembler.pushBack a d).1) (Assembler.new diffsBatch).consume.2).consume.1.links =
      [.node ["copy"] [] .nil .nil, .node ["b"] [] .nil .nil] ∧
    ¬ ([remoteWin "copy" "original", .node ["b"] [] .nil .nil].foldl
        (fun a d => (Assembler.pushBack a d).1) (Assembler.new diffsBatch).consume.2).consume.1.links =
      (Assembler.batches diffsBatch diffsBatch
        ([remoteWin "copy" "original", .node ["b"] [] .nil .nil].map Diff.links)).flatten := by
  decide

end SyncSpirit
