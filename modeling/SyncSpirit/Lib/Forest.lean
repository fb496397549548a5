import Mathlib

/-!
# Forests given by parents

A finite set of nodes, some of which have a parent. `Ranked` says that the lists of children
agree with the parents and that a child has a higher rank than its parent, so there is no cycle.
`Below` is what hangs below a node, and `mem_bfs` says that a breadth-first walk meets exactly that.
`bfs_spec` is about a walk from one node: it ends after as many steps as there are nodes, meets no
node twice, and meets each before what is below it.
-/

namespace Forest

variable {α : Type*}

/-- The nodes in the order in which a queue meets them. -/
def bfs (children : α → List α) : Nat → List α → Option (List α)
  | _, [] => some []
  | 0, _ :: _ => none
  | fuel + 1, a :: queue => (bfs children fuel (queue ++ children a)).map (a :: ·)

/-- The node itself, and everything whose parent is below it. -/
inductive Below (children : α → List α) (r : α) : α → Prop
  | self : Below children r r
  | child {p c : α} : Below children r p → c ∈ children p → Below children r c

/-- The lists of children of a forest. -/
structure Ranked (nodes : List α) (parent : α → Option α) (children : α → List α) (rank : α → Nat) : Prop where
  mem : ∀ {p c : α}, c ∈ children p → c ∈ nodes ∧ parent c = some p
  nodup : ∀ p, (children p).Nodup
  rank_lt : ∀ {p c : α}, c ∈ nodes → parent c = some p → rank p < rank c

variable {nodes : List α} {parent : α → Option α} {children : α → List α} {rank : α → Nat} {r : α}

/-- Below a node is the node, or something below one of its children. -/
theorem below_iff {x : α} : Below children r x ↔ x = r ∨ ∃ c ∈ children r, Below children c x := by
  constructor
  · intro h
    induction h with
    | self => exact .inl rfl
    | child hp hc ih =>
      rename_i p c
      rcases ih with rfl | ⟨c', hc', hbelow⟩
      · exact .inr ⟨c, hc, .self⟩
      · exact .inr ⟨c', hc', .child hbelow hc⟩
  · rintro (rfl | ⟨c, hc, hbelow⟩)
    · exact .self
    · induction hbelow with
      | self => exact .child .self hc
      | child _ hx ih => exact .child ih hx

/-- A walk meets exactly what is below its queue. -/
theorem mem_bfs {fuel : Nat} {queue order : List α} (h : bfs children fuel queue = some order) {x : α} :
    x ∈ order ↔ ∃ a ∈ queue, Below children a x := by
  induction fuel generalizing queue order with
  | zero =>
    cases queue with
    | nil =>
      cases h
      simp
    | cons a queue => cases h
  | succ fuel ih =>
    cases queue with
    | nil =>
      cases h
      simp
    | cons a queue =>
      obtain ⟨rest, hrest, rfl⟩ := Option.map_eq_some_iff.mp h
      rw [List.mem_cons, ih hrest, List.exists_mem_cons_iff, below_iff]
      constructor
      · rintro (rfl | ⟨b, hb, hbelow⟩)
        · exact .inl (.inl rfl)
        · rcases List.mem_append.mp hb with hb | hb
          · exact .inr ⟨b, hb, hbelow⟩
          · exact .inl (.inr ⟨b, hb, hbelow⟩)
      · rintro ((rfl | ⟨c, hc, hbelow⟩) | ⟨b, hb, hbelow⟩)
        · exact .inl rfl
        · exact .inr ⟨c, List.mem_append_right _ hc, hbelow⟩
        · exact .inr ⟨b, List.mem_append_left _ hb, hbelow⟩

/-- What a walk from one node keeps: nothing has been met twice, and the parent of everything but the
start has been met before. -/
structure Walk (nodes : List α) (parent : α → Option α) (rank : α → Nat) (r : α) (visited queue : List α) : Prop where
  nodup : (visited ++ queue).Nodup
  mem : ∀ a ∈ visited ++ queue, a ∈ nodes
  entered : ∀ a ∈ visited ++ queue, a = r ∨ ∃ p ∈ visited, parent a = some p
  above : ∀ a ∈ visited ++ queue, rank r ≤ rank a

theorem Walk.start (hr : r ∈ nodes) : Walk nodes parent rank r [] [r] where
  nodup := List.nodup_cons.mpr ⟨List.not_mem_nil, List.nodup_nil⟩
  mem a ha := by
    rw [List.mem_singleton.mp ha]
    exact hr
  entered a ha := .inl (List.mem_singleton.mp ha)
  above a ha := Nat.le_of_eq (congrArg rank (List.mem_singleton.mp ha)).symm

/-- **One step of a walk.** The children are new: their parent is met only now. -/
theorem Walk.next (hf : Ranked nodes parent children rank) {a : α} {visited queue : List α}
    (h : Walk nodes parent rank r visited (a :: queue)) :
    Walk nodes parent rank r (visited ++ [a]) (queue ++ children a) := by
  have hperm : visited ++ [a] ++ (queue ++ children a) = visited ++ a :: queue ++ children a := by simp
  have ha : a ∈ visited ++ a :: queue := List.mem_append_right _ (List.mem_cons_self ..)
  have hnew (c : α) (hc : c ∈ children a) : c ∉ visited ++ a :: queue := by
    intro hmem
    obtain ⟨hcnodes, hcparent⟩ := hf.mem hc
    rcases h.entered c hmem with rfl | ⟨p, hp, hpc⟩
    · exact absurd (h.above a ha) (Nat.not_le.mpr (hf.rank_lt hcnodes hcparent))
    · obtain rfl : p = a := Option.some_inj.mp (hpc.symm.trans hcparent)
      exact (List.nodup_append.mp h.nodup).2.2 p hp p (List.mem_cons_self ..) rfl
  refine ⟨?_, ?_, ?_, ?_⟩
  · rw [hperm]
    refine List.nodup_append.mpr ⟨h.nodup, hf.nodup a, fun x hx c hc heq => ?_⟩
    rw [heq] at hx
    exact hnew c hc hx
  · rw [hperm]
    intro x hx
    rcases List.mem_append.mp hx with hx | hx
    · exact h.mem x hx
    · exact (hf.mem hx).1
  · rw [hperm]
    intro x hx
    rcases List.mem_append.mp hx with hx | hx
    · refine (h.entered x hx).imp id ?_
      rintro ⟨p, hp, hpx⟩
      exact ⟨p, List.mem_append_left _ hp, hpx⟩
    · exact .inr ⟨a, List.mem_append_right _ (List.mem_singleton_self a), (hf.mem hx).2⟩
  · rw [hperm]
    intro x hx
    rcases List.mem_append.mp hx with hx | hx
    · exact h.above x hx
    · obtain ⟨hxnodes, hxparent⟩ := hf.mem hx
      exact Nat.le_trans (h.above a ha) (Nat.le_of_lt (hf.rank_lt hxnodes hxparent))

/-- The walk ends, and the order has no node twice. -/
theorem Walk.bfs (hf : Ranked nodes parent children rank) {fuel : Nat} {visited queue : List α}
    (h : Walk nodes parent rank r visited queue) (hfuel : nodes.length ≤ fuel + visited.length) :
    ∃ order, Forest.bfs children fuel queue = some order ∧ (visited ++ order).Nodup := by
  have hlength : (visited ++ queue).length ≤ nodes.length := (h.nodup.subperm h.mem).length_le
  induction fuel generalizing visited queue with
  | zero =>
    cases queue with
    | nil => exact ⟨[], rfl, h.nodup⟩
    | cons a queue =>
      rw [List.length_append, List.length_cons] at hlength
      omega
  | succ fuel ih =>
    cases queue with
    | nil => exact ⟨[], rfl, h.nodup⟩
    | cons a queue =>
      have hnext := h.next hf
      obtain ⟨rest, hrest, hnodup⟩ := ih hnext (by rw [List.length_append, List.length_singleton]; omega)
        ((hnext.nodup.subperm hnext.mem).length_le)
      refine ⟨a :: rest, ?_, ?_⟩
      · rw [Forest.bfs, hrest]
        rfl
      · rw [List.append_assoc] at hnodup
        exact hnodup

/-- A node has no higher rank than what is below it. -/
theorem rank_le_of_below (hf : Ranked nodes parent children rank) {a x : α} (h : Below children a x) :
    rank a ≤ rank x := by
  induction h with
  | self => exact Nat.le_refl _
  | child _ hc ih => exact Nat.le_trans ih (Nat.le_of_lt (hf.rank_lt (hf.mem hc).1 (hf.mem hc).2))

/-- A walk has met the nodes above the one that is next, as far as they are not above its start. -/
theorem Walk.visited_of_below (hf : Ranked nodes parent children rank) {visited queue : List α} {a x : α}
    (h : Walk nodes parent rank r visited queue) (hx : x ∈ visited ++ queue) (hstart : rank r ≤ rank a)
    (hbelow : Below children a x) (hne : a ≠ x) : a ∈ visited := by
  induction hbelow with
  | self => exact absurd rfl hne
  | @child p c hp hc ih =>
    obtain ⟨hmem, hparent⟩ := hf.mem hc
    rcases h.entered c hx with rfl | ⟨q, hq, hqc⟩
    · have hlt := hf.rank_lt hmem hparent
      have hle := rank_le_of_below hf hp
      omega
    · obtain rfl : q = p := Option.some_inj.mp (hqc.symm.trans hparent)
      by_cases heq : a = q
      · exact heq ▸ hq
      · exact ih (List.mem_append_left _ hq) heq

/-- **The order of a walk**: a node comes before what is below it. -/
theorem Walk.pairwise (hf : Ranked nodes parent children rank) {fuel : Nat} {visited queue order : List α}
    (h : Walk nodes parent rank r visited queue) (horder : Forest.bfs children fuel queue = some order)
    (hnodup : (visited ++ order).Nodup) : order.Pairwise fun x y => ¬ Below children y x := by
  induction fuel generalizing visited queue order with
  | zero =>
    cases queue with
    | nil =>
      cases horder
      exact .nil
    | cons a queue => cases horder
  | succ fuel ih =>
    cases queue with
    | nil =>
      cases horder
      exact .nil
    | cons a queue =>
      obtain ⟨rest, hrest, rfl⟩ := Option.map_eq_some_iff.mp horder
      have hnext := h.next hf
      refine List.pairwise_cons.mpr ⟨fun y hy hbelow => ?_, ih hnext hrest (by simpa using hnodup)⟩
      obtain ⟨b, hb, hby⟩ := (mem_bfs hrest).mp hy
      have hstart : rank r ≤ rank y :=
        Nat.le_trans (hnext.above b (List.mem_append_right _ hb)) (rank_le_of_below hf hby)
      obtain ⟨-, hrestNodup, hdisjoint⟩ := List.nodup_append.mp hnodup
      have hne : y ≠ a := fun heq => (List.nodup_cons.mp hrestNodup).1 (heq ▸ hy)
      have hvisited := h.visited_of_below hf (List.mem_append_right _ (List.mem_cons_self ..)) hstart hbelow hne
      exact hdisjoint y hvisited y (List.mem_cons_of_mem _ hy) rfl

/-- **A walk from one node**: it meets what is below the node, each once, and before what is below it. -/
theorem bfs_spec (hf : Ranked nodes parent children rank) (hr : r ∈ nodes) :
    ∃ order, bfs children nodes.length [r] = some order ∧ order.Nodup ∧ (∀ x, x ∈ order ↔ Below children r x) ∧
      order.Pairwise fun x y => ¬ Below children y x := by
  have hstart : Walk nodes parent rank r [] [r] := .start hr
  obtain ⟨order, horder, hnodup⟩ := hstart.bfs hf (Nat.le_refl nodes.length)
  refine ⟨order, horder, hnodup, fun x => ?_, hstart.pairwise hf horder hnodup⟩
  rw [mem_bfs horder]
  simp

end Forest
