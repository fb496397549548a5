import SyncSpirit.Lib.Forest

/-!
# Post-order of a tree

`Trees` says that the lists of children are those of trees: no node is the child of two, and the
height drops from a node to its children. `postorder` has what is below a node, the node itself last.
It has everything once (`nodup_postorder`), and nothing before something that is below it
(`pairwise_postorder`).
-/

namespace Forest

variable {α : Type*}

/-- The lists of children of trees. -/
structure Trees (children : α → List α) (height : α → Nat) : Prop where
  nodup : ∀ p, (children p).Nodup
  parent : ∀ {p q c : α}, c ∈ children p → c ∈ children q → p = q
  height_lt : ∀ {p c : α}, c ∈ children p → height c < height p

/-- The nodes below `r` to this depth, children first. -/
def postorder (children : α → List α) : Nat → α → List α
  | 0, r => [r]
  | n + 1, r => (children r).flatMap (postorder children n) ++ [r]

variable {children : α → List α} {height : α → Nat} {p r x y : α} {n : Nat}

/-- Some of the children only. -/
theorem Trees.filter (h : Trees children height) (keep : α → Bool) :
    Trees (fun p => (children p).filter keep) height where
  nodup p := (h.nodup p).filter keep
  parent hp hq := h.parent (List.mem_filter.mp hp).1 (List.mem_filter.mp hq).1
  height_lt hc := h.height_lt (List.mem_filter.mp hc).1

theorem Below.trans (h : Below children r x) (h' : Below children x y) : Below children r y := by
  induction h' with
  | self => exact h
  | child _ hc ih => exact .child ih hc

/-- The height drops below a node. -/
theorem Trees.below_height (h : Trees children height) (hx : Below children r x) : x = r ∨ height x < height r := by
  induction hx with
  | self => exact .inl rfl
  | child _ hc ih =>
    have hlt := h.height_lt hc
    rcases ih with rfl | ih
    · exact .inr hlt
    · exact .inr (hlt.trans ih)

/-- Of two nodes that are both above a third one, one is above the other. -/
theorem Trees.below_linear (h : Trees children height) (hp : Below children p x) (hr : Below children r x) :
    Below children p r ∨ Below children r p := by
  induction hp generalizing r with
  | self => exact .inr hr
  | child hbelow hc ih =>
    rename_i q c
    cases hr with
    | self => exact .inl (.child hbelow hc)
    | child hbelow' hc' =>
      cases h.parent hc hc'
      exact ih hbelow'

/-- Two children of a node have nothing below them in common. -/
theorem Trees.below_disjoint (h : Trees children height) {c d : α} (hc : c ∈ children r) (hd : d ∈ children r)
    (hcx : Below children c x) (hdx : Below children d x) : c = d := by
  have hcase : ∀ {c d : α}, c ∈ children r → d ∈ children r → Below children c d → d = c := by
    intro c d hc hd hbelow
    cases hbelow with
    | self => rfl
    | child hbelow hd' =>
      -- the parent of `d` is `r`, which would be below its child
      cases h.parent hd hd'
      rcases h.below_height hbelow with rfl | hlt
      · exact absurd (h.height_lt hc) (lt_irrefl _)
      · exact absurd (h.height_lt hc) (Nat.lt_asymm hlt)
  rcases h.below_linear hcx hdx with hbelow | hbelow
  · exact (hcase hc hd hbelow).symm
  · exact hcase hd hc hbelow

theorem mem_postorder (h : Trees children height) (hn : height r ≤ n) :
    x ∈ postorder children n r ↔ Below children r x := by
  induction n generalizing r with
  | zero =>
    rw [postorder, List.mem_singleton, below_iff]
    refine ⟨.inl, fun hx => hx.resolve_right ?_⟩
    rintro ⟨c, hc, -⟩
    have := h.height_lt hc
    omega
  | succ n ih =>
    rw [postorder, List.mem_append, List.mem_flatMap, List.mem_singleton, below_iff, or_comm]
    refine or_congr Iff.rfl (exists_congr fun c => and_congr_right fun hc => ih ?_)
    have := h.height_lt hc
    omega

/-- **Children first**: nothing comes before something below it. -/
theorem pairwise_postorder (h : Trees children height) (hn : height r ≤ n) :
    (postorder children n r).Pairwise fun a b => ¬ Below children a b := by
  induction n generalizing r with
  | zero => exact List.pairwise_singleton ..
  | succ n ih =>
    have hheight : ∀ c ∈ children r, height c ≤ n := by
      intro c hc
      have := h.height_lt hc
      omega
    rw [postorder, List.pairwise_append, List.pairwise_flatMap]
    refine ⟨⟨fun c hc => ih (hheight c hc), ?_⟩, List.pairwise_singleton .., ?_⟩
    · -- what is below both is below one child only
      refine (h.nodup r).imp_of_mem fun hc hd hne a ha b hb hbelow => hne ?_
      have ha' := (mem_postorder h (hheight _ hc)).mp ha
      have hb' := (mem_postorder h (hheight _ hd)).mp hb
      exact h.below_disjoint hc hd (ha'.trans hbelow) hb'
    · intro a ha b hb hbelow
      obtain rfl := List.mem_singleton.mp hb
      obtain ⟨c, hc, hca⟩ := List.mem_flatMap.mp ha
      have hbelow' := ((mem_postorder h (hheight c hc)).mp hca).trans hbelow
      rcases h.below_height hbelow' with heq | hlt
      · exact absurd (h.height_lt hc) (heq ▸ lt_irrefl _)
      · exact absurd (h.height_lt hc) (Nat.lt_asymm hlt)

theorem nodup_postorder (h : Trees children height) (hn : height r ≤ n) : (postorder children n r).Nodup := by
  refine (pairwise_postorder h hn).imp ?_
  rintro a b hbelow rfl
  exact hbelow .self

end Forest
