import Mathlib
import SyncSpirit.Lib.Forest

/-!
# Totals in a tree, kept by differences

The nodes of a tree are paths, the own name first, and `children p` has the names of the children of a
node. Every node has a weight, and a value that should be the sum of all the weights at or below it.
`residual` is what a value has too much; `push` adds a difference to a node and to its ancestors.

By `residual_push` that changes the residual of the one node only. `exists_total` is the use of it: if no node
has a residual, the values are the sums.
-/

namespace Totals

variable {ν G : Type*} [DecidableEq ν] [AddCommGroup G] {children : List ν → List ν} {weight value : List ν → G}
  {p q : List ν} {n : ν} {diff : G}

/-- What a node has beyond its weight and the values of its children. -/
def residual (children : List ν → List ν) (weight value : List ν → G) (p : List ν) : G :=
  value p - weight p - ((children p).map fun n => value (n :: p)).sum

/-- A difference is added to a node, its parent and so on, up to a node that is no child. -/
def push (children : List ν → List ν) (diff : G) : List ν → (List ν → G) → List ν → G
  | [], value => Function.update value [] (value [] + diff)
  | n :: p, value =>
    let value := Function.update value (n :: p) (value (n :: p) + diff)
    if n ∈ children p then push children diff p value else value

theorem push_cons : push children diff (n :: p) value =
    if n ∈ children p then push children diff p (Function.update value (n :: p) (value (n :: p) + diff))
    else Function.update value (n :: p) (value (n :: p) + diff) := rfl

/-- One value among those of the children. -/
theorem sum_update {names : List ν} (hnodup : names.Nodup) (value : List ν → G) (n : ν) (p q : List ν) (diff : G) :
    (names.map fun m => Function.update value (n :: p) (value (n :: p) + diff) (m :: q)).sum =
      (names.map fun m => value (m :: q)).sum + if q = p ∧ n ∈ names then diff else 0 := by
  induction names with
  | nil => simp
  | cons m names ih =>
    obtain ⟨hm, hnodup⟩ := List.nodup_cons.mp hnodup
    rw [List.map_cons, List.sum_cons, List.map_cons, List.sum_cons, ih hnodup]
    by_cases hhere : m :: q = n :: p
    · obtain ⟨rfl, rfl⟩ := List.cons.inj hhere
      rw [Function.update_self, if_neg (fun h => hm h.2), if_pos ⟨rfl, List.mem_cons_self ..⟩]
      abel
    · have hsame : (q = p ∧ n ∈ m :: names) ↔ (q = p ∧ n ∈ names) := by
        refine and_congr_right fun hq => ⟨fun hn => ?_, List.mem_cons_of_mem _⟩
        rcases List.mem_cons.mp hn with rfl | hn
        · exact absurd (hq ▸ rfl) hhere
        · exact hn
      rw [Function.update_of_ne hhere, if_congr hsame rfl rfl]
      abel

/-- Another value of a node: it has more, and its parent has less than it should. -/
theorem residual_update (hnodup : ∀ p, (children p).Nodup) (value : List ν → G) (n : ν) (p q : List ν) (diff : G) :
    residual children weight (Function.update value (n :: p) (value (n :: p) + diff)) q =
      residual children weight value q + (if q = n :: p then diff else 0) -
        if q = p ∧ n ∈ children p then diff else 0 := by
  have hparent : (q = p ∧ n ∈ children q) ↔ (q = p ∧ n ∈ children p) := and_congr_right fun h => by rw [h]
  unfold residual
  rw [sum_update (hnodup q), if_congr hparent rfl rfl]
  by_cases hq : q = n :: p
  · rw [hq, Function.update_self, if_pos rfl]
    abel
  · rw [Function.update_of_ne hq, if_neg hq]
    abel

theorem residual_update_nil (value : List ν → G) (q : List ν) (diff : G) :
    residual children weight (Function.update value [] (value [] + diff)) q =
      residual children weight value q + if q = [] then diff else 0 := by
  have hchildren : ∀ m : ν, Function.update value [] (value [] + diff) (m :: q) = value (m :: q) := fun m =>
    Function.update_of_ne (List.cons_ne_nil m q) ..
  unfold residual
  simp only [hchildren]
  by_cases hq : q = []
  · rw [hq, Function.update_self, if_pos rfl]
    abel
  · rw [Function.update_of_ne hq, if_neg hq]
    abel

/-- **Pushing** changes the residual of one node. -/
theorem residual_push (hnodup : ∀ p, (children p).Nodup) (diff : G) :
    ∀ {p : List ν} {value : List ν → G} {q : List ν}, residual children weight (push children diff p value) q =
      residual children weight value q + if q = p then diff else 0 := by
  intro p
  induction p with
  | nil => exact fun {value q} => residual_update_nil value q diff
  | cons n p ih =>
    intro value q
    rw [push_cons]
    split
    · rename_i hn
      rw [ih, residual_update hnodup]
      by_cases hq : q = p
      · rw [if_pos (c := q = p ∧ n ∈ children p) ⟨hq, hn⟩, if_pos hq]
        abel
      · rw [if_neg (c := q = p ∧ n ∈ children p) fun h => hq h.1, if_neg hq]
        abel
    · rename_i hn
      rw [residual_update hnodup, if_neg (c := q = p ∧ n ∈ children p) fun h => hn h.2, sub_zero]

/-- Another weight of a node. -/
theorem residual_update_weight (p q : List ν) (w : G) :
    residual children (Function.update weight p w) value q =
      residual children weight value q + if q = p then weight p - w else 0 := by
  unfold residual
  by_cases hq : q = p
  · rw [hq, Function.update_self, if_pos rfl]
    abel
  · rw [Function.update_of_ne hq, if_neg hq, add_zero]

/-- One more child. -/
theorem residual_insert {children' : List ν → List ν} (hperm : (children' p).Perm (n :: children p))
    (hsame : ∀ q, q ≠ p → children' q = children q) (q : List ν) : residual children' weight value q =
      residual children weight value q - if q = p then value (n :: p) else 0 := by
  unfold residual
  by_cases hq : q = p
  · rw [hq, if_pos rfl, (hperm.map _).sum_eq, List.map_cons, List.sum_cons]
    abel
  · rw [hsame q hq, if_neg hq, sub_zero]

/-- Another weight and another value of a node that hangs nowhere and has nothing below it. -/
theorem residual_update_leaf {w v : G} (hout : ∀ n q, n ∈ children q → n :: q ≠ p) (hleaf : children p = [])
    (q : List ν) : residual children (Function.update weight p w) (Function.update value p v) q =
      if q = p then v - w else residual children weight value q := by
  unfold residual
  have hbelow : (children q).map (fun n => Function.update value p v (n :: q)) =
      (children q).map fun n => value (n :: q) :=
    List.map_congr_left fun n hn => Function.update_of_ne (hout n q hn) ..
  rw [hbelow]
  split
  · rename_i hq
    rw [hq, hleaf, Function.update_self, Function.update_self, List.map_nil, List.sum_nil, sub_zero]
  · rename_i hq
    rw [Function.update_of_ne hq, Function.update_of_ne hq]

/-- What is pushed reaches only the node and what is above it. -/
theorem push_of_not_suffix (diff : G) {q : List ν} :
    ∀ {p : List ν} {value : List ν → G}, ¬ q <:+ p → push children diff p value q = value q := by
  intro p
  induction p with
  | nil =>
    intro value hq
    refine Function.update_of_ne ?_ ..
    rintro rfl
    exact hq List.suffix_rfl
  | cons n p ih =>
    intro value hq
    have hne : q ≠ n :: p := by
      rintro rfl
      exact hq List.suffix_rfl
    have hrest : ¬ q <:+ p := fun h => hq (h.trans (List.suffix_cons n p))
    rw [push_cons]
    split
    · rw [ih hrest, Function.update_of_ne hne]
    · exact Function.update_of_ne hne ..

theorem push_self (diff : G) : push children diff p value p = value p + diff := by
  cases p with
  | nil => exact Function.update_self ..
  | cons n p =>
    have hlonger : ¬ (n :: p) <:+ p := fun h => absurd h.length_le (by simp)
    rw [push_cons]
    split
    · rw [push_of_not_suffix diff hlonger, Function.update_self]
    · exact Function.update_self ..

/-! ## The sums -/

/-- The children of a node, as nodes. -/
def nodes (children : List ν → List ν) (p : List ν) : List (List ν) := (children p).map (· :: p)

omit [DecidableEq ν] in
/-- What is below a node ends with it. -/
theorem suffix_of_below (h : Forest.Below (nodes children) p q) : p <:+ q := by
  induction h with
  | self => exact List.suffix_rfl
  | child _ hc ih =>
    obtain ⟨n, -, rfl⟩ := List.mem_map.mp hc
    exact ih.trans (List.suffix_cons ..)

/-- **Without residuals** the value of a node is the sum of all the weights at or below it, in a tree of some
height. -/
theorem exists_total (hnodup : ∀ p, (children p).Nodup) {height : Nat}
    (hheight : ∀ p, children p ≠ [] → p.length < height) (hbalanced : ∀ p, residual children weight value p = 0) :
    ∀ p, ∃ below : Finset (List ν), (∀ q, q ∈ below ↔ Forest.Below (nodes children) p q) ∧
      value p = ∑ q ∈ below, weight q := by
  have hall : ∀ k p, height ≤ p.length + k → ∃ below : Finset (List ν),
      (∀ q, q ∈ below ↔ Forest.Below (nodes children) p q) ∧ value p = ∑ q ∈ below, weight q := by
    intro k
    induction k with
    | zero =>
      -- so deep there are no children
      intro p hp
      have hnil : children p = [] := by
        by_contra hne
        have := hheight p hne
        omega
      refine ⟨{p}, fun q => ?_, ?_⟩
      · rw [Finset.mem_singleton, Forest.below_iff, nodes, hnil]
        simp
      · have hb := hbalanced p
        rw [residual, hnil, List.map_nil, List.sum_nil, sub_zero, sub_eq_zero] at hb
        rw [Finset.sum_singleton]
        exact hb
    | succ k ih =>
      intro p hp
      choose below hbelow hvalue using fun n => ih (n :: p) (by simp only [List.length_cons]; omega)
      have hdisjoint : (↑(children p).toFinset : Set ν).PairwiseDisjoint below := by
        intro m _ n _ hmn
        refine Finset.disjoint_left.mpr fun q hm hn => hmn ?_
        have hsm := suffix_of_below ((hbelow m q).mp hm)
        have hsn := suffix_of_below ((hbelow n q).mp hn)
        exact (List.cons.inj ((List.suffix_of_suffix_length_le hsm hsn (by simp)).eq_of_length (by simp))).1
      have hroot : p ∉ (children p).toFinset.biUnion below := by
        intro hmem
        obtain ⟨n, -, hn⟩ := Finset.mem_biUnion.mp hmem
        exact absurd (suffix_of_below ((hbelow n p).mp hn)).length_le (by simp)
      refine ⟨insert p ((children p).toFinset.biUnion below), fun q => ?_, ?_⟩
      · rw [Finset.mem_insert, Finset.mem_biUnion, Forest.below_iff]
        refine or_congr_right ?_
        simp only [List.mem_toFinset, hbelow, nodes, List.mem_map, exists_exists_and_eq_and]
      · rw [Finset.sum_insert hroot, Finset.sum_biUnion hdisjoint, List.sum_toFinset _ (hnodup p)]
        have hb := hbalanced p
        rw [residual, sub_sub, sub_eq_zero] at hb
        simp only [← hvalue]
        exact hb
  exact fun p => hall height p (by omega)

end Totals
