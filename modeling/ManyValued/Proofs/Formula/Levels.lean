import ManyValued.Proofs.Cache.Agreement
import ManyValued.Proofs.Formula.Places

/-! Listing a formula level by level. The two lists of the queue are the rest of one level and, in
reverse, the children of what the level had before that rest. So the queue is emptied one level at a
time, and what is left of a level always comes before everything that was found below it. The depths
in the list never fall because a node that was read records how far it is from the root. -/

namespace ManyValued.Formula

variable {μ ν : Type}

/-- The formulas at a distance from the root, from left to right. -/
def level : Nat → Formula μ → List (Formula μ)
  | 0, x => [x]
  | k + 1, x => x.children.flatMap (level k)

def entry (x : Formula μ) : String × μ := (x.label, x.mark)

theorem level_unary (k : Nat) (m : μ) (op : Unary) (x : Formula μ) :
    (unary m op x).level (k + 1) = x.level k :=
  List.flatMap_singleton _ x

theorem level_binary (k : Nat) (m : μ) (op : Binary) (x y : Formula μ) :
    (binary m op x y).level (k + 1) = x.level k ++ y.level k := by
  rw [level, children, List.flatMap_cons, List.flatMap_singleton]

theorem level_eq_nil_iff {x : Formula μ} {k : Nat} : x.level k = [] ↔ x.height < k := by
  induction k generalizing x with
  | zero => simp [level]
  | succ k ih =>
    rw [level, List.flatMap_eq_nil_iff, height_lt_iff]
    exact forall₂_congr fun y _ => ih

theorem mem_level_iff {x y : Formula μ} {k : Nat} :
    y ∈ x.level k ↔ ∃ path, path.length = k ∧ x.at? path = some y := by
  induction k generalizing x with
  | zero =>
    rw [level, List.mem_singleton]
    constructor
    · rintro rfl
      exact ⟨[], rfl, rfl⟩
    · rintro ⟨path, hpath, h⟩
      obtain rfl := List.length_eq_zero_iff.1 hpath
      exact (Option.some.inj h).symm
  | succ k ih =>
    rw [level, List.mem_flatMap]
    constructor
    · rintro ⟨z, hz, hy⟩
      obtain ⟨path, hpath, h⟩ := ih.1 hy
      obtain ⟨i, hi⟩ := List.mem_iff_getElem?.1 hz
      refine ⟨i :: path, congrArg (· + 1) hpath, ?_⟩
      rw [at?, hi]
      exact h
    · rintro ⟨path, hpath, h⟩
      obtain ⟨i, path, rfl⟩ := List.exists_cons_of_length_eq_add_one hpath
      obtain ⟨z, hi, h⟩ := Option.bind_eq_some_iff.1 h
      exact ⟨z, List.mem_of_getElem? hi, ih.2 ⟨path, Nat.succ.inj hpath, h⟩⟩

theorem level_atDepth (x : Formula μ) (d : Depth) (k : Nat) :
    (x.atDepth d).level k = (x.level k).map (atDepth (d + .ofNat k)) := by
  induction k generalizing x d with
  | zero => rw [level, level, List.map_singleton, add_ofNat_zero]
  | succ k ih =>
    rw [level, level, children_atDepth, List.flatMap_map, List.map_flatMap]
    refine List.flatMap_congr fun y _ => ?_
    rw [ih, add_ofNat_succ]

section Queue

/-- What is left of a level is listed before everything that was found below the level. -/
theorem visit_eq (front back : List (Formula μ)) :
    visit front back = front.map entry ++ visit (back.reverse ++ front.flatMap children) [] := by
  induction front generalizing back with
  | nil =>
    cases back with
    | nil => rfl
    | cons y ys => rw [visit, List.flatMap_nil, List.append_nil, List.map_nil, List.nil_append]
  | cons x xs ih =>
    rw [visit, ih, List.reverse_append, List.reverse_reverse, List.append_assoc, List.flatMap_cons]
    rfl

/-- The queue is emptied level by level. -/
theorem visit_eq_levels {n : Nat} {xs : List (Formula μ)} (h : ∀ x ∈ xs, x.height < n) :
    visit xs [] = (List.range n).flatMap fun k => (xs.flatMap (level k)).map entry := by
  induction n generalizing xs with
  | zero =>
    obtain rfl : xs = [] := List.eq_nil_iff_forall_not_mem.2 fun x hx => Nat.not_lt_zero _ (h x hx)
    rw [visit]
    rfl
  | succ n ih =>
    have hbelow : ∀ y ∈ xs.flatMap children, y.height < n := by
      intro y hy
      obtain ⟨x, hx, hy⟩ := List.mem_flatMap.1 hy
      exact height_lt_iff.1 (h x hx) y hy
    have hfirst : xs.flatMap (level 0) = xs := List.flatMap_singleton' xs
    have hnext (k : Nat) : (xs.flatMap children).flatMap (level k) = xs.flatMap (level (k + 1)) :=
      List.flatMap_assoc
    rw [visit_eq, List.reverse_nil, List.nil_append, ih hbelow, List.range_succ_eq_map,
      List.flatMap_cons, List.flatMap_map, hfirst]
    simp only [hnext]

theorem length_visit (front back : List (Formula μ)) :
    (visit front back).length = totalSize front + totalSize back := by
  induction front, back using visit.induct with
  | case1 => rw [visit]; rfl
  | case2 y ys ih => rw [visit, ih, totalSize_reverse, totalSize, Nat.add_comm]
  | case3 x xs back ih =>
    rw [visit, List.length_cons, ih, totalSize_append, totalSize_reverse, totalSize,
      size_eq_children]
    omega

theorem visit_map (f : μ → ν) (front back : List (Formula μ)) :
    visit (front.map (map f)) (back.map (map f)) = (visit front back).map (Prod.map id f) := by
  induction front, back using visit.induct with
  | case1 => rw [List.map_nil, visit, visit, List.map_nil]
  | case2 y ys ih =>
    rw [List.map_nil, List.map_cons, visit, visit, ← ih, List.map_nil, List.map_reverse,
      List.map_cons]
  | case3 x xs back ih =>
    have hentry : ((x.map f).label, (x.map f).mark) = Prod.map id f (x.label, x.mark) := by
      cases x <;> rfl
    rw [List.map_cons, visit, visit, List.map_cons, ← ih, List.map_append, List.map_reverse,
      children_map, hentry]

end Queue

theorem levelOrder_eq_levels {x : Formula μ} {n : Nat} (h : x.height < n) :
    x.levelOrder = (List.range n).flatMap fun k => (x.level k).map entry := by
  have hx := visit_eq_levels (List.forall_mem_singleton.2 h)
  simp only [List.flatMap_singleton] at hx
  exact hx

theorem length_levelOrder (x : Formula μ) : x.levelOrder.length = x.size := by
  rw [levelOrder, length_visit, totalSize, totalSize, totalSize]
  omega

theorem map_fst_levelOrder_map (f : μ → ν) (x : Formula μ) :
    (x.map f).levelOrder.map Prod.fst = x.levelOrder.map Prod.fst := by
  have hx : (x.map f).levelOrder = x.levelOrder.map (Prod.map id f) := visit_map f [x] []
  rw [hx, List.map_map]
  rfl

theorem SameShape.map_fst_levelOrder_eq {x : Formula μ} {y : Formula ν} (h : x.SameShape y) :
    x.levelOrder.map Prod.fst = y.levelOrder.map Prod.fst := by
  rw [← map_fst_levelOrder_map (fun _ => ()) x, ← map_fst_levelOrder_map (fun _ => ()) y]
  exact congrArg (fun z : Formula Unit => z.levelOrder.map Prod.fst) h

section Depths

theorem mark_of_mem_level {x : Formula μ} {y : Formula Depth} {d : Depth} {k : Nat}
    (hy : y ∈ (x.atDepth d).level k) : y.mark = d + .ofNat k := by
  rw [level_atDepth] at hy
  obtain ⟨z, -, rfl⟩ := List.mem_map.1 hy
  exact mark_atDepth z (d + .ofNat k)

theorem map_mark_level_atDepth (x : Formula μ) (d : Depth) (k : Nat) :
    ((x.atDepth d).level k).map mark = List.replicate (x.level k).length (d + .ofNat k) := by
  rw [List.eq_replicate_iff, List.length_map, level_atDepth, List.length_map, ← level_atDepth]
  refine ⟨rfl, fun m hm => ?_⟩
  obtain ⟨y, hy, rfl⟩ := List.mem_map.1 hm
  exact mark_of_mem_level hy

theorem map_snd_levelOrder_atDepth (x : Formula μ) (d : Depth) :
    (x.atDepth d).levelOrder.map Prod.snd = (List.range (x.height + 1)).flatMap fun k =>
      List.replicate (x.level k).length (d + .ofNat k) := by
  have hheight : (x.atDepth d).height < x.height + 1 := by
    rw [height_atDepth]
    exact Nat.lt_succ_self _
  rw [levelOrder_eq_levels hheight, List.map_flatMap]
  refine List.flatMap_congr fun k _ => ?_
  rw [← map_mark_level_atDepth, List.map_map]
  rfl

variable {x : Formula μ} {d : Depth}

theorem toNat_mark_of_mem_level {y : Formula Depth} {k : Nat}
    (h : d.toNat + x.height < UInt64.size) (hy : y ∈ (x.atDepth d).level k) :
    y.mark.toNat = d.toNat + k := by
  obtain ⟨path, rfl, hpath⟩ := mem_level_iff.1 hy
  rw [mark_of_mem_level hy]
  exact toNat_depth_of_at? hpath (by rwa [height_atDepth])

theorem pairwise_le_depths (h : d.toNat + x.height < UInt64.size) :
    ((x.atDepth d).levelOrder.map Prod.snd).Pairwise (· ≤ ·) := by
  rw [map_snd_levelOrder_atDepth, List.pairwise_flatMap]
  refine ⟨fun k _ => List.pairwise_replicate.2 (.inr (UInt64.le_refl _)), ?_⟩
  refine List.pairwise_lt_range.imp_of_mem fun {k k'} _ hk' hlt m hm m' hm' => ?_
  have hk' := Nat.le_of_lt_succ (List.mem_range.1 hk')
  rw [List.eq_of_mem_replicate hm, List.eq_of_mem_replicate hm', UInt64.le_iff_toNat_le,
    toNat_add_ofNat (by omega), toNat_add_ofNat (by omega)]
  omega

theorem getLast?_depths (h : d.toNat + x.height < UInt64.size) :
    ((x.atDepth d).levelOrder.map Prod.snd).getLast? = some (x.deepestFrom d) := by
  have hne : (x.level x.height).length ≠ 0 := fun h =>
    Nat.lt_irrefl _ (level_eq_nil_iff.1 (List.length_eq_zero_iff.1 h))
  have hdeepest : x.deepestFrom d = d + .ofNat x.height := by
    rw [← UInt64.toNat_inj, toNat_deepestFrom h, toNat_add_ofNat h]
  rw [map_snd_levelOrder_atDepth, List.range_succ, List.flatMap_append, List.flatMap_singleton,
    List.getLast?_append, List.getLast?_replicate, if_neg hne, hdeepest]
  rfl

end Depths

end ManyValued.Formula
