import ManyValued.Proofs.Cache.Run
import Mathlib.Data.List.Induction

/-! A cache changes neither what is read nor what is refused: every entry has the tree of its text.
As long as depths fit a word it does not change the greatest depth either, because every entry then
has the height of its node. A height is a distance, so it serves at whatever depth the text is met
again; had the entry kept the greatest depth itself, a text stored at one depth would be reported
wrongly at another. A height that comes from depths which have begun again at 0 is wrong, and stays
so until the cache is cleared. -/

namespace ManyValued.Cache

/-- Every entry is the tree of its text. -/
def Faithful (c : Cache) : Prop :=
  ∀ text node height, c.find? text = some (node, height) → treeOf text = .ok node.shape

def Answers (f : String) : Except Error (Shared × Depth) → Prop
  | .ok (node, _) => treeOf f = .ok node.shape
  | .error e => treeOf f = .error e

variable {c c' : Cache} {d : Depth} {f : String} {r : Except Error (Shared × Depth)}

theorem faithful_of_find?_eq_none (h : ∀ text, c.find? text = none) : c.Faithful := by
  intro text node height hentry
  rw [h text] at hentry
  cases hentry

theorem Faithful.hit (hc : c.Faithful) : c.hit.Faithful := hc

theorem Faithful.miss (hc : c.Faithful) : c.miss.Faithful := hc

theorem Faithful.insert (hc : c.Faithful) {depth height : Depth} {node : Mark → Shared}
    (ht : ∀ m, treeOf f = .ok (node m).shape) : (c.insert f depth height node).2.Faithful := by
  intro text x h hx
  rcases find?_of_find?_insert hx with hold | ⟨rfl, hnew⟩
  · exact hc text x h hold
  · obtain ⟨rfl, -⟩ := Prod.mk.inj hnew
    exact ht _

/-- A reading answers what the text says and stores what it answers. -/
theorem Run.faithful (h : Run d f c r c') (hc : c.Faithful) : c'.Faithful ∧ Answers f r := by
  induction h with
  | hit h => exact ⟨hc.hit, hc _ _ _ h⟩
  | fault h hs => exact ⟨hc.miss, treeOf_of_error hs⟩
  | badToken h hs ht => exact ⟨hc.miss, (treeOf_of_leaf hs).trans ht⟩
  | leaf h hs ht =>
    have htree := (treeOf_of_leaf hs).trans (readLeaf_of_token ht _ ())
    exact ⟨hc.miss.insert fun _ => htree, htree⟩
  | operandFault h hs hx ih =>
    obtain ⟨hc₁, hxt⟩ := ih hc.miss
    rw [Answers] at hxt
    exact ⟨hc₁, by rw [Answers, treeOf_of_unary hs, hxt, error_bind]⟩
  | unary h hs hx ih =>
    obtain ⟨hc₁, hxt⟩ := ih hc.miss
    rw [Answers] at hxt
    have htree := treeOf_of_unary hs
    rw [hxt, ok_bind] at htree
    exact ⟨hc₁.insert fun _ => htree, htree⟩
  | leftFault h hs hx ih =>
    obtain ⟨hc₁, hxt⟩ := ih hc.miss
    rw [Answers] at hxt
    exact ⟨hc₁, by rw [Answers, treeOf_of_binary hs, hxt, error_bind]⟩
  | rightFault h hs hx hy ihx ihy =>
    obtain ⟨hc₁, hxt⟩ := ihx hc.miss
    obtain ⟨hc₂, hyt⟩ := ihy hc₁
    simp only [Answers] at hxt hyt
    exact ⟨hc₂, by rw [Answers, treeOf_of_binary hs, hxt, ok_bind, hyt, error_bind]⟩
  | binary h hs hx hy ihx ihy =>
    obtain ⟨hc₁, hxt⟩ := ihx hc.miss
    obtain ⟨hc₂, hyt⟩ := ihy hc₁
    simp only [Answers] at hxt hyt
    have htree := treeOf_of_binary hs
    rw [hxt, ok_bind, hyt, ok_bind] at htree
    exact ⟨hc₂.insert fun _ => htree, htree⟩

theorem Faithful.answers (hc : c.Faithful) (f : String) (d : Depth) :
    Answers (trimmed f.toList) (c.read f d).1 :=
  ((run_read c f d).faithful hc).2

theorem Faithful.exists_read (hc : c.Faithful) {t : Formula Unit}
    (h : treeOf (trimmed f.toList) = .ok t) (d : Depth) :
    ∃ node reached, (c.read f d).1 = .ok (node, reached) ∧ node.shape = t := by
  have hread := hc.answers f d
  generalize (c.read f d).1 = answer at hread
  obtain e | ⟨node, reached⟩ := answer
  · cases h.symm.trans hread
  · exact ⟨node, reached, rfl, Except.ok.inj (hread.symm.trans h)⟩

theorem Faithful.read_eq_error (hc : c.Faithful) {e : Error}
    (h : treeOf (trimmed f.toList) = .error e) (d : Depth) : (c.read f d).1 = .error e := by
  have hread := hc.answers f d
  generalize (c.read f d).1 = answer at hread
  obtain e | ⟨node, reached⟩ := answer
  · cases h.symm.trans hread
    rfl
  · cases h.symm.trans hread

theorem faithful_after (history : List Request) : (after history).Faithful :=
  after_induction (faithful_of_find?_eq_none find?_empty)
    (fun f d hc => ((run_read _ f d).faithful hc).1)
    (fun _ => faithful_of_find?_eq_none (find?_clear _)) history

theorem answers_read (history : List Request) (f : String) (d : Depth) :
    Answers (trimmed f.toList) ((after history).read f d).1 :=
  (faithful_after history).answers f d

section Heights

def Measured (c : Cache) : Prop :=
  ∀ text node height, c.find? text = some (node, height) → height.toNat = node.height

/-- The greatest depth that is answered is as far from `d` as the node is high. -/
def Reaches (d : Depth) : Except Error (Shared × Depth) → Prop
  | .ok (node, reached) => reached.toNat = d.toNat + node.height
  | .error _ => True

theorem measured_of_find?_eq_none (h : ∀ text, c.find? text = none) : c.Measured := by
  intro text node height hentry
  rw [h text] at hentry
  cases hentry

theorem Measured.hit (hc : c.Measured) : c.hit.Measured := hc

theorem Measured.miss (hc : c.Measured) : c.miss.Measured := hc

theorem Measured.insert (hc : c.Measured) {depth height : Depth} {node : Mark → Shared}
    (hh : ∀ m, height.toNat = (node m).height) : (c.insert f depth height node).2.Measured := by
  intro text x h hx
  rcases find?_of_find?_insert hx with hold | ⟨rfl, hnew⟩
  · exact hc text x h hold
  · obtain ⟨rfl, rfl⟩ := Prod.mk.inj hnew
    exact hh _

/-- The height that is stored with a node is the way from its depth to the greatest one. -/
theorem Measured.store (hc : c.Measured) {reached : Depth} {node : Mark → Shared}
    (hr : ∀ m, Reaches d (.ok (node m, reached))) :
    (c.insert f d (reached - d) node).2.Measured :=
  hc.insert fun m => toNat_sub_of_eq_add (hr m)

/-- A reading whose depths fit a word stores the heights of its nodes. -/
theorem Run.measured (h : Run d f c r c') (hf : c.Faithful) (hfit : DepthsFit d f)
    (hc : c.Measured) : c'.Measured ∧ Reaches d r := by
  induction h with
  | hit h =>
    have hheight := hc _ _ _ h
    rw [depthsFit_iff (hf _ _ _ h), Formula.height_shape, ← hheight] at hfit
    exact ⟨hc.hit, by rw [Reaches, UInt64.toNat_add, ← hheight, Nat.mod_eq_of_lt hfit]⟩
  | fault h hs => exact ⟨hc.miss, trivial⟩
  | badToken h hs ht => exact ⟨hc.miss, trivial⟩
  | leaf h hs ht => exact ⟨hc.miss.insert fun _ => rfl, rfl⟩
  | operandFault h hs hx ih =>
    exact ⟨(ih hf.miss (hfit.first hs rfl) hc.miss).1, trivial⟩
  | @unary d reached f operand op c c₁ x h hs hx ih =>
    obtain ⟨hc₁, hxr⟩ := ih hf.miss (hfit.first hs rfl) hc.miss
    have hreach (m : Mark) : Reaches d (.ok (.unary m op x, reached)) := by
      rw [Reaches, hfit.toNat_add_one hs rfl] at hxr
      rw [Reaches, Formula.height]
      omega
    exact ⟨hc₁.store hreach, hreach _⟩
  | leftFault h hs hx ih =>
    exact ⟨(ih hf.miss (hfit.first hs rfl) hc.miss).1, trivial⟩
  | rightFault h hs hx hy ihx ihy =>
    obtain ⟨hc₁, -⟩ := ihx hf.miss (hfit.first hs rfl) hc.miss
    obtain ⟨hf₁, hxt⟩ := hx.faithful hf.miss
    exact ⟨(ihy hf₁ (hfit.right hs hxt) hc₁).1, trivial⟩
  | @binary d reachedLeft reachedRight f left right op c c₁ c₂ x y h hs hx hy ihx ihy =>
    obtain ⟨hc₁, hxr⟩ := ihx hf.miss (hfit.first hs rfl) hc.miss
    obtain ⟨hf₁, hxt⟩ := hx.faithful hf.miss
    obtain ⟨hc₂, hyr⟩ := ihy hf₁ (hfit.right hs hxt) hc₁
    have hreach (m : Mark) :
        Reaches d (.ok (.binary m op x y, max reachedLeft reachedRight)) := by
      have hd := hfit.toNat_add_one hs rfl
      rw [Reaches, hd] at hxr hyr
      rw [Reaches, UInt64.toNat_max, Formula.height]
      omega
    exact ⟨hc₂.store hreach, hreach _⟩

/-- The readings since the cache was made or last cleared, the latest one first. -/
def recent (history : List Request) : List (String × Depth) :=
  history.foldl (fun
    | readings, .read f d => (f, d) :: readings
    | _, .clear => []) []

theorem recent_read (history : List Request) (f : String) (d : Depth) :
    recent (history ++ [.read f d]) = (f, d) :: recent history :=
  List.foldl_append ..

/-- All depths have fitted a word since the cache was made or last cleared. -/
def InRange (history : List Request) : Prop :=
  ∀ reading ∈ recent history, DepthsFit reading.2 (trimmed reading.1.toList)

instance (history : List Request) : Decidable (InRange history) :=
  inferInstanceAs (Decidable (∀ _ ∈ _, _))

theorem inRange_read {history : List Request} : InRange (history ++ [.read f d]) ↔
    DepthsFit d (trimmed f.toList) ∧ InRange history := by
  rw [InRange, recent_read, List.forall_mem_cons]
  rfl

theorem inRange_singleton : InRange [.read f d] ↔ DepthsFit d (trimmed f.toList) :=
  List.forall_mem_singleton

theorem measured_after {history : List Request} (h : InRange history) :
    (after history).Measured := by
  induction history using List.reverseRecOn with
  | nil => exact measured_of_find?_eq_none find?_empty
  | append_singleton history request ih =>
    rw [after_concat]
    cases request with
    | clear => exact measured_of_find?_eq_none (find?_clear _)
    | read f d =>
      obtain ⟨hfit, h⟩ := inRange_read.1 h
      exact ((run_read _ f d).measured (faithful_after history) hfit (ih h)).1

theorem reached_eq_deepestFrom (history : List Request) {node : Shared} {reached : Depth}
    (h : InRange (history ++ [.read f d]))
    (hread : ((after history).read f d).1 = .ok (node, reached)) :
    reached = node.deepestFrom d := by
  obtain ⟨hfit, h⟩ := inRange_read.1 h
  have hf := faithful_after history
  have hrun := run_read (after history) f d
  rw [hread] at hrun
  have hreach : reached.toNat = d.toNat + node.height :=
    (hrun.measured hf hfit (measured_after h)).2
  rw [depthsFit_iff (hrun.faithful hf).2, Formula.height_shape] at hfit
  rw [← UInt64.toNat_inj, Formula.toNat_deepestFrom hfit, hreach]

end Heights

section Wrapping

theorem read_of_find? {node : Shared} {height : Depth}
    (h : c.find? (trimmed f.toList) = some (node, height)) :
    c.read f d = (.ok (node, d + height), c.hit) := by
  rw [read, build.eq_def, Outline.text_ofText, h]

/-- The left leaf is at depth 0 again, so the right one counts as the deepest and the formula as no
higher than its right operand. -/
theorem find?_after_wrapping : ∃ node : Shared,
    (after [.read "((¬A)⊙B)" 18446744073709551614]).find? "((¬A)⊙B)" = some (node, 1) := by
  have houtline : Outline.ofText (trimmed "((¬A)⊙B)".toList) =
      .binary "((¬A)⊙B)" .conj (.unary "(¬A)" .neg (.leaf "A" "A")) (.leaf "B" "B") := by
    decide +kernel
  have hleft : Outline.readLeaf "A" "A" () = .ok (.leaf () "A") := by decide +kernel
  have hright : Outline.readLeaf "B" "B" () = .ok (.leaf () "B") := by decide +kernel
  have hmax : max (0 : Depth) 18446744073709551615 = 18446744073709551615 := by decide +kernel
  rw [show after [.read "((¬A)⊙B)" 18446744073709551614] =
    (empty.read "((¬A)⊙B)" 18446744073709551614).2 from rfl, read, houtline]
  simp only [build, Outline.text, find?_empty, find?_miss, hleft, hright, hmax, ne_eq,
    String.reduceEq, not_false_eq_true, find?_insert_of_ne, UInt64.reduceAdd, UInt64.reduceSub,
    UInt64.zero_sub]
  refine ⟨_, find?_insert_of_none ?_⟩
  simp [find?_insert_of_ne]

end Wrapping

end ManyValued.Cache
