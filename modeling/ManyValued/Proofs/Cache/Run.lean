import ManyValued.Formula.Cache
import ManyValued.Proofs.Formula.Depth

/-! What reading a text does to a cache. `Run` has one constructor for each way a reading can go, so
what every reading keeps is shown by induction on it and never by opening the reader. Three such
facts are here: entries stay as they are, a reading stores nothing under a text longer than its own,
and a node that is answered is stored. The second is why a text that was missing is still missing
when its own node is stored: its operands are shorter. -/

namespace ManyValued.Cache

section Find

variable {c : Cache} {text key : String} {depth height : Depth} {node : Mark → Shared}

@[simp] theorem find?_empty (key : String) : empty.find? key = none :=
  Std.HashMap.getElem?_empty

@[simp] theorem find?_clear (c : Cache) (key : String) : c.clear.find? key = none :=
  Std.HashMap.getElem?_empty

@[simp] theorem find?_hit (c : Cache) (key : String) : c.hit.find? key = c.find? key := rfl

@[simp] theorem find?_miss (c : Cache) (key : String) : c.miss.find? key = c.find? key := rfl

theorem find?_insert_of_none (h : c.find? text = none) :
    (c.insert text depth height node).2.find? text =
      some (node ⟨c.nextIdentity, depth⟩, height) := by
  have hmem : text ∉ c.entries := by
    intro hmem
    rw [Std.HashMap.mem_iff_isSome_getElem?, show c.entries[text]? = none from h] at hmem
    cases hmem
  rw [find?, insert, Std.HashMap.getElem?_insertIfNew, if_pos ⟨beq_self_eq_true text, hmem⟩]

theorem find?_insert_of_ne (h : key ≠ text) :
    (c.insert text depth height node).2.find? key = c.find? key := by
  rw [find?, insert, Std.HashMap.getElem?_insertIfNew, if_neg (by simp [h.symm]), find?]

theorem find?_insert_of_find? {entry : Shared × Depth} (h : c.find? key = some entry) :
    (c.insert text depth height node).2.find? key = some entry := by
  have hmem : key ∈ c.entries := by
    rw [Std.HashMap.mem_iff_isSome_getElem?]
    exact Option.isSome_of_eq_some h
  have hnew : ¬ ((text == key) = true ∧ text ∉ c.entries) := by
    rintro ⟨hkey, htext⟩
    rw [beq_iff_eq.1 hkey] at htext
    exact htext hmem
  rw [find?, insert, Std.HashMap.getElem?_insertIfNew, if_neg hnew]
  exact h

theorem find?_of_find?_insert {entry : Shared × Depth}
    (h : (c.insert text depth height node).2.find? key = some entry) :
    c.find? key = some entry ∨ key = text ∧ entry = (node ⟨c.nextIdentity, depth⟩, height) := by
  rw [find?, insert, Std.HashMap.getElem?_insertIfNew] at h
  split at h
  · rename_i hkey
    exact .inr ⟨(beq_iff_eq.1 hkey.1).symm, (Option.some.inj h).symm⟩
  · exact .inl h

end Find

section Operands

variable {f operand left right : String} {op : Unary} {bop : Binary}

theorem length_operand (h : Split.ofText f = .ok (.unary op operand)) :
    operand.length < f.length :=
  operand_length_lt h (List.mem_singleton_self operand)

theorem length_left (h : Split.ofText f = .ok (.binary bop left right)) :
    left.length < f.length :=
  operand_length_lt h (List.mem_cons_self ..)

theorem length_right (h : Split.ofText f = .ok (.binary bop left right)) :
    right.length < f.length :=
  operand_length_lt h (List.mem_cons_of_mem _ (List.mem_singleton_self right))

end Operands

/-- How the text `f` is read with its root at depth `d`: the cache before, the answer, and the cache
after it. -/
inductive Run : Depth → String → Cache → Except Error (Shared × Depth) → Cache → Prop
  | hit {d : Depth} {f : String} {c : Cache} {node : Shared} {height : Depth}
      (h : c.find? f = some (node, height)) : Run d f c (.ok (node, d + height)) c.hit
  | fault {d : Depth} {f : String} {c : Cache} {e : Error} (h : c.find? f = none)
      (hs : Split.ofText f = .error e) : Run d f c (.error e) c.miss
  | badToken {d : Depth} {f token : String} {c : Cache} {e : Error} (h : c.find? f = none)
      (hs : Split.ofText f = .ok (.leaf token))
      (ht : Outline.readLeaf f token () = .error e) : Run d f c (.error e) c.miss
  | leaf {d : Depth} {f token : String} {c : Cache} (h : c.find? f = none)
      (hs : Split.ofText f = .ok (.leaf token))
      (ht : isAtom token = true ∨ isConstant token = true) :
      Run d f c (.ok (.leaf ⟨c.nextIdentity, d⟩ token, d)) (c.miss.insert f d 0 (.leaf · token)).2
  | operandFault {d : Depth} {f operand : String} {op : Unary} {c c₁ : Cache} {e : Error}
      (h : c.find? f = none) (hs : Split.ofText f = .ok (.unary op operand))
      (hx : Run (d + 1) operand c.miss (.error e) c₁) : Run d f c (.error e) c₁
  | unary {d deepest : Depth} {f operand : String} {op : Unary} {c c₁ : Cache} {x : Shared}
      (h : c.find? f = none) (hs : Split.ofText f = .ok (.unary op operand))
      (hx : Run (d + 1) operand c.miss (.ok (x, deepest)) c₁) :
      Run d f c (.ok (.unary ⟨c₁.nextIdentity, d⟩ op x, deepest))
        (c₁.insert f d (deepest - d) (.unary · op x)).2
  | leftFault {d : Depth} {f left right : String} {op : Binary} {c c₁ : Cache} {e : Error}
      (h : c.find? f = none) (hs : Split.ofText f = .ok (.binary op left right))
      (hx : Run (d + 1) left c.miss (.error e) c₁) : Run d f c (.error e) c₁
  | rightFault {d deepest : Depth} {f left right : String} {op : Binary} {c c₁ c₂ : Cache}
      {x : Shared} {e : Error} (h : c.find? f = none)
      (hs : Split.ofText f = .ok (.binary op left right))
      (hx : Run (d + 1) left c.miss (.ok (x, deepest)) c₁)
      (hy : Run (d + 1) right c₁ (.error e) c₂) : Run d f c (.error e) c₂
  | binary {d deepestLeft deepestRight : Depth} {f left right : String} {op : Binary}
      {c c₁ c₂ : Cache} {x y : Shared} (h : c.find? f = none)
      (hs : Split.ofText f = .ok (.binary op left right))
      (hx : Run (d + 1) left c.miss (.ok (x, deepestLeft)) c₁)
      (hy : Run (d + 1) right c₁ (.ok (y, deepestRight)) c₂) :
      Run d f c (.ok (.binary ⟨c₂.nextIdentity, d⟩ op x y, max deepestLeft deepestRight))
        (c₂.insert f d (max deepestLeft deepestRight - d) (.binary · op x y)).2

theorem run_build (d : Depth) (f : String) (c : Cache) :
    Run d f c (build d (Outline.ofText f) c).1 (build d (Outline.ofText f) c).2 := by
  induction f using Outline.ofText.induct generalizing d c with
  | case1 f e hs =>
    rw [Outline.ofText_eq, hs, build]
    split
    · rename_i h
      exact .hit h
    · rename_i h
      exact .fault h hs
  | case2 f token hs =>
    rw [Outline.ofText_eq, hs, build]
    split
    · rename_i h
      exact .hit h
    · rename_i h
      cases ht : Outline.readLeaf f token () with
      | error e => exact .badToken h hs ht
      | ok node => exact .leaf h hs (readLeaf_eq_ok ht).1
  | case3 f op operand hs _ ih =>
    have hx := ih (d + 1) c.miss
    rw [Outline.ofText_eq, hs, build]
    split
    · rename_i h
      exact .hit h
    · rename_i h
      generalize build (d + 1) (Outline.ofText operand) c.miss = b at hx ⊢
      obtain ⟨e | ⟨x, deepest⟩, c₁⟩ := b
      · exact .operandFault h hs hx
      · exact .unary h hs hx
  | case4 f op left right hs _ _ ihl ihr =>
    have hx := ihl (d + 1) c.miss
    rw [Outline.ofText_eq, hs, build]
    split
    · rename_i h
      exact .hit h
    · rename_i h
      generalize build (d + 1) (Outline.ofText left) c.miss = b at hx ⊢
      obtain ⟨e | ⟨x, deepestLeft⟩, c₁⟩ := b
      · exact .leftFault h hs hx
      · have hy := ihr (d + 1) c₁
        dsimp only
        generalize build (d + 1) (Outline.ofText right) c₁ = b at hy ⊢
        obtain ⟨e | ⟨y, deepestRight⟩, c₂⟩ := b
        · exact .rightFault h hs hx hy
        · exact .binary h hs hx hy

theorem run_read (c : Cache) (f : String) (d : Depth) :
    Run d (trimmed f.toList) c (c.read f d).1 (c.read f d).2 :=
  run_build d (trimmed f.toList) c

section Run

variable {d : Depth} {f key : String} {c c' : Cache} {r : Except Error (Shared × Depth)}

theorem Run.find?_of_find? (h : Run d f c r c') {entry : Shared × Depth}
    (hk : c.find? key = some entry) : c'.find? key = some entry := by
  induction h with
  | hit h => rwa [find?_hit]
  | fault h hs => rwa [find?_miss]
  | badToken h hs ht => rwa [find?_miss]
  | leaf h hs ht => exact find?_insert_of_find? hk
  | operandFault h hs hx ih => exact ih hk
  | unary h hs hx ih => exact find?_insert_of_find? (ih hk)
  | leftFault h hs hx ih => exact ih hk
  | rightFault h hs hx hy ihx ihy => exact ihy (ihx hk)
  | binary h hs hx hy ihx ihy => exact find?_insert_of_find? (ihy (ihx hk))

/-- Nothing is stored under a text that is longer than the one that is read. -/
theorem Run.find?_of_length_lt (h : Run d f c r c') (hk : f.length < key.length) :
    c'.find? key = c.find? key := by
  have hne {f : String} (hk : f.length < key.length) : key ≠ f := by
    rintro rfl
    exact Nat.lt_irrefl _ hk
  induction h with
  | hit h => exact find?_hit _ key
  | fault h hs => exact find?_miss _ key
  | badToken h hs ht => exact find?_miss _ key
  | leaf h hs ht => exact find?_insert_of_ne (hne hk)
  | operandFault h hs hx ih => exact ih (Nat.lt_trans (length_operand hs) hk)
  | unary h hs hx ih =>
    rw [find?_insert_of_ne (hne hk)]
    exact ih (Nat.lt_trans (length_operand hs) hk)
  | leftFault h hs hx ih => exact ih (Nat.lt_trans (length_left hs) hk)
  | rightFault h hs hx hy ihx ihy =>
    rw [ihy (Nat.lt_trans (length_right hs) hk)]
    exact ihx (Nat.lt_trans (length_left hs) hk)
  | binary h hs hx hy ihx ihy =>
    rw [find?_insert_of_ne (hne hk), ihy (Nat.lt_trans (length_right hs) hk)]
    exact ihx (Nat.lt_trans (length_left hs) hk)

/-- A text that was missing is still missing when its operands, which are shorter, have been
read. -/
theorem Run.absent (h : Run d f c r c') (hlt : f.length < key.length) (hkey : c.find? key = none) :
    c'.find? key = none :=
  (h.find?_of_length_lt hlt).trans hkey

theorem Run.find?_answer {node : Shared} {deepest : Depth}
    (h : Run d f c (.ok (node, deepest)) c') : ∃ height, c'.find? f = some (node, height) := by
  cases h with
  | hit h => exact ⟨_, h⟩
  | leaf h hs ht => exact ⟨_, find?_insert_of_none h⟩
  | unary h hs hx => exact ⟨_, find?_insert_of_none (hx.absent (length_operand hs) h)⟩
  | binary h hs hx hy =>
    have hleft := hx.absent (length_left hs) h
    exact ⟨_, find?_insert_of_none (hy.absent (length_right hs) hleft)⟩

end Run

inductive Request where
  | read (formula : String) (depth : Depth)
  | clear

def serve (c : Cache) : Request → Cache
  | .read formula depth => (c.read formula depth).2
  | .clear => c.clear

/-- The cache that a history of requests to an empty one leaves. -/
def after (history : List Request) : Cache := history.foldl serve empty

theorem after_concat (history : List Request) (request : Request) :
    after (history ++ [request]) = serve (after history) request :=
  List.foldl_append ..

/-- What holds of the empty cache and is kept by every reading and by forgetting holds after every
history. -/
theorem after_induction {P : Cache → Prop} (hempty : P empty)
    (hread : ∀ {c} f d, P c → P (c.read f d).2) (hclear : ∀ {c}, P c → P c.clear)
    (history : List Request) : P (after history) := by
  have hall : ∀ c, P c → P (history.foldl serve c) := by
    induction history with
    | nil => exact fun c hc => hc
    | cons request rest ih =>
      intro c hc
      cases request with
      | read formula depth => exact ih _ (hread formula depth hc)
      | clear => exact ih _ (hclear hc)
  exact hall empty hempty

end ManyValued.Cache
