import ChunkAsm.Constant

/-!
# Pools only grow

A pool is extended at its end and nowhere else, so what has an index keeps it. The index of a
constant is the first at which the same constant stands.
-/

namespace ChunkAsm.Pool

variable {p : Pool} {c d : Constant} {i : Nat}

/-- Inversion for `position?`: the entry at the index of a constant is the same constant. -/
theorem get?_of_position? (h : p.position? c = some i) :
    ∃ e, p.get? i = some e ∧ e.same c = true := by
  obtain ⟨hi, he, -⟩ := List.findIdx?_eq_some_iff_getElem.mp h
  refine ⟨p.entries.toList[i], ?_, he⟩
  rw [get?, ← Array.getElem?_toList, List.getElem?_eq_getElem hi]

/-- No entry before the index of a constant is the same. -/
theorem not_same_of_lt (h : p.position? c = some i) {j : Nat} (hj : j < i) {e : Constant}
    (he : p.get? j = some e) : e.same c = false := by
  obtain ⟨hi, -, hmin⟩ := List.findIdx?_eq_some_iff_getElem.mp h
  rw [get?, ← Array.getElem?_toList, List.getElem?_eq_getElem (Nat.lt_trans hj hi)] at he
  obtain rfl := Option.some.inj he
  simpa using hmin j hj

theorem lt_size_of_position? (h : p.position? c = some i) : i < p.size := by
  obtain ⟨hi, -, -⟩ := List.findIdx?_eq_some_iff_getElem.mp h
  simpa [size] using hi

theorem insert_of_some (h : p.position? c = some i) : p.insert c = p := by
  rw [insert, h]

theorem insert_of_none (h : p.position? c = none) : p.insert c = ⟨p.entries.push c⟩ := by
  rw [insert, h]

/-- What a pool is extended by stands at its end. -/
theorem prefix_insert (p : Pool) (c : Constant) :
    p.entries.toList <+: (p.insert c).entries.toList := by
  cases h : p.position? c with
  | some i => simp [insert_of_some h]
  | none => simp [insert_of_none h]

/-- **An entry never moves.** The index of a constant stays when another is added. -/
theorem position?_insert (h : p.position? c = some i) : (p.insert d).position? c = some i := by
  obtain ⟨t, ht⟩ := prefix_insert p d
  rw [position?] at h ⊢
  rw [← ht, List.findIdx?_append, h]
  rfl

/-! ## Adding several constants -/

/-- Add constants in order. -/
def insertAll (p : Pool) (cs : List Constant) : Pool := cs.foldl insert p

theorem insertAll_append (p : Pool) (cs ds : List Constant) :
    p.insertAll (cs ++ ds) = (p.insertAll cs).insertAll ds :=
  List.foldl_append

theorem position?_insertAll {cs : List Constant} (h : p.position? c = some i) :
    (p.insertAll cs).position? c = some i := by
  induction cs generalizing p with
  | nil => exact h
  | cons d cs ih => exact ih (position?_insert h)

/-- Constants are new to a pool if adding them puts them all at its end. -/
def New (p : Pool) (cs : List Constant) : Prop :=
  (p.insertAll cs).entries.toList = p.entries.toList ++ cs

theorem new_nil (p : Pool) : p.New [] := (List.append_nil _).symm

/-- The index of a constant after new ones are in the pool: where it stood, or behind the pool where
it stands among them. -/
theorem position?_of_new {cs : List Constant} (h : p.New cs) :
    (p.insertAll cs).position? c =
      (p.position? c).or ((cs.findIdx? (·.same c)).map (· + p.size)) := by
  rw [position?, h, List.findIdx?_append, position?, size, Array.length_toList]

/-- A constant that is neither in the pool nor among the new ones is new behind them. -/
theorem New.concat {cs : List Constant} (h : p.New cs) (hp : (p.insertAll cs).position? c = none) :
    p.New (cs ++ [c]) := by
  have hins : p.insertAll (cs ++ [c]) = ⟨(p.insertAll cs).entries.push c⟩ := by
    rw [insertAll_append]
    exact insert_of_none hp
  rw [New, hins, Array.toList_push, h, List.append_assoc]

end ChunkAsm.Pool
