import Mathlib.Data.List.Nodup

/-!
# Patches in two collections

What waits for names can be kept in two collections: the names in the order of their first
deferrals, and a table that gives the sites of each name. Nothing in the two keeps them together, so
each operation has to. They are **in step** if the listed names are those of the table, each listed
once, and no name of the table is without sites (`PatchIndex.InStep`). Then the list tells whether
the table has a name, and the operations have one equation each for what is seen of them.
-/

namespace ChunkAsm

/-- Instructions that wait for names, in two collections. -/
structure PatchIndex where
  /-- the names, in order of first deferral -/
  order : Array String := #[]
  /-- the indices of the instructions that wait for a name, in order of deferral -/
  table : Std.HashMap String (Array Nat) := ∅

namespace PatchIndex

/-- Let the instruction at `site` wait for `name`. A name that is not in the table is listed
last. -/
def defer (p : PatchIndex) (name : String) (site : Nat) : PatchIndex :=
  match p.table[name]? with
  | some sites => { p with table := p.table.insert name (sites.push site) }
  | none => { order := p.order.push name, table := p.table.insert name #[site] }

/-- The instructions that wait for a name, and the patches without them. A name that is in the table
is removed from both collections. -/
def take (p : PatchIndex) (name : String) : List Nat × PatchIndex :=
  match p.table[name]? with
  | some sites =>
    (sites.toList, { order := p.order.filter (· != name), table := p.table.erase name })
  | none => ([], p)

/-- The instructions that wait for a name, in order of deferral. -/
def sites (p : PatchIndex) (name : String) : List Nat :=
  match p.table[name]? with
  | some sites => sites.toList
  | none => []

/-- Whether nothing waits, as the table says. -/
def isEmpty (p : PatchIndex) : Bool := p.table.isEmpty

/-- The names that something waits for, as they are listed. -/
def names (p : PatchIndex) : List String := p.order.toList

/-- The two collections are in step. -/
structure InStep (p : PatchIndex) : Prop where
  /-- no name is listed twice -/
  nodup : p.names.Nodup
  /-- the listed names are those of the table -/
  mem_names_iff : ∀ name : String, name ∈ p.names ↔ name ∈ p.table
  /-- no name of the table is without sites -/
  ne_empty : ∀ (name : String) (sites : Array Nat), p.table[name]? = some sites → sites ≠ #[]

theorem inStep_empty : InStep {} where
  nodup := .nil
  mem_names_iff name := by simp [names]
  ne_empty name sites h := by simp at h

/-! ## What is seen of an operation -/

section

variable (p : PatchIndex) (name : String) (site : Nat) (n : String)

theorem table_defer :
    (p.defer name site).table[n]? =
      if n = name then some ((p.table[name]?.getD #[]).push site) else p.table[n]? := by
  simp only [defer, eq_comm (a := n)]
  split
  · rename_i sites h
    simp [Std.HashMap.getElem?_insert, h]
  · rename_i h
    simp [Std.HashMap.getElem?_insert, h]

theorem table_take :
    (p.take name).2.table[n]? = if n = name then none else p.table[n]? := by
  simp only [take, eq_comm (a := n)]
  split
  · simp [Std.HashMap.getElem?_erase]
  · rename_i h
    split
    · rename_i hn
      exact hn ▸ h
    · rfl

theorem sites_eq : p.sites n = (p.table[n]?.getD #[]).toList := by
  rw [sites]
  cases p.table[n]? <;> rfl

theorem sites_empty : sites {} n = [] := by
  rw [sites_eq, Std.HashMap.getElem?_empty]
  rfl

theorem sites_defer :
    (p.defer name site).sites n = if n = name then p.sites n ++ [site] else p.sites n := by
  rw [sites_eq, sites_eq, table_defer]
  by_cases hn : n = name
  · simp [hn]
  · simp [hn]

theorem sites_take : (p.take name).2.sites n = if n = name then [] else p.sites n := by
  rw [sites_eq, sites_eq, table_take]
  by_cases hn : n = name
  · simp [hn]
  · simp [hn]

theorem fst_take : (p.take name).1 = p.sites name := by
  rw [take, sites]
  cases p.table[name]? <;> rfl

end

variable {p : PatchIndex}

theorem mem_table_iff {name : String} : name ∈ p.table ↔ ∃ sites, p.table[name]? = some sites := by
  rw [Std.HashMap.mem_iff_isSome_getElem?, Option.isSome_iff_exists]

namespace InStep

theorem notMem_names (h : p.InStep) {name : String} (hname : p.table[name]? = none) :
    name ∉ p.names := by
  rw [h.mem_names_iff, mem_table_iff, hname]
  simp

theorem names_defer (h : p.InStep) (name : String) (site : Nat) :
    (p.defer name site).names = if name ∈ p.names then p.names else p.names ++ [name] := by
  rw [PatchIndex.defer]
  cases hname : p.table[name]? with
  | some sites =>
    rw [if_pos ((h.mem_names_iff name).mpr (mem_table_iff.mpr ⟨sites, hname⟩))]
    rfl
  | none =>
    rw [if_neg (h.notMem_names hname)]
    exact Array.toList_push

theorem names_take (h : p.InStep) (name : String) :
    (p.take name).2.names = p.names.filter (· != name) := by
  rw [PatchIndex.take]
  cases hname : p.table[name]? with
  | some sites => exact Array.toList_filter
  | none =>
    refine (List.filter_eq_self.mpr fun n hn => ?_).symm
    exact bne_iff_ne.mpr fun he => h.notMem_names hname (he ▸ hn)

/-- What is listed has sites. -/
theorem sites_ne_nil (h : p.InStep) {name : String} (hname : name ∈ p.names) :
    p.sites name ≠ [] := by
  obtain ⟨sites, hsites⟩ := mem_table_iff.mp ((h.mem_names_iff name).mp hname)
  rw [sites_eq, hsites]
  simpa using h.ne_empty name sites hsites

/-- The table is empty exactly if the list is. -/
theorem isEmpty_iff (h : p.InStep) : p.isEmpty = true ↔ p.names = [] := by
  rw [isEmpty, Std.HashMap.isEmpty_iff_forall_not_mem, List.eq_nil_iff_forall_not_mem]
  exact forall_congr' fun name => not_congr (h.mem_names_iff name).symm

/-! ## The collections stay in step -/

/-- A deferral adds a name to both collections, if it was in none. -/
theorem defer (h : p.InStep) (name : String) (site : Nat) : (p.defer name site).InStep where
  nodup := by
    rw [h.names_defer]
    split
    · exact h.nodup
    · rename_i hname
      exact List.nodup_append_comm.mp (List.nodup_cons.mpr ⟨hname, h.nodup⟩)
  mem_names_iff n := by
    rw [h.names_defer, mem_table_iff, table_defer]
    by_cases hn : n = name
    · subst hn
      by_cases hname : n ∈ p.names <;> simp [hname]
    · rw [if_neg hn, ← mem_table_iff, ← h.mem_names_iff]
      split
      · rfl
      · simp [hn]
  ne_empty n sites hsites := by
    rw [table_defer] at hsites
    split at hsites
    · rw [← Option.some.inj hsites]
      exact Array.push_ne_empty
    · exact h.ne_empty n sites hsites

/-- A name that is taken is removed from both. -/
theorem take (h : p.InStep) (name : String) : (p.take name).2.InStep where
  nodup := by
    rw [h.names_take]
    exact h.nodup.filter _
  mem_names_iff n := by
    rw [h.names_take, mem_table_iff, table_take, List.mem_filter, bne_iff_ne]
    by_cases hn : n = name
    · simp [hn]
    · rw [if_neg hn, ← mem_table_iff, ← h.mem_names_iff, and_iff_left hn]
  ne_empty n sites hsites := by
    rw [table_take] at hsites
    split at hsites
    · cases hsites
    · exact h.ne_empty n sites hsites

end InStep

end PatchIndex

end ChunkAsm
