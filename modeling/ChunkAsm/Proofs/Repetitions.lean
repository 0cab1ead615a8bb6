import Mathlib.Data.List.Basic
import Mathlib.Data.List.Induction

/-!
# Lists without repetitions

Of a list in which things are said more than once, the first of each is kept. What is kept stands in
the order of first use, and a selection can be made before or after.
-/

namespace ChunkAsm

variable {α : Type}

/-- One more element is kept if none of those that are kept before it is the same. -/
theorem eraseDupsBy_concat (r : α → α → Bool) (xs : List α) (x : α) :
    (xs ++ [x]).eraseDupsBy r =
      xs.eraseDupsBy r ++ if (xs.eraseDupsBy r).any (r x) then [] else [x] := by
  have hloop : ∀ (xs kept : List α), List.eraseDupsBy.loop r (xs ++ [x]) kept =
      List.eraseDupsBy.loop r xs kept ++
        if (List.eraseDupsBy.loop r xs kept).any (r x) then [] else [x] := by
    intro xs
    induction xs with
    | nil =>
      intro kept
      rw [List.nil_append, List.eraseDupsBy.loop, List.eraseDupsBy.loop, List.any_reverse]
      cases kept.any (r x) <;> simp [List.eraseDupsBy.loop]
    | cons y ys ih =>
      intro kept
      rw [List.cons_append, List.eraseDupsBy.loop, List.eraseDupsBy.loop]
      cases kept.any (r y) with
      | true => exact ih kept
      | false => exact ih (y :: kept)
  exact hloop xs []

/-- No two elements that are kept are the same. -/
theorem pairwise_eraseDupsBy (r : α → α → Bool) (xs : List α) :
    (xs.eraseDupsBy r).Pairwise fun x y => r y x = false := by
  induction xs using List.reverseRecOn with
  | nil => exact .nil
  | append_singleton xs x ih =>
    rw [eraseDupsBy_concat]
    split
    · rwa [List.append_nil]
    · rename_i hany
      refine List.pairwise_append.mpr ⟨ih, List.pairwise_singleton _ _, ?_⟩
      rintro y hy _ hx
      obtain rfl := List.mem_singleton.mp hx
      simpa using fun h => hany (List.any_eq_true.mpr ⟨y, hy, h⟩)

variable [BEq α] [LawfulBEq α]

theorem eraseDups_concat (xs : List α) (x : α) :
    (xs ++ [x]).eraseDups = xs.eraseDups ++ if x ∈ xs then [] else [x] := by
  rw [List.eraseDups, eraseDupsBy_concat, ← List.eraseDups]
  congr 2
  rw [← List.mem_eraseDups (l := xs)]
  simp

theorem nodup_eraseDups (xs : List α) : xs.eraseDups.Nodup := by
  refine (pairwise_eraseDupsBy _ xs).imp ?_
  intro x y h
  exact Ne.symm (by simpa using h)

/-- What is kept stands in the order of first use. -/
theorem pairwise_idxOf_eraseDups (xs : List α) :
    xs.eraseDups.Pairwise fun x y => xs.idxOf x < xs.idxOf y := by
  induction xs using List.reverseRecOn with
  | nil => exact .nil
  | append_singleton xs x ih =>
    have hold : xs.eraseDups.Pairwise fun y z => (xs ++ [x]).idxOf y < (xs ++ [x]).idxOf z := by
      refine ih.imp_of_mem ?_
      intro y z hy hz hlt
      rwa [List.idxOf_append_of_mem (List.mem_eraseDups.mp hy),
        List.idxOf_append_of_mem (List.mem_eraseDups.mp hz)]
    rw [eraseDups_concat]
    split
    · rwa [List.append_nil]
    · rename_i hx
      refine List.pairwise_append.mpr ⟨hold, List.pairwise_singleton _ _, ?_⟩
      rintro y hy _ hmem
      obtain rfl := List.mem_singleton.mp hmem
      have hy : y ∈ xs := List.mem_eraseDups.mp hy
      rw [List.idxOf_append_of_mem hy, List.idxOf_append_of_notMem hx]
      exact Nat.lt_add_right _ (List.idxOf_lt_length_of_mem hy)

/-- Repetitions can be dropped before or after a selection. -/
theorem eraseDups_filter (q : α → Bool) (xs : List α) :
    (xs.filter q).eraseDups = xs.eraseDups.filter q := by
  induction xs using List.reverseRecOn with
  | nil => rfl
  | append_singleton xs x ih =>
    rw [List.filter_append, eraseDups_concat, List.filter_append, ← ih]
    cases hq : q x with
    | false =>
      split <;> simp [hq]
    | true =>
      rw [List.filter_singleton, hq, cond_true, eraseDups_concat]
      by_cases hx : x ∈ xs
      · simp [hx, hq]
      · simp [hx, hq]

end ChunkAsm
