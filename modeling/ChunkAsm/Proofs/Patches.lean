import ChunkAsm.Patches

/-!
# Buckets are found by name

`Patches.sites` is what is seen of the buckets, and each operation has one equation for it.
-/

namespace ChunkAsm.Patches

variable (p : Patches) (name : String) (site : Nat)

/-- A deferred site comes last in its bucket, and the other buckets stay. -/
theorem sites_defer (n : String) :
    (p.defer name site).sites n = if n = name then p.sites n ++ [site] else p.sites n := by
  obtain ⟨buckets⟩ := p
  simp only [defer, sites]
  induction buckets with
  | nil =>
    by_cases hn : n = name
    · simp [deferIn, hn]
    · simp [deferIn, hn, Ne.symm hn]
  | cons b rest ih =>
    rw [deferIn]
    by_cases hb : b.name = name
    · rw [if_pos hb]
      by_cases hn : n = name
      · simp [hn, hb]
      · simp [hn, hb, Ne.symm hn]
    · rw [if_neg hb]
      by_cases hbn : b.name = n
      · have hn : n ≠ name := fun h => hb (hbn.trans h)
        simp [hbn, hn]
      · simp only [List.find?_cons_of_neg (p := fun b : Bucket => b.name == n) (by simpa using hbn)]
        exact ih

/-- What several names that one site is deferred for leave in a bucket. -/
theorem sites_foldl_defer (names : List String) (n : String) :
    (names.foldl (fun p name => p.defer name site) p).sites n =
      p.sites n ++ List.replicate (names.count n) site := by
  induction names generalizing p with
  | nil => simp
  | cons name names ih =>
    rw [List.foldl_cons, ih, sites_defer]
    by_cases hn : n = name
    · subst hn
      rw [if_pos rfl, List.count_cons_self, List.replicate_succ, List.append_assoc,
        List.singleton_append]
    · rw [if_neg hn, List.count_cons_of_ne (Ne.symm hn)]

theorem sites_erase (n : String) :
    (p.erase name).sites n = if n = name then [] else p.sites n := by
  obtain ⟨buckets⟩ := p
  simp only [erase, sites]
  by_cases hn : n = name
  · have hnone : (buckets.filter fun b => b.name != name).find? (·.name == n) = none := by
      simp [hn]
    rw [hnone, if_pos hn]
  · have hsame : (buckets.filter fun b => b.name != name).find? (·.name == n) =
        buckets.find? (·.name == n) := by
      rw [List.find?_filter]
      congr 1
      funext b
      by_cases hb : b.name = n
      · simp [hb, hn]
      · simp [hb]
    rw [hsame, if_neg hn]

theorem mem_sites_erase {p : Patches} {name n : String} {site : Nat} :
    site ∈ (p.erase name).sites n ↔ n ≠ name ∧ site ∈ p.sites n := by
  rw [sites_erase]
  by_cases hn : n = name
  · simp [hn]
  · simp [hn]

/-- Nothing waits for anything if no name is waited for. -/
theorem sites_of_names_eq_nil (h : p.names = []) (n : String) : p.sites n = [] := by
  obtain ⟨buckets⟩ := p
  obtain rfl : buckets = [] := List.map_eq_nil_iff.mp h
  rfl

/-! ## All buckets together -/

/-- The sites of all buckets, one bucket after the other. -/
def allSites (p : Patches) : List Nat := p.buckets.flatMap fun b => b.sites.toList

theorem map_name_deferIn (buckets : List Bucket) :
    (deferIn name site buckets).map Bucket.name =
      if name ∈ buckets.map Bucket.name then buckets.map Bucket.name
      else buckets.map Bucket.name ++ [name] := by
  induction buckets with
  | nil => simp [deferIn]
  | cons b rest ih =>
    rw [deferIn]
    by_cases hb : b.name = name
    · simp [hb]
    · rw [if_neg hb, List.map_cons, List.map_cons, ih]
      by_cases hn : name ∈ rest.map Bucket.name
      · rw [if_pos hn, if_pos (List.mem_cons_of_mem _ hn)]
      · rw [if_neg hn, if_neg fun h => (List.mem_cons.mp h).elim (Ne.symm hb) hn, List.cons_append]

/-- A deferred name is listed once, in the place of its first deferral. -/
theorem names_defer :
    (p.defer name site).names = if name ∈ p.names then p.names else p.names ++ [name] :=
  map_name_deferIn name site p.buckets

/-- A deferral adds one site. -/
theorem perm_allSites_defer : (p.defer name site).allSites.Perm (site :: p.allSites) := by
  obtain ⟨buckets⟩ := p
  simp only [defer, allSites]
  induction buckets with
  | nil => simp [deferIn]
  | cons b rest ih =>
    rw [deferIn]
    by_cases hb : b.name = name
    · simp [hb]
    · simp only [if_neg hb, List.flatMap_cons]
      exact (ih.append_left _).trans List.perm_middle

theorem names_erase : (p.erase name).names = p.names.filter (· != name) := by
  rw [erase, names, names, List.filter_map]
  rfl

variable {p name site}

theorem nodup_names_defer (h : p.names.Nodup) : (p.defer name site).names.Nodup := by
  rw [names_defer]
  split
  · exact h
  · rename_i hn
    rw [List.nodup_append]
    refine ⟨h, by simp, ?_⟩
    rintro n hmem _ hsingle rfl
    exact hn (List.mem_singleton.mp hsingle ▸ hmem)

/-- The names after one site is deferred for several. -/
theorem mem_names_foldl_defer {names : List String} {n : String} :
    n ∈ (names.foldl (fun p name => p.defer name site) p).names ↔ n ∈ p.names ∨ n ∈ names := by
  induction names generalizing p with
  | nil => simp
  | cons name names ih =>
    rw [List.foldl_cons, ih, names_defer, List.mem_cons]
    by_cases hname : name ∈ p.names
    · rw [if_pos hname]
      constructor
      · exact Or.imp_right .inr
      · rintro (h | rfl | h)
        · exact .inl h
        · exact .inl hname
        · exact .inr h
    · rw [if_neg hname, List.mem_append, List.mem_singleton, or_assoc]

theorem nodup_names_foldl_defer (names : List String) (h : p.names.Nodup) :
    (names.foldl (fun p name => p.defer name site) p).names.Nodup := by
  induction names generalizing p with
  | nil => exact h
  | cons name names ih => exact ih (nodup_names_defer h)

/-- If no two buckets have the same name, every bucket is found under its name. -/
theorem sites_of_mem_buckets (h : p.names.Nodup) {b : Bucket} (hb : b ∈ p.buckets) :
    p.sites b.name = b.sites.toList := by
  obtain ⟨buckets⟩ := p
  obtain ⟨before, after, rfl⟩ := List.append_of_mem hb
  have hbefore : before.find? (·.name == b.name) = none := by
    rw [List.find?_eq_none]
    intro b' hb' hname
    simp only [names, List.map_append, List.map_cons, List.nodup_append] at h
    exact h.2.2 _ (List.mem_map_of_mem hb') _ List.mem_cons_self (eq_of_beq hname)
  simp [sites, List.find?_append, hbefore]

/-- If no two buckets have the same name, what waits at all waits for a name. -/
theorem exists_of_mem_allSites (h : p.names.Nodup) (hs : site ∈ p.allSites) :
    ∃ n ∈ p.names, site ∈ p.sites n := by
  obtain ⟨b, hb, hsite⟩ := List.mem_flatMap.mp hs
  refine ⟨b.name, List.mem_map_of_mem hb, ?_⟩
  rw [sites_of_mem_buckets h hb]
  exact hsite

end ChunkAsm.Patches
