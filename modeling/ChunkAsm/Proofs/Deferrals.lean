import ChunkAsm.Proofs.PatchIndex
import ChunkAsm.Proofs.Patches
import ChunkAsm.Proofs.Repetitions

/-!
# Buckets as a log

What waits can be described without buckets, by a **log** of the deferrals that have not been taken.
A deferral is written at its end, and taking a name crosses out every entry of that name.

Of a log can be asked: its names, each once and in the order of their first entries, and for each
name the sites of its entries (`DeferralLog.Shown`). Buckets in a list show this, and so do a list
of names and a table that are kept in step. Every call keeps it up, so it holds after any calls in
any order. A name that is deferred again after it was taken has lost its place, in the log as in the
others: all put it at the end.
-/

namespace ChunkAsm

/-- A call that changes what waits. -/
inductive PatchCall where
  /-- let an instruction wait for a name -/
  | defer (name : String) (site : Nat)
  /-- take what waits for a name -/
  | take (name : String)
  deriving DecidableEq, Repr

/-- The deferrals that have not been taken, in order. -/
structure DeferralLog where
  /-- the name and the site of each -/
  entries : List (String × Nat) := []
  deriving DecidableEq, Repr

namespace DeferralLog

/-- The sites that are deferred for a name, in order. -/
def sites (log : DeferralLog) (name : String) : List Nat :=
  (log.entries.filter fun e => e.1 == name).map Prod.snd

/-- The name of every entry, in order. -/
def mentions (log : DeferralLog) : List String := log.entries.map Prod.fst

/-- The log after a call. -/
def call (log : DeferralLog) : PatchCall → DeferralLog
  | .defer name site => ⟨log.entries ++ [(name, site)]⟩
  | .take name => ⟨log.entries.filter fun e => e.1 != name⟩

/-- The log after calls, from an empty one. -/
def after (calls : List PatchCall) : DeferralLog := calls.foldl call {}

variable (log : DeferralLog) (name : String) (site : Nat)

theorem sites_call_defer (n : String) :
    (log.call (.defer name site)).sites n =
      if n = name then log.sites n ++ [site] else log.sites n := by
  rw [sites, call, List.filter_append, List.map_append, ← sites]
  by_cases hn : n = name
  · simp [hn]
  · simp [hn, Ne.symm hn]

theorem sites_call_take (n : String) :
    (log.call (.take name)).sites n = if n = name then [] else log.sites n := by
  rw [sites, call, List.filter_filter, sites]
  by_cases hn : n = name
  · rw [if_pos hn, List.map_eq_nil_iff, List.filter_eq_nil_iff]
    intro e _
    simp [hn]
  · rw [if_neg hn]
    congr 2
    funext e
    by_cases he : e.1 = n
    · simp [he, hn]
    · simp [he]

theorem mentions_call_defer : (log.call (.defer name site)).mentions = log.mentions ++ [name] := by
  rw [mentions, call, List.map_append, ← mentions]
  rfl

theorem mentions_call_take :
    (log.call (.take name)).mentions = log.mentions.filter (· != name) := by
  rw [mentions, mentions, call, List.filter_map]
  rfl

/-- The names that are mentioned are those that something waits for. -/
theorem mem_mentions {log : DeferralLog} {name : String} :
    name ∈ log.mentions ↔ log.sites name ≠ [] := by
  rw [mentions, sites, Ne, List.map_eq_nil_iff, List.filter_eq_nil_iff, List.mem_map]
  simp

theorem eraseDups_mentions_eq_nil_iff {log : DeferralLog} :
    log.mentions.eraseDups = [] ↔ log.entries = [] := by
  simp only [List.eq_nil_iff_forall_not_mem, List.mem_eraseDups]
  rw [← List.eq_nil_iff_forall_not_mem, ← List.eq_nil_iff_forall_not_mem, mentions,
    List.map_eq_nil_iff]

/-- Names and sites show a log: each of its names once, in order of first mention, with its
sites. -/
structure Shown (log : DeferralLog) (names : List String) (sites : String → List Nat) : Prop where
  names : names = log.mentions.eraseDups
  sites : ∀ name, sites name = log.sites name

namespace Shown

variable {log : DeferralLog} {names names' : List String} {sites sites' : String → List Nat}
  {name : String} {site : Nat}

/-- A deferral is shown by one more site, and by one more name unless that is there. -/
theorem defer (h : log.Shown names sites)
    (hnames : names' = if name ∈ names then names else names ++ [name])
    (hsites : ∀ n, sites' n = if n = name then sites n ++ [site] else sites n) :
    (log.call (.defer name site)).Shown names' sites' where
  names := by
    rw [hnames, h.names, mentions_call_defer, eraseDups_concat]
    simp only [List.mem_eraseDups]
    split
    · exact (List.append_nil _).symm
    · rfl
  sites n := by rw [hsites, sites_call_defer, h.sites]

/-- Taking a name is shown without it and without its sites. -/
theorem take (h : log.Shown names sites) (hnames : names' = names.filter (· != name))
    (hsites : ∀ n, sites' n = if n = name then [] else sites n) :
    (log.call (.take name)).Shown names' sites' where
  names := by rw [hnames, h.names, mentions_call_take, eraseDups_filter]
  sites n := by rw [hsites, sites_call_take, h.sites]

theorem nodup (h : log.Shown names sites) : names.Nodup := h.names ▸ nodup_eraseDups _

theorem pairwise_idxOf (h : log.Shown names sites) :
    names.Pairwise fun m n => log.mentions.idxOf m < log.mentions.idxOf n :=
  h.names ▸ pairwise_idxOf_eraseDups _

theorem sites_ne_nil (h : log.Shown names sites) (hname : name ∈ names) : sites name ≠ [] := by
  rw [h.names, List.mem_eraseDups, mem_mentions] at hname
  rwa [h.sites]

theorem names_eq_nil_iff (h : log.Shown names sites) : names = [] ↔ log.entries = [] := by
  rw [h.names, eraseDups_mentions_eq_nil_iff]

end Shown

end DeferralLog

namespace Patches

/-- The patches after a call. -/
def call (p : Patches) : PatchCall → Patches
  | .defer name site => p.defer name site
  | .take name => (p.take name).2

/-- The patches after calls, from empty ones. -/
def after (calls : List PatchCall) : Patches := calls.foldl call {}

/-- **One call** on the patches is the same call on the log. -/
theorem shown_call {p : Patches} {log : DeferralLog} (h : log.Shown p.names p.sites)
    (c : PatchCall) : (log.call c).Shown (p.call c).names (p.call c).sites := by
  cases c with
  | defer name site => exact h.defer (p.names_defer name site) (p.sites_defer name site)
  | take name => exact h.take (p.names_erase name) (p.sites_erase name)

/-- **Any calls** on the patches are the same calls on the log. -/
theorem shown_after (calls : List PatchCall) :
    (DeferralLog.after calls).Shown (after calls).names (after calls).sites :=
  List.foldl_rel (r := fun log p => DeferralLog.Shown log (names p) (sites p))
    ⟨rfl, fun _ => rfl⟩ fun c _ _ _ h => shown_call h c

theorem isEmpty_iff (p : Patches) : p.isEmpty = true ↔ p.names = [] := by
  rw [isEmpty, List.isEmpty_iff, names, List.map_eq_nil_iff]

end Patches

namespace PatchIndex

/-- The two collections after a call. -/
def call (p : PatchIndex) : PatchCall → PatchIndex
  | .defer name site => p.defer name site
  | .take name => (p.take name).2

/-- The two collections after calls, from empty ones. -/
def after (calls : List PatchCall) : PatchIndex := calls.foldl call {}

/-- **One call** keeps the collections in step, and is the same call on the log. -/
theorem shown_call {p : PatchIndex} {log : DeferralLog}
    (h : p.InStep ∧ log.Shown p.names p.sites) (c : PatchCall) :
    (p.call c).InStep ∧ (log.call c).Shown (p.call c).names (p.call c).sites := by
  obtain ⟨hstep, hshown⟩ := h
  cases c with
  | defer name site =>
    exact ⟨hstep.defer name site,
      hshown.defer (hstep.names_defer name site) (p.sites_defer name site)⟩
  | take name =>
    exact ⟨hstep.take name, hshown.take (hstep.names_take name) (p.sites_take name)⟩

/-- **Any calls** keep the collections in step, and are the same calls on the log. -/
theorem shown_after (calls : List PatchCall) :
    (after calls).InStep ∧
      (DeferralLog.after calls).Shown (after calls).names (after calls).sites :=
  List.foldl_rel (r := fun log p => InStep p ∧ DeferralLog.Shown log (names p) (sites p))
    ⟨inStep_empty, rfl, sites_empty⟩ fun c _ _ _ h => shown_call h c

end PatchIndex

/-- **Patches are a log of deferrals.** After any sequence of calls, the names that something waits
for are those in the log of what was deferred and not taken, each once, in the order of their first
entries; what waits for a name, and what is taken with it, are the sites of its entries, in order.
No name is listed that nothing waits for, and nothing waits exactly if the log is empty. All this is
also true of the list of names and the table of sites, which stay in step. -/
theorem patches_refine_log (calls : List PatchCall) :
    ((Patches.after calls).names = (DeferralLog.after calls).mentions.eraseDups ∧
    ((Patches.after calls).names.Pairwise fun m n =>
      (DeferralLog.after calls).mentions.idxOf m < (DeferralLog.after calls).mentions.idxOf n) ∧
    (∀ name, (Patches.after calls).sites name = (DeferralLog.after calls).sites name ∧
      (Patches.after calls).take name =
        ((DeferralLog.after calls).sites name, Patches.after (calls ++ [.take name]))) ∧
    (Patches.after calls).names.Nodup ∧
    (∀ name ∈ (Patches.after calls).names, (Patches.after calls).sites name ≠ []) ∧
    ((Patches.after calls).isEmpty = true ↔ (DeferralLog.after calls).entries = [])) ∧
    (PatchIndex.after calls).InStep ∧
    (PatchIndex.after calls).names = (DeferralLog.after calls).mentions.eraseDups ∧
    ((PatchIndex.after calls).names.Pairwise fun m n =>
      (DeferralLog.after calls).mentions.idxOf m < (DeferralLog.after calls).mentions.idxOf n) ∧
    (∀ name, (PatchIndex.after calls).sites name = (DeferralLog.after calls).sites name ∧
      (PatchIndex.after calls).take name =
        ((DeferralLog.after calls).sites name, PatchIndex.after (calls ++ [.take name]))) ∧
    (PatchIndex.after calls).names.Nodup ∧
    (∀ name ∈ (PatchIndex.after calls).names, (PatchIndex.after calls).sites name ≠ []) ∧
    ((PatchIndex.after calls).isEmpty = true ↔ (DeferralLog.after calls).entries = []) := by
  have h := Patches.shown_after calls
  obtain ⟨hstep, hindex⟩ := PatchIndex.shown_after calls
  constructor
  · refine ⟨h.names, h.pairwise_idxOf, fun name => ⟨h.sites name, ?_⟩, h.nodup,
      fun name => h.sites_ne_nil, (Patches.isEmpty_iff _).trans h.names_eq_nil_iff⟩
    rw [Patches.after, Patches.after, List.foldl_append, ← Patches.after, ← h.sites]
    rfl
  · refine ⟨hstep, hindex.names, hindex.pairwise_idxOf, fun name => ⟨hindex.sites name, ?_⟩,
      hstep.nodup, fun name => hstep.sites_ne_nil, hstep.isEmpty_iff.trans hindex.names_eq_nil_iff⟩
    rw [PatchIndex.after, PatchIndex.after, List.foldl_append, ← PatchIndex.after, ← hindex.sites,
      ← PatchIndex.fst_take]
    rfl

/-- A name that is taken and deferred again comes last. -/
example :
    (Patches.after [.defer "f" 1, .defer "g" 2, .defer "f" 3, .take "f", .defer "f" 4]).names =
      ["g", "f"] := by
  decide

end ChunkAsm
