import ChunkAsm.Link
import ChunkAsm.Proofs.Fields
import ChunkAsm.Proofs.Operands
import ChunkAsm.Proofs.Patches

/-!
# What linking stores

A function that can be linked gets as protos the functions that its subroutines name, in order. Every
instruction that waits for a subroutine gets the number of it in `Bx`; nothing else changes.
-/

namespace ChunkAsm

/-- Storing the same value again changes nothing. -/
theorem Word.set_set {w w₁ w₂ : Word} {f : Field} {v : Int} (h₁ : w.set f v = .ok w₁)
    (h₂ : w₁.set f v = .ok w₂) : w₂ = w₁ := by
  obtain ⟨hf, rfl⟩ := set_eq_ok.mp h₁
  obtain ⟨-, rfl⟩ := set_eq_ok.mp h₂
  exact store_store w f hf.toNat_lt

namespace Program

variable {p : Program}

theorem setProto_spec {index site : Nat} {words words' : Array Word}
    (h : setProto index words site = .ok words') :
    words'.size = words.size ∧ ∀ i w, words[i]? = some w → ∃ w', words'[i]? = some w' ∧
      if i = site then w.set .bx index = .ok w' else w' = w := by
  rw [setProto] at h
  split at h
  · rename_i v hv
    obtain ⟨v', hset, h⟩ := bind_eq_ok.mp h
    obtain rfl := Except.ok.inj h
    refine ⟨by simp, ?_⟩
    intro i w hw
    by_cases hi : i = site
    · subst hi
      obtain rfl := Option.some.inj (hv.symm.trans hw)
      obtain ⟨hlt, -⟩ := Array.getElem?_eq_some_iff.mp hw
      exact ⟨v', by simp [hlt], by rw [if_pos rfl]; exact hset⟩
    · refine ⟨w, ?_, by rw [if_neg hi]⟩
      rw [Array.getElem?_setIfInBounds_ne (Ne.symm hi), hw]
  · rename_i hnone
    obtain rfl := Except.ok.inj h
    refine ⟨rfl, ?_⟩
    intro i w hw
    refine ⟨w, hw, ?_⟩
    rw [if_neg]
    rintro rfl
    rw [hnone] at hw
    cases hw

/-- Storing the number of one proto in the instructions that wait for it. -/
theorem foldlM_setProto_spec {index : Nat} {sites : List Nat} {words words' : Array Word}
    (h : sites.foldlM (setProto index) words = .ok words') :
    words'.size = words.size ∧ ∀ i w, words[i]? = some w → ∃ w', words'[i]? = some w' ∧
      if i ∈ sites then w.set .bx index = .ok w' else w' = w := by
  induction sites generalizing words with
  | nil =>
    obtain rfl := Except.ok.inj h
    exact ⟨rfl, fun i w hw => ⟨w, hw, by simp⟩⟩
  | cons site sites ih =>
    rw [List.foldlM_cons] at h
    obtain ⟨words₁, h₁, h⟩ := bind_eq_ok.mp h
    obtain ⟨hsize₁, hone⟩ := setProto_spec h₁
    obtain ⟨hsize, hrest⟩ := ih h
    refine ⟨hsize.trans hsize₁, ?_⟩
    intro i w hw
    obtain ⟨w₁, hw₁, hset₁⟩ := hone i w hw
    obtain ⟨w', hw', hset'⟩ := hrest i w₁ hw₁
    refine ⟨w', hw', ?_⟩
    by_cases hi : i = site
    · rw [if_pos hi] at hset₁
      rw [if_pos (List.mem_cons.mpr (.inl hi))]
      by_cases hin : i ∈ sites
      · rw [if_pos hin] at hset'
        rw [Word.set_set hset₁ hset']
        exact hset₁
      · rw [if_neg hin] at hset'
        rw [hset']
        exact hset₁
    · rw [if_neg hi] at hset₁
      subst hset₁
      by_cases hin : i ∈ sites
      · rw [if_pos hin] at hset'
        rw [if_pos (List.mem_cons_of_mem _ hin)]
        exact hset'
      · rw [if_neg hin] at hset'
        rw [if_neg (by simp [hi, hin])]
        exact hset'

/-- Inversion for one step of linking: the first subroutine is there, and the rest is linked after
its number is stored. -/
theorem linkFrom_cons_eq_ok {caller name : String} {index : Nat} {sites : Patches}
    {words words' : Array Word} {protos protos' : Array Function} {rest : List String}
    (h : p.linkFrom caller index sites words protos (name :: rest) = .ok (words', protos')) :
    ∃ sub words₁, p.function? name = some sub ∧
      (sites.sites name).foldlM (setProto index) words = .ok words₁ ∧
      p.linkFrom caller (index + 1) (sites.erase name) words₁ (protos.push sub) rest =
        .ok (words', protos') := by
  rw [linkFrom] at h
  split at h
  · cases h
  · rename_i sub hsub
    split at h
    · cases h
    · rename_i words₁ hwords
      exact ⟨sub, words₁, hsub, hwords, h⟩

/-- The protos that linking adds are the functions that the subroutines name, in order. -/
theorem linkFrom_protos {caller : String} {index : Nat} {sites : Patches}
    {words words' : Array Word} {protos protos' : Array Function} {names : List String}
    (h : p.linkFrom caller index sites words protos names = .ok (words', protos')) :
    ∃ subs, protos'.toList = protos.toList ++ subs ∧
      List.Forall₂ (fun name sub => p.function? name = some sub) names subs := by
  induction names generalizing index sites words protos with
  | nil =>
    obtain ⟨-, rfl⟩ := Prod.mk.inj (Except.ok.inj h)
    exact ⟨[], by simp, .nil⟩
  | cons name rest ih =>
    obtain ⟨sub, words₁, hsub, -, h⟩ := linkFrom_cons_eq_ok h
    obtain ⟨subs, hprotos, hall⟩ := ih h
    refine ⟨sub :: subs, ?_, .cons hsub hall⟩
    rw [hprotos, Array.toList_push, List.append_assoc, List.singleton_append]

/-- Linking keeps the number of words. -/
theorem linkFrom_size {caller : String} {index : Nat} {sites : Patches}
    {words words' : Array Word} {protos protos' : Array Function} {names : List String}
    (h : p.linkFrom caller index sites words protos names = .ok (words', protos')) :
    words'.size = words.size := by
  induction names generalizing index sites words protos with
  | nil =>
    obtain ⟨rfl, -⟩ := Prod.mk.inj (Except.ok.inj h)
    rfl
  | cons name rest ih =>
    obtain ⟨sub, words₁, -, hwords, h⟩ := linkFrom_cons_eq_ok h
    exact (ih h).trans (foldlM_setProto_spec hwords).1

/-- **What linking stores.** An instruction that waits for one subroutine, which is linked once,
gets the number of it. An instruction that waits for none stays. -/
theorem linkFrom_words {caller : String} {index : Nat} {sites : Patches}
    {words words' : Array Word} {protos protos' : Array Function} {names : List String}
    (h : p.linkFrom caller index sites words protos names = .ok (words', protos'))
    (hnames : names.Nodup) {i : Nat} {w : Word} (hw : words[i]? = some w)
    (hone : ∀ n n', i ∈ sites.sites n → i ∈ sites.sites n' → n = n') :
    ∃ w', words'[i]? = some w' ∧
      (∀ k name, names[k]? = some name → i ∈ sites.sites name →
        w.set .bx ((index + k : Nat) : Int) = .ok w') ∧
      ((∀ name ∈ names, i ∉ sites.sites name) → w' = w) := by
  induction names generalizing index sites words protos w with
  | nil =>
    obtain ⟨rfl, -⟩ := Prod.mk.inj (Except.ok.inj h)
    exact ⟨w, hw, nofun, fun _ => rfl⟩
  | cons first rest ih =>
    obtain ⟨sub, words₁, -, hfold, h⟩ := linkFrom_cons_eq_ok h
    obtain ⟨hfirst, hrest⟩ := List.nodup_cons.mp hnames
    obtain ⟨w₁, hw₁, hset⟩ := (foldlM_setProto_spec hfold).2 i w hw
    obtain ⟨w', hw', hstored, hkept⟩ := ih h hrest hw₁ fun n n' hn hn' =>
      hone n n' (Patches.mem_sites_erase.mp hn).2 (Patches.mem_sites_erase.mp hn').2
    refine ⟨w', hw', ?_, ?_⟩
    · intro k name hk hi
      cases k with
      | zero =>
        -- the number is stored now, and what is left has nothing for this instruction
        obtain rfl := Option.some.inj hk
        rw [if_pos hi] at hset
        rw [hkept fun n _ hn => (Patches.mem_sites_erase.mp hn).1
          (hone n first (Patches.mem_sites_erase.mp hn).2 hi)]
        exact hset
      | succ k =>
        have hne : name ≠ first := by
          rintro rfl
          exact hfirst (List.mem_of_getElem? hk)
        rw [if_neg fun hi' => hne (hone name first hi hi')] at hset
        rw [← hset, Nat.add_comm k 1, ← Nat.add_assoc]
        exact hstored k name hk (Patches.mem_sites_erase.mpr ⟨hne, hi⟩)
    · intro hno
      rw [if_neg (hno first List.mem_cons_self)] at hset
      rw [← hset]
      exact hkept fun n hn hi =>
        hno n (List.mem_cons_of_mem _ hn) (Patches.mem_sites_erase.mp hi).2

/-- Inversion for `link`. -/
theorem link_eq_ok {f : Function} {l : Linked} (h : p.link f = .ok l) :
    l.function = f ∧
      p.linkFrom f.name 0 f.protoSites f.words #[] f.subroutines.toList =
        .ok (l.words, l.protos) := by
  obtain ⟨⟨words, protos⟩, hfrom, h⟩ := bind_eq_ok.mp h
  obtain rfl := Except.ok.inj h
  exact ⟨rfl, hfrom⟩

/-- **Protos.** The protos of a function are the functions that its subroutines name, in order. -/
theorem link_protos {f : Function} {l : Linked} (h : p.link f = .ok l) :
    List.Forall₂ (fun name sub => p.function? name = some sub) f.subroutines.toList
      l.protos.toList := by
  obtain ⟨subs, hprotos, hall⟩ := linkFrom_protos (link_eq_ok h).2
  rw [hprotos]
  exact hall

/-- The proto with a given number is the function that the subroutine with this number names. -/
theorem link_getElem?_protos {f : Function} {l : Linked} (h : p.link f = .ok l) {k : Nat}
    {name : String} (hk : f.subroutines.toList[k]? = some name) :
    ∃ g, l.protos[k]? = some g ∧ p.function? name = some g := by
  have hprotos := link_protos h
  obtain ⟨hlt, rfl⟩ := List.getElem?_eq_some_iff.mp hk
  have hlt' : k < l.protos.toList.length := hprotos.length_eq ▸ hlt
  refine ⟨l.protos.toList[k], ?_, hprotos.get hlt hlt'⟩
  rw [← Array.getElem?_toList, List.getElem?_eq_getElem hlt']

theorem link_size {f : Function} {l : Linked} (h : p.link f = .ok l) :
    l.words.size = f.words.size :=
  linkFrom_size (link_eq_ok h).2

/-- **Words.** The instructions of a linked function, one by one. -/
theorem link_words {f : Function} {l : Linked} (h : p.link f = .ok l)
    (hnames : f.subroutines.toList.Nodup) {i : Nat} {w : Word} (hw : f.words[i]? = some w)
    (hone : ∀ n n', i ∈ f.protoSites.sites n → i ∈ f.protoSites.sites n' → n = n') :
    ∃ w', l.words[i]? = some w' ∧
      (∀ (k : Nat) name, f.subroutines.toList[k]? = some name → i ∈ f.protoSites.sites name →
        w.set .bx k = .ok w') ∧
      ((∀ name ∈ f.subroutines.toList, i ∉ f.protoSites.sites name) → w' = w) := by
  obtain ⟨w', hw', hstored, hkept⟩ := linkFrom_words (link_eq_ok h).2 hnames hw hone
  refine ⟨w', hw', ?_, hkept⟩
  intro k name hk hi
  have hset := hstored k name hk hi
  rwa [Nat.zero_add] at hset

end Program

end ChunkAsm
