import ChunkAsm.Command.OutputPath
import Mathlib.Data.List.Basic

/-!
# Names of output files

The default output file has the stem of the input for its name, as long as the stem has no extension
of its own. Otherwise this is cut off in turn: the name is made of the **base** of the stem, which
ends before its last dot. So inputs whose stems have the same base get the same output file.

The description is complete. A name is divided by its last dot or not at all (`lastDot_cases`), and
this decides what a stem, its base and the output file are.
-/

namespace ChunkAsm.OutputPath

/-! ## Components -/

/-- What lies between separators holds none. -/
theorem notMem_of_mem_splitOn {c : Char} {cs part : List Char} (h : part ∈ cs.splitOn c) :
    c ∉ part := by
  induction cs generalizing part with
  | nil =>
    rw [List.splitOn_nil, List.mem_singleton] at h
    rw [h]
    exact List.not_mem_nil
  | cons x cs ih =>
    rw [List.splitOn_cons_eq_if_modifyHead] at h
    split at h
    · rcases List.mem_cons.mp h with rfl | h
      · exact List.not_mem_nil
      · exact ih h
    · rename_i hx
      obtain ⟨first, parts, hparts⟩ := List.exists_cons_of_ne_nil (List.splitOn_ne_nil c cs)
      rw [hparts, List.modifyHead_cons] at h
      rcases List.mem_cons.mp h with rfl | h
      · have hfirst : c ∉ first := ih (hparts ▸ List.mem_cons_self)
        rw [List.mem_cons, not_or]
        exact ⟨fun hc => hx (by simp [hc]), hfirst⟩
      · exact ih (hparts ▸ List.mem_cons_of_mem _ h)

/-- A name that could stand between slashes is its own only component. -/
theorem components_eq_singleton {name : String} (hslash : '/' ∉ name.toList) (hempty : name ≠ "")
    (hdot : name ≠ ".") : components name = [name] := by
  rw [components, List.splitOn_eq_singleton hslash]
  simp [hempty, hdot]

theorem fileName?_eq_self {name : String} (hslash : '/' ∉ name.toList) (hempty : name ≠ "")
    (hdot : name ≠ ".") (hup : name ≠ "..") : fileName? name = some name := by
  rw [fileName?, components_eq_singleton hslash hempty hdot]
  exact if_neg hup

/-- A file name is not empty and holds no slash. -/
theorem fileName?_eq_some {path name : String} (h : fileName? path = some name) :
    '/' ∉ name.toList ∧ name ≠ "" := by
  rw [fileName?] at h
  split at h
  · cases h
  · rename_i part hlast
    split at h
    · cases h
    · obtain rfl := Option.some.inj h
      obtain ⟨hmem, hpart⟩ := List.mem_filter.mp (List.mem_of_getLast? hlast)
      obtain ⟨cs, hcs, rfl⟩ := List.mem_map.mp hmem
      rw [String.toList_ofList]
      exact ⟨notMem_of_mem_splitOn hcs, by simpa using (Bool.and_eq_true_iff.mp hpart).1⟩

/-! ## The last dot -/

/-- From its end, a name without dots is passed over. -/
theorem takeWhile_reverse {behind : List Char} (h : '.' ∉ behind) (rest : List Char) :
    (behind.reverse ++ rest).takeWhile (· ≠ '.') = behind.reverse ++ rest.takeWhile (· ≠ '.') := by
  apply List.takeWhile_append_of_pos
  intro c hc
  rw [decide_eq_true_iff]
  rintro rfl
  exact h (List.mem_reverse.mp hc)

theorem splitLastDot?_of_notMem {name : List Char} (h : '.' ∉ name) :
    splitLastDot? name = none := by
  have hbehind : (name.reverse.takeWhile (· ≠ '.')).reverse = name := by
    have hwhole := takeWhile_reverse h []
    rw [List.takeWhile_nil, List.append_nil] at hwhole
    rw [hwhole, List.reverse_reverse]
  rw [splitLastDot?, hbehind]
  simp

theorem splitLastDot?_append {before behind : List Char} (h : '.' ∉ behind) :
    splitLastDot? (before ++ '.' :: behind) =
      if before = [] then none else some (before, behind) := by
  have hbehind : ((before ++ '.' :: behind).reverse.takeWhile (· ≠ '.')).reverse = behind := by
    rw [List.reverse_append, List.reverse_cons, List.append_assoc, takeWhile_reverse h]
    simp
  have hlength : (before ++ '.' :: behind).length - behind.length - 1 = before.length := by
    rw [List.length_append, List.length_cons]
    omega
  rw [splitLastDot?, hbehind, hlength, List.take_left]
  cases before with
  | nil => rfl
  | cons c cs => rfl

theorem splitLastDot?_divided {before behind : List Char} (hbefore : before ≠ [])
    (hbehind : '.' ∉ behind) :
    splitLastDot? (String.ofList (before ++ '.' :: behind)).toList = some (before, behind) := by
  rw [String.toList_ofList, splitLastDot?_append hbehind, if_neg hbefore]

/-- **A name is divided by its last dot**, unless it has none, or only the one at its beginning. -/
theorem lastDot_cases (name : String) :
    (splitLastDot? name.toList = none ∧ '.' ∉ name.toList.tail) ∨
      ∃ before behind, before ≠ [] ∧ '.' ∉ behind ∧
        name = String.ofList (before ++ '.' :: behind) := by
  by_cases hdot : '.' ∈ name.toList
  · obtain ⟨after, before, hsplit, hafter⟩ :=
      List.eq_append_cons_of_mem (List.mem_reverse.mpr hdot)
    have hname : name.toList = before.reverse ++ '.' :: after.reverse := by
      rw [← List.reverse_reverse name.toList, hsplit]
      simp
    have hbehind : '.' ∉ after.reverse := fun h => hafter (List.mem_reverse.mp h)
    by_cases hbefore : before.reverse = []
    · left
      rw [hname, splitLastDot?_append hbehind, if_pos hbefore, hbefore]
      exact ⟨rfl, hbehind⟩
    · exact .inr ⟨_, _, hbefore, hbehind, by rw [← hname, String.ofList_toList]⟩
  · exact .inl ⟨splitLastDot?_of_notMem hdot, fun h => hdot (List.mem_of_mem_tail h)⟩

/-! ## The base of a stem -/

/-- A name up to its last dot, or all of it if it is not divided. -/
def base (name : String) : String :=
  match splitLastDot? name.toList with
  | some (before, _) => String.ofList before
  | none => name

/-- The stem of an input is the base of its file name. -/
theorem fileStem?_eq (path : String) : fileStem? path = (fileName? path).map base := rfl

theorem base_of_undivided {name : String} (h : splitLastDot? name.toList = none) :
    base name = name := by
  rw [base, h]

theorem base_of_divided {before behind : List Char} (hbefore : before ≠ [])
    (hbehind : '.' ∉ behind) :
    base (String.ofList (before ++ '.' :: behind)) = String.ofList before := by
  rw [base, splitLastDot?_divided hbefore hbehind]

/-- **The base is the name** exactly if no dot stands behind its first character. -/
theorem base_eq_self_iff {name : String} : base name = name ↔ '.' ∉ name.toList.tail := by
  rcases lastDot_cases name with ⟨hnone, htail⟩ | ⟨before, behind, hbefore, hbehind, rfl⟩
  · exact iff_of_true (base_of_undivided hnone) htail
  · refine iff_of_false ?_ ?_
    · rw [base_of_divided hbefore hbehind, String.ofList_inj]
      simp
    · rw [String.toList_ofList, List.tail_append_of_ne_nil hbefore]
      simp

/-- A base is not empty and has no slash, if this holds of the name. -/
theorem base_of_fileName {name : String} (hslash : '/' ∉ name.toList) (hempty : name ≠ "") :
    '/' ∉ (base name).toList ∧ base name ≠ "" := by
  rcases lastDot_cases name with ⟨hnone, -⟩ | ⟨before, behind, hbefore, hbehind, rfl⟩
  · rw [base_of_undivided hnone]
    exact ⟨hslash, hempty⟩
  · rw [String.toList_ofList] at hslash
    rw [base_of_divided hbefore hbehind, String.toList_ofList]
    exact ⟨fun h => hslash (List.mem_append_left _ h), by simpa using hbefore⟩

/-- A stem is not empty and has no slash. -/
theorem fileStem?_eq_some {path stem : String} (h : fileStem? path = some stem) :
    '/' ∉ stem.toList ∧ stem ≠ "" := by
  rw [fileStem?_eq] at h
  obtain ⟨name, hname, rfl⟩ := Option.map_eq_some_iff.mp h
  obtain ⟨hslash, hempty⟩ := fileName?_eq_some hname
  exact base_of_fileName hslash hempty

/-! ## The output file of a stem -/

/-- The output file of a stem: its base with the extension, unless the base is a dot, which leads
nowhere and gets no extension. -/
def ofStem (stem : String) : String :=
  if base stem = "." then if stem = "." then "." else ".."
  else base stem ++ ("." ++ extension)

/-- A name that is cut off behind a dot keeps its stem. -/
theorem fileStem?_cut {before : List Char} (hslash : '/' ∉ before) (hbefore : before ≠ [])
    (hdot : before ≠ ['.']) :
    fileStem? (String.ofList (before ++ ['.'])) = some (String.ofList before) := by
  have hname : fileName? (String.ofList (before ++ ['.'])) =
      some (String.ofList (before ++ ['.'])) := by
    apply fileName?_eq_self
    · simpa using hslash
    · simp
    · rw [Ne, ← String.toList_inj, String.toList_ofList]
      simpa using hbefore
    · rw [Ne, ← String.toList_inj, String.toList_ofList]
      exact fun h => hdot ((List.append_left_inj ['.']).mp h)
  rw [fileStem?_eq, hname, Option.map_some, base_of_divided hbefore List.not_mem_nil]

/-- **Replacing the extension** of a name that has no slash. -/
theorem withExtension_eq {stem : String} (hslash : '/' ∉ stem.toList) (hempty : stem ≠ "") :
    withExtension stem extension = ofStem stem := by
  rw [ofStem]
  -- unfolded as it stands, since its equation lemma is expensive
  delta withExtension
  rcases lastDot_cases stem with ⟨hnone, htail⟩ | ⟨before, behind, hbefore, hbehind, rfl⟩
  · -- nothing is cut off
    rw [base_of_undivided hnone]
    simp only [hnone]
    by_cases hdot : stem = "."
    · subst hdot
      decide
    · have hup : stem ≠ ".." := by
        rintro rfl
        exact htail (by decide)
      have hstem : fileStem? stem = some stem := by
        rw [fileStem?_eq, fileName?_eq_self hslash hempty hdot hup, Option.map_some,
          base_of_undivided hnone]
      simp only [hstem]
      rw [if_neg hdot]
      exact String.append_assoc
  · -- the last dot stays, for the new extension
    rw [base_of_divided hbefore hbehind]
    simp only [splitLastDot?_divided hbefore hbehind]
    rw [String.toList_ofList] at hslash
    by_cases hdot : before = ['.']
    · subst hdot
      have hne : String.ofList (['.'] ++ '.' :: behind) ≠ "." := by
        rw [Ne, ← String.toList_inj]
        simp
      have hnone : fileStem? (String.ofList (['.'] ++ ['.'])) = none := by decide
      simp only [hnone]
      rw [if_pos trivial, if_neg hne]
      rfl
    · have hne : String.ofList before ≠ "." := by
        rw [Ne, ← String.toList_inj, String.toList_ofList]
        exact hdot
      have hstem := fileStem?_cut (fun h => hslash (List.mem_append_left _ h)) hbefore hdot
      simp only [hstem]
      rw [if_neg hne]
      exact String.append_assoc

theorem default?_eq {input stem : String} (h : fileStem? input = some stem) :
    default? input = some (ofStem stem) := by
  obtain ⟨hslash, hempty⟩ := fileStem?_eq_some h
  rw [default?, h, Option.map_some, withExtension_eq hslash hempty]

/-- What is shorter than the extension does not end in it. -/
theorem ne_append_extension {short : String} (h : short.length < 5) (name : String) :
    short ≠ name ++ ("." ++ extension) := by
  rintro rfl
  have hlength : (name ++ ("." ++ extension)).length = name.length + 5 := by
    rw [String.length_append]
    rfl
  omega

/-- What has no extension is short. -/
theorem length_dots_lt (stem : String) : (if stem = "." then "." else "..").length < 5 := by
  split <;> decide

/-- **Two stems have the same output file** exactly if they have the same base, and both or neither
are a mere dot. -/
theorem ofStem_eq_iff {s t : String} :
    ofStem s = ofStem t ↔ base s = base t ∧ (s = "." ↔ t = ".") := by
  have hbase : ∀ u : String, base u ≠ "." → u ≠ "." := by
    rintro _ h rfl
    exact h rfl
  rw [ofStem, ofStem]
  by_cases hs : base s = "." <;> by_cases ht : base t = "."
  · -- neither has an extension
    rw [if_pos hs, if_pos ht, hs, ht]
    by_cases hs' : s = "." <;> by_cases ht' : t = "." <;> simp [hs', ht']
  · rw [if_pos hs, if_neg ht]
    exact iff_of_false (ne_append_extension (length_dots_lt s) _) fun h => ht (h.1.symm.trans hs)
  · rw [if_neg hs, if_pos ht]
    exact iff_of_false (ne_append_extension (length_dots_lt t) _).symm fun h => hs (h.1.trans ht)
  · -- the extension is the same and can be dropped
    rw [if_neg hs, if_neg ht, String.append_left_inj]
    exact (and_iff_left (iff_of_false (hbase s hs) (hbase t ht))).symm

/-- Whether the output file of a stem is the stem with the extension: no dot stands behind its first
character, and it is not a dot itself. -/
def Plain (stem : String) : Prop := '.' ∉ stem.toList.tail ∧ stem ≠ "."

instance (stem : String) : Decidable (Plain stem) := inferInstanceAs (Decidable (_ ∧ _))

theorem ofStem_of_plain {stem : String} (h : Plain stem) :
    ofStem stem = stem ++ ("." ++ extension) := by
  have hbase := base_eq_self_iff.mpr h.1
  rw [ofStem, hbase, if_neg h.2]

theorem plain_iff {stem : String} : Plain stem ↔ ofStem stem = stem ++ ("." ++ extension) := by
  refine ⟨ofStem_of_plain, fun h => ?_⟩
  rw [ofStem] at h
  split at h
  · exact absurd h (ne_append_extension (length_dots_lt stem) stem)
  · rename_i hdot
    have hbase : base stem = stem := (String.append_left_inj _).mp h
    exact ⟨base_eq_self_iff.mp hbase, hbase ▸ hdot⟩

/-- **The default output file**, for any input that has a file name. It is the stem of the input
with the extension if and only if the stem is plain. Otherwise the part behind the last dot of the
stem is lost. Two inputs get the same output file exactly if their stems have the same base (a mere
dot apart), so different stems are kept apart if they are plain. -/
theorem default_name_is_stem_iff {input name : String} (hname : fileName? input = some name) :
    ∃ stem, fileStem? input = some stem ∧
      components (stem ++ ".luac") = [stem ++ ".luac"] ∧
      (default? input = some (stem ++ ".luac") ↔ Plain stem) ∧
      default? input = some (ofStem stem) ∧
      ∀ input' stem', fileStem? input' = some stem' →
        (default? input' = default? input ↔
          base stem' = base stem ∧ (stem' = "." ↔ stem = ".")) ∧
        (Plain stem' → Plain stem → (default? input' = default? input ↔ stem' = stem)) := by
  have hstem : fileStem? input = some (base name) := by
    rw [fileStem?_eq, hname, Option.map_some]
  obtain ⟨hslash, hempty⟩ := fileStem?_eq_some hstem
  have hout := default?_eq hstem
  refine ⟨base name, hstem, ?_, ?_, hout, fun input' stem' hstem' => ?_⟩
  · apply components_eq_singleton
    · rw [String.toList_append, List.mem_append, not_or]
      exact ⟨hslash, by decide⟩
    · exact (ne_append_extension (by decide) _).symm
    · exact (ne_append_extension (by decide) _).symm
  · rw [hout, Option.some_inj]
    exact plain_iff.symm
  · rw [default?_eq hstem', hout, Option.some_inj]
    refine ⟨ofStem_eq_iff, fun hplain' hplain => ?_⟩
    rw [ofStem_of_plain hplain', ofStem_of_plain hplain, String.append_left_inj]

/-- An input in another directory, whose name starts with a dot. -/
theorem default_name_is_stem_hidden :
    fileName? "asm/.hello.lasm" = some ".hello.lasm" ∧
      default? "asm/.hello.lasm" = some ".hello.luac" := by
  have hname : fileName? "asm/.hello.lasm" = some ".hello.lasm" := by decide
  have hhello : fileStem? "asm/.hello.lasm" = some ".hello" := by decide
  obtain ⟨stem, hstem, -, hiff, -⟩ := default_name_is_stem_iff hname
  obtain rfl : ".hello" = stem := Option.some.inj (hhello.symm.trans hstem)
  exact ⟨hname, hiff.mpr (by decide)⟩

/-- Two versions of a program, and one output file for both. -/
theorem default_name_loses_version :
    fileStem? "hello.v1.lasm" = some "hello.v1" ∧ default? "hello.v1.lasm" = some "hello.luac" ∧
      fileStem? "hello.v2.lasm" = some "hello.v2" ∧
      default? "hello.v2.lasm" = some "hello.luac" := by
  decide

end ChunkAsm.OutputPath
