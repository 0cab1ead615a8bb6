import ChunkAsm.Assemble
import ChunkAsm.Chunk.Write

/-!
# Line endings

A line ends in a line feed, or in a carriage return and a line feed, and the last line need not end
at all. Nothing else depends on it: however the lines of a text end, it gives the same program or
the same error, with the same line number.

* A text is cut at bytes, not at characters. In UTF-8 a byte below 128 is a character of its own
  (`Source.eq_ofNat_of_mem`), so the cuts are at line feeds of the text.
* A carriage return that is put in front of a line feed is dropped with it, as the line has none of
  its own (`Source.splitFrom_withReturns`).
* A line feed at the end completes the last line. If that was complete already there is one more
  line, which is empty and does nothing (`Assembly.run_concat_empty`).
-/

namespace ChunkAsm

namespace Source

/-! ## Texts with carriage returns -/

/-- Put a carriage return in front of chosen line feeds, the first of which has the number `n`. -/
def withReturns (chosen : Nat → Bool) (n : Nat) : List Char → List Char
  | [] => []
  | c :: cs =>
    if c = '\n' then
      (if chosen n then ['\r', '\n'] else ['\n']) ++ withReturns chosen (n + 1) cs
    else c :: withReturns chosen n cs

/-- A text with a carriage return in front of the line feeds with chosen numbers. -/
def respell (chosen : Nat → Bool) (text : String) : String :=
  String.ofList (withReturns chosen 0 text.toList)

/-! ## Characters and bytes -/

/-- The bytes of characters. -/
def encode (cs : List Char) : List UInt8 := cs.flatMap String.utf8EncodeChar

theorem utf8_eq_encode (text : String) : Bytes.utf8 text = encode text.toList := by
  rw [Bytes.utf8, String.toUTF8_eq_toByteArray, ← String.utf8Encode_toList, List.utf8Encode,
    List.data_toByteArray, List.toList_toArray]
  rfl

/-- A byte below 128 is a character of its own. -/
theorem eq_ofNat_of_mem {c : Char} {b : UInt8} (h : b ∈ String.utf8EncodeChar c)
    (hb : b.toNat < 128) : c = Char.ofNat b.toNat := by
  simp only [String.utf8EncodeChar] at h
  split at h
  · obtain rfl := List.mem_singleton.mp h
    rw [UInt8.toNat_ofNat', Nat.mod_eq_of_lt (by omega)]
    exact (Char.ofNat_toNat c).symm
  · -- every byte of any other character is at least 128
    exfalso
    have hhigh : ∀ n, 128 ≤ n → n < 256 → b ≠ UInt8.ofNat n := by
      rintro n hn hlt rfl
      rw [UInt8.toNat_ofNat'] at hb
      omega
    split at h
    · simp only [List.mem_cons, List.not_mem_nil, or_false] at h
      rcases h with h | h <;> exact hhigh _ (by omega) (by omega) h
    · split at h
      · simp only [List.mem_cons, List.not_mem_nil, or_false] at h
        rcases h with h | h | h <;> exact hhigh _ (by omega) (by omega) h
      · simp only [List.mem_cons, List.not_mem_nil, or_false] at h
        rcases h with h | h | h | h <;> exact hhigh _ (by omega) (by omega) h

theorem lineFeed_notMem {c : Char} (h : c ≠ '\n') : 10 ∉ String.utf8EncodeChar c := fun hmem =>
  h (eq_ofNat_of_mem hmem (by decide))

theorem return_notMem {c : Char} (h : c ≠ '\r') : 13 ∉ String.utf8EncodeChar c := fun hmem =>
  h (eq_ofNat_of_mem hmem (by decide))

theorem return_notMem_encode {cs : List Char} (h : '\r' ∉ cs) : 13 ∉ encode cs := by
  intro hmem
  obtain ⟨c, hc, hbyte⟩ := List.mem_flatMap.mp hmem
  refine return_notMem ?_ hbyte
  rintro rfl
  exact h hc

/-! ## Cutting -/

/-- What has no line feed belongs to the line at hand. -/
theorem splitFrom_append {bytes : List UInt8} (h : 10 ∉ bytes) (done : List (List UInt8))
    (line rest : List UInt8) :
    splitFrom done line (bytes ++ rest) = splitFrom done (bytes.reverse ++ line) rest := by
  induction bytes generalizing line with
  | nil => rfl
  | cons b bytes ih =>
    obtain ⟨hb, hbytes⟩ := not_or.mp (mt List.mem_cons.mpr h)
    rw [List.cons_append, splitFrom, if_neg (Ne.symm hb), ih hbytes]
    simp

theorem withoutReturn_of_notMem {line : List UInt8} (h : 13 ∉ line) :
    withoutReturn line = line.reverse := by
  rw [withoutReturn]
  intro line' hline
  exact h (hline ▸ List.mem_cons_self)

/-- **Carriage returns before line feeds** are not seen, if there are no others. -/
theorem splitFrom_withReturns (chosen : Nat → Bool) {cs : List Char} (hcs : '\r' ∉ cs) (n : Nat)
    (done : List (List UInt8)) {line : List UInt8} (hline : 13 ∉ line) (rest : List UInt8) :
    splitFrom done line (encode (withReturns chosen n cs) ++ rest) =
      splitFrom done line (encode cs ++ rest) := by
  induction cs generalizing n done line with
  | nil => rfl
  | cons c cs ih =>
    obtain ⟨hc, hcs⟩ := not_or.mp (mt List.mem_cons.mpr hcs)
    rw [withReturns]
    split
    · rename_i hfeed
      rw [hfeed]
      have hnext := ih hcs (n + 1) (withoutReturn line :: done) List.not_mem_nil
      split
      · -- the line at hand has no other carriage return, and loses this one
        have hsame : withoutReturn (13 :: line) = withoutReturn line :=
          (withoutReturn_of_notMem hline).symm
        change splitFrom (withoutReturn (13 :: line) :: done) [] _ = _
        rw [hsame]
        exact hnext
      · exact hnext
    · rename_i hfeed
      have hbytes := lineFeed_notMem hfeed
      have hline' : 13 ∉ (String.utf8EncodeChar c).reverse ++ line := by
        rw [List.mem_append, List.mem_reverse, not_or]
        exact ⟨return_notMem (Ne.symm hc), hline⟩
      rw [encode, encode, List.flatMap_cons, List.flatMap_cons, List.append_assoc,
        List.append_assoc, splitFrom_append hbytes, splitFrom_append hbytes]
      exact ih hcs n done hline'

/-- A line feed at the end completes the last line, or adds an empty one. -/
theorem splitFrom_concat {bytes : List UInt8} (h : 13 ∉ bytes) (done : List (List UInt8))
    {line : List UInt8} (hline : 13 ∉ line) :
    splitFrom done line (bytes ++ [10]) = splitFrom done line bytes ∨
      splitFrom done line (bytes ++ [10]) = splitFrom done line bytes ++ [[]] := by
  induction bytes generalizing done line with
  | nil =>
    cases line with
    | nil => exact .inr (List.reverse_cons)
    | cons b line =>
      left
      change (withoutReturn (b :: line) :: done).reverse = _
      rw [withoutReturn_of_notMem hline]
      rfl
  | cons b bytes ih =>
    obtain ⟨hb, hbytes⟩ := not_or.mp (mt List.mem_cons.mpr h)
    rw [List.cons_append, splitFrom, splitFrom]
    split
    · exact ih hbytes _ List.not_mem_nil
    · exact ih hbytes _ (mt List.mem_cons.mp (not_or.mpr ⟨hb, hline⟩))

end Source

namespace Assembly

/-- **An empty line at the end** does nothing. -/
theorem run_concat_empty (strict : Bool) (log : List Log.Event) (n : Nat) (a : Assembler)
    (ls : List (Except ReadError String)) :
    run strict log n a (ls ++ [.ok ""]) = run strict log n a ls := by
  induction ls generalizing log n a with
  | nil => rfl
  | cons l ls ih =>
    cases l with
    | error e => rfl
    | ok line =>
      rw [List.cons_append, run, run]
      split
      · rfl
      · exact ih _ _ _

/-- What the lines of a text give does not depend on their ends. -/
theorem ofText_respell (strict : Bool) {text : String} (h : '\r' ∉ text.toList)
    (chosen : Nat → Bool) {final : String} (hfinal : final = "" ∨ final = "\n") :
    ofText strict (Source.respell chosen text ++ final) = ofText strict text := by
  have hbytes : Bytes.utf8 (Source.respell chosen text ++ final) =
      Source.encode (Source.withReturns chosen 0 text.toList) ++ Source.encode final.toList := by
    rw [Source.utf8_eq_encode, String.toList_append, Source.respell, String.toList_ofList,
      Source.encode, List.flatMap_append]
    rfl
  have hsplit : Source.split (Bytes.utf8 (Source.respell chosen text ++ final)) =
      Source.split (Source.encode text.toList ++ Source.encode final.toList) := by
    rw [hbytes]
    exact Source.splitFrom_withReturns chosen h 0 [] List.not_mem_nil _
  rw [ofText, ofBytes, Source.lines, hsplit, ofText, ofBytes, Source.lines, Source.utf8_eq_encode]
  rcases hfinal with rfl | rfl
  · exact congrArg (fun bytes => ofLines strict ((Source.split bytes).map Source.decode))
      (List.append_nil _)
  · have hfeed : Source.encode "\n".toList = [10] := rfl
    rw [hfeed]
    rcases Source.splitFrom_concat (Source.return_notMem_encode h) [] List.not_mem_nil with hs | hs
    · exact congrArg (fun ls => ofLines strict (ls.map Source.decode)) hs
    · have hlast : (Source.split (Source.encode text.toList ++ [10])).map Source.decode =
          (Source.split (Source.encode text.toList)).map Source.decode ++ [.ok ""] := by
        rw [Source.split, hs, List.map_append]
        rfl
      rw [hlast]
      exact run_concat_empty strict [] 1 {} _

/-- Assemble a text and write the chunk: its bytes, or what stops it. -/
def chunkOfText (strict : Bool) (text : String) : Except (SourceError ⊕ ChunkError) ByteArray :=
  match (ofText strict text).result with
  | .error e => .error (.inl e)
  | .ok p =>
    match p.writeChunk {} with
    | (.error e, _) => .error (.inr e)
    | (.ok _, s) => .ok s.received

end Assembly

/-- **Line endings do not matter.** Let a text have no carriage returns. Put one in front of any of
its line feeds, and a line feed at its end or not: the text gives the same chunk, or the same error
with the same line number, and the same log. -/
theorem line_endings_insignificant (strict : Bool) {text : String} (h : '\r' ∉ text.toList)
    (chosen : Nat → Bool) {final : String} (hfinal : final = "" ∨ final = "\n") :
    Assembly.chunkOfText strict (Source.respell chosen text ++ final) =
      Assembly.chunkOfText strict text ∧
    Assembly.ofText strict (Source.respell chosen text ++ final) = Assembly.ofText strict text := by
  have htext := Assembly.ofText_respell strict h chosen hfinal
  refine ⟨?_, htext⟩
  rw [Assembly.chunkOfText, Assembly.chunkOfText, htext]

/-- A text with an empty line, in which the fourth line is rejected. -/
def rejectedText : String := ".upvalues 0\n\n.func main 2 0 0\nreturn %0 1"

/-- A text that is accepted, and ends in a line feed. -/
def acceptedText : String := ".upvalues 0\n.func main 2 0 0\n.begin_code\nreturn %0 1\n.end_code\n"

/-- With a carriage return in the third line and a line feed at the end, the fourth line is still
the one that is rejected. With carriage returns in all lines and an empty line at the end, the other
text is still accepted. -/
theorem line_endings_insignificant_mixed :
    (Assembly.ofText true ".upvalues 0\n\n.func main 2 0 0\r\nreturn %0 1\n").result =
      .error (.parse (some 4) (.outsideSegment .function)) ∧
    (Assembly.chunkOfText true (Source.respell (fun _ => true) acceptedText ++ "\n")).isOk =
      true := by
  have hspelled : Source.respell (fun n => n == 2) rejectedText ++ "\n" =
      ".upvalues 0\n\n.func main 2 0 0\r\nreturn %0 1\n" := by
    decide +kernel
  have hrejected : (Assembly.ofText true rejectedText).result =
      .error (.parse (some 4) (.outsideSegment .function)) := by
    rfl
  have haccepted : (Assembly.chunkOfText true acceptedText).isOk = true := by
    decide +kernel
  constructor
  · rw [← hspelled, (line_endings_insignificant true (by decide +kernel) _ (.inr rfl)).2, hrejected]
  · rw [(line_endings_insignificant true (by decide +kernel) _ (.inr rfl)).1, haccepted]

end ChunkAsm
