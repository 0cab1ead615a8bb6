import ChunkAsm.Proofs.WellLinked
import Mathlib.Data.Nat.Find

/-!
# A limited device receives a prefix

A **device** is whatever answers write calls. All that is known of it are its answers: it may take
some of the bytes, it may fail, and it may interrupt a call, which is then made again. The calls
that were made are its whole state, so an answer may depend on all of them.

Bytes are written by calls, each of which offers what is left, until everything is taken or a call
is **refused**: it takes nothing or fails. If a device takes something in every call up to `k` bytes
in all and refuses calls from then on, it has received the first `k` bytes in the end, however they
were cut into pieces and calls (`Device.Delivers`). The refused call is the last one.

A sink is a device (`Sink.device`), and writing a chunk into it makes the calls that writing to the
device makes (`Program.writeChunk_eq_device`). If a table is too long, what is there to be received
ends before its length.
-/

namespace ChunkAsm

/-! ## Devices -/

/-- Calls by the bytes that they offer, the latest first. -/
abbrev Calls := List (List UInt8)

/-- A device, given by its answers. -/
structure Device where
  /-- the answer to a call that offers some bytes after earlier calls; `none` is an interruption -/
  answer : Calls → List UInt8 → Option SinkAnswer
  /-- a call that is made again and again is answered in the end -/
  patience : ∀ earlier bytes, ∃ n, (answer (List.replicate n bytes ++ earlier) bytes).isSome

namespace Device

variable (d : Device)

/-- What a call brings to the device. -/
def gain (earlier : Calls) (bytes : List UInt8) : List UInt8 :=
  match d.answer earlier bytes with
  | some (.takes n) => bytes.take n
  | _ => []

/-- The bytes that a device has received. -/
def received : Calls → List UInt8
  | [] => []
  | bytes :: earlier => received earlier ++ d.gain earlier bytes

/-- Whether a call is answered without anything being taken. -/
def Refuses (earlier : Calls) (bytes : List UInt8) : Prop :=
  d.answer earlier bytes = some (.takes 0) ∨ d.answer earlier bytes = some .fails

instance (earlier : Calls) (bytes : List UInt8) : Decidable (d.Refuses earlier bytes) :=
  inferInstanceAs (Decidable (_ ∨ _))

/-- How many calls were refused. -/
def refusals : Calls → Nat
  | [] => 0
  | bytes :: earlier => refusals earlier + if d.Refuses earlier bytes then 1 else 0

/-! ## Writing to a device -/

/-- The calls after a call was made as often as it is interrupted. -/
def wait (earlier : Calls) (bytes : List UInt8) : Calls :=
  List.replicate (Nat.find (d.patience earlier bytes)) bytes ++ earlier

/-- The answer that a call gets after its interruptions. -/
def reply (earlier : Calls) (bytes : List UInt8) : SinkAnswer :=
  (d.answer (d.wait earlier bytes) bytes).get (Nat.find_spec (d.patience earlier bytes))

/-- Offer bytes, after `taken` were taken, until everything is taken or a call is refused. The value
is how many bytes were taken. -/
def offer (calls : Calls) (taken : Nat) : List UInt8 → Except SinkError Nat × Calls
  | [] => (.ok taken, calls)
  | b :: rest =>
    let made := (b :: rest) :: d.wait calls (b :: rest)
    match d.reply calls (b :: rest) with
    | .fails => (.error .full, made)
    | .takes 0 => (.ok taken, made)
    | .takes (n + 1) => offer made (taken + (n + 1)) (rest.drop n)
termination_by bytes => bytes.length
decreasing_by simp only [List.length_drop, List.length_cons]; omega

/-- Write bytes, all of which must be taken. -/
def put (calls : Calls) (bytes : List UInt8) : Except SinkError Unit × Calls :=
  match d.offer calls 0 bytes with
  | (.error e, calls) => (.error e, calls)
  | (.ok n, calls) =>
    (if n = bytes.length then .ok () else .error (.shortWrite n bytes.length), calls)

/-- Write pieces one after the other, up to the first that cannot be written. -/
def putAll (calls : Calls) : List Chunk.Piece → Except SinkError Unit × Calls
  | [] => (.ok (), calls)
  | piece :: rest =>
    match d.put calls piece with
    | (.error e, calls) => (.error e, calls)
    | (.ok _, calls) => putAll calls rest

/-- Write a program as a chunk. -/
def writeChunk (p : Program) : Except ChunkError Unit × Calls :=
  match d.putAll [] p.pieces with
  | (.error e, calls) => (.error (.sink e), calls)
  | (.ok _, calls) => (p.verdict, calls)

/-! ## Limited devices -/

/-- A device that takes `k` bytes in all: something in every call until then, and nothing from then
on. -/
structure Limited (k : Nat) : Prop where
  /-- while there is room a call takes something, at most all of it -/
  room : ∀ earlier bytes a, bytes ≠ [] → (d.received earlier).length < k →
    d.answer earlier bytes = some a →
    ∃ n, a = .takes n ∧ 0 < n ∧ n ≤ bytes.length ∧ (d.received earlier).length + n ≤ k
  /-- without room a call is refused -/
  full : ∀ earlier bytes a, bytes ≠ [] → k ≤ (d.received earlier).length →
    d.answer earlier bytes = some a → a = .takes 0 ∨ a = .fails

variable {d}

/-- Interrupted calls leave no bytes and are not refused. -/
theorem wait_spec (earlier : Calls) (bytes : List UInt8) :
    d.received (d.wait earlier bytes) = d.received earlier ∧
      d.refusals (d.wait earlier bytes) = d.refusals earlier := by
  have hpause : ∀ n ≤ Nat.find (d.patience earlier bytes),
      d.received (List.replicate n bytes ++ earlier) = d.received earlier ∧
        d.refusals (List.replicate n bytes ++ earlier) = d.refusals earlier := by
    intro n
    induction n with
    | zero => exact fun _ => ⟨rfl, rfl⟩
    | succ n ih =>
      intro hn
      have hnone : d.answer (List.replicate n bytes ++ earlier) bytes = none := by
        simpa using Nat.find_min (d.patience earlier bytes) hn
      obtain ⟨hr, hs⟩ := ih (Nat.le_of_succ_le hn)
      rw [List.replicate_succ, List.cons_append, received, refusals]
      simp [gain, Refuses, hnone, hr, hs]
  exact hpause _ (Nat.le_refl _)

theorem answer_wait (earlier : Calls) (bytes : List UInt8) :
    d.answer (d.wait earlier bytes) bytes = some (d.reply earlier bytes) :=
  (Option.some_get _).symm

/-- What writing bytes to a limited device does: `Delivers d k calls bytes done calls'` says that
after `calls` the bytes were offered, that all of them were taken exactly if `done`, and that
`calls'` are the calls after that. -/
inductive Delivers (d : Device) (k : Nat) (calls : Calls) (bytes : List UInt8) :
    Bool → Calls → Prop where
  /-- there is room for all of them -/
  | all {calls' : Calls} : (d.received calls).length + bytes.length ≤ k →
    d.received calls' = d.received calls ++ bytes → d.refusals calls' = d.refusals calls →
    Delivers d k calls bytes true calls'
  /-- only the first are taken; the last call is refused, and no call before it -/
  | part {last : List UInt8} {earlier : Calls} : k < (d.received calls).length + bytes.length →
    d.received (last :: earlier) =
      d.received calls ++ bytes.take (k - (d.received calls).length) →
    d.Refuses earlier last → d.refusals earlier = d.refusals calls →
    Delivers d k calls bytes false (last :: earlier)

namespace Delivers

variable {k : Nat} {calls calls' calls'' : Calls} {xs ys : List UInt8} {done : Bool}

/-- Bytes that are all taken can be followed by others. -/
theorem append (h : Delivers d k calls xs true calls') (h' : Delivers d k calls' ys done calls'') :
    Delivers d k calls (xs ++ ys) done calls'' := by
  cases h with
  | all hroom hrec href =>
    have hlen : (d.received calls').length = (d.received calls).length + xs.length := by
      rw [hrec, List.length_append]
    cases h' with
    | all hroom' hrec' href' =>
      refine .all ?_ ?_ (href'.trans href)
      · rw [List.length_append]
        omega
      · rw [hrec', hrec, List.append_assoc]
    | part hfull hrec' hlast href' =>
      refine .part ?_ ?_ hlast (href'.trans href)
      · rw [List.length_append]
        omega
      · have htake : (xs ++ ys).take (k - (d.received calls).length) =
            xs ++ ys.take (k - (d.received calls').length) := by
          rw [List.take_append, List.take_of_length_le (by omega), hlen, Nat.sub_add_eq]
        rw [hrec', hrec, List.append_assoc, htake, hrec]

/-- Bytes that are not all taken are the end. -/
theorem append_right (h : Delivers d k calls xs false calls')
    (hle : (d.received calls).length ≤ k) : Delivers d k calls (xs ++ ys) false calls' := by
  cases h with
  | part hfull hrec hlast href =>
    refine .part ?_ ?_ hlast href
    · rw [List.length_append]
      omega
    · rw [hrec, List.take_append_of_le_length (by omega)]

/-- The capacity is not exceeded. -/
theorem length_le (h : Delivers d k calls xs done calls')
    (hle : (d.received calls).length ≤ k) : (d.received calls').length ≤ k := by
  cases h with
  | all hroom hrec href =>
    rw [hrec, List.length_append]
    exact hroom
  | part hfull hrec hlast href =>
    rw [hrec, List.length_append, List.length_take]
    omega

end Delivers

/-- **One call.** While there is room it takes some of the bytes, and without room it is refused. -/
theorem Limited.call {k : Nat} (h : d.Limited k) {calls : Calls} {bytes : List UInt8}
    (hbytes : bytes ≠ []) (hle : (d.received calls).length ≤ k) :
    (∃ n, d.reply calls bytes = .takes (n + 1) ∧ n + 1 ≤ bytes.length ∧
      d.Delivers k calls (bytes.take (n + 1)) true (bytes :: d.wait calls bytes)) ∨
    ((d.reply calls bytes = .takes 0 ∨ d.reply calls bytes = .fails) ∧
      d.Delivers k calls bytes false (bytes :: d.wait calls bytes)) := by
  obtain ⟨hrec, href⟩ := d.wait_spec calls bytes
  have hanswer := d.answer_wait calls bytes
  have hpos : 0 < bytes.length := List.length_pos_iff.mpr hbytes
  by_cases hroom : (d.received calls).length < k
  · left
    obtain ⟨n, hn, hn0, hnle, hnk⟩ := h.room _ bytes _ hbytes (hrec ▸ hroom) hanswer
    obtain ⟨m, rfl⟩ : ∃ m, n = m + 1 := ⟨n - 1, by omega⟩
    rw [hn] at hanswer
    refine ⟨m, hn, hnle, .all ?_ ?_ ?_⟩
    · rw [List.length_take, Nat.min_eq_left hnle, ← hrec]
      exact hnk
    · rw [received, hrec, gain, hanswer]
    · simp [refusals, href, Refuses, hanswer]
  · right
    have hend : (d.received calls).length = k := by omega
    have hreply := h.full _ bytes _ hbytes (by rw [hrec, hend]) hanswer
    refine ⟨hreply, .part (by omega) ?_ ?_ href⟩
    · rw [received, hrec, gain, hanswer, hend, Nat.sub_self, List.take_zero]
      rcases hreply with ha | ha <;> simp [ha]
    · rw [Refuses, hanswer]
      exact hreply.imp (congrArg some) (congrArg some)

/-- **Offering bytes.** The count is right if all of them are taken, and too small otherwise. -/
theorem Limited.offer {k : Nat} (h : d.Limited k) (calls : Calls) (taken : Nat)
    (bytes : List UInt8) (hle : (d.received calls).length ≤ k) :
    ∃ done, d.Delivers k calls bytes done (d.offer calls taken bytes).2 ∧
      (done = true → (d.offer calls taken bytes).1 = .ok (taken + bytes.length)) ∧
      (done = false → ∀ n, (d.offer calls taken bytes).1 = .ok n → n < taken + bytes.length) := by
  fun_induction d.offer calls taken bytes with
  | case1 calls taken => exact ⟨true, .all hle (List.append_nil _).symm rfl, fun _ => rfl, nofun⟩
  | case2 calls taken b rest made hreply =>
    rcases h.call (List.cons_ne_nil b rest) hle with ⟨n, hn, -⟩ | ⟨-, hpart⟩
    · rw [hreply] at hn
      cases hn
    · exact ⟨false, hpart, nofun, nofun⟩
  | case3 calls taken b rest made hreply =>
    rcases h.call (List.cons_ne_nil b rest) hle with ⟨n, hn, -⟩ | ⟨-, hpart⟩
    · rw [hreply] at hn
      cases hn
    · refine ⟨false, hpart, nofun, ?_⟩
      rintro _ _ ⟨⟩
      exact Nat.lt_add_of_pos_right (Nat.succ_pos _)
  | case4 calls taken b rest made n hreply ih =>
    rcases h.call (List.cons_ne_nil b rest) hle with ⟨m, hm, hmle, hsome⟩ | ⟨hno, -⟩
    · obtain rfl : n = m := by
        rw [hreply] at hm
        exact Nat.succ.inj (SinkAnswer.takes.inj hm)
      obtain ⟨done, hrest, hall, hpart⟩ := ih (hsome.length_le hle)
      have hcount : taken + (n + 1) + (rest.drop n).length = taken + (b :: rest).length := by
        rw [List.length_drop, List.length_cons] at *
        omega
      rw [hcount] at hall hpart
      refine ⟨done, ?_, hall, hpart⟩
      have hbytes := hsome.append hrest
      rwa [List.take_succ_cons, List.cons_append, List.take_append_drop] at hbytes
    · rw [hreply] at hno
      rcases hno with hno | hno <;> cases hno

/-- **Writing bytes** succeeds exactly if all of them are taken. -/
theorem Limited.put {k : Nat} (h : d.Limited k) (calls : Calls) (bytes : List UInt8)
    (hle : (d.received calls).length ≤ k) :
    d.Delivers k calls bytes (d.put calls bytes).1.isOk (d.put calls bytes).2 := by
  obtain ⟨done, hdel, hall, hpart⟩ := h.offer calls 0 bytes hle
  rw [Device.put]
  generalize d.offer calls 0 bytes = result at hdel hall hpart
  obtain ⟨r, calls'⟩ := result
  cases done with
  | true =>
    obtain rfl : r = .ok (0 + bytes.length) := hall rfl
    rw [Nat.zero_add]
    simp only [if_true]
    exact hdel
  | false =>
    cases r with
    | error e => exact hdel
    | ok n =>
      have hn : n ≠ bytes.length := by
        have := hpart rfl n rfl
        omega
      simp only [if_neg hn]
      exact hdel

/-- **Writing pieces** is writing their bytes, however they are cut. -/
theorem Limited.putAll {k : Nat} (h : d.Limited k) (calls : Calls) (pieces : List Chunk.Piece)
    (hle : (d.received calls).length ≤ k) :
    d.Delivers k calls pieces.flatten (d.putAll calls pieces).1.isOk (d.putAll calls pieces).2 := by
  induction pieces generalizing calls with
  | nil => exact .all hle (List.append_nil _).symm rfl
  | cons piece rest ih =>
    have hput := h.put calls piece hle
    rw [Device.putAll, List.flatten_cons]
    generalize d.put calls piece = result at hput
    obtain ⟨_ | u, calls'⟩ := result
    · exact hput.append_right hle
    · exact hput.append (ih calls' (hput.length_le hle))

/-- **A limited device** has received a prefix of the chunk. If there was room for all of it the
result is that of the walk; otherwise it is an error, and of all calls only the last was refused. -/
theorem Limited.writeChunk {k : Nat} (h : d.Limited k) (p : Program) :
    d.received (d.writeChunk p).2 = p.pieces.flatten.take k ∧
      (p.pieces.flatten.length ≤ k →
        (d.writeChunk p).1 = p.verdict ∧ d.refusals (d.writeChunk p).2 = 0) ∧
      (k < p.pieces.flatten.length →
        (∃ e, (d.writeChunk p).1 = .error (.sink e)) ∧
          ∃ last earlier, (d.writeChunk p).2 = last :: earlier ∧ d.Refuses earlier last ∧
            d.refusals earlier = 0) := by
  have hput := h.putAll [] p.pieces (Nat.zero_le _)
  rw [Device.writeChunk]
  generalize d.putAll [] p.pieces = result at hput
  obtain ⟨e | u, calls⟩ := result
  · cases hput with
    | @part last earlier hfull hrec hlast href =>
      simp only [received, List.length_nil, Nat.zero_add] at hfull
      exact ⟨hrec, fun hle => absurd hle (Nat.not_le_of_gt hfull),
        fun _ => ⟨⟨e, rfl⟩, last, earlier, rfl, hlast, href⟩⟩
  · cases hput with
    | all hroom hrec href =>
      simp only [received, List.length_nil, Nat.zero_add] at hroom
      refine ⟨?_, fun _ => ⟨rfl, href⟩, fun hlt => absurd hroom (Nat.not_le_of_gt hlt)⟩
      rw [List.take_of_length_le hroom]
      exact hrec

end Device

/-! ## Sinks are devices -/

namespace Sink

/-- Take bytes. -/
def acceptAll (s : Sink) (bytes : List UInt8) : Sink := bytes.foldl accept s

/-- The sink after a call that offers bytes is answered. -/
def calledWith (s : Sink) (bytes : List UInt8) : Sink :=
  match s.answer bytes.length with
  | .fails => s.called
  | .takes n => s.called.acceptAll (bytes.take n)

/-- The sink after some calls, and how often the next call has been interrupted already. -/
def replay (s : Sink) : Calls → Sink × Nat
  | [] => (s, 0)
  | bytes :: earlier =>
    let (t, waited) := s.replay earlier
    if waited < t.policy.pauses t.calls then (t, waited + 1) else (t.calledWith bytes, 0)

variable {s t : Sink} {calls : Calls} {bytes : List UInt8}

/-- A call that is interrupted leaves the sink as it is. -/
theorem replay_replicate {waited n : Nat} (h : s.replay calls = (t, waited))
    (hn : waited + n ≤ t.policy.pauses t.calls) :
    s.replay (List.replicate n bytes ++ calls) = (t, waited + n) := by
  induction n with
  | zero => exact h
  | succ n ih =>
    rw [List.replicate_succ, List.cons_append, replay, ih (by omega)]
    simp only
    rw [if_pos (by omega), Nat.add_assoc]

/-- A sink as a device. -/
def device (s : Sink) : Device where
  answer earlier bytes :=
    let (t, waited) := s.replay earlier
    if waited < t.policy.pauses t.calls then none else some (t.answer bytes.length)
  patience := by
    intro earlier bytes
    rcases hreplay : s.replay earlier with ⟨t, waited⟩
    refine ⟨t.policy.pauses t.calls - waited, ?_⟩
    by_cases hw : waited ≤ t.policy.pauses t.calls
    · rw [replay_replicate hreplay (by omega)]
      simp only
      rw [if_neg (by omega)]
      rfl
    · rw [Nat.sub_eq_zero_of_le (by omega), List.replicate_zero, List.nil_append, hreplay]
      simp only
      rw [if_neg (by omega)]
      rfl

theorem answer_device {waited : Nat} (h : s.replay calls = (t, waited)) :
    s.device.answer calls bytes =
      if waited < t.policy.pauses t.calls then none else some (t.answer bytes.length) := by
  simp only [device, h]

/-- A call is interrupted as often as the sink has it. -/
theorem wait_device (h : s.replay calls = (t, 0)) :
    s.device.wait calls bytes = List.replicate (t.policy.pauses t.calls) bytes ++ calls := by
  rw [Device.wait]
  congr 2
  refine (Nat.find_eq_iff _).mpr ⟨?_, ?_⟩
  · rw [answer_device (replay_replicate h (Nat.le_of_eq (Nat.zero_add _)))]
    simp
  · intro n hn
    rw [answer_device (replay_replicate (n := n) h (by omega))]
    simp [hn]

/-- Then it is answered as the sink answers it. -/
theorem reply_device (h : s.replay calls = (t, 0)) :
    s.device.reply calls bytes = t.answer bytes.length := by
  have hanswer := s.device.answer_wait calls bytes
  rw [wait_device h, answer_device (replay_replicate h (Nat.le_of_eq (Nat.zero_add _)))] at hanswer
  simpa using hanswer.symm

theorem replay_wait (h : s.replay calls = (t, 0)) :
    s.replay (bytes :: s.device.wait calls bytes) = (t.calledWith bytes, 0) := by
  rw [wait_device h, replay, replay_replicate h (Nat.le_of_eq (Nat.zero_add _))]
  simp

/-! ## Calls instead of quotas -/

theorem answer_le {offered n : Nat} (h : s.answer offered = .takes n) : n ≤ offered := by
  rw [answer] at h
  split at h
  · split at h
    · cases h
    · obtain rfl := SinkAnswer.takes.inj h
      exact Nat.zero_le _
  · obtain rfl := SinkAnswer.takes.inj h
    exact Nat.le_trans (Nat.min_le_left _ _) (Nat.min_le_left _ _)

/-- A quota is used up byte by byte. -/
theorem offerFrom_quota (s : Sink) (quota taken : Nat) (bytes : List UInt8) :
    s.offerFrom quota taken bytes =
      (s.acceptAll (bytes.take quota)).offerFrom 0 (taken + (bytes.take quota).length)
        (bytes.drop quota) := by
  induction bytes generalizing s quota taken with
  | nil => simp [offerFrom, acceptAll]
  | cons b rest ih =>
    cases quota with
    | zero => rfl
    | succ quota =>
      rw [offerFrom, ih (s.accept b) quota (taken + 1), List.take_succ_cons, List.drop_succ_cons,
        List.length_cons, Nat.add_right_comm, Nat.add_assoc]
      rfl

/-- Offering bytes, call by call. -/
theorem offerFrom_cons (s : Sink) (taken : Nat) (b : UInt8) (rest : List UInt8) :
    s.offerFrom 0 taken (b :: rest) =
      match s.answer (rest.length + 1) with
      | .fails => (.error .full, s.calledWith (b :: rest))
      | .takes 0 => (.ok taken, s.calledWith (b :: rest))
      | .takes (n + 1) => (s.calledWith (b :: rest)).offerFrom 0 (taken + (n + 1)) (rest.drop n) := by
  rw [offerFrom, calledWith, List.length_cons]
  cases ha : s.answer (rest.length + 1) with
  | fails => rfl
  | takes n =>
    cases n with
    | zero => rfl
    | succ n =>
      have hn := answer_le ha
      simp only
      rw [offerFrom_quota, List.length_take, Nat.min_eq_left (by omega), Nat.add_right_comm,
        Nat.add_assoc]
      rfl

/-- **Offering bytes to a sink** makes the calls that offering them to the device makes. -/
theorem offer_device (s : Sink) (calls : Calls) (taken : Nat) (bytes : List UInt8) :
    ∀ t, s.replay calls = (t, 0) →
      ∃ t', s.replay (s.device.offer calls taken bytes).2 = (t', 0) ∧
        t.offerFrom 0 taken bytes = ((s.device.offer calls taken bytes).1, t') := by
  fun_induction s.device.offer calls taken bytes with
  | case1 calls taken => exact fun t h => ⟨t, h, rfl⟩
  | case2 calls taken b rest made hreply =>
    intro t h
    rw [reply_device h, List.length_cons] at hreply
    refine ⟨_, replay_wait h, ?_⟩
    rw [offerFrom_cons, hreply]
  | case3 calls taken b rest made hreply =>
    intro t h
    rw [reply_device h, List.length_cons] at hreply
    refine ⟨_, replay_wait h, ?_⟩
    rw [offerFrom_cons, hreply]
  | case4 calls taken b rest made n hreply ih =>
    intro t h
    rw [reply_device h, List.length_cons] at hreply
    obtain ⟨t', ht', hoffer⟩ := ih _ (replay_wait h)
    refine ⟨t', ht', ?_⟩
    rw [offerFrom_cons, hreply]
    exact hoffer

theorem put_device (bytes : List UInt8) (h : s.replay calls = (t, 0)) :
    ∃ t', s.replay (s.device.put calls bytes).2 = (t', 0) ∧
      t.put bytes = ((s.device.put calls bytes).1, t') := by
  obtain ⟨t', ht', hoffer⟩ := offer_device s calls 0 bytes t h
  refine ⟨t', ?_, ?_⟩
  · rw [Device.put]
    rcases ho : s.device.offer calls 0 bytes with ⟨_ | n, calls'⟩ <;> rw [ho] at ht' <;> exact ht'
  · rw [put, offer, hoffer, Device.put]
    rcases s.device.offer calls 0 bytes with ⟨_ | n, calls'⟩ <;> rfl

theorem putAll_device (pieces : List Chunk.Piece) (h : s.replay calls = (t, 0)) :
    ∃ t', s.replay (s.device.putAll calls pieces).2 = (t', 0) ∧
      t.putAll pieces = ((s.device.putAll calls pieces).1, t') := by
  induction pieces generalizing calls t with
  | nil => exact ⟨t, h, rfl⟩
  | cons piece rest ih =>
    obtain ⟨t₁, ht₁, hput⟩ := put_device piece h
    rw [putAll, hput, Device.putAll]
    generalize s.device.put calls piece = result at ht₁
    obtain ⟨_ | u, calls'⟩ := result
    · exact ⟨t₁, ht₁, rfl⟩
    · exact ih ht₁

end Sink

/-- **Writing a chunk into a sink** is writing it to the device that the sink is. -/
theorem Program.writeChunk_eq_device (p : Program) (s : Sink) :
    ∃ t, s.replay (s.device.writeChunk p).2 = (t, 0) ∧
      p.writeChunk s = ((s.device.writeChunk p).1, t) := by
  have hstart : s.replay [] = (s, 0) := rfl
  obtain ⟨t, ht, hput⟩ := Sink.putAll_device p.pieces hstart
  refine ⟨t, ?_, ?_⟩
  · rw [Device.writeChunk]
    rcases hd : s.device.putAll [] p.pieces with ⟨_ | _, calls⟩ <;> rw [hd] at ht <;> exact ht
  · rw [p.writeChunk_eq, hput, Device.writeChunk]
    rcases s.device.putAll [] p.pieces with ⟨_ | _, calls⟩ <;> rfl

/-! ## Limited sinks -/

namespace Sink

/-- A sink that takes `k` bytes in all, some in every call until then. -/
structure Limited (s : Sink) (k : Nat) : Prop where
  /-- it takes `k` bytes in all -/
  capacity : s.policy.capacity = some k
  /-- until then every call takes something -/
  stride : ∀ call, s.policy.stride call ≠ some 0

@[simp] theorem policy_acceptAll (s : Sink) (bytes : List UInt8) :
    (s.acceptAll bytes).policy = s.policy := by
  induction bytes generalizing s with
  | nil => rfl
  | cons b bytes ih => exact ih (s.accept b)

@[simp] theorem attempts_acceptAll (s : Sink) (bytes : List UInt8) :
    (s.acceptAll bytes).attempts = s.attempts := by
  induction bytes generalizing s with
  | nil => rfl
  | cons b bytes ih => exact ih (s.accept b)

@[simp] theorem received_acceptAll (s : Sink) (bytes : List UInt8) :
    (s.acceptAll bytes).received.data.toList = s.received.data.toList ++ bytes := by
  induction bytes generalizing s with
  | nil => exact (List.append_nil _).symm
  | cons b bytes ih =>
    refine (ih (s.accept b)).trans ?_
    simp [accept]

/-- The sink after some calls: its policy is the same, it has received what the device has, and it
has counted the calls, the latest interruptions apart. -/
theorem replay_spec (s : Sink) (calls : Calls) :
    (s.replay calls).1.policy = s.policy ∧
      (s.replay calls).1.received.data.toList =
        s.received.data.toList ++ s.device.received calls ∧
      (s.replay calls).2 ≤ s.policy.pauses (s.replay calls).1.calls ∧
      (s.replay calls).1.attempts + (s.replay calls).2 = s.attempts + calls.length := by
  induction calls with
  | nil => exact ⟨rfl, (List.append_nil _).symm, Nat.zero_le _, rfl⟩
  | cons bytes earlier ih =>
    rcases hreplay : s.replay earlier with ⟨t, waited⟩
    rw [hreplay] at ih
    obtain ⟨hpolicy, hrec, hwait, hatt⟩ := ih
    simp only at hpolicy hrec hwait hatt
    have hanswer : s.device.answer earlier bytes =
        if waited < t.policy.pauses t.calls then none else some (t.answer bytes.length) :=
      answer_device hreplay
    rw [replay, hreplay, Device.received, Device.gain]
    simp only
    rw [hpolicy] at hanswer ⊢
    by_cases hw : waited < s.policy.pauses t.calls
    · rw [if_pos hw] at hanswer ⊢
      rw [hanswer]
      refine ⟨hpolicy, ?_, hw, ?_⟩
      · simpa using hrec
      · simp only [List.length_cons]
        omega
    · rw [if_neg hw] at hanswer ⊢
      rw [hanswer, calledWith]
      have hcalled : t.called.attempts = t.attempts + waited + 1 := by
        rw [called, hpolicy]
        simp only
        omega
      cases t.answer bytes.length with
      | fails =>
        refine ⟨hpolicy, ?_, Nat.zero_le _, ?_⟩
        · simpa [called] using hrec
        · simp only [List.length_cons, hcalled]
          omega
      | takes n =>
        refine ⟨by simpa [called] using hpolicy, ?_, Nat.zero_le _, ?_⟩
        · simp [called, hrec]
        · simp only [List.length_cons, attempts_acceptAll, hcalled]
          omega

/-- **A limited sink is a limited device.** -/
theorem Limited.device {s : Sink} {k : Nat} (h : s.Limited k) (hempty : s.received = .empty) :
    s.device.Limited k := by
  -- what the sink answers after some calls, unless it interrupts the next one
  have hsink : ∀ earlier bytes a, s.device.answer earlier bytes = some a →
      ∃ t : Sink, t.policy = s.policy ∧ t.received.size = (s.device.received earlier).length ∧
        a = t.answer bytes.length := by
    intro earlier bytes a ha
    obtain ⟨hpolicy, hrec, -, -⟩ := s.replay_spec earlier
    rcases hreplay : s.replay earlier with ⟨t, waited⟩
    rw [hreplay] at hpolicy hrec
    rw [answer_device hreplay] at ha
    split at ha
    · cases ha
    · refine ⟨t, hpolicy, ?_, (Option.some.inj ha).symm⟩
      have hlen := congrArg List.length hrec
      simpa [hempty] using hlen
  constructor
  · intro earlier bytes a hbytes hroom ha
    obtain ⟨t, hpolicy, hsize, rfl⟩ := hsink earlier bytes a ha
    have hpos : 0 < bytes.length := List.length_pos_iff.mpr hbytes
    have hopen : t.isFull = false := by
      rw [isFull, hpolicy, h.capacity]
      exact decide_eq_false (by omega)
    have hstride : 0 < (s.policy.stride t.calls).getD bytes.length := by
      cases hs : s.policy.stride t.calls with
      | none => exact hpos
      | some n =>
        refine Nat.pos_of_ne_zero ?_
        rintro rfl
        exact h.stride _ hs
    have hanswer : t.answer bytes.length =
        .takes (min (min bytes.length ((s.policy.stride t.calls).getD bytes.length))
          (k - t.received.size)) := by
      simp [answer, hopen, hpolicy, h.capacity]
    exact ⟨_, hanswer, by omega, by omega, by omega⟩
  · intro earlier bytes a hbytes hfull ha
    obtain ⟨t, hpolicy, hsize, rfl⟩ := hsink earlier bytes a ha
    have hclosed : t.isFull = true := by
      rw [isFull, hpolicy, h.capacity]
      exact decide_eq_true (by omega)
    cases hf : s.policy.failsWhenFull with
    | true => exact .inr (by simp [answer, hclosed, hpolicy, hf])
    | false => exact .inl (by simp [answer, hclosed, hpolicy, hf])

end Sink

/-- With an unbounded sink everything is written. -/
theorem Program.writeChunk_of_unbounded (p : Program) {s s' : Sink}
    {r : Except ChunkError Unit} (hs : s.Unbounded) (hempty : s.received = .empty)
    (h : p.writeChunk s = (r, s')) :
    s'.received.data.toList = p.pieces.flatten ∧ r = p.verdict := by
  obtain ⟨t, hput⟩ := hs.putAll p.pieces
  rw [p.writeChunk_eq, hput] at h
  obtain ⟨rfl, rfl⟩ := Prod.mk.inj h
  refine ⟨?_, rfl⟩
  rw [Sink.putAll_eq_ok hput, hempty]
  rfl

/-- **A limited device receives a prefix.** Let `r` be the result of writing a program into an
unbounded sink, and `s'` that sink afterwards. A device that takes `k` bytes in all has received the
first of the bytes in `s'`, as many as it takes. If it takes all of them, the result is `r`;
otherwise, whatever `r` is, the device is at fault, and the call that it refused is the last of all
calls and the only one that was refused. A limited sink is such a device: writing into it has the
same result, leaves the same bytes in it and makes as many calls. If a table is too long, `r` says
so, and the bytes in `s'` end before its length. -/
theorem limited_device_receives_prefix {p : Program} {u u' : Sink} {r : Except ChunkError Unit}
    (hu : u.Unbounded) (hempty : u.received = .empty) (hw : p.writeChunk u = (r, u')) (k : Nat) :
    (∀ d : Device, d.Limited k →
      d.received (d.writeChunk p).2 =
        u'.received.data.toList.take (min k u'.received.size) ∧
      (u'.received.size ≤ k → (d.writeChunk p).1 = r ∧ d.refusals (d.writeChunk p).2 = 0) ∧
      (k < u'.received.size →
        (∃ e, (d.writeChunk p).1 = .error (.sink e)) ∧
          ∃ last earlier, (d.writeChunk p).2 = last :: earlier ∧ d.Refuses earlier last ∧
            d.refusals earlier = 0)) ∧
    (∀ s : Sink, s.Limited k → s.received = .empty →
      s.device.Limited k ∧
      (p.writeChunk s).1 = (s.device.writeChunk p).1 ∧
      (p.writeChunk s).2.received.data.toList = s.device.received (s.device.writeChunk p).2 ∧
      (p.writeChunk s).2.attempts = s.attempts + (s.device.writeChunk p).2.length) ∧
    ∀ before table n after, p.parts = before ++ .count table n :: after →
      Chunk.oversize? before = none → 2147483648 ≤ n →
      r = .error (.tooLarge ⟨table, n⟩) ∧
        u'.received.data.toList = p.preamble.flatten ++ Chunk.bytes before := by
  obtain ⟨hbytes, rfl⟩ := p.writeChunk_of_unbounded hu hempty hw
  have hsize : u'.received.size = p.pieces.flatten.length := by
    rw [← hbytes, Array.length_toList]
    rfl
  refine ⟨?_, ?_, ?_⟩
  · intro d hd
    obtain ⟨hrec, hall, hpart⟩ := hd.writeChunk p
    rw [hbytes, hsize, ← List.take_eq_take_min]
    exact ⟨hrec, hall, hpart⟩
  · intro s hs hfresh
    obtain ⟨t, ht, hwrite⟩ := p.writeChunk_eq_device s
    obtain ⟨-, hrec, -, hatt⟩ := s.replay_spec (s.device.writeChunk p).2
    rw [ht, hfresh] at hrec
    rw [ht] at hatt
    rw [hwrite]
    exact ⟨hs.device hfresh, rfl, hrec, hatt⟩
  · intro before table n after hparts hbefore hn
    obtain ⟨hfound, hpieces⟩ := Chunk.oversize?_split hbefore hn table after
    rw [← hparts] at hfound hpieces
    refine ⟨Program.verdict_of_oversize? hfound, ?_⟩
    cases hm : p.main? with
    | none => simp [Program.parts, Program.unfolding, hm] at hparts
    | some f => rw [hbytes, Program.pieces, hm, List.flatten_append, hpieces]

/-- A main function with a subroutine that refers to a function which is not there. -/
def danglingProgram : Program where
  upvalueCount := 1
  functions :=
    [("main", { name := "main", header := ⟨2, 0, .vararg⟩, subroutines := #["inner"] }),
      ("inner", { name := "inner", header := ⟨1, 1, .fixed⟩, subroutines := #["gone"] })]

/-- A main function with `n` instructions. -/
def longProgram (n : Nat) : Program where
  upvalueCount := 1
  functions :=
    [("main", { name := "main", header := ⟨2, 0, .fixed⟩,
                words := Array.replicate n (Word.ofOpcode .ret) })]

/-- The number of the instructions comes after 50 bytes. -/
theorem longProgram_parts (n : Nat) :
    ∃ before after, (longProgram n).parts = before ++ .count "instructions" n :: after ∧
      Chunk.oversize? before = none ∧
      ((longProgram n).preamble.flatten ++ Chunk.bytes before).length = 50 := by
  let start := Chunk.string (Bytes.utf8 "main") ++
    [Bytes.int32 0, Bytes.int32 0, [0], [0], [2]]
  obtain ⟨after, hparts⟩ : ∃ after, (longProgram n).parts = start.map .piece ++
      .count "instructions" (Array.replicate n (Word.ofOpcode .ret)).size :: after := ⟨_, rfl⟩
  rw [Array.size_replicate] at hparts
  refine ⟨_, after, hparts, Chunk.oversize?_map_piece _, ?_⟩
  rw [Chunk.bytes_map_piece]
  rfl

/-- A sink that takes three bytes in a call, interrupts every call twice and fails once it has taken
`k` bytes. -/
def narrowSink (k : Nat) : Sink where
  policy := { capacity := some k, stride := fun _ => some 3, pauses := fun _ => 2,
              failsWhenFull := true }

/-- Writing the program comes to 66 bytes and then to the missing function. If the sink takes 40
bytes only, this is not reported; if it takes 66, it is. A main function with 2147483648
instructions comes to 50 bytes and then to their number, which is too large. -/
theorem limited_device_receives_prefix_narrow :
    (danglingProgram.writeChunk {}).1 = .error (.link (.missingSubroutine "inner" "gone")) ∧
    (danglingProgram.writeChunk {}).2.received.size = 66 ∧
    (∃ e, (danglingProgram.writeChunk (narrowSink 40)).1 = .error (.sink e)) ∧
    (danglingProgram.writeChunk (narrowSink 40)).2.received.data.toList =
      (danglingProgram.writeChunk {}).2.received.data.toList.take 40 ∧
    (danglingProgram.writeChunk (narrowSink 66)).1 =
      .error (.link (.missingSubroutine "inner" "gone")) ∧
    ((longProgram 2147483648).writeChunk {}).2.received.size = 50 ∧
    (∃ e, ((longProgram 2147483648).writeChunk (narrowSink 49)).1 = .error (.sink e)) ∧
    ((longProgram 2147483648).writeChunk (narrowSink 50)).1 =
      .error (.tooLarge ⟨"instructions", 2147483648⟩) := by
  have hfree : ({} : Sink).Unbounded := ⟨rfl, nofun⟩
  have hlimited : ∀ k, (narrowSink k).Limited k := fun k => ⟨rfl, nofun⟩
  -- what the theorem says of a narrow sink
  have hnarrow (p : Program) (n k : Nat) (hn : (p.writeChunk {}).2.received.size = n) :
      (p.writeChunk (narrowSink k)).2.received.data.toList =
        (p.writeChunk {}).2.received.data.toList.take (min k n) ∧
      (n ≤ k → (p.writeChunk (narrowSink k)).1 = (p.writeChunk {}).1) ∧
      (k < n → ∃ e, (p.writeChunk (narrowSink k)).1 = .error (.sink e)) := by
    obtain ⟨hdevice, hsink, -⟩ := limited_device_receives_prefix hfree rfl (Prod.eta _).symm k
    obtain ⟨hlim, hsame, hbytes, -⟩ := hsink (narrowSink k) (hlimited k) rfl
    obtain ⟨hrec, hall, hpart⟩ := hdevice _ hlim
    rw [hn] at hrec hall hpart
    rw [hsame, hbytes]
    exact ⟨hrec, fun h => (hall h).1, fun h => (hpart h).1⟩
  have hresult : (danglingProgram.writeChunk {}).1 =
      .error (.link (.missingSubroutine "inner" "gone")) := by
    rfl
  have hsize : (danglingProgram.writeChunk {}).2.received.size = 66 := by decide +kernel
  have hlong (n : Nat) (hn : 2147483648 ≤ n) :
      ((longProgram n).writeChunk {}).1 = .error (.tooLarge ⟨"instructions", n⟩) ∧
        ((longProgram n).writeChunk {}).2.received.size = 50 := by
    obtain ⟨before, after, hparts, hbefore, hlen⟩ := longProgram_parts n
    obtain ⟨-, -, hlarge⟩ := limited_device_receives_prefix hfree rfl (Prod.eta _).symm 0
    obtain ⟨herror, hbytes⟩ := hlarge _ _ _ _ hparts hbefore hn
    rw [← hbytes, Array.length_toList] at hlen
    exact ⟨herror, hlen⟩
  obtain ⟨herror, hlength⟩ := hlong 2147483648 (Nat.le_refl _)
  refine ⟨hresult, hsize, (hnarrow _ _ 40 hsize).2.2 (by decide), (hnarrow _ _ 40 hsize).1, ?_,
    hlength, (hnarrow _ _ 49 hlength).2.2 (by decide), ?_⟩
  · rw [(hnarrow _ _ 66 hsize).2.1 (Nat.le_refl _), hresult]
  · rw [(hnarrow _ _ 50 hlength).2.1 (Nat.le_refl _), herror]

end ChunkAsm
