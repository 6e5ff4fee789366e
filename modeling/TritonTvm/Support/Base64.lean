import TritonTvm.Lib.Outcome

/-!
# Base64 streams

`Base64OutStream` encodes three bytes as four characters, and `Base64InStream` decodes them. Both
keep the part of a group that a call leaves over. What C++ does not check is a fault here: an index
outside of the table, and a write without room for it.
-/
namespace TritonTvm.Support.Base64

open TritonTvm.Lib List Nat

inductive Fault where
  | invalidFormat
  /-- an index outside of `DecodeTable` -/
  | outOfTable (index : Int)
  /-- a write behind the end of the caller's buffer -/
  | overrun
  /-- a write behind the end of `buf_prev` -/
  | tooManyPending
  deriving DecidableEq

def decodeTable : List Nat :=
  replicate 43 0 ++ [62] ++ replicate 3 0 ++ [63] ++ range' 52 10 ++ replicate 7 0 ++ range 26 ++
    replicate 6 0 ++ range' 26 26

def decode (ch : Int) : Except Fault Nat := do
  check (0 ≤ ch ∧ ch < decodeTable.length) (.outOfTable ch)
  return decodeTable.getD ch.toNat 0

def IsSpace (ch : Int) : Prop := ch = 32 ∨ 9 ≤ ch ∧ ch ≤ 13
  deriving Decidable

/-- The end of the file or white space. -/
def Ends (ch : Int) : Prop := ch = -1 ∨ IsSpace ch
  deriving Decidable

/-- `temp_ch_`, the first of the characters that are left. They are signed, and the end of the file
is -1. `GetChar` goes on to the tail. -/
def tempCh : List UInt8 → Int
  | [] => -1
  | ch :: _ => ch.toInt8.toInt

/-! A call of `Read` produces `bytes`. The first `size` of them are written to the caller's buffer,
and those behind stay in `buf_prev`. -/

def put (size : Nat) (bytes : List UInt8) (value : Nat) : Except Fault (List UInt8) := do
  check (bytes.length < size) .overrun
  return bytes ++ [(value &&& 0xFF).toUInt8]

def putOrKeep (size : Nat) (bytes : List UInt8) (value : Nat) : Except Fault (List UInt8) :=
  if bytes.length < size then put size bytes value
  else do
    check (bytes.length < size + 2) .tooManyPending
    return bytes ++ [(value &&& 0xFF).toUInt8]

/-- The body of the loop; the flag tells whether padding ends it. -/
def group (size : Nat) (chars bytes : List UInt8) :
    Except Fault (List UInt8 × List UInt8 × Bool) := do
  let first ← decode (tempCh chars)
  let chars := chars.tail
  check (¬Ends (tempCh chars)) .invalidFormat
  let nvalue := first <<< 18 ||| (← decode (tempCh chars)) <<< 12
  let bytes ← put size bytes (nvalue >>> 16)
  let chars := chars.tail
  check (¬Ends (tempCh chars)) .invalidFormat
  -- two padding characters end the input after one byte, one after two
  if tempCh chars = 61 then
    let chars := chars.tail
    check (tempCh chars = 61) .invalidFormat
    let chars := chars.tail
    check (Ends (tempCh chars)) .invalidFormat
    return (chars, bytes, true)
  let nvalue := nvalue ||| (← decode (tempCh chars)) <<< 6
  let bytes ← putOrKeep size bytes (nvalue >>> 8)
  let chars := chars.tail
  check (¬Ends (tempCh chars)) .invalidFormat
  if tempCh chars = 61 then
    let chars := chars.tail
    check (Ends (tempCh chars)) .invalidFormat
    return (chars, bytes, true)
  let nvalue := nvalue ||| (← decode (tempCh chars))
  let bytes ← putOrKeep size bytes nvalue
  return (chars.tail, bytes, false)

/-- Every round produces a byte, so `size` rounds are enough. -/
def loop (size : Nat) : Nat → List UInt8 → List UInt8 → Except Fault (List UInt8 × List UInt8)
  | 0, chars, bytes => return (chars, bytes)
  | rounds + 1, chars, bytes =>
    if bytes.length < size ∧ ¬Ends (tempCh chars) then do
      let (chars, bytes, padded) ← group size chars bytes
      if padded then return (chars, bytes) else loop size rounds chars bytes
    else return (chars, bytes)

structure InStream where
  /-- `buf_prev` -/
  prev : List UInt8
  chars : List UInt8

def initPosition (input : List UInt8) : InStream :=
  ⟨[], input.dropWhile fun ch => IsSpace ch.toInt8.toInt⟩

/-- The bytes left over by the call before come first. -/
def InStream.read (s : InStream) (size : Nat) : Except Fault (InStream × List UInt8) := do
  let (chars, bytes) ← loop size size s.chars s.prev
  return (⟨bytes.drop size, chars⟩, bytes.take size)

def InStream.reads (s : InStream) : List Nat → Except Fault (List (List UInt8))
  | [] => return []
  | size :: sizes => do
    let (s, out) ← s.read size
    return out :: (← s.reads sizes)

/-! ### Safety -/

/-- The character is in the table, or it is read as the end of the file. -/
def Readable (ch : UInt8) : Prop := ch < 123 ∨ ch = 255
  deriving Decidable

def Clean (chars : List UInt8) : Prop := ∀ ch ∈ chars, Readable ch
  deriving Decidable

variable {size : Nat} {chars bytes : List UInt8}

theorem Readable.inTable {ch : UInt8} (readable : Readable ch) :
    Ends ch.toInt8.toInt ∨ 0 ≤ ch.toInt8.toInt ∧ ch.toInt8.toInt < decodeTable.length := by
  revert ch
  decide +kernel

theorem decode_safe (clean : Clean chars) (goesOn : ¬Ends (tempCh chars)) :
    Outcome (decode (tempCh chars)) (fun _ => True) (· = .invalidFormat) := by
  cases chars with
  | nil => exact absurd (.inl rfl) goesOn
  | cons ch rest =>
    have inside := (clean ch mem_cons_self).inTable.resolve_left goesOn
    exact .check_bind (absurd inside) fun _ => .pure trivial

theorem Clean.tail (clean : Clean chars) : Clean chars.tail :=
  fun ch member => clean ch (mem_of_mem_tail member)

section

variable {value : Nat} {byte : UInt8} (same : (value &&& 0xFF).toUInt8 = byte)
include same

theorem put_ok (room : bytes.length < size) : put size bytes value = .ok (bytes ++ [byte]) := by
  rw [put, check, if_pos room, same]
  rfl

theorem putOrKeep_ok (room : bytes.length < size + 2) :
    putOrKeep size bytes value = .ok (bytes ++ [byte]) := by
  unfold putOrKeep
  split
  next inside => exact put_ok same inside
  next =>
    rw [check, if_pos room, same]
    rfl

end

/-- The first byte of a group is in the buffer, so at most two are kept. -/
theorem group_safe (clean : Clean chars) (goesOn : ¬Ends (tempCh chars))
    (room : bytes.length < size) :
    Outcome (group size chars bytes) (fun found => Clean found.1 ∧
      bytes.length < found.2.1.length ∧ (found.2.2 = true → Ends (tempCh found.1)))
      (· = .invalidFormat) := by
  have format : ∀ {p : Prop}, ¬p → Fault.invalidFormat = .invalidFormat := fun _ => rfl
  refine .bind (decode_safe clean goesOn) fun first _ => .check_bind format fun goesOn => ?_
  refine .bind (decode_safe clean.tail goesOn) fun second _ => ?_
  -- the second and the third byte may have no room left, and then they are kept
  refine .bind (.of_eq (put_ok rfl room)) ?_
  rintro _ rfl
  refine .check_bind format fun goesOn => ?_
  split
  · refine .check_bind format fun _ => .check_bind format fun ends => ?_
    exact .pure ⟨clean.tail.tail.tail.tail, by simp, fun _ => ends⟩
  refine .bind (decode_safe clean.tail.tail goesOn) fun third _ => ?_
  refine .bind (.of_eq (putOrKeep_ok rfl (by simp; omega))) ?_
  rintro _ rfl
  refine .check_bind format fun goesOn => ?_
  split
  · refine .check_bind format fun ends => ?_
    exact .pure ⟨clean.tail.tail.tail.tail, by simp, fun _ => ends⟩
  refine .bind (decode_safe clean.tail.tail.tail goesOn) fun fourth _ => ?_
  refine .bind (.of_eq (putOrKeep_ok rfl (by simp; omega))) ?_
  rintro _ rfl
  exact .pure ⟨clean.tail.tail.tail.tail, by simp, nofun⟩

/-- The rounds suffice: the buffer is full in the end, or the characters are at theirs. -/
theorem loop_safe (rounds : Nat) (clean : Clean chars) (enough : size ≤ bytes.length + rounds) :
    Outcome (loop size rounds chars bytes) (fun found => Clean found.1 ∧
      (size ≤ found.2.length ∨ Ends (tempCh found.1))) (· = .invalidFormat) := by
  induction rounds generalizing chars bytes with
  | zero => exact .pure ⟨clean, .inl enough⟩
  | succ rounds ih =>
    unfold loop
    split
    next goesOn =>
      refine .bind (group_safe clean goesOn.2 goesOn.1) ?_
      rintro ⟨chars, bytes, padded⟩ ⟨clean, longer, ends⟩
      cases padded with
      | true => exact .pure ⟨clean, .inr (ends rfl)⟩
      | false => exact ih clean (by simp only at longer; omega)
    next stops =>
      rw [not_and_or, not_lt, not_not] at stops
      exact .pure ⟨clean, stops⟩

theorem InStream.read_safe {s : InStream} (clean : Clean s.chars) (size : Nat) :
    Outcome (s.read size) (fun found => Clean found.1.chars ∧ found.2.length ≤ size ∧
      (found.2.length = size ∨ Ends (tempCh found.1.chars))) (· = .invalidFormat) := by
  refine .bind (loop_safe size clean (Nat.le_add_left ..)) fun found ⟨clean, stops⟩ => ?_
  exact .pure ⟨clean, length_take_le .., stops.imp_left length_take_of_le⟩

def encodeTable : List Char :=
  "ABCDEFGHIJKLMNOPQRSTUVWXYZabcdefghijklmnopqrstuvwxyz0123456789+/".toList

def encode (index : Nat) : UInt8 := (encodeTable.getD index 'A').toUInt8

def fullGroup (a b c : UInt8) : List UInt8 :=
  [encode (a.toNat >>> 2), encode ((a.toNat <<< 4 ||| b.toNat >>> 4) &&& 0x3F),
    encode ((b.toNat <<< 2 ||| c.toNat >>> 6) &&& 0x3F), encode (c.toNat &&& 0x3F)]

def lastGroup : List UInt8 → List UInt8
  | [a] => [encode (a.toNat >>> 2), encode (a.toNat <<< 4 &&& 0x3F), 61, 61]
  | [a, b] => [encode (a.toNat >>> 2), encode ((a.toNat <<< 4 ||| b.toNat >>> 4) &&& 0x3F),
      encode (b.toNat <<< 2 &&& 0x3F), 61]
  | _ => []

/-- `buf_`, and the characters that were put out. -/
structure OutStream where
  buf : List UInt8 := []
  out : List UInt8 := []

/-- `Write`: the third byte in the buffer flushes it. -/
def OutStream.write (s : OutStream) (bytes : List UInt8) : OutStream :=
  bytes.foldl (fun s byte => match s.buf with
    | [a, b] => ⟨[], s.out ++ fullGroup a b byte⟩
    | buf => ⟨buf ++ [byte], s.out⟩) s

/-- `Finish` without an end character. -/
def OutStream.finish (s : OutStream) : List UInt8 := s.out ++ lastGroup s.buf

/-! ### Round trip -/

/-- The encoding of a whole string. -/
def encoded : List UInt8 → List UInt8
  | a :: b :: c :: rest => fullGroup a b c ++ encoded rest
  | buf => lastGroup buf

theorem OutStream.write_finish (out bytes : List UInt8) :
    (OutStream.write ⟨[], out⟩ bytes).finish = out ++ encoded bytes := by
  -- three bytes at a time, as the buffer is flushed
  induction bytes using encoded.induct generalizing out with
  | case1 a b c rest ih =>
    refine (ih (out ++ fullGroup a b c)).trans ?_
    simp [encoded]
  | case2 buf short =>
    match buf with
    | [] | [_] | [_, _] => rfl
    | a :: b :: c :: rest => exact absurd rfl (short a b c rest)

theorem encode_spec : ∀ i < 64, decode (encode i).toInt8.toInt = .ok i ∧
    ¬Ends (encode i).toInt8.toInt ∧ (encode i).toInt8.toInt ≠ 61 := by
  decide +kernel

/-- The bytes of a group, from its sextets. -/
theorem sextets_bytes (a b c : UInt8) :
    let n := a.toNat >>> 2 <<< 18 ||| ((a.toNat <<< 4 ||| b.toNat >>> 4) &&& 0x3F) <<< 12
    let n' := n ||| ((b.toNat <<< 2 ||| c.toNat >>> 6) &&& 0x3F) <<< 6
    (n >>> 16 &&& 0xFF).toUInt8 = a ∧ (n' >>> 8 &&& 0xFF).toUInt8 = b ∧
      ((n' ||| c.toNat &&& 0x3F) &&& 0xFF).toUInt8 = c := by
  have mask : ∀ v : Nat, v &&& 0x3F = v % 64 := fun v => Nat.and_two_pow_sub_one_eq_mod v 6
  have low : ∀ v : Nat, v &&& 0xFF = v % 256 := fun v => Nat.and_two_pow_sub_one_eq_mod v 8
  have join : ∀ {u v k : Nat}, v < 2 ^ k → u <<< k ||| v = u * 2 ^ k + v := fun small => by
    rw [← Nat.shiftLeft_add_eq_or_of_lt small, Nat.shiftLeft_eq]
  have ha := a.toNat_lt
  have hb := b.toNat_lt
  have hc := c.toNat_lt
  -- no two sextets share a bit, so the disjunctions are sums
  simp only [mask, low, Nat.shiftRight_eq_div_pow, Nat.or_assoc]
  simp (disch := first | omega | (simp only [Nat.shiftLeft_eq]; omega)) only [join]
  simp only [Nat.shiftLeft_eq]
  refine ⟨UInt8.toNat_inj.mp ?_, UInt8.toNat_inj.mp ?_, UInt8.toNat_inj.mp ?_⟩ <;> simp <;> omega

theorem group_encoded {tail : List UInt8} (left : tail ≠ []) (room : bytes.length < size) :
    ¬Ends (tempCh (encoded tail)) ∧ group size (encoded tail) bytes =
      .ok (encoded (tail.drop 3), bytes ++ tail.take 3, decide (tail.length < 3)) := by
  have small : ∀ v : Nat, v &&& 0x3F < 64 := fun v => lt_succ_of_le and_le_right
  have top : ∀ a : UInt8, a.toNat >>> 2 < 64 := fun a => by
    have := a.toNat_lt
    rw [shiftRight_eq_div_pow]
    omega
  have padded : ¬Ends 61 ∧ Ends (-1) := by decide
  have none : UInt8.toNat 0 = 0 := rfl
  -- the bytes that the last group lacks are encoded as zero
  match tail with
  | [a] =>
    refine ⟨(encode_spec _ (top a)).2.1, ?_⟩
    obtain ⟨first, -, -⟩ := sextets_bytes a 0 0
    simp only [none, zero_shiftRight, or_zero] at first
    simp [encoded, lastGroup, group, tempCh, encode_spec, small, top, check, bind, Except.bind,
      padded, put_ok first room]
    rfl
  | [a, b] =>
    refine ⟨(encode_spec _ (top a)).2.1, ?_⟩
    obtain ⟨first, second, -⟩ := sextets_bytes a b 0
    simp only [none, zero_shiftRight, or_zero] at second
    simp (disch := first | exact small _ | exact top _ | (simp; omega)) [encoded, lastGroup, group,
      tempCh, encode_spec, check, bind, Except.bind, padded, put_ok first room, putOrKeep_ok second]
    rfl
  | a :: b :: c :: rest =>
    refine ⟨(encode_spec _ (top a)).2.1, ?_⟩
    obtain ⟨first, second, third⟩ := sextets_bytes a b c
    simp (disch := first | exact small _ | exact top _ | (simp; omega)) [encoded, fullGroup, group,
      tempCh, encode_spec, check, bind, Except.bind, put_ok first room, putOrKeep_ok second,
      putOrKeep_ok third]
    rfl

/-- The loop stops when the buffer is full or nothing is left. -/
theorem loop_encoded (rounds : Nat) (tail bytes : List UInt8)
    (enough : size ≤ bytes.length + rounds) :
    ∃ tail' bytes', loop size rounds (encoded tail) bytes = .ok (encoded tail', bytes') ∧
      bytes' ++ tail' = bytes ++ tail ∧ (size ≤ bytes'.length ∨ tail' = []) := by
  induction rounds generalizing tail bytes with
  | zero => exact ⟨tail, bytes, rfl, rfl, .inl enough⟩
  | succ rounds ih =>
    by_cases goesOn : bytes.length < size ∧ tail ≠ []
    · obtain ⟨started, grouped⟩ := group_encoded goesOn.2 goesOn.1
      rw [loop, if_pos ⟨goesOn.1, started⟩, grouped]
      by_cases short : tail.length < 3
      · refine ⟨[], bytes ++ tail, ?_, append_nil _, .inr rfl⟩
        simp only [drop_eq_nil_of_le short.le, take_of_length_le short.le, short, decide_true]
        rfl
      · have longer := length_pos_iff.mpr goesOn.2
        obtain ⟨tail', bytes', ran, same, stops⟩ :=
          ih (tail.drop 3) (bytes ++ tail.take 3) (by simp; omega)
        refine ⟨tail', bytes', ?_, by rw [same, append_assoc, take_append_drop], stops⟩
        simpa [bind, Except.bind, short] using ran
    · refine ⟨tail, bytes, ?_, rfl, ?_⟩
      · rw [loop, if_neg]
        · rfl
        · rintro ⟨room, started⟩
          exact goesOn ⟨room, by rintro rfl; exact started (.inl rfl)⟩
      · rwa [not_and_or, not_lt, not_not] at goesOn

theorem InStream.read_encoded (prev tail : List UInt8) (size : Nat) :
    ∃ prev' tail', InStream.read ⟨prev, encoded tail⟩ size =
        .ok (⟨prev', encoded tail'⟩, (prev ++ tail).take size) ∧
      prev' ++ tail' = (prev ++ tail).drop size := by
  obtain ⟨tail', bytes, ran, same, stops⟩ := loop_encoded size tail prev (Nat.le_add_left ..)
  refine ⟨bytes.drop size, tail', ?_, ?_⟩ <;> rw [← same]
  · rw [InStream.read, ran]
    rcases stops with full | rfl
    · rw [take_append_of_le_length full]
      rfl
    · rw [append_nil]
      rfl
  · rcases stops with full | rfl
    · rw [drop_append_of_le_length full]
    · rw [append_nil, append_nil]

/-- However a string is written and read, every call returns the bytes that come next, and fewer
than it asked for only at the end. -/
theorem reads_written (pieces : List (List UInt8)) (sizes : List Nat) :
    (initPosition (pieces.foldl OutStream.write {}).finish).reads sizes =
        .ok (sizes.splitLengths pieces.flatten) ∧
      (pieces.flatten.length ≤ sizes.sum →
        (sizes.splitLengths pieces.flatten).flatten = pieces.flatten) := by
  refine ⟨?_, flatten_splitLengths _ _⟩
  have written : (pieces.foldl OutStream.write {}).finish = encoded pieces.flatten := by
    have whole := OutStream.write_finish [] pieces.flatten
    rw [OutStream.write, foldl_flatten] at whole
    exact whole
  rw [written]
  generalize pieces.flatten = bytes
  have started : initPosition (encoded bytes) = ⟨[], encoded bytes⟩ := by
    by_cases empty : bytes = []
    · subst empty
      rfl
    have goesOn := (@group_encoded 1 [] bytes empty zero_lt_one).1
    cases chars : encoded bytes with
    | nil => rfl
    | cons ch rest =>
      rw [chars] at goesOn
      have printed : ¬IsSpace ch.toInt8.toInt := fun space => goesOn (.inr space)
      simp [initPosition, printed]
  rw [started]
  -- what is left to read is the kept bytes and then the rest of the encoded string
  suffices general : ∀ prev tail, InStream.reads ⟨prev, encoded tail⟩ sizes =
      .ok (sizes.splitLengths (prev ++ tail)) from general [] bytes
  induction sizes with
  | nil => exact fun _ _ => rfl
  | cons size sizes ih =>
    intro prev tail
    obtain ⟨prev', tail', ran, same⟩ := InStream.read_encoded prev tail size
    rw [InStream.reads, ran]
    change (do return _ :: (← InStream.reads ⟨prev', encoded tail'⟩ sizes)) = _
    rw [ih, same, splitLengths_cons]
    rfl

end TritonTvm.Support.Base64
