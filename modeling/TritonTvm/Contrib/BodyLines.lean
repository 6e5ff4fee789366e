import TritonTvm.Contrib.Ttir

/-!
# Lines of a function body

The lines a TTIR function body is printed as: operations with any number of results, lines that
close a region, and lines without an operation. A line is kept by its parts, and the results here
say what the reader makes of the text of the parts.
-/
namespace TritonTvm.Contrib.Ttir

open List

variable {u : CharClass}

/-! ### Characters -/

theorem space_eq (c : Char) (ascii : c.toNat < 128) : u.space c = CharClass.ascii.space c :=
  u.space_ascii c ascii

variable {c : Char}

theorem space_eq_false (ascii : c.toNat < 128)
    (solid : CharClass.ascii.space c = false) : u.space c = false :=
  (space_eq c ascii).trans solid

theorem word_eq (c : Char) (ascii : c.toNat < 128) : u.word c = CharClass.ascii.word c :=
  u.word_ascii c ascii

theorem isLetter_range (letter : isLetter c = true) : 65 ≤ c.toNat ∧ c.toNat < 128 := by
  simp only [isLetter, Char.isAlpha, Char.isUpper, Char.isLower, Bool.or_eq_true,
    Bool.and_eq_true, decide_eq_true_eq, beq_iff_eq, UInt32.le_iff_toNat_le, ge_iff_le] at letter
  rcases letter with (upper | lower) | rfl
  · exact ⟨upper.1, lt_of_le_of_lt upper.2 (by decide)⟩
  · exact ⟨le_trans (by decide) lower.1, lt_of_le_of_lt lower.2 (by decide)⟩
  · decide

theorem isLetter_space (letter : isLetter c = true) : u.space c = false := by
  obtain ⟨low, high⟩ := isLetter_range letter
  rw [space_eq c high]
  simp only [CharClass.ascii, Bool.or_eq_false_iff, Bool.and_eq_false_iff, decide_eq_false_iff_not]
  omega

/-! ### Blanks around a text -/

/-- Neither end of the text is a blank. -/
def Trimmed (u : CharClass) (text : Text) : Prop :=
  text.head?.all (!u.space ·) ∧ text.getLast?.all (!u.space ·)

theorem dropWhile_pad {p : Char → Bool} {pad text : Text} (padded : ∀ c ∈ pad, p c = true)
    (starts : text.head?.all (!p ·)) : (pad ++ text).dropWhile p = text := by
  rw [dropWhile_append_of_pos padded]
  cases text with
  | nil => rfl
  | cons c text => simp_all

theorem strip_pad {indent text trailing : Text} (indented : ∀ c ∈ indent, u.space c = true)
    (trailed : ∀ c ∈ trailing, u.space c = true) (trimmed : Trimmed u text) (nonempty : text ≠ []) :
    strip u (indent ++ (text ++ trailing)) = text := by
  have starts : (text ++ trailing).head?.all (!u.space ·) := by
    obtain ⟨c, text, rfl⟩ := exists_cons_of_ne_nil nonempty
    exact trimmed.1
  have ends : text.reverse.head?.all (!u.space ·) := by
    rw [head?_reverse]
    exact trimmed.2
  rw [strip, dropWhile_pad indented starts, reverse_append,
    dropWhile_pad (by simpa using trailed) ends, reverse_reverse]

theorem strip_trimmed {text : Text} (trimmed : Trimmed u text) : strip u text = text := by
  cases text with
  | nil => rfl
  | cons c text =>
    have bare := strip_pad (u := u) (forall_mem_nil _) (forall_mem_nil _) trimmed
      (cons_ne_nil c text)
    rwa [nil_append, append_nil] at bare

/-! ### Names and operands -/

/-- A value name, without its percent sign. -/
structure ValueName (u : CharClass) where
  text : Text
  nonempty : text ≠ []
  chars : ∀ c ∈ text, isNameChar u c = true

def ValueName.render (name : ValueName u) : Text := '%' :: name.text

/-- What the text behind an operation name consists of. -/
inductive Piece (u : CharClass) where
  /-- text without a percent sign -/
  | plain (text : Text) (clean : '%' ∉ text)
  /-- a value -/
  | operand (name : ValueName u)
  /-- one of the results of an operation with several -/
  | result (name : ValueName u) (index : Nat)
  /-- a string attribute -/
  | quoted (text : Text) (closed : '"' ∉ text)

def decimalText (value : Nat) : Text := (toString value).toList

def Piece.render : Piece u → Text
  | plain text _ => text
  | operand name => name.render
  | result name index => name.render ++ '#' :: decimalText index
  | quoted text _ => '"' :: (text ++ ['"'])

def renderPieces (pieces : List (Piece u)) : Text :=
  pieces.flatMap Piece.render

/-- The operand a piece names. -/
def Piece.operand? : Piece u → Option Text
  | plain _ _ => none
  | operand name => some name.text
  | result name index => some (name.text ++ '#' :: decimalText index)
  | quoted _ _ => none

/-- The names the reader finds in a piece. -/
def Piece.found : Piece u → List Text
  | plain _ _ => []
  | operand name => [name.text]
  | result name _ => [name.text]
  | quoted text _ => operandNames u text

/-- A value name ends where its piece ends. -/
def Separated : List (Piece u) → Prop
  | [] => True
  | .operand _ :: rest =>
    (renderPieces rest).head?.all (!isNameChar u ·) ∧ Separated rest
  | _ :: rest => Separated rest

variable {rest : Text}

theorem readName_render (name : ValueName u) (ends : rest.head?.all (!isNameChar u ·)) :
    readName u (name.render ++ rest) = some (name.text, rest) := by
  have taken : (name.text ++ rest).takeWhile (isNameChar u) = name.text := by
    rw [takeWhile_append_of_pos name.chars]
    cases rest with
    | nil => simp
    | cons c rest => simp_all
  have dropped : (name.text ++ rest).dropWhile (isNameChar u) = rest :=
    dropWhile_pad name.chars ends
  rw [ValueName.render, cons_append, readName, taken, dropped]
  simp [name.nonempty]

theorem readName_other (other : c ≠ '%') (text : Text) : readName u (c :: text) = none := by
  unfold readName
  split
  · simp_all
  · rfl

theorem nameAt_other (other : c ≠ '%') (text : Text) : nameAt u (c :: text) = none := by
  rw [nameAt, readName_other other, Option.map_none]

theorem operandNames_plain {text : Text} (clean : '%' ∉ text) (rest : Text) :
    operandNames u (text ++ rest) = operandNames u rest := by
  apply Scan.findAll_silent
  intro suffix nonempty inside
  obtain ⟨c, suffix, rfl⟩ := exists_cons_of_ne_nil nonempty
  exact nameAt_other (fun same => clean (inside.mem (by simp [same]))) _

theorem operandNames_name (name : ValueName u) (ends : rest.head?.all (!isNameChar u ·)) :
    operandNames u (name.render ++ rest) = name.text :: operandNames u rest := by
  apply Scan.findAll_match _ _ _ (by simp [ValueName.render])
  rw [nameAt, readName_render name ends]
  simp [ValueName.render]

/-- The name characters at the head of a text, when there are some. -/
theorem exists_name (text : Text) (found : text.takeWhile (isNameChar u) ≠ []) :
    ∃ name : ValueName u, ∃ rest, text = name.text ++ rest ∧
      rest.head?.all (!isNameChar u ·) = true := by
  refine ⟨⟨text.takeWhile (isNameChar u), found, fun c member => ?_⟩,
    text.dropWhile (isNameChar u), (takeWhile_append_dropWhile).symm, ?_⟩
  · exact mem_takeWhile_imp member
  cases remaining : text.dropWhile (isNameChar u) with
  | nil => rfl
  | cons c rest =>
    have stopped := head_dropWhile_not (isNameChar u) (l := text) (by simp [remaining])
    simp_all

theorem operandNames_append (text rest : Text) (ends : rest.head?.all (!isNameChar u ·)) :
    operandNames u (text ++ rest) = operandNames u text ++ operandNames u rest := by
  -- a match may cover several characters, so the induction is on the length
  induction length : text.length using Nat.strong_induction_on generalizing text with
  | _ size ih =>
    subst length
    cases text with
    | nil => rfl
    | cons c text =>
      by_cases percent : c = '%'
      · subst percent
        by_cases found : text.takeWhile (isNameChar u) = []
        · have silent : ∀ behind : Text, behind.takeWhile (isNameChar u) = [] →
              operandNames u ('%' :: behind) = operandNames u behind := by
            intro behind none
            refine Scan.findAll_silent ['%'] behind ?_
            intro suffix nonempty inside
            obtain rfl : suffix = ['%'] := by
              simpa [suffix_cons_iff, nonempty] using inside
            simp [nameAt, readName, none]
          rw [cons_append, silent _ found, silent _, ih _ (by simp) text rfl]
          cases text with
          | nil => cases rest <;> simp_all
          | cons d text => simp_all [takeWhile_cons]
        · obtain ⟨name, behind, rfl, stopped⟩ := exists_name text found
          have both : (behind ++ rest).head?.all (!isNameChar u ·) = true := by
            cases behind with
            | nil => exact ends
            | cons d behind => exact stopped
          have first := operandNames_name name both
          have alone := operandNames_name name stopped
          simp only [ValueName.render, cons_append] at first alone
          rw [cons_append, append_assoc, first, alone,
            ih behind.length (by simp only [length_append, length_cons]; omega) behind rfl, cons_append]
      · have passed : ∀ behind : Text,
            operandNames u (c :: behind) = operandNames u behind := fun behind =>
          @operandNames_plain u [c] (by simpa using Ne.symm percent) behind
        rw [cons_append, passed, passed, ih _ (by simp) text rfl]

theorem isNameChar_eq (c : Char) (ascii : c.toNat < 128) :
    isNameChar u c = isNameChar CharClass.ascii c := by
  rw [isNameChar, isNameChar, word_eq c ascii]

theorem decimalText_clean (value : Nat) : '%' ∉ decimalText value := by
  intro member
  have digit := Nat.isDigit_of_mem_toDigits (b := 10) (n := value) (by decide) (by decide)
    (c := '%') (by simpa [decimalText, toString, Nat.repr] using member)
  revert digit
  decide

/-- The reader finds the operands piece by piece. -/
theorem operandNames_pieces (pieces : List (Piece u)) (separated : Separated pieces) :
    operandNames u (renderPieces pieces) = pieces.flatMap Piece.found := by
  induction pieces with
  | nil => rfl
  | cons piece rest ih =>
    have sharp : ('#' :: decimalText 0).head?.all (!isNameChar u ·) = true := by
      simp [isNameChar_eq '#' (by decide)]
      decide
    cases piece with
    | plain text clean =>
      exact (operandNames_plain clean _).trans (ih separated)
    | operand name =>
      exact (operandNames_name name separated.1).trans
        (congrArg (name.text :: ·) (ih separated.2))
    | result name index =>
      have clean : '%' ∉ '#' :: decimalText index := by
        simpa using decimalText_clean index
      rw [renderPieces, flatMap_cons, Piece.render, append_assoc,
        operandNames_name name (by simpa using sharp), operandNames_plain clean]
      exact congrArg (name.text :: ·) (ih separated)
    | quoted text closed =>
      have quote : ('"' :: renderPieces rest).head?.all (!isNameChar u ·) = true := by
        simp [isNameChar_eq '"' (by decide)]
        decide
      have opening := @operandNames_plain u ['"'] (by decide) (text ++ '"' :: renderPieces rest)
      have closing := @operandNames_plain u ['"'] (by decide) (renderPieces rest)
      simp only [cons_append, nil_append] at opening closing
      have shape : renderPieces (.quoted text closed :: rest) =
          '"' :: (text ++ '"' :: renderPieces rest) := by
        simp [renderPieces, Piece.render]
      rw [shape, opening, operandNames_append _ _ quote, closing, ih separated]
      rfl

/-! ### Results -/

/-- Blank text. -/
structure Gap (u : CharClass) where
  text : Text
  blank : ∀ c ∈ text, u.space c = true

/-- One entry of the result list; `%name:count` stands for several results. -/
structure ResultName (u : CharClass) where
  name : ValueName u
  count : Option Nat

def ResultName.render (result : ResultName u) : Text :=
  result.name.render ++
    match result.count with
    | none => []
    | some count => ':' :: decimalText count

/-- `%a, %b:2 = `: the first entry, the others with the blanks around their comma, and the
blanks around the equals sign. -/
structure ResultList (u : CharClass) where
  first : ResultName u
  more : List (Gap u × Gap u × ResultName u)
  before : Gap u
  after : Gap u

def renderMore (more : List (Gap u × Gap u × ResultName u)) : Text :=
  more.flatMap fun (before, after, result) => before.text ++ ',' :: (after.text ++ result.render)

def ResultList.render (results : ResultList u) : Text :=
  results.first.render ++
    (renderMore results.more ++ (results.before.text ++ '=' :: results.after.text))

def ResultList.names (results : ResultList u) : List Text :=
  results.first.name.text :: results.more.map (·.2.2.name.text)

/-- Every entry names a single result. -/
def ResultList.Single (results : ResultList u) : Prop :=
  results.first.count = none ∧ ∀ entry ∈ results.more, entry.2.2.count = none

theorem isNameChar_space (space : u.space c = true) : isNameChar u c = false := by
  have dollar : u.space '$' = false := space_eq_false (by decide) (by decide)
  have dot : u.space '.' = false := space_eq_false (by decide) (by decide)
  simp only [isNameChar, u.disjoint c space, Bool.false_or, Bool.or_eq_false_iff,
    beq_eq_false_iff_ne]
  constructor <;> rintro rfl <;> simp_all

/-- A blank text in front of a character that is not part of a name ends a name. -/
theorem gap_ends (gap : Gap u) (ascii : c.toNat < 128)
    (other : isNameChar CharClass.ascii c = false) (rest : Text) :
    (gap.text ++ c :: rest).head?.all (!isNameChar u ·) = true := by
  rcases gap with ⟨text, blank⟩
  cases text with
  | nil => simpa [isNameChar_eq c ascii] using other
  | cons d text => simp [isNameChar_space (blank d (by simp))]

theorem dropWhile_gap (gap : Gap u) (ascii : c.toNat < 128)
    (other : CharClass.ascii.space c = false) (rest : Text) :
    (gap.text ++ c :: rest).dropWhile u.space = c :: rest := by
  apply dropWhile_pad gap.blank
  simp [space_eq c ascii, other]

theorem dropWhile_render (name : ValueName u) (gap : Gap u) (rest : Text) :
    (gap.text ++ (name.render ++ rest)).dropWhile u.space = name.render ++ rest :=
  dropWhile_gap gap (by decide) (by decide) _

theorem readMoreNames_stop {text : Text}
    (stops : text.dropWhile u.space = c :: rest) (other : c ≠ ',') (fuel : Nat) :
    readMoreNames u fuel text = ([], text) := by
  cases fuel with
  | zero => rfl
  | succ fuel =>
    rw [readMoreNames, stops]
    split
    · simp_all
    · rfl

theorem readMoreNames_step (before after : Gap u) (name : ValueName u)
    (ends : rest.head?.all (!isNameChar u ·)) (fuel : Nat) :
    readMoreNames u (fuel + 1) (before.text ++ ',' :: (after.text ++ (name.render ++ rest))) =
      (name.text :: (readMoreNames u fuel rest).1, (readMoreNames u fuel rest).2) := by
  rw [readMoreNames, dropWhile_gap before (by decide) (by decide)]
  simp only
  rw [dropWhile_render, readName_render name ends]

/-- Behind a name comes a blank, a comma or the equals sign. -/
theorem renderMore_ends (more : List (Gap u × Gap u × ResultName u)) (before : Gap u) (rest : Text) :
    (renderMore more ++ (before.text ++ '=' :: rest)).head?.all (!isNameChar u ·) = true := by
  cases more with
  | nil => exact gap_ends before (by decide) (by decide) rest
  | cons entry more =>
    rw [renderMore, flatMap_cons, append_assoc, append_assoc, cons_append]
    exact gap_ends entry.1 (by decide) (by decide) _

theorem colon_ends (rest : Text) : (':' :: rest).head?.all (!isNameChar u ·) = true :=
  gap_ends ⟨[], forall_mem_nil _⟩ (by decide) (by decide) rest

theorem colon_stops (rest : Text) : (':' :: rest).dropWhile u.space = ':' :: rest :=
  dropWhile_gap ⟨[], forall_mem_nil _⟩ (by decide) (by decide) rest

/-- The list is read to the equals sign, or it breaks off at the colon of an entry with a count. -/
theorem readMoreNames_render (before : Gap u) (rest : Text) :
    ∀ (more : List (Gap u × Gap u × ResultName u)) (fuel : Nat), more.length ≤ fuel →
      ∃ names tail, readMoreNames u fuel (renderMore more ++ (before.text ++ '=' :: rest)) =
        (names, tail) ∧
      ((∀ entry ∈ more, entry.2.2.count = none) →
        names = more.map (·.2.2.name.text) ∧ tail = before.text ++ '=' :: rest) ∧
      ((∃ entry ∈ more, entry.2.2.count ≠ none) → ∃ behind, tail = ':' :: behind) := by
  intro more
  induction more with
  | nil =>
    intro fuel _
    exact ⟨_, _, readMoreNames_stop (dropWhile_gap before (by decide) (by decide) rest) (by decide)
      fuel, fun _ => ⟨rfl, rfl⟩, nofun⟩
  | cons entry more ih =>
    intro fuel enough
    obtain ⟨gap, after, name, count⟩ := entry
    obtain ⟨fuel, rfl⟩ : ∃ less, fuel = less + 1 := ⟨fuel - 1, by simp at enough; omega⟩
    have shape : ∀ tail, (ResultName.mk name count).render ++
        (renderMore more ++ (before.text ++ '=' :: rest)) = name.render ++ tail →
        renderMore ((gap, after, ⟨name, count⟩) :: more) ++ (before.text ++ '=' :: rest) =
          gap.text ++ ',' :: (after.text ++ (name.render ++ tail)) := by
      intro tail same
      rw [← same]
      simp [renderMore]
    cases count with
    | some count =>
      rw [shape (':' :: (decimalText count ++ (renderMore more ++ (before.text ++ '=' :: rest))))
        (by simp [ResultName.render]), readMoreNames_step gap after name (colon_ends _),
        readMoreNames_stop (colon_stops _) (by decide)]
      refine ⟨_, _, rfl, fun single => ?_, fun _ => ⟨_, rfl⟩⟩
      exact absurd (single _ mem_cons_self) (by simp)
    | none =>
      obtain ⟨names, tail, read, single, counted⟩ := ih fuel (by simpa using enough)
      rw [shape (renderMore more ++ (before.text ++ '=' :: rest)) (by simp [ResultName.render]),
        readMoreNames_step gap after name (renderMore_ends more before rest), read]
      refine ⟨_, _, rfl, fun all => ?_, fun some_ => counted (by simpa using some_)⟩
      obtain ⟨rfl, rfl⟩ := single fun entry member => all entry (by simp [member])
      exact ⟨rfl, rfl⟩

theorem length_le_renderMore (more : List (Gap u × Gap u × ResultName u)) :
    more.length ≤ (renderMore more).length := by
  induction more with
  | nil => simp
  | cons entry more ih =>
    simp only [renderMore, flatMap_cons, length_append, length_cons] at ih ⊢
    omega

/-- A result list is read if it has no count, and nothing is read if it has one. -/
theorem readAssign_render (results : ResultList u) {body : Text} (trimmed : Trimmed u body) :
    (results.Single → readAssign u (results.render ++ body) = some (results.names, body)) ∧
    (¬ results.Single → readAssign u (results.render ++ body) = none) := by
  obtain ⟨⟨name, count⟩, more, before, after⟩ := results
  cases count with
  | some count =>
    have shape : ResultList.render ⟨⟨name, some count⟩, more, before, after⟩ ++ body =
        name.render ++ (':' :: (decimalText count ++
          (renderMore more ++ (before.text ++ '=' :: (after.text ++ body))))) := by
      simp [ResultList.render, ResultName.render]
    refine ⟨fun ⟨single, _⟩ => by simp at single, fun _ => ?_⟩
    rw [shape, readAssign, readName_render name (colon_ends _)]
    simp only [Option.bind_eq_bind, Option.bind_some]
    rw [readMoreNames_stop (colon_stops _) (by decide), colon_stops]
    simp
  | none =>
    have shape : ResultList.render ⟨⟨name, none⟩, more, before, after⟩ ++ body =
        name.render ++ (renderMore more ++ (before.text ++ '=' :: (after.text ++ body))) := by
      simp [ResultList.render, ResultName.render]
    have enough : more.length ≤
        (renderMore more ++ (before.text ++ '=' :: (after.text ++ body))).length := by
      have := length_le_renderMore more
      simp only [length_append]
      omega
    obtain ⟨names, tail, read, single, counted⟩ :=
      readMoreNames_render before (after.text ++ body) more _ enough
    rw [shape, readAssign, readName_render name (renderMore_ends more before _)]
    simp only [Option.bind_eq_bind, Option.bind_some]
    rw [read]
    refine ⟨fun ⟨_, all⟩ => ?_, fun several => ?_⟩
    · obtain ⟨rfl, rfl⟩ := single all
      rw [dropWhile_gap before (by decide) (by decide)]
      simp only
      rw [dropWhile_pad after.blank trimmed.1, strip_trimmed trimmed]
      rfl
    · obtain ⟨behind, rfl⟩ := counted (by
        by_contra none
        push Not at none
        exact several ⟨rfl, none⟩)
      rw [colon_stops]
      simp

/-! ### Operations -/

/-- An operation name: a letter and at least one more character. -/
structure OpName (u : CharClass) where
  first : Char
  more : Text
  letter : isLetter first = true
  nonempty : more ≠ []
  chars : ∀ c ∈ more, (u.word c || c == '.') = true

def OpName.text (name : OpName u) : Text := name.first :: name.more

/-- No blank in the text is followed by `loc(`. -/
def locFree (u : CharClass) : Text → Bool
  | [] => true
  | c :: rest => !(u.space c && (rest.dropPrefix? "loc(".toList).isSome) && locFree u rest

/-- The location behind an operation: blanks, and what stands in `loc(..)`. -/
structure Location (u : CharClass) where
  gap : Gap u
  inner : Text
  separate : gap.text ≠ []
  closed : ')' ∉ inner

def Location.render (location : Location u) : Text :=
  location.gap.text ++ ("loc(".toList ++ (location.inner ++ [')']))

/-- The text of an operation from its name on. -/
def opText (quoted : Bool) (name : OpName u) (rest : List (Piece u)) : Text :=
  if quoted then '"' :: (name.text ++ '"' :: renderPieces rest)
  else name.text ++ renderPieces rest

/-- A line with an operation, of any number of results. -/
structure OpLine (u : CharClass) where
  indent : Gap u
  results : Option (ResultList u)
  quoted : Bool
  name : OpName u
  rest : List (Piece u)
  location : Option (Location u)
  trailing : Gap u
  separated : Separated rest
  /-- the name ends where the rest begins -/
  apart : quoted = false →
    (renderPieces rest).head?.all fun c => !(u.word c || c == '.' || c == '"')
  /-- blanks at the end belong to the location or to the end of the line -/
  trimmed : (opText quoted name rest).getLast?.all (!u.space ·)
  located : locFree u ((results.elim [] ResultList.render) ++ opText quoted name rest)

namespace OpLine

/-- The line without the blanks around it and without its location. -/
def core (line : OpLine u) : Text :=
  (line.results.elim [] ResultList.render) ++ opText line.quoted line.name line.rest

def render (line : OpLine u) : Text :=
  line.indent.text ++
    ((line.core ++ line.location.elim [] Location.render) ++ line.trailing.text)

def operands (line : OpLine u) : List Text :=
  line.rest.filterMap Piece.operand?

end OpLine

theorem letter_ne {c d : Char} (letter : isLetter c = true) (other : isLetter d = false) :
    c ≠ d := by
  rintro rfl
  simp_all

theorem OpName.takeWhile (name : OpName u)
    (ends : rest.head?.all fun c => !(u.word c || c == '.')) :
    (name.more ++ rest).takeWhile (fun c => u.word c || c == '.') = name.more := by
  rw [takeWhile_append_of_pos name.chars]
  cases rest with
  | nil => simp
  | cons c rest => simp_all

theorem readOp_opText (quoted : Bool) (name : OpName u) (rest : List (Piece u))
    (apart : quoted = false →
      (renderPieces rest).head?.all fun c => !(u.word c || c == '.' || c == '"')) :
    readOp u (opText quoted name rest) = some (name.text, renderPieces rest) := by
  have quote : u.word '"' = false := by
    rw [word_eq '"' (by decide)]
    decide
  have first : name.first ≠ '"' := letter_ne name.letter (by decide)
  cases quoted with
  | true =>
    have ends : ('"' :: renderPieces rest).head?.all (fun c => !(u.word c || c == '.')) = true := by
      simp [quote]
    simp [readOp, opText, OpName.text, List.dropPrefix?, name.takeWhile ends,
      dropWhile_pad name.chars ends, name.letter, name.nonempty]
  | false =>
    have ends : (renderPieces rest).head?.all (fun c => !(u.word c || c == '.')) = true := by
      cases shape : renderPieces rest with
      | nil => rfl
      | cons c pieces =>
        simp_all
    have bare : (renderPieces rest).dropPrefix? ['"'] = none := by
      cases shape : renderPieces rest with
      | nil => rfl
      | cons c pieces =>
        simp_all [List.dropPrefix?]
    simp [readOp, opText, OpName.text, List.dropPrefix?, first, name.takeWhile ends,
      dropWhile_pad name.chars ends, name.letter, name.nonempty, bare]

/-- The first character of an operation's text is not blank, no percent sign and no brace. -/
theorem opText_head (quoted : Bool) (name : OpName u) (rest : List (Piece u)) :
    ∃ c text, opText quoted name rest = c :: text ∧ u.space c = false ∧
      c ∉ ['%', '#', '\x7b', '\x7d'] := by
  cases quoted with
  | true =>
    exact ⟨'"', _, rfl, space_eq_false (by decide) (by decide), by decide⟩
  | false =>
    refine ⟨name.first, _, rfl, isLetter_space name.letter, ?_⟩
    intro member
    simp only [mem_cons, not_mem_nil, or_false] at member
    rcases member with same | same | same | same <;>
      exact letter_ne name.letter (by decide) same

namespace OpLine

variable (line : OpLine u)

theorem opText_trimmed : Trimmed u (opText line.quoted line.name line.rest) := by
  obtain ⟨c, text, shape, solid, -⟩ := opText_head line.quoted line.name line.rest
  refine ⟨?_, line.trimmed⟩
  rw [shape]
  simp [solid]

theorem core_head : ∃ c text, line.core = c :: text ∧ u.space c = false ∧
    c ∉ ['#', '\x7b', '\x7d'] := by
  obtain ⟨c, text, shape, solid, other⟩ := opText_head line.quoted line.name line.rest
  rw [core]
  cases line.results with
  | none =>
    refine ⟨c, text, by simpa using shape, solid, fun member => other ?_⟩
    exact mem_cons_of_mem _ member
  | some results =>
    exact ⟨'%', _, rfl, space_eq_false (by decide) (by decide), by decide⟩

theorem core_trimmed : Trimmed u line.core := by
  obtain ⟨c, text, shape, solid, -⟩ := line.core_head
  obtain ⟨d, more, opShape, -, -⟩ := opText_head line.quoted line.name line.rest
  constructor
  · rw [shape]
    simp [solid]
  · have last := line.trimmed
    rw [core, opShape]
    rw [opShape] at last
    rwa [getLast?_append_cons]

end OpLine

/-! ### Locations -/

theorem dropPrefix_append_none {start text rest : Text} (missing : text.dropPrefix? start = none)
    (other : rest.head?.all (· ∉ start)) : (text ++ rest).dropPrefix? start = none := by
  induction start generalizing text with
  | nil => cases text <;> simp [List.dropPrefix?] at missing
  | cons b start ih =>
    cases text with
    | nil => cases rest <;> simp_all [List.dropPrefix?]
    | cons a text =>
      simp only [cons_append, List.dropPrefix?] at missing ⊢
      split at missing
      next same =>
        cases rest <;> simp_all
      next differ => rw [if_neg differ]

theorem locFree_suffix {text suffix : Text} (free : locFree u text = true)
    (inside : suffix <:+ text) : locFree u suffix = true := by
  induction text with
  | nil => simp_all
  | cons c text ih =>
    simp only [locFree, Bool.and_eq_true] at free
    rcases suffix_cons_iff.mp inside with rfl | inside
    · simp only [locFree, Bool.and_eq_true]
      exact free
    · exact ih free.2 inside

/-- Behind blanks of a text free of locations no `loc(` begins. -/
theorem locFree_pad {pad text : Text} (free : locFree u (pad ++ text) = true)
    (blank : ∀ c ∈ pad, u.space c = true) (nonempty : pad ≠ []) :
    text.dropPrefix? "loc(".toList = none := by
  induction pad with
  | nil => simp at nonempty
  | cons c pad ih =>
    simp only [cons_append, locFree, Bool.and_eq_true] at free
    cases pad with
    | nil =>
      have space := blank c (by simp)
      simpa [space] using free.1
    | cons d pad =>
      exact ih free.2 (fun c member => blank c (by simp [member])) (by simp)

theorem locAt_solid (solid : u.space c = false) (text : Text) : locAt u (c :: text) = none := by
  simp only [locAt, head?_cons, Option.any_some, solid]
  rfl

theorem locAt_silent {text rest : Text} (free : locFree u text = true)
    (ends : text.getLast?.all (!u.space ·)) (blank : rest.head?.all (u.space ·)) :
    Scan.Silent (locAt u) text rest := by
  intro suffix nonempty inside
  obtain ⟨c, suffix, rfl⟩ := exists_cons_of_ne_nil nonempty
  cases space : u.space c with
  | false => exact locAt_solid space _
  | true =>
    -- the blanks end inside the text, and no `loc(` begins where they do
    obtain ⟨before, shape⟩ := inside
    have last : (c :: suffix).getLast?.all (!u.space ·) = true := by
      rw [← shape, getLast?_append_cons] at ends
      exact ends
    have solid : (c :: suffix).dropWhile u.space ≠ [] := by
      intro none
      have all := dropWhile_eq_nil_iff.mp none
      rw [getLast?_eq_some_getLast (cons_ne_nil c suffix)] at last
      simp [all _ (getLast_mem (cons_ne_nil c suffix))] at last
    have missing : ((c :: suffix).dropWhile u.space).dropPrefix? "loc(".toList = none := by
      refine @locFree_pad u ((c :: suffix).takeWhile u.space) _ ?_ ?_ ?_
      · rw [takeWhile_append_dropWhile]
        exact locFree_suffix free ⟨before, shape⟩
      · exact fun c member => mem_takeWhile_imp member
      · simp [space]
    have other : rest.head?.all (· ∉ "loc(".toList) = true := by
      cases rest with
      | nil => rfl
      | cons d rest =>
        have opens : ∀ d ∈ "loc(".toList, u.space d = false := by
          intro d member
          have ascii : d.toNat < 128 := by revert d; decide
          rw [space_eq d ascii]
          revert d
          decide
        simp only [head?_cons, Option.all_some, decide_eq_true_eq] at blank ⊢
        intro member
        simp [opens d member] at blank
    have dropped : (c :: suffix ++ rest).dropWhile u.space =
        (c :: suffix).dropWhile u.space ++ rest := by
      rw [dropWhile_append]
      simp [solid]
    simp only [locAt, dropped, dropPrefix_append_none missing other]
    simp

theorem Location.head_space (location : Location u) :
    ∃ c text, location.render = c :: text ∧ u.space c = true := by
  obtain ⟨c, text, shape⟩ := exists_cons_of_ne_nil location.separate
  exact ⟨c, _, by rw [Location.render, shape]; rfl, location.gap.blank c (by simp [shape])⟩

theorem locAt_location (location : Location u) :
    locAt u location.render = some ((), location.render.length) := by
  have opens : u.space 'l' = false := space_eq_false (by decide) (by decide)
  have blank : location.render.head?.any u.space = true := by
    obtain ⟨c, text, shape, space⟩ := location.head_space
    simp [shape, space]
  have dropped : location.render.dropWhile u.space =
      "loc(".toList ++ (location.inner ++ [')']) := by
    apply dropWhile_pad location.gap.blank
    simp [opens]
  have found : ("loc(".toList ++ (location.inner ++ [')'])).dropPrefix? "loc(".toList =
      some (location.inner ++ [')']) := by
    simp [List.dropPrefix?]
  have inner : (location.inner ++ [')']).dropWhile (· != ')') = [')'] := by
    apply dropWhile_pad _ (by simp)
    intro c member
    simp only [bne_iff_ne, ne_eq]
    rintro rfl
    exact location.closed member
  simp only [locAt, blank, dropped, found, guard_true, Option.pure_def, Option.bind_eq_bind,
    Option.bind_some]
  rw [inner]
  rfl

namespace OpLine

variable (line : OpLine u)

theorem remove_location :
    Scan.remove (locAt u) (line.core ++ line.location.elim [] Location.render) = line.core := by
  cases shape : line.location with
  | none =>
    have silent := Scan.remove_silent line.core []
      (locAt_silent line.located line.core_trimmed.2 rfl)
    simpa using silent
  | some location =>
    have blank : location.render.head?.all (u.space ·) = true := by
      obtain ⟨c, text, shape, space⟩ := location.head_space
      simp [shape, space]
    have nonempty : location.render ≠ [] := by
      simp [Location.render]
    have covered := Scan.remove_match () location.render [] nonempty (by
      rw [append_nil]
      exact locAt_location location)
    rw [Option.elim, Scan.remove_silent line.core _
      (locAt_silent line.located line.core_trimmed.2 blank)]
    rw [append_nil, Scan.remove_nil] at covered
    rw [covered, append_nil]

/-- Blanks and location are taken off. -/
theorem normalizedLine_render : normalizedLine u line.render = some line.core := by
  obtain ⟨c, text, shape, solid, other⟩ := line.core_head
  have trimmed : Trimmed u (line.core ++ line.location.elim [] Location.render) := by
    constructor
    · rw [shape]
      simp [solid]
    · cases line.location with
      | none => simpa using line.core_trimmed.2
      | some location =>
        have paren : u.space ')' = false := space_eq_false (by decide) (by decide)
        have shape : line.core ++ (some location).elim [] Location.render =
            (line.core ++ (location.gap.text ++ ("loc(".toList ++ location.inner))) ++ [')'] := by
          simp [Location.render]
        rw [shape, getLast?_concat]
        simp [paren]
  have stripped : strip u line.render = line.core ++ line.location.elim [] Location.render := by
    apply strip_pad line.indent.blank line.trailing.blank trimmed
    rw [shape]
    simp
  have start : (line.core ++ line.location.elim [] Location.render).head? = some c := by
    rw [shape]
    rfl
  have plain : c ≠ '#' := fun same => other (by simp [same])
  simp only [normalizedLine, stripped, start, line.remove_location, strip_trimmed line.core_trimmed]
  simp [shape, plain]

/-- No entry of the result list stands for several results. -/
def Single : Prop := ∀ results ∈ line.results, results.Single

theorem parseOp_single (single : line.Single) :
    ∃ op, parseOp u line.core = some op ∧ op.name = line.name.text ∧
      op.operands = line.rest.flatMap Piece.found := by
  have read := readOp_opText line.quoted line.name line.rest line.apart
  have found := operandNames_pieces line.rest line.separated
  obtain ⟨c, text, shape, -, other⟩ := opText_head line.quoted line.name line.rest
  cases results : line.results with
  | none =>
    have bare : readAssign u line.core = none := by
      rw [core, results, Option.elim, nil_append, shape, readAssign,
        readName_other (fun same => other (by simp [same]))]
      rfl
    have whole : line.core = opText line.quoted line.name line.rest := by
      rw [core, results]
      rfl
    simp only [parseOp, bare, Option.getD_none]
    rw [whole, read]
    exact ⟨_, rfl, rfl, found⟩
  | some list =>
    have assigned : readAssign u line.core =
        some (list.names, opText line.quoted line.name line.rest) := by
      rw [core, results]
      exact (readAssign_render list line.opText_trimmed).1 (single list results)
    simp only [parseOp, assigned, Option.getD_some]
    rw [read]
    exact ⟨_, rfl, rfl, found⟩

theorem parseOp_counted (counted : ¬ line.Single) : parseOp u line.core = none := by
  cases results : line.results with
  | none => exact absurd (by simp [Single, results]) counted
  | some list =>
    have several : ¬ list.Single := fun single => counted (by simpa [Single, results] using single)
    have bare : readAssign u line.core = none := by
      rw [core, results]
      exact (readAssign_render list line.opText_trimmed).2 several
    have percent : ∃ text, line.core = '%' :: text := by
      rw [core, results]
      exact ⟨_, rfl⟩
    obtain ⟨text, shape⟩ := percent
    have missed : readOp u line.core = none := by
      simp [readOp, shape, List.dropPrefix?, show isLetter '%' = false by decide]
    simp only [parseOp, bare, Option.getD_none]
    rw [missed]
    rfl

end OpLine

end TritonTvm.Contrib.Ttir
