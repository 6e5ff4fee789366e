import TritonTvm.Lib.Scan

/-!
# The textual TTIR reader

The reader of `atomic/ttir.py`: the text is cut into lines, locations are dropped, and one pass
over the lines collects the operations of a `tt.func`. The regular expressions are written as
functions on lists of characters; each has one way to match at a given position, so no
backtracking is lost.
-/
namespace TritonTvm.Contrib

open Bool

abbrev Text := List Char

instance : LawfulBEq Text := inferInstanceAs (LawfulBEq (List Char))

/-- What holds of the characters of a text is decided on the text, not on all characters. -/
instance Text.decidableBAll {p : Char → Prop} [DecidablePred p] (text : List Char) :
    Decidable (∀ c ∈ text, p c) := text.decidableBAll p

/-- The character classes of Python's `str` and `re`: `\w`, `\s` and `\d` with the value of a
digit. Beyond ASCII they follow the Unicode tables. -/
structure CharClass where
  word : Char → Bool
  space : Char → Bool
  digit : Char → Option Nat
  word_ascii : ∀ c : Char, c.toNat < 128 → word c = (c.isAlphanum || c == '_')
  space_ascii : ∀ c : Char, c.toNat < 128 →
    space c = ((9 ≤ c.toNat && c.toNat ≤ 13) || (28 ≤ c.toNat && c.toNat ≤ 32))
  digit_ascii : ∀ c : Char, c.toNat < 128 →
    digit c = if c.isDigit then some (c.toNat - '0'.toNat) else none
  disjoint : ∀ c : Char, space c = true → word c = false

theorem CharClass.ascii_disjoint (c : Char)
    (space : ((9 ≤ c.toNat && c.toNat ≤ 13) || (28 ≤ c.toNat && c.toNat ≤ 32)) = true) :
    (c.isAlphanum || c == '_') = false := by
  have low : c.toNat ≤ 32 := by
    simp only [or_eq_true, and_eq_true, decide_eq_true_eq] at space
    omega
  by_contra word
  simp only [not_eq_false, Char.isAlphanum, Char.isAlpha, Char.isUpper, Char.isLower,
    Char.isDigit, or_eq_true, and_eq_true, decide_eq_true_eq, beq_iff_eq,
    UInt32.le_iff_toNat_le, ge_iff_le] at word
  have same : c.toNat = c.val.toNat := rfl
  rcases word with ((upper | lower) | digit) | rfl
  · have : 'A'.val.toNat = 65 := rfl; omega
  · have : 'a'.val.toNat = 97 := rfl; omega
  · have : '0'.val.toNat = 48 := rfl; omega
  · exact absurd low (by decide)

/-- The classes with nothing beyond ASCII. -/
def CharClass.ascii : CharClass where
  word c := c.isAlphanum || c == '_'
  space c := (9 ≤ c.toNat && c.toNat ≤ 13) || (28 ≤ c.toNat && c.toNat ≤ 32)
  digit c := if c.isDigit then some (c.toNat - '0'.toNat) else none
  word_ascii _ _ := rfl
  space_ascii _ _ := rfl
  digit_ascii _ _ := rfl
  disjoint := CharClass.ascii_disjoint

/-- One dimension of a shape: a number, or the text that stands in its place. -/
inductive Dim where
  | size (value : Nat)
  | symbol (text : Text)
  deriving DecidableEq, Repr

structure TTIRType where
  raw : Text
  dtype : Option Text
  shape : List Dim
  isPointer : Bool
  deriving DecidableEq, Repr

structure TTIRParam where
  name : Text
  type : TTIRType
  deriving DecidableEq, Repr

/-- Attributes are integers, but for the axis of `tt.get_program_id`, kept as text. -/
inductive AttrValue where
  | int (value : Int)
  | text (value : Text)
  deriving DecidableEq, Repr

structure TTIROp where
  name : Text
  results : List Text
  operands : List Text
  resultTypes : List TTIRType
  attrs : List (Text × AttrValue)
  raw : Text
  deriving DecidableEq, Repr

structure NormalizedTTIRGraph where
  functionName : Text
  params : List TTIRParam
  ops : List TTIROp
  rawTtir : Text
  deriving DecidableEq, Repr

inductive TtirError where
  | noFunction
  deriving DecidableEq, Repr

namespace Ttir

/-- The line boundaries of `str.splitlines`. -/
def isLineBreak (c : Char) : Bool :=
  c.toNat ∈ [10, 11, 12, 13, 28, 29, 30, 0x85, 0x2028, 0x2029]

/-- `str.splitlines`; `line` is the line read so far, last character first. -/
def splitLinesFrom (afterReturn : Bool) (line : Text) : Text → List Text
  | [] => if line.isEmpty then [] else [line.reverse]
  | c :: rest =>
    -- the line feed of a carriage return and line feed ends no second line
    if afterReturn && c == '\n' then splitLinesFrom false line rest
    else if isLineBreak c then line.reverse :: splitLinesFrom (c == '\r') [] rest
    else splitLinesFrom false (c :: line) rest

def splitLines (text : Text) : List Text :=
  splitLinesFrom false [] text

def isLetter (c : Char) : Bool := c.isAlpha || c == '_'

section
variable (u : CharClass)

def strip (text : Text) : Text :=
  ((text.dropWhile u.space).reverse.dropWhile u.space).reverse

/-- `\s+loc\([^)]*\)` at the head of a text, with its length. -/
def locAt (text : Text) : Option (Unit × Nat) := do
  guard (text.head?.any u.space)
  let inner ← (text.dropWhile u.space).dropPrefix? "loc(".toList
  match inner.dropWhile (· != ')') with
  | [] => none
  | _ :: rest => some ((), text.length - rest.length)

/-- What `_normalized_lines` does to one line: nothing is left of an empty or a `#` line. -/
def normalizedLine (raw : Text) : Option Text :=
  let line := strip u raw
  if line.isEmpty || line.head? == some '#' then none
  else
    let line := strip u (Scan.remove (locAt u) line)
    if line.isEmpty then none else some line

def normalizedLines (ttir : Text) : List Text :=
  (splitLines ttir).filterMap (normalizedLine u)

def isNameChar (c : Char) : Bool := u.word c || c == '$' || c == '.'

/-- `%[\w$.]+` at the head of a text: the name without its percent sign, and the rest. -/
def readName : Text → Option (Text × Text)
  | '%' :: text =>
    if (text.takeWhile (isNameChar u)).isEmpty then none
    else some (text.takeWhile (isNameChar u), text.dropWhile (isNameChar u))
  | _ => none

/-- The names that follow after a comma each, and the rest behind the last of them. -/
def readMoreNames : Nat → Text → List Text × Text
  | 0, text => ([], text)
  | fuel + 1, text =>
    match text.dropWhile u.space with
    | ',' :: behind =>
      match readName u (behind.dropWhile u.space) with
      | some (name, rest) =>
        let (names, rest) := readMoreNames fuel rest
        (name :: names, rest)
      | none => ([], text)
    | _ => ([], text)

/-- `_ASSIGN_RE`: the results in front of an equals sign, cleaned, and the body behind it. -/
def readAssign (line : Text) : Option (List Text × Text) := do
  let (first, rest) ← readName u line
  let (more, rest) := readMoreNames u rest.length rest
  match rest.dropWhile u.space with
  | '=' :: body => some (first :: more, strip u (body.dropWhile u.space))
  | _ => none

/-- `_OP_RE`: an operation name of at least two characters, maybe in quotes, and the rest. -/
def readOp (body : Text) : Option (Text × Text) :=
  match (body.dropPrefix? ['"']).getD body with
  | [] => none
  | first :: text =>
    let more := text.takeWhile fun c => u.word c || c == '.'
    let rest := text.dropWhile fun c => u.word c || c == '.'
    if isLetter first && !more.isEmpty then
      some (first :: more, (rest.dropPrefix? ['"']).getD rest)
    else none

def nameAt (text : Text) : Option (Text × Nat) :=
  (readName u text).map fun (name, _) => (name, name.length + 1)

/-- The operands: every `%name` of a text. -/
def operandNames (rest : Text) : List Text :=
  Scan.findAll (nameAt u) rest

/-- `\b`: of the two neighbours exactly one is a word character. -/
def isBoundary (before after : Option Char) : Bool :=
  before.any u.word != after.any u.word

def dtypeNames : List Text :=
  ["f16", "f32", "f64", "bf16", "i1", "i8", "i16", "i32", "i64"].map String.toList

/-- The first dtype that stands in the text as a word; `before` is the character in front. -/
def searchDtype (before : Option Char) : Text → Option Text
  | [] => none
  | c :: rest =>
    let here := dtypeNames.find? fun name =>
      match (c :: rest).dropPrefix? name with
      | some behind => isBoundary u name.getLast? behind.head?
      | none => false
    if isBoundary u before (some c) && here.isSome then here
    else searchDtype (some c) rest

/-- `tensor<([^x>]+(?:x[^x>]+)*)x` at the head of a text. The group has as many nonempty pieces
between the `x` as possible, but an `x` must follow it. -/
def tensorDimsAt (text : Text) : Option (List Text) := do
  let body ← text.dropPrefix? "tensor<".toList
  let pieces := (body.takeWhile (· != '>')).splitOn 'x'
  let full := pieces.takeWhile (!·.isEmpty)
  let dims := if full.length < pieces.length then full else full.dropLast
  if dims.isEmpty then none else some dims

def decimal (digits : Text) : Nat :=
  digits.foldl (fun value c => 10 * value + (u.digit c).getD 0) 0

def readDim (piece : Text) : Dim :=
  if piece.all fun c => (u.digit c).isSome then .size (decimal u piece) else .symbol piece

def parseType (text : Text) : TTIRType :=
  let raw := strip u text
  { raw := raw
    dtype := searchDtype u none raw
    shape := ((Scan.search tensorDimsAt raw).getD []).map (readDim u)
    isPointer := (raw.dropPrefix? "!tt.ptr".toList).isSome }

/-- The items of a parameter list: commas inside angle brackets separate nothing. -/
def splitParams (depth : Int) (token : Text) : Text → List Text
  | [] => if token.isEmpty then [] else [strip u token.reverse]
  | c :: rest =>
    let depth := if c == '<' then depth + 1 else if c == '>' then depth - 1 else depth
    if c == ',' && depth == 0 then strip u token.reverse :: splitParams depth [] rest
    else splitParams depth (c :: token) rest

def cleanName (text : Text) : Text :=
  (strip u text).dropWhile (· == '%')

def parseParams (text : Text) : List TTIRParam :=
  (splitParams u 0 [] text).filterMap fun item =>
    match item.dropWhile (· != ':') with
    | [] => none
    | _ :: typeText =>
      some { name := cleanName u (item.takeWhile (· != ':')), type := parseType u typeText }

/-- What stands behind the last arrow of a text. -/
def behindArrow : Text → Option Text
  | [] => none
  | c :: rest =>
    (behindArrow rest).or ((c :: rest).dropPrefix? "->".toList)

def parseResultTypes (rest : Text) : List TTIRType :=
  match behindArrow rest with
  | none => []
  | some tail => [parseType u (strip u tail)]

/-- `([A-Za-z_][\w]*)\s*=\s*(-?\d+)` at the head of a text, with its length. -/
def attrAt : Text → Option ((Text × Int) × Nat)
  | [] => none
  | first :: text => do
    guard (isLetter first)
    let key := first :: text.takeWhile u.word
    let behind ← ((text.dropWhile u.word).dropWhile u.space).dropPrefix? ['=']
    let value := behind.dropWhile u.space
    let negative := (value.dropPrefix? ['-']).isSome
    let value := (value.dropPrefix? ['-']).getD value
    let digits := value.takeWhile fun c => (u.digit c).isSome
    let rest := value.dropWhile fun c => (u.digit c).isSome
    guard (!digits.isEmpty)
    let size : Int := decimal u digits
    some ((key, if negative then -size else size), text.length + 1 - rest.length)

def setAttr (attrs : List (Text × AttrValue)) (key : Text) (value : AttrValue) :
    List (Text × AttrValue) :=
  if attrs.any (·.1 == key) then
    attrs.map fun entry => if entry.1 == key then (key, value) else entry
  else attrs ++ [(key, value)]

def parseAttrs (name rest : Text) : List (Text × AttrValue) :=
  let attrs :=
    if name == "tt.get_program_id".toList then
      [("axis".toList, .text (strip u (rest.takeWhile (· != ':'))))]
    else []
  (Scan.findAll (attrAt u) rest).foldl (fun attrs (key, value) => setAttr attrs key (.int value))
    attrs

def parseOp (line : Text) : Option TTIROp := do
  let (results, body) := (readAssign u line).getD ([], line)
  let (name, rest) ← readOp u body
  some
    { name := name
      results := results
      operands := operandNames u rest
      resultTypes := parseResultTypes u rest
      attrs := parseAttrs u name rest
      raw := line }

/-- `_FUNC_RE` at the head of a text: the function's name and the text of its parameters, which
reach to the last closing parenthesis. -/
def funcAt (text : Text) : Option (Text × Text) := do
  let behind ← text.dropPrefix? "tt.func".toList
  guard (behind.head?.any u.space)
  let behind := behind.dropWhile u.space
  let behind :=
    match behind.dropPrefix? "public".toList with
    | some rest => if rest.head?.any u.space then rest.dropWhile u.space else behind
    | none => behind
  match behind with
  | '@' :: first :: text =>
    guard (isLetter first)
    let name := first :: text.takeWhile fun c => u.word c || c == '$'
    let rest ← (text.dropWhile fun c => u.word c || c == '$').dropPrefix? ['(']
    match rest.reverse.dropWhile (· != ')') with
    | [] => none
    | _ :: params => some (name, params.reverse)
  | _ => none

/-- The state of the loop over the lines. -/
structure Reader where
  function : Option (Text × List TTIRParam) := none
  ops : List TTIROp := []
  inFunction : Bool := false
  deriving DecidableEq, Repr

def skippedLines : List Text :=
  ["module \x7b", "\x7b", "\x7d"].map String.toList

def readLine (state : Reader) (line : Text) : Reader :=
  if line ∈ skippedLines then state
  else if !state.inFunction then
    match Scan.search (funcAt u) line with
    | some (name, params) =>
      { state with function := some (name, parseParams u params), inFunction := true }
    | none => state
  else if line.head? == some '}' then { state with inFunction := false }
  else
    match parseOp u line with
    | some op => { state with ops := state.ops ++ [op] }
    | none => state

/-- Parse the TTIR subset needed for source-to-atomic evidence. -/
def parseTtir (ttir : Text) : Except TtirError NormalizedTTIRGraph :=
  let state := (normalizedLines u ttir).foldl (readLine u) {}
  match state.function with
  | none => .error .noFunction
  | some (name, params) =>
    .ok { functionName := name, params := params, ops := state.ops, rawTtir := ttir }

end
end Ttir
end TritonTvm.Contrib
