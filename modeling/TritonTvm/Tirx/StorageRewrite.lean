import TritonTvm.Lib.Outcome

/-!
# Merged allocations of tagged memory

`NewAllocTagMerged` places the entries of one scope behind each other in the allocation of the
first. Loads and stores are remapped by `RemapIndex`, access pointers by code of their own, and the
two use different element sizes.
-/
namespace TritonTvm.Tirx.StorageRewrite

open TritonTvm.Lib List

inductive Fault where
  | zeroBits
  /-- the offset of the entry is not a whole number of elements -/
  | unaligned
  | literal

structure DataType where
  bits : Nat
  lanes : Nat

def DataType.elemBits (t : DataType) : Nat := t.bits * t.lanes

structure StorageEntry where
  constNbits : Nat
  bitsOffset : Nat

def uint64 (n : Nat) : Nat := n % 2 ^ 64

def alignUp (totalBits : Nat) : Nat :=
  if totalBits % 32 ≠ 0 then uint64 (totalBits + (32 - totalBits % 32)) else totalBits

/-- A literal of an index type whose values are below `limit`. -/
def makeConst (limit n : Nat) : Except Fault Nat := do
  check (n < limit) .literal
  return n

theorem makeConst_outcome (limit n : Nat) : Outcome (makeConst limit n) (· = n) (· = .literal) :=
  .check_bind (fun _ => rfl) fun _ => .pure rfl

/-- The merged children from `totalBits` on, and where the last one ends. -/
def mergeChildren (totalBits : Nat) : List Nat → Except Fault (List StorageEntry × Nat)
  | [] => return ([], totalBits)
  | constNbits :: rest => do
    check (constNbits ≠ 0 ∧ totalBits ≠ 0) .zeroBits
    let (children, total) ← mergeChildren (alignUp (uint64 (totalBits + constNbits))) rest
    return (⟨constNbits, totalBits⟩ :: children, total)

/-- The entries, and the number of elements of the merged allocation. -/
def newAllocTagMerged (limit : Nat) (elemType : DataType) (constNbits : Nat)
    (mergedChildren : List Nat) : Except Fault (List StorageEntry × Nat) := do
  check (constNbits ≠ 0) .zeroBits
  let (children, total) ← mergeChildren (alignUp constNbits) mergedChildren
  let typeBits := elemType.elemBits
  let allocSize ← makeConst limit (uint64 (total + typeBits - 1) / typeBits)
  return (⟨constNbits, 0⟩ :: children, allocSize)

def remapIndex (limit : Nat) (dtype : DataType) (index : Nat) (e : StorageEntry) :
    Except Fault Nat := do
  if e.bitsOffset = 0 then return index
  check (e.bitsOffset % dtype.bits = 0) .unaligned
  return (← makeConst limit (e.bitsOffset / dtype.bits)) + index

def remapAccessPtr (limit : Nat) (dtype : DataType) (offset : Nat) (e : StorageEntry) :
    Except Fault Nat := do
  check (e.bitsOffset % dtype.elemBits = 0) .unaligned
  if e.bitsOffset = 0 then return offset
  return (← makeConst limit (e.bitsOffset / dtype.elemBits)) + offset

/-- `extent` elements from `index` on, through a pointer or by a load or a store. -/
structure Access where
  limit : Nat
  dtype : DataType
  index : Nat
  extent : Nat
  isPtr : Bool

/-- The bits of the merged allocation that the remapped access is to. -/
def Access.bitRange (a : Access) (e : StorageEntry) : Except Fault (Nat × Nat) := do
  let i ← (if a.isPtr then remapAccessPtr else remapIndex) a.limit a.dtype a.index e
  return (i * a.dtype.elemBits, (i + a.extent) * a.dtype.elemBits)

/-- The error of an offset that is not a whole number of elements, or that has no literal. -/
def Access.Refused (a : Access) (e : StorageEntry) (error : Fault) : Prop :=
  error = .literal ∨ error = .unaligned ∧ ¬a.dtype.elemBits ∣ e.bitsOffset

/-- Within its entry, and of scalars unless it is through a pointer. -/
structure Access.Fits (e : StorageEntry) (a : Access) : Prop where
  scalar : a.isPtr = true ∨ a.dtype.lanes = 1
  inside : (a.index + a.extent) * a.dtype.elemBits ≤ e.constNbits

/-- The two ways to remap agree on scalars, and refuse an offset of part of an element. -/
theorem Access.Fits.bitRange {e : StorageEntry} {a : Access} (fits : a.Fits e) :
    Outcome (a.bitRange e) (fun range => a.dtype.elemBits ∣ e.bitsOffset ∧
      e.bitsOffset ≤ range.1 ∧ range.2 ≤ e.bitsOffset + e.constNbits)
      (a.Refused e) := by
  have same : (if a.isPtr then remapAccessPtr else remapIndex) a.limit a.dtype a.index e =
      remapAccessPtr a.limit a.dtype a.index e := by
    split
    · rfl
    rename_i load
    have scalar := fits.scalar.resolve_left load
    by_cases first : e.bitsOffset = 0
    · simp [remapIndex, remapAccessPtr, first, check, bind, Except.bind]
    · simp [remapIndex, remapAccessPtr, first, DataType.elemBits, scalar]
  rw [Access.bitRange, same]
  have moved : Outcome (remapAccessPtr a.limit a.dtype a.index e) (fun i => a.dtype.elemBits ∣
      e.bitsOffset ∧ i = e.bitsOffset / a.dtype.elemBits + a.index) (a.Refused e) := by
    unfold Access.Refused
    rw [Nat.dvd_iff_mod_eq_zero]
    refine .check_bind (fun part => .inr ⟨rfl, part⟩) fun whole => ?_
    split
    next first => exact .pure ⟨whole, by simp [first]⟩
    next =>
      exact .map ((makeConst_outcome ..).mono (fun _ made => ⟨whole, made ▸ rfl⟩) fun _ => .inl)
  refine .bind moved ?_
  rintro _ ⟨whole, rfl⟩
  refine .pure ⟨whole, ?_⟩
  have inside := fits.inside
  simp only [Nat.add_mul, Nat.div_mul_cancel whole] at inside ⊢
  omega

theorem alignUp_bounds (totalBits : Nat) (fits : totalBits + 31 < 2 ^ 64) :
    totalBits ≤ alignUp totalBits ∧ alignUp totalBits ≤ totalBits + 31 := by
  unfold alignUp uint64
  split <;> omega

/-- The entries lie behind each other between two bits. -/
structure Placed (start stop : Nat) (entries : List StorageEntry) : Prop where
  within : ∀ e ∈ entries, start ≤ e.bitsOffset ∧ e.bitsOffset + e.constNbits ≤ stop
  ordered : entries.Pairwise fun e e' => e.bitsOffset + e.constNbits ≤ e'.bitsOffset

theorem Placed.cons (start n : Nat) {next stop : Nat} {entries : List StorageEntry}
    (first : start + n ≤ next) (last : next ≤ stop) (placed : Placed next stop entries) :
    Placed start stop (⟨n, start⟩ :: entries) where
  within := by
    refine forall_mem_cons.mpr ⟨⟨le_rfl, first.trans last⟩, fun e listed => ?_⟩
    have := placed.within e listed
    omega
  ordered :=
    pairwise_cons.mpr ⟨fun e listed => first.trans (placed.within e listed).1, placed.ordered⟩

theorem mergeChildren_placed (totalBits : Nat) (mergedChildren : List Nat) (start : 0 < totalBits)
    (nonzero : ∀ n ∈ mergedChildren, n ≠ 0)
    (fits : totalBits + (mergedChildren.map (· + 31)).sum < 2 ^ 64) :
    Outcome (mergeChildren totalBits mergedChildren) (fun r => totalBits ≤ r.2 ∧
      r.2 ≤ totalBits + (mergedChildren.map (· + 31)).sum ∧
      r.1.map (·.constNbits) = mergedChildren ∧ Placed totalBits r.2 r.1) fun _ => False := by
  induction mergedChildren generalizing totalBits with
  | nil => exact .pure ⟨le_rfl, le_rfl, rfl, nofun, .nil⟩
  | cons n rest ih =>
    simp only [map_cons, sum_cons, forall_mem_cons] at fits nonzero ⊢
    have plain : uint64 (totalBits + n) = totalBits + n := Nat.mod_eq_of_lt (by omega)
    obtain ⟨low, high⟩ := alignUp_bounds (totalBits + n) (by omega)
    refine .check_true ⟨nonzero.1, start.ne'⟩ ?_
    rw [plain]
    refine .bind (ih _ (by omega) nonzero.2 (by omega)) ?_
    rintro ⟨children, total⟩ ⟨above, below, sizes, placed⟩
    simp only at above below
    exact .pure ⟨by omega, by omega, by simp [sizes], placed.cons _ n low above⟩

/-- The accesses of the entries are apart and inside of the allocation. -/
structure Apart (elemType : DataType) (sizes : List Nat) (r : List StorageEntry × Nat) : Prop where
  sizes : r.1.map (·.constNbits) = sizes
  inside : ∀ e ∈ r.1, ∀ a : Access, a.Fits e → Outcome (a.bitRange e)
    (fun range => a.dtype.elemBits ∣ e.bitsOffset ∧ range.2 ≤ r.2 * elemType.elemBits) (a.Refused e)
  disjoint : r.1.Pairwise fun e e' => ∀ a b : Access, a.Fits e → b.Fits e' → ∀ range range',
    a.bitRange e = .ok range → b.bitRange e' = .ok range' → range.2 ≤ range'.1

end TritonTvm.Tirx.StorageRewrite
