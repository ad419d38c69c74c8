import Explore.Takehome.Scratch

/-!
# Logical instructions

The compiler's instructions name variables instead of addresses. An operand is a
logical register, whose address depends on the slot of the thread that runs the
instruction, or a word or vector inside the block of all slots of a variable. The
pseudo-register that stands for memory is left out: both dependency passes skip it.
-/

namespace Explore.Takehome

/-- An inclusive range of scratch addresses. -/
structure Range where
  lo : ℕ
  hi : ℕ
  deriving DecidableEq, Repr

namespace Range

def isEmpty (r : Range) : Bool := decide (r.hi < r.lo)

def intersect (r that : Range) : Range := ⟨max r.lo that.lo, min r.hi that.hi⟩

def values (r : Range) : List ℕ := List.range' r.lo (r.hi + 1 - r.lo)

@[simp] theorem mem_values {r : Range} {loc : ℕ} : loc ∈ r.values ↔ r.lo ≤ loc ∧ loc ≤ r.hi := by
  simp only [values, List.mem_range'_1]
  omega

end Range

/-- The part of a variable that an operand is about: the vector, or the word at
`offset`, which is 0 for a scalar variable. -/
inductive Part where
  | word (offset : Fin 8)
  | vector
  deriving DecidableEq, Repr, Ord

structure LogicalRegister where
  name : ScratchName
  part : Part
  isRead : Bool
  deriving DecidableEq, Repr, Ord

structure ArrayOp where
  name : ScratchName
  offset : ℕ
  isVector : Bool
  isRead : Bool
  deriving DecidableEq, Repr, Ord

namespace LogicalRegister

def isVector (r : LogicalRegister) : Bool := r.part = .vector

def offset (r : LogicalRegister) : ℕ :=
  match r.part with
  | .word offset => offset
  | .vector => 0

/-- The value of the constant that the register holds, if it holds one: `is_vector_constant`
or `is_scalar_constant`, and `constant_value`. -/
def constantValue (r : LogicalRegister) (ss : ScratchSpace) : Option ℤ := do
  (← ss.varMetaOf r.name).constantValue

def addrOf (r : LogicalRegister) (ss : ScratchSpace) (slot : ℤ) : Option ℕ := do
  return (← (← ss.varMetaOf r.name).addrOf slot) + r.offset

def range (r : LogicalRegister) (ss : ScratchSpace) (slot : ℤ) : Option Range := do
  let vm ← ss.varMetaOf r.name
  let addr ← vm.addrOf slot
  match r.part with
  | .vector => if vm.isVector then some ⟨addr, addr + VLEN - 1⟩ else none
  | .word offset => some ⟨addr + offset, addr + offset⟩

def scalarAtOffset (r : LogicalRegister) (offset : Fin 8) : LogicalRegister :=
  { r with part := .word offset }

def overlaps (r that : LogicalRegister) (ss : ScratchSpace) (slot : ℤ) : Option Bool := do
  return !((← r.range ss slot).intersect (← that.range ss slot)).isEmpty

end LogicalRegister

namespace ArrayOp

def of (ss : ScratchSpace) (name : ScratchName) (offset : ℕ) (isVector isRead : Bool) :
    Option ArrayOp := do
  let vm ← ss.varMetaOf name
  if offset < vm.size ∧ (isVector → offset + VLEN ≤ vm.size) then
    some ⟨name, offset, isVector, isRead⟩
  else none

def addrOf (a : ArrayOp) (ss : ScratchSpace) : Option ℕ := do
  return (← (← ss.varMetaOf a.name).addrOf 0) + a.offset

def range (a : ArrayOp) (ss : ScratchSpace) : Option Range := do
  let base ← a.addrOf ss
  return ⟨base, base + (if a.isVector then VLEN else 1) - 1⟩

def scalarAtOffset (a : ArrayOp) (offset : Fin 8) : ArrayOp :=
  { a with offset := a.offset + offset, isVector := false }

end ArrayOp

/-- An operand of a logical instruction. -/
inductive LogicalOp where
  | array (a : ArrayOp)
  | reg (r : LogicalRegister)
  deriving DecidableEq, Repr, Ord

namespace LogicalOp

def isVector : LogicalOp → Bool
  | array a => a.isVector
  | reg r => r.isVector

def isRead : LogicalOp → Bool
  | array a => a.isRead
  | reg r => r.isRead

def addrOf (ss : ScratchSpace) (slot : ℤ) : LogicalOp → Option ℕ
  | array a => a.addrOf ss
  | reg r => r.addrOf ss slot

def range (ss : ScratchSpace) (slot : ℤ) : LogicalOp → Option Range
  | array a => a.range ss
  | reg r => r.range ss slot

def scalarAtOffset (offset : Fin 8) : LogicalOp → LogicalOp
  | array a => array (a.scalarAtOffset offset)
  | reg r => reg (r.scalarAtOffset offset)

/-- The value of the constant register that the operand is. An `ArrayOp` has no
`is_vector_constant`; the callers never ask one. -/
def constantValue (ss : ScratchSpace) : LogicalOp → Option ℤ
  | array _ => none
  | reg r => r.constantValue ss

end LogicalOp

abbrev LogicalInstruction := Inst LogicalOp

/-- Replace operands by addresses: `__to_serialized`. -/
def toSerialized (ss : ScratchSpace) (slot : ℤ) (linst : LogicalInstruction) :
    Option SerializedInstruction :=
  linst.mapM (LogicalOp.addrOf ss slot)

/-- An instruction of a thread. `tid` is -1 for a global instruction; `after` are the
ids that this instruction unlocks. `tidrange` is read only while instructions are
given to threads, so it stays with the entries of `InstrGraph`. -/
structure InstrMeta where
  instid : ℕ
  lin : LogicalInstruction
  tid : ℤ
  instidInThread : ℤ
  after : List ℕ
  deriving DecidableEq, Repr

namespace InstrMeta

def isVectorImmAdd (imeta : InstrMeta) (ss : ScratchSpace) : Bool :=
  match imeta.lin with
  | .valu .add dest a b =>
      dest.isVector && a.isVector && b.isVector && (b.constantValue ss).isSome
  | _ => false

def isScalarImmAdd (imeta : InstrMeta) (ss : ScratchSpace) : Bool :=
  match imeta.lin with
  | .alu .add dest a b =>
      !dest.isVector && !a.isVector && !b.isVector && (b.constantValue ss).isSome
  | _ => false

end InstrMeta

end Explore.Takehome
