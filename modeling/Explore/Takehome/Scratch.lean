import Explore.Takehome.Machine

/-!
# Scratch space

`ScratchSpace` hands out consecutive blocks of the scratch space to variables. A
variable has a length (one word or a vector) and a number of slots: one for a
global, one for each concurrent thread otherwise. Its invariant is a field: names
are unique, and each block begins where the previous one ends, so different
variables never share a word.

The source spells a constant `_K_v` or `_KV_v`. Here the name records the value and
whether the register is a vector, so `is_constant` and `constant_value` are
functions of the name, and a variable of a program (whose name starts with a small
letter) cannot be taken for a constant.
-/

namespace Explore.Takehome

/-- The name of a variable in the scratch space. -/
inductive ScratchName where
  | var (name : String)
  | const (val : ℤ) (isVector : Bool)
  deriving DecidableEq, Repr, Ord

structure VariableMeta where
  name : ScratchName
  addr : ℕ
  length : ℕ
  slots : ℕ
  deriving DecidableEq, Repr

namespace VariableMeta

def isVector (vm : VariableMeta) : Bool := decide (vm.length > 1)

/-- `constant_value`, present only when `is_constant`. -/
def constantValue (vm : VariableMeta) : Option ℤ :=
  match vm.name with
  | .const val _ => some val
  | .var _ => none

def addrOf (vm : VariableMeta) (slot : ℤ) : Option ℕ :=
  if vm.slots = 1 then some vm.addr
  else if 0 ≤ slot ∧ slot < vm.slots then some (vm.addr + slot.toNat * vm.length)
  else none

def size (vm : VariableMeta) : ℕ := vm.slots * vm.length

end VariableMeta

/-- The blocks of the variables, the newest first, tile the words before `ptr`. -/
def Layout : List VariableMeta → ℕ → Prop
  | [], ptr => ptr = 0
  | vm :: older, ptr =>
      vm.addr + vm.size = ptr ∧ (∀ old ∈ older, old.name ≠ vm.name) ∧ Layout older vm.addr

/-- The variables allocated so far, the newest first. -/
structure ScratchSpace where
  varMeta : List VariableMeta
  scratchPtr : ℕ
  layout : Layout varMeta scratchPtr
  fits : scratchPtr ≤ SCRATCH_SIZE

namespace ScratchSpace

def empty : ScratchSpace := ⟨[], 0, rfl, Nat.zero_le _⟩

def varMetaOf (ss : ScratchSpace) (name : ScratchName) : Option VariableMeta :=
  ss.varMeta.find? fun vm => vm.name = name

def hasVariable (ss : ScratchSpace) (name : ScratchName) : Bool := (ss.varMetaOf name).isSome

theorem name_of_varMetaOf {ss : ScratchSpace} {name : ScratchName} {vm : VariableMeta}
    (h : ss.varMetaOf name = some vm) : vm.name = name := by
  simpa using List.find?_some h

theorem forall_ne_of_varMetaOf_eq_none {ss : ScratchSpace} {name : ScratchName}
    (h : ss.varMetaOf name = none) : ∀ old ∈ ss.varMeta, old.name ≠ name := by
  intro old hold
  simpa using List.find?_eq_none.mp h old hold

/-- Allocate a block, unless the name is taken or the scratch space is full. -/
def allocScratch (ss : ScratchSpace) (name : ScratchName) (length slots : ℕ) :
    Option ScratchSpace :=
  match fresh : ss.varMetaOf name with
  | some _ => none
  | none =>
      if fits : ss.scratchPtr + slots * length ≤ SCRATCH_SIZE then
        some {
          varMeta := ⟨name, ss.scratchPtr, length, slots⟩ :: ss.varMeta
          scratchPtr := ss.scratchPtr + slots * length
          layout := ⟨rfl, forall_ne_of_varMetaOf_eq_none fresh, ss.layout⟩
          fits := fits }
      else none

def allocWord (ss : ScratchSpace) (name : ScratchName) (slots : ℕ) : Option ScratchSpace :=
  ss.allocScratch name 1 slots

def allocWideWord (ss : ScratchSpace) (name : ScratchName) (slots : ℕ) : Option ScratchSpace :=
  ss.allocScratch name VLEN slots

/-- A register for a constant, with whether it is new. `const_map` is the part of
`var_meta` whose names are constants. -/
def allocConst (ss : ScratchSpace) (val : ℤ) (isVector : Bool) : Option (ScratchSpace × Bool) :=
  if ss.hasVariable (.const val isVector) then some (ss, false)
  else
    (ss.allocScratch (.const val isVector) (if isVector then VLEN else 1) 1).map (·, true)

def size (ss : ScratchSpace) : ℕ := ss.scratchPtr

def perThreadSpace (ss : ScratchSpace) : ℕ :=
  ((ss.varMeta.filter fun vm => vm.slots > 1).map VariableMeta.length).sum

def freeSpace (ss : ScratchSpace) : ℕ := SCRATCH_SIZE - ss.size

end ScratchSpace

end Explore.Takehome
