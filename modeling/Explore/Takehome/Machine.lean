import Mathlib.Algebra.GroupWithZero.Nat
import Mathlib.Data.List.Basic
import Mathlib.Tactic.NormNum

/-!
# The machine

The limits of the machine and `Machine.step`, which executes one bundle: every
slot reads the state from before the cycle, and all writes land at its end. An
exception (an address that does not exist, a division by zero, too many slots) is
`none`. Only the instructions that the compiler can emit are modelled; in
particular the program counter always advances, so a program is a list of bundles.

Registers and memory hold 32-bit words. `Inst` is generic in its operands: the
compiler's instructions have logical registers there, the machine's have scratch
addresses.
-/

namespace Explore.Takehome

-- Numerals of lanes and of digits are the same terms wherever they are written.
instance neZero_lanes : NeZero 8 := ⟨by decide⟩

instance neZero_digits : NeZero 10 := ⟨by decide⟩

abbrev Word := BitVec 32

def VLEN : ℕ := 8

def SCRATCH_SIZE : ℕ := 1536

inductive Engine where
  | alu
  | flow
  | load
  | store
  | valu
  deriving DecidableEq, Repr, Ord

def SLOT_LIMITS : Engine → ℕ
  | .alu => 12
  | .valu => 6
  | .load => 2
  | .store => 2
  | .flow => 1

/-- The operators of the `alu` and `valu` engines, in the order of their spelling. -/
inductive AluOp where
  | mod
  | and
  | mul
  | add
  | sub
  | floordiv
  | lt
  | shl
  | eq
  | shr
  | xor
  | cdiv
  | or
  deriving DecidableEq, Repr, Ord

/-- `Machine.alu`, reduced to a word. -/
def AluOp.eval : AluOp → Word → Word → Option Word
  | .add, a1, a2 => some (a1 + a2)
  | .sub, a1, a2 => some (a1 - a2)
  | .mul, a1, a2 => some (a1 * a2)
  | .floordiv, a1, a2 => if a2 = 0 then none else some (a1 / a2)
  | .cdiv, a1, a2 =>
      if a2 = 0 then none else some (BitVec.ofNat 32 ((a1.toNat + a2.toNat - 1) / a2.toNat))
  | .xor, a1, a2 => some (a1 ^^^ a2)
  | .and, a1, a2 => some (a1 &&& a2)
  | .or, a1, a2 => some (a1 ||| a2)
  | .shl, a1, a2 => some (a1 <<< a2.toNat)
  | .shr, a1, a2 => some (a1 >>> a2.toNat)
  | .mod, a1, a2 => if a2 = 0 then none else some (a1 % a2)
  | .lt, a1, a2 => some (if a1 < a2 then 1 else 0)
  | .eq, a1, a2 => some (if a1 = a2 then 1 else 0)

/-- A number as a word, `val % (2**32)`. -/
def word (val : ℤ) : Word := BitVec.ofInt 32 val

/-- An instruction over operands `α`, with its opcode and engine as constructor. The
numbers in `const` and `addImm` are immediate. -/
inductive Inst (α : Type) where
  | alu (op : AluOp) (dest a1 a2 : α)
  | addImm (dest a : α) (imm : ℤ)
  | vselect (dest cond a b : α)
  | const (dest : α) (val : ℤ)
  | load (dest addr : α)
  | vload (dest addr : α)
  | store (addr src : α)
  | vstore (addr src : α)
  | valu (op : AluOp) (dest a1 a2 : α)
  | multiplyAdd (dest a b c : α)
  | vbroadcast (dest src : α)
  deriving DecidableEq, Repr, Ord

namespace Inst

variable {α β : Type}

def engine : Inst α → Engine
  | alu .. => .alu
  | addImm .. | vselect .. => .flow
  | const .. | load .. | vload .. => .load
  | store .. | vstore .. => .store
  | valu .. | multiplyAdd .. | vbroadcast .. => .valu

/-- The operands, in the order in which the instruction lists them. -/
def operands : Inst α → List α
  | alu _ dest a1 a2 | valu _ dest a1 a2 => [dest, a1, a2]
  | addImm dest a _ => [dest, a]
  | vselect dest cond a b => [dest, cond, a, b]
  | const dest _ => [dest]
  | load dest addr | vload dest addr => [dest, addr]
  | store addr src | vstore addr src => [addr, src]
  | multiplyAdd dest a b c => [dest, a, b, c]
  | vbroadcast dest src => [dest, src]

/-- Replace every operand, unless `f` fails on one of them. -/
def mapM (f : α → Option β) : Inst α → Option (Inst β)
  | alu op dest a1 a2 => do return alu op (← f dest) (← f a1) (← f a2)
  | addImm dest a imm => do return addImm (← f dest) (← f a) imm
  | vselect dest cond a b => do return vselect (← f dest) (← f cond) (← f a) (← f b)
  | const dest val => do return const (← f dest) val
  | load dest addr => do return load (← f dest) (← f addr)
  | vload dest addr => do return vload (← f dest) (← f addr)
  | store addr src => do return store (← f addr) (← f src)
  | vstore addr src => do return vstore (← f addr) (← f src)
  | valu op dest a1 a2 => do return valu op (← f dest) (← f a1) (← f a2)
  | multiplyAdd dest a b c => do return multiplyAdd (← f dest) (← f a) (← f b) (← f c)
  | vbroadcast dest src => do return vbroadcast (← f dest) (← f src)

end Inst

/-- An instruction whose operands are scratch addresses. -/
abbrev SerializedInstruction := Inst ℕ

/-- A word of the scratch space or of memory. -/
inductive Loc where
  | scratch (addr : ℕ)
  | mem (addr : ℕ)
  deriving DecidableEq, Repr

/-- One core and its memory. -/
structure Machine where
  scratch : List Word
  mem : List Word
  deriving DecidableEq, Repr

/-- The addresses of a vector of words. -/
def lanes (addr : ℕ) : List ℕ := List.range' addr VLEN

namespace Machine

/-- The machine on a memory image, with its scratch space cleared. -/
def initial (mem : List Word) : Machine := ⟨List.replicate SCRATCH_SIZE 0, mem⟩

def read (m : Machine) : Loc → Option Word
  | .scratch addr => m.scratch[addr]?
  | .mem addr => m.mem[addr]?

/-- Land one write. -/
def write (m : Machine) : Loc × Word → Option Machine
  | (.scratch addr, val) =>
      if addr < m.scratch.length then some { m with scratch := m.scratch.set addr val } else none
  | (.mem addr, val) =>
      if addr < m.mem.length then some { m with mem := m.mem.set addr val } else none

end Machine

/-- The `i`-th lane of a vector operation. -/
def aluLane (σ : Loc → Option Word) (op : AluOp) (dest a1 a2 i : ℕ) : Option (Loc × Word) := do
  let val ← op.eval (← σ (.scratch (a1 + i))) (← σ (.scratch (a2 + i)))
  return (.scratch (dest + i), val)

/-- The writes that a slot makes when it reads the words `σ`, in the order in which
the engine's function makes them. -/
def Inst.writes (σ : Loc → Option Word) : SerializedInstruction → Option (List (Loc × Word))
  | alu op dest a1 a2 => do return [← aluLane σ op dest a1 a2 0]
  | addImm dest a imm => do return [(.scratch dest, (← σ (.scratch a)) + word imm)]
  | vselect dest cond a b =>
      (List.range VLEN).mapM fun i => do
        let c ← σ (.scratch (cond + i))
        let val ← if c ≠ 0 then σ (.scratch (a + i)) else σ (.scratch (b + i))
        return (.scratch (dest + i), val)
  | const dest val => some [(.scratch dest, word val)]
  | load dest addr => do
      let base ← σ (.scratch addr)
      return [(.scratch dest, ← σ (.mem base.toNat))]
  | vload dest addr => do
      let base ← σ (.scratch addr)
      (List.range VLEN).mapM fun i => do
        return (.scratch (dest + i), ← σ (.mem (base.toNat + i)))
  | store addr src => do
      let base ← σ (.scratch addr)
      return [(.mem base.toNat, ← σ (.scratch src))]
  | vstore addr src => do
      let base ← σ (.scratch addr)
      (List.range VLEN).mapM fun i => do
        return (.mem (base.toNat + i), ← σ (.scratch (src + i)))
  | valu op dest a1 a2 => (List.range VLEN).mapM fun i => aluLane σ op dest a1 a2 i
  | multiplyAdd dest a b c =>
      (List.range VLEN).mapM fun i => do
        let product := (← σ (.scratch (a + i))) * (← σ (.scratch (b + i)))
        return (.scratch (dest + i), product + (← σ (.scratch (c + i))))
  | vbroadcast dest src => do
      let val ← σ (.scratch src)
      return (List.range VLEN).map fun i => (.scratch (dest + i), val)

/-- A bundle: the slots of each engine, in the order in which the engines are listed. -/
abbrev Instruction := List (Engine × List SerializedInstruction)

namespace Machine

/-- The slots of one engine, all reading the state `m`. -/
def engineWrites (m : Machine) : Engine × List SerializedInstruction → Option (List (Loc × Word))
  | (engine, slots) =>
      if slots.length ≤ SLOT_LIMITS engine then
        (slots.mapM fun slot => if slot.engine = engine then slot.writes m.read else none).map
          List.flatten
      else none

def step (m : Machine) (instr : Instruction) : Option Machine := do
  let writes ← instr.mapM m.engineWrites
  writes.flatten.foldlM write m

/-- `Machine.run` on a program of straight-line bundles. -/
def run (m : Machine) (program : List Instruction) : Option Machine :=
  program.foldlM step m

/-- A cycle with a single slot. -/
def exec (m : Machine) (slot : SerializedInstruction) : Option Machine :=
  m.step [(slot.engine, [slot])]

theorem exec_eq (m : Machine) (slot : SerializedInstruction) :
    m.exec slot = (slot.writes m.read).bind fun writes => writes.foldlM write m := by
  have hlimit : 1 ≤ SLOT_LIMITS slot.engine := by
    cases slot.engine <;> decide
  cases h : slot.writes m.read <;> simp [exec, step, engineWrites, hlimit, h]

end Machine

end Explore.Takehome
