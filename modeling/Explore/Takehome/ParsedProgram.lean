import Explore.Takehome.Ast
import Explore.Takehome.Blocks
import Explore.Takehome.RoundTrip

/-!
# From texts to programs

The compiler takes what the parser gives as it is. In the model the parser keeps names, digits and
operators as texts, so there is a translation into the programs that are lowered. It fails on
operators and types that the grammar does not have.
-/

namespace Explore.Takehome.Parse

open Peg

/-- The operators of `Machine.alu` that the grammar has. -/
def operatorOf (op : Text) : Option AluOp :=
  if op = ['*'] then some .mul
  else if op = ['+'] then some .add
  else if op = ['^'] then some .xor
  else if op = ['>', '>'] then some .shr
  else if op = ['-'] then some .sub
  else if op = ['<', '<'] then some .shl
  else if op = ['%'] then some .mod
  else if op = ['=', '='] then some .eq
  else if op = ['<'] then some .lt
  else none

/-- The value of a hexadecimal digit. -/
def digitValue (c : Char) : ℕ :=
  if isDigit c then c.toNat - '0'.toNat
  else if 'A' ≤ c && c ≤ 'F' then c.toNat - 'A'.toNat + 10
  else c.toNat - 'a'.toNat + 10

def IntConstantExpr.translate : IntConstantExpr → Takehome.IntConstantExpr
  | .numberStringHex value =>
      .numberStringHex ((value.drop 2).map fun c => Fin.ofNat 16 (digitValue c))
  | .numberString value =>
      let minus := value.head? = some '-'
      .numberString minus ((if minus then value.drop 1 else value).map fun c =>
        Fin.ofNat 10 (digitValue c))

def VarOrConst.translate : VarOrConst → VarOrConstant
  | .name x => .var (String.ofList x)
  | .const expr => .const expr.translate

def Condition.translate : Condition → Option Takehome.Condition
  | .name x => some (.var (String.ofList x))
  | .condExpr left op right => do return .cmp left.translate (← operatorOf op) right.translate

def ValueExpr.translate : ValueExpr → Option Takehome.ValueExpr
  | .selectExpr cond ifTrue ifFalse => do
      return .select (← cond.translate) ifTrue.translate ifFalse.translate
  | .multAddExpr factor1 factor2 add =>
      some (.multAdd (String.ofList factor1) factor2.translate add.translate)
  | .derefIndividualWords name => some (.derefIndividualWords (String.ofList name))
  | .derefVariable name => some (.derefVariable (String.ofList name))
  | .derefConstant expr => some (.derefConstant expr.translate)
  | .binOpExpr left op right => do return .binOp left.translate (← operatorOf op) right.translate
  | .variable name index =>
      some (.variable (String.ofList name) (index.map IntConstantExpr.translate))
  | .intConstant expr => some (.intConstant expr.translate)

def varTypeOf (varType : Text) : Option VarType :=
  if varType = registerArray then some .registers
  else if varType = register then some .register
  else none

def VariableDeclarationStmt.translate : VariableDeclarationStmt → Option PlainStmt
  | .variableDeclaration varType name otherNames => do
      return .variableDeclaration (← varTypeOf varType) (String.ofList name)
        (otherNames.map String.ofList)
  | .variableDefinition varType name value => do
      return .variableDefinition (← varTypeOf varType) (String.ofList name) (← value.translate)

def AssignmentStmt.translate : AssignmentStmt → Option PlainStmt
  | .loadVariable name value => do return .loadVariable (String.ofList name) (← value.translate)
  | .storeMemory name value => do return .storeMemory (String.ofList name) (← value.translate)

def GlobalStmt.translate : GlobalStmt → Option PlainStmt
  | .declaration stmt => stmt.translate
  | .assignment stmt => stmt.translate
  | .pause => some .pause

def TidRange.translate (range : TidRange) : Takehome.TidRange :=
  ⟨range.start.translate, range.stop.translate⟩

mutual

def ThreadLocalStmt.translate : ThreadLocalStmt → Option Takehome.ThreadLocalStmt
  | .threadLocalVariable decl => do return .plain (← decl.translate)
  | .assignment stmt => do return .plain (← stmt.translate)
  | .pause => some (.plain .pause)
  | .tidIfElse ranges stmts => do
      return .tidIfElse (ranges.map TidRange.translate) (← translateBranches stmts)

def translateStmts : List ThreadLocalStmt → Option (List Takehome.ThreadLocalStmt)
  | [] => some []
  | stmt :: stmts => do return (← stmt.translate) :: (← translateStmts stmts)

def translateBranches :
    List (List ThreadLocalStmt) → Option (List (List Takehome.ThreadLocalStmt))
  | [] => some []
  | stmts :: branches => do return (← translateStmts stmts) :: (← translateBranches branches)

end

def Program.translate (program : Program) : Option Takehome.Program := do
  return ⟨← program.globalProg.mapM GlobalStmt.translate, ← translateStmts program.threadProg⟩

section Reads

variable {w w' : Text} {parsed : List ThreadLocalStmt}
  {stmts stmts' : List Takehome.ThreadLocalStmt}

theorem translateStmts_append {parsed' : List ThreadLocalStmt}
    (h : translateStmts parsed = some stmts) (h' : translateStmts parsed' = some stmts') :
    translateStmts (parsed ++ parsed') = some (stmts ++ stmts') := by
  induction parsed generalizing stmts with
  | nil =>
      obtain rfl := Option.some.inj h
      exact h'
  | cons stmt parsed ih =>
      rw [translateStmts] at h
      obtain ⟨first, hfirst, h⟩ := Option.bind_eq_some_iff.mp h
      obtain ⟨rest, hrest, h⟩ := Option.bind_eq_some_iff.mp h
      obtain rfl := Option.some.inj h
      rw [List.cons_append, translateStmts, hfirst, ih hrest]
      rfl

/-- A text of statements, and what they are. -/
def Reads (w : Text) (stmts : List Takehome.ThreadLocalStmt) : Prop :=
  ∃ parsed, Grammar.Block w parsed ∧ translateStmts parsed = some stmts

/-- The same after the end of a line. -/
def ReadsBody (w : Text) (stmts : List Takehome.ThreadLocalStmt) : Prop :=
  ∃ parsed, Grammar.Body w parsed ∧ translateStmts parsed = some stmts

theorem Reads.append (h : Reads w stmts) (h' : Reads w' stmts') :
    Reads (w ++ w') (stmts ++ stmts') := by
  obtain ⟨parsed, hblock, hstmts⟩ := h
  obtain ⟨parsed', hblock', hstmts'⟩ := h'
  exact ⟨_, hblock.append hblock', translateStmts_append hstmts hstmts'⟩

theorem ReadsBody.reads (h : ReadsBody w stmts) : Reads w stmts := by
  obtain ⟨parsed, hbody, hstmts⟩ := h
  exact ⟨parsed, hbody.block, hstmts⟩

theorem Reads.body (h : Reads w stmts) : ReadsBody ('\n' :: w) stmts := by
  obtain ⟨parsed, hblock, hstmts⟩ := h
  exact ⟨parsed, hblock.body, hstmts⟩

theorem ReadsBody.indent (h : ReadsBody ('\n' :: w) stmts) (width : ℕ) :
    ReadsBody ('\n' :: Lines.indent width w ++ newline) stmts := by
  obtain ⟨parsed, hbody, hstmts⟩ := h
  exact ⟨parsed, hbody.indent width, hstmts⟩

theorem ReadsBody.spaces {before : Text} (hbefore : ∀ c ∈ before, isSpace c = true)
    (h : ReadsBody w stmts) : ReadsBody (before ++ w) stmts := by
  obtain ⟨parsed, hbody, hstmts⟩ := h
  exact ⟨parsed, hbody.spaces hbefore, hstmts⟩

/-- The statements of a program that has only statements of the threads. -/
def parseThread (w : Text) : Option (List Takehome.ThreadLocalStmt) := do
  let (program, rest) ← Parse.program (endGlobalText ++ '\n' :: w)
  if program.globalProg = [] ∧ rest = [] then translateStmts program.threadProg else none

theorem parseThread_of_reads (h : ReadsBody ('\n' :: w) stmts) : parseThread w = some stmts := by
  obtain ⟨parsed, ⟨depth, ts, w₁, w₂, ts₁, ts₂, u, hw, rfl, hnls, hbody⟩, hstmts⟩ := h
  have hend : Grammar.globalProgram .parsed (endGlobalText ++ w₁) ([] ++ ts₁) [] :=
    Language.bind_empty .nil
      (Language.map_intro (Language.bind_intro (Grammar.derived_lit _) hnls) _)
  have hprogram : Grammar.program .parsed (endGlobalText ++ w₁ ++ w₂) ([] ++ ts₁ ++ ts₂)
      ⟨[], parsed⟩ :=
    ⟨depth, [], _, [], _, [], rfl, rfl, .nil, Language.bind_intro hend
      (Language.map_intro hbody _)⟩
  rw [List.append_assoc, ← hw] at hprogram
  rw [parseThread, Grammar.complete_program hprogram]
  simpa using hstmts

theorem reads_of_parseThread (h : parseThread w = some stmts) : ReadsBody ('\n' :: w) stmts := by
  obtain ⟨⟨⟨globalProg, threadProg⟩, rest⟩, hparse, h⟩ := Option.bind_eq_some_iff.mp h
  dsimp only at h
  split at h
  · rename_i hempty
    obtain ⟨rfl, rfl⟩ := hempty
    obtain ⟨w', ts, hw, depth, w₁, w₂, ts₁, ts₂, lines, rfl, rfl, hlines, w₃, w₄, ts₃, ts₄, prog,
      rfl, rfl, ⟨w₅, w₆, ts₅, ts₆, globals, rfl, rfl, hglobals, w₇, w₈, ts₇, ts₈, u, rfl, rfl,
      ⟨w₉, w₁₀, ts₉, ts₁₀, _, rfl, rfl, ⟨rfl, rfl, rfl⟩, hnls⟩, rfl, rfl, rfl⟩, w₁₁, w₁₂, ts₁₁,
      ts₁₂, stmts', rfl, rfl, hstmts', rfl, rfl, heq⟩ := Grammar.sound_program _ _ _ hparse
    obtain ⟨rfl, rfl⟩ := Program.mk.inj heq
    cases hglobals
    cases hlines with
    | nil =>
        simp only [List.nil_append, List.append_nil, List.append_assoc] at hw
        rw [List.append_cancel_left hw]
        exact ⟨_, ⟨depth, _, Language.bind_intro hnls hstmts'⟩, h⟩
    | cons hfirst hrest =>
        -- No program begins with a blank line and with `end global`.
        have hline : Grammar.nls _ _ () :=
          Language.map_intro (Language.bind_intro hfirst (Language.map_intro hrest _)) _
        have hstart : Grammar.LineEnd (endGlobalText ++ '\n' :: w) := by
          rw [hw, List.append_nil]
          exact Grammar.lineEnd_of_nls hline
        obtain ⟨c, t, hdrop, hc⟩ := hstart
        obtain ⟨rfl, -⟩ := List.cons.inj (show 'e' :: _ = c :: t from hdrop)
        exact absurd hc (by decide)
  · cases h

/-- The parser of a block of plain statements. -/
def plainBlock : Parser (List ThreadLocalStmt) := do
  let _ ← Parser.star nl
  Parser.star (threadLocalStmt 1)

def plainOf : Takehome.ThreadLocalStmt → Option PlainStmt
  | .plain stmt => some stmt
  | .tidIfElse .. => none

/-- The plain statements of a text, if it has no others. -/
def readPlain (w : Text) : Option (List PlainStmt) := do
  let (parsed, rest) ← plainBlock w
  if rest = [] then (← translateStmts parsed).mapM plainOf else none

theorem eq_map_plain {plain : List PlainStmt} (h : stmts.mapM plainOf = some plain) :
    stmts = plain.map .plain := by
  induction stmts generalizing plain with
  | nil =>
      obtain rfl := Option.some.inj h
      rfl
  | cons stmt stmts ih =>
      rw [List.mapM_cons] at h
      obtain ⟨first, hfirst, h⟩ := Option.bind_eq_some_iff.mp h
      obtain ⟨others, hothers, h⟩ := Option.bind_eq_some_iff.mp h
      obtain rfl := Option.some.inj h
      cases stmt with
      | plain stmt =>
          obtain rfl := Option.some.inj hfirst
          rw [ih hothers, List.map_cons]
      | tidIfElse ranges stmts => cases hfirst

theorem reads_of_readPlain {plain : List PlainStmt} (hread : readPlain w = some plain) :
    Reads w (plain.map .plain) := by
  obtain ⟨⟨parsed, rest⟩, hparse, h⟩ := Option.bind_eq_some_iff.mp hread
  dsimp only at h
  split at h
  · rename_i hrest
    subst hrest
    obtain ⟨stmts, hstmts, hplain⟩ := Option.bind_eq_some_iff.mp h
    have hsound : Sound plainBlock (do
        let _ ← Language.star Grammar.nl
        Language.star (Grammar.threadLocalStmt .parsed 1)) :=
      (Sound.star Grammar.sound_nl).bind fun _ => .star (Grammar.sound_threadLocalStmt 1)
    obtain ⟨w', ts, rfl, hblock⟩ := hsound _ _ _ hparse
    rw [List.append_nil]
    exact ⟨parsed, ⟨1, ts, hblock⟩, hstmts.trans (congrArg some (eq_map_plain hplain))⟩
  · cases h

end Reads

section Programs

variable {w w' : Text} {stmts : List Takehome.ThreadLocalStmt}

/-- The parser of what comes before the statements of the threads. -/
def globalBlock : Parser (List GlobalStmt) := do
  let _ ← Parser.star nl
  globalProgram

/-- The global statements of a text, if it has no others. -/
def readGlobal (w : Text) : Option (List PlainStmt) := do
  let (parsed, rest) ← globalBlock w
  if rest = [] then parsed.mapM GlobalStmt.translate else none

/-- A program is its global statements and a block. -/
theorem exists_program {globals : List PlainStmt} (hglobals : readGlobal w = some globals)
    (hstmts : Reads w' stmts) :
    ∃ parsed, Parse.program (w ++ w') = some (parsed, []) ∧
      parsed.translate = some ⟨globals, stmts⟩ := by
  obtain ⟨⟨parsed, rest⟩, hparse, h⟩ := Option.bind_eq_some_iff.mp hglobals
  dsimp only at h
  split at h
  · rename_i hrest
    subst hrest
    have hsound : Sound globalBlock (do
        let _ ← Language.star Grammar.nl
        Grammar.globalProgram .parsed) :=
      (Sound.star Grammar.sound_nl).bind fun _ => Grammar.sound_globalProgram
    obtain ⟨_, ts, rfl, w₁, w₂, ts₁, ts₂, lines, rfl, rfl, hlines, hprog⟩ := hsound _ _ _ hparse
    obtain ⟨parsed', ⟨depth, ts', w₃, w₄, ts₃, ts₄, lines', rfl, rfl, hlines', hblock⟩,
      htranslate⟩ := hstmts
    have hend := Grammar.endsLine_globalProgram _ _ _ _ hprog ⟨_, _, hlines'⟩
    have hprogram : Grammar.program .parsed (w₁ ++ ((w₂ ++ w₃) ++ w₄)) (ts₁ ++ (ts₂ ++ ts₄))
        ⟨parsed, parsed'⟩ :=
      ⟨depth, Language.bind_intro hlines (Language.bind_intro hend (Language.map_intro hblock _))⟩
    have htext : w₁ ++ w₂ ++ [] ++ (w₃ ++ w₄) = w₁ ++ ((w₂ ++ w₃) ++ w₄) := by simp
    refine ⟨_, by rw [htext]; exact Grammar.complete_program hprogram, ?_⟩
    rw [Program.translate, h, htranslate]
    rfl
  · cases h

end Programs

end Explore.Takehome.Parse
