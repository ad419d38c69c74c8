import Explore.Takehome.TemplateMeans
import Mathlib.Data.Finset.Dedup

/-!
# The text of the kernel

`input_to_program` writes a program for the height of a tree, a batch and a number of rounds, and
parses it. The pieces of the text are read once, and give each thread its statements round by
round.
-/

namespace Explore.Takehome

open Lines Parse Peg

/-- Lines as a text. -/
def lines (ls : List String) : Text := ls.flatMap fun l => l.toList ++ ['\n']

def globalPreamble : Text := lines
  ["",
    "register[] temp1, temp2, temp3, temp4",
    "register[] treevals",
    "",
    "treevals = @14",
    "register[] b0 = treevals[0]",
    "register[] b1 = treevals[1]",
    "register[] b2 = treevals[2]",
    "register[] b3 = treevals[3]",
    "register[] b4 = treevals[4]",
    "register[] b5 = treevals[5]",
    "register[] b6 = treevals[6]",
    "register[] b7 = treevals[7]",
    "",
    "treevals = @7",
    "register[] t0 = treevals[0]",
    "register[] t1 = treevals[1]",
    "register[] t2 = treevals[2]",
    "register[] t4 = treevals[4]",
    "register[] t5 = treevals[5]",
    "register[] t6 = treevals[6]",
    "treevals = treevals[3] # treevals = t3",
    "",
    "",
    "register inp_values_ptr = @6",
    "end global"]

def threadPreamble : Text := lines
  ["",
    "# Compiler fills in implicit registers tidx and tidxlen",
    "# Declare if you want to use them",
    "thread register tidxlen",
    "",
    "# Work registers",
    "thread register[] v, idx, p1, p2",
    "",
    "tidxlen = tidxlen + inp_values_ptr",
    "v = @tidxlen",
    ""]

def level0Header : Text := lines ["", "v = v ^ t0"]

def level0Footer : Text := lines ["", "idx = v % 2"]

def level1Header : Text := lines ["", "p1 = idx ? t2 : t1", "v = v ^ p1"]

def level1ValuHeader : Text := lines ["", "p2 = t2 - t1", "p1 = idx * p2 + t1", "v = v ^ p1"]

def level1Footer : Text := lines ["", "p1 = v % 2"]

def level21Header : Text := lines
  ["",
    "p2 = p1 ? t6 : t5",
    "temp1 =  p1 ? t4 : treevals",
    "p2 = idx ? p2 : temp1",
    "",
    "idx = idx - -5",
    "idx = idx * 2 + p1",
    "v = v ^ p2"]

def level22Header : Text := lines
  ["",
    "p2 = p1 ? t6 : t5",
    "temp2 =  p1 ? t4 : treevals",
    "p2 = idx ? p2 : temp2",
    "",
    "idx = idx - -5",
    "idx = idx * 2 + p1",
    "v = v ^ p2"]

def level2Footer : Text := lines ["", "p1 = v % 2", "p2 = p1 ? -5 : -6", "idx = idx * 2 + p2"]

def level3Header : Text := lines ["", "p1 = @idx[]", "v = v ^ p1"]

def level3FlowBasedHeader : Text := lines
  ["",
    "",
    "p2 = idx - 19",
    "p1 = p2 ? b0 : b5",
    "",
    "p2 = p2 + 2",
    "p1 = p2 ? p1 : b3",
    "",
    "p2 = p2 + 2",
    "p1 = p2 ? p1 : b1",
    "",
    "p2 = p2 + -6",
    "p1 = p2 ? p1 : b7",
    "",
    "p2 = p2 - -5",
    "p1 = p2 ? p1 : b2",
    "",
    "p2 = p2 - 2",
    "p1 = p2 ? p1 : b4",
    "",
    "p2 = p2 - 2",
    "p1 = p2 ? p1 : b6",
    "",
    "v = v ^ p1"]

def level3FlowBasedFooter : Text := lines
  ["", "p1 = v % 2", "p2 = p1 ? -5 : -6", "idx = idx * 2 + p2"]

def computation : Text := lines
  ["",
    "",
    "# Stage 1",
    "v = v * 4097 + 0x7ED55D16",
    "",
    "# Stage 2",
    "p1 = v ^ 0xC761C23C",
    "p2 = v >> 19",
    "v = p1 ^ p2",
    "",
    "# Fuse stages 3 and 4",
    "p1 = v * 33 + 3925396509",
    "p2 = v * 16896 + 2899272192 ",
    "v = p1 ^ p2",
    "",
    "# Stage 5",
    "v = v * 9 + 0xFD7046C5 ",
    "",
    "# Stage 6",
    "p1 = v ^ 0xB55A4F09",
    "p2 = v >> 16",
    "v = p1 ^ p2"]

def levelFooter : Text := lines
  ["", "p1 = v % 2", "p2 = p1 ? -5 : -6", "# p2 = p1 + -6", "idx = idx * 2 + p2"]

def footer : Text := lines ["", "@tidxlen = v"]

def conditionalL1 (size : ℕ) (specialNodes : Finset ℤ) : Option (Text × Text) := do
  let template ← makeTemplate size specialNodes
  return (template.using level1ValuHeader level1Header, level1Footer)

def conditionalL21 (size : ℕ) (specialNodes : Finset ℤ) : Option (Text × Text) := do
  let template ← makeTemplate size specialNodes
  return (template.using level21Header level22Header, level2Footer)

def conditionalL22 (size : ℕ) (specialNodes : Finset ℤ) : Option (Text × Text) := do
  let template ← makeTemplate size specialNodes
  return (template.using (replace "temp1".toList "temp3".toList level21Header)
    (replace "temp2".toList "temp4".toList level22Header), level2Footer)

def conditionalL3 (size : ℕ) (specialNodes : Finset ℤ) : Option (Text × Text) := do
  let template ← makeTemplate size specialNodes
  return (template.using level3FlowBasedHeader level3Header,
    template.using level3FlowBasedFooter levelFooter)

def conditionalFooter (size : ℕ) (specialNodes : Finset ℤ) : Option Text := do
  let template ← makeTemplate size specialNodes
  return template.using footer footer

/-- `set(range(start, stop, step))` -/
def rangeSet (start stop step : ℤ) : Finset ℤ :=
  (((List.range (stop - start).toNat).map fun k : ℕ => start + (k : ℤ)).filter
    fun i => (i - start) % step = 0).toFinset

/-- `h` and `f` in the loop of `input_to_program_text`. -/
def roundHeaderFooter (nthreads level r : ℕ) : Option (Text × Text) :=
  if level = 0 then some (level0Header, level0Footer)
  else if level = 1 ∧ r = 1 then conditionalL1 nthreads (rangeSet 0 32 1)
  else if level = 1 ∧ 1 < r then conditionalL1 nthreads (rangeSet 0 0 1)
  else if level = 2 ∧ r = 2 then conditionalL21 nthreads (rangeSet 0 32 2)
  else if level = 2 ∧ 2 < r then conditionalL22 nthreads (rangeSet 0 32 2)
  else if level = 3 ∧ r = 3 then conditionalL3 nthreads (rangeSet 2 nthreads 1)
  else if level = 3 ∧ 3 < r then conditionalL3 nthreads (rangeSet 0 nthreads 1)
  else some (level3Header, levelFooter)

/-- What the loop adds for round `r`. -/
def roundText (height nthreads rounds r : ℕ) : Option Text := do
  let level := r % (height + 1)
  let (h, f) ← roundHeaderFooter nthreads level r
  let f := if level = height ∨ r = rounds - 1 then [] else f
  return "\n######### Round ".toList ++ decimal r ++ " #########\n".toList ++ h ++ computation ++ f

def inputToProgramText (height batchSize rounds : ℕ) : Option Text := do
  let nthreads := batchSize / VLEN
  let ret ← (List.range rounds).foldlM
    (fun ret r => do return ret ++ (← roundText height nthreads rounds r))
    (globalPreamble ++ threadPreamble)
  return ret ++ (← conditionalFooter nthreads ∅)

def inputToProgram (height batchSize rounds : ℕ) : Option Program :=
  if batchSize % VLEN = 0 then do
    let (program, rest) ← Parse.program (← inputToProgramText height batchSize rounds)
    if rest = [] then program.translate else none
  else none

/-! ### What the pieces say -/

/-- `dest = left op right` -/
def binStmt (dest left : String) (op : AluOp) (right : VarOrConstant) : PlainStmt :=
  .loadVariable dest (.binOp (.var left) op right)

/-- `dest = cond ? a : b` -/
def selectStmt (dest cond a b : String) : PlainStmt :=
  .loadVariable dest (.select (.var cond) (.var a) (.var b))

/-- A constant without a sign. -/
def const (digits : List (Fin 10)) : VarOrConstant := .const (.numberString false digits)

def negConst (digits : List (Fin 10)) : VarOrConstant := .const (.numberString true digits)

def hexConst (digits : List ℕ) : VarOrConstant :=
  .const (.numberStringHex (digits.map fun d => ⟨d % 16, Nat.mod_lt d (by decide)⟩))

/-- `register[] dest = treevals[k]` -/
def broadcastStmt (dest : String) (k : Fin 10) : PlainStmt :=
  .variableDefinition .registers dest (.variable "treevals" (some (.numberString false [k])))

def globalStmts : List PlainStmt :=
  [.variableDeclaration .registers "temp1" ["temp2", "temp3", "temp4"],
    .variableDeclaration .registers "treevals" [],
    .loadVariable "treevals" (.derefConstant (.numberString false [1, 4])),
    broadcastStmt "b0" 0, broadcastStmt "b1" 1, broadcastStmt "b2" 2, broadcastStmt "b3" 3,
    broadcastStmt "b4" 4, broadcastStmt "b5" 5, broadcastStmt "b6" 6, broadcastStmt "b7" 7,
    .loadVariable "treevals" (.derefConstant (.numberString false [7])),
    broadcastStmt "t0" 0, broadcastStmt "t1" 1, broadcastStmt "t2" 2, broadcastStmt "t4" 4,
    broadcastStmt "t5" 5, broadcastStmt "t6" 6,
    .loadVariable "treevals" (.variable "treevals" (some (.numberString false [3]))),
    .variableDefinition .register "inp_values_ptr" (.derefConstant (.numberString false [6]))]

def threadPreambleStmts : List PlainStmt :=
  [.variableDeclaration .register "tidxlen" [],
    .variableDeclaration .registers "v" ["idx", "p1", "p2"],
    binStmt "tidxlen" "tidxlen" .add (.var "inp_values_ptr"),
    .loadVariable "v" (.derefVariable "tidxlen")]

def level0HeaderStmts : List PlainStmt := [binStmt "v" "v" .xor (.var "t0")]

def level0FooterStmts : List PlainStmt := [binStmt "idx" "v" .mod (const [2])]

def level1HeaderStmts : List PlainStmt :=
  [selectStmt "p1" "idx" "t2" "t1", binStmt "v" "v" .xor (.var "p1")]

def level1ValuHeaderStmts : List PlainStmt :=
  [binStmt "p2" "t2" .sub (.var "t1"), .loadVariable "p1" (.multAdd "idx" (.var "p2") (.var "t1")),
    binStmt "v" "v" .xor (.var "p1")]

def level1FooterStmts : List PlainStmt := [binStmt "p1" "v" .mod (const [2])]

/-- The header of level 2, with one of four temporary variables. -/
def level2HeaderStmts (temp : String) : List PlainStmt :=
  [selectStmt "p2" "p1" "t6" "t5", selectStmt temp "p1" "t4" "treevals",
    selectStmt "p2" "idx" "p2" temp, binStmt "idx" "idx" .sub (negConst [5]),
    .loadVariable "idx" (.multAdd "idx" (const [2]) (.var "p1")), binStmt "v" "v" .xor (.var "p2")]

def level3HeaderStmts : List PlainStmt :=
  [.loadVariable "p1" (.derefIndividualWords "idx"), binStmt "v" "v" .xor (.var "p1")]

def level3FlowBasedHeaderStmts : List PlainStmt :=
  [binStmt "p2" "idx" .sub (const [1, 9]), selectStmt "p1" "p2" "b0" "b5",
    binStmt "p2" "p2" .add (const [2]), selectStmt "p1" "p2" "p1" "b3",
    binStmt "p2" "p2" .add (const [2]), selectStmt "p1" "p2" "p1" "b1",
    binStmt "p2" "p2" .add (negConst [6]), selectStmt "p1" "p2" "p1" "b7",
    binStmt "p2" "p2" .sub (negConst [5]), selectStmt "p1" "p2" "p1" "b2",
    binStmt "p2" "p2" .sub (const [2]), selectStmt "p1" "p2" "p1" "b4",
    binStmt "p2" "p2" .sub (const [2]), selectStmt "p1" "p2" "p1" "b6",
    binStmt "v" "v" .xor (.var "p1")]

def levelFooterStmts : List PlainStmt :=
  [binStmt "p1" "v" .mod (const [2]),
    .loadVariable "p2" (.select (.var "p1") (negConst [5]) (negConst [6])),
    .loadVariable "idx" (.multAdd "idx" (const [2]) (.var "p2"))]

def computationStmts : List PlainStmt :=
  [.loadVariable "v" (.multAdd "v" (const [4, 0, 9, 7]) (hexConst [7, 14, 13, 5, 5, 13, 1, 6])),
    binStmt "p1" "v" .xor (hexConst [12, 7, 6, 1, 12, 2, 3, 12]),
    binStmt "p2" "v" .shr (const [1, 9]), binStmt "v" "p1" .xor (.var "p2"),
    .loadVariable "p1" (.multAdd "v" (const [3, 3]) (const [3, 9, 2, 5, 3, 9, 6, 5, 0, 9])),
    .loadVariable "p2"
      (.multAdd "v" (const [1, 6, 8, 9, 6]) (const [2, 8, 9, 9, 2, 7, 2, 1, 9, 2])),
    binStmt "v" "p1" .xor (.var "p2"),
    .loadVariable "v" (.multAdd "v" (const [9]) (hexConst [15, 13, 7, 0, 4, 6, 12, 5])),
    binStmt "p1" "v" .xor (hexConst [11, 5, 5, 10, 4, 15, 0, 9]),
    binStmt "p2" "v" .shr (const [1, 6]), binStmt "v" "p1" .xor (.var "p2")]

def footerStmts : List PlainStmt := [.storeMemory "tidxlen" (.variable "v" none)]

/-- The statements before the hash that a thread has in round `r`. -/
def roundHeaderStmts (nthreads level r tid : ℕ) : List PlainStmt :=
  if level = 0 then level0HeaderStmts
  else if level = 1 then
    if (tid : ℤ) ∈ (if r = 1 then rangeSet 0 32 1 else rangeSet 0 0 1) then level1ValuHeaderStmts
    else level1HeaderStmts
  else if level = 2 then
    if (tid : ℤ) ∈ rangeSet 0 32 2 then level2HeaderStmts (if r = 2 then "temp1" else "temp3")
    else level2HeaderStmts (if r = 2 then "temp2" else "temp4")
  else if level = 3 then
    if (tid : ℤ) ∈ (if r = 3 then rangeSet 2 nthreads 1 else rangeSet 0 nthreads 1) then
      level3FlowBasedHeaderStmts
    else level3HeaderStmts
  else level3HeaderStmts

/-- The statements after the hash. -/
def roundFooterStmts (level : ℕ) : List PlainStmt :=
  if level = 0 then level0FooterStmts else if level = 1 then level1FooterStmts else levelFooterStmts

def roundStmts (height nthreads rounds r tid : ℕ) : List PlainStmt :=
  let level := r % (height + 1)
  roundHeaderStmts nthreads level r tid ++ computationStmts ++
    if level = height ∨ r = rounds - 1 then [] else roundFooterStmts level

/-- What a thread of the kernel executes. -/
def kernelStmts (height nthreads rounds tid : ℕ) : List PlainStmt :=
  threadPreambleStmts ++ (List.range rounds).flatMap (roundStmts height nthreads rounds · tid) ++
    footerStmts

section Pieces

theorem readPlain_thread :
    readPlain threadPreamble = some threadPreambleStmts ∧
      readPlain computation = some computationStmts ∧ readPlain footer = some footerStmts := by
  decide +kernel

theorem readPlain_level0 :
    readPlain level0Header = some level0HeaderStmts ∧
      readPlain level0Footer = some level0FooterStmts := by
  decide +kernel

theorem readPlain_level1 :
    readPlain level1Header = some level1HeaderStmts ∧
      readPlain level1ValuHeader = some level1ValuHeaderStmts ∧
      readPlain level1Footer = some level1FooterStmts := by
  decide +kernel

theorem readPlain_level2 :
    readPlain level21Header = some (level2HeaderStmts "temp1") ∧
      readPlain level22Header = some (level2HeaderStmts "temp2") ∧
      readPlain (replace "temp1".toList "temp3".toList level21Header) =
        some (level2HeaderStmts "temp3") ∧
      readPlain (replace "temp2".toList "temp4".toList level22Header) =
        some (level2HeaderStmts "temp4") ∧
      readPlain level2Footer = some levelFooterStmts := by
  decide +kernel

theorem readPlain_level3 :
    readPlain level3FlowBasedHeader = some level3FlowBasedHeaderStmts ∧
      readPlain level3FlowBasedFooter = some levelFooterStmts ∧
      readPlain level3Header = some level3HeaderStmts ∧
      readPlain levelFooter = some levelFooterStmts := by
  decide +kernel

/-- The texts that are special in some template. -/
theorem unmarked : '$' ∉ level1ValuHeader ∧ '$' ∉ level21Header ∧
    '$' ∉ replace "temp1".toList "temp3".toList level21Header ∧ '$' ∉ level3FlowBasedHeader ∧
    '$' ∉ level3FlowBasedFooter ∧ '$' ∉ footer := by
  decide +kernel

end Pieces

section Rounds

variable {n : ℕ}

/-- A comment on a line of its own. -/
theorem blank_comment {cs : Text} (hcs : ∀ c ∈ cs, c ≠ '\n') :
    Grammar.Blank ('\n' :: '#' :: cs ++ ['\n']) := by
  obtain ⟨a, ha⟩ := Grammar.nl_iff.mpr ⟨rfl, [], [], [], rfl, by simp, by simp, .inl rfl⟩
  obtain ⟨b, hb⟩ := Grammar.nl_iff.mpr ⟨rfl, [], '#' :: cs, [], rfl, by simp, by simp,
    .inr ⟨cs, rfl, hcs⟩⟩
  have hall := Language.star.cons ha (Language.star.cons hb .nil)
  simp only [List.nil_append, List.append_nil] at hall
  exact ⟨_, _, hall⟩

theorem roundMarks :
    "\n######### Round ".toList = '\n' :: '#' :: "######## Round ".toList ∧
      " #########\n".toList = " #########".toList ++ ['\n'] ∧
      (∀ c ∈ "######## Round ".toList, c ≠ '\n') ∧ ∀ c ∈ " #########".toList, c ≠ '\n' := by
  decide +kernel

theorem reads_round (r : ℕ) :
    Reads ("\n######### Round ".toList ++ decimal r ++ " #########\n".toList) [] := by
  obtain ⟨hopen, hclose, hbefore, hafter⟩ := roundMarks
  have hdecimal : ∀ c ∈ decimal r, c ≠ '\n' := by
    rintro c hc rfl
    exact absurd (isDigit_of_mem_decimal (Int.natCast_nonneg r) hc) (by decide)
  have hblank := blank_comment <| List.forall_mem_append.mpr
    ⟨List.forall_mem_append.mpr ⟨hbefore, hdecimal⟩, hafter⟩
  rw [hopen, hclose]
  refine ⟨[], .nil ?_, rfl⟩
  simpa only [List.cons_append, List.append_assoc] using hblank

/-- Statements that lowering may read in another way: a move without an index, a store with one. -/
def PlainStmt.isMove : PlainStmt → Bool
  | .variableDefinition _ _ (.variable _ none) | .loadVariable _ (.variable _ none) => true
  | .storeMemory _ (.variable _ (some _)) => true
  | _ => false

theorem PlainStmt.not_misread {stmt : PlainStmt} {isRegisters : String → Prop}
    (h : stmt.isMove = false) : ¬ stmt.Misread isRegisters := by
  intro hmisread
  unfold Misread at hmisread
  split at hmisread
  · cases h
  · cases h
  · cases h
  · exact hmisread

/-- A text of statements without moves that declares variables and gives each thread the statements
of `f`. -/
def Says (n : ℕ) (declared : List (VarType × String)) (f : ℕ → List PlainStmt) (w : Text) : Prop :=
  ∃ stmts, Reads w stmts ∧ Gives n f stmts ∧
    ((reachStmts (fun _ => true) stmts).map Prod.fst).flatMap PlainStmt.declared = declared ∧
    ∀ stmt ∈ (reachStmts (fun _ => true) stmts).map Prod.fst, stmt.isMove = false

theorem Says.append {w w' : Text} {declared declared' : List (VarType × String)}
    {f g : ℕ → List PlainStmt} (h : Says n declared f w) (h' : Says n declared' g w') :
    Says n (declared ++ declared') (fun tid => f tid ++ g tid) (w ++ w') := by
  obtain ⟨stmts, hreads, hgives, rfl, hmoves⟩ := h
  obtain ⟨stmts', hreads', hgives', rfl, hmoves'⟩ := h'
  refine ⟨_, hreads.append hreads', hgives.append hgives', ?_, ?_⟩
  · rw [reachStmts_append, List.map_append, List.flatMap_append]
  · rw [reachStmts_append, List.map_append]
    exact List.forall_mem_append.mpr ⟨hmoves, hmoves'⟩

theorem Says.congr {w : Text} {declared : List (VarType × String)} {f g : ℕ → List PlainStmt}
    (h : Says n declared f w) (same : ∀ tid, f tid = g tid) : Says n declared g w := by
  obtain rfl := funext same
  exact h

theorem says_plain {w : Text} {plain : List PlainStmt} (h : readPlain w = some plain)
    (hmoves : ∀ stmt ∈ plain, stmt.isMove = false) (n : ℕ) :
    Says n (plain.flatMap PlainStmt.declared) (fun _ => plain) w := by
  have hplain : (reachStmts (fun _ => true) (plain.map .plain)).map Prod.fst = plain := by
    rw [reachStmts_plain, List.map_map]
    exact List.map_id plain
  refine ⟨_, reads_of_readPlain h, gives_plain n plain, ?_, ?_⟩
  · rw [hplain]
  · rw [hplain]
    exact hmoves

theorem says_round (n r : ℕ) :
    Says n [] (fun _ => []) ("\n######### Round ".toList ++ decimal r ++ " #########\n".toList) :=
  ⟨[], reads_round r, gives_plain n [], rfl, List.forall_mem_nil _⟩

/-- A template of texts whose statements are known. -/
theorem exists_template {specialNodes : Finset ℤ} {S T : Text} {ss ts : List PlainStmt} (hn : 0 < n)
    (hnodes : ∀ x ∈ specialNodes, 0 ≤ x ∧ x < n) (hS : readPlain S = some ss)
    (hT : readPlain T = some ts) (hmarks : '$' ∉ S)
    (undeclared : (ss ++ ts).flatMap PlainStmt.declared = [])
    (hmoves : ∀ stmt ∈ ss ++ ts, stmt.isMove = false) :
    ∃ t, makeTemplate n specialNodes = some t ∧
      Says n [] (fun tid => if (tid : ℤ) ∈ specialNodes then ss else ts) (t.using S T) := by
  obtain ⟨t, stmts, ht, hreads, hgives, hkinds⟩ := exists_using hn hnodes
    (reads_of_readPlain hS).body (reads_of_readPlain hT).body hmarks
  have hmem : ∀ stmt ∈ (reachStmts (fun _ => true) stmts).map Prod.fst, stmt ∈ ss ++ ts := by
    intro stmt hstmt
    obtain ⟨x, hx, rfl⟩ := List.mem_map.mp hstmt
    exact List.mem_append.mpr (hkinds x hx)
  exact ⟨t, ht, stmts, hreads, hgives, List.flatMap_eq_nil_iff.mpr fun stmt hstmt =>
    List.flatMap_eq_nil_iff.mp undeclared stmt (hmem stmt hstmt),
    fun stmt hstmt => hmoves stmt (hmem stmt hstmt)⟩

theorem mem_rangeSet {start stop step i : ℤ} :
    i ∈ rangeSet start stop step ↔ start ≤ i ∧ i < stop ∧ (i - start) % step = 0 := by
  simp only [rangeSet, List.mem_toFinset, List.mem_filter, List.mem_map, List.mem_range,
    decide_eq_true_eq]
  constructor
  · rintro ⟨⟨k, hk, rfl⟩, hstep⟩
    exact ⟨by omega, by omega, hstep⟩
  · rintro ⟨hstart, hstop, hstep⟩
    exact ⟨⟨(i - start).toNat, by omega, by omega⟩, hstep⟩

theorem rangeSet_bounds {start stop step : ℤ} (hstart : 0 ≤ start) (hstop : stop ≤ n) :
    ∀ x ∈ rangeSet start stop step, 0 ≤ x ∧ x < n := fun _ hx =>
  ⟨hstart.trans (mem_rangeSet.mp hx).1, (mem_rangeSet.mp hx).2.1.trans_le hstop⟩

/-- A header and a footer with the statements of a round. -/
structure SaysRound (n level r : ℕ) (h f : Text) : Prop where
  header : Says n [] (roundHeaderStmts n level r) h
  footer : Says n [] (fun _ => roundFooterStmts level) f

theorem saysRound_template {specialNodes : Finset ℤ} {S T f : Text} {ss ts : List PlainStmt}
    (level r : ℕ) (hn : 0 < n) (hnodes : ∀ x ∈ specialNodes, 0 ≤ x ∧ x < n)
    (hS : readPlain S = some ss) (hT : readPlain T = some ts) (hmarks : '$' ∉ S)
    (undeclared : (ss ++ ts).flatMap PlainStmt.declared = [])
    (hmoves : ∀ stmt ∈ ss ++ ts, stmt.isMove = false)
    (hheader : ∀ tid, roundHeaderStmts n level r tid = if (tid : ℤ) ∈ specialNodes then ss else ts)
    (hf : Says n [] (fun _ => roundFooterStmts level) f) :
    ∃ t, makeTemplate n specialNodes = some t ∧ SaysRound n level r (t.using S T) f := by
  obtain ⟨t, ht, hpiece⟩ := exists_template hn hnodes hS hT hmarks undeclared hmoves
  exact ⟨t, ht, hpiece.congr fun tid => (hheader tid).symm, hf⟩

theorem exists_roundHeaderFooter {level r : ℕ} (hn : 0 < n) (hle : level ≤ r)
    (hmany : level = 0 ∨ 32 ≤ n) :
    ∃ h f, roundHeaderFooter n level r = some (h, f) ∧ SaysRound n level r h f := by
  have h32 (hne : level ≠ 0) : (32 : ℤ) ≤ n := by
    have := hmany.resolve_left hne
    omega
  match level with
  | 0 =>
      obtain ⟨hheader, hfooter⟩ := readPlain_level0
      exact ⟨_, _, rfl, says_plain hheader (by decide) n, says_plain hfooter (by decide) n⟩
  | 1 =>
      obtain ⟨hheader, hvalu, hfooter⟩ := readPlain_level1
      by_cases hr : r = 1
      · have hnodes := @rangeSet_bounds n 0 32 1 (le_refl 0) (h32 Nat.one_ne_zero)
        obtain ⟨t, ht, hround⟩ := saysRound_template 1 r hn hnodes hvalu hheader unmarked.1 rfl
          (by decide) (fun tid => by simp [roundHeaderStmts, hr]) (says_plain hfooter (by decide) n)
        refine ⟨_, _, ?_, hround⟩
        simp [roundHeaderFooter, hr, conditionalL1, ht]
      · have hnodes := @rangeSet_bounds n 0 0 1 (le_refl 0) (Int.natCast_nonneg n)
        obtain ⟨t, ht, hround⟩ := saysRound_template 1 r hn hnodes hvalu hheader unmarked.1 rfl
          (by decide) (fun tid => by simp [roundHeaderStmts, hr]) (says_plain hfooter (by decide) n)
        have hlt : 1 < r := by omega
        refine ⟨_, _, ?_, hround⟩
        simp [roundHeaderFooter, hr, hlt, conditionalL1, ht]
  | 2 =>
      obtain ⟨hfirst, hsecond, hfirst', hsecond', hfooter⟩ := readPlain_level2
      have hnodes := @rangeSet_bounds n 0 32 2 (le_refl 0) (h32 (by decide))
      by_cases hr : r = 2
      · obtain ⟨t, ht, hround⟩ := saysRound_template 2 r hn hnodes hfirst hsecond
          unmarked.2.1 rfl (by decide) (fun tid => by simp [roundHeaderStmts, hr])
          (says_plain hfooter (by decide) n)
        refine ⟨_, _, ?_, hround⟩
        simp [roundHeaderFooter, hr, conditionalL21, ht]
      · obtain ⟨t, ht, hround⟩ := saysRound_template 2 r hn hnodes hfirst' hsecond'
          unmarked.2.2.1 rfl (by decide) (fun tid => by simp [roundHeaderStmts, hr])
          (says_plain hfooter (by decide) n)
        have hlt : 2 < r := by omega
        refine ⟨_, _, ?_, hround⟩
        simp [roundHeaderFooter, hr, hlt, conditionalL22, ht]
  | 3 =>
      obtain ⟨hflow, hflowFooter, hheader, hlevelFooter⟩ := readPlain_level3
      have hround (specialNodes : Finset ℤ) (hnodes : ∀ x ∈ specialNodes, 0 ≤ x ∧ x < n)
          (hstmts : ∀ tid, roundHeaderStmts n 3 r tid = if (tid : ℤ) ∈ specialNodes then
            level3FlowBasedHeaderStmts else level3HeaderStmts) :
          ∃ t, makeTemplate n specialNodes = some t ∧ SaysRound n 3 r
            (t.using level3FlowBasedHeader level3Header)
            (t.using level3FlowBasedFooter levelFooter) := by
        obtain ⟨t, ht, hpiece⟩ := exists_template hn hnodes hflowFooter hlevelFooter
          unmarked.2.2.2.2.1 rfl (by decide)
        obtain ⟨t', ht', hround⟩ := saysRound_template 3 r hn hnodes hflow hheader
          unmarked.2.2.2.1 rfl (by decide) hstmts (hpiece.congr fun tid => ite_self _)
        obtain rfl := Option.some.inj (ht.symm.trans ht')
        exact ⟨t, ht, hround⟩
      by_cases hr : r = 3
      · obtain ⟨t, ht, hround⟩ := hround (rangeSet 2 n 1)
          (rangeSet_bounds (by decide) (le_refl _)) fun tid => by simp [roundHeaderStmts, hr]
        refine ⟨_, _, ?_, hround⟩
        simp [roundHeaderFooter, hr, conditionalL3, ht]
      · obtain ⟨t, ht, hround⟩ := hround (rangeSet 0 n 1)
          (rangeSet_bounds (le_refl 0) (le_refl _)) fun tid => by simp [roundHeaderStmts, hr]
        have hlt : 3 < r := by omega
        refine ⟨_, _, ?_, hround⟩
        simp [roundHeaderFooter, hr, hlt, conditionalL3, ht]
  | k + 4 =>
      obtain ⟨-, -, hheader, hfooter⟩ := readPlain_level3
      have hplain := says_plain hheader (by decide) n
      exact ⟨_, _, rfl, hplain.congr fun tid => by simp [roundHeaderStmts],
        says_plain hfooter (by decide) n⟩

theorem exists_roundText {height rounds r : ℕ} (hn : 0 < n)
    (hmany : height = 0 ∨ rounds ≤ 1 ∨ 32 ≤ n) (hr : r < rounds) :
    ∃ w, roundText height n rounds r = some w ∧ Says n [] (roundStmts height n rounds r) w := by
  have hlevel : r % (height + 1) = 0 ∨ 32 ≤ n := by
    obtain rfl | hr' | hn' := hmany
    · exact .inl (Nat.mod_one r)
    · obtain rfl : r = 0 := by omega
      exact .inl (Nat.zero_mod _)
    · exact .inr hn'
  obtain ⟨h, f, hround, hheader, hfooter⟩ :=
    exists_roundHeaderFooter hn (Nat.mod_le r (height + 1)) hlevel
  have hstart := ((says_round n r).append hheader).append
    (says_plain readPlain_thread.2.1 (by decide) n)
  by_cases hlast : r % (height + 1) = height ∨ r = rounds - 1
  · refine ⟨_, ?_, hstart.congr fun tid => ?_⟩
    · rw [roundText, hround]
      simp [hlast]
    · simp [roundStmts, hlast]
  · refine ⟨_, ?_, (hstart.append hfooter).congr fun tid => ?_⟩
    · rw [roundText, hround]
      simp [hlast]
    · simp only [roundStmts, hlast, if_false, List.nil_append]

end Rounds

section Text

variable {n height rounds : ℕ}

theorem readGlobal_globalPreamble : readGlobal globalPreamble = some globalStmts := by
  decide +kernel

/-- The rounds of the text, one after the other. -/
theorem exists_roundTexts (hn : 0 < n) (hmany : height = 0 ∨ rounds ≤ 1 ∨ 32 ≤ n) (start : Text)
    {m : ℕ} (hm : m ≤ rounds) :
    ∃ w, (List.range m).foldlM
        (fun ret r => do return ret ++ (← roundText height n rounds r)) start = some (start ++ w) ∧
      Says n [] (fun tid => (List.range m).flatMap (roundStmts height n rounds · tid)) w := by
  induction m with
  | zero => exact ⟨[], by simp, [], ⟨[], .nil ⟨[], [], .nil⟩, rfl⟩, gives_plain n [], rfl,
      List.forall_mem_nil _⟩
  | succ m ih =>
      obtain ⟨w, hfold, hpiece⟩ := ih (Nat.le_of_succ_le hm)
      obtain ⟨w', hround, hpiece'⟩ := exists_roundText hn hmany hm
      refine ⟨w ++ w', ?_, (hpiece.append hpiece').congr fun tid => ?_⟩
      · rw [List.range_succ, List.foldlM_append, hfold, ← List.append_assoc]
        simp [hround]
      · rw [List.range_succ, List.flatMap_append, List.flatMap_singleton]

theorem inputToProgram_of_text {batchSize : ℕ} {text : Text} {parsed : Parse.Program}
    (hbatch : batchSize % VLEN = 0) (htext : inputToProgramText height batchSize rounds = some text)
    (hparse : Parse.program text = some (parsed, [])) :
    inputToProgram height batchSize rounds = parsed.translate := by
  rw [inputToProgram, if_pos hbatch, htext]
  simp [hparse]

/-- The variables of a kernel. -/
def kernelVars : List (VarType × String) :=
  globalStmts.flatMap PlainStmt.declared ++ threadPreambleStmts.flatMap PlainStmt.declared

/-- The statements of a program are those of a kernel. -/
structure IsKernel (height n rounds : ℕ) (program : Takehome.Program) : Prop where
  globals : program.globalStmts = globalStmts
  declared : program.declared = kernelVars
  gives : Gives n (kernelStmts height n rounds) program.threadStmts
  moves : ∀ stmt ∈ program.plainStmts, stmt.isMove = false

/-- The text of a kernel gives each thread the statements of the rounds. -/
theorem exists_inputToProgram (hn : 0 < n) (hmany : height = 0 ∨ rounds ≤ 1 ∨ 32 ≤ n) :
    ∃ program, inputToProgram height (VLEN * n) rounds = some program ∧
      IsKernel height n rounds program := by
  obtain ⟨w, hfold, hpiece⟩ := exists_roundTexts hn hmany (globalPreamble ++ threadPreamble)
    (le_refl rounds)
  have hnone : ∀ x ∈ (∅ : Finset ℤ), 0 ≤ x ∧ x < n := by simp
  obtain ⟨t, ht, hfooter⟩ := exists_template hn hnone readPlain_thread.2.2
    readPlain_thread.2.2 unmarked.2.2.2.2.2 rfl (by decide)
  obtain ⟨stmts, hreads, hgives, hdeclared, hmoves⟩ :=
    ((says_plain readPlain_thread.1 (by decide) n).append hpiece).append hfooter
  obtain ⟨parsed, hparse, htranslate⟩ := exists_program readGlobal_globalPreamble hreads
  have htext : inputToProgramText height (VLEN * n) rounds =
      some (globalPreamble ++ (threadPreamble ++ w ++ t.using footer footer)) := by
    rw [inputToProgramText, Nat.mul_div_cancel_left n (by decide), hfold, conditionalFooter, ht]
    simp
  refine ⟨⟨globalStmts, stmts⟩, ?_, rfl, ?_, hgives.congr fun tid _ => ?_,
    List.forall_mem_append.mpr
      ⟨show ∀ stmt ∈ globalStmts, stmt.isMove = false by decide, hmoves⟩⟩
  · rw [inputToProgram_of_text (Nat.mul_mod_right ..) htext hparse, htranslate]
  · rw [Program.declared, Program.plainStmts, List.flatMap_append, Program.threadPlain, hdeclared,
      List.append_nil, List.append_nil, kernelVars]
  · simp [kernelStmts]

end Text

section Accepted

variable {n height rounds : ℕ}

theorem of_makeTemplate {specialNodes : Finset ℤ} {t : Template}
    (h : makeTemplate n specialNodes = some t) : 0 < n ∧ ∀ x ∈ specialNodes, 0 ≤ x ∧ x < n := by
  rw [makeTemplate] at h
  split at h
  · assumption
  · cases h

/-- Every round of a text that there is has a text. -/
theorem exists_roundText_of_fold {start w : Text} {m r : ℕ}
    (h : (List.range m).foldlM (fun ret r => do return ret ++ (← roundText height n rounds r))
      start = some w) (hr : r < m) : ∃ w', roundText height n rounds r = some w' := by
  induction m generalizing w with
  | zero => cases hr
  | succ m ih =>
      rw [List.range_succ, List.foldlM_append] at h
      obtain ⟨mid, hmid, hlast⟩ := Option.bind_eq_some_iff.mp h
      obtain hr | rfl := Nat.lt_succ_iff_lt_or_eq.mp hr
      · exact ih hmid hr
      · rw [List.foldlM_cons] at hlast
        obtain ⟨_, hround, -⟩ := Option.bind_eq_some_iff.mp hlast
        obtain ⟨w', hw', -⟩ := Option.bind_eq_some_iff.mp hround
        exact ⟨w', hw'⟩

/-- Round 1 of a tree with two levels names 32 threads. -/
theorem of_roundText_one {w : Text} (hheight : height ≠ 0)
    (h : roundText height n rounds 1 = some w) : 32 ≤ n := by
  obtain ⟨⟨header, footer⟩, hround, -⟩ := Option.bind_eq_some_iff.mp h
  have hlevel : 1 % (height + 1) = 1 := Nat.mod_eq_of_lt (by omega)
  rw [hlevel] at hround
  obtain ⟨t, ht, -⟩ := Option.bind_eq_some_iff.mp hround
  have hlast := (of_makeTemplate ht).2 31 (mem_rangeSet.mpr (by decide))
  omega

/-- The text of a kernel is for whole vectors, and from the second level on for 32 of them. -/
theorem of_inputToProgram {batchSize : ℕ} {program : Takehome.Program}
    (h : inputToProgram height batchSize rounds = some program) :
    batchSize % VLEN = 0 ∧ 0 < batchSize ∧ (height = 0 ∨ rounds ≤ 1 ∨ 32 * VLEN ≤ batchSize) := by
  rw [inputToProgram] at h
  split at h
  · rename_i hbatch
    obtain ⟨text, htext, -⟩ := Option.bind_eq_some_iff.mp h
    obtain ⟨ret, hret, hfooter⟩ := Option.bind_eq_some_iff.mp htext
    obtain ⟨footer, hfooter, -⟩ := Option.bind_eq_some_iff.mp hfooter
    obtain ⟨t, ht, -⟩ := Option.bind_eq_some_iff.mp hfooter
    have hpos := (of_makeTemplate ht).1
    rw [VLEN] at hbatch hpos ⊢
    refine ⟨hbatch, by omega, ?_⟩
    by_cases hheight : height = 0
    · exact .inl hheight
    · by_cases hrounds : rounds ≤ 1
      · exact .inr (.inl hrounds)
      · obtain ⟨w, hw⟩ := exists_roundText_of_fold hret (Nat.lt_of_not_le hrounds)
        have hmany := of_roundText_one hheight hw
        rw [VLEN] at hmany
        exact .inr (.inr (by omega))
  · cases h

theorem isKernel_of_inputToProgram {batchSize : ℕ} {program : Takehome.Program}
    (hbatch : batchSize = VLEN * n) (hn : 0 < n)
    (h : inputToProgram height batchSize rounds = some program) :
    IsKernel height n rounds program := by
  obtain ⟨-, -, hmany⟩ := of_inputToProgram h
  rw [hbatch] at h hmany
  rw [VLEN] at hmany
  obtain ⟨program', h', hkernel⟩ := @exists_inputToProgram n height rounds hn
    (hmany.imp_right (Or.imp_right fun hle => by omega))
  obtain rfl := Option.some.inj (h.symm.trans h')
  exact hkernel

/-- A kernel is generated exactly for batches of whole vectors, of which there is one at least; and
from the second level on there are at least 32 of them, as the text names the threads below 32. -/
theorem inputToProgram_isSome_iff (height batchSize rounds : ℕ) :
    (inputToProgram height batchSize rounds).isSome = true ↔
      batchSize % VLEN = 0 ∧ 0 < batchSize ∧
        (height = 0 ∨ rounds ≤ 1 ∨ 32 * VLEN ≤ batchSize) := by
  constructor
  · intro h
    obtain ⟨program, h⟩ := Option.isSome_iff_exists.mp h
    exact of_inputToProgram h
  · rintro ⟨hbatch, hpos, hmany⟩
    obtain ⟨n, rfl⟩ := Nat.dvd_of_mod_eq_zero hbatch
    rw [VLEN] at hpos hmany
    obtain ⟨program, hprogram, -⟩ := @exists_inputToProgram n height rounds (by omega)
      (hmany.imp_right (Or.imp_right fun h => by omega))
    rw [hprogram]
    rfl

end Accepted

end Explore.Takehome
