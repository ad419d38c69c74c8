import Explore.Takehome.LoweringMeans
import Explore.Takehome.Simulation

/-!
# Constants that are added

The instructions of a statement write the variable that it assigns, never the register of a
constant, and the setup of a constant comes before the first statement that uses it. So in
every run of the list an instruction that adds a constant finds its value, unless the slots of
`tidxlen` are set in advance: that borrows the register of the constant 2.
-/

namespace Explore.Takehome

/-- The operand that an instruction writes. -/
def Inst.dest {α : Type} : Inst α → Option α
  | .alu _ dest _ _ | .addImm dest _ _ | .vselect dest _ _ _ | .const dest _ | .load dest _
  | .vload dest _ | .valu _ dest _ _ | .multiplyAdd dest _ _ _ | .vbroadcast dest _ => some dest
  | .store .. | .vstore .. => none

/-- An instruction that writes no register but that of a variable. -/
def SetsVariable (linst : LogicalInstruction) : Prop :=
  ∀ op ∈ linst.dest, ∃ name part isRead, op = .reg ⟨.var name, part, isRead⟩

section Blocks

variable {ss ss' : ScratchSpace} {slot : ℤ} {slots a addr : ℕ} {isRead : Bool} {op : LogicalOp}
  {linst : LogicalInstruction} {inst : SerializedInstruction} {m m' : Machine}

/-- A word of the block that an operand is about. -/
def InBlock (ss : ScratchSpace) (slot : ℤ) (op : LogicalOp) (a : ℕ) : Prop :=
  ∃ r vm addr i, op = .reg r ∧ ss.varMetaOf r.name = some vm ∧ vm.addrOf slot = some addr ∧
    i < vm.length ∧ a = addr + i

theorem WordOp.inBlock (h : WordOp ss isRead op) (shaped : ss.Shaped slots)
    (haddr : op.addrOf ss slot = some a) : InBlock ss slot op a := by
  obtain ⟨name, offset, vm, rfl, hvm, hvec⟩ := h
  obtain ⟨vm', hvm', haddr⟩ := Option.bind_eq_some_iff.mp haddr
  obtain rfl := Option.some.inj (hvm.symm.trans hvm')
  obtain ⟨addr, hbase, hret⟩ := Option.bind_eq_some_iff.mp haddr
  obtain rfl := Option.some.inj hret
  refine ⟨_, vm, addr, offset, rfl, hvm, hbase, ?_, rfl⟩
  have hlength := (shaped.of_varMetaOf hvm).length
  by_cases hzero : offset = 0
  · rw [hzero]
    exact hlength.elim (fun h => h ▸ Nat.one_pos) fun h => h ▸ (by decide : 0 < VLEN)
  · rw [isVector_iff shaped hvm, if_pos (hvec hzero)]
    exact offset.isLt

theorem VectorOp.inBlock (h : VectorOp ss isRead op) (shaped : ss.Shaped slots)
    (haddr : op.addrOf ss slot = some addr) (ha : a ∈ lanes addr) : InBlock ss slot op a := by
  obtain ⟨name, vm, rfl, hvm, hvec⟩ := h
  obtain ⟨vm', hvm', haddr⟩ := Option.bind_eq_some_iff.mp haddr
  obtain rfl := Option.some.inj (hvm.symm.trans hvm')
  obtain ⟨addr', hbase, hret⟩ := Option.bind_eq_some_iff.mp haddr
  obtain rfl : addr' + 0 = addr := Option.some.inj hret
  obtain ⟨hle, hlt⟩ := mem_lanes.mp ha
  have hlength : vm.length = 8 := (isVector_iff shaped hvm).trans (if_pos hvec)
  exact ⟨_, vm, addr', a - addr', rfl, hvm, hbase, by omega, by omega⟩

/-- A typed instruction writes words of its destination. -/
theorem Typed.targets (h : Typed ss linst) (shaped : ss.Shaped slots)
    (hinst : toSerialized ss slot linst = some inst) (ha : a ∈ inst.targets) :
    ∃ op ∈ linst.dest, InBlock ss slot op a := by
  simp only [toSerialized] at hinst
  cases h with
  | alu hd _ _ | const hd | load hd _ =>
      simp only [Inst.mapM, Option.bind_eq_bind, Option.bind_eq_some_iff, Option.pure_def,
        Option.some.injEq] at hinst
      obtain ⟨d, haddr, hinst⟩ := hinst
      have htargets : inst.targets = [d] := by
        obtain ⟨_, -, _, -, rfl⟩ := hinst
        rfl
      rw [htargets, List.mem_singleton] at ha
      exact ⟨_, rfl, hd.inBlock shaped (ha ▸ haddr)⟩
  | vselect hd _ _ _ | vload hd _ | valu hd _ _ | multiplyAdd hd _ _ _ | vbroadcast hd _ =>
      simp only [Inst.mapM, Option.bind_eq_bind, Option.bind_eq_some_iff, Option.pure_def,
        Option.some.injEq] at hinst
      obtain ⟨d, haddr, hinst⟩ := hinst
      have htargets : inst.targets = lanes d := by
        obtain ⟨_, -, _, -, _, -, rfl⟩ := hinst
        rfl
      rw [htargets] at ha
      exact ⟨_, rfl, hd.inBlock shaped haddr ha⟩
  | store | vstore =>
      simp only [Inst.mapM, Option.bind_eq_bind, Option.bind_eq_some_iff, Option.pure_def,
        Option.some.injEq] at hinst
      obtain ⟨_, -, _, -, rfl⟩ := hinst
      cases ha

/-- An instruction of a statement changes words of variables only. -/
theorem Typed.changesOnly (h : Typed ss linst) (sets : SetsVariable linst)
    (shaped : ss.Shaped slots) (hstep : Machine.execIn ss slot m linst = some m') :
    ChangesOnly (SlotWord ss slot) m m' := by
  obtain ⟨inst, hinst, hexec⟩ := Option.bind_eq_some_iff.mp hstep
  rw [Machine.exec_eq] at hexec
  obtain ⟨ws, hws, hland⟩ := Option.bind_eq_some_iff.mp hexec
  refine ⟨length_of_foldlM_write hland, fun a ha => ?_⟩
  obtain ⟨-, hread⟩ := read_of_foldlM_write hland
  have hnot : Loc.scratch a ∉ ws.map Prod.fst := by
    rw [Inst.map_fst_writes hws]
    intro hmem
    obtain htarget | hstored := List.mem_append.mp hmem
    · obtain ⟨a', ha', heq⟩ := List.mem_map.mp htarget
      obtain rfl := Loc.scratch.inj heq
      obtain ⟨op, hop, r, vm, addr, i, rfl, hvm, haddr, hi, rfl⟩ := h.targets shaped hinst ha'
      obtain ⟨name, part, isRead, heq⟩ := sets _ hop
      obtain rfl := LogicalOp.reg.inj heq
      exact ha ⟨name, vm, addr, i, hvm, haddr, hi, rfl⟩
    · obtain ⟨_, -, heq⟩ := List.mem_map.mp hstored
      cases heq
  have hsame := congrFun hread (.scratch a)
  rwa [overwrite_of_notMem hnot] at hsame

end Blocks

section Finds

variable {ss₀ ss : ScratchSpace} {slot imm : ℤ} {slots loc : ℕ} {op : LogicalOp}
  {linst : LogicalInstruction} {m : Machine}

/-- An instruction that adds a constant finds its value. -/
def FindsConstant (ss : ScratchSpace) (slot : ℤ) (m : Machine) (linst : LogicalInstruction) :
    Prop :=
  ∀ imm loc, Adds ss slot imm loc linst → m.scratch[loc]? = some (word imm)

/-- A word of the register of a constant. -/
theorem ConstsHold.of_inBlock (holds : ConstsHold ss₀ m) (hext : ss₀.Extends ss)
    (known : ∃ r, op = .reg r ∧ (ss₀.varMetaOf r.name).isSome) (block : InBlock ss slot op loc)
    (hconst : op.constantValue ss = some imm) : m.scratch[loc]? = some (word imm) := by
  obtain ⟨r, vm, addr, i, rfl, hvm, haddr, hi, rfl⟩ := block
  obtain ⟨_, heq, hknown⟩ := known
  obtain rfl := LogicalOp.reg.inj heq
  obtain ⟨vm', hvm'⟩ := Option.isSome_iff_exists.mp hknown
  obtain rfl := Option.some.inj ((hext.varMeta _ _ hvm').symm.trans hvm)
  obtain ⟨vm, hvm₁, hval⟩ := Option.bind_eq_some_iff.mp hconst
  obtain rfl := Option.some.inj (hvm.symm.trans hvm₁)
  have hname := ScratchSpace.name_of_varMetaOf hvm
  rw [VariableMeta.constantValue, hname] at hval
  cases hr : r.name with
  | var name =>
      rw [hr] at hval
      cases hval
  | const v isVector =>
      rw [hr] at hval hvm'
      obtain rfl := Option.some.inj hval
      exact holds v isVector _ hvm' _ (mem_words_of_addrOf haddr hi)

theorem WordOp.known {isRead : Bool} (h : WordOp ss isRead op) :
    ∃ r, op = .reg r ∧ (ss.varMetaOf r.name).isSome := by
  obtain ⟨name, offset, vm, rfl, hvm, -⟩ := h
  exact ⟨_, rfl, Option.isSome_iff_exists.mpr ⟨vm, hvm⟩⟩

theorem VectorOp.known {isRead : Bool} (h : VectorOp ss isRead op) :
    ∃ r, op = .reg r ∧ (ss.varMetaOf r.name).isSome := by
  obtain ⟨name, vm, rfl, hvm, -⟩ := h
  exact ⟨_, rfl, Option.isSome_iff_exists.mpr ⟨vm, hvm⟩⟩

theorem Typed.findsConstant (h : Typed ss₀ linst) (hext : ss₀.Extends ss)
    (shaped : ss.Shaped slots) (holds : ConstsHold ss₀ m) : FindsConstant ss slot m linst := by
  intro imm loc adds
  cases h with
  | @alu op _ _ b _ _ hb =>
      cases op with
      | add =>
          obtain ⟨hconst, haddr⟩ := adds
          exact holds.of_inBlock hext hb.known ((hb.mono hext).inBlock shaped haddr) hconst
      | _ => exact adds.elim
  | @valu op _ _ b _ _ hb =>
      cases op with
      | add =>
          obtain ⟨hconst, addr, haddr, hloc⟩ := adds
          exact holds.of_inBlock hext hb.known ((hb.mono hext).inBlock shaped haddr hloc) hconst
      | _ => exact adds.elim
  | multiplyAdd _ _ _ hc =>
      obtain ⟨hconst, addr, haddr, hloc⟩ := adds
      exact holds.of_inBlock hext hc.known ((hc.mono hext).inBlock shaped haddr hloc) hconst
  | _ => exact adds.elim

end Finds

section Statements

variable {ss₀ ss : ScratchSpace} {n : ℕ} {stmt : PlainStmt} {lowered : Lowered}
  {instrs : List LogicalInstruction}

/-- An instruction that adds no constant. -/
def AddsNone (linst : LogicalInstruction) : Prop := ∀ ss slot imm loc, ¬ Adds ss slot imm loc linst

theorem addsNone_constSetup (v : ℤ) (isVector : Bool) :
    ∀ linst ∈ Lowered.constSetup v isVector, AddsNone linst := by
  intro linst hlinst
  cases isVector with
  | false =>
      obtain rfl := List.mem_singleton.mp hlinst
      exact fun _ _ _ _ => id
  | true =>
      obtain rfl | hlinst := List.mem_cons.mp hlinst
      · exact fun _ _ _ _ => id
      · obtain rfl := List.mem_singleton.mp hlinst
        exact fun _ _ _ _ => id

theorem accumulates_addsNone : Accumulates fun st st' =>
    (∀ linst ∈ st.setup, AddsNone linst) → ∀ linst ∈ st'.setup, AddsNone linst where
  refl _ h := h
  trans _ _ _ h h' := fun hst => h' (h hst)
  const st st' v isVector op h := by
    obtain ⟨⟨ss, firstTime⟩, -, hret⟩ := Option.bind_eq_some_iff.mp h
    obtain ⟨rfl, -⟩ := Prod.mk.inj (Option.some.inj hret)
    intro hst
    cases firstTime with
    | false => exact hst
    | true => exact List.forall_mem_append.mpr ⟨hst, addsNone_constSetup v isVector⟩

/-- The setup of a statement adds no constants. -/
theorem addsNone_setup (hlower : lowerPlain ss₀ n stmt = some (lowered, instrs)) :
    ∀ linst ∈ lowered.setup, AddsNone linst := by
  have hempty : ∀ linst ∈ ([] : List LogicalInstruction), AddsNone linst := List.forall_mem_nil _
  cases stmt with
  | variableDeclaration varType name otherNames =>
      obtain ⟨ss₁, -, hret⟩ := Option.bind_eq_some_iff.mp hlower
      obtain ⟨rfl, -⟩ := Prod.mk.inj (Option.some.inj hret)
      exact hempty
  | variableDefinition varType name value =>
      obtain ⟨ss₁, -, hassign⟩ := Option.bind_eq_some_iff.mp hlower
      exact accumulates_addsNone.handleVariableAssignment hassign hempty
  | loadVariable name value => exact accumulates_addsNone.handleVariableAssignment hlower hempty
  | storeMemory name value => exact accumulates_addsNone.handleStoreMemory hlower hempty
  | pause =>
      obtain ⟨rfl, -⟩ := Prod.mk.inj (Option.some.inj hlower)
      exact hempty

theorem setsVariable_of_dest {linst : LogicalInstruction} {name : String} {isVector : Bool}
    (h : linst.dest = some (wholeVariable (.var name) isVector false)) : SetsVariable linst := by
  intro op hop
  obtain rfl := Option.some.inj (h.symm.trans hop)
  exact ⟨name, _, _, rfl⟩

theorem setsVariable_handleSelect {st st' : Lowered} {lname : String} {cond : Condition}
    {ifTrue ifFalse : VarOrConstant}
    (h : st.handleSelect lname cond ifTrue ifFalse = some (st', instrs)) :
    ∀ linst ∈ instrs, SetsVariable linst := by
  cases cond with
  | var name =>
      obtain ⟨caddr, -, h⟩ := Option.bind_eq_some_iff.mp h
      obtain ⟨_, -, h⟩ := Option.bind_eq_some_iff.mp h
      obtain ⟨_, -, hret⟩ := Option.bind_eq_some_iff.mp h
      obtain ⟨-, rfl⟩ := Prod.mk.inj (Option.some.inj hret)
      exact List.forall_mem_singleton.mpr (setsVariable_of_dest rfl)
  | cmp left op right =>
      obtain ⟨_, -, h⟩ := Option.bind_eq_some_iff.mp h
      obtain ⟨_, -, h⟩ := Option.bind_eq_some_iff.mp h
      obtain ⟨caddr, -, h⟩ := Option.bind_eq_some_iff.mp h
      obtain ⟨_, -, h⟩ := Option.bind_eq_some_iff.mp h
      obtain ⟨_, -, h⟩ := Option.bind_eq_some_iff.mp h
      obtain ⟨_, -, hret⟩ := Option.bind_eq_some_iff.mp h
      obtain ⟨-, rfl⟩ := Prod.mk.inj (Option.some.inj hret)
      exact List.forall_mem_cons.mpr
        ⟨setsVariable_of_dest rfl, List.forall_mem_singleton.mpr (setsVariable_of_dest rfl)⟩

theorem setsVariable_handleVariableAssignment {st st' : Lowered} {lname : String}
    {rvalue : ValueExpr} (h : st.handleVariableAssignment lname rvalue = some (st', instrs)) :
    ∀ linst ∈ instrs, SetsVariable linst := by
  have hsingle {linst : LogicalInstruction} {isVector : Bool}
      (h : linst.dest = some (wholeVariable (.var lname) isVector false)) :
      ∀ linst' ∈ [linst], SetsVariable linst' :=
    List.forall_mem_singleton.mpr (setsVariable_of_dest h)
  obtain ⟨vm, -, h⟩ := Option.bind_eq_some_iff.mp h
  cases rvalue with
  | derefIndividualWords rname =>
      obtain ⟨_, -, h⟩ := Option.bind_eq_some_iff.mp h
      obtain ⟨_, -, hret⟩ := Option.bind_eq_some_iff.mp h
      obtain ⟨-, rfl⟩ := Prod.mk.inj (Option.some.inj hret)
      intro linst hlinst op hop
      obtain ⟨i, -, rfl⟩ := List.mem_map.mp hlinst
      obtain rfl := Option.some.inj hop
      exact ⟨lname, _, _, rfl⟩
  | derefVariable rname =>
      obtain ⟨addr, -, hret⟩ := Option.bind_eq_some_iff.mp h
      obtain ⟨-, rfl⟩ := Prod.mk.inj (Option.some.inj hret)
      cases vm.isVector <;> exact hsingle rfl
  | derefConstant intconst =>
      obtain ⟨_, -, hret⟩ := Option.bind_eq_some_iff.mp h
      obtain ⟨-, rfl⟩ := Prod.mk.inj (Option.some.inj hret)
      cases vm.isVector <;> exact hsingle rfl
  | binOp left op right =>
      obtain ⟨_, -, h⟩ := Option.bind_eq_some_iff.mp h
      obtain ⟨_, -, hret⟩ := Option.bind_eq_some_iff.mp h
      obtain ⟨-, rfl⟩ := Prod.mk.inj (Option.some.inj hret)
      cases vm.isVector <;> exact hsingle rfl
  | multAdd factor1 factor2 add =>
      obtain ⟨_, -, h⟩ := Option.bind_eq_some_iff.mp h
      obtain ⟨_, -, h⟩ := Option.bind_eq_some_iff.mp h
      obtain ⟨_, -, h⟩ := Option.bind_eq_some_iff.mp h
      obtain ⟨_, -, hret⟩ := Option.bind_eq_some_iff.mp h
      obtain ⟨-, rfl⟩ := Prod.mk.inj (Option.some.inj hret)
      exact hsingle rfl
  | select cond ifTrue ifFalse =>
      obtain ⟨_, -, h⟩ := Option.bind_eq_some_iff.mp h
      exact setsVariable_handleSelect h
  | intConstant intconst =>
      dsimp only at h
      split at h
      · obtain ⟨_, -, hret⟩ := Option.bind_eq_some_iff.mp h
        obtain ⟨-, rfl⟩ := Prod.mk.inj (Option.some.inj hret)
        exact hsingle rfl
      · obtain ⟨-, rfl⟩ := Prod.mk.inj (Option.some.inj h)
        exact hsingle rfl
  | «variable» rname index =>
      obtain ⟨rhs, -, hret⟩ := Option.bind_eq_some_iff.mp h
      obtain ⟨-, rfl⟩ := Prod.mk.inj (Option.some.inj hret)
      cases vm.isVector <;> exact hsingle rfl

theorem setsVariable_handleStoreMemory {st st' : Lowered} {lname : String} {value : ValueExpr}
    (h : st.handleStoreMemory lname value = some (st', instrs)) :
    ∀ linst ∈ instrs, SetsVariable linst := by
  cases value with
  | «variable» rname index =>
      obtain ⟨vm, -, h⟩ := Option.bind_eq_some_iff.mp h
      obtain ⟨addr, -, hret⟩ := Option.bind_eq_some_iff.mp h
      obtain ⟨-, rfl⟩ := Prod.mk.inj (Option.some.inj hret)
      refine List.forall_mem_singleton.mpr fun op hop => ?_
      cases hvec : vm.isVector <;> rw [hvec] at hop <;> cases hop
  | _ => cases h

/-- The instructions of a statement write variables only. -/
theorem setsVariable_of_lowerPlain (hlower : lowerPlain ss₀ n stmt = some (lowered, instrs)) :
    ∀ linst ∈ instrs, SetsVariable linst := by
  cases stmt with
  | variableDeclaration varType name otherNames =>
      obtain ⟨ss₁, -, hret⟩ := Option.bind_eq_some_iff.mp hlower
      obtain ⟨-, rfl⟩ := Prod.mk.inj (Option.some.inj hret)
      exact List.forall_mem_nil _
  | variableDefinition varType name value =>
      obtain ⟨ss₁, -, hassign⟩ := Option.bind_eq_some_iff.mp hlower
      exact setsVariable_handleVariableAssignment hassign
  | loadVariable name value => exact setsVariable_handleVariableAssignment hlower
  | storeMemory name value => exact setsVariable_handleStoreMemory hlower
  | pause =>
      obtain ⟨-, rfl⟩ := Prod.mk.inj (Option.some.inj hlower)
      exact List.forall_mem_nil _

end Statements

section Lists

variable {ss₀ ss : ScratchSpace} {concThreads n : ℕ} {m m' : Machine}

/-- The scratch space has its size, and the constants of `ss₀` are set up. -/
def SetUp (ss₀ : ScratchSpace) (m : Machine) : Prop :=
  m.scratch.length = SCRATCH_SIZE ∧ ConstsHold ss₀ m

/-- From states with the constants of `ss₀`, the code adds only constants that it finds, and it
leads to states with those of `ss₁`. -/
abbrev ChecksConstants (ss : ScratchSpace) (concThreads : ℕ) (ss₀ : ScratchSpace)
    (code : List (LogicalInstruction × ℤ)) (ss₁ : ScratchSpace) : Prop :=
  StraightLine.Checks (Machine.execFor ss concThreads)
    (fun m entry => FindsConstant ss (workSlotOf entry.2 concThreads) m entry.1) (SetUp ss₀) code
    (SetUp ss₁)

/-- The instructions of statements whose constants are set up. -/
theorem checksConstants_of_typed (hext : ss₀.Extends ss) (shaped : ss.Shaped concThreads)
    {code : List (LogicalInstruction × ℤ)}
    (h : ∀ entry ∈ code, Typed ss₀ entry.1 ∧ SetsVariable entry.1) :
    ChecksConstants ss concThreads ss₀ code ss₀ := by
  refine .of_kept (fun entry hentry m m' hm hstep => ?_) fun entry hentry m hm => ?_
  · obtain ⟨htyped, hsets⟩ := h entry hentry
    have changes := (htyped.mono hext).changesOnly hsets shaped hstep
    refine ⟨changes.length.trans hm.1, fun v isVector vm hvm a ha => ?_⟩
    rw [changes.other a ?_]
    · exact hm.2 v isVector vm hvm a ha
    · rintro ⟨name, vm', addr, i, hvm', haddr, hi, rfl⟩
      have hne : ScratchName.const v isVector ≠ .var name := ScratchName.noConfusion
      exact notMem_words (hext.varMeta _ _ hvm) hvm' hne ha (mem_words_of_addrOf haddr hi)
  · exact (h entry hentry).1.findsConstant hext shaped hm.2

/-- The setup of a statement. -/
theorem checksConstants_setup {stmt : PlainStmt} {lowered : Lowered}
    {instrs : List LogicalInstruction} (hlower : lowerPlain ss₀ n stmt = some (lowered, instrs))
    (hext : lowered.ss.Extends ss) (shaped : ss.Shaped concThreads) (tid : ℤ) :
    ChecksConstants ss concThreads ss₀ (lowered.setup.map (·, tid)) lowered.ss := by
  refine .of_ends (fun entry hentry m => ?_) fun m hm => ?_
  · obtain ⟨linst, hlinst, rfl⟩ := List.mem_map.mp hentry
    exact fun imm loc adds => absurd adds (addsNone_setup hlower linst hlinst _ _ _ _)
  · obtain ⟨m', hrun, -, changes, hconsts⟩ := execAll_setup hlower hext shaped hm.1 hm.2
    refine ⟨m', ?_, changes.length.trans hm.1, hconsts⟩
    rw [foldlM_execFor]
    exact hrun

variable {slots : ℕ} {irp irp' : IRPipeline}

theorem checksConstants_globals (shaped : ss.Shaped concThreads) {stmts : List PlainStmt}
    (hlower : stmts.foldlM (IRPipeline.handlePlain concThreads true) irp = some irp')
    (hshaped : irp.ss.Shaped concThreads) (hext : irp'.ss.Extends ss) :
    ∃ news, irp'.graph.globalimetas = irp.graph.globalimetas ++ news ∧
      ChecksConstants ss concThreads irp.ss (news.map (·, -1)) irp'.ss := by
  induction stmts generalizing irp with
  | nil =>
      obtain rfl := Option.some.inj hlower
      exact ⟨[], (List.append_nil _).symm, .skip _⟩
  | cons stmt stmts ih =>
      rw [List.foldlM_cons] at hlower
      obtain ⟨mid, hstep, hrest⟩ := Option.bind_eq_some_iff.mp hlower
      obtain ⟨lowered, instrs, hplain, hss, hglobalimetas⟩ := handlePlain_global hstep
      obtain ⟨-, hsound, htyped⟩ := lowerPlain_spec hshaped (Or.inl rfl) hplain
      have hmid : mid.ss.Shaped concThreads := hss ▸ hsound.shaped
      have hmore : lowered.ss.Extends ss := hss ▸ (extends_of_globals hrest hmid).1.trans hext
      obtain ⟨news, hnews, hchecks⟩ := ih hrest hmid
      refine ⟨lowered.setup ++ instrs ++ news, ?_, ?_⟩
      · rw [hnews, hglobalimetas, List.append_assoc]
      · rw [List.map_append, List.map_append]
        have hsetup := checksConstants_setup hplain hmore shaped (-1)
        have hinstrs : ChecksConstants ss concThreads lowered.ss
            (instrs.map (·, -1)) lowered.ss := by
          refine checksConstants_of_typed hmore shaped fun entry hentry => ?_
          obtain ⟨linst, hlinst, rfl⟩ := List.mem_map.mp hentry
          exact ⟨htyped linst hlinst, setsVariable_of_lowerPlain hplain linst hlinst⟩
        exact (hsetup.seq hinstrs).seq (hss ▸ hchecks)

theorem checksConstants_setups (shaped : ss.Shaped concThreads) {xs : List (PlainStmt × TidSet)}
    {st st' : ScratchSpace × InstrGraph}
    (hlower : xs.foldlM (lowerTagged concThreads) st = some st')
    (hshaped : st.1.Shaped concThreads) (hext : st'.1.Extends ss)
    (hsets : ∀ entry ∈ st.2.imetas, SetsVariable entry.1) :
    (∃ news, st'.2.globalimetas = st.2.globalimetas ++ news ∧
      ChecksConstants ss concThreads st.1 (news.map (·, -1)) st'.1) ∧
      ∀ entry ∈ st'.2.imetas, SetsVariable entry.1 := by
  induction xs generalizing st with
  | nil =>
      obtain rfl := Option.some.inj hlower
      exact ⟨⟨[], (List.append_nil _).symm, .skip _⟩, hsets⟩
  | cons x xs ih =>
      rw [List.foldlM_cons] at hlower
      obtain ⟨mid, hstep, hrest⟩ := Option.bind_eq_some_iff.mp hlower
      obtain ⟨⟨lowered, instrs⟩, hplain, hret⟩ := Option.bind_eq_some_iff.mp hstep
      obtain rfl := Option.some.inj hret
      obtain ⟨-, hsound, -⟩ := lowerPlain_spec hshaped (Or.inr rfl) hplain
      have hmore := (extends_of_tagged hrest hsound.shaped).1.trans hext
      obtain ⟨⟨news, hnews, hchecks⟩, hall⟩ := ih hrest hsound.shaped fun entry hentry => by
        obtain hentry | hentry := List.mem_append.mp hentry
        · exact hsets entry hentry
        · obtain ⟨linst, hlinst, rfl⟩ := List.mem_map.mp hentry
          exact setsVariable_of_lowerPlain hplain linst hlinst
      refine ⟨⟨lowered.setup ++ news, ?_, ?_⟩, hall⟩
      · rw [hnews, ← List.append_assoc]
      · rw [List.map_append]
        exact (checksConstants_setup hplain hmore shaped (-1)).seq hchecks

end Lists

section Runs

variable {env : PackerEnv} {imetas : List InstrMeta} {effects : List Effect} {m m' : Machine}

theorem foldlM_of_runList
    (run : m.runList env.ss env.concThreads imetas = some (effects, m')) :
    (imetas.map fun x => (x.lin, x.tid)).foldlM (Machine.execFor env.ss env.concThreads) m =
      some m' := by
  induction imetas generalizing m effects with
  | nil =>
      obtain ⟨-, rfl⟩ := Prod.mk.inj (Option.some.inj run)
      rfl
  | cons x imetas ih =>
      obtain ⟨inst, hinst, run⟩ := Option.bind_eq_some_iff.mp run
      obtain ⟨effect, -, run⟩ := Option.bind_eq_some_iff.mp run
      obtain ⟨mid, hexec, run⟩ := Option.bind_eq_some_iff.mp run
      obtain ⟨⟨effects', m''⟩, hrest, hret⟩ := Option.bind_eq_some_iff.mp run
      obtain ⟨-, rfl⟩ := Prod.mk.inj (Option.some.inj hret)
      have hstep : Machine.execFor env.ss env.concThreads m (x.lin, x.tid) = some mid := by
        rw [Machine.execFor, Machine.execIn, hinst]
        exact hexec
      rw [List.map_cons, List.foldlM_cons, hstep]
      exact ih hrest

/-- The constants that a run of the list finds are those that the machine holds on the way. -/
theorem addsConstants_iff_along
    (run : m.runList env.ss env.concThreads imetas = some (effects, m')) :
    AddsConstants env imetas effects ↔
      StraightLine.Along (Machine.execFor env.ss env.concThreads)
        (fun m entry => FindsConstant env.ss (workSlotOf entry.2 env.concThreads) m entry.1) m
        (imetas.map fun x => (x.lin, x.tid)) := by
  induction imetas generalizing m effects with
  | nil => exact ⟨fun _ => trivial, fun _ z hz => by cases hz⟩
  | cons x imetas ih =>
      obtain ⟨inst, hinst, run⟩ := Option.bind_eq_some_iff.mp run
      obtain ⟨effect, heffect, run⟩ := Option.bind_eq_some_iff.mp run
      obtain ⟨mid, hexec, run⟩ := Option.bind_eq_some_iff.mp run
      obtain ⟨⟨effects', m''⟩, hrest, hret⟩ := Option.bind_eq_some_iff.mp run
      obtain ⟨rfl, rfl⟩ := Prod.mk.inj (Option.some.inj hret)
      have hfirst := addsConstant_iff (fires_of_exec hinst heffect hexec) hinst
      have hstep : Machine.execFor env.ss env.concThreads m (x.lin, x.tid) = some mid := by
        rw [Machine.execFor, Machine.execIn, hinst]
        exact hexec
      rw [AddsConstants, List.zip_cons_cons, List.forall_mem_cons, hfirst, List.map_cons,
        StraightLine.Along]
      refine and_congr Iff.rfl ((ih hrest).trans ⟨fun h s' hs' => ?_, fun h => h mid hstep⟩)
      obtain rfl := Option.some.inj (hstep.symm.trans hs')
      exact h

variable {program : Program} {irp : IRPipeline}

/-- Every list finds the constants that it adds, unless slots of `tidxlen` are set in
advance. -/
theorem addsConstants (accepted : programToIrp program env.numThreads env.concThreads = some irp)
    (work : getWork irp.ss irp.graph env.numThreads env.concThreads = some (env.ss, imetas))
    (few : irp.ss.hasVariable tidxlen = false ∨ env.concThreads ≤ 2 * VLEN)
    (hlength : m.scratch.length = SCRATCH_SIZE)
    (run : m.runList env.ss env.concThreads imetas = some (effects, m')) :
    AddsConstants env imetas effects := by
  have hcore := map_core_programToIrp program env.numThreads env.concThreads
  rw [accepted, Option.map_some] at hcore
  obtain ⟨irp₀, hglobals, hthreads⟩ := Option.bind_eq_some_iff.mp hcore.symm
  obtain ⟨tidmetas, moreglobal, htids, order⟩ := map_lin_getWork work
  have typed := wellTyped_of_programToIrp accepted
  have hempty : IRPipeline.new.ss.Shaped env.concThreads := List.forall_mem_nil _
  have hshaped₀ := (extends_of_globals hglobals hempty).2
  have hgrows : irp₀.ss.Extends irp.ss := (extends_of_tagged hthreads hshaped₀).1
  -- Nothing is set in advance.
  obtain ⟨hss, hmore, htidmetas⟩ : env.ss = irp.ss ∧ moreglobal = [] ∧ ∀ entry ∈ tidmetas,
      Typed irp.ss entry.2 ∧ SetsVariable entry.2 := by
    have tids := tidsOf_of_getTidmetas htids
    generalize env.ss = ss at tids ⊢
    cases tids with
    | none _ => exact ⟨rfl, rfl, List.forall_mem_nil _⟩
    | each hhas _ =>
        refine ⟨rfl, rfl, fun entry hentry => ?_⟩
        obtain ⟨tid, -, rfl⟩ := List.mem_map.mp hentry
        obtain ⟨vm, hvm⟩ := Option.isSome_iff_exists.mp hhas
        exact ⟨.const ⟨tidxlen, 0, vm, rfl, hvm, fun h => absurd rfl h⟩, setsVariable_of_dest rfl⟩
    | ahead hhas hmany _ _ _ =>
        obtain hnot | hfew := few
        · rw [hhas] at hnot
          cases hnot
        · exact absurd hmany (Nat.not_lt_of_le hfew)
  have hsame : irp.ss.Extends env.ss := hss ▸ .refl _
  have shaped : env.ss.Shaped env.concThreads := hss ▸ typed.shaped
  obtain ⟨news, hnews, hchecks₁⟩ :=
    checksConstants_globals shaped hglobals hempty (hgrows.trans hsame)
  have himetas : irp₀.core.2.imetas = [] := (foldlM_handlePlain_global hglobals).1
  obtain ⟨⟨setups, hsetups, hchecks₂⟩, hsets⟩ := checksConstants_setups shaped hthreads hshaped₀
    hsame (by rw [himetas]; exact List.forall_mem_nil _)
  have hthreads : ChecksConstants env.ss env.concThreads irp.ss
      ((List.range env.numThreads).flatMap fun tid =>
        (threadInsts irp.graph tidmetas tid).map (·, (tid : ℤ))) irp.ss := by
    refine checksConstants_of_typed hsame shaped fun entry hentry => ?_
    obtain ⟨tid, -, hentry⟩ := List.mem_flatMap.mp hentry
    obtain ⟨linst, hlinst, rfl⟩ := List.mem_map.mp hentry
    obtain hlinst | hlinst := List.mem_append.mp hlinst
    · obtain ⟨tidmeta, htidmeta, rfl⟩ := List.mem_map.mp hlinst
      exact htidmetas tidmeta (List.mem_filter.mp htidmeta).1
    · obtain ⟨tagged, htagged, rfl⟩ := List.mem_map.mp hlinst
      have hmem := (List.mem_filter.mp htagged).1
      exact ⟨typed.imetas tagged hmem, hsets tagged hmem⟩
  have hall := (hchecks₁.seq hchecks₂).seq hthreads
  rw [addsConstants_iff_along run, order, hmore, List.nil_append]
  have hglobalimetas : irp.graph.globalimetas = news ++ setups := by
    have hnews : irp₀.core.2.globalimetas = news := hnews
    rw [← hnews]
    exact hsetups
  rw [hglobalimetas, List.map_append]
  have hfold := foldlM_of_runList run
  rw [order, hmore, List.nil_append, hglobalimetas, List.map_append] at hfold
  refine (hall m m' ⟨hlength, fun v isVector vm hvm => ?_⟩ hfold).1
  cases hvm

/-- The sums that set slots of `tidxlen` find another value in the register of the constant 2. -/
theorem not_along_tidGlobals {ss : ScratchSpace} {concThreads base two : ℕ} {tid : ℤ}
    {code : List (LogicalInstruction × ℤ)} (blocks : TidBlocks ss concThreads base two)
    (hconc : 2 * VLEN < concThreads) (hlength : m.scratch.length = SCRATCH_SIZE) :
    ¬ StraightLine.Along (Machine.execFor ss concThreads)
      (fun m entry => FindsConstant ss (workSlotOf entry.2 concThreads) m entry.1) m
      ((tidGlobals concThreads).map (·, tid) ++ code) := by
  intro along
  have h8 : VLEN ≤ concThreads := by omega
  have hstart : TidState concThreads base two 0 m m :=
    ⟨hlength, rfl, fun _ hi => absurd hi (Nat.not_lt_zero _), fun _ _ _ => rfl⟩
  obtain ⟨m₁, hm₁, hstate₁, hconst₁⟩ := hstart.setConstant blocks (Nat.zero_le _)
    (workSlotOf tid concThreads) (VLEN * VLEN : ℕ)
  obtain ⟨m₂, hm₂, -, hconst₂⟩ := hstate₁.setSlots blocks h8 hconst₁ (workSlotOf tid concThreads)
  have hbefore : ((setConstant 2 (VLEN * VLEN : ℕ) ++ (List.range VLEN).map setSlot).map
      (·, tid)).foldlM (Machine.execFor ss concThreads) m = some m₂ := by
    rw [foldlM_execFor, execAll_append, hm₁]
    exact hm₂
  -- The first sum.
  obtain ⟨fuel, rfl⟩ : ∃ fuel, concThreads = fuel + 1 :=
    Nat.exists_eq_succ_of_ne_zero (Nat.ne_zero_of_lt hconc)
  obtain ⟨start, hstarts, -⟩ := @tidStarts_succ _ _ fuel hconc (Nat.le_refl VLEN) (by omega)
  rw [tidGlobals, hstarts, List.append_assoc, List.map_append, List.append_assoc] at along
  have hsum := (along.of_append hbefore).1 2 two
    ⟨by simp [wholeVariable, LogicalOp.constantValue, LogicalRegister.constantValue,
        VariableMeta.constantValue, blocks.two], two, blocks.addrOf_two true true,
      mem_lanes.mpr (by omega)⟩
  have hword : some (word 2) = some (word (VLEN * VLEN : ℕ)) :=
    hsum.symm.trans (hconst₂ 0 (by decide))
  exact absurd hword (by decide)

/-- For every accepted program: a run of the list finds the constants that it adds if and only
if no slots of `tidxlen` are set in advance. -/
theorem addsConstants_iff
    (accepted : programToIrp program env.numThreads env.concThreads = some irp)
    (work : getWork irp.ss irp.graph env.numThreads env.concThreads = some (env.ss, imetas))
    (register : (.registers, "tidxlen") ∉ program.declared)
    (hlength : m.scratch.length = SCRATCH_SIZE)
    (run : m.runList env.ss env.concThreads imetas = some (effects, m')) :
    AddsConstants env imetas effects ↔
      (.register, "tidxlen") ∉ program.declared ∨ env.concThreads ≤ 2 * VLEN := by
  have hdeclares := declares_of_programToIrp accepted
  have hhas : irp.ss.hasVariable tidxlen = true ↔ (.register, "tidxlen") ∈ program.declared := by
    rw [tidxlen, hasVariable_of_declares hdeclares, List.any_eq_true]
    constructor
    · rintro ⟨⟨varType, name⟩, hmem, hname⟩
      obtain rfl := of_decide_eq_true hname
      cases varType with
      | register => exact hmem
      | registers => exact absurd hmem register
    · exact fun hmem => ⟨_, hmem, decide_eq_true rfl⟩
  constructor
  · intro adds
    by_contra hnot
    rw [not_or, not_not, ← hhas, Nat.not_le] at hnot
    obtain ⟨hdeclared, hmany⟩ := hnot
    obtain ⟨tidmetas, moreglobal, htids, order⟩ := map_lin_getWork work
    have typed := wellTyped_of_programToIrp accepted
    obtain ⟨-, shaped, -⟩ := regular_getTidmetas typed.shaped htids
    have typedAs := hdeclares.sameVars (tidsOf_of_getTidmetas htids).sameVars
    have along := (addsConstants_iff_along run).mp adds
    have tids := tidsOf_of_getTidmetas htids
    rw [order, List.map_append, List.append_assoc] at along
    generalize env.ss = ss at tids along shaped typedAs
    cases tids with
    | none hnone =>
        rw [hdeclared] at hnone
        cases hnone
    | each _ hfew => exact absurd hmany (Nat.not_lt_of_le hfew)
    | @ahead _ _ vm _ _ halloc hvm hsize =>
        have hlen : vm.length = 1 := by
          rw [isVector_iff shaped hvm, if_neg]
          exact fun hvec => register ((typedAs.typedAs _ vm hvm).mp hvec)
        obtain ⟨two, -, blocks⟩ := tidBlocks_of_allocConst shaped halloc hvm hlen hsize
        exact not_along_tidGlobals blocks hmany hlength along
  · intro hfew
    refine addsConstants accepted work (hfew.imp (fun hnot => ?_) id) hlength run
    rwa [← hhas, Bool.not_eq_true] at hnot

/-- Each thread adds 2 to the place of its words. -/
def shifted : Program where
  globalStmts := []
  threadStmts :=
    [.plain (.variableDeclaration .register "tidxlen" []),
      .plain (.variableDefinition .register "p"
        (.binOp (.var "tidxlen") .add (.const (.numberString false [2]))))]

def blankMachine : Machine := ⟨List.replicate SCRATCH_SIZE 0, []⟩

/-- With two threads at a time the constants are found, with 17 they are not. -/
theorem addsConstants_iff_shifted :
    [2, 17].Forall fun n => ∃ irp ss imetas effects m', programToIrp shifted n n = some irp ∧
      getWork irp.ss irp.graph n n = some (ss, imetas) ∧
      blankMachine.runList ss n imetas = some (effects, m') ∧
      (AddsConstants (packerFor n ss) imetas effects ↔ n = 2) := by
  have hcheck : ∀ n ∈ [2, 17], (programToIrp shifted n n).any fun irp =>
      (getWork irp.ss irp.graph n n).any fun work =>
        (blankMachine.runList work.1 n work.2).isSome := by decide +kernel
  have hmany : ∀ n ∈ [2, 17],
      ((.register, "tidxlen") ∉ shifted.declared ∨ n ≤ 2 * VLEN ↔ n = 2) := by decide
  refine List.forall_iff_forall_mem.mpr fun n hn => ?_
  obtain ⟨irp, accepted, hcheck⟩ := (Option.any_eq_true ..).mp (hcheck n hn)
  obtain ⟨⟨ss, imetas⟩, work, hcheck⟩ := (Option.any_eq_true ..).mp hcheck
  obtain ⟨⟨effects, m'⟩, run⟩ := Option.isSome_iff_exists.mp hcheck
  let env : PackerEnv := packerFor n ss
  have henv : programToIrp shifted env.numThreads env.concThreads = some irp := accepted
  have hwork : getWork irp.ss irp.graph env.numThreads env.concThreads = some (env.ss, imetas) :=
    work
  have hrun : blankMachine.runList env.ss env.concThreads imetas = some (effects, m') := run
  exact ⟨irp, ss, imetas, effects, m', accepted, work, run,
    (addsConstants_iff henv hwork (by decide) List.length_replicate hrun).trans (hmany n hn)⟩

end Runs

end Explore.Takehome
