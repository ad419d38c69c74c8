import Explore.Takehome.Effects
import Explore.Takehome.Statements

/-!
# Lowering keeps the meaning of a program

The list of all instructions, executed one at a time, does what the interpretation does. The
global statements set up the constants as they need them, and those that the threads need are
set up before the first thread. A thread uses the registers of its slot, which the threads
before have left in any state; only the global variables carry over, which have one block for
all slots. With many concurrent threads `tidxlen` is set for the first ones in advance, and
stays set in the slots whose thread has not run yet.
-/

namespace Explore.Takehome

section Lists

variable {ss : ScratchSpace} {concThreads : ℕ} {slot : ℤ} {m m' : Machine}

/-- Execute an instruction in the slot of its thread. -/
def Machine.execFor (ss : ScratchSpace) (concThreads : ℕ) (m : Machine)
    (entry : LogicalInstruction × ℤ) : Option Machine :=
  Machine.execIn ss (workSlotOf entry.2 concThreads) m entry.1

theorem foldlM_execFor (m : Machine) (instrs : List LogicalInstruction) (tid : ℤ) :
    (instrs.map (·, tid)).foldlM (Machine.execFor ss concThreads) m =
      m.execAll ss (workSlotOf tid concThreads) instrs := by
  rw [List.foldlM_map]
  rfl

/-- An execution of the instructions of a list is a run of the list. -/
theorem exists_runList {xs : List InstrMeta}
    (h : (xs.map fun x => (x.lin, x.tid)).foldlM (Machine.execFor ss concThreads) m = some m') :
    ∃ effects, m.runList ss concThreads xs = some (effects, m') := by
  induction xs generalizing m with
  | nil =>
      obtain rfl := Option.some.inj h
      exact ⟨[], rfl⟩
  | cons x xs ih =>
      rw [List.map_cons, List.foldlM_cons] at h
      obtain ⟨mid, hstep, hrest⟩ := Option.bind_eq_some_iff.mp h
      obtain ⟨inst, hinst, hexec⟩ := Option.bind_eq_some_iff.mp hstep
      obtain ⟨effects, hrun⟩ := ih hrest
      have hwrites := hexec
      rw [Machine.exec_eq] at hwrites
      obtain ⟨ws, hws, -⟩ := Option.bind_eq_some_iff.mp hwrites
      refine ⟨⟨(inst.reads m.read).map fun l => (l, m.read l), ws⟩ :: effects, ?_⟩
      simp only [Machine.runList, hinst, Machine.effect, hws, hexec, hrun, Option.bind_eq_bind,
        Option.bind_some, Option.pure_def]

theorem map_zipIdx {α β : Type} (f : α → β) (xs : List α) :
    xs.zipIdx.map (fun entry => f entry.1) = xs.map f := by
  have hfst := congrArg (List.map f) (List.zipIdx_map_fst 0 xs)
  rwa [List.map_map] at hfst

/-- The instructions of `get_work`, thread by thread. -/
theorem map_lin_getWork {graph : InstrGraph} {numThreads : ℕ} {ss₀ : ScratchSpace}
    {imetas : List InstrMeta} (h : getWork ss₀ graph numThreads concThreads = some (ss, imetas)) :
    ∃ tidmetas moreglobal,
      getTidmetas ss₀ numThreads concThreads = some (ss, tidmetas, moreglobal) ∧
      imetas.map (fun x => (x.lin, x.tid)) =
        (moreglobal ++ graph.globalimetas).map (·, -1) ++ (List.range numThreads).flatMap fun tid =>
          (threadInsts graph tidmetas tid).map (·, (tid : ℤ)) := by
  obtain ⟨tidmetas, moreglobal, accesses, htids, -, rfl⟩ := getWork_eq_some h
  refine ⟨tidmetas, moreglobal, htids, ?_⟩
  have hzip := map_zipIdx (fun entry : LogicalInstruction × ℤ × ℤ => (entry.1, entry.2.1))
    (programOrder graph numThreads tidmetas moreglobal)
  rw [List.map_map]
  refine Eq.trans hzip ?_
  rw [programOrder, List.map_append, List.map_map, List.map_flatMap]
  refine congrArg _ (List.flatMap_congr fun tid _ => ?_)
  have hthread := map_zipIdx (fun linst : LogicalInstruction => (linst, (tid : ℤ)))
    (threadInsts graph tidmetas tid)
  rw [List.map_map]
  exact hthread

end Lists

section Statements

variable {ss₀ ss₁ ss : ScratchSpace} {slot : ℤ} {slots n : ℕ} {s s' : State} {m m₀ : Machine}
  {program : Program} {instrs : List LogicalInstruction} {irp irp' : IRPipeline}

theorem SlotWord.mono {a : ℕ} (h : SlotWord ss₀ slot a) (hext : ss₀.Extends ss) :
    SlotWord ss slot a := by
  obtain ⟨name, vm, addr, i, hvm, haddr, hi, rfl⟩ := h
  exact ⟨name, vm, addr, i, hext.varMeta _ _ hvm, haddr, hi, rfl⟩

/-- The setup of a statement. -/
theorem Agrees.setup {stmt : PlainStmt} {lowered : Lowered} (h : Agrees ss₁ ss slot s m)
    (hlower : lowerPlain ss₁ n stmt = some (lowered, instrs)) (hext : lowered.ss.Extends ss)
    (shaped : ss.Shaped slots) :
    ∃ m', m.execAll ss slot lowered.setup = some m' ∧ Agrees lowered.ss ss slot s m' ∧
      ChangesOnly (ConstWord ss) m m' := by
  obtain ⟨m', hrun, hmem, changes, hconsts⟩ := execAll_setup hlower hext shaped h.length h.consts
  refine ⟨m', hrun, ⟨changes.length.trans h.length, hmem.trans h.mem, fun name ws hws => ?_,
    hconsts⟩, changes⟩
  rw [wordsOf_kept changes]
  exact h.vars name ws hws

theorem extends_of_globals {concThreads : ℕ} {stmts : List PlainStmt}
    (hlower : stmts.foldlM (IRPipeline.handlePlain concThreads true) irp = some irp')
    (hshaped : irp.ss.Shaped slots) : irp.ss.Extends irp'.ss ∧ irp'.ss.Shaped slots := by
  obtain ⟨lowered, hlowered, -⟩ := lowerStmts_of_global hlower
  have hn : ∀ x ∈ stmts.map (·, 1), x.2 = 1 ∨ x.2 = slots := by
    intro x hx
    obtain ⟨stmt, -, rfl⟩ := List.mem_map.mp hx
    exact Or.inl rfl
  obtain ⟨hgrows, hshaped', -⟩ := lowerStmts_spec hshaped hn hlowered
  exact ⟨hgrows, hshaped'⟩

theorem extends_of_tagged {xs : List (PlainStmt × TidSet)} {st st' : ScratchSpace × InstrGraph}
    (hlower : xs.foldlM (lowerTagged slots) st = some st') (hshaped : st.1.Shaped slots) :
    st.1.Extends st'.1 ∧ st'.1.Shaped slots := by
  obtain ⟨lowered, hlowered, -⟩ := lowerStmts_of_tagged hlower
  have hn : ∀ x ∈ (xs.map Prod.fst).map (·, slots), x.2 = 1 ∨ x.2 = slots := by
    intro x hx
    obtain ⟨stmt, -, rfl⟩ := List.mem_map.mp hx
    exact Or.inr rfl
  obtain ⟨hgrows, hshaped', -⟩ := lowerStmts_spec hshaped hn hlowered
  exact ⟨hgrows, hshaped'⟩

/-- What the pass over the global statements does with one of them. -/
theorem handlePlain_global {concThreads : ℕ} {stmt : PlainStmt}
    (h : irp.handlePlain concThreads true stmt = some irp') :
    ∃ lowered instrs, lowerPlain irp.ss 1 stmt = some (lowered, instrs) ∧ irp'.ss = lowered.ss ∧
      irp'.graph.globalimetas = irp.graph.globalimetas ++ (lowered.setup ++ instrs) := by
  obtain ⟨⟨lowered, instrs⟩, hplain, hret⟩ := Option.bind_eq_some_iff.mp h
  obtain rfl := Option.some.inj hret
  rw [IRPipeline.foldl_add_global, IRPipeline.foldl_add_global]
  exact ⟨lowered, instrs, hplain, rfl, List.append_assoc _ _ _⟩

/-- The global statements, each after the constants that it is the first to use. -/
theorem globals_mean (laid : program.LaidOut slots ss) (hslot : 0 ≤ slot) (hlt : slot < slots)
    {concThreads : ℕ} {stmts : List PlainStmt}
    (hlower : stmts.foldlM (IRPipeline.handlePlain concThreads true) irp = some irp')
    (hshaped : irp.ss.Shaped slots) (hext : irp'.ss.Extends ss)
    (hread : ∀ stmt ∈ stmts, ¬ stmt.Misread program.isRegisters) (h : Agrees irp.ss ss slot s m)
    (hs : stmts.foldlM (PlainStmt.exec program.lengthOf) s = some s') :
    ∃ news m', irp'.graph.globalimetas = irp.graph.globalimetas ++ news ∧
      m.execAll ss slot news = some m' ∧ Agrees irp'.ss ss slot s' m' ∧
      ChangesOnly (fun a => SlotWord irp'.ss slot a ∨ ConstWord ss a) m m' := by
  induction stmts generalizing irp s m with
  | nil =>
      obtain rfl := Option.some.inj hlower
      obtain rfl := Option.some.inj hs
      exact ⟨[], m, (List.append_nil _).symm, rfl, h, .refl _ m⟩
  | cons stmt stmts ih =>
      rw [List.foldlM_cons] at hlower hs
      obtain ⟨mid, hstep, hrest⟩ := Option.bind_eq_some_iff.mp hlower
      obtain ⟨s₁, hs₁, hs⟩ := Option.bind_eq_some_iff.mp hs
      obtain ⟨lowered, instrs, hplain, hss, hglobalimetas⟩ := handlePlain_global hstep
      obtain ⟨-, hsound, -⟩ := lowerPlain_spec hshaped (Or.inl rfl) hplain
      obtain ⟨hstmt, hstmts⟩ := List.forall_mem_cons.mp hread
      have hmid : mid.ss.Shaped slots := hss ▸ hsound.shaped
      have hmore : lowered.ss.Extends irp'.ss := hss ▸ (extends_of_globals hrest hmid).1
      obtain ⟨m₁, hsetup, h₁, changes₁⟩ := h.setup hplain (hmore.trans hext) laid.shaped
      obtain ⟨m₂, hrun, h₂, changes₂⟩ := refines_plain laid hshaped (Or.inl rfl) hplain (.refl _)
        (hmore.trans hext) hslot hlt hstmt m₁ s s₁ m₁ ⟨h₁, .refl _ m₁⟩ hs₁
      obtain ⟨news, m', hnews, hrun', h', changes'⟩ := ih hrest hmid hstmts (hss ▸ h₂) hs
      refine ⟨lowered.setup ++ instrs ++ news, m', ?_, ?_, h', ?_⟩
      · rw [hnews, hglobalimetas, List.append_assoc]
      · rw [foldlM_execIn] at hrun
        rw [execAll_append, execAll_append, hsetup, Option.bind_some, hrun]
        exact hrun'
      · have hconst := changes₁.mono fun a ha => (Or.inr ha : SlotWord irp'.ss slot a ∨ _)
        have hvars := changes₂.mono fun a ha => (Or.inl (ha.mono hmore) : _ ∨ ConstWord ss a)
        exact (hconst.trans hvars).trans changes'

/-- The constants of the statements of the threads. -/
theorem setups_mean {xs : List (PlainStmt × TidSet)} {st st' : ScratchSpace × InstrGraph}
    (hlower : xs.foldlM (lowerTagged slots) st = some st') (hshaped : st.1.Shaped slots)
    (hext : st'.1.Extends ss) (shaped : ss.Shaped slots) (h : Agrees st.1 ss slot s m) :
    ∃ news m', st'.2.globalimetas = st.2.globalimetas ++ news ∧
      m.execAll ss slot news = some m' ∧ Agrees st'.1 ss slot s m' ∧
      ChangesOnly (ConstWord ss) m m' := by
  induction xs generalizing st m with
  | nil =>
      obtain rfl := Option.some.inj hlower
      exact ⟨[], m, (List.append_nil _).symm, rfl, h, .refl _ m⟩
  | cons x xs ih =>
      rw [List.foldlM_cons] at hlower
      obtain ⟨mid, hstep, hrest⟩ := Option.bind_eq_some_iff.mp hlower
      obtain ⟨⟨lowered, instrs⟩, hplain, hret⟩ := Option.bind_eq_some_iff.mp hstep
      obtain rfl := Option.some.inj hret
      obtain ⟨-, hsound, -⟩ := lowerPlain_spec hshaped (Or.inr rfl) hplain
      have hmore := (extends_of_tagged hrest hsound.shaped).1
      obtain ⟨m₁, hsetup, h₁, changes₁⟩ := h.setup hplain (hmore.trans hext) shaped
      obtain ⟨news, m', hnews, hrun', h', changes'⟩ := ih hrest hsound.shaped h₁
      refine ⟨lowered.setup ++ news, m', ?_, ?_, h', changes₁.trans changes'⟩
      · rw [hnews, ← List.append_assoc]
      · rw [execAll_append, hsetup]
        exact hrun'

theorem exec_of_not_generates {lengthOf : String → Option ℕ} {stmt : PlainStmt}
    (h : ¬ stmt.generates = true) : PlainStmt.exec lengthOf s stmt = some s := by
  cases stmt with
  | variableDeclaration | pause => rfl
  | variableDefinition | loadVariable | storeMemory => exact absurd rfl h

/-- The instructions that a thread is given refine the statements that it reaches. -/
theorem refines_thread (laid : program.LaidOut slots ss) (hslot : 0 ≤ slot) (hlt : slot < slots)
    {xs refs : List (PlainStmt × TidSet)} {st st' : ScratchSpace × InstrGraph}
    (hlower : xs.foldlM (lowerTagged slots) st = some st') (hshaped : st.1.Shaped slots)
    (hext₀ : st'.1.Extends ss₀) (hext : ss₀.Extends ss)
    (hread : ∀ x ∈ xs, ¬ x.1.Misread program.isRegisters) {tid : ℤ}
    (same : List.Forall₂ (fun x ref => x.1 = ref.1 ∧ (x.1.generates → x.2 tid = ref.2 tid)) xs refs)
    (m₀ : Machine) :
    ∃ news, st'.2.imetas = st.2.imetas ++ news ∧
      StraightLine.Refines (Machine.execIn ss slot)
        (fun s m => Agrees ss₀ ss slot s m ∧ ChangesOnly (SlotWord ss₀ slot) m₀ m)
        (fun s => (reachedBy tid refs).foldlM (PlainStmt.exec program.lengthOf) s)
        ((news.filter fun entry => entry.2 tid).map Prod.fst)
        (fun s m => Agrees ss₀ ss slot s m ∧ ChangesOnly (SlotWord ss₀ slot) m₀ m) := by
  let lengths := program.lengthOf
  induction same generalizing st with
  | nil =>
      obtain rfl := Option.some.inj hlower
      exact ⟨[], (List.append_nil _).symm, .skip _⟩
  | @cons x ref xs refs hx _ ih =>
      rw [List.foldlM_cons] at hlower
      obtain ⟨mid, hstep, hrest⟩ := Option.bind_eq_some_iff.mp hlower
      obtain ⟨⟨lowered, instrs⟩, hplain, hret⟩ := Option.bind_eq_some_iff.mp hstep
      obtain rfl := Option.some.inj hret
      obtain ⟨-, hsound, -⟩ := lowerPlain_spec hshaped (Or.inr rfl) hplain
      obtain ⟨hstmt, hstmts⟩ := List.forall_mem_cons.mp hread
      have hmore := (extends_of_tagged hrest hsound.shaped).1
      obtain ⟨news, hnews, hrefines⟩ := ih hrest hsound.shaped hstmts
      have hplain_refines := refines_plain laid hshaped (Or.inr rfl) hplain (hmore.trans hext₀) hext
        hslot hlt hstmt m₀
      refine ⟨instrs.map (·, x.2) ++ news, ?_, ?_⟩
      · rw [hnews, ← List.append_assoc]
      have hcode : ((instrs.map (·, x.2) ++ news).filter fun entry => entry.2 tid).map Prod.fst =
          (if x.2 tid then instrs else []) ++
            (news.filter fun entry => entry.2 tid).map Prod.fst := by
        rw [List.filter_append, List.map_append]
        cases htag : x.2 tid <;> simp [List.filter_map, Function.comp_def, htag]
      have hreached : reachedBy tid (ref :: refs) =
          (if ref.2 tid then [ref.1] else []) ++ reachedBy tid refs := by
        cases htag : ref.2 tid <;> simp [reachedBy, htag]
      have happend (s : State) : (reachedBy tid (ref :: refs)).foldlM (PlainStmt.exec lengths) s =
          ((if ref.2 tid then [ref.1] else []).foldlM (PlainStmt.exec lengths) s).bind fun s =>
            (reachedBy tid refs).foldlM (PlainStmt.exec lengths) s := by
        rw [hreached, List.foldlM_append]
        rfl
      rw [hcode, funext happend]
      refine StraightLine.Refines.seq ?_ hrefines
      obtain ⟨hsame, htag⟩ := hx
      rw [← hsame]
      by_cases hgen : x.1.generates = true
      · rw [← htag hgen]
        cases x.2 tid with
        | false => exact .skip _
        | true => simpa using hplain_refines
      · have hnil : instrs = [] := by
          by_contra hne
          exact hgen ((lowerPlain_ne_nil hplain).mp hne)
        have hskip (s : State) : (if ref.2 tid then [x.1] else []).foldlM
            (PlainStmt.exec lengths) s =
            some s := by
          split
          · simp [lengths, exec_of_not_generates hgen]
          · rfl
        rw [hnil, ite_self, funext hskip]
        exact .skip _

end Statements

section Tids

variable {ss₀ ss : ScratchSpace} {numThreads concThreads : ℕ}
  {tidmetas : List (ℕ × LogicalInstruction)} {moreglobal : List LogicalInstruction}

/-- The instruction that sets `tidxlen` at the start of a thread. -/
def setTid (tid : ℕ) : ℕ × LogicalInstruction :=
  (tid, .const (wholeVariable tidxlen false false) (tid * VLEN : ℕ))

/-- What `get_tidmetas` returns: nothing without `tidxlen`, an instruction for each thread, or
one for each thread but the first ones, which are set in advance. -/
inductive TidsOf (ss₀ : ScratchSpace) (numThreads concThreads : ℕ) :
    ScratchSpace → List (ℕ × LogicalInstruction) → List LogicalInstruction → Prop
  | none : ss₀.hasVariable tidxlen = false → TidsOf ss₀ numThreads concThreads ss₀ [] []
  | each : ss₀.hasVariable tidxlen = true → concThreads ≤ 2 * VLEN →
      TidsOf ss₀ numThreads concThreads ss₀ ((List.range numThreads).map setTid) []
  | ahead {ss : ScratchSpace} {firstTime : Bool} {vm : VariableMeta} :
      ss₀.hasVariable tidxlen = true → 2 * VLEN < concThreads →
      ss₀.allocConst 2 true = some (ss, firstTime) → ss.varMetaOf tidxlen = some vm →
      VLEN ≤ vm.size →
      TidsOf ss₀ numThreads concThreads ss
        ((List.range' concThreads (numThreads - concThreads)).map setTid) (tidGlobals concThreads)

theorem eq_map_of_mapM {α β : Type} {f : α → Option β} {g : α → β} {xs : List α} {ys : List β}
    (h : xs.mapM f = some ys) (hg : ∀ x y, f x = some y → y = g x) : ys = xs.map g := by
  have hmap := map_of_mapM (g := id) h hg
  rwa [List.map_id] at hmap

theorem eq_setTid {tid : ℕ} {entry : ℕ × LogicalInstruction} (h : tidMeta tid = some entry) :
    entry = setTid tid := by
  rw [tidMeta] at h
  split at h
  · exact (Option.some.inj h).symm
  · cases h

theorem tidsOf_of_getTidmetas
    (h : getTidmetas ss₀ numThreads concThreads = some (ss, tidmetas, moreglobal)) :
    TidsOf ss₀ numThreads concThreads ss tidmetas moreglobal := by
  obtain ⟨_, -, h⟩ := Option.bind_eq_some_iff.mp h
  split at h
  · rename_i hhas
    obtain ⟨rfl, rfl, rfl⟩ := by simpa using h
    exact .none (Bool.not_eq_true _ ▸ hhas)
  rename_i hhas
  have hhas : ss₀.hasVariable tidxlen = true := not_not.mp hhas
  split at h
  · rename_i hconc
    obtain ⟨tids, htids, hret⟩ := Option.bind_eq_some_iff.mp h
    obtain ⟨rfl, rfl, rfl⟩ := by simpa using hret
    rw [eq_map_of_mapM htids fun _ _ => eq_setTid]
    exact .each hhas hconc
  · rename_i hconc
    obtain ⟨⟨ss₁, firstTime⟩, halloc, h⟩ := Option.bind_eq_some_iff.mp h
    obtain ⟨firsts, hfirsts, h⟩ := Option.bind_eq_some_iff.mp h
    obtain ⟨adds, hadds, h⟩ := Option.bind_eq_some_iff.mp h
    obtain ⟨tids, htids, hret⟩ := Option.bind_eq_some_iff.mp h
    obtain ⟨rfl, rfl, rfl⟩ := by simpa using hret
    obtain ⟨_, _, hlast⟩ := getElem?_of_mapM hfirsts (List.getElem?_range (Nat.lt_succ_self 7))
    obtain ⟨a, ha, -⟩ := Option.bind_eq_some_iff.mp hlast
    obtain ⟨vm, hvm, hsize⟩ := Option.bind_eq_some_iff.mp ha
    have hsize : VLEN ≤ vm.size := by
      split at hsize
      · rename_i hbound
        exact hbound.1
      · cases hsize
    have hfirsts : firsts = (List.range VLEN).map setSlot := by
      apply eq_map_of_mapM hfirsts
      intro i linst hi
      obtain ⟨a, ha, hret⟩ := Option.bind_eq_some_iff.mp hi
      obtain rfl := Option.some.inj hret
      rw [ArrayOp.of_eq_some ha, setSlot]
    have hadds : adds = (tidStarts concThreads concThreads VLEN).map addSlots := by
      apply eq_map_of_mapM hadds
      intro start linst hstart
      obtain ⟨a, ha, hstart⟩ := Option.bind_eq_some_iff.mp hstart
      obtain ⟨b, hb, hret⟩ := Option.bind_eq_some_iff.mp hstart
      obtain rfl := Option.some.inj hret
      rw [ArrayOp.of_eq_some ha, ArrayOp.of_eq_some hb, addSlots]
    rw [hfirsts, hadds, eq_map_of_mapM htids fun _ _ => eq_setTid]
    exact .ahead hhas (Nat.lt_of_not_le hconc) halloc hvm hsize

/-- The instructions at the start of a thread. -/
theorem filter_setTid {tids : List ℕ} (nodup : tids.Nodup) (tid : ℕ) :
    (((tids.map setTid).filter fun entry => entry.1 = tid).map Prod.snd) =
      if tid ∈ tids then [(setTid tid).2] else [] := by
  rw [List.filter_map, List.map_map]
  have hfilter : tids.filter ((fun entry : ℕ × LogicalInstruction => decide (entry.1 = tid)) ∘
      setTid) = if tid ∈ tids then [tid] else [] := by
    refine Eq.trans (List.filter_congr fun x _ => ?_) ((List.filter_eq tid).trans ?_)
    · simp [setTid]
    · rw [nodup.count]
      split <;> rfl
  rw [hfilter]
  split <;> rfl

end Tids

section Frames

variable {ss : ScratchSpace} {slot : ℤ} {m m' : Machine} {ws : List (Loc × Word)}

theorem length_of_foldlM_write (h : ws.foldlM Machine.write m = some m') :
    m'.scratch.length = m.scratch.length := by
  induction ws generalizing m with
  | nil =>
      obtain rfl := Option.some.inj h
      rfl
  | cons w ws ih =>
      rw [List.foldlM_cons] at h
      obtain ⟨mid, hmid, hrest⟩ := Option.bind_eq_some_iff.mp h
      rw [ih hrest]
      obtain ⟨loc, val⟩ := w
      cases loc <;> simp only [Machine.write] at hmid <;> split at hmid
      · obtain rfl := Option.some.inj hmid
        exact List.length_set
      · cases hmid
      · obtain rfl := Option.some.inj hmid
        rfl
      · cases hmid

theorem length_of_execAll {instrs : List LogicalInstruction}
    (h : m.execAll ss slot instrs = some m') : m'.scratch.length = m.scratch.length := by
  induction instrs generalizing m with
  | nil =>
      obtain rfl := Option.some.inj h
      rfl
  | cons linst instrs ih =>
      rw [execAll_cons] at h
      obtain ⟨mid, hmid, hrest⟩ := Option.bind_eq_some_iff.mp h
      obtain ⟨inst, -, hexec⟩ := Option.bind_eq_some_iff.mp hmid
      rw [Machine.exec_eq] at hexec
      obtain ⟨ws, -, hland⟩ := Option.bind_eq_some_iff.mp hexec
      rw [ih hrest, length_of_foldlM_write hland]

end Frames

section Threads

variable {ss₀ ss : ScratchSpace} {slot : ℤ} {numThreads concThreads first tid : ℕ} {s : State}
  {m m' : Machine} {program : Program} {tidmetas : List (ℕ × LogicalInstruction)}
  {moreglobal : List LogicalInstruction}

/-- The global variables are the same in all slots. -/
theorem Agrees.globalsOf (h : Agrees ss₀ ss slot s m)
    (one : ∀ name vm, program.isGlobal name = true → ss.varMetaOf (.var name) = some vm →
      vm.slots = 1) (slot' : ℤ) : Agrees ss₀ ss slot' (program.globalsOf s) m := by
  refine ⟨h.length, h.mem, fun name ws hws => ?_, h.consts⟩
  rw [Program.globalsOf] at hws
  dsimp only at hws
  split at hws
  · rename_i hglobal
    have hwords := h.vars name ws hws
    obtain ⟨vm, -, hvm, -⟩ := exists_of_wordsOf h.length hwords
    have hone := one name vm hglobal hvm
    rw [← hwords]
    simp [Machine.wordsOf, hvm, VariableMeta.addrOf, hone]
  · cases hws

/-- What the machine holds may be added to what the interpretation knows. -/
theorem Agrees.know (h : Agrees ss₀ ss slot s m) {name : String} {ws : List Word}
    (hwords : m.wordsOf ss slot name = some ws) : Agrees ss₀ ss slot (s.set name ws) m := by
  refine ⟨h.length, h.mem, fun name' ws' hws' => ?_, h.consts⟩
  rw [State.store_set] at hws'
  split at hws'
  · rename_i heq
    rw [heq, hwords, hws']
  · exact h.vars name' ws' hws'

/-- With many concurrent threads, `tidxlen` is set for those that have not run. -/
def TidReady (ss : ScratchSpace) (concThreads first : ℕ) (m : Machine) : Prop :=
  2 * VLEN < concThreads → ∀ vm, ss.varMetaOf tidxlen = some vm → vm.slots = concThreads ∧
    ∀ i : ℕ, first ≤ i → i < concThreads → ∃ addr, vm.addrOf i = some addr ∧
      m.scratch[addr]? = some (word (VLEN * i : ℕ))

theorem TidReady.kept {changed : ℕ → Prop} {next : ℕ} (h : TidReady ss concThreads first m)
    (changes : ChangesOnly changed m m') (hnext : first ≤ next)
    (apart : 2 * VLEN < concThreads → ∀ vm, ss.varMetaOf tidxlen = some vm →
      vm.slots = concThreads → ∀ i : ℕ, next ≤ i → i < concThreads → ∀ addr,
        vm.addrOf i = some addr → ¬ changed addr) : TidReady ss concThreads next m' := by
  intro hconc vm hvm
  obtain ⟨hslots, hready⟩ := h hconc vm hvm
  refine ⟨hslots, fun i hi hlt => ?_⟩
  obtain ⟨addr, haddr, hword⟩ := hready i (hnext.trans hi) hlt
  refine ⟨addr, haddr, ?_⟩
  rw [changes.other addr (apart hconc vm hvm hslots i hi hlt addr haddr), hword]

/-- Where the slots of `tidxlen` and the constant 2 are. -/
theorem tidBlocks_of_allocConst {firstTime : Bool} {vm : VariableMeta}
    (shaped : ss.Shaped concThreads) (halloc : ss₀.allocConst 2 true = some (ss, firstTime))
    (hvm : ss.varMetaOf tidxlen = some vm) (hlen : vm.length = 1) (hsize : VLEN ≤ vm.size) :
    ∃ two, vm.slots = concThreads ∧ TidBlocks ss concThreads vm.addr two := by
  obtain ⟨two, htwo⟩ := Option.isSome_iff_exists.mp (ScratchSpace.allocConst_spec halloc).2
  obtain ⟨hone, htwolen⟩ := (shaped.of_varMetaOf htwo).const 2 true
    (ScratchSpace.name_of_varMetaOf htwo)
  have hslots : vm.slots = concThreads := by
    refine (shaped.of_varMetaOf hvm).slots.resolve_left fun hone => ?_
    rw [VariableMeta.size, hone, hlen] at hsize
    exact absurd hsize (by decide)
  have htids : vm = ⟨tidxlen, vm.addr, 1, concThreads⟩ := by
    rw [← ScratchSpace.name_of_varMetaOf hvm, ← hlen, ← hslots]
  have htwo' : two = ⟨.const 2 true, two.addr, VLEN, 1⟩ := by
    rw [← ScratchSpace.name_of_varMetaOf htwo, ← hone]
    exact congrArg (VariableMeta.mk two.name two.addr · two.slots) htwolen
  exact ⟨two.addr, hslots, by rw [hvm, ← htids], by rw [htwo, ← htwo']⟩

/-- What is set in advance. -/
theorem moreglobal_mean (tids : TidsOf ss₀ numThreads concThreads ss tidmetas moreglobal)
    (shaped : ss.Shaped concThreads) (hlength : m.scratch.length = SCRATCH_SIZE)
    (register : ∀ vm, ss.varMetaOf tidxlen = some vm → vm.length = 1) :
    ∃ m', m.execAll ss slot moreglobal = some m' ∧ m'.mem = m.mem ∧
      TidReady ss concThreads 0 m' := by
  cases tids with
  | none hhas =>
      refine ⟨m, rfl, rfl, fun _ vm hvm => ?_⟩
      rw [ScratchSpace.hasVariable, hvm] at hhas
      cases hhas
  | each _ hconc => exact ⟨m, rfl, rfl, fun hlt => absurd hlt (Nat.not_lt_of_le hconc)⟩
  | @ahead _ _ vm _ hconc halloc hvm hsize =>
      have hlen := register vm hvm
      obtain ⟨two, hslots, blocks⟩ := tidBlocks_of_allocConst shaped halloc hvm hlen hsize
      have htids : vm = ⟨tidxlen, vm.addr, 1, concThreads⟩ := by
        rw [← ScratchSpace.name_of_varMetaOf hvm, ← hlen, ← hslots]
      obtain ⟨m', hrun, set⟩ := execAll_tidGlobals blocks hconc slot m hlength
      refine ⟨m', hrun, set.mem, fun _ vm' hvm' => ?_⟩
      obtain rfl := Option.some.inj (hvm.symm.trans hvm')
      refine ⟨hslots, fun i _ hi => ?_⟩
      obtain ⟨addr, val, haddr, hval, hnat⟩ := set.slots i hi
      rw [← htids] at haddr
      refine ⟨addr, haddr, hval.trans (congrArg some ?_)⟩
      rw [word, BitVec.ofInt_natCast, ← hnat, BitVec.ofNat_toNat, BitVec.setWidth_eq]

/-- A thread starts with the global variables and `tidxlen`. -/
theorem enter_mean (tids : TidsOf ss₀ numThreads concThreads ss tidmetas moreglobal)
    (shaped : ss.Shaped concThreads) (hext : ss₀.Extends ss) (htid : tid < numThreads)
    (hconc : 0 < concThreads)
    (h : ∀ slot, Agrees ss₀ ss slot (program.globalsOf s) m) (ready : TidReady ss concThreads tid m)
    (register : ∀ vm, ss.varMetaOf tidxlen = some vm → vm.length = 1)
    (declared : ss₀.hasVariable tidxlen = program.declared.any (·.2 = "tidxlen")) :
    ∃ m', m.execAll ss (workSlotOf tid concThreads)
        ((tidmetas.filter fun entry => entry.1 = tid).map Prod.snd) = some m' ∧
      Agrees ss₀ ss (workSlotOf tid concThreads) (program.enterThread s tid) m' ∧
      ChangesOnly (SlotWord ss₀ (workSlotOf tid concThreads)) m m' := by
  have hagrees := h (workSlotOf tid concThreads)
  have hpos : (0 : ℤ) < concThreads := by exact_mod_cast hconc
  -- The instruction at the start of the thread.
  have hset (hhas : ss₀.hasVariable tidxlen = true) :
      ∃ m', m.execAll ss (workSlotOf tid concThreads) [(setTid tid).2] = some m' ∧
        Agrees ss₀ ss (workSlotOf tid concThreads)
          ((program.globalsOf s).set "tidxlen" [word (VLEN * tid : ℕ)]) m' ∧
        ChangesOnly (SlotWord ss₀ (workSlotOf tid concThreads)) m m' := by
    obtain ⟨vm, hvm₀⟩ := Option.isSome_iff_exists.mp hhas
    have hvm := hext.varMeta _ _ hvm₀
    have hlen := register vm hvm
    obtain ⟨addr, haddr⟩ := exists_addrOf shaped hvm (Int.emod_nonneg tid hpos.ne')
      (Int.emod_lt_of_pos tid hpos)
    have hdest : (wholeVariable tidxlen false false).addrOf ss (workSlotOf tid concThreads) =
        some addr := (addrOf_whole hvm false false).trans haddr
    rw [Nat.mul_comm]
    exact hagrees.assigns hext hvm₀ haddr hlen.symm (execAll_const hdest)
  rw [Program.enterThread, ← declared]
  cases tids with
  | none hhas =>
      rw [hhas]
      exact ⟨m, rfl, hagrees, .refl _ m⟩
  | each hhas _ =>
      rw [filter_setTid List.nodup_range, if_pos (List.mem_range.mpr htid), if_pos hhas]
      exact hset hhas
  | ahead hhas hmany halloc hfound hsize =>
      rw [filter_setTid List.nodup_range', if_pos hhas]
      split
      · exact hset hhas
      · rename_i hnot
        have hlt : tid < concThreads := by
          rw [List.mem_range'_1] at hnot
          omega
        obtain ⟨-, hready⟩ := ready hmany _ hfound
        obtain ⟨addr, haddr, hword⟩ := hready tid (Nat.le_refl _) hlt
        have hslot : workSlotOf tid concThreads = (tid : ℤ) :=
          Int.emod_eq_of_lt (Int.natCast_nonneg tid) (by exact_mod_cast hlt)
        have hlen := register _ hfound
        rw [hslot] at hagrees ⊢
        refine ⟨m, rfl, hagrees.know ?_, .refl _ m⟩
        rw [tidxlen] at hfound
        simp [Machine.wordsOf, hfound, haddr, hlen, hword]

end Threads

section Programs

variable {program : Program} {numThreads concThreads : ℕ} {irp irp₀ : IRPipeline}
  {ss : ScratchSpace} {imetas : List InstrMeta} {m : Machine} {s : State}
  {tidmetas : List (ℕ × LogicalInstruction)} {moreglobal : List LogicalInstruction}

theorem TidsOf.sameVars {ss₀ : ScratchSpace}
    (tids : TidsOf ss₀ numThreads concThreads ss tidmetas moreglobal) : SameVars ss₀ ss := by
  cases tids with
  | none | each => exact fun _ => rfl
  | @ahead _ firstTime _ _ _ halloc =>
      have hconst : Lowered.handleConst ⟨ss₀, []⟩ 2 true =
          some (⟨ss, if firstTime then [] ++ Lowered.constSetup 2 true else []⟩,
            wholeVariable (.const 2 true) true true) := by
        rw [Lowered.handleConst, halloc]
        rfl
      exact sameVars_handleConst hconst

/-- The scratch space of an accepted program. -/
theorem declares_of_programToIrp
    (accepted : programToIrp program numThreads concThreads = some irp) :
    Declares program.declared irp.ss := by
  obtain ⟨globals, threads, hlower, -⟩ := lowerStmts_of_programToIrp accepted
  have hdeclares := declares_empty.lowerStmts hlower
  have hfst : (program.lowerOrder concThreads).map Prod.fst = program.plainStmts := by
    simp [Program.lowerOrder, Program.plainStmts, Function.comp_def]
  rwa [hfst, List.nil_append] at hdeclares

theorem laidOut_of_declares (declares : Declares program.declared ss)
    (shaped : ss.Shaped concThreads) : program.LaidOut concThreads ss where
  shaped := shaped
  typed := declares.typedAs
  lengths := by
    intro name vm n hvm hn
    obtain ⟨d, hd, rfl⟩ := Option.map_eq_some_iff.mp hn
    obtain rfl : d.2 = name := by simpa using List.find?_some hd
    obtain ⟨vm', hvm', hvec⟩ := (declares d.1 d.2).mp (List.mem_of_find?_eq_some hd)
    obtain rfl := Option.some.inj (hvm.symm.trans hvm')
    rw [isVector_iff shaped hvm]
    cases htype : d.1 with
    | register =>
        rw [htype] at hvec
        refine (if_neg fun h => ?_).symm
        cases hvec.mp h
    | registers =>
        rw [htype] at hvec
        rw [if_pos (hvec.mpr rfl)]
        rfl

theorem hasVariable_of_declares (declares : Declares program.declared ss) (name : String) :
    ss.hasVariable (.var name) = program.declared.any (·.2 = name) := by
  rw [Bool.eq_iff_iff, List.any_eq_true, ScratchSpace.hasVariable, Option.isSome_iff_exists]
  constructor
  · rintro ⟨vm, hvm⟩
    cases hvec : vm.isVector with
    | false =>
        have hmem := (declares .register name).mpr ⟨vm, hvm, by simp [hvec]⟩
        exact ⟨_, hmem, decide_eq_true rfl⟩
    | true =>
        have hmem := (declares .registers name).mpr ⟨vm, hvm, by simp [hvec]⟩
        exact ⟨_, hmem, decide_eq_true rfl⟩
  · rintro ⟨⟨varType, name'⟩, hmem, hname⟩
    obtain rfl := of_decide_eq_true hname
    obtain ⟨vm, hvm, -⟩ := (declares varType name').mp hmem
    exact ⟨vm, hvm⟩

/-- Another slot of `tidxlen` is no word of the variables of a slot. -/
theorem not_slotWord_tidxlen {ss₀ : ScratchSpace} {vm : VariableMeta} {slot : ℤ} {i addr : ℕ}
    (hext : ss₀.Extends ss) (hvm : ss.varMetaOf tidxlen = some vm) (hlen : vm.length = 1)
    (hslots : vm.slots ≠ 1) (hne : slot ≠ i) (haddr : vm.addrOf i = some addr) :
    ¬ SlotWord ss₀ slot addr := by
  rintro ⟨name, vm', addr', k, hvm', haddr', hk, heq⟩
  have hvm' := hext.varMeta _ _ hvm'
  by_cases hname : ScratchName.var name = tidxlen
  · rw [hname] at hvm'
    obtain rfl := Option.some.inj (hvm.symm.trans hvm')
    rw [VariableMeta.addrOf, if_neg hslots] at haddr haddr'
    split at haddr
    · split at haddr'
      · rename_i hi hslot
        obtain rfl := Option.some.inj haddr
        obtain rfl := Option.some.inj haddr'
        rw [hlen] at hk heq
        omega
      · cases haddr'
    · cases haddr
  · have hmem := mem_words_of_addrOf haddr (by rw [hlen]; exact Nat.one_pos)
    rw [Nat.add_zero, heq] at hmem
    exact notMem_words hvm hvm' (Ne.symm hname) hmem (mem_words_of_addrOf haddr' hk)

/-- Between two threads the global variables are the same in all slots. -/
def BetweenThreads (program : Program) (ss₀ ss : ScratchSpace) (concThreads first : ℕ) (s : State)
    (m : Machine) : Prop :=
  (∀ slot, Agrees ss₀ ss slot (program.globalsOf s) m) ∧ TidReady ss concThreads first m

/-- The lists of an accepted program, whose threads are given the statements that they reach and
whose statements are read as they say. -/
structure Lowers (program : Program) (numThreads concThreads : ℕ) (irp₀ irp : IRPipeline)
    (ss : ScratchSpace) (tidmetas : List (ℕ × LogicalInstruction))
    (moreglobal : List LogicalInstruction) : Prop where
  globals : program.globalStmts.foldlM (IRPipeline.handlePlain concThreads true) .new = some irp₀
  threads : (inForceStmts numThreads INFINITE_SET program.threadStmts).foldlM
    (lowerTagged concThreads) irp₀.core = some irp.core
  tids : TidsOf irp.ss numThreads concThreads ss tidmetas moreglobal
  positive : 0 < concThreads
  declares : Declares program.declared irp.ss
  extends_ : irp.ss.Extends ss
  shaped : ss.Shaped concThreads
  reach : SameReach numThreads (inForceStmts numThreads INFINITE_SET program.threadStmts)
    (reachStmts (fun _ => true) program.threadStmts)
  read : ∀ stmt ∈ program.plainStmts, ¬ stmt.Misread program.isRegisters
  register : (.registers, "tidxlen") ∉ program.declared

namespace Lowers

variable (h : Lowers program numThreads concThreads irp₀ irp ss tidmetas moreglobal)
include h

theorem laid : program.LaidOut concThreads ss :=
  laidOut_of_declares (h.declares.sameVars h.tids.sameVars) h.shaped

/-- The scratch space after the global statements has one slot for each variable. -/
theorem grown : irp₀.ss.Shaped concThreads ∧ irp₀.ss.Shaped 1 ∧ irp₀.ss.Extends irp.ss := by
  have hempty (slots : ℕ) : IRPipeline.new.ss.Shaped slots := List.forall_mem_nil _
  have hshaped := (extends_of_globals h.globals (hempty concThreads)).2
  exact ⟨hshaped, (extends_of_globals h.globals (hempty 1)).2,
    (extends_of_tagged h.threads hshaped).1⟩

theorem tidxlen_length {vm : VariableMeta} (hvm : ss.varMetaOf tidxlen = some vm) :
    vm.length = 1 := by
  have hnot : ¬ vm.isVector = true := fun hvec => h.register ((h.laid.typed _ vm hvm).mp hvec)
  rw [isVector_iff h.shaped hvm, if_neg hnot]

theorem one_slot {name : String} {vm : VariableMeta} (hglobal : program.isGlobal name = true)
    (hvm : ss.varMetaOf (.var name) = some vm) : vm.slots = 1 := by
  obtain ⟨-, hone, hgrows⟩ := h.grown
  obtain ⟨⟨varType, name'⟩, hmem, hname⟩ := List.any_eq_true.mp hglobal
  obtain rfl := of_decide_eq_true hname
  obtain ⟨lowered, hlowered, -⟩ := lowerStmts_of_global h.globals
  have hdeclares := declares_empty.lowerStmts hlowered
  rw [List.map_map] at hdeclares
  obtain ⟨vm₀, hvm₀, -⟩ := (hdeclares varType name').mp (by
    rw [List.nil_append]
    simpa [Function.comp_def] using hmem)
  obtain rfl := Option.some.inj (hvm.symm.trans ((hgrows.trans h.extends_).varMeta _ _ hvm₀))
  exact (hone.of_varMetaOf hvm₀).slots.elim id id

theorem read_inForce : ∀ x ∈ inForceStmts numThreads INFINITE_SET program.threadStmts,
    ¬ x.1.Misread program.isRegisters := by
  intro x hx
  apply h.read
  have hmem := List.mem_map_of_mem (f := Prod.fst) hx
  rw [inForceStmts_threadPlain] at hmem
  exact List.mem_append_right _ hmem

/-- The instructions of a thread do what the interpretation of the thread does. -/
theorem refines_runThread {tid : ℕ} (htid : tid < numThreads) :
    StraightLine.Refines (Machine.execFor ss concThreads)
      (BetweenThreads program irp.ss ss concThreads tid) (fun s => program.runThread s tid)
      ((threadInsts irp.graph tidmetas tid).map (·, (tid : ℤ)))
      (BetweenThreads program irp.ss ss concThreads (tid + 1)) := by
  rintro s s' m ⟨hagrees, ready⟩ hs
  have hpos : (0 : ℤ) < concThreads := by exact_mod_cast h.positive
  obtain ⟨m₁, hrun₁, h₁, changes₁⟩ := enter_mean h.tids h.shaped h.extends_ htid h.positive hagrees
    ready (fun vm hvm => h.tidxlen_length hvm) (hasVariable_of_declares h.declares "tidxlen")
  have same := h.reach.imp fun x ref hx => And.intro hx.1 fun hgen => hx.2 hgen tid htid
  obtain ⟨news, hnews, hrefines⟩ := refines_thread h.laid (Int.emod_nonneg tid hpos.ne')
    (Int.emod_lt_of_pos tid hpos) h.threads h.grown.1
    (.refl irp.ss) h.extends_ h.read_inForce same m
  have himetas : irp₀.core.2.imetas = [] := (foldlM_handlePlain_global h.globals).1
  rw [himetas, List.nil_append] at hnews
  change execStmts program.lengthOf tid (program.enterThread s tid) program.threadStmts =
    some s' at hs
  rw [@execStmts_eq _ _ (fun _ => true) rfl] at hs
  obtain ⟨m₂, hrun₂, h₂, changes⟩ := hrefines _ s' m₁ ⟨h₁, changes₁⟩ hs
  refine ⟨m₂, ?_, fun slot => h₂.globalsOf (fun _ _ => h.one_slot) slot, ?_⟩
  · have hgraph : irp.graph.imetas = news := hnews
    rw [foldlM_execFor, threadInsts, execAll_append, hrun₁, hgraph]
    exact hrun₂
  · refine ready.kept changes (Nat.le_succ tid) fun hmany vm hvm hslots i hi hlt addr haddr => ?_
    have hslot : (tid : ℤ) % concThreads = tid :=
      Int.emod_eq_of_lt (Int.natCast_nonneg tid) (by omega)
    refine not_slotWord_tidxlen h.extends_ hvm (h.tidxlen_length hvm) ?_ ?_ haddr
    · rw [hslots]
      exact ((by decide : 1 < 2 * VLEN).trans hmany).ne'
    · rw [hslot]
      omega

/-- The slots of `tidxlen` are no words of the global variables or of the constants. -/
theorem tidxlen_apart (hmany : 2 * VLEN < concThreads) {vm : VariableMeta} {slot : ℤ} {i addr : ℕ}
    (hvm : ss.varMetaOf tidxlen = some vm) (hslots : vm.slots = concThreads)
    (haddr : vm.addrOf i = some addr) : ¬ (SlotWord irp₀.ss slot addr ∨ ConstWord ss addr) := by
  obtain ⟨-, hone, hgrows⟩ := h.grown
  have hlen : 0 < vm.length := by
    rw [h.tidxlen_length hvm]
    exact Nat.one_pos
  have hmem : addr ∈ vm.words := mem_words_of_addrOf haddr hlen
  rintro (⟨name, vm', addr', k, hvm', haddr', hk, rfl⟩ | ⟨v, isVector, vm', hvm', hmem'⟩)
  · have hext := (hgrows.trans h.extends_).varMeta _ _ hvm'
    by_cases hname : ScratchName.var name = tidxlen
    · rw [hname] at hext
      obtain rfl := Option.some.inj (hvm.symm.trans hext)
      have hsingle : vm.slots = 1 := (hone.of_varMetaOf hvm').slots.elim id id
      rw [hsingle] at hslots
      exact absurd hmany (by rw [← hslots]; decide)
    · exact notMem_words hvm hext (Ne.symm hname) hmem (mem_words_of_addrOf haddr' hk)
  · have hne : tidxlen ≠ ScratchName.const v isVector := ScratchName.noConfusion
    exact notMem_words hvm hvm' hne hmem hmem'

/-- The instructions before the first thread do what the global statements say. -/
theorem globals_run {s : State} (hlength : m.scratch.length = SCRATCH_SIZE)
    (hs : program.globalStmts.foldlM (PlainStmt.exec program.lengthOf) ⟨fun _ => none, m.mem⟩ =
      some s) :
    ∃ m', ((moreglobal ++ irp.graph.globalimetas).map (·, -1)).foldlM
        (Machine.execFor ss concThreads) m = some m' ∧
      BetweenThreads program irp.ss ss concThreads 0 s m' := by
  have hpos : (0 : ℤ) < concThreads := by exact_mod_cast h.positive
  have hslot : 0 ≤ workSlotOf (-1) concThreads := Int.emod_nonneg _ hpos.ne'
  have hlt : workSlotOf (-1) concThreads < concThreads := Int.emod_lt_of_pos _ hpos
  obtain ⟨hshaped, -, hgrows⟩ := h.grown
  have hempty : IRPipeline.new.ss.Shaped concThreads := List.forall_mem_nil _
  have hmore : ∃ m₁, m.execAll ss (workSlotOf (-1) concThreads) moreglobal = some m₁ ∧
      m₁.mem = m.mem ∧ TidReady ss concThreads 0 m₁ :=
    moreglobal_mean h.tids h.shaped hlength fun vm hvm => h.tidxlen_length hvm
  obtain ⟨m₁, hrun₁, hmem₁, ready₁⟩ := hmore
  have h₁ : Agrees IRPipeline.new.ss ss (workSlotOf (-1) concThreads)
      ⟨fun _ => none, m.mem⟩ m₁ := by
    refine ⟨(length_of_execAll hrun₁).trans hlength, hmem₁, ?_, ?_⟩
    · intro name ws hws
      cases hws
    · intro v isVector vm hvm
      cases hvm
  have hread : ∀ stmt ∈ program.globalStmts, ¬ stmt.Misread program.isRegisters :=
    fun stmt hstmt => h.read stmt (List.mem_append_left _ hstmt)
  obtain ⟨news, m₂, hnews, hrun₂, h₂, changes₂⟩ := globals_mean h.laid hslot hlt h.globals hempty
    (hgrows.trans h.extends_) hread h₁ hs
  obtain ⟨setups, m₃, hsetups, hrun₃, h₃, changes₃⟩ := setups_mean h.threads hshaped h.extends_
    h.shaped h₂
  refine ⟨m₃, ?_, fun slot => h₃.globalsOf (fun _ _ => h.one_slot) slot, ?_⟩
  · have hnews : irp₀.core.2.globalimetas = news := hnews
    have hall : irp.graph.globalimetas = news ++ setups := by rw [← hnews]; exact hsetups
    rw [foldlM_execFor, hall, execAll_append, hrun₁, Option.bind_some, execAll_append, hrun₂]
    exact hrun₃
  · have changes := changes₂.trans (changes₃.mono fun a ha => Or.inr ha)
    exact ready₁.kept changes (Nat.le_refl 0) fun hmany vm hvm hslots i _ _ addr haddr =>
      h.tidxlen_apart hmany hvm hslots haddr

/-- The list of all instructions does what the interpretation does. -/
theorem runList_means {imetas : List InstrMeta} {final : State}
    (order : imetas.map (fun x => (x.lin, x.tid)) =
      (moreglobal ++ irp.graph.globalimetas).map (·, -1) ++
      (List.range numThreads).flatMap fun tid =>
        (threadInsts irp.graph tidmetas tid).map (·, (tid : ℤ)))
    (hlength : m.scratch.length = SCRATCH_SIZE)
    (hfinal : program.interpret numThreads m.mem = some final) :
    ∃ effects m', m.runList ss concThreads imetas = some (effects, m') ∧
      ∀ slot, Agrees irp.ss ss slot (program.globalsOf final) m' := by
  obtain ⟨s, hs, hthreads⟩ := Option.bind_eq_some_iff.mp hfinal
  obtain ⟨m₁, hrun₁, h₁⟩ := h.globals_run hlength hs
  have hloop : StraightLine.Refines (Machine.execFor ss concThreads)
      (BetweenThreads program irp.ss ss concThreads 0)
      (fun s => (List.range numThreads).foldlM program.runThread s)
      ((List.range numThreads).flatMap fun tid =>
        (threadInsts irp.graph tidmetas tid).map (·, (tid : ℤ)))
      (BetweenThreads program irp.ss ss concThreads (List.range numThreads).length) := by
    refine StraightLine.Refines.loop fun i tid hi => ?_
    obtain ⟨hlt, rfl⟩ : i < numThreads ∧ i = tid := by
      rw [List.getElem?_eq_some_iff] at hi
      obtain ⟨hi, rfl⟩ := hi
      rw [List.length_range] at hi
      exact ⟨hi, (List.getElem_range _).symm⟩
    exact h.refines_runThread hlt
  obtain ⟨m', hrun', h', -⟩ := hloop s final m₁ h₁ hthreads
  have hall : (imetas.map fun x => (x.lin, x.tid)).foldlM (Machine.execFor ss concThreads) m =
      some m' := by
    rw [order, List.foldlM_append, hrun₁]
    exact hrun'
  obtain ⟨effects, hlist⟩ := exists_runList hall
  exact ⟨effects, m', hlist, h'⟩

end Lowers

/-- Every accepted program with its list is lowered. -/
theorem exists_lowers (accepted : programToIrp program numThreads concThreads = some irp)
    (work : getWork irp.ss irp.graph numThreads concThreads = some (ss, imetas))
    (positive : 0 < concThreads)
    (reach : SameReach numThreads (inForceStmts numThreads INFINITE_SET program.threadStmts)
      (reachStmts (fun _ => true) program.threadStmts))
    (read : ∀ stmt ∈ program.plainStmts, ¬ stmt.Misread program.isRegisters)
    (register : (.registers, "tidxlen") ∉ program.declared) :
    ∃ irp₀ tidmetas moreglobal,
      Lowers program numThreads concThreads irp₀ irp ss tidmetas moreglobal ∧
      imetas.map (fun x => (x.lin, x.tid)) =
        (moreglobal ++ irp.graph.globalimetas).map (·, -1) ++
          (List.range numThreads).flatMap fun tid =>
            (threadInsts irp.graph tidmetas tid).map (·, (tid : ℤ)) := by
  have hcore := map_core_programToIrp program numThreads concThreads
  rw [accepted, Option.map_some] at hcore
  obtain ⟨irp₀, hglobals, hthreads⟩ := Option.bind_eq_some_iff.mp hcore.symm
  obtain ⟨tidmetas, moreglobal, htids, order⟩ := map_lin_getWork work
  have hempty : IRPipeline.new.ss.Shaped concThreads := List.forall_mem_nil _
  have hshaped₀ := (extends_of_globals hglobals hempty).2
  have hshaped : irp.ss.Shaped concThreads := (extends_of_tagged hthreads hshaped₀).2
  obtain ⟨hext, shaped, -⟩ := regular_getTidmetas hshaped htids
  exact ⟨irp₀, tidmetas, moreglobal,
    ⟨hglobals, hthreads, tidsOf_of_getTidmetas htids, positive, declares_of_programToIrp accepted,
      hext, shaped, reach, read, register⟩, order⟩

/-- For every accepted program whose threads are given the statements that they reach and whose
statements are read as they say: the list of all instructions, executed one at a time, does
with the memory and with the global variables what the program says. -/
theorem runList_interpret (accepted : programToIrp program numThreads concThreads = some irp)
    (work : getWork irp.ss irp.graph numThreads concThreads = some (ss, imetas))
    (positive : 0 < concThreads)
    (reach : SameReach numThreads (inForceStmts numThreads INFINITE_SET program.threadStmts)
      (reachStmts (fun _ => true) program.threadStmts))
    (read : ∀ stmt ∈ program.plainStmts, ¬ stmt.Misread program.isRegisters)
    (register : (.registers, "tidxlen") ∉ program.declared)
    (hlength : m.scratch.length = SCRATCH_SIZE) {final : State}
    (hfinal : program.interpret numThreads m.mem = some final) :
    ∃ effects m', m.runList ss concThreads imetas = some (effects, m') ∧ m'.mem = final.mem ∧
      ∀ name ws, program.isGlobal name → final.store name = some ws → ∀ slot,
        m'.wordsOf ss slot name = some ws := by
  obtain ⟨irp₀, tidmetas, moreglobal, lowers, order⟩ :=
    exists_lowers accepted work positive reach read register
  obtain ⟨effects, m', hrun, h⟩ := lowers.runList_means order hlength hfinal
  refine ⟨effects, m', hrun, (h 0).mem, fun name ws hglobal hws slot => ?_⟩
  refine (h slot).vars name ws ?_
  rw [← hws]
  exact if_pos hglobal

end Programs

section Examples

/-- Each thread adds 1 to eight words of memory, the first one doubles them. -/
def doubledFirst : Program where
  globalStmts := [.variableDefinition .register "base" (.intConstant (.numberString false [2]))]
  threadStmts :=
    [.plain (.variableDeclaration .register "tidxlen" []),
      .plain (.variableDefinition .register "p" (.binOp (.var "base") .add (.var "tidxlen"))),
      .plain (.variableDefinition .registers "x" (.derefVariable "p")),
      .tidIfElse [⟨.numberString false [0], .numberString false [1]⟩]
        [[.plain (.loadVariable "x" (.binOp (.var "x") .mul (.const (.numberString false [2]))))],
         [.plain (.loadVariable "x" (.binOp (.var "x") .add (.const (.numberString false [1]))))]],
      .plain (.storeMemory "p" (.variable "x" none))]

/-- The words 0 to 25. -/
def countingMachine : Machine :=
  ⟨List.replicate SCRATCH_SIZE 0, (List.range 26).map fun i => word i⟩

theorem sameReach_doubledFirst :
    SameReach 3 (inForceStmts 3 INFINITE_SET doubledFirst.threadStmts)
      (reachStmts (fun _ => true) doubledFirst.threadStmts) := by
  have below (tags refs : TidSet) (h : ∀ tid : Fin 3, tags tid.val = refs tid.val) :
      ∀ tid : ℕ, tid < 3 → tags tid = refs tid := fun tid htid => h ⟨tid, htid⟩
  have hsame {tagged ref : PlainStmt × TidSet} (hstmt : tagged.1 = ref.1)
      (h : ∀ tid : Fin 3, tagged.2 tid.val = ref.2 tid.val) :
      tagged.1 = ref.1 ∧ (tagged.1.generates → ∀ tid : ℕ, tid < 3 → tagged.2 tid = ref.2 tid) :=
    ⟨hstmt, fun _ => below _ _ h⟩
  exact .cons (hsame rfl (by decide)) (.cons (hsame rfl (by decide)) (.cons (hsame rfl (by decide))
    (.cons (hsame rfl (by decide)) (.cons (hsame rfl (by decide)) (.cons (hsame rfl (by decide))
      .nil)))))

theorem not_misread_doubledFirst :
    ∀ stmt ∈ doubledFirst.plainStmts, ¬ stmt.Misread doubledFirst.isRegisters := by
  intro stmt hstmt
  simp only [doubledFirst, Program.plainStmts, Program.threadPlain, reachStmts, reachStmt,
    reachBranches, List.cons_append, List.nil_append, List.map_cons, List.map_nil, List.mem_cons,
    List.not_mem_nil, or_false] at hstmt
  obtain rfl | rfl | rfl | rfl | rfl | rfl | rfl := hstmt <;> simp [PlainStmt.Misread]

theorem runList_interpret_doubledFirst :
    ∃ irp ss imetas final effects m', programToIrp doubledFirst 3 2 = some irp ∧
      getWork irp.ss irp.graph 3 2 = some (ss, imetas) ∧
      doubledFirst.interpret 3 countingMachine.mem = some final ∧
      countingMachine.runList ss 2 imetas = some (effects, m') ∧ m'.mem = final.mem := by
  obtain ⟨work, hwork⟩ := Option.isSome_iff_exists.mp
    (show ((programToIrp doubledFirst 3 2).bind fun irp =>
      (getWork irp.ss irp.graph 3 2).map (irp, ·)).isSome by decide +kernel)
  obtain ⟨irp, accepted, hwork⟩ := Option.bind_eq_some_iff.mp hwork
  obtain ⟨⟨ss, imetas⟩, hlist, rfl⟩ := Option.map_eq_some_iff.mp hwork
  obtain ⟨final, hfinal⟩ := Option.isSome_iff_exists.mp
    (show (doubledFirst.interpret 3 countingMachine.mem).isSome by decide +kernel)
  obtain ⟨effects, m', hrun, hmem, -⟩ := runList_interpret accepted hlist (by decide)
    sameReach_doubledFirst not_misread_doubledFirst (by decide) List.length_replicate hfinal
  exact ⟨irp, ss, imetas, final, effects, m', accepted, hlist, hfinal, hrun, hmem⟩

end Examples

end Explore.Takehome
