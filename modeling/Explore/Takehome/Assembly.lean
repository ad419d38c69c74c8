import Explore.Lib.Outcome
import Explore.Takehome.Dependencies
import Explore.Takehome.Hazards
import Explore.Takehome.Typing

/-!
# The list that `get_work` assembles

The dependency passes look at the words of operands, and the machine at addresses. Where
each operand has the width and the use that the opcode gives it, these are the same words,
so instructions of the list that conflict on the machine are ordered by `after`, whatever
the layout of the scratch space. The instructions that `get_tidmetas` adds are of this form
like those of a lowered program.
-/

namespace Explore.Takehome

/-- An operand of the given width and use. -/
def LogicalOp.Is (op : LogicalOp) (isVector isRead : Bool) : Prop :=
  op.isVector = isVector ∧ op.isRead = isRead

/-- The operands have the width and the use that the opcode gives them. A store marks the
register that it stores as written. -/
def Formed : LogicalInstruction → Prop
  | .alu _ dest a b => dest.Is false false ∧ a.Is false true ∧ b.Is false true
  | .addImm dest a _ => dest.Is false false ∧ a.Is false true
  | .vselect dest cond a b =>
      dest.Is true false ∧ cond.Is true true ∧ a.Is true true ∧ b.Is true true
  | .const dest _ => dest.Is false false
  | .load dest addr => dest.Is false false ∧ addr.Is false true
  | .vload dest addr => dest.Is true false ∧ addr.Is false true
  | .store addr src => addr.Is false true ∧ src.Is false false
  | .vstore addr src => addr.Is false true ∧ src.Is true false
  | .valu _ dest a b => dest.Is true false ∧ a.Is true true ∧ b.Is true true
  | .multiplyAdd dest a b c =>
      dest.Is true false ∧ a.Is true true ∧ b.Is true true ∧ c.Is true true
  | .vbroadcast dest src => dest.Is true false ∧ src.Is false true

section Operands

variable {ss : ScratchSpace} {slot : ℤ} {op : LogicalOp} {isVector isRead : Bool}

theorem WordOp.is (h : WordOp ss isRead op) : op.Is false isRead := by
  obtain ⟨name, offset, vm, rfl, -, -⟩ := h
  exact ⟨rfl, rfl⟩

theorem VectorOp.is (h : VectorOp ss isRead op) : op.Is true isRead := by
  obtain ⟨name, vm, rfl, -, -⟩ := h
  exact ⟨rfl, rfl⟩

theorem Typed.formed {linst : LogicalInstruction} (h : Typed ss linst) : Formed linst := by
  cases h with
  | alu hd ha hb => exact ⟨hd.is, ha.is, hb.is⟩
  | vselect hd hc ha hb => exact ⟨hd.is, hc.is, ha.is, hb.is⟩
  | const hd => exact hd.is
  | load hd ha => exact ⟨hd.is, ha.is⟩
  | vload hd ha => exact ⟨hd.is, ha.is⟩
  | store ha hs => exact ⟨ha.is, hs.is⟩
  | vstore ha hs => exact ⟨ha.is, hs.is⟩
  | valu hd ha hb => exact ⟨hd.is, ha.is, hb.is⟩
  | multiplyAdd hd ha hb hc => exact ⟨hd.is, ha.is, hb.is, hc.is⟩
  | vbroadcast hd hs => exact ⟨hd.is, hs.is⟩

/-- The words at an address. -/
def wordsAt (isVector : Bool) (addr : ℕ) : List ℕ := if isVector then lanes addr else [addr]

theorem values_eq (addr n : ℕ) : Range.values ⟨addr, addr + n⟩ = List.range' addr (n + 1) := by
  rw [Range.values]
  congr 1
  dsimp only
  omega

/-- The range of an operand is the words at its address. -/
theorem values_of_range {r : Range} (h : op.range ss slot = some r) :
    ∃ addr, op.addrOf ss slot = some addr ∧ r.values = wordsAt op.isVector addr := by
  cases op with
  | array a =>
      obtain ⟨base, hbase, hret⟩ := Option.bind_eq_some_iff.mp h
      obtain rfl := Option.some.inj hret
      refine ⟨base, hbase, ?_⟩
      cases hvec : a.isVector with
      | false => simpa [hvec, LogicalOp.isVector, wordsAt] using values_eq base 0
      | true => simpa [hvec, LogicalOp.isVector, wordsAt, lanes, VLEN] using values_eq base 7
  | reg reg =>
      obtain ⟨vm, hvm, h⟩ := Option.bind_eq_some_iff.mp h
      obtain ⟨base, hbase, h⟩ := Option.bind_eq_some_iff.mp h
      have haddr : LogicalOp.addrOf ss slot (.reg reg) = some (base + reg.offset) := by
        simp [LogicalOp.addrOf, LogicalRegister.addrOf, hvm, hbase]
      refine ⟨_, haddr, ?_⟩
      cases hpart : reg.part with
      | vector =>
          simp only [hpart] at h
          split at h
          · obtain rfl := Option.some.inj h
            simpa [hpart, LogicalOp.isVector, LogicalRegister.isVector, LogicalRegister.offset,
              wordsAt, lanes, VLEN] using values_eq base 7
          · simp at h
      | word offset =>
          simp only [hpart, Option.some.injEq] at h
          obtain rfl := h
          simpa [hpart, LogicalOp.isVector, LogicalRegister.isVector, LogicalRegister.offset,
            wordsAt] using values_eq (base + offset.val) 0

/-- What a dependency pass sees of an operand. -/
theorem exists_addrOf_of_range (is : op.Is isVector isRead) {seen : Bool × List ℕ}
    (h : (do return (op.isRead, (← op.range ss slot).values)) = some seen) :
    ∃ addr, op.addrOf ss slot = some addr ∧ seen = (isRead, wordsAt isVector addr) := by
  obtain ⟨r, hr, hret⟩ := Option.bind_eq_some_iff.mp h
  obtain rfl := Option.some.inj hret
  obtain ⟨addr, haddr, hvalues⟩ := values_of_range hr
  exact ⟨addr, haddr, by rw [hvalues, is.1, is.2]⟩

end Operands

section Access

variable {ss : ScratchSpace} {slot : ℤ} {linst : LogicalInstruction} {access : Access}

/-- Operands of the widths and uses `kinds`. -/
abbrev AllAre (ops : List LogicalOp) (kinds : List (Bool × Bool)) : Prop :=
  List.Forall₂ (fun op kind => op.Is kind.1 kind.2) ops kinds

/-- What a dependency pass sees of all operands of an instruction. -/
theorem exists_addrs_of_ranges {ops : List LogicalOp} {seen : List (Bool × List ℕ)}
    (kinds : List (Bool × Bool)) (are : AllAre ops kinds)
    (h : ops.mapM (fun op => do return (op.isRead, (← op.range ss slot).values)) = some seen) :
    ∃ addrs, List.Forall₂ (fun op addr => op.addrOf ss slot = some addr) ops addrs ∧
      seen = List.zipWith (fun kind addr => (kind.2, wordsAt kind.1 addr)) kinds addrs := by
  induction are generalizing seen with
  | nil =>
      obtain rfl := Option.some.inj h
      exact ⟨[], .nil, rfl⟩
  | cons is _ ih =>
      rw [List.mapM_cons] at h
      obtain ⟨first, hfirst, h⟩ := Option.bind_eq_some_iff.mp h
      obtain ⟨others, hothers, hret⟩ := Option.bind_eq_some_iff.mp h
      obtain rfl := Option.some.inj hret
      obtain ⟨addr, haddr, rfl⟩ := exists_addrOf_of_range is hfirst
      obtain ⟨addrs, haddrs, rfl⟩ := ih hothers
      exact ⟨addr :: addrs, .cons haddr haddrs, rfl⟩

/-- The passes see the words that the machine instruction touches and marks. -/
theorem accessOf_eq_some (formed : Formed linst) (h : accessOf ss slot linst = some access) :
    ∃ inst, toSerialized ss slot linst = some inst ∧ access = ⟨inst.touched, inst.marked⟩ := by
  obtain ⟨seen, hseen, hret⟩ := Option.bind_eq_some_iff.mp h
  obtain rfl := Option.some.inj hret
  cases linst with
  | alu op dest a b =>
      obtain ⟨hd, ha, hb⟩ := formed
      obtain ⟨_, _ | ⟨hd, _ | ⟨ha, _ | ⟨hb, _ | _⟩⟩⟩, rfl⟩ := exists_addrs_of_ranges
        [(false, false), (false, true), (false, true)] (.cons hd (.cons ha (.cons hb .nil))) hseen
      exact ⟨.alu op _ _ _, by simp [toSerialized, Inst.mapM, hd, ha, hb], rfl⟩
  | addImm dest a imm =>
      obtain ⟨hd, ha⟩ := formed
      obtain ⟨_, _ | ⟨hd, _ | ⟨ha, _ | _⟩⟩, rfl⟩ := exists_addrs_of_ranges
        [(false, false), (false, true)] (.cons hd (.cons ha .nil)) hseen
      exact ⟨.addImm _ _ imm, by simp [toSerialized, Inst.mapM, hd, ha], rfl⟩
  | vselect dest cond a b =>
      obtain ⟨hd, hc, ha, hb⟩ := formed
      obtain ⟨_, _ | ⟨hd, _ | ⟨hc, _ | ⟨ha, _ | ⟨hb, _ | _⟩⟩⟩⟩, rfl⟩ := exists_addrs_of_ranges
        [(true, false), (true, true), (true, true), (true, true)]
        (.cons hd (.cons hc (.cons ha (.cons hb .nil)))) hseen
      simp [toSerialized, Inst.mapM, hd, hc, ha, hb, wordsAt, Inst.touched, Inst.marked]
  | const dest val =>
      obtain ⟨_, _ | ⟨hd, _ | _⟩, rfl⟩ :=
        exists_addrs_of_ranges [(false, false)] (.cons formed .nil) hseen
      exact ⟨.const _ val, by simp [toSerialized, Inst.mapM, hd], rfl⟩
  | load dest addr =>
      obtain ⟨hd, ha⟩ := formed
      obtain ⟨_, _ | ⟨hd, _ | ⟨ha, _ | _⟩⟩, rfl⟩ := exists_addrs_of_ranges
        [(false, false), (false, true)] (.cons hd (.cons ha .nil)) hseen
      exact ⟨.load _ _, by simp [toSerialized, Inst.mapM, hd, ha], rfl⟩
  | vload dest addr =>
      obtain ⟨hd, ha⟩ := formed
      obtain ⟨_, _ | ⟨hd, _ | ⟨ha, _ | _⟩⟩, rfl⟩ := exists_addrs_of_ranges
        [(true, false), (false, true)] (.cons hd (.cons ha .nil)) hseen
      exact ⟨.vload _ _, by simp [toSerialized, Inst.mapM, hd, ha], rfl⟩
  | store addr src =>
      obtain ⟨ha, hs⟩ := formed
      obtain ⟨_, _ | ⟨ha, _ | ⟨hs, _ | _⟩⟩, rfl⟩ := exists_addrs_of_ranges
        [(false, true), (false, false)] (.cons ha (.cons hs .nil)) hseen
      exact ⟨.store _ _, by simp [toSerialized, Inst.mapM, ha, hs], rfl⟩
  | vstore addr src =>
      obtain ⟨ha, hs⟩ := formed
      obtain ⟨_, _ | ⟨ha, _ | ⟨hs, _ | _⟩⟩, rfl⟩ := exists_addrs_of_ranges
        [(false, true), (true, false)] (.cons ha (.cons hs .nil)) hseen
      simp [toSerialized, Inst.mapM, ha, hs, wordsAt, Inst.touched, Inst.marked]
  | valu op dest a b =>
      obtain ⟨hd, ha, hb⟩ := formed
      obtain ⟨_, _ | ⟨hd, _ | ⟨ha, _ | ⟨hb, _ | _⟩⟩⟩, rfl⟩ := exists_addrs_of_ranges
        [(true, false), (true, true), (true, true)] (.cons hd (.cons ha (.cons hb .nil))) hseen
      simp [toSerialized, Inst.mapM, hd, ha, hb, wordsAt, Inst.touched, Inst.marked]
  | multiplyAdd dest a b c =>
      obtain ⟨hd, ha, hb, hc⟩ := formed
      obtain ⟨_, _ | ⟨hd, _ | ⟨ha, _ | ⟨hb, _ | ⟨hc, _ | _⟩⟩⟩⟩, rfl⟩ := exists_addrs_of_ranges
        [(true, false), (true, true), (true, true), (true, true)]
        (.cons hd (.cons ha (.cons hb (.cons hc .nil)))) hseen
      simp [toSerialized, Inst.mapM, hd, ha, hb, hc, wordsAt, Inst.touched, Inst.marked]
  | vbroadcast dest src =>
      obtain ⟨hd, hs⟩ := formed
      obtain ⟨_, _ | ⟨hd, _ | ⟨hs, _ | _⟩⟩, rfl⟩ := exists_addrs_of_ranges
        [(true, false), (false, true)] (.cons hd (.cons hs .nil)) hseen
      exact ⟨.vbroadcast _ _, by simp [toSerialized, Inst.mapM, hd, hs], rfl⟩

end Access

section GetTidmetas

variable {ss ss' : ScratchSpace} {numThreads concThreads : ℕ}

theorem formed_setConstant (srcVal reqVal : ℤ) :
    ∀ linst ∈ setConstant srcVal reqVal, Formed linst := by
  intro linst hlinst
  obtain rfl | hlinst := List.mem_cons.mp hlinst
  · exact ⟨rfl, rfl⟩
  · obtain rfl := List.mem_singleton.mp hlinst
    exact ⟨⟨rfl, rfl⟩, rfl, rfl⟩

theorem ArrayOp.of_eq_some {name : ScratchName} {offset : ℕ} {isVector isRead : Bool} {a : ArrayOp}
    (h : ArrayOp.of ss name offset isVector isRead = some a) :
    a = ⟨name, offset, isVector, isRead⟩ := by
  obtain ⟨vm, -, h⟩ := Option.bind_eq_some_iff.mp h
  split at h
  · exact (Option.some.inj h).symm
  · simp at h

theorem formed_tidMeta {tids : List ℕ} {tidmetas : List (ℕ × LogicalInstruction)}
    (h : tids.mapM tidMeta = some tidmetas) : ∀ entry ∈ tidmetas, Formed entry.2 := by
  intro entry hentry
  obtain ⟨tid, -, htid⟩ := exists_of_mem_mapM h hentry
  unfold tidMeta at htid
  split at htid
  · obtain rfl := Option.some.inj htid
    exact ⟨rfl, rfl⟩
  · simp at htid

/-- What `get_tidmetas` adds fits its opcodes. -/
theorem formed_getTidmetas {tidmetas : List (ℕ × LogicalInstruction)}
    {moreglobal : List LogicalInstruction}
    (h : getTidmetas ss numThreads concThreads = some (ss', tidmetas, moreglobal)) :
    (∀ entry ∈ tidmetas, Formed entry.2) ∧ ∀ linst ∈ moreglobal, Formed linst := by
  obtain ⟨_, -, h⟩ := Option.bind_eq_some_iff.mp h
  split at h
  · obtain ⟨rfl, rfl, rfl⟩ := by simpa using h
    exact ⟨List.forall_mem_nil _, List.forall_mem_nil _⟩
  split at h
  · obtain ⟨tids, htids, hret⟩ := Option.bind_eq_some_iff.mp h
    obtain ⟨rfl, rfl, rfl⟩ := by simpa using hret
    exact ⟨formed_tidMeta htids, List.forall_mem_nil _⟩
  · obtain ⟨⟨ss₁, _⟩, -, h⟩ := Option.bind_eq_some_iff.mp h
    obtain ⟨firsts, hfirsts, h⟩ := Option.bind_eq_some_iff.mp h
    obtain ⟨adds, hadds, h⟩ := Option.bind_eq_some_iff.mp h
    obtain ⟨tids, htids, hret⟩ := Option.bind_eq_some_iff.mp h
    obtain ⟨rfl, rfl, rfl⟩ := by simpa using hret
    refine ⟨formed_tidMeta htids, ?_⟩
    simp only [List.forall_mem_append]
    refine ⟨formed_setConstant _ _, ?_, ?_, formed_setConstant _ _⟩
    · intro linst hlinst
      obtain ⟨i, -, hi⟩ := exists_of_mem_mapM hfirsts hlinst
      obtain ⟨a, ha, hret⟩ := Option.bind_eq_some_iff.mp hi
      obtain rfl := Option.some.inj hret
      obtain rfl := ArrayOp.of_eq_some ha
      exact ⟨rfl, rfl⟩
    · intro linst hlinst
      obtain ⟨start, -, hstart⟩ := exists_of_mem_mapM hadds hlinst
      obtain ⟨a, ha, hstart⟩ := Option.bind_eq_some_iff.mp hstart
      obtain ⟨b, hb, hret⟩ := Option.bind_eq_some_iff.mp hstart
      obtain rfl := Option.some.inj hret
      obtain rfl := ArrayOp.of_eq_some ha
      obtain rfl := ArrayOp.of_eq_some hb
      exact ⟨⟨rfl, rfl⟩, ⟨rfl, rfl⟩, rfl, rfl⟩

end GetTidmetas

section GetWork

/-- The instructions of a graph fit their opcodes. -/
structure InstrGraph.Fits (graph : InstrGraph) : Prop where
  globalimetas : ∀ linst ∈ graph.globalimetas, Formed linst
  imetas : ∀ entry ∈ graph.imetas, Formed entry.1

theorem WellTyped.fits {slots : ℕ} {st : ScratchSpace × InstrGraph} (h : WellTyped slots st) :
    st.2.Fits :=
  ⟨fun linst hlinst => (h.globalimetas linst hlinst).formed,
    fun entry hentry => (h.imetas entry hentry).formed⟩

/-- A list of instructions in the order of their ids, whose `after` goes forward and
connects those that conflict. -/
structure Assembled (ss : ScratchSpace) (concThreads : ℕ) (imetas : List InstrMeta) : Prop where
  instid : ∀ (k : ℕ) (x : InstrMeta), imetas[k]? = some x → x.instid = k
  formed : ∀ x ∈ imetas, Formed x.lin
  inst : ∀ x ∈ imetas, ∃ inst,
    toSerialized ss (workSlotOf x.tid concThreads) x.lin = some inst
  after_lt : ∀ x ∈ imetas, ∀ k ∈ x.after, x.instid < k ∧ k < imetas.length
  reaches : ∀ (i j : ℕ) (x y : InstrMeta) (a b : SerializedInstruction),
    imetas[i]? = some x → imetas[j]? = some y → i < j →
    toSerialized ss (workSlotOf x.tid concThreads) x.lin = some a →
    toSerialized ss (workSlotOf y.tid concThreads) y.lin = some b →
    a.Conflicts b → Reaches imetas i j

variable {ss ss' : ScratchSpace} {graph : InstrGraph} {numThreads concThreads : ℕ}
  {imetas : List InstrMeta}

/-- The instructions of all threads fit their opcodes. -/
theorem formed_programOrder (fits : graph.Fits) {tidmetas : List (ℕ × LogicalInstruction)}
    {moreglobal : List LogicalInstruction}
    (h : getTidmetas ss numThreads concThreads = some (ss', tidmetas, moreglobal)) :
    ∀ entry ∈ programOrder graph numThreads tidmetas moreglobal, Formed entry.1 := by
  obtain ⟨htids, hmore⟩ := formed_getTidmetas h
  intro entry hentry
  obtain hentry | hentry := List.mem_append.mp hentry
  · obtain ⟨linst, hlinst, rfl⟩ := List.mem_map.mp hentry
    obtain hlinst | hlinst := List.mem_append.mp hlinst
    · exact hmore linst hlinst
    · exact fits.globalimetas linst hlinst
  · obtain ⟨tid, -, hentry⟩ := List.mem_flatMap.mp hentry
    obtain ⟨numbered, hnumbered, rfl⟩ := List.mem_map.mp hentry
    obtain hlinst | hlinst := List.mem_append.mp (List.fst_mem_of_mem_zipIdx hnumbered)
    · obtain ⟨tidmeta, htidmeta, heq⟩ := List.mem_map.mp hlinst
      exact heq ▸ htids tidmeta (List.mem_filter.mp htidmeta).1
    · obtain ⟨tagged, htagged, heq⟩ := List.mem_map.mp hlinst
      exact heq ▸ fits.imetas tagged (List.mem_filter.mp htagged).1

/-- The list that `get_work` assembles, with the accesses that its passes look at. -/
theorem getWork_eq_some (h : getWork ss graph numThreads concThreads = some (ss', imetas)) :
    ∃ tidmetas moreglobal accesses,
      getTidmetas ss numThreads concThreads = some (ss', tidmetas, moreglobal) ∧
      (programOrder graph numThreads tidmetas moreglobal).mapM (fun entry =>
        accessOf ss' (workSlotOf entry.2.1 concThreads) entry.1) = some accesses ∧
      imetas = (programOrder graph numThreads tidmetas moreglobal).zipIdx.map fun entry =>
        { instid := entry.2
          lin := entry.1.1
          tid := entry.1.2.1
          instidInThread := entry.1.2.2
          after := afterOf (dependencies accesses) entry.2 } := by
  obtain ⟨⟨ss₁, tidmetas, moreglobal⟩, htids, h⟩ := Option.bind_eq_some_iff.mp h
  dsimp only at h
  split at h
  · simp at h
  · obtain ⟨accesses, haccesses, hret⟩ := Option.bind_eq_some_iff.mp h
    obtain ⟨rfl, rfl⟩ := Prod.mk.inj (Option.some.inj hret)
    exact ⟨tidmetas, moreglobal, accesses, htids, haccesses, rfl⟩

theorem assembled_of_getWork (fits : graph.Fits)
    (h : getWork ss graph numThreads concThreads = some (ss', imetas)) :
    Assembled ss' concThreads imetas := by
  obtain ⟨tidmetas, moreglobal, accesses, htids, haccesses, himetas⟩ := getWork_eq_some h
  have hformed := formed_programOrder fits htids
  obtain ⟨hlength, -⟩ := List.forall₂_iff_get.mp (forall₂_of_mapM haccesses)
  have hlen : imetas.length = accesses.length := by
    rw [himetas, List.length_map, List.length_zipIdx, hlength]
  have hget (k : ℕ) (x : InstrMeta) (hx : imetas[k]? = some x) :
      x.instid = k ∧ x.after = afterOf (dependencies accesses) k ∧ Formed x.lin ∧
        ∃ inst, toSerialized ss' (workSlotOf x.tid concThreads) x.lin = some inst ∧
          accesses[k]? = some ⟨inst.touched, inst.marked⟩ := by
    rw [himetas, List.getElem?_map, List.getElem?_zipIdx, Option.map_map] at hx
    obtain ⟨entry, hentry, rfl⟩ := Option.map_eq_some_iff.mp hx
    have hfit := hformed entry (List.mem_of_getElem? hentry)
    obtain ⟨access, haccess, hof⟩ := getElem?_of_mapM haccesses hentry
    obtain ⟨inst, hinst, rfl⟩ := accessOf_eq_some hfit hof
    refine ⟨Nat.zero_add k, ?_, hfit, inst, hinst, haccess⟩
    exact congrArg (afterOf (dependencies accesses)) (Nat.zero_add k)
  have hmem (x : InstrMeta) (hx : x ∈ imetas) : ∃ k < imetas.length, imetas[k]? = some x := by
    obtain ⟨k, hk, rfl⟩ := List.getElem_of_mem hx
    exact ⟨k, hk, List.getElem?_eq_getElem hk⟩
  refine ⟨fun k x hx => (hget k x hx).1, fun x hx => ?_, fun x hx => ?_, fun x hx k hk => ?_, ?_⟩
  · obtain ⟨k, -, hk⟩ := hmem x hx
    exact (hget k x hk).2.2.1
  · obtain ⟨k, -, hk⟩ := hmem x hx
    obtain ⟨-, -, -, inst, hinst, -⟩ := hget k x hk
    exact ⟨inst, hinst⟩
  · obtain ⟨i, -, hi⟩ := hmem x hx
    obtain ⟨hid, hafter, -⟩ := hget i x hi
    rw [hid, hlen]
    rw [hafter] at hk
    exact lt_of_mem_dependencies (mem_afterOf.mp hk)
  · intro i j x y a b hx hy hij ha hb ⟨loc, hloc, hloc', hmarked⟩
    obtain ⟨-, -, -, a', ha', hacca⟩ := hget i x hx
    obtain ⟨-, -, -, b', hb', haccb⟩ := hget j y hy
    obtain rfl := Option.some.inj (ha.symm.trans ha')
    obtain rfl := Option.some.inj (hb.symm.trans hb')
    have hsub : ∀ c ∈ accesses, c.written ⊆ c.touched := by
      intro c hc
      obtain ⟨k, hk, rfl⟩ := List.getElem_of_mem hc
      obtain ⟨-, -, -, inst, -, hacc⟩ := hget k _ (List.getElem?_eq_getElem (hlen ▸ hk))
      rw [List.getElem?_eq_getElem hk] at hacc
      rw [Option.some.inj hacc]
      exact inst.marked_subset_touched
    refine (transGen_dependencies hacca hloc haccb hloc' hij hmarked hsub).lift (fun k => k)
      fun k l hkl => ?_
    have hlt := lt_of_mem_dependencies hkl
    have hk := List.getElem?_eq_getElem (l := imetas) (i := k) (by omega)
    refine ⟨_, hk, ?_⟩
    rw [(hget k _ hk).2.1]
    exact mem_afterOf.mpr hkl

end GetWork

end Explore.Takehome
