import Explore.Lib.StraightLine
import Explore.Takehome.Agreement

/-!
# Instructions do what statements say

An operand that is lowered names the words that the interpretation finds, so each instruction
writes, lane by lane, the value of the expression it is lowered from. The comparison of a
select is an assignment to the destination, from which the select then takes its condition;
words that are loaded one by one do not disturb the addresses that are still to be read.
-/

namespace Explore.Takehome

/-- An operand names words that hold `ws`. -/
def Reads (ss : ScratchSpace) (slot : ℤ) (m : Machine) (op : LogicalOp) (ws : List Word) : Prop :=
  ∃ addr, op.addrOf ss slot = some addr ∧ ∀ i < ws.length, m.scratch[addr + i]? = ws[i]?

/-- The words of a vector or a single word. -/
def width (isVector : Bool) : ℕ := if isVector then VLEN else 1

section Operands

variable {ss₀ ss : ScratchSpace} {slot : ℤ} {slots : ℕ} {s : State} {m : Machine} {st st' : Lowered}
  {name : String} {isVector : Bool} {op : LogicalOp} {ws : List Word}

theorem Agrees.reads_variable (h : Agrees ss₀ ss slot s m) (shaped : ss.Shaped slots)
    (hst : st.ss.Extends ss) (hread : st.readVariable name isVector = some op)
    (hstore : s.store name = some ws) : Reads ss slot m op ws ∧ ws.length = width isVector := by
  obtain ⟨_, hcheck, hret⟩ := Option.bind_eq_some_iff.mp hread
  obtain rfl := Option.some.inj hret
  obtain ⟨vm, hvm, hvec⟩ := Lowered.checkIsVector_spec hcheck
  have hvm := hst.varMeta _ _ hvm
  obtain ⟨vm', addr, hvm', haddr, hlength, hwords⟩ := exists_of_wordsOf h.length (h.vars _ _ hstore)
  obtain rfl := Option.some.inj (hvm.symm.trans hvm')
  refine ⟨⟨addr, (addrOf_whole hvm isVector true).trans haddr, ?_⟩, ?_⟩
  · rwa [hlength]
  · rw [hlength, isVector_iff shaped hvm, hvec, width]

theorem Agrees.reads_constant (h : Agrees ss₀ ss slot s m) (shaped : ss.Shaped slots) {v : ℤ}
    (hst : st'.ss.Extends ss₀) (hext : ss₀.Extends ss)
    (hconst : st.handleConst v isVector = some (st', op)) :
    Reads ss slot m op (List.replicate (width isVector) (word v)) := by
  obtain ⟨⟨ss₁, firstTime⟩, halloc, hret⟩ := Option.bind_eq_some_iff.mp hconst
  obtain ⟨rfl, rfl⟩ := Prod.mk.inj (Option.some.inj hret)
  obtain ⟨vm, hvm⟩ := Option.isSome_iff_exists.mp (ScratchSpace.allocConst_spec halloc).2
  have hvm₀ := hst.varMeta _ _ hvm
  have hvm := hext.varMeta _ _ hvm₀
  obtain ⟨hone, hlength⟩ := (shaped.of_varMetaOf hvm).const v isVector
    (ScratchSpace.name_of_varMetaOf hvm)
  have haddr : vm.addrOf slot = some vm.addr := by rw [VariableMeta.addrOf, if_pos hone]
  refine ⟨vm.addr, (addrOf_whole hvm isVector true).trans haddr, fun i hi => ?_⟩
  rw [List.length_replicate] at hi
  rw [List.getElem?_replicate_of_lt hi]
  apply h.consts v isVector vm hvm₀
  exact mem_words_of_addrOf haddr (by rw [hlength]; exact hi)

/-- An operand names the words that the interpretation finds. -/
theorem Agrees.reads_operand (h : Agrees ss₀ ss slot s m) (shaped : ss.Shaped slots)
    {original : VarOrConstant} (hst : st'.ss.Extends ss₀) (hext : ss₀.Extends ss)
    (hop : st.addrOf original isVector = some (st', op))
    (hws : original.words s.store (width isVector) = some ws) :
    Reads ss slot m op ws ∧ ws.length = width isVector := by
  cases original with
  | var name =>
      obtain ⟨op', hread, hret⟩ := Option.bind_eq_some_iff.mp hop
      obtain ⟨rfl, rfl⟩ := Prod.mk.inj (Option.some.inj hret)
      exact h.reads_variable shaped (hst.trans hext) hread hws
  | const intconst =>
      obtain rfl := Option.some.inj hws
      exact ⟨h.reads_constant shaped hst hext hop, List.length_replicate⟩

end Operands

section Lanes

variable {ss : ScratchSpace} {slot : ℤ} {m : Machine} {inst : SerializedInstruction} {loc : ℕ → Loc}
  {n addr : ℕ} {f : ℕ → Option Word} {ws us vs : List Word} {dest a b c : LogicalOp}

theorem getElem?_of_mapM_range (h : (List.range n).mapM f = some ws) :
    ws.length = n ∧ ∀ i < n, f i = ws[i]? := by
  have hlength := (forall₂_of_mapM h).length_eq
  rw [List.length_range] at hlength
  refine ⟨hlength.symm, fun i hi => ?_⟩
  obtain ⟨w, hw, hf⟩ := getElem?_of_mapM h (List.getElem?_range hi)
  rw [hf, hw]

/-- An instruction that writes the words of a loop over lanes. -/
theorem exec_lanes
    (hwrites : inst.writes m.read = (List.range n).mapM fun i => (f i).map fun w => (loc i, w))
    (hf : (List.range n).mapM f = some ws) : m.exec inst = m.put loc ws := by
  obtain ⟨rfl, hget⟩ := getElem?_of_mapM_range hf
  have hrange := @mapM_range_eq _ (fun i => (f i).map fun w => (loc i, w))
    (ws.zipIdx.map fun entry => (loc entry.2, entry.1))
  rw [List.length_map, List.length_zipIdx] at hrange
  have hws := hrange fun i hi => by
    rw [hget i hi, List.getElem?_map, List.getElem?_zipIdx]
    cases ws[i]? <;> simp
  rw [Machine.exec_eq, hwrites, hws, Machine.put]
  rfl

/-- An instruction whose operands have addresses. -/
theorem execAll_of_inst {linst : LogicalInstruction}
    (hinst : toSerialized ss slot linst = some inst)
    (hexec : m.exec inst = m.put loc ws) : m.execAll ss slot [linst] = m.put loc ws := by
  rw [execAll_single, hinst]
  exact hexec

theorem aluLane_eq_map (σ : Loc → Option Word) (op : AluOp) (dest a1 a2 i : ℕ) :
    aluLane σ op dest a1 a2 i =
      (do op.eval (← σ (.scratch (a1 + i))) (← σ (.scratch (a2 + i)))).map fun w =>
        (.scratch (dest + i), w) := by
  rw [aluLane]
  cases σ (.scratch (a1 + i)) with
  | none => rfl
  | some u =>
      cases σ (.scratch (a2 + i)) with
      | none => rfl
      | some v =>
          simp only [Option.bind_eq_bind, Option.bind_some]
          cases op.eval u v <;> rfl

theorem execAll_valu {op : AluOp} (hdest : dest.addrOf ss slot = some addr)
    (ha : Reads ss slot m a us) (hb : Reads ss slot m b vs) (hus : us.length = VLEN)
    (hvs : vs.length = VLEN) (hws : laneWords VLEN op us vs = some ws) :
    m.execAll ss slot [.valu op dest a b] = m.put (fun i => .scratch (addr + i)) ws := by
  obtain ⟨a', ha', hget⟩ := ha
  obtain ⟨b', hb', hget'⟩ := hb
  have hinst : toSerialized ss slot (.valu op dest a b) = some (.valu op addr a' b') := by
    simp [toSerialized, Inst.mapM, hdest, ha', hb']
  refine execAll_of_inst hinst (exec_lanes (mapM_congr fun i hi => ?_) hws)
  have hi := List.mem_range.mp hi
  rw [aluLane_eq_map, Machine.read, Machine.read, hget i (hus ▸ hi), hget' i (hvs ▸ hi)]

theorem execAll_alu {op : AluOp} (hdest : dest.addrOf ss slot = some addr)
    (ha : Reads ss slot m a us) (hb : Reads ss slot m b vs) (hus : us.length = 1)
    (hvs : vs.length = 1) (hws : laneWords 1 op us vs = some ws) :
    m.execAll ss slot [.alu op dest a b] = m.put (fun i => .scratch (addr + i)) ws := by
  obtain ⟨a', ha', hget⟩ := ha
  obtain ⟨b', hb', hget'⟩ := hb
  have hinst : toSerialized ss slot (.alu op dest a b) = some (.alu op addr a' b') := by
    simp [toSerialized, Inst.mapM, hdest, ha', hb']
  refine execAll_of_inst hinst (exec_lanes ?_ hws)
  have hu : m.scratch[a' + 0]? = us[0]? := hget 0 (by omega)
  have hv : m.scratch[b' + 0]? = vs[0]? := hget' 0 (by omega)
  rw [Inst.writes, aluLane_eq_map, Machine.read, Machine.read, hu, hv, List.range_one,
    List.mapM_cons, List.mapM_nil]
  rfl

theorem execAll_multiplyAdd {ts : List Word} (hdest : dest.addrOf ss slot = some addr)
    (ha : Reads ss slot m a us) (hb : Reads ss slot m b vs) (hc : Reads ss slot m c ts)
    (hus : us.length = VLEN) (hvs : vs.length = VLEN) (hts : ts.length = VLEN)
    (hws : (List.range VLEN).mapM (fun i => do return (← us[i]?) * (← vs[i]?) + (← ts[i]?)) =
      some ws) :
    m.execAll ss slot [.multiplyAdd dest a b c] = m.put (fun i => .scratch (addr + i)) ws := by
  obtain ⟨a', ha', hgeta⟩ := ha
  obtain ⟨b', hb', hgetb⟩ := hb
  obtain ⟨c', hc', hgetc⟩ := hc
  have hinst : toSerialized ss slot (.multiplyAdd dest a b c) =
      some (.multiplyAdd addr a' b' c') := by
    simp [toSerialized, Inst.mapM, hdest, ha', hb', hc']
  refine execAll_of_inst hinst (exec_lanes (mapM_congr fun i hi => ?_) hws)
  have hi := List.mem_range.mp hi
  simp only [Machine.read, hgeta i (hus ▸ hi), hgetb i (hvs ▸ hi), hgetc i (hts ▸ hi)]
  cases us[i]? with
  | none => rfl
  | some u =>
      cases vs[i]? with
      | none => rfl
      | some v => cases ts[i]? <;> rfl

theorem execAll_vselect {ts : List Word} (hdest : dest.addrOf ss slot = some addr)
    (hc : Reads ss slot m c ts) (ha : Reads ss slot m a us) (hb : Reads ss slot m b vs)
    (hts : ts.length = VLEN) (hus : us.length = VLEN) (hvs : vs.length = VLEN)
    (hws : (List.range VLEN).mapM (fun i => do if (← ts[i]?) ≠ 0 then us[i]? else vs[i]?) =
      some ws) :
    m.execAll ss slot [.vselect dest c a b] = m.put (fun i => .scratch (addr + i)) ws := by
  obtain ⟨a', ha', hgeta⟩ := ha
  obtain ⟨b', hb', hgetb⟩ := hb
  obtain ⟨c', hc', hgetc⟩ := hc
  have hinst : toSerialized ss slot (.vselect dest c a b) = some (.vselect addr c' a' b') := by
    simp [toSerialized, Inst.mapM, hdest, ha', hb', hc']
  refine execAll_of_inst hinst (exec_lanes (mapM_congr fun i hi => ?_) hws)
  have hi := List.mem_range.mp hi
  simp only [Machine.read, hgeta i (hus ▸ hi), hgetb i (hvs ▸ hi), hgetc i (hts ▸ hi)]
  cases ts[i]? with
  | none => rfl
  | some t =>
      simp only [Option.bind_eq_bind, Option.bind_some]
      split
      · cases us[i]? <;> rfl
      · cases vs[i]? <;> rfl

theorem execAll_vload {base : Word} (hdest : dest.addrOf ss slot = some addr)
    (ha : Reads ss slot m a [base]) (hws : loadWords m.mem VLEN base = some ws) :
    m.execAll ss slot [.vload dest a] = m.put (fun i => .scratch (addr + i)) ws := by
  obtain ⟨a', ha', hget⟩ := ha
  have hbase : m.scratch[a']? = some base := hget 0 Nat.one_pos
  have hinst : toSerialized ss slot (.vload dest a) = some (.vload addr a') := by
    simp [toSerialized, Inst.mapM, hdest, ha']
  refine execAll_of_inst hinst (exec_lanes ?_ hws)
  simp only [Inst.writes, Machine.read, hbase, Option.bind_eq_bind, Option.bind_some]
  apply mapM_congr
  intro i _
  cases m.mem[base.toNat + i]? <;> rfl

theorem execAll_load {base : Word} (hdest : dest.addrOf ss slot = some addr)
    (ha : Reads ss slot m a [base]) (hws : loadWords m.mem 1 base = some ws) :
    m.execAll ss slot [.load dest a] = m.put (fun i => .scratch (addr + i)) ws := by
  obtain ⟨a', ha', hget⟩ := ha
  have hbase : m.scratch[a']? = some base := hget 0 Nat.one_pos
  have hinst : toSerialized ss slot (.load dest a) = some (.load addr a') := by
    simp [toSerialized, Inst.mapM, hdest, ha']
  refine execAll_of_inst hinst (exec_lanes ?_ hws)
  simp only [Inst.writes, Machine.read, hbase, Option.bind_eq_bind, Option.bind_some,
    List.range_one, List.mapM_cons, List.mapM_nil, Nat.add_zero]
  cases m.mem[base.toNat]? <;> rfl

theorem execAll_vbroadcast {val : Word} (hdest : dest.addrOf ss slot = some addr)
    (ha : Reads ss slot m a [val]) :
    m.execAll ss slot [.vbroadcast dest a] =
      m.put (fun i => .scratch (addr + i)) (List.replicate VLEN val) := by
  obtain ⟨a', ha', hget⟩ := ha
  have hinst : toSerialized ss slot (.vbroadcast dest a) = some (.vbroadcast addr a') := by
    simp [toSerialized, Inst.mapM, hdest, ha']
  exact execAll_of_inst hinst (exec_vbroadcast (hget 0 Nat.one_pos))

theorem execAll_const {val : ℤ} (hdest : dest.addrOf ss slot = some addr) :
    m.execAll ss slot [.const dest val] = m.put (fun i => .scratch (addr + i)) [word val] := by
  have hinst : toSerialized ss slot (.const dest val) = some (.const addr val) := by
    simp [toSerialized, Inst.mapM, hdest]
  exact execAll_of_inst hinst (exec_const m addr val)

end Lanes

section Loads

variable {ss₀ ss : ScratchSpace} {slot : ℤ} {slots : ℕ} {s : State} {m m' : Machine}
  {x rname : String} {addrs ws : List Word}

/-- The instruction that loads the word `i` of `x`. -/
def loadLane (x rname : String) (i : Fin 8) : LogicalInstruction :=
  .load (scalarWithinVector (.var x) i false) (scalarWithinVector (.var rname) i true)

/-- Words that are loaded one by one: those before lane `k` have been written, and the
addresses from there on are not touched. -/
theorem execAll_loads (h : Agrees ss₀ ss slot s m) {vm : VariableMeta} {addr : ℕ}
    (hx : ss.varMetaOf (.var x) = some vm) (haddr : vm.addrOf slot = some addr)
    (hxlen : vm.length = VLEN) (hstore : s.store rname = some addrs) (haddrs : addrs.length = VLEN)
    (hws : (List.range VLEN).mapM (fun i => do m.mem[(← addrs[i]?).toNat]?) = some ws) :
    m.execAll ss slot ((List.finRange 8).map (loadLane x rname)) =
      m.put (fun i => .scratch (addr + i)) ws := by
  obtain ⟨hwslen, hload⟩ := getElem?_of_mapM_range hws
  obtain ⟨vmy, addry, hy, haddry, hylen, hywords⟩ :=
    exists_of_wordsOf h.length (h.vars _ _ hstore)
  rw [haddrs] at hylen
  have hfits := addrOf_add_length_le hx haddr
  -- Lane `i` of the addresses is none of the first `i` words of `x`.
  have hapart (i k : ℕ) (hi : i < VLEN) (hk : k ≤ i) :
      ¬ (addr ≤ addry + i ∧ addry + i < addr + k) := by
    by_cases hname : x = rname
    · subst hname
      obtain rfl := Option.some.inj (hx.symm.trans hy)
      obtain rfl := Option.some.inj (haddr.symm.trans haddry)
      omega
    · have hnames : ScratchName.var rname ≠ .var x :=
        fun heq => hname (ScratchName.var.inj heq).symm
      have hmem := mem_words_of_addrOf haddry (hylen ▸ hi)
      rintro ⟨hle, hlt⟩
      obtain ⟨j, hj⟩ := Nat.exists_eq_add_of_le hle
      rw [hj] at hmem
      exact notMem_words hy hx hnames hmem (mem_words_of_addrOf haddr (by omega))
  have hlanes : ∀ k ≤ VLEN, m.execAll ss slot (((List.finRange 8).map (loadLane x rname)).take k) =
      m.put (fun i => .scratch (addr + i)) (ws.take k) := by
    intro k hk
    induction k with
    | zero => rfl
    | succ k ih =>
        have hlane : k < 8 := hk
        obtain ⟨mid, hput, hmem, -, hget⟩ := @exists_put_scratch addr m (ws.take k) (by
          rw [List.length_take, h.length]
          omega)
        rw [List.length_take, hwslen, Nat.min_eq_left (Nat.le_of_succ_le hk)] at hget
        have hsrc : mid.scratch[addry + k]? = addrs[k]? := by
          rw [hget, if_neg (hapart k k hlane (Nat.le_refl k))]
          exact hywords k (hylen ▸ hlane)
        obtain ⟨w, hw⟩ : ∃ w, ws[k]? = some w := ⟨_, List.getElem?_eq_getElem (hwslen ▸ hlane)⟩
        have hloaded := (hload k hlane).trans hw
        obtain ⟨base, hbase, hword⟩ := Option.bind_eq_some_iff.mp hloaded
        have hinst : toSerialized ss slot (loadLane x rname ⟨k, hlane⟩) =
            some (.load (addr + k) (addry + k)) := by
          simp [loadLane, toSerialized, Inst.mapM, scalarWithinVector, LogicalOp.addrOf,
            LogicalRegister.addrOf, LogicalRegister.offset, hx, hy, haddr, haddry]
        have hexec : mid.exec (.load (addr + k) (addry + k)) =
            mid.write (.scratch (addr + k), w) := by
          rw [Machine.exec_eq]
          simp [Inst.writes, Machine.read, hsrc, hbase, hmem, hword]
        have hnext : ((List.finRange 8).map (loadLane x rname)).take (k + 1) =
            ((List.finRange 8).map (loadLane x rname)).take k ++ [loadLane x rname ⟨k, hlane⟩] := by
          rw [List.take_add_one, List.getElem?_map,
            List.getElem?_eq_getElem (by rw [List.length_finRange]; exact hlane),
            List.getElem_finRange]
          rfl
        have hwords : ws.take (k + 1) = ws.take k ++ [w] := by
          rw [List.take_add_one, hw]
          rfl
        rw [hnext, hwords, execAll_append, ih (Nat.le_of_succ_le hk), put_append, hput,
          Option.bind_some, Option.bind_some, execAll_single, hinst, Option.bind_some, hexec,
          List.length_take, hwslen, Nat.min_eq_left (Nat.le_of_succ_le hk)]
  have hall := hlanes VLEN (Nat.le_refl _)
  rwa [List.take_of_length_le (by rw [List.length_map, List.length_finRange]; exact Nat.le_refl 8),
    List.take_of_length_le (Nat.le_of_eq hwslen)] at hall

end Loads

section Assignments

variable {ss₀ ss : ScratchSpace} {slot : ℤ} {slots : ℕ} {s : State} {m m' : Machine}
  {st st' : Lowered} {x : String} {vm : VariableMeta} {addr : ℕ} {ws : List Word}
  {instrs : List LogicalInstruction}

/-- The instructions give `ws` to `x`, and change variables of the slot only. -/
def Assigns (ss₀ ss : ScratchSpace) (slot : ℤ) (s : State) (m : Machine) (x : String)
    (ws : List Word) (instrs : List LogicalInstruction) : Prop :=
  ∃ m', m.execAll ss slot instrs = some m' ∧ Agrees ss₀ ss slot (s.set x ws) m' ∧
    ChangesOnly (SlotWord ss₀ slot) m m'

theorem Agrees.assigns (h : Agrees ss₀ ss slot s m) (hext : ss₀.Extends ss)
    (hvm : ss₀.varMetaOf (.var x) = some vm) (haddr : vm.addrOf slot = some addr)
    (hws : ws.length = vm.length)
    (hrun : m.execAll ss slot instrs = m.put (fun i => .scratch (addr + i)) ws) :
    Assigns ss₀ ss slot s m x ws instrs := by
  obtain ⟨m', hput, hagrees, changes⟩ := h.set hext hvm haddr hws
  exact ⟨m', hrun.trans hput, hagrees, changes⟩

theorem length_laneWords {n : ℕ} {op : AluOp} {us vs : List Word}
    (h : laneWords n op us vs = some ws) : ws.length = n := (getElem?_of_mapM_range h).1

theorem eq_singleton_of_head? {ps : List Word} {base : Word} (hlength : ps.length = 1)
    (hhead : ps.head? = some base) : ps = [base] := by
  obtain ⟨p, rfl⟩ := List.length_eq_one_iff.mp hlength
  rw [Option.some.inj hhead]

/-- A move that is no copy of a vector gives one word of `ys` to all words. -/
theorem eq_of_movedWords {length k : ℕ} {ys : List Word} {index : Option ℤ} {val : Word}
    (h : movedWords length ys index = some ws) (hk : index.getD 0 = k) (hval : ys[k]? = some val)
    (hcopy : index = none → ys.length = length → length = 1) : ws = List.replicate length val := by
  cases index with
  | some i =>
      obtain rfl : i = k := hk
      rw [movedWords, wordAt, if_pos (Int.natCast_nonneg k), Int.toNat_natCast, hval] at h
      exact (Option.some.inj h).symm
  | none =>
      obtain rfl : k = 0 := (Int.natCast_eq_zero.mp hk.symm)
      rw [← List.head?_eq_getElem?] at hval
      rw [movedWords] at h
      split at h
      · rename_i hsame
        obtain rfl := Option.some.inj h
        have hone := hcopy rfl hsame
        rw [eq_singleton_of_head? (hsame.trans hone) hval, hone]
        rfl
      · rw [hval] at h
        exact (Option.some.inj h).symm

theorem VarOrConstant.words_set {original : VarOrConstant} {n : ℕ} {cs : List Word}
    (h : original ≠ .var x) :
    original.words (s.set x cs).store n = original.words s.store n := by
  cases original with
  | var name =>
      have hne : name ≠ x := fun heq => h (congrArg VarOrConstant.var heq)
      rw [VarOrConstant.words, VarOrConstant.words, State.store_set, if_neg hne]
  | const intconst => rfl

/-- A select does what it says. The condition that it compares is kept in `x` in between. -/
theorem Agrees.assign_select (h : Agrees ss₀ ss slot s m) (shaped : ss.Shaped slots)
    (hst : st'.ss.Extends ss₀) (hext : ss₀.Extends ss) {cond : Condition}
    {ifTrue ifFalse : VarOrConstant} {cs as bs : List Word}
    (hlower : st.handleSelect x cond ifTrue ifFalse = some (st', instrs))
    (hvm : ss₀.varMetaOf (.var x) = some vm) (haddr : vm.addrOf slot = some addr)
    (hlen : vm.length = VLEN) (hcs : cond.words s.store VLEN = some cs)
    (has : ifTrue.words s.store VLEN = some as) (hbs : ifFalse.words s.store VLEN = some bs)
    (hws : (List.range VLEN).mapM (fun i => do if (← cs[i]?) ≠ 0 then as[i]? else bs[i]?) =
      some ws) : Assigns ss₀ ss slot s m x ws instrs := by
  have hdest (isRead : Bool) :
      (wholeVariable (.var x) true isRead).addrOf ss slot = some addr :=
    (addrOf_whole (hext.varMeta _ _ hvm) true isRead).trans haddr
  have hwslen : ws.length = vm.length := (getElem?_of_mapM_range hws).1.trans hlen.symm
  cases cond with
  | var name =>
      obtain ⟨caddr, hcaddr, hlower⟩ := Option.bind_eq_some_iff.mp hlower
      obtain ⟨⟨st₁, lbranch⟩, hl, hlower⟩ := Option.bind_eq_some_iff.mp hlower
      obtain ⟨⟨st₂, rbranch⟩, hr, hret⟩ := Option.bind_eq_some_iff.mp hlower
      obtain ⟨rfl, rfl⟩ := Prod.mk.inj (Option.some.inj hret)
      obtain ⟨_, hl₁, -⟩ := accumulates_prepares.addrOf hl
      obtain ⟨_, hr₁, -⟩ := accumulates_prepares.addrOf hr
      have hst₁ := hr₁.trans hst
      obtain ⟨hc, hclen⟩ := h.reads_variable shaped (hl₁.trans (hst₁.trans hext)) hcaddr hcs
      obtain ⟨ha, halen⟩ := h.reads_operand shaped hst₁ hext hl has
      obtain ⟨hb, hblen⟩ := h.reads_operand shaped hst hext hr hbs
      exact h.assigns hext hvm haddr hwslen
        (execAll_vselect (hdest false) hc ha hb hclen halen hblen hws)
  | cmp left op right =>
      obtain ⟨⟨st₁, l1⟩, h1, hlower⟩ := Option.bind_eq_some_iff.mp hlower
      obtain ⟨⟨st₂, r1⟩, h2, hlower⟩ := Option.bind_eq_some_iff.mp hlower
      obtain ⟨caddr, hcaddr, hlower⟩ := Option.bind_eq_some_iff.mp hlower
      obtain ⟨⟨st₃, lbranch⟩, hl, hlower⟩ := Option.bind_eq_some_iff.mp hlower
      obtain ⟨⟨st₄, rbranch⟩, hr, hlower⟩ := Option.bind_eq_some_iff.mp hlower
      obtain ⟨_, hguard, hret⟩ := Option.bind_eq_some_iff.mp hlower
      obtain ⟨hnotTrue, hnotFalse⟩ := Lowered.of_guard hguard
      obtain ⟨rfl, rfl⟩ := Prod.mk.inj (Option.some.inj hret)
      obtain ⟨us, hus, hcs⟩ := Option.bind_eq_some_iff.mp hcs
      obtain ⟨vs, hvs, hcs⟩ := Option.bind_eq_some_iff.mp hcs
      obtain ⟨_, h2₁, -⟩ := accumulates_prepares.addrOf h2
      obtain ⟨_, hl₁, -⟩ := accumulates_prepares.addrOf hl
      obtain ⟨_, hr₁, -⟩ := accumulates_prepares.addrOf hr
      have hst₃ := hr₁.trans hst
      have hst₂ := hl₁.trans hst₃
      obtain ⟨hu, hulen⟩ := h.reads_operand shaped (h2₁.trans hst₂) hext h1 hus
      obtain ⟨hv, hvlen⟩ := h.reads_operand shaped hst₂ hext h2 hvs
      have hcmp := execAll_valu (hdest false) hu hv hulen hvlen hcs
      obtain ⟨m₁, hrun₁, h₁, changes₁⟩ :=
        h.assigns hext hvm haddr ((length_laneWords hcs).trans hlen.symm) hcmp
      have hstore : (s.set x cs).store x = some cs := by rw [State.store_set, if_pos rfl]
      obtain ⟨hc, hclen⟩ := h₁.reads_variable shaped (hst₂.trans hext) hcaddr hstore
      have has' : ifTrue.words (s.set x cs).store VLEN = some as :=
        (VarOrConstant.words_set hnotTrue).trans has
      have hbs' : ifFalse.words (s.set x cs).store VLEN = some bs :=
        (VarOrConstant.words_set hnotFalse).trans hbs
      obtain ⟨ha, halen⟩ := h₁.reads_operand shaped hst₃ hext hl has'
      obtain ⟨hb, hblen⟩ := h₁.reads_operand shaped hst hext hr hbs'
      obtain ⟨m₂, hrun₂, h₂, changes₂⟩ := h₁.assigns hext hvm haddr hwslen
        (execAll_vselect (hdest false) hc ha hb hclen halen hblen hws)
      refine ⟨m₂, ?_, ?_, changes₁.trans changes₂⟩
      · rw [execAll_single] at hrun₁
        rw [execAll_cons, hrun₁]
        exact hrun₂
      · rwa [State.set, State.set, Function.update_idem] at h₂

/-- An assignment that is lowered gives the value of its expression to the variable, unless it
copies a vector. -/
theorem Agrees.assign (h : Agrees ss₀ ss slot s m) (shaped : ss.Shaped slots)
    (hshaped : st.ss.Shaped slots) (hst : st'.ss.Extends ss₀) (hext : ss₀.Extends ss)
    {value : ValueExpr} (hlower : st.handleVariableAssignment x value = some (st', instrs))
    (hvm₀ : ss₀.varMetaOf (.var x) = some vm) (haddr : vm.addrOf slot = some addr)
    (hws : value.eval s vm.length = some ws)
    (hcopy : ∀ y vmy, value = .variable y none → ss.varMetaOf (.var y) = some vmy →
      ¬ (vm.isVector = true ∧ vmy.isVector = true)) :
    Assigns ss₀ ss slot s m x ws instrs := by
  obtain ⟨_, hgrows, -⟩ := accumulates_prepares.handleVariableAssignment hlower
  have hss := hgrows.trans (hst.trans hext)
  have hvm := hext.varMeta _ _ hvm₀
  obtain ⟨vm', hvm', hlower⟩ := Option.bind_eq_some_iff.mp hlower
  obtain rfl := Option.some.inj (hvm.symm.trans (hss.varMeta _ _ hvm'))
  have hlen := isVector_iff shaped hvm
  have hdest := (addrOf_whole hvm vm.isVector false).trans haddr
  have assigns (hws : ws.length = vm.length)
      (hrun : m.execAll ss slot instrs = m.put (fun i => .scratch (addr + i)) ws) :=
    h.assigns hext hvm₀ haddr hws hrun
  cases value with
  | derefIndividualWords rname =>
      obtain ⟨_, hguard, hlower⟩ := Option.bind_eq_some_iff.mp hlower
      obtain ⟨_, hcheck, hret⟩ := Option.bind_eq_some_iff.mp hlower
      obtain ⟨rfl, rfl⟩ := Prod.mk.inj (Option.some.inj hret)
      obtain ⟨addrs, hstore, hws⟩ := Option.bind_eq_some_iff.mp hws
      obtain ⟨rvm, hrvm, hrvec⟩ := Lowered.checkIsVector_spec hcheck
      obtain ⟨rvm', -, hrvm', -, hrlen, -⟩ := exists_of_wordsOf h.length (h.vars _ _ hstore)
      obtain rfl := Option.some.inj (hrvm'.symm.trans (hss.varMeta _ _ hrvm))
      rw [isVector_iff shaped hrvm', if_pos hrvec] at hrlen
      rw [if_pos (Lowered.of_guard hguard)] at hlen
      rw [hlen, ← h.mem] at hws
      exact assigns ((getElem?_of_mapM_range hws).1.trans hlen.symm)
        (execAll_loads h hvm haddr hlen hstore hrlen hws)
  | derefVariable rname =>
      obtain ⟨op, hread, hret⟩ := Option.bind_eq_some_iff.mp hlower
      obtain ⟨rfl, rfl⟩ := Prod.mk.inj (Option.some.inj hret)
      obtain ⟨ps, hstore, hws⟩ := Option.bind_eq_some_iff.mp hws
      obtain ⟨base, hhead, hws⟩ := Option.bind_eq_some_iff.mp hws
      obtain ⟨hp, hplen⟩ := h.reads_variable shaped hss hread hstore
      obtain rfl := eq_singleton_of_head? hplen hhead
      rw [← h.mem] at hws
      refine assigns (getElem?_of_mapM_range hws).1 ?_
      split
      · rename_i hvec
        rw [hlen, if_pos hvec] at hws
        exact execAll_vload hdest hp hws
      · rename_i hword
        rw [hlen, if_neg hword] at hws
        exact execAll_load hdest hp hws
  | derefConstant intconst =>
      obtain ⟨⟨st₁, op⟩, hconst, hret⟩ := Option.bind_eq_some_iff.mp hlower
      obtain ⟨rfl, rfl⟩ := Prod.mk.inj (Option.some.inj hret)
      have hp : Reads ss slot m op [word intconst.toInt] :=
        h.reads_constant shaped hst hext hconst
      have hws : loadWords m.mem vm.length (word intconst.toInt) = some ws := by
        rw [h.mem]
        exact hws
      refine assigns (getElem?_of_mapM_range hws).1 ?_
      split
      · rename_i hvec
        rw [hlen, if_pos hvec] at hws
        exact execAll_vload hdest hp hws
      · rename_i hword
        rw [hlen, if_neg hword] at hws
        exact execAll_load hdest hp hws
  | binOp left op right =>
      obtain ⟨⟨st₁, r1⟩, h1, hlower⟩ := Option.bind_eq_some_iff.mp hlower
      obtain ⟨⟨st₂, r2⟩, h2, hret⟩ := Option.bind_eq_some_iff.mp hlower
      obtain ⟨rfl, rfl⟩ := Prod.mk.inj (Option.some.inj hret)
      obtain ⟨us, hus, hws⟩ := Option.bind_eq_some_iff.mp hws
      obtain ⟨vs, hvs, hws⟩ := Option.bind_eq_some_iff.mp hws
      obtain ⟨_, h2₁, -⟩ := accumulates_prepares.addrOf h2
      rw [hlen] at hus hvs
      obtain ⟨hu, hulen⟩ := h.reads_operand shaped (h2₁.trans hst) hext h1 hus
      obtain ⟨hv, hvlen⟩ := h.reads_operand shaped hst hext h2 hvs
      refine assigns (length_laneWords hws) ?_
      split
      · rename_i hvec
        rw [width, if_pos hvec] at hulen hvlen
        rw [hlen, if_pos hvec] at hws
        exact execAll_valu hdest hu hv hulen hvlen hws
      · rename_i hword
        rw [width, if_neg hword] at hulen hvlen
        rw [hlen, if_neg hword] at hws
        exact execAll_alu hdest hu hv hulen hvlen hws
  | multAdd factor1 factor2 add =>
      obtain ⟨_, hguard, hlower⟩ := Option.bind_eq_some_iff.mp hlower
      have hvec : vm.isVector = true := Lowered.of_guard hguard
      rw [hvec] at hdest
      rw [if_pos hvec] at hlen
      obtain ⟨r1, hread, hlower⟩ := Option.bind_eq_some_iff.mp hlower
      obtain ⟨⟨st₁, r2⟩, h2, hlower⟩ := Option.bind_eq_some_iff.mp hlower
      obtain ⟨⟨st₂, r3⟩, h3, hret⟩ := Option.bind_eq_some_iff.mp hlower
      obtain ⟨rfl, rfl⟩ := Prod.mk.inj (Option.some.inj hret)
      rw [hlen] at hws
      obtain ⟨us, hus, hws⟩ := Option.bind_eq_some_iff.mp hws
      obtain ⟨vs, hvs, hws⟩ := Option.bind_eq_some_iff.mp hws
      obtain ⟨ts, hts, hws⟩ := Option.bind_eq_some_iff.mp hws
      obtain ⟨_, h3₁, -⟩ := accumulates_prepares.addrOf h3
      obtain ⟨hu, hulen⟩ := h.reads_variable shaped hss hread hus
      obtain ⟨hv, hvlen⟩ := h.reads_operand shaped (h3₁.trans hst) hext h2 hvs
      obtain ⟨ht, htlen⟩ := h.reads_operand shaped hst hext h3 hts
      have hrun := execAll_multiplyAdd hdest hu hv ht hulen hvlen htlen hws
      refine assigns ((getElem?_of_mapM_range hws).1.trans hlen.symm) ?_
      rw [hvec]
      exact hrun
  | select cond ifTrue ifFalse =>
      obtain ⟨_, hguard, hlower⟩ := Option.bind_eq_some_iff.mp hlower
      rw [if_pos (Lowered.of_guard hguard)] at hlen
      rw [hlen] at hws
      obtain ⟨cs, hcs, hws⟩ := Option.bind_eq_some_iff.mp hws
      obtain ⟨as, has, hws⟩ := Option.bind_eq_some_iff.mp hws
      obtain ⟨bs, hbs, hws⟩ := Option.bind_eq_some_iff.mp hws
      exact h.assign_select shaped hst hext hlower hvm₀ haddr hlen hcs has hbs hws
  | intConstant intconst =>
      obtain rfl := Option.some.inj hws
      refine assigns List.length_replicate ?_
      dsimp only at hlower
      split at hlower
      · rename_i hvec
        obtain ⟨⟨st₁, src⟩, hconst, hret⟩ := Option.bind_eq_some_iff.mp hlower
        obtain ⟨rfl, rfl⟩ := Prod.mk.inj (Option.some.inj hret)
        rw [hlen, if_pos hvec]
        exact execAll_vbroadcast hdest (h.reads_constant shaped hst hext hconst)
      · rename_i hword
        obtain ⟨rfl, rfl⟩ := Prod.mk.inj (Option.some.inj hlower)
        rw [hlen, if_neg hword]
        exact execAll_const hdest
  | «variable» rname index =>
      obtain ⟨rhs, hrhs, hret⟩ := Option.bind_eq_some_iff.mp hlower
      obtain ⟨rfl, rfl⟩ := Prod.mk.inj (Option.some.inj hret)
      obtain ⟨ys, hstore, hws⟩ := Option.bind_eq_some_iff.mp hws
      obtain ⟨vmy, addry, hy, haddry, hylen, hywords⟩ :=
        exists_of_wordsOf h.length (h.vars _ _ hstore)
      obtain ⟨vmy', k, hy', hk, hklt, hop⟩ := addrOf_wordOf hshaped hrhs
      obtain rfl := Option.some.inj (hy.symm.trans (hss.varMeta _ _ hy'))
      obtain ⟨val, hval⟩ : ∃ val, ys[k]? = some val := ⟨_, List.getElem?_eq_getElem (hylen ▸ hklt)⟩
      have hsrc : rhs.addrOf ss slot = some (addry + k) := by
        rw [hop ss hy slot, haddry]
        rfl
      have hone : index.map IntConstantExpr.toInt = none → ys.length = vm.length →
          vm.length = 1 := by
        intro hnone hsame
        rw [Option.map_eq_none_iff] at hnone
        have hnot := hcopy rname vmy (by rw [hnone]) hy
        rw [hylen, isVector_iff shaped hy, hlen] at hsame
        cases hvec : vm.isVector with
        | false => rw [hlen, hvec]; rfl
        | true =>
            have hyword : vmy.isVector = false := by
              apply Bool.eq_false_iff.mpr
              exact fun hyvec => hnot ⟨hvec, hyvec⟩
            rw [hvec, hyword] at hsame
            exact absurd hsame (by decide)
      obtain rfl := eq_of_movedWords hws hk hval hone
      exact assigns List.length_replicate
        (execAll_move shaped hvm haddr hsrc ((hywords k hklt).trans hval))

end Assignments

/-- Execute an instruction of a thread in a slot. -/
def Machine.execIn (ss : ScratchSpace) (slot : ℤ) (m : Machine) (linst : LogicalInstruction) :
    Option Machine := (toSerialized ss slot linst).bind m.exec

theorem foldlM_execIn (ss : ScratchSpace) (slot : ℤ) (m : Machine)
    (instrs : List LogicalInstruction) :
    instrs.foldlM (Machine.execIn ss slot) m = m.execAll ss slot instrs := rfl

/-- The scratch space holds the variables of the program, as long as their types say. -/
structure Program.LaidOut (program : Program) (slots : ℕ) (ss : ScratchSpace) : Prop where
  shaped : ss.Shaped slots
  typed : TypedAs ss program.isRegisters
  lengths : ∀ name vm n, ss.varMetaOf (.var name) = some vm → program.lengthOf name = some n →
    n = vm.length

section Statements

variable {ss₀ ss₁ ss : ScratchSpace} {slot : ℤ} {slots n : ℕ} {s s' : State} {m m₀ : Machine}
  {st st' : Lowered} {x : String} {program : Program} {instrs : List LogicalInstruction}

/-- Storing to memory words that exist. -/
theorem put_mem {a : ℕ} {ws mem' : List Word} (h : storeWords m.mem a ws = some mem') :
    m.put (fun i => .mem (a + i)) ws = some { m with mem := mem' } := by
  induction ws using List.reverseRecOn generalizing mem' with
  | nil =>
      rw [storeWords, List.length_nil, Nat.add_zero, List.append_nil, List.take_append_drop] at h
      split at h
      · obtain rfl := Option.some.inj h
        rfl
      · cases h
  | append_singleton ws w ih =>
      rw [storeWords, List.length_append, List.length_singleton] at h
      split at h
      · rename_i hle
        obtain rfl := Option.some.inj h
        have hlt : a + ws.length < m.mem.length := by omega
        have hfirst := ih (if_pos (Nat.le_of_lt hlt))
        have hlength : (m.mem.take a ++ ws).length = a + ws.length := by
          rw [List.length_append, List.length_take, Nat.min_eq_left (by omega)]
        have hlast : a + ws.length <
            (m.mem.take a ++ ws ++ m.mem.drop (a + ws.length)).length := by
          rw [List.length_append, hlength, List.length_drop]
          omega
        rw [put_append, hfirst, Option.bind_some, Machine.write, if_pos hlast,
          List.set_append_right _ _ (Nat.le_of_eq hlength), hlength, Nat.sub_self,
          List.drop_eq_getElem_cons hlt, List.set_cons_zero]
        simp [Nat.add_assoc]
      · cases h

/-- A store does what it says, unless it is misread. -/
theorem Agrees.store (h : Agrees ss₀ ss slot s m) (laid : program.LaidOut slots ss)
    (hslot : 0 ≤ slot) (hlt : slot < slots) (hss : st.ss.Extends ss) {value : ValueExpr}
    (hlower : st.handleStoreMemory x value = some (st', instrs))
    (hs : s.storeMemory x value = some s')
    (hread : ¬ (PlainStmt.storeMemory x value).Misread program.isRegisters) :
    ∃ m', m.execAll ss slot instrs = some m' ∧ Agrees ss₀ ss slot s' m' ∧
      ChangesOnly (SlotWord ss₀ slot) m m' := by
  cases value with
  | «variable» rname index =>
      obtain ⟨ps, hps, hs⟩ := Option.bind_eq_some_iff.mp hs
      obtain ⟨base, hhead, hs⟩ := Option.bind_eq_some_iff.mp hs
      obtain ⟨vs, hvs, hs⟩ := Option.bind_eq_some_iff.mp hs
      obtain ⟨ws, hws, hs⟩ := Option.bind_eq_some_iff.mp hs
      obtain ⟨mem', hmem', hret⟩ := Option.bind_eq_some_iff.mp hs
      obtain rfl := Option.some.inj hret
      have means := (store_iff hss laid.shaped laid.typed hslot hlt hlower).mpr (by
        rintro k rfl hwrong
        exact hread hwrong)
      obtain ⟨rvm, -, hlower⟩ := Option.bind_eq_some_iff.mp hlower
      obtain ⟨op, hop, -⟩ := Option.bind_eq_some_iff.mp hlower
      obtain ⟨-, hplen⟩ := h.reads_variable laid.shaped hss hop hps
      obtain rfl := eq_singleton_of_head? hplen hhead
      have hrun := means m base vs h.length (h.vars _ _ hps) (h.vars _ _ hvs)
      rw [hws, Option.bind_eq_bind, Option.bind_some] at hrun
      rw [← h.mem] at hmem'
      exact ⟨_, hrun.trans (put_mem hmem'), ⟨h.length, rfl, h.vars, h.consts⟩, rfl, fun _ _ => rfl⟩
  | _ => cases hs

theorem misread_definition {isRegisters : String → Prop} {varType : VarType} {value : ValueExpr} :
    (PlainStmt.variableDefinition varType x value).Misread isRegisters ↔
      (PlainStmt.loadVariable x value).Misread isRegisters := by
  cases value with
  | «variable» y index => cases index <;> exact Iff.rfl
  | _ => exact Iff.rfl

/-- A plain statement is refined by the instructions that it is lowered to. -/
theorem refines_plain {stmt : PlainStmt} {lowered : Lowered} (laid : program.LaidOut slots ss)
    (hshaped : ss₁.Shaped slots) (hn : n = 1 ∨ n = slots)
    (hlower : lowerPlain ss₁ n stmt = some (lowered, instrs)) (hst : lowered.ss.Extends ss₀)
    (hext : ss₀.Extends ss) (hslot : 0 ≤ slot) (hlt : slot < slots)
    (hread : ¬ stmt.Misread program.isRegisters) (m₀ : Machine) :
    StraightLine.Refines (Machine.execIn ss slot)
      (fun s m => Agrees ss₀ ss slot s m ∧ ChangesOnly (SlotWord ss₀ slot) m₀ m)
      (fun s => PlainStmt.exec program.lengthOf s stmt) instrs
      (fun s m => Agrees ss₀ ss slot s m ∧ ChangesOnly (SlotWord ss₀ slot) m₀ m) := by
  rintro s s' m ⟨h, changes⟩ hs
  rw [foldlM_execIn]
  have hassign {st : Lowered} {x : String} {value : ValueExpr} (hshaped : st.ss.Shaped slots)
      (hlower : st.handleVariableAssignment x value = some (lowered, instrs))
      (hs : s.assign program.lengthOf x value = some s')
      (hread : ¬ (PlainStmt.loadVariable x value).Misread program.isRegisters) :
      ∃ m', m.execAll ss slot instrs = some m' ∧ Agrees ss₀ ss slot s' m' ∧
        ChangesOnly (SlotWord ss₀ slot) m m' := by
    obtain ⟨_, hgrows, -⟩ := accumulates_prepares.handleVariableAssignment hlower
    obtain ⟨vm, hvm, -⟩ := Option.bind_eq_some_iff.mp hlower
    have hvm₀ := (hgrows.trans hst).varMeta _ _ hvm
    have hvm := hext.varMeta _ _ hvm₀
    obtain ⟨addr, haddr⟩ := exists_addrOf laid.shaped hvm hslot hlt
    obtain ⟨len, hlen, hs⟩ := Option.bind_eq_some_iff.mp hs
    obtain ⟨ws, hws, hret⟩ := Option.bind_eq_some_iff.mp hs
    obtain rfl := Option.some.inj hret
    obtain rfl := laid.lengths _ _ _ hvm hlen
    apply h.assign laid.shaped hshaped hst hext hlower hvm₀ haddr hws
    rintro y vmy rfl hy ⟨hxvec, hyvec⟩
    exact hread ⟨(laid.typed _ _ hvm).mp hxvec, (laid.typed _ _ hy).mp hyvec⟩
  have hdone (h : ∃ m', m.execAll ss slot instrs = some m' ∧ Agrees ss₀ ss slot s' m' ∧
      ChangesOnly (SlotWord ss₀ slot) m m') :
      ∃ m', m.execAll ss slot instrs = some m' ∧ Agrees ss₀ ss slot s' m' ∧
        ChangesOnly (SlotWord ss₀ slot) m₀ m' := by
    obtain ⟨m', hrun, hagrees, hmore⟩ := h
    exact ⟨m', hrun, hagrees, changes.trans hmore⟩
  cases stmt with
  | variableDeclaration varType name otherNames =>
      obtain ⟨_, -, hret⟩ := Option.bind_eq_some_iff.mp hlower
      obtain ⟨-, rfl⟩ := Prod.mk.inj (Option.some.inj hret)
      obtain rfl := Option.some.inj hs
      exact ⟨m, rfl, h, changes⟩
  | variableDefinition varType name value =>
      obtain ⟨ss₂, hreg, hvalue⟩ := Option.bind_eq_some_iff.mp hlower
      obtain ⟨-, hshaped₂⟩ := registerVariable_spec hshaped hn hreg
      exact hdone (hassign hshaped₂ hvalue hs fun hmis => hread (misread_definition.mpr hmis))
  | loadVariable name value => exact hdone (hassign hshaped hlower hs hread)
  | storeMemory name value =>
      obtain ⟨_, hgrows, -⟩ := accumulates_prepares.handleStoreMemory hlower
      exact hdone (h.store laid hslot hlt (hgrows.trans (hst.trans hext)) hlower hs hread)
  | pause =>
      obtain ⟨-, rfl⟩ := Prod.mk.inj (Option.some.inj hlower)
      obtain rfl := Option.some.inj hs
      exact ⟨m, rfl, h, changes⟩

end Statements

end Explore.Takehome
