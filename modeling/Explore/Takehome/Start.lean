import Explore.Takehome.Assembly
import Explore.Takehome.Cycles
import Explore.Takehome.Tidxlen

/-!
# The start of the packer

The packer starts with the list of `get_work`, in which every operand is a variable in the
slot of its thread or a part of the block of `tidxlen`. Vectors of this kind are the same or
share no word, so every instruction can be split into lanes. The list is in an order that
respects all conflicts, and filling `free` and `frontier` sets up the invariant.
-/

namespace Explore.Takehome

open Pending GreedyWorkPacker

section Vectors

variable {ss : ScratchSpace} {slot : ℤ} {name name' : ScratchName} {vm vm' : VariableMeta} {a b : ℕ}

/-- A slot of a variable is inside its block. -/
theorem addrOf_mem_block (h : vm.addrOf slot = some a) :
    vm.addr ≤ a ∧ a + vm.length ≤ vm.addr + vm.size := by
  rw [VariableMeta.addrOf] at h
  rw [VariableMeta.size]
  split at h
  · rename_i hone
    obtain rfl := Option.some.inj h
    exact ⟨Nat.le_refl _, by rw [hone, Nat.one_mul]⟩
  · split at h
    · rename_i hslot
      obtain rfl := Option.some.inj h
      have hsucc : (slot.toNat + 1) * vm.length ≤ vm.slots * vm.length :=
        Nat.mul_le_mul_right _ (by omega)
      rw [Nat.add_mul, Nat.one_mul] at hsucc
      omega
    · cases h

theorem length_of_isVector {slots : ℕ} (shaped : vm.Shaped slots) (h : vm.isVector = true) :
    vm.length = VLEN := by
  rcases shaped.length with hone | hvlen
  · simp [VariableMeta.isVector, hone] at h
  · exact hvlen

/-- Two vector variables in a slot are the same or share no word. -/
theorem apart_of_varMetaOf {slots : ℕ} (shaped : ss.Shaped slots)
    (hvm : ss.varMetaOf name = some vm) (hvm' : ss.varMetaOf name' = some vm')
    (hvec : vm.isVector = true) (hvec' : vm'.isVector = true) (ha : vm.addrOf slot = some a)
    (hb : vm'.addrOf slot = some b) : Apart a b := by
  by_cases hname : name = name'
  · subst hname
    obtain rfl := Option.some.inj (hvm.symm.trans hvm')
    exact .inl (Option.some.inj (ha.symm.trans hb))
  · have hne : vm.name ≠ vm'.name := by
      rw [ScratchSpace.name_of_varMetaOf hvm, ScratchSpace.name_of_varMetaOf hvm']
      exact hname
    have hdisjoint := layout_disjoint ss.layout (List.mem_of_find?_eq_some hvm)
      (List.mem_of_find?_eq_some hvm') hne
    have hblock := addrOf_mem_block ha
    have hblock' := addrOf_mem_block hb
    rw [length_of_isVector (shaped.of_varMetaOf hvm) hvec] at hblock
    rw [length_of_isVector (shaped.of_varMetaOf hvm') hvec'] at hblock'
    refine .inr ?_
    omega

theorem addrOf_reg (hvm : ss.varMetaOf name = some vm) {isRead : Bool}
    (h : (LogicalOp.reg ⟨name, .vector, isRead⟩).addrOf ss slot = some a) :
    vm.addrOf slot = some a := by
  simpa [LogicalOp.addrOf, LogicalRegister.addrOf, LogicalRegister.offset, hvm] using h

theorem VectorOp.apart {slots : ℕ} (shaped : ss.Shaped slots) {isRead isRead' : Bool}
    {op op' : LogicalOp} (h : VectorOp ss isRead op) (h' : VectorOp ss isRead' op')
    (ha : op.addrOf ss slot = some a) (hb : op'.addrOf ss slot = some b) : Apart a b := by
  obtain ⟨name, vm, rfl, hvm, hvec⟩ := h
  obtain ⟨name', vm', rfl, hvm', hvec'⟩ := h'
  exact apart_of_varMetaOf shaped hvm hvm' hvec hvec' (addrOf_reg hvm ha) (addrOf_reg hvm' hb)

end Vectors

section Regular

/-- An instruction of a lowered program, or one that fills the block of `tidxlen`. -/
inductive Regular (ss : ScratchSpace) : LogicalInstruction → Prop
  | typed {linst : LogicalInstruction} : Typed ss linst → Regular ss linst
  | setSlot {i : ℕ} : Regular ss (setSlot i)
  | addSlots {start : ℕ} {tids two : VariableMeta} : ss.varMetaOf tidxlen = some tids →
      ss.varMetaOf (.const 2 true) = some two → two.isVector = true → VLEN ≤ start →
      start + VLEN ≤ tids.size → Regular ss (addSlots start)

variable {env : PackerEnv} {ss : ScratchSpace} {x : InstrMeta} {inst : SerializedInstruction}
  {slots : ℕ}

theorem addrOf_zero {vm : VariableMeta} {a : ℕ} (h : vm.addrOf 0 = some a) : a = vm.addr := by
  rw [VariableMeta.addrOf] at h
  split at h
  · exact (Option.some.inj h).symm
  · split at h
    · simpa using (Option.some.inj h).symm
    · cases h

theorem addrOf_array {vm : VariableMeta} {name : ScratchName} {slot : ℤ} {offset a : ℕ}
    {isVector isRead : Bool} (hvm : ss.varMetaOf name = some vm)
    (h : (LogicalOp.array ⟨name, offset, isVector, isRead⟩).addrOf ss slot = some a) :
    a = vm.addr + offset := by
  simp only [LogicalOp.addrOf, ArrayOp.addrOf, hvm, Option.bind_eq_bind, Option.bind_some,
    Option.bind_eq_some_iff, Option.pure_def, Option.some.injEq] at h
  obtain ⟨base, hbase, rfl⟩ := h
  rw [addrOf_zero hbase]

theorem lin_of_instOf_valu {op : AluOp} {d a b : ℕ} (h : instOf env x = some (.valu op d a b)) :
    ∃ dest a' b', x.lin = .valu op dest a' b' := by
  revert h
  rw [instOf]
  cases x.lin <;> simp +contextual [toSerialized, Inst.mapM, Option.bind_eq_some_iff]

theorem lin_of_instOf_multiplyAdd {d a b c : ℕ}
    (h : instOf env x = some (.multiplyAdd d a b c)) :
    ∃ dest a' b' c', x.lin = .multiplyAdd dest a' b' c' := by
  revert h
  rw [instOf]
  cases x.lin <;> simp +contextual [toSerialized, Inst.mapM, Option.bind_eq_some_iff]

/-- Every vector instruction meets its sources in whole vectors only. -/
theorem Regular.laneSafe (shaped : env.ss.Shaped slots) (h : Regular env.ss x.lin)
    (hinst : instOf env x = some inst) : LaneSafe inst := by
  cases inst with
  | valu op d a b =>
      obtain ⟨dest, a', b', hlin⟩ := lin_of_instOf_valu hinst
      rw [hlin] at h
      obtain ⟨_, _, _, heq, hd, ha, hb⟩ := instOf_valu hlin hinst
      obtain ⟨-, rfl, rfl, rfl⟩ := Inst.valu.inj heq
      cases h with
      | typed h =>
          cases h with
          | valu hdest hleft hright =>
              exact ⟨hdest.apart shaped hleft hd ha, hdest.apart shaped hright hd hb⟩
      | addSlots htids htwo hvec hstart hend =>
          obtain rfl := addrOf_array htids hd
          obtain rfl := addrOf_array htids ha
          have hb := addrOf_mem_block (addrOf_reg htwo hb)
          rw [length_of_isVector (shaped.of_varMetaOf htwo) hvec] at hb
          have hdisjoint := layout_disjoint env.ss.layout (List.mem_of_find?_eq_some htids)
            (List.mem_of_find?_eq_some htwo) (by
              rw [ScratchSpace.name_of_varMetaOf htids, ScratchSpace.name_of_varMetaOf htwo]
              exact nofun)
          refine ⟨.inr (.inr ?_), .inr ?_⟩
          · omega
          · omega
  | multiplyAdd d a b c =>
      obtain ⟨dest, a', b', c', hlin⟩ := lin_of_instOf_multiplyAdd hinst
      rw [hlin] at h
      obtain ⟨_, _, _, _, heq, hd, ha, hb, hc⟩ := instOf_multiplyAdd hlin hinst
      obtain ⟨rfl, rfl, rfl, rfl⟩ := Inst.multiplyAdd.inj heq
      cases h with
      | typed h =>
          cases h with
          | multiplyAdd hdest h1 h2 h3 =>
              exact ⟨hdest.apart shaped h1 hd ha, hdest.apart shaped h2 hd hb,
                hdest.apart shaped h3 hd hc⟩
  | _ => trivial

/-- Every vector instruction can be taken apart into lanes. -/
theorem Regular.laned {linst : LogicalInstruction} (h : Regular ss linst) : Laned linst := by
  have hzero {isRead : Bool} {op : LogicalOp} (h : VectorOp ss isRead op) :
      startsAtZero op = true := by
    obtain ⟨name, vm, rfl, -, -⟩ := h
    rfl
  cases h with
  | typed h =>
      cases h with
      | valu hdest ha hb => exact ⟨hzero hdest, hzero ha, hzero hb⟩
      | multiplyAdd hdest ha hb hc =>
          obtain ⟨_, _, rfl, -, -⟩ := hdest
          obtain ⟨_, _, rfl, -, -⟩ := ha
          obtain ⟨_, _, rfl, -, -⟩ := hb
          obtain ⟨_, _, rfl, -, -⟩ := hc
          exact ⟨_, _, _, _, rfl, rfl, rfl, rfl, rfl, rfl, rfl, rfl⟩
      | vbroadcast hdest hsrc =>
          obtain ⟨_, _, rfl, -, -⟩ := hdest
          obtain ⟨_, _, _, rfl, -, -⟩ := hsrc
          exact ⟨_, _, rfl, rfl, rfl, rfl⟩
      | _ => trivial
  | setSlot => trivial
  | addSlots => exact ⟨rfl, rfl, rfl⟩

end Regular

section GetTidmetas

variable {ss ss' : ScratchSpace} {numThreads concThreads slots : ℕ}
  {tidmetas : List (ℕ × LogicalInstruction)} {moreglobal : List LogicalInstruction}

theorem ArrayOp.bound_of {name : ScratchName} {offset : ℕ} {isVector isRead : Bool} {a : ArrayOp}
    (h : ArrayOp.of ss name offset isVector isRead = some a) :
    ∃ vm, ss.varMetaOf name = some vm ∧ (isVector = true → offset + VLEN ≤ vm.size) := by
  obtain ⟨vm, hvm, h⟩ := Option.bind_eq_some_iff.mp h
  split at h
  · rename_i hbound
    exact ⟨vm, hvm, hbound.2⟩
  · simp at h

theorem regular_tidMeta {tids : List ℕ} (hhas : ss.hasVariable tidxlen = true)
    (h : tids.mapM tidMeta = some tidmetas) : ∀ entry ∈ tidmetas, Regular ss entry.2 := by
  obtain ⟨vm, hvm⟩ := Option.isSome_iff_exists.mp hhas
  intro entry hentry
  obtain ⟨tid, -, htid⟩ := exists_of_mem_mapM h hentry
  unfold tidMeta at htid
  split at htid
  · obtain rfl := Option.some.inj htid
    exact .typed (.const ⟨_, 0, vm, rfl, hvm, fun h => absurd rfl h⟩)
  · simp at htid

theorem regular_setConstant (srcVal reqVal : ℤ) {vm : VariableMeta}
    (hvm : ss.varMetaOf (.const srcVal true) = some vm) (hvec : vm.isVector = true) :
    ∀ linst ∈ setConstant srcVal reqVal, Regular ss linst := by
  have hword (isRead : Bool) :
      WordOp ss isRead (scalarWithinVector (.const srcVal true) 0 isRead) :=
    ⟨_, 0, vm, rfl, hvm, fun _ => hvec⟩
  intro linst hlinst
  obtain rfl | hlinst := List.mem_cons.mp hlinst
  · exact .typed (.const (hword false))
  · obtain rfl := List.mem_singleton.mp hlinst
    exact .typed (.vbroadcast ⟨_, vm, rfl, hvm, hvec⟩ (hword true))

/-- What `get_tidmetas` adds. -/
theorem regular_getTidmetas (shaped : ss.Shaped slots)
    (h : getTidmetas ss numThreads concThreads = some (ss', tidmetas, moreglobal)) :
    ss.Extends ss' ∧ ss'.Shaped slots ∧ (∀ entry ∈ tidmetas, Regular ss' entry.2) ∧
      ∀ linst ∈ moreglobal, Regular ss' linst := by
  obtain ⟨_, -, h⟩ := Option.bind_eq_some_iff.mp h
  split at h
  · obtain ⟨rfl, rfl, rfl⟩ := by simpa using h
    exact ⟨.refl ss, shaped, List.forall_mem_nil _, List.forall_mem_nil _⟩
  rename_i hhas
  have hhas : ss.hasVariable tidxlen = true := not_not.mp hhas
  split at h
  · obtain ⟨tids, htids, hret⟩ := Option.bind_eq_some_iff.mp h
    obtain ⟨rfl, rfl, rfl⟩ := by simpa using hret
    exact ⟨.refl ss, shaped, regular_tidMeta hhas htids, List.forall_mem_nil _⟩
  · rename_i hconc
    obtain ⟨⟨ss₁, _⟩, halloc, h⟩ := Option.bind_eq_some_iff.mp h
    obtain ⟨firsts, hfirsts, h⟩ := Option.bind_eq_some_iff.mp h
    obtain ⟨adds, hadds, h⟩ := Option.bind_eq_some_iff.mp h
    obtain ⟨tids, htids, hret⟩ := Option.bind_eq_some_iff.mp h
    obtain ⟨rfl, rfl, rfl⟩ := by simpa using hret
    obtain ⟨hext, htwo⟩ := ScratchSpace.allocConst_spec halloc
    have hshaped := shaped.allocConst halloc
    obtain ⟨vm, hvm⟩ := Option.isSome_iff_exists.mp hhas
    obtain ⟨two, htwo⟩ := Option.isSome_iff_exists.mp htwo
    obtain ⟨-, hlength⟩ := (hshaped.of_varMetaOf htwo).const 2 true
      (ScratchSpace.name_of_varMetaOf htwo)
    have hvec : two.isVector = true := by
      rw [VariableMeta.isVector, hlength]
      rfl
    have hvm' := hext.varMeta _ _ hvm
    have hhas' : ss₁.hasVariable tidxlen = true := Option.isSome_iff_exists.mpr ⟨vm, hvm'⟩
    refine ⟨hext, hshaped, regular_tidMeta hhas' htids, ?_⟩
    simp only [List.forall_mem_append]
    refine ⟨regular_setConstant _ _ htwo hvec, ?_, ?_, regular_setConstant _ _ htwo hvec⟩
    · intro linst hlinst
      obtain ⟨i, -, hi⟩ := exists_of_mem_mapM hfirsts hlinst
      obtain ⟨a, ha, hret⟩ := Option.bind_eq_some_iff.mp hi
      obtain rfl := Option.some.inj hret
      obtain rfl := ArrayOp.of_eq_some ha
      exact .setSlot
    · intro linst hlinst
      obtain ⟨start, hstart, hadd⟩ := exists_of_mem_mapM hadds hlinst
      obtain ⟨a, ha, hadd⟩ := Option.bind_eq_some_iff.mp hadd
      obtain ⟨b, hb, hret⟩ := Option.bind_eq_some_iff.mp hadd
      obtain rfl := Option.some.inj hret
      obtain ⟨tids, htids, hbound⟩ := ArrayOp.bound_of ha
      obtain rfl := ArrayOp.of_eq_some ha
      obtain rfl := ArrayOp.of_eq_some hb
      obtain ⟨h8, -⟩ := tidStarts_bounds (not_le.mp hconc) (Nat.le_refl _) start hstart
      exact .addSlots htids htwo hvec h8 (hbound rfl)

end GetTidmetas

section GetWork

variable {ss ss' : ScratchSpace} {graph : InstrGraph} {numThreads concThreads slots : ℕ}
  {imetas : List InstrMeta}

/-- The instructions of all threads. -/
theorem regular_of_getWork (typed : WellTyped slots (ss, graph))
    (h : getWork ss graph numThreads concThreads = some (ss', imetas)) :
    ss'.Shaped slots ∧ ∀ x ∈ imetas, Regular ss' x.lin := by
  obtain ⟨tidmetas, moreglobal, accesses, htids, -, himetas⟩ := getWork_eq_some h
  obtain ⟨hext, hshaped, htidmetas, hmore⟩ := regular_getTidmetas typed.shaped htids
  have hentries : ∀ entry ∈ programOrder graph numThreads tidmetas moreglobal,
      Regular ss' entry.1 := by
    intro entry hentry
    obtain hentry | hentry := List.mem_append.mp hentry
    · obtain ⟨linst, hlinst, rfl⟩ := List.mem_map.mp hentry
      obtain hlinst | hlinst := List.mem_append.mp hlinst
      · exact hmore linst hlinst
      · exact .typed ((typed.globalimetas linst hlinst).mono hext)
    · obtain ⟨tid, -, hentry⟩ := List.mem_flatMap.mp hentry
      obtain ⟨numbered, hnumbered, rfl⟩ := List.mem_map.mp hentry
      obtain hlinst | hlinst := List.mem_append.mp (List.fst_mem_of_mem_zipIdx hnumbered)
      · obtain ⟨tidmeta, htidmeta, heq⟩ := List.mem_map.mp hlinst
        exact heq ▸ htidmetas tidmeta (List.mem_filter.mp htidmeta).1
      · obtain ⟨tagged, htagged, heq⟩ := List.mem_map.mp hlinst
        exact heq ▸ .typed ((typed.imetas tagged (List.mem_filter.mp htagged).1).mono hext)
  refine ⟨hshaped, fun x hx => ?_⟩
  rw [himetas] at hx
  obtain ⟨entry, hentry, rfl⟩ := List.mem_map.mp hx
  exact hentries entry.1 (List.fst_mem_of_mem_zipIdx hentry)

/-- The dependency passes look at the range of every operand. -/
theorem ranges_of_getWork (h : getWork ss graph numThreads concThreads = some (ss', imetas)) :
    ∀ x ∈ imetas, ∀ op ∈ x.lin.operands,
      ∃ range, op.range ss' (workSlotOf x.tid concThreads) = some range := by
  obtain ⟨tidmetas, moreglobal, accesses, -, haccesses, rfl⟩ := getWork_eq_some h
  intro x hx op hop
  obtain ⟨⟨entry, idx⟩, hentry, rfl⟩ := List.mem_map.mp hx
  obtain ⟨i, hi, heq⟩ := List.getElem_of_mem (List.fst_mem_of_mem_zipIdx hentry)
  obtain ⟨access, -, haccess⟩ := getElem?_of_mapM haccesses (List.getElem?_eq_getElem hi)
  rw [heq] at haccess
  obtain ⟨seen, hseen, -⟩ := Option.bind_eq_some_iff.mp haccess
  obtain ⟨j, hj, rfl⟩ := List.getElem_of_mem hop
  obtain ⟨y, -, hy⟩ := getElem?_of_mapM hseen (List.getElem?_eq_getElem hj)
  obtain ⟨range, hrange, -⟩ := Option.bind_eq_some_iff.mp hy
  exact ⟨range, hrange⟩

end GetWork

section Order

variable {env : PackerEnv} {ok : Prop} {extra : InstrMeta → InstrMeta → Prop}
  {graph : InstrGraph} {ss : ScratchSpace} {numThreads slots : ℕ} {imetas : List InstrMeta}

theorem good_of_getWork (typed : WellTyped slots (ss, graph))
    (h : getWork ss graph numThreads env.concThreads = some (env.ss, imetas))
    (short : ok → ∀ x ∈ imetas, Short x) (tid : ok → ∀ x ∈ imetas, INFINITE_SET x.tid = true) :
    ∀ x ∈ imetas, Good env ok x := by
  obtain ⟨hshaped, hregular⟩ := regular_of_getWork typed h
  intro x hx
  obtain ⟨inst, hinst⟩ := (assembled_of_getWork typed.fits h).inst x hx
  exact ⟨⟨inst, hinst, (hregular x hx).laneSafe hshaped hinst⟩, (hregular x hx).laned,
    fun _ r hr => ranges_of_getWork h x hx (.reg r) hr, fun hok => short hok x hx,
    fun hok => tid hok x hx⟩

/-- The list is in an order that respects all conflicts. -/
theorem Assembled.inOrder (assembled : Assembled env.ss env.concThreads imetas)
    (ordered : ∀ (i j : ℕ) (x y : InstrMeta), imetas[i]? = some x → imetas[j]? = some y → i < j →
      extra x y → Reaches imetas i j) : InOrder env extra imetas imetas where
  id_node := assembled.instid
  id_lt x hx := by
    obtain ⟨k, hk, rfl⟩ := List.getElem_of_mem hx
    rwa [assembled.instid k _ (List.getElem?_eq_getElem hk)]
  after_lt x hx k hk := (assembled.after_lt x hx k hk).2
  waiting k x hx _ := by
    have hids : ∀ (i : ℕ) (s : InstrMeta), imetas[i]? = some s → s.instid = 0 + i := fun i s hs =>
      (assembled.instid i s hs).trans (Nat.zero_add i).symm
    simpa using filter_id_eq hids hx
  ordered := by
    refine List.pairwise_iff_getElem.mpr fun i j hi hj hij hconf => ?_
    have hx := List.getElem?_eq_getElem hi
    have hy := List.getElem?_eq_getElem hj
    have hreach : Reaches imetas i j := by
      rcases hconf with ⟨a, b, ha, hb, hconf⟩ | hconf
      · exact assembled.reaches i j _ _ a b hx hy hij ha hb hconf
      · exact ordered i j _ _ hx hy hij hconf
    obtain ⟨k, ⟨x, hxi, hk⟩, path⟩ := Relation.TransGen.head'_iff.mp hreach
    obtain rfl := Option.some.inj (hx.symm.trans hxi)
    rw [assembled.instid j _ hy]
    exact ⟨k, hk, path⟩

end Order

section New

variable {env : PackerEnv} {ok : Prop} {extra : InstrMeta → InstrMeta → Prop}
  {imetas : List InstrMeta} {st : GreedyWorkPacker} {i : ℕ}

/-- The state of `__initialize` when it has come to instruction `i`. -/
structure Filled (imetas : List InstrMeta) (next : ℤ) (i : ℕ) (st : GreedyWorkPacker) :
    Prop where
  tracks : Tracks (imetas.flatMap InstrMeta.after) imetas (imetas.take i) st
  nextBatchTid : st.nextBatchTid = next
  free_lt : ∀ x ∈ st.free, x.tid < next
  frontier_ge : ∀ x ∈ st.frontier, next ≤ x.tid

/-- One round of the loop that fills `free` and `frontier`. -/
theorem Filled.step {next : ℤ} (assembled : Assembled env.ss env.concThreads imetas)
    (short : ok → ∀ x ∈ imetas, Short x) (h : Filled imetas next i st) (hi : i < imetas.length) :
    Meets ok (do
      let imeta ← st.imetas[i]?
      let count ← st.incount[i]?
      if count = 0 then st.makeReady env imeta else return st) (Filled imetas next (i + 1)) := by
  have hx := List.getElem?_eq_getElem hi
  have hid : imetas[i].instid = i := assembled.instid i _ hx
  have htake : imetas.take (i + 1) = imetas.take i ++ [imetas[i]] :=
    List.take_succ_eq_append_getElem hi
  rw [h.tracks.imetas, hx, h.tracks.incount i hi]
  simp only [Option.bind_eq_bind, Option.bind_some]
  by_cases hblocked : i ∈ imetas.flatMap InstrMeta.after
  · rw [if_neg (by exact_mod_cast (List.count_pos_iff.mpr hblocked).ne')]
    refine ⟨⟨h.tracks.imetas, h.tracks.length, h.tracks.incount, ?_, h.tracks.scheduled⟩,
      h.nextBatchTid, h.free_lt, h.frontier_ge⟩
    rw [htake, List.filter_append, List.filter_cons_of_neg (by simpa [hid] using hblocked),
      List.filter_nil, List.append_nil]
    exact h.tracks.ready
  · rw [if_pos (by exact_mod_cast List.count_eq_zero_of_not_mem hblocked)]
    have hnew : imetas[i] ∉ st.free := by
      intro hmem
      obtain ⟨hmem, -⟩ := List.mem_filter.mp (h.tracks.ready.mem_iff.mp
        (List.mem_append_left _ hmem))
      obtain ⟨j, hj, heq⟩ := List.mem_take_iff_getElem.mp hmem
      have hj' := assembled.instid j _ (List.getElem?_eq_getElem (by omega))
      rw [heq, hid] at hj'
      omega
    refine (makeReady_grows st hnew (fun hok => short hok _ (List.getElem_mem hi))
      h.tracks.scheduled).mono ?_
    rintro st' ⟨himetas, hincount, hperm, hsched, hgrows⟩
    refine ⟨⟨himetas.trans h.tracks.imetas, by rw [hincount, h.tracks.length],
      fun k hk => by rw [hincount, h.tracks.incount k hk], ?_, hsched⟩,
      hgrows.nextBatchTid.trans h.nextBatchTid, fun x hx => ?_, fun x hx => ?_⟩
    · rw [htake, List.filter_append, List.filter_cons_of_pos (by simpa [hid] using hblocked),
        List.filter_nil]
      exact hperm.trans ((h.tracks.ready.cons _).trans (List.perm_append_singleton _ _).symm)
    · rcases hgrows.free_lt x hx with hx | hx
      · exact h.free_lt x hx
      · rwa [h.nextBatchTid] at hx
    · rcases hgrows.frontier_ge x hx with hx | hx
      · exact h.frontier_ge x hx
      · rwa [h.nextBatchTid] at hx

/-- The packer starts with the invariant. -/
theorem new_meets (assembled : Assembled env.ss env.concThreads imetas)
    (good : ∀ x ∈ imetas, Good env ok x) (order : InOrder env extra imetas imetas) :
    Meets ok (GreedyWorkPacker.new env imetas) fun st =>
      Inv env ok extra imetas imetas st ∧ st.nextBatchTid = env.concThreads := by
  have hbound : ∀ idx ∈ imetas.flatMap InstrMeta.after, idx < imetas.length := by
    intro idx hidx
    obtain ⟨x, hx, hidx⟩ := List.mem_flatMap.mp hidx
    exact order.after_lt x hx idx hidx
  let st₀ : GreedyWorkPacker :=
    { imetas := imetas
      incount := List.replicate imetas.length 0
      frontier := []
      free := []
      nextBatchTid := env.concThreads
      schedulableCountByTid := fun _ => 0 }
  obtain ⟨incount, hadd, hlen, hget⟩ := foldlM_addIncount st₀ 1 (show ∀ idx ∈ imetas.flatMap
    InstrMeta.after, idx < st₀.incount.length by simpa [st₀] using hbound)
  have hlength : incount.length = imetas.length := by simpa [st₀] using hlen
  have hstart : Filled imetas env.concThreads 0 { st₀ with incount := incount } := by
    refine ⟨⟨rfl, hlength, fun k hk => ?_, .refl _, fun t => rfl⟩, rfl, List.forall_mem_nil _,
      List.forall_mem_nil _⟩
    change incount[k]? = _
    rw [hget k, List.getElem?_replicate_of_lt hk]
    simp
  rw [GreedyWorkPacker.new, initialize_]
  change Meets ok ((imetas.flatMap InstrMeta.after).foldlM (addIncount 1) st₀ >>= _) _
  rw [hadd, Option.bind_eq_bind, Option.bind_some]
  refine (Meets.foldlM (fun todo st => ∃ i ≤ imetas.length,
    todo = List.range' i (imetas.length - i) ∧ Filled imetas env.concThreads i st)
    (fun idx todo st => ?_) _ _ ⟨0, Nat.zero_le _, List.range_eq_range', hstart⟩).mono ?_
  · rintro ⟨i, hi, htodo, hfilled⟩
    obtain ⟨n, hn⟩ : ∃ n, imetas.length - i = n + 1 := by
      refine Nat.exists_eq_succ_of_ne_zero fun hzero => ?_
      rw [hzero] at htodo
      cases htodo
    rw [hn, List.range'_succ] at htodo
    obtain ⟨rfl, rfl⟩ := List.cons.inj htodo
    refine (hfilled.step assembled (fun hok x hx => (good x hx).short hok) (by omega)).mono
      fun st' h => ⟨idx + 1, by omega, ?_, h⟩
    congr 1
    omega
  · rintro st ⟨i, hi, htodo, hfilled⟩
    have hend : imetas.length - i = 0 := by
      have := congrArg List.length htodo
      simpa using this.symm
    obtain ⟨tracks, hnext, hfree, hfrontier⟩ := hfilled
    rw [List.take_of_length_le (by omega)] at tracks
    exact ⟨⟨order, good, tracks, fun x hx => hnext ▸ hfree x hx, fun x hx =>
      hnext ▸ hfrontier x hx⟩, hnext⟩

end New

end Explore.Takehome
