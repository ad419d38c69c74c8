import Explore.Takehome.KernelLanes

/-!
# The kernel computes the reference

The global statements of the text load the first nodes, and every thread does with the eight values
of its part of the batch what the reference does with them. So the text of the kernel, as a
program, changes the memory as the reference does.
-/

namespace Explore.Takehome

section Globals

variable {lengthOf : String → Option ℕ} {s : State} {ws : List Word}

/-- Broadcasts of words of `treevals` to other variables. -/
theorem exec_broadcasts {ks : List (String × Fin 10)} (htreevals : s.store "treevals" = some ws)
    (hindex : ∀ x ∈ ks, x.2.val < ws.length)
    (hks : ∀ x ∈ ks, lengthOf x.1 = some VLEN ∧ x.1 ≠ "treevals")
    (hnodup : (ks.map Prod.fst).Nodup) :
    ∃ s', (ks.map fun x => broadcastStmt x.1 x.2).foldlM (PlainStmt.exec lengthOf) s = some s' ∧
      s'.mem = s.mem ∧ (∀ x ∈ ks, s'.store x.1 = (ws[x.2.val]?).map (List.replicate VLEN)) ∧
      ∀ y ∉ ks.map Prod.fst, s'.store y = s.store y := by
  induction ks generalizing s with
  | nil => exact ⟨s, rfl, rfl, by simp, fun _ _ => rfl⟩
  | cons x ks ih =>
      obtain ⟨hx, hks⟩ := List.forall_mem_cons.mp hks
      obtain ⟨hlt, hindex⟩ := List.forall_mem_cons.mp hindex
      obtain ⟨hnot, hnodup⟩ := List.nodup_cons.mp hnodup
      have hget : ws[x.2.val]? = some ws[x.2.val] := List.getElem?_eq_getElem hlt
      obtain ⟨s', hrun, hmem, hset, hothers⟩ := @ih (s.set x.1 (List.replicate VLEN ws[x.2.val]))
        ((State.store_set ..).trans ((if_neg hx.2.symm).trans htreevals)) hindex hks hnodup
      refine ⟨s', ?_, hmem, ?_, fun y hy => ?_⟩
      · rw [List.map_cons, List.foldlM_cons]
        have hfirst : (broadcastStmt x.1 x.2).exec lengthOf s =
            some (s.set x.1 (List.replicate VLEN ws[x.2.val])) := by
          have hvalue : (ValueExpr.variable "treevals" (some (.numberString false [x.2]))).eval s
              VLEN = some (List.replicate VLEN ws[x.2.val]) := by
            simp [ValueExpr.eval, htreevals, movedWords, wordAt, IntConstantExpr.toInt, ofDigits,
              hget]
          rw [broadcastStmt, PlainStmt.exec, State.assign, hx.1]
          simp [hvalue]
        rw [hfirst]
        exact hrun
      · refine List.forall_mem_cons.mpr ⟨?_, hset⟩
        rw [hothers _ hnot, State.store_set, if_pos rfl, hget]
        rfl
      · rw [List.map_cons, List.mem_cons, not_or] at hy
        rw [hothers y hy.2, State.store_set, if_neg hy.1]

theorem loadWords_eq {mem : List Word} {length : ℕ} {addr : Word}
    (h : addr.toNat + length ≤ mem.length) :
    loadWords mem length addr = some ((mem.drop addr.toNat).take length) := by
  have hlength : ((mem.drop addr.toNat).take length).length = length := by
    rw [List.length_take, List.length_drop]
    omega
  have hall := @mapM_range_eq _ (fun i => mem[addr.toNat + i]?) ((mem.drop addr.toNat).take length)
    fun i hi => by
      rw [hlength] at hi
      rw [List.getElem?_take_of_lt hi, List.getElem?_drop]
  rw [hlength] at hall
  exact hall

/-- A vector of memory in `treevals`, and broadcasts of its words. -/
theorem exec_loadNodes {intconst : IntConstantExpr} {addr : ℕ} {ks : List (String × Fin 10)}
    (htreevals : lengthOf "treevals" = some VLEN) (haddr : (word intconst.toInt).toNat = addr)
    (hlength : addr + VLEN ≤ s.mem.length) (hindex : ∀ x ∈ ks, x.2.val < VLEN)
    (hks : ∀ x ∈ ks, lengthOf x.1 = some VLEN ∧ x.1 ≠ "treevals")
    (hnodup : (ks.map Prod.fst).Nodup) :
    ∃ s', (.loadVariable "treevals" (.derefConstant intconst) ::
        ks.map fun x => broadcastStmt x.1 x.2).foldlM (PlainStmt.exec lengthOf) s = some s' ∧
      s'.mem = s.mem ∧
      (∀ x ∈ ks, s'.store x.1 = (s.mem[addr + x.2.val]?).map (List.replicate VLEN)) ∧
      s'.store "treevals" = some ((s.mem.drop addr).take VLEN) ∧
      ∀ y ∉ ks.map Prod.fst, y ≠ "treevals" → s'.store y = s.store y := by
  have hwords : ((s.mem.drop addr).take VLEN).length = VLEN := by
    rw [List.length_take, List.length_drop]
    omega
  have hload : (ValueExpr.derefConstant intconst).eval s VLEN =
      some ((s.mem.drop addr).take VLEN) := by
    refine (loadWords_eq (by omega)).trans ?_
    rw [haddr]
  obtain ⟨s', hrun, hmem, hset, hothers⟩ := @exec_broadcasts lengthOf
    (s.set "treevals" ((s.mem.drop addr).take VLEN)) ((s.mem.drop addr).take VLEN) ks
    ((State.store_set ..).trans (if_pos rfl)) (by rw [hwords]; exact hindex) hks hnodup
  have hfresh : "treevals" ∉ ks.map Prod.fst := by
    intro hmem
    obtain ⟨x, hx, heq⟩ := List.mem_map.mp hmem
    exact (hks x hx).2 heq
  refine ⟨s', ?_, hmem, fun x hx => ?_, ?_, fun y hy hne => ?_⟩
  · rw [List.foldlM_cons, PlainStmt.exec, State.assign, htreevals]
    simp only [Option.bind_eq_bind, Option.bind_some, hload]
    exact hrun
  · rw [hset x hx, List.getElem?_take_of_lt (hindex x hx), List.getElem?_drop]
  · rw [hothers _ hfresh, State.store_set, if_pos rfl]
  · rw [hothers y hy, State.store_set, if_neg hne]

/-- The variables that the kernel loads from address 14, and their places there. -/
def lowerVars : List (String × Fin 10) :=
  [("b0", 0), ("b1", 1), ("b2", 2), ("b3", 3), ("b4", 4), ("b5", 5), ("b6", 6), ("b7", 7)]

/-- The same for address 7; the word between is left in `treevals`. -/
def upperVars : List (String × Fin 10) :=
  [("t0", 0), ("t1", 1), ("t2", 2), ("t4", 4), ("t5", 5), ("t6", 6)]

/-- The types that the kernel needs. -/
structure KernelTypes (lengthOf : String → Option ℕ) : Prop where
  lower : ∀ x ∈ lowerVars, lengthOf x.1 = some VLEN
  upper : ∀ x ∈ upperVars, lengthOf x.1 = some VLEN
  treevals : lengthOf "treevals" = some VLEN
  pointer : lengthOf "inp_values_ptr" = some 1
  address : lengthOf "tidxlen" = some 1
  lanes : ∀ x ∈ laneVars, lengthOf x = some VLEN

/-- The last node of `treevals` stays there, and the address of the values is loaded. -/
theorem exec_lastGlobals (types : KernelTypes lengthOf) {last pointer : Word}
    (htreevals : s.store "treevals" = some ws) (hlast : ws[3]? = some last)
    (hpointer : s.mem[6]? = some pointer) :
    [PlainStmt.loadVariable "treevals" (.variable "treevals" (some (.numberString false [3]))),
      .variableDefinition .register "inp_values_ptr"
        (.derefConstant (.numberString false [6]))].foldlM (PlainStmt.exec lengthOf) s =
      some ((s.set "treevals" (List.replicate VLEN last)).set "inp_values_ptr" [pointer]) := by
  have hvalue : (ValueExpr.variable "treevals" (some (.numberString false [3]))).eval s VLEN =
      some (List.replicate VLEN last) := by
    simp [ValueExpr.eval, htreevals, movedWords, wordAt, IntConstantExpr.toInt, ofDigits, hlast]
  have haddress : (ValueExpr.derefConstant (.numberString false [6])).eval
      (s.set "treevals" (List.replicate VLEN last)) 1 = some [pointer] := by
    simp [ValueExpr.eval, loadWords, IntConstantExpr.toInt, ofDigits, word, hpointer]
  simp [PlainStmt.exec, State.assign, types.treevals, types.pointer, hvalue, haddress]

/-- The global statements leave the first nodes in their variables. -/
theorem exec_globalStmts {mem : List Word} (types : KernelTypes lengthOf)
    (hlength : 22 ≤ mem.length) :
    ∃ s, globalStmts.foldlM (PlainStmt.exec lengthOf) ⟨fun _ => none, mem⟩ = some s ∧ s.mem = mem ∧
      (∀ k name, nodeVars[k]? = some name →
        s.store name = (mem[7 + k]?).map (List.replicate VLEN)) ∧
      s.store "inp_values_ptr" = (mem[6]?).map fun w => [w] := by
  have hsplit : globalStmts =
      [.variableDeclaration .registers "temp1" ["temp2", "temp3", "temp4"],
        .variableDeclaration .registers "treevals" []] ++
      ((.loadVariable "treevals" (.derefConstant (.numberString false [1, 4])) ::
        lowerVars.map fun x => broadcastStmt x.1 x.2) ++
      ((.loadVariable "treevals" (.derefConstant (.numberString false [7])) ::
        upperVars.map fun x => broadcastStmt x.1 x.2) ++
      [.loadVariable "treevals" (.variable "treevals" (some (.numberString false [3]))),
        .variableDefinition .register "inp_values_ptr"
          (.derefConstant (.numberString false [6]))])) := rfl
  have hlt : 14 + VLEN ≤ mem.length := hlength
  obtain ⟨s₁, hrun₁, hmem₁, hset₁, -, -⟩ := @exec_loadNodes lengthOf ⟨fun _ => none, mem⟩
    (.numberString false [1, 4]) 14 lowerVars types.treevals (by decide) hlt (by decide)
    (fun x hx => ⟨types.lower x hx, by revert x; decide⟩) (by decide)
  have hlt₁ : 7 + VLEN ≤ s₁.mem.length := by
    rw [hmem₁]
    exact (Nat.add_le_add_right (by decide) VLEN).trans hlt
  obtain ⟨s₂, hrun₂, hmem₂, hset₂, htreevals₂, hothers₂⟩ := @exec_loadNodes lengthOf s₁
    (.numberString false [7]) 7 upperVars types.treevals (by decide) hlt₁ (by decide)
    (fun x hx => ⟨types.upper x hx, by revert x; decide⟩) (by decide)
  have hmem₂ : s₂.mem = mem := hmem₂.trans hmem₁
  rw [hmem₁] at htreevals₂ hset₂
  have hlast : mem[10]? = some mem[10] := List.getElem?_eq_getElem (by omega)
  have hpointer : mem[6]? = some mem[6] := List.getElem?_eq_getElem (by omega)
  have hrun₃ := @exec_lastGlobals lengthOf s₂ _ types mem[10] mem[6] htreevals₂ (by
    rw [List.getElem?_take_of_lt (by decide), List.getElem?_drop]
    exact hlast) (by rw [hmem₂, hpointer])
  let s₃ := (s₂.set "treevals" (List.replicate VLEN mem[10])).set "inp_values_ptr" [mem[6]]
  have hupper : ∀ x ∈ upperVars, s₃.store x.1 = (mem[7 + x.2.val]?).map (List.replicate VLEN) := by
    intro x hx
    have hnames : ∀ x ∈ upperVars, x.1 ≠ "inp_values_ptr" ∧ x.1 ≠ "treevals" := by decide
    obtain ⟨hne, hne'⟩ := hnames x hx
    rw [State.store_set, if_neg hne, State.store_set, if_neg hne', hset₂ x hx]
  have hlower : ∀ x ∈ lowerVars, s₃.store x.1 = (mem[14 + x.2.val]?).map (List.replicate VLEN) := by
    intro x hx
    have hnames : ∀ x ∈ lowerVars, x.1 ≠ "inp_values_ptr" ∧ x.1 ≠ "treevals" ∧
        x.1 ∉ upperVars.map Prod.fst := by decide
    obtain ⟨hne, hne', hnot⟩ := hnames x hx
    rw [State.store_set, if_neg hne, State.store_set, if_neg hne', hothers₂ _ hnot hne', hset₁ x hx]
  refine ⟨s₃, ?_, hmem₂, fun k name hname => ?_, ?_⟩
  · have hdeclarations : [PlainStmt.variableDeclaration .registers "temp1" ["temp2", "temp3",
        "temp4"], .variableDeclaration .registers "treevals" []].foldlM (PlainStmt.exec lengthOf)
        ⟨fun _ => none, mem⟩ = some ⟨fun _ => none, mem⟩ := rfl
    rw [hsplit]
    simp only [List.foldlM_append, hdeclarations, hrun₁, hrun₂, hrun₃, Option.bind_eq_bind,
      Option.bind_some, s₃]
  · obtain ⟨hk, -⟩ := List.getElem?_eq_some_iff.mp hname
    have hk : k < 15 := hk
    interval_cases k <;> obtain rfl := Option.some.inj hname
    exacts [hupper ("t0", 0) (by decide), hupper ("t1", 1) (by decide),
      hupper ("t2", 2) (by decide), by simp [s₃, State.store_set, hlast],
      hupper ("t4", 4) (by decide), hupper ("t5", 5) (by decide), hupper ("t6", 6) (by decide),
      hlower ("b0", 0) (by decide), hlower ("b1", 1) (by decide), hlower ("b2", 2) (by decide),
      hlower ("b3", 3) (by decide), hlower ("b4", 4) (by decide), hlower ("b5", 5) (by decide),
      hlower ("b6", 6) (by decide), hlower ("b7", 7) (by decide)]
  · rw [State.store_set, if_pos rfl, hpointer]
    rfl

end Globals

section Threads

variable {t : Tree} {lengthOf : String → Option ℕ} {height rounds n tid : ℕ} {s : State}
  {ptr : Word} {v : Fin VLEN → ℕ}

theorem lane_of_store_eq {s' : State} {x : String} (h : s'.store x = s.store x) (i : Fin VLEN) :
    s'.lane i x = s.lane i x := by
  rw [State.lane, State.lane, h]

/-- The first words of a thread are its items. -/
theorem exec_threadPreamble {base : Word} (types : KernelTypes lengthOf)
    (htid : s.store "tidxlen" = some [base]) (hptr : s.store "inp_values_ptr" = some [ptr])
    (hload : ∀ i : Fin VLEN, s.mem[(base + ptr).toNat + i.val]? = some (BitVec.ofNat 32 (v i))) :
    threadPreambleStmts.foldlM (PlainStmt.exec lengthOf) s =
      some ((s.set "tidxlen" [base + ptr]).set "v" (List.ofFn fun i => BitVec.ofNat 32 (v i))) := by
  have hsum : (ValueExpr.binOp (.var "tidxlen") .add (.var "inp_values_ptr")).eval s 1 =
      some [base + ptr] := by
    simp [ValueExpr.eval, VarOrConstant.words, htid, hptr, laneWords, AluOp.eval]
  have hitems : (ValueExpr.derefVariable "tidxlen").eval (s.set "tidxlen" [base + ptr]) VLEN =
      some (List.ofFn fun i => BitVec.ofNat 32 (v i)) := by
    rw [ValueExpr.eval, State.store_set, if_pos rfl]
    exact @mapM_lanes (fun i => s.mem[(base + ptr).toNat + i]?) _ hload
  have hv : lengthOf "v" = some VLEN := types.lanes "v" (by decide)
  simp [threadPreambleStmts, binStmt, PlainStmt.exec, State.assign, types.address, hv, hsum, hitems]

/-- The last statement of a thread stores the vector. -/
theorem exec_footer {addr : Word} {ws : List Word} (haddr : s.store "tidxlen" = some [addr])
    (hv : s.store "v" = some ws) (hin : addr.toNat + ws.length ≤ s.mem.length) :
    footerStmts.foldlM (PlainStmt.exec lengthOf) s = some { s with
      mem := s.mem.take addr.toNat ++ ws ++ s.mem.drop (addr.toNat + ws.length) } := by
  simp [footerStmts, PlainStmt.exec, State.storeMemory, haddr, hv, storedWords, storeWords, hin]

/-- A thread leaves its items after all visits. -/
theorem exec_thread (types : KernelTypes lengthOf)
    (hperfect : t.values.length = 2 ^ (height + 1) - 1)
    (hmem : ∀ k < t.values.length, s.mem[7 + k]? = some (nodeWord t k))
    (hfits : 7 + t.values.length ≤ 2 ^ 32) (hnodes : ∀ i, HoldsNodes t (s.lane i))
    (htid : s.store "tidxlen" = some [word (VLEN * tid : ℕ)])
    (hptr : s.store "inp_values_ptr" = some [ptr]) {a : ℕ}
    (haddr : (word (VLEN * tid : ℕ) + ptr).toNat = a) (hin : a + VLEN ≤ s.mem.length)
    (hload : ∀ i : Fin VLEN, s.mem[a + i.val]? = some (BitVec.ofNat 32 (v i))) :
    ∃ s', (kernelStmts height n rounds tid).foldlM (PlainStmt.exec lengthOf) s = some s' ∧
      s'.mem = s.mem.take a ++
        List.ofFn (fun i => BitVec.ofNat 32 ((descend t)^[rounds] (0, v i)).2) ++
          s.mem.drop (a + VLEN) ∧
      (∀ i, HoldsNodes t (s'.lane i)) ∧ s'.store "inp_values_ptr" = some [ptr] := by
  subst haddr
  let s₁ := (s.set "tidxlen" [word (VLEN * tid : ℕ) + ptr]).set "v"
    (List.ofFn fun i => BitVec.ofNat 32 (v i))
  have hpreamble : threadPreambleStmts.foldlM (PlainStmt.exec lengthOf) s = some s₁ :=
    exec_threadPreamble types htid hptr hload
  have hstart (i : Fin VLEN) : AtRound t height rounds 0 (0, v i) (s₁.lane i) := by
    refine ⟨fun k hk name hname => ?_, ?_, fun _ => ?_⟩
    · have hne : ∀ name ∈ nodeVars, name ≠ "v" ∧ name ≠ "tidxlen" := by decide
      obtain ⟨hv, htidxlen⟩ := hne name (List.mem_of_getElem? hname)
      rw [← hnodes i k hk name hname]
      refine lane_of_store_eq ?_ i
      rw [State.store_set, if_neg hv, State.store_set, if_neg htidxlen]
    · rw [lane_set, Function.update_self]
    · rw [Nat.zero_mod]
      exact ⟨show OnLevel 0 0 from ⟨by decide, by decide⟩, trivial⟩
  choose e hrun hat using fun i => @lane_rounds t s.mem (s₁.lane i) (0, v i) height rounds n tid
    hperfect hmem hfits (hstart i) rounds (le_refl rounds)
  obtain ⟨s₂, hrun₂, hmem₂, hlanes₂, hothers₂⟩ := @exec_of_lanes lengthOf
    ((List.range rounds).flatMap (roundStmts height n rounds · tid)) s₁ e
    (fun stmt hstmt x hx => by
      obtain ⟨r, -, hr⟩ := List.mem_flatMap.mp hstmt
      obtain ⟨y, hy, htarget⟩ := target_round stmt hr
      obtain rfl := Option.some.inj (htarget.symm.trans hx)
      exact types.lanes y hy) hrun
  have hv₂ : s₂.store "v" =
      some (List.ofFn fun i => BitVec.ofNat 32 ((descend t)^[rounds] (0, v i)).2) :=
    store_of_lane fun i => by
      rw [hlanes₂]
      exact (hat i).value
  have haddr₂ : s₂.store "tidxlen" = some [word (VLEN * tid : ℕ) + ptr] := by
    rw [hothers₂ _ (by rw [types.address]; decide), State.store_set, if_neg (by decide),
      State.store_set, if_pos rfl]
  have hmem₂ : s₂.mem = s.mem := hmem₂
  have hfooter := @exec_footer lengthOf s₂ _ _ haddr₂ hv₂ (by
    rw [List.length_ofFn, hmem₂]
    exact hin)
  rw [List.length_ofFn, hmem₂] at hfooter
  refine ⟨_, (?_ : _ = some ({ s₂ with mem := _ } : State)), rfl, fun i => ?_, ?_⟩
  · rw [kernelStmts, List.foldlM_append, List.foldlM_append, hpreamble]
    simp only [Option.bind_eq_bind, Option.bind_some, hrun₂]
    exact hfooter
  · exact fun k hk name hname => (congrFun (hlanes₂ i) name).trans ((hat i).nodes k hk name hname)
  · exact (hothers₂ _ (by rw [types.pointer]; decide)).trans
      ((State.store_set ..).trans ((if_neg (by decide)).trans
        ((State.store_set ..).trans ((if_neg (by decide)).trans hptr))))

end Threads

section Memory

variable {after before : ℕ → Word} {k w : ℕ} {xs : List ℕ} {base : List Word}

/-- The words of a batch of which the first `k` items are done. -/
def mixed (after before : ℕ → Word) (k : ℕ) (xs : List ℕ) : List Word :=
  (xs.take k).map after ++ (xs.drop k).map before

theorem length_mixed (after before : ℕ → Word) (k : ℕ) (xs : List ℕ) :
    (mixed after before k xs).length = xs.length := by
  rw [mixed, ← List.length_map before, List.length_append, List.length_map, List.length_map,
    ← List.length_append, List.take_append_drop, List.length_map]

theorem getElem?_mixed (hk : k ≤ xs.length) (i : ℕ) :
    (mixed after before k xs)[k + i]? = (xs[k + i]?).map before := by
  have hlength : ((xs.take k).map after).length = k := by
    rw [List.length_map, List.length_take, Nat.min_eq_left hk]
  rw [mixed, List.getElem?_append_right (by omega), hlength, Nat.add_sub_cancel_left,
    List.getElem?_map, List.getElem?_drop]

theorem mixed_take (hk : k ≤ xs.length) :
    (mixed after before k xs).take k = (xs.take k).map after :=
  List.take_left' (by rw [List.length_map, List.length_take, Nat.min_eq_left hk])

theorem mixed_drop (hk : k ≤ xs.length) (w : ℕ) :
    (mixed after before k xs).drop (k + w) = (xs.drop (k + w)).map before := by
  rw [← List.drop_drop, mixed, List.drop_left' (by rw [List.length_map, List.length_take,
    Nat.min_eq_left hk]), ← List.map_drop, List.drop_drop]

/-- The next items are stored. -/
theorem mixed_store (h : k + w ≤ xs.length) {v : Fin w → ℕ}
    (hv : ∀ i : Fin w, xs[k + i.val]? = some (v i)) :
    (base ++ mixed after before k xs).take (base.length + k) ++ List.ofFn (fun i => after (v i)) ++
        (base ++ mixed after before k xs).drop (base.length + k + w) =
      base ++ mixed after before (k + w) xs := by
  have hk : k ≤ xs.length := by omega
  have hitems : List.ofFn (fun i => after (v i)) = ((xs.drop k).take w).map after := by
    have hofFn : List.ofFn v = (xs.drop k).take w := by
      refine List.ext_getElem? fun i => ?_
      rw [List.getElem?_ofFn]
      split
      · rename_i hi
        rw [List.getElem?_take_of_lt hi, List.getElem?_drop, hv ⟨i, hi⟩]
      · rw [List.getElem?_eq_none]
        rw [List.length_take]
        omega
    rw [← hofFn, List.map_ofFn]
    rfl
  rw [Nat.add_assoc, List.take_length_add_append, List.drop_length_add_append, mixed_take hk,
    mixed_drop hk, hitems, mixed, List.take_add, List.map_append]
  simp only [List.append_assoc]

end Memory

section Program

variable {program : Program} {s : State} {t : Tree}

theorem IsKernel.types {height n rounds : ℕ} (h : IsKernel height n rounds program) :
    KernelTypes program.lengthOf := by
  have hlength (name : String) : program.lengthOf name =
      (kernelVars.find? fun d => d.2 = name).map (·.1.length) := by
    rw [Program.lengthOf, h.declared]
  refine ⟨fun x hx => ?_, fun x hx => ?_, ?_, ?_, ?_, fun x hx => ?_⟩
  all_goals rw [hlength]
  · revert x
    decide
  · revert x
    decide
  · decide
  · decide
  · decide
  · revert x
    decide

/-- A thread starts with the nodes and its place in the batch. -/
theorem enterThread_kernel {height n rounds : ℕ} (hkernel : IsKernel height n rounds program)
    (tid : ℕ) :
    (program.enterThread s tid).mem = s.mem ∧
      (program.enterThread s tid).store "tidxlen" = some [word (VLEN * tid : ℕ)] ∧
      (program.enterThread s tid).store "inp_values_ptr" = s.store "inp_values_ptr" ∧
      ∀ name ∈ nodeVars, (program.enterThread s tid).store name = s.store name := by
  have htidxlen : program.declared.any (·.2 = "tidxlen") = true := by
    rw [hkernel.declared]
    decide
  have hglobal (name : String)
      (h : (globalStmts.flatMap PlainStmt.declared).any (·.2 = name) = true)
      (hne : name ≠ "tidxlen") : (program.enterThread s tid).store name = s.store name := by
    have hin : program.isGlobal name = true := by rw [Program.isGlobal, hkernel.globals, h]
    rw [Program.enterThread, if_pos htidxlen, State.store_set, if_neg hne, Program.globalsOf]
    simp only [hin, if_true]
  refine ⟨?_, ?_, hglobal _ (by decide) (by decide), fun name hname => ?_⟩
  · rw [Program.enterThread, if_pos htidxlen]
    rfl
  · rw [Program.enterThread, if_pos htidxlen, State.store_set, if_pos rfl]
  · have hnames : ∀ name ∈ nodeVars,
        (globalStmts.flatMap PlainStmt.declared).any (·.2 = name) = true ∧ name ≠ "tidxlen" := by
      decide
    exact hglobal name (hnames name hname).1 (hnames name hname).2

end Program

section Kernel

variable {program : Program} {t : Tree} {height rounds n : ℕ} {base : List Word} {xs : List ℕ}

/-- The value of an item that starts at the root, after all rounds. -/
def visited (t : Tree) (rounds v : ℕ) : ℕ := ((descend t)^[rounds] (0, v)).2

/-- The memory and the variables after `k` threads. -/
structure AfterThreads (t : Tree) (rounds : ℕ) (base : List Word) (xs : List ℕ) (k : ℕ)
    (s : State) : Prop where
  mem : s.mem = base ++ mixed (fun v => BitVec.ofNat 32 (visited t rounds v)) (BitVec.ofNat 32)
    (VLEN * k) xs
  nodes : ∀ i, HoldsNodes t (s.lane i)
  pointer : s.store "inp_values_ptr" = some [BitVec.ofNat 32 base.length]

theorem runThread_kernel (hkernel : IsKernel height n rounds program)
    (hperfect : t.values.length = 2 ^ (height + 1) - 1)
    (hnodes : ∀ k < t.values.length, base[7 + k]? = some (nodeWord t k))
    (hbase : 7 + t.values.length ≤ base.length) (hxs : xs.length = VLEN * n)
    (hfits : base.length + xs.length ≤ 2 ^ 32) {k : ℕ} (hk : k < n) {s : State}
    (h : AfterThreads t rounds base xs k s) :
    ∃ s', program.runThread s k = some s' ∧ AfterThreads t rounds base xs (k + 1) s' := by
  obtain ⟨hmem, htid, hptr, hvars⟩ := enterThread_kernel (s := s) hkernel k
  have hin : VLEN * k + VLEN ≤ xs.length := by
    rw [hxs, ← Nat.mul_succ]
    exact Nat.mul_le_mul_left _ hk
  have hpos : 0 < VLEN := by decide
  have haddr : (word (VLEN * k : ℕ) + BitVec.ofNat 32 base.length).toNat =
      base.length + VLEN * k := by
    rw [word, BitVec.ofInt_natCast, ← BitVec.ofNat_add, BitVec.toNat_ofNat,
      Nat.mod_eq_of_lt (by omega), Nat.add_comm]
  have hload (i : Fin VLEN) : (program.enterThread s k).mem[base.length + VLEN * k + i.val]? =
      some (BitVec.ofNat 32 (xs.getD (VLEN * k + i.val) 0)) := by
    have hi : VLEN * k + i.val < xs.length := by omega
    rw [hmem, h.mem, Nat.add_assoc, List.getElem?_append_right (Nat.le_add_right ..),
      Nat.add_sub_cancel_left, getElem?_mixed (by omega), List.getElem?_eq_getElem hi,
      List.getD_eq_getElem?_getD, List.getElem?_eq_getElem hi]
    rfl
  obtain ⟨s', hrun, hmem', hnodes', hptr'⟩ := @exec_thread t program.lengthOf height rounds n k
    (program.enterThread s k) (BitVec.ofNat 32 base.length)
    (fun i => xs.getD (VLEN * k + i.val) 0) hkernel.types hperfect
    (fun j hj => by
      rw [hmem, h.mem, List.getElem?_append_left (by omega)]
      exact hnodes j hj)
    (by omega)
    (fun i j hj name hname => (lane_of_store_eq (hvars name (List.mem_of_getElem? hname)) i).trans
      (h.nodes i j hj name hname))
    htid (hptr.trans h.pointer) _ haddr
    (by
      rw [hmem, h.mem, List.length_append, length_mixed]
      omega) hload
  refine ⟨s', ?_, ⟨?_, hnodes', hptr'⟩⟩
  · rw [Program.runThread, @execStmts_eq _ _ (fun _ => true) rfl, hkernel.gives.reached k hk]
    exact hrun
  · rw [hmem', hmem, h.mem, Nat.mul_succ]
    exact mixed_store hin fun i => by
      have hi : VLEN * k + i.val < xs.length := by omega
      rw [List.getD_eq_getElem?_getD, List.getElem?_eq_getElem hi]
      rfl

theorem runThreads_kernel (hkernel : IsKernel height n rounds program)
    (hperfect : t.values.length = 2 ^ (height + 1) - 1)
    (hnodes : ∀ k < t.values.length, base[7 + k]? = some (nodeWord t k))
    (hbase : 7 + t.values.length ≤ base.length) (hxs : xs.length = VLEN * n)
    (hfits : base.length + xs.length ≤ 2 ^ 32) {s : State}
    (h : AfterThreads t rounds base xs 0 s) {k : ℕ} (hk : k ≤ n) :
    ∃ s', (List.range k).foldlM program.runThread s = some s' ∧
      AfterThreads t rounds base xs k s' := by
  induction k with
  | zero => exact ⟨s, rfl, h⟩
  | succ k ih =>
      obtain ⟨mid, hmid, hafter⟩ := ih (Nat.le_of_succ_le hk)
      obtain ⟨s', hrun, hafter'⟩ :=
        runThread_kernel hkernel hperfect hnodes hbase hxs hfits hk hafter
      refine ⟨s', ?_, hafter'⟩
      rw [List.range_succ, List.foldlM_append, hmid]
      exact (Option.bind_some ..).trans (by rw [List.foldlM_cons, hrun]; rfl)

/-- The kernel on a memory with a tree and a batch. -/
theorem interpret_kernel (hkernel : IsKernel height n rounds program)
    (hperfect : t.values.length = 2 ^ (height + 1) - 1)
    (hnodes : ∀ k < t.values.length, base[7 + k]? = some (nodeWord t k))
    (hbase : 7 + t.values.length ≤ base.length) (hxs : xs.length = VLEN * n)
    (hlong : 22 ≤ base.length + xs.length) (hfits : base.length + xs.length ≤ 2 ^ 32)
    (hpointer : base[6]? = some (BitVec.ofNat 32 base.length)) :
    ∃ s, program.interpret n (base ++ xs.map (BitVec.ofNat 32)) = some s ∧
      s.mem = base ++ xs.map fun v => BitVec.ofNat 32 (visited t rounds v) := by
  obtain ⟨s₀, hrun₀, hmem₀, hvars₀, hptr₀⟩ := @exec_globalStmts program.lengthOf
    (base ++ xs.map (BitVec.ofNat 32)) hkernel.types (by
      rw [List.length_append, List.length_map]
      exact hlong)
  have hstart : AfterThreads t rounds base xs 0 s₀ := by
    refine ⟨hmem₀, fun i k hk name hname => ?_, ?_⟩
    · have hstore := hvars₀ k name hname
      rw [List.getElem?_append_left (by omega), hnodes k hk, Option.map_some,
        ← List.ofFn_const] at hstore
      exact lane_of_store hstore i
    · rw [hptr₀, List.getElem?_append_left (by omega), hpointer]
      rfl
  obtain ⟨s, hrun, hafter⟩ := runThreads_kernel hkernel hperfect hnodes hbase hxs hfits
    hstart (le_refl n)
  refine ⟨s, ?_, ?_⟩
  · rw [Program.interpret, hkernel.globals, hrun₀]
    exact hrun
  · rw [hafter.mem, ← hxs, mixed, List.take_length, List.drop_length, List.map_nil, List.append_nil]

end Kernel

section Correct

variable {t : Tree} {inp inp' : Input}

/-- The words of the memory that a run starts with. -/
def memWords (t : Tree) (inp : Input) : List Word := (buildMemImage t inp).map (BitVec.ofNat 32)

/-- Everything in front of the values. -/
def memBase (t : Tree) (inp : Input) : List Word :=
  (memHeader t inp ++ t.values ++ inp.indices).map (BitVec.ofNat 32)

theorem memWords_eq (h : inp.indices.length = inp.values.length) :
    memWords t inp = memBase t inp ++ inp.values.map (BitVec.ofNat 32) := by
  rw [memWords, buildMemImage_eq h, List.map_append, memBase]

theorem length_memBase (t : Tree) (inp : Input) :
    (memBase t inp).length = 7 + t.values.length + inp.indices.length := by
  simp [memBase, memHeader]
  omega

theorem memBase_node (inp : Input) {k : ℕ} (hk : k < t.values.length) :
    (memBase t inp)[7 + k]? = some (nodeWord t k) := by
  have hheader : (memHeader t inp).length = 7 := rfl
  rw [memBase, List.getElem?_map, List.append_assoc, List.getElem?_append_right (by omega), hheader,
    Nat.add_sub_cancel_left, List.getElem?_append_left hk, List.getElem?_eq_getElem hk, nodeWord,
    List.getD_eq_getElem?_getD, List.getElem?_eq_getElem hk]
  rfl

theorem memBase_pointer (h : inp.indices.length = inp.values.length) :
    (memBase t inp)[6]? = some (BitVec.ofNat 32 (memBase t inp).length) := by
  rw [length_memBase, h]
  rfl

/-- What the reference makes of a batch that starts at the root. -/
theorem referenceKernel_values (h : inp.Fits t) (hroot : ∀ idx ∈ inp.indices, idx = 0)
    (href : referenceKernel t inp = some inp') :
    inp'.values = inp.values.map (visited t inp.rounds) := by
  obtain ⟨inp'', href', -, hwith⟩ := exists_referenceKernel h
  obtain rfl := Option.some.inj (href.symm.trans href')
  refine List.ext_getElem (by rw [hwith.values, List.length_map]) fun i hi hi' => ?_
  have hvalues : i < inp.values.length := hwith.values ▸ hi
  have hindices : i < inp.indices.length := h.lengths ▸ hvalues
  have hitem : inp.item i = (0, inp.values[i]) := by
    simp [Input.item, hindices, hvalues, hroot _ (List.getElem_mem hindices)]
  have hafter := congrArg Prod.snd (hwith.item i hindices)
  rw [hitem] at hafter
  rw [List.getElem_map, visited, ← hafter]
  simp [Input.item, hi]

/-- A program with the statements of a kernel does what the reference does. -/
theorem IsKernel.interpret {program : Program} {n : ℕ}
    (hkernel : IsKernel t.height n inp.rounds program)
    (hperfect : t.values.length = 2 ^ (t.height + 1) - 1)
    (hroot : inp.indices = List.replicate inp.values.length 0)
    (hbatch : inp.values.length = VLEN * n) (hn : 0 < n)
    (hfits : (buildMemImage t inp).length ≤ 2 ^ 32) :
    ∃ inp' s, referenceKernel t inp = some inp' ∧ program.interpret n (memWords t inp) = some s ∧
      s.mem = memWords t { inp with values := inp'.values } := by
  have hlengths : inp.indices.length = inp.values.length := by rw [hroot, List.length_replicate]
  have hzero : ∀ idx ∈ inp.indices, idx = 0 := fun idx hidx =>
    List.eq_of_mem_replicate (hroot ▸ hidx)
  have hnodes : 0 < t.values.length := by
    have hpow : 1 < 2 ^ (t.height + 1) := Nat.one_lt_two_pow (Nat.succ_ne_zero _)
    omega
  have hinp : inp.Fits t := ⟨hlengths, fun idx hidx => (hzero idx hidx).symm ▸ hnodes⟩
  obtain ⟨inp', href, -, hwith⟩ := exists_referenceKernel hinp
  have hlength : (memBase t inp).length + inp.values.length ≤ 2 ^ 32 := by
    rw [buildMemImage_eq hlengths] at hfits
    have hheader : (memHeader t inp).length = 7 := rfl
    simp only [List.length_append, hheader] at hfits
    rw [length_memBase]
    exact hfits
  obtain ⟨s, hrun, hmem⟩ := interpret_kernel hkernel hperfect
    (fun k hk => memBase_node inp hk) (by rw [length_memBase]; omega) hbatch
    (by
      rw [length_memBase]
      simp only [VLEN] at hbatch
      omega) hlength (memBase_pointer hlengths)
  refine ⟨inp', s, href, by rw [memWords_eq hlengths, hrun], ?_⟩
  have hvalues := referenceKernel_values hinp hzero href
  have hsame : memBase t { inp with values := inp'.values } = memBase t inp := by
    rw [memBase, memBase, memHeader, memHeader, hwith.values]
  have hafter := @memWords_eq t { inp with values := inp'.values }
    (hlengths.trans hwith.values.symm)
  rw [hmem, hafter, hsame, hvalues, List.map_map]
  rfl

/-- For every perfect tree that is in memory with a batch of whole vectors at the root: the text of
the kernel is a program, and its interpretation leaves in memory the values of the reference, and
everything else as it was. -/
theorem interpret_inputToProgram {n : ℕ} (hperfect : t.values.length = 2 ^ (t.height + 1) - 1)
    (hroot : inp.indices = List.replicate inp.values.length 0)
    (hbatch : inp.values.length = VLEN * n) (hn : 0 < n)
    (hmany : t.height = 0 ∨ inp.rounds ≤ 1 ∨ 32 ≤ n)
    (hfits : (buildMemImage t inp).length ≤ 2 ^ 32) :
    ∃ program inp' s, inputToProgram t.height inp.values.length inp.rounds = some program ∧
      referenceKernel t inp = some inp' ∧ program.interpret n (memWords t inp) = some s ∧
      s.mem = memWords t { inp with values := inp'.values } := by
  obtain ⟨program, hprogram, hkernel⟩ := @exists_inputToProgram n t.height inp.rounds hn hmany
  obtain ⟨inp', s, hall⟩ := hkernel.interpret hperfect hroot hbatch hn hfits
  exact ⟨program, inp', s, by rw [hbatch, hprogram], hall⟩

/-- Three rounds on a tree with two levels: the items come back to the root. -/
theorem interpret_inputToProgram_small :
    ∃ program inp' s, inputToProgram 1 256 3 = some program ∧
      referenceKernel ⟨1, [3, 5, 7]⟩ ⟨List.replicate 256 0, List.range 256, 3⟩ = some inp' ∧
      program.interpret 32 (memWords ⟨1, [3, 5, 7]⟩ ⟨List.replicate 256 0, List.range 256, 3⟩) =
        some s ∧
      s.mem = memWords ⟨1, [3, 5, 7]⟩ ⟨List.replicate 256 0, inp'.values, 3⟩ := by
  have hlength : (List.range 256).length = 256 := List.length_range
  obtain ⟨program, inp', s, hprogram, href, hrun, hmem⟩ := @interpret_inputToProgram ⟨1, [3, 5, 7]⟩
    ⟨List.replicate 256 0, List.range 256, 3⟩ 32 rfl (by rw [hlength]) (by rw [hlength, VLEN])
    (by decide) (by decide) (by decide +kernel)
  exact ⟨program, inp', s, by simpa only [hlength] using hprogram, href, hrun, hmem⟩

end Correct

end Explore.Takehome
