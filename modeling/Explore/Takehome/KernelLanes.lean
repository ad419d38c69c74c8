import Explore.Takehome.Lanes
import Explore.Takehome.ProgramText
import Explore.Takehome.Reference
import Mathlib.Data.BitVec
import Mathlib.Tactic.IntervalCases
import Mathlib.Tactic.Ring

/-!
# The kernel in one lane

The statements of a round hash the value of an item with that of its node and go on to a child,
without the node itself: of the first two levels below the root a lane knows which of their nodes it
is at, of the lower ones the address of the node. The six stages of the hash are computed in four
steps.
-/

namespace Explore.Takehome

section Hash

variable {a x : ℕ}

/-- What a kernel computes instead of `myhash`. -/
def hashWord (v : Word) : Word :=
  let v := v * 4097#32 + 0x7ED55D16#32
  let v := (v ^^^ 0xC761C23C#32) ^^^ (v >>> 19)
  let v := (v * 33#32 + 3925396509#32) ^^^ (v * 16896#32 + 2899272192#32)
  let v := v * 9#32 + 0xFD7046C5#32
  (v ^^^ 0xB55A4F09#32) ^^^ (v >>> 16)

theorem ofNat_wrap32 (x : ℕ) : BitVec.ofNat 32 (wrap32 x) = BitVec.ofNat 32 x := by
  apply BitVec.eq_of_toNat_eq
  simp [wrap32]

theorem ofNat_shl (x k : ℕ) :
    BitVec.ofNat 32 (x <<< k) = BitVec.ofNat 32 x * BitVec.ofNat 32 (2 ^ k) := by
  rw [Nat.shiftLeft_eq, BitVec.ofNat_mul]

theorem ofNat_shr (h : x < 2 ^ 32) (k : ℕ) :
    BitVec.ofNat 32 (x >>> k) = BitVec.ofNat 32 x >>> k := by
  apply BitVec.eq_of_toNat_eq
  rw [BitVec.toNat_ushiftRight, BitVec.toNat_ofNat, BitVec.toNat_ofNat, Nat.mod_eq_of_lt h,
    Nat.mod_eq_of_lt ((Nat.shiftRight_le x k).trans_lt h)]

theorem HashStage.apply_lt (stage : HashStage) (a : ℕ) : stage.apply a < 2 ^ 32 :=
  Nat.mod_lt _ (by decide)

/-- A stage that multiplies and adds. -/
theorem ofNat_addStage (c k a : ℕ) :
    BitVec.ofNat 32 (HashStage.apply ⟨.add, c, .add, .shl, k⟩ a) =
      BitVec.ofNat 32 a * (1 + BitVec.ofNat 32 (2 ^ k)) + BitVec.ofNat 32 c := by
  simp only [HashStage.apply, HashOp.apply, ofNat_wrap32, BitVec.ofNat_add, ofNat_shl]
  ring

/-- A stage that mixes a word with its own upper bits. -/
theorem ofNat_xorStage (c k : ℕ) (ha : a < 2 ^ 32) :
    BitVec.ofNat 32 (HashStage.apply ⟨.xor, c, .xor, .shr, k⟩ a) =
      (BitVec.ofNat 32 a ^^^ BitVec.ofNat 32 c) ^^^ (BitVec.ofNat 32 a >>> k) := by
  simp only [HashStage.apply, HashOp.apply, ofNat_wrap32, BitVec.ofNat_xor, ofNat_shr ha]

/-- The third stage, of which the fourth one needs two multiples. -/
theorem ofNat_mixStage (c k a : ℕ) :
    BitVec.ofNat 32 (HashStage.apply ⟨.add, c, .xor, .shl, k⟩ a) =
      (BitVec.ofNat 32 a + BitVec.ofNat 32 c) ^^^
        (BitVec.ofNat 32 a * BitVec.ofNat 32 (2 ^ k)) := by
  simp only [HashStage.apply, HashOp.apply, ofNat_wrap32, BitVec.ofNat_xor, BitVec.ofNat_add,
    ofNat_shl]

theorem myhash_eq (a : ℕ) :
    myhash a = HashStage.apply ⟨.xor, 0xB55A4F09, .xor, .shr, 16⟩
      (HashStage.apply ⟨.add, 0xFD7046C5, .add, .shl, 3⟩
        (HashStage.apply ⟨.add, 0xD3A2646C, .xor, .shl, 9⟩
          (HashStage.apply ⟨.add, 0x165667B1, .add, .shl, 5⟩
            (HashStage.apply ⟨.xor, 0xC761C23C, .xor, .shr, 19⟩
              (HashStage.apply ⟨.add, 0x7ED55D16, .add, .shl, 12⟩ a))))) := by
  rw [myhash, HASH_STAGES, List.foldl_cons, List.foldl_cons, List.foldl_cons, List.foldl_cons,
    List.foldl_cons, List.foldl_cons, List.foldl_nil]

theorem myhash_lt (a : ℕ) : myhash a < 2 ^ 32 := by
  rw [myhash_eq]
  exact HashStage.apply_lt _ _

/-- The third and the fourth stage are computed from the result of the second one. -/
theorem fused_stages (v : Word) :
    (v * 33#32 + 0x165667B1#32 + 0xD3A2646C#32) ^^^ ((v * 33#32 + 0x165667B1#32) * 512#32) =
      (v * 33#32 + 3925396509#32) ^^^ (v * 16896#32 + 2899272192#32) := by
  have hadd : v * 33#32 + 0x165667B1#32 + 0xD3A2646C#32 = v * 33#32 + 3925396509#32 := by
    rw [BitVec.add_assoc]
    rfl
  have hmul : (v * 33#32 + 0x165667B1#32) * 512#32 = v * 16896#32 + 2899272192#32 := by
    have hfactor : 16896#32 = 33#32 * 512#32 := rfl
    have hconst : 2899272192#32 = 0x165667B1#32 * 512#32 := rfl
    rw [hfactor, hconst]
    ring
  rw [hadd, hmul]

/-- The words of a kernel have the hash that the reference has. -/
theorem ofNat_myhash (a : ℕ) : BitVec.ofNat 32 (myhash a) = hashWord (BitVec.ofNat 32 a) := by
  have h4097 : 1 + BitVec.ofNat 32 (2 ^ 12) = 4097#32 := rfl
  have h33 : 1 + BitVec.ofNat 32 (2 ^ 5) = 33#32 := rfl
  have h512 : BitVec.ofNat 32 (2 ^ 9) = 512#32 := rfl
  have h9 : 1 + BitVec.ofNat 32 (2 ^ 3) = 9#32 := rfl
  rw [myhash_eq, ofNat_xorStage _ _ (HashStage.apply_lt _ _), ofNat_addStage, ofNat_mixStage,
    ofNat_addStage, ofNat_xorStage _ _ (HashStage.apply_lt _ _), ofNat_addStage, h4097, h33, h512,
    h9]
  simp only [hashWord, fused_stages]

end Hash

section Pieces

variable {t : Tree} {mem : List Word} {e : LaneStore} {v : Word} {level node : ℕ}

/-- The value of a node as a word. -/
def nodeWord (t : Tree) (k : ℕ) : Word := BitVec.ofNat 32 (t.values.getD k 0)

/-- The variables of the first nodes. -/
def nodeVars : List String :=
  ["t0", "t1", "t2", "treevals", "t4", "t5", "t6", "b0", "b1", "b2", "b3", "b4", "b5", "b6", "b7"]

/-- The first nodes are in their variables. -/
def HoldsNodes (t : Tree) (e : LaneStore) : Prop :=
  ∀ k < t.values.length, ∀ name ∈ nodeVars[k]?, e name = some (nodeWord t k)

/-- The nodes of a level. -/
def OnLevel (level node : ℕ) : Prop := 2 ^ level ≤ node + 1 ∧ node + 1 < 2 ^ (level + 1)

/-- What a lane knows of its node before a round: nothing at the root, one or two bits above the
third level, from there on the address. -/
def Knows (level node : ℕ) (e : LaneStore) : Prop :=
  match level with
  | 0 => True
  | 1 => e "idx" = some (BitVec.ofNat 32 (node - 1))
  | 2 => e "idx" = some (BitVec.ofNat 32 ((node - 3) / 2)) ∧
      e "p1" = some (BitVec.ofNat 32 ((node - 3) % 2))
  | _ + 3 => e "idx" = some (BitVec.ofNat 32 (7 + node))

/-- What it knows after the header. -/
def Finds (level node : ℕ) (e : LaneStore) : Prop :=
  match level with
  | 0 => True
  | 1 => e "idx" = some (BitVec.ofNat 32 (node - 1))
  | _ + 2 => e "idx" = some (BitVec.ofNat 32 (7 + node))

@[simp] theorem laneWord_var (name : String) : (VarOrConstant.var name).laneWord e = e name := rfl

@[simp] theorem laneWord_const (digits : List (Fin 10)) : (const digits).laneWord e =
    some (BitVec.ofNat 32 (ofDigits 10 (digits.map Fin.val))) := rfl

@[simp] theorem laneWord_negConst (digits : List (Fin 10)) : (negConst digits).laneWord e =
    some (-BitVec.ofNat 32 (ofDigits 10 (digits.map Fin.val))) := by
  simp [negConst, VarOrConstant.laneWord, IntConstantExpr.toInt, word, BitVec.ofInt_neg]

@[simp] theorem laneWord_hexConst (digits : List ℕ) : (hexConst digits).laneWord e =
    some (BitVec.ofNat 32 (ofDigits 16 (digits.map (· % 16)))) := by
  simp [hexConst, VarOrConstant.laneWord, IntConstantExpr.toInt, word, Function.comp_def]

theorem lane_computation (hv : e "v" = some v) :
    ∃ e', computationStmts.foldlM (PlainStmt.laneExec mem) e = some e' ∧
      e' "v" = some (hashWord v) := by
  simp [computationStmts, PlainStmt.laneExec, ValueExpr.laneEval, binStmt, hv, AluOp.eval, ofDigits,
    hashWord]

theorem lane_level0Header (hnodes : HoldsNodes t e) (hfull : 2 ^ 1 - 1 ≤ t.values.length)
    (hv : e "v" = some v) :
    ∃ e', level0HeaderStmts.foldlM (PlainStmt.laneExec mem) e = some e' ∧
      e' "v" = some (v ^^^ nodeWord t 0) := by
  have h0 := hnodes 0 (by omega) "t0" rfl
  simp [level0HeaderStmts, PlainStmt.laneExec, ValueExpr.laneEval, binStmt, AluOp.eval, hv, h0]

theorem lane_level1Header (hlevel : OnLevel 1 node) (hnodes : HoldsNodes t e)
    (hfull : 2 ^ 2 - 1 ≤ t.values.length) (hv : e "v" = some v)
    (hidx : e "idx" = some (BitVec.ofNat 32 (node - 1))) :
    ∃ e', level1HeaderStmts.foldlM (PlainStmt.laneExec mem) e = some e' ∧
      e' "v" = some (v ^^^ nodeWord t node) ∧ e' "idx" = e "idx" := by
  have h1 := hnodes 1 (by omega) "t1" rfl
  have h2 := hnodes 2 (by omega) "t2" rfl
  obtain rfl | rfl : node = 1 ∨ node = 2 := by
    rw [OnLevel] at hlevel
    omega
  all_goals
    simp [level1HeaderStmts, PlainStmt.laneExec, ValueExpr.laneEval, Condition.laneWord, binStmt,
      selectStmt, AluOp.eval, hv, h1, h2, hidx]

theorem lane_level1ValuHeader (hlevel : OnLevel 1 node) (hnodes : HoldsNodes t e)
    (hfull : 2 ^ 2 - 1 ≤ t.values.length) (hv : e "v" = some v)
    (hidx : e "idx" = some (BitVec.ofNat 32 (node - 1))) :
    ∃ e', level1ValuHeaderStmts.foldlM (PlainStmt.laneExec mem) e = some e' ∧
      e' "v" = some (v ^^^ nodeWord t node) ∧ e' "idx" = e "idx" := by
  have h1 := hnodes 1 (by omega) "t1" rfl
  have h2 := hnodes 2 (by omega) "t2" rfl
  obtain rfl | rfl : node = 1 ∨ node = 2 := by
    rw [OnLevel] at hlevel
    omega
  all_goals
    simp [level1ValuHeaderStmts, PlainStmt.laneExec, ValueExpr.laneEval, binStmt, AluOp.eval, hv,
      h1, h2, hidx]

theorem lane_level2Header (temp : String) (htemp : temp ∈ ["temp1", "temp2", "temp3", "temp4"])
    (hlevel : OnLevel 2 node) (hnodes : HoldsNodes t e)
    (hfull : 2 ^ 3 - 1 ≤ t.values.length) (hv : e "v" = some v)
    (hidx : e "idx" = some (BitVec.ofNat 32 ((node - 3) / 2)))
    (hp1 : e "p1" = some (BitVec.ofNat 32 ((node - 3) % 2))) :
    ∃ e', (level2HeaderStmts temp).foldlM (PlainStmt.laneExec mem) e = some e' ∧
      e' "v" = some (v ^^^ nodeWord t node) ∧ e' "idx" = some (BitVec.ofNat 32 (7 + node)) := by
  have h3 := hnodes 3 (by omega) "treevals" rfl
  have h4 := hnodes 4 (by omega) "t4" rfl
  have h5 := hnodes 5 (by omega) "t5" rfl
  have h6 := hnodes 6 (by omega) "t6" rfl
  have hne : "p1" ≠ temp ∧ "p2" ≠ temp ∧ "idx" ≠ temp ∧ "v" ≠ temp := by
    revert temp
    decide
  obtain rfl | rfl | rfl | rfl : node = 3 ∨ node = 4 ∨ node = 5 ∨ node = 6 := by
    rw [OnLevel] at hlevel
    omega
  all_goals
    simp [level2HeaderStmts, PlainStmt.laneExec, ValueExpr.laneEval, Condition.laneWord, binStmt,
      selectStmt, AluOp.eval, ofDigits, hv, h3, h4, h5, h6, hidx, hp1, hne]

/-- The first choices between the nodes of the third level: `p2` is the distance of the address `i`
from the last one that it was compared with, `p1` the node. -/
structure Choosing (e : LaneStore) (i a x : Word) (e' : LaneStore) : Prop where
  p2 : e' "p2" = some (i - a)
  p1 : e' "p1" = some x
  others : ∀ y, y ≠ "p1" → y ≠ "p2" → e' y = e y

theorem word_sub_eq_zero (a b : Word) : a - b = 0#32 ↔ a = b := sub_eq_zero

/-- One more choice. -/
theorem Choosing.step {e' : LaneStore} {i a x c w : Word} (h : Choosing e i a x e')
    (mem : List Word) (op : AluOp) (right : VarOrConstant) (name : String) (a' : Word)
    (hright : right.laneWord e' = some c) (hop : op.eval (i - a) c = some (i - a'))
    (hname : e name = some w) (hne : name ≠ "p1" ∧ name ≠ "p2") :
    ∃ e'', [binStmt "p2" "p2" op right, selectStmt "p1" "p2" "p1" name].foldlM
        (PlainStmt.laneExec mem) e' = some e'' ∧ Choosing e i a' (if i = a' then w else x) e'' := by
  have hfirst : (binStmt "p2" "p2" op right).laneExec mem e' =
      some (Function.update e' "p2" (some (i - a'))) := by
    simp [binStmt, PlainStmt.laneExec, ValueExpr.laneEval, h.p2, hright, hop]
  have hsecond : (selectStmt "p1" "p2" "p1" name).laneExec mem
      (Function.update e' "p2" (some (i - a'))) =
      some (Function.update (Function.update e' "p2" (some (i - a'))) "p1"
        (some (if i = a' then w else x))) := by
    simp [selectStmt, PlainStmt.laneExec, ValueExpr.laneEval, Condition.laneWord, h.p1, hne.2,
      h.others name hne.1 hne.2, hname, word_sub_eq_zero]
  refine ⟨Function.update (Function.update e' "p2" (some (i - a'))) "p1"
    (some (if i = a' then w else x)), ?_, ⟨?_, ?_, fun y hy1 hy2 => ?_⟩⟩
  · rw [List.foldlM_cons, hfirst]
    simp [hsecond]
  · simp
  · simp
  · rw [Function.update_of_ne hy1, Function.update_of_ne hy2, h.others y hy1 hy2]

theorem lane_level3FlowBasedHeader (hlevel : OnLevel 3 node) (hnodes : HoldsNodes t e)
    (hfull : 2 ^ 4 - 1 ≤ t.values.length) (hv : e "v" = some v)
    (hidx : e "idx" = some (BitVec.ofNat 32 (7 + node))) :
    ∃ e', level3FlowBasedHeaderStmts.foldlM (PlainStmt.laneExec mem) e = some e' ∧
      e' "v" = some (v ^^^ nodeWord t node) ∧ e' "idx" = e "idx" := by
  have hname (k : ℕ) (hk : k < 15) (name : String) (h : nodeVars[k]? = some name) :
      e name = some (nodeWord t k) := hnodes k (by omega) name h
  obtain ⟨i, hi⟩ : ∃ i : Word, i = BitVec.ofNat 32 (7 + node) := ⟨_, rfl⟩
  rw [← hi] at hidx
  have h7 := hname 7 (by decide) "b0" rfl
  have h12 := hname 12 (by decide) "b5" rfl
  obtain ⟨e₁, hrun₁, h₁⟩ : ∃ e₁, [binStmt "p2" "idx" .sub (const [1, 9]),
      selectStmt "p1" "p2" "b0" "b5"].foldlM (PlainStmt.laneExec mem) e = some e₁ ∧
      Choosing e i 19 (if i = 19 then nodeWord t 12 else nodeWord t 7) e₁ := by
    refine ⟨Function.update (Function.update e "p2" (some (i - 19))) "p1"
      (some (if i = 19 then nodeWord t 12 else nodeWord t 7)), ?_, ⟨?_, ?_, fun y hy1 hy2 => ?_⟩⟩
    · simp [binStmt, selectStmt, PlainStmt.laneExec, ValueExpr.laneEval, Condition.laneWord,
        AluOp.eval, ofDigits, hidx, h7, h12, word_sub_eq_zero]
    · simp
    · simp
    · rw [Function.update_of_ne hy1, Function.update_of_ne hy2]
  obtain ⟨e₂, hrun₂, h₂⟩ := h₁.step mem .add (const [2]) "b3" 17 (laneWord_const [2])
    (congrArg some (by simp [ofDigits]; bv_omega)) (hname 10 (by decide) "b3" rfl) (by decide)
  obtain ⟨e₃, hrun₃, h₃⟩ := h₂.step mem .add (const [2]) "b1" 15 (laneWord_const [2])
    (congrArg some (by simp [ofDigits]; bv_omega)) (hname 8 (by decide) "b1" rfl) (by decide)
  obtain ⟨e₄, hrun₄, h₄⟩ := h₃.step mem .add (negConst [6]) "b7" 21 (laneWord_negConst [6])
    (congrArg some (by simp [ofDigits]; bv_omega)) (hname 14 (by decide) "b7" rfl) (by decide)
  obtain ⟨e₅, hrun₅, h₅⟩ := h₄.step mem .sub (negConst [5]) "b2" 16 (laneWord_negConst [5])
    (congrArg some (by simp [ofDigits]; bv_omega)) (hname 9 (by decide) "b2" rfl) (by decide)
  obtain ⟨e₆, hrun₆, h₆⟩ := h₅.step mem .sub (const [2]) "b4" 18 (laneWord_const [2])
    (congrArg some (by simp [ofDigits]; bv_omega)) (hname 11 (by decide) "b4" rfl) (by decide)
  obtain ⟨e₇, hrun₇, h₇⟩ := h₆.step mem .sub (const [2]) "b6" 20 (laneWord_const [2])
    (congrArg some (by simp [ofDigits]; bv_omega)) (hname 13 (by decide) "b6" rfl) (by decide)
  -- The last choice that fits is the node of the address.
  have hnode : (if i = 20 then nodeWord t 13 else if i = 18 then nodeWord t 11 else
      if i = 16 then nodeWord t 9 else if i = 21 then nodeWord t 14 else
      if i = 15 then nodeWord t 8 else if i = 17 then nodeWord t 10 else
      if i = 19 then nodeWord t 12 else nodeWord t 7) = nodeWord t node := by
    obtain ⟨k, hk, rfl⟩ : ∃ k < 8, node = 7 + k := by
      rw [OnLevel] at hlevel
      exact ⟨node - 7, by omega, by omega⟩
    interval_cases k <;> rw [hi] <;> rfl
  have hp1 := h₇.p1
  rw [hnode] at hp1
  refine ⟨Function.update e₇ "v" (some (v ^^^ nodeWord t node)), ?_, ?_, ?_⟩
  · have hlast : (binStmt "v" "v" .xor (.var "p1")).laneExec mem e₇ =
        some (Function.update e₇ "v" (some (v ^^^ nodeWord t node))) := by
      simp [binStmt, PlainStmt.laneExec, ValueExpr.laneEval, AluOp.eval, hp1,
        h₇.others "v" (by decide) (by decide), hv]
    have hsplit : level3FlowBasedHeaderStmts =
        [binStmt "p2" "idx" .sub (const [1, 9]), selectStmt "p1" "p2" "b0" "b5"] ++
          ([binStmt "p2" "p2" .add (const [2]), selectStmt "p1" "p2" "p1" "b3"] ++
          ([binStmt "p2" "p2" .add (const [2]), selectStmt "p1" "p2" "p1" "b1"] ++
          ([binStmt "p2" "p2" .add (negConst [6]), selectStmt "p1" "p2" "p1" "b7"] ++
          ([binStmt "p2" "p2" .sub (negConst [5]), selectStmt "p1" "p2" "p1" "b2"] ++
          ([binStmt "p2" "p2" .sub (const [2]), selectStmt "p1" "p2" "p1" "b4"] ++
          ([binStmt "p2" "p2" .sub (const [2]), selectStmt "p1" "p2" "p1" "b6"] ++
            [binStmt "v" "v" .xor (.var "p1")])))))) := rfl
    rw [hsplit]
    simp only [List.foldlM_append, hrun₁, hrun₂, hrun₃, hrun₄, hrun₅, hrun₆, hrun₇,
      Option.bind_eq_bind, Option.bind_some]
    rw [List.foldlM_cons, hlast]
    rfl
  · simp
  · rw [Function.update_of_ne (by decide), h₇.others "idx" (by decide) (by decide)]

theorem lane_level3Header (hmem : ∀ k < t.values.length, mem[7 + k]? = some (nodeWord t k))
    (hfits : 7 + t.values.length ≤ 2 ^ 32) (hnode : node < t.values.length) (hv : e "v" = some v)
    (hidx : e "idx" = some (BitVec.ofNat 32 (7 + node))) :
    ∃ e', level3HeaderStmts.foldlM (PlainStmt.laneExec mem) e = some e' ∧
      e' "v" = some (v ^^^ nodeWord t node) ∧ e' "idx" = e "idx" := by
  have haddr : (BitVec.ofNat 32 (7 + node)).toNat = 7 + node := by
    rw [BitVec.toNat_ofNat, Nat.mod_eq_of_lt (by omega)]
  have hload := hmem node hnode
  simp only [level3HeaderStmts, List.foldlM_cons, PlainStmt.laneExec, ValueExpr.laneEval, hidx,
    haddr, hload, Option.bind_eq_bind, Option.bind_some]
  simp [binStmt, AluOp.eval, hv, hidx]

theorem word_mod_two (v : Word) : v % 2#32 = BitVec.ofNat 32 (v.toNat % 2) := by
  have hlt : v.toNat % 2 < 2 ^ 32 := by omega
  apply BitVec.eq_of_toNat_eq
  rw [BitVec.toNat_umod, BitVec.toNat_ofNat, BitVec.toNat_ofNat, Nat.mod_eq_of_lt hlt]

/-- The children of a node, from its address. -/
theorem word_child (node bit : ℕ) (c : Word) (hc : c + 6#32 = BitVec.ofNat 32 bit) :
    BitVec.ofNat 32 (7 + node) * 2#32 + c = BitVec.ofNat 32 (7 + (2 * node + 1 + bit)) := by
  have hsum : 7 + (2 * node + 1 + bit) = (7 + node) * 2 - 6 + bit := by omega
  apply BitVec.eq_of_toNat_eq
  have hc := congrArg BitVec.toNat hc
  simp only [BitVec.toNat_add, BitVec.toNat_mul, BitVec.toNat_ofNat] at hc ⊢
  omega

theorem lane_levelFooter (hv : e "v" = some v)
    (hidx : e "idx" = some (BitVec.ofNat 32 (7 + node))) :
    ∃ e', levelFooterStmts.foldlM (PlainStmt.laneExec mem) e = some e' ∧ e' "v" = some v ∧
      e' "idx" = some (BitVec.ofNat 32 (7 + (2 * node + 1 + v.toNat % 2))) := by
  have hbit := Nat.mod_two_eq_zero_or_one v.toNat
  have hchild := word_child node (v.toNat % 2) (if v.toNat % 2 = 0 then -6#32 else -5#32) (by
    obtain h | h := hbit <;> rw [h] <;> rfl)
  rw [← hchild]
  obtain h | h := hbit
  all_goals
    simp [levelFooterStmts, binStmt, PlainStmt.laneExec, ValueExpr.laneEval, Condition.laneWord,
      AluOp.eval, ofDigits, hv, hidx, word_mod_two, h]

/-- After the footer a lane knows the child that the parity chooses. -/
theorem lane_footer (hlevel : OnLevel level node) (hfinds : Finds level node e)
    (hv : e "v" = some v) :
    ∃ e', (roundFooterStmts level).foldlM (PlainStmt.laneExec mem) e = some e' ∧
      e' "v" = some v ∧ Knows (level + 1) (2 * node + 1 + v.toNat % 2) e' := by
  match level with
  | 0 =>
      obtain rfl : node = 0 := by
        rw [OnLevel] at hlevel
        omega
      refine ⟨Function.update e "idx" (some (v % 2#32)), ?_, ?_, ?_⟩
      · simp [roundFooterStmts, level0FooterStmts, binStmt, PlainStmt.laneExec, ValueExpr.laneEval,
          AluOp.eval, ofDigits, hv]
      · simp [hv]
      · simp [Knows, word_mod_two]
  | 1 =>
      have hpos : 1 ≤ node := by
        rw [OnLevel] at hlevel
        omega
      refine ⟨Function.update e "p1" (some (v % 2#32)), ?_, ?_, ?_, ?_⟩
      · simp [roundFooterStmts, level1FooterStmts, binStmt, PlainStmt.laneExec, ValueExpr.laneEval,
          AluOp.eval, ofDigits, hv]
      · simp [hv]
      · have hhalf : (2 * node + 1 + v.toNat % 2 - 3) / 2 = node - 1 := by omega
        rw [Function.update_of_ne (by decide), hhalf]
        exact hfinds
      · have hbit : (2 * node + 1 + v.toNat % 2 - 3) % 2 = v.toNat % 2 := by omega
        rw [Function.update_self, hbit, word_mod_two]
  | level + 2 =>
      obtain ⟨e', hrun, hv', hidx'⟩ := @lane_levelFooter mem e v node hv hfinds
      exact ⟨e', by simpa [roundFooterStmts] using hrun, hv', hidx'⟩

/-- After the header the value is mixed with that of the node. -/
theorem lane_header {n r tid : ℕ} (hlevel : OnLevel level node) (hnodes : HoldsNodes t e)
    (hfull : 2 ^ (level + 1) - 1 ≤ t.values.length)
    (hmem : ∀ k < t.values.length, mem[7 + k]? = some (nodeWord t k))
    (hfits : 7 + t.values.length ≤ 2 ^ 32) (hv : e "v" = some v) (hknows : Knows level node e) :
    ∃ e', (roundHeaderStmts n level r tid).foldlM (PlainStmt.laneExec mem) e = some e' ∧
      e' "v" = some (v ^^^ nodeWord t node) ∧ Finds level node e' := by
  have hnode : node < t.values.length := by
    have := hlevel.2
    omega
  match level with
  | 0 =>
      obtain rfl : node = 0 := by
        rw [OnLevel] at hlevel
        omega
      obtain ⟨e', hrun, hv'⟩ := @lane_level0Header t mem e v hnodes hfull hv
      exact ⟨e', hrun, hv', trivial⟩
  | 1 =>
      by_cases hspecial : (tid : ℤ) ∈ (if r = 1 then rangeSet 0 32 1 else rangeSet 0 0 1)
      · obtain ⟨e', hrun, hv', hidx'⟩ :=
          @lane_level1ValuHeader t mem e v node hlevel hnodes hfull hv hknows
        exact ⟨e', by simpa [roundHeaderStmts, hspecial] using hrun, hv', hidx'.trans hknows⟩
      · obtain ⟨e', hrun, hv', hidx'⟩ :=
          @lane_level1Header t mem e v node hlevel hnodes hfull hv hknows
        exact ⟨e', by simpa [roundHeaderStmts, hspecial] using hrun, hv', hidx'.trans hknows⟩
  | 2 =>
      have htemp (temp : String) (h : temp ∈ ["temp1", "temp2", "temp3", "temp4"]) :=
        @lane_level2Header t mem e v node temp h hlevel hnodes hfull hv hknows.1 hknows.2
      have hstmts : ∃ temp ∈ ["temp1", "temp2", "temp3", "temp4"],
          roundHeaderStmts n 2 r tid = level2HeaderStmts temp := by
        by_cases hspecial : (tid : ℤ) ∈ rangeSet 0 32 2 <;> by_cases hr : r = 2 <;>
          simp [roundHeaderStmts, hspecial, hr]
      obtain ⟨temp, h, hstmts⟩ := hstmts
      rw [hstmts]
      exact htemp temp h
  | 3 =>
      by_cases hspecial : (tid : ℤ) ∈ (if r = 3 then rangeSet 2 n 1 else rangeSet 0 n 1)
      · obtain ⟨e', hrun, hv', hidx'⟩ :=
          @lane_level3FlowBasedHeader t mem e v node hlevel hnodes hfull hv hknows
        exact ⟨e', by simpa [roundHeaderStmts, hspecial] using hrun, hv', hidx'.trans hknows⟩
      · obtain ⟨e', hrun, hv', hidx'⟩ :=
          @lane_level3Header t mem e v node hmem hfits hnode hv hknows
        exact ⟨e', by simpa [roundHeaderStmts, hspecial] using hrun, hv', hidx'.trans hknows⟩
  | level + 4 =>
      obtain ⟨e', hrun, hv', hidx'⟩ := @lane_level3Header t mem e v node hmem hfits hnode hv hknows
      exact ⟨e', by simpa [roundHeaderStmts] using hrun, hv', hidx'.trans hknows⟩

end Pieces

section Rounds

variable {t : Tree} {mem : List Word} {e : LaneStore} {item : ℕ × ℕ} {height rounds r n tid : ℕ}

/-- The vectors that a thread assigns in its rounds. -/
def laneVars : List String := ["v", "idx", "p1", "p2", "temp1", "temp2", "temp3", "temp4"]

theorem target_computation : ∀ stmt ∈ computationStmts, ∃ x ∈ laneVars, stmt.target = some x := by
  decide

theorem target_header (n level r tid : ℕ) :
    ∀ stmt ∈ roundHeaderStmts n level r tid, ∃ x ∈ laneVars, stmt.target = some x := by
  unfold roundHeaderStmts
  split_ifs <;> decide

theorem target_footer (level : ℕ) :
    ∀ stmt ∈ roundFooterStmts level, ∃ x ∈ laneVars, stmt.target = some x := by
  unfold roundFooterStmts
  split_ifs <;> decide

theorem target_round (stmt : PlainStmt) (h : stmt ∈ roundStmts height n rounds r tid) :
    ∃ x ∈ laneVars, stmt.target = some x := by
  rw [roundStmts] at h
  obtain h | h := List.mem_append.mp h
  · obtain h | h := List.mem_append.mp h
    · exact target_header _ _ _ _ stmt h
    · exact target_computation stmt h
  · split at h
    · cases h
    · exact target_footer _ stmt h

theorem laneExec_of_not_laneVars {stmts : List PlainStmt} {e' : LaneStore} {x : String}
    (htargets : ∀ stmt ∈ stmts, ∃ x ∈ laneVars, stmt.target = some x)
    (h : stmts.foldlM (PlainStmt.laneExec mem) e = some e') (hx : x ∉ laneVars) : e' x = e x := by
  refine laneExec_of_not_target h fun hmem => ?_
  obtain ⟨stmt, hstmt, hx'⟩ := List.mem_map.mp hmem
  obtain ⟨y, hy, hy'⟩ := htargets stmt hstmt
  obtain rfl := Option.some.inj (hy'.symm.trans hx')
  exact hx hy

theorem not_mem_laneVars {k : ℕ} {name : String} (h : name ∈ nodeVars[k]?) : name ∉ laneVars := by
  have hall : ∀ name ∈ nodeVars, name ∉ laneVars := by decide
  exact hall name (List.mem_of_getElem? h)

/-- A lane before round `r`, or after the last one. -/
structure AtRound (t : Tree) (height rounds r : ℕ) (item : ℕ × ℕ) (e : LaneStore) : Prop where
  nodes : HoldsNodes t e
  value : e "v" = some (BitVec.ofNat 32 item.2)
  level : r < rounds → OnLevel (r % (height + 1)) item.1 ∧ Knows (r % (height + 1)) item.1 e

theorem succ_mod (r height : ℕ) : (r + 1) % (height + 1) =
    if r % (height + 1) = height then 0 else r % (height + 1) + 1 := by
  have hlt : r % (height + 1) < height + 1 := Nat.mod_lt r (Nat.succ_pos _)
  have hdiv := Nat.div_add_mod r (height + 1)
  split
  · rename_i h
    have heq : r + 1 = (height + 1) * (r / (height + 1) + 1) := by
      rw [Nat.mul_add, Nat.mul_one]
      omega
    rw [heq, Nat.mul_mod_right]
  · have heq : r + 1 = (height + 1) * (r / (height + 1)) + (r % (height + 1) + 1) := by omega
    rw [heq, Nat.mul_add_mod, Nat.mod_eq_of_lt (by omega)]

theorem HoldsNodes.of_targets {stmts : List PlainStmt} {e' : LaneStore} (h : HoldsNodes t e)
    (htargets : ∀ stmt ∈ stmts, ∃ x ∈ laneVars, stmt.target = some x)
    (hrun : stmts.foldlM (PlainStmt.laneExec mem) e = some e') : HoldsNodes t e' :=
  fun k hk name hname => (laneExec_of_not_laneVars htargets hrun (not_mem_laneVars hname)).trans
    (h k hk name hname)

theorem Finds.congr {level node : ℕ} {e' : LaneStore} (h : Finds level node e)
    (hidx : e' "idx" = e "idx") : Finds level node e' := by
  match level with
  | 0 => trivial
  | 1 => exact hidx.trans h
  | level + 2 => exact hidx.trans h

theorem nextIdx_eq (nNodes idx val : ℕ) : nextIdx nNodes idx val =
    if nNodes ≤ 2 * idx + 1 + val % 2 then 0 else 2 * idx + 1 + val % 2 := by
  unfold nextIdx
  dsimp only
  split_ifs <;> omega

/-- A round of a lane is a visit of its item. -/
theorem lane_round (hperfect : t.values.length = 2 ^ (height + 1) - 1)
    (hmem : ∀ k < t.values.length, mem[7 + k]? = some (nodeWord t k))
    (hfits : 7 + t.values.length ≤ 2 ^ 32) (hr : r < rounds)
    (h : AtRound t height rounds r item e) :
    ∃ e', (roundStmts height n rounds r tid).foldlM (PlainStmt.laneExec mem) e = some e' ∧
      AtRound t height rounds (r + 1) (descend t item) e' := by
  obtain ⟨hlevel, hknows⟩ := h.level hr
  obtain ⟨level, hlevelEq⟩ : ∃ level, level = r % (height + 1) := ⟨_, rfl⟩
  rw [← hlevelEq] at hlevel hknows
  have hle : level ≤ height := by
    have hlt : r % (height + 1) < height + 1 := Nat.mod_lt r (Nat.succ_pos _)
    omega
  have hpow : 2 ^ (level + 1) ≤ 2 ^ (height + 1) := Nat.pow_le_pow_right (by decide) (by omega)
  obtain ⟨e₁, hrun₁, hv₁, hfinds₁⟩ := @lane_header t mem e _ level item.1 n r tid hlevel h.nodes
    (by omega) hmem hfits h.value hknows
  obtain ⟨e₂, hrun₂, hv₂⟩ := @lane_computation mem e₁ _ hv₁
  have hnodes₂ := (h.nodes.of_targets (target_header _ _ _ _) hrun₁).of_targets target_computation
    hrun₂
  have hfinds₂ := hfinds₁.congr (laneExec_of_not_target hrun₂ (show _ ∉ _ by decide))
  have hv₂ : e₂ "v" = some (BitVec.ofNat 32 (descend t item).2) := by
    rw [hv₂, descend, ofNat_myhash, BitVec.ofNat_xor]
    rfl
  have hvalue : (BitVec.ofNat 32 (descend t item).2).toNat = (descend t item).2 := by
    rw [BitVec.toNat_ofNat]
    exact Nat.mod_eq_of_lt (myhash_lt _)
  have hnext : (descend t item).1 = nextIdx t.values.length item.1 (descend t item).2 := rfl
  rw [nextIdx_eq] at hnext
  obtain ⟨hlow, hhigh⟩ := hlevel
  have hdouble : 2 ^ (level + 1) = 2 * 2 ^ level := Nat.pow_succ'
  have hdouble' : 2 ^ (level + 1 + 1) = 2 * 2 ^ (level + 1) := Nat.pow_succ'
  by_cases hlast : level = height ∨ r = rounds - 1
  · refine ⟨e₂, ?_, hnodes₂, hv₂, fun hr' => ?_⟩
    · simp only [roundStmts, ← hlevelEq, hlast, if_true, List.append_nil, List.foldlM_append, hrun₁,
        Option.bind_eq_bind, Option.bind_some, hrun₂]
    · obtain rfl : level = height := hlast.resolve_right (by omega)
      rw [succ_mod, if_pos hlevelEq.symm, hnext, if_pos (by omega)]
      exact ⟨⟨by decide, by decide⟩, trivial⟩
  · obtain ⟨e₃, hrun₃, hv₃, hknows₃⟩ := @lane_footer mem e₂ _ level item.1 ⟨hlow, hhigh⟩
      hfinds₂ hv₂
    refine ⟨e₃, ?_, hnodes₂.of_targets (target_footer _) hrun₃, hv₃, fun hr' => ?_⟩
    · simp only [roundStmts, ← hlevelEq, hlast, if_false, List.foldlM_append, hrun₁,
        Option.bind_eq_bind, Option.bind_some, hrun₂, hrun₃]
    · rw [not_or] at hlast
      have hdeep : 2 ^ (level + 1 + 1) ≤ 2 ^ (height + 1) :=
        Nat.pow_le_pow_right (by decide) (by omega)
      rw [succ_mod, if_neg (hlevelEq ▸ hlast.1), ← hlevelEq, hnext, if_neg (by omega), ← hvalue]
      refine ⟨⟨?_, ?_⟩, hknows₃⟩
      · omega
      · omega

/-- The rounds of a lane. -/
theorem lane_rounds (hperfect : t.values.length = 2 ^ (height + 1) - 1)
    (hmem : ∀ k < t.values.length, mem[7 + k]? = some (nodeWord t k))
    (hfits : 7 + t.values.length ≤ 2 ^ 32) (h : AtRound t height rounds 0 item e) {m : ℕ}
    (hm : m ≤ rounds) :
    ∃ e', ((List.range m).flatMap (roundStmts height n rounds · tid)).foldlM
        (PlainStmt.laneExec mem) e = some e' ∧
      AtRound t height rounds m ((descend t)^[m] item) e' := by
  induction m with
  | zero => exact ⟨e, rfl, h⟩
  | succ m ih =>
      obtain ⟨mid, hmid, hat⟩ := ih (Nat.le_of_succ_le hm)
      obtain ⟨e', hrun, hat'⟩ := @lane_round t mem mid _ height rounds m n tid hperfect hmem
        hfits hm hat
      refine ⟨e', ?_, ?_⟩
      · rw [List.range_succ, List.flatMap_append, List.flatMap_singleton, List.foldlM_append, hmid]
        exact hrun
      · rw [Function.iterate_succ_apply']
        exact hat'

end Rounds

end Explore.Takehome
