import Explore.Takehome.Meaning
import Mathlib.Data.List.OfFn

/-!
# Lane by lane

A statement that computes a vector from vectors and constants does in every lane what it says
for single words. So straight-line code of such statements can be looked at in one lane.
-/

namespace Explore.Takehome

/-- What the vectors hold in one lane. -/
abbrev LaneStore := String → Option Word

def VarOrConstant.laneWord (e : LaneStore) : VarOrConstant → Option Word
  | .var name => e name
  | .const intconst => some (word intconst.toInt)

def Condition.laneWord (e : LaneStore) : Condition → Option Word
  | .var name => e name
  | .cmp left op right => do op.eval (← left.laneWord e) (← right.laneWord e)

/-- The value of an expression in one lane, for the expressions that are lane by lane. -/
def ValueExpr.laneEval (mem : List Word) (e : LaneStore) : ValueExpr → Option Word
  | .derefIndividualWords rname => do mem[(← e rname).toNat]?
  | .binOp left op right => do op.eval (← left.laneWord e) (← right.laneWord e)
  | .multAdd factor1 factor2 add => do
      return (← e factor1) * (← factor2.laneWord e) + (← add.laneWord e)
  | .select cond ifTrue ifFalse => do
      let c ← cond.laneWord e
      let a ← ifTrue.laneWord e
      let b ← ifFalse.laneWord e
      return if c ≠ 0 then a else b
  | .intConstant intconst => some (word intconst.toInt)
  | .derefVariable _ | .derefConstant _ | .variable .. => none

/-- An assignment in one lane. -/
def PlainStmt.laneExec (mem : List Word) (e : LaneStore) : PlainStmt → Option LaneStore
  | .loadVariable name value => do return Function.update e name (some (← value.laneEval mem e))
  | _ => none

/-- The variable that a statement assigns. -/
def PlainStmt.target : PlainStmt → Option String
  | .loadVariable name _ => some name
  | _ => none

/-- The lanes of the vectors of a state. -/
def State.lane (s : State) (i : Fin VLEN) : LaneStore := fun x =>
  (s.store x).bind fun ws => if ws.length = VLEN then ws[i.val]? else none

section Lanes

variable {s : State} {x : String}

theorem getElem?_ofFn (w : Fin VLEN → Word) (i : Fin VLEN) :
    (List.ofFn w)[i.val]? = some (w i) := by
  rw [List.getElem?_ofFn, dif_pos i.isLt]

/-- A vector is known from its lanes. -/
theorem store_of_lane {w : Fin VLEN → Word} (h : ∀ i, s.lane i x = some (w i)) :
    s.store x = some (List.ofFn w) := by
  obtain ⟨ws, hws, hfirst⟩ := Option.bind_eq_some_iff.mp (h ⟨0, by decide⟩)
  have hlength : ws.length = VLEN := by
    by_contra hne
    rw [if_neg hne] at hfirst
    cases hfirst
  rw [hws]
  refine congrArg some (List.ext_getElem (by rw [hlength, List.length_ofFn]) fun i hi _ => ?_)
  obtain ⟨ws', hws', hget⟩ := Option.bind_eq_some_iff.mp (h ⟨i, hlength ▸ hi⟩)
  obtain rfl := Option.some.inj (hws.symm.trans hws')
  rw [if_pos hlength, List.getElem?_eq_getElem hi] at hget
  rw [Option.some.inj hget, List.getElem_ofFn]

theorem lane_of_store {w : Fin VLEN → Word} (h : s.store x = some (List.ofFn w)) (i : Fin VLEN) :
    s.lane i x = some (w i) := by
  rw [State.lane, h, Option.bind_some, if_pos List.length_ofFn, getElem?_ofFn]

theorem lane_set (s : State) (x : String) (w : Fin VLEN → Word) (i : Fin VLEN) :
    (s.set x (List.ofFn w)).lane i = Function.update (s.lane i) x (some (w i)) := by
  funext y
  rw [State.lane, State.store_set, Function.update_apply]
  split
  · rw [Option.bind_some, if_pos List.length_ofFn, getElem?_ofFn]
  · rfl

/-- The words that a loop over the lanes collects. -/
theorem mapM_lanes {f : ℕ → Option Word} {w : Fin VLEN → Word} (h : ∀ i, f i.val = some (w i)) :
    (List.range VLEN).mapM f = some (List.ofFn w) := by
  have hall := @mapM_range_eq _ f (List.ofFn w) fun i hi => by
    rw [List.length_ofFn] at hi
    exact (h ⟨i, hi⟩).trans (getElem?_ofFn w ⟨i, hi⟩).symm
  rw [List.length_ofFn] at hall
  exact hall

theorem laneWords_ofFn {op : AluOp} {a b w : Fin VLEN → Word}
    (h : ∀ i, op.eval (a i) (b i) = some (w i)) :
    laneWords VLEN op (List.ofFn a) (List.ofFn b) = some (List.ofFn w) := by
  refine mapM_lanes fun i => ?_
  rw [getElem?_ofFn, getElem?_ofFn]
  exact h i

theorem words_of_lanes {op : VarOrConstant} {w : Fin VLEN → Word}
    (h : ∀ i, op.laneWord (s.lane i) = some (w i)) :
    op.words s.store VLEN = some (List.ofFn w) := by
  cases op with
  | var name => exact store_of_lane h
  | const intconst =>
      have hw : w = fun _ => word intconst.toInt := funext fun i => (Option.some.inj (h i)).symm
      rw [hw, List.ofFn_const]
      rfl

theorem condition_of_lanes {cond : Condition} {w : Fin VLEN → Word}
    (h : ∀ i, cond.laneWord (s.lane i) = some (w i)) :
    cond.words s.store VLEN = some (List.ofFn w) := by
  cases cond with
  | var name => exact store_of_lane h
  | cmp left op right =>
      choose a ha h using fun i => Option.bind_eq_some_iff.mp (h i)
      choose b hb h using fun i => Option.bind_eq_some_iff.mp (h i)
      rw [Condition.words, words_of_lanes ha, words_of_lanes hb]
      exact laneWords_ofFn h

/-- An expression has the value that it has in the lanes. -/
theorem eval_of_lanes {value : ValueExpr} {w : Fin VLEN → Word}
    (h : ∀ i, value.laneEval s.mem (s.lane i) = some (w i)) :
    value.eval s VLEN = some (List.ofFn w) := by
  cases value with
  | derefIndividualWords rname =>
      choose a ha h using fun i => Option.bind_eq_some_iff.mp (h i)
      rw [ValueExpr.eval, store_of_lane ha]
      refine (Option.bind_some ..).trans (mapM_lanes fun i => ?_)
      rw [getElem?_ofFn]
      exact h i
  | binOp left op right =>
      choose a ha h using fun i => Option.bind_eq_some_iff.mp (h i)
      choose b hb h using fun i => Option.bind_eq_some_iff.mp (h i)
      rw [ValueExpr.eval, words_of_lanes ha, words_of_lanes hb]
      exact laneWords_ofFn h
  | multAdd factor1 factor2 add =>
      choose a ha h using fun i => Option.bind_eq_some_iff.mp (h i)
      choose b hb h using fun i => Option.bind_eq_some_iff.mp (h i)
      choose c hc h using fun i => Option.bind_eq_some_iff.mp (h i)
      rw [ValueExpr.eval, store_of_lane ha, words_of_lanes hb, words_of_lanes hc]
      simp only [Option.bind_eq_bind, Option.bind_some]
      refine mapM_lanes fun i => ?_
      rw [getElem?_ofFn, getElem?_ofFn, getElem?_ofFn]
      exact h i
  | select cond ifTrue ifFalse =>
      choose c hc h using fun i => Option.bind_eq_some_iff.mp (h i)
      choose a ha h using fun i => Option.bind_eq_some_iff.mp (h i)
      choose b hb h using fun i => Option.bind_eq_some_iff.mp (h i)
      rw [ValueExpr.eval, condition_of_lanes hc, words_of_lanes ha, words_of_lanes hb]
      simp only [Option.bind_eq_bind, Option.bind_some]
      refine mapM_lanes fun i => ?_
      rw [getElem?_ofFn, getElem?_ofFn, getElem?_ofFn, ← h i]
      exact (apply_ite some (c i ≠ 0) (a i) (b i)).symm
  | intConstant intconst => exact @words_of_lanes s (.const intconst) w h
  | derefVariable rname => cases h ⟨0, by decide⟩
  | derefConstant intconst => cases h ⟨0, by decide⟩
  | «variable» rname index => cases h ⟨0, by decide⟩

end Lanes

section Exec

variable {lengthOf : String → Option ℕ} {mem : List Word}

/-- Code whose statements assign vectors does in every lane what it says there, and nothing
else. -/
theorem exec_of_lanes {stmts : List PlainStmt} {s : State} {e : Fin VLEN → LaneStore}
    (vectors : ∀ stmt ∈ stmts, ∀ x ∈ stmt.target, lengthOf x = some VLEN)
    (h : ∀ i, stmts.foldlM (PlainStmt.laneExec s.mem) (s.lane i) = some (e i)) :
    ∃ s', stmts.foldlM (PlainStmt.exec lengthOf) s = some s' ∧ s'.mem = s.mem ∧
      (∀ i, s'.lane i = e i) ∧ ∀ x, lengthOf x ≠ some VLEN → s'.store x = s.store x := by
  induction stmts generalizing s with
  | nil => exact ⟨s, rfl, rfl, fun i => Option.some.inj (h i), fun _ _ => rfl⟩
  | cons stmt stmts ih =>
      obtain ⟨hstmt, hstmts⟩ := List.forall_mem_cons.mp vectors
      simp only [List.foldlM_cons] at h
      cases stmt with
      | loadVariable name value =>
          choose e₁ he₁ h using fun i => Option.bind_eq_some_iff.mp (h i)
          choose w hw he₁ using fun i => Option.bind_eq_some_iff.mp (he₁ i)
          have hset (i : Fin VLEN) : (s.set name (List.ofFn w)).lane i = e₁ i :=
            (lane_set s name w i).trans (Option.some.inj (he₁ i))
          have hname := hstmt name rfl
          obtain ⟨s', hrun, hmem, hlanes, hothers⟩ := @ih (s.set name (List.ofFn w)) hstmts
            fun i => by
              rw [hset]
              exact h i
          refine ⟨s', ?_, hmem, hlanes, fun x hx => (hothers x hx).trans ?_⟩
          · rw [List.foldlM_cons, PlainStmt.exec, State.assign, hname]
            simp only [Option.bind_eq_bind, Option.bind_some, eval_of_lanes hw]
            exact hrun
          · rw [State.store_set, if_neg]
            rintro rfl
            exact hx hname
      | variableDeclaration varType name otherNames => cases h ⟨0, by decide⟩
      | variableDefinition varType name value => cases h ⟨0, by decide⟩
      | storeMemory name value => cases h ⟨0, by decide⟩
      | pause => cases h ⟨0, by decide⟩

/-- A variable that no statement assigns keeps its word. -/
theorem laneExec_of_not_target {stmts : List PlainStmt} {e e' : LaneStore} {x : String}
    (h : stmts.foldlM (PlainStmt.laneExec mem) e = some e')
    (hx : some x ∉ stmts.map PlainStmt.target) : e' x = e x := by
  induction stmts generalizing e with
  | nil => rw [Option.some.inj h]
  | cons stmt stmts ih =>
      rw [List.map_cons, List.mem_cons, not_or] at hx
      obtain ⟨e₁, he₁, h⟩ := Option.bind_eq_some_iff.mp h
      rw [ih h hx.2]
      cases stmt with
      | loadVariable name value =>
          obtain ⟨w, -, he₁⟩ := Option.bind_eq_some_iff.mp he₁
          rw [← Option.some.inj he₁]
          exact Function.update_of_ne (fun heq => hx.1 (congrArg some heq)) _ _
      | variableDeclaration varType name otherNames => cases he₁
      | variableDefinition varType name value => cases he₁
      | storeMemory name value => cases he₁
      | pause => cases he₁

end Exec

end Explore.Takehome
