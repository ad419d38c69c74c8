import Explore.Lib.Lines
import Explore.Takehome.Dialects

/-!
# Blocks of statements

The statements of a thread as a text that other text may come before and after. Blank lines belong
to the statement before them, and spaces at the beginning of a line to its line break. So blocks
can be put one after the other, and can be indented.
-/

namespace Explore.Takehome.Parse.Grammar

open Peg Peg.Language Parse Lines

variable {α β : Type}

/-- Blank lines, and lines with comments only. -/
def Blank (w : Text) : Prop := ∃ ts as, (star nl : Language Token (List Text)) w ts as

/-- Statements, after blank lines. -/
def Block (w : Text) (stmts : List ThreadLocalStmt) : Prop := ∃ depth ts, (do
  let _ ← star nl
  star (threadLocalStmt .parsed depth) : Language Token (List ThreadLocalStmt)) w ts stmts

/-- Statements, after the end of a line. -/
def Body (w : Text) (stmts : List ThreadLocalStmt) : Prop := ∃ depth ts, (do
  nls
  star (threadLocalStmt .parsed depth) : Language Token (List ThreadLocalStmt)) w ts stmts

section Blanks

variable {L : Language Token α} {w w' : Text} {ts ts' : List Token} {as as' : List α}

theorem star_append (h : star L w ts as) (h' : star L w' ts' as') :
    star L (w ++ w') (ts ++ ts') (as ++ as') := by
  induction h with
  | nil => exact h'
  | cons hfirst _ ih =>
      rw [List.append_assoc, List.append_assoc]
      exact .cons hfirst ih

/-- A blank line has no tokens. -/
theorem nl_tokens {a : Text} (h : nl w ts a) : ts = [] := (nl_iff.mp ⟨a, h⟩).1

theorem star_nl_tokens {as : List Text} (h : star nl w ts as) : ts = [] := by
  induction h with
  | nil => rfl
  | cons hfirst _ ih => rw [nl_tokens hfirst, ih, List.append_nil]

/-- The end of a line, and blank lines after it. -/
theorem nls_iff {u : Unit} : nls w ts u ↔ ts = [] ∧ ∃ w₁ w₂ a, w = w₁ ++ w₂ ∧ nl w₁ [] a ∧
    Blank w₂ := by
  constructor
  · rintro ⟨w₁, w₂, ts₁, ts₂, lines, rfl, rfl, ⟨w₃, w₄, ts₃, ts₄, a, rfl, rfl, hfirst, w₅, w₆, ts₅,
      ts₆, as, rfl, rfl, hstar, rfl, rfl, rfl⟩, rfl, rfl, rfl⟩
    obtain rfl := nl_tokens hfirst
    obtain rfl := star_nl_tokens hstar
    exact ⟨rfl, w₃, w₅, a, by simp, hfirst, _, _, hstar⟩
  · rintro ⟨rfl, w₁, w₂, a, rfl, hfirst, ts, as, hstar⟩
    obtain rfl := star_nl_tokens hstar
    exact map_intro (bind_intro hfirst (map_intro hstar _)) _

theorem nls_tokens {u : Unit} (h : nls w ts u) : ts = [] := (nls_iff.mp h).1

theorem Blank.append (h : Blank w) (h' : Blank w') : Blank (w ++ w') := by
  obtain ⟨ts, as, h⟩ := h
  obtain ⟨ts', as', h'⟩ := h'
  exact ⟨_, _, star_append h h'⟩

theorem blank_newline : Blank newline := by
  obtain ⟨a, ha⟩ := nl_iff.mpr ⟨rfl, [], [], [], rfl, by simp, by simp, .inl rfl⟩
  exact ⟨_, _, star_single ha⟩

/-- Blank lines after a text still belong to it. -/
def EndsLine (L : Language Token α) : Prop :=
  ∀ w ts a w', L w ts a → Blank w' → L (w ++ w') ts a

namespace EndsLine

variable {M : α → Language Token β} {L' : Language Token α}

theorem nls : EndsLine nls := by
  intro w ts u w' hnls hblank
  obtain ⟨rfl, w₁, w₂, a, rfl, hfirst, hrest⟩ := nls_iff.mp hnls
  exact nls_iff.mpr ⟨rfl, w₁, w₂ ++ w', a, List.append_assoc .., hfirst, hrest.append hblank⟩

theorem bind (h : ∀ a, EndsLine (M a)) : EndsLine (L >>= M) := by
  rintro w ts b w' ⟨w₁, w₂, ts₁, ts₂, a, rfl, rfl, hL, hM⟩ hblank
  rw [List.append_assoc]
  exact bind_intro hL (h a _ _ _ _ hM hblank)

theorem map (h : EndsLine L) (f : α → β) : EndsLine (L >>= fun a => pure (f a)) := by
  rintro w ts b w' ⟨w₁, w₂, ts₁, ts₂, a, rfl, rfl, hL, rfl, rfl, rfl⟩ hblank
  rw [List.append_nil, List.append_nil]
  exact map_intro (h _ _ _ _ hL hblank) f

theorem orElse (h : EndsLine L) (h' : EndsLine L') : EndsLine (L <|> L') := by
  rintro w ts a w' (hL | hL) hblank
  · exact Or.inl (h _ _ _ _ hL hblank)
  · exact Or.inr (h' _ _ _ _ hL hblank)

theorem star (h : EndsLine L) (hstar : Language.star L w ts as) (hne : as ≠ [])
    (hblank : Blank w') : Language.star L (w ++ w') ts as := by
  induction hstar with
  | nil => exact absurd rfl hne
  | @cons w₁ w₂ ts₁ ts₂ a as hfirst hrest ih =>
      cases hrest with
      | nil =>
          rw [List.append_nil, List.append_nil]
          exact star_single (h _ _ _ _ hfirst hblank)
      | cons _ _ =>
          rw [List.append_assoc]
          exact .cons hfirst (ih (List.cons_ne_nil _ _))

end EndsLine

variable {d : Dialect}

theorem endsLine_keyword (text : Text) : EndsLine (keyword text) := .bind fun _ => .nls

theorem endsLine_variableDeclarationStmt : EndsLine (variableDeclarationStmt d) :=
  .orElse (.bind fun _ => .bind fun _ => .bind fun _ => .bind fun _ => EndsLine.nls.map _)
    (.bind fun _ => .bind fun _ => .bind fun _ => .bind fun _ => .bind fun _ => EndsLine.nls.map _)

theorem endsLine_assignmentStmt : EndsLine (assignmentStmt d) :=
  .orElse (.bind fun _ => .bind fun _ => .bind fun _ => EndsLine.nls.map _)
    (.bind fun _ => .bind fun _ => .bind fun _ => .bind fun _ => EndsLine.nls.map _)

theorem endsLine_globalProgram : EndsLine (globalProgram d) :=
  .bind fun _ => (endsLine_keyword _).map _

theorem endsLine_threadLocalStmt (depth : ℕ) : EndsLine (threadLocalStmt d depth) := by
  cases depth with
  | zero => exact fun _ _ _ _ h => h.elim
  | succ depth =>
      have hplain : EndsLine (plainStmt d) :=
        .orElse (EndsLine.map (.bind fun _ => .bind fun _ => endsLine_variableDeclarationStmt) _)
          (.orElse (endsLine_assignmentStmt.map _) ((endsLine_keyword _).map _))
      exact .orElse hplain (.bind fun _ => .bind fun _ => .bind fun _ => .bind fun _ =>
        (endsLine_keyword _).map _)

theorem threadLocalStmt_mono {depth depth' : ℕ} {stmt : ThreadLocalStmt}
    (h : threadLocalStmt d depth w ts stmt) (hle : depth ≤ depth') :
    threadLocalStmt d depth' w ts stmt := by
  induction depth generalizing depth' w ts stmt with
  | zero => exact h.elim
  | succ depth ih =>
      obtain ⟨depth', rfl⟩ := Nat.exists_eq_add_of_le' (Nat.one_le_of_lt hle)
      obtain h | h := h
      · exact Or.inl h
      · exact Or.inr (tidIfElseStmt_mono h (Nat.le_succ _) fun w ts a _ ha =>
          ih ha (Nat.le_of_succ_le_succ hle))

theorem stmts_mono {depth depth' : ℕ} {stmts : List ThreadLocalStmt}
    (h : star (threadLocalStmt d depth) w ts stmts) (hle : depth ≤ depth') :
    star (threadLocalStmt d depth') w ts stmts :=
  star_mono h (Nat.le_refl _) fun _ _ _ _ ha => threadLocalStmt_mono ha hle

end Blanks

section Widened

variable {L : Language Token α} {M : α → Language Token β} {w w' : Text} {ts : List Token}

/-- The texts of a production are parts of a line. -/
def OneLine (L : Language Token α) : Prop :=
  ∀ w ts a, L w ts a → ∀ c ∈ w, isLineBreak c = false

namespace OneLine

theorem pure (a : α) : OneLine (pure a : Language Token α) := by
  rintro w ts b ⟨rfl, -, -⟩
  exact List.forall_mem_nil _

theorem bind (h : OneLine L) (h' : ∀ a, OneLine (M a)) : OneLine (L >>= M) := by
  rintro w ts b ⟨w₁, w₂, ts₁, ts₂, a, rfl, rfl, hL, hM⟩
  exact List.forall_mem_append.mpr ⟨h _ _ _ hL, h' a _ _ _ hM⟩

theorem orElse {L' : Language Token α} (h : OneLine L) (h' : OneLine L') : OneLine (L <|> L') := by
  rintro w ts a (hL | hL)
  · exact h _ _ _ hL
  · exact h' _ _ _ hL

theorem opt (h : OneLine L) : OneLine (opt L) := by
  intro w ts a hL
  cases a with
  | none =>
      obtain ⟨rfl, -⟩ := hL
      exact List.forall_mem_nil _
  | some a => exact h _ _ _ hL

theorem star (h : OneLine L) : OneLine (star L) := by
  intro w ts as hL
  induction hL with
  | nil => exact List.forall_mem_nil _
  | cons hfirst _ ih => exact List.forall_mem_append.mpr ⟨h _ _ _ hfirst, ih⟩

theorem token (f : α → Token) (h : OneLine L) : OneLine (token f L) := by
  rintro w ts a ⟨ts', hL, -⟩
  exact h _ _ _ hL

theorem lit {string : Text} (h : ∀ c ∈ string, isLineBreak c = false) :
    OneLine (lit string : Language Token Text) := by
  rintro w ts a ⟨rfl, -, -⟩
  exact h

theorem char {P : Char → Bool} (h : ∀ c, P c = true → isLineBreak c = false) :
    OneLine (char P : Language Token Char) := by
  rintro w ts a ⟨rfl, -, ha⟩
  exact List.forall_mem_singleton.mpr (h a ha)

theorem chars {P : Char → Bool} (h : ∀ c, P c = true → isLineBreak c = false) :
    OneLine (chars P : Language Token Text) := by
  rintro w ts a ⟨-, -, hw⟩
  exact fun c hc => h c (hw c hc)

end OneLine

theorem isLineBreak_of_isLetter {c : Char} (h : isLetter c = true) : isLineBreak c = false := by
  by_contra hbreak
  rw [Bool.not_eq_false, isLineBreak, decide_eq_true_eq] at hbreak
  rw [← Char.ofNat_toNat c] at h
  simp only [List.mem_cons, List.not_mem_nil, or_false] at hbreak
  obtain hc | hc | hc | hc | hc | hc | hc | hc | hc | hc := hbreak <;> rw [hc] at h <;>
    exact absurd h (by decide)

theorem isLineBreak_of_isSpace {c : Char} (h : isSpace c = true) : isLineBreak c = false := by
  rw [of_decide_eq_true h]
  decide

theorem oneLine_optSpace : OneLine optSpace := .chars fun _ => isLineBreak_of_isSpace

theorem oneLine_space : OneLine space :=
  .bind (.char fun _ => isLineBreak_of_isSpace) fun _ =>
    .bind (.chars fun _ => isLineBreak_of_isSpace) fun _ => .pure _

theorem oneLine_spaced {L : Language Token Text} (h : OneLine L) : OneLine (spaced L) :=
  .bind oneLine_optSpace fun _ => .bind h fun _ => .bind oneLine_optSpace fun _ => .pure _

theorem oneLine_variableName : OneLine variableName :=
  .token _ (.bind (.char fun _ h => isLineBreak_of_isLetter (by simp [isLetter, h])) fun _ =>
    .bind (.star (.char fun _ => isLineBreak_of_isLetter)) fun _ => .pure _)

theorem OneLine.plus (h : OneLine L) : OneLine (plus L) :=
  .bind h fun _ => .bind (.star h) fun _ => .pure _

theorem oneLine_intConstantExpr : OneLine intConstantExpr := by
  refine .token _ (.orElse ?_ ?_)
  · exact .bind (.lit (by decide)) fun _ => .bind (.plus (.char fun c h =>
      isLineBreak_of_isLetter (isLetter_of_isHexDigit h))) fun _ => .pure _
  · exact .bind (.opt (.lit (by decide))) fun _ => .bind (.plus (.char fun c h =>
      isLineBreak_of_isLetter (isLetter_of_isDigit h))) fun _ => .pure _

theorem oneLine_operator : OneLine operator :=
  .token _ (.orElse (.lit (by decide)) (.orElse (.lit (by decide)) (.orElse (.lit (by decide))
    (.orElse (.lit (by decide)) (.orElse (.lit (by decide)) (.orElse (.lit (by decide))
      (.orElse (.lit (by decide)) (.lit (by decide)))))))))

theorem oneLine_varOrConst : OneLine varOrConst :=
  .orElse (.bind oneLine_variableName fun _ => .pure _)
    (.bind oneLine_intConstantExpr fun _ => .pure _)

theorem oneLine_condExpr : OneLine condExpr :=
  .orElse (.bind oneLine_varOrConst fun _ => .bind (oneLine_spaced (.token _ (.orElse
      (.lit (by decide)) (.lit (by decide))))) fun _ => .bind oneLine_varOrConst fun _ => .pure _)
    (.bind oneLine_variableName fun _ => .pure _)

theorem oneLine_index : OneLine (index .parsed) :=
  .bind (.lit (by decide)) fun _ => .bind oneLine_intConstantExpr fun _ =>
    .bind (.opt (.lit (by decide))) fun _ => .pure _

theorem oneLine_valueExpr : OneLine (valueExpr .parsed) := by
  refine .orElse ?_ (.orElse ?_ (.orElse ?_ (.orElse ?_ (.orElse ?_ (.orElse ?_ (.orElse ?_ ?_))))))
  · exact .bind oneLine_condExpr fun _ => .bind (oneLine_spaced (.lit (by decide))) fun _ =>
      .bind oneLine_varOrConst fun _ => .bind (oneLine_spaced (.lit (by decide))) fun _ =>
        .bind oneLine_varOrConst fun _ => .pure _
  · exact .bind oneLine_variableName fun _ => .bind (oneLine_spaced (.lit (by decide))) fun _ =>
      .bind oneLine_varOrConst fun _ => .bind (oneLine_spaced (.lit (by decide))) fun _ =>
        .bind oneLine_varOrConst fun _ => .pure _
  · exact .bind (.lit (by decide)) fun _ => .bind oneLine_variableName fun _ =>
      .bind (.lit (by decide)) fun _ => .bind (.lit (by decide)) fun _ => .pure _
  · exact .bind (.lit (by decide)) fun _ => .bind oneLine_variableName fun _ => .pure _
  · exact .bind (.lit (by decide)) fun _ => .bind oneLine_intConstantExpr fun _ => .pure _
  · exact .bind oneLine_varOrConst fun _ => .bind (oneLine_spaced oneLine_operator) fun _ =>
      .bind oneLine_varOrConst fun _ => .pure _
  · exact .bind oneLine_variableName fun _ => .bind (.opt oneLine_index) fun _ => .pure _
  · exact .bind oneLine_intConstantExpr fun _ => .pure _

theorem oneLine_tidRange : OneLine (tidRange .parsed) := by
  have hnext : OneLine nextInt := .bind (oneLine_spaced (.lit (by decide))) fun _ =>
    .bind oneLine_optSpace fun _ => .bind oneLine_intConstantExpr fun _ =>
      .bind oneLine_optSpace fun _ => .pure _
  exact .bind (.lit (by decide)) fun _ => .bind oneLine_optSpace fun _ =>
    .bind oneLine_intConstantExpr fun _ => .bind oneLine_optSpace fun _ =>
      .bind hnext.plus fun _ => .bind (.lit (by decide)) fun _ => .pure _

/-- A production does not mind spaces at the beginning of lines. -/
def Widens (L : Language Token α) : Prop :=
  ∀ w ts a w', L w ts a → Widened w w' → L w' ts a

namespace Widens

theorem of_oneLine (h : OneLine L) : Widens L := by
  intro w ts a w' hL hwide
  rw [hwide.eq_of_line (h _ _ _ hL)]
  exact hL

theorem pure (a : α) : Widens (pure a : Language Token α) := of_oneLine (.pure a)

theorem bind (h : Widens L) (h' : ∀ a, Widens (M a)) : Widens (L >>= M) := by
  rintro w ts b w' ⟨w₁, w₂, ts₁, ts₂, a, rfl, rfl, hL, hM⟩ hwide
  obtain ⟨w₁', w₂', rfl, hwide₁, hwide₂⟩ := hwide.split
  exact bind_intro (h _ _ _ _ hL hwide₁) (h' a _ _ _ _ hM hwide₂)

theorem orElse {L' : Language Token α} (h : Widens L) (h' : Widens L') : Widens (L <|> L') := by
  rintro w ts a w' (hL | hL) hwide
  · exact Or.inl (h _ _ _ _ hL hwide)
  · exact Or.inr (h' _ _ _ _ hL hwide)

theorem star (h : Widens L) : Widens (star L) := by
  intro w ts as w' hL hwide
  induction hL generalizing w' with
  | nil =>
      cases hwide
      exact .nil
  | cons hfirst _ ih =>
      obtain ⟨w₁', w₂', rfl, hwide₁, hwide₂⟩ := hwide.split
      exact .cons (h _ _ _ _ hfirst hwide₁) (ih _ hwide₂)

end Widens

/-- A wider line break is a line break. -/
theorem nl_widened {a : Text} (h : nl w ts a) (hwide : Widened w w') : ∃ a, nl w' ts a := by
  obtain ⟨rfl, before, comment, after, rfl, hbefore, hafter, hcomment⟩ := nl_iff.mp ⟨a, h⟩
  obtain ⟨before', w₂, rfl, hwide₁, hwide₂⟩ := hwide.split
  obtain ⟨comment', w₄, rfl, hwide₃, hwide₄⟩ := hwide₂.split
  obtain rfl := hwide₁.eq_of_line fun c hc => isLineBreak_of_isSpace (hbefore c hc)
  cases hwide₄ with
  | @cons _ after' _ spaces _ hwide₅ =>
      obtain rfl := hwide₅.eq_of_line fun c hc => isLineBreak_of_isSpace (hafter c hc)
      refine nl_iff.mpr ⟨rfl, before', comment', _, rfl, hbefore, ?_, ?_⟩
      · refine List.forall_mem_append.mpr ⟨fun c hc => ?_, hafter⟩
        rw [List.eq_of_mem_replicate hc]
        rfl
      · obtain rfl | ⟨cs, rfl, hcs⟩ := hcomment
        · cases hwide₃
          exact .inl rfl
        · cases hwide₃ with
          | @cons _ cs' _ spaces' _ hwide₆ =>
              refine .inr ⟨_, rfl, List.forall_mem_append.mpr ⟨fun c hc => ?_, fun c hc => ?_⟩⟩
              · rw [List.eq_of_mem_replicate hc]
                decide
              · obtain hc | rfl := mem_of_widened hwide₆ hc
                · exact hcs c hc
                · decide

theorem Blank.widened (h : Blank w) (hwide : Widened w w') : Blank w' := by
  obtain ⟨ts, as, h⟩ := h
  induction h generalizing w' with
  | nil =>
      cases hwide
      exact ⟨_, _, .nil⟩
  | cons hfirst _ ih =>
      obtain ⟨w₁', w₂', rfl, hwide₁, hwide₂⟩ := hwide.split
      obtain ⟨a, ha⟩ := nl_widened hfirst hwide₁
      obtain ⟨ts', as', h'⟩ := ih hwide₂
      exact ⟨_, _, .cons ha h'⟩

theorem widens_nls : Widens nls := by
  intro w ts u w' hnls hwide
  obtain ⟨rfl, w₁, w₂, a, rfl, hfirst, hrest⟩ := nls_iff.mp hnls
  obtain ⟨w₁', w₂', rfl, hwide₁, hwide₂⟩ := hwide.split
  obtain ⟨a', ha'⟩ := nl_widened hfirst hwide₁
  exact nls_iff.mpr ⟨rfl, w₁', w₂', a', rfl, ha', hrest.widened hwide₂⟩

theorem widens_keyword {text : Text} (h : ∀ c ∈ text, isLineBreak c = false) :
    Widens (keyword text) := .bind (.of_oneLine (.lit h)) fun _ => widens_nls

theorem widens_variableDeclarationStmt : Widens (variableDeclarationStmt .parsed) := by
  have htype : OneLine variableType := .orElse (.lit (by decide)) (.lit (by decide))
  refine .orElse ?_ ?_
  · exact .bind (.of_oneLine htype) fun _ => .bind (.of_oneLine oneLine_space) fun _ =>
      .bind (.of_oneLine oneLine_variableName) fun _ => .bind (.of_oneLine (.star (.bind
        (oneLine_spaced (.lit (by decide))) fun _ => oneLine_variableName))) fun _ =>
          .bind widens_nls fun _ => .pure _
  · exact .bind (.of_oneLine htype) fun _ => .bind (.of_oneLine oneLine_space) fun _ =>
      .bind (.of_oneLine oneLine_variableName) fun _ => .bind (.of_oneLine (oneLine_spaced
        (.lit (by decide)))) fun _ => .bind (.of_oneLine oneLine_valueExpr) fun _ =>
          .bind widens_nls fun _ => .pure _

theorem widens_assignmentStmt : Widens (assignmentStmt .parsed) := by
  have hvalue (f : ValueExpr → AssignmentStmt) : Widens (do
      let _ ← spaced (lit ['='])
      let value ← valueExpr .parsed
      nls
      pure (f value)) :=
    .bind (.of_oneLine (oneLine_spaced (.lit (by decide)))) fun _ =>
      .bind (.of_oneLine oneLine_valueExpr) fun _ => .bind widens_nls fun _ => .pure _
  refine .orElse ?_ ?_
  · exact .bind (.of_oneLine oneLine_variableName) fun _ => hvalue _
  · exact .bind (.of_oneLine (.lit (by decide))) fun _ =>
      .bind (.of_oneLine oneLine_variableName) fun _ => hvalue _

theorem widens_threadLocalStmt (depth : ℕ) : Widens (threadLocalStmt .parsed depth) := by
  induction depth with
  | zero => exact fun _ _ _ _ h => h.elim
  | succ depth ih =>
      have hplain : Widens (plainStmt .parsed) := .orElse
        (.bind (.bind (.of_oneLine (.lit (by decide))) fun _ => .bind (.of_oneLine oneLine_space)
          fun _ => widens_variableDeclarationStmt) fun _ => .pure _)
        (.orElse (.bind widens_assignmentStmt fun _ => .pure _)
          (.bind (widens_keyword (by decide)) fun _ => .pure _))
      have hbranch {text : Text} (h : ∀ c ∈ text, isLineBreak c = false) :
          Widens (tidBranch .parsed text (threadLocalStmt .parsed depth)) :=
        .bind (.of_oneLine (.lit h)) fun _ => .bind (.of_oneLine oneLine_space) fun _ =>
          .bind (.of_oneLine oneLine_tidRange) fun _ => .bind widens_nls fun _ =>
            .bind (.star ih) fun _ => .pure _
      exact .orElse hplain (.bind (hbranch (by decide)) fun _ => .bind (.star (hbranch (by decide)))
        fun _ => .bind (widens_keyword (by decide)) fun _ => .bind (.star ih) fun _ =>
          .bind (widens_keyword (by decide)) fun _ => .pure _)

end Widened

section Blocks

variable {w w' : Text} {stmts stmts' : List ThreadLocalStmt}

theorem Block.nil (h : Blank w) : Block w [] := by
  obtain ⟨ts, as, h⟩ := h
  exact ⟨0, _, bind_end h .nil⟩

theorem Block.append_blank (h : Block w stmts) (hblank : Blank w') : Block (w ++ w') stmts := by
  obtain ⟨depth, ts, w₁, w₂, ts₁, ts₂, as, rfl, rfl, hlines, hstmts⟩ := h
  by_cases hne : stmts = []
  · subst hne
    cases hstmts
    rw [List.append_nil]
    exact .nil (Blank.append ⟨_, _, hlines⟩ hblank)
  · rw [List.append_assoc]
    exact ⟨depth, _, bind_intro hlines ((endsLine_threadLocalStmt depth).star hstmts hne hblank)⟩

/-- Blocks one after the other. -/
theorem Block.append (h : Block w stmts) (h' : Block w' stmts') :
    Block (w ++ w') (stmts ++ stmts') := by
  obtain ⟨depth', ts', w₁', w₂', ts₁', ts₂', as', rfl, rfl, hlines', hstmts'⟩ := h'
  obtain ⟨depth, ts, w₁, w₂, ts₁, ts₂, as, hw, rfl, hlines, hstmts⟩ :=
    h.append_blank ⟨_, _, hlines'⟩
  rw [← List.append_assoc, hw, List.append_assoc]
  exact ⟨max depth depth', _, bind_intro hlines (star_append
    (stmts_mono hstmts (Nat.le_max_left _ _)) (stmts_mono hstmts' (Nat.le_max_right _ _)))⟩

theorem Body.append_blank (h : Body w stmts) (hblank : Blank w') : Body (w ++ w') stmts := by
  obtain ⟨depth, ts, w₁, w₂, ts₁, ts₂, u, rfl, rfl, hnls, hstmts⟩ := h
  by_cases hne : stmts = []
  · subst hne
    cases hstmts
    rw [List.append_nil]
    exact ⟨0, _, bind_end (EndsLine.nls _ _ _ _ hnls hblank) .nil⟩
  · rw [List.append_assoc]
    exact ⟨depth, _, bind_intro hnls ((endsLine_threadLocalStmt depth).star hstmts hne hblank)⟩

theorem Body.block (h : Body w stmts) : Block w stmts := by
  obtain ⟨depth, ts, w₁, w₂, ts₁, ts₂, u, rfl, rfl, hnls, hstmts⟩ := h
  obtain ⟨rfl, w₃, w₄, a, rfl, hfirst, ts', as, hstar⟩ := nls_iff.mp hnls
  exact ⟨depth, _, bind_intro (.cons hfirst hstar) hstmts⟩

/-- Spaces at the end of a line. -/
theorem nls_spaces {before : Text} {ts : List Token} {u : Unit}
    (hbefore : ∀ c ∈ before, isSpace c = true) (h : nls w ts u) : nls (before ++ w) ts u := by
  obtain ⟨rfl, w₁, w₂, a, rfl, hfirst, hrest⟩ := nls_iff.mp h
  obtain ⟨-, before', comment, after, rfl, hbefore', hafter, hcomment⟩ := nl_iff.mp ⟨a, hfirst⟩
  obtain ⟨a', ha'⟩ := nl_iff.mpr ⟨rfl, before ++ before', comment, after, rfl,
    List.forall_mem_append.mpr ⟨hbefore, hbefore'⟩, hafter, hcomment⟩
  exact nls_iff.mpr ⟨rfl, _, w₂, a', by simp, ha', hrest⟩

theorem Body.spaces {before : Text} (hbefore : ∀ c ∈ before, isSpace c = true) (h : Body w stmts) :
    Body (before ++ w) stmts := by
  obtain ⟨depth, ts, w₁, w₂, ts₁, ts₂, u, rfl, rfl, hnls, hstmts⟩ := h
  rw [← List.append_assoc]
  exact ⟨depth, _, bind_intro (nls_spaces hbefore hnls) hstmts⟩

theorem Body.widened (h : Body w stmts) (hwide : Widened w w') : Body w' stmts := by
  obtain ⟨depth, ts, h⟩ := h
  exact ⟨depth, ts,
    Widens.bind widens_nls (fun _ => .star (widens_threadLocalStmt depth)) w ts stmts w' h hwide⟩

/-- Indented statements, with a line for each end. -/
theorem Body.indent (h : Body ('\n' :: w) stmts) (width : ℕ) :
    Body ('\n' :: Lines.indent width w ++ newline) stmts :=
  (h.widened (widened_indent width w (by decide))).append_blank blank_newline

/-- Statements after a line break. -/
theorem Block.body (h : Block w stmts) : Body ('\n' :: w) stmts := by
  obtain ⟨depth, ts, w₁, w₂, ts₁, ts₂, as, rfl, rfl, hlines, hstmts⟩ := h
  obtain ⟨a, ha⟩ := nl_iff.mpr ⟨rfl, [], [], [], rfl, by simp, by simp, .inl rfl⟩
  have hnls : nls ('\n' :: w₁) [] () := nls_iff.mpr ⟨rfl, ['\n'], w₁, a, rfl, ha, _, _, hlines⟩
  exact ⟨depth, _, bind_intro hnls hstmts⟩

end Blocks

end Explore.Takehome.Parse.Grammar
