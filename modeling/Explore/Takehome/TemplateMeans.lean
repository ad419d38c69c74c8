import Explore.Takehome.Branches
import Explore.Takehome.Meaning
import Explore.Takehome.ParsedProgram
import Explore.Takehome.RoundTrip
import Explore.Takehome.Template

/-!
# What a template means

An expanded template is read as an `iftid` with a branch for each run. The ranges of its branches
are apart, so lowering has in force for a branch exactly the threads that execute it: a thread gets
the special statements if it is special, and the standard ones if it is not.
-/

namespace Explore.Takehome

open Lines Peg Parse

section Decimal

variable {n : ℤ} {run : ℤ × ℤ}

theorem decimal_natCast (k : ℕ) : decimal k = Nat.toDigits 10 k := Nat.toList_repr

theorem isDigit_of_mem_decimal (h : 0 ≤ n) {c : Char} (hc : c ∈ decimal n) :
    Parse.isDigit c = true := by
  obtain ⟨k, rfl⟩ := Int.eq_ofNat_of_zero_le h
  rw [decimal_natCast] at hc
  have hdigit := Nat.isDigit_of_mem_toDigits (by decide) (by decide) hc
  rw [Char.isDigit, Bool.and_eq_true, decide_eq_true_eq, decide_eq_true_eq] at hdigit
  rw [Parse.isDigit, Bool.and_eq_true, decide_eq_true_eq, decide_eq_true_eq]
  exact hdigit

theorem isNumber_decimal (h : 0 ≤ n) : Grammar.IsNumber (decimal n) := by
  refine ⟨[], decimal n, rfl, .inl rfl, ?_, fun c => isDigit_of_mem_decimal h⟩
  obtain ⟨k, rfl⟩ := Int.eq_ofNat_of_zero_le h
  rw [decimal_natCast]
  exact Nat.toDigits_ne_nil

/-- The number that is read where a number was written. -/
theorem toInt_decimal (h : 0 ≤ n) :
    (Parse.IntConstantExpr.numberString (decimal n)).translate.toInt = n := by
  have hdigit := fun c => @isDigit_of_mem_decimal n h c
  obtain ⟨k, rfl⟩ := Int.eq_ofNat_of_zero_le h
  have hminus : ¬ (decimal k).head? = some '-' := by
    intro hhead
    exact absurd (hdigit '-' (List.mem_of_mem_head? hhead)) (by decide)
  have hvalue (ds : List Char) (hds : ∀ c ∈ ds, Parse.isDigit c = true) (init : ℕ) :
      ((ds.map fun c => Fin.ofNat 10 (digitValue c)).map Fin.val).foldl
        (fun value digit => value * 10 + digit) init = Nat.ofDigitChars 10 ds init := by
    induction ds generalizing init with
    | nil => rfl
    | cons c ds ih =>
        obtain ⟨hc, hds⟩ := List.forall_mem_cons.mp hds
        have hlt : digitValue c < 10 := by
          rw [digitValue, if_pos hc]
          simp only [Parse.isDigit, Bool.and_eq_true, decide_eq_true_eq, Char.le_def] at hc
          have h9 : c.toNat ≤ 57 := hc.2
          change c.toNat - 48 < 10
          omega
        rw [List.map_cons, List.map_cons, List.foldl_cons, Nat.ofDigitChars_cons, ih hds]
        congr 1
        rw [Fin.val_ofNat, Nat.mod_eq_of_lt hlt, digitValue, if_pos hc, Nat.mul_comm]
  simp only [IntConstantExpr.translate, hminus, decide_false, Bool.false_eq_true, if_false,
    IntConstantExpr.toInt, ofDigits]
  rw [hvalue _ hdigit 0, decimal_natCast, Nat.ofDigitChars_ten_toDigits]

theorem not_mem_decimal (h : 0 ≤ n) : '$' ∉ decimal n :=
  fun hmem => absurd (isDigit_of_mem_decimal h hmem) (by decide)

theorem not_mem_rangeOf (h : 0 ≤ run.1 ∧ 0 ≤ run.2) : '$' ∉ rangeOf run := by
  refine List.not_mem_append (List.not_mem_append (List.not_mem_append (List.not_mem_append ?_ ?_)
    ?_) ?_) ?_
  · decide +kernel
  · exact not_mem_decimal h.1
  · decide +kernel
  · exact not_mem_decimal h.2
  · decide +kernel

end Decimal

section Using

variable {runs specials standards : List (ℤ × ℤ)} {new rest : Text}

theorem replace_special_skip {w : Text} (hw : '$' ∉ w) (new rest : Text) :
    replace specialMark new (w ++ rest) = w ++ replace specialMark new rest :=
  replace_append_of_not_mem new rest hw

theorem replace_standard_skip {w : Text} (hw : '$' ∉ w) (new rest : Text) :
    replace standardMark new (w ++ rest) = w ++ replace standardMark new rest :=
  replace_append_of_not_mem new rest hw

/-- The mark for standard statements is not one for special ones. -/
theorem replace_otherMark (new rest : Text) :
    replace specialMark new (standardMark ++ ['\n'] ++ rest) =
      standardMark ++ ['\n'] ++ replace specialMark new rest := by
  rfl

/-- The text before the statements of a branch has no marks. -/
theorem not_mem_head {kw : Text} (hkw : '$' ∉ kw) {range : Text} (hrange : '$' ∉ range) :
    '$' ∉ kw ++ range ++ ['\n'] :=
  List.not_mem_append (List.not_mem_append hkw hrange) (by decide)

theorem not_mem_ite {p : Prop} [Decidable p] {v w : Text} (hv : '$' ∉ v) (hw : '$' ∉ w) :
    '$' ∉ if p then v else w := by
  split
  · exact hv
  · exact hw

theorem replace_specials (h : ∀ run ∈ runs, 0 ≤ run.1 ∧ 0 ≤ run.2) (new rest : Text) :
    replace specialMark new (specialBranches specialMark runs ++ rest) =
      specialBranches new runs ++ replace specialMark new rest := by
  refine replace_flatMap fun x hx rest => ?_
  have hrun := h x.1 (List.fst_mem_of_mem_zipIdx hx)
  exact replace_marked new rest (not_mem_head (not_mem_ite (by decide)
    (by decide)) (not_mem_rangeOf hrun)) (by decide)

theorem not_mem_standardHead (idx : ℕ) {run : ℤ × ℤ} (hrun : 0 ≤ run.1 ∧ 0 ≤ run.2) (last : ℕ) :
    '$' ∉ (if idx < last then (elIfTidText ++ [' ']) else (elseTidText ++ [' '])) ++
      (if idx < last then rangeOf run else []) ++ ['\n'] :=
  not_mem_head (not_mem_ite (by decide) (by decide))
    (not_mem_ite (not_mem_rangeOf hrun) List.not_mem_nil)

theorem replace_standards (h : ∀ run ∈ runs, 0 ≤ run.1 ∧ 0 ≤ run.2) (new rest : Text) :
    replace standardMark new (standardBranches standardMark runs ++ rest) =
      standardBranches new runs ++ replace standardMark new rest := by
  refine replace_flatMap fun x hx rest => ?_
  have hrun := h x.1 (List.fst_mem_of_mem_zipIdx hx)
  exact replace_marked new rest (not_mem_standardHead x.2 hrun _) (by decide)

/-- The branches for standard threads wait for the other replacement. -/
theorem replace_waiting (h : ∀ run ∈ runs, 0 ≤ run.1 ∧ 0 ≤ run.2) (new rest : Text) :
    replace specialMark new (standardBranches standardMark runs ++ rest) =
      standardBranches standardMark runs ++ replace specialMark new rest := by
  refine replace_flatMap fun x hx rest => ?_
  have hrun := h x.1 (List.fst_mem_of_mem_zipIdx hx)
  dsimp only
  rw [List.append_assoc _ standardMark, List.append_assoc _ _ rest, List.append_assoc _ _
    (replace specialMark new rest), replace_special_skip (not_mem_standardHead x.2 hrun _),
    replace_otherMark]

theorem not_mem_specialBranches (h : ∀ run ∈ runs, 0 ≤ run.1 ∧ 0 ≤ run.2) {text : Text}
    (htext : '$' ∉ text) : '$' ∉ specialBranches text runs := by
  intro hmem
  obtain ⟨x, hx, hmem⟩ := List.mem_flatMap.mp hmem
  have hrun := h x.1 (List.fst_mem_of_mem_zipIdx hx)
  exact List.not_mem_append (List.not_mem_append (not_mem_head (not_mem_ite (by decide)
    (by decide)) (not_mem_rangeOf hrun)) htext) (by decide) hmem

/-- The text of a template with branches of both kinds. -/
theorem using_eq (hspecials : ∀ run ∈ specials, 0 ≤ run.1 ∧ 0 ≤ run.2)
    (hstandards : ∀ run ∈ standards, 0 ≤ run.1 ∧ 0 ≤ run.2) {special : Text}
    (hspecial : '$' ∉ special) (standard : Text) :
    (Template.mk (['\n', '\n'] ++ specialBranches specialMark specials ++
        standardBranches standardMark standards ++ (endIfTidText ++ ['\n', '\n']))).using
          special standard =
      ['\n', '\n'] ++ (specialBranches (tidIndent special) specials ++
        (standardBranches (tidIndent standard) standards ++ (endIfTidText ++ ['\n', '\n']))) := by
  have hstart : '$' ∉ ['\n', '\n'] := by decide
  have hend : '$' ∉ (endIfTidText ++ ['\n', '\n']) := by decide
  have hindented : '$' ∉ tidIndent special :=
    not_mem_indent 4 (by decide) (by decide) hspecial
  have hbranches := not_mem_specialBranches hspecials hindented
  rw [Template.using]
  simp only [List.append_assoc]
  rw [replace_special_skip hstart, replace_specials hspecials, replace_waiting hstandards,
    replace_standard_skip hstart, replace_standard_skip hbranches, replace_standards hstandards,
    specialMark, replace_of_not_mem _ hend, standardMark, replace_of_not_mem _ hend]

/-- The text of a template without special threads. -/
theorem using_standard (special standard : Text) :
    (Template.mk (['\n'] ++ standardMark ++ ['\n'])).using special standard =
      '\n' :: tidIndent standard ++ newline := rfl

/-- The text of a template without standard threads. -/
theorem using_special {special : Text} (hspecial : '$' ∉ special) (standard : Text) :
    (Template.mk (['\n'] ++ specialMark ++ ['\n'])).using special standard =
      '\n' :: tidIndent special ++ newline := by
  have hindented : '$' ∉ '\n' :: tidIndent special ++ newline :=
    List.not_mem_append (List.not_mem_cons_of_ne_of_not_mem (by decide)
      (not_mem_indent 4 (by decide) (by decide) hspecial)) (by decide)
  exact replace_of_not_mem _ hindented

end Using

section Derived

open Grammar Peg.Language

variable {runs : List (ℤ × ℤ)} {run : ℤ × ℤ} {text w : Text} {stmts : List Parse.ThreadLocalStmt}

/-- A branch with a range that is not the first one. -/
def elifBranch (text : Text) (run : ℤ × ℤ) : Text :=
  (elIfTidText ++ [' ']) ++ rangeOf run ++ ['\n'] ++ text ++ ['\n']

theorem flatMap_zipIdx {α β : Type} {f : α × ℕ → List β} {g : α → List β} {xs : List α} (k : ℕ)
    (h : ∀ x i, k ≤ i → i < k + xs.length → f (x, i) = g x) :
    (xs.zipIdx k).flatMap f = xs.flatMap g := by
  induction xs generalizing k with
  | nil => rfl
  | cons x xs ih =>
      rw [List.zipIdx_cons, List.flatMap_cons, List.flatMap_cons,
        h x k (Nat.le_refl k) (by simp), ih (k + 1) fun x i hi hlt => h x i (by omega) (by
          rw [List.length_cons]
          omega)]

theorem specialBranches_cons (text : Text) (run : ℤ × ℤ) (runs : List (ℤ × ℤ)) :
    specialBranches text (run :: runs) =
      (ifTidText ++ [' ']) ++ rangeOf run ++ ['\n'] ++ text ++ ['\n'] ++
        runs.flatMap (elifBranch text) := by
  rw [specialBranches, List.zipIdx_cons, List.flatMap_cons]
  refine congrArg _ (flatMap_zipIdx (0 + 1) fun x i hi _ => ?_)
  dsimp only
  rw [if_pos (Nat.lt_of_lt_of_le Nat.zero_lt_one hi), elifBranch]

theorem standardBranches_snoc (text : Text) (runs : List (ℤ × ℤ)) (run : ℤ × ℤ) :
    standardBranches text (runs ++ [run]) =
      runs.flatMap (elifBranch text) ++
        ((elseTidText ++ [' ']) ++ ['\n'] ++ text ++ ['\n']) := by
  have hlast : (runs ++ [run]).length - 1 = runs.length := by simp
  rw [standardBranches, hlast, List.zipIdx_append, List.flatMap_append]
  congr 1
  · refine flatMap_zipIdx 0 fun x i _ hi => ?_
    rw [Nat.zero_add] at hi
    dsimp only
    rw [if_pos hi, if_pos hi, elifBranch]
  · simp

/-- What is read for a range that was written. -/
def rangeFor (run : ℤ × ℤ) : Parse.TidRange :=
  ⟨.numberString (decimal run.1), .numberString (decimal run.2)⟩

theorem rangeOf_eq (run : ℤ × ℤ) : rangeOf run = (rangeFor run).render := by
  simp [rangeOf, TidRange.render, rangeFor, IntConstantExpr.render]

theorem wellFormed_rangeFor (h : 0 ≤ run.1 ∧ 0 ≤ run.2) : (rangeFor run).WellFormed :=
  ⟨isNumber_decimal h.1, isNumber_decimal h.2⟩

/-- The statements of a body, with any number of levels from some on. -/
theorem body_depth (h : Body w stmts) : ∃ depth w₁ w₂ ts, w = w₁ ++ w₂ ∧ nls w₁ [] () ∧
    ∀ depth', depth ≤ depth' → star (threadLocalStmt .parsed depth') w₂ ts stmts := by
  obtain ⟨depth, ts, w₁, w₂, ts₁, ts₂, u, rfl, rfl, hnls, hstmts⟩ := h
  obtain rfl := nls_tokens hnls
  exact ⟨depth, w₁, w₂, ts₂, rfl, hnls, fun _ hle => stmts_mono hstmts hle⟩

theorem derived_branch {depth : ℕ} {w₁ w₂ : Text} {ts : List Token} (kw : Text)
    (hrun : 0 ≤ run.1 ∧ 0 ≤ run.2) (hnls : nls w₁ [] ())
    (hstmts : star (threadLocalStmt .parsed depth) w₂ ts stmts) :
    tidBranch .parsed kw (threadLocalStmt .parsed depth)
      (kw ++ ([' '] ++ (rangeOf run ++ (w₁ ++ w₂)))) ((rangeFor run).tokens ++ ts)
        (rangeFor run, stmts) := by
  rw [rangeOf_eq]
  exact bind_first (derived_lit kw) (bind_first derived_space (bind_intro
    (derived_tidRange (wellFormed_rangeFor hrun)) (bind_first hnls (map_intro hstmts _))))

/-- The branches of one kind. -/
theorem derived_elifs {depth : ℕ} {w₁ w₂ : Text} {ts : List Token}
    (hruns : ∀ run ∈ runs, 0 ≤ run.1 ∧ 0 ≤ run.2) (hnls : nls w₁ [] ())
    (hstmts : star (threadLocalStmt .parsed depth) w₂ ts stmts)
    (htext : '\n' :: text ++ newline = w₁ ++ w₂) :
    ∃ ts', star (tidBranch .parsed elIfTidText (threadLocalStmt .parsed depth))
      (runs.flatMap (elifBranch text)) ts' (runs.map fun run => (rangeFor run, stmts)) := by
  induction runs with
  | nil => exact ⟨_, .nil⟩
  | cons run runs ih =>
      obtain ⟨hrun, hruns⟩ := List.forall_mem_cons.mp hruns
      obtain ⟨ts', hrest⟩ := ih hruns
      have hbranch := derived_branch elIfTidText hrun hnls hstmts
      have hsame : elifBranch text run = elIfTidText ++ ([' '] ++ (rangeOf run ++ (w₁ ++ w₂))) := by
        rw [← htext, elifBranch, newline]
        simp only [List.append_assoc, List.cons_append, List.nil_append]
      rw [List.flatMap_cons, hsame]
      exact ⟨_, .cons hbranch hrest⟩

/-- The `iftid` of a template with branches of both kinds. -/
theorem block_branches {specials standards : List (ℤ × ℤ)} {first last : ℤ × ℤ}
    {special standard : Text} {ss ts : List Parse.ThreadLocalStmt}
    (hfirst : 0 ≤ first.1 ∧ 0 ≤ first.2) (hspecials : ∀ run ∈ specials, 0 ≤ run.1 ∧ 0 ≤ run.2)
    (hstandards : ∀ run ∈ standards, 0 ≤ run.1 ∧ 0 ≤ run.2)
    (hspecial : Body ('\n' :: special ++ newline) ss)
    (hstandard : Body ('\n' :: standard ++ newline) ts) :
    Block (['\n', '\n'] ++ (specialBranches special (first :: specials) ++
        (standardBranches standard (standards ++ [last]) ++ (endIfTidText ++ ['\n', '\n']))))
      [.tidIfElse (rangeFor first :: (specials ++ standards).map rangeFor)
        ((ss :: specials.map fun _ => ss) ++ (standards.map fun _ => ts) ++ [ts])] := by
  obtain ⟨depth₁, w₁, w₂, ts₁, hw₁, hnls₁, hstmts₁⟩ := body_depth hspecial
  obtain ⟨depth₂, w₃, w₄, ts₂, hw₂, hnls₂, hstmts₂⟩ := body_depth hstandard
  have hss := hstmts₁ _ (Nat.le_max_left depth₁ depth₂)
  have hts := hstmts₂ _ (Nat.le_max_right depth₁ depth₂)
  have hif := derived_branch ifTidText hfirst hnls₁ hss
  obtain ⟨ts₃, helifs⟩ := derived_elifs hspecials hnls₁ hss hw₁
  obtain ⟨ts₄, helifs'⟩ := derived_elifs hstandards hnls₂ hts hw₂
  have helse : keyword elseTidText (elseTidText ++ ([' '] ++ w₃)) [] () :=
    bind_first (derived_lit _) (nls_spaces (by simp [isSpace]) hnls₂)
  have hblank : Blank ['\n', '\n'] := blank_newline.append blank_newline
  have hend : keyword endIfTidText (endIfTidText ++ newline ++ newline) [] () := by
    rw [List.append_assoc]
    exact bind_first (derived_lit _) (EndsLine.nls _ _ _ _ derived_newline blank_newline)
  have hstmt : tidIfElseStmt .parsed (threadLocalStmt .parsed (max depth₁ depth₂))
      (_ ++ (_ ++ (_ ++ (_ ++ _)))) _ (.tidIfElse _ _) :=
    bind_intro hif (bind_intro (star_append helifs helifs') (bind_first helse
      (bind_intro hts (map_intro hend _))))
  have hthread : threadLocalStmt .parsed (max depth₁ depth₂ + 1) _ _ _ := Or.inr hstmt
  obtain ⟨ts', as, hlines⟩ := hblank
  have hblock : Block _ _ := ⟨_, _, bind_intro hlines (star_single hthread)⟩
  have hwhole (w : Text) : w₁ ++ (w₂ ++ w) = '\n' :: (special ++ '\n' :: w) := by
    rw [← List.append_assoc, ← hw₁, newline]
    simp
  have hwhole' (w : Text) : w₃ ++ (w₄ ++ w) = '\n' :: (standard ++ '\n' :: w) := by
    rw [← List.append_assoc, ← hw₂, newline]
    simp
  rw [specialBranches_cons, standardBranches_snoc]
  simp only [List.append_assoc, List.cons_append, List.nil_append, newline, hwhole, hwhole',
    List.map_append, List.map_map, Function.comp_def] at hblock ⊢
  exact hblock

end Derived

section Translate

variable {run : ℤ × ℤ} {parsed parsed' : List Parse.ThreadLocalStmt}
  {stmts stmts' : List ThreadLocalStmt}

/-- The range of a run. -/
def tidRangeFor (run : ℤ × ℤ) : TidRange := (rangeFor run).translate

theorem contains_tidRangeFor (h : 0 ≤ run.1 ∧ 0 ≤ run.2) (tid : ℤ) :
    (tidRangeFor run).contains tid = true ↔ run.1 ≤ tid ∧ tid < run.2 := by
  rw [TidRange.contains, decide_eq_true_eq]
  have hstart : (tidRangeFor run).start.toInt = run.1 := toInt_decimal h.1
  have hstop : (tidRangeFor run).stop.toInt = run.2 := toInt_decimal h.2
  rw [hstart, hstop]

theorem translateBranches_append {bs bs' : List (List Parse.ThreadLocalStmt)}
    {cs cs' : List (List ThreadLocalStmt)} (h : translateBranches bs = some cs)
    (h' : translateBranches bs' = some cs') : translateBranches (bs ++ bs') = some (cs ++ cs') := by
  induction bs generalizing cs with
  | nil =>
      obtain rfl := Option.some.inj h
      exact h'
  | cons b bs ih =>
      rw [translateBranches] at h
      obtain ⟨c, hc, h⟩ := Option.bind_eq_some_iff.mp h
      obtain ⟨cs, hcs, h⟩ := Option.bind_eq_some_iff.mp h
      obtain rfl := Option.some.inj h
      rw [List.cons_append, translateBranches, hc, ih hcs]
      rfl

theorem translateBranches_map {α : Type} (h : translateStmts parsed = some stmts) (xs : List α) :
    translateBranches (xs.map fun _ => parsed) = some (xs.map fun _ => stmts) := by
  induction xs with
  | nil => rfl
  | cons x xs ih =>
      rw [List.map_cons, translateBranches, h, ih]
      rfl

end Translate

section Flat

variable {numThreads : ℕ} {tid : ℤ}

/-- The statements of the first branch that a thread may take. -/
def chosen (tid : ℤ) : List TidRange → List (List PlainStmt) → List PlainStmt
  | _, [] => []
  | [], stmts :: _ => stmts
  | range :: ranges, stmts :: branches =>
      if range.contains tid then stmts else chosen tid ranges branches

/-- Two annotations of the same statements agree about all threads. -/
def Placed (numThreads : ℕ) : List (PlainStmt × TidSet) → List (PlainStmt × TidSet) → Prop :=
  List.Forall₂ fun x y => x.1 = y.1 ∧ ∀ tid : ℕ, tid < numThreads → x.2 tid = y.2 tid

theorem Placed.sameReach {xs ys : List (PlainStmt × TidSet)} (h : Placed numThreads xs ys) :
    SameReach numThreads xs ys :=
  h.imp fun _ _ hxy => ⟨hxy.1, fun _ => hxy.2⟩

theorem Placed.reachedBy_eq {xs ys : List (PlainStmt × TidSet)} (h : Placed numThreads xs ys)
    {tid : ℕ} (htid : tid < numThreads) : reachedBy tid xs = reachedBy tid ys := by
  induction h with
  | nil => rfl
  | cons hfirst _ ih =>
      rw [reachedBy, reachedBy, List.filter_cons, List.filter_cons, hfirst.2 tid htid]
      split
      · rw [List.map_cons, List.map_cons, hfirst.1]
        exact congrArg _ ih
      · exact ih

theorem inForceStmts_plain (tags : TidSet) (stmts : List PlainStmt) :
    inForceStmts numThreads tags (stmts.map .plain) = stmts.map (·, tags) := by
  induction stmts with
  | nil => rfl
  | cons stmt stmts ih =>
      rw [List.map_cons, inForceStmts]
      exact congrArg ((stmt, tags) :: ·) ih

theorem reachStmts_plain (tags : TidSet) (stmts : List PlainStmt) :
    reachStmts tags (stmts.map .plain) = stmts.map (·, tags) := by
  induction stmts with
  | nil => rfl
  | cons stmt stmts ih =>
      rw [List.map_cons, reachStmts, reachStmt, ih]
      rfl

theorem placed_map {tags refs : TidSet} (h : ∀ tid : ℕ, tid < numThreads → tags tid = refs tid)
    (stmts : List PlainStmt) : Placed numThreads (stmts.map (·, tags)) (stmts.map (·, refs)) := by
  induction stmts with
  | nil => exact .nil
  | cons stmt stmts ih => exact .cons ⟨rfl, h⟩ ih

theorem reachedBy_map {tags : TidSet} (h : tags tid = true) (stmts : List PlainStmt) :
    reachedBy tid (stmts.map (·, tags)) = stmts := by
  induction stmts with
  | nil => rfl
  | cons stmt stmts ih =>
      rw [reachedBy, List.map_cons, List.filter_cons, if_pos h, List.map_cons]
      exact congrArg _ ih

/-- Where no two ranges share a thread, what the code has in force for a branch are the threads
that execute it. -/
theorem placed_branches {ranges : List TidRange} {undecided remaining : TidSet}
    (same : ∀ tid : ℕ, tid < numThreads → remaining tid = undecided tid)
    (free : ∀ tid : ℕ, tid < numThreads → ∀ range ∈ ranges, range.contains tid = true →
      undecided tid = true)
    (apart : ranges.Pairwise fun r r' => ∀ tid : ℕ, r.contains tid = true → r'.contains tid = false)
    (branches : List (List PlainStmt)) :
    Placed numThreads
      (inForceBranches numThreads ranges remaining (branches.map (List.map .plain)))
      (reachBranches undecided ranges (branches.map (List.map .plain))) := by
  induction branches generalizing ranges undecided remaining with
  | nil => exact .nil
  | cons stmts branches ih =>
      rw [List.map_cons, inForceBranches, reachBranches, inForceStmts_plain, reachStmts_plain]
      cases ranges with
      | nil =>
          refine List.rel_append (placed_map (fun tid htid => ?_) stmts)
            (ih (fun tid htid => ?_) (fun _ _ _ h => by cases h) .nil)
          · simpa using same tid htid
          · simp [same tid htid]
      | cons range ranges =>
          obtain ⟨hapart, hpairs⟩ := List.pairwise_cons.mp apart
          simp only [List.head?_cons, Option.map_some, Option.getD_some, List.tail_cons]
          refine List.rel_append (placed_map (fun tid htid => ?_) stmts)
            (ih (fun tid htid => ?_) (fun tid htid other hother hin => ?_) hpairs)
          · cases hin : range.contains tid with
            | false => rw [Bool.and_false]
            | true => rw [free tid htid range List.mem_cons_self hin, Bool.and_true]
          · rw [same tid htid]
          · have hout : range.contains tid = false := by
              by_contra hne
              rw [hapart other hother tid (Bool.not_eq_false _ ▸ hne)] at hin
              cases hin
            rw [free tid htid other (List.mem_cons_of_mem _ hother) hin, hout]
            rfl

theorem reachedBy_branches {undecided : TidSet} (h : undecided tid = true)
    (ranges : List TidRange) (branches : List (List PlainStmt)) :
    reachedBy tid (reachBranches undecided ranges (branches.map (List.map .plain))) =
      chosen tid ranges branches := by
  induction branches generalizing ranges undecided with
  | nil => rw [chosen]; rfl
  | cons stmts branches ih =>
      rw [List.map_cons, reachBranches, reachedBy_append, reachStmts_plain]
      cases ranges with
      | nil =>
          rw [reachedBy_map (by simp [h]), reachedBy_branches_of_not (by simp), List.append_nil,
            chosen]
      | cons range ranges =>
          rw [chosen]
          cases hin : range.contains tid with
          | true =>
              rw [reachedBy_map (by simp [h, hin]), reachedBy_branches_of_not (by simp [hin]),
                List.append_nil]
              rfl
          | false =>
              rw [ih (by simp [h, hin]), ← reachStmts_plain, reachedBy_stmts_of_not (by simp [hin])]
              rfl

/-- A thread of the first runs takes their branch, and another one that of the others. -/
theorem chosen_runs {inner others : List TidRange} {special standard : List PlainStmt} :
    chosen tid (inner ++ others) ((inner.map fun _ => special) ++ (others.map fun _ => standard) ++
        [standard]) =
      if ∃ range ∈ inner, range.contains tid = true then special else standard := by
  induction inner with
  | nil =>
      rw [if_neg (by simp)]
      induction others with
      | nil => rfl
      | cons range others ih =>
          simp only [List.map_nil, List.nil_append, List.map_cons, List.cons_append] at ih ⊢
          rw [chosen, ih, ite_self]
  | cons range inner ih =>
      simp only [List.map_cons, List.cons_append] at ih ⊢
      rw [chosen, ih]
      by_cases hin : range.contains tid = true
      · rw [if_pos hin, if_pos ⟨range, List.mem_cons_self, hin⟩]
      · rw [if_neg hin]
        exact if_congr (by simp [hin]) rfl rfl

end Flat

section Partition

variable {size : ℕ} {specialNodes : Finset ℤ} {specials standards : List (ℤ × ℤ)} {S T : Text}
  {ss ts : List PlainStmt}

/-- Each thread has the statements of `f`: these are what lowering has in force for it, and what it
executes. -/
structure Gives (size : ℕ) (f : ℕ → List PlainStmt) (stmts : List ThreadLocalStmt) : Prop where
  placed : size ≤ 100 →
    Placed size (inForceStmts size INFINITE_SET stmts) (reachStmts (fun _ => true) stmts)
  reached : ∀ tid : ℕ, tid < size → reachedBy tid (reachStmts (fun _ => true) stmts) = f tid

theorem infinite_of_lt {tid : ℕ} (hlt : size ≤ 100) (htid : tid < size) :
    INFINITE_SET tid = true := decide_eq_true (by omega)

theorem afterStmt_infinite (stmt : ThreadLocalStmt) :
    afterStmt INFINITE_SET stmt = INFINITE_SET := by
  cases stmt with
  | plain stmt => rfl
  | tidIfElse ranges stmts => cases stmts <;> rfl

theorem inForceStmts_append (xs ys : List ThreadLocalStmt) :
    inForceStmts size INFINITE_SET (xs ++ ys) =
      inForceStmts size INFINITE_SET xs ++ inForceStmts size INFINITE_SET ys := by
  induction xs with
  | nil => rfl
  | cons x xs ih =>
      rw [List.cons_append, inForceStmts, inForceStmts, afterStmt_infinite, ih, List.append_assoc]

theorem reachStmts_append (outer : TidSet) (xs ys : List ThreadLocalStmt) :
    reachStmts outer (xs ++ ys) = reachStmts outer xs ++ reachStmts outer ys := by
  induction xs with
  | nil => rfl
  | cons x xs ih => rw [List.cons_append, reachStmts, reachStmts, ih, List.append_assoc]

theorem Gives.append {f g : ℕ → List PlainStmt} {xs ys : List ThreadLocalStmt}
    (h : Gives size f xs) (h' : Gives size g ys) :
    Gives size (fun tid => f tid ++ g tid) (xs ++ ys) where
  placed hlt := by
    rw [inForceStmts_append, reachStmts_append]
    exact List.rel_append (h.placed hlt) (h'.placed hlt)
  reached tid htid := by
    rw [reachStmts_append, reachedBy_append, h.reached tid htid, h'.reached tid htid]

theorem Gives.congr {f g : ℕ → List PlainStmt} {xs : List ThreadLocalStmt} (h : Gives size f xs)
    (same : ∀ tid, tid < size → f tid = g tid) : Gives size g xs :=
  ⟨h.placed, fun tid htid => (h.reached tid htid).trans (same tid htid)⟩

/-- Statements outside of `iftid` are for all threads. -/
theorem gives_plain (size : ℕ) (stmts : List PlainStmt) :
    Gives size (fun _ => stmts) (stmts.map .plain) where
  placed hlt := by
    rw [inForceStmts_plain, reachStmts_plain]
    exact placed_map (fun tid htid => infinite_of_lt hlt htid) stmts
  reached tid _ := by rw [reachStmts_plain, reachedBy_map rfl]

/-- The `iftid` of a template. -/
def templateStmt (specials standards : List (ℤ × ℤ)) (ss ts : List PlainStmt) : ThreadLocalStmt :=
  .tidIfElse ((specials ++ standards).map tidRangeFor)
    (((specials.map fun _ => ss) ++ (standards.map fun _ => ts) ++ [ts]).map (List.map .plain))

/-- The branches of a template are read as its `iftid`. -/
theorem reads_branches {first last : ℤ × ℤ} {special standard : Text}
    (hfirst : 0 ≤ first.1 ∧ 0 ≤ first.2) (hspecials : ∀ run ∈ specials, 0 ≤ run.1 ∧ 0 ≤ run.2)
    (hstandards : ∀ run ∈ standards, 0 ≤ run.1 ∧ 0 ≤ run.2)
    (hspecial : ReadsBody ('\n' :: special ++ newline) (ss.map .plain))
    (hstandard : ReadsBody ('\n' :: standard ++ newline) (ts.map .plain)) :
    Reads (['\n', '\n'] ++ (specialBranches special (first :: specials) ++
        (standardBranches standard (standards ++ [last]) ++ (endIfTidText ++ ['\n', '\n']))))
      [templateStmt (first :: specials) standards ss ts] := by
  obtain ⟨ps, hbody, hps⟩ := hspecial
  obtain ⟨pt, hbody', hpt⟩ := hstandard
  refine ⟨_, block_branches hfirst hspecials hstandards hbody hbody', ?_⟩
  have hlast : translateBranches [pt] = some [ts.map .plain] := by
    rw [translateBranches, hpt]
    rfl
  have hbranches := translateBranches_append (translateBranches_append
    (translateBranches_map hps (first :: specials)) (translateBranches_map hpt standards)) hlast
  rw [List.map_cons] at hbranches
  rw [translateStmts, ThreadLocalStmt.translate, hbranches]
  simp only [templateStmt, List.map_append, List.map_map, List.map_cons, Function.comp_def]
  rfl

/-- A run after another one. -/
theorem contains_apart {r r' : ℤ × ℤ} (hr : 0 ≤ r.1 ∧ 0 ≤ r.2) (hr' : 0 ≤ r'.1 ∧ 0 ≤ r'.2)
    (h : r.2 ≤ r'.1) {tid : ℤ} (hin : (tidRangeFor r).contains tid = true) :
    (tidRangeFor r').contains tid = false := by
  rw [contains_tidRangeFor hr] at hin
  rw [Bool.eq_false_iff, ne_eq, contains_tidRangeFor hr']
  omega

/-- The runs with a property have the threads with it. -/
theorem exists_contains_iff {P : ℤ → Prop} {runs : List (ℤ × ℤ)} (h : RunsOf P size runs) {tid : ℕ}
    (htid : tid < size) :
    (∃ range ∈ runs.map tidRangeFor, range.contains tid = true) ↔ P tid := by
  constructor
  · rintro ⟨_, hrange, hin⟩
    obtain ⟨run, hrun, rfl⟩ := List.mem_map.mp hrange
    exact ((h.mem tid).mp ⟨run, hrun, (contains_tidRangeFor (h.nonneg run hrun) tid).mp hin⟩).2.2
  · intro hp
    obtain ⟨run, hrun, hin⟩ := (h.mem tid).mpr
      ⟨Int.natCast_nonneg tid, Int.ofNat_lt.mpr htid, hp⟩
    exact ⟨_, List.mem_map_of_mem hrun, (contains_tidRangeFor (h.nonneg run hrun) tid).mpr hin⟩

theorem RunsOf.apart {P : ℤ → Prop} {runs : List (ℤ × ℤ)} (h : RunsOf P size runs) :
    (runs.map tidRangeFor).Pairwise fun r r' =>
      ∀ tid : ℕ, r.contains tid = true → r'.contains tid = false :=
  List.pairwise_map.mpr (h.ordered.imp_of_mem fun hr hr' hle _ hin =>
    contains_apart (h.nonneg _ hr) (h.nonneg _ hr') hle hin)

theorem gives_templateStmt {last : ℤ × ℤ}
    (hspecials : RunsOf (· ∈ specialNodes) size specials)
    (hstandards : RunsOf (· ∉ specialNodes) size (standards ++ [last])) :
    Gives size (fun tid => if (tid : ℤ) ∈ specialNodes then ss else ts)
      [templateStmt specials standards ss ts] where
  placed _ := by
    rw [templateStmt, inForceStmts, inForceStmt, reachStmts, reachStmt]
    refine List.rel_append (placed_branches (fun tid htid => ?_) (fun _ _ _ _ _ => rfl) ?_ _) .nil
    · exact decide_eq_true ⟨Int.natCast_nonneg tid, Int.ofNat_lt.mpr htid⟩
    · have hapart := hstandards.apart
      rw [List.map_append] at hapart ⊢
      refine List.pairwise_append.mpr ⟨hspecials.apart, (List.pairwise_append.mp hapart).1, ?_⟩
      intro r hr r' hr' tid hin
      by_contra hin'
      rw [Bool.not_eq_false] at hin'
      obtain ⟨run, hrun, rfl⟩ := List.mem_map.mp hr
      obtain ⟨run', hrun', rfl⟩ := List.mem_map.mp hr'
      have hrun' := List.mem_append_left [last] hrun'
      rw [contains_tidRangeFor (hspecials.nonneg run hrun)] at hin
      rw [contains_tidRangeFor (hstandards.nonneg run' hrun')] at hin'
      exact ((hstandards.mem tid).mp ⟨run', hrun', hin'⟩).2.2
        ((hspecials.mem tid).mp ⟨run, hrun, hin⟩).2.2
  reached tid htid := by
    rw [templateStmt, reachStmts, reachStmt, reachStmts, List.append_nil, reachedBy_branches rfl,
      List.map_append]
    have hchosen := @chosen_runs tid (specials.map tidRangeFor) (standards.map tidRangeFor) ss ts
    simp only [List.map_map, Function.comp_def] at hchosen
    rw [hchosen]
    exact if_congr (exists_contains_iff hspecials htid) rfl rfl

theorem mem_reachStmts_plain {stmts : List PlainStmt} {outer : TidSet} {x : PlainStmt × TidSet}
    (h : x ∈ reachStmts outer (stmts.map .plain)) : x.1 ∈ stmts := by
  rw [reachStmts_plain] at h
  obtain ⟨stmt, hstmt, rfl⟩ := List.mem_map.mp h
  exact hstmt

/-- The branches of a template have only the statements of the two kinds. -/
theorem mem_reachBranches {branches : List (List PlainStmt)} {ranges : List TidRange}
    {undecided : TidSet} {x : PlainStmt × TidSet} (hkinds : ∀ b ∈ branches, b = ss ∨ b = ts)
    (h : x ∈ reachBranches undecided ranges (branches.map (List.map .plain))) :
    x.1 ∈ ss ∨ x.1 ∈ ts := by
  induction branches generalizing ranges undecided with
  | nil => cases h
  | cons b branches ih =>
      obtain ⟨hkind, hkinds⟩ := List.forall_mem_cons.mp hkinds
      rw [List.map_cons, reachBranches] at h
      obtain h | h := List.mem_append.mp h
      · have hmem := mem_reachStmts_plain h
        obtain rfl | rfl := hkind
        · exact .inl hmem
        · exact .inr hmem
      · exact ih hkinds h

theorem mem_reach_templateStmt {outer : TidSet} {x : PlainStmt × TidSet}
    (h : x ∈ reachStmts outer [templateStmt specials standards ss ts]) : x.1 ∈ ss ∨ x.1 ∈ ts := by
  rw [templateStmt, reachStmts, reachStmt, reachStmts, List.append_nil] at h
  refine mem_reachBranches (fun b hb => ?_) h
  simp only [List.mem_append, List.mem_map, List.mem_singleton] at hb
  obtain (⟨_, -, rfl⟩ | ⟨_, -, rfl⟩) | rfl := hb
  · exact .inl rfl
  · exact .inr rfl
  · exact .inr rfl

/-- An expanded template is read as statements that give each thread its kind. -/
theorem exists_using (hsize : 0 < size) (hnodes : ∀ x ∈ specialNodes, 0 ≤ x ∧ x < size)
    (hS : ReadsBody ('\n' :: S) (ss.map .plain)) (hT : ReadsBody ('\n' :: T) (ts.map .plain))
    (hmarks : '$' ∉ S) :
    ∃ t stmts, makeTemplate size specialNodes = some t ∧ Reads (t.using S T) stmts ∧
      Gives size (fun tid => if (tid : ℤ) ∈ specialNodes then ss else ts) stmts ∧
      ∀ x ∈ reachStmts (fun _ => true) stmts, x.1 ∈ ss ∨ x.1 ∈ ts := by
  obtain ⟨hspecials, hstandards⟩ := RunScan.scan_runs hsize specialNodes
  have hS' : ReadsBody ('\n' :: tidIndent S ++ newline) _ := hS.indent 4
  have hT' : ReadsBody ('\n' :: tidIndent T ++ newline) _ := hT.indent 4
  rw [makeTemplate, if_pos ⟨hsize, hnodes⟩]
  dsimp only
  cases hfirst : (RunScan.scan size specialNodes).specials with
  | nil =>
      rw [hfirst] at hspecials
      refine ⟨_, ts.map .plain, rfl, ?_, (gives_plain size ts).congr fun tid htid => ?_,
        fun x hx => .inr (mem_reachStmts_plain hx)⟩
      · rw [using_standard]
        exact hT'.reads
      · have hnone := exists_contains_iff hspecials htid
        rw [if_neg fun hmem => ?_]
        simpa using hnone.mpr hmem
  | cons first specials =>
      rw [hfirst] at hspecials
      obtain hlast | ⟨standards, last, hlast⟩ := List.eq_nil_or_concat
        (RunScan.scan size specialNodes).standards
      · rw [hlast] at hstandards ⊢
        refine ⟨_, ss.map .plain, rfl, ?_, (gives_plain size ss).congr fun tid htid => ?_,
          fun x hx => .inl (mem_reachStmts_plain hx)⟩
        · rw [using_special hmarks]
          exact hS'.reads
        · have hnone := exists_contains_iff hstandards htid
          rw [if_pos (not_not.mp fun hmem => ?_)]
          simpa using hnone.mpr hmem
      · rw [List.concat_eq_append] at hlast
        rw [hlast] at hstandards ⊢
        have hspecial : ¬ (first :: specials).length = 0 := by simp
        have hstandard : ¬ (standards ++ [last]).length = 0 := by simp
        rw [if_neg hspecial, if_neg hstandard]
        refine ⟨_, [templateStmt (first :: specials) standards ss ts], rfl, ?_,
          gives_templateStmt hspecials hstandards, fun x hx => mem_reach_templateStmt hx⟩
        rw [using_eq hspecials.nonneg hstandards.nonneg hmarks]
        obtain ⟨hfirst, hspecials⟩ := List.forall_mem_cons.mp hspecials.nonneg
        exact reads_branches hfirst hspecials
          (fun run hrun => hstandards.nonneg run (List.mem_append_left _ hrun)) hS' hT'

/-- For every number of threads up to 100, every set of special threads and all texts of plain
statements, of which the special ones have no dollar: the expanded template can be parsed, and gives
each thread exactly the special statements or exactly the standard ones. That is what lowering has
in force for the thread, and what the thread executes. -/
theorem template_divides (size : ℕ) (specialNodes : Finset ℤ) (S T : Text) (ss ts : List PlainStmt)
    (hsize : 0 < size) (hlt : size ≤ 100) (hnodes : ∀ x ∈ specialNodes, 0 ≤ x ∧ x < size)
    (hS : parseThread S = some (ss.map .plain)) (hT : parseThread T = some (ts.map .plain))
    (hmarks : '$' ∉ S) :
    ∃ t stmts, makeTemplate size specialNodes = some t ∧
      parseThread (t.using S T) = some stmts ∧ ∀ tid : ℕ, tid < size →
        reachedBy tid (inForceStmts size INFINITE_SET stmts) =
            (if (tid : ℤ) ∈ specialNodes then ss else ts) ∧
          reachedBy tid (reachStmts (fun _ => true) stmts) =
            if (tid : ℤ) ∈ specialNodes then ss else ts := by
  obtain ⟨t, stmts, ht, hreads, hgives, -⟩ := exists_using hsize hnodes (reads_of_parseThread hS)
    (reads_of_parseThread hT) hmarks
  refine ⟨t, stmts, ht, parseThread_of_reads hreads.body, fun tid htid => ?_⟩
  exact ⟨((hgives.placed hlt).reachedBy_eq htid).trans (hgives.reached tid htid),
    hgives.reached tid htid⟩

/-- Threads 1, 2 and 4 of five multiply, the others add. -/
theorem template_divides_five :
    ∃ t stmts, makeTemplate 5 {1, 2, 4} = some t ∧
      parseThread (t.using "v = v * 2\n".toList "# add\nv = v + 1\n".toList) = some stmts ∧
      reachedBy 4 (inForceStmts 5 INFINITE_SET stmts) =
        [.loadVariable "v" (.binOp (.var "v") .mul (.const (.numberString false [2])))] := by
  obtain ⟨t, stmts, ht, hstmts, hall⟩ := template_divides 5 {1, 2, 4} "v = v * 2\n".toList
    "# add\nv = v + 1\n".toList
    [.loadVariable "v" (.binOp (.var "v") .mul (.const (.numberString false [2])))]
    [.loadVariable "v" (.binOp (.var "v") .add (.const (.numberString false [1])))]
    (by decide) (by decide) (by decide)
    (parseThread_of_reads (reads_of_readPlain (by decide +kernel)).body)
    (parseThread_of_reads (reads_of_readPlain (by decide +kernel)).body) (by decide +kernel)
  exact ⟨t, stmts, ht, hstmts, (hall 4 (by decide)).1⟩

end Partition

end Explore.Takehome
