import Explore.Lib.Lines
import Explore.Takehome.Parser
import Mathlib.Data.Finset.Basic

/-!
# Templates

A template gives some threads one text and the others another one. `make_template` scans the
threads for runs of special and of standard threads, and writes an `iftid` that has a branch for
each run; the last run of standard threads is the else branch.
-/

namespace Explore.Takehome

open Lines Parse Peg

/-- `f"{n}"` -/
def decimal (n : ℤ) : Text := (toString n).toList

def tidIndent (s : Text) : Text := Lines.indent 4 s

structure Template where
  template : Text

def specialMark : Text := ['$', 's', 'p', 'e', 'c', 'i', 'a', 'l', '$']

def standardMark : Text := ['$', 's', 't', 'a', 'n', 'd', 'a', 'r', 'd', '$']

def Template.using (t : Template) (special standard : Text) : Text :=
  replace standardMark (tidIndent standard) (replace specialMark (tidIndent special) t.template)

/-- The runs that the loop of `make_template` has found, and where the current one starts. -/
structure RunScan where
  specials : List (ℤ × ℤ)
  standards : List (ℤ × ℤ)
  start : ℤ

namespace RunScan

/-- Before the loop. -/
def init : RunScan := ⟨[], [], -1⟩

/-- The current run ends. -/
def close (s : RunScan) (special : Bool) (stop : ℤ) : RunScan :=
  if special then { s with specials := s.specials ++ [(s.start, stop)] }
  else { s with standards := s.standards ++ [(s.start, stop)] }

/-- The body of the loop. -/
def step (specialNodes : Finset ℤ) (s : RunScan) (i : ℤ) : RunScan :=
  let special := decide (i ∈ specialNodes)
  let prevSpecial := decide (i - 1 ∈ specialNodes)
  if i = 0 ∨ prevSpecial ≠ special then
    { if 0 ≤ s.start then s.close (!special) i else s with start := i }
  else s

/-- The runs among the first `size` threads. -/
def scan (size : ℕ) (specialNodes : Finset ℤ) : RunScan :=
  let s := (List.range size).foldl (fun s (i : ℕ) => step specialNodes s i) init
  s.close (decide ((size - 1 : ℤ) ∈ specialNodes)) size

end RunScan

/-- `range({start}, {end})` -/
def rangeOf (run : ℤ × ℤ) : Text :=
  rangeText ++ decimal run.1 ++ [',', ' '] ++ decimal run.2 ++ [')']

/-- The branches for the runs of special threads, with a text for their statements. -/
def specialBranches (text : Text) (specials : List (ℤ × ℤ)) : Text :=
  specials.zipIdx.flatMap fun (run, idx) =>
    (if 0 < idx then elIfTidText ++ [' '] else ifTidText ++ [' ']) ++ rangeOf run ++ ['\n'] ++
      text ++ ['\n']

/-- The branches for the runs of standard threads, of which the last one has no range. -/
def standardBranches (text : Text) (standards : List (ℤ × ℤ)) : Text :=
  standards.zipIdx.flatMap fun (run, idx) =>
    (if idx < standards.length - 1 then elIfTidText ++ [' '] else elseTidText ++ [' ']) ++
      (if idx < standards.length - 1 then rangeOf run else []) ++ ['\n'] ++ text ++
        ['\n']

/-- `none` where the assertions fail. -/
def makeTemplate (size : ℕ) (specialNodes : Finset ℤ) : Option Template :=
  if 0 < size ∧ ∀ x ∈ specialNodes, 0 ≤ x ∧ x < size then
    let runs := RunScan.scan size specialNodes
    if runs.specials.length = 0 then some ⟨['\n'] ++ standardMark ++ ['\n']⟩
    else if runs.standards.length = 0 then some ⟨['\n'] ++ specialMark ++ ['\n']⟩
    else some ⟨['\n', '\n'] ++ specialBranches specialMark runs.specials ++
      standardBranches standardMark runs.standards ++ (endIfTidText ++ ['\n', '\n'])⟩
  else none

section Runs

variable {P : ℤ → Prop} {stop : ℤ} {runs : List (ℤ × ℤ)}

/-- These runs are those of the threads below `stop` with a property. -/
structure RunsOf (P : ℤ → Prop) (stop : ℤ) (runs : List (ℤ × ℤ)) : Prop where
  mem : ∀ i, (∃ run ∈ runs, run.1 ≤ i ∧ i < run.2) ↔ 0 ≤ i ∧ i < stop ∧ P i
  nonneg : ∀ run ∈ runs, 0 ≤ run.1 ∧ 0 ≤ run.2
  ordered : runs.Pairwise fun run run' => run.2 ≤ run'.1
  bounded : ∀ run ∈ runs, run.2 ≤ stop

theorem RunsOf.nil : RunsOf P 0 [] where
  mem i := by
    constructor
    · rintro ⟨run, hrun, -⟩
      cases hrun
    · rintro ⟨h, hlt, -⟩
      omega
  nonneg _ h := by cases h
  ordered := .nil
  bounded _ h := by cases h

/-- A run that has the property. -/
theorem RunsOf.snoc {stop' : ℤ} (h : RunsOf P stop runs) (h0 : 0 ≤ stop) (hle : stop ≤ stop')
    (run : ∀ i, stop ≤ i → i < stop' → P i) : RunsOf P stop' (runs ++ [(stop, stop')]) where
  mem i := by
    have hold := h.mem i
    constructor
    · rintro ⟨r, hr, hi⟩
      obtain hr | hr := List.mem_append.mp hr
      · obtain ⟨h0, hlt, hp⟩ := hold.mp ⟨r, hr, hi⟩
        exact ⟨h0, hlt.trans_le hle, hp⟩
      · obtain rfl := List.mem_singleton.mp hr
        exact ⟨h0.trans hi.1, hi.2, run i hi.1 hi.2⟩
    · rintro ⟨hi, hlt, hp⟩
      by_cases hstop : i < stop
      · obtain ⟨r, hr, hri⟩ := hold.mpr ⟨hi, hstop, hp⟩
        exact ⟨r, List.mem_append_left _ hr, hri⟩
      · exact ⟨(stop, stop'), List.mem_append_right _ List.mem_cons_self, not_lt.mp hstop, hlt⟩
  nonneg r hr := by
    obtain hr | hr := List.mem_append.mp hr
    · exact h.nonneg r hr
    · obtain rfl := List.mem_singleton.mp hr
      exact ⟨h0, h0.trans hle⟩
  ordered := by
    refine List.pairwise_append.mpr ⟨h.ordered, List.pairwise_singleton _ _, fun r hr r' hr' => ?_⟩
    obtain rfl := List.mem_singleton.mp hr'
    exact h.bounded r hr
  bounded r hr := by
    obtain hr | hr := List.mem_append.mp hr
    · exact (h.bounded r hr).trans hle
    · obtain rfl := List.mem_singleton.mp hr
      exact le_refl stop'

/-- A run that does not have it. -/
theorem RunsOf.skip {stop' : ℤ} (h : RunsOf P stop runs) (hle : stop ≤ stop')
    (run : ∀ i, stop ≤ i → i < stop' → ¬ P i) : RunsOf P stop' runs where
  mem i := by
    rw [h.mem i]
    constructor
    · rintro ⟨h0, hlt, hp⟩
      exact ⟨h0, hlt.trans_le hle, hp⟩
    · rintro ⟨h0, hlt, hp⟩
      by_cases hstop : i < stop
      · exact ⟨h0, hstop, hp⟩
      · exact absurd hp (run i (not_lt.mp hstop) hlt)
  nonneg := h.nonneg
  ordered := h.ordered
  bounded r hr := (h.bounded r hr).trans hle

end Runs

namespace RunScan

variable {specialNodes : Finset ℤ} {s : RunScan}

/-- What the loop knows after the thread before `stop`: the current run is special or standard as
a whole, and the runs before it have been found. -/
structure Inv (specialNodes : Finset ℤ) (stop : ℤ) (s : RunScan) : Prop where
  start_nonneg : 0 ≤ s.start
  start_lt : s.start < stop
  current : ∀ i, s.start ≤ i → i < stop → (i ∈ specialNodes ↔ stop - 1 ∈ specialNodes)
  specials : RunsOf (· ∈ specialNodes) s.start s.specials
  standards : RunsOf (· ∉ specialNodes) s.start s.standards

/-- Where the current run ends, both kinds of runs are known. -/
theorem Inv.close {stop : ℤ} {special : Bool} (h : s.Inv specialNodes stop)
    (hspecial : special = true ↔ stop - 1 ∈ specialNodes) :
    (s.close special stop).start = s.start ∧
      RunsOf (· ∈ specialNodes) stop (s.close special stop).specials ∧
      RunsOf (· ∉ specialNodes) stop (s.close special stop).standards := by
  have hle := le_of_lt h.start_lt
  cases special with
  | true =>
      have hall (i : ℤ) (hi : s.start ≤ i) (hlt : i < stop) : i ∈ specialNodes :=
        (h.current i hi hlt).mpr (hspecial.mp rfl)
      exact ⟨rfl, h.specials.snoc h.start_nonneg hle hall,
        h.standards.skip hle fun i hi hlt hnot => hnot (hall i hi hlt)⟩
  | false =>
      have hall (i : ℤ) (hi : s.start ≤ i) (hlt : i < stop) : i ∉ specialNodes := by
        rw [h.current i hi hlt, ← hspecial]
        exact Bool.false_ne_true
      exact ⟨rfl, h.specials.skip hle hall, h.standards.snoc h.start_nonneg hle hall⟩

theorem Inv.step {stop : ℤ} (h : s.Inv specialNodes stop) :
    (s.step specialNodes stop).Inv specialNodes (stop + 1) := by
  have hstop := lt_of_le_of_lt h.start_nonneg h.start_lt
  rw [RunScan.step]
  dsimp only
  split
  · rename_i hnew
    have hchange := hnew.resolve_left (ne_of_gt hstop)
    rw [if_pos h.start_nonneg]
    have hspecial : (!decide (stop ∈ specialNodes)) = true ↔ stop - 1 ∈ specialNodes := by
      rw [ne_eq, decide_eq_decide] at hchange
      simp only [Bool.not_eq_true', decide_eq_false_iff_not]
      tauto
    obtain ⟨-, hspecials, hstandards⟩ := h.close hspecial
    refine ⟨le_of_lt hstop, Int.lt_succ stop, fun i hi hlt => ?_, hspecials, hstandards⟩
    dsimp only at hi
    obtain rfl : i = stop := by omega
    rw [Int.add_sub_cancel]
  · rename_i hsame
    rw [not_or, not_not, decide_eq_decide] at hsame
    refine ⟨h.start_nonneg, h.start_lt.trans (Int.lt_succ stop), fun i hi hlt => ?_, h.specials,
      h.standards⟩
    rw [Int.add_sub_cancel]
    by_cases heq : i = stop
    · rw [heq]
    · rw [h.current i hi (by omega), hsame.2]

theorem inv_loop (specialNodes : Finset ℤ) (k : ℕ) :
    ((List.range (k + 1)).foldl (fun s (i : ℕ) => step specialNodes s i) init).Inv specialNodes
      (k + 1 : ℕ) := by
  induction k with
  | zero =>
      refine ⟨le_refl 0, Int.one_pos, fun i hi hlt => ?_, .nil, .nil⟩
      change (0 : ℤ) ≤ i at hi
      obtain rfl : i = 0 := by omega
      rfl
  | succ k ih =>
      rw [List.range_succ, List.foldl_append]
      exact ih.step

/-- The scan finds the runs of special and of standard threads. -/
theorem scan_runs {size : ℕ} (hsize : 0 < size) (specialNodes : Finset ℤ) :
    RunsOf (· ∈ specialNodes) size (scan size specialNodes).specials ∧
      RunsOf (· ∉ specialNodes) size (scan size specialNodes).standards := by
  obtain ⟨k, rfl⟩ := Nat.exists_eq_add_of_lt hsize
  rw [Nat.zero_add]
  exact ((inv_loop specialNodes k).close (by simp)).2

end RunScan

end Explore.Takehome
