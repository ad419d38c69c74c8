import Explore.Lib.ByteMemory
import Explore.OneBrc.Swar

/-!
# Comparing names in native memory

`Unsafely.matches` compares `len` bytes at two addresses, eight at a time where
it can, and under a mask where fewer are left. It is exact, but it may read past
the bytes it compares: up to a whole word, and after eight bytes that agree the
word behind them, of which the mask keeps nothing. The block it compares with has
a size here, and a read outside the block has no result.
-/

namespace Explore.OneBrc.Unsafely

open LittleEndian FastShardProcessorState

/-- Native memory of which a number of bytes can be read. -/
structure Block where
  bytes : Memory
  size : ℕ

def Block.read (w : ℕ) (block : Block) (addr : ℕ) : Option (BitVec w) :=
  if addr + w / 8 ≤ block.size then some (block.bytes.load w addr) else none

section Matches

variable (src : Memory) (srcAddr : ℕ) (dest : Block) (destAddress len : ℕ)

def matchesByte (idx : ℕ) : Option Bool := do
  if idx ≥ len then some true
  else some (src.load 8 (srcAddr + idx) = (← dest.read 8 (destAddress + idx)))

/-- For a length, `len & ~1` is its even part; `~3` and `~7` round likewise. -/
def matchesShort (idx : ℕ) : Option Bool := do
  if idx < len / 2 * 2 then
    if src.load 16 (srcAddr + idx) ≠ (← dest.read 16 (destAddress + idx)) then some false
    else matchesByte src srcAddr dest destAddress len (idx + 2)
  else matchesByte src srcAddr dest destAddress len idx

def matchesInt (idx : ℕ) : Option Bool := do
  if idx < len / 4 * 4 then
    if src.load 32 (srcAddr + idx) ≠ (← dest.read 32 (destAddress + idx)) then some false
    else matchesShort src srcAddr dest destAddress len (idx + 4)
  else matchesShort src srcAddr dest destAddress len idx

/-- The loop over the `words` whole words from `idx` on. -/
def matchesLongs : (words idx : ℕ) → Option Bool
  | 0, idx => matchesInt src srcAddr dest destAddress len idx
  | words + 1, idx => do
      if src.load 64 (srcAddr + idx) ≠ (← dest.read 64 (destAddress + idx)) then some false
      else matchesLongs words (idx + 8)

/-- The comparison of the last bytes of a word. -/
def matchesMasked : Option Bool := do
  some (src.load 64 srcAddr &&& maskOf (8 * len) =
    (← dest.read 64 destAddress) &&& maskOf (8 * len))

end Matches

def «matches» (src : Memory) (srcAddr : ℕ) (dest : Block) (destAddress len : ℕ) : Option Bool := do
  if len < 8 then matchesMasked src srcAddr dest destAddress len
  else if src.load 64 srcAddr ≠ (← dest.read 64 destAddress) then some false
  else if len - 8 < 8 then matchesMasked src (srcAddr + 8) dest (destAddress + 8) (len - 8)
  else if src.load 64 (srcAddr + 8) ≠ (← dest.read 64 (destAddress + 8)) then some false
  else matchesLongs src (srcAddr + 16) dest (destAddress + 16) (len - 16) ((len - 16) / 8) 0

section Exact

variable {src : Memory} {srcAddr : ℕ} {dest : Block} {destAddress len : ℕ}

theorem Block.read_eq {w : ℕ} (h : destAddress + w / 8 ≤ dest.size) :
    dest.read w destAddress = some (dest.bytes.load w destAddress) := if_pos h

/-- What remains to be compared from `idx` on. -/
def SameFrom (src : Memory) (srcAddr : ℕ) (dest : Block) (destAddress len idx : ℕ) : Prop :=
  src.readBytes (srcAddr + idx) (len - idx) =
    dest.bytes.readBytes (destAddress + idx) (len - idx)

instance (idx : ℕ) : Decidable (SameFrom src srcAddr dest destAddress len idx) :=
  inferInstanceAs (Decidable (_ = _))

theorem sameFrom_iff {idx n : ℕ} (h : idx + n ≤ len) :
    SameFrom src srcAddr dest destAddress len idx ↔
      src.readBytes (srcAddr + idx) n = dest.bytes.readBytes (destAddress + idx) n ∧
        SameFrom src srcAddr dest destAddress len (idx + n) := by
  have hsplit : len - idx = n + (len - (idx + n)) := by omega
  rw [SameFrom, hsplit, Memory.readBytes_add_eq_iff, SameFrom, Nat.add_assoc, Nat.add_assoc]

/-- One word is compared, and then what follows it. -/
theorem step_eq {w idx : ℕ} {next : Option Bool} (hw : 8 ∣ w) (h : idx + w / 8 ≤ len)
    (fits : destAddress + len ≤ dest.size)
    (hnext : next = some (decide (SameFrom src srcAddr dest destAddress len (idx + w / 8)))) :
    (do if src.load w (srcAddr + idx) ≠ (← dest.read w (destAddress + idx)) then some false
        else next) = some (decide (SameFrom src srcAddr dest destAddress len idx)) := by
  rw [Block.read_eq (by omega), hnext]
  simp only [Option.bind_eq_bind, Option.bind_some, ne_eq, Memory.load_eq_iff hw, sameFrom_iff h]
  by_cases same : src.readBytes (srcAddr + idx) (w / 8) =
      dest.bytes.readBytes (destAddress + idx) (w / 8)
  · simp [same]
  · simp [same]

theorem matchesByte_eq {idx : ℕ} (h : len ≤ idx + 1) (fits : destAddress + len ≤ dest.size) :
    matchesByte src srcAddr dest destAddress len idx =
      some (decide (SameFrom src srcAddr dest destAddress len idx)) := by
  rw [matchesByte]
  by_cases hend : idx ≥ len
  · have hnone : SameFrom src srcAddr dest destAddress len idx := by
      rw [SameFrom, Nat.sub_eq_zero_of_le hend]
      rfl
    rw [if_pos hend, decide_eq_true hnone]
  · have hone : SameFrom src srcAddr dest destAddress len idx ↔
        src.readBytes (srcAddr + idx) (8 / 8) =
          dest.bytes.readBytes (destAddress + idx) (8 / 8) := by
      rw [SameFrom, show len - idx = 8 / 8 by omega]
    rw [if_neg hend, Block.read_eq (by omega)]
    simp only [Option.bind_eq_bind, Option.bind_some, Memory.load_eq_iff (Nat.dvd_refl 8), hone]

theorem matchesShort_eq {idx : ℕ} (even : idx % 2 = 0) (hidx : idx ≤ len) (h : len ≤ idx + 3)
    (fits : destAddress + len ≤ dest.size) :
    matchesShort src srcAddr dest destAddress len idx =
      some (decide (SameFrom src srcAddr dest destAddress len idx)) := by
  rw [matchesShort]
  by_cases hword : idx < len / 2 * 2
  · rw [if_pos hword]
    exact step_eq (by decide) (by omega) fits (matchesByte_eq (by omega) fits)
  · rw [if_neg hword]
    exact matchesByte_eq (by omega) fits

theorem matchesInt_eq {idx : ℕ} (four : idx % 4 = 0) (hidx : idx ≤ len) (h : len ≤ idx + 7)
    (fits : destAddress + len ≤ dest.size) :
    matchesInt src srcAddr dest destAddress len idx =
      some (decide (SameFrom src srcAddr dest destAddress len idx)) := by
  rw [matchesInt]
  by_cases hword : idx < len / 4 * 4
  · rw [if_pos hword]
    exact step_eq (by decide) (by omega) fits
      (matchesShort_eq (by omega) (by omega) (by omega) fits)
  · rw [if_neg hword]
    exact matchesShort_eq (by omega) hidx (by omega) fits

theorem matchesLongs_eq {words idx : ℕ} (eight : idx % 8 = 0) (hwords : idx + 8 * words ≤ len)
    (h : len ≤ idx + 8 * words + 7) (fits : destAddress + len ≤ dest.size) :
    matchesLongs src srcAddr dest destAddress len words idx =
      some (decide (SameFrom src srcAddr dest destAddress len idx)) := by
  induction words generalizing idx with
  | zero => exact matchesInt_eq (by omega) (by omega) (by omega) fits
  | succ words ih =>
      rw [matchesLongs]
      exact step_eq (by decide) (by omega) fits (ih (by omega) (by omega) (by omega))

/-- Under the mask only the first bytes of two words are compared. -/
theorem load_and_maskOf_eq_iff {mem other : Memory} {addr addr' k : ℕ} (hk : k ≤ 8) :
    mem.load 64 addr &&& maskOf (8 * k) = other.load 64 addr' &&& maskOf (8 * k) ↔
      mem.readBytes addr k = other.readBytes addr' k := by
  have low (mem : Memory) (addr : ℕ) :
      mem.load 64 addr &&& maskOf (8 * k) = word 64 (mem.readBytes addr k) := by
    have hsplit : mem.readBytes addr 8 =
        mem.readBytes addr k ++ mem.readBytes (addr + k) (8 - k) := by
      rw [← Memory.readBytes_add, Nat.add_sub_cancel' hk]
    have hmask := word_and_maskOf (mem.readBytes addr k) (mem.readBytes (addr + k) (8 - k))
    rw [Memory.length_readBytes] at hmask
    rw [Memory.load, hsplit, hmask]
  rw [low, low]
  apply Memory.word_inj
  · rw [Memory.length_readBytes, Memory.length_readBytes]
  · rw [Memory.length_readBytes]
    omega

theorem matchesMasked_eq (hlen : len ≤ 8) (fits : destAddress + 8 ≤ dest.size) :
    matchesMasked src srcAddr dest destAddress len =
      some (decide (src.readBytes srcAddr len = dest.bytes.readBytes destAddress len)) := by
  rw [matchesMasked, Block.read_eq fits]
  simp only [Option.bind_eq_bind, Option.bind_some, load_and_maskOf_eq_iff hlen]

theorem load_64_eq_iff {mem other : Memory} {addr addr' : ℕ} :
    mem.load 64 addr = other.load 64 addr' ↔ mem.readBytes addr 8 = other.readBytes addr' 8 :=
  Memory.load_eq_iff (by decide)

/-- The bytes that a comparison reads if it does not find a difference. -/
def extent (len : ℕ) : ℕ := if len < 8 then 8 else if len < 16 then 16 else len

/-- With room for everything it may read, `matches` compares the bytes. -/
theorem matches_eq (fits : destAddress + extent len ≤ dest.size) :
    «matches» src srcAddr dest destAddress len =
      some (decide (src.readBytes srcAddr len = dest.bytes.readBytes destAddress len)) := by
  rw [extent] at fits
  rw [«matches»]
  by_cases h8 : len < 8
  · rw [if_pos h8] at fits
    rw [if_pos h8, matchesMasked_eq (by omega) fits]
  · rw [if_neg h8] at fits ⊢
    have hroom : destAddress + 16 ≤ dest.size := by
      split at fits <;> omega
    have hsplit : src.readBytes srcAddr len = dest.bytes.readBytes destAddress len ↔
        src.readBytes srcAddr 8 = dest.bytes.readBytes destAddress 8 ∧
          src.readBytes (srcAddr + 8) (len - 8) =
            dest.bytes.readBytes (destAddress + 8) (len - 8) := by
      rw [← Memory.readBytes_add_eq_iff, show 8 + (len - 8) = len by omega]
    rw [Block.read_eq (by omega)]
    simp only [Option.bind_eq_bind, Option.bind_some, ne_eq, load_64_eq_iff, hsplit]
    by_cases first : src.readBytes srcAddr 8 = dest.bytes.readBytes destAddress 8
    · rw [if_neg (not_not_intro first)]
      by_cases h16 : len - 8 < 8
      · rw [if_pos h16, matchesMasked_eq (by omega) (by omega)]
        simp [first]
      · have hsplit' : src.readBytes (srcAddr + 8) (len - 8) =
            dest.bytes.readBytes (destAddress + 8) (len - 8) ↔
              src.readBytes (srcAddr + 8) 8 =
                  dest.bytes.readBytes (destAddress + 8) 8 ∧
                SameFrom src (srcAddr + 16) dest (destAddress + 16) (len - 16) 0 := by
          rw [show len - 8 = 8 + (len - 16) by omega, Memory.readBytes_add_eq_iff]
          rfl
        rw [if_neg (by omega)] at fits
        rw [if_neg h16, Block.read_eq (by omega)]
        simp only [Option.bind_some, load_64_eq_iff]
        by_cases second : src.readBytes (srcAddr + 8) 8 =
            dest.bytes.readBytes (destAddress + 8) 8
        · rw [if_neg (not_not_intro second), matchesLongs_eq (by omega) (by omega) (by omega)
            (by omega)]
          simp only [first, hsplit', second, true_and]
        · rw [if_pos second]
          simp [hsplit', second]
    · rw [if_pos first]
      simp [first]

/-- For all contents of the memory: with room for everything it may read, `matches` says
whether the bytes agree, and the bytes behind them make no difference. -/
theorem matches_exact (fits : destAddress + extent len ≤ dest.size) :
    («matches» src srcAddr dest destAddress len = some true ↔
        ∀ i < len, src (srcAddr + i) = dest.bytes (destAddress + i)) ∧
      («matches» src srcAddr dest destAddress len = some false ↔
        ∃ i < len, src (srcAddr + i) ≠ dest.bytes (destAddress + i)) ∧
      ∀ (src' : Memory) (dest' : Block), destAddress + extent len ≤ dest'.size →
        (∀ i < len, src' (srcAddr + i) = src (srcAddr + i)) →
        (∀ i < len, dest'.bytes (destAddress + i) = dest.bytes (destAddress + i)) →
          «matches» src' srcAddr dest' destAddress len =
            «matches» src srcAddr dest destAddress len := by
  have hbytes : src.readBytes srcAddr len = dest.bytes.readBytes destAddress len ↔
      ∀ i < len, src (srcAddr + i) = dest.bytes (destAddress + i) := by
    rw [Memory.readBytes, Memory.readBytes, List.map_inj_left]
    exact forall_congr' fun i => imp_congr_left List.mem_range
  refine ⟨?_, ?_, fun src' dest' fits' hsrc hdest => ?_⟩
  · rw [matches_eq fits, Option.some.injEq, decide_eq_true_iff, hbytes]
  · rw [matches_eq fits, Option.some.injEq, decide_eq_false_iff_not, hbytes]
    simp only [not_forall, exists_prop]
  · rw [matches_eq fits, matches_eq fits', Memory.readBytes_congr hsrc,
      Memory.readBytes_congr hdest]

/-- Names of five bytes, which are followed by different bytes. -/
theorem matches_exact_five :
    let src : Memory := fun i => if i < 5 then 97 else 59
    let dest : Block := ⟨fun i => if i < 5 then 97 else 0, 8⟩
    «matches» src 0 dest 0 5 = some true := by
  intro src dest
  have exact_five := @matches_exact src 0 dest 0 5 (by decide)
  refine exact_five.1.mpr fun i hi => ?_
  simp [src, dest, hi]

/-- A difference in the first word ends the comparison. -/
theorem matches_of_first_ne (hlen : 8 ≤ len) (fits : destAddress + 8 ≤ dest.size)
    (first : src.readBytes srcAddr 8 ≠ dest.bytes.readBytes destAddress 8) :
    «matches» src srcAddr dest destAddress len = some false := by
  rw [«matches», if_neg (by omega), Block.read_eq fits]
  simp only [Option.bind_eq_bind, Option.bind_some, ne_eq, load_64_eq_iff]
  rw [if_pos first]

/-- After eight bytes that agree, the next word is read. -/
theorem matches_eight_outside (fits : destAddress + 8 ≤ dest.size)
    (outside : dest.size < destAddress + 16)
    (same : src.readBytes srcAddr 8 = dest.bytes.readBytes destAddress 8) :
    «matches» src srcAddr dest destAddress 8 = none := by
  have hnone : dest.read 64 (destAddress + 8) = none := if_neg (by omega)
  rw [«matches», if_neg (by omega), Block.read_eq fits]
  simp only [Option.bind_eq_bind, Option.bind_some, ne_eq, load_64_eq_iff]
  rw [if_neg (not_not_intro same), if_pos (by decide), matchesMasked, hnone]
  rfl

end Exact

end Explore.OneBrc.Unsafely
