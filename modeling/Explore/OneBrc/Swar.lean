import Explore.Lib.ZeroByte
import Explore.OneBrc.Parsing

/-!
# The line parser of the non-idiomatic program

`FastShardProcessorState.processLine` reads eight bytes at a time, tests them for
a semicolon at once, and looks up both halves of the temperature in tables
indexed by a hash of two neighbouring bytes. The low three bits of a table entry
count the bytes consumed. The main result is that on a line allowed by the rules
it takes the name and the temperature of the line and steps to the byte after the
newline, if four more bytes can be read.

Memory is the mapped buffer, an address is an offset into it, and words are
little-endian, as the program assumes of the machine it runs on.
-/

namespace Explore.OneBrc

open LittleEndian

/-- `Unsafely.readLong`. -/
def readLong (mem : Buffer) (addr : ℕ) : Option JLong :=
  if addr + 8 ≤ mem.length then some (word 64 ((mem.drop addr).take 8)) else none

/-- `Long.numberOfTrailingZeros`. -/
def numberOfTrailingZeros (x : JLong) : ℕ :=
  ((List.range 64).find? fun i => x.getLsbD i).getD 64

namespace TemperatureLookup

/-- The hash of two neighbouring bytes, the second of which is `lsb`. -/
def hash (msb lsb : Byte) : JInt :=
  (msb.signExtend 32 <<< 4) ^^^ lsb.signExtend 32 ^^^ (lsb.signExtend 32).sshiftRight 4

/-- One entry of a table: its index, value and delta. -/
structure Entry where
  index : JInt
  value : JInt
  delta : JInt

/-- `update`, on the table and the indices done so far. -/
def update (tables : List JInt × List Bool) (e : Entry) : Option (List JInt × List Bool) := do
  let index := (e.index &&& 255).toNat
  let done ← tables.2[index]?
  if done then none
  else some (tables.1.set index ((e.value <<< 3) ||| e.delta), tables.2.set index true)

def allDigits : List (Fin 10) := List.finRange 10

def digitInt (d : Fin 10) : JInt := BitVec.ofNat 32 d.val

def signed (isNegative : Bool) (value : JInt) : JInt := if isNegative then -value else value

/-- The entries of the four patterns, in the order of the updates: `YX`, `Z.`,
`.Y` and `nZ`. -/
def entries (isFirst isNegative : Bool) : List Entry :=
  (allDigits.flatMap fun x => allDigits.map fun y =>
    ⟨hash (digitByte y) (digitByte x),
      signed isNegative (if isFirst then digitInt y * 10 + digitInt x * 100 else 12345),
      if isFirst then 2 else 12345⟩) ++
  (allDigits.map fun z =>
    ⟨hash (digitByte z) dot, signed isNegative (if isFirst then 12345 else digitInt z),
      if isFirst then 12345 else 2⟩) ++
  (allDigits.map fun y =>
    ⟨hash dot (digitByte y), signed isNegative (if isFirst then 10 * digitInt y else 12345),
      if isFirst then 2 else 12345⟩) ++
  (allDigits.map fun z =>
    ⟨hash newline (digitByte z), signed isNegative (if isFirst then 12345 else digitInt z),
      if isFirst then 12345 else 1⟩)

/-- What the second table adds to every entry: the newline, and the minus sign. -/
def adjust (isFirst isNegative : Bool) (entry : JInt) : JInt :=
  if isFirst then entry else entry + ((if isNegative then 1 else 0) + 1)

def make (isFirst isNegative : Bool) : Option (List JInt) := do
  let (ret, _) ← (entries isFirst isNegative).foldlM update
    (List.replicate 256 0, List.replicate 256 false)
  some (ret.map (adjust isFirst isNegative))

/-- A lookup `TABLE[(int) (b & 255)]` in one of the four tables. -/
def lookup (isFirst isNegative : Bool) (b : JLong) : Option JInt := do
  let table ← make isFirst isNegative
  table[(b &&& 255).toNat]?

def firstNeg (b : JLong) : Option JInt := lookup true true b
def firstPos (b : JLong) : Option JInt := lookup true false b
def secondNeg (b : JLong) : Option JInt := lookup false true b
def secondPos (b : JLong) : Option JInt := lookup false false b

end TemperatureLookup

/-- The arguments of the call to `addDataPoint`, and the address returned. -/
structure FastLine where
  srcAddr : ℕ
  len : ℕ
  hash32 : JInt
  temperature : BitVec 16
  next : ℕ
  deriving DecidableEq, Repr

namespace FastShardProcessorState

open TemperatureLookup

def hasSemicolon (x : JLong) : JLong :=
  let a := x ^^^ 0x3b3b3b3b3b3b3b3b
  (a - 0x0101010101010101) &&& (~~~a) &&& 0x8080808080808080

def maskOf (bits : ℕ) : JLong := ~~~((-1 : JLong) <<< bits)

def doHash (value : JLong) : JInt :=
  let hash : JLong := 31 * (value.setWidth 32).signExtend 64 +
    ((value.sshiftRight 32).setWidth 32).signExtend 64
  (hash ^^^ hash.sshiftRight 17 ^^^ hash.sshiftRight 28).setWidth 32

/-- The loop of `processLine`, from the word at `nextPos` on: the first word with
a semicolon, and the result of its test. -/
def findSemicolon (mem : Buffer) (nextPos : ℕ) : Option (ℕ × JLong) :=
  match _h : readLong mem nextPos with
  | none => none
  | some x =>
      if hasSemicolon x = 0 then findSemicolon mem (nextPos + 8)
      else some (nextPos, hasSemicolon x)
  termination_by mem.length - nextPos
  decreasing_by
    rw [readLong] at _h
    split at _h
    · omega
    · simp at _h

def readTemperature (mem : Buffer) (nextPos : ℕ) : Option JInt := do
  let data ← readLong mem nextPos
  let d := data ^^^ data.sshiftRight 4
  if data &&& 0xFF = 0x2D then do
    some ((← firstNeg (d.sshiftRight 8)) + (← secondNeg (d.sshiftRight 24)))
  else do
    some ((← firstPos (d.sshiftRight 0)) + (← secondPos (d.sshiftRight 16)))

/-- The end of `processLine`: the temperature, and the call to `addDataPoint`. -/
def finishLine (mem : Buffer) (origPos nextPos : ℕ) (hash : JInt) : Option FastLine := do
  let temp ← readTemperature mem nextPos
  some ⟨origPos, nextPos - 1 - origPos, hash, (temp.sshiftRight 3).setWidth 16,
    nextPos + (temp &&& 7).toNat⟩

def processLine (mem : Buffer) (origPos : ℕ) : Option FastLine := do
  let firstLong ← readLong mem origPos
  let s := hasSemicolon firstLong
  if s = 0 then do
    let (nextPos, s) ← findSemicolon mem (origPos + 8)
    let trailingZeroes := numberOfTrailingZeros s + 1
    finishLine mem origPos (nextPos + trailingZeroes / 8) (doHash firstLong)
  else
    let trailingZeroes := numberOfTrailingZeros s + 1
    finishLine mem origPos (origPos + trailingZeroes / 8)
      (doHash (firstLong &&& maskOf (trailingZeroes - 8)))

/-- The name loop of `processLineSlow`, which writes the bytes before `;` to `baos`. -/
def collectName (mem : Buffer) (nextPos : ℕ) (baos : List Byte) : Option (List Byte × ℕ) :=
  match _h : mem[nextPos]? with
  | none => none
  | some nextByte =>
      if nextByte ≠ semicolon then collectName mem (nextPos + 1) (baos ++ [nextByte])
      else some (baos, nextPos + 1)
  termination_by mem.length - nextPos
  decreasing_by
    have := (List.getElem?_eq_some_iff.mp _h).1
    omega

/-- `processLineSlow`: the name and temperature that go to `updateStat`, and the
address returned. The temperature is read as in the other program. -/
def processLineSlow (mem : Buffer) (nextPos : ℕ) : Option (List Byte × Int × ℕ) := do
  let (name, nextPos) ← collectName mem nextPos []
  let (temperature, nextPos) ← ShardProcessorState.readTemperatureSlow mem nextPos
  some (name, temperature, nextPos)

end FastShardProcessorState

section Semicolon

open FastShardProcessorState

private theorem xor_semicolon : ∀ b : Byte, b ^^^ semicolon = 0 ↔ b = semicolon := by
  decide

/-- The words of the semicolon test, byte by byte. -/
theorem hasSemicolon_word {bs : List Byte} (hlen : bs.length = 8) :
    hasSemicolon (word 64 bs) = zeroBytes 64 8 (word 64 (bs.map (· ^^^ semicolon))) := by
  have hxor : word 64 bs ^^^ 0x3b3b3b3b3b3b3b3b = word 64 (bs.map (· ^^^ semicolon)) := by
    have hfill : (0x3b3b3b3b3b3b3b3b : JLong) = word 64 (List.replicate 8 semicolon) := by decide
    rw [hfill]
    apply BitVec.eq_of_getLsbD_eq
    intro i hi
    obtain ⟨j, r, hr, rfl⟩ : ∃ j r, r < 8 ∧ i = 8 * j + r :=
      ⟨i / 8, i % 8, Nat.mod_lt _ (by decide), by omega⟩
    have hj : j < bs.length := by omega
    rw [BitVec.getLsbD_xor, getLsbD_word _ hr hi, getLsbD_word _ hr hi, getLsbD_word _ hr hi,
      List.getElem?_map, List.getElem?_eq_getElem hj, List.getElem?_replicate, if_pos (by omega)]
    simp
  have hone : (0x0101010101010101 : JLong) = fill 64 8 1 := by decide
  have hsign : (0x8080808080808080 : JLong) = fill 64 8 0x80 := by decide
  rw [hasSemicolon, hxor, hone, hsign, zeroBytes]

theorem numberOfTrailingZeros_eq {x : JLong} {n : ℕ} (hn : n < 64) (hset : x.getLsbD n = true)
    (hclear : ∀ i < n, x.getLsbD i = false) : numberOfTrailingZeros x = n := by
  have hfind : (List.range 64).find? (fun i => x.getLsbD i) = some n := by
    rw [List.find?_range_eq_some]
    exact ⟨hset, by simpa using hn, fun i hi => by simp [hclear i hi]⟩
  rw [numberOfTrailingZeros, hfind, Option.getD_some]

theorem readLong_of_drop {mem : Buffer} {pos : ℕ} {bs rest : List Byte}
    (h : mem.drop pos = bs ++ rest) (hlen : bs.length = 8) :
    readLong mem pos = some (word 64 bs) := by
  have hbound : pos + 8 ≤ mem.length := by
    have := congrArg List.length h
    rw [List.length_drop, List.length_append] at this
    omega
  rw [readLong, if_pos hbound, h, List.take_left' hlen]

/-- A word without a semicolon passes the test. -/
theorem hasSemicolon_eq_zero {bs : List Byte} (hlen : bs.length = 8) (free : semicolon ∉ bs) :
    hasSemicolon (word 64 bs) = 0 := by
  rw [hasSemicolon_word hlen]
  refine zeroBytes_eq_zero (n := 8) (by simpa using hlen) fun hmem => ?_
  obtain ⟨b, hb, hzero⟩ := List.mem_map.mp hmem
  exact free ((xor_semicolon b).mp hzero ▸ hb)

/-- A word with a semicolon fails it, and the trailing zeros give its place. -/
theorem numberOfTrailingZeros_hasSemicolon {name rest : List Byte}
    (hlen : (name ++ semicolon :: rest).length = 8) (free : semicolon ∉ name) :
    hasSemicolon (word 64 (name ++ semicolon :: rest)) ≠ 0 ∧
      numberOfTrailingZeros (hasSemicolon (word 64 (name ++ semicolon :: rest))) =
        8 * name.length + 7 := by
  have hshort : name.length < 8 := by
    rw [List.length_append, List.length_cons] at hlen
    omega
  have hk : ((name ++ semicolon :: rest).map (· ^^^ semicolon))[name.length]? = some 0 := by
    rw [List.getElem?_map, List.getElem?_append_right (Nat.le_refl _), Nat.sub_self]
    simp
  have below : ∀ i < name.length,
      ((name ++ semicolon :: rest).map (· ^^^ semicolon))[i]? ≠ some 0 := by
    intro i hi hzero
    rw [List.getElem?_map, List.getElem?_append_left hi, List.getElem?_eq_getElem hi,
      Option.map_some, Option.some.injEq, xor_semicolon] at hzero
    exact free (hzero ▸ List.getElem_mem hi)
  obtain ⟨hset, hclear⟩ := zeroBytes_lowest (n := 8)
    (by rw [List.length_map]; exact hlen) hk below
  rw [hasSemicolon_word hlen]
  refine ⟨fun hzero => ?_, numberOfTrailingZeros_eq (by omega) hset hclear⟩
  rw [hzero] at hset
  simp at hset

/-- The word loop ends at the word with the first semicolon. -/
theorem findSemicolon_eq {mem : Buffer} {pos : ℕ} {name tail : List Byte}
    (h : mem.drop pos = name ++ semicolon :: tail) (free : semicolon ∉ name)
    (room : 7 ≤ tail.length) :
    ∃ nextPos s, findSemicolon mem pos = some (nextPos, s) ∧
      nextPos + (numberOfTrailingZeros s + 1) / 8 = pos + name.length + 1 := by
  induction hn : name.length using Nat.strong_induction_on generalizing name pos with
  | _ n ih =>
      subst hn
      by_cases hshort : name.length < 8
      · -- the semicolon is in this word
        have hsplit : name ++ semicolon :: tail =
            (name ++ semicolon :: tail.take (7 - name.length)) ++ tail.drop (7 - name.length) := by
          rw [List.append_assoc, List.cons_append, List.take_append_drop]
        have hlen : (name ++ semicolon :: tail.take (7 - name.length)).length = 8 := by
          rw [List.length_append, List.length_cons, List.length_take]
          omega
        have hread := readLong_of_drop (h.trans hsplit) hlen
        obtain ⟨hne, hzeros⟩ := numberOfTrailingZeros_hasSemicolon hlen free
        have hfind : findSemicolon mem pos = some (pos, hasSemicolon (word 64
            (name ++ semicolon :: tail.take (7 - name.length)))) := by
          rw [findSemicolon, hread]
          simp only [hne, if_false]
        refine ⟨pos, _, hfind, ?_⟩
        rw [hzeros]
        omega
      · -- all eight bytes belong to the name
        have hsplit : name ++ semicolon :: tail =
            name.take 8 ++ (name.drop 8 ++ semicolon :: tail) := by
          rw [← List.append_assoc, List.take_append_drop]
        have hlen : (name.take 8).length = 8 := by
          rw [List.length_take]
          omega
        have hread := readLong_of_drop (h.trans hsplit) hlen
        have hzero := hasSemicolon_eq_zero hlen fun hmem => free (List.mem_of_mem_take hmem)
        have hnext : mem.drop (pos + 8) = name.drop 8 ++ semicolon :: tail := by
          rw [← List.drop_drop, h.trans hsplit, List.drop_left' hlen]
        obtain ⟨nextPos, s, hfind, hpos⟩ := ih (name.drop 8).length
          (by rw [List.length_drop]; omega) hnext (fun hmem => free (List.mem_of_mem_drop hmem)) rfl
        have hfind' : findSemicolon mem pos = some (nextPos, s) := by
          rw [findSemicolon, hread]
          simpa only [hzero, if_true] using hfind
        refine ⟨nextPos, s, hfind', ?_⟩
        rw [hpos, List.length_drop]
        omega

end Semicolon

namespace TemperatureLookup

/-- An update that succeeds is never overwritten by the later ones that succeed. -/
theorem foldlM_update_get {es : List Entry} {tables final : List JInt × List Bool}
    (h : es.foldlM update tables = some final) {i : ℕ} {v : JInt}
    (done : tables.2[i]? = some true) (hv : tables.1[i]? = some v) :
    final.1[i]? = some v := by
  induction es generalizing tables with
  | nil =>
      obtain rfl : tables = final := by simpa using h
      exact hv
  | cons e es ih =>
      rw [List.foldlM_cons] at h
      obtain ⟨next, hnext, hrest⟩ := Option.bind_eq_some_iff.mp h
      rw [update] at hnext
      obtain ⟨d, hd, hset⟩ := Option.bind_eq_some_iff.mp hnext
      cases d with
      | true => simp at hset
      | false =>
          have hne : (e.index &&& 255).toNat ≠ i := by
            intro same
            rw [same, done] at hd
            simp at hd
          obtain rfl : (tables.1.set (e.index &&& 255).toNat ((e.value <<< 3) ||| e.delta),
              tables.2.set (e.index &&& 255).toNat true) = next := by simpa using hset
          exact ih hrest (by rw [List.getElem?_set_ne hne, done])
            (by rw [List.getElem?_set_ne hne, hv])

/-- Since the check for reversibility passes, every entry keeps its value. -/
theorem foldlM_update_mem {es : List Entry} {tables final : List JInt × List Bool}
    (h : es.foldlM update tables = some final) (hlen : tables.1.length = tables.2.length)
    {e : Entry} (he : e ∈ es) :
    final.1[(e.index &&& 255).toNat]? = some ((e.value <<< 3) ||| e.delta) := by
  induction es generalizing tables with
  | nil => simp at he
  | cons a es ih =>
      rw [List.foldlM_cons] at h
      obtain ⟨next, hnext, hrest⟩ := Option.bind_eq_some_iff.mp h
      rw [update] at hnext
      obtain ⟨d, hd, hset⟩ := Option.bind_eq_some_iff.mp hnext
      have hlt : (a.index &&& 255).toNat < tables.2.length := (List.getElem?_eq_some_iff.mp hd).1
      cases d with
      | true => simp at hset
      | false =>
          obtain rfl : (tables.1.set (a.index &&& 255).toNat ((a.value <<< 3) ||| a.delta),
              tables.2.set (a.index &&& 255).toNat true) = next := by simpa using hset
          obtain rfl | he := List.mem_cons.mp he
          · exact foldlM_update_get hrest (List.getElem?_set_self hlt)
              (List.getElem?_set_self (by rw [hlen]; exact hlt))
          · exact ih hrest (by simpa using hlen) he

/-- The hash is reversible on the bytes that occur: building a table succeeds. -/
theorem isSome_make : ∀ isFirst isNegative : Bool,
    ((entries isFirst isNegative).foldlM update
      (List.replicate 256 0, List.replicate 256 false)).isSome = true := by
  decide +kernel

/-- A lookup at the hash of a pattern finds its entry. -/
theorem lookup_eq {isFirst isNegative : Bool} {e : Entry} (he : e ∈ entries isFirst isNegative)
    {b : JLong} (hb : (b &&& 255).toNat = (e.index &&& 255).toNat) :
    lookup isFirst isNegative b =
      some (adjust isFirst isNegative ((e.value <<< 3) ||| e.delta)) := by
  obtain ⟨final, hfinal⟩ := Option.isSome_iff_exists.mp (isSome_make isFirst isNegative)
  have hget := foldlM_update_mem hfinal (by rw [List.length_replicate, List.length_replicate]) he
  simp only [lookup, make, hfinal, Option.bind_eq_bind, Option.bind_some, hb, List.getElem?_map,
    hget, Option.map_some]

theorem toNat_and_seven (x : JInt) : (x &&& 7).toNat = x.toNat % 8 := by
  rw [BitVec.toNat_and]
  exact Nat.and_two_pow_sub_one_eq_mod x.toNat 3

/-- The delta fits into the bits that the shift frees. -/
theorem shift_or_eq (v : ℤ) {d : ℕ} (hd : d < 8) :
    (BitVec.ofInt 32 v <<< 3) ||| BitVec.ofNat 32 d = BitVec.ofInt 32 (8 * v + d) := by
  have hdisjoint : (BitVec.ofInt 32 v <<< 3) &&& BitVec.ofNat 32 d = 0#32 := by
    apply BitVec.eq_of_getLsbD_eq
    intro i hi
    rw [BitVec.getLsbD_and, BitVec.getLsbD_shiftLeft, BitVec.getLsbD_ofNat]
    by_cases h3 : i < 3
    · simp [h3]
    · have hpow : 2 ^ 3 ≤ 2 ^ i := Nat.pow_le_pow_right (by decide) (by omega)
      have hsmall : d < 2 ^ i := by omega
      simp [Nat.testBit_lt_two_pow hsmall]
  rw [← BitVec.add_eq_or_of_and_eq_zero _ _ hdisjoint, BitVec.shiftLeft_eq_mul_twoPow,
    BitVec.ofInt_add, BitVec.ofInt_mul, BitVec.mul_comm, BitVec.ofInt_natCast]
  rfl

/-- The count is read back from a packed number. -/
theorem toNat_ofInt_and_seven (v : ℤ) {c : ℕ} (hc : c < 8) :
    (BitVec.ofInt 32 (8 * v + c) &&& 7).toNat = c := by
  rw [toNat_and_seven, BitVec.toNat_ofInt]
  omega

/-- The value is read back from a packed number. -/
theorem sshiftRight_ofInt {v : ℤ} (hlow : -999 ≤ v) (hhigh : v ≤ 999) {c : ℕ} (hc : c < 8) :
    ((BitVec.ofInt 32 (8 * v + c)).sshiftRight 3).setWidth 16 = BitVec.ofInt 16 v := by
  have htoInt : (BitVec.ofInt 32 (8 * v + c)).toInt = 8 * v + c := by
    rw [BitVec.toInt_ofInt, Int.bmod_eq_of_le] <;> omega
  have hshift : ((BitVec.ofInt 32 (8 * v + c)).sshiftRight 3).toInt = v := by
    rw [BitVec.toInt_sshiftRight, htoInt, Int.shiftRight_eq_div_pow]
    omega
  have hof : (BitVec.ofInt 32 (8 * v + c)).sshiftRight 3 = BitVec.ofInt 32 v :=
    BitVec.ofInt_toInt.symm.trans (congrArg (BitVec.ofInt 32) hshift)
  rw [hof]
  apply BitVec.eq_of_toNat_eq
  rw [BitVec.toNat_setWidth, BitVec.toNat_ofInt, BitVec.toNat_ofInt]
  omega

theorem signed_ofNat (isNegative : Bool) (n : ℕ) :
    signed isNegative (BitVec.ofNat 32 n) = BitVec.ofInt 32 (if isNegative then -n else n) := by
  cases isNegative with
  | false => exact (BitVec.ofInt_natCast _ _).symm
  | true =>
      change -BitVec.ofNat 32 n = BitVec.ofInt 32 (-n)
      rw [BitVec.ofInt_neg, BitVec.ofInt_natCast]

/-- The hash of two neighbouring bytes of a word appears in the folded word. -/
theorem index_eq (bs : List Byte) {k : ℕ} {lo hi : Byte} (hk : k ≤ 5) (hlo : bs[k]? = some lo)
    (hhi : bs[k + 1]? = some hi) (ascii : lo.getLsbD 7 = false) :
    (((word 64 bs ^^^ (word 64 bs).sshiftRight 4).sshiftRight (8 * k)) &&& 255).toNat =
      (hash hi lo &&& 255).toNat := by
  have h255 (w : ℕ) (i : ℕ) (hi : i < w) : (BitVec.ofNat w 255).getLsbD i = decide (i < 8) := by
    rw [show 255 = 2 ^ 8 - 1 from rfl, BitVec.getLsbD_ofNat, Nat.testBit_two_pow_sub_one]
    simp [hi]
  have hbit (j r : ℕ) (hr : r < 8) (hj : 8 * j + r < 64) {b : Byte} (hb : bs[j]? = some b) :
      (word 64 bs).getLsbD (8 * j + r) = b.getLsbD r := by
    rw [getLsbD_word bs hr hj, hb, Option.getD_some]
  have hsign (b : Byte) (i : ℕ) (hi : i < 32) :
      (b.signExtend 32).getLsbD i = if i < 8 then b.getLsbD i else b.getLsbD 7 := by
    rw [BitVec.getLsbD_signExtend, BitVec.msb_eq_getLsbD_last]
    simp [hi]
  apply Nat.eq_of_testBit_eq
  intro i
  change (_ &&& _ : JLong).getLsbD i = (_ &&& _ : JInt).getLsbD i
  by_cases h8 : i < 8
  · -- bit `i` of `lo` against the bit four places above it
    have hleft : ((word 64 bs ^^^ (word 64 bs).sshiftRight 4).sshiftRight (8 * k)).getLsbD i =
        (lo.getLsbD i ^^ if i < 4 then lo.getLsbD (i + 4) else hi.getLsbD (i - 4)) := by
      rw [BitVec.getLsbD_sshiftRight, if_pos (by omega), BitVec.getLsbD_xor,
        BitVec.getLsbD_sshiftRight, if_pos (by omega), hbit k i h8 (by omega) hlo]
      by_cases h4 : i < 4
      · rw [if_pos h4, show 4 + (8 * k + i) = 8 * k + (i + 4) by omega,
          hbit k (i + 4) (by omega) (by omega) hlo]
        simp [show ¬ 64 ≤ i by omega, show ¬ 64 ≤ 8 * k + i by omega]
      · rw [if_neg h4, show 4 + (8 * k + i) = 8 * (k + 1) + (i - 4) by omega,
          hbit (k + 1) (i - 4) (by omega) (by omega) hhi]
        simp [show ¬ 64 ≤ i by omega, show ¬ 64 ≤ 8 * k + i by omega]
    have hright : (hash hi lo).getLsbD i =
        (lo.getLsbD i ^^ if i < 4 then lo.getLsbD (i + 4) else hi.getLsbD (i - 4)) := by
      rw [hash, BitVec.getLsbD_xor, BitVec.getLsbD_xor, BitVec.getLsbD_shiftLeft,
        BitVec.getLsbD_sshiftRight, if_pos (by omega), hsign lo i (by omega),
        hsign lo (4 + i) (by omega), if_pos h8]
      by_cases h4 : i < 4
      · rw [if_pos h4, if_pos (by omega), Nat.add_comm 4 i]
        simp [h4]
        omega
      · rw [if_neg h4, if_neg (by omega), hsign hi (i - 4) (by omega), if_pos (by omega), ascii]
        simp [h4, Bool.xor_comm]
        omega
    rw [BitVec.getLsbD_and, BitVec.getLsbD_and, hleft, hright]
    exact congrArg _ ((h255 64 i (by omega)).trans (h255 32 i (by omega)).symm)
  · have hfar (w : ℕ) : (BitVec.ofNat w 255).getLsbD i = false := by
      by_cases hw : i < w
      · rw [h255 w i hw]
        simp [h8]
      · exact BitVec.getLsbD_of_ge _ _ (by omega)
    rw [BitVec.getLsbD_and, BitVec.getLsbD_and]
    rw [show (255 : JLong).getLsbD i = false from hfar 64,
      show (255 : JInt).getLsbD i = false from hfar 32, Bool.and_false, Bool.and_false]

section Patterns

variable {b : JLong} {lo hi : Byte} (isNegative : Bool)

/-- The first table holds the value of two bytes, `XY` or `Y.`, and consumes them. -/
theorem lookup_first {n : ℕ} (pattern :
    (∃ x y, lo = digitByte x ∧ hi = digitByte y ∧ n = y.val * 10 + x.val * 100) ∨
      ∃ y, lo = digitByte y ∧ hi = dot ∧ n = 10 * y.val)
    (hb : (b &&& 255).toNat = (hash hi lo &&& 255).toNat) :
    lookup true isNegative b =
      some (BitVec.ofInt 32 (8 * (if isNegative then -(n : ℤ) else n) + (2 : ℕ))) := by
  have found (he : ⟨hash hi lo, signed isNegative (BitVec.ofNat 32 n), 2⟩ ∈
      entries true isNegative) : lookup true isNegative b =
        some (BitVec.ofInt 32 (8 * (if isNegative then -(n : ℤ) else n) + (2 : ℕ))) := by
    rw [lookup_eq he hb]
    have hpack := shift_or_eq (if isNegative then -(n : ℤ) else n) (d := 2) (by decide)
    rw [← signed_ofNat] at hpack
    exact congrArg some hpack
  apply found
  obtain ⟨x, y, rfl, rfl, rfl⟩ | ⟨y, rfl, rfl, rfl⟩ := pattern
  · refine List.mem_append_left _ (List.mem_append_left _ (List.mem_append_left _ ?_))
    refine List.mem_flatMap.mpr ⟨x, List.mem_finRange x,
      List.mem_map.mpr ⟨y, List.mem_finRange y, ?_⟩⟩
    rw [BitVec.ofNat_add, BitVec.ofNat_mul, BitVec.ofNat_mul]
    rfl
  · refine List.mem_append_left _ (List.mem_append_right _ ?_)
    refine List.mem_map.mpr ⟨y, List.mem_finRange y, ?_⟩
    rw [BitVec.ofNat_mul]
    rfl

/-- The second table holds the value of `.Z` or `Z` and the newline, and consumes
them with the newline and the minus sign. -/
theorem lookup_second {n c : ℕ} (pattern :
    (∃ z, lo = dot ∧ hi = digitByte z ∧ n = z.val ∧ c = 2) ∨
      ∃ z, lo = digitByte z ∧ hi = newline ∧ n = z.val ∧ c = 1)
    (hb : (b &&& 255).toNat = (hash hi lo &&& 255).toNat) :
    lookup false isNegative b = some (BitVec.ofInt 32 (8 * (if isNegative then -(n : ℤ) else n) +
      (c + if isNegative then 2 else 1 : ℕ))) := by
  have hsmall : c < 8 := by
    obtain ⟨z, -, -, -, rfl⟩ | ⟨z, -, -, -, rfl⟩ := pattern <;> decide
  have he : ⟨hash hi lo, signed isNegative (BitVec.ofNat 32 n), BitVec.ofNat 32 c⟩ ∈
      entries false isNegative := by
    obtain ⟨z, rfl, rfl, rfl, rfl⟩ | ⟨z, rfl, rfl, rfl, rfl⟩ := pattern
    · exact List.mem_append_left _ (List.mem_append_left _ (List.mem_append_right _
        (List.mem_map.mpr ⟨z, List.mem_finRange z, rfl⟩)))
    · exact List.mem_append_right _ (List.mem_map.mpr ⟨z, List.mem_finRange z, rfl⟩)
  have hadjust : (if isNegative then (1 : JInt) else 0) + 1 =
      BitVec.ofInt 32 ((if isNegative then 2 else 1 : ℕ) : ℤ) := by
    cases isNegative <;> rfl
  rw [lookup_eq he hb, signed_ofNat, shift_or_eq _ hsmall, adjust, if_neg Bool.false_ne_true,
    hadjust, ← BitVec.ofInt_add, Nat.cast_add, add_assoc]

end Patterns

end TemperatureLookup

namespace FastShardProcessorState

open TemperatureLookup

private theorem digitByte_ascii : ∀ d : Fin 10, (digitByte d).getLsbD 7 = false := by
  decide

/-- The byte at the address decides between the tables. -/
theorem and_ff_eq_minus {b : Byte} {bs : List Byte} :
    word 64 (b :: bs) &&& 0xFF = 0x2D ↔ b = minus := by
  have hlow : (word 64 (b :: bs) &&& 0xFF).toNat = b.toNat := by
    have hb := b.isLt
    rw [BitVec.toNat_and]
    change (word 64 (b :: bs)).toNat &&& (2 ^ 8 - 1) = b.toNat
    rw [Nat.and_two_pow_sub_one_eq_mod, word, BitVec.toNat_ofNat, value_cons]
    omega
  constructor
  · intro h
    apply BitVec.eq_of_toNat_eq
    rw [← hlow, h]
    rfl
  · rintro rfl
    apply BitVec.eq_of_toNat_eq
    rw [hlow]
    rfl

/-- The two lookups, four bytes from the sign on. -/
theorem readTemperature_of_pattern {mem : Buffer} {pos n m c : ℕ} {negative : Bool}
    {p0 p1 p2 p3 : Byte} {rest : List Byte}
    (h : mem.drop pos = (if negative then [minus] else []) ++ p0 :: p1 :: p2 :: p3 :: rest)
    (room : 4 ≤ rest.length) (sign : p0 ≠ minus) (ascii0 : p0.getLsbD 7 = false)
    (ascii2 : p2.getLsbD 7 = false)
    (first : (∃ x y, p0 = digitByte x ∧ p1 = digitByte y ∧ n = y.val * 10 + x.val * 100) ∨
      ∃ y, p0 = digitByte y ∧ p1 = dot ∧ n = 10 * y.val)
    (second : (∃ z, p2 = dot ∧ p3 = digitByte z ∧ m = z.val ∧ c = 2) ∨
      ∃ z, p2 = digitByte z ∧ p3 = newline ∧ m = z.val ∧ c = 1) :
    readTemperature mem pos =
      some (BitVec.ofInt 32 (8 * (if negative then -((n + m : ℕ) : ℤ) else (n + m : ℕ)) +
        (2 + c + if negative then 2 else 1 : ℕ))) := by
  obtain ⟨a1, a2, a3, a4, rest, rfl⟩ :
      ∃ a1 a2 a3 a4 rest', rest = a1 :: a2 :: a3 :: a4 :: rest' := by
    match rest, room with
    | a1 :: a2 :: a3 :: a4 :: rest, _ => exact ⟨a1, a2, a3, a4, rest, rfl⟩
  cases negative with
  | false =>
      have hread : readLong mem pos = some (word 64 [p0, p1, p2, p3, a1, a2, a3, a4]) :=
        readLong_of_drop h rfl
      have hf := lookup_first false first
        (index_eq [p0, p1, p2, p3, a1, a2, a3, a4] (k := 0) (by decide) rfl rfl ascii0)
      have hs := lookup_second false second
        (index_eq [p0, p1, p2, p3, a1, a2, a3, a4] (k := 2) (by decide) rfl rfl ascii2)
      rw [readTemperature, hread]
      simp only [Option.bind_eq_bind, Option.bind_some, and_ff_eq_minus, sign, if_false, firstPos,
        secondPos]
      rw [hf, Option.bind_some, hs, Option.bind_some, ← BitVec.ofInt_add]
      refine congrArg (fun v => some (BitVec.ofInt 32 v)) ?_
      simp only [Bool.false_eq_true, if_false]
      omega
  | true =>
      have hread : readLong mem pos = some (word 64 [minus, p0, p1, p2, p3, a1, a2, a3]) :=
        readLong_of_drop h rfl
      have hf := lookup_first true first
        (index_eq [minus, p0, p1, p2, p3, a1, a2, a3] (k := 1) (by decide) rfl rfl ascii0)
      have hs := lookup_second true second
        (index_eq [minus, p0, p1, p2, p3, a1, a2, a3] (k := 3) (by decide) rfl rfl ascii2)
      rw [readTemperature, hread]
      simp only [Option.bind_eq_bind, Option.bind_some, and_ff_eq_minus, if_true, firstNeg,
        secondNeg]
      rw [hf, Option.bind_some, hs, Option.bind_some, ← BitVec.ofInt_add]
      refine congrArg (fun v => some (BitVec.ofInt 32 v)) ?_
      simp only [if_true]
      omega

/-- The temperature in tenths of a degree, packed with the count of the bytes up
to the next line. -/
theorem readTemperature_eq {mem : Buffer} {pos : ℕ} {temp : Temperature} {after : List Byte}
    (h : mem.drop pos = temp.bytes ++ newline :: after) (room : 4 ≤ after.length) :
    readTemperature mem pos =
      some (BitVec.ofInt 32 (8 * temp.value + (temp.bytes.length + 1 : ℕ))) := by
  obtain ⟨negative, tens, ones, tenths⟩ := temp
  have notMinus (d : Fin 10) : digitByte d ≠ minus := (digitByte_ne_separator d).2.2.1
  cases tens with
  | none =>
      rw [readTemperature_of_pattern (n := 10 * ones.val) (m := tenths.val) (c := 1)
        (by simpa [Temperature.bytes] using h) room (notMinus ones) (digitByte_ascii ones)
        (digitByte_ascii tenths) (Or.inr ⟨ones, rfl, rfl, rfl⟩)
        (Or.inr ⟨tenths, rfl, rfl, rfl, rfl⟩)]
      refine congrArg (fun v => some (BitVec.ofInt 32 v)) ?_
      cases negative <;> simp [Temperature.value, Temperature.magnitude, Temperature.bytes]
  | some tens =>
      rw [readTemperature_of_pattern (n := ones.val * 10 + tens.val * 100)
        (m := tenths.val) (c := 2)
        (by simpa [Temperature.bytes] using h)
        (by rw [List.length_cons]; omega) (notMinus tens) (digitByte_ascii tens) (by decide)
        (Or.inl ⟨tens, ones, rfl, rfl, rfl⟩) (Or.inl ⟨tenths, rfl, rfl, rfl, rfl⟩)]
      refine congrArg (fun v => some (BitVec.ofInt 32 v)) ?_
      cases negative <;>
        simp [Temperature.value, Temperature.magnitude, Temperature.bytes] <;> omega

theorem drop_name {mem : Buffer} {pos : ℕ} {name tail : List Byte}
    (h : mem.drop pos = name ++ semicolon :: tail) : mem.drop (pos + name.length + 1) = tail := by
  have hsplit : name ++ semicolon :: tail = (name ++ [semicolon]) ++ tail := by simp
  have hlen : (name ++ [semicolon]).length = name.length + 1 := by simp
  rw [Nat.add_assoc, ← List.drop_drop, h.trans hsplit, List.drop_left' hlen]

/-- The mask keeps the bytes below the semicolon. -/
theorem word_and_maskOf (bs rest : List Byte) :
    word 64 (bs ++ rest) &&& maskOf (8 * bs.length) = word 64 bs := by
  apply BitVec.eq_of_getLsbD_eq
  intro i hi
  obtain ⟨j, r, hr, rfl⟩ : ∃ j r, r < 8 ∧ i = 8 * j + r :=
    ⟨i / 8, i % 8, Nat.mod_lt _ (by decide), by omega⟩
  have hmask : (maskOf (8 * bs.length)).getLsbD (8 * j + r) = decide (j < bs.length) := by
    rw [maskOf, BitVec.getLsbD_not, BitVec.getLsbD_shiftLeft,
      show (-1 : JLong) = BitVec.allOnes 64 from rfl, BitVec.getLsbD_allOnes]
    by_cases hj : j < bs.length
    · simp only [hj, hi, show 8 * j + r < 8 * bs.length by omega, decide_true, Bool.not_true,
        Bool.false_and, Bool.and_false, Bool.not_false, Bool.and_true]
    · simp only [hj, hi, show ¬ 8 * j + r < 8 * bs.length by omega, decide_false, Bool.not_false,
        show 8 * j + r - 8 * bs.length < 64 by omega, decide_true, Bool.and_true, Bool.not_true,
        Bool.and_false]
  rw [BitVec.getLsbD_and, hmask, getLsbD_word _ hr hi, getLsbD_word _ hr hi]
  by_cases hj : j < bs.length
  · simp [hj, List.getElem?_append_left hj]
  · simp [hj]

/-- The hash of a name is that of its first eight bytes. -/
def nameHash (name : List Byte) : JInt := doHash (word 64 (name.take 8))

/-- On a line allowed by the rules the word-wise parser takes the name and the
temperature, hashes the name alone and stops just after the newline. -/
theorem processLine_eq {mem : Buffer} {pos : ℕ} {line : Line} {after : List Byte}
    (h : mem.drop pos = line.bytes ++ after) (room : 4 ≤ after.length) :
    processLine mem pos = some ⟨pos, line.name.length, nameHash line.name,
      BitVec.ofInt 16 line.temp.value, pos + line.bytes.length⟩ := by
  have hname : mem.drop pos =
      line.name ++ semicolon :: (line.temp.bytes ++ newline :: after) := by
    simpa [Line.bytes] using h
  have htail : 7 ≤ (line.temp.bytes ++ newline :: after).length := by
    have := line.temp.length_bytes
    rw [List.length_append, List.length_cons]
    omega
  have htemp := readTemperature_eq (drop_name hname) room
  obtain ⟨hlow, hhigh⟩ := line.temp.value_bounds
  have hcount : line.temp.bytes.length + 1 < 8 := by
    have := line.temp.length_bytes
    omega
  have hfinish (hash : JInt) : finishLine mem pos (pos + line.name.length + 1) hash =
      some ⟨pos, line.name.length, hash, BitVec.ofInt 16 line.temp.value,
        pos + line.bytes.length⟩ := by
    rw [finishLine, htemp]
    simp only [Option.bind_eq_bind, Option.bind_some, sshiftRight_ofInt hlow hhigh hcount,
      toNat_ofInt_and_seven _ hcount, Line.bytes, List.length_append, List.length_cons,
      List.length_nil]
    congr 2 <;> omega
  by_cases hshort : line.name.length < 8
  · -- the semicolon is in the first word
    obtain ⟨rest, after', hafter, hlen⟩ : ∃ rest after',
        line.temp.bytes ++ newline :: after = rest ++ after' ∧
          (line.name ++ semicolon :: rest).length = 8 := by
      refine ⟨_, _, (List.take_append_drop (7 - line.name.length) _).symm, ?_⟩
      rw [List.length_append, List.length_cons, List.length_take]
      omega
    have hread : readLong mem pos = some (word 64 (line.name ++ semicolon :: rest)) := by
      apply readLong_of_drop _ hlen
      · exact after'
      · rw [hname, hafter, List.append_assoc, List.cons_append]
    obtain ⟨hne, hzeros⟩ := numberOfTrailingZeros_hasSemicolon hlen line.no_semicolon
    rw [processLine, hread]
    simp only [Option.bind_eq_bind, Option.bind_some, hne, if_false, hzeros]
    have hpos : pos + (8 * line.name.length + 7 + 1) / 8 = pos + line.name.length + 1 := by omega
    have hbits : 8 * line.name.length + 7 + 1 - 8 = 8 * line.name.length := by omega
    rw [hpos, hbits, word_and_maskOf, hfinish, nameHash,
      List.take_of_length_le (Nat.le_of_lt hshort)]
  · -- the first word belongs to the name
    have hsplit : line.name ++ semicolon :: (line.temp.bytes ++ newline :: after) =
        line.name.take 8 ++ (line.name.drop 8 ++
          semicolon :: (line.temp.bytes ++ newline :: after)) := by
      rw [← List.append_assoc, List.take_append_drop]
    have hlen : (line.name.take 8).length = 8 := by
      rw [List.length_take]
      omega
    have hread := readLong_of_drop (hname.trans hsplit) hlen
    have hzero := hasSemicolon_eq_zero hlen fun hmem =>
      line.no_semicolon (List.mem_of_mem_take hmem)
    have hnext : mem.drop (pos + 8) =
        line.name.drop 8 ++ semicolon :: (line.temp.bytes ++ newline :: after) := by
      rw [← List.drop_drop, hname.trans hsplit, List.drop_left' hlen]
    obtain ⟨nextPos, s, hfind, hpos⟩ := findSemicolon_eq hnext
      (fun hmem => line.no_semicolon (List.mem_of_mem_drop hmem)) htail
    have hend : nextPos + (numberOfTrailingZeros s + 1) / 8 = pos + line.name.length + 1 := by
      rw [hpos, List.length_drop]
      omega
    rw [processLine, hread]
    simp only [Option.bind_eq_bind, Option.bind_some, hzero, if_true, hfind, hend]
    exact hfinish _

/-- Parsing by words agrees with the rules: `addDataPoint` gets the place and
length of the name, its temperature in tenths and the hash of the name's bytes,
whatever follows the line. Four of the following bytes are read with it. -/
theorem processLine_addDataPoint {mem : Buffer} {pos : ℕ} {line : Line} {after : List Byte}
    (h : mem.drop pos = line.bytes ++ after) (room : 4 ≤ after.length) :
    ∃ fast, processLine mem pos = some fast ∧ fast.srcAddr = pos ∧
      fast.len = line.name.length ∧ fast.temperature.toInt = line.temp.value ∧
      fast.hash32 = nameHash line.name ∧ fast.next = pos + line.bytes.length := by
  refine ⟨_, processLine_eq h room, rfl, rfl, ?_, rfl, rfl⟩
  obtain ⟨hlow, hhigh⟩ := line.temp.value_bounds
  rw [BitVec.toInt_ofInt, Int.bmod_eq_of_le] <;> omega

/-- A name with a byte above `0x7F`, a negative temperature, and `after` too short
to be another line. -/
theorem processLine_addDataPoint_umlaut : ∃ fast,
    processLine [0xC3, 0xBC, 0x3B, 0x2D, 0x30, 0x2E, 0x37, 0x0A, 0x3B, 0x3B, 0x0A, 0x3B] 0 =
      some fast ∧ fast.srcAddr = 0 ∧ fast.len = 2 ∧ fast.temperature.toInt = -7 ∧
      fast.hash32 = nameHash [0xC3, 0xBC] ∧ fast.next = 8 := by
  have hmem : List.drop 0 ([0xC3, 0xBC, 0x3B, 0x2D, 0x30, 0x2E, 0x37, 0x0A, 0x3B, 0x3B, 0x0A,
      0x3B] : Buffer) = Line.bytes ⟨[0xC3, 0xBC], ⟨true, none, 0, 7⟩, by decide, by decide,
        by decide, by decide⟩ ++ [0x3B, 0x3B, 0x0A, 0x3B] := rfl
  exact processLine_addDataPoint hmem (by decide)

theorem collectName_eq {mem : Buffer} {pos : ℕ} {name tail : List Byte} (baos : List Byte)
    (h : mem.drop pos = name ++ semicolon :: tail) (free : semicolon ∉ name) :
    collectName mem pos baos = some (baos ++ name, pos + name.length + 1) := by
  induction name generalizing pos baos with
  | nil =>
      have h0 : mem[pos]? = some semicolon := by
        have := congrArg (fun l => l[0]?) h
        simpa [List.getElem?_drop] using this
      rw [collectName, h0]
      simp
  | cons b name ih =>
      have hb : b ≠ semicolon := fun e => free (by simp [e])
      have h0 : mem[pos]? = some b := by
        have := congrArg (fun l => l[0]?) h
        simpa [List.getElem?_drop] using this
      have hnext : mem.drop (pos + 1) = name ++ semicolon :: tail := by
        rw [← List.drop_drop, h]
        rfl
      rw [collectName, h0]
      simp only [ne_eq, hb, not_false_eq_true, if_true]
      rw [ih (baos ++ [b]) hnext (fun hmem => free (by simp [hmem])), List.length_cons,
        List.append_assoc]
      simp only [List.singleton_append, Option.some.injEq, Prod.mk.injEq, true_and]
      omega

/-- The slow parser reads the name and the temperature exactly. -/
theorem processLineSlow_eq {mem : Buffer} {pos : ℕ} {line : Line} {after : List Byte}
    (h : mem.drop pos = line.bytes ++ after) :
    processLineSlow mem pos = some (line.name, line.temp.value, pos + line.bytes.length) := by
  have hname : mem.drop pos =
      line.name ++ semicolon :: (line.temp.bytes ++ newline :: after) := by
    simpa [Line.bytes] using h
  have htemp := drop_name hname
  rw [processLineSlow, collectName_eq [] hname line.no_semicolon]
  simp only [Option.bind_eq_bind, Option.bind_some]
  rw [ShardProcessorState.readTemperatureSlow_eq htemp]
  simp only [Option.bind_some, List.nil_append, Option.some.injEq, Prod.mk.injEq, true_and,
    Line.bytes, List.length_append, List.length_cons, List.length_nil]
  omega

end FastShardProcessorState

end Explore.OneBrc
