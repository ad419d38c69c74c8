import Explore.OneBrc.Line
import Explore.OneBrc.Stat

/-!
# Processing the lines of a shard

`ShardProcessorState` is the open-addressing table of one shard: a name and a
`Stat` for each slot. `processLine` is the fast parser, which reads the name
four bytes at a time; `processLineSlow` reads it byte by byte and is used on the
tail of the file. `none` stands for an exception thrown by a read past the
limit of the buffer, and for a probe loop that revisits every slot forever.

The temperatures both parsers build from lines allowed by the rules stay
between -999 and 999 (`Temperature.value_bounds`), so a Java `int` holding one
is modelled by an integer. Hashes are 32-bit words and do wrap.
-/

namespace Explore.OneBrc

open LittleEndian

structure ShardProcessorState where
  cityNames : List (Option (List Byte))
  stats : List (Option Stat)
  slotsMask : JInt
  deriving DecidableEq, Repr

/-- What a line parser hands to `linearProbe`, and where it stops. -/
structure ParsedLine where
  hash : JInt
  cityLen : Nat
  temperature : Int
  nextPos : Nat
  deriving DecidableEq, Repr

namespace ShardProcessorState

/-- `1 << slotsBits`. Java looks at the low five bits of a shift distance. -/
def slotCount (slotsBits : JInt) : JInt := (1 : JInt) <<< (slotsBits.toNat % 32)

/-- The constructor: `1 << slotsBits` empty slots, or an exception when that is
negative. -/
def new (slotsBits : JInt) : Option ShardProcessorState :=
  if (slotCount slotsBits).toInt < 0 then none
  else some
    { cityNames := List.replicate (slotCount slotsBits).toNat none
      stats := List.replicate (slotCount slotsBits).toNat none
      slotsMask := slotCount slotsBits - 1 }

/-- The name loop of `processLine`: four bytes a round, until one is `;`. -/
def scanName (order : ByteOrder) (mmb : Buffer) (nextPos : Nat) (hash : JInt) :
    Option (Nat × JInt) :=
  match _h : nativeInt order mmb nextPos with
  | none => none
  | some x =>
      if byteOf x 0 = semicolon then some (nextPos + 1, hash)
      else if byteOf x 1 = semicolon then some (nextPos + 2, hash * 31 + (0xFF &&& x))
      else if byteOf x 2 = semicolon then some (nextPos + 3, hash * 31 + (0xFFFF &&& x))
      else if byteOf x 3 = semicolon then some (nextPos + 4, hash * 31 + (0xFFFFFF &&& x))
      else scanName order mmb (nextPos + 4) (hash * 31 + x)
  termination_by mmb.length - nextPos
  decreasing_by
    have := lt_length_of_nativeInt _h
    omega

/-- The digit loop of `processLine`, entered after the first digit. -/
def scanTemperature (mmb : Buffer) (nextPos : Nat) (temperature : Int) : Option (Int × Nat) :=
  match _h : mmb[nextPos]? with
  | none => none
  | some nextByte =>
      if nextByte ≠ dot then
        scanTemperature mmb (nextPos + 1) (temperature * 10 + digitOf nextByte)
      else do
        let last ← mmb[nextPos + 1]?
        some (temperature * 10 + digitOf last, nextPos + 3)
  termination_by mmb.length - nextPos
  decreasing_by
    have := (List.getElem?_eq_some_iff.mp _h).1
    omega

/-- The temperature of `processLine`, from the byte after the semicolon on. -/
def readTemperature (mmb : Buffer) (nextPos : Nat) : Option (Int × Nat) := do
  let nextByte ← mmb[nextPos]?
  let negative := nextByte = minus
  let (temperature, nextPos') ←
    if negative then do
      let first ← mmb[nextPos + 1]?
      scanTemperature mmb (nextPos + 2) (digitOf first)
    else scanTemperature mmb (nextPos + 1) (digitOf nextByte)
  some (if negative then -temperature else temperature, nextPos')

/-- The part of `processLine` before the probe. -/
def parseLine (order : ByteOrder) (mmb : Buffer) (originalPos : Nat) : Option ParsedLine := do
  let (nextPos, hash) ← scanName order mmb originalPos 0
  let (temperature, nextPos') ← readTemperature mmb nextPos
  some ⟨hash, nextPos - 1 - originalPos, temperature, nextPos'⟩

/-- The nested name loops of `processLineSlow` in one: `i` counts the bytes of
the current group of four, each or-ed into `accumulated` sign-extended. -/
def scanNameSlow (mmb : Buffer) (nextPos : Nat) (hash : JInt) (i : Nat) (accumulated : JInt) :
    Option (Nat × JInt) :=
  match _h : mmb[nextPos]? with
  | none => none
  | some nextByte =>
      if nextByte = semicolon then
        some (nextPos + 1, if i > 0 then hash * 31 + accumulated else hash)
      else
        let accumulated' := accumulated ||| (nextByte.signExtend 32 <<< (8 * i))
        if i + 1 < 4 then scanNameSlow mmb (nextPos + 1) hash (i + 1) accumulated'
        else scanNameSlow mmb (nextPos + 1) (hash * 31 + accumulated') 0 0
  termination_by mmb.length - nextPos
  decreasing_by
    all_goals
      have := (List.getElem?_eq_some_iff.mp _h).1
      omega

/-- The temperature loop of `processLineSlow`, up to and including the newline. -/
def scanTemperatureSlow (mmb : Buffer) (nextPos : Nat) (temperature : Int) :
    Option (Int × Nat) :=
  match _h : mmb[nextPos]? with
  | none => none
  | some nextByte =>
      if nextByte = newline then some (temperature, nextPos + 1)
      else if nextByte ≠ minus ∧ nextByte ≠ dot then
        scanTemperatureSlow mmb (nextPos + 1) (temperature * 10 + digitOf nextByte)
      else scanTemperatureSlow mmb (nextPos + 1) temperature
  termination_by mmb.length - nextPos
  decreasing_by
    all_goals
      have := (List.getElem?_eq_some_iff.mp _h).1
      omega

def readTemperatureSlow (mmb : Buffer) (nextPos : Nat) : Option (Int × Nat) := do
  let first ← mmb[nextPos]?
  let negative := first = minus
  let (temperature, nextPos') ← scanTemperatureSlow mmb nextPos 0
  some (if negative then -temperature else temperature, nextPos')

/-- The part of `processLineSlow` before the probe. -/
def parseLineSlow (mmb : Buffer) (originalPos : Nat) : Option ParsedLine := do
  let (nextPos, hash) ← scanNameSlow mmb originalPos 0 0 0
  let (temperature, nextPos') ← readTemperatureSlow mmb nextPos
  some ⟨hash, nextPos - 1 - originalPos, temperature, nextPos'⟩

def copyFrom (mmb : Buffer) (offsetInMmb len : Nat) : Option (List Byte) :=
  (List.range len).mapM fun i => mmb[offsetInMmb + i]?

/-- `equals(left, right, offsetInMmb, len)` from index `i` on, with `n` left. -/
def equalsFrom (left : List Byte) (right : Buffer) (offsetInMmb i : Nat) : Nat → Option Bool
  | 0 => some true
  | n + 1 => do
      let l ← left[i]?
      let r ← right[offsetInMmb + i]?
      if l ≠ r then some false else equalsFrom left right offsetInMmb (i + 1) n

def equals (left : List Byte) (right : Buffer) (offsetInMmb len : Nat) : Option Bool :=
  equalsFrom left right offsetInMmb 0 len

/-- The test of `linearProbe`, whose `&&` does not compare names of other lengths. -/
def holdsName (curBytes : List Byte) (mmb : Buffer) (offsetInMmb len : Nat) : Option Bool :=
  if len = curBytes.length then equals curBytes mmb offsetInMmb len else some false

/-- The probe loop from slot `i`, for at most `rounds` rounds. -/
def linearProbeFrom (st : ShardProcessorState) (len : Nat) (temp : Int) (mmb : Buffer)
    (offsetInMmb : Nat) (i : JInt) : Nat → Option ShardProcessorState
  | 0 => none
  | rounds + 1 => do
      let curBytes ← st.cityNames[i.toNat]?
      match curBytes with
      | none => do
          let name ← copyFrom mmb offsetInMmb len
          some { st with
            cityNames := st.cityNames.set i.toNat (some name)
            stats := st.stats.set i.toNat (some (Stat.firstReading temp)) }
      | some bytes => do
          if ← holdsName bytes mmb offsetInMmb len then do
            let stat ← (← st.stats[i.toNat]?)
            some { st with stats := st.stats.set i.toNat (some (stat.mergeReading temp)) }
          else linearProbeFrom st len temp mmb offsetInMmb ((i + 1) &&& st.slotsMask) rounds

/-- `linearProbe`. After as many rounds as there are slots the loop is back at
its first slot with the table unchanged, so it would never end. -/
def linearProbe (st : ShardProcessorState) (len : Nat) (hash : JInt) (temp : Int) (mmb : Buffer)
    (offsetInMmb : Nat) : Option ShardProcessorState :=
  linearProbeFrom st len temp mmb offsetInMmb hash st.cityNames.length

/-- Record a parsed line in the table. -/
def record (st : ShardProcessorState) (mmb : Buffer) (originalPos : Nat) (p : ParsedLine) :
    Option (ShardProcessorState × Nat) := do
  let st' ← st.linearProbe p.cityLen (p.hash &&& st.slotsMask) p.temperature mmb originalPos
  some (st', p.nextPos)

def processLine (order : ByteOrder) (st : ShardProcessorState) (mmb : Buffer) (nextPos : Nat) :
    Option (ShardProcessorState × Nat) := do
  let p ← parseLine order mmb nextPos
  st.record mmb nextPos p

def processLineSlow (st : ShardProcessorState) (mmb : Buffer) (nextPos : Nat) :
    Option (ShardProcessorState × Nat) := do
  let p ← parseLineSlow mmb nextPos
  st.record mmb nextPos p

end ShardProcessorState

end Explore.OneBrc
