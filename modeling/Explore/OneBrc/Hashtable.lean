import Explore.Lib.Fuel
import Explore.OneBrc.Merge
import Explore.OneBrc.Unsafely

/-!
# The off-heap table of the non-idiomatic program

`Hashtable` keeps an entry of 32 bytes for each name in native memory: up to 14
bytes of the name, 16 bits of its hash, its length, and the statistics in fields
of 16 and 32 bits. What is left of a longer name goes to a region shared by all
entries, at an offset kept in 24 bits. With the 450th name the entries are copied
to a table of `2 ^ 16` slots.

Each allocation is a memory of its own, with offsets for addresses. A write
outside the region for names corrupts the heap, so nothing is said of what
follows it; the same goes for a read outside the memory that can be read. The
loops have no bound of their own and are given one.
-/

namespace Explore.OneBrc

open LittleEndian Memory Unsafely

/-- Why the table gives no result: the bound on the rounds of a loop is used up, a
check of an argument fails, or an access leaves the region for names. -/
inductive Fault
  | outOfFuel
  | checkArg
  | outOfRegion
  deriving DecidableEq, Repr

namespace EntryData

abbrev entrySizeBits : ℕ := 5
abbrev offsetStr : ℕ := 0
abbrev strFieldLen : ℕ := 14
abbrev offsetHash : ℕ := offsetStr + strFieldLen
abbrev offsetCityNameExtra : ℕ := offsetHash + 2
abbrev offsetLen : ℕ := offsetCityNameExtra + 3
abbrev offsetSum : ℕ := offsetLen + 1
abbrev offsetCount : ℕ := offsetSum + 4
abbrev offsetMax : ℕ := offsetCount + 4
abbrev offsetMin : ℕ := offsetMax + 2

section Fields

variable (mem : Memory) (baseAddress : ℕ)

def hash16 : BitVec 16 := mem.load 16 (baseAddress + offsetHash)
def cityNamesOffset : JInt := mem.load 32 (baseAddress + offsetCityNameExtra) &&& 0xFFFFFF
def len : Byte := mem.load 8 (baseAddress + offsetLen)
def sum : JInt := mem.load 32 (baseAddress + offsetSum)
def count : JInt := mem.load 32 (baseAddress + offsetCount)
def max : BitVec 16 := mem.load 16 (baseAddress + offsetMax)
def min : BitVec 16 := mem.load 16 (baseAddress + offsetMin)

def setHash16 (value : BitVec 16) : Memory := mem.store (baseAddress + offsetHash) value
def setLen (value : Byte) : Memory := mem.store (baseAddress + offsetLen) value
def setSum (value : JInt) : Memory := mem.store (baseAddress + offsetSum) value
def setCount (value : JInt) : Memory := mem.store (baseAddress + offsetCount) value
def setMax (value : BitVec 16) : Memory := mem.store (baseAddress + offsetMax) value
def setMin (value : BitVec 16) : Memory := mem.store (baseAddress + offsetMin) value

/-- The offset and the length in one write. -/
def setCityNameOffset (cityNamesOffset len : JInt) : Memory :=
  mem.store (baseAddress + offsetCityNameExtra) (cityNamesOffset ||| (len <<< 24))

def isPresent : Bool := 0 < (len mem baseAddress).toInt

/-- The fields are widened to the `int`s and `long`s of a `Stat`. -/
def stat : Stat :=
  ⟨(min mem baseAddress).toInt, (max mem baseAddress).toInt, (sum mem baseAddress).signExtend 64,
    (count mem baseAddress).signExtend 64⟩

end Fields

/-- `(short) Math.min(a, b)`. -/
def shortMin (a b : BitVec 16) : BitVec 16 := if a.toInt ≤ b.toInt then a else b

/-- `(short) Math.max(a, b)`. -/
def shortMax (a b : BitVec 16) : BitVec 16 := if a.toInt ≤ b.toInt then b else a

def update (mem : Memory) (baseAddress : ℕ) (temperature : BitVec 16) : Memory :=
  let mem := setMin mem baseAddress (shortMin (min mem baseAddress) temperature)
  let mem := setMax mem baseAddress (shortMax (max mem baseAddress) temperature)
  let mem := setCount mem baseAddress (count mem baseAddress + 1)
  setSum mem baseAddress (sum mem baseAddress + temperature.signExtend 32)

end EntryData

/-- The bytes of the region allocated for city names. -/
abbrev cityNamesSize : ℕ := 2 ^ 17

/-- The two blocks of a table, and how much of the second is in use. Of the memory
from `cityNamesBaseAddress` on, `cityNames.size` bytes can be read; the first
`cityNamesSize` are the region itself. -/
structure EntryMeta where
  entries : Block
  nEntriesBits : ℕ
  cityNames : Block
  cityNamesEnd : ℕ

namespace EntryMeta

def nEntries (m : EntryMeta) : ℕ := 1 <<< m.nEntriesBits

def hashMask (m : EntryMeta) : JInt := ((1 : JInt) <<< m.nEntriesBits) - 1

def zeroed : Memory := fun _ => 0

/-- The constructor for the first table; `readable` is the size of the memory from
`cityNamesBaseAddress` on that can be read. -/
def new (nEntriesBits readable : ℕ) : EntryMeta :=
  ⟨⟨zeroed, (1 <<< nEntriesBits) <<< EntryData.entrySizeBits⟩, nEntriesBits, ⟨zeroed, readable⟩, 0⟩

/-- The constructor that takes over the names of a table. -/
def grow (nEntriesBits : ℕ) (oldEntryMeta : EntryMeta) : EntryMeta :=
  ⟨⟨zeroed, (1 <<< nEntriesBits) <<< EntryData.entrySizeBits⟩, nEntriesBits,
    oldEntryMeta.cityNames, oldEntryMeta.cityNamesEnd⟩

def baseAddress (n : JInt) : ℕ := n.toNat <<< EntryData.entrySizeBits

def indexFromHash32 (m : EntryMeta) (hash32 : JInt) : JInt := hash32 &&& m.hashMask

def indexFromHash16 (m : EntryMeta) (hash16 : BitVec 16) : JInt :=
  m.indexFromHash32 (hash16.setWidth 32)

def nextIndex (m : EntryMeta) (index : JInt) : JInt := (index + 1) &&& m.hashMask

/-- The offset of the names to come, and the table after it moves on. -/
def getAndIncrementCityNames (m : EntryMeta) (len : ℕ) : JInt × EntryMeta :=
  (BitVec.ofNat 32 m.cityNamesEnd,
    { m with cityNamesEnd := m.cityNamesEnd + (len + 7) >>> 3 <<< 3 })

end EntryMeta

/-- The arguments of `addDataPoint`, with the memory that `srcAddr` points into. -/
structure DataPoint where
  src : Memory
  srcAddr : ℕ
  len : ℕ
  hash32 : JInt
  temperature : BitVec 16

namespace DataPoint

def name (d : DataPoint) : List Byte := d.src.readBytes d.srcAddr d.len

def hash16 (d : DataPoint) : BitVec 16 := d.hash32.setWidth 16

def reading (d : DataPoint) : List Byte × Int := (d.name, d.temperature.toInt)

end DataPoint

def orFault {α : Type} : Option α → Except Fault α
  | none => .error .outOfRegion
  | some a => .ok a

namespace EntryData

open EntryMeta

/-- The last writes of `init`. -/
def initStat (mem : Memory) (baseAddress : ℕ) (hash16 temperature : BitVec 16) : Memory :=
  let mem := setHash16 mem baseAddress hash16
  let mem := setSum mem baseAddress (temperature.signExtend 32)
  let mem := setCount mem baseAddress 1
  let mem := setMax mem baseAddress temperature
  setMin mem baseAddress temperature

def init (m : EntryMeta) (baseAddress : ℕ) (d : DataPoint) : Except Fault EntryMeta :=
  let str := m.entries.bytes.writeBytes (baseAddress + offsetStr)
    (d.src.readBytes d.srcAddr (Nat.min d.len strFieldLen))
  if d.len > strFieldLen then
    let remaining := d.len - strFieldLen
    let (cityNamesOffset, m) := m.getAndIncrementCityNames remaining
    if cityNamesOffset.toNat + remaining ≤ cityNamesSize then
      let names := m.cityNames.bytes.writeBytes cityNamesOffset.toNat
        (d.src.readBytes (d.srcAddr + strFieldLen) remaining)
      let mem := setCityNameOffset str baseAddress cityNamesOffset (BitVec.ofNat 32 d.len)
      .ok { m with
        cityNames := { m.cityNames with bytes := names }
        entries := { m.entries with bytes := initStat mem baseAddress d.hash16 d.temperature } }
    else .error .outOfRegion
  else
    let mem := setLen str baseAddress (BitVec.ofNat 8 d.len)
    .ok { m with
      entries := { m.entries with bytes := initStat mem baseAddress d.hash16 d.temperature } }

/-- The comparison of the strings in `updateOnMatch`. -/
def sameString (m : EntryMeta) (baseAddress : ℕ) (d : DataPoint) : Option Bool := do
  if d.len ≤ strFieldLen then «matches» d.src d.srcAddr m.entries (baseAddress + offsetStr) d.len
  else if ¬ (← «matches» d.src d.srcAddr m.entries (baseAddress + offsetStr) strFieldLen) then
    some false
  else
    «matches» d.src (d.srcAddr + strFieldLen) m.cityNames
      (cityNamesOffset m.entries.bytes baseAddress).toNat (d.len - strFieldLen)

/-- `updateOnMatch`, with the table after the update or nothing for `false`. -/
def updateOnMatch (m : EntryMeta) (baseAddress : ℕ) (d : DataPoint) :
    Except Fault (Option EntryMeta) := do
  if (len m.entries.bytes baseAddress).toInt ≠ d.len then .ok none
  else if hash16 m.entries.bytes baseAddress ≠ d.hash16 then .ok none
  else if ¬ (← orFault (sameString m baseAddress d)) then .ok none
  else .ok (some { m with entries :=
    { m.entries with bytes := update m.entries.bytes baseAddress d.temperature } })

/-- The bytes of `cityNameString`. -/
def cityNameBytes (m : EntryMeta) (baseAddress : ℕ) : Option (List Byte) :=
  let len := (len m.entries.bytes baseAddress).toNat
  let str := m.entries.bytes.readBytes baseAddress (Nat.min len strFieldLen)
  if len > strFieldLen then
    let rem := len - strFieldLen
    let ptr := (cityNamesOffset m.entries.bytes baseAddress).toNat
    if ptr + rem ≤ m.cityNames.size then some (str ++ m.cityNames.bytes.readBytes ptr rem) else none
  else some str

end EntryData

structure Hashtable where
  nFilledEntries : ℕ
  entryMeta : EntryMeta

namespace Hashtable

open EntryData EntryMeta

def new (slotsBits readable : ℕ) : Hashtable := ⟨0, EntryMeta.new slotsBits readable⟩

/-- The loop of `getNewEntry` from `index` on. -/
def newEntryFrom (newEntryMeta : EntryMeta) : (rounds : ℕ) → JInt → Except Fault JInt
  | 0, _ => .error .outOfFuel
  | rounds + 1, index =>
      if ¬ isPresent newEntryMeta.entries.bytes (baseAddress index) then .ok index
      else newEntryFrom newEntryMeta rounds (newEntryMeta.nextIndex index)

def getNewEntry (fuel : ℕ) (oldEntry : ℕ) (oldEntryMeta newEntryMeta : EntryMeta) :
    Except Fault JInt :=
  newEntryFrom newEntryMeta fuel
    (newEntryMeta.indexFromHash16 (hash16 oldEntryMeta.entries.bytes oldEntry))

/-- The body of the loop of `reHash` at slot `i`. -/
def copyEntry (fuel : ℕ) (oldEntryMeta newEntryMeta : EntryMeta) (i : ℕ) :
    Except Fault EntryMeta := do
  let oldEntry := baseAddress (BitVec.ofNat 32 i)
  if isPresent oldEntryMeta.entries.bytes oldEntry then
    let index ← getNewEntry fuel oldEntry oldEntryMeta newEntryMeta
    .ok { newEntryMeta with entries := { newEntryMeta.entries with
      bytes := newEntryMeta.entries.bytes.writeBytes (baseAddress index)
        (oldEntryMeta.entries.bytes.readBytes oldEntry (1 <<< entrySizeBits)) } }
  else .ok newEntryMeta

def reHash (fuel : ℕ) (table : Hashtable) (newNEntriesBits : ℕ) : Except Fault Hashtable := do
  let oldEntryMeta := table.entryMeta
  if ¬ newNEntriesBits ≤ 16 then .error .checkArg
  else if ¬ newNEntriesBits > oldEntryMeta.nEntriesBits then .error .checkArg
  else
    let newEntryMeta ← (List.range oldEntryMeta.nEntries).foldlM (copyEntry fuel oldEntryMeta)
      (grow newNEntriesBits oldEntryMeta)
    .ok { table with entryMeta := newEntryMeta }

def onNewEntry (fuel : ℕ) (table : Hashtable) : Except Fault Hashtable :=
  let table := { table with nFilledEntries := table.nFilledEntries + 1 }
  if table.nFilledEntries = 450 then reHash fuel table 16 else .ok table

/-- The loop of `addDataPoint` from `index` on. -/
def addDataPointFrom (fuel : ℕ) (table : Hashtable) (d : DataPoint) :
    (rounds : ℕ) → JInt → Except Fault Hashtable
  | 0, _ => .error .outOfFuel
  | rounds + 1, index => do
      let entry := baseAddress index
      if ¬ isPresent table.entryMeta.entries.bytes entry then
        let entryMeta ← init table.entryMeta entry d
        onNewEntry fuel { table with entryMeta := entryMeta }
      else
        match ← updateOnMatch table.entryMeta entry d with
        | some entryMeta => .ok { table with entryMeta := entryMeta }
        | none => addDataPointFrom fuel table d rounds (table.entryMeta.nextIndex index)

def addDataPoint (fuel : ℕ) (table : Hashtable) (d : DataPoint) : Except Fault Hashtable :=
  addDataPointFrom fuel table d fuel (table.entryMeta.indexFromHash32 d.hash32)

/-- What the loop of `result` puts into its map at slot `i`. -/
def resultAt (table : Hashtable) (i : ℕ) : Option (Option (List Byte × Stat)) := do
  let entry := baseAddress (BitVec.ofNat 32 i)
  if isPresent table.entryMeta.entries.bytes entry then
    let name ← cityNameBytes table.entryMeta entry
    some (some (name, stat table.entryMeta.entries.bytes entry))
  else some none

/-- The entries of the map of `result`, in the order of the slots. -/
def resultEntries (table : Hashtable) : Option (List (List Byte × Stat)) := do
  let slots ← (List.range table.entryMeta.nEntries).mapM table.resultAt
  some (slots.filterMap id)

def result (table : Hashtable) : Option StatMap := do
  let entries ← table.resultEntries
  some (entries.foldl (fun map entry => map.insert (newString entry.1) entry.2) ∅)

end Hashtable

/-- The constructor of `FastShardProcessorState`, which makes its table before it
checks the size. -/
def FastShardProcessorState.newHashtable (slotsBits readable : ℕ) : Except Fault Hashtable :=
  let hashtable := Hashtable.new slotsBits readable
  if slotsBits ≤ 16 then .ok hashtable else .error .checkArg

/-- A run of `addDataPoint` on a new table. -/
def Hashtable.run (slotsBits readable : ℕ) (calls : List DataPoint) (fuel : ℕ) :
    Except Fault Hashtable := do
  let table ← FastShardProcessorState.newHashtable slotsBits readable
  calls.foldlM (Hashtable.addDataPoint fuel) table

end Explore.OneBrc
