import Explore.OneBrc.Shard

/-!
# What the two line parsers compute

On a line allowed by the rules each parser stops just after the newline and
reports the length of the name and the temperature in tenths. Both hash the
name by the same polynomial in 31 over its groups of four bytes. They differ in
the word of a group: the fast parser masks the little-endian `int` it read, the
slow one or-s the sign-extended bytes together.
-/

namespace Explore.OneBrc

open LittleEndian

/-- The polynomial in 31 over the groups of four bytes of a name; a last group
of one to three bytes counts, an empty one does not. -/
def polyHash (wordOf : List Byte → JInt) (hash : JInt) : List Byte → JInt
  | [] => hash
  | [a] => hash * 31 + wordOf [a]
  | [a, b] => hash * 31 + wordOf [a, b]
  | [a, b, c] => hash * 31 + wordOf [a, b, c]
  | a :: b :: c :: d :: rest => polyHash wordOf (hash * 31 + wordOf [a, b, c, d]) rest

/-- Induction over a name in groups of four bytes. -/
theorem groups_induction {motive : List Byte → Prop} (nil : motive [])
    (one : ∀ a, motive [a]) (two : ∀ a b, motive [a, b]) (three : ∀ a b c, motive [a, b, c])
    (four : ∀ a b c d rest, motive rest → motive (a :: b :: c :: d :: rest)) :
    ∀ name, motive name
  | [] => nil
  | [a] => one a
  | [a, b] => two a b
  | [a, b, c] => three a b c
  | a :: b :: c :: d :: rest =>
      four a b c d rest (groups_induction nil one two three four rest)

/-- The hash is linear in the words of the groups. -/
theorem polyHash_sub (f g : List Byte → JInt) (x y : JInt) (name : List Byte) :
    polyHash f x name - polyHash g y name = polyHash (fun bs => f bs - g bs) (x - y) name := by
  induction name using groups_induction generalizing x y with
  | nil => rfl
  | one a => simp only [polyHash]; ring
  | two a b => simp only [polyHash]; ring
  | three a b c => simp only [polyHash]; ring
  | four a b c d rest ih =>
      simp only [polyHash]
      rw [ih]
      congr 1
      ring

/-- Two ways of reading a group that agree on the groups of a name give it the
same hash. -/
theorem polyHash_congr {f g : List Byte → JInt} {name : List Byte}
    (h : ∀ bs : List Byte, (∀ b ∈ bs, b ∈ name) → f bs = g bs) (hash : JInt) :
    polyHash f hash name = polyHash g hash name := by
  induction name using groups_induction generalizing hash with
  | nil => rfl
  | one a => simp only [polyHash]; rw [h _ (fun b hb => hb)]
  | two a b => simp only [polyHash]; rw [h _ (fun b hb => hb)]
  | three a b c => simp only [polyHash]; rw [h _ (fun b hb => hb)]
  | four a b c d rest ih =>
      simp only [polyHash]
      rw [h [a, b, c, d] (by simp), ih]
      intro bs hbs
      exact h bs (fun b hb => by simp [hbs b hb])

/-- The slow parser hashes an ASCII name like the fast one. -/
theorem polyHash_signedWord_ascii {name : List Byte} (ascii : ∀ b ∈ name, b.toNat < 128) :
    polyHash (signedWord 32) 0 name = polyHash (word 32) 0 name := by
  apply polyHash_congr
  intro bs hbs
  rw [signedWord_eq (by decide), signGap_eq_zero fun b hb => ascii b (hbs b hb)]
  exact BitVec.sub_zero _

private theorem getElem?_of_drop {mmb : Buffer} {pos : Nat} {bytes : List Byte}
    (h : mmb.drop pos = bytes) (k : Nat) : mmb[pos + k]? = bytes[k]? := by
  rw [← h, List.getElem?_drop]

private theorem drop_of_drop {mmb : Buffer} {pos : Nat} (bytes : List Byte) {rest : List Byte}
    (h : mmb.drop pos = bytes ++ rest) : mmb.drop (pos + bytes.length) = rest := by
  rw [← List.drop_drop, h, List.drop_left]

namespace ShardProcessorState

section Fast

variable {order : ByteOrder} {mmb : Buffer}

/-- The fast name loop consumes the name and its semicolon. It may read up to
three bytes beyond the semicolon, and the temperature provides them. -/
theorem scanName_eq {name tail : List Byte} {pos : Nat} (hash : JInt)
    (h : mmb.drop pos = name ++ semicolon :: tail) (free : semicolon ∉ name)
    (room : 3 ≤ tail.length) :
    scanName order mmb pos hash =
      some (pos + name.length + 1, polyHash (word 32) hash name) := by
  obtain ⟨t1, t2, t3, rest, rfl⟩ : ∃ t1 t2 t3 rest, tail = t1 :: t2 :: t3 :: rest := by
    match tail, room with
    | t1 :: t2 :: t3 :: rest, _ => exact ⟨t1, t2, t3, rest, rfl⟩
  induction name using groups_induction generalizing pos hash with
  | nil =>
      rw [scanName, nativeInt_of_drop (by simpa using h)]
      simp [polyHash]
  | one a =>
      have ha : a ≠ semicolon := fun e => free (by simp [e])
      rw [scanName, nativeInt_of_drop (by simpa using h)]
      simp only [byteOf_word_zero, byteOf_word_one, ha, if_false, if_true, polyHash]
      rw [BitVec.and_comm, word_and_ff]
      rfl
  | two a b =>
      have ha : a ≠ semicolon := fun e => free (by simp [e])
      have hb : b ≠ semicolon := fun e => free (by simp [e])
      rw [scanName, nativeInt_of_drop (by simpa using h)]
      simp only [byteOf_word_zero, byteOf_word_one, byteOf_word_two, ha, hb, if_false, if_true,
        polyHash]
      rw [BitVec.and_comm, word_and_ffff]
      rfl
  | three a b c =>
      have ha : a ≠ semicolon := fun e => free (by simp [e])
      have hb : b ≠ semicolon := fun e => free (by simp [e])
      have hc : c ≠ semicolon := fun e => free (by simp [e])
      rw [scanName, nativeInt_of_drop (by simpa using h)]
      simp only [byteOf_word_zero, byteOf_word_one, byteOf_word_two, byteOf_word_three, ha, hb,
        hc, if_false, if_true, polyHash]
      rw [BitVec.and_comm, word_and_ffffff]
      rfl
  | four a b c d name' ih =>
      have ha : a ≠ semicolon := fun e => free (by simp [e])
      have hb : b ≠ semicolon := fun e => free (by simp [e])
      have hc : c ≠ semicolon := fun e => free (by simp [e])
      have hd : d ≠ semicolon := fun e => free (by simp [e])
      have hnext : mmb.drop (pos + 4) = name' ++ semicolon :: t1 :: t2 :: t3 :: rest :=
        drop_of_drop [a, b, c, d] (by simpa using h)
      rw [scanName, nativeInt_of_drop (by simpa using h)]
      simp only [byteOf_word_zero, byteOf_word_one, byteOf_word_two, byteOf_word_three, ha, hb,
        hc, hd, if_false]
      rw [ih _ (fun hmem => free (by simp [hmem])) hnext, polyHash]
      simp only [List.length_cons, Option.some.injEq, Prod.mk.injEq, and_true]
      omega

theorem scanTemperature_digit {pos : Nat} {d : Fin 10} (temperature : Int)
    (h : mmb[pos]? = some (digitByte d)) :
    scanTemperature mmb pos temperature = scanTemperature mmb (pos + 1) (temperature * 10 + d) := by
  rw [scanTemperature, h]
  simp [(digitByte_ne_separator d).2.2.2]

theorem scanTemperature_dot {pos : Nat} {d : Fin 10} (temperature : Int)
    (h : mmb[pos]? = some dot) (hd : mmb[pos + 1]? = some (digitByte d)) :
    scanTemperature mmb pos temperature = some (temperature * 10 + d, pos + 3) := by
  rw [scanTemperature, h]
  simp [hd]

/-- `-?d?d.d` has three to five bytes; each form takes its own path through the
digit loop. -/
theorem readTemperature_eq {temp : Temperature} {after : List Byte} {pos : Nat}
    (h : mmb.drop pos = temp.bytes ++ newline :: after) :
    readTemperature mmb pos = some (temp.value, pos + temp.bytes.length + 1) := by
  have at_ := getElem?_of_drop h
  obtain ⟨negative, tens, ones, tenths⟩ := temp
  have h0 := at_ 0
  have h1 := at_ 1
  have h2 := at_ 2
  have h3 := at_ 3
  have h4 := at_ 4
  have notMinus (d : Fin 10) : digitByte d ≠ minus := (digitByte_ne_separator d).2.2.1
  cases negative <;> cases tens <;>
    simp only [Temperature.bytes, Option.map_none, Option.map_some, Option.toList_none,
      Option.toList_some, if_true, Bool.false_eq_true, if_false, List.nil_append, List.cons_append,
      List.getElem?_cons_zero, List.getElem?_cons_succ, Nat.add_zero] at h0 h1 h2 h3 h4
  case false.none =>
    rw [readTemperature, h0]
    simp [notMinus, scanTemperature_dot _ h1 h2, Temperature.value, Temperature.magnitude,
      Temperature.bytes, Nat.add_assoc]
    omega
  case false.some tens =>
    rw [readTemperature, h0]
    simp [notMinus, scanTemperature_digit _ h1, scanTemperature_dot _ h2 h3, Temperature.value,
      Temperature.magnitude, Temperature.bytes, Nat.add_assoc]
    omega
  case true.none =>
    rw [readTemperature, h0]
    simp [h1, scanTemperature_dot _ h2 h3, Temperature.value, Temperature.magnitude,
      Temperature.bytes, Nat.add_assoc]
    omega
  case true.some tens =>
    rw [readTemperature, h0]
    simp [h1, scanTemperature_digit _ h2, scanTemperature_dot _ h3 h4, Temperature.value,
      Temperature.magnitude, Temperature.bytes, Nat.add_assoc]
    omega

end Fast

section Slow

variable {mmb : Buffer}

/-- The `accumulated` word of the slow name loop after some more bytes. -/
def accumulate (accumulated : JInt) (i : Nat) : List Byte → JInt
  | [] => accumulated
  | b :: bytes => accumulate (accumulated ||| (b.signExtend 32 <<< (8 * i))) (i + 1) bytes

theorem accumulate_eq (accumulated : JInt) (i : Nat) (bytes : List Byte) :
    accumulate accumulated i bytes = accumulated ||| (signedWord 32 bytes <<< (8 * i)) := by
  induction bytes generalizing accumulated i with
  | nil => simp [accumulate, signedWord]
  | cons b bytes ih =>
      rw [accumulate, ih, signedWord, BitVec.shiftLeft_or_distrib, ← BitVec.shiftLeft_add,
        BitVec.or_assoc, Nat.mul_add, Nat.add_comm (8 * i)]

/-- Bytes inside a group are accumulated without touching the hash. -/
theorem scanNameSlow_group {pos : Nat} (bytes : List Byte) {rest : List Byte} (hash : JInt)
    {i : Nat}
    (accumulated : JInt) (h : mmb.drop pos = bytes ++ rest) (free : semicolon ∉ bytes)
    (hi : i + bytes.length < 4) :
    scanNameSlow mmb pos hash i accumulated =
      scanNameSlow mmb (pos + bytes.length) hash (i + bytes.length)
        (accumulate accumulated i bytes) := by
  induction bytes generalizing pos i accumulated with
  | nil => rfl
  | cons b bytes ih =>
      have hb : b ≠ semicolon := fun e => free (by simp [e])
      have h0 : mmb[pos]? = some b := getElem?_of_drop h 0
      have hnext : mmb.drop (pos + 1) = bytes ++ rest := drop_of_drop [b] h
      simp only [List.length_cons] at hi
      rw [scanNameSlow, h0]
      simp only [hb, if_false, show i + 1 < 4 by omega, if_true]
      rw [ih _ hnext (fun hmem => free (by simp [hmem])) (by omega)]
      simp only [List.length_cons, accumulate, Nat.add_assoc, Nat.add_comm 1]

/-- The fourth byte of a group moves the group into the hash. -/
theorem scanNameSlow_last {pos : Nat} {b : Byte} (hash accumulated : JInt)
    (h : mmb[pos]? = some b) (hb : b ≠ semicolon) :
    scanNameSlow mmb pos hash 3 accumulated =
      scanNameSlow mmb (pos + 1) (hash * 31 + accumulate accumulated 3 [b]) 0 0 := by
  rw [scanNameSlow, h]
  simp [hb, accumulate]

theorem scanNameSlow_semicolon {pos : Nat} (hash : JInt) (i : Nat) (accumulated : JInt)
    (h : mmb[pos]? = some semicolon) :
    scanNameSlow mmb pos hash i accumulated =
      some (pos + 1, if i > 0 then hash * 31 + accumulated else hash) := by
  rw [scanNameSlow, h]
  simp

/-- A last group of one to three bytes. -/
private theorem scanNameSlow_partial {pos : Nat} {bytes tail : List Byte} (hash : JInt)
    (h : mmb.drop pos = bytes ++ semicolon :: tail) (free : semicolon ∉ bytes)
    (hpos : 0 < bytes.length) (hlt : bytes.length < 4) :
    scanNameSlow mmb pos hash 0 0 =
      some (pos + bytes.length + 1, hash * 31 + signedWord 32 bytes) := by
  have hsemi : mmb[pos + bytes.length]? = some semicolon := by
    rw [getElem?_of_drop h, List.getElem?_append_right (Nat.le_refl _)]
    simp
  rw [scanNameSlow_group _ hash 0 h free (by omega), scanNameSlow_semicolon _ _ _ hsemi,
    accumulate_eq]
  simp [hpos]

/-- The slow name loop computes the same polynomial over sign-extended groups. -/
theorem scanNameSlow_eq {name tail : List Byte} {pos : Nat} (hash : JInt)
    (h : mmb.drop pos = name ++ semicolon :: tail) (free : semicolon ∉ name) :
    scanNameSlow mmb pos hash 0 0 =
      some (pos + name.length + 1, polyHash (signedWord 32) hash name) := by
  induction name using groups_induction generalizing pos hash with
  | nil =>
      have h0 : mmb[pos]? = some semicolon := getElem?_of_drop h 0
      rw [scanNameSlow_semicolon _ _ _ h0]
      rfl
  | one a => exact scanNameSlow_partial hash h free (by simp) (by simp)
  | two a b => exact scanNameSlow_partial hash h free (by simp) (by simp)
  | three a b c => exact scanNameSlow_partial hash h free (by simp) (by simp)
  | four a b c d rest ih =>
      have hd : d ≠ semicolon := fun e => free (by simp [e])
      have h3 : mmb[pos + 3]? = some d := getElem?_of_drop h 3
      have hnext : mmb.drop (pos + 4) = rest ++ semicolon :: tail :=
        drop_of_drop [a, b, c, d] (by simpa using h)
      have hgroup := scanNameSlow_group [a, b, c] hash (i := 0) 0
        (by simpa using h) (fun hmem => free (by simp at hmem ⊢; tauto)) (by simp)
      have hword : accumulate (accumulate 0 0 [a, b, c]) 3 [d] = signedWord 32 [a, b, c, d] :=
        (accumulate_eq 0 0 [a, b, c, d]).trans (by simp)
      rw [hgroup]
      refine (scanNameSlow_last _ _ h3 hd).trans ?_
      rw [hword, ih _ hnext (fun hmem => free (by simp [hmem])), polyHash]
      simp only [List.length_cons, Option.some.injEq, Prod.mk.injEq, and_true]
      omega

theorem scanTemperatureSlow_digit {pos : Nat} {d : Fin 10} (temperature : Int)
    (h : mmb[pos]? = some (digitByte d)) :
    scanTemperatureSlow mmb pos temperature =
      scanTemperatureSlow mmb (pos + 1) (temperature * 10 + d) := by
  obtain ⟨-, hn, hm, hd⟩ := digitByte_ne_separator d
  rw [scanTemperatureSlow, h]
  simp [hn, hm, hd]

theorem scanTemperatureSlow_minus {pos : Nat} (temperature : Int) (h : mmb[pos]? = some minus) :
    scanTemperatureSlow mmb pos temperature = scanTemperatureSlow mmb (pos + 1) temperature := by
  rw [scanTemperatureSlow, h]
  simp [show minus ≠ newline by decide]

theorem scanTemperatureSlow_dot {pos : Nat} (temperature : Int) (h : mmb[pos]? = some dot) :
    scanTemperatureSlow mmb pos temperature = scanTemperatureSlow mmb (pos + 1) temperature := by
  rw [scanTemperatureSlow, h]
  simp [show dot ≠ newline by decide]

theorem scanTemperatureSlow_newline {pos : Nat} (temperature : Int)
    (h : mmb[pos]? = some newline) :
    scanTemperatureSlow mmb pos temperature = some (temperature, pos + 1) := by
  rw [scanTemperatureSlow, h]
  simp

theorem readTemperatureSlow_eq {temp : Temperature} {after : List Byte} {pos : Nat}
    (h : mmb.drop pos = temp.bytes ++ newline :: after) :
    readTemperatureSlow mmb pos = some (temp.value, pos + temp.bytes.length + 1) := by
  have at_ := getElem?_of_drop h
  obtain ⟨negative, tens, ones, tenths⟩ := temp
  have h0 := at_ 0
  have h1 := at_ 1
  have h2 := at_ 2
  have h3 := at_ 3
  have h4 := at_ 4
  have h5 := at_ 5
  have notMinus (d : Fin 10) : digitByte d ≠ minus := (digitByte_ne_separator d).2.2.1
  cases negative <;> cases tens <;>
    simp only [Temperature.bytes, Option.map_none, Option.map_some, Option.toList_none,
      Option.toList_some, if_true, Bool.false_eq_true, if_false, List.nil_append, List.cons_append,
      List.getElem?_cons_zero, List.getElem?_cons_succ, Nat.add_zero] at h0 h1 h2 h3 h4 h5
  case false.none =>
    rw [readTemperatureSlow, scanTemperatureSlow_digit _ h0, scanTemperatureSlow_dot _ h1,
      scanTemperatureSlow_digit _ h2, scanTemperatureSlow_newline _ h3]
    simp [h0, notMinus, Temperature.value, Temperature.magnitude, Temperature.bytes]
    omega
  case false.some tens =>
    rw [readTemperatureSlow, scanTemperatureSlow_digit _ h0, scanTemperatureSlow_digit _ h1,
      scanTemperatureSlow_dot _ h2, scanTemperatureSlow_digit _ h3,
      scanTemperatureSlow_newline _ h4]
    simp [h0, notMinus, Temperature.value, Temperature.magnitude, Temperature.bytes]
    omega
  case true.none =>
    rw [readTemperatureSlow, scanTemperatureSlow_minus _ h0, scanTemperatureSlow_digit _ h1,
      scanTemperatureSlow_dot _ h2, scanTemperatureSlow_digit _ h3,
      scanTemperatureSlow_newline _ h4]
    simp [h0, Temperature.value, Temperature.magnitude, Temperature.bytes]
    omega
  case true.some tens =>
    rw [readTemperatureSlow, scanTemperatureSlow_minus _ h0, scanTemperatureSlow_digit _ h1,
      scanTemperatureSlow_digit _ h2, scanTemperatureSlow_dot _ h3,
      scanTemperatureSlow_digit _ h4, scanTemperatureSlow_newline _ h5]
    simp [h0, Temperature.value, Temperature.magnitude, Temperature.bytes]
    omega

end Slow

section Lines

variable {order : ByteOrder} {mmb : Buffer} {line : Line} {after : List Byte} {pos : Nat}

private theorem drop_temperature (h : mmb.drop pos = line.bytes ++ after) :
    mmb.drop (pos + line.name.length + 1) = line.temp.bytes ++ newline :: after := by
  have := drop_of_drop (line.name ++ [semicolon]) (by simpa [Line.bytes] using h)
  simpa [Nat.add_assoc] using this

private theorem end_of_line (line : Line) (pos : Nat) :
    pos + line.name.length + 1 + line.temp.bytes.length + 1 = pos + line.bytes.length := by
  simp only [Line.bytes, List.length_append, List.length_cons, List.length_nil]
  omega

/-- The fast parser reads a line allowed by the rules, whatever surrounds it. -/
theorem parseLine_eq (h : mmb.drop pos = line.bytes ++ after) :
    parseLine order mmb pos =
      some ⟨polyHash (word 32) 0 line.name, line.name.length, line.temp.value,
        pos + line.bytes.length⟩ := by
  have hname : mmb.drop pos =
      line.name ++ semicolon :: (line.temp.bytes ++ newline :: after) := by
    simpa [Line.bytes] using h
  have room : 3 ≤ (line.temp.bytes ++ newline :: after).length := by
    have := line.temp.length_bytes
    simp only [List.length_append]
    omega
  have hcity : pos + line.name.length + 1 - 1 - pos = line.name.length := by omega
  rw [parseLine, scanName_eq 0 hname line.no_semicolon room]
  simp only [Option.bind_eq_bind, Option.bind_some, hcity]
  rw [readTemperature_eq (drop_temperature h), end_of_line]
  rfl

/-- So does the slow parser. -/
theorem parseLineSlow_eq (h : mmb.drop pos = line.bytes ++ after) :
    parseLineSlow mmb pos =
      some ⟨polyHash (signedWord 32) 0 line.name, line.name.length, line.temp.value,
        pos + line.bytes.length⟩ := by
  have hname : mmb.drop pos =
      line.name ++ semicolon :: (line.temp.bytes ++ newline :: after) := by
    simpa [Line.bytes] using h
  have hcity : pos + line.name.length + 1 - 1 - pos = line.name.length := by omega
  rw [parseLineSlow, scanNameSlow_eq 0 hname line.no_semicolon]
  simp only [Option.bind_eq_bind, Option.bind_some, hcity]
  rw [readTemperatureSlow_eq (drop_temperature h), end_of_line]
  rfl

end Lines

end ShardProcessorState

end Explore.OneBrc
