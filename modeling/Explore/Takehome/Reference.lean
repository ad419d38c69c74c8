import Explore.Takehome.Machine
import Mathlib.Data.List.Basic
import Mathlib.Logic.Function.Iterate
import Mathlib.Tactic.Common

/-!
# The reference kernels

Items of a batch descend a perfect binary tree: at each node the value of the item is hashed
with that of the node, and its parity says where to go. At the bottom an item starts again from
the root. The first kernel works on a tree and an input, the second one on a flat memory that
has both; the first seven words of that memory say where they are.
-/

namespace Explore.Takehome

/-- A perfect binary tree with the values of its nodes, level by level. -/
structure Tree where
  height : ℕ
  values : List ℕ

/-- A batch of indices of nodes and values. -/
structure Input where
  indices : List ℕ
  values : List ℕ
  rounds : ℕ

inductive HashOp where
  | add
  | xor
  | shl
  | shr
  deriving DecidableEq, Repr

def HashOp.apply : HashOp → ℕ → ℕ → ℕ
  | .add, x, y => x + y
  | .xor, x, y => x ^^^ y
  | .shl, x, y => x <<< y
  | .shr, x, y => x >>> y

structure HashStage where
  op1 : HashOp
  val1 : ℕ
  op2 : HashOp
  op3 : HashOp
  val3 : ℕ

def HASH_STAGES : List HashStage :=
  [⟨.add, 0x7ED55D16, .add, .shl, 12⟩,
    ⟨.xor, 0xC761C23C, .xor, .shr, 19⟩,
    ⟨.add, 0x165667B1, .add, .shl, 5⟩,
    ⟨.add, 0xD3A2646C, .xor, .shl, 9⟩,
    ⟨.add, 0xFD7046C5, .add, .shl, 3⟩,
    ⟨.xor, 0xB55A4F09, .xor, .shr, 16⟩]

/-- `x % (2**32)` -/
def wrap32 (x : ℕ) : ℕ := x % 2 ^ 32

def HashStage.apply (stage : HashStage) (a : ℕ) : ℕ :=
  wrap32 (stage.op2.apply (wrap32 (stage.op1.apply a stage.val1))
    (wrap32 (stage.op3.apply a stage.val3)))

def myhash (a : ℕ) : ℕ := HASH_STAGES.foldl (fun a stage => stage.apply a) a

/-- The node after `idx` for an item that has the value `val` now. -/
def nextIdx (nNodes idx val : ℕ) : ℕ :=
  let idx := 2 * idx + if val % 2 = 0 then 1 else 2
  if nNodes ≤ idx then 0 else idx

/-- The body of the loops of `reference_kernel`. -/
def referenceVisit (t : Tree) (inp : Input) (i : ℕ) : Option Input := do
  let idx ← inp.indices[i]?
  let val ← inp.values[i]?
  let val := myhash (val ^^^ (← t.values[idx]?))
  let idx := nextIdx t.values.length idx val
  return { inp with values := inp.values.set i val, indices := inp.indices.set i idx }

def referenceKernel (t : Tree) (inp : Input) : Option Input :=
  (List.range inp.rounds).foldlM
    (fun inp _ => (List.range inp.indices.length).foldlM (referenceVisit t) inp) inp

/-- `xs[i:j] = ys` -/
def sliceAssign (xs : List ℕ) (i j : ℕ) (ys : List ℕ) : List ℕ := xs.take i ++ ys ++ xs.drop j

def buildMemImage (t : Tree) (inp : Input) : List ℕ :=
  let header := 7
  let extraRoom := t.values.length + inp.indices.length * 2 + VLEN * 2 + 32
  let mem := List.replicate
    (header + t.values.length + inp.indices.length + inp.values.length + extraRoom) 0
  let forestValuesP := header
  let inpIndicesP := forestValuesP + t.values.length
  let inpValuesP := inpIndicesP + inp.values.length
  let extraRoom := inpValuesP + inp.values.length
  let mem := mem.set 0 inp.rounds
  let mem := mem.set 1 t.values.length
  let mem := mem.set 2 inp.indices.length
  let mem := mem.set 3 t.height
  let mem := mem.set 4 forestValuesP
  let mem := mem.set 5 inpIndicesP
  let mem := mem.set 6 inpValuesP
  let mem := mem.set 7 extraRoom
  let mem := sliceAssign mem header inpIndicesP t.values
  let mem := sliceAssign mem inpIndicesP inpValuesP inp.indices
  sliceAssign mem inpValuesP mem.length inp.values

/-- The body of the loops of `reference_kernel2`. -/
def referenceVisit2 (nNodes forestValuesP inpIndicesP inpValuesP : ℕ) (mem : List ℕ) (i : ℕ) :
    Option (List ℕ) := do
  let idx ← mem[inpIndicesP + i]?
  let val ← mem[inpValuesP + i]?
  let nodeVal ← mem[forestValuesP + idx]?
  let val := myhash (val ^^^ nodeVal)
  let idx := nextIdx nNodes idx val
  return (mem.set (inpValuesP + i) val).set (inpIndicesP + i) idx

/-- `reference_kernel2`, up to the memory that it yields. -/
def referenceKernel2 (mem : List ℕ) : Option (List ℕ) := do
  let rounds ← mem[0]?
  let nNodes ← mem[1]?
  let batchSize ← mem[2]?
  let _ ← mem[3]?
  let forestValuesP ← mem[4]?
  let inpIndicesP ← mem[5]?
  let inpValuesP ← mem[6]?
  (List.range rounds).foldlM (fun mem _ => (List.range batchSize).foldlM
    (referenceVisit2 nNodes forestValuesP inpIndicesP inpValuesP) mem) mem

/-- Every item is at a node of the tree. -/
structure Input.Fits (inp : Input) (t : Tree) : Prop where
  lengths : inp.indices.length = inp.values.length
  indices : ∀ idx ∈ inp.indices, idx < t.values.length

section Image

variable {t : Tree} {inp : Input}

theorem sliceAssign_append (xs rest ys : List ℕ) {i : ℕ} (j : ℕ) (hi : i = xs.length) :
    sliceAssign (xs ++ rest) i j ys = xs ++ ys ++ (xs ++ rest).drop j := by
  rw [sliceAssign, hi, List.take_left]

/-- What says where the parts of the memory are. -/
def memHeader (t : Tree) (inp : Input) : List ℕ :=
  [inp.rounds, t.values.length, inp.indices.length, t.height, 7, 7 + t.values.length,
    7 + t.values.length + inp.values.length]

/-- The memory has the header, the tree, the indices and the values, and nothing else. -/
theorem buildMemImage_eq (h : inp.indices.length = inp.values.length) :
    buildMemImage t inp = memHeader t inp ++ t.values ++ inp.indices ++ inp.values := by
  obtain ⟨k, hk⟩ := Nat.exists_eq_add_of_le' (show 8 ≤ 7 + t.values.length + inp.indices.length +
    inp.values.length + (t.values.length + inp.indices.length * 2 + VLEN * 2 + 32) by
      simp only [VLEN]
      omega)
  have hzeros : List.replicate (k + 8) 0 = [0, 0, 0, 0, 0, 0, 0, 0] ++ List.replicate k 0 := by
    rw [Nat.add_comm, List.replicate_add]
    rfl
  obtain ⟨rest, hrest⟩ : ∃ rest, ((((((((List.replicate (k + 8) 0).set 0 inp.rounds).set 1
      t.values.length).set 2 inp.indices.length).set 3 t.height).set 4 7).set 5
        (7 + t.values.length)).set 6 (7 + t.values.length + inp.values.length)).set 7
          (7 + t.values.length + inp.values.length + inp.values.length) =
      memHeader t inp ++ rest := by
    rw [hzeros]
    exact ⟨_, rfl⟩
  have hlength : (memHeader t inp).length = 7 := rfl
  simp only [buildMemImage, hk, hrest]
  rw [sliceAssign_append _ _ _ _ hlength.symm, sliceAssign_append _ _ _ _ (by simp [hlength]),
    sliceAssign_append _ _ _ _ (by simp [hlength, h]; omega), List.drop_length, List.append_nil]

end Image

section Visits

variable {t : Tree} {inp inp' : Input}

/-- What a visit makes of the node and the value of an item. -/
def descend (t : Tree) (item : ℕ × ℕ) : ℕ × ℕ :=
  let val := myhash (item.2 ^^^ t.values.getD item.1 0)
  (nextIdx t.values.length item.1 val, val)

theorem nextIdx_lt {n : ℕ} (h : 0 < n) (idx val : ℕ) : nextIdx n idx val < n := by
  unfold nextIdx
  dsimp only
  split_ifs <;> omega

/-- The item at a position. -/
def Input.item (inp : Input) (i : ℕ) : ℕ × ℕ := (inp.indices.getD i 0, inp.values.getD i 0)

/-- `inp'` is `inp` with other items. -/
structure Input.With (inp inp' : Input) (f : ℕ → ℕ × ℕ → ℕ × ℕ) : Prop where
  rounds : inp'.rounds = inp.rounds
  indices : inp'.indices.length = inp.indices.length
  values : inp'.values.length = inp.values.length
  item : ∀ i < inp.indices.length, inp'.item i = f i (inp.item i)

theorem Input.With.trans {inp'' : Input} {f g : ℕ → ℕ × ℕ → ℕ × ℕ} (h : inp.With inp' f)
    (h' : inp'.With inp'' g) : inp.With inp'' fun i item => g i (f i item) where
  rounds := h'.rounds.trans h.rounds
  indices := h'.indices.trans h.indices
  values := h'.values.trans h.values
  item i hi := by rw [h'.item i (h.indices ▸ hi), h.item i hi]

theorem Input.With.congr {f g : ℕ → ℕ × ℕ → ℕ × ℕ} (h : inp.With inp' f)
    (same : ∀ i < inp.indices.length, ∀ item, f i item = g i item) : inp.With inp' g :=
  ⟨h.rounds, h.indices, h.values, fun i hi => (h.item i hi).trans (same i hi _)⟩

theorem Input.With.refl (inp : Input) : inp.With inp fun _ item => item :=
  ⟨rfl, rfl, rfl, fun _ _ => rfl⟩

/-- Replace the item at a position. -/
def Input.setItem (inp : Input) (i : ℕ) (item : ℕ × ℕ) : Input :=
  { inp with values := inp.values.set i item.2, indices := inp.indices.set i item.1 }

theorem Input.with_setItem {i : ℕ} (hi : i < inp.indices.length) (hvalues : i < inp.values.length)
    (item : ℕ × ℕ) :
    inp.With (inp.setItem i item) fun j old => if j = i then item else old where
  rounds := rfl
  indices := List.length_set
  values := List.length_set
  item j _ := by
    by_cases hji : j = i
    · rw [if_pos hji, hji]
      simp [setItem, Input.item, hi, hvalues]
    · rw [if_neg hji]
      simp [setItem, Input.item, List.getElem?_set_ne (Ne.symm hji)]

theorem referenceVisit_eq (h : inp.Fits t) {i : ℕ} (hi : i < inp.indices.length) :
    referenceVisit t inp i = some (inp.setItem i (descend t (inp.item i))) := by
  have hvalues : i < inp.values.length := h.lengths ▸ hi
  have hidx := h.indices _ (List.getElem_mem hi)
  have hitem : inp.item i = (inp.indices[i], inp.values[i]) := by
    simp [Input.item, hi, hvalues]
  have hnode : t.values[inp.indices[i]]? = some (t.values.getD inp.indices[i] 0) := by
    rw [List.getElem?_eq_getElem hidx, List.getD_eq_getElem?_getD, List.getElem?_eq_getElem hidx]
    rfl
  rw [referenceVisit, List.getElem?_eq_getElem hi, List.getElem?_eq_getElem hvalues, hitem]
  simp only [Option.bind_eq_bind, Option.bind_some, hnode]
  rfl

/-- A visit moves one item on. -/
theorem exists_referenceVisit (h : inp.Fits t) {i : ℕ} (hi : i < inp.indices.length) :
    ∃ inp', referenceVisit t inp i = some inp' ∧ inp'.Fits t ∧
      inp.With inp' fun j item => if j = i then descend t item else item := by
  have hvalues : i < inp.values.length := h.lengths ▸ hi
  have hwith := Input.with_setItem hi hvalues (descend t (inp.item i))
  refine ⟨_, referenceVisit_eq h hi, ⟨?_, fun idx hmem => ?_⟩, ?_⟩
  · rw [hwith.indices, hwith.values, h.lengths]
  · obtain hmem | rfl := List.mem_or_eq_of_mem_set hmem
    · exact h.indices idx hmem
    · exact nextIdx_lt (Nat.zero_lt_of_lt (h.indices _ (List.getElem_mem hi))) _ _
  · refine ⟨hwith.rounds, hwith.indices, hwith.values, fun j hj => ?_⟩
    rw [hwith.item j hj]
    split
    · rename_i hji
      rw [hji]
    · rfl

theorem exists_visits (h : inp.Fits t) {k : ℕ} (hk : k ≤ inp.indices.length) :
    ∃ inp', (List.range k).foldlM (referenceVisit t) inp = some inp' ∧ inp'.Fits t ∧
      inp.With inp' fun j item => if j < k then descend t item else item := by
  induction k with
  | zero => exact ⟨inp, rfl, h, (Input.With.refl inp).congr fun _ _ _ => rfl⟩
  | succ k ih =>
      obtain ⟨mid, hmid, hfits, hwith⟩ := ih (Nat.le_of_succ_le hk)
      obtain ⟨inp', hvisit, hfits', hwith'⟩ := exists_referenceVisit hfits (hwith.indices ▸ hk)
      refine ⟨inp', ?_, hfits', (hwith.trans hwith').congr fun j _ item => ?_⟩
      · rw [List.range_succ, List.foldlM_append, hmid]
        exact (Option.bind_some ..).trans (by rw [List.foldlM_cons, hvisit]; rfl)
      · by_cases hj : j = k
        · rw [if_pos hj, if_neg (by omega), if_pos (by omega)]
        · rw [if_neg hj]
          exact if_congr (by omega) rfl rfl

theorem exists_rounds (h : inp.Fits t) (n : ℕ) :
    ∃ inp', (List.range n).foldlM
        (fun inp _ => (List.range inp.indices.length).foldlM (referenceVisit t) inp) inp =
          some inp' ∧ inp'.Fits t ∧ inp.With inp' fun _ item => (descend t)^[n] item := by
  induction n with
  | zero => exact ⟨inp, rfl, h, .refl inp⟩
  | succ n ih =>
      obtain ⟨mid, hmid, hfits, hwith⟩ := ih
      obtain ⟨inp', hvisits, hfits', hwith'⟩ := exists_visits hfits (Nat.le_refl _)
      refine ⟨inp', ?_, hfits', (hwith.trans hwith').congr fun j hj item => ?_⟩
      · rw [List.range_succ, List.foldlM_append, hmid]
        exact (Option.bind_some ..).trans (by rw [List.foldlM_cons, hvisits]; rfl)
      · rw [if_pos (hwith.indices ▸ hj), Function.iterate_succ_apply']

/-- What the kernel does with each item. -/
theorem exists_referenceKernel (h : inp.Fits t) :
    ∃ inp', referenceKernel t inp = some inp' ∧ inp'.Fits t ∧
      inp.With inp' fun _ item => (descend t)^[inp.rounds] item :=
  exists_rounds h inp.rounds

end Visits

section Flat

variable {t : Tree} {inp inp' : Input} {mem : List ℕ} {i : ℕ}

theorem memHeader_with {f : ℕ → ℕ × ℕ → ℕ × ℕ} (h : inp.With inp' f) :
    memHeader t inp' = memHeader t inp := by
  rw [memHeader, memHeader, h.rounds, h.indices, h.values]

/-- Where the parts of the memory are. -/
theorem getElem?_buildMemImage (h : inp.Fits t) :
    (∀ i < t.values.length, (buildMemImage t inp)[7 + i]? = t.values[i]?) ∧
      (∀ i < inp.indices.length,
        (buildMemImage t inp)[7 + t.values.length + i]? = inp.indices[i]?) ∧
      ∀ i < inp.values.length,
        (buildMemImage t inp)[7 + t.values.length + inp.values.length + i]? = inp.values[i]? := by
  rw [buildMemImage_eq h.lengths]
  have hheader : (memHeader t inp).length = 7 := rfl
  have hlengths := h.lengths
  refine ⟨fun i hi => ?_, fun i hi => ?_, fun i hi => ?_⟩
  · rw [List.getElem?_append_left (by simp; omega), List.getElem?_append_left (by simp; omega),
      List.getElem?_append_right (by omega), hheader, Nat.add_sub_cancel_left]
  · rw [List.getElem?_append_left (by simp; omega), List.getElem?_append_right (by simp; omega)]
    congr 1
    simp only [List.length_append, hheader]
    omega
  · rw [List.getElem?_append_right (by simp; omega)]
    congr 1
    simp only [List.length_append, hheader]
    omega

theorem set_buildMemImage (h : inp.Fits t) (hi : i < inp.indices.length) (item : ℕ × ℕ) :
    ((buildMemImage t inp).set (7 + t.values.length + inp.values.length + i) item.2).set
        (7 + t.values.length + i) item.1 = buildMemImage t (inp.setItem i item) := by
  have hheader : (memHeader t inp).length = 7 := rfl
  have hvalues : i < inp.values.length := h.lengths ▸ hi
  have hlengths := h.lengths
  have hwith := Input.with_setItem hi hvalues item
  rw [buildMemImage_eq h.lengths, buildMemImage_eq (hwith.indices.trans (h.lengths.trans
    hwith.values.symm)), memHeader_with hwith, List.set_append_right _ _ (by simp; omega),
    List.set_append_left _ _ (by simp; omega), List.set_append_right _ _ (by simp; omega)]
  simp only [List.length_append, hheader, Input.setItem, hlengths, Nat.add_sub_cancel_left]

/-- A visit on the flat memory does what one on the tree and the input does. -/
theorem referenceVisit2_eq (h : inp.Fits t) (hi : i < inp.indices.length) :
    referenceVisit2 t.values.length 7 (7 + t.values.length)
        (7 + t.values.length + inp.values.length) (buildMemImage t inp) i =
      (referenceVisit t inp i).map (buildMemImage t) := by
  have hvalues : i < inp.values.length := h.lengths ▸ hi
  have hidx := h.indices _ (List.getElem_mem hi)
  obtain ⟨hnodes, hindices, hitems⟩ := getElem?_buildMemImage h
  have hitem : inp.item i = (inp.indices[i], inp.values[i]) := by
    simp [Input.item, hi, hvalues]
  have hnode : t.values[inp.indices[i]]? = some (t.values.getD inp.indices[i] 0) := by
    rw [List.getElem?_eq_getElem hidx, List.getD_eq_getElem?_getD, List.getElem?_eq_getElem hidx]
    rfl
  rw [referenceVisit_eq h hi, Option.map_some, ← set_buildMemImage h hi, referenceVisit2,
    hindices i hi, hitems i hvalues, List.getElem?_eq_getElem hi, List.getElem?_eq_getElem hvalues,
    hitem]
  simp only [Option.bind_eq_bind, Option.bind_some, hnodes _ hidx, hnode]
  rfl

/-- A loop on the flat memory does what the loop on the tree and the input does, when their bodies
do. -/
theorem foldlM_map_of_step {α β γ : Type} {f : β → α → Option β} {g : γ → α → Option γ}
    {image : β → γ} (keeps : β → Prop) {xs : List α} {b : β}
    (hb : keeps b) (step : ∀ b, keeps b → ∀ a ∈ xs, g (image b) a = (f b a).map image ∧
      ∀ b', f b a = some b' → keeps b') :
    xs.foldlM g (image b) = (xs.foldlM f b).map image := by
  induction xs generalizing b with
  | nil => rfl
  | cons a xs ih =>
      obtain ⟨hsame, hkeeps⟩ := step b hb a List.mem_cons_self
      rw [List.foldlM_cons, List.foldlM_cons, hsame]
      cases hf : f b a with
      | none => rfl
      | some b' =>
          exact ih (hkeeps b' hf) fun b hb a ha => step b hb a (List.mem_cons_of_mem _ ha)

/-- The input still fits, and has as many items as before. -/
def Input.Kept (t : Tree) (inp inp' : Input) : Prop :=
  inp'.Fits t ∧ ∃ f, inp.With inp' f

/-- The kernel on the flat memory does there what the kernel on the tree does to the batch. -/
theorem referenceKernel2_eq_map (h : inp.Fits t) :
    referenceKernel2 (buildMemImage t inp) = (referenceKernel t inp).map (buildMemImage t) := by
  have hstart : referenceKernel2 (buildMemImage t inp) =
      (List.range inp.rounds).foldlM (fun mem _ => (List.range inp.indices.length).foldlM
        (referenceVisit2 t.values.length 7 (7 + t.values.length)
          (7 + t.values.length + inp.values.length)) mem) (buildMemImage t inp) := by
    rw [buildMemImage_eq h.lengths]
    rfl
  rw [hstart]
  refine foldlM_map_of_step (Input.Kept t inp) ⟨h, _, .refl inp⟩ ?_
  rintro mid ⟨hfits, f, hwith⟩ - -
  rw [← hwith.indices]
  refine ⟨foldlM_map_of_step (Input.Kept t inp) ⟨hfits, f, hwith⟩ ?_, fun inp' hrun => ?_⟩
  · rintro mid' ⟨hfits', f', hwith'⟩ i hi
    have hi : i < mid'.indices.length := by
      rw [hwith'.indices, ← hwith.indices]
      exact List.mem_range.mp hi
    rw [← hwith'.values]
    refine ⟨referenceVisit2_eq hfits' hi, fun inp' hvisit => ?_⟩
    obtain ⟨next, hnext, hfits'', hwith''⟩ := exists_referenceVisit hfits' hi
    obtain rfl := Option.some.inj (hvisit.symm.trans hnext)
    exact ⟨hfits'', _, hwith'.trans hwith''⟩
  · obtain ⟨next, hnext, hfits'', hwith''⟩ := exists_visits hfits (Nat.le_refl _)
    obtain rfl := Option.some.inj (hrun.symm.trans hnext)
    exact ⟨hfits'', _, hwith.trans hwith''⟩

/-- For every tree and every batch whose indices are nodes: both kernels come to an end without an
error, and the one on the flat memory leaves the memory of the tree with what the one on the tree
makes of the batch. -/
theorem referenceKernel2_buildMemImage (t : Tree) (inp : Input) (h : inp.Fits t) :
    ∃ inp', referenceKernel t inp = some inp' ∧
      referenceKernel2 (buildMemImage t inp) = some (buildMemImage t inp') := by
  obtain ⟨inp', href, -, -⟩ := exists_referenceKernel h
  refine ⟨inp', href, ?_⟩
  rw [referenceKernel2_eq_map h, href, Option.map_some]

theorem referenceKernel2_buildMemImage_small :
    ∃ inp', referenceKernel ⟨1, [3, 5, 7]⟩ ⟨[0, 2], [1, 9], 3⟩ = some inp' ∧
      referenceKernel2 (buildMemImage ⟨1, [3, 5, 7]⟩ ⟨[0, 2], [1, 9], 3⟩) =
        some (buildMemImage ⟨1, [3, 5, 7]⟩ inp') :=
  referenceKernel2_buildMemImage _ _ ⟨rfl, by decide⟩

end Flat

end Explore.Takehome
