import FishOS.Klib.Bitmap
import FishOS.Lib.Runs

/-!
# Bitmaps as arrays of booleans

`klib::Bitmap` over a buffer that ends: an access behind its last byte is `none`. What the bits
answer is compared with the cells of an array under the same calls.
-/

namespace FishOS.Klib

inductive BitmapCall where
  | fill (value : Bool)
  | set (index : Nat) (value : Bool)
  deriving DecidableEq

namespace Bitmap

def storeByte (buffer : List UInt8) (d : Nat) (byte : UInt8) : Option (List UInt8) :=
  if d < buffer.length then some (buffer.set d byte) else none

def getWithin (buffer : List UInt8) (index : Nat) : Option Bool := do
  let byte ← buffer[index / 8]?
  some (getBit byte (UInt8.ofNat (index % 8)))

def setWithin (buffer : List UInt8) (index : Nat) (value : Bool) : Option (List UInt8) := do
  let d := index / 8
  let r := UInt8.ofNat (index % 8)
  let byte ← buffer[d]?
  let buffer ← storeByte buffer d (byte &&& ~~~(1 <<< r))
  let byte ← buffer[d]?
  storeByte buffer d (byte ||| ((if value then 1 else 0) <<< r))

def memsetWithin (buffer : List UInt8) (byte : UInt8) (n : Nat) : Option (List UInt8) :=
  (List.range n).foldlM (fun buffer d => storeByte buffer d byte) buffer

def fillTailWithin (mSize : Nat) (buffer : List UInt8) (i : Nat) : Nat → Option (List UInt8)
  | 0 => some buffer
  | n + 1 => do
    let buffer ← setWithin buffer (mSize - i) true
    fillTailWithin mSize buffer (i + 1) n

def fillWithin (mSize : Nat) (buffer : List UInt8) (_value : Bool) : Option (List UInt8) := do
  let buffer ← memsetWithin buffer 0xFF (mSize / 8)
  fillTailWithin mSize buffer 0 (mSize % 8)

def callWithin (mSize : Nat) (buffer : List UInt8) : BitmapCall → Option (List UInt8)
  | .fill value => fillWithin mSize buffer value
  | .set index value => setWithin buffer index value

def runWithin (mSize : Nat) (buffer : List UInt8) (calls : List BitmapCall) : Option (List UInt8) :=
  calls.foldlM (callWithin mSize) buffer

/-- The same call on an array of booleans. -/
def cellsCall (cells : List Bool) : BitmapCall → List Bool
  | .fill value => List.replicate cells.length value
  | .set index value => cells.set index value

def ofBuffer (mSize : Nat) (buffer : List UInt8) : Bitmap := { mBuffer := fun d => buffer.getD d 0, mSize := mSize }

/-- The array that holds the bits of the buffer. -/
def cells (mSize : Nat) (buffer : List UInt8) : List Bool := (List.range mSize).map (ofBuffer mSize buffer).get

/-- `get` answers for every index, with the cell. -/
def Agrees (mSize : Nat) (buffer : List UInt8) (array : List Bool) : Prop :=
  ∀ j < mSize, ∃ bit, getWithin buffer j = some bit ∧ array[j]? = some bit

/-- What `fill` leaves in this buffer is its value: it sets every bit but the first one of a last
byte that is not full. -/
def FillWorks (mSize : Nat) (buffer : List UInt8) (value : Bool) : Prop :=
  (2 ≤ mSize → value = true) ∧ (mSize % 8 ≠ 0 → getWithin buffer (8 * (mSize / 8)) = some value)

instance (mSize : Nat) (buffer : List UInt8) (value : Bool) : Decidable (FillWorks mSize buffer value) := by
  unfold FillWorks
  infer_instance

variable {mSize i j n d : Nat} {buffer buffer' : List UInt8} {value : Bool} {byte : UInt8} {calls : List BitmapCall}
  {array : List Bool}

theorem getWithin_eq (inside : j / 8 < buffer.length) (mSize : Nat) :
    getWithin buffer j = some ((ofBuffer mSize buffer).get j) := by
  simp [getWithin, ofBuffer, get, inside]

/-- The access stays in the buffer, and leaves the bytes that the bitmap has. -/
def Leaves (mSize : Nat) (buffer : List UInt8) (result : Option (List UInt8)) (bitmap : Bitmap) : Prop :=
  ∃ buffer', result = some buffer' ∧ buffer'.length = buffer.length ∧ ofBuffer mSize buffer' = bitmap

theorem storeByte_spec (inside : d < buffer.length) (byte : UInt8) (mSize : Nat) :
    Leaves mSize buffer (storeByte buffer d byte)
      { ofBuffer mSize buffer with mBuffer := Function.update (ofBuffer mSize buffer).mBuffer d byte } := by
  refine ⟨buffer.set d byte, if_pos inside, List.length_set, ?_⟩
  unfold ofBuffer
  congr 1
  funext e
  by_cases here : e = d
  · subst here
    simp [inside]
  · simp [here, Ne.symm here, List.getD_eq_getElem?_getD]

/-- The two stores of `set` are one store of the changed byte. -/
theorem setWithin_eq (inside : i / 8 < buffer.length) (value : Bool) :
    setWithin buffer i value =
      storeByte buffer (i / 8) (setBit (buffer.getD (i / 8) 0) (UInt8.ofNat (i % 8)) value) := by
  simp [setWithin, storeByte, setBit, inside]

theorem setWithin_spec (inside : i / 8 < buffer.length) (value : Bool) (mSize : Nat) :
    Leaves mSize buffer (setWithin buffer i value) ((ofBuffer mSize buffer).set i value) := by
  rw [setWithin_eq inside]
  exact storeByte_spec inside _ mSize

theorem memsetWithin_spec (inside : n ≤ buffer.length) (byte : UInt8) (mSize : Nat) :
    Leaves mSize buffer (memsetWithin buffer byte n)
      { ofBuffer mSize buffer with mBuffer := fun d => if d < n then byte else (ofBuffer mSize buffer).mBuffer d } := by
  induction n with
  | zero => exact ⟨buffer, rfl, rfl, rfl⟩
  | succ n ih =>
    obtain ⟨buffer₁, ran, length, same⟩ := ih (by omega)
    obtain ⟨buffer₂, stored, length', same'⟩ := storeByte_spec (show n < buffer₁.length by omega) byte mSize
    refine ⟨buffer₂, ?_, length'.trans length, ?_⟩
    · unfold memsetWithin at ran ⊢
      rw [List.range_succ, Runs.foldlM_snoc, ran]
      exact stored
    · rw [same', same]
      dsimp only
      congr 1
      funext e
      by_cases here : e = n
      · subst here
        rw [Function.update_self, if_pos (Nat.lt_succ_self e)]
      · rw [Function.update_of_ne here]
        exact if_congr (by omega) rfl rfl

theorem fillTailWithin_spec (inside : ∀ k, i ≤ k → k < i + n → (mSize - k) / 8 < buffer.length) :
    Leaves mSize buffer (fillTailWithin mSize buffer i n) ((ofBuffer mSize buffer).fillTail i n) := by
  induction n generalizing buffer i with
  | zero => exact ⟨buffer, rfl, rfl, rfl⟩
  | succ n ih =>
    obtain ⟨buffer₁, stored, length, same⟩ :=
      setWithin_spec (inside i (Nat.le_refl i) (by omega)) true mSize
    have later : ∀ k, i + 1 ≤ k → k < i + 1 + n → (mSize - k) / 8 < buffer₁.length := by
      intro k lower upper
      rw [length]
      exact inside k (by omega) (by omega)
    obtain ⟨buffer₂, ran, length', same'⟩ := ih later
    refine ⟨buffer₂, ?_, length'.trans length, ?_⟩
    · rw [fillTailWithin, stored]
      exact ran
    · rw [same', same]
      rfl

/-- The tail of `fill` stays in the last byte, also where it sets the bit behind the last index. -/
theorem fillWithin_spec (size : buffer.length = (mSize + 7) / 8) (value : Bool) :
    Leaves mSize buffer (fillWithin mSize buffer value) ((ofBuffer mSize buffer).fill value) := by
  obtain ⟨buffer₁, filled, length, same⟩ :=
    memsetWithin_spec (show mSize / 8 ≤ buffer.length by omega) 0xFF mSize
  have tail : ∀ k, 0 ≤ k → k < 0 + mSize % 8 → (mSize - k) / 8 < buffer₁.length := by
    intro k _ upper
    omega
  obtain ⟨buffer₂, ran, length', same'⟩ := fillTailWithin_spec tail
  refine ⟨buffer₂, ?_, length'.trans length, ?_⟩
  · rw [fillWithin, filled]
    exact ran
  · rw [same', same]
    rfl

theorem agrees_iff (size : buffer.length = (mSize + 7) / 8) :
    Agrees mSize buffer array ↔ ∀ j < mSize, array[j]? = some ((ofBuffer mSize buffer).get j) := by
  unfold Agrees
  refine forall_congr' fun j => forall_congr' fun below => ?_
  rw [getWithin_eq (show j / 8 < buffer.length by omega) mSize]
  simp

/-- An index sees the value that `fill` is asked for, in the buffers that `FillWorks` names. -/
theorem fillWorks_iff (size : buffer.length = (mSize + 7) / 8) (value : Bool) : FillWorks mSize buffer value ↔
    ∀ j < mSize, ((ofBuffer mSize buffer).fill value).get j = value := by
  have bits : ∀ j < mSize, ((ofBuffer mSize buffer).fill value).get j =
      (decide (j ≠ 8 * (mSize / 8)) || (ofBuffer mSize buffer).get j) := fun j below => get_fill _ value below
  unfold FillWorks
  constructor
  · rintro ⟨ones, last⟩ j below
    rw [bits j below]
    by_cases here : j = 8 * (mSize / 8)
    · have held := last (by omega)
      rw [getWithin_eq (by omega) mSize, ← here] at held
      simpa [here] using Option.some.inj held
    · simp [here, ones (by omega)]
  · intro each
    refine ⟨fun two => ?_, fun odd => ?_⟩
    · -- one of the first two indices is not the one that is left out
      obtain ⟨j, below, other⟩ : ∃ j < mSize, j ≠ 8 * (mSize / 8) := by
        by_cases first : mSize / 8 = 0
        · exact ⟨1, by omega, by omega⟩
        · exact ⟨0, by omega, by omega⟩
      have held := each j below
      rw [bits j below, decide_eq_true other, Bool.true_or] at held
      exact held.symm
    · have held := each (8 * (mSize / 8)) (by omega)
      rw [bits _ (by omega)] at held
      rw [getWithin_eq (by omega) mSize]
      simpa using held

theorem runWithin_snoc (calls : List BitmapCall) (call : BitmapCall) :
    runWithin mSize buffer (calls ++ [call]) =
      (runWithin mSize buffer calls).bind fun buffer => callWithin mSize buffer call := by
  exact Runs.foldlM_snoc (callWithin mSize) buffer calls call

/-- The bitmap after a call. -/
def after (b : Bitmap) : BitmapCall → Bitmap
  | .fill value => b.fill value
  | .set index value => b.set index value

/-- A call on an index of the array. -/
def Inside (mSize : Nat) : BitmapCall → Prop
  | .fill _ => True
  | .set index _ => index < mSize

instance (mSize : Nat) (call : BitmapCall) : Decidable (Inside mSize call) := by
  unfold Inside
  cases call <;> infer_instance

theorem callWithin_spec (size : buffer.length = (mSize + 7) / 8) {call : BitmapCall} (inside : Inside mSize call) :
    Leaves mSize buffer (callWithin mSize buffer call) ((ofBuffer mSize buffer).after call) := by
  cases call with
  | fill value => exact fillWithin_spec size value
  | set index value =>
    change index < mSize at inside
    exact setWithin_spec (by omega) value mSize

theorem runWithin_isSome (size : buffer.length = (mSize + 7) / 8) (inside : ∀ call ∈ calls, Inside mSize call) :
    ∃ buffer', runWithin mSize buffer calls = some buffer' ∧ buffer'.length = (mSize + 7) / 8 := by
  induction calls using List.reverseRecOn with
  | nil => exact ⟨buffer, rfl, size⟩
  | append_singleton calls call ih =>
    obtain ⟨buffer₁, ran, size₁⟩ := ih fun call member => inside call (List.mem_append_left _ member)
    obtain ⟨buffer₂, called, length, _⟩ := callWithin_spec size₁ (inside call (by simp))
    exact ⟨buffer₂, by rw [runWithin_snoc, ran, Option.bind_some, called], length.trans size₁⟩

theorem cells_agree (size : buffer.length = (mSize + 7) / 8) : Agrees mSize buffer (cells mSize buffer) := by
  rw [agrees_iff size]
  intro j below
  simp [cells, below]

theorem length_cellsCall (array : List Bool) (call : BitmapCall) : (cellsCall array call).length = array.length := by
  cases call <;> simp [cellsCall]

/-- A call on a bitmap that agrees with its array: only a `fill` can end the agreement. -/
theorem call_agrees_iff (size : buffer.length = (mSize + 7) / 8) (length : array.length = mSize)
    {call : BitmapCall} (inside : Inside mSize call) (agrees : Agrees mSize buffer array)
    (called : callWithin mSize buffer call = some buffer') :
    Agrees mSize buffer' (cellsCall array call) ↔ ∀ value, call = .fill value → FillWorks mSize buffer value := by
  obtain ⟨_, called', length', same⟩ := callWithin_spec size inside
  obtain rfl := Option.some.inj (called.symm.trans called')
  rw [agrees_iff size] at agrees
  rw [agrees_iff (length'.trans size), same]
  cases call with
  | fill value =>
    have works := fillWorks_iff size value
    simp only [cellsCall, after, BitmapCall.fill.injEq, forall_eq', works]
    refine forall_congr' fun j => forall_congr' fun below => ?_
    rw [List.getElem?_replicate, if_pos (length.symm ▸ below)]
    simp [eq_comm]
  | set index value =>
    refine iff_of_true (fun j below => ?_) fun _ other => nomatch other
    rw [after, get_set, cellsCall, List.getElem?_set]
    by_cases here : j = index
    · simp [here, length, here ▸ below]
    · rw [if_neg (Ne.symm here), if_neg here, agrees j below]

theorem length_cellsAfter (array : List Bool) (calls : List BitmapCall) :
    (calls.foldl cellsCall array).length = array.length := by
  induction calls generalizing array with
  | nil => rfl
  | cons call calls ih => rw [List.foldl_cons, ih, length_cellsCall]

/-- The bits and the cells agree after every call if and only if every `fill` of the run meets a
buffer in which it works. No call leaves the buffer. -/
theorem bitmap_refines_iff (size : buffer.length = (mSize + 7) / 8) (inside : ∀ call ∈ calls, Inside mSize call) :
    (∀ done, done <+: calls → ∃ buffer', runWithin mSize buffer done = some buffer' ∧
      ∀ j < mSize, (getWithin buffer' j).isSome = true) ∧
    ((∀ done, done <+: calls → ∀ buffer', runWithin mSize buffer done = some buffer' →
        Agrees mSize buffer' (done.foldl cellsCall (cells mSize buffer))) ↔
      ∀ done call, done ++ [call] <+: calls → ∀ value buffer', call = .fill value →
        runWithin mSize buffer done = some buffer' → FillWorks mSize buffer' value) := by
  constructor
  · intro done early
    obtain ⟨buffer', ran, size'⟩ := runWithin_isSome size fun call member => inside call (early.subset member)
    refine ⟨buffer', ran, fun j below => ?_⟩
    rw [getWithin_eq (by omega) mSize]
    rfl
  · induction calls using List.reverseRecOn with
    | nil =>
      refine iff_of_true (fun done early buffer' ran => ?_) Runs.before_nil
      obtain rfl := List.prefix_nil.mp early
      obtain rfl := Option.some.inj ran
      exact cells_agree size
    | append_singleton calls call ih =>
      have before := ih fun call member => inside call (List.mem_append_left _ member)
      rw [Runs.throughout_snoc, Runs.before_snoc, ← before]
      refine and_congr_right fun agrees => ?_
      obtain ⟨buffer₁, ran, size₁⟩ :=
        runWithin_isSome size fun call member => inside call (List.mem_append_left _ member)
      have agrees₁ := agrees calls (List.prefix_refl _) buffer₁ ran
      have length : (calls.foldl cellsCall (cells mSize buffer)).length = mSize := by
        rw [length_cellsAfter]
        simp [cells]
      obtain ⟨buffer₂, called, _⟩ := callWithin_spec size₁ (inside call (by simp))
      have step := call_agrees_iff size₁ length (inside call (by simp)) agrees₁ called
      rw [runWithin_snoc, ran, Option.bind_some, called, List.foldl_append, List.foldl_cons, List.foldl_nil]
      simpa using step

/-- A bit of the last byte that has been set already is also filled. -/
theorem bitmap_refines_iff_nine :
    ∃ buffer, runWithin 9 [0x5A, 0] [.set 8 true, .fill true, .set 3 false] = some buffer ∧
      Agrees 9 buffer [true, true, true, false, true, true, true, true, true] := by
  have inside : ∀ call ∈ [.set 8 true, .fill true, .set 3 false], Inside 9 call := by decide
  obtain ⟨within, agree⟩ := bitmap_refines_iff (show [(0x5A : UInt8), 0].length = (9 + 7) / 8 from rfl) inside
  obtain ⟨buffer, ran, -⟩ := within _ (List.prefix_refl _)
  refine ⟨buffer, ran, agree.mpr ?_ _ (List.prefix_refl _) buffer ran⟩
  refine (Runs.before_snoc [_, _] _).mpr ⟨(Runs.before_snoc [_] _).mpr ⟨(Runs.before_snoc [] _).mpr
    ⟨Runs.before_nil, fun _ _ other => nomatch other⟩, ?_⟩, fun _ _ other => nomatch other⟩
  rintro value buffer₁ same ran'
  obtain rfl := BitmapCall.fill.inj same
  obtain rfl := Option.some.inj ran'
  decide

/-- `fill(false)` sets the bits, and `fill(true)` leaves the first bit of the last byte. -/
theorem fill_differs :
    (∃ buffer, runWithin 8 [0] [.fill false] = some buffer ∧ getWithin buffer 0 = some true) ∧
      ∃ buffer, runWithin 9 [0, 0] [.fill true] = some buffer ∧ getWithin buffer 8 = some false := by
  exact ⟨⟨[0xFF], by decide, by decide⟩, [0xFF, 2], by decide, by decide⟩

end Bitmap

end FishOS.Klib
