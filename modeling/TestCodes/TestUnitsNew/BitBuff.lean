import TestCodes.Lib.Machine
import TestCodes.Lib.PackedBits

/-! A buffer of bits, each bit set and read by its index. An index is an `int` or an
enumerator; it is compared with the unsigned count of bits. -/
namespace TestCodes.TestUnitsNew

/-- A count for which the template compiles: `STR_TYPE` is an array type. -/
structure BitCount where
  val : ℕ
  sizeof_STR_TYPE : val + 1 ≤ 0x7fffffff

def CHAR_BIT : ℕ := 8

def BitCount.sizeBytes (n : BitCount) : ℕ := 1 + n.val / CHAR_BIT

/-- The conversion of an `int` to `size_t`. -/
def sizeT (i : Int32) : ℕ := i.toUInt32.toNat

/-- `x << count`; a count from 32 on is undefined. -/
def shl (x : Int32) (count : ℕ) : Option Int32 :=
  if count < 32 then some (.ofBitVec (x.toBitVec <<< count)) else none

structure BitBuff (n : BitCount) where
  buffer : List Int8
  sizeof_buffer : buffer.length = n.sizeBytes

namespace BitBuff
variable {n : BitCount}

def new (n : BitCount) : BitBuff n := ⟨List.replicate n.sizeBytes 0, List.length_replicate⟩

/-- A byte is written; outside the buffer that is undefined. -/
def write (b : BitBuff n) (bufferIdx : ℕ) (value : Int8) : Option (BitBuff n) :=
  if bufferIdx < b.buffer.length then
    some ⟨b.buffer.set bufferIdx value, List.length_set.trans b.sizeof_buffer⟩
  else none

/-- `get` with what is in `toGet` before; `none` is undefined behaviour. -/
def get (b : BitBuff n) (whereFrom : Int32) (toGet : Bool) : Option (Bool × Bool) :=
  if ¬ sizeT whereFrom < n.val then some (false, toGet)
  else
    let bufferIdx := sizeT (whereFrom / .ofNat CHAR_BIT)
    let bitIdx := sizeT (whereFrom % .ofNat CHAR_BIT)
    if ¬ bufferIdx < n.sizeBytes then some (false, toGet)
    else
      b.buffer[bufferIdx]?.bind fun byte =>
      (shl 1 bitIdx).map fun mask => (true, decide (0 ≠ byte.toInt32 &&& mask))

/-- `buffer[bufferIdx] & ~(1 << bitIdx)` in a `char`, and the new bit put in. -/
def masked (byte : Int8) (mask bit : Int32) : Int8 :=
  let maskedValue := (byte.toInt32 &&& ~~~mask).toInt8
  (maskedValue.toInt32 ||| bit).toInt8

/-- `set` with what `beforeBit` points to, if it is not null. Under a null pointer `get`
writes to a local variable. -/
def set (b : BitBuff n) (toSet : Int32) (aBit : Bool) (beforeBit : Option Bool) :
    Option (Bool × Option Bool × BitBuff n) :=
  (b.get toSet (beforeBit.getD false)).bind fun (done, before) =>
  if done = false then some (false, beforeBit.map fun _ => before, b)
  else
    let bufferIdx := sizeT (toSet / .ofNat CHAR_BIT)
    let bitIdx := sizeT (toSet % .ofNat CHAR_BIT)
    b.buffer[bufferIdx]?.bind fun byte =>
    (shl 1 bitIdx).bind fun mask =>
    (shl aBit.toInt32 bitIdx).bind fun bit =>
    (b.write bufferIdx (masked byte mask bit)).map fun b' =>
    (true, beforeBit.map fun _ => before, b')

end BitBuff

inductive BitCall
  | get (whereFrom : Int32) (toGet : Bool)
  | set (toSet : Int32) (aBit : Bool) (beforeBit : Option Bool)

def BitBuff.call {n : BitCount} (b : BitBuff n) : BitCall → Option (BitBuff n)
  | .get whereFrom toGet => (b.get whereFrom toGet).map fun _ => b
  | .set toSet aBit beforeBit => (b.set toSet aBit beforeBit).map fun out => out.2.2

def BitCount.Has (n : BitCount) (i : Int32) : Prop := 0 ≤ i.toInt ∧ i.toInt < n.val

instance (n : BitCount) (i : Int32) : Decidable (n.Has i) :=
  inferInstanceAs (Decidable (_ ∧ _))

def testBit (byte : Int8) (j : ℕ) : Bool := byte.toBitVec.getLsbD j

def BitBuff.bit {n : BitCount} (b : BitBuff n) (k : ℕ) : Bool :=
  packedBit testBit CHAR_BIT b.buffer k

variable {n : BitCount}

theorem sizeT_lt_iff (n : BitCount) (i : Int32) : sizeT i < n.val ↔ n.Has i := by
  have hn := n.sizeof_STR_TYPE
  have hlt := i.toUInt32.toNat_lt
  have hint : i.toInt = if 2 * sizeT i < 2 ^ 32 then (sizeT i : ℤ) else sizeT i - 2 ^ 32 :=
    BitVec.toInt_eq_toNat_cond i.toBitVec
  rw [BitCount.Has, hint]
  unfold sizeT
  split <;> omega

/-- A non-negative index is divided as a natural number. -/
theorem sizeT_div_mod {i : Int32} (h : n.Has i) :
    sizeT (i / .ofNat CHAR_BIT) = sizeT i / CHAR_BIT ∧
    sizeT (i % .ofNat CHAR_BIT) = sizeT i % CHAR_BIT := by
  have hlt := (sizeT_lt_iff n i).mpr h
  have hn := n.sizeof_STR_TYPE
  have hmsb : i.toBitVec.msb = false := by
    rw [BitVec.msb_eq_false_iff_two_mul_lt]
    show 2 * sizeT i < 2 ^ 32
    omega
  constructor
  · show (i / .ofNat CHAR_BIT).toBitVec.toNat = _
    rw [Int32.toBitVec_div, BitVec.sdiv_eq, hmsb]
    rfl
  · show (i % .ofNat CHAR_BIT).toBitVec.toNat = _
    rw [Int32.toBitVec_mod, BitVec.srem_eq, hmsb]
    rfl

theorem shl_eq (x : Int32) {count : ℕ} (h : count < CHAR_BIT) :
    shl x count = some (.ofBitVec (x.toBitVec <<< count)) :=
  if_pos (Nat.lt_trans h (by decide))

/-! The bits of a `char` that is promoted to `int` and narrowed again. -/

theorem getLsbD_toInt32 (byte : Int8) {j : ℕ} (hj : j < CHAR_BIT) :
    byte.toInt32.toBitVec.getLsbD j = testBit byte j := by
  rw [Int8.toBitVec_toInt32, BitVec.getLsbD_signExtend, if_pos (show j < 8 from hj),
    decide_eq_true (Nat.lt_trans hj (by decide)), Bool.true_and, testBit]

theorem testBit_toInt8 (x : Int32) {j : ℕ} (hj : j < CHAR_BIT) :
    testBit x.toInt8 j = x.toBitVec.getLsbD j := by
  rw [testBit, Int32.toBitVec_toInt8, BitVec.getLsbD_signExtend,
    if_pos (Nat.lt_trans hj (by decide)), decide_eq_true (show j < 8 from hj), Bool.true_and]

theorem ne_zero_and_mask (byte : Int8) {k : ℕ} (hk : k < CHAR_BIT) :
    decide (0 ≠ byte.toInt32 &&& .ofBitVec ((1 : Int32).toBitVec <<< k)) = testBit byte k := by
  have hmask : (byte.toInt32 &&& .ofBitVec ((1 : Int32).toBitVec <<< k)).toBitVec =
      if testBit byte k then BitVec.twoPow 32 k else 0#32 := by
    rw [← getLsbD_toInt32 byte hk, ← BitVec.and_twoPow]
    rfl
  have hpow : BitVec.twoPow 32 k ≠ 0#32 := by
    intro h
    have hbit := congrArg (BitVec.getLsbD · k) h
    have hk32 : k < 32 := Nat.lt_trans hk (by decide)
    simp [hk32] at hbit
  cases hbit : testBit byte k with
  | false =>
      rw [hbit, if_neg Bool.false_ne_true] at hmask
      exact decide_eq_false (not_not.mpr (Int32.toBitVec_inj.mp hmask).symm)
  | true =>
      rw [hbit, if_pos rfl] at hmask
      exact decide_eq_true fun h => hpow (hmask ▸ congrArg Int32.toBitVec h.symm)

theorem testBit_masked (byte : Int8) (v : Bool) {k j : ℕ} (hj : j < CHAR_BIT) :
    testBit (BitBuff.masked byte (.ofBitVec ((1 : Int32).toBitVec <<< k))
      (.ofBitVec (v.toInt32.toBitVec <<< k))) j = if j = k then v else testBit byte j := by
  have hj32 : j < 32 := Nat.lt_trans hj (by decide)
  have hbit : ∀ v : Bool, (v.toInt32.toBitVec <<< k).getLsbD j = (decide (j = k) && v) := by
    intro v
    rw [Bool.toBitVec_toInt32, BitVec.getLsbD_shiftLeft, BitVec.getLsbD_setWidth,
      BitVec.getLsbD_ofBool, decide_eq_true hj32]
    by_cases h : j = k
    · simp [h]
    · have hsub : j < k ∨ j - k ≠ 0 := by omega
      rcases hsub with hlt | hne
      · simp [h, hlt]
      · simp [h, hne]
  have hone : ((1 : Int32).toBitVec <<< k).getLsbD j = decide (j = k) :=
    (hbit true).trans (Bool.and_true _)
  rw [BitBuff.masked, testBit_toInt8 _ hj, Int32.toBitVec_or, BitVec.getLsbD_or,
    getLsbD_toInt32 _ hj, testBit_toInt8 _ hj, Int32.toBitVec_and, BitVec.getLsbD_and,
    getLsbD_toInt32 _ hj, Int32.toBitVec_not, BitVec.getLsbD_not, Int32.toBitVec_ofBitVec,
    Int32.toBitVec_ofBitVec, hone, hbit v, decide_eq_true hj32]
  by_cases h : j = k <;> simp [h]

namespace BitBuff
variable {b : BitBuff n} {i : Int32}

theorem bit_new (n : BitCount) (k : ℕ) : (new n).bit k = false :=
  packedBit_replicate (fun _ => by simp [testBit]) _ k

theorem byte_of_has (b : BitBuff n) (h : n.Has i) :
    ∃ byte, b.buffer[sizeT i / CHAR_BIT]? = some byte := by
  have hlt := (sizeT_lt_iff n i).mpr h
  have hsize := b.sizeof_buffer
  refine ⟨_, List.getElem?_eq_getElem ?_⟩
  rw [hsize, BitCount.sizeBytes]
  unfold CHAR_BIT
  omega

theorem get_of_not_has (h : ¬ n.Has i) (toGet : Bool) : b.get i toGet = some (false, toGet) := by
  rw [get, if_pos ((sizeT_lt_iff n i).not.mpr h)]

theorem get_of_has (h : n.Has i) (toGet : Bool) :
    b.get i toGet = some (true, b.bit (sizeT i)) := by
  obtain ⟨byte, hbyte⟩ := b.byte_of_has h
  obtain ⟨hdiv, hmod⟩ := sizeT_div_mod h
  have hlt : sizeT i / CHAR_BIT < n.sizeBytes :=
    b.sizeof_buffer ▸ (List.getElem?_eq_some_iff.mp hbyte).1
  have hbit : sizeT i % CHAR_BIT < CHAR_BIT := Nat.mod_lt _ (by decide)
  rw [get, if_neg (not_not.mpr ((sizeT_lt_iff n i).mpr h)), hdiv, hmod,
    if_neg (not_not.mpr hlt), hbyte, Option.bind_some, shl_eq 1 hbit, Option.map_some,
    ne_zero_and_mask byte hbit, bit, packedBit_getElem hbyte]

theorem set_of_not_has (h : ¬ n.Has i) (aBit : Bool) (beforeBit : Option Bool) :
    b.set i aBit beforeBit = some (false, beforeBit, b) := by
  rw [set, get_of_not_has h]
  cases beforeBit <;> rfl

theorem write_inside {bufferIdx : ℕ} (h : bufferIdx < b.buffer.length) (value : Int8) :
    ∃ b', b.write bufferIdx value = some b' ∧ b'.buffer = b.buffer.set bufferIdx value :=
  ⟨_, if_pos h, rfl⟩

/-- `set` reports the bit that it overwrites, and no other bit is changed. -/
theorem set_of_has (h : n.Has i) (aBit : Bool) (beforeBit : Option Bool) :
    ∃ b', b.set i aBit beforeBit = some (true, beforeBit.map fun _ => b.bit (sizeT i), b') ∧
      ∀ k, b'.bit k = if k = sizeT i then aBit else b.bit k := by
  obtain ⟨byte, hbyte⟩ := b.byte_of_has h
  obtain ⟨hdiv, hmod⟩ := sizeT_div_mod h
  have hbit : sizeT i % CHAR_BIT < CHAR_BIT := Nat.mod_lt _ (by decide)
  obtain ⟨b', hwrite, hbuffer⟩ := b.write_inside (List.getElem?_eq_some_iff.mp hbyte).1
    (masked byte (.ofBitVec ((1 : Int32).toBitVec <<< (sizeT i % CHAR_BIT)))
      (.ofBitVec (aBit.toInt32.toBitVec <<< (sizeT i % CHAR_BIT))))
  refine ⟨b', ?_, fun k => ?_⟩
  · rw [set, get_of_has h, Option.bind_some]
    dsimp only
    rw [if_neg (by decide), hdiv, hmod, hbyte, Option.bind_some, shl_eq 1 hbit,
      Option.bind_some, shl_eq _ hbit, Option.bind_some, hwrite, Option.map_some]
  · rw [bit, hbuffer]
    exact packedBit_set (by decide) hbyte (fun j hj => testBit_masked byte aBit hj) k

end BitBuff

def BitCall.setsAt (i : Int32) : BitCall → Option Bool
  | .get _ _ => none
  | .set toSet aBit _ => if toSet = i then some aBit else none

/-- The bit set last at an index, or the one from before the calls. -/
def lastSet (calls : List BitCall) (i : Int32) (bit : Bool) : Bool :=
  (calls.filterMap (BitCall.setsAt i)).getLastD bit

theorem lastSet_cons (call : BitCall) (calls : List BitCall) (i : Int32) (bit : Bool) :
    lastSet (call :: calls) i bit = lastSet calls i ((call.setsAt i).getD bit) := by
  rw [lastSet, List.filterMap_cons]
  cases call.setsAt i with
  | none => rfl
  | some v => exact List.getLastD_cons

theorem sizeT_inj {i j : Int32} : sizeT i = sizeT j ↔ i = j :=
  ⟨fun h => Int32.toBitVec_inj.mp (BitVec.eq_of_toNat_eq h), congrArg sizeT⟩

/-- The buffer is an array of the bits: what `get` and `set` do at an index of a bit, and
that they do nothing at another one. -/
structure BitBuff.Holds (b : BitBuff n) (bits : Int32 → Bool) : Prop where
  get : ∀ i, n.Has i → ∀ toGet, b.get i toGet = some (true, bits i)
  set : ∀ i, n.Has i → ∀ aBit beforeBit, ∃ b',
    b.set i aBit beforeBit = some (true, beforeBit.map fun _ => bits i, b') ∧
    (∀ toGet, b'.get i toGet = some (true, aBit)) ∧
    ∀ j toGet, j ≠ i → b'.get j toGet = b.get j toGet
  get_outside : ∀ i, ¬ n.Has i → ∀ toGet, b.get i toGet = some (false, toGet)
  set_outside : ∀ i, ¬ n.Has i → ∀ aBit beforeBit,
    b.set i aBit beforeBit = some (false, beforeBit, b)

namespace BitBuff
variable {b : BitBuff n}

theorem holds_of_bits {bits : Int32 → Bool} (h : ∀ i, n.Has i → b.bit (sizeT i) = bits i) :
    b.Holds bits where
  get i hi toGet := by rw [get_of_has hi, h i hi]
  set i hi aBit beforeBit := by
    obtain ⟨b', hset, hbits⟩ := b.set_of_has hi aBit beforeBit
    refine ⟨b', by rw [hset, h i hi], fun toGet => ?_, fun j toGet hj => ?_⟩
    · rw [get_of_has hi, hbits, if_pos rfl]
    · by_cases hhas : n.Has j
      · rw [get_of_has hhas, get_of_has hhas, hbits, if_neg (sizeT_inj.not.mpr hj)]
      · rw [get_of_not_has hhas, get_of_not_has hhas]
  get_outside _ hi toGet := get_of_not_has hi toGet
  set_outside _ hi aBit beforeBit := set_of_not_has hi aBit beforeBit

theorem call_spec (b : BitBuff n) (call : BitCall) : ∃ b', b.call call = some b' ∧
    ∀ i, n.Has i → b'.bit (sizeT i) = (call.setsAt i).getD (b.bit (sizeT i)) := by
  cases call with
  | get whereFrom toGet =>
      refine ⟨b, ?_, fun _ _ => rfl⟩
      by_cases h : n.Has whereFrom
      · rw [BitBuff.call, get_of_has h, Option.map_some]
      · rw [BitBuff.call, get_of_not_has h, Option.map_some]
  | set toSet aBit beforeBit =>
      by_cases h : n.Has toSet
      · obtain ⟨b', hset, hbits⟩ := b.set_of_has h aBit beforeBit
        refine ⟨b', by rw [BitBuff.call, hset, Option.map_some], fun i _ => ?_⟩
        rw [hbits, BitCall.setsAt]
        by_cases hi : toSet = i
        · rw [if_pos (congrArg sizeT hi.symm), if_pos hi, Option.getD_some]
        · rw [if_neg (sizeT_inj.not.mpr (Ne.symm hi)), if_neg hi, Option.getD_none]
      · refine ⟨b, by rw [BitBuff.call, set_of_not_has h, Option.map_some], fun i hi => ?_⟩
        have hne : toSet ≠ i := fun heq => h (heq ▸ hi)
        rw [BitCall.setsAt, if_neg hne, Option.getD_none]

theorem run_bits (b : BitBuff n) (calls : List BitCall) :
    ∃ b', Machine.run BitBuff.call b calls = some b' ∧
      ∀ i, n.Has i → b'.bit (sizeT i) = lastSet calls i (b.bit (sizeT i)) := by
  induction calls generalizing b with
  | nil => exact ⟨b, rfl, fun _ _ => rfl⟩
  | cons call calls ih =>
      obtain ⟨b₁, hcall, hbits₁⟩ := b.call_spec call
      obtain ⟨b', hrun, hbits⟩ := ih b₁
      refine ⟨b', ?_, fun i hi => ?_⟩
      · rw [Machine.run_cons, hcall]
        exact hrun
      · rw [hbits i hi, lastSet_cons, hbits₁ i hi]

/-- After any calls on a new buffer, each bit is the one set last at its index, false at
first; no call has left the buffer. -/
theorem independent_bits (n : BitCount) (calls : List BitCall) :
    ∃ b, Machine.run BitBuff.call (new n) calls = some b ∧
      b.Holds fun i => lastSet calls i false := by
  obtain ⟨b, hrun, hbits⟩ := (new n).run_bits calls
  refine ⟨b, hrun, holds_of_bits fun i hi => ?_⟩
  rw [hbits i hi, bit_new]

end BitBuff
end TestCodes.TestUnitsNew
