import Mathlib.Algebra.Order.Ring.Nat
import Mathlib.Logic.Function.Basic

/-!
The storage elements a bit slice lives in, and how one bit of an element is named.

An element of the `BitStore` type `T` is a `BitVec T.BITS`. A `Cursor` turns the semantic
index of a bit inside an element, its place, into the electrical position of that bit,
counted from the least significant end. The plain accessors `BitStore.set` and
`BitStore.get` of `store.rs` read and write one bit through the cursor's mask; since a
cursor is a bijection of `[0, BITS)`, an element is determined by its bits at all places.
-/

namespace BitvecProofs

/-- The unsigned fundamentals `BitStore` is implemented on. -/
inductive BitStore
  | u8
  | u16
  | u32
  | u64
  deriving DecidableEq, Repr

namespace BitStore

/-- The width, in bits, of this type: `size_of::<Self>() * 8`. -/
def BITS : BitStore → Nat
  | u8 => 8
  | u16 => 16
  | u32 => 32
  | u64 => 64

/-- The number of bits required to index a bit inside the type, `BITS.trailing_zeros()`. -/
def INDX : BitStore → Nat
  | u8 => 3
  | u16 => 4
  | u32 => 5
  | u64 => 6

/-- The bitmask to turn an arbitrary number into a bit index. -/
def MASK (T : BitStore) : Nat := T.BITS - 1

lemma BITS_pos (T : BitStore) : 0 < T.BITS := by
  cases T <;> decide

lemma BITS_eq_two_pow (T : BitStore) : T.BITS = 2 ^ T.INDX := by
  cases T <;> rfl

end BitStore

/-- Modelled from the spec: the bit-ordering capability (`cursor.rs` is not among the
sources). `BigEndian` puts place `0` at the most significant bit of an element,
`LittleEndian` at the least significant one. -/
inductive Cursor
  | BigEndian
  | LittleEndian
  deriving DecidableEq, Repr

namespace Cursor

/-- Modelled from the spec: the electrical position that `place` designates, counted from
the least significant bit. -/
def pos : Cursor → BitStore → Nat → Nat
  | BigEndian, T, place => T.BITS - 1 - place
  | LittleEndian, _, place => place

/-- Modelled from the spec: `Cursor::mask`, one-hot at the position of `place`. -/
def mask (C : Cursor) (T : BitStore) (place : Nat) : BitVec T.BITS :=
  BitVec.twoPow T.BITS (C.pos T place)

variable (C : Cursor) {T : BitStore} {place : Nat}

lemma pos_lt (h : place < T.BITS) : C.pos T place < T.BITS := by
  cases C <;> simp only [pos] <;> omega

/-- Each cursor is its own inverse on `[0, BITS)`, so it is a bijection there. -/
lemma pos_pos (h : place < T.BITS) : C.pos T (C.pos T place) = place := by
  cases C with
  | BigEndian => simp only [pos]; omega
  | LittleEndian => rfl

lemma pos_inj {p q : Nat} (hp : p < T.BITS) (hq : q < T.BITS) (h : C.pos T p = C.pos T q) :
    p = q := by
  rw [← C.pos_pos hp, h, C.pos_pos hq]

lemma pos_surj {q : Nat} (hq : q < T.BITS) : ∃ place < T.BITS, C.pos T place = q :=
  ⟨C.pos T q, C.pos_lt hq, C.pos_pos hq⟩

@[simp] lemma getLsbD_mask (h : place < T.BITS) (q : Nat) :
    (C.mask T place).getLsbD q = decide (C.pos T place = q) := by
  simp [mask, BitVec.getLsbD_twoPow, C.pos_lt h]

end Cursor

/-- `u64::count_ones`: how many of the 64 bits are set. -/
def countOnes64 (y : BitVec 64) : Nat := ((List.range 64).map fun i => (y.getLsbD i).toNat).sum

namespace BitStore

variable (C : Cursor) {T : BitStore}

/-- `BitStore::set`: writes `value` into bit `place` of `x` through the cursor's mask. -/
def set (x : BitVec T.BITS) (place : Nat) (value : Bool) : BitVec T.BITS :=
  let mask := C.mask T place
  if value then x ||| mask else x &&& ~~~mask

/-- `BitStore::get`. -/
def get (x : BitVec T.BITS) (place : Nat) : Bool :=
  x &&& C.mask T place != 0#T.BITS

/-- `BitStore::bits`: an element with all bits set to `bit`. -/
def bits (T : BitStore) (bit : Bool) : BitVec T.BITS :=
  if bit then ~~~0#T.BITS else 0#T.BITS

/-- `BitStore::count_ones`: zero-extends to `u64` and counts the set bits. -/
def countOnes (x : BitVec T.BITS) : Nat := countOnes64 (x.setWidth 64)

/-- `BitStore::count_zeros`: inverts, zero-extends to `u64` and counts the set bits. -/
def countZeros (x : BitVec T.BITS) : Nat := countOnes64 ((~~~x).setWidth 64)

variable {C} {place : Nat}

lemma get_eq (x : BitVec T.BITS) (h : place < T.BITS) :
    get C x place = x.getLsbD (C.pos T place) := by
  have hne : BitVec.twoPow T.BITS (C.pos T place) ≠ 0#T.BITS := fun h0 => by
    have := C.getLsbD_mask h (C.pos T place)
    simp [Cursor.mask, h0] at this
  cases hx : x.getLsbD (C.pos T place) <;>
    simp [get, Cursor.mask, BitVec.and_twoPow, hx, hne]

lemma getLsbD_set (x : BitVec T.BITS) (value : Bool) (h : place < T.BITS) (q : Nat) :
    (set C x place value).getLsbD q =
      if C.pos T place = q then value else x.getLsbD q := by
  by_cases hq : C.pos T place = q
  · have : q < T.BITS := hq ▸ C.pos_lt h
    cases value <;> simp [set, h, hq, this]
  · cases value <;> simp [set, h, hq]
    exact BitVec.lt_of_getLsbD

/-- After a write of `place`, `get` reads `value` there and the old bit everywhere else. -/
lemma get_set (x : BitVec T.BITS) (h : place < T.BITS) {q : Nat} (hq : q < T.BITS)
    (value : Bool) : get C (set C x place value) q = if q = place then value else get C x q := by
  rw [get_eq _ hq, get_eq _ hq, getLsbD_set _ _ h]
  by_cases hqp : q = place
  · rw [if_pos (congrArg _ hqp.symm), if_pos hqp]
  · rw [if_neg fun he => hqp (C.pos_inj hq h he.symm), if_neg hqp]

/-- Toggling through the mask of `place` flips `get` at `place` and nowhere else. -/
lemma get_xor_mask (x : BitVec T.BITS) (h : place < T.BITS) {q : Nat} (hq : q < T.BITS) :
    get C (x ^^^ C.mask T place) q = if q = place then !get C x q else get C x q := by
  rw [get_eq _ hq, get_eq _ hq, BitVec.getLsbD_xor, C.getLsbD_mask h]
  by_cases hqp : q = place
  · simp [hqp]
  · have hne : C.pos T place ≠ C.pos T q := fun he => hqp (C.pos_inj hq h he.symm)
    simp [hqp, hne]

@[simp] lemma getLsbD_bits (b : Bool) (q : Nat) :
    (bits T b).getLsbD q = (decide (q < T.BITS) && b) := by
  cases b <;> simp [bits]

/-- An element equals `bits b` exactly when every place of it holds `b`. -/
lemma eq_bits_iff (x : BitVec T.BITS) (b : Bool) :
    x = bits T b ↔ ∀ place < T.BITS, x.getLsbD (C.pos T place) = b := by
  constructor
  · rintro rfl place hp
    simp [C.pos_lt hp]
  · intro h
    ext ⟨q, hq⟩
    obtain ⟨place, hp, rfl⟩ := C.pos_surj hq
    simp [h place hp, C.pos_lt hp]

end BitStore

end BitvecProofs
