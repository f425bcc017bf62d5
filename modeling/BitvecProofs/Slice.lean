import BitvecProofs.Pointer

/-!
The operations of `BitSlice` (`slice.rs`), each as a program of element accesses.

A slice is its `BitPtr` together with the cursor `C`. Point accesses go through
`get_unchecked`/`set_unchecked`, one access to the bit's element each. The whole-slice
operations first compute the domain, test or write the partial edges one bit at a time
through `BitAccess`, and load or store the body elements whole. Checked indexing is pure:
`index` and its siblings return the new `BitPtr` or the message of the failed assertion.
The shifts recurse on a sub-slice in their fast path, so they take a `fuel` argument; a
run that exhausts it stops with `Halt.outOfFuel`.
-/

namespace BitvecProofs

/-- The largest `usize` on a 64-bit target. -/
def USIZE_MAX : Nat := 2 ^ 64 - 1

/-- `usize::checked_add`. -/
def checkedAdd (x y : Nat) : Option Nat :=
  if x + y ≤ USIZE_MAX then some (x + y) else none

/-- `usize::checked_mul`. -/
def checkedMul (x y : Nat) : Option Nat :=
  if x * y ≤ USIZE_MAX then some (x * y) else none

/-- Modelled from the spec: `crate::rca1`, one step of the ripple-carry adder (`lib.rs` is
not among the sources); the sum bit and the carry out of `a + b + c`. -/
def rca1 (a b c : Bool) : Bool × Bool :=
  (xor (xor a b) c, (a && b) || (c && xor a b))

/-- The bits an `IntoIterator<Item = bool>` yields: finitely many, or without end. -/
inductive BitSource
  | finite (bits : List Bool)
  | infinite (bits : Nat → Bool)

namespace BitSource

/-- `iter.chain(repeat(false))`, as the item at each position. -/
def chainFalse : BitSource → Nat → Bool
  | finite bits, i => bits.getD i false
  | infinite bits, i => bits i

/-- `iter.take(n)`: the first `n` items, fewer when the iterator ends first. -/
def take : BitSource → Nat → List Bool
  | finite bits, n => bits.take n
  | infinite bits, n => (List.range n).map bits

/-- Item `i` of the source, if it yields that many. -/
def get? : BitSource → Nat → Option Bool
  | finite bits, i => bits[i]?
  | infinite bits, i => some (bits i)

end BitSource

/-- `assert!(cond, msg)` in a pure function. -/
def check (cond : Prop) [Decidable cond] (msg : String) : Except String Unit :=
  if cond then .ok () else .error msg

namespace Prog

variable {T : BitStore} {δ : Type}

/-- `Iterator::all`: stops at the first `false`. -/
def allM : List δ → (δ → Prog T Bool) → Prog T Bool
  | [], _ => pure true
  | x :: xs, f => do if ← f x then allM xs f else pure false

/-- `Iterator::any`: stops at the first `true`. -/
def anyM : List δ → (δ → Prog T Bool) → Prog T Bool
  | [], _ => pure false
  | x :: xs, f => do if ← f x then pure true else anyM xs f

/-- `a && b`: `b` runs only when `a` is true. -/
def andThen (a b : Prog T Bool) : Prog T Bool := do
  if ← a then b else pure false

/-- `a || b`: `b` runs only when `a` is false. -/
def orElse (a b : Prog T Bool) : Prog T Bool := do
  if ← a then pure true else b

/-- `iter.map(f).sum::<usize>()`: the items' counts, one after another, added up. -/
def sumM (xs : List δ) (f : δ → Prog T Nat) : Prog T Nat :=
  xs.foldlM (fun acc x => do return acc + (← f x)) 0

/-- A failed `Index` assertion panics with its message. -/
def liftIndex {α : Type} : Except String α → Prog T α
  | .ok a => .ret a
  | .error msg => panic msg

/-- `&elts[i]` on a slice of elements: the address of element `i`, or the bounds panic. -/
def elemIndex (elts : List Nat) (i : Nat) : Prog T Nat :=
  if h : i < elts.length then pure elts[i]
  else panic s!"index out of bounds: the len is {elts.length} but the index is {i}"

/-- `ptr::copy(src, dst, count)`: a `memmove` of `count` elements, read in full before
any is written. -/
def ptrCopy (src dst count : Nat) : Prog T Unit := do
  let vals ← (List.range count).mapM fun k => BitAccess.load (src + k)
  ((List.range count).zip vals).forM fun (k, v) => BitAccess.store (dst + k) v

/-- `ptr::write_bytes(dst, 0, count)`: zeroes `count` elements. -/
def writeBytes (dst count : Nat) : Prog T Unit :=
  (List.range count).forM fun k => BitAccess.store (dst + k) 0

end Prog

namespace BitSlice

open Prog

variable (C : Cursor) {T : BitStore}

/-! ### Indexing -/

/-- `Index<Range<usize>>::index`; `IndexMut` returns the same pointer. -/
def index (p : BitPtr T) (start end_ : Nat) : Except String (BitPtr T) := do
  let (data, head, len) := (p.addr, p.head, p.len)
  check (start ≤ len) s!"Index {start} out of range: {len}"
  check (end_ ≤ len) s!"Index {end_} out of range: {len}"
  check (start ≤ end_) "Ranges can only run from low to high"
  let (skip, newHead) := offset head start
  pure ⟨(data + skip).toNat, newHead, end_ - start⟩

/-- `Index<RangeFrom<usize>>`: `self[start .. self.len()]`. -/
def indexFrom (p : BitPtr T) (start : Nat) : Except String (BitPtr T) :=
  index p start p.len

/-- `Index<RangeTo<usize>>`: `self[0 .. end]`. -/
def indexTo (p : BitPtr T) (end_ : Nat) : Except String (BitPtr T) :=
  index p 0 end_

/-- `Index<RangeFull>`: the slice itself. -/
def indexFull (p : BitPtr T) : Except String (BitPtr T) :=
  pure p

/-- `Index<RangeInclusive<usize>>`: `self[start .. end + 1]`, and `self[start ..]` when
`end + 1` overflows. -/
def indexInclusive (p : BitPtr T) (start end_ : Nat) : Except String (BitPtr T) :=
  match checkedAdd end_ 1 with
  | some e => index p start e
  | none => indexFrom p start

/-- `Index<RangeToInclusive<usize>>`: `self[0 ..= end]`. -/
def indexToInclusive (p : BitPtr T) (end_ : Nat) : Except String (BitPtr T) :=
  indexInclusive p 0 end_

/-- Modelled from the spec: `get_unchecked(start .. end)` (`api.rs` is not among the
sources); `index` without its assertions. -/
def sliceUnchecked (p : BitPtr T) (start end_ : Nat) : BitPtr T :=
  let (skip, newHead) := offset p.head start
  ⟨(p.addr + skip).toNat, newHead, end_ - start⟩

/-- `from_element` and `from_element_mut`: the `BITS` bits of the element at `elt`, from
place `0`. -/
def fromElement (elt : Nat) : BitPtr T := ⟨elt, ⟨0, T.BITS_pos⟩, T.BITS⟩

/-- `from_slice` over the `len` elements at `addr`, or the message of its failed assertion or
`expect`. `MAX_ELTS` of `BitPtr` is a parameter (`pointer.rs` is not among the sources), and
`BitPtr::new` is taken to build the pointer it is given. -/
def fromSlice (MAX_ELTS addr len : Nat) : Except String (BitPtr T) := do
  check (len ≤ MAX_ELTS) s!"BitSlice cannot address {len} elements"
  match checkedMul len T.BITS with
  | .some bits => pure ⟨addr, ⟨0, T.BITS_pos⟩, bits⟩
  | .none => .error "Bit length out of range"

/-- `from_slice_mut`: `from_slice`, with mutability restored. -/
def fromSliceMut (MAX_ELTS addr len : Nat) : Except String (BitPtr T) :=
  fromSlice MAX_ELTS addr len

/-- `split_at_unchecked`, and `split_at_mut_unchecked`, which only restores mutability. -/
def splitAtUnchecked (p : BitPtr T) (mid : Nat) : BitPtr T × BitPtr T :=
  if mid = 0 then (BitPtr.empty, p)
  else if mid = p.len then (p, BitPtr.empty)
  else (sliceUnchecked p 0 mid, sliceUnchecked p mid p.len)

/-! ### Single bits -/

/-- Modelled from the spec: `get_unchecked(index)` for one bit (`api.rs` is not among the
sources); one synchronized read of the bit's element. -/
def getUnchecked (p : BitPtr T) (index : Nat) : Prog T Bool :=
  let (elt, bit) := offset p.head index
  BitAccess.get C (p.addr + elt).toNat bit

/-- `set_unchecked`: the alias-safe write of one bit. -/
def setUnchecked (p : BitPtr T) (index : Nat) (value : Bool) : Prog T Unit :=
  let (elt, bit) := offset p.head index
  BitAccess.set C (p.addr + elt).toNat bit value

/-- `Index<usize>::index`. -/
def get (p : BitPtr T) (index : Nat) : Prog T Bool := do
  let len := p.len
  assert (index < len) s!"Index out of range: {index} >= {len}"
  getUnchecked C p index

/-- `set`. -/
def set (p : BitPtr T) (index : Nat) (value : Bool) : Prog T Unit := do
  let len := p.len
  assert (index < len) s!"Index out of range: {index} >= {len}"
  setUnchecked C p index value

/-- `copy_unchecked`. -/
def copyUnchecked (p : BitPtr T) (from_ to_ : Nat) : Prog T Unit := do
  setUnchecked C p to_ (← getUnchecked C p from_)

/-! ### Whole-slice queries -/

/-- `all`: edge bits one at a time, body elements against `bits(true)`. -/
def all (p : BitPtr T) : Prog T Bool :=
  match p.domain with
  | .Empty => pure true
  | .Minor head elt tail =>
    allM (List.range' head (tail - head)) fun n => BitAccess.get C elt n
  | .Major h head body tail t =>
    andThen (andThen (allM (List.range' h (T.BITS - h)) fun n => BitAccess.get C head n)
        (allM (List.range t) fun n => BitAccess.get C tail n))
      (allM body fun e => do return (← BitAccess.load e) == BitStore.bits T true)
  | .PartialHead h head body =>
    andThen (allM (List.range' h (T.BITS - h)) fun n => BitAccess.get C head n)
      (allM body fun e => do return (← BitAccess.load e) == BitStore.bits T true)
  | .PartialTail body tail t =>
    andThen (allM (List.range t) fun n => BitAccess.get C tail n)
      (allM body fun e => do return (← BitAccess.load e) == BitStore.bits T true)
  | .Spanning body => allM body fun e => do return (← BitAccess.load e) == BitStore.bits T true

/-- `any`: edge bits one at a time, body elements against `bits(false)`. -/
def any (p : BitPtr T) : Prog T Bool :=
  match p.domain with
  | .Empty => pure false
  | .Minor head elt tail =>
    anyM (List.range' head (tail - head)) fun n => BitAccess.get C elt n
  | .Major h head body tail t =>
    orElse (orElse (anyM (List.range' h (T.BITS - h)) fun n => BitAccess.get C head n)
        (anyM (List.range t) fun n => BitAccess.get C tail n))
      (anyM body fun e => do return (← BitAccess.load e) != BitStore.bits T false)
  | .PartialHead h head body =>
    orElse (anyM (List.range' h (T.BITS - h)) fun n => BitAccess.get C head n)
      (anyM body fun e => do return (← BitAccess.load e) != BitStore.bits T false)
  | .PartialTail body tail t =>
    orElse (anyM (List.range t) fun n => BitAccess.get C tail n)
      (anyM body fun e => do return (← BitAccess.load e) != BitStore.bits T false)
  | .Spanning body => anyM body fun e => do return (← BitAccess.load e) != BitStore.bits T false

/-- `not_all`. -/
def notAll (p : BitPtr T) : Prog T Bool := do
  return !(← all C p)

/-- `not_any`. -/
def notAny (p : BitPtr T) : Prog T Bool := do
  return !(← any C p)

/-- `some`: `self.any() && self.not_all()`. -/
def some (p : BitPtr T) : Prog T Bool :=
  andThen (any C p) (notAll C p)

/-! ### Counts -/

/-- The body shared by `count_ones` and `count_zeros`: edge bits one at a time, each counted
by `edge`, body elements loaded whole and counted by `body`, summed head first. -/
def countWith (edge : Bool → Nat) (body : BitVec T.BITS → Nat) (p : BitPtr T) : Prog T Nat :=
  match p.domain with
  | .Empty => pure 0
  | .Minor head elt tail =>
    sumM (List.range' head (tail - head)) fun n => do return edge (← BitAccess.get C elt n)
  | .Major h head elts tail t => do
    let a ← sumM (List.range' h (T.BITS - h)) fun n => do return edge (← BitAccess.get C head n)
    let b ← sumM elts fun e => do return body (← BitAccess.load e)
    let c ← sumM (List.range t) fun n => do return edge (← BitAccess.get C tail n)
    pure (a + b + c)
  | .PartialHead h head elts => do
    let a ← sumM (List.range' h (T.BITS - h)) fun n => do return edge (← BitAccess.get C head n)
    let b ← sumM elts fun e => do return body (← BitAccess.load e)
    pure (a + b)
  | .PartialTail elts tail t => do
    let b ← sumM elts fun e => do return body (← BitAccess.load e)
    let c ← sumM (List.range t) fun n => do return edge (← BitAccess.get C tail n)
    pure (b + c)
  | .Spanning elts => sumM elts fun e => do return body (← BitAccess.load e)

/-- `count_ones`: each edge bit as `bit as usize`, each body element by
`BitStore::count_ones`. -/
def countOnes (p : BitPtr T) : Prog T Nat := countWith C Bool.toNat BitStore.countOnes p

/-- `count_zeros`: each edge bit as `!bit as usize`, each body element by
`BitStore::count_zeros`. -/
def countZeros (p : BitPtr T) : Prog T Nat :=
  countWith C (fun b => (!b).toNat) BitStore.countZeros p

/-! ### Whole-slice writes -/

/-- `set_all`: edge bits through `BitAccess::set`, body elements by one store of
`bits(value)`. -/
def setAll (p : BitPtr T) (value : Bool) : Prog T Unit :=
  match p.domain with
  | .Empty => pure ()
  | .Minor head elt tail =>
    (List.range' head (tail - head)).forM fun n => BitAccess.set C elt n value
  | .Major h head body tail t => do
    (List.range' h (T.BITS - h)).forM fun n => BitAccess.set C head n value
    body.forM fun elt => BitAccess.store elt (BitStore.bits T value)
    (List.range t).forM fun n => BitAccess.set C tail n value
  | .PartialHead h head body => do
    (List.range' h (T.BITS - h)).forM fun n => BitAccess.set C head n value
    body.forM fun elt => BitAccess.store elt (BitStore.bits T value)
  | .PartialTail body tail t => do
    body.forM fun elt => BitAccess.store elt (BitStore.bits T value)
    (List.range t).forM fun n => BitAccess.set C tail n value
  | .Spanning body => body.forM fun elt => BitAccess.store elt (BitStore.bits T value)

/-- `Not for &mut BitSlice`: edge bits through `invert_bit`, body elements by
`store(!load())`. -/
def not (p : BitPtr T) : Prog T Unit :=
  match p.domain with
  | .Empty => pure ()
  | .Minor head elt tail =>
    (List.range' head (tail - head)).forM fun n => BitAccess.invertBit C elt n
  | .Major h head body tail t => do
    (List.range' h (T.BITS - h)).forM fun n => BitAccess.invertBit C head n
    body.forM fun elt => do BitAccess.store elt (~~~(← BitAccess.load elt))
    (List.range t).forM fun n => BitAccess.invertBit C tail n
  | .PartialHead h head body => do
    (List.range' h (T.BITS - h)).forM fun n => BitAccess.invertBit C head n
    body.forM fun elt => do BitAccess.store elt (~~~(← BitAccess.load elt))
  | .PartialTail body tail t => do
    body.forM fun elt => do BitAccess.store elt (~~~(← BitAccess.load elt))
    (List.range t).forM fun n => BitAccess.invertBit C tail n
  | .Spanning body => body.forM fun elt => do BitAccess.store elt (~~~(← BitAccess.load elt))

/-- `for_each`: each index in turn gets `func` of its index and its current bit. -/
def forEach (p : BitPtr T) (func : Nat → Bool → Bool) : Prog T Unit :=
  (List.range p.len).forM fun idx => do
    let tmp ← getUnchecked C p idx
    let new := func idx tmp
    setUnchecked C p idx new

/-- `BitAndAssign`: the source, then `false` forever, over the first `len` indices. -/
def bitandAssign (p : BitPtr T) (rhs : BitSource) : Prog T Unit :=
  ((List.range p.len).map fun idx => (idx, rhs.chainFalse idx)).forM fun (idx, bit) => do
    let val ← getUnchecked C p idx
    setUnchecked C p idx (val && bit)

/-- `BitOrAssign`: only as far as both the source and the slice go. -/
def bitorAssign (p : BitPtr T) (rhs : BitSource) : Prog T Unit :=
  (rhs.take p.len).enum.forM fun (idx, bit) => do
    let val ← getUnchecked C p idx
    setUnchecked C p idx (val || bit)

/-- `BitXorAssign`: only as far as both the source and the slice go. -/
def bitxorAssign (p : BitPtr T) (rhs : BitSource) : Prog T Unit :=
  (rhs.take p.len).enum.forM fun (idx, bit) => do
    let val ← getUnchecked C p idx
    setUnchecked C p idx (xor val bit)

/-- One ripple-carry step at index `i` with addend bit `b` and carry `c`. -/
def addStep (p : BitPtr T) (c : Bool) (i : Nat) (b : Bool) : Prog T Bool := do
  let a ← getUnchecked C p i
  let (y, z) := rca1 a b c
  setUnchecked C p i y
  pure z

/-- `add_assign_reverse`: from index `0` up, the addend zero-extended at its end; returns
the final carry. -/
def addAssignReverse (p : BitPtr T) (addend : BitSource) : Prog T Bool :=
  ((List.range p.len).map fun i => (i, addend.chainFalse i)).foldlM
    (fun c (i, b) => addStep C p c i b) false

/-- `AddAssign`: from the last index down, against the addend reversed and zero-extended;
the final carry is dropped. -/
def addAssign (p : BitPtr T) (addend : List Bool) : Prog T Unit := do
  let addendIter := (BitSource.finite addend.reverse).chainFalse
  let _ ← ((List.range p.len).reverse.zip ((List.range p.len).map addendIter)).foldlM
    (fun c (i, b) => addStep C p c i b) false

/-- `Neg for &mut BitSlice`: zero and the most negative value (a leading one, zeroes
else) become zero; any other value is inverted and incremented. -/
def neg (p : BitPtr T) : Prog T Unit := do
  let invertAddOne : Prog T Unit := do
    BitSlice.not C p
    addAssign C p [true]
  if ← orElse (pure (p.len == 0)) (notAny C p) then pure ()
  else if ← getUnchecked C p 0 then do
    setUnchecked C p 0 false
    if ← notAny C p then pure ()
    else do
      setUnchecked C p 0 true
      invertAddOne
  else invertAddOne

/-- `as_slice`: the fully owned elements. -/
def asSlice (p : BitPtr T) : List Nat := p.domain.body

/-- `ShlAssign<usize>`: bits move towards index `0`, and the vacated end is zeroed. -/
def shlAssign : Nat → BitPtr T → Nat → Prog T Unit
  | 0, _, _ => .halt .outOfFuel
  | fuel + 1, p, shamt =>
    if shamt = 0 then pure ()
    else if shamt ≥ p.len then setAll C p false
    else if p.domain.isSpanning then do
      let offset := shamt >>> T.INDX
      let rem := p.elements - offset
      let to_ := p.addr
      let from_ ← elemIndex (asSlice p) offset
      let tail ← elemIndex (asSlice p) rem
      ptrCopy from_ to_ rem
      writeBytes tail offset
      let front ← liftIndex (indexTo p (rem <<< T.INDX))
      shlAssign fuel front (shamt &&& T.INDX)
    else do
      (List.range' shamt (p.len - shamt)).enum.forM fun (to_, from_) =>
        copyUnchecked C p from_ to_
      let back ← liftIndex (indexFrom p (p.len - shamt))
      setAll C back false

/-- `ShrAssign<usize>`: bits move away from index `0`, and the vacated front is zeroed. -/
def shrAssign : Nat → BitPtr T → Nat → Prog T Unit
  | 0, _, _ => .halt .outOfFuel
  | fuel + 1, p, shamt =>
    if shamt = 0 then pure ()
    else if shamt ≥ p.len then setAll C p false
    else if p.domain.isSpanning then do
      let offset := shamt >>> T.INDX
      let rem := p.elements - offset
      let from_ := p.addr
      let to_ ← elemIndex (asSlice p) offset
      ptrCopy from_ to_ rem
      writeBytes from_ offset
      let back ← liftIndex (indexFrom p (offset <<< T.INDX))
      shrAssign fuel back (shamt &&& T.INDX)
    else do
      (List.range' shamt (p.len - shamt)).enum.reverse.forM fun (from_, to_) =>
        copyUnchecked C p from_ to_
      let front ← liftIndex (indexTo p shamt)
      setAll C front false

/-! ### The write guard -/

/-- `BitGuard`: a single-bit sub-slice and the cached bit it commits on drop. -/
structure BitGuard (T : BitStore) where
  slot : BitPtr T
  bit : Bool

/-- `at_unchecked`: caches the bit and keeps `get_unchecked_mut(index ..= index)`. -/
def atUnchecked (p : BitPtr T) (index : Nat) : Prog T (BitGuard T) := do
  let bit ← getUnchecked C p index
  pure ⟨sliceUnchecked p index (index + 1), bit⟩

/-- `at`. -/
def at_ (p : BitPtr T) (index : Nat) : Prog T (BitGuard T) := do
  let len := p.len
  assert (index < len) s!"Index {index} out of bounds: {len}"
  atUnchecked C p index

namespace BitGuard

/-- `DerefMut`: `*guard = value` writes the cache only. -/
def derefMut (g : BitGuard T) (value : Bool) : BitGuard T :=
  { g with bit := value }

/-- `Drop`: commits the cache through `set(0, bit)`. -/
def drop (g : BitGuard T) : Prog T Unit :=
  set C g.slot 0 g.bit

end BitGuard

end BitSlice

end BitvecProofs
