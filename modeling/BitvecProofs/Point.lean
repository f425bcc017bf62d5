import BitvecProofs.Slice

/-!
Single-bit access to a slice, and the loops built from it.

`get_unchecked` and `set_unchecked` reach bit `i` through `offset`, which lands on the
element `elt i` and the place `place i` of the decoded pointer; a write of bit `i` is
`BitPtr.setBit`, which changes that one place and nothing else. Since distinct indices
live at distinct places (`BitPtr.eq_of_elt_place`), a loop that reads and rewrites
distinct indices sees at each step the bit as it was before the loop. The run lemmas for
`forM`, `allM` and `anyM` say what such loops compute, once, for every operation.

The whole-slice operations all walk the domain the same way: an edge loop over the places of
each partial element, a loop over the body elements, put together per shape. `BitDomain.walk`
is that walk, each of `all`, `any`, `count_ones`/`count_zeros`, `set_all` and `!` is one
(`all_walk`, …), and `BitDomain.walk_places` is the one case split over the six shapes that
their run and footprint lemmas share.
-/

namespace BitvecProofs

variable {T : BitStore}

namespace BitPtr

variable (C : Cursor) (p : BitPtr T)

/-- Memory with bit `i` of the slice set to `value`. -/
def setBit (m : Mem T) (i : Nat) (value : Bool) : Mem T :=
  Function.update m (p.elt i) (BitStore.set C (m (p.elt i)) (p.place i) value)

lemma getLsbD_setBit (m : Mem T) (i : Nat) (value : Bool) (a q : Nat) :
    (p.setBit C m i value a).getLsbD q =
      if a = p.elt i ∧ C.pos T (p.place i) = q then value else (m a).getLsbD q := by
  by_cases ha : a = p.elt i
  · subst ha
    simp [setBit, BitStore.getLsbD_set _ _ (p.place_lt i)]
  · simp [setBit, Function.update_noteq ha, ha]

@[simp] lemma bit_setBit (m : Mem T) (i : Nat) (value : Bool) (j : Nat) :
    p.bit C (p.setBit C m i value) j = if j = i then value else p.bit C m j := by
  simp only [bit, getLsbD_setBit]
  by_cases hj : j = i
  · simp [hj]
  · rw [if_neg hj, if_neg]
    exact fun h => hj (p.eq_of_elt_place h.1 (C.pos_inj (p.place_lt j) (p.place_lt i) h.2.symm))

/-- A write of bit `i` changes only what bit `i` owns. -/
lemma getLsbD_setBit_of_not_owns (m : Mem T) {i : Nat} (hi : i < p.len) (value : Bool)
    {a q : Nat} (h : ¬ p.Owns C a q) : (p.setBit C m i value a).getLsbD q = (m a).getLsbD q := by
  rw [getLsbD_setBit, if_neg]
  rintro ⟨rfl, rfl⟩
  exact h ⟨i, hi, rfl, rfl⟩

end BitPtr

namespace BitDomain

variable {α : Type}

/-- The walk of a whole-slice operation over its domain: `edge elt places` on places of one
partial element, `body elts` on whole elements, and per shape a combinator that gets the
parts in place order (head, body, tail) and runs them in the source's order. -/
def walk (empty : Prog T α) (edge : Nat → List Nat → Prog T α) (body : List Nat → Prog T α)
    (major : Prog T α → Prog T α → Prog T α → Prog T α)
    (partialHead partialTail : Prog T α → Prog T α → Prog T α) : BitDomain → Prog T α
  | Empty => empty
  | Minor head elt tail => edge elt (List.range' head (tail - head))
  | Major h head elts tail t =>
    major (edge head (List.range' h (T.BITS - h))) (body elts) (edge tail (List.range t))
  | PartialHead h head elts => partialHead (edge head (List.range' h (T.BITS - h))) (body elts)
  | PartialTail elts tail t => partialTail (body elts) (edge tail (List.range t))
  | Spanning elts => body elts

/-- Induction over the shapes. A property of a program and of the places it works on, that
holds of the empty walk, of every edge and every body whose places are among `P`, and that
each shape's combinator keeps, holds of the walk of any domain with places among `P`. -/
lemma walk_places {P : List (Nat × Nat)} {d : BitDomain} (hd : d.places T ⊆ P)
    {motive : List (Nat × Nat) → Prog T α → Prop} {empty : Prog T α}
    {edge : Nat → List Nat → Prog T α} {body : List Nat → Prog T α}
    {major : Prog T α → Prog T α → Prog T α → Prog T α}
    {partialHead partialTail : Prog T α → Prog T α → Prog T α}
    (hempty : motive [] empty)
    (hedge : ∀ a ns, ns.map ((a, ·)) ⊆ P → motive (ns.map ((a, ·))) (edge a ns))
    (hbody : ∀ elts, bodyPlaces T elts ⊆ P → motive (bodyPlaces T elts) (body elts))
    (hmajor : ∀ {xs ys zs x y z}, motive xs x → motive ys y → motive zs z →
      motive (xs ++ ys ++ zs) (major x y z))
    (hpartialHead : ∀ {xs ys x y}, motive xs x → motive ys y →
      motive (xs ++ ys) (partialHead x y))
    (hpartialTail : ∀ {ys zs y z}, motive ys y → motive zs z →
      motive (ys ++ zs) (partialTail y z)) :
    motive (d.places T) (d.walk empty edge body major partialHead partialTail) := by
  cases d with
  | Empty => exact hempty
  | Minor => exact hedge _ _ hd
  | Major =>
    obtain ⟨hxy, hz⟩ := List.append_subset.1 hd
    obtain ⟨hx, hy⟩ := List.append_subset.1 hxy
    exact hmajor (hedge _ _ hx) (hbody _ hy) (hedge _ _ hz)
  | PartialHead =>
    obtain ⟨hx, hy⟩ := List.append_subset.1 hd
    exact hpartialHead (hedge _ _ hx) (hbody _ hy)
  | PartialTail =>
    obtain ⟨hy, hz⟩ := List.append_subset.1 hd
    exact hpartialTail (hbody _ hy) (hedge _ _ hz)
  | Spanning => exact hbody _ hd

end BitDomain

namespace BitSlice

open Prog

variable (C : Cursor) (p : BitPtr T)

lemma offset_elt (i : Nat) :
    ((p.addr : Int) + (offset p.head i).1).toNat = p.elt i := by
  rw [offset_natCast]
  show ((p.addr : Int) + (((p.head + i) / T.BITS : Nat) : Int)).toNat = _
  rw [← Int.ofNat_add, Int.toNat_ofNat]
  rfl

lemma getUnchecked_eq (i : Nat) : getUnchecked C p i = BitAccess.get C (p.elt i) (p.place i) := by
  simp only [getUnchecked, ← offset_elt]
  rw [offset_natCast]
  rfl

lemma setUnchecked_eq (i : Nat) (value : Bool) :
    setUnchecked C p i value = BitAccess.set C (p.elt i) (p.place i) value := by
  simp only [setUnchecked, ← offset_elt]
  rw [offset_natCast]
  rfl

/-! ### The whole-slice operations as walks -/

lemma all_walk : all C p = p.domain.walk (pure true)
    (fun a ns => allM ns fun n => BitAccess.get C a n)
    (fun elts => allM elts fun e => do return (← BitAccess.load e) == BitStore.bits T true)
    (fun head body tail => andThen (andThen head tail) body) andThen
    (fun body tail => andThen tail body) := by
  unfold all; cases p.domain <;> rfl

lemma any_walk : any C p = p.domain.walk (pure false)
    (fun a ns => anyM ns fun n => BitAccess.get C a n)
    (fun elts => anyM elts fun e => do return (← BitAccess.load e) != BitStore.bits T false)
    (fun head body tail => orElse (orElse head tail) body) orElse
    (fun body tail => orElse tail body) := by
  unfold any; cases p.domain <;> rfl

lemma countWith_walk (edge : Bool → Nat) (body : BitVec T.BITS → Nat) :
    countWith C edge body p = p.domain.walk (pure 0)
      (fun a ns => sumM ns fun n => do return edge (← BitAccess.get C a n))
      (fun elts => sumM elts fun e => do return body (← BitAccess.load e))
      (fun x y z => do let a ← x; let b ← y; let c ← z; pure (a + b + c))
      (fun x y => do let a ← x; let b ← y; pure (a + b))
      (fun y z => do let b ← y; let c ← z; pure (b + c)) := by
  unfold countWith; cases p.domain <;> rfl

lemma setAll_walk (value : Bool) : setAll C p value = p.domain.walk (pure ())
    (fun a ns => ns.forM fun n => BitAccess.set C a n value)
    (fun elts => elts.forM fun elt => BitAccess.store elt (BitStore.bits T value))
    (fun head body tail => do head; body; tail) (fun head body => do head; body)
    (fun body tail => do body; tail) := by
  unfold setAll; cases p.domain <;> rfl

lemma not_walk : not C p = p.domain.walk (pure ())
    (fun a ns => ns.forM fun n => BitAccess.invertBit C a n)
    (fun elts => elts.forM fun elt => do BitAccess.store elt (~~~(← BitAccess.load elt)))
    (fun head body tail => do head; body; tail) (fun head body => do head; body)
    (fun body tail => do body; tail) := by
  unfold not; cases p.domain <;> rfl

variable {C p} {m : Mem T}

@[simp] lemma getUnchecked_run (i : Nat) (m : Mem T) :
    (getUnchecked C p i).run m = (.ok (p.bit C m i), m) := by
  rw [getUnchecked_eq, BitAccess.get_run _ (p.place_lt i)]
  rfl

@[simp] lemma setUnchecked_run (i : Nat) (value : Bool) (m : Mem T) :
    (setUnchecked C p i value).run m = (.ok (), p.setBit C m i value) := by
  rw [setUnchecked_eq, BitAccess.set_run]
  rfl

lemma getUnchecked_confined {i : Nat} (hi : i < p.len) :
    (getUnchecked C p i).Confined (p.Owns C) := by
  rw [getUnchecked_eq]
  refine BitAccess.get_confined (p.place_lt i) ?_
  exact ⟨i, hi, rfl, rfl⟩

lemma setUnchecked_confined {i : Nat} (hi : i < p.len) (value : Bool) :
    (setUnchecked C p i value).Confined (p.Owns C) := by
  rw [setUnchecked_eq]
  refine BitAccess.set_confined (p.place_lt i) ?_ value
  exact ⟨i, hi, rfl, rfl⟩

/-! ### Loops -/

variable {δ : Type}

lemma forM_run {xs : List δ} {f : δ → Prog T Unit} {eff : δ → Mem T → Mem T}
    (h : ∀ x ∈ xs, ∀ m, (f x).run m = (.ok (), eff x m)) (m : Mem T) :
    (xs.forM f).run m = (.ok (), xs.foldl (fun m x => eff x m) m) := by
  induction xs generalizing m with
  | nil => rfl
  | cons x xs ih =>
    rw [show (x :: xs).forM f = f x >>= fun _ => xs.forM f from rfl,
      run_bind_ok (h x (List.mem_cons_self x xs) m), ih fun y hy => h y (List.mem_cons_of_mem x hy)]
    rfl

lemma allM_run {xs : List δ} {f : δ → Prog T Bool} {g : δ → Bool}
    (h : ∀ x ∈ xs, (f x).run m = (.ok (g x), m)) : (allM xs f).run m = (.ok (xs.all g), m) := by
  induction xs with
  | nil => rfl
  | cons x xs ih =>
    have ih := ih fun y hy => h y (List.mem_cons_of_mem x hy)
    simp only [allM, run_bind, h x (List.mem_cons_self x xs), List.all_cons]
    cases g x <;> simp [ih]

lemma anyM_run {xs : List δ} {f : δ → Prog T Bool} {g : δ → Bool}
    (h : ∀ x ∈ xs, (f x).run m = (.ok (g x), m)) : (anyM xs f).run m = (.ok (xs.any g), m) := by
  induction xs with
  | nil => rfl
  | cons x xs ih =>
    have ih := ih fun y hy => h y (List.mem_cons_of_mem x hy)
    simp only [anyM, run_bind, h x (List.mem_cons_self x xs), List.any_cons]
    cases g x <;> simp [ih]

lemma andThen_run {a b : Prog T Bool} {x y : Bool} (ha : a.run m = (.ok x, m))
    (hb : b.run m = (.ok y, m)) : (andThen a b).run m = (.ok (x && y), m) := by
  cases x <;> simp [andThen, ha, hb]

lemma orElse_run {a b : Prog T Bool} {x y : Bool} (ha : a.run m = (.ok x, m))
    (hb : b.run m = (.ok y, m)) : (orElse a b).run m = (.ok (x || y), m) := by
  cases x <;> simp [orElse, ha, hb]

lemma allM_confined {S : Nat → Nat → Prop} {xs : List δ} {f : δ → Prog T Bool}
    (h : ∀ x ∈ xs, (f x).Confined S) : (allM xs f).Confined S := by
  induction xs with
  | nil => exact .ret _
  | cons x xs ih =>
    exact (h x (List.mem_cons_self x xs)).bind fun b =>
      .ite (ih fun y hy => h y (List.mem_cons_of_mem x hy)) (.ret _)

lemma anyM_confined {S : Nat → Nat → Prop} {xs : List δ} {f : δ → Prog T Bool}
    (h : ∀ x ∈ xs, (f x).Confined S) : (anyM xs f).Confined S := by
  induction xs with
  | nil => exact .ret _
  | cons x xs ih =>
    exact (h x (List.mem_cons_self x xs)).bind fun b =>
      .ite (.ret _) (ih fun y hy => h y (List.mem_cons_of_mem x hy))

/-! ### Loops that rewrite distinct indices -/

lemma bit_setBit_eq (m : Mem T) (i : Nat) (value : Bool) :
    p.bit C (p.setBit C m i value) = Function.update (p.bit C m) i value := by
  funext j
  rw [BitPtr.bit_setBit, Function.update_apply]

/-- A loop whose every step rewrites one bit from one bit it reads computes the same loop on
the slice's bits, as a function `Nat → Bool`. -/
lemma bit_foldl_setBit (xs : List δ) (dst src : δ → Nat) (g : δ → Bool → Bool)
    (m : Mem T) :
    p.bit C (xs.foldl (fun m x => p.setBit C m (dst x) (g x (p.bit C m (src x)))) m) =
      xs.foldl (fun f x => Function.update f (dst x) (g x (f (src x)))) (p.bit C m) := by
  induction xs generalizing m with
  | nil => rfl
  | cons x xs ih => rw [List.foldl_cons, ih, bit_setBit_eq]; rfl

/-- An index that no step rewrites keeps its bit. -/
lemma foldl_update_of_forall_ne {xs : List δ} (idx : δ → Nat) (g : δ → Bool → Bool)
    {j : Nat} (hj : ∀ x ∈ xs, idx x ≠ j) (f : Nat → Bool) :
    xs.foldl (fun f x => Function.update f (idx x) (g x (f (idx x)))) f j = f j := by
  induction xs generalizing f with
  | nil => rfl
  | cons x xs ih =>
    rw [List.foldl_cons, ih (fun y hy => hj y (.tail _ hy)),
      Function.update_noteq (hj x (.head _)).symm]

/-- When the steps rewrite distinct indices, the step of `x` reads the bit of `idx x` as it
was before the loop, and nothing rewrites it afterwards. -/
lemma foldl_update_of_mem {xs : List δ} (idx : δ → Nat) (g : δ → Bool → Bool)
    (hxs : (xs.map idx).Nodup) {x : δ} (hx : x ∈ xs) (f : Nat → Bool) :
    xs.foldl (fun f x => Function.update f (idx x) (g x (f (idx x)))) f (idx x) =
      g x (f (idx x)) := by
  induction xs generalizing f with
  | nil => cases hx
  | cons y ys ih =>
    rw [List.map_cons, List.nodup_cons] at hxs
    rw [List.foldl_cons]
    rcases List.mem_cons.1 hx with rfl | hx
    · rw [foldl_update_of_forall_ne idx g fun z hz he => hxs.1 (List.mem_map.2 ⟨z, hz, he⟩),
        Function.update_same]
    · rw [ih hxs.2 hx, Function.update_noteq fun he => hxs.1 (List.mem_map.2 ⟨x, hx, he⟩)]

/-! ### The views of elements -/

lemma elt_fromElement {a i : Nat} (hi : i < T.BITS) : (fromElement a : BitPtr T).elt i = a := by
  rw [BitPtr.elt, fromElement, Nat.zero_add, Nat.div_eq_of_lt hi, Nat.add_zero]

lemma place_fromElement {a i : Nat} (hi : i < T.BITS) :
    (fromElement a : BitPtr T).place i = i := by
  rw [BitPtr.place, fromElement, Nat.zero_add, Nat.mod_eq_of_lt hi]

/-- **An element's view.** The view `from_element` makes of the element at `a` reads the
element whole and nothing else: two memories hold the same element at `a` exactly when the
view reads the same bits in both, whichever the cursor. -/
theorem fromElement_bits (C : Cursor) (a : Nat) (m₁ m₂ : Mem T) :
    (fromElement a : BitPtr T).bits C m₁ = (fromElement a).bits C m₂ ↔ m₁ a = m₂ a := by
  have hbit : ∀ (m : Mem T) {i : Nat}, i < T.BITS →
      (fromElement a : BitPtr T).bit C m i = (m a).getLsbD (C.pos T i) := fun m i hi => by
    rw [BitPtr.bit, elt_fromElement hi, place_fromElement hi]
  constructor
  · intro h
    refine BitVec.eq_of_getLsbD_eq fun ⟨q, hq⟩ => ?_
    obtain ⟨i, hi, rfl⟩ := C.pos_surj hq
    have := List.map_inj_left.1 h i (List.mem_range.2 hi)
    rwa [hbit m₁ hi, hbit m₂ hi] at this
  · intro h
    exact List.map_congr_left fun i hi => by
      rw [hbit m₁ (List.mem_range.1 hi), hbit m₂ (List.mem_range.1 hi), h]

/-- **A slice's view.** `from_slice` (and `from_slice_mut`, which returns the same view) over
`len` elements at `addr` fails its assertion past `MAX_ELTS` elements, and its `expect` where
`len * BITS` overflows a `usize`. Otherwise the view is `len * BITS` bits long, its bit
`k * BITS + j` is place `j` of element `k` in the cursor's order, and its `as_slice` gives
back the elements it was made from. -/
theorem fromSlice_view (MAX_ELTS addr len : Nat) :
    (MAX_ELTS < len → fromSlice (T := T) MAX_ELTS addr len =
      .error s!"BitSlice cannot address {len} elements") ∧
    (len ≤ MAX_ELTS → USIZE_MAX < len * T.BITS →
      fromSlice (T := T) MAX_ELTS addr len = .error "Bit length out of range") ∧
    (len ≤ MAX_ELTS → len * T.BITS ≤ USIZE_MAX → ∃ q, fromSlice MAX_ELTS addr len = .ok q ∧
      q.len = len * T.BITS ∧ asSlice q = List.range' addr len ∧
      ∀ (C : Cursor) (m : Mem T), ∀ k < len, ∀ j < T.BITS,
        q.bit C m (k * T.BITS + j) = (m (addr + k)).getLsbD (C.pos T j)) := by
  refine ⟨fun h => ?_, fun h1 h2 => ?_, fun h1 h2 =>
    ⟨⟨addr, ⟨0, T.BITS_pos⟩, len * T.BITS⟩, ?_, rfl, ?_, fun C m k _ j hj => ?_⟩⟩
  · simp only [fromSlice, check, if_neg (Nat.not_le.2 h)]
    rfl
  · simp only [fromSlice, check, if_pos h1, checkedMul, if_neg (Nat.not_le.2 h2)]
    rfl
  · simp only [fromSlice, check, if_pos h1, checkedMul, if_pos h2]
    rfl
  · obtain ⟨-, hd⟩ := BitPtr.domain_of_whole ⟨addr, ⟨0, T.BITS_pos⟩, len * T.BITS⟩ rfl rfl
    rw [asSlice, hd]
    split <;> simp_all [BitDomain.body]
  · have hdiv : (k * T.BITS + j) / T.BITS = k := by
      rw [Nat.mul_comm, Nat.mul_add_div T.BITS_pos, Nat.div_eq_of_lt hj, Nat.add_zero]
    have hmod : (k * T.BITS + j) % T.BITS = j := by
      rw [Nat.mul_comm, Nat.mul_add_mod, Nat.mod_eq_of_lt hj]
    rw [BitPtr.bit_whole _ C rfl, hdiv, hmod]

/-- The doc test of `from_slice`: `[1, 2, 3]` as `BigEndian` bytes is `24` bits over three
elements, with bits `7`, `14`, `22` and `23` set. -/
theorem fromSlice_doc :
    ∃ q, fromSlice (T := .u8) 3 0 3 = .ok q ∧ q.len = 24 ∧ (asSlice q).length = 3 ∧
      q.bit .BigEndian (fun a => BitVec.ofNat 8 (a + 1)) 7 = true ∧
      q.bit .BigEndian (fun a => BitVec.ofNat 8 (a + 1)) 14 = true ∧
      q.bit .BigEndian (fun a => BitVec.ofNat 8 (a + 1)) 22 = true ∧
      q.bit .BigEndian (fun a => BitVec.ofNat 8 (a + 1)) 23 = true := by
  obtain ⟨q, hq, hlen, has, hbit⟩ := (fromSlice_view (T := .u8) 3 0 3).2.2 (by decide) (by decide)
  have hset : ∀ k < 3, ∀ j < 8, (BitVec.ofNat 8 (0 + k + 1)).getLsbD (Cursor.pos .BigEndian
      .u8 j) = true → q.bit .BigEndian (fun a => BitVec.ofNat 8 (a + 1)) (k * 8 + j) = true :=
    fun k hk j hj h => (hbit .BigEndian _ k hk j hj).trans h
  exact ⟨q, hq, hlen, by rw [has]; rfl, hset 0 (by decide) 7 (by decide) (by decide),
    hset 1 (by decide) 6 (by decide) (by decide), hset 2 (by decide) 6 (by decide) (by decide),
    hset 2 (by decide) 7 (by decide) (by decide)⟩

end BitSlice

end BitvecProofs
