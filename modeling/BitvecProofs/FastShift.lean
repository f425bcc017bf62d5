import BitvecProofs.Frame

/-!
The shifts `<<=` and `>>=`, whole.

Off the fast path a shift is the crawl of `Shift`; being confined to its slice, it leaves
every other place of memory as it was (`shlAssign_crawl`, `shrAssign_crawl`), and crawls add
up: `<<= a` then `<<= b` is `<<= a + b` (`shift_add`).

The fast path is taken by a `Spanning` slice: whole elements, one of them included. For an
amount `s` below its length it moves whole elements by `o = s >> INDX` with `ptr::copy`,
which reads its source window in full before it writes (`Prog.ptrCopy_run`), clears the `o`
elements it vacates with `ptr::write_bytes`, and recurses on the part still holding moved
bits with the amount `r = s & INDX`. Read as bits, the element move shifts by `o * BITS`
exactly (`bit_of_elements_down`, `bit_of_elements_up`).

The recursion is where the path goes wrong. `INDX` is `log2(BITS)`, so `r` is not the
remainder `s % BITS`, and the part the recursion gets is whole elements again, so `Spanning`
again, with an amount below `BITS`. There `<<=` finds `o = 0` and indexes one element past
the end, and `>>=` moves nothing and calls itself with the same part and amount, so it never
returns. Only when `r = 0` does the shift return, having shifted by `o * BITS`, which is `s`
exactly when `s` is a multiple of `BITS`. So on a `Spanning` slice shifts do not add up: on
one whole byte `<<= 4` twice panics, while `<<= 8` clears the byte.
-/

namespace BitvecProofs

namespace Prog

variable {T : BitStore} {δ β : Type} {m : Mem T}

lemma mapM_run {xs : List δ} {f : δ → Prog T β} {g : δ → β}
    (h : ∀ x ∈ xs, (f x).run m = (.ok (g x), m)) : (xs.mapM f).run m = (.ok (xs.map g), m) := by
  induction xs with
  | nil => rfl
  | cons x xs ih =>
    rw [List.mapM_cons, run_bind_ok (h x (.head _)),
      run_bind_ok (ih fun y hy => h y (.tail _ hy)), run_pure, List.map_cons]

/-- Element `k` of a window of `count` elements at `dst` rewritten to `g k`, one store after
another. -/
lemma foldl_update_window (dst count : Nat) (g : Nat → BitVec T.BITS) (m : Mem T) :
    (List.range count).foldl (fun (m : Mem T) k => Function.update m (dst + k) (g k)) m =
      fun a => if dst ≤ a ∧ a < dst + count then g (a - dst) else m a := by
  induction count with
  | zero => funext a; exact (if_neg (by omega)).symm
  | succ n ih =>
    rw [List.range_succ, List.foldl_append, ih]
    funext a
    simp only [List.foldl_cons, List.foldl_nil, Function.update_apply]
    by_cases ha : a = dst + n
    · simp [ha]
    · rw [if_neg ha]
      by_cases hw : dst ≤ a ∧ a < dst + n
      · rw [if_pos hw, if_pos (by omega)]
      · rw [if_neg hw, if_neg (by omega)]

lemma foldl_zip_map {α : Type} (xs : List Nat) (g : Nat → β) (f : α → Nat × β → α) (a : α) :
    (xs.zip (xs.map g)).foldl f a = xs.foldl (fun a k => f a (k, g k)) a := by
  induction xs generalizing a with
  | nil => rfl
  | cons x xs ih => exact ih _

/-- `ptr::copy` is a `memmove`: every element of the destination window receives the element
the source window held before the call, even where the two windows overlap, and every other
element keeps its value. -/
lemma ptrCopy_run (src dst count : Nat) (m : Mem T) :
    (ptrCopy src dst count).run m =
      (.ok (), fun a => if dst ≤ a ∧ a < dst + count then m (src + (a - dst)) else m a) := by
  rw [ptrCopy,
    run_bind_ok (mapM_run (g := fun k => m (src + k)) fun k _ => BitAccess.load_run _ m),
    BitSlice.forM_run (fun x _ m => BitAccess.store_run (dst + x.1) x.2 m), foldl_zip_map,
    foldl_update_window]

/-- `ptr::write_bytes(dst, 0, count)` clears the window and nothing else. -/
lemma writeBytes_run (dst count : Nat) (m : Mem T) :
    (writeBytes dst count).run m =
      (.ok (), fun a => if dst ≤ a ∧ a < dst + count then 0 else m a) := by
  rw [writeBytes, BitSlice.forM_run (fun k _ m => BitAccess.store_run (dst + k) 0 m),
    foldl_update_window dst count fun _ => 0]

end Prog

namespace BitStore

lemma INDX_lt_BITS (T : BitStore) : T.INDX < T.BITS := by
  cases T <;> decide

/-- Shifting right by `INDX` divides by the width. -/
lemma shiftRight_INDX (T : BitStore) (s : Nat) : s >>> T.INDX = s / T.BITS := by
  rw [Nat.shiftRight_eq_div_pow, BITS_eq_two_pow]

lemma shiftLeft_INDX (T : BitStore) (s : Nat) : s <<< T.INDX = s * T.BITS := by
  rw [Nat.shiftLeft_eq, BITS_eq_two_pow]

end BitStore

namespace BitSlice

open Prog

variable {T : BitStore} {C : Cursor}

/-! ### Slices of whole elements -/

lemma elemIndex_of_lt {a E i : Nat} (h : i < E) :
    (elemIndex (List.range' a E) i : Prog T Nat) = pure (a + i) := by
  rw [elemIndex, dif_pos (by simpa using h), List.getElem_range', Nat.one_mul]

lemma elemIndex_of_le {a E i : Nat} (h : E ≤ i) :
    (elemIndex (List.range' a E) i : Prog T Nat) =
      panic s!"index out of bounds: the len is {E} but the index is {i}" := by
  rw [elemIndex, dif_neg (by simpa using h), List.length_range']

/-- A slice that starts on an element boundary and covers `k` whole elements has `k`
elements, and is `Spanning` exactly when it is not empty. -/
lemma whole_shape (q : BitPtr T) (hh : (q.head : Nat) = 0) {k : Nat}
    (hl : q.len = k * T.BITS) : q.elements = k ∧ q.domain.isSpanning = decide (0 < k) := by
  obtain ⟨he, hd⟩ := q.domain_of_whole hh hl
  refine ⟨he, ?_⟩
  rcases k with _ | k <;> simp [hd, BitDomain.isSpanning]

/-- A `Spanning` slice starts on an element boundary, has at least one element, and its
`as_slice` is all of them. -/
lemma spanning_shape {p : BitPtr T} (hsp : p.domain.isSpanning = true) :
    (p.head : Nat) = 0 ∧ 0 < p.elements ∧ p.len = p.elements * T.BITS ∧
      asSlice p = List.range' p.addr p.elements := by
  obtain ⟨h0, h2, -⟩ := spanning_cond p hsp
  obtain ⟨hd, hl⟩ := spanning_eq p hsp
  have : p.elements ≠ 0 := fun he => h0 (by rw [hl, he, Nat.zero_mul])
  exact ⟨h2, Nat.pos_of_ne_zero this, hl, by rw [asSlice, hd]; rfl⟩

variable {p : BitPtr T} {E o : Nat} {m m' : Mem T}

/-- Elements moved down by `o`, with `0` behind them, are bits moved down by `o * BITS`. -/
lemma bit_of_elements_down (hh : (p.head : Nat) = 0) (hl : p.len = E * T.BITS)
    (hm : ∀ k < E, m' (p.addr + k) = if k + o < E then m (p.addr + (k + o)) else 0)
    {i : Nat} (hi : i < p.len) :
    p.bit C m' i = if i + o * T.BITS < p.len then p.bit C m (i + o * T.BITS) else false := by
  have hW := T.BITS_pos
  have hiff : i / T.BITS + o < E ↔ i + o * T.BITS < p.len := by
    rw [hl, ← Nat.div_lt_iff_lt_mul hW, Nat.add_mul_div_right _ _ hW]
  rw [p.bit_whole C hh, p.bit_whole C hh, hm _ ((Nat.div_lt_iff_lt_mul hW).2 (hl ▸ hi)),
    Nat.add_mul_div_right _ _ hW, Nat.add_mul_mod_self_right]
  by_cases h : i + o * T.BITS < p.len
  · rw [if_pos (hiff.2 h), if_pos h]
  · rw [if_neg (mt hiff.1 h), if_neg h]
    exact BitVec.getLsbD_zero

/-- Elements moved up by `o`, with `0` before them, are bits moved up by `o * BITS`. -/
lemma bit_of_elements_up (hh : (p.head : Nat) = 0) (hl : p.len = E * T.BITS)
    (hm : ∀ k < E, m' (p.addr + k) = if o ≤ k then m (p.addr + (k - o)) else 0)
    {i : Nat} (hi : i < p.len) :
    p.bit C m' i = if o * T.BITS ≤ i then p.bit C m (i - o * T.BITS) else false := by
  have hW := T.BITS_pos
  have hiff : o ≤ i / T.BITS ↔ o * T.BITS ≤ i := Nat.le_div_iff_mul_le hW
  rw [p.bit_whole C hh, p.bit_whole C hh, hm _ ((Nat.div_lt_iff_lt_mul hW).2 (hl ▸ hi))]
  by_cases h : o * T.BITS ≤ i
  · have h' : T.BITS * o ≤ i := by rwa [Nat.mul_comm]
    rw [if_pos (hiff.2 h), if_pos h, Nat.mul_comm o, Nat.sub_mul_mod h', Nat.sub_mul_div _ _ _ h']
  · rw [if_neg (mt hiff.1 h), if_neg h]
    exact BitVec.getLsbD_zero

/-! ### One step of the fast path -/

/-- Below one element, `<<=` on a `Spanning` slice finds `offset = 0`, so the vacated tail
would start at `as_slice()[elements]`, one past the end: it panics before writing. -/
lemma shlAssign_spanning_lt (hsp : p.domain.isSpanning = true) {s : Nat} (h0 : 0 < s)
    (hs : s < T.BITS) (fuel : Nat) (m : Mem T) :
    (shlAssign C (fuel + 1) p s).run m = (.error (.panic
      s!"index out of bounds: the len is {p.elements} but the index is {p.elements}"), m) := by
  obtain ⟨-, hE, hl, has⟩ := spanning_shape hsp
  have hge : ¬ s ≥ p.len := by
    have := Nat.le_mul_of_pos_left T.BITS (show 0 < p.elements by omega)
    omega
  simp only [shlAssign, if_neg (Nat.pos_iff_ne_zero.1 h0), if_neg hge, if_pos hsp, has,
    BitStore.shiftRight_INDX, Nat.div_eq_of_lt hs, Nat.sub_zero,
    elemIndex_of_lt (show 0 < p.elements by omega), elemIndex_of_le (Nat.le_refl _), pure_bind]
  rfl

/-- From one element up, `<<=` on a `Spanning` slice moves the elements down by
`o = s >> INDX`, clears the last `o`, and goes on with the first `elements - o` elements and
the amount `s & INDX`. -/
lemma shlAssign_spanning_move (hsp : p.domain.isSpanning = true) {s : Nat} (hs : s < p.len)
    (hW : T.BITS ≤ s) (fuel : Nat) (m : Mem T) :
    ∃ m', (∀ i < p.len, p.bit C m' i = if i + s >>> T.INDX * T.BITS < p.len then
        p.bit C m (i + s >>> T.INDX * T.BITS) else false) ∧
      (shlAssign C (fuel + 1) p s).run m = (shlAssign C fuel
        (sliceUnchecked p 0 ((p.elements - s >>> T.INDX) * T.BITS)) (s &&& T.INDX)).run m' := by
  obtain ⟨hh, hE, hl, has⟩ := spanning_shape hsp
  obtain ⟨o, ho⟩ : ∃ o, s >>> T.INDX = o := ⟨_, rfl⟩
  have hoW : o = s / T.BITS := ho ▸ BitStore.shiftRight_INDX T s
  have ho1 : 1 ≤ o := hoW ▸ (Nat.le_div_iff_mul_le T.BITS_pos).2 (by omega)
  have hoE : o < p.elements := hoW ▸ (Nat.div_lt_iff_lt_mul T.BITS_pos).2 (hl ▸ hs)
  have hle : (p.elements - o) * T.BITS ≤ p.len :=
    hl ▸ Nat.mul_le_mul_right _ (Nat.sub_le _ _)
  simp only [ho]
  simp only [shlAssign, if_neg (show s ≠ 0 by omega), if_neg (show ¬ s ≥ p.len by omega),
    if_pos hsp, has, ho, BitStore.shiftLeft_INDX, elemIndex_of_lt hoE,
    elemIndex_of_lt (show p.elements - o < p.elements by omega), pure_bind]
  refine ⟨_, fun i hi => ?_, by
    rw [run_bind_ok (ptrCopy_run _ _ _ m), run_bind_ok (writeBytes_run _ _ _), indexTo,
      index_of_le p (Nat.zero_le _) hle]
    rfl⟩
  refine bit_of_elements_down hh hl (fun k hk => ?_) hi
  by_cases hk' : k + o < p.elements
  · rw [if_pos hk', if_neg (by omega), if_pos (by omega)]
    congr 1
    omega
  · rw [if_neg hk', if_pos (by omega)]

/-- `>>=` on a `Spanning` slice moves the elements up by `o = s >> INDX`, clears the first
`o`, and goes on with the elements from `o` on and the amount `s & INDX`. -/
lemma shrAssign_spanning_move (hsp : p.domain.isSpanning = true) {s : Nat} (h0 : 0 < s)
    (hs : s < p.len) (fuel : Nat) (m : Mem T) :
    ∃ m', (∀ i < p.len, p.bit C m' i = if s >>> T.INDX * T.BITS ≤ i then
        p.bit C m (i - s >>> T.INDX * T.BITS) else false) ∧
      (shrAssign C (fuel + 1) p s).run m = (shrAssign C fuel
        (sliceUnchecked p (s >>> T.INDX * T.BITS) p.len) (s &&& T.INDX)).run m' := by
  obtain ⟨hh, hE, hl, has⟩ := spanning_shape hsp
  obtain ⟨o, ho⟩ : ∃ o, s >>> T.INDX = o := ⟨_, rfl⟩
  have hoW : o = s / T.BITS := ho ▸ BitStore.shiftRight_INDX T s
  have hoE : o < p.elements := hoW ▸ (Nat.div_lt_iff_lt_mul T.BITS_pos).2 (hl ▸ hs)
  have hle : o * T.BITS ≤ p.len := hl ▸ Nat.mul_le_mul_right _ hoE.le
  simp only [ho]
  simp only [shrAssign, if_neg (show s ≠ 0 by omega), if_neg (show ¬ s ≥ p.len by omega),
    if_pos hsp, has, ho, BitStore.shiftLeft_INDX, elemIndex_of_lt hoE, pure_bind]
  refine ⟨_, fun i hi => ?_, by
    rw [run_bind_ok (ptrCopy_run _ _ _ m), run_bind_ok (writeBytes_run _ _ _), indexFrom,
      index_of_le p hle (Nat.le_refl _)]
    rfl⟩
  refine bit_of_elements_up hh hl (fun k hk => ?_) hi
  by_cases hk' : o ≤ k
  · rw [if_pos hk', if_neg (by omega), if_pos (by omega)]
    congr 1
    omega
  · rw [if_neg hk', if_pos (by omega)]

/-- Below one element, with an amount that `& INDX` keeps, `>>=` on a `Spanning` slice moves
nothing and calls itself on the same slice with the same amount: no fuel is enough. -/
lemma shrAssign_spanning_loop {q : BitPtr T} (hsp : q.domain.isSpanning = true) {r : Nat}
    (h0 : 0 < r) (hr : r < T.BITS) (hrr : r &&& T.INDX = r) (fuel : Nat) (m : Mem T) :
    ((shrAssign C fuel q r).run m).1 = .error .outOfFuel := by
  obtain ⟨-, hE, hl, -⟩ := spanning_shape hsp
  have hlen : r < q.len := by
    have := Nat.le_mul_of_pos_left T.BITS (show 0 < q.elements by omega)
    omega
  have hself : sliceUnchecked q (r >>> T.INDX * T.BITS) q.len = q := by
    rw [BitStore.shiftRight_INDX, Nat.div_eq_of_lt hr, Nat.zero_mul]
    exact BitPtr.ext_of_elt_place _ (by rw [elt_sliceUnchecked]) (by rw [place_sliceUnchecked])
      (Nat.sub_zero _)
  induction fuel generalizing m with
  | zero => rfl
  | succ fuel ih =>
    obtain ⟨m', -, hrun⟩ := shrAssign_spanning_move (C := C) hsp h0 hlen fuel m
    rw [hrun, hself, hrr, ih]

/-- A program confined to the sub-slice `a .. b` leaves the slice's bits outside it. -/
lemma bit_of_run_sub {α : Type} {prog : Prog T α} {a b i : Nat} {x : Except Halt α}
    (hc : prog.Confined ((sliceUnchecked p a b).Owns C)) (hrun : prog.run m = (x, m'))
    (hi : ¬ (a ≤ i ∧ i < b)) : p.bit C m' i = p.bit C m i := by
  have := hc.run_frame m (mt (owns_sliceUnchecked_iff p C a b i).1 hi)
  rwa [hrun] at this

/-! ### The whole fast path -/

/-- **`<<=` on a `Spanning` slice.** For `0 < s < len`, with `o = s >> INDX` and
`r = s & INDX`: below one element the shift panics before it writes. From one element up it
moves whole elements by `o`, which shifts the bits towards the front by `o * BITS` with zeros
behind them, and goes on with the first `elements - o` elements and `r`. That front is
`Spanning`: with `r = 0` the shift returns there, and otherwise it panics, indexing one
element past the front's end. -/
theorem shlAssign_spanning (hsp : p.domain.isSpanning = true) (fuel s : Nat) (m : Mem T)
    (h0 : 0 < s) (hs : s < p.len) :
    (s < T.BITS → (shlAssign C (fuel + 1) p s).run m = (.error (.panic
      s!"index out of bounds: the len is {p.elements} but the index is {p.elements}"), m)) ∧
    (T.BITS ≤ s → ∃ m',
      (∀ i < p.len, p.bit C m' i = if i + s >>> T.INDX * T.BITS < p.len then
        p.bit C m (i + s >>> T.INDX * T.BITS) else false) ∧
      ((s &&& T.INDX) = 0 → (shlAssign C (fuel + 2) p s).run m = (.ok (), m')) ∧
      ((s &&& T.INDX) ≠ 0 → (shlAssign C (fuel + 2) p s).run m = (.error (.panic
        s!"index out of bounds: the len is {p.elements - s >>> T.INDX} but the index is {
          p.elements - s >>> T.INDX}"), m'))) := by
  obtain ⟨hh, -, hl, -⟩ := spanning_shape hsp
  refine ⟨(shlAssign_spanning_lt hsp h0 · fuel m), fun hW => ?_⟩
  have hoE : s >>> T.INDX < p.elements := by
    rw [BitStore.shiftRight_INDX]
    exact (Nat.div_lt_iff_lt_mul T.BITS_pos).2 (hl ▸ hs)
  obtain ⟨m', hbits, hrun⟩ := shlAssign_spanning_move (C := C) hsp hs hW (fuel + 1) m
  refine ⟨m', hbits, fun hr0 => by rw [hrun, hr0]; rfl, fun hr0 => ?_⟩
  -- the front is `Spanning` and `r` is below one element: the second round panics
  have hfh : ((sliceUnchecked p 0 ((p.elements - s >>> T.INDX) * T.BITS)).head : Nat) = 0 := by
    rw [head_sliceUnchecked, hh, Nat.zero_mod]
  obtain ⟨hfe, hfsp⟩ := whole_shape _ hfh (Nat.sub_zero _)
  rw [hrun, shlAssign_spanning_lt (hfsp.trans (decide_eq_true (by omega)))
    (Nat.pos_of_ne_zero hr0) (Nat.lt_of_le_of_lt Nat.and_le_right T.INDX_lt_BITS) fuel m', hfe]

/-- `<<= 9` on two whole bytes: one byte moves, and the remaining `9 & 3 = 1` meets the one
byte left in front, which is `Spanning` again, so the second round indexes past it. -/
theorem shlAssign_spanning_two_bytes :
    (⟨0, ⟨0, by decide⟩, 16⟩ : BitPtr .u8).domain.isSpanning = true ∧ 0 < 9 ∧ 9 < 16 ∧
    ∃ m', (shlAssign .LittleEndian 2 (⟨0, ⟨0, by decide⟩, 16⟩ : BitPtr .u8) 9).run
        (fun _ => 0) =
      (.error (.panic "index out of bounds: the len is 1 but the index is 1"), m') := by
  refine ⟨by decide, by decide, by decide, ?_⟩
  obtain ⟨m', -, -, hpanic⟩ := (shlAssign_spanning (C := .LittleEndian)
    (p := (⟨0, ⟨0, by decide⟩, 16⟩ : BitPtr .u8)) (by decide) 0 9 (fun _ => 0) (by decide)
    (by decide)).2 (by decide)
  exact ⟨m', hpanic (by decide)⟩

/-- One whole byte is `Spanning`, so `<<= 3` on it panics at once. -/
example : (shlAssign .LittleEndian 1 (⟨0, ⟨0, by decide⟩, 8⟩ : BitPtr .u8) 3).run
    (fun _ => 0x12#8) =
      (.error (.panic "index out of bounds: the len is 1 but the index is 1"), fun _ => 0x12#8) :=
  rfl

/-- **`>>=` on a `Spanning` slice.** For `0 < s < len`, with `o = s >> INDX` and
`r = s & INDX`: the shift moves whole elements by `o` and goes on with the elements from `o`
on and `r`. If `r = 0` it returns there, and the slice holds its bits shifted towards the
back by `o * BITS` with zeros before them. Otherwise that back part is `Spanning` and `r` is
below one element, so each later round moves nothing and calls itself on the same part with
the same amount: the shift never returns, whatever the fuel. -/
theorem shrAssign_spanning (hsp : p.domain.isSpanning = true) (fuel s : Nat) (m : Mem T)
    (h0 : 0 < s) (hs : s < p.len) :
    ((s &&& T.INDX) = 0 →
      ∃ m', (shrAssign C (fuel + 2) p s).run m = (.ok (), m') ∧
        ∀ i < p.len, p.bit C m' i = if s >>> T.INDX * T.BITS ≤ i then
          p.bit C m (i - s >>> T.INDX * T.BITS) else false) ∧
    ((s &&& T.INDX) ≠ 0 → ((shrAssign C fuel p s).run m).1 = .error .outOfFuel) := by
  obtain ⟨hh, -, hl, -⟩ := spanning_shape hsp
  have hoE : s >>> T.INDX < p.elements := by
    rw [BitStore.shiftRight_INDX]
    exact (Nat.div_lt_iff_lt_mul T.BITS_pos).2 (hl ▸ hs)
  refine ⟨fun hr0 => ?_, fun hr0 => ?_⟩
  · obtain ⟨m', hbits, hrun⟩ := shrAssign_spanning_move (C := C) hsp h0 hs (fuel + 1) m
    exact ⟨m', by rw [hrun, hr0]; rfl, hbits⟩
  -- the back part is `Spanning`: from the second round on the shift calls itself unchanged
  have hbh : ((sliceUnchecked p (s >>> T.INDX * T.BITS) p.len).head : Nat) = 0 := by
    rw [head_sliceUnchecked, hh, Nat.zero_add, Nat.mul_mod_left]
  have hbl : (sliceUnchecked p (s >>> T.INDX * T.BITS) p.len).len =
      (p.elements - s >>> T.INDX) * T.BITS := by
    rw [len_sliceUnchecked, hl, Nat.sub_mul]
  cases fuel with
  | zero => rfl
  | succ fuel =>
    obtain ⟨m', -, hrun⟩ := shrAssign_spanning_move (C := C) hsp h0 hs fuel m
    have hbsp := (whole_shape _ hbh hbl).2.trans (decide_eq_true (by omega))
    rw [hrun, shrAssign_spanning_loop hbsp (Nat.pos_of_ne_zero hr0)
      (Nat.lt_of_le_of_lt Nat.and_le_right T.INDX_lt_BITS) (by rw [Nat.and_assoc, Nat.and_self])]

/-- `>>= 9` on two whole bytes never returns: after one byte moves, the remaining
`9 & 3 = 1` meets the one byte left behind, and the shift calls itself on it with `1` again
and again. -/
theorem shrAssign_spanning_two_bytes :
    (⟨0, ⟨0, by decide⟩, 16⟩ : BitPtr .u8).domain.isSpanning = true ∧ 0 < 9 ∧ 9 < 16 ∧
    ∀ fuel, ((shrAssign .LittleEndian fuel (⟨0, ⟨0, by decide⟩, 16⟩ : BitPtr .u8) 9).run
        (fun _ => 0)).1 = .error .outOfFuel :=
  ⟨by decide, by decide, by decide, fun fuel =>
    (shrAssign_spanning (by decide) fuel 9 _ (by decide) (by decide)).2 (by decide)⟩

/-- `>>= 4` on one whole byte keeps `4 & 3 = 0` and moves no element: the byte is unchanged. -/
example : ((shrAssign .LittleEndian 2 (⟨0, ⟨0, by decide⟩, 8⟩ : BitPtr .u8) 4).run
    (fun _ => 0x12#8)).2 0 = 0x12#8 :=
  rfl

/-! ### Off the fast path -/

section Crawl

variable (p : BitPtr T)

/-- **`<<=` off the fast path.** On a slice that is not `Spanning`, or with an amount that is
`0` or at least the length, `v <<= s` returns with `v[i] = old v[i + s]` where `i + s < len`
and `v[i] = false` elsewhere, and leaves every place of memory outside the slice as it was. -/
theorem shlAssign_crawl (fuel shamt : Nat) (m : Mem T)
    (h : p.domain.isSpanning = false ∨ shamt = 0 ∨ p.len ≤ shamt) :
    ∃ m', (shlAssign C (fuel + 1) p shamt).run m = (.ok (), m') ∧
      (∀ i < p.len, p.bit C m' i = if i + shamt < p.len then p.bit C m (i + shamt) else false) ∧
      ∀ a q, ¬ p.Owns C a q → (m' a).getLsbD q = (m a).getLsbD q := by
  obtain ⟨m', hrun, hbits⟩ := shlAssign_run_crawl (C := C) p fuel shamt m h
  exact ⟨m', hrun, hbits, fun a q hq => by
    rw [← (shlAssign_confined (fuel + 1) p shamt).run_frame m hq, hrun]⟩

/-- The documented `<<= 3` on bits `2 .. 14` of `[0x4B, 0xA5]`, a `Major` slice. -/
theorem shlAssign_crawl_doc :
    (⟨0, ⟨2, by decide⟩, 12⟩ : BitPtr .u8).domain.isSpanning = false ∧
    ∃ m', (shlAssign .BigEndian 1 (⟨0, ⟨2, by decide⟩, 12⟩ : BitPtr .u8) 3).run
        (fun a => if a = 0 then 0x4B#8 else 0xA5#8) = (.ok (), m') ∧
      (∀ i < 12, (⟨0, ⟨2, by decide⟩, 12⟩ : BitPtr .u8).bit .BigEndian m' i =
        if i + 3 < 12 then (⟨0, ⟨2, by decide⟩, 12⟩ : BitPtr .u8).bit .BigEndian
          (fun a => if a = 0 then 0x4B#8 else 0xA5#8) (i + 3) else false) ∧
      ∀ a q, ¬ (⟨0, ⟨2, by decide⟩, 12⟩ : BitPtr .u8).Owns .BigEndian a q →
        (m' a).getLsbD q = ((if a = 0 then 0x4B#8 else 0xA5#8 : BitVec 8)).getLsbD q :=
  ⟨by decide, shlAssign_crawl _ 0 3 _ (.inl (by decide))⟩

/-- **`>>=` off the fast path.** On a slice that is not `Spanning`, or with an amount that is
`0` or at least the length, `v >>= s` returns with `v[i] = old v[i - s]` where `s ≤ i` and
`v[i] = false` elsewhere, and leaves every place of memory outside the slice as it was. -/
theorem shrAssign_crawl (fuel shamt : Nat) (m : Mem T)
    (h : p.domain.isSpanning = false ∨ shamt = 0 ∨ p.len ≤ shamt) :
    ∃ m', (shrAssign C (fuel + 1) p shamt).run m = (.ok (), m') ∧
      (∀ i < p.len, p.bit C m' i = if shamt ≤ i then p.bit C m (i - shamt) else false) ∧
      ∀ a q, ¬ p.Owns C a q → (m' a).getLsbD q = (m a).getLsbD q := by
  obtain ⟨m', hrun, hbits⟩ := shrAssign_run_crawl (C := C) p fuel shamt m h
  exact ⟨m', hrun, hbits, fun a q hq => by
    rw [← (shrAssign_confined (fuel + 1) p shamt).run_frame m hq, hrun]⟩

/-- The documented `>>= 3` on bits `2 .. 14` of `[0x4B, 0xA5]`, a `Major` slice. -/
theorem shrAssign_crawl_doc :
    (⟨0, ⟨2, by decide⟩, 12⟩ : BitPtr .u8).domain.isSpanning = false ∧
    ∃ m', (shrAssign .BigEndian 1 (⟨0, ⟨2, by decide⟩, 12⟩ : BitPtr .u8) 3).run
        (fun a => if a = 0 then 0x4B#8 else 0xA5#8) = (.ok (), m') ∧
      (∀ i < 12, (⟨0, ⟨2, by decide⟩, 12⟩ : BitPtr .u8).bit .BigEndian m' i =
        if 3 ≤ i then (⟨0, ⟨2, by decide⟩, 12⟩ : BitPtr .u8).bit .BigEndian
          (fun a => if a = 0 then 0x4B#8 else 0xA5#8) (i - 3) else false) ∧
      ∀ a q, ¬ (⟨0, ⟨2, by decide⟩, 12⟩ : BitPtr .u8).Owns .BigEndian a q →
        (m' a).getLsbD q = ((if a = 0 then 0x4B#8 else 0xA5#8 : BitVec 8)).getLsbD q :=
  ⟨by decide, shrAssign_crawl _ 0 3 _ (.inl (by decide))⟩

end Crawl

/-! ### Shifts compose where the crawl runs -/

/-- **Shifts add up.** On a slice that is not `Spanning`, `<<= a` then `<<= b` runs as
`<<= a + b`, and `>>= a` then `>>= b` as `>>= a + b`: the same outcome and the same memory,
whether or not the amounts reach past the end. -/
theorem shift_add (hns : p.domain.isSpanning = false) (fuel a b : Nat) (m : Mem T) :
    (do shlAssign C (fuel + 1) p a; shlAssign C (fuel + 1) p b).run m =
      (shlAssign C (fuel + 1) p (a + b)).run m ∧
    (do shrAssign C (fuel + 1) p a; shrAssign C (fuel + 1) p b).run m =
      (shrAssign C (fuel + 1) p (a + b)).run m := by
  obtain ⟨l₁, hl₁, hlb₁⟩ := shlAssign_run_crawl (C := C) p fuel a m (.inl hns)
  obtain ⟨l₂, hl₂, hlb₂⟩ := shlAssign_run_crawl (C := C) p fuel b l₁ (.inl hns)
  obtain ⟨l₃, hl₃, hlb₃⟩ := shlAssign_run_crawl (C := C) p fuel (a + b) m (.inl hns)
  obtain ⟨r₁, hr₁, hrb₁⟩ := shrAssign_run_crawl (C := C) p fuel a m (.inl hns)
  obtain ⟨r₂, hr₂, hrb₂⟩ := shrAssign_run_crawl (C := C) p fuel b r₁ (.inl hns)
  obtain ⟨r₃, hr₃, hrb₃⟩ := shrAssign_run_crawl (C := C) p fuel (a + b) m (.inl hns)
  refine ⟨run_eq_of_bits p ((shlAssign_confined _ p a).bind fun _ => shlAssign_confined _ p b)
      (shlAssign_confined _ p _) (by rw [run_bind_ok hl₁, hl₂]) hl₃ fun i hi => ?_,
    run_eq_of_bits p ((shrAssign_confined _ p a).bind fun _ => shrAssign_confined _ p b)
      (shrAssign_confined _ p _) (by rw [run_bind_ok hr₁, hr₂]) hr₃ fun i hi => ?_⟩
  · rw [hlb₂ i hi, hlb₃ i hi]
    by_cases h : i + (a + b) < p.len
    · rw [if_pos (by omega), hlb₁ _ (by omega), if_pos (by omega), if_pos h, Nat.add_assoc,
        Nat.add_comm b]
    · rw [if_neg h]
      by_cases hb : i + b < p.len
      · rw [if_pos hb, hlb₁ _ hb, if_neg (by omega)]
      · rw [if_neg hb]
  · rw [hrb₂ i hi, hrb₃ i hi]
    by_cases h : a + b ≤ i
    · rw [if_pos (by omega), hrb₁ _ (by omega), if_pos (by omega), if_pos h, Nat.sub_sub,
        Nat.add_comm b]
    · rw [if_neg h]
      by_cases hb : b ≤ i
      · rw [if_pos hb, hrb₁ _ (by omega), if_neg (by omega)]
      · rw [if_neg hb]

/-- `<<= 1` then `<<= 2` on bits `2 .. 14` of `[0x4B, 0xA5]`, a `Major` slice, is `<<= 3`. -/
theorem shift_add_doc :
    (⟨0, ⟨2, by decide⟩, 12⟩ : BitPtr .u8).domain.isSpanning = false ∧
    (do shlAssign .BigEndian 1 (⟨0, ⟨2, by decide⟩, 12⟩ : BitPtr .u8) 1
        shlAssign .BigEndian 1 (⟨0, ⟨2, by decide⟩, 12⟩ : BitPtr .u8) 2).run
        (fun a => if a = 0 then 0x4B#8 else 0xA5#8) =
      (shlAssign .BigEndian 1 (⟨0, ⟨2, by decide⟩, 12⟩ : BitPtr .u8) 3).run
        (fun a => if a = 0 then 0x4B#8 else 0xA5#8) :=
  ⟨by decide, (shift_add (by decide) 0 1 2 _).1⟩

end BitSlice

end BitvecProofs
