import BitvecProofs.Point

/-!
Checked indexing by ranges.

`index` asserts `start ≤ len`, `end ≤ len` and `start ≤ end`, then re-derives the pointer
by offsetting the head by `start`. The new slice's bit `i` is the old slice's bit
`start + i` at the level of element accesses: the programs that read or write it are the
same programs. The other range forms reduce to `index`; the inclusive ones go through
`checked_add(1)`, whose overflow branch falls back to `self[start ..]`.
-/

namespace BitvecProofs

namespace BitSlice

variable {T : BitStore} (p : BitPtr T)

lemma check_bind {α : Type} (c : Prop) [Decidable c] (msg : String)
    (k : Unit → Except String α) : (check c msg >>= k) = if c then k () else .error msg := by
  unfold check; split <;> rfl

/-- What `index` computes: the message of the first assertion that fails, or the offset
pointer. -/
lemma index_eq (start end_ : Nat) :
    index p start end_ =
      if start ≤ p.len then
        if end_ ≤ p.len then
          if start ≤ end_ then .ok (sliceUnchecked p start end_)
          else .error "Ranges can only run from low to high"
        else .error s!"Index {end_} out of range: {p.len}"
      else .error s!"Index {start} out of range: {p.len}" := by
  simp only [index, check_bind]
  rfl

@[simp] lemma len_sliceUnchecked (start end_ : Nat) :
    (sliceUnchecked p start end_).len = end_ - start := rfl

lemma elt_sliceUnchecked (start end_ i : Nat) :
    (sliceUnchecked p start end_).elt i = p.elt (start + i) := by
  have hs := offset_elt p start
  simp only [sliceUnchecked, BitPtr.elt] at hs ⊢
  rw [hs, offset_natCast]
  have := Nat.div_add_mod (p.head + start) T.BITS
  have e : (p.head : Nat) + (start + i) = T.BITS * ((p.head + start) / T.BITS) +
      ((p.head + start) % T.BITS + i) := by omega
  rw [e, Nat.mul_add_div T.BITS_pos]
  simp only [Nat.add_assoc]

lemma place_sliceUnchecked (start end_ i : Nat) :
    (sliceUnchecked p start end_).place i = p.place (start + i) := by
  simp only [sliceUnchecked, BitPtr.place, offset_natCast]
  rw [Nat.mod_add_mod, Nat.add_assoc]

lemma head_sliceUnchecked (start end_ : Nat) :
    ((sliceUnchecked p start end_).head : Nat) = (p.head + start) % T.BITS := by
  simp only [sliceUnchecked, offset_natCast]

lemma bit_sliceUnchecked (C : Cursor) (start end_ : Nat) (m : Mem T) (i : Nat) :
    (sliceUnchecked p start end_).bit C m i = p.bit C m (start + i) := by
  rw [BitPtr.bit, BitPtr.bit, elt_sliceUnchecked, place_sliceUnchecked]

/-- The sub-slice `start .. end_` owns the place of the slice's bit `i` exactly when
`start ≤ i < end_`. -/
lemma owns_sliceUnchecked_iff (C : Cursor) (start end_ i : Nat) :
    (sliceUnchecked p start end_).Owns C (p.elt i) (C.pos T (p.place i)) ↔
      start ≤ i ∧ i < end_ := by
  simp only [BitPtr.Owns, len_sliceUnchecked, elt_sliceUnchecked, place_sliceUnchecked]
  constructor
  · rintro ⟨j, hj, he, hq⟩
    have := p.eq_of_elt_place he (C.pos_inj (p.place_lt _) (p.place_lt _) hq)
    omega
  · rintro ⟨hai, hib⟩
    exact ⟨i - start, by omega, by rw [Nat.add_sub_cancel' hai], by rw [Nat.add_sub_cancel' hai]⟩

lemma getUnchecked_sliceUnchecked (C : Cursor) (start end_ i : Nat) :
    getUnchecked C (sliceUnchecked p start end_) i = getUnchecked C p (start + i) := by
  rw [getUnchecked_eq, getUnchecked_eq, elt_sliceUnchecked, place_sliceUnchecked]

lemma setUnchecked_sliceUnchecked (C : Cursor) (start end_ i : Nat) (value : Bool) :
    setUnchecked C (sliceUnchecked p start end_) i value = setUnchecked C p (start + i) value := by
  rw [setUnchecked_eq, setUnchecked_eq, elt_sliceUnchecked, place_sliceUnchecked]

/-- Offsetting twice is offsetting once by the sum. -/
lemma sliceUnchecked_sliceUnchecked (a b c d : Nat) :
    sliceUnchecked (sliceUnchecked p a b) c d = sliceUnchecked p (a + c) (a + d) := by
  apply BitPtr.ext_of_elt_place
  · simp only [elt_sliceUnchecked, Nat.add_assoc]
  · simp only [place_sliceUnchecked, Nat.add_assoc]
  · simp only [len_sliceUnchecked]; omega

lemma index_of_le {start end_ : Nat} (h : start ≤ end_) (he : end_ ≤ p.len) :
    index p start end_ = .ok (sliceUnchecked p start end_) := by
  rw [index_eq, if_pos (Nat.le_trans h he), if_pos he, if_pos h]

lemma eq_sliceUnchecked_of_index {start end_ : Nat} {q : BitPtr T}
    (h : index p start end_ = .ok q) :
    start ≤ end_ ∧ end_ ≤ p.len ∧ q = sliceUnchecked p start end_ := by
  rw [index_eq] at h
  split_ifs at h with h1 h2 h3
  exact ⟨h3, h2, (Except.ok.inj h).symm⟩

/-- **Range indexing** (`Index<Range>` and `IndexMut<Range>`, with the open and full
forms). A range fails exactly when it is not `start ≤ end ≤ len`. Otherwise it is a slice
of `end - start` bits whose bit `i` is read and written by the very programs that read and
write bit `start + i` of the slice, however many elements `start` skips; and slicing a
slice is slicing it once. -/
theorem index_range :
    (∀ start end_, (∃ msg, index p start end_ = .error msg) ↔ ¬ (start ≤ end_ ∧ end_ ≤ p.len)) ∧
    (∀ start end_ q, index p start end_ = .ok q → q.len = end_ - start ∧
      ∀ (C : Cursor) (i : Nat), getUnchecked C q i = getUnchecked C p (start + i) ∧
        ∀ value, setUnchecked C q i value = setUnchecked C p (start + i) value) ∧
    (∀ start, indexFrom p start = index p start p.len) ∧
    (∀ end_, indexTo p end_ = index p 0 end_) ∧ indexFull p = .ok p ∧
    (∀ a b c d q, index p a b = .ok q → c ≤ d → d ≤ b - a →
      index q c d = index p (a + c) (a + d)) := by
  refine ⟨fun start end_ => ?_, fun start end_ q h => ?_, fun _ => rfl, fun _ => rfl, rfl,
    fun a b c d q h hcd hd => ?_⟩
  · rw [index_eq]
    split_ifs <;> simp <;> omega
  · obtain ⟨-, -, rfl⟩ := eq_sliceUnchecked_of_index p h
    exact ⟨rfl, fun C i => ⟨getUnchecked_sliceUnchecked p C start end_ i,
      setUnchecked_sliceUnchecked p C start end_ i⟩⟩
  · obtain ⟨hab, hb, rfl⟩ := eq_sliceUnchecked_of_index p h
    rw [index_of_le _ hcd hd, index_of_le _ (by omega) (by omega), sliceUnchecked_sliceUnchecked]

/-- Of bits `2 .. 14` of a run of bytes, the reversed range `5 .. 3` fails; bits `7 .. 11`
skip to place `1` of the next byte; and bits `1 .. 3` of those are bits `8 .. 10`. -/
theorem index_range_bytes :
    (∃ msg, index (⟨0, ⟨2, by decide⟩, 12⟩ : BitPtr .u8) 5 3 = .error msg) ∧
    index (⟨0, ⟨2, by decide⟩, 12⟩ : BitPtr .u8) 7 11 = .ok ⟨1, ⟨1, by decide⟩, 4⟩ ∧
    (⟨1, ⟨1, by decide⟩, 4⟩ : BitPtr .u8).len = 11 - 7 ∧
    index (⟨1, ⟨1, by decide⟩, 4⟩ : BitPtr .u8) 1 3 =
      index (⟨0, ⟨2, by decide⟩, 12⟩ : BitPtr .u8) (7 + 1) (7 + 3) :=
  ⟨((index_range (⟨0, ⟨2, by decide⟩, 12⟩ : BitPtr .u8)).1 5 3).2 (by decide), by rfl,
    ((index_range (⟨0, ⟨2, by decide⟩, 12⟩ : BitPtr .u8)).2.1 7 11 _ (by rfl)).1,
    (index_range (⟨0, ⟨2, by decide⟩, 12⟩ : BitPtr .u8)).2.2.2.2.2 7 11 1 3 _ (by rfl)
      (by decide) (by decide)⟩

lemma indexInclusive_of_lt {start end_ : Nat} (h : end_ < USIZE_MAX) :
    indexInclusive p start end_ = index p start (end_ + 1) := by
  simp [indexInclusive, checkedAdd, show end_ + 1 ≤ USIZE_MAX by omega]

/-- When `end + 1` overflows, `checked_add` gives `None` and the range falls back to
`self[start ..]`. -/
lemma indexInclusive_usize_max (start : Nat) :
    indexInclusive p start USIZE_MAX = index p start p.len := by
  simp only [indexInclusive, checkedAdd, if_neg (Nat.not_succ_le_self USIZE_MAX)]
  rfl

/-- `v[..= usize::MAX]` of an 8-bit slice is the whole slice, not a failure. -/
theorem indexToInclusive_usize_max_clamps :
    indexToInclusive (⟨0, ⟨0, by decide⟩, 8⟩ : BitPtr .u8) USIZE_MAX =
      .ok ⟨0, ⟨0, by decide⟩, 8⟩ := by
  rw [indexToInclusive, indexInclusive_usize_max, index_of_le _ (Nat.zero_le _) (Nat.le_refl _)]
  rfl

end BitSlice

end BitvecProofs
