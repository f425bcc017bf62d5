import BitvecProofs.Neg

/-!
The shifts `<<=` and `>>=`.

Off the fast path a shift is a crawl: `copy_unchecked` moves each retained bit by `shamt`
indices, in the order that reads every bit before the crawl overwrites it, and `set_all`
clears the vacated end; so the crawl shifts exactly (`shlAssign_run_crawl`,
`shrAssign_run_crawl`).

The fast path, taken by a `Spanning` slice, moves whole elements and then recurses on
`shamt & T::INDX`. `INDX` is `log2(BITS)`, not the mask `BITS - 1`, and when
`shamt < BITS` the element distance `offset` is `0`: then `<<=` takes
`&mut self.as_mut_slice()[rem]` with `rem` the number of elements, one past the end, and
`>>=` calls itself on the same slice with the same amount.
-/

namespace BitvecProofs

/-! ### Crawls on a bit function -/

/-- Copying `k + s` into `k` for `k = 0, 1, …, L - 1` reads each source before it is
overwritten. -/
lemma foldl_copy_up (s L : Nat) (f : Nat → Bool) (i : Nat) :
    ((List.range' s L).enum.foldl (fun g x => Function.update g x.1 (g x.2)) f) i =
      if i < L then f (i + s) else f i := by
  induction L generalizing i with
  | zero => simp
  | succ L ih =>
    rw [List.range'_concat, List.enum_append, List.length_range', List.foldl_append]
    simp only [List.enumFrom_singleton, List.foldl_cons, List.foldl_nil, Function.update_apply,
      ih, Nat.one_mul]
    by_cases hi : i = L
    · simp [hi, Nat.add_comm s L]
    · rw [if_neg hi]
      by_cases h : i < L
      · rw [if_pos h, if_pos (by omega)]
      · rw [if_neg h, if_neg (by omega)]

/-- Copying `k` into `s + k` for `k = L - 1, …, 1, 0` reads each source before it is
overwritten. -/
lemma foldl_copy_down (s L : Nat) (f : Nat → Bool) (i : Nat) :
    ((List.range' s L).enum.reverse.foldl (fun g x => Function.update g x.2 (g x.1)) f) i =
      if s ≤ i ∧ i < s + L then f (i - s) else f i := by
  induction L generalizing f with
  | zero => rw [if_neg (by omega)]; rfl
  | succ L ih =>
    rw [List.range'_concat, List.enum_append, List.length_range', List.reverse_append,
      List.enumFrom_singleton, List.reverse_cons, List.reverse_nil, List.nil_append,
      List.singleton_append, List.foldl_cons, ih, Nat.one_mul]
    by_cases h : s ≤ i ∧ i < s + L
    · rw [if_pos h, if_pos (by omega), Function.update_noteq (by omega)]
    · rw [if_neg h, Function.update_apply]
      by_cases hi : i = s + L
      · rw [if_pos hi, if_pos (by omega), hi, Nat.add_sub_cancel_left]
      · rw [if_neg hi, if_neg (by omega)]

namespace BitSlice

open Prog

variable {T : BitStore} {C : Cursor} (p : BitPtr T)

lemma copyUnchecked_run (from_ to_ : Nat) (m : Mem T) :
    (copyUnchecked C p from_ to_).run m = (.ok (), p.setBit C m to_ (p.bit C m from_)) := by
  simp [copyUnchecked]

/-- A loop of bit copies computes the same copies on the slice's bits. -/
lemma bit_foldl_copy (xs : List (Nat × Nat)) (dst src : Nat × Nat → Nat) (m : Mem T) :
    p.bit C (xs.foldl (fun m x => p.setBit C m (dst x) (p.bit C m (src x))) m) =
      xs.foldl (fun g x => Function.update g (dst x) (g (src x))) (p.bit C m) :=
  bit_foldl_setBit xs dst src (fun _ b => b) m

/-- Rewriting the places of a sub-slice rewrites the slice's bits `a, …, b - 1`. -/
lemma bit_editSlice_sliceUnchecked (f : Bool → Bool) (a b : Nat) (m : Mem T) (i : Nat) :
    p.bit C (editSlice C f (sliceUnchecked p a b) m) i =
      if a ≤ i ∧ i < b then f (p.bit C m i) else p.bit C m i := by
  rw [BitPtr.bit, getLsbD_editSlice]
  simp only [owns_sliceUnchecked_iff]
  rfl

lemma setAll_run_bits (value : Bool) (m : Mem T) :
    ∃ m', (setAll C p value).run m = (.ok (), m') ∧ ∀ i < p.len, p.bit C m' i = value :=
  ⟨_, setAll_run p value m, fun _ hi => bit_editSlice _ p m hi⟩

/-! ### The fast path's failing inputs -/

/-- `<<=` by one on the two-byte `Spanning` slice indexes one element past its end. -/
theorem shlAssign_spanning_panics (C : Cursor) (fuel : Nat) (m : Mem .u8) :
    (shlAssign C (fuel + 1) (⟨0, ⟨0, by decide⟩, 16⟩ : BitPtr .u8) 1).run m =
      (.error (.panic "index out of bounds: the len is 2 but the index is 2"), m) :=
  rfl

lemma shrAssign_spanning_step (C : Cursor) (fuel : Nat) (m : Mem .u8) :
    ∃ m', (shrAssign C (fuel + 1) (⟨0, ⟨0, by decide⟩, 16⟩ : BitPtr .u8) 1).run m =
      (shrAssign C fuel (⟨0, ⟨0, by decide⟩, 16⟩ : BitPtr .u8) 1).run m' :=
  ⟨_, rfl⟩

/-- `>>=` by one on the two-byte `Spanning` slice calls itself on the same slice with the
same amount, so no amount of fuel lets it return. -/
theorem shrAssign_spanning_diverges (C : Cursor) (fuel : Nat) (m : Mem .u8) :
    ((shrAssign C fuel (⟨0, ⟨0, by decide⟩, 16⟩ : BitPtr .u8) 1).run m).1 = .error .outOfFuel := by
  induction fuel generalizing m with
  | zero => rfl
  | succ fuel ih =>
    obtain ⟨m', h⟩ := shrAssign_spanning_step C fuel m
    rw [h, ih]

/-! ### The crawl -/

lemma shlAssign_run_crawl (fuel shamt : Nat) (m : Mem T)
    (h : p.domain.isSpanning = false ∨ shamt = 0 ∨ p.len ≤ shamt) :
    ∃ m', (shlAssign C (fuel + 1) p shamt).run m = (.ok (), m') ∧
      ∀ i < p.len, p.bit C m' i = if i + shamt < p.len then p.bit C m (i + shamt) else false := by
  rw [shlAssign]
  by_cases h0 : shamt = 0
  · exact ⟨m, by rw [if_pos h0]; rfl, fun i hi => by simp [h0, hi]⟩
  by_cases hge : shamt ≥ p.len
  · obtain ⟨m', hrun, hbit⟩ := setAll_run_bits (C := C) p false m
    exact ⟨m', by rw [if_neg h0, if_pos hge, hrun],
      fun i hi => by rw [hbit i hi, if_neg (by omega)]⟩
  have hloop : ((List.range' shamt (p.len - shamt)).enum.forM fun (to_, from_) =>
      copyUnchecked C p from_ to_).run m = (.ok (), (List.range' shamt (p.len - shamt)).enum.foldl
        (fun m x => p.setBit C m x.1 (p.bit C m x.2)) m) :=
    forM_run (fun x _ m => copyUnchecked_run p _ _ m) m
  rw [if_neg h0, if_neg hge, if_neg (ne_true_of_eq_false (h.resolve_right (by omega)))]
  refine ⟨_, by
    rw [run_bind_ok hloop, indexFrom, index_of_le p (Nat.sub_le _ _) (Nat.le_refl _)]
    exact run_bind_ok (run_ret _ _) _ |>.trans (setAll_run _ false _), fun i hi => ?_⟩
  rw [bit_editSlice_sliceUnchecked, bit_foldl_copy, foldl_copy_up]
  by_cases hs : i + shamt < p.len
  · rw [if_neg (by omega), if_pos (by omega), if_pos hs]
  · rw [if_pos (by omega), if_neg hs]

lemma shrAssign_run_crawl (fuel shamt : Nat) (m : Mem T)
    (h : p.domain.isSpanning = false ∨ shamt = 0 ∨ p.len ≤ shamt) :
    ∃ m', (shrAssign C (fuel + 1) p shamt).run m = (.ok (), m') ∧
      ∀ i < p.len, p.bit C m' i = if shamt ≤ i then p.bit C m (i - shamt) else false := by
  rw [shrAssign]
  by_cases h0 : shamt = 0
  · exact ⟨m, by rw [if_pos h0]; rfl, fun i hi => by simp [h0, hi]⟩
  by_cases hge : shamt ≥ p.len
  · obtain ⟨m', hrun, hbit⟩ := setAll_run_bits (C := C) p false m
    exact ⟨m', by rw [if_neg h0, if_pos hge, hrun],
      fun i hi => by rw [hbit i hi, if_neg (by omega)]⟩
  have hloop : ((List.range' shamt (p.len - shamt)).enum.reverse.forM fun (from_, to_) =>
      copyUnchecked C p from_ to_).run m =
        (.ok (), (List.range' shamt (p.len - shamt)).enum.reverse.foldl
          (fun m x => p.setBit C m x.2 (p.bit C m x.1)) m) :=
    forM_run (fun x _ m => copyUnchecked_run p _ _ m) m
  rw [if_neg h0, if_neg hge, if_neg (ne_true_of_eq_false (h.resolve_right (by omega)))]
  refine ⟨_, by
    rw [run_bind_ok hloop, indexTo, index_of_le p (Nat.zero_le _) (by omega)]
    exact run_bind_ok (run_ret _ _) _ |>.trans (setAll_run _ false _), fun i hi => ?_⟩
  rw [bit_editSlice_sliceUnchecked, bit_foldl_copy, foldl_copy_down]
  by_cases hs : shamt ≤ i
  · rw [if_neg (by omega), if_pos (by omega), if_pos hs]
  · rw [if_pos (by omega), if_neg hs]

end BitSlice

end BitvecProofs
