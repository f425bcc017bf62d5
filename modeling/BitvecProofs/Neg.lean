import BitvecProofs.Arith

/-!
`Neg for &mut BitSlice`.

`-v` returns at once when the slice is empty or all zero. When its first bit is set it
clears that bit, and returns if the slice is then all zero; otherwise it sets the bit again.
Then it inverts the slice and adds one. Read with index `0` most significant, a slice
holding `x` leaves `0` in the first two branches and `2 ^ len - x` in the last, so `-` is
two's-complement negation except that the most negative value `2 ^ (len - 1)` goes to zero.
-/

namespace BitvecProofs

namespace BitSlice

open Prog

variable {T : BitStore} {C : Cursor} (p : BitPtr T)

lemma bits_editSlice (f : Bool → Bool) (m : Mem T) :
    p.bits C (editSlice C f p m) = (p.bits C m).map f := by
  rw [bits_eq_map, bits_eq_map, List.map_map]
  exact List.map_congr_left fun i hi => bit_editSlice f p m (List.mem_range.1 hi)

lemma val_bits_eq_zero (m : Mem T) :
    val (p.bits C m) = 0 ↔ ∀ i < p.len, p.bit C m i = false := by
  simp [val_eq_zero_iff, bits_eq_map]

/-- Read most significant first, a slice of `k + 1` bits is its first bit at weight `2 ^ k`
over the number its other `k` bits spell. -/
lemma val_bits_succ {k : Nat} (hk : p.len = k + 1) (m : Mem T) :
    val (p.bits C m) =
      (p.bit C m 0).toNat * 2 ^ k + val ((List.range k).map fun i => p.bit C m (i + 1)) := by
  rw [bits_eq_map, hk, List.range_succ_eq_map, List.map_cons, List.map_map, val_cons,
    List.length_map, List.length_range]
  rfl

/-- `!` then `+= once(true)`: on a slice holding `x > 0`, `2 ^ len - x`. -/
lemma invertAddOne_run (m : Mem T) (hx : 0 < val (p.bits C m)) :
    ∃ m', (do not C p; addAssign C p [true]).run m = (.ok (), m') ∧
      val (p.bits C m') = 2 ^ p.len - val (p.bits C m) := by
  obtain ⟨m', c, hrun, hsum⟩ := addAssign_run p [true] (editSlice C Bool.not p m)
  refine ⟨m', by rw [run_bind_ok (not_run p m), hrun], ?_⟩
  obtain ⟨k, hk⟩ : ∃ k, p.len = k + 1 :=
    Nat.exists_eq_succ_of_ne_zero fun h => by simp [bits_eq_map, h, val] at hx
  have hnot := val_map_not (p.bits C m)
  have hlt := val_lt (p.bits C m')
  rw [bits_editSlice, show [true].reverse = [true] from rfl, hk, List.take_succ_cons, List.take_nil,
    rval_cons, rval_nil] at hsum
  rw [BitPtr.length_bits] at hnot hlt
  rw [hk] at hnot hlt ⊢
  cases c <;> simp only [Bool.toNat_false, Bool.toNat_true] at hsum <;> omega

lemma notAny_run_val (m : Mem T) :
    (notAny C p).run m = (.ok (decide (val (p.bits C m) = 0)), m) := by
  simp only [notAny_run, val_bits_eq_zero]

/-- The guard `self.is_empty() || self.not_any()` tests whether the slice spells zero. -/
lemma negGuard_run (m : Mem T) :
    (orElse (pure (p.len == 0)) (notAny C p)).run m = (.ok (decide (val (p.bits C m) = 0)), m) := by
  rw [orElse_run (run_pure _ m) (notAny_run_val p m)]
  by_cases h : p.len = 0 <;> simp [h, bits_eq_map, val]

lemma neg_of_val_eq_zero (m : Mem T) (hz : val (p.bits C m) = 0) :
    (neg C p).run m = (.ok (), m) := by
  simp only [neg]
  rw [run_bind_ok (negGuard_run p m), if_pos (decide_eq_true hz)]
  rfl

/-- What `-` leaves, read most significant first, in each branch. -/
lemma neg_run (m : Mem T) :
    ∃ m', (neg C p).run m = (.ok (), m') ∧
      val (p.bits C m') = if val (p.bits C m) = 0 ∨ val (p.bits C m) = 2 ^ (p.len - 1) then 0
        else 2 ^ p.len - val (p.bits C m) := by
  by_cases hz : val (p.bits C m) = 0
  · exact ⟨m, neg_of_val_eq_zero p m hz, by rw [if_pos (.inl hz), hz]⟩
  obtain ⟨k, hk⟩ : ∃ k, p.len = k + 1 :=
    Nat.exists_eq_succ_of_ne_zero fun h => hz (by simp [bits_eq_map, h, val])
  have hx := val_bits_succ (C := C) p hk m
  have hrlt := val_lt ((List.range k).map fun i => p.bit C m (i + 1))
  rw [List.length_map, List.length_range] at hrlt
  rw [hk, Nat.add_sub_cancel]
  simp only [neg]
  rw [run_bind_ok (negGuard_run p m), if_neg (by simpa using hz),
    run_bind_ok (getUnchecked_run 0 m)]
  cases h0 : p.bit C m 0
  · -- The first bit is clear: invert and add one.
    rw [h0, Bool.toNat_false, Nat.zero_mul, Nat.zero_add] at hx
    obtain ⟨m', hrun, hval⟩ := invertAddOne_run p m (Nat.pos_of_ne_zero hz)
    refine ⟨m', hrun, ?_⟩
    rw [hval, if_neg (by omega), hk]
  · -- The first bit is set: clear it, and test the rest.
    rw [h0, Bool.toNat_true, Nat.one_mul] at hx
    rw [if_pos rfl, run_bind_ok (setUnchecked_run 0 false m)]
    have hv1 : val (p.bits C (p.setBit C m 0 false)) =
        val ((List.range k).map fun i => p.bit C m (i + 1)) := by
      simp [val_bits_succ p hk]
    rw [run_bind_ok (notAny_run_val p _), hv1]
    by_cases hr : val ((List.range k).map fun i => p.bit C m (i + 1)) = 0
    · -- Only the first bit was set: the most negative value goes to zero.
      rw [if_pos (decide_eq_true hr)]
      exact ⟨_, rfl, by rw [hv1, hr, if_pos (.inr (by omega))]⟩
    · -- Set it again, invert and add one.
      rw [if_neg (by simpa using hr), run_bind_ok (setUnchecked_run 0 true _)]
      have hb2 : p.bits C (p.setBit C (p.setBit C m 0 false) 0 true) = p.bits C m := by
        rw [bits_eq_map, bits_eq_map]
        refine List.map_congr_left fun i _ => ?_
        by_cases hi : i = 0 <;> simp [hi, h0]
      obtain ⟨m', hrun, hval⟩ := invertAddOne_run p _ (by rw [hb2]; omega)
      refine ⟨m', hrun, ?_⟩
      rw [hval, hb2, if_neg (by omega), hk]

/-- Negating twice in `n`-bit arithmetic, with the most negative value sent to zero, gives
back every value but the most negative one. -/
lemma neg_neg_arith {n x : Nat} (hx : x < 2 ^ n) (hne : x ≠ 2 ^ (n - 1)) :
    (if (if x = 0 ∨ x = 2 ^ (n - 1) then 0 else 2 ^ n - x) = 0 ∨
        (if x = 0 ∨ x = 2 ^ (n - 1) then 0 else 2 ^ n - x) = 2 ^ (n - 1) then 0
      else 2 ^ n - if x = 0 ∨ x = 2 ^ (n - 1) then 0 else 2 ^ n - x) = x := by
  cases n with
  | zero => simp at hx; simp [hx]
  | succ k =>
    rw [Nat.add_sub_cancel, Nat.pow_succ] at *
    by_cases h0 : x = 0
    · simp [h0]
    · rw [if_neg (show ¬(x = 0 ∨ x = 2 ^ k) by omega),
        if_neg (show ¬(2 ^ k * 2 - x = 0 ∨ 2 ^ k * 2 - x = 2 ^ k) by omega)]
      omega

/-- **Negation.** Read with index `0` most significant, `-v` on a slice holding `x` leaves
`0` when `x = 0` or `x = 2 ^ (len - 1)` and `2 ^ len - x` otherwise; so negating twice
restores every pattern but the most negative one, and the empty slice is left alone. -/
theorem neg_value (m : Mem T) :
    (p.len = 0 → (neg C p).run m = (.ok (), m)) ∧
    (∃ m', (neg C p).run m = (.ok (), m') ∧
      val (p.bits C m') = if val (p.bits C m) = 0 ∨ val (p.bits C m) = 2 ^ (p.len - 1) then 0
        else 2 ^ p.len - val (p.bits C m)) ∧
    (val (p.bits C m) ≠ 2 ^ (p.len - 1) →
      ∃ m', (do neg C p; neg C p).run m = (.ok (), m') ∧ p.bits C m' = p.bits C m) := by
  refine ⟨fun h => neg_of_val_eq_zero p m (by simp [bits_eq_map, h, val]), neg_run p m,
    fun hne => ?_⟩
  obtain ⟨m₁, h₁, hv₁⟩ := neg_run p m
  obtain ⟨m₂, h₂, hv₂⟩ := neg_run p m₁
  refine ⟨m₂, by rw [run_bind_ok h₁, h₂], val_inj (by simp) ?_⟩
  have hlt := val_lt (p.bits C m)
  rw [BitPtr.length_bits] at hlt
  rw [hv₂, hv₁, neg_neg_arith hlt hne]

/-- The empty slice is left alone, and the byte `0b0000_0101` comes back from two
negations. -/
theorem neg_value_empty_and_five :
    (neg .BigEndian (⟨0, ⟨0, by decide⟩, 0⟩ : BitPtr .u8)).run (fun _ => 0#8) =
      (.ok (), fun _ => 0#8) ∧
    ∃ m', (neg .BigEndian (⟨0, ⟨0, by decide⟩, 8⟩ : BitPtr .u8) >>= fun _ =>
        neg .BigEndian (⟨0, ⟨0, by decide⟩, 8⟩ : BitPtr .u8)).run (fun _ => 5#8) = (.ok (), m') ∧
      (⟨0, ⟨0, by decide⟩, 8⟩ : BitPtr .u8).bits .BigEndian m' =
        (⟨0, ⟨0, by decide⟩, 8⟩ : BitPtr .u8).bits .BigEndian (fun _ => 5#8) :=
  ⟨(neg_value _ _).1 rfl, (neg_value _ _).2.2 (by decide)⟩

end BitSlice

end BitvecProofs
