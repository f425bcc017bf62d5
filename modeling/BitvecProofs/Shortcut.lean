import BitvecProofs.Frame
import BitvecProofs.Bitwise

/-!
The shortcuts of `set_all`, `!` and `-` against the plain paths they stand for.

`set_all` and `!` store the body elements whole and write only the edge bits one at a time,
where `for_each` writes every bit. `-` returns at once on zero, and clears and tests the
first bit before it inverts and adds one. All of these are confined to their slice, so two of
them that return from the same memory and leave the same bits in the slice leave the same
memory (`run_eq_of_bits`). The element-wise writes are then `for_each` with a constant or an
inverting function, and `-` is invert-and-add-one on every value but the most negative one,
which the plain path keeps and `-` sends to zero.
-/

namespace BitvecProofs

namespace BitSlice

open Prog

variable {T : BitStore} {C : Cursor} (p : BitPtr T)

/-- **The element-wise writes are the bit loop.** `set_all(value)` and `!`, which write the
body elements whole and the edge bits one at a time, run as `for_each` does with the
function that gives `value` or the inverted bit: the same outcome and the same memory, in
every shape of the domain. -/
theorem setAll_not_forEach (value : Bool) (m : Mem T) :
    (setAll C p value).run m = (forEach C p fun _ _ => value).run m ∧
      (not C p).run m = (forEach C p fun _ b => !b).run m := by
  refine ⟨run_eq_of_bits p (setAll_confined p value) (forEach_confined p _) (setAll_run p value m)
      (forEach_run _ m) fun i hi => ?_,
    run_eq_of_bits p (not_confined p) (forEach_confined p _) (not_run p m) (forEach_run _ m)
      fun i hi => ?_⟩
  · rw [bit_editSlice _ p m hi]
    exact (bit_foldl_forEach (fun _ _ => value) m hi).symm
  · rw [bit_editSlice _ p m hi]
    exact (bit_foldl_forEach (fun _ b => !b) m hi).symm

/-- Slices whose bit lists agree agree at every index. -/
lemma bit_eq_of_bits_eq {m₁ m₂ : Mem T} (h : p.bits C m₁ = p.bits C m₂) {i : Nat}
    (hi : i < p.len) : p.bit C m₁ i = p.bit C m₂ i := by
  rw [bits_eq_map, bits_eq_map] at h
  exact List.map_inj_left.1 h i (List.mem_range.2 hi)

/-- `!` then `+= once(true)`, the plain path of `-`: read most significant first, a slice
holding `x` ends holding `(2 ^ len - x) % 2 ^ len`, zero included. -/
lemma invertAddOne_run_mod (m : Mem T) :
    ∃ m', (do not C p; addAssign C p [true]).run m = (.ok (), m') ∧
      val (p.bits C m') = (2 ^ p.len - val (p.bits C m)) % 2 ^ p.len := by
  obtain ⟨m', c, hrun, hsum⟩ := addAssign_run p [true] (editSlice C Bool.not p m)
  refine ⟨m', by rw [run_bind_ok (not_run p m), hrun], ?_⟩
  have hnot := val_map_not (p.bits C m)
  have hlt := val_lt (p.bits C m')
  rw [bits_editSlice] at hsum
  rw [BitPtr.length_bits] at hnot hlt
  cases hn : p.len with
  | zero =>
    rw [Nat.pow_zero, Nat.mod_one]
    simp [bits_eq_map, hn, val]
  | succ k =>
    rw [hn, show [true].reverse = [true] from rfl, List.take_succ_cons, List.take_nil,
      rval_cons, rval_nil] at hsum
    rw [hn] at hnot hlt
    generalize 2 ^ (k + 1) = N at *
    by_cases hz : val (p.bits C m) = 0
    · rw [hz, Nat.sub_zero, Nat.mod_self]
      cases c <;> simp only [Bool.toNat_false, Bool.toNat_true] at hsum <;> omega
    · rw [Nat.mod_eq_of_lt (by omega)]
      cases c <;> simp only [Bool.toNat_false, Bool.toNat_true] at hsum <;> omega

/-- **The shortcuts of `-` are invert-and-add-one.** On every value but the most negative
one, `-` runs as `!` followed by `+= once(true)`, its early exits included: zero, which the
plain path takes round to zero, and the test of the first bit, which it writes back. On the
most negative value `2 ^ (len - 1)` of a non-empty slice they differ: `-` leaves zero, and
the plain path keeps the value. -/
theorem neg_invertAddOne (m : Mem T) :
    (val (p.bits C m) ≠ 2 ^ (p.len - 1) →
      (neg C p).run m = (do not C p; addAssign C p [true]).run m) ∧
    (0 < p.len → val (p.bits C m) = 2 ^ (p.len - 1) →
      (∃ m', (neg C p).run m = (.ok (), m') ∧ val (p.bits C m') = 0) ∧
      ∃ m', (do not C p; addAssign C p [true]).run m = (.ok (), m') ∧
        p.bits C m' = p.bits C m) := by
  obtain ⟨m₁, h₁, hv₁⟩ := neg_run p m
  obtain ⟨m₂, h₂, hv₂⟩ := invertAddOne_run_mod p m
  have hlt := val_lt (p.bits C m)
  rw [BitPtr.length_bits] at hlt
  refine ⟨fun hne => run_eq_of_bits p (neg_confined p)
      ((not_confined p).bind fun _ => addAssign_confined p _) h₁ h₂
      fun i hi => bit_eq_of_bits_eq p (val_inj (by simp) ?_) hi,
    fun hpos hmin => ⟨⟨m₁, h₁, by rw [hv₁, if_pos (.inr hmin)]⟩, m₂, h₂, val_inj (by simp) ?_⟩⟩
  · -- away from the most negative value both leave `(2 ^ len - x) % 2 ^ len`
    rw [hv₁, hv₂]
    by_cases hz : val (p.bits C m) = 0
    · rw [if_pos (.inl hz), hz, Nat.sub_zero, Nat.mod_self]
    · rw [if_neg (by tauto), Nat.mod_eq_of_lt (Nat.sub_lt (Nat.two_pow_pos _) (by omega))]
  · -- the plain path sends `2 ^ k` in `k + 1` bits to `2 ^ (k + 1) - 2 ^ k = 2 ^ k`
    obtain ⟨k, hk⟩ : ∃ k, p.len = k + 1 := ⟨p.len - 1, by omega⟩
    rw [hv₂, hmin, hk, Nat.add_sub_cancel, Nat.pow_succ]
    have := Nat.two_pow_pos k
    rw [Nat.mod_eq_of_lt (by omega)]
    omega

/-- On bits `2 .. 6` of a byte, read most significant first: `-3` runs as the plain path, and
`-8`, the most negative value, leaves zero. -/
theorem neg_invertAddOne_nibble :
    (neg .BigEndian (⟨0, ⟨2, by decide⟩, 4⟩ : BitPtr .u8)).run (fun _ => 0x0C#8) =
      (do not .BigEndian (⟨0, ⟨2, by decide⟩, 4⟩ : BitPtr .u8)
          addAssign .BigEndian (⟨0, ⟨2, by decide⟩, 4⟩ : BitPtr .u8) [true]).run
        (fun _ => 0x0C#8) ∧
    ∃ m', (neg .BigEndian (⟨0, ⟨2, by decide⟩, 4⟩ : BitPtr .u8)).run (fun _ => 0x20#8) =
        (.ok (), m') ∧ val ((⟨0, ⟨2, by decide⟩, 4⟩ : BitPtr .u8).bits .BigEndian m') = 0 :=
  ⟨(neg_invertAddOne (⟨0, ⟨2, by decide⟩, 4⟩ : BitPtr .u8) (fun _ => 0x0C#8)).1 (by decide),
    ((neg_invertAddOne (⟨0, ⟨2, by decide⟩, 4⟩ : BitPtr .u8) (fun _ => 0x20#8)).2 (by decide)
      (by decide)).1⟩

end BitSlice

end BitvecProofs
