import BitvecProofs.Index

/-!
Checked single-bit access: `v[index]`, `set` and the write guard of `at`.

`v[index]` and `set(index, value)` assert that the index is in bounds and then go through
`get_unchecked` and `set_unchecked`. `at(index)` checks the index, reads the bit once and
keeps it with the one-bit sub-slice `get_unchecked_mut(index ..= index)`. Writes through
the guard change only the cached bit, so after any number of them the cache holds the last
value written, or the bit read if there was none. Dropping the guard commits the cache with
`set(0, _)` on the sub-slice, which is `set_unchecked(index, _)` on the slice: one write of
one bit.
-/

namespace BitvecProofs

namespace BitSlice

open Prog

variable {T : BitStore} {C : Cursor} {p : BitPtr T}

/-- **Checked single-bit access** (`Index<usize>` and `set`). Past the end, both panic with
the bounds message and write nothing. In bounds, `v[index]` returns bit `index`, and
`set(index, value)` rewrites bit `index` alone: a read of any bit `j` of the slice after it
sees `value` at `index` and the old bit elsewhere. -/
theorem get_set_checked (index : Nat) (value : Bool) (m : Mem T) :
    (p.len ≤ index →
      (get C p index).run m = (.error (.panic s!"Index out of range: {index} >= {p.len}"), m) ∧
      (set C p index value).run m =
        (.error (.panic s!"Index out of range: {index} >= {p.len}"), m)) ∧
    (index < p.len →
      (get C p index).run m = (.ok (p.bit C m index), m) ∧
      ∀ j < p.len, (do set C p index value; get C p j).run m =
        (.ok (if j = index then value else p.bit C m j), p.setBit C m index value)) := by
  refine ⟨fun hi => ?_, fun hi => ⟨?_, fun j hj => ?_⟩⟩
  · simp [get, set, assert, Nat.not_lt.2 hi]
  · simp [get, assert, hi]
  · simp [get, set, assert, hi, hj]

/-- On bits `2 .. 6` of a byte: reading index `4` panics, and after writing index `1`,
index `3` reads as before. -/
theorem get_set_checked_nibble :
    (get .BigEndian (⟨0, ⟨2, by decide⟩, 4⟩ : BitPtr .u8) 4).run (fun _ => 0xA5#8) =
      (.error (.panic "Index out of range: 4 >= 4"), fun _ => 0xA5#8) ∧
    (do set .BigEndian (⟨0, ⟨2, by decide⟩, 4⟩ : BitPtr .u8) 1 true
        get .BigEndian (⟨0, ⟨2, by decide⟩, 4⟩ : BitPtr .u8) 3).run (fun _ => 0xA5#8) =
      (.ok ((⟨0, ⟨2, by decide⟩, 4⟩ : BitPtr .u8).bit .BigEndian (fun _ => 0xA5#8) 3),
        (⟨0, ⟨2, by decide⟩, 4⟩ : BitPtr .u8).setBit .BigEndian (fun _ => 0xA5#8) 1 true) :=
  ⟨((get_set_checked 4 true _).1 (by decide)).1,
    ((get_set_checked 1 true _).2 (by decide)).2 3 (by decide)⟩

/-- After a run of writes through the guard, the cache holds the last value written. -/
lemma foldl_derefMut (ws : List Bool) (g : BitGuard T) :
    ws.foldl BitGuard.derefMut g = { g with bit := ws.getLastD g.bit } := by
  induction ws generalizing g with
  | nil => rfl
  | cons w ws ih => rw [List.foldl_cons, ih, List.getLastD_cons]; rfl

lemma at_run_of_lt {index : Nat} (hi : index < p.len) (m : Mem T) :
    (at_ C p index).run m = (.ok ⟨sliceUnchecked p index (index + 1), p.bit C m index⟩, m) := by
  simp [at_, atUnchecked, assert, hi]

lemma at_run_of_le {index : Nat} (hi : p.len ≤ index) (m : Mem T) :
    (at_ C p index).run m = (.error (.panic s!"Index {index} out of bounds: {p.len}"), m) := by
  simp [at_, assert, Nat.not_lt.2 hi]

/-- Dropping a guard of bit `index` writes its cache into bit `index`. -/
lemma drop_run (index : Nat) (b : Bool) (m : Mem T) :
    (BitGuard.drop C ⟨sliceUnchecked p index (index + 1), b⟩).run m =
      (.ok (), p.setBit C m index b) := by
  simp [BitGuard.drop, set, assert, setUnchecked_sliceUnchecked, Nat.add_sub_cancel_left]

/-- **The guard of `at`.** Past the end, `at(index)` panics with its message. In bounds it
returns the guard of bit `index` holding that bit, and writes nothing; after any writes
through the guard, dropping it leaves in bit `index` the last value written (the bit it read
if there was none), every other bit of the slice as it was, and every place of memory
outside the slice as it was. -/
theorem at_guard (index : Nat) (m : Mem T) :
    (p.len ≤ index →
      (at_ C p index).run m = (.error (.panic s!"Index {index} out of bounds: {p.len}"), m)) ∧
    (index < p.len →
      (at_ C p index).run m = (.ok ⟨sliceUnchecked p index (index + 1), p.bit C m index⟩, m) ∧
      ∀ ws : List Bool, ∃ m',
        (do let g ← at_ C p index; BitGuard.drop C (ws.foldl BitGuard.derefMut g)).run m =
          (.ok (), m') ∧
        (∀ j, p.bit C m' j = if j = index then ws.getLastD (p.bit C m index) else p.bit C m j) ∧
        ∀ a q, ¬ p.Owns C a q → (m' a).getLsbD q = (m a).getLsbD q) := by
  refine ⟨fun h => at_run_of_le h m, fun hi => ⟨at_run_of_lt hi m, fun ws => ⟨_, ?_,
    fun j => BitPtr.bit_setBit C p m index _ j,
    fun a q h => BitPtr.getLsbD_setBit_of_not_owns C p m hi _ h⟩⟩⟩
  rw [run_bind_ok (at_run_of_lt hi m), foldl_derefMut, drop_run]

/-- On bits `2 .. 6` of a byte: `at(5)` panics, and setting index `1` through the guard of
`at(1)` leaves it set once the guard drops. -/
theorem at_guard_nibble :
    (at_ .BigEndian (⟨0, ⟨2, by decide⟩, 4⟩ : BitPtr .u8) 5).run (fun _ => 0#8) =
      (.error (.panic "Index 5 out of bounds: 4"), fun _ => 0#8) ∧
    ∃ m', (do
        let g ← at_ .BigEndian (⟨0, ⟨2, by decide⟩, 4⟩ : BitPtr .u8) 1
        BitGuard.drop .BigEndian ([true].foldl BitGuard.derefMut g)).run (fun _ => 0#8) =
          (.ok (), m') ∧
      (⟨0, ⟨2, by decide⟩, 4⟩ : BitPtr .u8).bit .BigEndian m' 1 = true := by
  refine ⟨(at_guard 5 _).1 (by decide), ?_⟩
  obtain ⟨m', hrun, hbit, -⟩ := ((at_guard (p := (⟨0, ⟨2, by decide⟩, 4⟩ : BitPtr .u8))
    (C := .BigEndian) 1 (fun _ => 0#8)).2 (by decide)).2 [true]
  exact ⟨m', hrun, by rw [hbit]; rfl⟩

end BitSlice

end BitvecProofs
