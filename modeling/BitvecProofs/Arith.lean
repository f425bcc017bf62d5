import BitvecProofs.Write
import Mathlib.Tactic.Ring

/-!
The ripple-carry adders `add_assign_reverse` and `+=`, and the negation built on them.

Both adders run one loop of `rca1` steps over a list of distinct indices, each paired with
an addend bit. The loop only ever reads a bit before it rewrites it, so it computes on the
slice's bits as a function `Nat → Bool` (`rcaLoop`, `addLoop_run`), and it adds: the bits
it leaves, read with the first index least significant, plus the carry out at weight
`2 ^ steps`, are the bits it found plus the addend bits plus the carry in (`rcaLoop_sum`).
`add_assign_reverse` walks the indices up, so its sum is read least significant first
(`rval`); `+=` walks them down, so its sum is read most significant first (`val`).
-/

namespace BitvecProofs

/-! ### Numbers spelled by bit sequences -/

/-- The number a bit sequence spells with its first bit least significant. -/
def rval : List Bool → Nat
  | [] => 0
  | b :: bs => b.toNat + 2 * rval bs

/-- The number a bit sequence spells with its first bit most significant. -/
def val (bs : List Bool) : Nat :=
  bs.foldl (fun acc b => 2 * acc + b.toNat) 0

@[simp] lemma rval_nil : rval [] = 0 := rfl

@[simp] lemma rval_cons (b : Bool) (bs : List Bool) : rval (b :: bs) = b.toNat + 2 * rval bs :=
  rfl

lemma rval_append (xs ys : List Bool) : rval (xs ++ ys) = rval xs + 2 ^ xs.length * rval ys := by
  induction xs with
  | nil => simp
  | cons x xs ih => rw [List.cons_append, rval_cons, rval_cons, ih, List.length_cons]; ring

lemma rval_lt (bs : List Bool) : rval bs < 2 ^ bs.length := by
  induction bs with
  | nil => simp
  | cons b bs ih =>
    have := Bool.toNat_le b
    rw [rval_cons, List.length_cons, Nat.pow_succ]
    omega

lemma foldl_val (acc : Nat) (bs : List Bool) :
    bs.foldl (fun acc b => 2 * acc + b.toNat) acc = acc * 2 ^ bs.length + rval bs.reverse := by
  induction bs generalizing acc with
  | nil => simp
  | cons b bs ih =>
    rw [List.foldl_cons, ih, List.reverse_cons, rval_append, List.length_reverse, rval_cons,
      rval_nil, List.length_cons]
    ring

lemma val_eq_rval_reverse (bs : List Bool) : val bs = rval bs.reverse := by
  rw [val, foldl_val, Nat.zero_mul, Nat.zero_add]

lemma val_cons (b : Bool) (bs : List Bool) : val (b :: bs) = b.toNat * 2 ^ bs.length + val bs := by
  rw [val_eq_rval_reverse, val_eq_rval_reverse, List.reverse_cons, rval_append, rval_cons,
    rval_nil, List.length_reverse]
  ring

lemma val_lt (bs : List Bool) : val bs < 2 ^ bs.length := by
  rw [val_eq_rval_reverse, ← List.length_reverse]
  exact rval_lt _

lemma rval_take (bs : List Bool) (n : Nat) : rval (bs.take n) = rval bs % 2 ^ n := by
  have h := rval_append (bs.take n) (bs.drop n)
  rw [List.take_append_drop] at h
  rcases Nat.lt_or_ge n bs.length with hn | hn
  · rw [List.length_take_of_le hn.le] at h
    rw [h, Nat.add_mul_mod_self_left, Nat.mod_eq_of_lt]
    simpa [List.length_take_of_le hn.le] using rval_lt (bs.take n)
  · rw [List.take_of_length_le hn, Nat.mod_eq_of_lt]
    exact Nat.lt_of_lt_of_le (rval_lt bs) (Nat.pow_le_pow_right (by omega) hn)

/-- Inverting every bit of `bs` spells `2 ^ |bs| - 1 - val bs`. -/
lemma rval_map_not (bs : List Bool) : rval (bs.map not) + rval bs + 1 = 2 ^ bs.length := by
  induction bs with
  | nil => rfl
  | cons b bs ih =>
    rw [List.map_cons, rval_cons, rval_cons, List.length_cons, Nat.pow_succ]
    cases b <;> simp only [Bool.not_false, Bool.not_true, Bool.toNat_true, Bool.toNat_false] <;>
      omega

lemma val_map_not (bs : List Bool) : val (bs.map not) + val bs + 1 = 2 ^ bs.length := by
  rw [val_eq_rval_reverse, val_eq_rval_reverse, ← List.map_reverse, ← List.length_reverse]
  exact rval_map_not _

lemma rval_inj {bs cs : List Bool} (hl : bs.length = cs.length) (h : rval bs = rval cs) :
    bs = cs := by
  induction bs generalizing cs with
  | nil => exact (List.length_eq_zero.1 hl.symm).symm
  | cons b bs ih =>
    obtain _ | ⟨c, cs⟩ := cs
    · exact absurd hl (by simp)
    · rw [rval_cons, rval_cons] at h
      have hbc : b = c := by cases b <;> cases c <;> simp at h ⊢ <;> omega
      subst hbc
      rw [ih (Nat.succ.inj hl) (by omega)]

lemma val_inj {bs cs : List Bool} (hl : bs.length = cs.length) (h : val bs = val cs) : bs = cs := by
  rw [val_eq_rval_reverse, val_eq_rval_reverse] at h
  exact List.reverse_inj.1 (rval_inj (by simpa using hl) h)

lemma val_eq_zero_iff (bs : List Bool) : val bs = 0 ↔ ∀ b ∈ bs, b = false := by
  induction bs with
  | nil => simp [val]
  | cons b bs ih =>
    rw [val_cons, List.forall_mem_cons, ← ih]
    cases b <;> simp

/-- The addend an iterator feeds, `false` once it has run out, spells what it holds. -/
lemma rval_map_chainFalse (s : BitSource) (n : Nat) :
    rval ((List.range n).map s.chainFalse) = rval (s.take n) := by
  cases s with
  | infinite bits => rfl
  | finite bits =>
    induction n generalizing bits with
    | zero => rfl
    | succ n ih =>
      rw [List.range_succ_eq_map, List.map_cons, List.map_map]
      cases bits with
      | nil =>
        rw [show (BitSource.finite []).chainFalse ∘ Nat.succ =
          (BitSource.finite []).chainFalse from funext fun _ => rfl, rval_cons, ih []]
        simp only [BitSource.take, List.take_nil]
        rfl
      | cons b bs =>
        have := ih bs
        simp only [BitSource.take, BitSource.chainFalse, List.take_succ_cons, rval_cons,
          List.getD_cons_zero] at this ⊢
        rw [← this]
        rfl

/-! ### The ripple-carry loop -/

lemma rca1_sum (a b c : Bool) :
    (rca1 a b c).1.toNat + 2 * (rca1 a b c).2.toNat = a.toNat + b.toNat + c.toNat := by
  cases a <;> cases b <;> cases c <;> rfl

/-- The adder loop on a bit function: at each `(i, b)` in turn, bit `i` becomes the sum bit
of `f i + b + c`, and the carry moves on. -/
def rcaLoop : List (Nat × Bool) → Bool → (Nat → Bool) → Bool × (Nat → Bool)
  | [], c, f => (c, f)
  | (i, b) :: xs, c, f => rcaLoop xs (rca1 (f i) b c).2 (Function.update f i (rca1 (f i) b c).1)

lemma rcaLoop_of_not_mem {xs : List (Nat × Bool)} {j : Nat} (hj : j ∉ xs.map Prod.fst)
    (c : Bool) (f : Nat → Bool) : (rcaLoop xs c f).2 j = f j := by
  induction xs generalizing c f with
  | nil => rfl
  | cons x xs ih =>
    obtain ⟨i, b⟩ := x
    simp only [List.map_cons, List.mem_cons, not_or] at hj
    rw [rcaLoop, ih hj.2, Function.update_noteq hj.1]

/-- **The loop adds.** Over distinct indices, the bits the loop leaves plus its carry out
are the bits it found plus the addend plus its carry in, each read with the first step
least significant. -/
lemma rcaLoop_sum {xs : List (Nat × Bool)} (hxs : (xs.map Prod.fst).Nodup) (c : Bool)
    (f : Nat → Bool) :
    rval ((xs.map Prod.fst).map (rcaLoop xs c f).2) + (rcaLoop xs c f).1.toNat * 2 ^ xs.length =
      rval ((xs.map Prod.fst).map f) + rval (xs.map Prod.snd) + c.toNat := by
  induction xs generalizing c f with
  | nil => simp [rcaLoop]
  | cons x xs ih =>
    obtain ⟨i, b⟩ := x
    simp only [List.map_cons, List.nodup_cons] at hxs
    have hi := rcaLoop_of_not_mem hxs.1 (rca1 (f i) b c).2 (Function.update f i (rca1 (f i) b c).1)
    have hrest : (xs.map Prod.fst).map (Function.update f i (rca1 (f i) b c).1) =
        (xs.map Prod.fst).map f :=
      List.map_congr_left fun j hj => Function.update_noteq (fun h : j = i => hxs.1 (h ▸ hj)) _ _
    have ih := ih hxs.2 (rca1 (f i) b c).2 (Function.update f i (rca1 (f i) b c).1)
    have hsum := rca1_sum (f i) b c
    rw [hrest] at ih
    simp only [rcaLoop, List.map_cons, rval_cons, List.length_cons, hi, Function.update_same]
    rw [Nat.pow_succ, ← Nat.mul_assoc]
    omega

namespace BitSlice

open Prog

variable {T : BitStore} {C : Cursor} (p : BitPtr T)

lemma bits_eq_map (m : Mem T) : p.bits C m = (List.range p.len).map (p.bit C m) := rfl

lemma addStep_run (c : Bool) (i : Nat) (b : Bool) (m : Mem T) :
    (addStep C p c i b).run m =
      (.ok (rca1 (p.bit C m i) b c).2, p.setBit C m i (rca1 (p.bit C m i) b c).1) := by
  simp [addStep]

/-- The adders' loop computes `rcaLoop` on the slice's bits. -/
lemma addLoop_run (xs : List (Nat × Bool)) (c : Bool) (m : Mem T) :
    ∃ m', (xs.foldlM (fun c (i, b) => addStep C p c i b) c).run m =
      (.ok (rcaLoop xs c (p.bit C m)).1, m') ∧ p.bit C m' = (rcaLoop xs c (p.bit C m)).2 := by
  induction xs generalizing c m with
  | nil => exact ⟨m, rfl, rfl⟩
  | cons x xs ih =>
    obtain ⟨i, b⟩ := x
    obtain ⟨m', hrun, hbit⟩ :=
      ih (rca1 (p.bit C m i) b c).2 (p.setBit C m i (rca1 (p.bit C m i) b c).1)
    refine ⟨m', ?_, ?_⟩
    · rw [List.foldlM_cons, run_bind_ok (addStep_run p c i b m), hrun, bit_setBit_eq]
      rfl
    · rw [hbit, bit_setBit_eq]
      rfl

/-- **`add_assign_reverse` adds.** Read with index `0` least significant, the slice after
the call plus the returned carry at weight `2 ^ len` is the slice before plus the first
`len` bits of the addend (all of it, if it runs out first). -/
theorem addAssignReverse_carry (addend : BitSource) (m : Mem T) :
    ∃ c m', (addAssignReverse C p addend).run m = (.ok c, m') ∧
      rval (p.bits C m') + c.toNat * 2 ^ p.len = rval (p.bits C m) + rval (addend.take p.len) := by
  set xs := (List.range p.len).map fun i => (i, addend.chainFalse i)
  have hfst : xs.map Prod.fst = List.range p.len := by simp [xs, Function.comp_def]
  have hsnd : xs.map Prod.snd = (List.range p.len).map addend.chainFalse := by
    simp [xs, Function.comp_def]
  obtain ⟨m', hrun, hbit⟩ := addLoop_run (C := C) p xs false m
  have hsum := rcaLoop_sum (hfst ▸ List.nodup_range p.len) false (p.bit C m)
  rw [hfst, hsnd, rval_map_chainFalse, List.length_map, List.length_range] at hsum
  refine ⟨_, m', hrun, ?_⟩
  rw [bits_eq_map, bits_eq_map, hbit]
  simpa using hsum

/-- `+=` with its carry out: read with index `0` most significant, the slice after plus the
dropped carry at weight `2 ^ len` is the slice before plus the last `len` bits of the
addend. -/
lemma addAssign_run (addend : List Bool) (m : Mem T) :
    ∃ (m' : Mem T) (c : Bool), (addAssign C p addend).run m = (.ok (), m') ∧
      val (p.bits C m') + c.toNat * 2 ^ p.len =
        val (p.bits C m) + rval (addend.reverse.take p.len) := by
  set xs := (List.range p.len).reverse.zip
    ((List.range p.len).map (BitSource.finite addend.reverse).chainFalse)
  have hfst : xs.map Prod.fst = (List.range p.len).reverse :=
    List.map_fst_zip _ _ (by simp)
  have hsnd :
      xs.map Prod.snd = (List.range p.len).map (BitSource.finite addend.reverse).chainFalse :=
    List.map_snd_zip _ _ (by simp)
  have hlen : xs.length = p.len := by simp [xs]
  obtain ⟨m', hrun, hbit⟩ := addLoop_run (C := C) p xs false m
  have hnd : (xs.map Prod.fst).Nodup := by
    rw [hfst]
    exact List.pairwise_reverse.2 ((List.nodup_range p.len).imp Ne.symm)
  have hsum := rcaLoop_sum hnd false (p.bit C m)
  rw [hfst, hsnd, rval_map_chainFalse, hlen, List.map_reverse, List.map_reverse,
    ← val_eq_rval_reverse, ← val_eq_rval_reverse] at hsum
  refine ⟨m', (rcaLoop xs false (p.bit C m)).1, ?_, ?_⟩
  · rw [addAssign, run_bind_ok hrun]
    rfl
  · rw [bits_eq_map, bits_eq_map, hbit]
    simpa [BitSource.take] using hsum

/-- **`+=` adds modulo `2 ^ len`.** Read with index `0` most significant, the slice after
`v += a` is the slice before plus `a`, modulo `2 ^ len`: a shorter addend counts as
zero-extended at its front, a longer one by its last `len` bits. -/
theorem addAssign_mod (addend : List Bool) (m : Mem T) :
    ∃ m', (addAssign C p addend).run m = (.ok (), m') ∧
      val (p.bits C m') = (val (p.bits C m) + val addend) % 2 ^ p.len := by
  obtain ⟨m', c, hrun, hsum⟩ := addAssign_run p addend m
  refine ⟨m', hrun, ?_⟩
  have hlt : val (p.bits C m') < 2 ^ p.len := by
    simpa [BitPtr.length_bits] using val_lt (p.bits C m')
  rw [rval_take, ← val_eq_rval_reverse] at hsum
  rw [← Nat.add_mod_mod, ← hsum, Nat.add_mul_mod_self_right, Nat.mod_eq_of_lt hlt]

end BitSlice

end BitvecProofs
