import BitvecProofs.Query
import Mathlib.Algebra.BigOperators.Group.List
import Mathlib.Data.Bool.Count
import Mathlib.Data.List.Nodup

/-!
The counts `count_ones` and `count_zeros`.

An element is counted by `u64::count_ones` of its zero-extension, inverted first for
`count_zeros`. The positions above the element's width are clear, and the cursor only
permutes the places, so an element counts one for each of its places that holds `1` (or
`0`), and its two counts add up to its width. The slice's counts add the edge bits one at a
time and the body elements whole: in every shape that is one term per place the domain names
(`countWith_run_places`), and so, by the exact decomposition, one term per bit of the
slice. Neither count writes memory.
-/

namespace BitvecProofs

/-! ### Counting an element -/

/-- Read through a cursor, the places of an element are its positions in another order. -/
lemma Cursor.perm_map_pos (C : Cursor) (T : BitStore) :
    List.Perm ((List.range T.BITS).map (C.pos T)) (List.range T.BITS) := by
  refine (List.perm_ext_iff_of_nodup ?_ (List.nodup_range _)).2 fun q => ?_
  · exact (List.nodup_range _).map_on fun a ha b hb h =>
      C.pos_inj (List.mem_range.1 ha) (List.mem_range.1 hb) h
  · simp only [List.mem_map, List.mem_range]
    exact ⟨fun ⟨n, hn, he⟩ => he ▸ C.pos_lt hn, C.pos_surj⟩

namespace BitStore

variable {T : BitStore}

lemma BITS_le_64 (T : BitStore) : T.BITS ≤ 64 := by
  cases T <;> decide

/-- Zero-extension to `u64` adds only clear positions. -/
lemma countOnes64_setWidth (x : BitVec T.BITS) :
    countOnes64 (x.setWidth 64) = ((List.range T.BITS).map fun i => (x.getLsbD i).toNat).sum := by
  have hW := T.BITS_le_64
  have hsplit :
      List.range 64 = List.range T.BITS ++ (List.range (64 - T.BITS)).map (T.BITS + ·) := by
    rw [← List.range_add, Nat.add_sub_cancel' hW]
  rw [countOnes64, hsplit, List.map_append, List.sum_append, List.map_map]
  have hlow : (List.range T.BITS).map (fun i => ((x.setWidth 64).getLsbD i).toNat) =
      (List.range T.BITS).map fun i => (x.getLsbD i).toNat :=
    List.map_congr_left fun i hi => by
      rw [BitVec.getLsbD_setWidth, decide_eq_true (by simp at hi; omega), Bool.true_and]
  have hhigh : ((List.range (64 - T.BITS)).map
      ((fun i => ((x.setWidth 64).getLsbD i).toNat) ∘ (T.BITS + ·))).sum = 0 := by
    refine List.sum_eq_zero fun n hn => ?_
    obtain ⟨j, -, rfl⟩ := List.mem_map.1 hn
    simp [BitVec.getLsbD_ge x _ (Nat.le_add_right T.BITS j)]
  rw [hlow, hhigh, Nat.add_zero]

/-- `count_ones` counts the places that hold `1`. -/
lemma countOnes_eq_sum (C : Cursor) (x : BitVec T.BITS) :
    countOnes x = ((List.range T.BITS).map fun n => (get C x n).toNat).sum := by
  rw [countOnes, countOnes64_setWidth,
    ← ((C.perm_map_pos T).map fun i => (x.getLsbD i).toNat).sum_eq, List.map_map]
  exact congrArg List.sum <| List.map_congr_left fun n hn => by
    rw [Function.comp_apply, get_eq x (List.mem_range.1 hn)]

/-- `count_zeros` counts the places that hold `0`: the inversion happens in `T`, before the
zero-extension, so the positions above the width are not counted. -/
lemma countZeros_eq_sum (C : Cursor) (x : BitVec T.BITS) :
    countZeros x = ((List.range T.BITS).map fun n => (!get C x n).toNat).sum := by
  rw [countZeros, countOnes64_setWidth,
    ← ((C.perm_map_pos T).map fun i => ((~~~x).getLsbD i).toNat).sum_eq, List.map_map]
  exact congrArg List.sum <| List.map_congr_left fun n hn => by
    have hn := List.mem_range.1 hn
    rw [Function.comp_apply, get_eq x hn, BitVec.getLsbD_not, decide_eq_true (C.pos_lt hn),
      Bool.true_and]

/-- An element's zeros are its width less its ones. -/
lemma countZeros_eq (x : BitVec T.BITS) : countZeros x = T.BITS - countOnes x := by
  have h : countOnes x + countZeros x = T.BITS := by
    rw [countOnes_eq_sum .LittleEndian, countZeros_eq_sum .LittleEndian, ← List.sum_map_add]
    have hone : ∀ b : Bool, b.toNat + (!b).toNat = 1 := by decide
    simp [hone]
  omega

end BitStore

/-! ### Counting a slice -/

namespace BitSlice

open Prog

variable {T : BitStore} {C : Cursor} {m : Mem T} {δ : Type}

lemma sumM_run {xs : List δ} {f : δ → Prog T Nat} {g : δ → Nat}
    (h : ∀ x ∈ xs, (f x).run m = (.ok (g x), m)) :
    (sumM xs f).run m = (.ok (xs.map g).sum, m) := by
  suffices hacc : ∀ acc, (xs.foldlM (fun acc x => do return acc + (← f x)) acc).run m =
      (.ok (acc + (xs.map g).sum), m) by
    rw [sumM, hacc, Nat.zero_add]
  induction xs with
  | nil => exact fun acc => rfl
  | cons x xs ih =>
    intro acc
    rw [List.foldlM_cons, run_bind_ok (by rw [run_bind_ok (h x (.head _)), run_pure]),
      ih fun y hy => h y (.tail _ hy), List.map_cons, List.sum_cons, Nat.add_assoc]

variable (edge : Bool → Nat)

/-- An edge adds one term per place it names. -/
lemma edge_count_run (a : Nat) (ns : List Nat) (m : Mem T) :
    (sumM ns fun n => do return edge (← BitAccess.get C a n)).run m =
      (.ok ((ns.map ((a, ·))).map fun x => edge (placeBit C m x)).sum, m) := by
  rw [sumM_run (g := fun n => edge (BitStore.get C (m a) n)) fun n _ => by
    rw [run_bind_ok (get_run' a n m), run_pure], List.map_map]
  rfl

variable {edge} {body : BitVec T.BITS → Nat}
  (hbody : ∀ x, body x = ((List.range T.BITS).map fun n => edge (BitStore.get C x n)).sum)
include hbody

lemma sum_bodyPlaces (elts : List Nat) (m : Mem T) :
    (elts.map fun e => body (m e)).sum =
      ((BitDomain.bodyPlaces T elts).map fun x => edge (placeBit C m x)).sum := by
  induction elts with
  | nil => rfl
  | cons e es ih =>
    rw [List.map_cons, List.sum_cons, ih, BitDomain.bodyPlaces_cons, List.map_append,
      List.sum_append, hbody, List.map_map]
    rfl

/-- The body adds, element by element, one term per place. -/
lemma body_count_run (elts : List Nat) (m : Mem T) :
    (sumM elts fun e => do return body (← BitAccess.load e)).run m =
      (.ok ((BitDomain.bodyPlaces T elts).map fun x => edge (placeBit C m x)).sum, m) := by
  rw [sumM_run (g := fun e => body (m e)) fun e _ => by
    rw [run_bind_ok (BitAccess.load_run e m), run_pure], sum_bodyPlaces hbody]

variable (edge) in
/-- Both counts add one term per place the domain names, in every shape. -/
lemma countWith_run_places (p : BitPtr T) (m : Mem T) :
    (countWith C edge body p).run m =
      (.ok ((p.domain.places T).map fun x => edge (placeBit C m x)).sum, m) := by
  rw [countWith_walk]
  refine BitDomain.walk_places (motive := fun xs (f : Prog T Nat) =>
      f.run m = (.ok (xs.map fun x => edge (placeBit C m x)).sum, m)) (List.Subset.refl _) rfl
    (fun a ns _ => edge_count_run edge a ns m) (fun elts _ => body_count_run hbody elts m)
    (fun hx hy hz => ?_) (fun hx hy => ?_) (fun hy hz => ?_)
  all_goals beta_reduce at *
  · rw [run_bind_ok hx, run_bind_ok hy, run_bind_ok hz, run_pure, List.map_append,
      List.map_append, List.sum_append, List.sum_append]
  · rw [run_bind_ok hx, run_bind_ok hy, run_pure, List.map_append, List.sum_append]
  · rw [run_bind_ok hy, run_bind_ok hz, run_pure, List.map_append, List.sum_append]

omit hbody

/-- One term per place the domain names is one term per bit of the slice. -/
lemma sum_places (f : Bool → Nat) (p : BitPtr T) (m : Mem T) :
    ((p.domain.places T).map fun x => f (placeBit C m x)).sum = ((p.bits C m).map f).sum := by
  rw [BitPtr.places_domain, List.map_map, BitPtr.bits, List.map_map]
  exact congrArg List.sum <| List.map_congr_left fun i _ => congrArg f (placeBit_elt_place p m i)

lemma sum_map_toNat (bs : List Bool) : (bs.map Bool.toNat).sum = bs.count true := by
  induction bs with
  | nil => rfl
  | cons b bs ih => cases b <;> simp [ih, Nat.add_comm]

lemma sum_map_not_toNat (bs : List Bool) : (bs.map fun b => (!b).toNat).sum = bs.count false := by
  induction bs with
  | nil => rfl
  | cons b bs ih => cases b <;> simp [ih, Nat.add_comm]

/-- **Counts.** In every shape of the domain, `count_ones` returns the number of bits of the
slice that are set and `count_zeros` the number that are clear, so the two add up to the
length; neither writes memory. Underneath, an element's `count_zeros` is its width less its
`count_ones`. -/
theorem counts_bitwise (p : BitPtr T) (m : Mem T) :
    (countOnes C p).run m = (.ok ((p.bits C m).count true), m) ∧
    (countZeros C p).run m = (.ok ((p.bits C m).count false), m) ∧
    (p.bits C m).count true + (p.bits C m).count false = p.len ∧
    ∀ x : BitVec T.BITS, BitStore.countZeros x = T.BITS - BitStore.countOnes x := by
  refine ⟨?_, ?_, ?_, BitStore.countZeros_eq⟩
  · rw [countOnes, countWith_run_places Bool.toNat (BitStore.countOnes_eq_sum C),
      sum_places Bool.toNat, sum_map_toNat]
  · rw [countZeros, countWith_run_places (fun b => (!b).toNat) (BitStore.countZeros_eq_sum C),
      sum_places fun b => (!b).toNat, sum_map_not_toNat]
  · rw [Nat.add_comm, ← BitPtr.length_bits p C m]
    exact List.count_not_add_count _ true

end BitSlice

end BitvecProofs
