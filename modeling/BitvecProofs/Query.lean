import BitvecProofs.Index

/-!
The aggregate queries `all`, `any`, `not_all`, `not_any` and `some`.

Each query tests the partial edges one bit at a time and compares every body element with
`bits(true)` or `bits(false)`. Since an element equals `bits(b)` exactly when each of its
places holds `b`, every shape of the domain computes the same fold over the places the
domain names (`all_run_places`, `any_run_places`), and by the exact decomposition that fold
is the fold over the slice's bits `0, …, len - 1`. None of the queries writes memory.
-/

namespace BitvecProofs

namespace BitSlice

open Prog

variable {T : BitStore} {C : Cursor}

lemma get_run' (a n : Nat) (m : Mem T) :
    (BitAccess.get C a n).run m = (.ok (BitStore.get C (m a) n), m) := by
  simp [BitAccess.get, BitStore.get, Access.addr]

/-- The value of a place of memory, as the cursor names it. -/
def placeBit (C : Cursor) (m : Mem T) (x : Nat × Nat) : Bool := BitStore.get C (m x.1) x.2

/-- The places of one element, read through `placeBit`, are the element's bits. -/
lemma all_map_pair (a : Nat) (ns : List Nat) (m : Mem T) :
    (ns.map ((a, ·))).all (placeBit C m) = ns.all fun n => BitStore.get C (m a) n := by
  simp [List.all_eq, placeBit]

lemma any_map_pair (a : Nat) (ns : List Nat) (m : Mem T) :
    (ns.map ((a, ·))).any (placeBit C m) = ns.any fun n => BitStore.get C (m a) n := by
  simp [List.any_eq, placeBit]

lemma edge_all_run (a : Nat) (ns : List Nat) (m : Mem T) :
    (allM ns fun n => BitAccess.get C a n).run m =
      (.ok ((ns.map ((a, ·))).all (placeBit C m)), m) := by
  rw [allM_run fun n _ => get_run' a n m, all_map_pair]

lemma edge_any_run (a : Nat) (ns : List Nat) (m : Mem T) :
    (anyM ns fun n => BitAccess.get C a n).run m =
      (.ok ((ns.map ((a, ·))).any (placeBit C m)), m) := by
  rw [anyM_run fun n _ => get_run' a n m, any_map_pair]

/-- An element is `bits(b)` exactly when all its places hold `b`. -/
lemma beq_bits_eq (x : BitVec T.BITS) (b : Bool) :
    (x == BitStore.bits T b) = (List.range T.BITS).all fun n => BitStore.get C x n == b := by
  rw [Bool.eq_iff_iff, beq_iff_eq, BitStore.eq_bits_iff (C := C)]
  simp only [List.all_eq_true, List.mem_range, beq_iff_eq]
  exact forall₂_congr fun n hn => by rw [BitStore.get_eq x hn]

lemma load_beq_run (e : Nat) (b : Bool) (m : Mem T) :
    (do return (← BitAccess.load e) == BitStore.bits T b : Prog T Bool).run m =
      (.ok (m e == BitStore.bits T b), m) := by
  simp [BitAccess.load_run]

lemma load_bne_run (e : Nat) (b : Bool) (m : Mem T) :
    (do return (← BitAccess.load e) != BitStore.bits T b : Prog T Bool).run m =
      (.ok (m e != BitStore.bits T b), m) := by
  simp [BitAccess.load_run]

variable (C) in
lemma body_all_run (body : List Nat) (m : Mem T) :
    (allM body fun e => do return (← BitAccess.load e) == BitStore.bits T true).run m =
      (.ok ((BitDomain.bodyPlaces T body).all (placeBit C m)), m) := by
  rw [allM_run fun e _ => load_beq_run e true m, BitDomain.bodyPlaces, List.all_flatMap]
  simp [all_map_pair, beq_bits_eq (C := C)]

variable (C) in
lemma body_any_run (body : List Nat) (m : Mem T) :
    (anyM body fun e => do return (← BitAccess.load e) != BitStore.bits T false).run m =
      (.ok ((BitDomain.bodyPlaces T body).any (placeBit C m)), m) := by
  rw [anyM_run fun e _ => load_bne_run e false m, BitDomain.bodyPlaces, List.any_flatMap]
  simp [bne, beq_bits_eq (C := C), List.any_eq, List.all_eq, placeBit]

/-- `all` folds over the places the domain names, in every shape. -/
lemma all_run_places (p : BitPtr T) (m : Mem T) :
    (all C p).run m = (.ok ((p.domain.places T).all (placeBit C m)), m) := by
  rw [all_walk]
  refine BitDomain.walk_places (motive := fun xs (f : Prog T Bool) =>
      f.run m = (.ok (xs.all (placeBit C m)), m)) (List.Subset.refl _) rfl
    (fun a ns _ => edge_all_run a ns m) (fun elts _ => body_all_run C elts m)
    (fun hx hy hz => ?_) (fun hx hy => ?_) (fun hy hz => ?_)
  · refine (andThen_run (andThen_run hx hz) hy).trans ?_
    simp only [List.all_append, Bool.and_assoc, Bool.and_comm, Bool.and_left_comm]
  · exact (andThen_run hx hy).trans (by rw [List.all_append])
  · exact (andThen_run hz hy).trans (by rw [List.all_append, Bool.and_comm])

/-- `any` folds over the places the domain names, in every shape. -/
lemma any_run_places (p : BitPtr T) (m : Mem T) :
    (any C p).run m = (.ok ((p.domain.places T).any (placeBit C m)), m) := by
  rw [any_walk]
  refine BitDomain.walk_places (motive := fun xs (f : Prog T Bool) =>
      f.run m = (.ok (xs.any (placeBit C m)), m)) (List.Subset.refl _) rfl
    (fun a ns _ => edge_any_run a ns m) (fun elts _ => body_any_run C elts m)
    (fun hx hy hz => ?_) (fun hx hy => ?_) (fun hy hz => ?_)
  · refine (orElse_run (orElse_run hx hz) hy).trans ?_
    simp only [List.any_append, Bool.or_assoc, Bool.or_comm, Bool.or_left_comm]
  · exact (orElse_run hx hy).trans (by rw [List.any_append])
  · exact (orElse_run hz hy).trans (by rw [List.any_append, Bool.or_comm])

lemma placeBit_elt_place (p : BitPtr T) (m : Mem T) (i : Nat) :
    placeBit C m (p.elt i, p.place i) = p.bit C m i :=
  BitStore.get_eq _ (p.place_lt i)

/-- Folding over the domain's places is folding over the slice's bits. -/
lemma all_places (p : BitPtr T) (m : Mem T) :
    (p.domain.places T).all (placeBit C m) = decide (∀ i < p.len, p.bit C m i = true) := by
  simp [List.all_eq, BitPtr.places_domain, placeBit_elt_place]

lemma any_places (p : BitPtr T) (m : Mem T) :
    (p.domain.places T).any (placeBit C m) = decide (∃ i < p.len, p.bit C m i = true) := by
  simp [List.any_eq, BitPtr.places_domain, placeBit_elt_place]

lemma all_run (p : BitPtr T) (m : Mem T) :
    (all C p).run m = (.ok (decide (∀ i < p.len, p.bit C m i = true)), m) := by
  rw [all_run_places, all_places]

lemma any_run (p : BitPtr T) (m : Mem T) :
    (any C p).run m = (.ok (decide (∃ i < p.len, p.bit C m i = true)), m) := by
  rw [any_run_places, any_places]

lemma notAll_run (p : BitPtr T) (m : Mem T) :
    (notAll C p).run m = (.ok (decide (∃ i < p.len, p.bit C m i = false)), m) := by
  rw [notAll, run_bind_ok (all_run p m), run_pure, ← decide_not]
  simp only [not_forall, Bool.not_eq_true, exists_prop]

lemma notAny_run (p : BitPtr T) (m : Mem T) :
    (notAny C p).run m = (.ok (decide (∀ i < p.len, p.bit C m i = false)), m) := by
  rw [notAny, run_bind_ok (any_run p m), run_pure, ← decide_not]
  simp only [not_exists, not_and, Bool.not_eq_true]

/-- **Aggregate queries.** In every shape of the domain, `all` and `any` (and so `not_all`,
`not_any` and `some`) return their bit-by-bit definitions, and leave memory as it was. -/
theorem all_any_bitwise (p : BitPtr T) (m : Mem T) :
    (all C p).run m = (.ok (decide (∀ i < p.len, p.bit C m i = true)), m) ∧
    (any C p).run m = (.ok (decide (∃ i < p.len, p.bit C m i = true)), m) ∧
    (notAll C p).run m = (.ok (decide (∃ i < p.len, p.bit C m i = false)), m) ∧
    (notAny C p).run m = (.ok (decide (∀ i < p.len, p.bit C m i = false)), m) ∧
    (some C p).run m = (.ok (decide ((∃ i < p.len, p.bit C m i = true) ∧
      ∃ i < p.len, p.bit C m i = false)), m) := by
  refine ⟨all_run p m, any_run p m, notAll_run p m, notAny_run p m, ?_⟩
  rw [some, andThen_run (any_run p m) (notAll_run p m), Bool.decide_and]

end BitSlice

end BitvecProofs
