import BitvecProofs.Point

/-!
The index loops `for_each`, `&=`, `|=` and `^=`.

Each loop visits distinct indices of the slice and at each one reads the bit and writes back
a function of it, so by the loop lemmas of `Point` a visited index ends with its step's
function of the bit it held before the loop, and an index the loop never visits keeps its
bit. `for_each` and `&=` visit every index, `&=` reading `false` once the source has ended;
`|=` and `^=` stop where the source or the slice ends, whichever is first.
-/

namespace BitvecProofs

namespace BitSource

lemma chainFalse_eq (rhs : BitSource) (i : Nat) : rhs.chainFalse i = (rhs.get? i).getD false := by
  cases rhs with
  | finite bits => exact List.getD_eq_getElem?_getD bits i false
  | infinite bits => rfl

/-- Below `n`, taking `n` items does not change which items there are. -/
lemma getElem?_take (rhs : BitSource) {n i : Nat} (hi : i < n) :
    (rhs.take n)[i]? = rhs.get? i := by
  cases rhs with
  | finite bits => exact List.getElem?_take_of_lt hi
  | infinite bits => rw [take, get?, List.getElem?_map, List.getElem?_range hi, Option.map_some']

end BitSource

namespace BitSlice

open Prog

variable {T : BitStore} {C : Cursor} {p : BitPtr T}

/-- A loop over the items of `bits` that rewrites the bit at each item's position by `op` of
the bit and the item: where `bits` has an item, the bit ends as `op` of its old value and the
item, and every other bit stays as it was. -/
lemma bit_foldl_enum (op : Bool → Bool → Bool) (bits : List Bool) (m : Mem T) (i : Nat) :
    p.bit C (bits.enum.foldl (fun m x => p.setBit C m x.1 (op (p.bit C m x.1) x.2)) m) i =
      match bits[i]? with
      | .some b => op (p.bit C m i) b
      | .none => p.bit C m i := by
  rw [bit_foldl_setBit _ Prod.fst Prod.fst fun x v => op v x.2]
  cases h : bits[i]? with
  | none =>
    show _ = p.bit C m i
    refine foldl_update_of_forall_ne Prod.fst (fun x v => op v x.2) (fun x hx he => ?_) _
    have hlt := List.fst_lt_of_mem_enum hx
    rw [List.getElem?_eq_none_iff] at h
    omega
  | some b =>
    have hnd : (bits.enum.map Prod.fst).Nodup := by
      rw [List.enum_map_fst]
      exact List.nodup_range _
    exact foldl_update_of_mem Prod.fst (fun x v => op v x.2) hnd
      ((List.mem_enum_iff_getElem? (x := (i, b))).2 h) _

/-- A loop over the indices below `n`, each paired with `c` of itself, that rewrites each bit
by `op` of the bit and its partner: every bit below `n` ends as `op` of its old value and
`c i`. -/
lemma bit_foldl_range (op : Bool → Bool → Bool) (c : Nat → Bool) {n i : Nat} (hi : i < n)
    (m : Mem T) :
    p.bit C (((List.range n).map fun idx => (idx, c idx)).foldl
      (fun m x => p.setBit C m x.1 (op (p.bit C m x.1) x.2)) m) i =
      op (p.bit C m i) (c i) := by
  have hnd : (((List.range n).map fun idx => (idx, c idx)).map Prod.fst).Nodup := by
    rw [List.map_map]
    simpa [Function.comp_def] using List.nodup_range n
  rw [bit_foldl_setBit _ Prod.fst Prod.fst fun x v => op v x.2]
  exact foldl_update_of_mem Prod.fst (fun x v => op v x.2) hnd
    (List.mem_map_of_mem (fun idx => (idx, c idx)) (List.mem_range.2 hi)) _

lemma forEach_run (func : Nat → Bool → Bool) (m : Mem T) :
    (forEach C p func).run m =
      (.ok (), (List.range p.len).foldl (fun m i => p.setBit C m i (func i (p.bit C m i))) m) :=
  forM_run (fun i _ m => by simp) m

/-- The loop of `for_each` leaves `func i` of the old bit at every index `i`. -/
lemma bit_foldl_forEach (func : Nat → Bool → Bool) (m : Mem T) {i : Nat} (hi : i < p.len) :
    p.bit C ((List.range p.len).foldl (fun m i => p.setBit C m i (func i (p.bit C m i))) m) i =
      func i (p.bit C m i) := by
  have hnd : ((List.range p.len).map fun i => i).Nodup := by
    rw [List.map_id']
    exact List.nodup_range _
  rw [bit_foldl_setBit _ (fun i => i) (fun i => i) func]
  exact foldl_update_of_mem (fun i => i) func hnd (List.mem_range.2 hi) _

/-- **`for_each`.** Every index `i` of the slice ends with `func i` of the bit it held before
the loop: no step reads a bit that an earlier step rewrote. -/
theorem forEach_bits (func : Nat → Bool → Bool) (m : Mem T) :
    ∃ m', (forEach C p func).run m = (.ok (), m') ∧
      ∀ i < p.len, p.bit C m' i = func i (p.bit C m i) :=
  ⟨_, forEach_run func m, fun _ hi => bit_foldl_forEach func m hi⟩

lemma bitandAssign_run (rhs : BitSource) (m : Mem T) :
    (bitandAssign C p rhs).run m = (.ok (),
      ((List.range p.len).map fun idx => (idx, rhs.chainFalse idx)).foldl
        (fun m x => p.setBit C m x.1 (p.bit C m x.1 && x.2)) m) :=
  forM_run (fun ⟨_, _⟩ _ m => by simp) m

lemma bitorAssign_run (rhs : BitSource) (m : Mem T) :
    (bitorAssign C p rhs).run m = (.ok (),
      (rhs.take p.len).enum.foldl (fun m x => p.setBit C m x.1 (p.bit C m x.1 || x.2)) m) :=
  forM_run (fun ⟨_, _⟩ _ m => by simp) m

lemma bitxorAssign_run (rhs : BitSource) (m : Mem T) :
    (bitxorAssign C p rhs).run m = (.ok (),
      (rhs.take p.len).enum.foldl (fun m x => p.setBit C m x.1 (xor (p.bit C m x.1) x.2)) m) :=
  forM_run (fun ⟨_, _⟩ _ m => by simp) m

/-- **Bitwise assignment.** With `rhs.get? i` the source's item `i`, if it has one: after
`&=`, bit `i` is the old bit and the item, and `false` past the source's end; after `|=` and
`^=`, it is the old bit or, and xor, the item, and the old bit past the source's end. -/
theorem bitAssign_bits (rhs : BitSource) (m : Mem T) :
    (∃ m', (bitandAssign C p rhs).run m = (.ok (), m') ∧ ∀ i < p.len, p.bit C m' i =
      match rhs.get? i with
      | .some b => p.bit C m i && b
      | .none => false) ∧
    (∃ m', (bitorAssign C p rhs).run m = (.ok (), m') ∧ ∀ i < p.len, p.bit C m' i =
      match rhs.get? i with
      | .some b => p.bit C m i || b
      | .none => p.bit C m i) ∧
    (∃ m', (bitxorAssign C p rhs).run m = (.ok (), m') ∧ ∀ i < p.len, p.bit C m' i =
      match rhs.get? i with
      | .some b => xor (p.bit C m i) b
      | .none => p.bit C m i) := by
  refine ⟨⟨_, bitandAssign_run rhs m, fun i hi => ?_⟩,
    ⟨_, bitorAssign_run rhs m, fun i hi => ?_⟩,
    ⟨_, bitxorAssign_run rhs m, fun i hi => ?_⟩⟩
  · rw [bit_foldl_range (fun a b => a && b) _ hi, BitSource.chainFalse_eq]
    cases rhs.get? i <;> simp
  · rw [bit_foldl_enum (fun a b => a || b), BitSource.getElem?_take rhs hi]
  · rw [bit_foldl_enum xor, BitSource.getElem?_take rhs hi]

end BitSlice

end BitvecProofs
