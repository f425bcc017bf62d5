import BitvecProofs.Query

/-!
The whole-slice writes `set_all` and `!`.

Both walk the domain: the partial edges one bit at a time through `BitAccess`, the body
elements by one store each. Read at the level of places, a store of a whole element is the
rewrite of its `BITS` places, so every shape rewrites, in order, exactly the places the
domain names (`Edits`). Those are distinct, and by the exact decomposition they are the
places the slice owns: `set_all` leaves `value` there, `!` flips them, and every other
place of memory keeps its bit (`getLsbD_editSlice`).
-/

namespace BitvecProofs

variable {T : BitStore} (C : Cursor)

/-- Memory with the place `x.2` of the element `x.1` rewritten by `f` of its bit. -/
def editPlace (f : Bool → Bool) (m : Mem T) (x : Nat × Nat) : Mem T :=
  Function.update m x.1 (BitStore.set C (m x.1) x.2 (f (BitStore.get C (m x.1) x.2)))

/-- Memory with every place the slice owns rewritten by `f` of its bit. -/
def editSlice (f : Bool → Bool) (p : BitPtr T) (m : Mem T) : Mem T :=
  (p.domain.places T).foldl (editPlace C f) m

variable {C} (f : Bool → Bool)

lemma getLsbD_editPlace (m : Mem T) {x : Nat × Nat} (hx : x.2 < T.BITS) (a q : Nat) :
    (editPlace C f m x a).getLsbD q =
      if x.1 = a ∧ C.pos T x.2 = q then f ((m a).getLsbD q) else (m a).getLsbD q := by
  by_cases ha : x.1 = a
  · subst ha
    simp only [editPlace, Function.update_same, BitStore.getLsbD_set _ _ hx, BitStore.get_eq _ hx,
      true_and]
    split_ifs with hq <;> simp only [hq]
  · simp [editPlace, Function.update_noteq (Ne.symm ha), ha]

/-- Rewriting distinct places one after another rewrites each of them once. -/
lemma getLsbD_foldl_editPlace {xs : List (Nat × Nat)} (hxs : xs.Nodup)
    (hlt : ∀ x ∈ xs, x.2 < T.BITS) (m : Mem T) (a q : Nat) :
    ((xs.foldl (editPlace C f) m) a).getLsbD q =
      if ∃ x ∈ xs, x.1 = a ∧ C.pos T x.2 = q then f ((m a).getLsbD q)
      else (m a).getLsbD q := by
  induction xs generalizing m with
  | nil => simp
  | cons x xs ih =>
    have hx := hlt x (.head _)
    rw [List.foldl_cons, ih hxs.of_cons (fun y hy => hlt y (.tail _ hy)), getLsbD_editPlace f m hx]
    simp only [List.mem_cons, or_and_right, exists_or, exists_eq_left]
    by_cases hhit : x.1 = a ∧ C.pos T x.2 = q
    · have hnot : ¬ ∃ y ∈ xs, y.1 = a ∧ C.pos T y.2 = q := by
        rintro ⟨y, hy, h1, h2⟩
        have hyx : y = x := Prod.ext (h1.trans hhit.1.symm)
          (C.pos_inj (hlt y (.tail _ hy)) hx (h2.trans hhit.2.symm))
        exact (List.nodup_cons.1 hxs).1 (hyx ▸ hy)
      simp [hhit, hnot]
    · simp only [hhit, if_false, false_or]

lemma lt_of_mem_places (p : BitPtr T) {x : Nat × Nat} (hx : x ∈ p.domain.places T) :
    x.2 < T.BITS := by
  obtain ⟨i, -, -, h⟩ := p.mem_places_domain.1 hx
  exact h ▸ p.place_lt i

/-- What `editSlice` leaves at each place of memory. -/
lemma getLsbD_editSlice (p : BitPtr T) (m : Mem T) (a q : Nat) :
    (editSlice C f p m a).getLsbD q =
      if p.Owns C a q then f ((m a).getLsbD q) else (m a).getLsbD q := by
  have hown : (∃ x ∈ p.domain.places T, x.1 = a ∧ C.pos T x.2 = q) ↔ p.Owns C a q := by
    simp [BitPtr.places_domain, BitPtr.Owns]
  rw [editSlice, getLsbD_foldl_editPlace f p.nodup_places_domain (fun _ => lt_of_mem_places p)]
  simp only [hown]

lemma bit_editSlice (p : BitPtr T) (m : Mem T) {i : Nat} (hi : i < p.len) :
    p.bit C (editSlice C f p m) i = f (p.bit C m i) := by
  rw [BitPtr.bit, getLsbD_editSlice, if_pos ⟨i, hi, rfl, rfl⟩, BitPtr.bit]

/-! ### Programs that rewrite a list of places -/

variable (C)

/-- `prog` rewrites the places `xs`, in this order, each by `f` of its bit, and returns. -/
def Edits (xs : List (Nat × Nat)) (prog : Prog T Unit) : Prop :=
  ∀ m, prog.run m = (.ok (), xs.foldl (editPlace C f) m)

variable {C f}

namespace Edits

lemma pure : Edits C f [] (pure () : Prog T Unit) := fun _ => rfl

lemma bind {xs ys : List (Nat × Nat)} {a b : Prog T Unit} (ha : Edits C f xs a)
    (hb : Edits C f ys b) : Edits C f (xs ++ ys) (a >>= fun _ => b) := fun m => by
  rw [Prog.run_bind_ok (ha m), hb, List.foldl_append]

lemma forM {δ : Type} {ys : List δ} {g : δ → List (Nat × Nat)} {prog : δ → Prog T Unit}
    (h : ∀ y ∈ ys, Edits C f (g y) (prog y)) : Edits C f (ys.flatMap g) (ys.forM prog) := by
  induction ys with
  | nil => exact Edits.pure
  | cons y ys ih =>
    rw [List.flatMap_cons, show (y :: ys).forM prog = prog y >>= fun _ => ys.forM prog from rfl]
    exact (h y (.head _)).bind (ih fun z hz => h z (.tail _ hz))

/-- An edge: the bits of one element, one access each. -/
lemma edge {a : Nat} {ns : List Nat} {prog : Nat → Prog T Unit}
    (h : ∀ n ∈ ns, Edits C f [(a, n)] (prog n)) :
    Edits C f (ns.map ((a, ·))) (ns.forM prog) := by
  rw [List.map_eq_flatMap]
  exact forM h

/-- A store of a whole element whose every place holds `f` of its old bit. -/
lemma update {e : Nat} {v : Mem T → BitVec T.BITS}
    (hv : ∀ m, ∀ n < T.BITS, (v m).getLsbD (C.pos T n) = f ((m e).getLsbD (C.pos T n)))
    {prog : Prog T Unit} (hp : ∀ m, prog.run m = (.ok (), Function.update m e (v m))) :
    Edits C f ((List.range T.BITS).map ((e, ·))) prog := fun m => by
  rw [hp]
  congr 1
  funext a
  apply BitVec.eq_of_getLsbD_eq
  intro ⟨q, hq⟩
  have hlt : ∀ x ∈ (List.range T.BITS).map ((e, ·)), x.2 < T.BITS := by simp
  have hnd : ((List.range T.BITS).map ((e, ·))).Nodup :=
    List.Pairwise.map _ (fun _ _ hij h => hij (Prod.mk.inj h).2) (List.nodup_range _)
  rw [getLsbD_foldl_editPlace f hnd hlt]
  obtain ⟨n, hn, rfl⟩ := C.pos_surj hq
  by_cases ha : a = e
  · subst ha
    rw [if_pos ⟨(a, n), by simp [hn], rfl, rfl⟩, Function.update_same, hv m n hn]
  · rw [if_neg (by simp [Ne.symm ha]), Function.update_noteq ha]

end Edits

namespace BitSlice

open Prog

lemma invertBit_edits {a n : Nat} (hn : n < T.BITS) :
    Edits C Bool.not [(a, n)] (BitAccess.invertBit C a n : Prog T Unit) := fun m => by
  rw [BitAccess.invertBit_run, List.foldl_cons, List.foldl_nil]
  refine congrArg (fun v => (Except.ok (), Function.update m a v)) ?_
  apply BitVec.eq_of_getLsbD_eq
  intro ⟨q, hq⟩
  rw [BitVec.getLsbD_xor, BitStore.getLsbD_set _ _ hn, BitStore.get_eq _ hn,
    C.getLsbD_mask hn]
  by_cases hpq : C.pos T n = q
  · subst hpq; simp
  · simp [hpq]

lemma set_edits (a n : Nat) (value : Bool) :
    Edits C (fun _ => value) [(a, n)] (BitAccess.set C a n value : Prog T Unit) := fun m => by
  rw [BitAccess.set_run]
  rfl

lemma storeNot_edits (e : Nat) :
    Edits C Bool.not ((List.range T.BITS).map ((e, ·)))
      (do BitAccess.store e (~~~(← BitAccess.load e)) : Prog T Unit) :=
  Edits.update (v := fun m => ~~~(m e)) (fun m n hn => by simp [C.pos_lt hn])
    fun m => by rw [run_bind_ok (BitAccess.load_run e m), BitAccess.store_run]

lemma storeBits_edits (e : Nat) (value : Bool) :
    Edits C (fun _ => value) ((List.range T.BITS).map ((e, ·)))
      (BitAccess.store e (BitStore.bits T value)) :=
  Edits.update (v := fun _ => BitStore.bits T value) (fun m n hn => by simp [C.pos_lt hn])
    fun m => BitAccess.store_run e _ m

variable (p : BitPtr T)

/-- `!` rewrites, in order, each place the domain names by its negation. -/
lemma not_edits : Edits C Bool.not (p.domain.places T) (not C p) := by
  rw [not_walk]
  exact BitDomain.walk_places (motive := Edits C Bool.not) (List.Subset.refl _) Edits.pure
    (fun _ _ h => Edits.edge fun n hn => invertBit_edits (lt_of_mem_places p
      (h (List.mem_map_of_mem _ hn))))
    (fun _ _ => Edits.forM fun e _ => storeNot_edits e)
    (fun hx hy hz => by rw [List.append_assoc]; exact hx.bind (hy.bind hz))
    (fun hx hy => hx.bind hy) (fun hy hz => hy.bind hz)

/-- `set_all` rewrites, in order, each place the domain names to `value`. -/
lemma setAll_edits (value : Bool) :
    Edits C (fun _ => value) (p.domain.places T) (setAll C p value) := by
  rw [setAll_walk]
  exact BitDomain.walk_places (motive := Edits C fun _ => value) (List.Subset.refl _)
    Edits.pure (fun a _ _ => Edits.edge fun n _ => set_edits a n value)
    (fun _ _ => Edits.forM fun e _ => storeBits_edits e value)
    (fun hx hy hz => by rw [List.append_assoc]; exact hx.bind (hy.bind hz))
    (fun hx hy => hx.bind hy) (fun hy hz => hy.bind hz)

lemma not_run (m : Mem T) : (not C p).run m = (.ok (), editSlice C Bool.not p m) :=
  not_edits p m

lemma setAll_run (value : Bool) (m : Mem T) :
    (setAll C p value).run m = (.ok (), editSlice C (fun _ => value) p m) :=
  setAll_edits p value m

/-- A second `!` undoes the first, on all of memory. -/
lemma editSlice_not_not (m : Mem T) :
    editSlice C Bool.not p (editSlice C Bool.not p m) = m := by
  funext a
  refine BitVec.eq_of_getLsbD_eq fun q => ?_
  rw [getLsbD_editSlice, getLsbD_editSlice]
  by_cases h : p.Owns C a q <;> simp [h]

/-- **`set_all`.** In every shape of the domain, `set_all(value)` leaves `value` in every bit
of the slice, and every other place of memory as it was. -/
theorem setAll_bits (value : Bool) (m : Mem T) :
    ∃ m', (setAll C p value).run m = (.ok (), m') ∧ (∀ i < p.len, p.bit C m' i = value) ∧
      ∀ a q, ¬ p.Owns C a q → (m' a).getLsbD q = (m a).getLsbD q :=
  ⟨_, setAll_run p value m, fun _ hi => bit_editSlice _ p m hi, fun a q h => by
    rw [getLsbD_editSlice, if_neg h]⟩

/-- **`!`.** In every shape of the domain, `!` flips every bit of the slice and leaves every
other place of memory as it was; so a second `!` gives back the memory the first one
found. -/
theorem not_bits (m : Mem T) :
    (∃ m', (not C p).run m = (.ok (), m') ∧ (∀ i < p.len, p.bit C m' i = !p.bit C m i) ∧
      ∀ a q, ¬ p.Owns C a q → (m' a).getLsbD q = (m a).getLsbD q) ∧
    (do not C p; not C p).run m = (.ok (), m) := by
  refine ⟨⟨_, not_run p m, fun _ hi => bit_editSlice _ p m hi, fun a q h => ?_⟩, ?_⟩
  · rw [getLsbD_editSlice, if_neg h]
  · rw [run_bind_ok (not_run p m), not_run, editSlice_not_not]

end BitSlice

end BitvecProofs
