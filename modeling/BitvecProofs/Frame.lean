import BitvecProofs.Shift

/-!
The frame of the mutating operations.

Each mutating operation of a slice is a program confined to the places the slice owns
(`MutOp.confined`): every access writes only owned bits, and what the operation does after
an access depends only on the owned bits of the value it found. Edge bits go through
single-bit accesses at places the domain names; body elements, loaded and stored whole,
are owned whole; index loops stay below the length; and the shifts' recursive calls run on
sub-slices, whose places are places of the slice. By `Prog.Confined.run_frame` no such
operation changes a bit outside the slice, whether it returns, panics or runs out of fuel.
The queries are confined in the same way, so by `Prog.Confined.run_agree` no operation,
query or write, depends on a bit outside its slice (`Op.locality`).
-/

namespace BitvecProofs

namespace BitSlice

open Prog

variable {T : BitStore} {C : Cursor} {S : Nat → Nat → Prop} {α β : Type}

/-! ### Combinators -/

lemma assert_bind_confined {cond : Prop} [Decidable cond] {msg : String} {q : Prog T α}
    (h : cond → q.Confined S) : (assert cond msg >>= fun _ => q).Confined S := by
  by_cases hc : cond
  · simpa [assert, hc] using h hc
  · simp only [assert, hc, if_false]
    exact .halt _

lemma elemIndex_bind_confined {xs : List Nat} {i : Nat} {f : Nat → Prog T α}
    (h : ∀ hi : i < xs.length, (f xs[i]).Confined S) : (elemIndex xs i >>= f).Confined S := by
  unfold elemIndex
  split_ifs with hi
  · exact h hi
  · exact .halt _

lemma liftIndex_bind_confined {e : Except String β} {f : β → Prog T α}
    (h : ∀ b, e = .ok b → (f b).Confined S) : (liftIndex e >>= f).Confined S := by
  cases e with
  | error msg => exact .halt _
  | ok b => exact h b rfl

lemma andThen_confined {a b : Prog T Bool} (ha : a.Confined S) (hb : b.Confined S) :
    (andThen a b).Confined S :=
  ha.bind fun _ => .ite hb (.ret _)

lemma orElse_confined {a b : Prog T Bool} (ha : a.Confined S) (hb : b.Confined S) :
    (orElse a b).Confined S :=
  ha.bind fun _ => .ite (.ret _) hb

lemma sumM_confined {δ : Type} {xs : List δ} {f : δ → Prog T Nat}
    (h : ∀ x ∈ xs, (f x).Confined S) : (sumM xs f).Confined S :=
  Confined.foldlM (fun x hx _ => (h x hx).bind fun _ => .ret _) 0

lemma mapM_confined {xs : List Nat} {f : Nat → Prog T β} (h : ∀ x ∈ xs, (f x).Confined S) :
    (xs.mapM f).Confined S := by
  induction xs with
  | nil => exact .ret _
  | cons x xs ih =>
    rw [List.mapM_cons]
    exact (h x (.head _)).bind fun _ => (ih fun y hy => h y (.tail _ hy)).bind fun _ => .ret _

lemma ptrCopy_confined {src dst count : Nat} (hs : ∀ k < count, ∀ q < T.BITS, S (src + k) q)
    (hd : ∀ k < count, ∀ q < T.BITS, S (dst + k) q) :
    (ptrCopy src dst count : Prog T Unit).Confined S := by
  refine (mapM_confined fun k hk => BitAccess.load_confined (hs k (List.mem_range.1 hk))).bind
    fun vals => Confined.forM fun x hx => ?_
  obtain ⟨k, v⟩ := x
  exact BitAccess.store_confined (hd k (List.mem_range.1 (List.of_mem_zip hx).1)) v

lemma writeBytes_confined {dst count : Nat} (hd : ∀ k < count, ∀ q < T.BITS, S (dst + k) q) :
    (writeBytes dst count : Prog T Unit).Confined S :=
  Confined.forM fun k hk => BitAccess.store_confined (hd k (List.mem_range.1 hk)) _

/-! ### Places of the slice -/

variable (p : BitPtr T)

/-- A sub-slice owns only places of the slice. -/
lemma owns_sliceUnchecked {a b : Nat} (hb : b ≤ p.len) {x q : Nat}
    (h : (sliceUnchecked p a b).Owns C x q) : p.Owns C x q := by
  obtain ⟨j, hj, rfl, rfl⟩ := h
  rw [len_sliceUnchecked] at hj
  exact ⟨a + j, by omega, (elt_sliceUnchecked p a b j).symm,
    by rw [place_sliceUnchecked]⟩

lemma owns_of_index {a b : Nat} {q : BitPtr T} (h : index p a b = .ok q) {x r : Nat}
    (hq : q.Owns C x r) : p.Owns C x r := by
  obtain ⟨-, hb, rfl⟩ := eq_sliceUnchecked_of_index p h
  exact owns_sliceUnchecked p hb hq

lemma getPlace_confined {a n : Nat} (h : (a, n) ∈ p.domain.places T) :
    (BitAccess.get C a n : Prog T Bool).Confined (p.Owns C) :=
  BitAccess.get_confined (lt_of_mem_places p h) (p.owns_of_mem_places C h)

lemma setPlace_confined {a n : Nat} (h : (a, n) ∈ p.domain.places T) (value : Bool) :
    (BitAccess.set C a n value : Prog T Unit).Confined (p.Owns C) :=
  BitAccess.set_confined (lt_of_mem_places p h) (p.owns_of_mem_places C h) value

lemma invertPlace_confined {a n : Nat} (h : (a, n) ∈ p.domain.places T) :
    (BitAccess.invertBit C a n : Prog T Unit).Confined (p.Owns C) :=
  BitAccess.invertBit_confined (lt_of_mem_places p h) (p.owns_of_mem_places C h)

/-- The slice owns every place of an element of a body whose places are places of the
domain. -/
lemma owns_of_bodyPlaces {elts : List Nat} (h : BitDomain.bodyPlaces T elts ⊆ p.domain.places T)
    {e : Nat} (he : e ∈ elts) {q : Nat} (hq : q < T.BITS) : p.Owns C e q := by
  obtain ⟨n, hn, rfl⟩ := C.pos_surj hq
  exact p.owns_of_mem_places C (h (BitDomain.mem_bodyPlaces.2 ⟨he, hn⟩))

lemma loadBody_confined {elts : List Nat} (h : BitDomain.bodyPlaces T elts ⊆ p.domain.places T)
    {e : Nat} (he : e ∈ elts) : (BitAccess.load e : Prog T _).Confined (p.Owns C) :=
  BitAccess.load_confined fun _ hq => owns_of_bodyPlaces p h he hq

lemma storeBody_confined {elts : List Nat} (h : BitDomain.bodyPlaces T elts ⊆ p.domain.places T)
    {e : Nat} (he : e ∈ elts) (v : BitVec T.BITS) : (BitAccess.store e v).Confined (p.Owns C) :=
  BitAccess.store_confined (fun _ hq => owns_of_bodyPlaces p h he hq) v

/-- A slice is `Spanning` when it is not empty and starts and ends on element boundaries. -/
lemma spanning_cond (h : p.domain.isSpanning = true) :
    p.len ≠ 0 ∧ (p.head.val = 0 ∧ p.tail = T.BITS) := by
  simp only [BitPtr.domain, apply_ite BitDomain.isSpanning] at h
  simp only [BitDomain.isSpanning] at h
  simpa using h

/-- A `Spanning` slice is its elements, whole. -/
lemma spanning_eq (h : p.domain.isSpanning = true) :
    p.domain = .Spanning (List.range' p.addr p.elements) ∧ p.len = p.elements * T.BITS := by
  obtain ⟨h0, h2⟩ := spanning_cond p h
  refine ⟨by simp only [BitPtr.domain, if_neg h0, if_pos h2], ?_⟩
  obtain ⟨k, hk, he⟩ := p.head_add_len (Nat.pos_of_ne_zero h0)
  rw [hk, Nat.succ_mul, Nat.mul_comm]
  omega

variable (C) in
/-- A `Spanning` slice owns every place of each of its elements, and an amount below its
length, shifted right by `INDX`, is below its number of elements. -/
lemma spanning_owns (hsp : p.domain.isSpanning = true) {shamt : Nat} (hge : ¬ shamt ≥ p.len) :
    shamt >>> T.INDX < p.elements ∧
      ∀ k < p.elements, ∀ q < T.BITS, p.Owns C (p.addr + k) q := by
  obtain ⟨hd, hlen⟩ := spanning_eq p hsp
  have hsub : BitDomain.bodyPlaces T (List.range' p.addr p.elements) ⊆ p.domain.places T := by
    rw [hd]
    exact List.Subset.refl _
  refine ⟨?_, fun k hk q hq =>
    owns_of_bodyPlaces p hsub (List.mem_range'_1.2 ⟨by omega, by omega⟩) hq⟩
  rw [Nat.shiftRight_eq_div_pow, ← BitStore.BITS_eq_two_pow, Nat.div_lt_iff_lt_mul T.BITS_pos]
  omega

/-! ### The operations -/

/-- A walk over the domain whose edges and bodies are confined to the slice, put together by
combinators that keep confinement, is confined to the slice. -/
lemma walk_confined {empty : Prog T α} {edge : Nat → List Nat → Prog T α}
    {body : List Nat → Prog T α} {major : Prog T α → Prog T α → Prog T α → Prog T α}
    {partialHead partialTail : Prog T α → Prog T α → Prog T α}
    (hempty : empty.Confined (p.Owns C))
    (hedge : ∀ a ns, (∀ n ∈ ns, (a, n) ∈ p.domain.places T) → (edge a ns).Confined (p.Owns C))
    (hbody : ∀ elts, BitDomain.bodyPlaces T elts ⊆ p.domain.places T →
      (body elts).Confined (p.Owns C))
    (hmajor : ∀ {x y z}, x.Confined (p.Owns C) → y.Confined (p.Owns C) →
      z.Confined (p.Owns C) → (major x y z).Confined (p.Owns C))
    (hpartialHead : ∀ {x y}, x.Confined (p.Owns C) → y.Confined (p.Owns C) →
      (partialHead x y).Confined (p.Owns C))
    (hpartialTail : ∀ {y z}, y.Confined (p.Owns C) → z.Confined (p.Owns C) →
      (partialTail y z).Confined (p.Owns C)) :
    (p.domain.walk empty edge body major partialHead partialTail).Confined (p.Owns C) :=
  BitDomain.walk_places (motive := fun _ f => f.Confined (p.Owns C)) (List.Subset.refl _)
    hempty (fun a ns h => hedge a ns fun _ hn => h (List.mem_map_of_mem _ hn)) hbody hmajor
    hpartialHead hpartialTail

lemma setAll_confined (value : Bool) : (setAll C p value).Confined (p.Owns C) := by
  rw [setAll_walk]
  exact walk_confined p (.ret _)
    (fun _ _ h => Confined.forM fun n hn => setPlace_confined p (h n hn) value)
    (fun _ h => Confined.forM fun _ he => storeBody_confined p h he _)
    (fun hx hy hz => hx.bind fun _ => hy.bind fun _ => hz) (fun hx hy => hx.bind fun _ => hy)
    (fun hy hz => hy.bind fun _ => hz)

lemma not_confined : (not C p).Confined (p.Owns C) := by
  rw [not_walk]
  exact walk_confined p (.ret _)
    (fun _ _ h => Confined.forM fun n hn => invertPlace_confined p (h n hn))
    (fun _ h => Confined.forM fun _ he =>
      (loadBody_confined p h he).bind fun _ => storeBody_confined p h he _)
    (fun hx hy hz => hx.bind fun _ => hy.bind fun _ => hz) (fun hx hy => hx.bind fun _ => hy)
    (fun hy hz => hy.bind fun _ => hz)

lemma any_confined : (any C p).Confined (p.Owns C) := by
  rw [any_walk]
  exact walk_confined p (.ret _)
    (fun _ _ h => anyM_confined fun n hn => getPlace_confined p (h n hn))
    (fun _ h => anyM_confined fun _ he => (loadBody_confined p h he).bind fun _ => .ret _)
    (fun hx hy hz => orElse_confined (orElse_confined hx hz) hy)
    (fun hx hy => orElse_confined hx hy) (fun hy hz => orElse_confined hz hy)

lemma notAny_confined : (notAny C p).Confined (p.Owns C) :=
  (any_confined p).bind fun _ => .ret _

lemma all_confined : (all C p).Confined (p.Owns C) := by
  rw [all_walk]
  exact walk_confined p (.ret _)
    (fun _ _ h => allM_confined fun n hn => getPlace_confined p (h n hn))
    (fun _ h => allM_confined fun _ he => (loadBody_confined p h he).bind fun _ => .ret _)
    (fun hx hy hz => andThen_confined (andThen_confined hx hz) hy)
    (fun hx hy => andThen_confined hx hy) (fun hy hz => andThen_confined hz hy)

lemma countWith_confined (edge : Bool → Nat) (body : BitVec T.BITS → Nat) :
    (countWith C edge body p).Confined (p.Owns C) := by
  rw [countWith_walk]
  exact walk_confined p (.ret _)
    (fun _ _ h => sumM_confined fun n hn => (getPlace_confined p (h n hn)).bind fun _ => .ret _)
    (fun _ h => sumM_confined fun _ he => (loadBody_confined p h he).bind fun _ => .ret _)
    (fun hx hy hz => hx.bind fun _ => hy.bind fun _ => hz.bind fun _ => .ret _)
    (fun hx hy => hx.bind fun _ => hy.bind fun _ => .ret _)
    (fun hy hz => hy.bind fun _ => hz.bind fun _ => .ret _)

lemma set_confined (index : Nat) (value : Bool) : (set C p index value).Confined (p.Owns C) :=
  assert_bind_confined fun hi => setUnchecked_confined hi value

lemma copyUnchecked_confined {from_ to_ : Nat} (hf : from_ < p.len) (ht : to_ < p.len) :
    (copyUnchecked C p from_ to_).Confined (p.Owns C) :=
  (getUnchecked_confined hf).bind fun _ => setUnchecked_confined ht _

lemma forEach_confined (func : Nat → Bool → Bool) : (forEach C p func).Confined (p.Owns C) :=
  Confined.forM fun _ hi => (getUnchecked_confined (List.mem_range.1 hi)).bind fun _ =>
    setUnchecked_confined (List.mem_range.1 hi) _

lemma bitandAssign_confined (rhs : BitSource) : (bitandAssign C p rhs).Confined (p.Owns C) := by
  refine Confined.forM fun x hx => ?_
  obtain ⟨i, hi, rfl⟩ := List.mem_map.1 hx
  exact (getUnchecked_confined (List.mem_range.1 hi)).bind fun _ =>
    setUnchecked_confined (List.mem_range.1 hi) _

lemma lt_of_mem_enum_take {rhs : BitSource} {x : Nat × Bool} (hx : x ∈ (rhs.take p.len).enum) :
    x.1 < p.len := by
  have h := List.fst_lt_of_mem_enum hx
  cases rhs <;> simp [BitSource.take] at h <;> omega

lemma bitorAssign_confined (rhs : BitSource) : (bitorAssign C p rhs).Confined (p.Owns C) :=
  Confined.forM fun _ hx => (getUnchecked_confined (lt_of_mem_enum_take p hx)).bind fun _ =>
    setUnchecked_confined (lt_of_mem_enum_take p hx) _

lemma bitxorAssign_confined (rhs : BitSource) : (bitxorAssign C p rhs).Confined (p.Owns C) :=
  Confined.forM fun _ hx => (getUnchecked_confined (lt_of_mem_enum_take p hx)).bind fun _ =>
    setUnchecked_confined (lt_of_mem_enum_take p hx) _

lemma addStep_confined {i : Nat} (hi : i < p.len) (c b : Bool) :
    (addStep C p c i b).Confined (p.Owns C) :=
  (getUnchecked_confined hi).bind fun a =>
    (setUnchecked_confined hi (rca1 a b c).1).bind fun _ => .ret _

lemma addAssignReverse_confined (addend : BitSource) :
    (addAssignReverse C p addend).Confined (p.Owns C) := by
  refine Confined.foldlM (fun x hx c => ?_) _
  obtain ⟨i, hi, rfl⟩ := List.mem_map.1 hx
  exact addStep_confined p (List.mem_range.1 hi) c _

lemma addAssign_confined (addend : List Bool) : (addAssign C p addend).Confined (p.Owns C) := by
  refine (Confined.foldlM (fun x hx c => ?_) _).bind fun _ => .ret _
  obtain ⟨i, b⟩ := x
  have hi := (List.of_mem_zip hx).1
  rw [List.mem_reverse, List.mem_range] at hi
  exact addStep_confined p hi c b

lemma neg_confined : (neg C p).Confined (p.Owns C) := by
  by_cases hl : p.len = 0
  · have : neg C p = pure () := by simp [neg, orElse, hl]
    rw [this]
    exact .ret _
  have h0 : 0 < p.len := Nat.pos_of_ne_zero hl
  have invertAddOne : (do not C p; addAssign C p [true] : Prog T Unit).Confined (p.Owns C) :=
    (not_confined p).bind fun _ => addAssign_confined p _
  exact (orElse_confined (.ret _) (notAny_confined p)).bind fun _ => .ite (.ret _) <|
    (getUnchecked_confined h0).bind fun _ => .ite
      ((setUnchecked_confined h0 false).bind fun _ => (notAny_confined p).bind fun _ =>
        .ite (.ret _) ((setUnchecked_confined h0 true).bind fun _ => invertAddOne))
      invertAddOne

lemma mem_enum_range' {s L i j : Nat} (h : (i, j) ∈ (List.range' s L).enum) :
    i < L ∧ j = s + i := by
  obtain ⟨hi, hj⟩ := List.mem_enum h
  rw [List.length_range'] at hi
  exact ⟨hi, by simp [hj]⟩

lemma shlAssign_confined (fuel : Nat) :
    ∀ (p : BitPtr T) (shamt : Nat), (shlAssign C fuel p shamt).Confined (p.Owns C) := by
  induction fuel with
  | zero => exact fun _ _ => .halt _
  | succ fuel ih =>
    intro p shamt
    rw [shlAssign]
    refine .ite (.ret _) (.ite_of_cases (fun _ => setAll_confined p false) fun hge =>
      .ite_of_cases (fun hsp => ?_) fun _ => ?_)
    · obtain ⟨hoff, hown⟩ := spanning_owns C p hsp hge
      simp only [asSlice, (spanning_eq p hsp).1, BitDomain.body]
      refine elemIndex_bind_confined fun _ => elemIndex_bind_confined fun _ => ?_
      simp only [List.getElem_range', Nat.one_mul]
      refine (ptrCopy_confined ?_ ?_).bind fun _ => (writeBytes_confined ?_).bind fun _ =>
        liftIndex_bind_confined fun front hf => (ih front _).mono fun _ _ => owns_of_index p hf
      all_goals generalize shamt >>> T.INDX = off at hoff ⊢
      · exact fun k hk => by rw [Nat.add_assoc]; exact hown _ (by omega)
      · exact fun k hk => hown _ (by omega)
      · exact fun k hk => by rw [Nat.add_assoc]; exact hown _ (by omega)
    · refine (Confined.forM fun x hx => ?_).bind fun _ =>
        liftIndex_bind_confined fun back hb => (setAll_confined back false).mono fun _ _ =>
          owns_of_index p hb
      obtain ⟨to_, from_⟩ := x
      obtain ⟨hk, rfl⟩ := mem_enum_range' hx
      exact copyUnchecked_confined p (by omega) (by omega)

lemma shrAssign_confined (fuel : Nat) :
    ∀ (p : BitPtr T) (shamt : Nat), (shrAssign C fuel p shamt).Confined (p.Owns C) := by
  induction fuel with
  | zero => exact fun _ _ => .halt _
  | succ fuel ih =>
    intro p shamt
    rw [shrAssign]
    refine .ite (.ret _) (.ite_of_cases (fun _ => setAll_confined p false) fun hge =>
      .ite_of_cases (fun hsp => ?_) fun _ => ?_)
    · obtain ⟨hoff, hown⟩ := spanning_owns C p hsp hge
      simp only [asSlice, (spanning_eq p hsp).1, BitDomain.body]
      refine elemIndex_bind_confined fun _ => ?_
      simp only [List.getElem_range', Nat.one_mul]
      refine (ptrCopy_confined ?_ ?_).bind fun _ => (writeBytes_confined ?_).bind fun _ =>
        liftIndex_bind_confined fun back hb => (ih back _).mono fun _ _ => owns_of_index p hb
      all_goals generalize shamt >>> T.INDX = off at hoff ⊢
      · exact fun k hk => hown _ (by omega)
      · exact fun k hk => by rw [Nat.add_assoc]; exact hown _ (by omega)
      · exact fun k hk => hown _ (by omega)
    · refine (Confined.forM fun x hx => ?_).bind fun _ =>
        liftIndex_bind_confined fun front hf => (setAll_confined front false).mono fun _ _ =>
          owns_of_index p hf
      obtain ⟨from_, to_⟩ := x
      obtain ⟨hk, rfl⟩ := mem_enum_range' (List.mem_reverse.1 hx)
      exact copyUnchecked_confined p (by omega) (by omega)

/-- Taking the guard of bit `index` and committing it writes bit `index`, or panics. -/
lemma guard_confined (index : Nat) (value : Option Bool) :
    (do
      let g ← at_ C p index
      BitGuard.drop C (match value with
        | .some v => g.derefMut v
        | .none => g)).Confined (p.Owns C) := by
  simp only [at_, atUnchecked, bind_assoc, pure_bind]
  refine assert_bind_confined fun hi => (getUnchecked_confined hi).bind fun bit => ?_
  have hdrop : ∀ b, (BitGuard.drop C ⟨sliceUnchecked p index (index + 1), b⟩).Confined
      (p.Owns C) := fun b =>
    assert_bind_confined fun _ => by
      rw [setUnchecked_sliceUnchecked]
      exact setUnchecked_confined (by omega) b
  cases value <;> exact hdrop _

/-! ### Runs that agree on the slice -/

/-- Two memories that keep every place outside the slice as `m` has it, and hold the same
bits in the slice, are the same memory. -/
lemma eq_of_frame_bits {m m₁ m₂ : Mem T}
    (h₁ : ∀ a q, ¬ p.Owns C a q → (m₁ a).getLsbD q = (m a).getLsbD q)
    (h₂ : ∀ a q, ¬ p.Owns C a q → (m₂ a).getLsbD q = (m a).getLsbD q)
    (hb : ∀ i < p.len, p.bit C m₁ i = p.bit C m₂ i) : m₁ = m₂ := by
  funext a
  refine BitVec.eq_of_getLsbD_eq fun ⟨q, _⟩ => ?_
  by_cases h : p.Owns C a q
  · obtain ⟨i, hi, rfl, rfl⟩ := h
    exact hb i hi
  · rw [h₁ a q h, h₂ a q h]

/-- Two programs confined to the slice that return the same value from `m` and leave the
same bits in the slice run the same. -/
lemma run_eq_of_bits {f g : Prog T α} (hf : f.Confined (p.Owns C))
    (hg : g.Confined (p.Owns C)) {a : α} {m m₁ m₂ : Mem T} (h₁ : f.run m = (.ok a, m₁))
    (h₂ : g.run m = (.ok a, m₂)) (hb : ∀ i < p.len, p.bit C m₁ i = p.bit C m₂ i) :
    f.run m = g.run m := by
  have frame : ∀ {k : Prog T α} {m' : Mem T}, k.Confined (p.Owns C) → k.run m = (.ok a, m') →
      ∀ x q, ¬ p.Owns C x q → (m' x).getLsbD q = (m x).getLsbD q := fun hk hrun x q h => by
    rw [← hk.run_frame m h, hrun]
  rw [h₁, h₂, eq_of_frame_bits p (frame hf h₁) (frame hg h₂) hb]

end BitSlice

/-! ### Every mutating operation -/

/-- The mutating operations of `BitSlice`, with their arguments; `guard index value` takes
`at(index)`, writes `value` through it if there is one, and drops the guard. -/
inductive MutOp
  | set (index : Nat) (value : Bool)
  | setUnchecked (index : Nat) (value : Bool)
  | setAll (value : Bool)
  | not
  | forEach (func : Nat → Bool → Bool)
  | bitandAssign (rhs : BitSource)
  | bitorAssign (rhs : BitSource)
  | bitxorAssign (rhs : BitSource)
  | addAssign (addend : List Bool)
  | addAssignReverse (addend : BitSource)
  | neg
  | shlAssign (shamt : Nat)
  | shrAssign (shamt : Nat)
  | guard (index : Nat) (value : Option Bool)

namespace MutOp

variable {T : BitStore}

/-- The program of an operation on the slice `p`; the shifts get `fuel`. -/
def prog (C : Cursor) (fuel : Nat) (p : BitPtr T) : MutOp → Prog T Unit
  | set index value => BitSlice.set C p index value
  | setUnchecked index value => BitSlice.setUnchecked C p index value
  | setAll value => BitSlice.setAll C p value
  | not => BitSlice.not C p
  | forEach func => BitSlice.forEach C p func
  | bitandAssign rhs => BitSlice.bitandAssign C p rhs
  | bitorAssign rhs => BitSlice.bitorAssign C p rhs
  | bitxorAssign rhs => BitSlice.bitxorAssign C p rhs
  | addAssign addend => BitSlice.addAssign C p addend
  | addAssignReverse addend => do let _ ← BitSlice.addAssignReverse C p addend
  | neg => BitSlice.neg C p
  | shlAssign shamt => BitSlice.shlAssign C fuel p shamt
  | shrAssign shamt => BitSlice.shrAssign C fuel p shamt
  | guard index value => do
    let g ← BitSlice.at_ C p index
    BitSlice.BitGuard.drop C (match value with
      | some v => g.derefMut v
      | none => g)

/-- `set_unchecked` is called only in bounds; every other operation checks its index. -/
def InBounds (p : BitPtr T) : MutOp → Prop
  | setUnchecked index _ => index < p.len
  | _ => True

instance (p : BitPtr T) : (op : MutOp) → Decidable (op.InBounds p)
  | setUnchecked index _ => inferInstanceAs (Decidable (index < p.len))
  | set .. | setAll .. | not | forEach .. | bitandAssign .. | bitorAssign .. | bitxorAssign ..
  | addAssign .. | addAssignReverse .. | neg | shlAssign .. | shrAssign .. | guard .. =>
    isTrue trivial

variable (C : Cursor) (fuel : Nat) (p : BitPtr T)

/-- Every mutating operation is confined to the places its slice owns. -/
lemma confined (op : MutOp) (h : op.InBounds p) : (op.prog C fuel p).Confined (p.Owns C) := by
  cases op with
  | set index value => exact BitSlice.set_confined p index value
  | setUnchecked index value => exact BitSlice.setUnchecked_confined h value
  | setAll value => exact BitSlice.setAll_confined p value
  | not => exact BitSlice.not_confined p
  | forEach func => exact BitSlice.forEach_confined p func
  | bitandAssign rhs => exact BitSlice.bitandAssign_confined p rhs
  | bitorAssign rhs => exact BitSlice.bitorAssign_confined p rhs
  | bitxorAssign rhs => exact BitSlice.bitxorAssign_confined p rhs
  | addAssign addend => exact BitSlice.addAssign_confined p addend
  | addAssignReverse addend =>
    exact (BitSlice.addAssignReverse_confined p addend).bind fun _ => .ret _
  | neg => exact BitSlice.neg_confined p
  | shlAssign shamt => exact BitSlice.shlAssign_confined fuel p shamt
  | shrAssign shamt => exact BitSlice.shrAssign_confined fuel p shamt
  | guard index value => exact BitSlice.guard_confined p index value

/-- **Frame.** Every mutating operation, on any slice, leaves every bit of memory outside
the slice as it was: the bits of its partial edge elements outside its range, and every
other element, whether it returns, panics or runs out of fuel. -/
theorem frame (op : MutOp) (h : op.InBounds p) (m : Mem T) {a q : Nat} (hq : ¬ p.Owns C a q) :
    (((op.prog C fuel p).run m).2 a).getLsbD q = (m a).getLsbD q :=
  (op.confined C fuel p h).run_frame m hq

/-- Setting bit `3` of bits `2 .. 6` of a byte leaves the byte's bit `0` alone. -/
theorem frame_setUnchecked_byte :
    (MutOp.setUnchecked 3 true).InBounds (⟨0, ⟨2, by decide⟩, 4⟩ : BitPtr .u8) ∧
    ¬ (⟨0, ⟨2, by decide⟩, 4⟩ : BitPtr .u8).Owns .BigEndian 0 0 ∧
    ((((MutOp.setUnchecked 3 true).prog .BigEndian 0 (⟨0, ⟨2, by decide⟩, 4⟩ : BitPtr .u8)).run
      (fun _ => 0#8)).2 0).getLsbD 0 = ((fun _ => 0#8 : Mem .u8) 0).getLsbD 0 :=
  ⟨by decide, by decide, frame .BigEndian 0 _ _ (by decide) _ (by decide)⟩

end MutOp

/-! ### Every query, and every operation -/

/-- The queries of `BitSlice`, which only read. -/
inductive ReadOp
  | all
  | any
  | notAll
  | notAny
  | some
  | countOnes
  | countZeros
  deriving DecidableEq, Repr

namespace ReadOp

/-- What a query returns: a count or a truth value. -/
def Result : ReadOp → Type
  | countOnes | countZeros => Nat
  | all | any | notAll | notAny | some => Bool

variable {T : BitStore} (C : Cursor) (p : BitPtr T)

/-- The program of a query on the slice `p`. -/
def prog : (op : ReadOp) → Prog T op.Result
  | all => BitSlice.all C p
  | any => BitSlice.any C p
  | notAll => BitSlice.notAll C p
  | notAny => BitSlice.notAny C p
  | some => BitSlice.some C p
  | countOnes => BitSlice.countOnes C p
  | countZeros => BitSlice.countZeros C p

/-- Every query is confined to the places its slice owns. -/
lemma confined (op : ReadOp) : (op.prog C p).Confined (p.Owns C) := by
  cases op with
  | all => exact BitSlice.all_confined p
  | any => exact BitSlice.any_confined p
  | notAll => exact (BitSlice.all_confined p).bind fun _ => .ret _
  | notAny => exact BitSlice.notAny_confined p
  | some =>
    exact BitSlice.andThen_confined (BitSlice.any_confined p)
      ((BitSlice.all_confined p).bind fun _ => .ret _)
  | countOnes => exact BitSlice.countWith_confined p _ _
  | countZeros => exact BitSlice.countWith_confined p _ _

end ReadOp

/-- An operation on a slice: a query, or a mutating operation. -/
inductive Op
  | read (op : ReadOp)
  | write (op : MutOp)

namespace Op

/-- What an operation returns. -/
def Result : Op → Type
  | read op => op.Result
  | write _ => Unit

variable {T : BitStore}

def prog (C : Cursor) (fuel : Nat) (p : BitPtr T) : (op : Op) → Prog T op.Result
  | read op => op.prog C p
  | write op => op.prog C fuel p

/-- Queries need nothing; a mutating operation needs its own condition. -/
def InBounds (p : BitPtr T) : Op → Prop
  | read _ => True
  | write op => op.InBounds p

instance (p : BitPtr T) : (op : Op) → Decidable (op.InBounds p)
  | read _ => isTrue trivial
  | write op => inferInstanceAs (Decidable (op.InBounds p))

lemma confined (C : Cursor) (fuel : Nat) (p : BitPtr T) (op : Op) (h : op.InBounds p) :
    (op.prog C fuel p).Confined (p.Owns C) := by
  cases op with
  | read op => exact op.confined C p
  | write op => exact op.confined C fuel p h

/-- Two memories agree on the places a slice owns exactly when they hold the same bits at
every index of the slice. -/
lemma agree_owns_iff (C : Cursor) (p : BitPtr T) {m₁ m₂ : Mem T} :
    Prog.Agree (p.Owns C) m₁ m₂ ↔ ∀ i < p.len, p.bit C m₁ i = p.bit C m₂ i :=
  ⟨fun h i hi => h _ _ ⟨i, hi, rfl, rfl⟩, fun h _ _ ⟨i, hi, he, hq⟩ => he ▸ hq ▸ h i hi⟩

/-- **Locality.** Every operation reads nothing outside its slice: from two memories that
hold the same bits in the slice, whatever they hold around it (the other bits of its edge
elements included), a query returns the same value, and a mutating operation ends the same
way (returns, panics with the same message, or runs out of fuel) and leaves the same bits in
the slice. -/
theorem locality (C : Cursor) (fuel : Nat) (p : BitPtr T) (op : Op) (h : op.InBounds p)
    {m₁ m₂ : Mem T} (hm : ∀ i < p.len, p.bit C m₁ i = p.bit C m₂ i) :
    ((op.prog C fuel p).run m₁).1 = ((op.prog C fuel p).run m₂).1 ∧
      ∀ i < p.len, p.bit C ((op.prog C fuel p).run m₁).2 i =
        p.bit C ((op.prog C fuel p).run m₂).2 i := by
  obtain ⟨h1, h2⟩ := (op.confined C fuel p h).run_agree ((agree_owns_iff C p).2 hm)
  exact ⟨h1, (agree_owns_iff C p).1 h2⟩

/-- `count_ones` on bits `2 .. 6` of a byte counts the same in `0xC3` as in `0`, which differ
only outside those bits. -/
theorem locality_count_byte :
    (Op.read .countOnes).InBounds (⟨0, ⟨2, by decide⟩, 4⟩ : BitPtr .u8) ∧
    (∀ i < 4, (⟨0, ⟨2, by decide⟩, 4⟩ : BitPtr .u8).bit .BigEndian (fun _ => 0xC3#8) i =
      (⟨0, ⟨2, by decide⟩, 4⟩ : BitPtr .u8).bit .BigEndian (fun _ => 0#8) i) ∧
    (((Op.read .countOnes).prog .BigEndian 0 (⟨0, ⟨2, by decide⟩, 4⟩ : BitPtr .u8)).run
        (fun _ => 0xC3#8)).1 =
      (((Op.read .countOnes).prog .BigEndian 0 (⟨0, ⟨2, by decide⟩, 4⟩ : BitPtr .u8)).run
        (fun _ => 0#8)).1 :=
  ⟨trivial, by decide, (locality .BigEndian 0 _ (.read .countOnes) trivial (by decide)).1⟩

end Op

end BitvecProofs
