import BitvecProofs.Frame

/-!
The two halves of a split slice, mutated at the same time.

`split_at_mut_unchecked(mid)` hands out two slices whose places are disjoint, even when
`mid` falls inside an element they share. A program runs as a sequence of atomic element
accesses (`Prog.step`), and a schedule interleaves the accesses of two programs
(`Prog.interleave`). When the two programs are confined to disjoint places, an access of
one commutes with the whole rest of the other (`run_write_comm`): it writes no bit the
other reads or writes, and the bits it reads are bits the other never writes. So the
memory that running the first to its end and then the second leaves is the same before
and after every step of either (`seq_step_left`, `seq_step_right`), and once both are done
it is the memory the schedule left (`interleave_sequential`): no update is lost. Nor is a
read torn: a step of one program changes no bit the other reads, so each program, run on
from any point of any schedule, ends as it does alone (`interleave_run_left`,
`interleave_run_right`). Run one after the other, the two commute (`seq_comm`); this holds
for the sub-slices of any two disjoint ranges, queries included.
-/

namespace BitvecProofs

namespace Prog

variable {T : BitStore} {α β : Type}

/-- One atomic step: the program's next element access. A finished program does not move. -/
def step : Prog T α → Mem T → Prog T α × Mem T
  | access acc k, m => (k (m acc.addr), acc.write m)
  | ret a, m => (ret a, m)
  | halt h, m => (halt h, m)

/-- The program has returned or halted. -/
def Done : Prog T α → Prop
  | access _ _ => False
  | _ => True

/-- Runs two programs by a schedule: `true` moves the first, `false` the second. -/
def interleave : List Bool → Prog T α → Prog T β → Mem T → Prog T α × Prog T β × Mem T
  | [], p, q, m => (p, q, m)
  | true :: s, p, q, m => interleave s (p.step m).1 q (p.step m).2
  | false :: s, p, q, m => interleave s p (q.step m).1 (q.step m).2

/-- The number of accesses a run makes. -/
def accesses : Prog T α → Mem T → Nat
  | access acc k, m => accesses (k (m acc.addr)) (acc.write m) + 1
  | _, _ => 0

/-- What running `p` to its end and then `q` leaves in memory. -/
def seq (p : Prog T α) (q : Prog T β) (m : Mem T) : Mem T := (q.run (p.run m).2).2

variable {S₁ S₂ : Nat → Nat → Prop} {p : Prog T α} {q : Prog T β}

lemma run_step (p : Prog T α) (m : Mem T) : (p.step m).1.run (p.step m).2 = p.run m := by
  cases p <;> rfl

lemma Confined.step (h : p.Confined S₁) (m : Mem T) : (p.step m).1.Confined S₁ := by
  cases h with
  | ret a => exact .ret a
  | halt h => exact .halt h
  | access _ _ hk => exact hk _

lemma run_of_done (h : p.Done) (m : Mem T) : (p.run m).2 = m := by
  cases p with
  | access => exact absurd h id
  | _ => rfl

/-- An access confined to places `p` never touches commutes with the whole run of `p`. -/
lemma run_write_comm (hp : p.Confined S₁) {acc : Access T} (hw : acc.WritesIn S₂)
    (hdisj : ∀ a q, S₁ a q → ¬ S₂ a q) (m : Mem T) :
    (p.run (acc.write m)).2 = acc.write (p.run m).2 := by
  funext a
  apply BitVec.eq_of_getLsbD_eq
  intro ⟨q, _⟩
  by_cases hs : S₁ a q
  · have hagree : Agree S₁ (acc.write m) m := fun a q hs => hw.getLsbD_write m (hdisj a q hs)
    rw [(hp.run_agree hagree).2 a q hs, hw.getLsbD_write _ (hdisj a q hs)]
  · rw [hp.run_frame _ hs, Access.getLsbD_write, Access.getLsbD_write, hp.run_frame _ hs]

lemma seq_step_left (p : Prog T α) (q : Prog T β) (m : Mem T) :
    seq (p.step m).1 q (p.step m).2 = seq p q m := by
  rw [seq, seq, run_step]

/-- A step of the second program, taken before the first has run, changes nothing of what
the two leave in sequence. -/
lemma seq_step_right (hp : p.Confined S₁) (hq : q.Confined S₂)
    (hdisj : ∀ a q, S₁ a q → ¬ S₂ a q) (m : Mem T) :
    seq p (q.step m).1 (q.step m).2 = seq p q m := by
  cases hq with
  | ret b => rfl
  | halt h => rfl
  | @access acc k hw hk _ =>
    have hread : k ((p.run m).2 acc.addr) = k (m acc.addr) :=
      hk _ _ fun r hr => hp.run_frame m fun h1 => hdisj _ _ h1 hr
    simp only [seq, step, run_access, run_write_comm hp hw hdisj, hread]

/-- **Interleaving.** Whatever the schedule, the memory it leaves together with the two
programs' remainders, run in sequence, is what the two programs leave run in sequence. -/
lemma interleave_seq (s : List Bool) (p : Prog T α) (q : Prog T β) (hp : p.Confined S₁)
    (hq : q.Confined S₂) (hdisj : ∀ a q, S₁ a q → ¬ S₂ a q) (m : Mem T) :
    seq (interleave s p q m).1 (interleave s p q m).2.1 (interleave s p q m).2.2 = seq p q m := by
  induction s generalizing p q m with
  | nil => rfl
  | cons b s ih =>
    cases b
    · rw [interleave, ih p _ hp (hq.step m), seq_step_right hp hq hdisj]
    · rw [interleave, ih _ q (hp.step m) hq, seq_step_left]

lemma interleave_sequential {s : List Bool} (hp : p.Confined S₁) (hq : q.Confined S₂)
    (hdisj : ∀ a q, S₁ a q → ¬ S₂ a q) (m : Mem T) (h₁ : (interleave s p q m).1.Done)
    (h₂ : (interleave s p q m).2.1.Done) : (interleave s p q m).2.2 = seq p q m := by
  rw [← interleave_seq s p q hp hq hdisj m, seq, run_of_done h₁, run_of_done h₂]

/-- Moving the first program as many times as its run has accesses finishes it. -/
lemma interleave_replicate_left (p : Prog T α) (q : Prog T β) (m : Mem T) :
    (interleave (List.replicate (p.accesses m) true) p q m).1.Done ∧
      (interleave (List.replicate (p.accesses m) true) p q m).2 = (q, (p.run m).2) := by
  induction p generalizing m with
  | ret a => exact ⟨trivial, rfl⟩
  | halt h => exact ⟨trivial, rfl⟩
  | access acc k ih => exact ih _ _

lemma interleave_replicate_right (p : Prog T α) (q : Prog T β) (m : Mem T) :
    (interleave (List.replicate (q.accesses m) false) p q m).2.1.Done ∧
      (interleave (List.replicate (q.accesses m) false) p q m).1 = p := by
  induction q generalizing m with
  | ret a => exact ⟨trivial, rfl⟩
  | halt h => exact ⟨trivial, rfl⟩
  | access acc k ih => exact ih _ _

lemma interleave_append (s t : List Bool) (p : Prog T α) (q : Prog T β) (m : Mem T) :
    interleave (s ++ t) p q m =
      interleave t (interleave s p q m).1 (interleave s p q m).2.1 (interleave s p q m).2.2 := by
  induction s generalizing p q m with
  | nil => rfl
  | cons b s ih => cases b <;> exact ih _ _ _

/-- Some schedule, the sequential one, finishes both programs. -/
lemma exists_interleave_done (p : Prog T α) (q : Prog T β) (m : Mem T) :
    ∃ s, (interleave s p q m).1.Done ∧ (interleave s p q m).2.1.Done := by
  obtain ⟨hp, heq⟩ := interleave_replicate_left p q m
  refine ⟨List.replicate (p.accesses m) true ++
    List.replicate (q.accesses (p.run m).2) false, ?_⟩
  rw [interleave_append, show (interleave (List.replicate (p.accesses m) true) p q m).2.1 = q by
    rw [heq], show (interleave (List.replicate (p.accesses m) true) p q m).2.2 = (p.run m).2 by
    rw [heq]]
  obtain ⟨hq, heq'⟩ := interleave_replicate_right
    (interleave (List.replicate (p.accesses m) true) p q m).1 q (p.run m).2
  exact ⟨by rw [heq']; exact hp, hq⟩

/-- Programs confined to disjoint places commute: the two orders leave the same memory. -/
lemma seq_comm (hp : p.Confined S₁) (hq : q.Confined S₂) (hdisj : ∀ a q, S₁ a q → ¬ S₂ a q)
    (m : Mem T) : seq p q m = seq q p m := by
  induction hq generalizing m with
  | ret b => rfl
  | halt h => rfl
  | @access acc k hw hk hk' ih =>
    rw [← seq_step_right hp (.access hw hk hk') hdisj, step, ih, seq, seq, run_access]

/-- A program ends the same after a program confined to places it never touches has run. -/
lemma run_fst_of_disjoint (hp : p.Confined S₁) (hq : q.Confined S₂)
    (hdisj : ∀ a q, S₁ a q → ¬ S₂ a q) (m : Mem T) : (p.run (q.run m).2).1 = (p.run m).1 :=
  (hp.run_agree fun a b h => hq.run_frame m (hdisj a b h)).1

/-- A step of a program confined to `S₂` changes no bit of `S₁`. -/
lemma Confined.agree_step (hq : q.Confined S₂) (hdisj : ∀ a q, S₁ a q → ¬ S₂ a q)
    (m : Mem T) : Agree S₁ (q.step m).2 m := by
  cases hq with
  | ret b => exact fun _ _ _ => rfl
  | halt h => exact fun _ _ _ => rfl
  | access hw _ _ => exact fun a b h => hw.getLsbD_write m (hdisj a b h)

/-- At every point of every schedule, the first program, run on from there, ends as it does
when it runs alone: the other's steps write no bit it reads. -/
lemma interleave_run_left (s : List Bool) (p : Prog T α) (q : Prog T β) (hp : p.Confined S₁)
    (hq : q.Confined S₂) (hdisj : ∀ a q, S₁ a q → ¬ S₂ a q) (m : Mem T) :
    ((interleave s p q m).1.run (interleave s p q m).2.2).1 = (p.run m).1 := by
  induction s generalizing p q m with
  | nil => rfl
  | cons b s ih =>
    cases b
    · rw [interleave, ih p _ hp (hq.step m)]
      exact (hp.run_agree (hq.agree_step hdisj m)).1
    · rw [interleave, ih _ q (hp.step m) hq, run_step]

lemma interleave_run_right (s : List Bool) (p : Prog T α) (q : Prog T β) (hp : p.Confined S₁)
    (hq : q.Confined S₂) (hdisj : ∀ a q, S₁ a q → ¬ S₂ a q) (m : Mem T) :
    ((interleave s p q m).2.1.run (interleave s p q m).2.2).1 = (q.run m).1 := by
  induction s generalizing p q m with
  | nil => rfl
  | cons b s ih =>
    cases b
    · rw [interleave, ih p _ hp (hq.step m), run_step]
    · rw [interleave, ih _ q (hp.step m) hq]
      exact (hq.run_agree (hp.agree_step (fun a b h h' => hdisj a b h' h) m)).1

end Prog

namespace BitSlice

open Prog

variable {T : BitStore} (C : Cursor) (p : BitPtr T)

lemma owns_empty (a q : Nat) : ¬ (BitPtr.empty : BitPtr T).Owns C a q :=
  fun ⟨_, hi, _⟩ => Nat.not_lt_zero _ hi

/-- The halves of a split own disjoint places. -/
lemma splitAt_disjoint (mid : Nat) (a q : Nat) (hl : (splitAtUnchecked p mid).1.Owns C a q) :
    ¬ (splitAtUnchecked p mid).2.Owns C a q := by
  unfold splitAtUnchecked at hl ⊢
  split_ifs at hl ⊢ with h0 hn
  · exact absurd hl (owns_empty C a q)
  · exact owns_empty C a q
  · rintro ⟨j, hj, rfl, hq⟩
    obtain ⟨i, hi, he, hp⟩ := hl
    simp only [len_sliceUnchecked, elt_sliceUnchecked, place_sliceUnchecked] at hi hj he hp hq
    have := p.eq_of_elt_place he (C.pos_inj (p.place_lt _) (p.place_lt _) (hp.trans hq.symm))
    omega

lemma splitAt_left (mid : Nat) :
    (splitAtUnchecked p mid).1.len = mid ∧ ∀ i < mid,
      getUnchecked C (splitAtUnchecked p mid).1 i = getUnchecked C p i ∧
        ∀ value,
          setUnchecked C (splitAtUnchecked p mid).1 i value = setUnchecked C p i value := by
  unfold splitAtUnchecked
  split_ifs with h0 hn
  · exact ⟨h0.symm, fun i hi => absurd hi (by omega)⟩
  · exact ⟨hn.symm, fun i _ => ⟨rfl, fun _ => rfl⟩⟩
  · refine ⟨by simp, fun i _ => ?_⟩
    rw [getUnchecked_sliceUnchecked, Nat.zero_add]
    exact ⟨rfl, fun value => by rw [setUnchecked_sliceUnchecked, Nat.zero_add]⟩

lemma splitAt_right (mid : Nat) :
    (splitAtUnchecked p mid).2.len = p.len - mid ∧ ∀ j < p.len - mid,
      getUnchecked C (splitAtUnchecked p mid).2 j = getUnchecked C p (mid + j) ∧
        ∀ value, setUnchecked C (splitAtUnchecked p mid).2 j value =
          setUnchecked C p (mid + j) value := by
  unfold splitAtUnchecked
  split_ifs with h0 hn
  · subst h0
    exact ⟨rfl, fun j _ => by rw [Nat.zero_add]; exact ⟨rfl, fun _ => rfl⟩⟩
  · exact ⟨by simp [BitPtr.empty, hn], fun j hj => absurd hj (by omega)⟩
  · exact ⟨by simp, fun j _ => ⟨getUnchecked_sliceUnchecked p C mid p.len j,
      setUnchecked_sliceUnchecked p C mid p.len j⟩⟩

/-- **Split, then mutate both halves at once.** For every `mid` (the split is unchecked, so
`mid ≤ len` is not even needed), `split_at_mut_unchecked(mid)` gives slices of `mid` and
`len - mid` bits whose bit `i` and bit `j` are the slice's bits `i` and `mid + j`,
read and written by the same programs. For any mutating operations `f` on the left half and
`g` on the right, some schedule of their element accesses finishes both, and every schedule
that finishes both leaves the memory that `f` then `g` leaves. -/
theorem splitAt_interleave (mid : Nat) :
    (splitAtUnchecked p mid).1.len = mid ∧ (splitAtUnchecked p mid).2.len = p.len - mid ∧
    (∀ i < mid, getUnchecked C (splitAtUnchecked p mid).1 i = getUnchecked C p i ∧
      ∀ value, setUnchecked C (splitAtUnchecked p mid).1 i value = setUnchecked C p i value) ∧
    (∀ j < p.len - mid, getUnchecked C (splitAtUnchecked p mid).2 j = getUnchecked C p (mid + j) ∧
      ∀ value, setUnchecked C (splitAtUnchecked p mid).2 j value =
        setUnchecked C p (mid + j) value) ∧
    ∀ (fuel : Nat) (f g : MutOp), f.InBounds (splitAtUnchecked p mid).1 →
      g.InBounds (splitAtUnchecked p mid).2 → ∀ m : Mem T,
        (∃ s, (interleave s (f.prog C fuel (splitAtUnchecked p mid).1)
          (g.prog C fuel (splitAtUnchecked p mid).2) m).1.Done ∧
          (interleave s (f.prog C fuel (splitAtUnchecked p mid).1)
            (g.prog C fuel (splitAtUnchecked p mid).2) m).2.1.Done) ∧
        ∀ s, (interleave s (f.prog C fuel (splitAtUnchecked p mid).1)
            (g.prog C fuel (splitAtUnchecked p mid).2) m).1.Done →
          (interleave s (f.prog C fuel (splitAtUnchecked p mid).1)
            (g.prog C fuel (splitAtUnchecked p mid).2) m).2.1.Done →
          (interleave s (f.prog C fuel (splitAtUnchecked p mid).1)
            (g.prog C fuel (splitAtUnchecked p mid).2) m).2.2 =
            ((g.prog C fuel (splitAtUnchecked p mid).2).run
              ((f.prog C fuel (splitAtUnchecked p mid).1).run m).2).2 := by
  obtain ⟨hl, hleft⟩ := splitAt_left C p mid
  obtain ⟨hr, hright⟩ := splitAt_right C p mid
  refine ⟨hl, hr, hleft, hright, fun fuel f g hf hg m =>
    ⟨exists_interleave_done _ _ m, fun s h₁ h₂ => ?_⟩⟩
  exact interleave_sequential (f.confined C fuel _ hf) (g.confined C fuel _ hg)
    (fun a q h => splitAt_disjoint C p mid a q h) m h₁ h₂

/-- Sub-slices of disjoint ranges own disjoint places, even inside an element they share. -/
lemma sliceUnchecked_disjoint {a b c d : Nat} (hbc : b ≤ c) (x y : Nat)
    (h : (sliceUnchecked p a b).Owns C x y) : ¬ (sliceUnchecked p c d).Owns C x y := by
  obtain ⟨j, hj, rfl, rfl⟩ := h
  rw [elt_sliceUnchecked, place_sliceUnchecked, owns_sliceUnchecked_iff]
  rw [len_sliceUnchecked] at hj
  omega

/-- **Disjoint ranges commute.** For ranges `a .. b` and `c .. d` of one slice with `b ≤ c`,
both of which `index` accepts, any operation on the first and any on the second, queries and
mutating operations alike, can run in either order: each ends as it does when it runs alone
(a query returns the same value), and the two orders leave the same memory. -/
theorem index_disjoint_commute {a b c d : Nat} {q₁ q₂ : BitPtr T}
    (h₁ : index p a b = .ok q₁) (h₂ : index p c d = .ok q₂) (hbc : b ≤ c) (fuel : Nat)
    (f g : Op) (hf : f.InBounds q₁) (hg : g.InBounds q₂) (m : Mem T) :
    ((f.prog C fuel q₁).run ((g.prog C fuel q₂).run m).2).1 = ((f.prog C fuel q₁).run m).1 ∧
    ((g.prog C fuel q₂).run ((f.prog C fuel q₁).run m).2).1 = ((g.prog C fuel q₂).run m).1 ∧
    ((g.prog C fuel q₂).run ((f.prog C fuel q₁).run m).2).2 =
      ((f.prog C fuel q₁).run ((g.prog C fuel q₂).run m).2).2 := by
  obtain ⟨-, -, rfl⟩ := eq_sliceUnchecked_of_index p h₁
  obtain ⟨-, -, rfl⟩ := eq_sliceUnchecked_of_index p h₂
  have hdisj := sliceUnchecked_disjoint C p (a := a) (d := d) hbc
  have hf' := f.confined C fuel _ hf
  have hg' := g.confined C fuel _ hg
  exact ⟨run_fst_of_disjoint hf' hg' hdisj m,
    run_fst_of_disjoint hg' hf' (fun x y h h' => hdisj x y h' h) m, seq_comm hf' hg' hdisj m⟩

/-- `count_ones` on bits `2 .. 6` of two bytes counts the same before and after
`set_all(true)` on bits `6 .. 12`, though both use the first byte. -/
theorem index_disjoint_commute_bytes :
    index (⟨0, ⟨0, by decide⟩, 16⟩ : BitPtr .u8) 2 6 = .ok ⟨0, ⟨2, by decide⟩, 4⟩ ∧
    index (⟨0, ⟨0, by decide⟩, 16⟩ : BitPtr .u8) 6 12 = .ok ⟨0, ⟨6, by decide⟩, 6⟩ ∧
    (Op.read .countOnes).InBounds (⟨0, ⟨2, by decide⟩, 4⟩ : BitPtr .u8) ∧
    (Op.write (.setAll true)).InBounds (⟨0, ⟨6, by decide⟩, 6⟩ : BitPtr .u8) ∧
    (((Op.read .countOnes).prog .LittleEndian 0 (⟨0, ⟨2, by decide⟩, 4⟩ : BitPtr .u8)).run
      (((Op.write (.setAll true)).prog .LittleEndian 0 (⟨0, ⟨6, by decide⟩, 6⟩ : BitPtr .u8)).run
        (fun _ => 0x5A#8)).2).1 =
      (((Op.read .countOnes).prog .LittleEndian 0 (⟨0, ⟨2, by decide⟩, 4⟩ : BitPtr .u8)).run
        (fun _ => 0x5A#8)).1 := by
  refine ⟨?h₁, ?h₂, trivial, trivial, (index_disjoint_commute .LittleEndian _ ?h₁ ?h₂
    (Nat.le_refl 6) 0 (.read .countOnes) (.write (.setAll true)) trivial trivial _).1⟩ <;> rfl

/-- **Split halves are used as if alone.** For any operation on the left half of a split and
any on the right, each a query (`all`, `any`, `not_all`, `not_any`, `some`, `count_ones`,
`count_zeros`) or a mutating operation, and for any schedule of their element accesses, even
when `mid` falls inside an element both use: at every point of the schedule, each program run
on from there ends as it does when it runs alone from the start. A query returns the value it
returns alone, so no read is torn; a write returns, panics or runs out of fuel as it does
alone. -/
theorem splitAt_outcomes (mid fuel : Nat) (f g : Op) (hf : f.InBounds (splitAtUnchecked p mid).1)
    (hg : g.InBounds (splitAtUnchecked p mid).2) (s : List Bool) (m : Mem T) :
    ((interleave s (f.prog C fuel (splitAtUnchecked p mid).1)
        (g.prog C fuel (splitAtUnchecked p mid).2) m).1.run
      (interleave s (f.prog C fuel (splitAtUnchecked p mid).1)
        (g.prog C fuel (splitAtUnchecked p mid).2) m).2.2).1 =
      ((f.prog C fuel (splitAtUnchecked p mid).1).run m).1 ∧
    ((interleave s (f.prog C fuel (splitAtUnchecked p mid).1)
        (g.prog C fuel (splitAtUnchecked p mid).2) m).2.1.run
      (interleave s (f.prog C fuel (splitAtUnchecked p mid).1)
        (g.prog C fuel (splitAtUnchecked p mid).2) m).2.2).1 =
      ((g.prog C fuel (splitAtUnchecked p mid).2).run m).1 :=
  ⟨interleave_run_left s _ _ (f.confined C fuel _ hf) (g.confined C fuel _ hg)
      (fun a q h => splitAt_disjoint C p mid a q h) m,
    interleave_run_right s _ _ (f.confined C fuel _ hf) (g.confined C fuel _ hg)
      (fun a q h => splitAt_disjoint C p mid a q h) m⟩

/-- `count_ones` on the first four bits of a byte, with `set_all(true)` on the last four
taking turns with it, counts what it counts alone. -/
theorem splitAt_outcomes_byte :
    (Op.read .countOnes).InBounds (splitAtUnchecked (⟨0, ⟨0, by decide⟩, 8⟩ : BitPtr .u8) 4).1 ∧
    (Op.write (.setAll true)).InBounds
      (splitAtUnchecked (⟨0, ⟨0, by decide⟩, 8⟩ : BitPtr .u8) 4).2 ∧
    ((interleave [false, true, false, true]
        ((Op.read .countOnes).prog .BigEndian 0
          (splitAtUnchecked (⟨0, ⟨0, by decide⟩, 8⟩ : BitPtr .u8) 4).1)
        ((Op.write (.setAll true)).prog .BigEndian 0
          (splitAtUnchecked (⟨0, ⟨0, by decide⟩, 8⟩ : BitPtr .u8) 4).2) (fun _ => 0x5A#8)).1.run
      (interleave [false, true, false, true]
        ((Op.read .countOnes).prog .BigEndian 0
          (splitAtUnchecked (⟨0, ⟨0, by decide⟩, 8⟩ : BitPtr .u8) 4).1)
        ((Op.write (.setAll true)).prog .BigEndian 0
          (splitAtUnchecked (⟨0, ⟨0, by decide⟩, 8⟩ : BitPtr .u8) 4).2) (fun _ => 0x5A#8)).2.2).1 =
      (((Op.read .countOnes).prog .BigEndian 0
        (splitAtUnchecked (⟨0, ⟨0, by decide⟩, 8⟩ : BitPtr .u8) 4).1).run (fun _ => 0x5A#8)).1 :=
  ⟨trivial, trivial, (splitAt_outcomes .BigEndian _ 4 0 (.read .countOnes) (.write (.setAll true))
    trivial trivial [false, true, false, true] _).1⟩

end BitSlice

end BitvecProofs
