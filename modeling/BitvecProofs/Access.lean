import BitvecProofs.Store

/-!
Element accesses as atomic steps, and the programs the slice operations are built from.

Every operation of the slice layer touches memory only through `BitAccess` (the
`fetch_and`, `fetch_or`, `fetch_xor` and `load` of an element's shared-mutation cell), the
cell's `store`, or plain loads and stores of elements it owns outright. A `Prog` is such an
operation written as a tree whose `access` nodes each perform one element access, the
continuation receiving the value the access found. `Prog.run` executes a program to its
end.

`Prog.Confined S` says that every access writes only bits of `S`, and that what the program
does after an access depends only on the bits of `S` it read. A confined program changes
nothing outside `S` (`Confined.run_frame`), and its run depends only on the memory inside
`S` (`Confined.run_agree`). These two facts are all that the frame and the concurrency
results about the slice operations use.
-/

namespace BitvecProofs

/-- The contents of memory: the element stored at each address. -/
abbrev Mem (T : BitStore) := Nat → BitVec T.BITS

/-- One access to a storage element; each is a single atomic step. -/
inductive Access (T : BitStore)
  | load (a : Nat)
  | store (a : Nat) (v : BitVec T.BITS)
  | fetchAnd (a : Nat) (mask : BitVec T.BITS)
  | fetchOr (a : Nat) (mask : BitVec T.BITS)
  | fetchXor (a : Nat) (mask : BitVec T.BITS)

namespace Access

variable {T : BitStore}

def addr : Access T → Nat
  | load a | store a _ | fetchAnd a _ | fetchOr a _ | fetchXor a _ => a

/-- The value the access leaves in its element, from the value it found there. -/
def apply : Access T → BitVec T.BITS → BitVec T.BITS
  | load _, x => x
  | store _ v, _ => v
  | fetchAnd _ mask, x => x &&& mask
  | fetchOr _ mask, x => x ||| mask
  | fetchXor _ mask, x => x ^^^ mask

/-- Memory after the access. -/
def write (acc : Access T) (m : Mem T) : Mem T :=
  Function.update m acc.addr (acc.apply (m acc.addr))

/-- What the access does to bit `q` of its element: every access acts bit by bit. -/
def applyBit : Access T → Nat → Bool → Bool
  | load _, _, b => b
  | store _ v, q, _ => v.getLsbD q
  | fetchAnd _ mask, q, b => b && mask.getLsbD q
  | fetchOr _ mask, q, b => b || mask.getLsbD q
  | fetchXor _ mask, q, b => xor b (mask.getLsbD q)

lemma getLsbD_apply (acc : Access T) (x : BitVec T.BITS) (q : Nat) :
    (acc.apply x).getLsbD q = acc.applyBit q (x.getLsbD q) := by
  cases acc <;> simp [apply, applyBit]

lemma getLsbD_write (acc : Access T) (m : Mem T) (a q : Nat) :
    (acc.write m a).getLsbD q =
      if a = acc.addr then acc.applyBit q ((m a).getLsbD q) else (m a).getLsbD q := by
  by_cases h : a = acc.addr
  · subst h
    simp [write, getLsbD_apply]
  · simp [write, Function.update_noteq h, h]

@[simp] lemma write_load (a : Nat) (m : Mem T) : (load a).write m = m := by
  simp [write, addr, apply]

/-- The access changes no bit of its element outside `S`. -/
def WritesIn (S : Nat → Nat → Prop) (acc : Access T) : Prop :=
  ∀ q < T.BITS, ¬ S acc.addr q → ∀ b, acc.applyBit q b = b

lemma WritesIn.mono {S S' : Nat → Nat → Prop} {acc : Access T} (h : acc.WritesIn S)
    (hS : ∀ a q, S a q → S' a q) : acc.WritesIn S' :=
  fun q hq hn => h q hq fun hs => hn (hS _ _ hs)

/-- An access confined to `S` leaves every bit outside `S` as it was. -/
lemma WritesIn.getLsbD_write {S : Nat → Nat → Prop} {acc : Access T} (h : acc.WritesIn S)
    (m : Mem T) {a q : Nat} (hq : ¬ S a q) : (acc.write m a).getLsbD q = (m a).getLsbD q := by
  by_cases hw : q < T.BITS
  · rw [Access.getLsbD_write]
    split_ifs with ha
    · exact h q hw (ha ▸ hq) _
    · rfl
  · simp [BitVec.getLsbD_ge _ _ (Nat.le_of_not_lt hw)]

end Access

/-- Why a program stopped without returning. -/
inductive Halt
  | panic (msg : String)
  | outOfFuel
  deriving DecidableEq, Repr

/-- An operation on memory, one element access at a time. -/
inductive Prog (T : BitStore) (α : Type)
  | ret (a : α)
  | halt (h : Halt)
  | access (acc : Access T) (k : BitVec T.BITS → Prog T α)

namespace Prog

variable {T : BitStore} {α β γ : Type}

def bind : Prog T α → (α → Prog T β) → Prog T β
  | ret a, f => f a
  | halt h, _ => halt h
  | access acc k, f => access acc fun v => (k v).bind f

instance : Monad (Prog T) where
  pure := ret
  bind := bind

lemma bind_assoc' (p : Prog T α) (f : α → Prog T β) (g : β → Prog T γ) :
    (p >>= f) >>= g = p >>= fun a => f a >>= g := by
  induction p with
  | ret a => rfl
  | halt h => rfl
  | access acc k ih => exact congrArg (access acc) (funext ih)

lemma bind_ret' (p : Prog T α) : p >>= ret = p := by
  induction p with
  | ret a => rfl
  | halt h => rfl
  | access acc k ih => exact congrArg (access acc) (funext ih)

instance : LawfulMonad (Prog T) :=
  LawfulMonad.mk' (Prog T) (fun x => bind_ret' x) (fun _ _ => rfl) bind_assoc'

/-- `panic!(msg)`. -/
def panic (msg : String) : Prog T α := halt (.panic msg)

/-- `assert!(cond, msg)`: goes on when `cond` holds and panics with `msg` otherwise. -/
def assert (cond : Prop) [Decidable cond] (msg : String) : Prog T Unit :=
  if cond then ret () else panic msg

/-- Runs a program to its end: what it returned or why it stopped, and the memory then. -/
def run : Prog T α → Mem T → Except Halt α × Mem T
  | ret a, m => (.ok a, m)
  | halt h, m => (.error h, m)
  | access acc k, m => (k (m acc.addr)).run (acc.write m)

variable {p : Prog T α} {m : Mem T}

@[simp] lemma run_ret (a : α) (m : Mem T) : (ret a : Prog T α).run m = (.ok a, m) := rfl
@[simp] lemma run_pure (a : α) (m : Mem T) : (pure a : Prog T α).run m = (.ok a, m) := rfl
@[simp] lemma run_halt (h : Halt) (m : Mem T) : (halt h : Prog T α).run m = (.error h, m) :=
  rfl
@[simp] lemma run_panic (msg : String) (m : Mem T) :
    (panic msg : Prog T α).run m = (.error (.panic msg), m) := rfl
@[simp] lemma run_access (acc : Access T) (k : BitVec T.BITS → Prog T α) (m : Mem T) :
    (access acc k).run m = (k (m acc.addr)).run (acc.write m) := rfl

@[simp] lemma run_bind (p : Prog T α) (f : α → Prog T β) (m : Mem T) :
    (p >>= f).run m = match p.run m with
      | (.ok a, m') => (f a).run m'
      | (.error h, m') => (.error h, m') := by
  induction p generalizing m with
  | ret a => rfl
  | halt h => rfl
  | access acc k ih => exact ih _ _

@[simp] lemma run_map (f : α → β) (p : Prog T α) (m : Mem T) :
    (f <$> p).run m = match p.run m with
      | (.ok a, m') => (.ok (f a), m')
      | (.error h, m') => (.error h, m') := by
  show (p >>= fun a => pure (f a)).run m = _
  rw [run_bind]
  rcases p.run m with ⟨_ | _, _⟩ <;> rfl

lemma run_bind_ok {a : α} {m' : Mem T} (h : p.run m = (.ok a, m')) (f : α → Prog T β) :
    (p >>= f).run m = (f a).run m' := by
  simp [h]

/-- The bits of `S` agree in two memories. -/
def Agree (S : Nat → Nat → Prop) (m m' : Mem T) : Prop :=
  ∀ a q, S a q → (m a).getLsbD q = (m' a).getLsbD q

/-- Every access of the program writes only bits of `S`, and after each access the
program goes on in a way that depends only on the bits of `S` the access found. -/
inductive Confined (S : Nat → Nat → Prop) : Prog T α → Prop
  | ret (a : α) : Confined S (ret a)
  | halt (h : Halt) : Confined S (halt h)
  | access {acc : Access T} {k : BitVec T.BITS → Prog T α} :
      acc.WritesIn S →
      (∀ v w : BitVec T.BITS,
        (∀ q, S acc.addr q → v.getLsbD q = w.getLsbD q) → k v = k w) →
      (∀ v, Confined S (k v)) → Confined S (access acc k)

namespace Confined

variable {S S' : Nat → Nat → Prop}

lemma mono (h : Confined S p) (hS : ∀ a q, S a q → S' a q) : Confined S' p := by
  induction h with
  | ret a => exact .ret a
  | halt h => exact .halt h
  | access hw hk _ ih =>
    exact .access (hw.mono hS) (fun v w hvw => hk v w fun q hq => hvw q (hS _ _ hq)) ih

lemma bind {f : α → Prog T β} (hp : Confined S p) (hf : ∀ a, Confined S (f a)) :
    Confined S (p >>= f) := by
  induction hp with
  | ret a => exact hf a
  | halt h => exact .halt h
  | access hw hk _ ih =>
    exact .access hw (fun v w hvw => by simp only [hk v w hvw]) ih

lemma pure (a : α) : Confined S (pure a : Prog T α) := .ret a

/-- A branch is confined when each arm is, under its own condition. -/
lemma ite_of_cases {c : Prop} [Decidable c] {q : Prog T α} (hp : c → Confined S p)
    (hq : ¬c → Confined S q) : Confined S (if c then p else q) := by
  by_cases hc : c
  · rw [if_pos hc]; exact hp hc
  · rw [if_neg hc]; exact hq hc

lemma ite {c : Prop} [Decidable c] {q : Prog T α} (hp : Confined S p) (hq : Confined S q) :
    Confined S (if c then p else q) :=
  ite_of_cases (fun _ => hp) fun _ => hq

lemma forM {δ : Type} {xs : List δ} {f : δ → Prog T PUnit}
    (h : ∀ x ∈ xs, Confined S (f x)) : Confined S (xs.forM f) := by
  induction xs with
  | nil => exact .ret _
  | cons x xs ih =>
    exact (h x (List.mem_cons_self x xs)).bind fun _ =>
      ih fun y hy => h y (List.mem_cons_of_mem x hy)

lemma foldlM {δ : Type} {xs : List δ} {f : α → δ → Prog T α}
    (h : ∀ x ∈ xs, ∀ c, Confined S (f c x)) (init : α) : Confined S (xs.foldlM f init) := by
  induction xs generalizing init with
  | nil => exact .ret _
  | cons x xs ih =>
    exact (h x (List.mem_cons_self x xs) init).bind fun c =>
      ih (fun y hy => h y (List.mem_cons_of_mem x hy)) c

/-- **Frame.** A confined program leaves every bit outside `S` as it was, whether it
returns, panics or runs out of fuel. -/
theorem run_frame (h : Confined S p) (m : Mem T) {a q : Nat} (hq : ¬ S a q) :
    ((p.run m).2 a).getLsbD q = (m a).getLsbD q := by
  induction h generalizing m with
  | ret a => rfl
  | halt h => rfl
  | access hw _ _ ih => rw [run_access, ih, hw.getLsbD_write m hq]

/-- **Locality.** The run of a confined program from two memories that agree on `S`
returns the same outcome, and ends in memories that agree on `S`. -/
theorem run_agree (h : Confined S p) {m₁ m₂ : Mem T} (hm : Agree S m₁ m₂) :
    (p.run m₁).1 = (p.run m₂).1 ∧ Agree S (p.run m₁).2 (p.run m₂).2 := by
  induction h generalizing m₁ m₂ with
  | ret a => exact ⟨rfl, hm⟩
  | halt h => exact ⟨rfl, hm⟩
  | @access acc k _ hk _ ih =>
    simp only [run_access]
    rw [hk (m₁ acc.addr) (m₂ acc.addr) fun q hq => hm _ q hq]
    refine ih _ fun a q hs => ?_
    simp only [Access.getLsbD_write, hm a q hs]

end Confined

end Prog

namespace BitAccess

variable (C : Cursor) {T : BitStore}

/-- `BitAccess::clear_bit`: `fetch_and(!mask)`. -/
def clearBit (a place : Nat) : Prog T Unit :=
  .access (.fetchAnd a (~~~C.mask T place)) fun _ => .ret ()

/-- `BitAccess::set_bit`: `fetch_or(mask)`. -/
def setBit (a place : Nat) : Prog T Unit :=
  .access (.fetchOr a (C.mask T place)) fun _ => .ret ()

/-- `BitAccess::invert_bit`: `fetch_xor(mask)`. -/
def invertBit (a place : Nat) : Prog T Unit :=
  .access (.fetchXor a (C.mask T place)) fun _ => .ret ()

/-- `BitAccess::get`: one synchronized load, then the mask test. -/
def get (a place : Nat) : Prog T Bool :=
  .access (.load a) fun x => .ret (x &&& C.mask T place != 0#T.BITS)

/-- `BitAccess::set`. -/
def set (a place : Nat) (value : Bool) : Prog T Unit :=
  if value then setBit C a place else clearBit C a place

/-- `BitAccess::load`. -/
def load (a : Nat) : Prog T (BitVec T.BITS) :=
  .access (.load a) .ret

/-- `BitAccess::erase_bits`: `fetch_and(mask)`. -/
def eraseBits (a : Nat) (mask : BitVec T.BITS) : Prog T Unit :=
  .access (.fetchAnd a mask) fun _ => .ret ()

/-- `BitAccess::write_bits`: `fetch_or(mask)`. -/
def writeBits (a : Nat) (mask : BitVec T.BITS) : Prog T Unit :=
  .access (.fetchOr a mask) fun _ => .ret ()

/-- `Radium::store` on the cell of an element. -/
def store (a : Nat) (v : BitVec T.BITS) : Prog T Unit :=
  .access (.store a v) fun _ => .ret ()

variable {C} {place : Nat}

lemma get_run (a : Nat) (h : place < T.BITS) (m : Mem T) :
    (get C a place).run m = (.ok ((m a).getLsbD (C.pos T place)), m) := by
  rw [← BitStore.get_eq (m a) h]
  simp [get, BitStore.get, Access.addr]

/-- The alias-safe write of one bit leaves the element `BitStore::set` computes. -/
lemma set_run (a : Nat) (value : Bool) (m : Mem T) :
    (set C a place value).run m =
      (.ok (), Function.update m a (BitStore.set C (m a) place value)) := by
  cases value <;> rfl

lemma invertBit_run (a : Nat) (m : Mem T) :
    (invertBit C a place).run m = (.ok (), Function.update m a (m a ^^^ C.mask T place)) :=
  rfl

lemma load_run (a : Nat) (m : Mem T) : (load a : Prog T _).run m = (.ok (m a), m) := by
  simp [load, Access.addr]

lemma store_run (a : Nat) (v : BitVec T.BITS) (m : Mem T) :
    (store a v).run m = (.ok (), Function.update m a v) := rfl

/-- **The two writes agree.** On every element, the alias-safe `BitAccess::set` leaves the
value the plain `BitStore::set` computes, and nothing else changes; after it, both `get`s read
`value` at `place` and the old bit at every other place; and `invert_bit` flips `place`
alone. -/
theorem set_get_invert (a : Nat) (place q : Fin T.BITS) (value : Bool) (m : Mem T) :
    (set C a place value).run m =
      (.ok (), Function.update m a (BitStore.set C (m a) place value)) ∧
    BitStore.get C (BitStore.set C (m a) place value) q =
      (if q = place then value else BitStore.get C (m a) q) ∧
    (do set C a place value; get C a q).run m =
      (.ok (if q = place then value else BitStore.get C (m a) q),
        Function.update m a (BitStore.set C (m a) place value)) ∧
    (do invertBit C a place; get C a q).run m =
      (.ok (if q = place then !BitStore.get C (m a) q else BitStore.get C (m a) q),
        Function.update m a (m a ^^^ C.mask T place)) := by
  have hget := BitStore.get_set (C := C) (m a) place.2 q.2 value
  simp only [Fin.val_inj] at hget
  refine ⟨set_run a value m, hget, ?_, ?_⟩
  · rw [Prog.run_bind_ok (set_run a value m), get_run a q.2, Function.update_same,
      ← BitStore.get_eq _ q.2, hget]
  · rw [Prog.run_bind_ok (invertBit_run a m), get_run a q.2, Function.update_same,
      ← BitStore.get_eq _ q.2, BitStore.get_xor_mask _ place.2 q.2]
    simp only [Fin.val_inj]

variable {S : Nat → Nat → Prop} {a : Nat}

lemma get_confined (hp : place < T.BITS) (h : S a (C.pos T place)) :
    (get C a place : Prog T Bool).Confined S :=
  .access (fun _ _ _ _ => rfl) (fun v w hvw => by
    show Prog.ret (BitStore.get C v place) = Prog.ret (BitStore.get C w place)
    rw [BitStore.get_eq v hp, BitStore.get_eq w hp, hvw _ h]) fun _ => .ret _

lemma set_confined (hp : place < T.BITS) (h : S a (C.pos T place)) (value : Bool) :
    (set C a place value : Prog T Unit).Confined S := by
  have hq : ∀ q, ¬ S a q → C.pos T place ≠ q := fun q hq he => hq (he ▸ h)
  cases value
  · exact .access (fun q hw hn b => by simp [Access.applyBit, hp, hw, hq q hn])
      (fun _ _ _ => rfl) fun _ => .ret _
  · exact .access (fun q _ hn b => by simp [Access.applyBit, hp, hq q hn])
      (fun _ _ _ => rfl) fun _ => .ret _

lemma invertBit_confined (hp : place < T.BITS) (h : S a (C.pos T place)) :
    (invertBit C a place : Prog T Unit).Confined S :=
  .access (fun q _ hn b => by
      have hq : C.pos T place ≠ q := fun he => hn (he ▸ h)
      simp [Access.applyBit, hp, hq]) (fun _ _ _ => rfl) fun _ => .ret _

lemma load_confined (h : ∀ q < T.BITS, S a q) : (load a : Prog T _).Confined S :=
  .access (fun _ _ _ _ => rfl)
    (fun _ _ hvw => congrArg Prog.ret (BitVec.eq_of_getLsbD_eq fun q => hvw q (h q q.2)))
    fun _ => .ret _

lemma store_confined (h : ∀ q < T.BITS, S a q) (v : BitVec T.BITS) :
    (store a v).Confined S :=
  .access (fun q hq hn => absurd (h q hq) hn) (fun _ _ _ => rfl) fun _ => .ret _

end BitAccess

end BitvecProofs
