import BitvecProofs.Access

/-!
The decoded bit pointer of a slice, and the domain decomposition of its bits.

A slice is the run of `len` bits that starts at place `head` of the element at `addr`: bit
`i` lives at place `(head + i) % BITS` of the element `addr + (head + i) / BITS`. The domain
sorts the elements the run touches into partially owned edges, which other slices may
share, and the fully owned body. `places_domain` is the correctness of the decomposition:
the places a domain names, read in order, are exactly those of the slice's bits
`0, 1, …, len - 1`, so no bit is counted twice or left out.
-/

namespace BitvecProofs

variable {T : BitStore}

/-- Modelled from the spec: `BitIdx::offset` (`indices.rs` is not among the sources). Moves
the in-element index `head` by `delta` bits, giving the displacement in elements and the
new index; a negative `delta` steps backwards. -/
def offset (head : Fin T.BITS) (delta : Int) : Int × Fin T.BITS :=
  let far := (head.val : Int) + delta
  (far / T.BITS, ⟨(far % T.BITS).toNat, by
    have hW : (0 : Int) < T.BITS := by exact_mod_cast T.BITS_pos
    have h0 := Int.emod_nonneg far (Int.ne_of_gt hW)
    have h1 := Int.emod_lt_of_pos far hW
    omega⟩)

lemma offset_natCast (head : Fin T.BITS) (i : Nat) :
    offset head i =
      ((((head + i) / T.BITS : Nat) : Int),
        ⟨(head + i) % T.BITS, Nat.mod_lt _ T.BITS_pos⟩) := by
  simp only [offset, Prod.mk.injEq, Fin.mk.injEq]
  constructor
  · push_cast; rfl
  · rw [← Int.ofNat_add, ← Int.ofNat_emod, Int.toNat_ofNat]

/-- Modelled from the spec: the decoded `BitPtr<T>` of a slice (`pointer.rs` is not among
the sources): the address of the first element, the index of the first bit in it, and the
number of bits. -/
structure BitPtr (T : BitStore) where
  addr : Nat
  head : Fin T.BITS
  len : Nat
  deriving DecidableEq, Repr

/-- Modelled from the spec: the shapes a slice's elements can take (`domain.rs` is not among
the sources). Edge elements are named with the places the slice covers in them; the body is
the list of the addresses of the fully owned elements. -/
inductive BitDomain
  | Empty
  | Minor (head : Nat) (elt : Nat) (tail : Nat)
  | Major (h : Nat) (head : Nat) (body : List Nat) (tail : Nat) (t : Nat)
  | PartialHead (h : Nat) (head : Nat) (body : List Nat)
  | PartialTail (body : List Nat) (tail : Nat) (t : Nat)
  | Spanning (body : List Nat)
  deriving DecidableEq, Repr

namespace BitDomain

def isSpanning : BitDomain → Bool
  | Spanning _ => true
  | _ => false

/-- The body: the elements the slice owns outright. -/
def body : BitDomain → List Nat
  | Major _ _ body _ _ | PartialHead _ _ body | PartialTail body _ _ | Spanning body => body
  | Empty | Minor _ _ _ => []

/-- All places of the elements of a body, element by element. -/
def bodyPlaces (T : BitStore) (body : List Nat) : List (Nat × Nat) :=
  body.flatMap fun e => (List.range T.BITS).map ((e, ·))

/-- The (element, place) pairs the domain names, in the order of the slice's bits. -/
def places (T : BitStore) : BitDomain → List (Nat × Nat)
  | Empty => []
  | Minor head elt tail => (List.range' head (tail - head)).map ((elt, ·))
  | Major h head body tail t =>
    (List.range' h (T.BITS - h)).map ((head, ·)) ++ bodyPlaces T body ++
      (List.range t).map ((tail, ·))
  | PartialHead h head body => (List.range' h (T.BITS - h)).map ((head, ·)) ++ bodyPlaces T body
  | PartialTail body tail t => bodyPlaces T body ++ (List.range t).map ((tail, ·))
  | Spanning body => bodyPlaces T body

lemma mem_bodyPlaces {body : List Nat} {a n : Nat} :
    (a, n) ∈ bodyPlaces T body ↔ a ∈ body ∧ n < T.BITS := by
  simp only [bodyPlaces, List.mem_flatMap, List.mem_map, List.mem_range, Prod.mk.injEq]
  constructor
  · rintro ⟨e, he, r, hr, rfl, rfl⟩
    exact ⟨he, hr⟩
  · rintro ⟨ha, hn⟩
    exact ⟨a, ha, n, hn, rfl, rfl⟩

@[simp] lemma bodyPlaces_nil : bodyPlaces T [] = [] := rfl

lemma bodyPlaces_cons (e : Nat) (body : List Nat) :
    bodyPlaces T (e :: body) = (List.range T.BITS).map ((e, ·)) ++ bodyPlaces T body :=
  List.flatMap_cons _ _ _

end BitDomain

namespace BitPtr

/-- Modelled from the spec: `BitPtr::empty`, the empty slice (its address is dangling). -/
def empty : BitPtr T := ⟨0, ⟨0, T.BITS_pos⟩, 0⟩

/-- Modelled from the spec: `BitPtr::elements`, `⌈(head + len) / BITS⌉`. -/
def elements (p : BitPtr T) : Nat := (p.head + p.len + T.BITS - 1) / T.BITS

/-- Modelled from the spec: `BitPtr::tail`, one past the place of the last bit in the last
element, in `[1, BITS]`. -/
def tail (p : BitPtr T) : Nat := (p.head + p.len + T.BITS - 1) % T.BITS + 1

/-- Modelled from the spec: `BitPtr::domain`, the tightest of the six shapes. A slice of
whole elements is `Spanning`, one whole element included: the doc test of `at` reads
`as_slice()[0]` of the bits of one `u8`, and the shifts take their fast path on it. Any other
slice inside one element is `Minor`; otherwise the shape says which of its edges is partial. -/
def domain (p : BitPtr T) : BitDomain :=
  let h := p.head.val
  let t := p.tail
  let e := p.elements
  if p.len = 0 then .Empty
  else if h = 0 ∧ t = T.BITS then .Spanning (List.range' p.addr e)
  else if e = 1 then .Minor h p.addr t
  else if t = T.BITS then .PartialHead h p.addr (List.range' (p.addr + 1) (e - 1))
  else if h = 0 then .PartialTail (List.range' p.addr (e - 1)) (p.addr + e - 1) t
  else .Major h p.addr (List.range' (p.addr + 1) (e - 2)) (p.addr + e - 1) t

/-- The element holding bit `i`. -/
def elt (p : BitPtr T) (i : Nat) : Nat := p.addr + (p.head + i) / T.BITS

/-- The place of bit `i` in its element. -/
def place (p : BitPtr T) (i : Nat) : Nat := (p.head + i) % T.BITS

/-- The slice owns electrical position `q` of the element at `a`. -/
def Owns (C : Cursor) (p : BitPtr T) (a q : Nat) : Prop :=
  ∃ i < p.len, p.elt i = a ∧ C.pos T (p.place i) = q

instance (C : Cursor) (p : BitPtr T) (a q : Nat) : Decidable (p.Owns C a q) :=
  inferInstanceAs (Decidable (∃ i < p.len, p.elt i = a ∧ C.pos T (p.place i) = q))

/-- Bit `i` of the slice in memory `m`. -/
def bit (C : Cursor) (p : BitPtr T) (m : Mem T) (i : Nat) : Bool :=
  (m (p.elt i)).getLsbD (C.pos T (p.place i))

/-- The slice's bits in memory `m`, in index order. -/
def bits (C : Cursor) (p : BitPtr T) (m : Mem T) : List Bool :=
  (List.range p.len).map (p.bit C m)

variable (p : BitPtr T)

lemma place_lt (i : Nat) : p.place i < T.BITS := Nat.mod_lt _ T.BITS_pos

/-- Distinct bits of a slice live at distinct places. -/
lemma eq_of_elt_place {i j : Nat} (he : p.elt i = p.elt j) (hp : p.place i = p.place j) :
    i = j := by
  have hd : (p.head + i) / T.BITS = (p.head + j) / T.BITS := by
    simp only [elt] at he; omega
  have := Nat.div_add_mod (p.head + i) T.BITS
  have := Nat.div_add_mod (p.head + j) T.BITS
  simp only [place] at hp
  rw [hd, hp] at *
  omega

@[simp] lemma length_bits (C : Cursor) (m : Mem T) : (p.bits C m).length = p.len := by
  simp [bits]

/-! ### The decomposition is exact -/

/-- Element and place of the bit at absolute offset `j` from the start of element `a`. -/
def absLoc (T : BitStore) (a j : Nat) : Nat × Nat := (a + j / T.BITS, j % T.BITS)

lemma map_loc_eq : (List.range p.len).map (fun i => (p.elt i, p.place i)) =
    (List.range' p.head p.len).map (absLoc T p.addr) := by
  simp [List.range'_eq_map_range, Function.comp_def, absLoc, elt, place]

/-- Offsets inside one element name places of that element. -/
lemma map_absLoc_edge (a k s n : Nat) (h : s + n ≤ T.BITS) :
    (List.range' (T.BITS * k + s) n).map (absLoc T a) = (List.range' s n).map ((a + k, ·)) := by
  rw [List.range'_eq_map_range, List.range'_eq_map_range, List.map_map, List.map_map]
  refine List.map_congr_left fun r hr => ?_
  have hr : s + r < T.BITS := by simp at hr; omega
  simp only [Function.comp_apply, absLoc, Prod.mk.injEq]
  rw [Nat.add_assoc, Nat.mul_add_div T.BITS_pos, Nat.div_eq_of_lt hr, Nat.mul_add_mod,
    Nat.mod_eq_of_lt hr]
  exact ⟨rfl, rfl⟩

/-- Whole elements name all their places. -/
lemma map_absLoc_body (a k c : Nat) :
    (List.range' (T.BITS * k) (T.BITS * c)).map (absLoc T a) =
      BitDomain.bodyPlaces T (List.range' (a + k) c) := by
  induction c generalizing k with
  | zero => simp
  | succ c ih =>
    have hedge := @map_absLoc_edge T a k 0 T.BITS (by omega)
    rw [Nat.add_zero, ← List.range_eq_range'] at hedge
    have hk : T.BITS * k + 1 * T.BITS = T.BITS * (k + 1) := by
      rw [Nat.one_mul, Nat.mul_add, Nat.mul_one]
    rw [Nat.mul_add, Nat.mul_one, ← List.range'_append, List.map_append, hk, ih, hedge,
      List.range'_succ, BitDomain.bodyPlaces_cons, Nat.add_assoc]

/-- A nonempty slice fills `k` whole elements past its first and ends at `tail`. -/
lemma head_add_len (h : 0 < p.len) :
    ∃ k, p.elements = k + 1 ∧ p.head + p.len = T.BITS * k + p.tail := by
  have hW := T.BITS_pos
  have hd := Nat.div_add_mod (p.head + p.len + T.BITS - 1) T.BITS
  have hE : 1 ≤ p.elements := (Nat.le_div_iff_mul_le hW).2 (by omega)
  refine ⟨p.elements - 1, by omega, ?_⟩
  simp only [elements, tail] at *
  rw [Nat.mul_sub_one]
  have : T.BITS ≤ T.BITS * ((p.head + p.len + T.BITS - 1) / T.BITS) :=
    Nat.le_mul_of_pos_right _ hE
  omega

lemma tail_le : p.tail ≤ T.BITS := Nat.mod_lt _ T.BITS_pos

lemma tail_pos : 0 < p.tail := Nat.succ_pos _

/-- **Exact decomposition.** The places the domain names are, in order, the places of the
slice's bits `0, 1, …, len - 1`. -/
theorem places_domain :
    p.domain.places T = (List.range p.len).map fun i => (p.elt i, p.place i) := by
  rw [map_loc_eq]
  by_cases h0 : p.len = 0
  · simp [domain, BitDomain.places, h0]
  obtain ⟨k, hE, hl⟩ := p.head_add_len (Nat.pos_of_ne_zero h0)
  have hh := p.head.2
  have ht := p.tail_le
  have ht0 := p.tail_pos
  have hedge := fun s n h => @map_absLoc_edge T p.addr 0 s n h
  have hedge' := @map_absLoc_edge T p.addr k 0 p.tail (by omega)
  have hbody0 := @map_absLoc_body T p.addr 0
  have hbody1 := @map_absLoc_body T p.addr 1
  simp only [Nat.mul_zero, Nat.zero_add, Nat.add_zero, Nat.mul_one] at hedge hedge' hbody0 hbody1
  simp only [domain, h0, hE, if_false]
  by_cases h2 : (p.head : Nat) = 0 ∧ p.tail = T.BITS
  · -- `Spanning`: whole elements only
    have hlen : p.len = T.BITS * (k + 1) := by rw [Nat.mul_succ]; rw [h2.1, h2.2] at hl; omega
    rw [if_pos h2, h2.1, hlen, hbody0]
    rfl
  rw [if_neg h2]
  by_cases h1 : k + 1 = 1
  · -- `Minor`: inside one element
    obtain rfl : k = 0 := by omega
    rw [if_pos h1, BitDomain.places, show p.tail - p.head = p.len by simp at hl; omega,
      hedge _ _ (by omega)]
  rw [if_neg h1]
  by_cases h3 : p.tail = T.BITS
  · -- `PartialHead`
    rw [if_pos h3, show p.len = T.BITS * k + (T.BITS - p.head) by omega,
      ← List.range'_append_1, List.map_append,
      show (p.head : Nat) + (T.BITS - p.head) = T.BITS by omega, hbody1, hedge _ _ (by omega)]
    simp [BitDomain.places]
  rw [if_neg h3]
  by_cases h4 : (p.head : Nat) = 0
  · -- `PartialTail`
    rw [if_pos h4, BitDomain.places, h4, show p.len = p.tail + T.BITS * k by rw [h4] at hl; omega,
      ← List.range'_append_1, List.map_append, hbody0, Nat.zero_add, hedge',
      List.range_eq_range', show p.addr + (k + 1) - 1 = p.addr + k by omega, Nat.add_sub_cancel]
  -- `Major`: both edges partial
  have hk : 0 < k := by omega
  have hkW : T.BITS * k = T.BITS + T.BITS * (k - 1) := by
    rw [Nat.mul_sub_one]; have := Nat.le_mul_of_pos_right T.BITS hk; omega
  rw [if_neg h4, BitDomain.places,
    show p.len = p.tail + (T.BITS * (k - 1) + (T.BITS - p.head)) by omega,
    ← List.range'_append_1, ← List.range'_append_1, List.map_append, List.map_append,
    show (p.head : Nat) + (T.BITS * (k - 1) + (T.BITS - p.head)) = T.BITS * k by omega,
    show (p.head : Nat) + (T.BITS - p.head) = T.BITS by omega, hbody1, hedge _ _ (by omega),
    hedge', List.range_eq_range', show p.addr + (k + 1) - 1 = p.addr + k by omega,
    show k + 1 - 2 = k - 1 by omega]

/-- A pointer is determined by its length and the element and place of its bit `0`. -/
lemma ext_of_elt_place {q : BitPtr T} (he : p.elt 0 = q.elt 0) (hp : p.place 0 = q.place 0)
    (hl : p.len = q.len) : p = q := by
  have hph := p.head.2
  have hqh := q.head.2
  simp only [elt, place, Nat.add_zero, Nat.div_eq_of_lt hph, Nat.div_eq_of_lt hqh,
    Nat.mod_eq_of_lt hph, Nat.mod_eq_of_lt hqh] at he hp
  cases p; cases q
  simp_all [Fin.ext_iff]

/-- A slice that starts on an element boundary and covers `k` whole elements has `k`
elements, and its domain is those elements, `Spanning`, unless there are none. -/
lemma domain_of_whole (hh : (p.head : Nat) = 0) {k : Nat} (hl : p.len = k * T.BITS) :
    p.elements = k ∧ p.domain = if k = 0 then .Empty else .Spanning (List.range' p.addr k) := by
  have hW := T.BITS_pos
  have hsplit : k * T.BITS + T.BITS - 1 = T.BITS * k + (T.BITS - 1) := by
    rw [Nat.mul_comm]; omega
  have he : p.elements = k := by
    rw [elements, hh, hl, Nat.zero_add, hsplit, Nat.mul_add_div hW,
      Nat.div_eq_of_lt (by omega), Nat.add_zero]
  have ht : p.tail = T.BITS := by
    rw [tail, hh, hl, Nat.zero_add, hsplit, Nat.mul_add_mod,
      Nat.mod_eq_of_lt (by omega), Nat.sub_add_cancel hW]
  refine ⟨he, ?_⟩
  by_cases hk : k = 0
  · simp [domain, hl, hk]
  · have h0 : p.len ≠ 0 := by rw [hl]; exact Nat.mul_ne_zero hk (by omega)
    simp only [domain, if_neg hk, if_neg h0, if_pos (And.intro hh ht), he]

/-- Bit `i` of a slice that starts on an element boundary is place `i % BITS` of element
`i / BITS`. -/
lemma bit_whole (C : Cursor) (hh : (p.head : Nat) = 0) (m : Mem T) (i : Nat) :
    p.bit C m i = (m (p.addr + i / T.BITS)).getLsbD (C.pos T (i % T.BITS)) := by
  simp only [bit, elt, place, hh, Nat.zero_add]

lemma mem_places_domain {a n : Nat} :
    (a, n) ∈ p.domain.places T ↔ ∃ i < p.len, p.elt i = a ∧ p.place i = n := by
  simp [places_domain]

/-- Every place the domain names is a place of a bit the slice owns. -/
lemma owns_of_mem_places (C : Cursor) {a n : Nat} (h : (a, n) ∈ p.domain.places T) :
    p.Owns C a (C.pos T n) := by
  obtain ⟨i, hi, rfl, rfl⟩ := p.mem_places_domain.1 h
  exact ⟨i, hi, rfl, rfl⟩

lemma nodup_places_domain : (p.domain.places T).Nodup := by
  rw [places_domain]
  exact List.Pairwise.map _ (fun i j hij h =>
    hij (p.eq_of_elt_place (Prod.mk.inj h).1 (Prod.mk.inj h).2)) (List.nodup_range p.len)

end BitPtr

end BitvecProofs
