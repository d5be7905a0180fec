-- SUMMARY: Finite sets of indices packed into 64-bit words that grow on demand.

/-!
# Bitsets

A `Bitset` holds index `i` as bit `i % 64` of word `i / 64`. Words are added when
an index past the last one is inserted, so one set has many layouts: they differ
in trailing zero words. `contains` is the view through which every operation is
described, and equality ignores the layout.
-/

namespace RuleIndex

/-- A finite set of indices, packed into words of 64 bits. -/
structure Bitset where
  words : List (BitVec 64)
  deriving Repr

namespace Bitset

/-- The empty set, without any word. -/
def empty : Bitset := ⟨[]⟩

/-- The empty set with room for the indices below `bits`. -/
def withCapacity (bits : Nat) : Bitset :=
  ⟨List.replicate ((bits + 63) / 64) 0#64⟩

/-- Set one bit of one word, adding zero words up to that word if they are missing. -/
def setBit : List (BitVec 64) → Nat → Nat → List (BitVec 64)
  | [], 0, bit => [BitVec.twoPow 64 bit]
  | [], word + 1, bit => 0#64 :: setBit [] word bit
  | w :: ws, 0, bit => (w ||| BitVec.twoPow 64 bit) :: ws
  | w :: ws, word + 1, bit => w :: setBit ws word bit

/-- The set with one more index. -/
def insert (s : Bitset) (i : Nat) : Bitset :=
  ⟨setBit s.words (i / 64) (i % 64)⟩

/-- Insert the index that a code stands for. A negative code stands for none. -/
def insertCode (s : Bitset) (code : Int) : Bitset :=
  match code.toNat? with
  | some i => s.insert i
  | none => s

/-- The set of the codes of a list, with room for the indices below `bits`. -/
def ofCodes (bits : Nat) (codes : List Int) : Bitset :=
  codes.foldl insertCode (withCapacity bits)


/-! ## Questions -/

/-- One bit of one word; a missing word has no bit set. -/
def bitAt (words : List (BitVec 64)) (word bit : Nat) : Bool :=
  (words.getD word 0#64).getLsbD bit

def contains (s : Bitset) (i : Nat) : Bool :=
  bitAt s.words (i / 64) (i % 64)

/-- Membership of a code. A negative code is in no set. -/
def containsCode (s : Bitset) (code : Int) : Bool :=
  match code.toNat? with
  | some i => s.contains i
  | none => false

def isEmpty (s : Bitset) : Bool :=
  s.words.all (· == 0#64)

/-- The set bits of one word, in ascending order. -/
def wordBits (w : BitVec 64) : List Nat :=
  (List.range 64).filter fun bit => w.getLsbD bit

/-- The number of indices: the set bits, counted word by word. -/
def size (s : Bitset) : Nat :=
  s.words.foldl (fun n w => n + (List.range 64).countP fun bit => w.getLsbD bit) 0

/-- The indices held by words whose first bit stands for index `base`. -/
def indicesFrom (base : Nat) : List (BitVec 64) → List Nat
  | [] => []
  | w :: ws => (wordBits w).map (base + ·) ++ indicesFrom (base + 64) ws

/-- The indices in ascending order. -/
def toList (s : Bitset) : List Nat :=
  indicesFrom 0 s.words

/-- Word-wise equality, in which a missing word counts as zero. -/
def sameBits : List (BitVec 64) → List (BitVec 64) → Bool
  | [], vs => vs.all (· == 0#64)
  | ws, [] => ws.all (· == 0#64)
  | w :: ws, v :: vs => w == v && sameBits ws vs

instance : BEq Bitset := ⟨fun s t => sameBits s.words t.words⟩


/-! ## Membership after each operation -/

theorem bitAt_setBit {words : List (BitVec 64)} {word bit word' bit' : Nat}
    (hbit : bit < 64) :
    bitAt (setBit words word bit) word' bit' =
      (decide (word' = word ∧ bit' = bit) || bitAt words word' bit') := by
  induction words, word, bit using setBit.induct generalizing word' with
  | case1 bit =>
    cases word' with
    | zero => simp [setBit, bitAt, BitVec.getLsbD_twoPow]; grind
    | succ _ => simp [setBit, bitAt]
  | case2 word bit ih =>
    cases word' with
    | zero => simp [setBit, bitAt]
    | succ n => simpa [setBit, bitAt] using @ih n hbit
  | case3 bit w ws =>
    cases word' with
    | zero => simp [setBit, bitAt, BitVec.getLsbD_twoPow]; grind
    | succ _ => simp [setBit, bitAt]
  | case4 w ws word bit ih =>
    cases word' with
    | zero => simp [setBit, bitAt]
    | succ n => simpa [setBit, bitAt] using @ih n hbit

@[simp] theorem contains_empty (i : Nat) : empty.contains i = false := by
  simp [contains, empty, bitAt]

@[simp] theorem contains_withCapacity (bits i : Nat) : (withCapacity bits).contains i = false := by
  simp only [contains, withCapacity, bitAt, List.getD_eq_getElem?_getD, List.getElem?_replicate]
  split <;> simp

@[simp] theorem contains_insert (s : Bitset) (i j : Nat) :
    (s.insert i).contains j = (decide (j = i) || s.contains j) := by
  have hsplit : (j / 64 = i / 64 ∧ j % 64 = i % 64) ↔ j = i := by omega
  simp [contains, insert, bitAt_setBit (Nat.mod_lt i (by decide)), hsplit]

theorem containsCode_iff {s : Bitset} {code : Int} :
    s.containsCode code = true ↔ ∃ i : Nat, s.contains i = true ∧ (i : Int) = code := by
  cases code with
  | ofNat n =>
    simp only [containsCode, Int.toNat?, Int.ofNat_eq_natCast, Int.natCast_inj, exists_eq_right]
  | negSucc n => simp [containsCode, Int.toNat?]

@[simp] theorem contains_insertCode (s : Bitset) (code : Int) (i : Nat) :
    (s.insertCode code).contains i = (decide ((i : Int) = code) || s.contains i) := by
  cases code with
  | ofNat n =>
    simp only [insertCode, Int.toNat?, Int.ofNat_eq_natCast, Int.natCast_inj, contains_insert]
  | negSucc n => simp [insertCode, Int.toNat?]

theorem contains_foldl_insertCode (codes : List Int) (s : Bitset) (i : Nat) :
    (codes.foldl insertCode s).contains i = true ↔ (i : Int) ∈ codes ∨ s.contains i = true := by
  induction codes generalizing s with
  | nil => simp
  | cons code codes ih => simp [ih, or_left_comm, or_assoc]

@[simp] theorem contains_ofCodes {bits : Nat} {codes : List Int} {i : Nat} :
    (ofCodes bits codes).contains i = true ↔ (i : Int) ∈ codes := by
  simp [ofCodes, contains_foldl_insertCode]


/-! ## The list of indices -/

theorem mem_wordBits {w : BitVec 64} {bit : Nat} : bit ∈ wordBits w ↔ w.getLsbD bit = true := by
  simp only [wordBits, List.mem_filter, List.mem_range, and_iff_right_iff_imp]
  exact BitVec.lt_of_getLsbD

/-- The indices listed from `base` on are those of the set bits, counted from `base`. -/
theorem mem_indicesFrom {base : Nat} {words : List (BitVec 64)} {i : Nat} :
    i ∈ indicesFrom base words ↔ ∃ j, i = base + j ∧ bitAt words (j / 64) (j % 64) = true := by
  induction words generalizing base with
  | nil => simp [indicesFrom, bitAt]
  | cons w ws ih =>
    simp only [indicesFrom, List.mem_append, List.mem_map, mem_wordBits, ih]
    constructor
    · rintro (⟨bit, hbit, rfl⟩ | ⟨j, rfl, hj⟩)
      · have hlt := BitVec.lt_of_getLsbD hbit
        refine ⟨bit, rfl, ?_⟩
        simpa [bitAt, Nat.div_eq_of_lt hlt, Nat.mod_eq_of_lt hlt] using hbit
      · refine ⟨64 + j, by omega, ?_⟩
        have hdiv : (64 + j) / 64 = j / 64 + 1 := by omega
        have hmod : (64 + j) % 64 = j % 64 := by omega
        simpa [bitAt, hdiv, hmod] using hj
    · rintro ⟨j, rfl, hj⟩
      by_cases hlt : j < 64
      · refine .inl ⟨j, ?_, rfl⟩
        simpa [bitAt, Nat.div_eq_of_lt hlt, Nat.mod_eq_of_lt hlt] using hj
      · refine .inr ⟨j - 64, by omega, ?_⟩
        have hdiv : j / 64 = (j - 64) / 64 + 1 := by omega
        have hmod : j % 64 = (j - 64) % 64 := by omega
        simpa [bitAt, hdiv, hmod] using hj

@[simp] theorem mem_toList {s : Bitset} {i : Nat} : i ∈ s.toList ↔ s.contains i = true := by
  simp [toList, mem_indicesFrom, contains]

theorem pairwise_indicesFrom (base : Nat) (words : List (BitVec 64)) :
    (indicesFrom base words).Pairwise (· < ·) := by
  induction words generalizing base with
  | nil => exact List.Pairwise.nil
  | cons w ws ih =>
    refine List.pairwise_append.2 ⟨?_, ih (base + 64), ?_⟩
    · have hbits : (wordBits w).Pairwise (· < ·) := List.pairwise_lt_range.filter _
      exact List.pairwise_map.2 (hbits.imp fun h => Nat.add_lt_add_left h base)
    · -- The next word begins where this one ends.
      intro i hi j hj
      obtain ⟨bit, hbit, rfl⟩ := List.mem_map.1 hi
      obtain ⟨k, rfl, _⟩ := mem_indicesFrom.1 hj
      have hlt := BitVec.lt_of_getLsbD (mem_wordBits.1 hbit)
      omega

theorem pairwise_toList (s : Bitset) : s.toList.Pairwise (· < ·) :=
  pairwise_indicesFrom 0 s.words


/-- Counting bits counts the indices that are listed, from whichever one the list starts. -/
theorem foldl_countP_eq (words : List (BitVec 64)) (n base : Nat) :
    words.foldl (fun n w => n + (List.range 64).countP fun bit => w.getLsbD bit) n =
      n + (indicesFrom base words).length := by
  induction words generalizing n base with
  | nil => rfl
  | cons w ws ih =>
    rw [List.foldl_cons, ih _ (base + 64), indicesFrom, List.length_append, List.length_map,
      wordBits, List.countP_eq_length_filter, Nat.add_assoc]

theorem size_eq_length_toList (s : Bitset) : s.size = s.toList.length := by
  rw [size, foldl_countP_eq s.words 0 0, Nat.zero_add, toList]


/-! ## Equality -/

theorem all_zero_iff {words : List (BitVec 64)} :
    words.all (· == 0#64) = true ↔ ∀ word, words.getD word 0#64 = 0#64 := by
  induction words with
  | nil => simp
  | cons w ws ih =>
    rw [List.all_cons, Bool.and_eq_true, ih, beq_iff_eq]
    constructor
    · rintro ⟨hw, hws⟩ word
      cases word with
      | zero => exact hw
      | succ word => exact hws word
    · intro h
      exact ⟨h 0, fun word => h (word + 1)⟩

theorem sameBits_iff {ws vs : List (BitVec 64)} :
    sameBits ws vs = true ↔ ∀ word, ws.getD word 0#64 = vs.getD word 0#64 := by
  induction ws, vs using sameBits.induct with
  | case1 vs =>
    rw [sameBits, all_zero_iff]
    exact forall_congr' fun word => eq_comm
  | case2 ws hws =>
    have hsame : sameBits ws [] = ws.all (· == 0#64) := by
      cases ws <;> rfl
    rw [hsame, all_zero_iff]
    rfl
  | case3 w ws v vs ih =>
    rw [sameBits, Bool.and_eq_true, ih, beq_iff_eq]
    constructor
    · rintro ⟨hw, hws⟩ word
      cases word with
      | zero => exact hw
      | succ word => exact hws word
    · intro h
      exact ⟨h 0, fun word => h (word + 1)⟩

/-- Sets are equal if they have the same indices, whatever their layouts. -/
theorem beq_iff {s t : Bitset} : (s == t) = true ↔ ∀ i, s.contains i = t.contains i := by
  refine sameBits_iff.trans ⟨fun h i => ?_, fun h word => ?_⟩
  · rw [contains, contains, bitAt, bitAt, h]
  · refine BitVec.eq_of_getLsbD_eq fun bit hbit => ?_
    have hdiv : (64 * word + bit) / 64 = word := by omega
    have hmod : (64 * word + bit) % 64 = bit := by omega
    simpa [contains, bitAt, hdiv, hmod] using h (64 * word + bit)

theorem isEmpty_iff {s : Bitset} : s.isEmpty = true ↔ ∀ i, s.contains i = false := by
  have hempty : s.isEmpty = (empty == s) := rfl
  simp only [hempty, beq_iff, contains_empty, Bool.false_eq]

end Bitset
end RuleIndex
