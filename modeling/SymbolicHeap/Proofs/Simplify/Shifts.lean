import Mathlib.Data.Int.ModEq
import Mathlib.Data.List.Induction
import SymbolicHeap.Proofs.Simplify.Offset

/-!
Contract: when constants that are added to a term and taken from it leave one
form.

However many constants are added and taken, the result is the term with one
offset, and the offset is right modulo the width of the sort. It is collected in
64 bits, though, and its sign is read before it is cut to the width: for 64 bits
nothing is cut, while a 32-bit offset that leaves the signed range of its width
ends in a node that another sequence with the same total does not end in.

Owns:
- shifts of a term, their total, and the form that the total has;
- the offset that a sequence of shifts is collected to;
- the form of a sequence is that of its total exactly if the offset fits;
- two 32-bit sequences that miss it.
-/

namespace SymbolicHeap

/-! ## Shifts -/

/-- On which side of the term a constant is added, or that it is taken. -/
inductive Shift.Way where
  | plus
  | onto
  | minus
deriving DecidableEq

/-- A constant of a sort that is added to a term or taken from it. -/
structure Shift (sort : ValueSort) where
  way : Shift.Way
  value : Constant
  ofSort : value.sort = sort

namespace Shift

variable {sort : ValueSort}

def apply (term : Term) (shift : Shift sort) : Term :=
  match shift.way with
  | .plus => term.add (.const shift.value)
  | .onto => (Term.const shift.value).add term
  | .minus => term.sub (.const shift.value)

def amount (shift : Shift sort) : Int :=
  match shift.way with
  | .plus | .onto => shift.value.payload
  | .minus => -shift.value.payload

/-- What a sequence adds in all, in unbounded integers. -/
def total (shifts : List (Shift sort)) : Int := (shifts.map amount).sum

def applyAll (term : Term) (shifts : List (Shift sort)) : Term := shifts.foldl apply term

end Shift

namespace ValueSort

/-- The integers of the sort. -/
def InRange (sort : ValueSort) (number : Int) : Prop :=
  -2 ^ (sort.bitLength - 1) ≤ number ∧ number < 2 ^ (sort.bitLength - 1)

/-- What the constant of a sort keeps of a number. -/
def narrowed (number : Int64) : ValueSort → Int64
  | .i32 => number.toInt32.toInt64
  | _ => number

/-- An offset as it is read back from the node that is built for it. -/
def readBack (sort : ValueSort) (offset : Int64) : Int64 :=
  if 0 < offset then sort.narrowed offset else -sort.narrowed (-offset)

end ValueSort

/-- The form of a term that is moved by a number: the number is taken into the
range of the sort first. -/
def Term.movedBy (term : Term) (number : Int) : Term :=
  .withOffset (some term) (Int64.ofInt (number.bmod (2 ^ term.sort.bitLength))) term.sort

/-- Neither a constant nor a sum or difference with a constant on the right. -/
structure Term.Unshifted (term : Term) : Prop where
  isOpen : term.isConstant = false
  plain : ∀ operator base value, term = .binary operator base (.const value) →
    operator ≠ .add ∧ operator ≠ .sub

/-! ## One shift -/

private theorem Term.folded?_of_isOpen (operation : Constant → Constant → Constant) {term : Term}
    (isOpen : term.isConstant = false) (value : Constant) :
    folded? operation term (.const value) = none ∧
      folded? operation (.const value) term = none := by
  cases term <;> simp only [isConstant, Bool.true_eq_false] at isOpen <;> exact ⟨rfl, rfl⟩

namespace Shift

variable {sort : ValueSort}

private theorem asInt?_value (isInteger : sort.isInteger = true) (shift : Shift sort) :
    shift.value.asInt? = some (Int64.ofInt shift.value.payload) := by
  obtain ⟨way, value, rfl⟩ := shift
  cases value <;> simp only [Constant.sort, ValueSort.isInteger, Bool.false_eq_true] at isInteger
  case i32 number =>
    have low := number.le_toInt
    have high := number.toInt_lt
    simp only [Constant.asInt?, Constant.payload, Option.some.injEq]
    rw [← Int64.toInt_inj, Int32.toInt_toInt64, Int64.toInt_ofInt, Int.bmod_eq_of_le] <;>
      simp only [Int64.size] <;> omega
  case i64 number => simp only [Constant.asInt?, Constant.payload, Int64.ofInt_toInt]

/-- A shift adds its amount to the offset of a term. -/
private theorem apply_eq (isInteger : sort.isInteger = true) (shift : Shift sort) {term base : Term}
    {offset : Int64}
    (isOpen : term.isConstant = false)
    (termSort : term.sort = sort)
    (parts : term.offsetParts = (some base, offset)) :
    shift.apply term =
      .withOffset (some base) (offset + Int64.ofInt shift.amount) sort := by
  have known := asInt?_value isInteger shift
  have valueParts : (Term.const shift.value).offsetParts =
      (none, Int64.ofInt shift.value.payload) := by
    simp only [Term.offsetParts, Term.asInt?, known]
  have valueSort : (Term.const shift.value).sort = sort := by
    simpa only [Term.sort] using shift.ofSort
  have notFolded := fun operation => Term.folded?_of_isOpen operation isOpen shift.value
  unfold apply amount
  cases shift.way with
  | plus => simp only [Term.add, notFolded, parts, valueParts, termSort]
  | onto => simp only [Term.add, notFolded, parts, valueParts, valueSort, Int64.add_comm]
  | minus =>
      simp only [Term.sub, notFolded, parts, valueParts, termSort, Int64.ofInt_neg,
        Int64.sub_eq_add_neg]

end Shift

namespace Term

variable {sort : ValueSort} {base : Term}

private theorem Unshifted.offsetParts_eq (unshifted : base.Unshifted) :
    base.offsetParts = (some base, 0) := by
  rcases offsetParts_cases base with ⟨value, _, rfl, _⟩ | ⟨inner, offset, moved, parts⟩
  · cases unshifted.isOpen
  · cases moved with
    | still => exact parts
    | up => exact absurd rfl (unshifted.plain _ _ _ rfl).1
    | down => exact absurd rfl (unshifted.plain _ _ _ rfl).2

theorem asInt?_ofInt (number : Int64) (sort : ValueSort) :
    (ofInt number sort).asInt? = some (sort.narrowed number) := by
  cases sort <;> rfl

private theorem Unshifted.offsetParts_withOffset (unshifted : base.Unshifted) (offset : Int64)
    (sort : ValueSort) :
    (withOffset (some base) offset sort).offsetParts = (some base, sort.readBack offset) := by
  have sumOpen : ∀ operator right, (binary operator base right).asInt? = none := fun _ _ => rfl
  simp only [withOffset, ValueSort.readBack]
  split
  · next zero =>
      subst zero
      have nothing : sort.narrowed 0 = 0 := by cases sort <;> rfl
      simpa [nothing] using unshifted.offsetParts_eq
  · split
    · simp only [offsetParts, sumOpen, asInt?_ofInt]
    · simp only [offsetParts, sumOpen, asInt?_ofInt]

private theorem withOffset_isOpen (isOpen : base.isConstant = false) (offset : Int64)
    (sort : ValueSort) :
    (withOffset (some base) offset sort).isConstant = false := by
  simp only [withOffset]
  split
  · exact isOpen
  · split <;> rfl

end Term

/-! ## Offsets that are read back -/

namespace ValueSort

variable {sort : ValueSort}

private theorem bmod_word_bounds (number : Int) :
    -2 ^ 31 ≤ number.bmod (2 ^ 32) ∧ number.bmod (2 ^ 32) < 2 ^ 31 ∧
      number.bmod (2 ^ 32) % 2 ^ 32 = number % 2 ^ 32 := by
  refine ⟨?_, ?_, Int.bmod_emod⟩
  · exact @Int.le_bmod number (2 ^ 32) (by decide)
  · exact @Int.bmod_lt number (2 ^ 32) (by decide)

private theorem toInt_narrowed_i32 (number : Int64) :
    (narrowed number .i32).toInt = number.toInt.bmod (2 ^ 32) := by
  rw [narrowed, Int32.toInt_toInt64, Int64.toInt_toInt32]

private theorem readBack_i64 (offset : Int64) : readBack .i64 offset = offset := by
  simp only [readBack, narrowed, Int64.neg_neg, ite_self]

/-- A 32-bit offset comes back with the right residue, within the range of its
sort or just above it, and as it was if it lay inside that range. -/
private theorem readBack_i32 (offset : Int64) :
    (readBack .i32 offset).toInt ≡ offset.toInt [ZMOD 2 ^ 32] ∧
      -2 ^ 31 ≤ (readBack .i32 offset).toInt ∧ (readBack .i32 offset).toInt ≤ 2 ^ 31 ∧
      (-2 ^ 31 < offset.toInt → offset.toInt < 2 ^ 31 →
        (readBack .i32 offset).toInt = offset.toInt) := by
  rw [readBack]
  split
  · next positive =>
      have positive : 0 < offset.toInt := by simpa using Int64.lt_iff_toInt_lt.1 positive
      obtain ⟨low, high, same⟩ := bmod_word_bounds offset.toInt
      rw [toInt_narrowed_i32, Int.ModEq]
      generalize offset.toInt.bmod (2 ^ 32) = kept at *
      omega
  · next negative =>
      have negative : offset.toInt ≤ 0 := by simpa [Int64.lt_iff_toInt_lt] using negative
      have least := offset.le_toInt
      -- The smallest offset is its own negation, so only the residues are opposite.
      have opposite : (-offset).toInt % 2 ^ 64 = -offset.toInt % 2 ^ 64 := by
        rw [Int64.toInt_neg]
        exact Int.bmod_emod
      have oppositeLow := (-offset).le_toInt
      have oppositeHigh := (-offset).toInt_lt
      obtain ⟨low, high, same⟩ := bmod_word_bounds (-offset).toInt
      rw [Int64.toInt_neg, toInt_narrowed_i32, Int.ModEq, Int.bmod_eq_of_le (by omega) (by omega)]
      generalize (-offset).toInt.bmod (2 ^ 32) = kept at *
      generalize (-offset).toInt = negated at *
      omega

private theorem readBack_modEq (isInteger : sort.isInteger = true) (offset : Int64) :
    (sort.readBack offset).toInt ≡ offset.toInt [ZMOD 2 ^ sort.bitLength] := by
  cases sort <;> simp only [ValueSort.isInteger, Bool.false_eq_true] at isInteger
  case i32 => exact (readBack_i32 offset).1
  case i64 => rw [readBack_i64]

private theorem bitLength_le (isInteger : sort.isInteger = true) : sort.bitLength ≤ 64 := by
  cases sort <;> simp [ValueSort.isInteger, bitLength] at isInteger ⊢

end ValueSort

namespace Shift

variable {sort : ValueSort} {base : Term}

/-- The offset that a sequence of shifts leads to, before it is cut to the width
of the sort. -/
def collected (shifts : List (Shift sort)) : Int64 :=
  shifts.foldl (fun offset shift => sort.readBack offset + Int64.ofInt shift.amount) 0

private theorem collected_append (shifts : List (Shift sort)) (shift : Shift sort) :
    collected (shifts ++ [shift]) =
      sort.readBack (collected shifts) + Int64.ofInt shift.amount := by
  simp only [collected, List.foldl_append, List.foldl_cons, List.foldl_nil]

private theorem total_append (shifts : List (Shift sort)) (shift : Shift sort) :
    total (shifts ++ [shift]) = total shifts + shift.amount := by
  simp only [total, List.map_append, List.map_cons, List.map_nil, List.sum_append,
    List.sum_singleton]

/-- Shifts move a term by one offset. -/
private theorem applyAll_eq (isInteger : sort.isInteger = true) (unshifted : base.Unshifted)
    (baseSort : base.sort = sort) (shifts : List (Shift sort)) :
    applyAll base shifts = .withOffset (some base) (collected shifts) sort := by
  induction shifts using List.reverseRecOn with
  | nil => rfl
  | append_singleton shifts shift inductionHypothesis =>
      rw [applyAll] at inductionHypothesis ⊢
      rw [List.foldl_append, List.foldl_cons, List.foldl_nil, inductionHypothesis,
        collected_append]
      exact shift.apply_eq isInteger (Term.withOffset_isOpen unshifted.isOpen _ _)
        ((Term.withOffset_sort base _ sort).trans baseSort)
        (unshifted.offsetParts_withOffset _ sort)

/-- The collected offset has the residue of the total. -/
private theorem collected_modEq (isInteger : sort.isInteger = true) (shifts : List (Shift sort)) :
    (collected shifts).toInt ≡ total shifts [ZMOD 2 ^ sort.bitLength] := by
  have wraps : ∀ number : Int, number.bmod (2 ^ 64) ≡ number [ZMOD 2 ^ sort.bitLength] := by
    intro number
    have modWord : number.bmod (2 ^ 64) ≡ number [ZMOD 2 ^ 64] := Int.bmod_emod
    exact modWord.of_dvd (pow_dvd_pow 2 (ValueSort.bitLength_le isInteger))
  induction shifts using List.reverseRecOn with
  | nil => rfl
  | append_singleton shifts shift inductionHypothesis =>
      rw [collected_append, total_append, Int64.toInt_add, Int64.toInt_ofInt]
      calc ((sort.readBack (collected shifts)).toInt + shift.amount.bmod Int64.size).bmod (2 ^ 64)
          ≡ (sort.readBack (collected shifts)).toInt + shift.amount.bmod Int64.size
            [ZMOD 2 ^ sort.bitLength] := wraps _
        _ ≡ (collected shifts).toInt + shift.amount [ZMOD 2 ^ sort.bitLength] :=
            (ValueSort.readBack_modEq isInteger _).add (wraps shift.amount)
        _ ≡ total shifts + shift.amount [ZMOD 2 ^ sort.bitLength] :=
            inductionHypothesis.add_right shift.amount

/-! ## 32-bit offsets -/

private theorem amount_i32_bounds (shift : Shift .i32) :
    -2 ^ 31 ≤ shift.amount ∧ shift.amount ≤ 2 ^ 31 := by
  obtain ⟨way, value, ofSort⟩ := shift
  cases value with
  | i32 number =>
      have low := number.le_toInt
      have high := number.toInt_lt
      cases way <;> simp only [amount, Constant.payload] <;> omega
  | _ => simp [Constant.sort] at ofSort

/-- No 32-bit offset leaves 64 bits, so its last step is a step in integers. -/
private theorem toInt_collected_append (shifts : List (Shift .i32)) (shift : Shift .i32) :
    (collected (shifts ++ [shift])).toInt =
      (ValueSort.readBack .i32 (collected shifts)).toInt + shift.amount := by
  obtain ⟨_, low, high, _⟩ := ValueSort.readBack_i32 (collected shifts)
  obtain ⟨least, most⟩ := shift.amount_i32_bounds
  have whole : shift.amount.bmod Int64.size = shift.amount :=
    Int.bmod_eq_of_le (by simp only [Int64.size]; omega) (by simp only [Int64.size]; omega)
  rw [collected_append, Int64.toInt_add, Int64.toInt_ofInt, whole, Int.bmod_eq_of_le] <;> omega

private theorem collected_i32_bounds (shifts : List (Shift .i32)) :
    -2 ^ 32 ≤ (collected shifts).toInt ∧ (collected shifts).toInt ≤ 2 ^ 32 := by
  induction shifts using List.reverseRecOn with
  | nil => decide
  | append_singleton shifts shift _ =>
      obtain ⟨_, low, high, _⟩ := ValueSort.readBack_i32 (collected shifts)
      obtain ⟨least, most⟩ := shift.amount_i32_bounds
      rw [toInt_collected_append]
      omega

/-- Totals that never leave the range are collected as they are. -/
private theorem toInt_collected_eq_total (shifts : List (Shift .i32))
    (inside : ∀ initial, initial <+: shifts →
      -2 ^ 31 < total initial ∧ total initial < 2 ^ 31) :
    (collected shifts).toInt = total shifts := by
  induction shifts using List.reverseRecOn with
  | nil => rfl
  | append_singleton shifts shift inductionHypothesis =>
      have before : (collected shifts).toInt = total shifts :=
        inductionHypothesis fun initial isInitial =>
          inside initial (isInitial.trans (List.prefix_append shifts [shift]))
      obtain ⟨low, high⟩ := inside shifts (List.prefix_append shifts [shift])
      obtain ⟨_, _, _, unchanged⟩ := ValueSort.readBack_i32 (collected shifts)
      rw [before] at unchanged
      rw [toInt_collected_append, total_append, unchanged low high]

/-! ## Forms -/

/-- The collected offset lies in the range of the sort. -/
def Fits (shifts : List (Shift sort)) : Prop := sort.InRange (collected shifts).toInt

private theorem fits_i64 (shifts : List (Shift .i64)) : Fits shifts :=
  ⟨(collected shifts).le_toInt, (collected shifts).toInt_lt⟩

private theorem fits_of_inside (isInteger : sort.isInteger = true) (shifts : List (Shift sort))
    (inside : ∀ initial, initial <+: shifts →
      -2 ^ (sort.bitLength - 1) < total initial ∧
        total initial < 2 ^ (sort.bitLength - 1)) : Fits shifts := by
  cases sort <;> simp only [ValueSort.isInteger, Bool.false_eq_true] at isInteger
  case i32 =>
    obtain ⟨low, high⟩ := inside shifts (List.prefix_refl shifts)
    rw [Fits, toInt_collected_eq_total shifts inside]
    exact ⟨le_of_lt low, high⟩
  case i64 => exact fits_i64 shifts

end Shift

namespace Term

variable {sort : ValueSort} {base : Term}

private theorem withOffset_cases (base : Term) (offset : Int64) (sort : ValueSort) :
    (offset.toInt = 0 ∧ withOffset (some base) offset sort = base) ∨
      (0 < offset.toInt ∧
        ∃ value, withOffset (some base) offset sort = .binary .add base (.const value)) ∨
      offset.toInt < 0 ∧
        ∃ value, withOffset (some base) offset sort = .binary .sub base (.const value) := by
  simp only [withOffset]
  split
  · next zero => exact .inl ⟨by rw [zero]; rfl, rfl⟩
  · next nonzero =>
      rw [← Int64.toInt_inj, Int64.toInt_zero] at nonzero
      split
      · next positive =>
          exact .inr (.inl ⟨by simpa using Int64.lt_iff_toInt_lt.1 positive, _, rfl⟩)
      · next negative =>
          rw [Int64.lt_iff_toInt_lt, Int64.toInt_zero] at negative
          exact .inr (.inr ⟨by omega, _, rfl⟩)

/-- The sign of an offset shows in the node that is built for it. -/
private theorem Unshifted.sign_of_withOffset_eq (unshifted : base.Unshifted) {left right : Int64}
    (same : withOffset (some base) left sort = withOffset (some base) right sort) :
    (0 < left.toInt ↔ 0 < right.toInt) ∧ (left.toInt < 0 ↔ right.toInt < 0) := by
  have noSum : ∀ value, base ≠ .binary .add base (.const value) := fun value isSum =>
    (unshifted.plain _ _ _ isSum).1 rfl
  have noDifference : ∀ value, base ≠ .binary .sub base (.const value) := fun value isDifference =>
    (unshifted.plain _ _ _ isDifference).2 rfl
  rcases withOffset_cases base left sort with ⟨leftSign, leftForm⟩ | ⟨leftSign, _, leftForm⟩ |
      ⟨leftSign, _, leftForm⟩ <;>
    rcases withOffset_cases base right sort with ⟨rightSign, rightForm⟩ |
      ⟨rightSign, _, rightForm⟩ | ⟨rightSign, _, rightForm⟩ <;>
    rw [leftForm, rightForm] at same
  · omega
  · exact absurd same (noSum _)
  · exact absurd same (noDifference _)
  · exact absurd same.symm (noSum _)
  · omega
  · cases same
  · exact absurd same.symm (noDifference _)
  · cases same
  · omega

end Term

namespace Shift

variable {sort : ValueSort} {base : Term}

/-- The form of a total takes the collected offset into the range. -/
private theorem toInt_formOffset (isInteger : sort.isInteger = true) (shifts : List (Shift sort)) :
    (Int64.ofInt ((total shifts).bmod (2 ^ sort.bitLength))).toInt =
      (collected shifts).toInt.bmod (2 ^ sort.bitLength) := by
  have sameResidue : (total shifts).bmod (2 ^ sort.bitLength) =
      (collected shifts).toInt.bmod (2 ^ sort.bitLength) := by
    have residue : (collected shifts).toInt % (2 ^ sort.bitLength : Nat) =
        total shifts % (2 ^ sort.bitLength : Nat) := by
      push_cast
      exact collected_modEq isInteger shifts
    rw [← Int.emod_bmod (total shifts), ← residue, Int.emod_bmod]
  rw [sameResidue, Int64.toInt_ofInt]
  cases sort <;> simp only [ValueSort.isInteger, Bool.false_eq_true] at isInteger
  case i32 =>
    obtain ⟨low, high, _⟩ := ValueSort.bmod_word_bounds (collected shifts).toInt
    exact Int.bmod_eq_of_le (by simp only [ValueSort.bitLength, Int64.size]; omega)
      (by simp only [ValueSort.bitLength, Int64.size]; omega)
  case i64 => exact Int.bmod_bmod

/-- Shifts leave the form of their total exactly if the offset fits. -/
private theorem applyAll_eq_movedBy_iff (isInteger : sort.isInteger = true)
    (unshifted : base.Unshifted)
    (baseSort : base.sort = sort) (shifts : List (Shift sort)) :
    applyAll base shifts = base.movedBy (total shifts) ↔ Fits shifts := by
  have offset := toInt_formOffset isInteger shifts
  rw [applyAll_eq isInteger unshifted baseSort, Term.movedBy, baseSort]
  cases sort <;> simp only [ValueSort.isInteger, Bool.false_eq_true] at isInteger
  case i32 =>
    obtain ⟨least, most⟩ := collected_i32_bounds shifts
    obtain ⟨low, high, residue⟩ := ValueSort.bmod_word_bounds (collected shifts).toInt
    simp only [ValueSort.bitLength] at offset
    rw [← offset] at low high residue
    simp only [Fits, ValueSort.InRange, ValueSort.bitLength] at offset ⊢
    constructor
    · intro same
      -- Beyond the range, the residue has the other sign or is zero.
      have sign := unshifted.sign_of_withOffset_eq same
      omega
    · intro inRange
      rw [show Int64.ofInt ((total shifts).bmod (2 ^ 32)) = collected shifts from
        Int64.toInt_inj.1 (by omega)]
  case i64 =>
    have whole : (collected shifts).toInt.bmod (2 ^ 64) = (collected shifts).toInt :=
      (collected shifts).toInt_bmod
    rw [ValueSort.bitLength, whole] at offset
    rw [ValueSort.bitLength, Int64.toInt_inj.1 offset]
    exact iff_of_true rfl (fits_i64 shifts)

/-- Totals with one residue have one form. -/
private theorem movedBy_eq_of_modEq (baseSort : base.sort = sort) {left right : Int}
    (sameResidue : left ≡ right [ZMOD 2 ^ sort.bitLength]) :
    base.movedBy left = base.movedBy right := by
  subst baseSort
  have residue : left % (2 ^ base.sort.bitLength : Nat) =
      right % (2 ^ base.sort.bitLength : Nat) := by
    push_cast
    exact sameResidue
  rw [Term.movedBy, ← Int.emod_bmod left, residue, Int.emod_bmod, Term.movedBy]

private theorem movedBy_zero (base : Term) : base.movedBy 0 = base := by
  rw [Term.movedBy, Int.zero_bmod]
  rfl

/-- Constants that are added to a term and taken from it leave the form of their
total exactly if the collected offset fits into the range of the sort. Fitting
sequences whose totals have one residue leave one term, and the term itself if
the residue is zero. Every 64-bit sequence fits, and so does a sequence whose
running totals stay inside the range. -/
theorem shifts_normalize
    (sort : ValueSort)
    (isInteger : sort.isInteger = true)
    (base : Term)
    (baseSort : base.sort = sort)
    (unshifted : base.Unshifted) :
    (∀ left right : List (Shift sort), Fits left → Fits right →
      total left ≡ total right [ZMOD 2 ^ sort.bitLength] →
        applyAll base left = applyAll base right) ∧
    (∀ shifts : List (Shift sort), Fits shifts →
      total shifts ≡ 0 [ZMOD 2 ^ sort.bitLength] → applyAll base shifts = base) ∧
    (∀ shifts : List (Shift sort),
      applyAll base shifts = base.movedBy (total shifts) ↔ Fits shifts) ∧
    (sort = .i64 → ∀ shifts : List (Shift sort), Fits shifts) ∧
    ∀ shifts : List (Shift sort),
      (∀ initial, initial <+: shifts → -2 ^ (sort.bitLength - 1) < total initial ∧
        total initial < 2 ^ (sort.bitLength - 1)) → Fits shifts := by
  have form := applyAll_eq_movedBy_iff isInteger unshifted baseSort
  refine ⟨?_, ?_, form, ?_, fits_of_inside isInteger⟩
  · intro left right leftFits rightFits sameResidue
    rw [(form left).2 leftFits, (form right).2 rightFits, movedBy_eq_of_modEq baseSort sameResidue]
  · intro shifts fits noResidue
    rw [(form shifts).2 fits, movedBy_eq_of_modEq baseSort noResidue, movedBy_zero]
  · rintro rfl shifts
    exact fits_i64 shifts

def ofWord (way : Way) (number : Int32) : Shift .i32 := ⟨way, .i32 number, rfl⟩

/-- There and back within the range, by way of its largest number. -/
theorem shifts_normalize_withinRange :
    applyAll (.var "x" .i32)
        [ofWord .plus 2147483647, ofWord .minus 2147483647, ofWord .minus 3] =
      applyAll (.var "x" .i32) [ofWord .minus 5, ofWord .onto 2] := by
  have unshifted : (Term.var "x" .i32).Unshifted := ⟨rfl, by simp⟩
  exact (shifts_normalize .i32 rfl (.var "x" .i32) rfl unshifted).1 _ _
    ⟨by decide, by decide⟩ ⟨by decide, by decide⟩ rfl

/-- Adding the smallest 32-bit number and taking it again leaves a sum with
zero, and a total beyond the range does not leave the difference that its
residue has. -/
theorem shifts_beyond_range_differ :
    (total [ofWord .plus (-2147483648), ofWord .minus (-2147483648)] = 0 ∧
      applyAll (.var "x" .i32) [ofWord .plus (-2147483648), ofWord .minus (-2147483648)] =
        .binary .add (.var "x" .i32) (.const (.i32 0))) ∧
    total [ofWord .plus 2147483647, ofWord .plus 2147483647] ≡ total [ofWord .minus 2]
      [ZMOD 2 ^ 32] ∧
    applyAll (.var "x" .i32) [ofWord .plus 2147483647, ofWord .plus 2147483647] ≠
      applyAll (.var "x" .i32) [ofWord .minus 2] := by
  refine ⟨⟨rfl, rfl⟩, rfl, ?_⟩
  decide +kernel

end Shift

end SymbolicHeap
