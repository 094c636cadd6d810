import SymbolicHeap.Proofs.Simplify.Hereditary
import SymbolicHeap.Proofs.Simplify.Meaning

/-!
Contract: a condition and its negation are told apart by one sign.

`Term.not` answers a known truth value with the other one and takes the sign off
a negation. So no term that the simplifying constructors build has a sign before
a truth value or before another sign, and negating such a term twice gives it
back.

Owns:
- the terms that the simplifying constructors build;
- the terms without idle negation signs, among which these are;
- negating twice.
-/

namespace SymbolicHeap

namespace Construction

def operands : Construction → List Term
  | .add left right | .sub left right | .and left right | .or left right
  | .equals left right | .notEquals left right | .lessThan left right
  | .lessOrEqual left right | .greaterThan left right | .greaterOrEqual left right =>
      [left, right]
  | .not operand => [operand]
  | .ite condition consequent alternate => [condition, consequent, alternate]
  | .select array indices => array :: indices
  | .store array indices value => array :: value :: indices

end Construction

namespace Term

/-- What a simplifying constructor builds has every inherited property that its
operands have. -/
theorem Inherited.simplified {property : Term → Prop} (inherited : Inherited property)
    (construction : Construction)
    (hold : ∀ operand ∈ construction.operands, property operand) :
    property construction.simplified := by
  cases construction <;>
    simp only [Construction.operands, List.forall_mem_cons, List.not_mem_nil, false_imp_iff,
      implies_true, and_true] at hold
  case add => exact inherited.add hold.1 hold.2
  case sub => exact inherited.sub hold.1 hold.2
  case and => exact inherited.and hold.1 hold.2
  case or => exact inherited.or hold.1 hold.2
  case not => exact inherited.not hold
  case ite => exact inherited.ite hold.1 hold.2.1 hold.2.2
  case equals => exact inherited.equals hold.1 hold.2
  case notEquals => exact inherited.not (inherited.equals hold.1 hold.2)
  case lessThan => exact inherited.lessThan hold.1 hold.2
  case lessOrEqual => exact inherited.lessOrEqual hold.1 hold.2
  case greaterThan => exact inherited.lessThan hold.2 hold.1
  case greaterOrEqual => exact inherited.lessOrEqual hold.2 hold.1
  case select => exact inherited.select hold.1 hold.2
  case store => exact inherited.store hold.1 hold.2.2 hold.2.1

/-! ## Built terms -/

/-- Constants, symbols and what the simplifying constructors make of them. A
subtype test, the contents of a location before execution, an array of one
value and a lambda have no rules, so their nodes are built as they are. -/
inductive Built : Term → Prop where
  | const (value : Constant) : Built (.const value)
  | var (name : String) (sort : ValueSort) : Built (.var name sort)
  | bound (name : String) (sort : ValueSort) : Built (.bound name sort)
  | arrayConst (name : String) (sort : ValueSort) : Built (.arrayConst name sort)
  | subtype {operand : Term} (built : Built operand) (typeName : String) :
      Built (.subtype operand typeName)
  | inputRead (region : RegionId) {key : List Term} (built : ∀ index ∈ key, Built index) :
      Built (.inputRead region key)
  | constArray {value : Term} (built : Built value) (sort : ValueSort) :
      Built (.constArray value sort)
  | lambda (parameters : List Term) {body : Term} (built : Built body) :
      Built (.lambda parameters body)
  | construct (construction : Construction)
      (built : ∀ operand ∈ construction.operands, Built operand) : Built construction.simplified

/-! ## Idle negation signs -/

def isNegation : Term → Bool
  | .negation _ => true
  | _ => false

mutual

/-- No sign stands before a truth value or before another sign. Under a subtype
test, a location or a lambda nothing is asked: no rule takes terms out of
these. -/
def Reduced : Term → Prop
  | .negation operand =>
      operand.asBool? = none ∧ operand.isNegation = false ∧ Reduced operand
  | .binary _ left right => Reduced left ∧ Reduced right
  | .conditional condition consequent alternate =>
      Reduced condition ∧ Reduced consequent ∧ Reduced alternate
  | .constArray value _ => Reduced value
  | .selection array indices => Reduced array ∧ AllReduced indices
  | .update array indices value => Reduced array ∧ AllReduced indices ∧ Reduced value
  | _ => True

def AllReduced : List Term → Prop
  | [] => True
  | head :: tail => Reduced head ∧ AllReduced tail

end

private theorem allReduced_iff (terms : List Term) :
    AllReduced terms ↔ ∀ term ∈ terms, Reduced term := by
  induction terms with
  | nil => simp [AllReduced]
  | cons head tail inductionHypothesis =>
      rw [AllReduced, inductionHypothesis, List.forall_mem_cons]

private theorem not_eq_negation {operand : Term} (unknown : operand.asBool? = none)
    (unsigned : operand.isNegation = false) : operand.not = .negation operand := by
  cases operand with
  | negation => simp [isNegation] at unsigned
  | _ => simp only [not, unknown]

/-- A truth value is answered with the other one, and otherwise one sign is put
on or taken off. -/
theorem Reduced.not_cases {term : Term} (reduced : term.Reduced) :
    (∃ truth, term = ofBool truth ∧ term.not = ofBool !truth) ∨
      (term.asBool? = none ∧ term.isNegation = false ∧ term.not = .negation term) ∨
      ∃ inner, term = .negation inner ∧ term.not = inner ∧
        inner.asBool? = none ∧ inner.isNegation = false ∧ inner.Reduced := by
  cases known : term.asBool? with
  | some truth => exact .inl ⟨truth, eq_const_of_asBool? known, by simp only [Term.not, known]⟩
  | none =>
      cases signed : term.isNegation with
      | false => exact .inr (.inl ⟨rfl, rfl, not_eq_negation known signed⟩)
      | true =>
          cases term <;> simp only [isNegation, Bool.false_eq_true] at signed
          rw [Reduced] at reduced
          exact .inr (.inr ⟨_, rfl, rfl, reduced⟩)

theorem Reduced.not {term : Term} (reduced : term.Reduced) : term.not.Reduced := by
  rcases reduced.not_cases with ⟨truth, _, result⟩ | ⟨known, unsigned, result⟩ |
    ⟨inner, _, result, _, _, innerReduced⟩ <;> rw [result]
  · simp [ofBool, Reduced]
  · rw [Reduced]
    exact ⟨known, unsigned, reduced⟩
  · exact innerReduced

theorem inherited_reduced : Inherited Reduced where
  const _ := by simp [Reduced]
  binary := by simp [Reduced]
  operand reduced := by
    rw [Reduced] at reduced
    exact reduced.2.2
  not := Reduced.not
  conditional := by simp [Reduced]
  constArray := by simp [Reduced]
  selection := by simp [Reduced, allReduced_iff]
  update := by simp [Reduced, allReduced_iff]

theorem Built.reduced {term : Term} (built : term.Built) : term.Reduced := by
  induction built with
  | const | var | bound | arrayConst | subtype | inputRead | lambda => simp [Reduced]
  | constArray built sort inductionHypothesis =>
      rw [Reduced]
      exact inductionHypothesis
  | construct construction built inductionHypothesis =>
      exact inherited_reduced.simplified construction inductionHypothesis

/-! ## Negating twice -/

theorem Reduced.not_not {term : Term} (reduced : term.Reduced) : term.not.not = term := by
  rcases reduced.not_cases with ⟨truth, rfl, result⟩ | ⟨_, _, result⟩ |
    ⟨inner, rfl, result, unknown, unsigned, _⟩ <;> rw [result]
  · cases truth <;> rfl
  · rfl
  · exact not_eq_negation unknown unsigned

theorem not_ne_self (term : Term) : term.not ≠ term := by
  rcases not_cases term with ⟨truth, rfl, result⟩ | ⟨inner, rfl, result⟩ | result <;> rw [result]
  · cases truth <;> simp [ofBool]
  all_goals
    intro same
    have sameSize := congrArg sizeOf same
    simp at sameSize

end Term

end SymbolicHeap
