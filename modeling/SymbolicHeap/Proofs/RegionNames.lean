import SymbolicHeap.RegionId

/-!
Contract: a region can be told from the name of its base array.

Names of types and fields are printed as they are, so they may hold separators
and whole printed sorts. What makes the printed form unambiguous is that a
printed sort is never the beginning of another one and holds no colon: the last
colon of a name ends what was given by the program.

Owns:
- printed sorts at the beginning of a text;
- the parts of a base array's name.
-/

namespace SymbolicHeap

/-- Two texts with a common separator part at the same place, unless one of
them has the separator on both sides of its own. -/
private theorem cut_cases {separator : Char} {left right leftRest rightRest : List Char}
    (same : left ++ separator :: leftRest = right ++ separator :: rightRest) :
    (left = right ∧ leftRest = rightRest) ∨ (separator ∈ right ∧ separator ∈ leftRest) ∨
      (separator ∈ left ∧ separator ∈ rightRest) := by
  rcases List.append_eq_append_iff.1 same with
    ⟨between, atRight, atLeft⟩ | ⟨between, atLeft, atRight⟩
  · cases between with
    | nil => simp_all
    | cons head tail => simp_all
  · cases between with
    | nil => simp_all
    | cons head tail => simp_all

/-! ## Printed sorts -/

namespace ValueSort

mutual

private theorem colon_not_mem_text : (sort : ValueSort) → ':' ∉ sort.text.toList
  | .bool | .i32 | .i64 | .reference => by decide
  | .array indices elements => by
      simp [text, colon_not_mem_textList indices, colon_not_mem_text elements]

private theorem colon_not_mem_textList : (sorts : List ValueSort) → ':' ∉ (textList sorts).toList
  | [] => by decide
  | head :: tail => by simp [textList, colon_not_mem_text head, colon_not_mem_textList tail]

end

/-- The printed sort is the beginning of no other one, so it can be cut off a
text. -/
def Cancels (sort : ValueSort) : Prop :=
  ∀ (other : ValueSort) (rest otherRest : List Char),
    sort.text.toList ++ rest = other.text.toList ++ otherRest → sort = other ∧ rest = otherRest

/-- Sorts in a row can be cut off a text one by one, up to a closing bracket. -/
private theorem textList_cancel {sorts others : List ValueSort} {rest otherRest : List Char}
    (cancel : ∀ sort ∈ sorts, sort.Cancels)
    (same : (textList sorts).toList ++ ')' :: rest = (textList others).toList ++ ')' :: otherRest) :
    sorts = others ∧ rest = otherRest := by
  induction sorts generalizing others with
  | nil =>
      cases others with
      | nil => simpa [textList] using same
      | cons other others => simp [textList] at same
  | cons sort sorts inductionHypothesis =>
      rw [List.forall_mem_cons] at cancel
      cases others with
      | nil => simp [textList] at same
      | cons other others =>
          have first := cancel.1 other _ _ (by simpa [textList] using same)
          have remaining := inductionHypothesis cancel.2 first.2
          simp [first.1, remaining]

private theorem textList_concat (sorts : List ValueSort) (last : ValueSort) :
    textList (sorts ++ [last]) = textList sorts ++ " " ++ last.text := by
  induction sorts with
  | nil => simp [textList]
  | cons sort sorts inductionHypothesis =>
      simp [textList, inductionHypothesis, String.append_assoc]

/-- The indices and the elements of an array are printed as sorts in a row. -/
private theorem text_array (indices : List ValueSort) (elements : ValueSort) :
    (ValueSort.array indices elements).text =
      "(array" ++ textList (indices ++ [elements]) ++ ")" := by
  rw [text, textList_concat]
  simp only [String.append_assoc]

mutual

private theorem cancels : (sort : ValueSort) → sort.Cancels
  | .bool | .i32 | .i64 | .reference => by
      intro other rest otherRest same
      cases other <;> simp_all [text]
  | .array indices elements => by
      intro other rest otherRest same
      cases other with
      | array otherIndices otherElements =>
          have cancel : ∀ sort ∈ indices ++ [elements], sort.Cancels := by
            simp only [List.forall_mem_append, List.forall_mem_singleton]
            exact ⟨allCancel indices, cancels elements⟩
          have row := textList_cancel cancel (by simpa [text_array] using same)
          simpa [and_assoc] using row
      | _ => simp [text] at same

private theorem allCancel : (sorts : List ValueSort) → ∀ sort ∈ sorts, sort.Cancels
  | [] => by simp
  | head :: tail => List.forall_mem_cons.2 ⟨cancels head, allCancel tail⟩

end

/-- Further sorts behind the first one. -/
def arrowsText : List ValueSort → String
  | [] => ""
  | head :: tail => "->" ++ head.text ++ arrowsText tail

/-- The sorts of a region as they stand behind its name. -/
def signatureText : List ValueSort → String
  | [] => ""
  | head :: tail => ":" ++ head.text ++ arrowsText tail

private theorem colon_not_mem_arrowsText (sorts : List ValueSort) :
    ':' ∉ (arrowsText sorts).toList := by
  induction sorts with
  | nil => simp [arrowsText]
  | cons head tail inductionHypothesis =>
      simp [arrowsText, colon_not_mem_text head, inductionHypothesis]

private theorem arrowsText_injective {lefts rights : List ValueSort}
    (same : (arrowsText lefts).toList = (arrowsText rights).toList) : lefts = rights := by
  induction lefts generalizing rights with
  | nil => cases rights <;> simp_all [arrowsText]
  | cons left lefts inductionHypothesis =>
      cases rights with
      | nil => simp [arrowsText] at same
      | cons right rights =>
          have first := left.cancels right _ _ (by simpa [arrowsText] using same)
          rw [first.1, inductionHypothesis first.2]

private theorem signatureText_cons (head : ValueSort) (tail : List ValueSort) :
    (signatureText (head :: tail)).toList =
      ':' :: (head.text.toList ++ (arrowsText tail).toList) := by
  simp [signatureText]

/-- A name ends at the last colon, whatever it holds itself. -/
private theorem signatureText_cancel {leftName rightName : List Char}
    {lefts rights : List ValueSort}
    (sameLength : lefts.length = rights.length)
    (same : leftName ++ (signatureText lefts).toList =
      rightName ++ (signatureText rights).toList) :
    leftName = rightName ∧ lefts = rights := by
  cases lefts with
  | nil =>
      have none : rights = [] := List.length_eq_zero_iff.1 sameLength.symm
      subst none
      exact ⟨List.append_cancel_right same, rfl⟩
  | cons left lefts =>
      cases rights with
      | nil => simp at sameLength
      | cons right rights =>
          rw [signatureText_cons, signatureText_cons] at same
          rcases cut_cases same with ⟨sameName, sameSorts⟩ | ⟨_, inLeft⟩ | ⟨_, inRight⟩
          · have first := left.cancels right _ _ sameSorts
            rw [first.1, arrowsText_injective first.2]
            exact ⟨sameName, rfl⟩
          · simp [colon_not_mem_text, colon_not_mem_arrowsText] at inLeft
          · simp [colon_not_mem_text, colon_not_mem_arrowsText] at inRight

end ValueSort

/-! ## Names of base arrays -/

namespace RegionId

/-- The word that tells the kind of the region. -/
def kindWord : RegionId → String
  | .field _ _ => "field"
  | .arrayElement _ _ => "array"
  | .arrayLength _ => "length"
  | .mapValue _ _ _ => "map"
  | .mapContains _ _ => "contains"
  | .mapLength _ => "size"

private theorem baseArrayName_toList (region : RegionId) :
    region.baseArrayName.toList =
      "input:".toList ++ (region.kindWord.toList ++ '<' ::
        (region.name.toList ++ (ValueSort.signatureText region.declaredSorts).toList ++
          ['>'])) := by
  cases region <;>
    simp [baseArrayName, text, kindWord, name, declaredSorts, ValueSort.signatureText,
      ValueSort.arrowsText]

private theorem bracket_not_mem_kindWord (region : RegionId) : '<' ∉ region.kindWord.toList := by
  cases region <;> simp [kindWord]

/-- Regions with the same word are of one kind, so they list as many sorts and
are told apart by name and sorts alone. -/
private theorem eq_of_kindWord {left right : RegionId} (sameWord : left.kindWord = right.kindWord) :
    left.declaredSorts.length = right.declaredSorts.length ∧
      (left.name = right.name → left.declaredSorts = right.declaredSorts → left = right) := by
  cases left <;> cases right <;> simp_all [kindWord, name, declaredSorts]

/-- Distinct regions never share a base array: its name determines the region. -/
theorem baseArrayName_eq_iff (left right : RegionId) :
    left.baseArrayName = right.baseArrayName ↔ left = right := by
  refine ⟨?_, fun same => by rw [same]⟩
  intro same
  have sameText := congrArg String.toList same
  rw [baseArrayName_toList, baseArrayName_toList, List.append_cancel_left_eq] at sameText
  rcases cut_cases sameText with ⟨sameWord, rest⟩ | ⟨inRight, _⟩ | ⟨inLeft, _⟩
  · obtain ⟨sameLength, determined⟩ := eq_of_kindWord (String.toList_inj.1 sameWord)
    obtain ⟨sameName, sameSorts⟩ :=
      ValueSort.signatureText_cancel sameLength (List.append_cancel_right rest)
    exact determined (String.toList_inj.1 sameName) sameSorts
  · exact absurd inRight right.bracket_not_mem_kindWord
  · exact absurd inLeft left.bracket_not_mem_kindWord

end RegionId

end SymbolicHeap
