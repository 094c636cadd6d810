import SymbolicHeap.Constant
import SymbolicHeap.OrderedMap

/-!
Contract: the entries of ordered maps.

A look-up needs no order. Where all entries of a map are visited, its keys have
to be distinct; they are, in a map that was built by insertions, since the
entries then ascend.

Owns:
- entries and look-ups after an insertion, and after a fold of insertions;
- the keys of two maps together;
- maps with ascending entries, and the orders of constants and of region
  identities as keys.
-/

namespace SymbolicHeap

namespace OrderedMap

variable {α β : Type} [DecidableEq α] {map : OrderedMap α β} {key : α} {value : β}

theorem mem_of_find? (found : map.find? key = some value) : (key, value) ∈ map.entries := by
  obtain ⟨entries⟩ := map
  simp only [find?] at found ⊢
  induction entries with
  | nil => simp [findEntry] at found
  | cons head tail inductionHypothesis =>
      obtain ⟨headKey, headValue⟩ := head
      rw [findEntry] at found
      split at found
      · next same =>
          rw [same, Option.some.inj found]
          exact List.mem_cons_self
      · exact List.mem_cons_of_mem _ (inductionHypothesis found)

theorem find?_eq_none_iff : map.find? key = none ↔ key ∉ map.keys := by
  obtain ⟨entries⟩ := map
  simp only [find?, keys]
  induction entries with
  | nil => simp [findEntry]
  | cons head tail inductionHypothesis =>
      obtain ⟨headKey, headValue⟩ := head
      rw [findEntry]
      by_cases same : key = headKey
      · simp [same]
      · simp [same, inductionHypothesis]

/-- The keys of two maps are the keys that one of them has. -/
theorem not_mem_unionKeys {left right : OrderedMap α β} :
    key ∉ left.unionKeys right ↔ left.find? key = none ∧ right.find? key = none := by
  rw [unionKeys, List.mem_append, not_or, ← find?_eq_none_iff]
  refine and_congr_right fun notLeft => ?_
  rw [find?_eq_none_iff, List.mem_filter]
  simp [contains, notLeft]

variable [Ord α]

theorem mem_insert {entry : α × β} (member : entry ∈ (map.insert key value).entries) :
    entry = (key, value) ∨ entry ∈ map.entries := by
  obtain ⟨entries⟩ := map
  simp only [insert] at member ⊢
  induction entries with
  | nil => simpa [insertEntry] using member
  | cons head tail inductionHypothesis =>
      obtain ⟨headKey, headValue⟩ := head
      rw [insertEntry] at member
      split at member
      · next replaced =>
          rcases List.mem_cons.1 member with same | inTail
          · exact .inl (replaced ▸ same)
          · exact .inr (List.mem_cons_of_mem _ inTail)
      · split at member
        · exact List.mem_cons.1 member
        · rcases List.mem_cons.1 member with same | inTail
          · exact .inr (same ▸ List.mem_cons_self)
          · rcases inductionHypothesis inTail with same | before
            · exact .inl same
            · exact .inr (List.mem_cons_of_mem _ before)

/-- Insertions whose values depend on their keys alone. -/
theorem find?_foldl_insert (items : List α) (valueOf : α → β) (start : OrderedMap α β) :
    (items.foldl (fun map item => map.insert item (valueOf item)) start).find? key =
      if key ∈ items then some (valueOf key) else start.find? key := by
  induction items generalizing start with
  | nil => simp
  | cons item rest inductionHypothesis =>
      rw [List.foldl_cons, inductionHypothesis, find?_insert]
      by_cases inRest : key ∈ rest
      · simp [inRest]
      · by_cases same : key = item <;> simp [inRest, same]

/-! ## Ascending entries -/

/-- Each key is smaller than all later ones. -/
def Ascending (map : OrderedMap α β) : Prop :=
  map.entries.Pairwise fun earlier later => compare earlier.1 later.1 = .lt

omit [DecidableEq α] in
theorem empty_ascending : (empty : OrderedMap α β).Ascending := List.Pairwise.nil

theorem Ascending.insert [Std.TransOrd α] [Std.LawfulEqOrd α] (ascending : map.Ascending) :
    (map.insert key value).Ascending := by
  obtain ⟨entries⟩ := map
  simp only [Ascending, OrderedMap.insert] at ascending ⊢
  induction entries with
  | nil => simp [insertEntry]
  | cons head tail inductionHypothesis =>
      obtain ⟨headKey, headValue⟩ := head
      rw [List.pairwise_cons] at ascending
      rw [insertEntry]
      split
      · next same => exact List.pairwise_cons.2 ascending
      · next different =>
          split
          · next smaller =>
              refine List.pairwise_cons.2 ⟨?_, List.pairwise_cons.2 ascending⟩
              intro later member
              rcases List.mem_cons.1 member with rfl | inTail
              · exact smaller
              · exact Std.TransCmp.lt_trans smaller (ascending.1 later inTail)
          · next notSmaller =>
              refine List.pairwise_cons.2 ⟨?_, inductionHypothesis ascending.2⟩
              intro later member
              have inserted : later ∈ (OrderedMap.insert ⟨tail⟩ key value).entries := member
              rcases mem_insert inserted with rfl | inTail
              · have notEqual : compare key headKey ≠ .eq := by simpa using different
                have larger : compare key headKey = .gt := by
                  cases order : compare key headKey <;> simp_all
                exact Std.OrientedCmp.gt_iff_lt.1 larger
              · exact ascending.1 later inTail

theorem Ascending.find?_of_mem [Std.ReflOrd α] (ascending : map.Ascending)
    (member : (key, value) ∈ map.entries) : map.find? key = some value := by
  obtain ⟨entries⟩ := map
  simp only [Ascending, find?] at ascending member ⊢
  induction entries with
  | nil => simp at member
  | cons head tail inductionHypothesis =>
      obtain ⟨headKey, headValue⟩ := head
      rw [List.pairwise_cons] at ascending
      rw [findEntry]
      rcases List.mem_cons.1 member with same | inTail
      · cases same
        simp
      · have larger := ascending.1 _ inTail
        have different : key ≠ headKey := by
          rintro rfl
          simp at larger
        rw [if_neg different]
        exact inductionHypothesis ascending.2 inTail

theorem mem_keys_insert {probe : α} :
    probe ∈ (map.insert key value).keys ↔ probe ∈ map.keys ∨ probe = key := by
  rw [← Decidable.not_iff_not, not_or, ← find?_eq_none_iff, ← find?_eq_none_iff, find?_insert]
  by_cases same : probe = key <;> simp [same]

/-- A new value for a key that is there takes the place of the old one. -/
theorem Ascending.keys_insert [Std.OrientedOrd α] (ascending : map.Ascending)
    (present : key ∈ map.keys) : (map.insert key value).keys = map.keys := by
  obtain ⟨entries⟩ := map
  simp only [Ascending, OrderedMap.insert, keys] at ascending present ⊢
  induction entries with
  | nil => cases present
  | cons head tail inductionHypothesis =>
      obtain ⟨headKey, headValue⟩ := head
      rw [List.pairwise_cons] at ascending
      rw [insertEntry]
      split
      · rfl
      · next different =>
          have later : key ∈ tail.map Prod.fst := (List.mem_cons.1 present).resolve_left different
          obtain ⟨entry, inTail, isKey⟩ := List.mem_map.1 later
          have larger := ascending.1 entry inTail
          rw [isKey] at larger
          rw [if_neg (by rw [Std.OrientedCmp.gt_of_lt larger]; simp), List.map_cons,
            inductionHypothesis ascending.2 later, List.map_cons]

end OrderedMap

/-! ## Constants as keys -/

instance : Std.TransOrd Constant :=
  inferInstanceAs (Std.TransCmp
    (compareLex (compareOn Constant.rank) (compareOn Constant.payload)))

instance : Std.LawfulEqOrd Constant where
  eq_of_compare {left right} := (Constant.order_eq_iff left right).1

/-! ## Region identities as keys -/

/-- Two comparisons in a row are transitive where each of them is. -/
private theorem then_lt_trans {α β : Type} {outer : α → α → Ordering} {inner : β → β → Ordering}
    {first second third : α} {first' second' third' : β}
    (same : ∀ left right, outer left right = .eq ↔ left = right)
    (outerTrans : outer first second = .lt → outer second third = .lt →
      outer first third = .lt)
    (innerTrans : inner first' second' = .lt → inner second' third' = .lt →
      inner first' third' = .lt)
    (before : (outer first second).then (inner first' second') = .lt)
    (after : (outer second third).then (inner second' third') = .lt) :
    (outer first third).then (inner first' third') = .lt := by
  simp only [Ordering.then_eq_lt, same] at before after ⊢
  rcases before with before | ⟨rfl, before⟩
  · rcases after with after | ⟨rfl, after⟩
    · exact .inl (outerTrans before after)
    · exact .inl before
  · rcases after with after | ⟨rfl, after⟩
    · exact .inl after
    · exact .inr ⟨rfl, innerTrans before after⟩

namespace ValueSort

mutual

private theorem order_lt_trans : (first second third : ValueSort) →
    order first second = .lt → order second third = .lt → order first third = .lt
  | .array firstDomain firstRange, second, third => by
      cases second with
      | array secondDomain secondRange =>
          cases third with
          | array thirdDomain thirdRange =>
              exact then_lt_trans orderList_eq_iff
                (orderList_lt_trans firstDomain secondDomain thirdDomain)
                (order_lt_trans firstRange secondRange thirdRange)
          | _ => simp [order, rank, compare, compareOfLessAndEq]
      | _ => simp [order, rank, compare, compareOfLessAndEq]
  | .bool, second, third | .i32, second, third | .i64, second, third
  | .reference, second, third => by
      cases second <;> cases third <;> simp [order, rank, compare, compareOfLessAndEq]

private theorem orderList_lt_trans : (first second third : List ValueSort) →
    orderList first second = .lt → orderList second third = .lt → orderList first third = .lt
  | [], second, [] => by cases second <;> simp [orderList]
  | [], _, _ :: _ => by simp [orderList]
  | _ :: _, [], _ => by simp [orderList]
  | _ :: _, _ :: _, [] => by simp [orderList]
  | first :: firsts, second :: seconds, third :: thirds =>
      then_lt_trans order_eq_iff (order_lt_trans first second third)
        (orderList_lt_trans firsts seconds thirds)

end

end ValueSort

instance : Std.TransCmp ValueSort.orderList where
  eq_swap {left right} := (ValueSort.orderList_swap right left).symm
  isLE_trans {first second third} before after := by
    rw [Ordering.isLE_iff_eq_lt_or_eq_eq, ValueSort.orderList_eq_iff] at before after ⊢
    rcases before with before | rfl
    · rcases after with after | rfl
      · exact .inl (ValueSort.orderList_lt_trans _ _ _ before after)
      · exact .inl before
    · exact after

instance : Std.TransCmp fun left right : RegionId =>
    ValueSort.orderList left.declaredSorts right.declaredSorts where
  eq_swap := Std.OrientedCmp.eq_swap
  isLE_trans := Std.TransCmp.isLE_trans

instance : Std.TransOrd RegionId :=
  inferInstanceAs (Std.TransCmp
    (compareLex (compareOn RegionId.rank) (compareLex (compareOn RegionId.name)
      fun left right => ValueSort.orderList left.declaredSorts right.declaredSorts)))

instance : Std.LawfulEqOrd RegionId where
  eq_of_compare {left right} := (RegionId.order_eq_iff left right).1

end SymbolicHeap
