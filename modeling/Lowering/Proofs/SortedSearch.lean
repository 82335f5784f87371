import Mathlib.Data.List.Nodup
import Lowering.Proofs.TextOrder

/-! Looking for an element of a sorted vector and taking it out. The search closes in on the positions
where the element can stand, so it finds each element and nothing else. What is found can be taken out,
and the rest stays sorted. -/

namespace Lowering.Container

namespace Growable

variable {α : Type} {vector : Growable α} {target item : α} {lower upper middle index : Nat}

/-- Every element is less than all that stand behind it. -/
def Increasing [Ord α] (vector : Growable α) : Prop :=
  vector.toList.Pairwise fun first second => compare first second = .lt

/-- The target can only stand from the one position up to the other: what is before them is less, and
what is behind them is greater. -/
structure Narrowed [Ord α] (vector : Growable α) (target : α) (lower upper : Nat) : Prop where
  within : upper ≤ vector.items.size
  below : ∀ index item, index < lower → vector.items[index]? = some item → compare item target = .lt
  above : ∀ index item, upper ≤ index → vector.items[index]? = some item → compare item target = .gt

section Steps

variable [Ord α]

theorem Narrowed.whole (vector : Growable α) (target : α) : vector.Narrowed target 0 vector.length where
  within := Nat.le_refl _
  below := nofun
  above := by
    intro index item behind found
    obtain ⟨inside, _⟩ := Array.getElem?_eq_some_iff.mp found
    exact absurd inside (Nat.not_lt_of_le behind)

theorem Increasing.earlier (increasing : vector.Increasing) {position : Nat} {first second : α}
    (before : index < position) (one : vector.items[index]? = some first)
    (other : vector.items[position]? = some second) : compare first second = .lt := by
  obtain ⟨_, rfl⟩ := Array.getElem?_eq_some_iff.mp one
  obtain ⟨_, rfl⟩ := Array.getElem?_eq_some_iff.mp other
  exact List.pairwise_iff_getElem.mp increasing _ _ _ _ before

variable [Std.TransOrd α]

/-- Up to an element that is less, everything is less. -/
theorem Narrowed.upward (narrowed : vector.Narrowed target lower upper) (increasing : vector.Increasing)
    (found : vector.items[middle]? = some item) (less : compare item target = .lt) :
    vector.Narrowed target (middle + 1) upper where
  within := narrowed.within
  above := narrowed.above
  below := by
    intro index other below met
    rcases Nat.lt_succ_iff_lt_or_eq.mp below with before | rfl
    · exact Std.TransCmp.lt_trans (increasing.earlier before met found) less
    · cases met.symm.trans found
      exact less

/-- From an element that is greater, everything is greater. -/
theorem Narrowed.downward (narrowed : vector.Narrowed target lower upper) (increasing : vector.Increasing)
    (inside : middle < upper) (found : vector.items[middle]? = some item) (greater : compare item target = .gt) :
    vector.Narrowed target lower middle where
  within := Nat.le_trans (Nat.le_of_lt inside) narrowed.within
  below := narrowed.below
  above := by
    intro index other above met
    rcases Nat.eq_or_lt_of_le above with rfl | behind
    · cases met.symm.trans found
      exact greater
    · have less := Std.OrientedCmp.gt_iff_lt.mp greater
      exact Std.OrientedCmp.gt_iff_lt.mpr (Std.TransCmp.lt_trans less (increasing.earlier behind found met))

end Steps

section Search

variable [Ord α] [Std.LawfulEqOrd α]

/-- An element stands at one position only. -/
theorem Increasing.position_unique (increasing : vector.Increasing) {position : Nat}
    (one : vector.items[index]? = some item) (other : vector.items[position]? = some item) : index = position := by
  have apart : ∀ {first second : Nat}, vector.items[first]? = some item → vector.items[second]? = some item →
      ¬ first < second := by
    intro first second found again before
    cases Std.ReflCmp.compare_self.symm.trans (increasing.earlier before found again)
  exact Nat.le_antisymm (Nat.le_of_not_lt (apart other one)) (Nat.le_of_not_lt (apart one other))

/-- Without one of its elements a sorted vector is sorted and does not hold it any more. -/
theorem Increasing.without (increasing : vector.Increasing) {before behind : List α} {after : Growable α}
    (whole : vector.toList = before ++ item :: behind) (rest : after.toList = before ++ behind) :
    after.Increasing ∧ item ∉ after.toList := by
  rw [Increasing, whole, List.pairwise_append, List.pairwise_cons] at increasing
  obtain ⟨first, ⟨less, last⟩, apart⟩ := increasing
  have unequal : ∀ {other}, compare item other = .lt ∨ compare other item = .lt → item ≠ other := by
    rintro other ordered rfl
    simp at ordered
  rw [Increasing, rest, List.pairwise_append, List.mem_append]
  refine ⟨⟨first, last, fun one inFirst other inLast => apart one inFirst other (List.mem_cons_of_mem _ inLast)⟩, ?_⟩
  rintro (inFirst | inLast)
  · exact unequal (.inr (apart item inFirst item List.mem_cons_self)) rfl
  · exact unequal (.inl (less item inLast)) rfl

variable [Std.TransOrd α]

theorem searchBetween_iff (increasing : vector.Increasing) (narrowed : vector.Narrowed target lower upper) :
    vector.searchBetween target lower upper = some index ↔ vector.items[index]? = some target := by
  fun_induction searchBetween vector target lower upper with
  | case1 lower upper remain middle missing =>
    have inside : middle < vector.items.size := by
      have := narrowed.within
      omega
    cases missing.symm.trans (Array.getElem?_eq_getElem inside)
  | case2 lower upper remain middle item found less ih => exact ih (narrowed.upward increasing found less)
  | case3 lower upper remain middle item found same =>
    cases Std.LawfulEqCmp.eq_of_compare same
    rw [Option.some.injEq]
    constructor
    · rintro rfl
      exact found
    · exact increasing.position_unique found
  | case4 lower upper remain middle item found greater ih =>
    exact ih (narrowed.downward increasing (by omega) found greater)
  | case5 lower upper none =>
    -- Nothing is left between the bounds, and beyond them nothing is equal to the target.
    refine ⟨nofun, fun found => ?_⟩
    have itself : compare target target = .eq := Std.ReflCmp.compare_self
    rcases Nat.lt_or_ge index lower with below | above
    · cases itself.symm.trans (narrowed.below index target below found)
    · cases itself.symm.trans (narrowed.above index target (by omega) found)

theorem binarySearch_iff (increasing : vector.Increasing) :
    vector.binarySearch target = some index ↔ vector.items[index]? = some target :=
  searchBetween_iff increasing (.whole vector target)

theorem exists_binarySearch (increasing : vector.Increasing) :
    (∃ index, vector.binarySearch target = some index) ↔ target ∈ vector.toList := by
  simp only [binarySearch_iff increasing, toList, List.mem_iff_getElem?, Array.getElem?_toList]

theorem binarySearch_eq_none (increasing : vector.Increasing) :
    vector.binarySearch target = none ↔ target ∉ vector.toList := by
  rw [← exists_binarySearch increasing, Option.eq_none_iff_forall_ne_some, not_exists]

end Search

theorem get_ok : vector.get index = .ok item ↔ vector.items[index]? = some item := by
  by_cases inside : index < vector.items.size <;> simp [get, Access.read, inside]

/-- What stands at a position can be taken out, and the elements on its two sides close up. -/
theorem delete_found (found : vector.items[index]? = some item) :
    ∃ before behind after, vector.toList = before ++ item :: behind ∧ before.length = index ∧
      after.toList = before ++ behind ∧ vector.delete index = .ok (item, after) := by
  obtain ⟨inside, rfl⟩ := Array.getElem?_eq_some_iff.mp found
  refine ⟨vector.toList.take index, vector.toList.drop (index + 1), ⟨vector.items.eraseIdx index⟩, ?_, ?_, ?_, ?_⟩
  · calc
      vector.toList = vector.toList.take index ++ vector.toList.drop index := (List.take_append_drop _ _).symm
      _ = vector.toList.take index ++ vector.items[index] :: vector.toList.drop (index + 1) := by
        rw [toList, List.drop_eq_getElem_cons inside, Array.getElem_toList]
  · exact List.length_take_of_le (Nat.le_of_lt inside)
  · rw [toList, Array.toList_eraseIdx, List.eraseIdx_eq_take_drop_succ]
    rfl
  · simp [delete, Access.delete, inside]

/-- Searching a sorted vector and taking out what is found. The search gives the position at which the
target stands, and none exactly if it stands nowhere. The position can always be deleted, by either form:
the target is given back, all other elements stay in their order, and the target is not found again. -/
theorem search_and_delete [Ord α] [Std.TransOrd α] [Std.LawfulEqOrd α] (vector : Growable α) (target : α)
    (increasing : vector.Increasing) :
    (∀ index, vector.binarySearch target = some index ↔ index < vector.length ∧ vector.get index = .ok target) ∧
    ((∃ index, vector.binarySearch target = some index) ↔ target ∈ vector.toList) ∧
    (vector.binarySearch target = none ↔ target ∉ vector.toList) ∧
    ∀ index, vector.binarySearch target = some index → ∃ before behind after,
      vector.toList = before ++ target :: behind ∧ before.length = index ∧ after.toList = before ++ behind ∧
      vector.delete index = .ok (target, after) ∧ fatal (vector.delete index) = .ok (target, after) ∧
      after.length + 1 = vector.length ∧ after.Increasing ∧ after.binarySearch target = none := by
  refine ⟨fun index => ?_, exists_binarySearch increasing, binarySearch_eq_none increasing, fun index searched => ?_⟩
  · rw [binarySearch_iff increasing, get_ok]
    refine ⟨fun found => ⟨?_, found⟩, And.right⟩
    exact (Array.getElem?_eq_some_iff.mp found).1
  · obtain ⟨before, behind, after, whole, counted, rest, deleted⟩ := delete_found ((binarySearch_iff increasing).mp searched)
    obtain ⟨remaining, gone⟩ := increasing.without whole rest
    have shorter : after.length + 1 = vector.length := by
      have first := congrArg List.length whole
      have last := congrArg List.length rest
      simp only [toList, Array.length_toList, List.length_append, List.length_cons] at first last
      simp only [length]
      omega
    refine ⟨before, behind, after, whole, counted, rest, deleted, ?_, shorter, remaining, ?_⟩
    · rw [deleted]
      rfl
    · exact (binarySearch_eq_none remaining).mpr gone

/-- Some texts in their order, the first of which the second one begins with. -/
private def ordered : Growable Text :=
  ofList [.ofString "a", .ofString "ab", .ofString "b"]

theorem middle_found_and_deleted :
    ordered.Increasing ∧ ordered.binarySearch (.ofString "ab") = some 1 ∧
      ∃ after, ordered.delete 1 = .ok (.ofString "ab", after) ∧ after.binarySearch (.ofString "ab") = none := by
  have increasing : ordered.Increasing := by
    unfold Increasing
    decide
  obtain ⟨found, _, _, deleted⟩ := search_and_delete ordered (.ofString "ab") increasing
  have position : ordered.binarySearch (.ofString "ab") = some 1 := (found 1).mpr ⟨by decide, rfl⟩
  obtain ⟨_, _, after, _, _, _, taken, _, _, _, gone⟩ := deleted 1 position
  exact ⟨increasing, position, after, taken, gone⟩

end Growable

end Lowering.Container
