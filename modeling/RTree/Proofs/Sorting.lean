import RTree.Sorting

namespace RTree

variable {β : Type} {better : β → β → Bool}

theorem champion_mem (better : β → β → Bool) (start : β) (xs : List β) :
    champion better start xs ∈ start :: xs := by
  induction xs generalizing start with
  | nil => simp
  | cons x xs ih =>
    rw [champion_cons]
    have h := ih (if better x start then x else start)
    rw [List.mem_cons] at h ⊢
    rcases h with h | h
    · rw [h]
      split <;> simp
    · exact .inr (List.mem_cons_of_mem _ h)

theorem champion?_mem {xs : List β} {x : β} (h : champion? better xs = some x) : x ∈ xs := by
  cases xs with
  | nil => cases h
  | cons y ys =>
    obtain rfl : champion better y ys = x := Option.some.inj h
    exact champion_mem better y ys

theorem exists_champion? (better : β → β → Bool) {xs : List β} (h : xs ≠ []) :
    ∃ x ∈ xs, champion? better xs = some x := by
  cases xs with
  | nil => exact absurd rfl h
  | cons y ys => exact ⟨_, champion_mem better y ys, rfl⟩

/-- Choosing looks at the values through the comparison alone. -/
theorem champion_map {γ : Type} (better : β → β → Bool) (g : γ → β) (start : γ) (xs : List γ) :
    champion better (g start) (xs.map g) =
      g (champion (fun x y => better (g x) (g y)) start xs) := by
  induction xs generalizing start with
  | nil => rfl
  | cons x xs ih =>
    rw [List.map_cons, champion_cons, champion_cons, ← ih]
    split <;> rfl

theorem champion?_map {γ : Type} (better : β → β → Bool) (g : γ → β) (xs : List γ) :
    champion? better (xs.map g) = (champion? (fun x y => better (g x) (g y)) xs).map g := by
  cases xs with
  | nil => rfl
  | cons x xs => exact congrArg some (champion_map better g x xs)

/-- The places of a list's elements increase. -/
theorem pairwise_zipIdx (xs : List β) : xs.zipIdx.Pairwise fun a b => a.2 < b.2 := by
  rw [← List.pairwise_map (f := Prod.snd) (R := fun a b => a < b), List.zipIdx_map_snd]
  exact List.pairwise_lt_range'

section

variable {before : β → β → Bool} {R : β → β → Prop} (htrans : ∀ a b c, R a b → R b c → R a c)
include htrans

/-- A value whose comparison with each element tells their order is placed by it. -/
theorem place_pairwise_of (x : β) {xs : List β} (h : xs.Pairwise fun a b => R b a)
    (hx : ∀ y ∈ xs, if before x y then R x y else R y x) :
    (place before x xs).Pairwise fun a b => R b a := by
  induction xs with
  | nil => exact List.pairwise_singleton _ x
  | cons y ys ih =>
    obtain ⟨hy, hys⟩ := List.pairwise_cons.mp h
    obtain ⟨hxy, hxys⟩ := List.forall_mem_cons.mp hx
    unfold place
    split
    · rename_i hbefore
      rw [if_pos hbefore] at hxy
      apply List.pairwise_cons.mpr ⟨?_, ih hys hxys⟩
      intro z hz
      cases List.mem_cons.mp ((place_perm before x ys).mem_iff.mp hz) with
      | inl hzx => exact hzx ▸ hxy
      | inr hz => exact hy z hz
    · rename_i hbefore
      rw [if_neg hbefore] at hxy
      apply List.pairwise_cons.mpr ⟨?_, h⟩
      intro z hz
      cases List.mem_cons.mp hz with
      | inl hzy => exact hzy ▸ hxy
      | inr hz => exact htrans z y x (hy z hz) hxy

/-- A list is put into any order that the comparison of each element with those before it tells. -/
theorem stableSort_pairwise_of {xs : List β}
    (h : xs.Pairwise fun y x => if before x y then R x y else R y x) :
    (stableSort before xs).Pairwise R := by
  unfold stableSort
  rw [List.pairwise_reverse]
  have hfold : ∀ done : List β, done.Pairwise (fun a b => R b a) →
      (∀ x ∈ xs, ∀ y ∈ done, if before x y then R x y else R y x) →
      (xs.foldl (fun done x => place before x done) done).Pairwise fun a b => R b a := by
    induction xs with
    | nil => exact fun _ hdone _ => hdone
    | cons x xs ih =>
      intro done hdone hlater
      obtain ⟨hx, hxs⟩ := List.pairwise_cons.mp h
      obtain ⟨hfirst, hrest⟩ := List.forall_mem_cons.mp hlater
      refine ih hxs _ (place_pairwise_of htrans x hdone hfirst) fun z hz y hy => ?_
      cases List.mem_cons.mp ((place_perm before x done).mem_iff.mp hy) with
      | inl hyx => exact hyx ▸ hx z hz
      | inr hy => exact hrest z hz y hy
  exact hfold [] List.Pairwise.nil (by simp)

end

theorem stableSort_pairwise {before : β → β → Bool}
    (hasymm : ∀ a b, before a b = true → before b a = false)
    (htrans : ∀ a b c, before a b = false → before b c = false → before a c = false)
    (xs : List β) : (stableSort before xs).Pairwise fun a b => before b a = false := by
  apply stableSort_pairwise_of fun a b c hab hbc => htrans c b a hbc hab
  apply List.pairwise_of_forall
  intro y x
  split
  · rename_i hbefore
    exact hasymm x y hbefore
  · rename_i hbefore
    simpa using hbefore

/-- A sort by a number. -/
theorem stableSort_pairwise_key (key : β → Nat) (xs : List β) :
    (stableSort (fun x y => decide (key x < key y)) xs).Pairwise fun x y => key x ≤ key y := by
  let before : β → β → Bool := fun x y => decide (key x < key y)
  have hsorted : (stableSort before xs).Pairwise fun x y => before y x = false :=
    stableSort_pairwise (by simp [before]; omega) (by simp [before]; omega) xs
  exact hsorted.imp (by simp [before])

/-- Sorting looks at the elements through the comparison alone. -/
theorem stableSort_map {γ : Type} (before : β → β → Bool) {before' : γ → γ → Bool} {g : β → γ}
    (h : ∀ x y, before' (g x) (g y) = before x y) (xs : List β) :
    stableSort before' (xs.map g) = (stableSort before xs).map g := by
  have hplace : ∀ x ys, place before' (g x) (ys.map g) = (place before x ys).map g := by
    intro x ys
    induction ys with
    | nil => rfl
    | cons y ys ih =>
      simp only [List.map_cons, place, h]
      split
      · rw [ih, List.map_cons]
      · rfl
  have hfold : ∀ done : List β, (xs.map g).foldl (fun done x => place before' x done)
      (done.map g) = (xs.foldl (fun done x => place before x done) done).map g := by
    induction xs with
    | nil => exact fun _ => rfl
    | cons x xs ih =>
      intro done
      rw [List.map_cons, List.foldl_cons, List.foldl_cons, hplace, ih]
  unfold stableSort
  rw [List.map_reverse]
  exact congrArg List.reverse (hfold [])

/-- Sorting asks the comparison about the elements of the list only. -/
theorem stableSort_congr {before before' : β → β → Bool} {xs : List β}
    (h : ∀ x ∈ xs, ∀ y ∈ xs, before x y = before' x y) :
    stableSort before xs = stableSort before' xs := by
  let agreed : {x // x ∈ xs} → {x // x ∈ xs} → Bool := fun x y => before x y
  have hsort : stableSort before (xs.attach.map Subtype.val) =
      (stableSort agreed xs.attach).map Subtype.val :=
    stableSort_map agreed (g := Subtype.val) (fun _ _ => rfl) _
  have hsort' : stableSort before' (xs.attach.map Subtype.val) =
      (stableSort agreed xs.attach).map Subtype.val :=
    stableSort_map agreed (g := Subtype.val) (fun x y => (h x x.2 y y.2).symm) _
  rw [List.attach_map_subtype_val] at hsort hsort'
  exact hsort.trans hsort'.symm

end RTree
