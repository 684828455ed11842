
namespace RTree

variable {β : Type}

/-- Places `x` into a list that shows its last element first: `x` moves past every element that it
is strictly before, and stops at the first that it is not. -/
def place (before : β → β → Bool) (x : β) : List β → List β
  | [] => [x]
  | y :: ys => if before x y then y :: place before x ys else x :: y :: ys

/-- The elements in increasing order, equals in the order given. The comparison need not be an
order: keys that are no numbers are before nothing and after nothing. -/
def stableSort (before : β → β → Bool) (xs : List β) : List β :=
  (xs.foldl (fun done x => place before x done) []).reverse

/-- The reigning value after each challenger in turn: only one that is better replaces it, so the
first of equals stays. -/
def champion (better : β → β → Bool) (start : β) (challengers : List β) : β :=
  challengers.foldl (fun best x => if better x best then x else best) start

/-- The champion of a list, its first value reigning at the start; an empty list has none. -/
def champion? (better : β → β → Bool) : List β → Option β
  | [] => none
  | x :: xs => some (champion better x xs)

@[simp] theorem champion_nil (better : β → β → Bool) (start : β) :
    champion better start [] = start := rfl

@[simp] theorem champion_cons (better : β → β → Bool) (start x : β) (xs : List β) :
    champion better start (x :: xs) =
      champion better (if better x start then x else start) xs := rfl

theorem place_perm (before : β → β → Bool) (x : β) (xs : List β) :
    (place before x xs).Perm (x :: xs) := by
  induction xs with
  | nil => exact .refl _
  | cons y ys ih =>
    unfold place
    split
    · exact (ih.cons y).trans (.swap x y ys)
    · exact .refl _

/-- Sorting loses and repeats nothing. -/
theorem stableSort_perm (before : β → β → Bool) (xs : List β) : (stableSort before xs).Perm xs := by
  have h : ∀ done : List β,
      (xs.foldl (fun done x => place before x done) done).Perm (xs ++ done) := by
    induction xs with
    | nil => exact fun done => .refl _
    | cons x xs ih =>
      exact fun done => (ih _).trans
        (((place_perm before x done).append_left xs).trans List.perm_middle)
  exact (List.reverse_perm _).trans (by simpa using h [])

@[simp] theorem length_stableSort (before : β → β → Bool) (xs : List β) :
    (stableSort before xs).length = xs.length := (stableSort_perm before xs).length_eq

@[simp] theorem mem_stableSort {before : β → β → Bool} {xs : List β} {x : β} :
    x ∈ stableSort before xs ↔ x ∈ xs := (stableSort_perm before xs).mem_iff

end RTree
