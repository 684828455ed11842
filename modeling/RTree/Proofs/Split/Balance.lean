import RTree.Split.Partition
import Mathlib.Data.List.Basic
import Mathlib.Data.List.Induction
import Mathlib.Data.List.Range

namespace RTree

variable {α β γ : Type}

/-- The items in the places given, as far as there are any. -/
def pick (xs : List β) (places : List Nat) : List β := places.filterMap (xs[·]?)

@[simp] theorem pick_nil (xs : List β) : pick xs [] = [] := rfl

@[simp] theorem nil_pick (places : List Nat) : pick ([] : List β) places = [] := by
  simp [pick]

theorem pick_append (xs : List β) (is js : List Nat) :
    pick xs (is ++ js) = pick xs is ++ pick xs js := List.filterMap_append

theorem pick_singleton {xs : List β} {i : Nat} {x : β} (h : xs[i]? = some x) :
    pick xs [i] = [x] := by simp [pick, h]

theorem pick_map (f : β → γ) (xs : List β) (is : List Nat) :
    pick (xs.map f) is = (pick xs is).map f := by
  simp [pick, List.map_filterMap]

theorem pick_range (xs : List β) : pick xs (List.range xs.length) = xs := by
  induction xs using List.reverseRecOn with
  | nil => rfl
  | append_singleton xs x ih =>
    rw [List.length_append, List.length_singleton, List.range_succ, pick_append]
    have h1 : pick (xs ++ [x]) (List.range xs.length) = pick xs (List.range xs.length) := by
      refine List.filterMap_congr fun i hi => ?_
      simp [List.getElem?_append_left (List.mem_range.mp hi)]
    have h2 : pick (xs ++ [x]) [xs.length] = [x] := pick_singleton (by simp)
    rw [h1, h2, ih]

/-- Picking all places in some order permutes the items. -/
theorem pick_perm {xs : List β} {is : List Nat} (h : is.Perm (List.range xs.length)) :
    (pick xs is).Perm xs := by
  have := h.filterMap (xs[·]?)
  rwa [show List.filterMap (xs[·]?) (List.range xs.length) = xs from pick_range xs] at this

theorem length_pick {xs : List β} {is : List Nat} (h : ∀ i ∈ is, i < xs.length) :
    (pick xs is).length = is.length := by
  induction is with
  | nil => rfl
  | cons i is ih =>
    have hl : i < xs.length := h i (by simp)
    have hi : xs[i]? = some xs[i] := List.getElem?_eq_getElem hl
    rw [show i :: is = [i] ++ is from rfl, pick_append, pick_singleton hi]
    simp [ih fun j hj => h j (by simp [hj])]

theorem mem_of_mem_pick {xs : List β} {is : List Nat} {x : β} (h : x ∈ pick xs is) : x ∈ xs := by
  obtain ⟨i, -, hi⟩ := List.mem_filterMap.mp h
  exact List.mem_of_getElem? hi

namespace Partition

structure Balanced (p : Partition α) (count minimum : Nat) : Prop where
  perm : p.entries.Perm (List.range count)
  le_first : minimum ≤ p.first.length
  le_second : minimum ≤ p.second.length

variable {p : Partition α} {count minimum : Nat}

namespace Balanced

theorem length_add_length (h : p.Balanced count minimum) :
    p.first.length + p.second.length = count := by
  have hl := h.perm.length_eq
  simpa [entries] using hl

theorem isValid (h : p.Balanced count minimum) (hm : 0 < minimum) :
    p.isValid count minimum = true := by
  have hlt : ∀ e ∈ p.entries, e < count := fun e he => List.mem_range.mp (h.perm.mem_iff.mp he)
  have hnd : p.entries.Nodup := h.perm.nodup_iff.mpr List.nodup_range
  have hlen : p.entries.length = count := by simpa using h.perm.length_eq
  have h1 := h.le_first
  have h2 := h.le_second
  unfold Partition.isValid
  simp only [Bool.and_eq_true, List.all_eq_true, decide_eq_true_iff, beq_iff_eq]
  refine ⟨⟨⟨⟨hlt, hnd⟩, hlen⟩, ?_⟩, ?_⟩ <;> split <;> omega

theorem lt_of_mem_first (h : p.Balanced count minimum) : ∀ e ∈ p.first, e < count :=
  fun _ he => List.mem_range.mp (h.perm.mem_iff.mp (List.mem_append_left _ he))

theorem lt_of_mem_second (h : p.Balanced count minimum) : ∀ e ∈ p.second, e < count :=
  fun _ he => List.mem_range.mp (h.perm.mem_iff.mp (List.mem_append_right _ he))

/-- The two groups together hold the items of the whole. -/
theorem pick_perm {xs : List β} (h : p.Balanced xs.length minimum) :
    (pick xs p.first ++ pick xs p.second).Perm xs := by
  rw [← pick_append]
  exact RTree.pick_perm h.perm

end Balanced

/-- Halving gives each group what any minimum asks that two groups can reach. -/
theorem balanced_halves (h : 2 * minimum ≤ count) :
    (halves count : Partition α).Balanced count minimum where
  perm := by rw [entries_halves]
  le_first := by simp [halves]; omega
  le_second := by simp [halves]; omega

end Partition

end RTree
