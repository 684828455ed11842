import RTree.Proofs.Scalar.Lexicographic
import RTree.Proofs.Split.Feasible

namespace RTree

open OrderedScalar
open Scalar (isNumber lexLt)

variable {α : Type} [Scalar α]

def Rectangle.waste (r s : Rectangle α) : α × α := (r.deadSpace s, r.distanceOfCenters s)

/-- The waste of two rectangles is a number twice. -/
def Rectangle.Comparable (r s : Rectangle α) : Prop :=
  isNumber (r.waste s).1 = true ∧ isNumber (r.waste s).2 = true

instance (r s : Rectangle α) : Decidable (r.Comparable s) := inferInstanceAs (Decidable (_ ∧ _))

/-- Places `i` and `j`, with what is in them, are those to start from: no two rectangles waste more,
and none that come earlier waste as much. -/
structure SeedChoice (rects : List (Rectangle α)) (i j : Nat) (r s : Rectangle α) : Prop where
  lt : i < j
  first : rects[i]? = some r
  second : rects[j]? = some s
  most : ∀ (i' j' : Nat) r' s', i' < j' → rects[i']? = some r' → rects[j']? = some s' →
    lexLt (r.waste s) (r'.waste s') = false
  earliest : ∀ (i' j' : Nat) r' s', i' < j' → rects[i']? = some r' → rects[j']? = some s' →
    i' < i ∨ i' = i ∧ j' < j → (r'.waste s' == r.waste s) = false

namespace SeedPair

def of (a b : Nat × Rectangle α) : SeedPair α := ⟨a.1, b.1, (a.2.waste b.2).1, (a.2.waste b.2).2⟩

def score (p : SeedPair α) : α × α := (p.dead, p.spread)

def Before (p q : SeedPair α) : Prop := p.first < q.first ∨ p.first = q.first ∧ p.second < q.second

theorem isBetter_eq [OrderedScalar α] :
    isBetter (α := α) = fun p q => lexLt q.score p.score := by
  funext p q
  have hcomm : (p.dead == q.dead) = (q.dead == p.dead) :=
    Bool.eq_iff_iff.mpr ⟨Scalar.beq_symm, Scalar.beq_symm⟩
  rw [isBetter, hcomm]
  rfl

theorem strictOrder_isBetter [OrderedScalar α] : StrictOrder (isBetter (α := α)) := by
  rw [isBetter_eq]
  exact (Scalar.strictOrder_lexLt.comap score).flip

theorem graded_isBetter [OrderedScalar α] {ps : List (SeedPair α)}
    (h : ∀ p ∈ ps, isNumber p.dead = true ∧ isNumber p.spread = true) : Graded isBetter ps := by
  rw [isBetter_eq]
  exact (Scalar.graded_lexLt (f := score) h).flip

end SeedPair

section Pairs

variable {xs : List (Nat × Rectangle α)} {rects : List (Rectangle α)}

/-- Every pair is one of an entry and a later one. -/
theorem exists_of_mem_seedPairs {R : Nat × Rectangle α → Nat × Rectangle α → Prop}
    (h : xs.Pairwise R) {p : SeedPair α} (hp : p ∈ seedPairs xs) :
    ∃ a ∈ xs, ∃ b ∈ xs, R a b ∧ p = SeedPair.of a b := by
  induction xs with
  | nil => cases hp
  | cons x xs ih =>
    obtain ⟨hx, hxs⟩ := List.pairwise_cons.mp h
    rcases List.mem_append.mp hp with hp | hp
    · obtain ⟨y, hy, rfl⟩ := List.mem_map.mp hp
      exact ⟨x, List.mem_cons_self, y, List.mem_cons_of_mem _ hy, hx y hy, rfl⟩
    · obtain ⟨a, ha, b, hb, hab, rfl⟩ := ih hxs hp
      exact ⟨a, List.mem_cons_of_mem _ ha, b, List.mem_cons_of_mem _ hb, hab, rfl⟩

theorem pairwise_mem_seedPairs (xs : List (Nat × Rectangle α)) :
    xs.Pairwise fun a b => SeedPair.of a b ∈ seedPairs xs := by
  induction xs with
  | nil => exact .nil
  | cons x xs ih =>
    refine .cons (fun y hy => ?_) (ih.imp fun h => List.mem_append_right _ h)
    exact List.mem_append_left _ (List.mem_map.mpr ⟨y, hy, rfl⟩)

/-- The pairs come in the order of their places. -/
theorem pairwise_seedPairs (hs : (xs.map Prod.fst).Pairwise (· < ·)) :
    (seedPairs xs).Pairwise SeedPair.Before := by
  induction xs with
  | nil => exact .nil
  | cons x xs ih =>
    obtain ⟨hx, hxs⟩ := List.pairwise_cons.mp hs
    refine List.pairwise_append.mpr ⟨?_, ih hxs, ?_⟩
    · rw [List.pairwise_map]
      exact (List.pairwise_map.mp hxs).imp fun h => .inr ⟨rfl, h⟩
    · intro p hp q hq
      obtain ⟨y, -, rfl⟩ := List.mem_map.mp hp
      exact .inl (hx _ (seedPairs_lt hxs hq).2.1)

omit [Scalar α] in
/-- In a list in order, what comes before an element has the smaller index. -/
theorem SeedPair.Before.index_lt {ps : List (SeedPair α)} (hs : ps.Pairwise Before)
    {m n : Nat} {p q : SeedPair α} (hp : ps[m]? = some p) (hq : ps[n]? = some q)
    (h : p.Before q) : m < n := by
  obtain ⟨hm, rfl⟩ := List.getElem?_eq_some_iff.mp hp
  obtain ⟨hn, rfl⟩ := List.getElem?_eq_some_iff.mp hq
  rcases Nat.lt_trichotomy m n with hlt | rfl | hlt
  · exact hlt
  · unfold Before at h
    omega
  · have hback := List.pairwise_iff_getElem.mp hs n m hn hm hlt
    unfold Before at h hback
    omega

theorem mem_seedPairs_placed {i j : Nat} {r s : Rectangle α} (hij : i < j)
    (hi : rects[i]? = some r) (hj : rects[j]? = some s) :
    SeedPair.of (i, r) (j, s) ∈ seedPairs (placed rects) := by
  obtain ⟨hi', rfl⟩ := List.getElem?_eq_some_iff.mp hi
  obtain ⟨hj', rfl⟩ := List.getElem?_eq_some_iff.mp hj
  have hpairs := List.pairwise_iff_getElem.mp (pairwise_mem_seedPairs (placed rects)) i j
    (by simpa [placed] using hi') (by simpa [placed] using hj') hij
  simpa [placed] using hpairs

end Pairs

section Best

variable [OrderedScalar α] {rects : List (Rectangle α)}

/-- What holds the place of the best pair as long as no pair has a score. -/
def SeedPair.unscored : SeedPair α := ⟨0, 1, Scalar.bottom, Scalar.bottom⟩

omit [OrderedScalar α] in
theorem pairwise_placed (hscores : rects.Pairwise Rectangle.Comparable) :
    (placed rects).Pairwise fun a b => a.1 < b.1 ∧ a.2.Comparable b.2 := by
  rw [← map_snd_placed rects] at hscores
  exact (List.pairwise_map.mp (placed_increasing rects)).and (List.pairwise_map.mp hscores)

theorem isNumber_of_mem_seedPairs (hscores : rects.Pairwise Rectangle.Comparable) :
    ∀ p ∈ SeedPair.unscored :: seedPairs (placed rects),
      isNumber p.dead = true ∧ isNumber p.spread = true := by
  refine List.forall_mem_cons.mpr ⟨⟨isNumber_bottom, isNumber_bottom⟩, fun p hp => ?_⟩
  obtain ⟨a, -, b, -, ⟨-, hab⟩, rfl⟩ := exists_of_mem_seedPairs (pairwise_placed hscores) hp
  exact hab

/-- Where no pair has a score above the bottom, all waste the same, and the first pair is as good as
any. -/
theorem seedChoice_of_unscored (htwo : 2 ≤ rects.length)
    (hscores : rects.Pairwise Rectangle.Comparable)
    (h : ∀ (i j : Nat) r s, i < j → rects[i]? = some r → rects[j]? = some s →
      lexLt (SeedPair.unscored : SeedPair α).score (r.waste s) = false) :
    ∃ r s, SeedChoice rects 0 1 r s := by
  have hfirst : rects[0]? = some rects[0] := List.getElem?_eq_getElem _
  have hsecond : rects[1]? = some rects[1] := List.getElem?_eq_getElem _
  have hmem := mem_seedPairs_placed Nat.zero_lt_one hfirst hsecond
  refine ⟨rects[0], rects[1], Nat.zero_lt_one, hfirst, hsecond, ?_, by omega⟩
  intro i j r s hij hi hj
  by_contra hlt
  have hgraded := Scalar.graded_lexLt (f := SeedPair.score) (isNumber_of_mem_seedPairs hscores)
  have hbelow := hgraded _ (List.mem_cons_of_mem _ hmem) _
    (List.mem_cons_of_mem _ (mem_seedPairs_placed hij hi hj)) _ List.mem_cons_self
    (Bool.eq_true_of_not_eq_false hlt) (h i j r s hij hi hj)
  exact Bool.false_ne_true ((Scalar.not_lexLt_bottom _).symm.trans hbelow)

/-- The pair that starts the groups is the first of those that waste most. -/
theorem exists_seedChoice (htwo : 2 ≤ rects.length)
    (hscores : rects.Pairwise Rectangle.Comparable) :
    ∃ r s, SeedChoice rects (bestSeeds rects).first (bestSeeds rects).second r s := by
  have hstrict : StrictOrder (SeedPair.isBetter (α := α)) := SeedPair.strictOrder_isBetter
  obtain ⟨n, hn, hbest⟩ := (hstrict.foremost_champion
    (SeedPair.graded_isBetter (isNumber_of_mem_seedPairs hscores))).exists_place hstrict
  change (SeedPair.unscored :: seedPairs (placed rects))[n]? = some (bestSeeds rects) at hn
  change ∀ (m : Nat) q, (SeedPair.unscored :: seedPairs (placed rects))[m]? = some q →
    q.isBetter (bestSeeds rects) = false ∧ (m < n → (bestSeeds rects).isBetter q = true) at hbest
  simp only [SeedPair.isBetter_eq] at hbest
  have hmost : ∀ (i j : Nat) r s, i < j → rects[i]? = some r → rects[j]? = some s →
      lexLt (bestSeeds rects).score (r.waste s) = false := by
    intro i j r s hij hi hj
    obtain ⟨m, hm⟩ := List.getElem?_of_mem (mem_seedPairs_placed hij hi hj)
    exact (hbest (m + 1) _ hm).1
  cases n with
  | zero =>
    have hnone : SeedPair.unscored = bestSeeds rects := Option.some.inj hn
    rw [← hnone] at hmost ⊢
    exact seedChoice_of_unscored htwo hscores hmost
  | succ n =>
    obtain ⟨⟨i, r⟩, hi, ⟨j, s⟩, hj, ⟨hij, -⟩, hpair⟩ :=
      exists_of_mem_seedPairs (pairwise_placed hscores) (List.mem_of_getElem? hn)
    rw [hpair] at hn hbest hmost ⊢
    refine ⟨r, s, hij, mem_placed.mp hi, mem_placed.mp hj, hmost, ?_⟩
    intro i' j' r' s' hij' hi' hj' hbefore
    obtain ⟨m, hm⟩ := List.getElem?_of_mem (mem_seedPairs_placed hij' hi' hj')
    have hlt : m < n :=
      SeedPair.Before.index_lt (pairwise_seedPairs (placed_increasing rects)) hm hn hbefore
    exact Scalar.not_beq_of_lexLt ((hbest (m + 1) _ hm).2 (Nat.succ_lt_succ hlt))

end Best

end RTree
