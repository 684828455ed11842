import RTree.Proofs.Champion
import RTree.Proofs.Halves
import RTree.Proofs.Rectangle.Growth
import Mathlib.Data.Prod.Lex

namespace RTree

open Exact (finite)

section

variable [SquareRoot]

namespace DescentCost

variable {c d : DescentCost Exact}

structure Finite (c : DescentCost Exact) : Prop where
  first : Scalar.isFinite c.first = true
  second : Scalar.isFinite c.second = true
  third : Scalar.isFinite c.third = true

/-- The three numbers, in the order in which they decide. -/
def key (c : DescentCost Exact) : Rat ×ₗ Rat ×ₗ Rat :=
  toLex (c.first.value, toLex (c.second.value, c.third.value))

theorem Finite.eq (h : c.Finite) : ∃ a b e : Rat, c = ⟨finite a, finite b, finite e⟩ := by
  obtain ⟨first, second, third⟩ := c
  obtain ⟨a, rfl⟩ := Exact.isFinite_iff.mp h.first
  obtain ⟨b, rfl⟩ := Exact.isFinite_iff.mp h.second
  obtain ⟨e, rfl⟩ := Exact.isFinite_iff.mp h.third
  exact ⟨a, b, e, rfl⟩

theorem below_eq (hc : c.Finite) (hd : d.Finite) : c.below d = decide (c.key < d.key) := by
  obtain ⟨a, b, e, rfl⟩ := hc.eq
  obtain ⟨a', b', e', rfl⟩ := hd.eq
  rw [Bool.eq_iff_iff, decide_eq_true_eq]
  simp only [below, key, Exact.value, Exact.finite_beq, Exact.finite_lt, decide_eq_true_eq,
    Prod.Lex.toLex_lt_toLex]
  by_cases ha : a = a'
  · by_cases hb : b = b'
    · simp [ha, hb]
    · simp [ha, hb]
  · simp [ha]

theorem Finite.below_highest (h : c.Finite) : c.below highest = true := by
  obtain ⟨a, b, e, rfl⟩ := h.eq
  rfl

end DescentCost

namespace DescentRule

variable {rule : DescentRule} {aboveLeaves : Bool} {bounds : List (Rectangle Exact)}
  {p : List Exact} {d i : Nat} {r : Rectangle Exact}

/-- The child in place `i` has the least costs, and those before it have greater ones. -/
structure ChoosesFirst (rule : DescentRule) (aboveLeaves : Bool) (bounds : List (Rectangle Exact))
    (p : List Exact) (i : Nat) (r : Rectangle Exact) : Prop where
  bound : bounds[i]? = some r
  isFinite : ∀ (j : Nat) s, bounds[j]? = some s → (rule.cost aboveLeaves bounds p s j).Finite
  least : ∀ (j : Nat) s, bounds[j]? = some s →
    (rule.cost aboveLeaves bounds p r i).key ≤ (rule.cost aboveLeaves bounds p s j).key
  first : ∀ (j : Nat) s, bounds[j]? = some s → j < i →
    (rule.cost aboveLeaves bounds p r i).key < (rule.cost aboveLeaves bounds p s j).key

/-- Costs are rational numbers, and what grows does not shrink. -/
theorem exists_costs (hb : ∀ s ∈ bounds, s.Solid d) (hp : Rectangle.FinitePoint d p)
    (hr : r ∈ bounds) (i : Nat) :
    ∃ g e v : Rat, r.overlapGrowth (bounds.eraseIdx i) p = finite g ∧
      r.pointEnlargement p = finite e ∧ r.volume = finite v ∧ 0 ≤ g ∧ 0 ≤ e := by
  have hsolid := hb r hr
  obtain ⟨-, g, -, hg, hg0, -⟩ :=
    hsolid.overlapGrowth hp fun s hs => hb s (List.mem_of_mem_eraseIdx hs)
  obtain ⟨e, he, he0⟩ := hsolid.pointEnlargement hp
  obtain ⟨v, -, hv, -, -, -⟩ := hsolid.volume_union hp.solid
  exact ⟨g, e, v, hg, he, hv, hg0, he0⟩

theorem finite_cost (hb : ∀ s ∈ bounds, s.Solid d) (hp : Rectangle.FinitePoint d p)
    (hr : r ∈ bounds) (i : Nat) : (rule.cost aboveLeaves bounds p r i).Finite := by
  obtain ⟨g, e, v, hg, he, hv, -, -⟩ := exists_costs hb hp hr i
  unfold cost
  split
  · rw [hg, he, hv]
    exact ⟨rfl, rfl, rfl⟩
  · rw [he, hv]
    exact ⟨rfl, rfl, rfl⟩

/-- The first cost met is below the highest; from then on the costs are compared as numbers. -/
theorem choosesFirst_choose (rule : DescentRule) (aboveLeaves : Bool)
    (hb : ∀ s ∈ bounds, s.Solid d) (hp : Rectangle.FinitePoint d p) (hne : bounds ≠ []) :
    ∃ r, rule.ChoosesFirst aboveLeaves bounds p (rule.choose aboveLeaves bounds p) r := by
  let below : DescentCost Exact × Nat → DescentCost Exact × Nat → Bool := fun a b => a.1.below b.1
  let keyed : DescentCost Exact × Nat → DescentCost Exact × Nat → Bool :=
    fun a b => decide (a.1.key < b.1.key)
  let price : Rectangle Exact × Nat → DescentCost Exact × Nat :=
    fun x => (rule.cost aboveLeaves bounds p x.1 x.2, x.2)
  have hfinite : ∀ (j : Nat) s, bounds[j]? = some s →
      (rule.cost aboveLeaves bounds p s j).Finite :=
    fun j s hs => finite_cost hb hp (List.mem_of_getElem? hs) j
  have hprices : ∀ x ∈ bounds.zipIdx.map price, x.1.Finite := by
    intro x hx
    obtain ⟨y, hy, rfl⟩ := List.mem_map.mp hx
    exact hfinite y.2 y.1 (List.mem_zipIdx_iff_getElem?.mp hy)
  obtain ⟨x, xs, hxs⟩ := List.exists_cons_of_ne_nil
    (show bounds.zipIdx.map price ≠ [] by simpa using hne)
  rw [hxs] at hprices
  have hchoose : rule.choose aboveLeaves bounds p = (champion keyed x xs).2 := by
    have hstart : below x (DescentCost.highest, 0) = true :=
      (hprices x List.mem_cons_self).below_highest
    have hcongr : champion below x xs = champion keyed x xs :=
      champion_congr fun y hy z hz => DescentCost.below_eq (hprices y hy) (hprices z hz)
    change (champion below (DescentCost.highest, 0) (bounds.zipIdx.map price)).2 = _
    rw [hxs, champion_cons, if_pos hstart, hcongr]
  have horder : StrictOrder keyed := .of_key fun a : DescentCost Exact × Nat => a.1.key
  have hforemost := horder.foremost_champion (graded_of_key _ (x :: xs))
  rw [← hxs] at hforemost
  obtain ⟨n, hn, hbest⟩ := hforemost.exists_place horder
  rw [List.getElem?_map, List.getElem?_zipIdx, Option.map_map, Option.map_eq_some_iff] at hn
  obtain ⟨r, hr, heq⟩ := hn
  change price (r, 0 + n) = champion keyed x xs at heq
  rw [Nat.zero_add] at heq
  have hplace : rule.choose aboveLeaves bounds p = n := by rw [hchoose, ← heq]
  have hcompare : ∀ (j : Nat) s, bounds[j]? = some s →
      keyed (price (s, j)) (price (r, n)) = false ∧
        (j < n → keyed (price (r, n)) (price (s, j)) = true) := by
    intro j s hs
    rw [heq]
    exact hbest j (price (s, j)) (by simp [hs])
  rw [hplace]
  refine ⟨r, hr, hfinite, fun j s hs => ?_, fun j s hs hlt => ?_⟩
  · exact not_lt.mp (of_decide_eq_false (hcompare j s hs).1)
  · exact of_decide_eq_true ((hcompare j s hs).2 hlt)

/-- Where a child holds the point, a child that does not grow is chosen. -/
theorem ChoosesFirst.still (h : rule.ChoosesFirst aboveLeaves bounds p i r)
    (hb : ∀ s ∈ bounds, s.Solid d) (hp : Rectangle.FinitePoint d p)
    (hheld : ∃ s ∈ bounds, s.contains p = true) :
    r.pointEnlargement p = finite 0 ∧
      (rule = leastOverlap → aboveLeaves = true →
        r.overlapGrowth (bounds.eraseIdx i) p = finite 0) := by
  obtain ⟨s, hs, hheld⟩ := hheld
  obtain ⟨j, hj⟩ := List.getElem?_of_mem hs
  obtain ⟨he', hg'⟩ := (hb s hs).growth_of_contains hp
    (fun q hq => hb q (List.mem_of_mem_eraseIdx (i := j) hq)) hheld
  obtain ⟨g, e, v, hg, he, hv, hg0, he0⟩ := exists_costs hb hp (List.mem_of_getElem? h.bound) i
  obtain ⟨-, -, v', -, -, hv', -, -⟩ := exists_costs hb hp hs j
  have hleast := h.least j s hj
  by_cases hrule : rule = leastOverlap ∧ aboveLeaves = true
  · simp only [cost, if_pos hrule, DescentCost.key, hg, he, hv, hg', he', hv', Exact.value,
      Prod.Lex.toLex_le_toLex] at hleast
    obtain ⟨rfl, rfl⟩ : g = 0 ∧ e = 0 := by
      rcases hleast with hlt | ⟨hzero, hlt | ⟨hzero', -⟩⟩
      · linarith
      · linarith
      · exact ⟨hzero, hzero'⟩
    exact ⟨he, fun _ _ => hg⟩
  · simp only [cost, if_neg hrule, DescentCost.key, he, hv, he', hv', Exact.value,
      Prod.Lex.toLex_le_toLex] at hleast
    obtain rfl : e = 0 := by
      rcases hleast with hlt | ⟨hzero, -⟩
      · linarith
      · exact hzero
    exact ⟨he, fun hoverlap habove => absurd ⟨hoverlap, habove⟩ hrule⟩

end DescentRule

namespace Tree

variable {t : Tree Exact} {lev : NodeId → Nat} {x : NodeId} {p : List Exact}

/-- What the descent of a point does at a directory: it goes to the first child with the least
costs. If some child holds the point, the one chosen keeps its volume, and where the overlap counts
also what it has in common with its siblings. -/
structure DescendsTo (t : Tree Exact) (rule : DescentRule) (x : NodeId) (p : List Exact)
    (aboveLeaves : Bool) (i : Nat) (r : Rectangle Exact) : Prop where
  childFor : t.childFor rule (t.slot x) p = .ok i
  children_leaf : ∀ c ∈ (t.slot x).children, (t.slot c).leaf = aboveLeaves
  choosesFirst : rule.ChoosesFirst aboveLeaves
    ((t.slot x).children.map fun c => (t.slot c).bound) p i r
  volume : (∃ c ∈ (t.slot x).children, (t.slot c).bound.contains p = true) →
    r.pointEnlargement p = finite 0 ∧ (r.insert p).volume = r.volume
  overlap : (∃ c ∈ (t.slot x).children, (t.slot c).bound.contains p = true) →
    rule = .leastOverlap → aboveLeaves = true →
      let siblings := ((t.slot x).children.map fun c => (t.slot c).bound).eraseIdx i
      Scalar.sum (siblings.map (r.insert p).overlap) = Scalar.sum (siblings.map r.overlap)

omit [SquareRoot] in
/-- The children of one node are all leaves or none of them is. -/
theorem Linked.leaf_eq (h : t.Linked lev []) {c c' : NodeId} (hc : c ∈ (t.slot x).children)
    (hc' : c' ∈ (t.slot x).children) : (t.slot c').leaf = (t.slot c).leaf := by
  obtain ⟨hcu, -, hlev⟩ := h.child x c hc
  obtain ⟨hcu', -, hlev'⟩ := h.child x c' hc'
  rw [Bool.eq_iff_iff, h.leaf_iff c hcu, h.leaf_iff c' hcu']
  omega

theorem Shaped.descendsTo (h : t.Shaped lev none none []) (hx : t.InUse x)
    (hdirectory : (t.slot x).leaf = false) (hp : Rectangle.FinitePoint t.dim p)
    (rule : DescentRule) : ∃ aboveLeaves i r, t.DescendsTo rule x p aboveLeaves i r := by
  obtain ⟨c, cs, hcs⟩ := List.exists_cons_of_ne_nil (h.children_ne_nil hx hdirectory)
  have hsolid : ∀ s ∈ (t.slot x).children.map fun c => (t.slot c).bound, s.Solid t.dim := by
    intro s hs
    obtain ⟨c, hc, rfl⟩ := List.mem_map.mp hs
    exact h.solid_bound (h.linked.child x c hc).1 (h.linked.ne_root hc)
  obtain ⟨r, hfirst⟩ := rule.choosesFirst_choose (t.slot c).leaf hsolid hp (by simp [hcs])
  have hstill : (∃ c ∈ (t.slot x).children, (t.slot c).bound.contains p = true) → _ :=
    fun ⟨c, hc, hheld⟩ => hfirst.still hsolid hp ⟨_, List.mem_map_of_mem hc, hheld⟩
  have hr := hsolid r (List.mem_of_getElem? hfirst.bound)
  refine ⟨(t.slot c).leaf, _, r, TreeM.childFor_eq rule p (h.legible x) hcs, ?_, hfirst, ?_, ?_⟩
  · exact fun c' hc' => h.linked.leaf_eq (by simp [hcs]) hc'
  · intro hheld
    exact ⟨(hstill hheld).1, hr.volume_insert hp (hstill hheld).1⟩
  · intro hheld hrule habove
    exact hr.sum_overlap_insert hp (fun s hs => hsolid s (List.mem_of_mem_eraseIdx hs))
      ((hstill hheld).2 hrule habove)

/-- After any calls, a descent by either rule goes from any directory to the first child with the
least costs. It never enlarges a child, or its overlap with the others, where it need not. -/
theorem descends_economically {c : Config Exact} {t₀ : Tree Exact} (h : Tree.new c = .ok t₀)
    (ks : List (Call Exact)) {x : NodeId}
    (hx : (t₀.calls ks).2.Below (t₀.calls ks).2.root x)
    (hdirectory : ((t₀.calls ks).2.slot x).leaf = false) {p : List Exact}
    (hp : Rectangle.FinitePoint c.dimension p) (rule : DescentRule) :
    ∃ aboveLeaves i r, (t₀.calls ks).2.DescendsTo rule x p aboveLeaves i r := by
  have hsettled := settled_new h
  obtain ⟨-, rfl⟩ := new_eq_ok.mp h
  have hdim : ((ofConfig c).calls ks).2.dim = c.dimension :=
    congrArg Config.dimension (config_calls hsettled ks)
  rw [← hdim] at hp
  obtain ⟨lev, hshaped⟩ := (hsettled.calls ks).sound
  exact hshaped.descendsTo (hshaped.linked.inUse_of_below hshaped.linked.root hx) hdirectory hp rule

end Tree

end

namespace Tree

def plane : Config Exact := { lenient with dimension := 2, variant := .rStar }

/-- Three points in two leaves, the second of which holds a single one. -/
def scattered : Tree Exact :=
  ((ofConfig plane).calls [.insert [finite 4, finite 1], .insert [finite 7, finite 2],
    .insert [finite 6, finite 9]]).2

/-- The first leaf holds the point already, but the second stays flat when it takes in what lies
straight below, and its volume is less. -/
theorem descends_economically_flat :
    (∃ c ∈ (scattered.slot scattered.root).children,
      (scattered.slot c).bound.contains [finite 6, finite 1] = true) ∧
    ∀ rule, ∃ r, scattered.DescendsTo rule scattered.root [finite 6, finite 1] true 1 r ∧
      r.contains [finite 6, finite 1] = false ∧
        r.pointEnlargement [finite 6, finite 1] = finite 0 := by
  have hvalid : plane.validate = .ok () := by
    have hok : plane.validate.toOption = some () := by decide +kernel
    cases hv : plane.validate with
    | ok => rfl
    | error cause =>
      rw [hv] at hok
      cases hok
  have hpoint : Rectangle.FinitePoint 2 [finite 6, finite 1] := ⟨rfl, by decide⟩
  have hheld : ∃ c ∈ (scattered.slot scattered.root).children,
      (scattered.slot c).bound.contains [finite 6, finite 1] = true := by decide +kernel
  refine ⟨hheld, fun rule => ?_⟩
  obtain ⟨aboveLeaves, i, r, hdescends⟩ := descends_economically (new_eq_ok.mpr ⟨hvalid, rfl⟩)
    [.insert [finite 4, finite 1], .insert [finite 7, finite 2], .insert [finite 6, finite 9]] .refl
    (by decide +kernel) hpoint rule
  change scattered.DescendsTo rule scattered.root _ aboveLeaves i r at hdescends
  have hchosen : ∀ rule ∈ [DescentRule.leastEnlargement, .leastOverlap],
      (scattered.childFor rule (scattered.slot scattered.root) [finite 6, finite 1]).toOption =
        some 1 := by decide +kernel
  obtain rfl : i = 1 := by
    have hone := hchosen rule (by cases rule <;> simp)
    rw [hdescends.childFor] at hone
    exact Option.some.inj hone
  obtain rfl : aboveLeaves = true := by
    have hleaf : ∃ c ∈ (scattered.slot scattered.root).children,
        (scattered.slot c).leaf = true := by decide +kernel
    obtain ⟨c, hc, hleaf⟩ := hleaf
    exact (hdescends.children_leaf c hc).symm.trans hleaf
  have houtside : ((scattered.slot scattered.root).children[1]?.map fun c =>
      (scattered.slot c).bound.contains [finite 6, finite 1]) = some false := by decide +kernel
  refine ⟨r, hdescends, ?_, (hdescends.volume hheld).1⟩
  have hbound := hdescends.choosesFirst.bound
  rw [List.getElem?_map, Option.map_eq_some_iff] at hbound
  obtain ⟨c, hc, rfl⟩ := hbound
  rw [hc] at houtside
  exact Option.some.inj houtside

end Tree

end RTree
