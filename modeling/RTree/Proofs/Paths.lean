import RTree.Proofs.Diagnosis
import RTree.Proofs.Heights
import RTree.Proofs.Integrity

namespace RTree

variable {α : Type}

namespace Tree

/-- The nodes from the root down to the only leaf that lists a point, which is in all their
bounds. -/
structure Leads [Scalar α] (t : Tree α) (p : PointId) (path : List NodeId) : Prop where
  head : path.head? = some t.root
  linked : path.IsChain fun x c => c ∈ (t.slot x).children ∧ (t.slot c).parent = some x
  bound : ∃ coords, t.point? p = some coords ∧
    ∀ x ∈ path, (t.slot x).bound.contains coords = true
  last : ∃ leaf, path.getLast? = some leaf ∧ t.leaf? p = .ok (some leaf) ∧
    (t.slot leaf).leaf = true ∧ p ∈ (t.slot leaf).points ∧
      ∀ x, p ∈ (t.slot x).points → x = leaf
  levels : ∃ height, t.height = .ok height ∧ path.length = height + 1 ∧
    ∀ i (hi : i < path.length), t.level path[i] = .ok (height - i)

variable {t : Tree α} {lev : NodeId → Nat} {x l : NodeId} {way : List NodeId}

namespace Way

theorem head?_eq (h : t.Way x l way) : way.head? = some x := by
  cases h with
  | leaf => rfl
  | down => rfl

/-- Along a way the links up go with the links down. -/
theorem isChain (hl : t.Linked lev []) (h : t.Way x l way) :
    way.IsChain fun x c => c ∈ (t.slot x).children ∧ (t.slot c).parent = some x := by
  induction h with
  | leaf => exact .singleton _
  | down hc h ih =>
    refine ih.cons fun y hy => ?_
    rw [h.head?_eq] at hy
    obtain rfl := Option.some.inj hy
    exact ⟨hc, (hl.child _ _ hc).2.1⟩

/-- Each step down leads one level down. -/
theorem level_getElem (hl : t.Linked lev []) (h : t.Way x l way) {i : Nat}
    (hi : i < way.length) : lev way[i] = lev x - i := by
  induction h generalizing i with
  | leaf =>
    obtain rfl : i = 0 := by simpa using hi
    rfl
  | down hc h ih =>
    cases i with
    | zero => rfl
    | succ i =>
      have hlev := (hl.child _ _ hc).2.2
      rw [List.getElem_cons_succ, ih (by simpa using hi)]
      omega

end Way

variable [Scalar α] [OrderedScalar α] {p : PointId}

/-- The search finds the way to a live point. -/
theorem Settled.path?_ok (h : t.Settled) (hp : t.contains p = true) :
    ∃ path, t.path? p = .ok (some path) ∧ t.Leads p path := by
  obtain ⟨lev, hs⟩ := h.sound
  obtain ⟨leaf, -, hmem⟩ := h.contains_iff.mp hp
  obtain ⟨path, hsearch, hway, hbound⟩ := search_ok hs hmem
  have hpath : t.path? p = .ok (some path) := by
    unfold path?
    rw [point?_of_contains hp]
    exact hsearch
  have hleaf : t.leaf? p = .ok (some leaf) := by
    unfold leaf?
    rw [bind_of_ok hpath, Option.bind_some, hway.getLast?_eq]
    rfl
  refine ⟨path, hpath, hway.head?_eq, hway.isChain hs.linked,
    ⟨_, point?_of_contains hp, hbound⟩, ⟨leaf, hway.getLast?_eq, hleaf, hway.leaf_eq_true, hmem,
      fun x hx => eq_of_mem_points (hs.registered.copies_le p) hx hmem⟩,
    ⟨lev t.root, hs.height_ok, hway.length_eq hs.linked hs.linked.root, fun i hi => ?_⟩⟩
  have huse := (hway.inUse hs.linked hs.linked.root _ (List.getElem_mem hi)).1
  rw [hs.level_ok huse, hway.level_getElem hs.linked hi]

/-- After any calls there is a path to every live point, and to no other. -/
theorem paths_complete {c : Config α} {t₀ : Tree α} (h : Tree.new c = .ok t₀)
    (ks : List (Call α)) (p : PointId) :
    ((t₀.calls ks).2.contains p = true →
      ∃ path, (t₀.calls ks).2.path? p = .ok (some path) ∧ (t₀.calls ks).2.Leads p path) ∧
    ((t₀.calls ks).2.contains p = false →
      (t₀.calls ks).2.path? p = .ok none ∧ (t₀.calls ks).2.leaf? p = .ok none) := by
  refine ⟨((settled_new h).calls ks).path?_ok, fun hp => ?_⟩
  have hnone := path?_of_not_contains hp
  refine ⟨hnone, ?_⟩
  unfold leaf?
  rw [bind_of_ok hnone]
  rfl

/-- All bounds over coincident points are alike: the search for the last one goes through the other
three leaves before it. -/
theorem paths_complete_coincident :
    ∃ t, t = ((ofConfig slender).calls (.replicate 7 (.insert [0, 0]) ++ [.remove ⟨5⟩])).2 ∧
      t.Leads ⟨6⟩ [⟨0⟩, ⟨7⟩, ⟨5⟩] ∧ t.path? ⟨5⟩ = .ok none ∧
      ∀ x ∈ [0, 6, 2, 3, 7, 4, 5], (t.slot ⟨x⟩).bound.contains [0, 0] = true := by
  obtain ⟨hlive, -⟩ := paths_complete (c := slender) rfl
    (.replicate 7 (.insert [0, 0]) ++ [.remove ⟨5⟩]) ⟨6⟩
  obtain ⟨-, hgone⟩ := paths_complete (c := slender) rfl
    (.replicate 7 (.insert [0, 0]) ++ [.remove ⟨5⟩]) ⟨5⟩
  obtain ⟨path, hrun, hleads⟩ := hlive (by decide +kernel)
  have hpath : (((ofConfig slender).calls
      (.replicate 7 (.insert [0, 0]) ++ [.remove ⟨5⟩])).2.path? ⟨6⟩).toOption =
        some (some [⟨0⟩, ⟨7⟩, ⟨5⟩]) := by decide +kernel
  rw [hrun] at hpath
  obtain rfl : path = [⟨0⟩, ⟨7⟩, ⟨5⟩] := Option.some.inj (Option.some.inj hpath)
  refine ⟨_, rfl, hleads, (hgone ?_).1, ?_⟩ <;> decide +kernel

end Tree

end RTree
