import RTree.Proofs.Runs
import RTree.Proofs.Scalar.Binary64

namespace RTree

namespace Tree

variable {α : Type} [Scalar α] {t t' : Tree α} {k : Call α} {answer : Answer α}

/-- The forced reinsertions of one call, none in a tree that only splits. -/
theorem Called.forcedReinsertions (h : Called t k answer t') :
    t.stats.forcedReinsertions ≤ t'.stats.forcedReinsertions ∧
      t'.stats.forcedReinsertions ≤ t.stats.forcedReinsertions + 1 ∧
      (t.config.variant = .rTree →
        t'.stats.forcedReinsertions = t.stats.forcedReinsertions) := by
  have hone := t.turns_le_one .fresh
  have hnone : t.config.variant = .rTree → t.turns .fresh = 0 := fun hv => turns_rTree hv _
  cases h with
  | @inserted p _ es h =>
    have hturns := h.turns
    have hcount := h.frame.2.2.2.2
    refine ⟨by omega, by omega, fun hv => ?_⟩
    have := hnone hv
    omega
  | refused => exact ⟨Nat.le_refl _, Nat.le_succ _, fun _ => rfl⟩
  | @removed id _ es h =>
    have hturns := h.turns
    have hcount := h.frame.2.2.2.2
    refine ⟨by omega, by omega, fun hv => ?_⟩
    have := hnone hv
    omega
  | absent => exact ⟨Nat.le_refl _, Nat.le_succ _, fun _ => rfl⟩
  | cleared => exact ⟨Nat.le_refl _, Nat.le_succ _, fun _ => rfl⟩

theorem acceptPoint_ne_endless (t : Tree α) (p : List α) :
    t.acceptPoint p ≠ .error .endless := by
  unfold acceptPoint
  split
  · intro h
    cases h
  · split
    · intro h
      cases h
    · intro h
      cases h

theorem Called.ne_endless (h : Called t k answer t') : answer ≠ .failed .endless := by
  cases h with
  | inserted => exact fun h => nomatch h
  | @refused p cause hcause =>
    intro h
    cases h
    exact t.acceptPoint_ne_endless p hcause
  | removed => exact fun h => nomatch h
  | absent => exact fun h => nomatch h
  | cleared => exact fun h => nomatch h

/-- An insertion fails for a wrong number of coordinates or else for one that is not finite, and a
removal never; the tree is the same after a call that fails or finds nothing to remove. -/
theorem fails_only_as_asked {c : Config Float} {t₀ : Tree Float} (h : Tree.new c = .ok t₀)
    (cs : List (Call Float)) {t : Tree Float} (ht : (t₀.calls cs).2 = t) :
    (∀ p, p.length ≠ c.dimension →
      (TreeM.insert p).run t = .error (.dimensionMismatch c.dimension p.length) t) ∧
    (∀ p v, p.length = c.dimension → p.find? (!Float.isFinite ·) = some v →
      (TreeM.insert p).run t = .error (.notFinite v) t) ∧
    (∀ p, p.length = c.dimension → (∀ v ∈ p, v.isFinite = true) →
      ∃ t', (TreeM.insert p).run t = .ok ⟨t.store.size⟩ t') ∧
    (∀ id, ∃ found t', (TreeM.remove id).run t = .ok found t' ∧ (found = false → t' = t)) := by
  have hsettled : t.Settled := ht ▸ (settled_new h).calls cs
  have hdim : t.dim = c.dimension := by
    obtain ⟨-, rfl⟩ := new_eq_ok.mp h
    unfold dim
    rw [← ht, config_calls (settled_new h) cs]
    rfl
  refine ⟨?_, ?_, ?_, ?_⟩
  · intro p hp
    apply insert_refused
    unfold acceptPoint
    rw [hdim, if_pos hp]
  · intro p v hp hv
    apply insert_refused
    have hv' : p.find? (!Scalar.isFinite ·) = some v := hv
    unfold acceptPoint
    rw [hdim, if_neg (by simp [hp]), hv']
  · intro p hp hfinite
    obtain ⟨es, t', hrun, -⟩ := TreeM.insert_ok hsettled ⟨hp.trans hdim.symm, hfinite⟩
    exact ⟨t', hrun⟩
  · intro id
    cases hlive : t.contains id with
    | true =>
      obtain ⟨es, t', hrun, -⟩ := TreeM.remove_ok hsettled hlive
      exact ⟨true, t', hrun, fun hf => nomatch hf⟩
    | false => exact ⟨false, t, TreeM.remove_absent hlive, fun _ => rfl⟩

/-- In the plane a point needs two finite coordinates, also after leaves and a directory have been
split. -/
theorem fails_only_as_asked_plane :
    ∃ t t' t'' found, ((ofConfig scant).calls errands).2 = t ∧
      t.stats.leafSplits = 3 ∧ t.stats.directorySplits = 1 ∧
      (TreeM.insert [1]).run t = .error (.dimensionMismatch 2 1) t ∧
      (TreeM.insert [1, Binary64.infinity]).run t = .error (.notFinite Binary64.infinity) t ∧
      (TreeM.insert [3, 4]).run t = .ok ⟨t.store.size⟩ t' ∧
      (TreeM.remove ⟨1⟩).run t = .ok found t'' := by
  obtain ⟨hmismatch, hinfinite, haccepted, hremoved⟩ :=
    fails_only_as_asked (c := scant) rfl errands rfl
  obtain ⟨t', hinsert⟩ := haccepted [3, 4] rfl (by decide +kernel)
  obtain ⟨found, t'', hremove, -⟩ := hremoved ⟨1⟩
  refine ⟨_, t', t'', found, rfl, ?_, ?_, hmismatch [1] (by decide), hinfinite _ _ rfl (by rfl),
    hinsert, hremove⟩ <;> decide +kernel

/-- Every call comes to an end, with one forced reinsertion at most and with none in a tree that
only splits. -/
theorem ends_with_one_reinsertion {c : Config Float} {t₀ : Tree Float} (h : Tree.new c = .ok t₀)
    (cs : List (Call Float)) {t : Tree Float} (ht : (t₀.calls cs).2 = t) (k : Call Float) :
    (t.call k).1 ≠ .failed .endless ∧
      t.stats.forcedReinsertions ≤ (t.call k).2.stats.forcedReinsertions ∧
      (t.call k).2.stats.forcedReinsertions ≤ t.stats.forcedReinsertions + 1 ∧
      (c.variant = .rTree →
        (t.call k).2.stats.forcedReinsertions = t.stats.forcedReinsertions) := by
  have hsettled : t.Settled := ht ▸ (settled_new h).calls cs
  have hconfig : t.config = c := by
    obtain ⟨-, rfl⟩ := new_eq_ok.mp h
    rw [← ht, config_calls (settled_new h) cs]
    rfl
  obtain ⟨hcalled, -⟩ := hsettled.call k
  have hcount := hcalled.forcedReinsertions
  rw [hconfig] at hcount
  exact ⟨hcalled.ne_endless, hcount⟩

/-- A third point in a leaf for two starts a reinsertion, but the points come back to leaves that
have room. -/
theorem ends_with_one_reinsertion_pairs :
    ∃ t, ((ofConfig
        { (default : Config Float) with
          minLeafSize := 1, maxLeafSize := 2, variant := .rStar, reinsertFraction := 0.5 }).calls
        [.insert [0, 0], .insert [1, 1]]).2 = t ∧
      (t.call (.insert [5, 5])).1 ≠ .failed .endless ∧
      (t.call (.insert [5, 5])).2.stats.forcedReinsertions ≤ t.stats.forcedReinsertions + 1 := by
  have hcase := ends_with_one_reinsertion
    (c := { (default : Config Float) with
      minLeafSize := 1, maxLeafSize := 2, variant := .rStar, reinsertFraction := 0.5 })
    rfl [.insert [0, 0], .insert [1, 1]] rfl (.insert [5, 5])
  exact ⟨_, rfl, hcase.1, hcase.2.2.1⟩

/-- The bound is attained. -/
example :
    ((ofConfig
      { (default : Config Float) with
        minLeafSize := 1, maxLeafSize := 2, variant := .rStar, reinsertFraction := 0.5 }).calls
      [.insert [0, 0], .insert [1, 1], .insert [5, 5]]).2.stats.forcedReinsertions = 1 := by
  decide +kernel

end Tree

end RTree
