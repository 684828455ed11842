import RTree.Proofs.Lockstep
import RTree.Proofs.Scalar.Binary64

namespace RTree

variable {α : Type}

theorem Call.raise_zero : (raise 0 : Call α → Call α) = id := by
  funext c
  cases c <;> rfl

theorem Answer.raise_zero : (raise 0 : Answer α → Answer α) = id := by
  funext a
  cases a <;> rfl

variable [Scalar α]

/-- Two trees of which the first is an X-tree and the second splits by margin alone. -/
def Offset.variants : Offset α where
  store := #[]
  dead := by simp
  stats := { maxOverlapRatio := Scalar.zero }
  alike := False

namespace Tree

variable {x r : Tree α}

/-- Without points and counts from before, an echo is plainly the same. -/
theorem Echo.plain (h : Echo .variants x r) : x.plain = r.plain := by
  refine plain_eq_iff.mpr ⟨h.config.symm, ?_, ?_, h.free.symm, h.root.symm, h.size.symm,
    h.stats.symm⟩
  · rw [h.store]
    exact Array.empty_append.symm
  · apply Array.ext_getElem?
    intro i
    rw [Array.getElem?_map, Array.getElem?_map]
    cases hn : x.arena[i]? with
    | none => rw [h.vacant hn]
    | some n =>
      obtain ⟨n', hn', history, -, rfl⟩ := h.nodes i n hn
      have hraise : (Offset.variants : Offset α).raise = id := rfl
      rw [hn', hraise, List.map_id]
      rfl

variable [OrderedScalar α]

/-- Without supernodes and splits along shared axes, the two variants answer alike after every
call, and their trees are plainly the same. -/
theorem variants_agree {c : Config α} {r x : Tree α} (hc : c.variant = .rStar)
    (hr : Tree.new c = .ok r) (hx : Tree.new { c with variant := .xTree } = .ok x)
    (ks : List (Call α)) (hgrowths : (x.calls ks).2.stats.supernodeGrowths = 0)
    (hsplits : (x.calls ks).2.stats.minOverlapSplits = 0) {past : List (Call α)}
    (hpast : past <+: ks) :
    (x.calls past).1 = (r.calls past).1 ∧ (x.calls past).2.plain = (r.calls past).2.plain := by
  obtain ⟨rest, rfl⟩ := hpast
  have hsx := settled_new hx
  have hsr := settled_new hr
  obtain ⟨-, rfl⟩ := new_eq_ok.mp hr
  obtain ⟨-, rfl⟩ := new_eq_ok.mp hx
  have hs : Strategy.Echo (.variants : Offset α) (ofConfig { c with variant := .xTree }).strategy
      (ofConfig c).strategy := by
    rw [strategy, strategy, show (ofConfig c).config.variant = .rStar from hc]
    exact Strategy.overlap_echo id
  have hend : ¬((ofConfig { c with variant := .xTree }).calls past).2.Strayed := by
    intro hstrayed
    rw [calls_append] at hgrowths hsplits
    rcases strayed_calls (hsx.calls past) hstrayed rest with h | h
    · omega
    · omega
  have h := calls_echo hs hsx hsr (.of_bare rfl rfl rfl rfl rfl) past (.inr hend)
  rw [show (Offset.variants : Offset α).store.size = 0 from rfl, Call.raise_zero,
    Answer.raise_zero, List.map_id, List.map_id] at h
  exact ⟨h.1.symm, h.2.plain⟩

/-- Four points in a row, in leaves and directories for two: the X-tree splits directories by margin
and the other tree does as it does. -/
theorem variants_agree_row :
    ∃ r x, Tree.new { (default : Config Float) with
        dimension := 1, minLeafSize := 1, maxLeafSize := 2, minChildren := 1, maxChildren := 2
        variant := .rStar } = .ok r ∧
      Tree.new { (default : Config Float) with
        dimension := 1, minLeafSize := 1, maxLeafSize := 2, minChildren := 1, maxChildren := 2
        variant := .xTree } = .ok x ∧
      0 < (x.calls [.insert [0], .insert [10], .insert [20], .insert [30]]).2.stats.directorySplits ∧
      (x.calls [.insert [0], .insert [10], .insert [20], .insert [30]]).2.plain =
        (r.calls [.insert [0], .insert [10], .insert [20], .insert [30]]).2.plain := by
  refine ⟨_, _, rfl, rfl, by decide +kernel, ?_⟩
  exact (variants_agree
    (c := { (default : Config Float) with
      dimension := 1, minLeafSize := 1, maxLeafSize := 2, minChildren := 1, maxChildren := 2
      variant := .rStar })
    rfl rfl rfl [.insert [0], .insert [10], .insert [20], .insert [30]] (by decide +kernel)
    (by decide +kernel) (List.prefix_refl _)).2

end Tree

end RTree
