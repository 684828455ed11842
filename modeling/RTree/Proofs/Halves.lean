import RTree.Proofs.Rectangle.Solid
import RTree.Proofs.Split.Scores
import RTree.Proofs.Tree.Trail
import Mathlib.Data.Rat.Sqrt

namespace RTree

open Exact (finite)

section

variable [SquareRoot]

/-- What the halves have in common is counted twice in their volumes. -/
structure Cut.Halved (c : Cut Exact) : Prop where
  zero_le_overlap : Scalar.zero ≤ c.overlap
  two_mul_overlap_le : Scalar.two * c.overlap ≤ c.area
  zero_le_ratio : Scalar.zero ≤ c.overlapRatio
  ratio_le_half : c.overlapRatio ≤ finite (1 / 2)

theorem Rectangle.Solid.halved_between {d : Nat} {r s : Rectangle Exact} (hr : r.Solid d)
    (hs : s.Solid d) (position : Nat) : (Cut.between position r s).Halved := by
  obtain ⟨v, w, o, hv, hw, ho, hpos, hov, how⟩ := hr.overlap hs
  have harea : (Cut.between position r s).area = finite (v + w) := by
    show r.volume + s.volume = _
    rw [hv, hw, Exact.finite_add]
  have hoverlap : (Cut.between position r s).overlap = finite o := ho
  obtain ⟨ratio, hratio, hzero, hhalf⟩ : ∃ ratio : Rat,
      (Cut.between position r s).overlapRatio = finite ratio ∧ 0 ≤ ratio ∧ ratio ≤ 1 / 2 := by
    have hiff : Scalar.zero < finite (v + w) ↔ 0 < v + w := Exact.finite_lt 0 (v + w)
    unfold Cut.overlapRatio
    rw [harea, hoverlap]
    by_cases hvw : 0 < v + w
    · rw [if_pos (hiff.mpr hvw), Exact.finite_div o hvw.ne']
      refine ⟨_, rfl, div_nonneg hpos hvw.le, ?_⟩
      rw [div_le_iff₀ hvw]
      linarith
    · rw [if_neg (mt hiff.mp hvw)]
      exact ⟨0, rfl, le_refl 0, by norm_num⟩
  constructor
  · rw [hoverlap]
    exact (Exact.finite_le 0 o).mpr hpos
  · rw [hoverlap, harea]
    show finite 2 * finite o ≤ _
    rw [Exact.finite_mul, Exact.finite_le]
    linarith
  · rw [hratio]
    exact (Exact.finite_le 0 ratio).mpr hzero
  · rw [hratio, Exact.finite_le]
    exact hhalf

section Cuts

variable {d minimum : Nat} {rects : List (Rectangle Exact)}

theorem halved_cutsOf {least : Nat} (h : ∀ r ∈ rects, r.Solid d) :
    ∀ cut ∈ cutsOf rects least, cut.Halved := by
  intro cut hcut
  obtain ⟨hpos, hlt, heq⟩ := eq_between_of_mem_cutsOf hcut
  have hdim : (rects.head?.map Rectangle.dim).getD 0 = d := by
    cases rects with
    | nil => cases hlt
    | cons r rest => exact (h r List.mem_cons_self).dim
  rw [heq, hdim]
  apply Rectangle.Solid.halved_between (d := d)
  · apply Rectangle.solid_foldl_union fun r hr => h r (List.mem_of_mem_take hr)
    apply List.ne_nil_of_length_pos
    rw [List.length_take]
    omega
  · apply Rectangle.solid_foldl_union
    · exact fun r hr => h r (List.mem_of_mem_drop (List.mem_reverse.mp hr))
    · apply List.ne_nil_of_length_pos
      rw [List.length_reverse, List.length_drop]
      omega

/-- Every sort of solid rectangles can be cut, and all its cuts keep to the bound. -/
theorem halved_scoreSort (h : ∀ r ∈ rects, r.Solid d) (axis : Nat) (edge : Edge) (minimum : Nat) :
    ∀ cut ∈ (scoreSort rects axis edge minimum).cuts, cut.Halved := by
  apply halved_cutsOf (d := d)
  intro r hr
  obtain ⟨y, hy, rfl⟩ := List.mem_map.mp hr
  have hmem := List.mem_zipIdx_iff_getElem?.mp (mem_stableSort.mp hy)
  exact h y.1 (List.mem_of_getElem? hmem)

/-- With a limit above one half the first finalist is accepted. -/
theorem overlapDecision_margin (h : ∀ r ∈ rects, r.Solid d) (hd : 0 < d) (htwo : 2 ≤ rects.length)
    (histories : List SplitHistory) (minimum : Nat) {limit : Exact}
    (hlimit : finite (1 / 2) < limit) :
    ∃ p, overlapDecision rects histories d minimum limit = .partition p ∧ p.kind = .margin := by
  obtain ⟨edge, axis, -, hsort⟩ := exists_leastMarginSort minimum hd
    (show [Edge.low, Edge.high] ≠ [] by simp) htwo
  obtain ⟨cut, hcut, hbest⟩ := exists_champion? Cut.isBetter
    (cuts_scoreSort_ne_nil rects axis edge minimum htwo)
  have hmargin := Finalists.margin_sorts rects d minimum (sharedAxis d histories)
  rw [hsort, Option.bind_some, SortScore.finalist?, SortScore.best?, hbest, Option.map_some]
    at hmargin
  have hbelow : cut.overlapRatio < limit :=
    Scalar.lt_of_le_of_lt (halved_scoreSort h axis edge minimum cut hcut).ratio_le_half hlimit
  let b : BestCut Exact := ⟨scoreSort rects axis edge minimum, cut⟩
  let p : Partition Exact :=
    { b.score.partitionAt cut .margin with overlapRatio := some cut.overlapRatio }
  have haccept : b.accept? .margin limit = some p := BestCut.accept?_eq_some.mpr ⟨hbelow, rfl⟩
  refine ⟨p, ?_, rfl⟩
  unfold overlapDecision
  dsimp only
  rw [hmargin, Option.bind_some, haccept]

end Cuts

namespace Tree

variable {t t' : Tree Exact} {lev : NodeId → Nat} {extra : Option NodeId} {id x : NodeId}

/-- The entries of a node are solid when its children are. -/
theorem Shaped.solid_rectsOf (h : t.Shaped lev extra none [])
    (hc : ∀ c ∈ (t.slot x).children, (t.slot c).bound.Solid t.dim) :
    ∀ r ∈ t.rectsOf (t.slot x), r.Solid t.dim := by
  intro r hr
  unfold rectsOf at hr
  split at hr
  · obtain ⟨p, hp, rfl⟩ := List.mem_map.mp hr
    exact (h.registered.finite p ((h.legible x).points p hp)).solid
  · obtain ⟨c, hm, rfl⟩ := List.mem_map.mp hr
    exact hc c hm

/-- The induction is on the level: a node below the root has entries, and its children are below
the root too. -/
theorem Shaped.solid_bound (h : t.Shaped lev extra none []) (hx : t.InUse x) (hne : x ≠ t.root) :
    (t.slot x).bound.Solid t.dim := by
  induction hk : lev x using Nat.strong_induction_on generalizing x with
  | _ k ih =>
    apply Rectangle.IsHull.solid (h.fitted.hull x hx List.not_mem_nil)
    · apply h.solid_rectsOf
      intro c hc
      obtain ⟨hcu, -, hcl⟩ := h.linked.child x c hc
      exact ih (lev c) (by omega) hcu (h.linked.ne_root hc) rfl
    · apply List.ne_nil_of_length_pos
      rw [length_rectsOf]
      have hfew := (h.filled x hx).lower hne
      have hmin := minimumFill_pos h.feasible (t.slot x)
      rw [excess_none] at hfew
      omega

/-- An X-tree with a limit above one half divides every overfull directory by margin. -/
theorem Overfull.margin (h : t.Overfull lev id) (hv : t.config.variant = .xTree)
    (hlimit : finite (1 / 2) < t.config.maxOverlapRatio) :
    ∃ p, t.strategy.onDirectory t id = .ok (.partition p) ∧ p.kind = .margin := by
  have hsolid : ∀ r ∈ t.rectsOf (t.slot id), r.Solid t.dim := by
    apply h.shaped.solid_rectsOf
    intro c hc
    exact h.shaped.solid_bound (h.shaped.linked.child id c hc).1 (h.shaped.linked.ne_root hc)
  have htwo : 2 ≤ (t.rectsOf (t.slot id)).length := by
    rw [length_rectsOf]
    exact h.shaped.two_le_entryCount h.inUse h.full
  obtain ⟨p, hp, hkind⟩ := overlapDecision_margin hsolid h.shaped.feasible.dimension_pos htwo
    ((t.slot id).children.map fun c => (t.slot c).history) t.config.minChildren hlimit
  refine ⟨p, ?_, hkind⟩
  have hsplit : t.overlapSplit id = .ok (.partition p) :=
    (overlapSplit_eq h.shaped h.inUse).trans (congrArg Except.ok hp)
  unfold Tree.strategy
  rw [hv]
  exact hsplit

/-- Apart from splits by margin, no treatment of a directory is on record. -/
structure Marginal (t : Tree Exact) : Prop where
  supernodeGrowths : t.stats.supernodeGrowths = 0
  rootAbsorptions : t.stats.rootAbsorptions = 0
  minOverlapSplits : t.stats.minOverlapSplits = 0

omit [SquareRoot] in
theorem Marginal.congr (h : t.Marginal)
    (hgrowths : t'.stats.supernodeGrowths = t.stats.supernodeGrowths)
    (habsorptions : t'.stats.rootAbsorptions = t.stats.rootAbsorptions)
    (hsplits : t'.stats.minOverlapSplits = t.stats.minOverlapSplits) : t'.Marginal :=
  ⟨hgrowths.trans h.1, habsorptions.trans h.2, hsplits.trans h.3⟩

omit [SquareRoot] in
theorem Marginal.of_stats (h : t.Marginal) (hs : t'.stats = t.stats) : t'.Marginal :=
  h.congr (by rw [hs]) (by rw [hs]) (by rw [hs])

theorem Marginal.recorded {p : Partition Exact} (h : t.Marginal) (hkind : p.kind ≠ .minOverlap)
    (hs : t'.stats = p.record t.stats) : t'.Marginal where
  supernodeGrowths := by rw [hs, Partition.record_eq, h.supernodeGrowths]
  rootAbsorptions := by rw [hs, Partition.record_eq, h.rootAbsorptions]
  minOverlapSplits := by
    rw [hs, Partition.record_eq, h.minOverlapSplits, if_neg hkind]

/-- No step treats a directory but by margin. -/
theorem Step.marginal {e : Event Exact} (h : Step t e t') (hv : t.config.variant = .xTree)
    (hlimit : finite (1 / 2) < t.config.maxOverlapRatio) (hm : t.Marginal) :
    t'.Marginal ∧ ∀ id p, e = .splitDirectory id p → p.kind = .margin := by
  -- a supernode would need a decision that is never made
  have hnever : ∀ {lev id}, t.Overfull lev id →
      t.strategy.onDirectory t id ≠ .ok .supernode := by
    intro lev id hover hd
    obtain ⟨p, hp, -⟩ := hover.margin hv hlimit
    rw [hd] at hp
    cases hp
  cases h with
  | place _ _ _ hs => exact ⟨hm.of_stats hs.nodes.stats, by simp⟩
  | promote _ hs =>
    have hstats := hs.stats
    exact ⟨hm.congr (by rw [hstats]) (by rw [hstats]) (by rw [hstats]), by simp⟩
  | splitLeaf _ _ _ hd _ hs =>
    have hcounted : t.countLeafSplit.Marginal := hm.congr rfl rfl rfl
    exact ⟨hcounted.recorded (blind_onLeaf hd).kind hs.stats, by simp⟩
  | splitDirectory hover _ _ hd _ hs =>
    obtain ⟨q, hq, hkind⟩ := hover.margin hv hlimit
    rw [hd] at hq
    cases hq
    have hcounted : t.countDirectorySplit.Marginal := hm.congr rfl rfl rfl
    refine ⟨hcounted.recorded (by simp [hkind]) hs.stats, ?_⟩
    intro id p he
    cases he
    exact hkind
  | widen hover _ _ hd => exact absurd hd (hnever hover)
  | absorb hover _ _ hd => exact absurd hd (hnever hover)
  | relieve => exact ⟨hm, by simp⟩
  | lift _ _ hs => exact ⟨hm.of_stats hs.stats, by simp⟩
  | reinserted => exact ⟨hm.congr rfl rfl rfl, by simp⟩
  | collapse _ _ hs => exact ⟨hm.of_stats hs.stats, by simp⟩

theorem Trail.marginal {start : Tree Exact} {stages : List (Stage Exact)}
    (h : Trail start stages t) (hv : start.config.variant = .xTree)
    (hlimit : finite (1 / 2) < start.config.maxOverlapRatio) (hm : start.Marginal) :
    t.Marginal ∧ ∀ s ∈ stages, ∀ id p, s.event = .splitDirectory id p → p.kind = .margin := by
  obtain ⟨hend, hstages⟩ := h.invariant (P := Marginal) hm
    (fun _ _ _ hc hs hm => (hs.marginal (hc ▸ hv) (hc ▸ hlimit) hm).1)
    (fun _ _ _ hm => hm.of_stats rfl) (fun _ _ hm => hm.of_stats rfl)
  refine ⟨hend, fun s hs => ?_⟩
  obtain ⟨hc, hstep⟩ := h.step_of_mem s hs
  exact (hstep.marginal (hc ▸ hv) (hc ▸ hlimit) (hstages s hs).1).2

/-- What two solid rectangles have in common is at most as large as each, so the halves at a cut
have at most half of their volumes in common. An X-tree whose limit is above one half divides every
overfull directory by margin, and after any calls no supernode, no absorption and no split by
overlap is on record. -/
theorem margin_always_accepted :
    (∀ d (r s : Rectangle Exact), r.Solid d → s.Solid d →
      Scalar.zero ≤ r.overlap s ∧ r.overlap s ≤ r.volume ∧ r.overlap s ≤ s.volume) ∧
    (∀ d (rects : List (Rectangle Exact)), 2 ≤ rects.length → (∀ r ∈ rects, r.Solid d) →
      ∀ axis edge minimum, (scoreSort rects axis edge minimum).cuts ≠ [] ∧
        ∀ cut ∈ (scoreSort rects axis edge minimum).cuts, cut.Halved) ∧
    ∀ (c : Config Exact) (t₀ : Tree Exact), Tree.new c = .ok t₀ → c.variant = .xTree →
      finite (1 / 2) < c.maxOverlapRatio →
        (∀ ks, (t₀.calls ks).2.Marginal ∧ ∃ stages, Trail t₀ stages (t₀.calls ks).2) ∧
        ∀ stages t, Trail t₀ stages t →
          (∀ s ∈ stages, ∀ id p, s.event = .splitDirectory id p → p.kind = .margin) ∧
          ∀ lev id, t.Overfull lev id →
            ∃ p, t.strategy.onDirectory t id = .ok (.partition p) ∧ p.kind = .margin := by
  refine ⟨?_, ?_, ?_⟩
  · intro d r s hr hs
    obtain ⟨v, w, o, hv, hw, ho, hpos, hov, how⟩ := hr.overlap hs
    rw [hv, hw, ho]
    exact ⟨(Exact.finite_le 0 o).mpr hpos, (Exact.finite_le o v).mpr hov,
      (Exact.finite_le o w).mpr how⟩
  · intro d rects htwo hsolid axis edge minimum
    exact ⟨cuts_scoreSort_ne_nil rects axis edge minimum htwo,
      halved_scoreSort hsolid axis edge minimum⟩
  · intro c t₀ h hv hlimit
    have hsettled := settled_new h
    obtain ⟨-, rfl⟩ := new_eq_ok.mp h
    have hnew : (ofConfig c).Marginal := ⟨rfl, rfl, rfl⟩
    refine ⟨fun ks => ?_, fun stages t htrail => ⟨(htrail.marginal hv hlimit hnew).2, ?_⟩⟩
    · obtain ⟨stages, htrail⟩ := exists_trail hsettled ks
      exact ⟨(htrail.marginal hv hlimit hnew).1, stages, htrail⟩
    · intro lev id hover
      exact hover.margin (htrail.config ▸ hv) (htrail.config ▸ hlimit)

end Tree

end

namespace Tree

/-- Roots of squares; of other numbers, those of the next numerator and denominator below that are
squares. -/
instance : SquareRoot := ⟨Rat.sqrt⟩

/-- An X-tree over a line, with a limit above one half. -/
def lenient : Config Exact where
  dimension := 1
  minLeafSize := 1
  maxLeafSize := 2
  minChildren := 1
  maxChildren := 2
  variant := .xTree
  metric := .euclidean
  reinsertFraction := .finite (3 / 10)
  maxOverlapRatio := .finite (3 / 5)

/-- Equal halves have exactly half of their volumes in common. Four points in a row make the tree
split a directory. -/
theorem margin_always_accepted_row :
    (∃ r : Rectangle Exact, r.Solid 1 ∧ r.overlap r ≤ r.volume ∧
      (∀ cut ∈ (scoreSort [r, r] 0 .low 1).cuts, cut.Halved) ∧
        (scoreSort [r, r] 0 .low 1).cuts.map Cut.overlapRatio = [finite (1 / 2)]) ∧
      ∃ t, t = ((ofConfig lenient).calls [.insert [finite 0], .insert [finite 10],
          .insert [finite 20], .insert [finite 30]]).2 ∧
        t.Marginal ∧ t.stats.directorySplits = 1 := by
  obtain ⟨hrects, hcuts, hruns⟩ := margin_always_accepted
  constructor
  · have hsolid : (⟨[⟨finite 0, finite 2⟩]⟩ : Rectangle Exact).Solid 1 :=
      ⟨rfl, fun g hg => List.mem_singleton.mp hg ▸ Range.solid_finite (by norm_num)⟩
    have hall : ∀ r ∈ [(⟨[⟨finite 0, finite 2⟩]⟩ : Rectangle Exact), ⟨[⟨finite 0, finite 2⟩]⟩],
        r.Solid 1 := by simp [hsolid]
    exact ⟨_, hsolid, (hrects 1 _ _ hsolid hsolid).2.1,
      (hcuts 1 _ (by simp) hall 0 .low 1).2, by decide +kernel⟩
  · have hvalid : lenient.validate = .ok () := by
      have hok : lenient.validate.toOption = some () := by decide +kernel
      cases hv : lenient.validate with
      | ok => rfl
      | error cause =>
        rw [hv] at hok
        cases hok
    have hlimit : finite (1 / 2) < lenient.maxOverlapRatio :=
      (Exact.finite_lt _ _).mpr (by norm_num)
    obtain ⟨hcalls, -⟩ := hruns lenient _ (new_eq_ok.mpr ⟨hvalid, rfl⟩) rfl hlimit
    exact ⟨_, rfl, (hcalls _).1, by decide +kernel⟩

end Tree

end RTree
