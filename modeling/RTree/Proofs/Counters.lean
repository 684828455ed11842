import RTree.Proofs.Scalar.Portions
import RTree.Proofs.Tree.Trail

namespace RTree

/-- The points that an overfull leaf gives away are fewer than those it may keep. -/
theorem Config.reinsertionSize_le {c : Config Float} (h : c.validate = .ok ()) :
    c.reinsertionSize ≤ c.maxLeafSize := by
  obtain ⟨hpos, hone, -, -⟩ := Config.portions_of_validate h
  have htwo := (Config.feasible_of_validate h).two_le_maxLeafSize
  exact wholePart_mul_le (by omega) hpos hone

namespace Tree

variable {α : Type} [Scalar α] {start t t' : Tree α} {es : List (Event α)} {e : Event α}
  {stages : List (Stage α)}

theorem relief_eq {t : Tree Float} (h : t.config.validate = .ok ()) :
    t.relief = t.config.reinsertionSize := by
  have hle := Config.reinsertionSize_le h
  unfold relief
  omega

/-- All forced reinsertions on record were of as many points as fall to one. -/
def Metered (t : Tree α) : Prop := t.stats.reinsertedPoints = t.stats.forcedReinsertions * t.relief

theorem Steps.metered (h : Steps t es t') (hes : Uniform t.relief es) (ht : t.Metered) :
    t'.Metered := by
  unfold Metered at *
  rw [h.reinsertedPoints hes, h.forcedReinsertions, h.frame.relief, ht, Nat.add_mul]

theorem Inserted.metered {p : List α} (h : Inserted t t' p es) (ht : t.Metered) :
    t'.Metered := by
  obtain ⟨t₁, flags, hext, -, rfl⟩ := h.cascade
  exact hext.steps.metered hext.uniform ht

theorem Removed.metered {id : PointId} (h : Removed t t' id es) (ht : t.Metered) :
    t'.Metered := by
  have huniform := h.uniform
  obtain ⟨es₁, es₂, t₁, rfl, hsteps₁, hsteps₂⟩ := h.cascade
  obtain ⟨huniform₁, huniform₂⟩ := huniform.of_append
  rw [← hsteps₁.frame.relief] at huniform₂
  have ht₁ : t₁.Metered := hsteps₁.metered huniform₁ ht
  exact hsteps₂.metered huniform₂ ht₁

theorem Called.metered {k : Call α} {answer : Answer α} (h : Called t k answer t')
    (ht : t.Metered) : t'.Metered := by
  cases h with
  | inserted h => exact h.metered ht
  | refused => exact ht
  | removed h => exact h.metered ht
  | absent => exact ht
  | cleared => exact ht

theorem calls_metered [OrderedScalar α] (h : t.Settled) (ht : t.Metered) (ks : List (Call α)) :
    (t.calls ks).2.Metered :=
  calls_induction (P := Metered) (fun _ k hs ht => (hs.call k).1.metered ht) h ht ks

/-- Nothing is on record that the variant does not do. -/
structure Abiding (t : Tree α) : Prop where
  degenerateSplits : t.config.variant ≠ .rTree → t.stats.degenerateSplits = 0
  supernodeGrowths : t.config.variant ≠ .xTree → t.stats.supernodeGrowths = 0
  rootAbsorptions : t.config.variant ≠ .xTree → t.stats.rootAbsorptions = 0
  minOverlapSplits : t.config.variant ≠ .xTree → t.stats.minOverlapSplits = 0

omit [Scalar α] in
theorem Abiding.congr (h : t.Abiding) (hconfig : t'.config = t.config)
    (hhalves : t'.stats.degenerateSplits = t.stats.degenerateSplits)
    (hgrowths : t'.stats.supernodeGrowths = t.stats.supernodeGrowths)
    (habsorptions : t'.stats.rootAbsorptions = t.stats.rootAbsorptions)
    (hsplits : t'.stats.minOverlapSplits = t.stats.minOverlapSplits) : t'.Abiding where
  degenerateSplits hv := hhalves.trans (h.degenerateSplits (hconfig ▸ hv))
  supernodeGrowths hv := hgrowths.trans (h.supernodeGrowths (hconfig ▸ hv))
  rootAbsorptions hv := habsorptions.trans (h.rootAbsorptions (hconfig ▸ hv))
  minOverlapSplits hv := hsplits.trans (h.minOverlapSplits (hconfig ▸ hv))

omit [Scalar α] in
theorem Abiding.of_stats (h : t.Abiding) (hconfig : t'.config = t.config)
    (hs : t'.stats = t.stats) : t'.Abiding :=
  h.congr hconfig (by rw [hs]) (by rw [hs]) (by rw [hs]) (by rw [hs])

theorem Abiding.recorded {p : Partition α} (h : t.Abiding) (hconfig : t'.config = t.config)
    (hs : t'.stats = p.record t.stats)
    (hhalves : t.config.variant ≠ .rTree → p.kind ≠ .degenerate)
    (hsplits : t.config.variant ≠ .xTree → p.kind ≠ .minOverlap) : t'.Abiding where
  degenerateSplits hv := by
    rw [hconfig] at hv
    rw [hs, Partition.record_eq, h.degenerateSplits hv, if_neg (hhalves hv)]
  supernodeGrowths hv := by rw [hs, Partition.record_eq, h.supernodeGrowths (hconfig ▸ hv)]
  rootAbsorptions hv := by rw [hs, Partition.record_eq, h.rootAbsorptions (hconfig ▸ hv)]
  minOverlapSplits hv := by
    rw [hconfig] at hv
    rw [hs, Partition.record_eq, h.minOverlapSplits hv, if_neg (hsplits hv)]

variable [OrderedScalar α]

/-- Outside the quadratic variant no node is cut into halves. -/
theorem Step.kind_ne_degenerate (h : Step t e t') (hv : t.config.variant ≠ .rTree) {id : NodeId}
    {p : Partition α} (he : (⟨t, e, t'⟩ : Stage α).split? = some (id, p)) :
    p.kind ≠ .degenerate := by
  obtain ⟨hkind, -⟩ := h.cut hv he
  rcases hkind with hkind | hkind <;> simp [hkind]

theorem Step.abiding (h : Step t e t') (ht : t.Abiding) : t'.Abiding := by
  have hconfig := h.frame.config
  have hhalves : ∀ id p, (⟨t, e, t'⟩ : Stage α).split? = some (id, p) →
      t.config.variant ≠ .rTree → p.kind ≠ .degenerate :=
    fun _ _ he hv => h.kind_ne_degenerate hv he
  -- a supernode is the decision of an X-tree
  have hsupernode : ∀ {lev id}, t.Overfull lev id → (t.slot id).leaf = false →
      t.strategy.onDirectory t id = .ok .supernode → t.config.variant = .xTree :=
    fun hover hl hd => hover.xTree hl hd
  cases h with
  | place _ _ _ hs => exact ht.of_stats hconfig hs.nodes.stats
  | promote _ hs =>
    have hstats := hs.stats
    exact ht.congr hconfig (by rw [hstats]) (by rw [hstats]) (by rw [hstats]) (by rw [hstats])
  | splitLeaf _ _ _ hd _ hs =>
    have hcounted : t.countLeafSplit.Abiding := ht.congr rfl rfl rfl rfl rfl
    exact hcounted.recorded hconfig hs.stats (hhalves _ _ rfl) fun _ => (blind_onLeaf hd).kind
  | splitDirectory _ _ _ hd _ hs =>
    have hcounted : t.countDirectorySplit.Abiding := ht.congr rfl rfl rfl rfl rfl
    exact hcounted.recorded hconfig hs.stats (hhalves _ _ rfl)
      fun (hv : t.config.variant ≠ .xTree) => (blind_onDirectory hv hd).kind
  | widen hover hl _ hd =>
    have hx := hsupernode hover hl hd
    exact ⟨fun hv => ht.degenerateSplits hv, fun hv => absurd hx hv, fun hv => absurd hx hv,
      fun hv => absurd hx hv⟩
  | absorb hover hl _ hd hs =>
    have hx := hsupernode hover hl hd
    have hstats := hs.stats
    rw [← hconfig] at hx
    refine ⟨fun hv => ?_, fun hv => absurd hx hv, fun hv => absurd hx hv, fun hv => absurd hx hv⟩
    rw [hstats]
    exact ht.degenerateSplits (hconfig ▸ hv)
  | relieve => exact ht
  | lift _ _ hs => exact ht.of_stats hconfig hs.stats
  | reinserted => exact ht.congr hconfig rfl rfl rfl rfl
  | collapse _ _ hs => exact ht.of_stats hconfig hs.stats

theorem Trail.abiding (h : Trail start stages t) (hstart : start.Abiding) : t.Abiding :=
  (h.invariant hstart (fun _ _ _ _ hs ht => hs.abiding ht) (fun _ _ _ ht => ht.of_stats rfl rfl)
    fun _ _ ht => ht.of_stats rfl rfl).1

omit [OrderedScalar α] in
theorem Abiding.new {c : Config α} : (ofConfig c).Abiding :=
  ⟨fun _ => rfl, fun _ => rfl, fun _ => rfl, fun _ => rfl⟩

/-- The leaf has one point too many and gives away what falls to a forced reinsertion. -/
theorem Step.relieve_eq {leaf : NodeId} {count : Nat} (h : Step t (.relieve leaf count) t') :
    count = t.config.reinsertionSize ∧
      (t.slot leaf).points.length = t.config.maxLeafSize + 1 := by
  cases h with
  | relieve hover hl _ hd =>
    obtain ⟨decision, flags, hd', hfair, -⟩ :=
      onLeaf_ok hover.shaped hover.inUse hl hover.full _
    rw [hd] at hd'
    cases hd'
    exact ⟨hfair.1, hover.length_points hl⟩

/-- After any calls the points reinserted are as many as there were forced reinsertions, times the
points of one; outside the quadratic variant no node was cut into halves, and no tree but an X-tree
has grown a supernode, absorbed a node into the root or split along a shared axis. Whatever the
margins amount to, a list of two rectangles or more is cut by margin. No step on the way cuts into
halves outside the quadratic variant, and a leaf that gives points away keeps at least one. -/
theorem counters_lawful {c : Config Float} {t₀ : Tree Float} (h : Tree.new c = .ok t₀) :
    (∀ ks : List (Call Float), ∃ s, s = (t₀.calls ks).2.stats ∧
      s.reinsertedPoints = s.forcedReinsertions * c.reinsertionSize ∧
      (c.variant ≠ .rTree → s.degenerateSplits = 0) ∧
      (c.variant ≠ .xTree →
        s.supernodeGrowths = 0 ∧ s.rootAbsorptions = 0 ∧ s.minOverlapSplits = 0)) ∧
    (∀ (rects : List (Rectangle Float)) edges minimum, 2 ≤ rects.length → edges ≠ [] →
      (Partition.leastMargin rects c.dimension edges minimum).kind = .margin) ∧
    (∀ ks : List (Call Float), ∃ stages, Trail t₀ stages (t₀.calls ks).2) ∧
    ∀ stages t, Trail t₀ stages t → ∀ s ∈ stages,
      (c.variant ≠ .rTree → ∀ id p, s.split? = some (id, p) → p.kind ≠ .degenerate) ∧
      ∀ leaf count, s.event = .relieve leaf count →
        count = c.reinsertionSize ∧ count < (s.before.slot leaf).points.length := by
  have hsettled := settled_new h
  obtain ⟨hvalid, rfl⟩ := new_eq_ok.mp h
  have hfeasible := Config.feasible_of_validate hvalid
  refine ⟨fun ks => ⟨_, rfl, ?_, ?_⟩, ?_, exists_trail hsettled, ?_⟩
  · have hconfig : ((ofConfig c).calls ks).2.config = c := config_calls hsettled ks
    have hrelief := relief_eq (t := ((ofConfig c).calls ks).2) (by rw [hconfig]; exact hvalid)
    have hmetered := calls_metered hsettled (Nat.zero_mul _).symm ks
    unfold Metered at hmetered
    rw [hrelief, hconfig] at hmetered
    exact hmetered
  · have hconfig : ((ofConfig c).calls ks).2.config = c := config_calls hsettled ks
    obtain ⟨stages, htrail⟩ := exists_trail hsettled ks
    obtain ⟨hhalves, hgrowths, habsorptions, hsplits⟩ := htrail.abiding .new
    rw [hconfig] at hhalves hgrowths habsorptions hsplits
    exact ⟨hhalves, fun hv => ⟨hgrowths hv, habsorptions hv, hsplits hv⟩⟩
  · intro rects edges minimum htwo hedges
    obtain ⟨edge, axis, -, cut, -, heq⟩ :=
      leastMargin_eq minimum hfeasible.dimension_pos hedges htwo
    rw [heq]
    rfl
  · intro stages t htrail s hs
    obtain ⟨hconfig, hstep⟩ := htrail.step_of_mem s hs
    have hconfig' : s.before.config = c := hconfig
    refine ⟨fun hv id p he => ?_, fun leaf count he => ?_⟩
    · exact hstep.kind_ne_degenerate (hconfig' ▸ hv) he
    · rw [he] at hstep
      obtain ⟨hcount, hlength⟩ := hstep.relieve_eq
      rw [hconfig'] at hcount hlength
      have hle := Config.reinsertionSize_le hvalid
      exact ⟨hcount, by omega⟩

/-- Ten points in one place make an R*-tree reinsert and split. -/
theorem counters_lawful_coincident :
    ∃ t₀ s, Tree.new { (default : Config Float) with
        minLeafSize := 1, maxLeafSize := 4, variant := .rStar, reinsertFraction := 0.5 } = .ok t₀ ∧
      s = (t₀.calls (.replicate 10 (.insert [1, 1]))).2.stats ∧
      s.reinsertedPoints = s.forcedReinsertions * 2 ∧ s.degenerateSplits = 0 ∧
      s.supernodeGrowths = 0 ∧ s.forcedReinsertions = 2 ∧ s.leafSplits = 2 := by
  obtain ⟨hruns, -⟩ := counters_lawful
    (c := { (default : Config Float) with
      minLeafSize := 1, maxLeafSize := 4, variant := .rStar, reinsertFraction := 0.5 }) rfl
  obtain ⟨s, hs, hpoints, hhalves, hgrowths⟩ := hruns (.replicate 10 (.insert [1, 1]))
  refine ⟨_, s, rfl, hs, hpoints, hhalves (by decide), (hgrowths (by decide)).1, ?_, ?_⟩
  · rw [hs]
    decide +kernel
  · rw [hs]
    decide +kernel

end Tree

end RTree
