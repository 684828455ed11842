import RTree.Proofs.Tree.Cascade

namespace RTree

variable {α : Type} [Scalar α]

namespace Tree

/-- The points of a leaf in the order of `TreeM.farthestFirst`. -/
def farthest (t : Tree α) (leaf : NodeId) : List PointId :=
  let center := (t.slot leaf).bound.center
  let ranked := (t.slot leaf).points.map fun p =>
    (t.config.metric.distance center (t.coordsAt p), p)
  (stableSort (fun a b => decide (b.1 < a.1)) ranked).map Prod.snd

theorem farthest_perm (t : Tree α) (leaf : NodeId) :
    (t.farthest leaf).Perm (t.slot leaf).points := by
  have hsort := (stableSort_perm (fun a b => decide (b.1 < a.1))
    ((t.slot leaf).points.map fun p =>
      (t.config.metric.distance (t.slot leaf).bound.center (t.coordsAt p), p))).map Prod.snd
  have hsame : ((t.slot leaf).points.map fun p =>
      (t.config.metric.distance (t.slot leaf).bound.center (t.coordsAt p), p)).map Prod.snd =
        (t.slot leaf).points := by
    rw [List.map_map]
    exact List.map_id _
  rw [hsame] at hsort
  exact hsort

end Tree

namespace TreeM

open RTree.Tree

variable {t : Tree α} {lev : NodeId → Nat} {flags : LevelFlags}
  {again : Strategy α → Reinsertion α} {leaf parent : NodeId} {id : PointId}

theorem farthestFirst_ok {extra : Option NodeId} (h : t.Shaped lev extra none [])
    (hl : t.InUse leaf) : (farthestFirst leaf).run t = .ok (t.farthest leaf) t := by
  unfold farthestFirst
  rw [bind_ok (getNode_ok hl.lt), bind_ok (query_ok (placedPoints_ok (h.legible leaf).points)),
    get_bind]
  unfold Tree.farthest
  simp only [List.map_map]
  rfl

/-- The points to be taken out of an overfull leaf, one at least. -/
theorem exists_take_farthest {count : Nat} (h : t.Overfull lev leaf)
    (hl : (t.slot leaf).leaf = true) (hcount : 0 < count) :
    ∃ p rest, (t.farthest leaf).take count = p :: rest ∧ (p :: rest).Nodup ∧
      (p :: rest).length = min count (t.config.maxLeafSize + 1) ∧
        ∀ q ∈ p :: rest, q ∈ (t.slot leaf).points := by
  have hperm := t.farthest_perm leaf
  have hnodup : (t.farthest leaf).Nodup :=
    hperm.nodup_iff.mpr (nodup_points h.shaped.registered.copies_le leaf)
  have hlength : ((t.farthest leaf).take count).length = min count (t.config.maxLeafSize + 1) := by
    rw [List.length_take, hperm.length_eq, h.length_points hl]
  obtain ⟨p, rest, htake⟩ : ∃ p rest, (t.farthest leaf).take count = p :: rest := by
    apply List.exists_cons_of_length_pos
    omega
  refine ⟨p, rest, htake, ?_, htake ▸ hlength, ?_⟩
  · rw [← htake]
    exact hnodup.sublist (List.take_sublist count _)
  · intro q hq
    rw [← htake] at hq
    exact hperm.mem_iff.mp (List.mem_of_mem_take hq)

/-- The treatment of an overfull leaf below a parent. -/
def treatLeaf (s : Strategy α) (again : Reinsertion α) (flags : LevelFlags) (leaf : NodeId) :
    TreeM α LevelFlags := do
  let (decision, flags) ← query (s.onLeaf · leaf flags)
  match decision with
  | .reinsert count => reinsertFarthest again leaf count flags
  | .partition p =>
    modifyStats fun s => { s with leafSplits := s.leafSplits + 1 }
    let parent ← splitNode s.keepsHistory leaf p
    resolveDirectory s parent
    return flags

theorem resolveLeaf_eq (s : Strategy α) (again : Reinsertion α) (leaf : NodeId)
    (flags : LevelFlags) : resolveLeaf s again leaf flags = (do
      let leaf ← if leaf = (← get).root then pushDownRoot else pure leaf
      treatLeaf s again flags leaf) := rfl

/-- A roomy configuration leaves an overfull leaf enough points. -/
theorem spares_of_roomy {count : Nat} {flags₀ : LevelFlags} {points : List PointId}
    (h : t.Overfull lev leaf) (hl : (t.slot leaf).leaf = true)
    (hfair : LeafDecision.Fair t leaf flags₀ flags (.reinsert count))
    (hmem : ∀ q ∈ points, q ∈ (t.slot leaf).points) (hmost : points.length ≤ count)
    (hroomy : t.config.Roomy) : t.Spares leaf points := by
  obtain ⟨hcount, -, hv, -, -⟩ := hfair
  have henough := hroomy.resolve_left hv
  have hlength := h.length_points hl
  exact ⟨hmem, by omega⟩

variable [OrderedScalar α]

/-- When the flags allow no further reinsertion, one can be carried through: all points taken out
are inserted again. -/
theorem reinsertFarthest_ok {count : Nat} {flags₀ : LevelFlags} (ha : Reinserts again 0)
    (h : t.Overfull lev leaf) (hl : (t.slot leaf).leaf = true)
    (hfair : LeafDecision.Fair t leaf flags₀ flags (.reinsert count)) :
    ∃ es flags' t',
      (∀ s : Strategy α, s.Serves t →
        (reinsertFarthest (again s) leaf count flags).run t = .ok flags' t') ∧
        t'.Sound ∧ Steps t es t' ∧ es.countP Event.endsReinsertion = 1 ∧ t'.turns flags' = 0 ∧
          Uniform t.relief es ∧ (∀ q, t'.copies q = t.copies q) ∧
            (t.config.Roomy → Growth t t') := by
  have hspent : t.turns flags = 0 := by simp [turns, hfair.2.2.2.2]
  obtain ⟨p, rest, htake, hnodup, hlength, hmem⟩ := exists_take_farthest h hl hfair.2.1
  have hlisted : ∀ q ∈ p :: rest, 0 < t.copies q := by
    intro q hq
    have h1 := t.count_points_le_copies leaf q
    have h2 := List.count_pos_iff.mpr (hmem q hq)
    omega
  obtain ⟨es₁, flags₁, t₁, hrun₁, hc₁, hcopies₁, hsame⟩ :=
    deleteAll_ok ha h.shaped (Nat.le_of_eq hspent) hnodup hlisted
      fun x hx => ⟨p, rfl, Option.some.inj hx ▸ hmem p (by simp)⟩
  have hframe := hc₁.steps.frame
  -- now they go in again
  obtain ⟨es₂, flags₂, t₂, hrun₂, hc₂, hcopies₂⟩ : ∃ es flags' t',
      (∀ s : Strategy α, s.Serves t₁ →
        ((again s).all (p :: rest).reverse flags₁).run t₁ = .ok flags' t') ∧
        Extended t₁ t' flags₁ flags' es ∧
          ∀ q, t'.copies q = t₁.copies q + (p :: rest).reverse.count q := by
    apply all_ok ha hc₁.sound (hspent ▸ hc₁.turns_le)
    · exact List.nodup_reverse.mpr hnodup
    · intro q hq
      rw [hframe.store]
      exact (h.shaped.legible leaf).points q (hmem q (List.mem_reverse.mp hq))
    · intro q hq
      have h1 := hcopies₁ q
      have h2 := h.shaped.registered.copies_le q
      have h3 := List.count_pos_iff.mpr (List.mem_reverse.mp hq)
      omega
  have hall := hc₁.trans hc₂.toCascaded
  have hnone := hall.turns
  have hlast : Step t₂ (.reinserted (p :: rest).length) (t₂.countReinsertion (p :: rest).length) :=
    .reinserted _
  refine ⟨es₁ ++ es₂ ++ [.reinserted (p :: rest).length], flags₂,
    t₂.countReinsertion (p :: rest).length, fun s hs => ?_, ?_, hall.steps.trans hlast.steps, ?_,
    ?_, ?_, ?_, ?_⟩
  · have hs₁ : s.Serves t₁ := hs.steps hc₁.steps
    unfold reinsertFarthest
    rw [bind_ok (farthestFirst_ok h.shaped h.inUse), htake, bind_ok (hrun₁ s hs),
      bind_ok (hrun₂ s hs₁)]
    rfl
  · obtain ⟨lev₂, hshaped₂⟩ := hc₂.sound
    exact ⟨lev₂, hshaped₂.updateStats rfl⟩
  · rw [List.countP_append, List.countP_singleton]
    simp only [Event.endsReinsertion, if_true]
    omega
  · have hsame : (t₂.countReinsertion (p :: rest).length).turns flags₂ = t₂.turns flags₂ := rfl
    omega
  · refine hall.uniform.append fun n hn => ?_
    obtain rfl := Event.reinserted.inj (List.mem_singleton.mp hn)
    rw [hlength, hfair.1]
    rfl
  · intro q
    have h1 := hcopies₁ q
    have h2 := hcopies₂ q
    rw [List.count_reverse] at h2
    change t₂.copies q = t.copies q
    omega
  · intro hroomy
    obtain ⟨hlinks, hstats⟩ := hsame leaf (spares_of_roomy h hl hfair hmem (by omega) hroomy)
    have hgrowth := hc₂.growth (.inl (hframe.config ▸ hroomy))
    have hcounted : Grows t₂ (t₂.countReinsertion (p :: rest).length) :=
      .steady (sameLinks_updateStats t₂ _) rfl
    exact .head (.steady hlinks (congrArg Counters.tally hstats)) (hgrowth.tail hcounted)

/-- An overfull leaf below a parent is relieved or split. -/
theorem treatLeaf_ok (h : t.Overfull lev leaf) (hl : (t.slot leaf).leaf = true)
    (hm : leaf ∈ (t.slot parent).children) (ha : 0 < t.turns flags → Reinserts again 0) :
    ∃ es flags' t',
      (∀ s : Strategy α, s.Serves t →
        (treatLeaf s (again s) flags leaf).run t = .ok flags' t') ∧
        Extended t t' flags flags' es ∧ (∀ q, t'.copies q = t.copies q) ∧ Mending es := by
  obtain ⟨decision, flags₁, hd, hfair, hused⟩ := onLeaf_ok h.shaped h.inUse hl h.full flags
  have hask {s : Strategy α} (hs : s.Serves t) :
      s.onLeaf t leaf flags = .ok (decision, flags₁) := (hs.onLeaf_eq h hl hm flags).trans hd
  cases decision with
  | reinsert count =>
    have ⟨_, _, hv, hfresh, _⟩ := hfair
    have hturn : t.turns flags = 1 := by simp [turns, hv, hfresh]
    obtain ⟨es, flags', t', hrun, hsound, hsteps, hone, hnone, huniform, hcopies, hgrowth⟩ :=
      reinsertFarthest_ok (ha (by omega)) h hl hfair
    have hstep : Step t (.relieve leaf count) t := .relieve h hl hm hd
    have hcount : (Event.relieve leaf count :: es).countP Event.endsReinsertion = 1 := by
      rw [List.countP_cons_of_neg Bool.false_ne_true]
      exact hone
    refine ⟨.relieve leaf count :: es, flags', t', fun s hs => ?_,
      ⟨⟨hsound, .cons hstep hsteps, ?_, .cons rfl huniform⟩, ?_⟩, hcopies, fun hnone => ?_⟩
    · unfold treatLeaf
      rw [bind_ok (query_ok (hask hs))]
      exact hrun s hs
    · omega
    · intro hor
      rw [hcount] at hor
      exact hgrowth (hor.resolve_right Nat.one_ne_zero)
    · omega
  | partition p =>
    obtain ⟨first, second, t₁, lev₁, hrun₁, hsplit, hr⟩ :=
      splitOverfull_ok h hm hfair (f := fun s => { s with leafSplits := s.leafSplits + 1 }) rfl
        t.strategy.keepsHistory
    have hstep : Step t (.splitLeaf leaf p) t₁ := .splitLeaf h hl hm hd hfair hsplit
    obtain ⟨es, t', hrun, hrest⟩ := resolveDirectory_ok hr.shaped hr.inUse hr.leaf
    have hall := Resolved.cons hstep rfl hsplit.copies hrest
    refine ⟨.splitLeaf leaf p :: es, flags₁, t', fun s hs => ?_,
      ⟨⟨hall.sound, hall.steps, ?_, .of_noReinsertion hall.noReinsertion⟩, fun _ => hall.growth⟩,
      hall.copies, hall.mending⟩
    · unfold treatLeaf
      rw [bind_ok (query_ok (hask hs))]
      simp only
      rw [modifyStats_bind, hs.keepsHistory, bind_ok hrun₁, bind_ok (hrun s (hs.step hstep))]
      rfl
    · have hsubset : t.turns flags₁ ≤ t.turns flags := turns_le_of_subset hused
      have hframe : t'.turns flags₁ = t.turns flags₁ := hall.steps.frame.turns flags₁
      have hnone := hall.noReinsertion
      omega

/-- An overfull leaf is dealt with, the root after it has got a parent. -/
theorem resolveLeaf_ok (h : t.Overfull lev leaf) (hl : (t.slot leaf).leaf = true)
    (ha : 0 < t.turns flags → Reinserts again 0) :
    ∃ es flags' t',
      (∀ s : Strategy α, s.Serves t →
        (resolveLeaf s (again s) leaf flags).run t = .ok flags' t') ∧
        Extended t t' flags flags' es ∧ (∀ q, t'.copies q = t.copies q) ∧ Mending es := by
  by_cases hroot : leaf = t.root
  · subst hroot
    obtain ⟨copy, t₁, hrun₁, hp⟩ := pushDownRoot_ok h.shaped.linked
    obtain ⟨hover₁, honly, hleaf₁⟩ := h.pushedDown hp
    have hm₁ : copy ∈ (t₁.slot t₁.root).children := by simp [honly]
    have hturns : t₁.turns flags = t.turns flags := hp.frame.turns flags
    obtain ⟨es, flags', t', hrun, hc, hcopies, hmending⟩ :=
      treatLeaf_ok hover₁ (hleaf₁.trans hl) hm₁ (hturns ▸ ha)
    have hstep : Step t (.promote copy) t₁ := .promote h hp
    refine ⟨.promote copy :: es, flags', t', fun s hs => ?_,
      .cons hstep rfl (.single (.promote hstep hl)) hc, ?_, .cons rfl hmending⟩
    · rw [resolveLeaf_eq, get_bind, if_pos rfl, bind_ok hrun₁]
      exact hrun s (hs.step hstep)
    · intro q
      exact (hcopies q).trans (hp.copies q)
  · obtain ⟨parent, hm⟩ := h.exists_parent hroot
    obtain ⟨es, flags', t', hrun, hrest⟩ := treatLeaf_ok h hl hm ha
    refine ⟨es, flags', t', fun s hs => ?_, hrest⟩
    rw [resolveLeaf_eq, get_bind, if_neg hroot, pure_bind]
    exact hrun s hs

def dropPoint (rule : DescentRule) (id : PointId) : TreeM α NodeId := do
  let p ← getCoords id
  let limit := (← get).walkLimit
  let root := (← get).root
  let leaf ← descendFrom rule p limit root
  modifyNode leaf (·.addPoint id p)
  return leaf

omit [OrderedScalar α] in
theorem placePoint_eq (s : Strategy α) (again : Reinsertion α) (id : PointId)
    (flags : LevelFlags) : placePoint s again id flags = (do
      let leaf ← dropPoint s.descent id
      let most := (← get).config.maxLeafSize
      if most < (← getNode leaf).points.length then resolveLeaf s again leaf flags
      else return flags) := by
  unfold placePoint dropPoint
  simp only [bind_assoc, pure_bind]

/-- A new point is in a leaf, which may have one point too many now. -/
structure Dropped (t t' : Tree α) (lev : NodeId → Nat) (id : PointId) (leaf : NodeId) : Prop where
  step : Step t (.place id leaf) t'
  shaped : t'.Shaped lev (some leaf) none []
  inUse : t'.InUse leaf
  leaf : (t'.slot leaf).leaf = true
  links : SameLinks t t'
  stats : t'.stats = t.stats
  copies : ∀ q, t'.copies q = t.copies q + [id].count q

/-- The point goes to the leaf that the descent chooses, before anything else happens. -/
inductive Entered (t : Tree α) (id : PointId) : List (Event α) → Prop
  | intro {leaf : NodeId} {es : List (Event α)}
      (hchosen : ∃ t₁, (descendFrom t.strategy.descent (t.coordsAt id) t.walkLimit t.root).run t =
        .ok leaf t₁) (hrest : Mending es) : Entered t id (.place id leaf :: es)

theorem dropPoint_ok (h : t.Shaped lev none none []) (rule : DescentRule)
    (hid : id.index < t.store.size) (hnew : t.copies id = 0) :
    ∃ leaf t₁ t', (descendFrom rule (t.coordsAt id) t.walkLimit t.root).run t = .ok leaf t₁ ∧
      (dropPoint rule id).run t = .ok leaf t' ∧ Dropped t t' lev id leaf := by
  obtain ⟨leaf, way, t₁, hrun₁, hway, hgrown⟩ :=
    descendFrom_ok rule (t.coordsAt id) h.passable h.linked.root h.level_root_lt_limit
  have hleaf : t.InUse leaf := (hway.inUse h.linked h.linked.root leaf hway.last_mem).1
  obtain ⟨hrun₂, hplaced⟩ := placed_ok hway hgrown hleaf.lt
  have hlinks := hplaced.sameLinks h.linked
  refine ⟨leaf, t₁, _, hrun₁, ?_,
    { step := .place h hid hnew hplaced
      shaped := hplaced.shaped hid hnew h
      inUse := (hlinks.inUse leaf).mpr hleaf
      leaf := (hlinks.leaf leaf).trans hway.leaf_eq_true
      links := hlinks
      stats := hplaced.nodes.stats
      copies := hplaced.copies }⟩
  unfold dropPoint
  rw [bind_ok (getCoords_ok hid), get_bind, get_bind, bind_ok hrun₁, bind_ok hrun₂]
  rfl

omit [OrderedScalar α] in
/-- The leaf has room for the point, or it is overfull. -/
theorem Dropped.overfull {t' : Tree α} (h : Dropped t t' lev id leaf)
    (hfull : t'.config.maxLeafSize < (t'.slot leaf).points.length) : t'.Overfull lev leaf := by
  refine ⟨h.shaped, h.inUse, ?_⟩
  simpa [Node.entryCount, room, h.leaf] using hfull

omit [OrderedScalar α] in
theorem Dropped.sound {t' : Tree α} (h : Dropped t t' lev id leaf)
    (hfits : ¬t'.config.maxLeafSize < (t'.slot leaf).points.length) : t'.Sound := by
  refine ⟨lev, h.shaped.fits ?_⟩
  simpa [Node.entryCount, room, h.leaf] using hfits

omit [OrderedScalar α] in
/-- An overfull leaf has more points than a leaf may hold. -/
theorem crowded_of_overfull (h : t.Shaped lev (some leaf) none [])
    (hfull : t.config.maxLeafSize < (t.slot leaf).points.length) : t.Crowded := by
  refine ⟨(t.slot leaf).points, nodup_points h.registered.copies_le leaf, hfull, fun p hp => ?_⟩
  exact Nat.lt_of_lt_of_le (List.count_pos_iff.mpr hp) (t.count_points_le_copies leaf p)

/-- A new point goes down to a leaf, and the tree is in order after its overflow is resolved. There
was none, or there are more points than a leaf may hold. -/
theorem placePoint_ok (h : t.Sound) (hid : id.index < t.store.size) (hnew : t.copies id = 0)
    (ha : 0 < t.turns flags → Reinserts again 0) :
    ∃ es flags' t',
      (∀ s : Strategy α, s.Serves t → (placePoint s (again s) id flags).run t = .ok flags' t') ∧
        Extended t t' flags flags' es ∧ (∀ q, t'.copies q = t.copies q + [id].count q) ∧
        (SameLinks t t' ∨ t'.Crowded) ∧ Entered t id es := by
  obtain ⟨lev, hshaped⟩ := h
  obtain ⟨leaf, t₀, t₁, hchosen, hrun₁, hd⟩ :=
    dropPoint_ok hshaped t.strategy.descent hid hnew
  have hgrowth : Growth t t₁ := .single (.steady hd.links (congrArg Counters.tally hd.stats))
  have hplace {s : Strategy α} (hs : s.Serves t) :
      (placePoint s (again s) id flags).run t =
        (if t₁.config.maxLeafSize < (t₁.slot leaf).points.length then
          resolveLeaf s (again s) leaf flags else pure flags : TreeM α LevelFlags).run t₁ := by
    rw [placePoint_eq, hs.descent, bind_ok hrun₁, get_bind, bind_ok (getNode_ok hd.inUse.lt)]
  by_cases hfull : t₁.config.maxLeafSize < (t₁.slot leaf).points.length
  · have hturns : t₁.turns flags = t.turns flags := hd.step.frame.turns flags
    obtain ⟨es, flags', t', hrun, hc, hcopies, hmending⟩ :=
      resolveLeaf_ok (hd.overfull hfull) hd.leaf (hturns ▸ ha)
    refine ⟨.place id leaf :: es, flags', t', fun s hs => ?_, .cons hd.step rfl hgrowth hc, ?_,
      .inr ((crowded_of_overfull hd.shaped hfull).congr hc.steps.frame.config hcopies),
      .intro ⟨t₀, hchosen⟩ hmending⟩
    · rw [hplace hs, if_pos hfull]
      exact hrun s (hs.step hd.step)
    · intro q
      rw [hcopies, hd.copies]
  · refine ⟨[.place id leaf], flags, t₁, fun s hs => ?_,
      .cons hd.step rfl hgrowth (.refl (hd.sound hfull) flags), hd.copies, .inl hd.links,
      .intro ⟨t₀, hchosen⟩ fun _ => List.forall_mem_nil _⟩
    rw [hplace hs, if_neg hfull]
    rfl

theorem placePoint_reinserts {most : Nat} (ha : 0 < most → Reinserts again 0) :
    Reinserts (fun s => placePoint s (again s)) most := by
  intro t flags id h hmost hid hnew
  obtain ⟨es, flags', t', hrun, hc, hcopies, -⟩ :=
    placePoint_ok h hid hnew fun hturn => ha (Nat.lt_of_lt_of_le hturn hmost)
  exact ⟨es, flags', t', hrun, hc, hcopies⟩

theorem insertWithin_reinserts_spent (α : Type) [Scalar α] [OrderedScalar α] (rounds : Nat) :
    Reinserts (α := α) (fun s => insertWithin s (rounds + 1)) 0 :=
  placePoint_reinserts fun h => absurd h (Nat.lt_irrefl 0)

/-- Two rounds suffice. -/
theorem insertWithin_reinserts (α : Type) [Scalar α] [OrderedScalar α] (rounds : Nat) :
    Reinserts (α := α) (fun s => insertWithin s (rounds + 2)) 1 :=
  placePoint_reinserts fun _ => insertWithin_reinserts_spent α rounds

theorem insertStored_ok (h : t.Sound) (hid : id.index < t.store.size) (hnew : t.copies id = 0)
    (flags : LevelFlags) :
    ∃ es flags' t',
      (∀ s : Strategy α, s.Serves t → (insertStored s id flags).run t = .ok flags' t') ∧
        Extended t t' flags flags' es ∧ (∀ q, t'.copies q = t.copies q + [id].count q) ∧
        (SameLinks t t' ∨ t'.Crowded) ∧ Entered t id es := by
  obtain ⟨es, flags', t', hrun, hrest⟩ :=
    placePoint_ok h hid hnew fun _ => insertWithin_reinserts_spent α t.arena.size
  refine ⟨es, flags', t', fun s hs => ?_, hrest⟩
  unfold insertStored
  rw [get_bind]
  exact hrun s hs

theorem deleteStored_ok (h : t.Sound) (hlisted : 0 < t.copies id) (flags : LevelFlags) :
    ∃ es flags' t',
      (∀ s : Strategy α, s.Serves t → (deleteStored s id flags).run t = .ok (true, flags') t') ∧
        Cascaded t t' flags flags' es ∧ ∀ q, t'.copies q + [id].count q = t.copies q := by
  obtain ⟨lev, hshaped⟩ := h
  obtain ⟨leaf, hleaf⟩ := exists_mem_points hlisted
  obtain ⟨es, flags', t', hrun, hc, hcopies, -⟩ :=
    takeOut_ok (insertWithin_reinserts α t.arena.size) hshaped (t.turns_le_one flags) (by simp)
      hleaf
  refine ⟨es, flags', t', fun s hs => ?_, hc, hcopies⟩
  unfold deleteStored
  rw [get_bind]
  exact hrun s hs

end TreeM

end RTree
