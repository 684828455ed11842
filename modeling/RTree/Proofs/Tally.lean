import RTree.Proofs.Slots
import Mathlib.Data.Set.Card

namespace RTree

variable {α : Type}

namespace Tree

variable {t t' : Tree α} {lev : NodeId → Nat} {id parent copy : NodeId}

noncomputable def population (t : Tree α) : Nat := {x | t.InUse x}.ncard

theorem finite_inUse (t : Tree α) : {x | t.InUse x}.Finite := by
  have hslots : ((fun i => (⟨i⟩ : NodeId)) '' {i | i < t.arena.size}).Finite :=
    (Set.finite_lt_nat t.arena.size).image _
  apply hslots.subset
  intro x hx
  exact ⟨x.index, hx.lt, rfl⟩

theorem SameLinks.population (h : SameLinks t t') : t'.population = t.population := by
  unfold Tree.population
  congr 1
  ext x
  exact h.inUse x

/-- The copy of the root is a new node. -/
theorem PushedDown.population (hs : PushedDown t t' copy) (h : t.Linked lev []) :
    t'.population = t.population + 1 := by
  have hset : {x | t'.InUse x} = insert copy {x | t.InUse x} := by
    ext x
    exact hs.inUse_iff h x
  have hcopy : copy ∉ {x | t.InUse x} := hs.idle
  unfold Tree.population
  rw [hset, Set.ncard_insert_of_notMem hcopy t.finite_inUse]

/-- Two nodes come for one. -/
theorem Split.population [Scalar α] {keepsHistory : Bool} {first second : NodeId}
    {p : Partition α} (hs : Split t t' keepsHistory id parent first second p)
    (hb : p.Balanced (t.slot id).entryCount (t.minimumFill (t.slot id))) (h : t.Linked lev [])
    (hm : id ∈ (t.slot parent).children) : t'.population = t.population + 1 := by
  have hset : {x | t'.InUse x} = insert first (insert second ({x | t.InUse x} \ {id})) := by
    ext x
    exact hs.inUse_iff hb h hm x
  have hid : id ∈ {x | t.InUse x} := (h.child parent id hm).1
  have hfinite : ({x | t.InUse x} \ {id}).Finite := t.finite_inUse.sdiff
  have hsecond : second ∉ {x | t.InUse x} \ {id} := fun hx => hs.idle_second hx.1
  have hfirst : first ∉ insert second ({x | t.InUse x} \ {id}) := by
    rintro (heq | hx)
    · exact hs.first_ne_second heq
    · exact hs.idle_first hx.1
  unfold Tree.population
  rw [hset, Set.ncard_insert_of_notMem hfirst (hfinite.insert second),
    Set.ncard_insert_of_notMem hsecond hfinite,
    Set.ncard_sdiff_singleton_add_one hid t.finite_inUse]

/-- The only child of the root is gone. -/
theorem Inherited.population [Scalar α] (hs : Inherited t t' id) (hid : t.InUse id) :
    t'.population + 1 = t.population := by
  have hmem : id ∈ {x | t.InUse x} := hid
  have hset : {x | t'.InUse x} = {x | t.InUse x} \ {id} := by
    ext x
    exact hs.inUse_iff x
  unfold Tree.population
  rw [hset, Set.ncard_sdiff_singleton_add_one hmem t.finite_inUse]

/-- A listing of the nodes has one entry for each. -/
theorem Spans.length_eq {ids : List NodeId} (hids : t.Spans t.root ids) (h : t.Linked lev []) :
    ids.length = t.population := by
  have hset : {x | t.InUse x} = {x | x ∈ ids} := by
    ext x
    exact (h.inUse_iff_below x).trans (hids.mem x).symm
  unfold population
  rw [hset, ← List.toFinset_card_of_nodup hids.nodup, ← Set.ncard_coe_finset]
  congr 1
  ext x
  simp

theorem Shaped.nodes_ok [Scalar α] {extra : Option NodeId} {loose : List NodeId}
    (h : t.Shaped lev extra none loose) :
    ∃ ids, t.nodes = .ok ids ∧ ids.length = t.population := by
  obtain ⟨ids, hrun, hids⟩ := h.linked.nodesFrom_ok h.linked.root h.level_root_lt_limit
  exact ⟨ids, hrun, hids.length_eq h.linked⟩

theorem SameLinks.levelFrom (h : SameLinks t t') (limit : Nat) (id : NodeId) :
    t'.levelFrom limit id = t.levelFrom limit id := by
  induction limit generalizing id with
  | zero => rfl
  | succ limit ih =>
    unfold Tree.levelFrom
    by_cases hid : id.index < t.arena.size
    · have hid' : id.index < t'.arena.size := h.size_arena ▸ hid
      rw [bind_of_ok (node_eq hid'), bind_of_ok (node_eq hid), h.children]
      simp only [ih]
    · have hsize := h.size_arena
      have hnode : t'.node id = t.node id := by
        unfold node
        rw [Array.getElem?_eq_none (by omega), Array.getElem?_eq_none (by omega)]
      have hmissing : t.node id = .error (.noSuchNode id) := by
        unfold node
        rw [Array.getElem?_eq_none (by omega)]
      rw [hnode, hmissing]
      rfl

theorem SameLinks.height (h : SameLinks t t') : t'.height = t.height := by
  unfold Tree.height level walkLimit
  rw [h.frame.root, h.size_arena, h.levelFrom]

theorem levelFrom_withStore (store : Array (StoredPoint α)) (size limit : Nat) (id : NodeId) :
    (t.withStore store size).levelFrom limit id = t.levelFrom limit id := by
  induction limit generalizing id with
  | zero => rfl
  | succ limit ih =>
    unfold levelFrom
    simp only [ih]
    rfl

theorem height_withStore (store : Array (StoredPoint α)) (size : Nat) :
    (t.withStore store size).height = t.height := levelFrom_withStore store size _ _

/-- The counters tell how many nodes there are and how high the tree is: a split and a promotion add
a node each, and an absorption takes one away. -/
structure Tallied (t : Tree α) : Prop where
  nodes : t.population + t.stats.rootAbsorptions =
    1 + t.stats.leafSplits + t.stats.directorySplits + t.stats.rootPromotions
  levels : ∃ height, t.height = .ok height ∧
    height + t.stats.rootAbsorptions = t.stats.rootPromotions

theorem Tallied.withStore (ht : t.Tallied) (store : Array (StoredPoint α)) (size : Nat) :
    (t.withStore store size).Tallied where
  nodes := ht.nodes
  levels := by
    rw [height_withStore]
    exact ht.levels

theorem SameLinks.tallied (h : SameLinks t t') (hs : t'.stats.tally = t.stats.tally)
    (ht : t.Tallied) : t'.Tallied := by
  obtain ⟨hl, hd, hp, ha⟩ : t'.stats.leafSplits = t.stats.leafSplits ∧
      t'.stats.directorySplits = t.stats.directorySplits ∧
      t'.stats.rootPromotions = t.stats.rootPromotions ∧
      t'.stats.rootAbsorptions = t.stats.rootAbsorptions := by
    simpa [Counters.tally] using hs
  constructor
  · rw [h.population, hl, hd, hp, ha]
    exact ht.nodes
  · rw [h.height, hp, ha]
    exact ht.levels

variable [Scalar α]

/-- The height is known by the levels of the nodes. -/
theorem Tallied.level_root {extra : Option NodeId} {loose : List NodeId} (ht : t.Tallied)
    (h : t.Shaped lev extra none loose) :
    lev t.root + t.stats.rootAbsorptions = t.stats.rootPromotions := by
  obtain ⟨height, hheight, hlevels⟩ := ht.levels
  rw [h.height_ok] at hheight
  rw [Except.ok.inj hheight]
  exact hlevels

/-- A root that is pushed down makes one node and one level more. -/
theorem PushedDown.tallied (hs : PushedDown t t' copy) (h : t.Overfull lev t.root)
    (ht : t.Tallied) : t'.Tallied := by
  have hnodes := ht.nodes
  have hlevels := ht.level_root h.shaped
  have hheight := (hs.shaped h.shaped h.full).height_ok
  rw [hs.frame.root, PushedDown.levels_root] at hheight
  constructor
  · rw [hs.population h.shaped.linked, hs.stats]
    simp only
    omega
  · refine ⟨_, hheight, ?_⟩
    rw [hs.stats]
    simp only
    omega

variable [OrderedScalar α]

/-- A split makes one node more. -/
theorem Split.tallied {t₁ : Tree α} {keepsHistory : Bool} {first second : NodeId}
    {p : Partition α} (hs : Split t₁ t' keepsHistory id parent first second p)
    (hb : p.Balanced (t₁.slot id).entryCount (t₁.minimumFill (t₁.slot id)))
    (h : t₁.Shaped lev (some id) none []) (hm : id ∈ (t₁.slot parent).children)
    (hlinks : SameLinks t t₁) (ht : t.Tallied)
    (hsplits : t₁.stats.leafSplits + t₁.stats.directorySplits =
      t.stats.leafSplits + t.stats.directorySplits + 1)
    (hp : t₁.stats.rootPromotions = t.stats.rootPromotions)
    (ha : t₁.stats.rootAbsorptions = t.stats.rootAbsorptions) : t'.Tallied := by
  have hnodes := ht.nodes
  have hsame : t.height = .ok (lev t₁.root) := hlinks.height ▸ h.height_ok
  have hheight := (hs.shaped hb h hm).height_ok
  rw [hs.frame.root, hs.levels_eq lev h.linked.root] at hheight
  obtain ⟨height, hold, hlevels⟩ := ht.levels
  obtain rfl := Except.ok.inj (hsame.symm.trans hold)
  constructor
  · rw [hs.population hb h.linked hm, hlinks.population]
    simp only [hs.stats, Partition.record_eq]
    omega
  · refine ⟨_, hheight, ?_⟩
    simp only [hs.stats, Partition.record_eq]
    omega

/-- An absorption makes one node and one level less. -/
theorem Absorbed.tallied (hs : Absorbed t t' id) (h : t.Overfull lev id)
    (hl : (t.slot id).leaf = false) (hm : (t.slot t.root).children = [id])
    (hd : t.strategy.onDirectory t id = .ok .supernode) (ht : t.Tallied) : t'.Tallied := by
  have hnodes := ht.nodes
  have hlevels := ht.level_root h.shaped
  have hpopulation := (hs.inherited h.shaped.linked hm hl).population h.inUse
  have hlev := (h.shaped.linked.child t.root id (by simp [hm])).2.2
  have hheight := (hs.shaped h.shaped hm hl (h.xTree hl hd)).height_ok
  rw [hs.frame.root, Inherited.levels_root] at hheight
  constructor
  · rw [hs.stats]
    simp only
    omega
  · refine ⟨_, hheight, ?_⟩
    rw [hs.stats]
    simp only
    omega

/-- What is done about an overfull node keeps the tally. -/
theorem Step.tallied {e : Event α} (h : Step t e t') (he : e.resolves = true) (ht : t.Tallied) :
    t'.Tallied := by
  cases h with
  | splitLeaf h _ hm _ hb hs =>
    refine hs.tallied hb (h.shaped.updateStats rfl) hm (sameLinks_updateStats t _) ht ?_ rfl rfl
    change t.stats.leafSplits + 1 + t.stats.directorySplits = _
    omega
  | splitDirectory h _ hm _ hb hs =>
    refine hs.tallied hb (h.shaped.updateStats rfl) hm (sameLinks_updateStats t _) ht ?_ rfl rfl
    change t.stats.leafSplits + (t.stats.directorySplits + 1) = _
    omega
  | widen h => exact (sameLinks_widenNode h.inUse).tallied rfl ht
  | absorb h hl hm hd hs => exact hs.tallied h hl hm hd ht
  | _ => cases he

theorem Grows.tallied (h : Grows t t') (ht : t.Tallied) : t'.Tallied := by
  cases h with
  | steady h hs => exact h.tallied hs ht
  | resolve h he => exact h.tallied he ht
  | promote h =>
    cases h with
    | promote h hs => exact hs.tallied h ht
  | raise h h' he =>
    cases h with
    | promote h hs => exact h'.tallied he (hs.tallied h ht)

theorem Growth.tallied (h : Growth t t') (ht : t.Tallied) : t'.Tallied := by
  induction h with
  | refl => exact ht
  | tail _ hs ih => exact hs.tallied ih

/-- A single empty leaf is one node. -/
theorem tallied_new {c : Config α} (h : Tree.new c = .ok t) : t.Tallied := by
  obtain ⟨lev, hs⟩ := (settled_new h).sound
  obtain ⟨ids, hnodes, hlength⟩ := hs.nodes_ok
  obtain ⟨-, rfl⟩ := new_eq_ok.mp h
  have hone : (ofConfig c).nodes = .ok [⟨0⟩] := rfl
  obtain rfl := Except.ok.inj (hone.symm.trans hnodes)
  exact ⟨hlength.symm, 0, rfl, rfl⟩

/-- An insertion keeps the tally, also one that is refused. -/
theorem Called.tallied {p : List α} {answer : Answer α} (h : Called t (.insert p) answer t')
    (hc : t.config.Roomy) (ht : t.Tallied) : t'.Tallied := by
  cases h with
  | inserted hins =>
    obtain ⟨t₁, flags, hext, -, rfl⟩ := hins.cascade
    exact ((hext.growth (.inl hc)).tallied (ht.withStore _ _)).withStore _ _
  | refused => exact ht

theorem tallied_calls {c : Config α} (hc : c.Roomy) (points : List (List α)) (hs : t.Settled)
    (hconfig : t.config = c) (ht : t.Tallied) : (t.calls (points.map .insert)).2.Tallied := by
  induction points generalizing t with
  | nil => exact ht
  | cons p points ih =>
    obtain ⟨hcalled, hs'⟩ := hs.call (.insert p)
    exact ih hs' (hcalled.config.trans hconfig) (hcalled.tallied (hconfig ▸ hc) ht)

/-- After any insertions the splits, the promotions and the absorptions of the root account for all
nodes, and the promotions and absorptions for the height. -/
theorem insertions_tallied {c : Config α} {t₀ : Tree α} (h : Tree.new c = .ok t₀) (hc : c.Roomy)
    (points : List (List α)) {t : Tree α} (ht : (t₀.calls (points.map .insert)).2 = t) :
    ∃ ids height, t.nodes = .ok ids ∧ t.height = .ok height ∧
      ids.length + t.stats.rootAbsorptions =
        1 + t.stats.leafSplits + t.stats.directorySplits + t.stats.rootPromotions ∧
      height + t.stats.rootAbsorptions = t.stats.rootPromotions := by
  have hsettled := settled_new h
  have hconfig : t₀.config = c := by
    obtain ⟨-, rfl⟩ := new_eq_ok.mp h
    rfl
  have htallied : t.Tallied := ht ▸ tallied_calls hc points hsettled hconfig (tallied_new h)
  obtain ⟨lev, hs⟩ : t.Sound := ht ▸ (hsettled.calls _).sound
  obtain ⟨ids, hnodes, hlength⟩ := hs.nodes_ok
  obtain ⟨height, hheight, hlevels⟩ := htallied.levels
  exact ⟨ids, height, hnodes, hheight, hlength ▸ htallied.nodes, hlevels⟩

def narrowPairs : Config Float :=
  { (default : Config Float) with
    minLeafSize := 1, maxLeafSize := 2, minChildren := 2, maxChildren := 3
    variant := .xTree, reinsertFraction := 0.5, maxOverlapRatio := 0.01 }

/-- After three forced reinsertions, two promotions and an absorption there are five nodes on two
levels. The fourth point is refused. -/
theorem insertions_tallied_narrow :
    ∃ t ids height, ((ofConfig narrowPairs).calls ([[5, 1], [3, 6], [6, 5], [7], [0, 1], [2, 4],
        [0, 6]].map .insert)).2 = t ∧ t.nodes = .ok ids ∧ t.height = .ok height ∧
      ids.length + 1 = 1 + 3 + 0 + 2 ∧ height + 1 = 2 ∧ t.stats.forcedReinsertions = 3 := by
  obtain ⟨t, ht⟩ : ∃ t, ((ofConfig narrowPairs).calls ([[5, 1], [3, 6], [6, 5], [7], [0, 1], [2, 4],
      [0, 6]].map .insert)).2 = t := ⟨_, rfl⟩
  obtain ⟨ids, height, hnodes, hheight, hcount, hlevels⟩ :=
    insertions_tallied (c := narrowPairs) rfl (by decide +kernel) _ ht
  obtain ⟨htally, hforced⟩ :
      t.stats.tally = (3, 0, 2, 1) ∧ t.stats.forcedReinsertions = 3 := by
    rw [← ht]
    decide +kernel
  obtain ⟨hl, hd, hp, ha⟩ : t.stats.leafSplits = 3 ∧ t.stats.directorySplits = 0 ∧
      t.stats.rootPromotions = 2 ∧ t.stats.rootAbsorptions = 1 := by
    simpa [Counters.tally] using htally
  rw [hl, hd, hp, ha] at hcount
  rw [hp, ha] at hlevels
  exact ⟨t, ids, height, ht, hnodes, hheight, hcount, hlevels, hforced⟩

end Tree

end RTree
