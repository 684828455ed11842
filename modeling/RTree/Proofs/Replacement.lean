import RTree.Proofs.Scalar.Binary64
import RTree.Proofs.Tree.Midway

namespace RTree

variable {α : Type} [Scalar α]

namespace Tree

/-- The tree's strategy wants the node divided so. -/
inductive Proposes (t : Tree α) (id : NodeId) (p : Partition α) : Prop
  | leaf {flags flags' : LevelFlags} (hl : (t.slot id).leaf = true)
      (hd : t.strategy.onLeaf t id flags = .ok (.partition p, flags'))
  | directory (hl : (t.slot id).leaf = false)
      (hd : t.strategy.onDirectory t id = .ok (.partition p))

/-- A new node below `parent` with the entries of the node `id` that stand in the places of a group,
in the order of the group. Children know their new parent and are the same otherwise. -/
structure Half (t t' : Tree α) (id parent half : NodeId) (group : List Nat) : Prop where
  idle : ¬ t.InUse half
  inUse : t'.InUse half
  leaf : (t'.slot half).leaf = (t.slot id).leaf
  capacity : (t'.slot half).capacity = (t.slot id).capacity
  parent : (t'.slot half).parent = some parent
  points : (t'.slot half).points = pick (t.slot id).points group
  children : (t'.slot half).children = pick (t.slot id).children group
  adopted : ∀ x ∈ (t'.slot half).children, t'.slot x = { t.slot x with parent := some half }
  tight : t'.Tight half

/-- Two halves are in the place of the node `id`: the first where the node was listed, the second
after all its siblings. The node is out of use and the next whose slot is used again, and all other
nodes are the same. -/
structure Replaced (t t' : Tree α) (id parent first second : NodeId) (p : Partition α) : Prop where
  frame : SameFrame t t'
  half_first : Half t t' id parent first p.first
  half_second : Half t t' id parent second p.second
  first_ne_second : first ≠ second
  points : ((t'.slot first).points ++ (t'.slot second).points).Perm (t.slot id).points
  children : ((t'.slot first).children ++ (t'.slot second).children).Perm (t.slot id).children
  bound : ((t'.slot first).bound.union (t'.slot second).bound == (t.slot id).bound) = true
  listed : ∃ place, (t.slot parent).children.idxOf? id = some place ∧
    t'.slot parent =
      { t.slot parent with children := (t.slot parent).children.set place first ++ [second] }
  parent_tight : t'.Tight parent
  retired : (t'.slot id).retired = true
  emptied : (t'.slot id).points = [] ∧ (t'.slot id).children = []
  parentless : (t'.slot id).parent = none
  free : t'.free = id :: t.free.tail.tail
  other : ∀ x, x ≠ first → x ≠ second → x ≠ id → x ≠ parent → x ∉ (t.slot id).children →
    t'.slot x = t.slot x

variable {c : Config α} {t t' : Tree α} {lev : NodeId → Nat} {id parent first second : NodeId}
  {p : Partition α} {keepsHistory : Bool}

theorem Half.of_updateStats {f : Counters α → Counters α} {half : NodeId} {group : List Nat}
    (h : Half (t.updateStats f) t' id parent half group) : Half t t' id parent half group :=
  ⟨h.idle, h.inUse, h.leaf, h.capacity, h.parent, h.points, h.children, h.adopted, h.tight⟩

/-- What was counted before a split is not read by it. -/
theorem Replaced.of_updateStats {f : Counters α → Counters α}
    (h : Replaced (t.updateStats f) t' id parent first second p) :
    Replaced t t' id parent first second p where
  frame := (sameFrame_updateStats t f).trans h.frame
  half_first := h.half_first.of_updateStats
  half_second := h.half_second.of_updateStats
  first_ne_second := h.first_ne_second
  points := h.points
  children := h.children
  bound := h.bound
  listed := h.listed
  parent_tight := h.parent_tight
  retired := h.retired
  emptied := h.emptied
  parentless := h.parentless
  free := h.free
  other := h.other

section

variable [OrderedScalar α]

/-- A partition that the strategy wants can be made. -/
theorem Overfull.balanced_of_proposes (h : t.Overfull lev id) (hp : t.Proposes id p) :
    p.Balanced (t.slot id).entryCount (t.minimumFill (t.slot id)) := by
  cases hp with
  | @leaf flags _ hl hd =>
    obtain ⟨decision, flags', hd', hfair, -⟩ := onLeaf_ok h.shaped h.inUse hl h.full flags
    rw [hd] at hd'
    obtain ⟨rfl, rfl⟩ := Prod.mk.inj (Except.ok.inj hd')
    exact hfair
  | directory hl hd =>
    obtain ⟨decision, hd', hfair⟩ := onDirectory_ok h.shaped h.inUse hl h.full
    rw [hd] at hd'
    obtain rfl := Except.ok.inj hd'
    exact hfair

/-- The bounds of the halves together are the bound of the whole. -/
theorem Split.bound_union (hs : Split t t' keepsHistory id parent first second p)
    (hb : p.Balanced (t.slot id).entryCount (t.minimumFill (t.slot id)))
    (h : t.Shaped lev (some id) none []) (hm : id ∈ (t.slot parent).children) :
    ((t'.slot first).bound.union (t'.slot second).bound == (t.slot id).bound) = true := by
  have hfit := hs.fitted hb h hm
  have huse := hs.inUse_iff hb h.linked hm
  have hfirst := hfit.hull first ((huse first).mpr (.inl rfl)) (by simp)
  have hsecond := hfit.hull second ((huse second).mpr (.inr (.inl rfl))) (by simp)
  rw [hs.frame.dim, hs.rectsOf_half hb h.linked hs.slot_first] at hfirst
  rw [hs.frame.dim, hs.rectsOf_half hb h.linked hs.slot_second] at hsecond
  have hperm := (length_rectsOf t (t.slot id) ▸ hb).pick_perm
  have hold := h.fitted.hull id (h.linked.child parent id hm).1 (by simp)
  have hunion : Rectangle.IsHull t.dim (t.rectsOf (t.slot id))
      ((t'.slot first).bound.union (t'.slot second).bound) :=
    (hfirst.union hsecond).congr fun g _ => by simp only [hperm.mem_iff]
  exact hunion.beq hold

theorem Split.replaced (hs : Split t t' keepsHistory id parent first second p)
    (hb : p.Balanced (t.slot id).entryCount (t.minimumFill (t.slot id)))
    (h : t.Shaped lev (some id) none []) (hm : id ∈ (t.slot parent).children) :
    Replaced t t' id parent first second p := by
  have hshaped := hs.shaped hb h hm
  have huse := hs.inUse_iff hb h.linked hm
  have hid := (h.linked.child parent id hm).1
  have hparent := h.linked.inUse_of_mem_children hm
  have hkind := h.linked.oneKind id hid
  have hhalf : ∀ half group, ¬ t.InUse half → t'.InUse half →
      (∀ x ∈ pick (t.slot id).children group, t'.slot x = (t.slot x).withParent half) →
      t'.slot half = t.portion (t.slot id) group parent
        (p.passOn keepsHistory (t.slot id).history) → Half t t' id parent half group := by
    intro half group hidle hused hmoved hslot
    have htight := hshaped.tight hused
    refine ⟨hidle, hused, ?_, ?_, ?_, ?_, ?_, ?_, htight⟩ <;> rw [hslot]
    · rfl
    · rfl
    · rfl
    · rfl
    · rfl
    · exact hmoved
  have hfirst := hhalf first p.first hs.idle_first ((huse first).mpr (.inl rfl)) hs.moved_first
    hs.slot_first
  have hsecond := hhalf second p.second hs.idle_second ((huse second).mpr (.inr (.inl rfl)))
    hs.moved_second hs.slot_second
  have hkept : t'.InUse parent :=
    (huse parent).mpr (.inr (.inr ⟨hparent, (h.linked.child_ne hm).symm⟩))
  refine
    { frame := hs.frame, half_first := hfirst, half_second := hsecond
      first_ne_second := hs.first_ne_second, points := ?_, children := ?_
      bound := hs.bound_union hb h hm, listed := hs.slot_parent
      parent_tight := hshaped.tight hkept, retired := ?_, emptied := ?_, parentless := ?_
      free := hs.free, other := hs.other }
  · rw [hfirst.points, hsecond.points]
    exact hb.perm_points hkind
  · rw [hfirst.children, hsecond.children]
    exact hb.perm_children hkind
  all_goals rw [hs.slot_id]
  · rfl
  · exact ⟨rfl, rfl⟩
  · rfl

/-- A node that a strategy is asked about has a parent, and every partition that the strategy wants
is made of it, however the split has been counted before. There are no other nodes that a strategy
is asked about. -/
theorem splits_conserve {t₀ : Tree α} (h : Tree.new c = .ok t₀) :
    (∀ (t : Tree α) id, t.Asked c id → ∃ parent, (t.slot id).parent = some parent ∧
      id ∈ (t.slot parent).children ∧
      ∀ p, t.Proposes id p → ∀ count : Counters α → Counters α,
        (∀ s, (count s).supernodeGrowths = s.supernodeGrowths) →
          ∃ first second t', (TreeM.splitNode t.strategy.keepsHistory id p).run
              (t.updateStats count) = .ok parent t' ∧
            Replaced t t' id parent first second p) ∧
    ∀ refusal ks,
      t₀.callsBy (c.variant.strategy.guarded (Asked c) (Asked c) refusal) ks = t₀.calls ks := by
  obtain ⟨hvalid, rfl⟩ := new_eq_ok.mp h
  refine ⟨?_, callsBy_guarded hvalid (fun _ _ h _ => h) (fun _ _ h _ => h)⟩
  intro t id hasked
  obtain ⟨lev, hover⟩ := hasked.overfull hvalid
  obtain ⟨parent, hm⟩ := hover.exists_parent hasked.ne_root
  refine ⟨parent, (hover.shaped.linked.child parent id hm).2.1, hm, ?_⟩
  intro p hp count hcount
  have hb := hover.balanced_of_proposes hp
  obtain ⟨first, second, t', -, hrun, hs, -⟩ :=
    TreeM.splitOverfull_ok hover hm hb (hcount t.stats) t.strategy.keepsHistory
  have hr := hs.replaced hb (hover.shaped.updateStats (hcount t.stats)) hm
  exact ⟨first, second, t', hrun, hr.of_updateStats⟩

end

def small : Config Float :=
  { (default : Config Float) with
    minLeafSize := 1, maxLeafSize := 2, minChildren := 2, maxChildren := 3 }

def corners : List (Call Float) :=
  [.insert [0, 0], .insert [9, 9], .insert [1, 1], .insert [8, 8]]

/-- Two leaves with two points each, and a third point put into the second of them. -/
def crowded : Tree Float := ((ofConfig small).calls corners).2.dropped [8, 9]

/-- The split of the second leaf: its first and its last point against the one between. -/
def halving : Partition Float := .quadratic (crowded.rectsOf (crowded.slot ⟨3⟩)) small.minLeafSize

/-- The slot that the first split has set free is given to the first half of the second leaf, and a
new one to its other half. -/
theorem splits_conserve_corners : crowded.Asked small ⟨3⟩ ∧ crowded.Proposes ⟨3⟩ halving ∧
    halving.first = [0, 2] ∧ halving.second = [1] ∧ crowded.free = [⟨1⟩] ∧
    ∃ t', (TreeM.splitNode false ⟨3⟩ halving).run crowded.countLeafSplit = .ok ⟨0⟩ t' ∧
      Replaced crowded t' ⟨3⟩ ⟨0⟩ ⟨1⟩ ⟨4⟩ halving := by
  have hfinite : ∀ v ∈ [(8 : Float), 9], v.isFinite = true := by decide +kernel
  have hmidway : crowded.Midway small := .dropped rfl corners ⟨rfl, hfinite⟩
  have hasked : crowded.Asked small ⟨3⟩ :=
    ⟨hmidway, .single (by decide +kernel), by decide +kernel, by decide +kernel⟩
  have hconfig : crowded.config = small := hmidway.config rfl
  have hown : crowded.strategy = Strategy.quadratic := by
    rw [strategy, hconfig]
    rfl
  have hproposes : crowded.Proposes ⟨3⟩ halving := by
    obtain ⟨lev, hover⟩ := hasked.overfull rfl
    have hseed := seedSplit_ok hover.shaped hover.inUse small.minLeafSize
    have hleaf : (crowded.slot ⟨3⟩).leaf = true := by decide +kernel
    have hdecides : crowded.strategy.onLeaf crowded ⟨3⟩ .fresh =
        .ok (.partition halving, .fresh) := by
      rw [hown]
      rw [← hconfig] at hseed
      exact (bind_of_ok hseed _).trans (by rw [hconfig]; rfl)
    exact .leaf hleaf hdecides
  obtain ⟨hlaw, -⟩ := splits_conserve (c := small) rfl
  obtain ⟨parent, hparent, -, hsplit⟩ := hlaw crowded ⟨3⟩ hasked
  have hzero : (crowded.slot ⟨3⟩).parent = some ⟨0⟩ := by decide +kernel
  obtain rfl : parent = ⟨0⟩ := Option.some.inj (hparent.symm.trans hzero)
  obtain ⟨first, second, t', hrun, hr⟩ := hsplit halving hproposes
    (fun s => { s with leafSplits := s.leafSplits + 1 }) fun _ => rfl
  rw [hown] at hrun
  -- the two new nodes are where the root lists them
  have hlist : (t'.slot ⟨0⟩).children = [⟨2⟩, ⟨1⟩, ⟨4⟩] := by
    have hafter : (TreeM.splitNode false ⟨3⟩ halving).after crowded.countLeafSplit = t' :=
      TreeM.after_ok hrun
    rw [← hafter]
    decide +kernel
  obtain ⟨place, hplace, hlisted⟩ := hr.listed
  have hplace' : (crowded.slot ⟨0⟩).children.idxOf? ⟨3⟩ = some 1 := by decide +kernel
  have hchildren : (crowded.slot ⟨0⟩).children = [⟨2⟩, ⟨3⟩] := by decide +kernel
  obtain rfl : place = 1 := Option.some.inj (hplace.symm.trans hplace')
  rw [hlisted, hchildren] at hlist
  obtain ⟨rfl, rfl⟩ : first = ⟨1⟩ ∧ second = ⟨4⟩ := by simpa using hlist
  exact ⟨hasked, hproposes, by decide +kernel, by decide +kernel, by decide +kernel, t', hrun, hr⟩

end Tree

end RTree
