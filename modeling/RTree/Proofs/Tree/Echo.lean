import RTree.Proofs.Tree.Plain

namespace RTree

variable {α β γ δ ε : Type}

def PointId.raise (k : Nat) (p : PointId) : PointId := ⟨p.index + k⟩

theorem PointId.raise_injective (k : Nat) : Function.Injective (raise k) := by
  intro ⟨i⟩ ⟨j⟩ h
  simpa [raise] using h

def Node.raise (k : Nat) (n : Node α) : Node α := { n with points := n.points.map (.raise k) }

/-- The counters with those of `d` on top; the largest ratio is left as it is. -/
def Counters.plus (s d : Counters α) : Counters α where
  leafSplits := s.leafSplits + d.leafSplits
  directorySplits := s.directorySplits + d.directorySplits
  rootPromotions := s.rootPromotions + d.rootPromotions
  forcedReinsertions := s.forcedReinsertions + d.forcedReinsertions
  reinsertedPoints := s.reinsertedPoints + d.reinsertedPoints
  supernodeGrowths := s.supernodeGrowths + d.supernodeGrowths
  rootAbsorptions := s.rootAbsorptions + d.rootAbsorptions
  minOverlapSplits := s.minOverlapSplits + d.minOverlapSplits
  degenerateSplits := s.degenerateSplits + d.degenerateSplits
  maxOverlapRatio := s.maxOverlapRatio

theorem Counters.plus_right_comm (s d e : Counters α) : (s.plus d).plus e = (s.plus e).plus d := by
  simp only [plus, Nat.add_right_comm]

theorem Config.eq_of_plain {c c' : Config α} (h : c'.plain = c.plain) (f : Config α → β)
    (hf : ∀ c, f c.plain = f c) : f c' = f c := by
  rw [← hf c', h, hf c]

/-- What the second of two trees has that the first has not. -/
structure Offset (α : Type) where
  /-- The points ahead of those that both trees have. -/
  store : Array (StoredPoint α)
  dead : ∀ p ∈ store, p.live = false
  stats : Counters α
  /-- Both trees keep the same histories. -/
  alike : Prop

variable {o : Offset α}

abbrev Offset.raise (o : Offset α) : PointId → PointId := PointId.raise o.store.size

/-- The second node is the first one with the numbers that its points have in the second tree. -/
def Node.Echo (o : Offset α) (n n' : Node α) : Prop :=
  ∃ history, (o.alike → history = n.history) ∧
    n' = { n with points := n.points.map o.raise, history }

theorem contains_map_raise (k : Nat) (points : List PointId) (id : PointId) :
    (points.map (PointId.raise k)).contains (id.raise k) = points.contains id := by
  rw [Bool.eq_iff_iff, List.contains_iff_mem, List.contains_iff_mem,
    List.mem_map_of_injective (PointId.raise_injective k)]

theorem filter_map_raise (k : Nat) (points : List PointId) (id : PointId) :
    (points.map (PointId.raise k)).filter (· != id.raise k) =
      (points.filter (· != id)).map (PointId.raise k) := by
  rw [List.filter_map]
  congr 2
  funext p
  simp only [Function.comp_apply, bne, beq_eq_decide, (PointId.raise_injective k).eq_iff]

theorem mapM_ok_map {f : β → Except ε γ} {f' : β → Except ε δ} {g : γ → δ}
    (h : ∀ x y, f x = .ok y → f' x = .ok (g y)) {xs : List β} {ys : List γ}
    (hxs : xs.mapM f = .ok ys) : xs.mapM f' = .ok (ys.map g) := by
  induction xs generalizing ys with
  | nil =>
    cases hxs
    rfl
  | cons x xs ih =>
    rw [List.mapM_cons] at hxs ⊢
    obtain ⟨y, hy, hxs⟩ := bind_eq_ok.mp hxs
    obtain ⟨ys', hys, hxs⟩ := bind_eq_ok.mp hxs
    cases hxs
    rw [bind_of_ok (h x y hy), bind_of_ok (ih hys)]
    rfl

namespace Tree

variable [Scalar α] {t u : Tree α}

/-- The second tree has what the offset says ahead of what the first has, and else differs from it
in the histories, the largest accepted ratio and the choice of variant at most. -/
structure Echo (o : Offset α) (t u : Tree α) : Prop where
  config : u.config.plain = t.config.plain
  store : u.store = o.store ++ t.store
  slots : u.arena.size = t.arena.size
  nodes : ∀ (i : Nat) (n : Node α), t.arena[i]? = some n →
    ∃ n', u.arena[i]? = some n' ∧ Node.Echo o n n'
  free : u.free = t.free
  root : u.root = t.root
  size : u.size = t.size
  stats : u.stats.plain = (t.stats.plus o.stats).plain

theorem exists_echo (o : Offset α) (t : Tree α) : ∃ u, Echo o t u := by
  refine ⟨{ t with
    store := o.store ++ t.store, arena := t.arena.map (Node.raise o.store.size)
    stats := t.stats.plus o.stats }, rfl, rfl, by simp, ?_, rfl, rfl, rfl, rfl⟩
  intro i n hn
  exact ⟨n.raise o.store.size, by simp [hn], n.history, fun _ => rfl, rfl⟩

namespace Echo

theorem walkLimit (h : Echo o t u) : u.walkLimit = t.walkLimit := congrArg (· + 1) h.slots

theorem dim (h : Echo o t u) : u.dim = t.dim :=
  Config.eq_of_plain h.config (·.dimension) fun _ => rfl

theorem minLeafSize (h : Echo o t u) : u.config.minLeafSize = t.config.minLeafSize :=
  Config.eq_of_plain h.config (·.minLeafSize) fun _ => rfl

theorem maxLeafSize (h : Echo o t u) : u.config.maxLeafSize = t.config.maxLeafSize :=
  Config.eq_of_plain h.config (·.maxLeafSize) fun _ => rfl

theorem minChildren (h : Echo o t u) : u.config.minChildren = t.config.minChildren :=
  Config.eq_of_plain h.config (·.minChildren) fun _ => rfl

theorem maxChildren (h : Echo o t u) : u.config.maxChildren = t.config.maxChildren :=
  Config.eq_of_plain h.config (·.maxChildren) fun _ => rfl

theorem metric (h : Echo o t u) : u.config.metric = t.config.metric :=
  Config.eq_of_plain h.config (·.metric) fun _ => rfl

theorem reinsertionSize (h : Echo o t u) : u.config.reinsertionSize = t.config.reinsertionSize :=
  Config.eq_of_plain h.config (·.reinsertionSize) fun _ => rfl

theorem maxOverlapRatio (h : Echo o t u) : u.config.maxOverlapRatio = t.config.maxOverlapRatio :=
  Config.eq_of_plain h.config (·.maxOverlapRatio) fun _ => rfl

theorem vacant (h : Echo o t u) {i : Nat} (hi : t.arena[i]? = none) : u.arena[i]? = none :=
  Array.getElem?_eq_none (h.slots ▸ Array.getElem?_eq_none_iff.mp hi)

theorem acceptPoint (h : Echo o t u) (p : List α) : u.acceptPoint p = t.acceptPoint p := by
  unfold Tree.acceptPoint
  rw [h.dim]

theorem stored (h : Echo o t u) (id : PointId) :
    u.store[(o.raise id).index]? = t.store[id.index]? := by
  have hle : o.store.size ≤ (o.raise id).index := Nat.le_add_left ..
  have hindex : (o.raise id).index - o.store.size = id.index := Nat.add_sub_cancel ..
  rw [h.store, Array.getElem?_append_right hle, hindex]

/-- A point ahead of the first tree's own is dead. -/
theorem stored_of_lt (h : Echo o t u) {id : PointId} (hid : id.index < o.store.size) :
    ∃ p, u.store[id.index]? = some p ∧ p.live = false := by
  refine ⟨o.store[id.index], ?_, o.dead _ (Array.getElem_mem hid)⟩
  rw [h.store, Array.getElem?_append_left hid, Array.getElem?_eq_getElem hid]

theorem node_bind (h : Echo o t u) {id : NodeId} {f f' : Node α → Except (Failure α) β}
    (hf : ∀ n history, (o.alike → history = n.history) →
      f' { n with points := n.points.map o.raise, history } = f n) :
    (u.node id >>= f') = (t.node id >>= f) := by
  unfold Tree.node
  cases hn : t.arena[id.index]? with
  | none =>
    rw [h.vacant hn]
    rfl
  | some n =>
    obtain ⟨n', hn', history, hhistory, rfl⟩ := h.nodes _ _ hn
    rw [hn']
    exact hf n history hhistory

theorem levelFrom (h : Echo o t u) (limit : Nat) (id : NodeId) :
    u.levelFrom limit id = t.levelFrom limit id := by
  induction limit generalizing id with
  | zero => rfl
  | succ limit ih =>
    simp only [Tree.levelFrom, ih]
    exact h.node_bind fun _ _ _ => rfl

theorem level (h : Echo o t u) (id : NodeId) : u.level id = t.level id := by
  unfold Tree.level
  rw [h.walkLimit, h.levelFrom]

theorem childBounds (h : Echo o t u) {n n' : Node α} (hn : n'.children = n.children) :
    u.childBounds n' = t.childBounds n := by
  unfold Tree.childBounds
  rw [hn]
  apply congrArg (n.children.mapM ·)
  funext id
  exact h.node_bind fun _ _ _ => rfl

theorem aboveLeaves (h : Echo o t u) {n n' : Node α} (hn : n'.children = n.children) :
    u.aboveLeaves n' = t.aboveLeaves n := by
  unfold Tree.aboveLeaves
  rw [hn]
  cases n.children with
  | nil => rfl
  | cons child rest => exact h.node_bind fun _ _ _ => rfl

theorem childFor (h : Echo o t u) (rule : DescentRule) {n n' : Node α}
    (hn : n'.children = n.children) (p : List α) : u.childFor rule n' p = t.childFor rule n p := by
  unfold Tree.childFor
  rw [h.aboveLeaves hn, h.childBounds hn]

theorem isOnlyChild (h : Echo o t u) (parent : NodeId) :
    u.isOnlyChild parent = t.isOnlyChild parent := by
  unfold Tree.isOnlyChild
  rw [h.root]
  split
  · exact h.node_bind fun _ _ _ => rfl
  · rfl

theorem searchFrom (h : Echo o t u) (point : PointId) (p : List α) (limit : Nat) (id : NodeId) :
    u.searchFrom (o.raise point) p limit id = t.searchFrom point p limit id := by
  induction limit generalizing id with
  | zero => rfl
  | succ limit ih =>
    have hbelow : u.searchFrom (o.raise point) p limit = t.searchFrom point p limit := funext ih
    simp only [Tree.searchFrom, hbelow]
    apply h.node_bind
    intro n history _
    simp only [contains_map_raise]

theorem search (h : Echo o t u) (point : PointId) (p : List α) :
    u.search (o.raise point) p = t.search point p := by
  unfold Tree.search
  rw [h.walkLimit, h.root, h.searchFrom]

theorem contains (h : Echo o t u) (id : PointId) : u.contains (o.raise id) = t.contains id := by
  unfold Tree.contains
  rw [h.stored]

theorem point (h : Echo o t u) (id : PointId) : u.point? (o.raise id) = t.point? id := by
  unfold Tree.point?
  rw [h.stored]

theorem path (h : Echo o t u) (id : PointId) : u.path? (o.raise id) = t.path? id := by
  unfold Tree.path?
  rw [h.point]
  cases t.point? id with
  | none => rfl
  | some p => exact h.search id p

theorem coords (h : Echo o t u) {id : PointId} {p : List α} (hp : t.coords id = .ok p) :
    u.coords (o.raise id) = .ok p := by
  unfold Tree.coords at hp ⊢
  rw [h.stored]
  cases hs : t.store[id.index]? with
  | none =>
    rw [hs] at hp
    cases hp
  | some s =>
    rw [hs] at hp
    exact hp

theorem placedPoints (h : Echo o t u) {n n' : Node α} {placed : List (PointId × List α)}
    (hn : n'.points = n.points.map o.raise) (hplaced : t.placedPoints n = .ok placed) :
    u.placedPoints n' = .ok (placed.map fun a => (o.raise a.1, a.2)) := by
  unfold Tree.placedPoints at hplaced ⊢
  rw [hn, List.mapM_map]
  refine mapM_ok_map ?_ hplaced
  intro id a ha
  obtain ⟨p, hp, hpure⟩ := bind_eq_ok.mp ha
  cases hpure
  exact bind_eq_ok.mpr ⟨p, h.coords hp, rfl⟩

variable {n n' : Node α} {rects : List (Rectangle α)} {id : NodeId}

theorem entryRects (h : Echo o t u) (hn : Node.Echo o n n') (hrects : t.entryRects n = .ok rects) :
    u.entryRects n' = .ok rects := by
  obtain ⟨history, -, rfl⟩ := hn
  unfold Tree.entryRects at hrects ⊢
  dsimp only
  split
  · rename_i hl
    rw [if_pos hl] at hrects
    obtain ⟨placed, hplaced, hpure⟩ := bind_eq_ok.mp hrects
    cases hpure
    rw [bind_of_ok (h.placedPoints rfl hplaced), List.map_map]
    rfl
  · rename_i hl
    rw [if_neg hl] at hrects
    rwa [h.childBounds rfl]

theorem tightBound (h : Echo o t u) (hn : Node.Echo o n n') {bound : Rectangle α}
    (hbound : t.tightBound n = .ok bound) : u.tightBound n' = .ok bound := by
  obtain ⟨rects, hrects, hpure⟩ := bind_eq_ok.mp hbound
  cases hpure
  unfold Tree.tightBound
  rw [bind_of_ok (h.entryRects hn hrects), h.dim]
  rfl

theorem node (h : Echo o t u) (hn : t.node id = .ok n) :
    ∃ n', u.node id = .ok n' ∧ Node.Echo o n n' := by
  obtain ⟨n', hn', hecho⟩ := h.nodes _ _ (node_eq_ok_iff.mp hn)
  exact ⟨n', node_eq_ok_iff.mpr hn', hecho⟩

/-- The rectangles of the entries of the node in a slot. -/
theorem slotRects (h : Echo o t u) (hrects : (t.node id >>= t.entryRects) = .ok rects) :
    (u.node id >>= u.entryRects) = .ok rects := by
  obtain ⟨n, hn, hrects⟩ := bind_eq_ok.mp hrects
  obtain ⟨n', hn', hecho⟩ := h.node hn
  exact bind_eq_ok.mpr ⟨n', hn', h.entryRects hecho hrects⟩

theorem sortableRects (h : Echo o t u) {edges : List Edge}
    (hrects : t.sortableRects id edges = .ok rects) : u.sortableRects id edges = .ok rects := by
  unfold Tree.sortableRects at hrects ⊢
  simp only [← bind_assoc] at hrects ⊢
  obtain ⟨rects', hslot, hsorted⟩ := bind_eq_ok.mp hrects
  rwa [bind_of_ok (h.slotRects hslot), h.dim]

theorem seedSplit (h : Echo o t u) {minimum : Nat} {p : Partition α}
    (hp : t.seedSplit id minimum = .ok p) : u.seedSplit id minimum = .ok p := by
  unfold Tree.seedSplit at hp ⊢
  simp only [← bind_assoc] at hp ⊢
  obtain ⟨rects, hslot, hpure⟩ := bind_eq_ok.mp hp
  rwa [bind_of_ok (h.slotRects hslot)]

theorem leafSplit (h : Echo o t u) {p : Partition α} (hp : t.leafSplit id = .ok p) :
    u.leafSplit id = .ok p := by
  obtain ⟨rects, hrects, hpure⟩ := bind_eq_ok.mp hp
  unfold Tree.leafSplit
  rwa [bind_of_ok (h.sortableRects hrects), h.dim, h.minLeafSize]

theorem directorySplit (h : Echo o t u) {p : Partition α} (hp : t.directorySplit id = .ok p) :
    u.directorySplit id = .ok p := by
  obtain ⟨rects, hrects, hpure⟩ := bind_eq_ok.mp hp
  unfold Tree.directorySplit
  rwa [bind_of_ok (h.sortableRects hrects), h.dim, h.minChildren]

theorem reinsertOrSplit (h : Echo o t u) {flags : LevelFlags}
    {answer : LeafDecision α × LevelFlags} (ha : t.reinsertOrSplit id flags = .ok answer) :
    u.reinsertOrSplit id flags = .ok answer := by
  have hcount : u.reinsertion? id flags = t.reinsertion? id flags := by
    unfold reinsertion?
    rw [h.level, h.reinsertionSize]
  obtain ⟨⟨count?, left⟩, hasked, hrest⟩ := bind_eq_ok.mp ha
  unfold Tree.reinsertOrSplit
  rw [hcount, bind_of_ok hasked]
  cases count? with
  | some count => exact hrest
  | none =>
    obtain ⟨p, hp, hpure⟩ := bind_eq_ok.mp hrest
    exact bind_eq_ok.mpr ⟨p, h.leafSplit hp, hpure⟩

/-- The histories of its children are what an X-tree decides about a directory by. -/
theorem overlapSplit (h : Echo o t u) (ho : o.alike) {decision : DirectoryDecision α}
    (hd : t.overlapSplit id = .ok decision) : u.overlapSplit id = .ok decision := by
  obtain ⟨rects, hrects, hd⟩ := bind_eq_ok.mp hd
  unfold Tree.overlapSplit
  rw [bind_of_ok (h.sortableRects hrects), ← hd, h.dim, h.minChildren, h.maxOverlapRatio]
  apply h.node_bind
  intro n history _
  have hhistories : (n.children.mapM fun child => return (← u.node child).history) =
      n.children.mapM fun child => return (← t.node child).history := by
    apply congrArg (n.children.mapM ·)
    funext child
    apply h.node_bind
    intro n history hhistory
    rw [hhistory ho]
  dsimp only
  rw [hhistories]

/-- Changes of two nodes that keep one an echo of the other. -/
theorem updateNode (h : Echo o t u) (id : NodeId) {f f' : Node α → Node α}
    (hf : ∀ n history, (o.alike → history = n.history) →
      Node.Echo o (f n) (f' { n with points := n.points.map o.raise, history })) :
    Echo o (t.updateNode id f) (u.updateNode id f') := by
  refine { h with slots := ?_, nodes := ?_ }
  · rw [size_arena_updateNode, size_arena_updateNode, h.slots]
  · intro i n hn
    simp only [Tree.updateNode, Array.getElem?_modify] at hn ⊢
    by_cases hid : id.index = i
    · rw [if_pos hid] at hn ⊢
      obtain ⟨n, hold, rfl⟩ := Option.map_eq_some_iff.mp hn
      obtain ⟨n', hn', history, hhistory, rfl⟩ := h.nodes _ _ hold
      rw [hn']
      exact ⟨_, rfl, hf n history hhistory⟩
    · rw [if_neg hid] at hn ⊢
      exact h.nodes _ _ hn

/-- Two changes of counters that add the same counts. -/
theorem updateStats (h : Echo o t u) {f f' : Counters α → Counters α} (d : Counters α)
    (hf : ∀ s, (f s).plain = (s.plus d).plain) (hf' : ∀ s, (f' s).plain = (s.plus d).plain) :
    Echo o (t.updateStats f) (u.updateStats f') := by
  refine { h with stats := ?_ }
  calc (f' u.stats).plain = u.stats.plain.plus d := hf' u.stats
    _ = ((t.stats.plus o.stats).plus d).plain := congrArg (·.plus d) h.stats
    _ = (t.stats.plus d).plain.plus o.stats :=
      congrArg Counters.plain (t.stats.plus_right_comm o.stats d)
    _ = ((f t.stats).plus o.stats).plain := congrArg (·.plus o.stats) (hf t.stats).symm

theorem push (h : Echo o t u) (leaf : Bool) (parent : Option NodeId) (capacity : Nat) :
    Echo o { t with arena := t.arena.push (.new leaf t.dim parent capacity) }
      { u with arena := u.arena.push (.new leaf u.dim parent capacity) } := by
  refine { h with slots := ?_, nodes := ?_ }
  · rw [Array.size_push, Array.size_push, h.slots]
  · intro i n hn
    rw [Array.getElem?_push] at hn ⊢
    rw [h.slots, h.dim]
    by_cases hi : i = t.arena.size
    · rw [if_pos hi] at hn ⊢
      cases hn
      exact ⟨_, rfl, _, fun _ => rfl, rfl⟩
    · rw [if_neg hi] at hn ⊢
      exact h.nodes _ _ hn

theorem storePoint (h : Echo o t u) (p : StoredPoint α) :
    Echo o { t with store := t.store.push p } { u with store := u.store.push p } := by
  refine { h with store := ?_ }
  dsimp only
  rw [h.store, Array.append_push]

theorem setLive (h : Echo o t u) (id : PointId) (live : Bool) :
    Echo o (t.setLive id live) (u.setLive (o.raise id) live) := by
  refine { h with store := ?_ }
  apply Array.ext_getElem?
  intro i
  simp only [Tree.setLive, h.store, Array.getElem?_modify, Array.getElem?_append, PointId.raise]
  by_cases hi : i < o.store.size
  · rw [if_pos hi, if_pos hi, if_neg (by omega)]
  · rw [if_neg hi, if_neg hi]
    by_cases hid : id.index = i - o.store.size
    · rw [if_pos (by omega), if_pos hid]
    · rw [if_neg (by omega), if_neg hid]

end Echo

/-- The tree has one empty leaf and has not used another slot, whatever came before. -/
def Bare (t : Tree α) : Prop := t = { ofConfig t.config with store := t.store, stats := t.stats }

theorem Echo.of_bare (ht : t.Bare) (hu : u.Bare) (hconfig : u.config.plain = t.config.plain)
    (hstore : u.store = o.store ++ t.store)
    (hstats : u.stats.plain = (t.stats.plus o.stats).plain) : Echo o t u := by
  have hdim : u.config.dimension = t.config.dimension :=
    Config.eq_of_plain hconfig (·.dimension) fun _ => rfl
  have hmost : u.config.maxChildren = t.config.maxChildren :=
    Config.eq_of_plain hconfig (·.maxChildren) fun _ => rfl
  have harena : u.arena = t.arena := by
    rw [ht, hu]
    simp only [ofConfig, hdim, hmost]
  refine ⟨hconfig, hstore, congrArg Array.size harena, ?_, ?_, ?_, ?_, hstats⟩
  · intro i n hn
    have hn' := hn
    rw [ht] at hn'
    rw [harena]
    cases i with
    | zero =>
      cases hn'
      exact ⟨_, hn, _, fun _ => rfl, rfl⟩
    | succ i => simp [ofConfig] at hn'
  all_goals
    rw [ht, hu]
    rfl

/-- The points ahead stay dead. -/
theorem Echo.clear (h : Echo o t u) : Echo o t.clear u.clear := by
  refine Echo.of_bare rfl rfl h.config ?_ h.stats
  have hdead : o.store.map (fun p => { p with live := false }) = o.store := by
    conv => rhs; rw [← Array.map_id o.store]
    apply Array.map_congr_left
    intro p hp
    rw [← o.dead p hp]
    rfl
  show u.store.map _ = o.store ++ t.store.map _
  rw [h.store, Array.map_append, hdead]

end Tree

end RTree
