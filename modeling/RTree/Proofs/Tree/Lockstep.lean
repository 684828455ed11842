import RTree.Proofs.Tree.Mirror
import RTree.Proofs.Tree.Splits

namespace RTree

variable {α : Type} [Scalar α] {o : Offset α}

def Partition.counted (p : Partition α) : Counters α where
  degenerateSplits := if p.kind = .degenerate then 1 else 0
  minOverlapSplits := if p.kind = .minOverlap then 1 else 0
  maxOverlapRatio := Scalar.zero

theorem Partition.plain_record (p : Partition α) (s : Counters α) :
    (p.record s).plain = (s.plus p.counted).plain := by
  rw [record_eq]
  rfl

/-- The same decision about a directory, maybe with another overlap ratio. -/
inductive DirectoryDecision.Echo : DirectoryDecision α → DirectoryDecision α → Prop
  | supernode : Echo .supernode .supernode
  | partition (p : Partition α) (ratio? : Option α) :
    Echo (.partition p) (.partition { p with overlapRatio := ratio? })

omit [Scalar α] in
theorem DirectoryDecision.Echo.refl (d : DirectoryDecision α) : d.Echo d := by
  cases d with
  | supernode => exact .supernode
  | partition p => exact .partition p p.overlapRatio

def DirectoryDecision.IsStray : DirectoryDecision α → Prop
  | supernode => True
  | partition p => p.kind = .minOverlap

/-- On an echo of the tree, the second strategy decides as the first does. Where the histories may
differ, the first may instead decide about a directory as only an X-tree does. -/
structure Strategy.Echo (o : Offset α) (s s' : Strategy α) : Prop where
  descent : s'.descent = s.descent
  keepsHistory : o.alike → s'.keepsHistory = s.keepsHistory
  onLeaf : ∀ t u leaf flags answer, Tree.Echo o t u → s.onLeaf t leaf flags = .ok answer →
    s'.onLeaf u leaf flags = .ok answer
  onDirectory : ∀ t u id d, Tree.Echo o t u → s.onDirectory t id = .ok d →
    ¬o.alike ∧ d.IsStray ∨ ∃ d', s'.onDirectory u id = .ok d' ∧ d.Echo d'

/-- A variant decides as it does itself. -/
theorem Variant.strategy_echo (v : Variant) (ho : o.alike) :
    Strategy.Echo o v.strategy v.strategy := by
  cases v with
  | rTree =>
    refine ⟨rfl, fun _ => rfl, ?_, ?_⟩
    · intro t u leaf flags answer hecho h
      obtain ⟨p, hp, hpure⟩ := bind_eq_ok.mp h
      have hp' := hecho.seedSplit hp
      rw [← hecho.minLeafSize] at hp'
      exact bind_eq_ok.mpr ⟨p, hp', hpure⟩
    · intro t u id d hecho h
      obtain ⟨p, hp, hpure⟩ := bind_eq_ok.mp h
      cases hpure
      have hp' := hecho.seedSplit hp
      rw [← hecho.minChildren] at hp'
      exact .inr ⟨_, bind_eq_ok.mpr ⟨p, hp', rfl⟩, .refl _⟩
  | rStar =>
    refine ⟨rfl, fun _ => rfl, fun t u leaf flags answer hecho h => hecho.reinsertOrSplit h, ?_⟩
    intro t u id d hecho h
    obtain ⟨p, hp, hpure⟩ := bind_eq_ok.mp h
    cases hpure
    exact .inr ⟨_, bind_eq_ok.mpr ⟨p, hecho.directorySplit hp, rfl⟩, .refl _⟩
  | xTree =>
    exact ⟨rfl, fun _ => rfl, fun t u leaf flags answer hecho h => hecho.reinsertOrSplit h,
      fun t u id d hecho h => .inr ⟨d, hecho.overlapSplit ho h, (.refl d)⟩⟩

/-- An X-tree decides as the tree that splits by margin alone, unless it decides as that never
does. -/
theorem Strategy.overlap_echo (ho : ¬o.alike) :
    Strategy.Echo o (.overlap : Strategy α) .margin where
  descent := rfl
  keepsHistory := fun h => absurd h ho
  onLeaf := fun _ _ _ _ _ hecho h => hecho.reinsertOrSplit h
  onDirectory := by
    intro t u id d hecho h
    rcases Tree.overlapSplit_eq_ok h with rfl | ⟨p, rfl, hkind | hmargin⟩
    · exact .inl ⟨ho, trivial⟩
    · exact .inl ⟨ho, hkind⟩
    · exact .inr ⟨_, bind_eq_ok.mpr ⟨_, hecho.directorySplit hmargin, rfl⟩, .partition p none⟩

namespace TreeM

open RTree.Tree

theorem mirrors_adopt (parent : NodeId) (children : List NodeId) :
    Mirrors o (adopt parent children : TreeM α Unit) (adopt parent children) := by
  apply mirrors_forM
  intro child
  exact Mirrors.modifyNode child fun _ _ h => ⟨_, h, rfl⟩

theorem mirrors_placeAmong (id parent : NodeId) :
    Mirrors o (placeAmong id parent : TreeM α Nat) (placeAmong id parent) := by
  apply Mirrors.getNode_bind
  intro n history _
  dsimp only
  cases n.children.idxOf? id with
  | some place => exact Mirrors.pure rfl
  | none => exact Mirrors.throw _ _

theorem mirrors_tighten (id : NodeId) :
    Mirrors o (tighten id : TreeM α Unit) (tighten id) := by
  apply Mirrors.getNode_bind
  intro n history h
  refine Mirrors.bind (Mirrors.query ?_) ?_
  · exact fun t u bound hecho hbound => hecho.tightBound ⟨history, h, rfl⟩ hbound
  intro bound
  exact Mirrors.modifyNode id fun _ _ h => ⟨_, h, rfl⟩

theorem mirrors_pushDownRoot : Mirrors o (pushDownRoot : TreeM α NodeId) pushDownRoot := by
  apply Mirrors.get_bind
  intro t u hecho
  simp only [hecho.root]
  apply Mirrors.getNode_bind
  intro n history _
  apply Mirrors.bind (mirrors_allocate n.leaf (some t.root) n.capacity)
  intro copy
  apply Mirrors.getNode_bind
  intro old history hhistory
  apply Mirrors.get_bind
  intro t' u' hecho'
  simp only [hecho'.maxChildren]
  refine Mirrors.bind (Mirrors.modifyNode t.root fun _ _ h => ⟨_, h, rfl⟩) ?_
  intro _
  apply Mirrors.bind (mirrors_adopt copy old.children)
  intro _
  refine Mirrors.bind (Mirrors.modifyNode copy fun _ _ _ => ⟨_, hhistory, rfl⟩) ?_
  intro _
  refine Mirrors.bind (Mirrors.modifyStats
    { rootPromotions := 1, maxOverlapRatio := Scalar.zero } (fun _ => rfl) fun _ => rfl) ?_
  intro _
  exact Mirrors.pure rfl

theorem mirrors_moveEntry (old : Node α) (history : SplitHistory) (target : NodeId) (entry : Nat) :
    Mirrors o (moveEntry old target entry)
      (moveEntry { old with points := old.points.map o.raise, history } target entry) := by
  apply Mirrors.ite
  · intro _
    dsimp only
    rw [List.getElem?_map]
    cases old.points[entry]? with
    | none => exact Mirrors.throw _ _
    | some id =>
      apply Mirrors.bind (Mirrors.getCoords id)
      intro p
      apply Mirrors.modifyNode
      intro n history h
      refine ⟨history, h, ?_⟩
      simp only [Node.addPoint, List.map_append, List.map_cons, List.map_nil]
  · intro _
    dsimp only
    cases old.children[entry]? with
    | none => exact Mirrors.throw _ _
    | some child =>
      apply Mirrors.getNode_bind
      intro n history _
      refine Mirrors.bind (Mirrors.modifyNode target fun _ _ h => ⟨_, h, rfl⟩) ?_
      intro _
      exact Mirrors.modifyNode child fun _ _ h => ⟨_, h, rfl⟩

theorem mirrors_fillNode (old : Node α) (history : SplitHistory) (target : NodeId)
    (group : List Nat) {passed passed' : SplitHistory} (h : o.alike → passed' = passed) :
    Mirrors o (fillNode old target group passed)
      (fillNode { old with points := old.points.map o.raise, history } target group passed') := by
  apply Mirrors.bind (mirrors_forM (mirrors_moveEntry old history target) group)
  intro _
  exact Mirrors.modifyNode target fun _ _ _ => ⟨_, h, rfl⟩

/-- Whether an overlap ratio comes with a partition makes no difference to its record. -/
theorem mirrors_recordPartition (p : Partition α) (ratio? : Option α) :
    Mirrors o (recordPartition p) (recordPartition { p with overlapRatio := ratio? }) := by
  have hrun : ∀ p : Partition α, recordPartition p = modifyStats p.record := by
    intro p
    funext t
    exact recordPartition_ok p
  rw [hrun, hrun]
  exact Mirrors.modifyStats p.counted p.plain_record (Partition.plain_record _)

theorem mirrors_splitNode {keepsHistory keepsHistory' : Bool}
    (hkeeps : o.alike → keepsHistory' = keepsHistory) (id : NodeId) (p : Partition α)
    (ratio? : Option α) :
    Mirrors o (splitNode keepsHistory id p)
      (splitNode keepsHistory' id { p with overlapRatio := ratio? }) := by
  apply Mirrors.getNode_bind
  intro old history hhistory
  dsimp only
  cases old.parent with
  | none => exact Mirrors.throw _ _
  | some parent =>
    apply Mirrors.get_bind
    intro t u hecho
    simp only [minimumFill, hecho.minLeafSize, hecho.minChildren, Node.entryCount,
      List.length_map]
    apply Mirrors.ite
    case hn => exact fun _ => Mirrors.throw_bind _ _ _
    intro _
    refine Mirrors.bind (Mirrors.modifyNode id fun _ _ h => ⟨_, h, rfl⟩) ?_
    intro _
    apply Mirrors.bind (mirrors_allocate old.leaf (some parent) old.capacity)
    intro first
    apply Mirrors.bind (mirrors_allocate old.leaf (some parent) old.capacity)
    intro second
    refine Mirrors.bind (mirrors_fillNode old history first p.first ?_) ?_
    · intro ho
      rw [hkeeps ho, hhistory ho]
    intro _
    refine Mirrors.bind (mirrors_fillNode old history second p.second ?_) ?_
    · intro ho
      rw [hkeeps ho, hhistory ho]
    intro _
    apply Mirrors.bind (mirrors_placeAmong id parent)
    intro place
    refine Mirrors.bind (Mirrors.modifyNode parent fun _ _ h => ⟨_, h, rfl⟩) ?_
    intro _
    apply Mirrors.bind (mirrors_retire id)
    intro _
    apply Mirrors.bind (mirrors_recordPartition p ratio?)
    intro _
    exact Mirrors.pure rfl

theorem mirrors_absorbIntoRoot (id root : NodeId) :
    Mirrors o (absorbIntoRoot id root : TreeM α Unit) (absorbIntoRoot id root) := by
  apply Mirrors.getNode_bind
  intro old history hhistory
  refine Mirrors.bind (Mirrors.modifyNode id fun _ _ h => ⟨_, h, rfl⟩) ?_
  intro _
  apply Mirrors.bind (mirrors_retire id)
  intro _
  apply Mirrors.getNode_bind
  intro n _ _
  apply Mirrors.bind (Mirrors.query_eq fun _ _ _ => rfl)
  intro capacity
  refine Mirrors.bind (Mirrors.modifyNode root fun _ _ _ => ⟨_, hhistory, rfl⟩) ?_
  intro _
  apply Mirrors.bind (mirrors_adopt root old.children)
  intro _
  apply Mirrors.bind (mirrors_tighten root)
  intro _
  exact Mirrors.modifyStats { rootAbsorptions := 1, maxOverlapRatio := Scalar.zero }
    (fun _ => rfl) fun _ => rfl

theorem mirrors_makeSupernode (id : NodeId) :
    Mirrors o (makeSupernode id : TreeM α Unit) (makeSupernode id) := by
  have hgrowth : Mirrors o
      (modifyStats fun s : Counters α => { s with supernodeGrowths := s.supernodeGrowths + 1 })
      (modifyStats fun s => { s with supernodeGrowths := s.supernodeGrowths + 1 }) :=
    Mirrors.modifyStats { supernodeGrowths := 1, maxOverlapRatio := Scalar.zero } (fun _ => rfl)
      fun _ => rfl
  apply Mirrors.getNode_bind
  intro n history _
  dsimp only
  cases n.parent with
  | none => exact Mirrors.throw _ _
  | some parent =>
    apply Mirrors.bind (Mirrors.query_eq fun _ _ hecho => hecho.isOnlyChild parent)
    intro only
    apply Mirrors.ite
    · intro _
      exact Mirrors.bind (mirrors_absorbIntoRoot id parent) fun _ => hgrowth
    · intro _
      refine Mirrors.bind (Mirrors.modifyNode id fun _ _ h => ⟨_, h, rfl⟩) fun _ => hgrowth

theorem strays_makeSupernode (id : NodeId) : Strays (makeSupernode id : TreeM α Unit) := by
  have hgrowth : Strays (modifyStats fun s : Counters α =>
      { s with supernodeGrowths := s.supernodeGrowths + 1 }) := by
    intro t t' b hrun
    cases hrun
    exact .inl (Nat.succ_pos _)
  apply Strays.bind
  intro n
  cases n.parent with
  | none => exact strays_throw _
  | some parent =>
    apply Strays.bind
    intro only
    dsimp only
    split
    · exact Strays.bind fun _ => hgrowth
    · exact Strays.bind fun _ => hgrowth

theorem strays_recordPartition {p : Partition α} (h : p.kind = .minOverlap) :
    Strays (recordPartition p) := by
  intro t t' b hrun
  rw [recordPartition_ok] at hrun
  cases hrun
  right
  show 0 < (p.record t.stats).minOverlapSplits
  simp only [Partition.record_eq, if_pos h]
  omega

/-- Splitting along a shared axis is what an X-tree alone does. -/
theorem strays_splitNode (keepsHistory : Bool) (id : NodeId) {p : Partition α}
    (h : p.kind = .minOverlap) : Strays (splitNode keepsHistory id p) := by
  apply Strays.bind
  intro old
  cases old.parent with
  | none => exact strays_throw _
  | some parent =>
    apply Strays.bind
    intro t
    dsimp only
    split
    case isFalse => exact strays_throw_bind _ _
    apply Strays.bind
    intro _
    apply Strays.bind
    intro first
    apply Strays.bind
    intro second
    apply Strays.bind
    intro _
    apply Strays.bind
    intro _
    apply Strays.bind
    intro place
    apply Strays.bind
    intro _
    apply Strays.bind
    intro _
    apply (strays_recordPartition h).bind_left
    intro _ t t' b ht hrun
    cases hrun
    exact ht

/-- What becomes of a directory that is too full, and what follows at its parent. -/
def relieve (keepsHistory : Bool) (next : NodeId → TreeM α Unit) (id : NodeId) :
    DirectoryDecision α → TreeM α Unit
  | .supernode => makeSupernode id
  | .partition p => do
    modifyStats fun s => { s with directorySplits := s.directorySplits + 1 }
    let parent ← splitNode keepsHistory id p
    next parent

variable {next next' : NodeId → TreeM α Unit} {s s' : Strategy α}

theorem mirrors_relieve {keepsHistory keepsHistory' : Bool}
    (hkeeps : o.alike → keepsHistory' = keepsHistory)
    (hnext : ∀ id, Mirrors o (next id) (next' id)) (id : NodeId) {d d' : DirectoryDecision α}
    (hd : d.Echo d') :
    Mirrors o (relieve keepsHistory next id d) (relieve keepsHistory' next' id d') := by
  cases hd with
  | supernode => exact mirrors_makeSupernode id
  | partition p ratio? =>
    refine Mirrors.bind (Mirrors.modifyStats
      { directorySplits := 1, maxOverlapRatio := Scalar.zero } (fun _ => rfl) fun _ => rfl) ?_
    intro _
    apply Mirrors.bind (mirrors_splitNode hkeeps id p ratio?)
    intro parent
    exact hnext parent

theorem strays_relieve (keepsHistory : Bool) (hnext : ∀ id, Stays (next id)) (id : NodeId)
    {d : DirectoryDecision α} (hd : d.IsStray) : Strays (relieve keepsHistory next id d) := by
  cases d with
  | supernode => exact strays_makeSupernode id
  | partition p =>
    apply Strays.bind
    intro _
    exact (strays_splitNode keepsHistory id hd).bind_left hnext

theorem mirrors_treat (hs : Strategy.Echo o s s') (hnext : ∀ id, Mirrors o (next id) (next' id))
    (id : NodeId) :
    Mirrors o (query (s.onDirectory · id) >>= relieve s.keepsHistory next id)
      (query (s'.onDirectory · id) >>= relieve s'.keepsHistory next' id) := by
  apply Mirrors.query_bind
  · intro d
    exact (mirrors_relieve hs.keepsHistory hnext id (.refl d)).stays
  · intro t u d hecho hask
    rcases hs.onDirectory t u id d hecho hask with ⟨ho, hstray⟩ | ⟨d', hask', hd⟩
    · exact .inl ⟨ho, strays_relieve s.keepsHistory (fun id => (hnext id).stays) id hstray⟩
    · exact .inr ⟨d', hask', mirrors_relieve hs.keepsHistory hnext id hd⟩

theorem mirrors_resolveDirectories (hs : Strategy.Echo o s s') (limit : Nat) (id : NodeId) :
    Mirrors o (resolveDirectories s limit id) (resolveDirectories s' limit id) := by
  induction limit generalizing id with
  | zero => exact Mirrors.throw _ _
  | succ limit ih =>
    apply Mirrors.getNode_bind
    intro n history _
    apply Mirrors.ite
    · intro _
      exact Mirrors.pure rfl
    intro _
    apply Mirrors.get_bind
    intro t u hecho
    simp only [hecho.root]
    apply Mirrors.ite
    · intro _
      apply Mirrors.bind mirrors_pushDownRoot
      exact mirrors_treat hs ih
    · intro _
      apply Mirrors.bind (Mirrors.pure rfl)
      exact mirrors_treat hs ih

theorem mirrors_resolveDirectory (hs : Strategy.Echo o s s') (id : NodeId) :
    Mirrors o (resolveDirectory s id) (resolveDirectory s' id) := by
  apply Mirrors.get_bind
  intro t u hecho
  rw [hecho.walkLimit]
  exact mirrors_resolveDirectories hs (t.walkLimit + 1) id

theorem mirrors_detachFrom (limit : Nat) (id : NodeId) :
    MirrorsBy o (List.map o.raise) (detachFrom limit id : TreeM α (List PointId))
      (detachFrom limit id) := by
  induction limit generalizing id with
  | zero => exact Mirrors.throw _ _
  | succ limit ih =>
    apply Mirrors.getNode_bind
    intro n history _
    apply Mirrors.bind (mirrors_retire id)
    intro _
    apply Mirrors.bind_by (mirrors_mapM ih n.children.reverse)
    intro below
    apply Mirrors.pure
    rw [List.map_append, List.map_flatten]

theorem mirrors_dissolve (id parent : NodeId) :
    MirrorsBy o (List.map o.raise) (dissolve id parent : TreeM α (List PointId))
      (dissolve id parent) := by
  apply Mirrors.bind (mirrors_placeAmong id parent)
  intro place
  refine Mirrors.bind (Mirrors.modifyNode parent fun _ _ h => ⟨_, h, rfl⟩) ?_
  intro _
  apply Mirrors.get_bind
  intro t u hecho
  simp only [hecho.walkLimit]
  exact mirrors_detachFrom t.walkLimit id

theorem mirrors_condenseFrom (limit : Nat) (id : NodeId) :
    MirrorsBy o (List.map o.raise) (condenseFrom limit id : TreeM α (List PointId))
      (condenseFrom limit id) := by
  induction limit generalizing id with
  | zero => exact Mirrors.throw _ _
  | succ limit ih =>
    apply Mirrors.getNode_bind
    intro n history _
    dsimp only
    cases n.parent with
    | none => exact Mirrors.pure rfl
    | some parent =>
      apply Mirrors.get_bind
      intro t u hecho
      simp only [minimumFill, hecho.minLeafSize, hecho.minChildren, Node.entryCount,
        List.length_map]
      apply Mirrors.ite
      · intro _
        apply Mirrors.bind_by (mirrors_dissolve id parent)
        intro orphans
        apply Mirrors.bind_by (ih parent)
        intro more
        exact Mirrors.pure List.map_append
      · intro _
        apply Mirrors.bind (mirrors_tighten id)
        intro _
        exact ih parent

theorem mirrors_settleRoot : Mirrors o (settleRoot : TreeM α Unit) settleRoot := by
  apply Mirrors.get_bind
  intro t u hecho
  simp only [hecho.root]
  apply Mirrors.getNode_bind
  intro n history _
  apply Mirrors.ite
  · intro _
    apply Mirrors.get_bind
    intro t' u' hecho'
    simp only [hecho'.maxChildren]
    refine Mirrors.bind (Mirrors.modifyNode t.root fun _ _ h => ⟨_, h, rfl⟩) ?_
    intro _
    exact mirrors_tighten t.root
  · intro _
    exact mirrors_tighten t.root

variable {again again' : Reinsertion α}

theorem mirrors_all (h : ∀ id flags, Mirrors o (again id flags) (again' (o.raise id) flags))
    (points : List PointId) (flags : LevelFlags) :
    Mirrors o (again.all points flags) (again'.all (points.map o.raise) flags) :=
  mirrors_foldlM (fun flags id => h id flags) points flags

theorem mirrors_condenseTree
    (h : ∀ id flags, Mirrors o (again id flags) (again' (o.raise id) flags)) (leaf : NodeId)
    (flags : LevelFlags) :
    Mirrors o (condenseTree again leaf flags) (condenseTree again' leaf flags) := by
  apply Mirrors.get_bind
  intro t u hecho
  simp only [hecho.walkLimit]
  apply Mirrors.bind_by (mirrors_condenseFrom (2 * t.walkLimit) leaf)
  intro orphans
  apply Mirrors.bind mirrors_settleRoot
  intro _
  exact mirrors_all h orphans flags

theorem mirrors_leafOf? (id : PointId) :
    Mirrors o (leafOf? id : TreeM α (Option NodeId)) (leafOf? (o.raise id)) := by
  apply Mirrors.query_eq
  intro t u hecho
  simp only [hecho.stored, hecho.search]

theorem mirrors_takeOut
    (h : ∀ id flags, Mirrors o (again id flags) (again' (o.raise id) flags)) (id : PointId)
    (flags : LevelFlags) :
    Mirrors o (takeOut again id flags) (takeOut again' (o.raise id) flags) := by
  apply Mirrors.bind (mirrors_leafOf? id)
  intro leaf?
  cases leaf? with
  | none => exact Mirrors.pure rfl
  | some leaf =>
    apply Mirrors.bind
    · apply Mirrors.modifyNode
      intro n history hhistory
      exact ⟨history, hhistory, by rw [filter_map_raise]⟩
    intro _
    apply Mirrors.bind (mirrors_condenseTree h leaf flags)
    intro flags
    exact Mirrors.pure rfl

theorem mirrors_farthestFirst (leaf : NodeId) :
    MirrorsBy o (List.map o.raise) (farthestFirst leaf : TreeM α (List PointId))
      (farthestFirst leaf) := by
  apply Mirrors.getNode_bind
  intro n history _
  have hplaced : MirrorsBy o (List.map fun a : PointId × List α => (o.raise a.1, a.2))
      (query (·.placedPoints n))
      (query (·.placedPoints { n with points := n.points.map o.raise, history })) :=
    Mirrors.query fun t u placed hecho h => hecho.placedPoints rfl h
  apply Mirrors.bind_by hplaced
  intro placed
  apply Mirrors.get_bind
  intro t u hecho
  simp only [hecho.metric]
  apply Mirrors.pure
  let distance (a : PointId × List α) : α := t.config.metric.distance n.bound.center a.2
  let farther (a b : PointId × List α) : Bool := decide (distance b < distance a)
  have hsort : ∀ f : PointId → PointId,
      (stableSort (fun a b => decide (b.1 < a.1))
        (placed.map fun a => (distance a, f a.1))).map Prod.snd =
      (stableSort farther placed).map fun a => f a.1 := by
    intro f
    rw [stableSort_map farther, List.map_map]
    · rfl
    · exact fun _ _ => rfl
  calc ((stableSort _ (placed.map fun a => (distance a, a.1))).map Prod.snd).map o.raise
      = ((stableSort farther placed).map fun a => a.1).map o.raise := congrArg _ (hsort id)
    _ = (stableSort farther placed).map fun a => o.raise a.1 := List.map_map
    _ = (stableSort _ (placed.map fun a => (distance a, o.raise a.1))).map Prod.snd :=
      (hsort o.raise).symm
    _ = _ := by
      rw [List.map_map]
      rfl

theorem mirrors_deleteAll
    (h : ∀ id flags, Mirrors o (again id flags) (again' (o.raise id) flags))
    (points : List PointId) (flags : LevelFlags) :
    Mirrors o (deleteAll again points flags) (deleteAll again' (points.map o.raise) flags) := by
  apply mirrors_foldlM
  intro flags id
  apply Mirrors.bind (mirrors_takeOut h id flags)
  intro ⟨found, flags⟩
  apply Mirrors.ite
  · intro _
    exact Mirrors.pure rfl
  · intro _
    exact Mirrors.throw _ _

theorem mirrors_reinsertFarthest
    (h : ∀ id flags, Mirrors o (again id flags) (again' (o.raise id) flags)) (leaf : NodeId)
    (count : Nat) (flags : LevelFlags) :
    Mirrors o (reinsertFarthest again leaf count flags)
      (reinsertFarthest again' leaf count flags) := by
  apply Mirrors.bind_by (mirrors_farthestFirst leaf)
  intro ranked
  dsimp only
  rw [← List.map_take, ← List.map_reverse, List.length_map]
  apply Mirrors.bind (mirrors_deleteAll h (ranked.take count) flags)
  intro flags
  apply Mirrors.bind (mirrors_all h (ranked.take count).reverse flags)
  intro flags
  refine Mirrors.bind (Mirrors.modifyStats
    { forcedReinsertions := 1, reinsertedPoints := (ranked.take count).length,
      maxOverlapRatio := Scalar.zero } (fun _ => rfl) fun _ => rfl) ?_
  intro _
  exact Mirrors.pure rfl

theorem mirrors_descendFrom (rule : DescentRule) (p : List α) (limit : Nat) (id : NodeId) :
    Mirrors o (descendFrom rule p limit id) (descendFrom rule p limit id) := by
  induction limit generalizing id with
  | zero => exact Mirrors.throw _ _
  | succ limit ih =>
    refine Mirrors.bind (Mirrors.modifyNode id fun _ _ h => ⟨_, h, rfl⟩) ?_
    intro _
    apply Mirrors.getNode_bind
    intro n history _
    apply Mirrors.ite
    · intro _
      exact Mirrors.pure rfl
    intro _
    apply Mirrors.ite
    · intro _
      exact Mirrors.throw _ _
    intro _
    refine Mirrors.bind (Mirrors.query_eq fun _ _ hecho => hecho.childFor rule rfl p) ?_
    intro place
    dsimp only
    cases n.children[place]? with
    | none => exact Mirrors.throw _ _
    | some child => exact ih child

/-- What becomes of a leaf that is too full, given the decision and the flags left. -/
def relieveLeaf (s : Strategy α) (again : Reinsertion α) (leaf : NodeId)
    (answer : LeafDecision α × LevelFlags) : TreeM α LevelFlags :=
  match answer.1 with
  | .reinsert count => reinsertFarthest again leaf count answer.2
  | .partition p => do
    modifyStats fun s => { s with leafSplits := s.leafSplits + 1 }
    let parent ← splitNode s.keepsHistory leaf p
    resolveDirectory s parent
    return answer.2

theorem mirrors_relieveLeaf (hs : Strategy.Echo o s s')
    (h : ∀ id flags, Mirrors o (again id flags) (again' (o.raise id) flags)) (leaf : NodeId)
    (answer : LeafDecision α × LevelFlags) :
    Mirrors o (relieveLeaf s again leaf answer) (relieveLeaf s' again' leaf answer) := by
  obtain ⟨decision, flags⟩ := answer
  cases decision with
  | reinsert count => exact mirrors_reinsertFarthest h leaf count flags
  | partition p =>
    refine Mirrors.bind (Mirrors.modifyStats
      { leafSplits := 1, maxOverlapRatio := Scalar.zero } (fun _ => rfl) fun _ => rfl) ?_
    intro _
    apply Mirrors.bind (mirrors_splitNode hs.keepsHistory leaf p p.overlapRatio)
    intro parent
    apply Mirrors.bind (mirrors_resolveDirectory hs parent)
    intro _
    exact Mirrors.pure rfl

theorem mirrors_resolveLeaf (hs : Strategy.Echo o s s')
    (h : ∀ id flags, Mirrors o (again id flags) (again' (o.raise id) flags)) (leaf : NodeId)
    (flags : LevelFlags) :
    Mirrors o (resolveLeaf s again leaf flags) (resolveLeaf s' again' leaf flags) := by
  have htreat : ∀ leaf, Mirrors o
      (query (s.onLeaf · leaf flags) >>= relieveLeaf s again leaf)
      (query (s'.onLeaf · leaf flags) >>= relieveLeaf s' again' leaf) := by
    intro leaf
    refine Mirrors.bind (Mirrors.query ?_) (mirrors_relieveLeaf hs h leaf)
    exact fun t u answer hecho hask => hs.onLeaf t u leaf flags answer hecho hask
  apply Mirrors.get_bind
  intro t u hecho
  simp only [hecho.root]
  apply Mirrors.ite
  · intro _
    exact Mirrors.bind mirrors_pushDownRoot htreat
  · intro _
    exact Mirrors.bind (Mirrors.pure rfl) htreat

theorem mirrors_placePoint (hs : Strategy.Echo o s s')
    (h : ∀ id flags, Mirrors o (again id flags) (again' (o.raise id) flags)) (id : PointId)
    (flags : LevelFlags) :
    Mirrors o (placePoint s again id flags) (placePoint s' again' (o.raise id) flags) := by
  apply Mirrors.bind (Mirrors.getCoords id)
  intro p
  apply Mirrors.get_bind
  intro t u hecho
  apply Mirrors.get_bind
  intro t' u' hecho'
  simp only [hecho.walkLimit, hecho'.root, hs.descent]
  apply Mirrors.bind (mirrors_descendFrom s.descent p t.walkLimit t'.root)
  intro leaf
  apply Mirrors.bind
  · apply Mirrors.modifyNode
    intro n history hhistory
    exact ⟨history, hhistory, by simp [Node.addPoint]⟩
  intro _
  apply Mirrors.get_bind
  intro t'' u'' hecho''
  simp only [hecho''.maxLeafSize]
  apply Mirrors.getNode_bind
  intro n history _
  simp only [List.length_map]
  apply Mirrors.ite
  · intro _
    exact mirrors_resolveLeaf hs h leaf flags
  · intro _
    exact Mirrors.pure rfl

theorem mirrors_insertWithin (hs : Strategy.Echo o s s') (rounds : Nat) (id : PointId)
    (flags : LevelFlags) :
    Mirrors o (insertWithin s rounds id flags) (insertWithin s' rounds (o.raise id) flags) := by
  induction rounds generalizing id flags with
  | zero => exact Mirrors.throw _ _
  | succ rounds ih => exact mirrors_placePoint hs ih id flags

theorem mirrors_insertStored (hs : Strategy.Echo o s s') (id : PointId) (flags : LevelFlags) :
    Mirrors o (insertStored s id flags) (insertStored s' (o.raise id) flags) := by
  apply Mirrors.get_bind
  intro t u hecho
  simp only [hecho.walkLimit]
  exact mirrors_insertWithin hs (t.walkLimit + 1) id flags

theorem mirrors_deleteStored (hs : Strategy.Echo o s s') (id : PointId) (flags : LevelFlags) :
    Mirrors o (deleteStored s id flags) (deleteStored s' (o.raise id) flags) := by
  apply Mirrors.get_bind
  intro t u hecho
  simp only [hecho.walkLimit]
  exact mirrors_takeOut (mirrors_insertWithin hs (t.walkLimit + 1)) id flags

theorem mirrors_collapseRoot (limit : Nat) :
    Mirrors o (collapseRoot limit : TreeM α Unit) (collapseRoot limit) := by
  induction limit with
  | zero => exact Mirrors.throw _ _
  | succ limit ih =>
    apply Mirrors.get_bind
    intro t u hecho
    simp only [hecho.root]
    apply Mirrors.getNode_bind
    intro n history _
    dsimp only
    cases n.leaf with
    | true => exact Mirrors.pure rfl
    | false =>
      cases n.children with
      | nil => exact Mirrors.pure rfl
      | cons only rest =>
        cases rest with
        | cons _ _ => exact Mirrors.pure rfl
        | nil =>
          apply Mirrors.getNode_bind
          intro child history hhistory
          apply Mirrors.bind (mirrors_retire only)
          intro _
          apply Mirrors.bind (mirrors_adopt t.root child.children)
          intro _
          refine Mirrors.bind (Mirrors.modifyNode t.root fun _ _ _ => ⟨_, hhistory, rfl⟩) ?_
          intro _
          exact ih

theorem mirrors_insertBy (hs : Strategy.Echo o s s') (p : List α) :
    MirrorsBy o o.raise (insertBy s p) (insertBy s' p) := by
  apply Mirrors.bind (Mirrors.query_eq fun _ _ hecho => hecho.acceptPoint p)
  intro _
  apply Mirrors.bind_by (mirrors_storePoint p false)
  intro id
  apply Mirrors.bind (mirrors_insertStored hs id .fresh)
  intro _
  apply Mirrors.bind
  · apply Mirrors.modify
    · intro t u hecho
      exact { hecho.setLive id true with size := congrArg (· + 1) hecho.size }
    · exact fun _ ht => ht
  intro _
  exact Mirrors.pure rfl

theorem mirrors_removeBy (hs : Strategy.Echo o s s') (id : PointId) :
    Mirrors o (removeBy s id) (removeBy s' (o.raise id)) := by
  apply Mirrors.get_bind
  intro t u hecho
  simp only [hecho.contains]
  apply Mirrors.ite
  case hn => exact fun _ => Mirrors.pure rfl
  intro _
  apply Mirrors.bind (mirrors_deleteStored hs id .fresh)
  intro ⟨found, flags⟩
  apply Mirrors.ite
  case hn => exact fun _ => Mirrors.throw _ _
  intro _
  apply Mirrors.bind
  · apply Mirrors.modify
    · intro t u hecho
      exact { hecho.setLive id false with size := congrArg (· - 1) hecho.size }
    · exact fun _ ht => ht
  intro _
  apply Mirrors.get_bind
  intro t' u' hecho'
  simp only [hecho'.walkLimit]
  apply Mirrors.bind (mirrors_collapseRoot t'.walkLimit)
  intro _
  exact Mirrors.pure rfl

end TreeM

end RTree
