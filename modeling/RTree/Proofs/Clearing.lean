import RTree.Proofs.Lockstep
import RTree.Proofs.Scalar.Binary64
import RTree.Proofs.Tree.Audit
import RTree.Proofs.Tree.Replies
import RTree.Proofs.Tree.Within

namespace RTree

variable {α : Type} [Scalar α]

namespace Tree

/-- The second tree is the first one with `k` numbers given and `past` counted before. -/
structure Renewed (k : Nat) (past : Counters α) (t u : Tree α) : Prop where
  config : u.config = t.config
  store : u.store.toList.drop k = t.store.toList
  arena : u.arena = t.arena.map (Node.raise k)
  free : u.free = t.free
  root : u.root = t.root
  size : u.size = t.size
  height : u.height = t.height
  stats : u.stats.plain = (t.stats.plus past).plain

/-- Whatever is asked, the second tree answers as the first does, with the numbers of points
raised. -/
structure RepliesAs (k : Nat) (t u : Tree α) : Prop where
  contains : ∀ id : PointId, u.contains (id.raise k) = t.contains id
  point : ∀ id : PointId, u.point? (id.raise k) = t.point? id
  path : ∀ id : PointId, u.path? (id.raise k) = t.path? id
  leaf : ∀ id : PointId, u.leaf? (id.raise k) = t.leaf? id
  within : ∀ q, u.within q = (t.within q).map (List.map (PointId.raise k))
  livePoints : u.livePoints = t.livePoints.map (PointId.raise k)
  isEmpty : u.isEmpty = t.isEmpty
  node : ∀ id, u.node id = (t.node id).map (Node.raise k)
  nodes : u.nodes = t.nodes
  level : ∀ id, u.level id = t.level id
  audit : u.audit = t.audit

/-- The number names no point, and removing it does nothing. -/
structure Dead (t : Tree α) (id : PointId) : Prop where
  contains : t.contains id = false
  point : t.point? id = none
  path : t.path? id = .ok none
  leaf : t.leaf? id = .ok none
  remove : t.call (.remove id) = (.removed false, t)

namespace Echo

variable {o : Offset α} {t u : Tree α}

theorem renewed (h : Echo o t u) (ho : o.alike) (hconfig : u.config = t.config) :
    Renewed o.store.size o.stats t u where
  config := hconfig
  store := by
    rw [h.store, Array.toList_append]
    exact List.drop_left
  arena := by
    apply Array.ext_getElem?
    intro i
    rw [Array.getElem?_map]
    cases hn : t.arena[i]? with
    | none =>
      rw [h.vacant hn]
      rfl
    | some n =>
      obtain ⟨n', hn', history, hhistory, rfl⟩ := h.nodes i n hn
      rw [hn', hhistory ho]
      rfl
  free := h.free
  root := h.root
  size := h.size
  height := by
    unfold height
    rw [h.root, h.level]
  stats := h.stats

theorem dead (h : Echo o t u) {id : PointId} (hid : id.index < o.store.size) : u.Dead id := by
  obtain ⟨p, hp, hdead⟩ := h.stored_of_lt hid
  have hcontains : u.contains id = false := by simp [Tree.contains, hp, hdead]
  have hpoint : u.point? id = none := by simp [Tree.point?, hp, Option.filter, hdead]
  have hpath : u.path? id = .ok none := by
    unfold Tree.path?
    rw [hpoint]
    rfl
  refine ⟨hcontains, hpoint, hpath, ?_, call_remove_absent hcontains⟩
  unfold Tree.leaf?
  rw [hpath]
  rfl

variable [OrderedScalar α]

theorem repliesAs (h : Echo o t u) (ho : o.alike) (hconfig : u.config = t.config)
    (ht : t.Settled) (hu : u.Settled) : RepliesAs o.store.size t u where
  contains := h.contains
  point := h.point
  path := h.path
  leaf := h.leaf
  within := by
    intro q
    by_cases hq : q.dim = t.dim
    · have hfound := ht.consistent.within_ok ht.readable hq
      rw [hfound, h.within hfound]
      rfl
    · unfold Tree.within
      rw [h.dim, if_pos hq, if_pos hq]
      rfl
  livePoints := h.livePoints
  isEmpty := by
    unfold Tree.isEmpty
    rw [h.size]
  node := by
    intro id
    unfold Tree.node
    rw [(h.renewed ho hconfig).arena, Array.getElem?_map]
    cases t.arena[id.index]? <;> rfl
  nodes := h.nodes_eq
  level := h.level
  audit := by
    obtain ⟨r, hr, hvalid⟩ := audit_ok ht
    rw [Audit.audit_echo ht.readable hu.readable h ho hconfig hr, hr,
      Findings.raise_of_isValid _ hvalid]

end Echo

/-- What a cleared tree has that a new one has not: its points, all dead, and its counters. -/
def residue (s : Tree α) : Offset α where
  store := s.clear.store
  dead := by
    intro p hp
    obtain ⟨q, -, rfl⟩ := Array.mem_map.mp hp
    rfl
  stats := s.stats
  alike := True

theorem size_store_residue (s : Tree α) : s.residue.store.size = s.store.size := Array.size_map

theorem echo_clear (s : Tree α) : Echo s.residue (ofConfig s.config) s.clear := by
  refine .of_bare rfl rfl rfl Array.append_empty.symm ?_
  simp only [Counters.plus, ofConfig, Nat.zero_add]
  rfl

variable [OrderedScalar α]

/-- After `clear`, calls that name no number given before are answered as by a new tree, with the
numbers raised by how many were given. After each call the two trees are the same and reply the
same, up to that and to the counts from before, and the numbers given before stay dead. -/
theorem cleared_as_new {c : Config α} {t : Tree α} (h : Tree.new c = .ok t)
    (past cs : List (Call α)) :
    let s := (t.calls past).2
    let k := s.store.size
    let t' := t.calls cs
    let s' := s.clear.calls (cs.map (.raise k))
    s'.1 = t'.1.map (.raise k) ∧ Renewed k s.stats t'.2 s'.2 ∧ RepliesAs k t'.2 s'.2 ∧
      ∀ id : PointId, id.index < k → s'.2.Dead id := by
  intro s k t' s'
  have ht := settled_new h
  have hs : s.clear.Settled := (ht.calls past).clear
  have hconfig : s.config = t.config := config_calls ht past
  have hstrategy : Strategy.Echo s.residue t.strategy s.clear.strategy := by
    change Strategy.Echo s.residue t.config.variant.strategy s.config.variant.strategy
    rw [hconfig]
    exact t.config.variant.strategy_echo trivial
  have hnew : Echo s.residue t s.clear := by
    obtain ⟨-, rfl⟩ := new_eq_ok.mp h
    have hecho := s.echo_clear
    rwa [hconfig] at hecho
  obtain ⟨hanswers, hecho⟩ := calls_echo hstrategy ht hs hnew cs (.inl trivial)
  rw [size_store_residue] at hanswers hecho
  have hsame : s'.2.config = t'.2.config :=
    (config_calls hs _).trans (hconfig.trans (config_calls ht cs).symm)
  have hrenewed := hecho.renewed trivial hsame
  have hreplies := hecho.repliesAs trivial hsame (ht.calls cs) (hs.calls _)
  rw [size_store_residue] at hrenewed hreplies
  exact ⟨hanswers, hrenewed, hreplies, fun id hid => hecho.dead (s.size_store_residue.symm ▸ hid)⟩

/-- Three points in a row before, of which one was removed, and three after them, in leaves for two:
the leaf splits again as it did in the new tree, and is counted on top of the splits before. -/
theorem cleared_as_new_row :
    ∃ t, Tree.new { (default : Config Float) with
        dimension := 1, minLeafSize := 1, maxLeafSize := 2, minChildren := 1, maxChildren := 2
        variant := .xTree } = .ok t ∧
      let s := (t.calls [.insert [0], .insert [10], .insert [20], .remove ⟨1⟩]).2
      let cs : List (Call Float) := [.insert [5], .insert [15], .insert [25], .remove ⟨0⟩]
      let u := s.clear.calls (cs.map (.raise s.store.size))
      s.store.size = 3 ∧ 0 < s.stats.leafSplits ∧ 0 < (t.calls cs).2.stats.leafSplits ∧
        u.1 = (t.calls cs).1.map (.raise s.store.size) ∧
        Renewed s.store.size s.stats (t.calls cs).2 u.2 ∧ u.2.Dead ⟨1⟩ := by
  refine ⟨_, rfl, by decide +kernel, by decide +kernel, by decide +kernel, ?_⟩
  obtain ⟨hanswers, hrenewed, -, hdead⟩ := cleared_as_new
    (c := { (default : Config Float) with
      dimension := 1, minLeafSize := 1, maxLeafSize := 2, minChildren := 1, maxChildren := 2
      variant := .xTree })
    rfl [.insert [0], .insert [10], .insert [20], .remove ⟨1⟩]
    [.insert [5], .insert [15], .insert [25], .remove ⟨0⟩]
  exact ⟨hanswers, hrenewed, hdead ⟨1⟩ (by decide +kernel)⟩

end Tree

end RTree
