import RTree.Proofs.Tree.Moves
import RTree.Proofs.Tree.Shape

namespace RTree

variable {α : Type} [Scalar α]

namespace Partition

omit [Scalar α] in
def passOn (keepsHistory : Bool) (p : Partition α) (h : SplitHistory) : SplitHistory :=
  match keepsHistory, p.axis with
  | true, some axis => h.extend axis
  | _, _ => h

def record (p : Partition α) (s : Counters α) : Counters α :=
  let s :=
    match p.kind with
    | .degenerate => { s with degenerateSplits := s.degenerateSplits + 1 }
    | .minOverlap => { s with minOverlapSplits := s.minOverlapSplits + 1 }
    | .quadratic | .margin => s
  match p.overlapRatio with
  | some ratio => { s with maxOverlapRatio := Scalar.max s.maxOverlapRatio ratio }
  | none => s

/-- What is counted of a partition, field by field. An overlap ratio that comes with it may raise
the maximum. -/
theorem record_eq (p : Partition α) (s : Counters α) :
    p.record s =
      { s with
        degenerateSplits := s.degenerateSplits + if p.kind = .degenerate then 1 else 0
        minOverlapSplits := s.minOverlapSplits + if p.kind = .minOverlap then 1 else 0
        maxOverlapRatio :=
          (p.overlapRatio.map (Scalar.max s.maxOverlapRatio)).getD s.maxOverlapRatio } := by
  unfold record
  cases p.kind <;> cases p.overlapRatio <;> rfl

end Partition

namespace Tree

/-- A new node has become one half of `old`. -/
structure Portioned (t t' : Tree α) (old : Node α) (target parent : NodeId) (group : List Nat)
    (history : SplitHistory) : Prop where
  nodes : NodesOnly t t'
  slot_target : t'.slot target = t.portion old group parent history
  moved : ∀ c ∈ pick old.children group, t'.slot c = (t.slot c).withParent target
  other : ∀ x, x ≠ target → x ∉ pick old.children group → t'.slot x = t.slot x
  copies : ∀ p, t'.copies p = t.copies p + (pick old.points group).count p

/-- Two slots not in use have been given the same new node. -/
structure AllocatedPair (t t' : Tree α) (first second : NodeId) (fresh : Node α) : Prop where
  frame : SameFrame t t'
  stats : t'.stats = t.stats
  tidy : t'.Tidy
  idle_first : ¬ t.InUse first
  idle_second : ¬ t.InUse second
  first_ne_second : first ≠ second
  slot_first : t'.slot first = fresh
  slot_second : t'.slot second = fresh
  other : ∀ x, x ≠ first → x ≠ second → t'.slot x = t.slot x
  free : t'.free = t.free.tail.tail
  first_lt : first.index < t'.arena.size
  second_lt : second.index < t'.arena.size
  le_size : t.arena.size ≤ t'.arena.size
  copies : ∀ p, t'.copies p = t.copies p

/-- The node `id` has been emptied, and two new nodes of its kind have been made below `parent`. -/
structure Emptied (t t' : Tree α) (id parent first second : NodeId) : Prop where
  pair : AllocatedPair (t.updateNode id fun n => { n with points := [], children := [] }) t'
    first second (Node.new (t.slot id).leaf t.dim (some parent) (t.slot id).capacity)
  inUse : t.InUse id

/-- Two new nodes have become the halves of `old`. -/
structure FilledPair (t t' : Tree α) (old : Node α) (first second parent : NodeId)
    (p : Partition α) (history : SplitHistory) : Prop where
  nodes : NodesOnly t t'
  slot_first : t'.slot first = t.portion old p.first parent history
  slot_second : t'.slot second = t.portion old p.second parent history
  moved_first : ∀ c ∈ pick old.children p.first, t'.slot c = (t.slot c).withParent first
  moved_second : ∀ c ∈ pick old.children p.second, t'.slot c = (t.slot c).withParent second
  other : ∀ x, x ≠ first → x ≠ second → x ∉ old.children → t'.slot x = t.slot x
  retired : ∀ x, (t'.slot x).retired = (t.slot x).retired
  copies : ∀ q, t'.copies q = t.copies q + old.points.count q

/-- Two new nodes have the groups of the entries of `id`, but are not listed yet. -/
structure Halved (t t' : Tree α) (id parent first second : NodeId) (p : Partition α)
    (history : SplitHistory) : Prop where
  frame : SameFrame t t'
  stats : t'.stats = t.stats
  tidy : t'.Tidy
  free : t'.free = t.free.tail.tail
  le_size : t.arena.size ≤ t'.arena.size
  idle_first : ¬ t.InUse first
  idle_second : ¬ t.InUse second
  first_ne_second : first ≠ second
  slot_first : t'.slot first = t.portion (t.slot id) p.first parent history
  slot_second : t'.slot second = t.portion (t.slot id) p.second parent history
  slot_id : t'.slot id = { t.slot id with points := [], children := [] }
  moved_first : ∀ c ∈ pick (t.slot id).children p.first, t'.slot c = (t.slot c).withParent first
  moved_second : ∀ c ∈ pick (t.slot id).children p.second, t'.slot c = (t.slot c).withParent second
  other : ∀ x, x ≠ first → x ≠ second → x ≠ id → x ∉ (t.slot id).children → t'.slot x = t.slot x
  copies : ∀ q, t'.copies q = t.copies q

/-- The node `id` has been replaced by two new ones with the groups of the partition. -/
structure Split (t t' : Tree α) (keepsHistory : Bool) (id parent first second : NodeId)
    (p : Partition α) : Prop where
  frame : SameFrame t t'
  stats : t'.stats = p.record t.stats
  tidy : t'.Tidy
  free : t'.free = id :: t.free.tail.tail
  le_size : t.arena.size ≤ t'.arena.size
  idle_first : ¬ t.InUse first
  idle_second : ¬ t.InUse second
  first_ne_second : first ≠ second
  slot_first : t'.slot first = t.portion (t.slot id) p.first parent
    (p.passOn keepsHistory (t.slot id).history)
  slot_second : t'.slot second = t.portion (t.slot id) p.second parent
    (p.passOn keepsHistory (t.slot id).history)
  slot_id : t'.slot id = (t.slot id).retire
  slot_parent : ∃ place, (t.slot parent).children.idxOf? id = some place ∧
    t'.slot parent =
      { t.slot parent with children := (t.slot parent).children.set place first ++ [second] }
  moved_first : ∀ c ∈ pick (t.slot id).children p.first, t'.slot c = (t.slot c).withParent first
  moved_second : ∀ c ∈ pick (t.slot id).children p.second, t'.slot c = (t.slot c).withParent second
  other : ∀ x, x ≠ first → x ≠ second → x ≠ id → x ≠ parent → x ∉ (t.slot id).children →
    t'.slot x = t.slot x
  copies : ∀ p, t'.copies p = t.copies p

theorem Portioned.retired {t t' : Tree α} {old : Node α} {target parent : NodeId}
    {group : List Nat} {history : SplitHistory} (h : Portioned t t' old target parent group history)
    (ht : (t.slot target).retired = false) (x : NodeId) :
    (t'.slot x).retired = (t.slot x).retired := by
  by_cases hx : x = target
  · rw [hx, h.slot_target, ht]
    rfl
  · by_cases hm : x ∈ pick old.children group
    · rw [h.moved x hm]
      rfl
    · rw [h.other x hx hm]

namespace Emptied

variable {t t' u : Tree α} {lev : NodeId → Nat} {id parent first second x : NodeId}
  {p : Partition α} {history : SplitHistory}

theorem dim (h : Emptied t t' id parent first second) : t'.dim = t.dim := h.pair.frame.dim

theorem le_size (h : Emptied t t' id parent first second) : t.arena.size ≤ t'.arena.size :=
  (t.size_arena_updateNode id _).symm.le.trans h.pair.le_size

theorem inUse_iff (h : Emptied t t' id parent first second) :
    (t.updateNode id fun n => { n with points := [], children := [] }).InUse x ↔ t.InUse x := by
  apply inUse_updateNode h.inUse
  exact h.inUse

theorem ne_first (h : Emptied t t' id parent first second) (hx : t.InUse x) : x ≠ first :=
  fun he => h.pair.idle_first (h.inUse_iff.mpr (he ▸ hx))

theorem ne_second (h : Emptied t t' id parent first second) (hx : t.InUse x) : x ≠ second :=
  fun he => h.pair.idle_second (h.inUse_iff.mpr (he ▸ hx))

theorem slot_id (h : Emptied t t' id parent first second) :
    t'.slot id = { t.slot id with points := [], children := [] } := by
  rw [h.pair.other id (h.ne_first h.inUse) (h.ne_second h.inUse), slot_updateNode h.inUse.lt,
    Function.update_self]

theorem other (h : Emptied t t' id parent first second) (hf : x ≠ first) (hs : x ≠ second)
    (hi : x ≠ id) : t'.slot x = t.slot x := by
  rw [h.pair.other x hf hs, slot_updateNode h.inUse.lt, Function.update_of_ne hi]

theorem slot_child (h : Emptied t t' id parent first second) (hl : t.Linked lev [])
    (hx : x ∈ (t.slot id).children) : t'.slot x = t.slot x := by
  have hu := (hl.child id x hx).1
  exact h.other (h.ne_first hu) (h.ne_second hu) (hl.child_ne hx)

theorem rectsOf (h : Emptied t t' id parent first second) (hl : t.Linked lev []) :
    t'.rectsOf (t.slot id) = t.rectsOf (t.slot id) :=
  rectsOf_congr h.pair.frame.store fun c hc => by rw [h.slot_child hl hc]

theorem legible (h : Emptied t t' id parent first second) (hl : t.Legible (t.slot id)) :
    t'.Legible (t.slot id) where
  points q hq := h.pair.frame.store ▸ hl.points q hq
  children c hc := lt_of_lt_of_le (hl.children c hc) h.le_size

/-- Nodes out of use are left alone when the two new ones are filled: they are neither of these, nor
are they children. -/
theorem tidy (h : Emptied t t' id parent first second) (hl : t.Linked lev [])
    (hfill : FilledPair t' u (t.slot id) first second parent p history) : u.Tidy := by
  refine h.pair.tidy.of_nodesOnly hfill.nodes hfill.retired fun x hx => ?_
  have hne : ∀ y, (t'.slot y).retired = false → x ≠ y := by
    rintro y hy rfl
    rw [hx] at hy
    cases hy
  have hfirst : (t'.slot first).retired = false := by
    rw [h.pair.slot_first]
    rfl
  have hsecond : (t'.slot second).retired = false := by
    rw [h.pair.slot_second]
    rfl
  refine hfill.other x (hne first hfirst) (hne second hsecond) fun hc => hne x ?_ rfl
  rw [h.slot_child hl hc]
  exact (hl.child id x hc).1

theorem halved (h : Emptied t t' id parent first second) (hl : t.Linked lev [])
    (hfill : FilledPair t' u (t.slot id) first second parent p history) :
    Halved t u id parent first second p history where
  frame := ((nodesOnly_updateNode t id _).frame.trans h.pair.frame).trans hfill.nodes.frame
  stats := hfill.nodes.stats.trans h.pair.stats
  tidy := h.tidy hl hfill
  free := hfill.nodes.free.trans h.pair.free
  le_size := hfill.nodes.size_arena ▸ h.le_size
  idle_first hu := h.ne_first hu rfl
  idle_second hu := h.ne_second hu rfl
  first_ne_second := h.pair.first_ne_second
  slot_first := by
    rw [hfill.slot_first]
    simp only [portion, h.rectsOf hl, h.dim]
  slot_second := by
    rw [hfill.slot_second]
    simp only [portion, h.rectsOf hl, h.dim]
  slot_id := by
    rw [hfill.other id (h.ne_first h.inUse) (h.ne_second h.inUse) (hl.self_unlisted id), h.slot_id]
  moved_first c hc := by rw [hfill.moved_first c hc, h.slot_child hl (mem_of_mem_pick hc)]
  moved_second c hc := by rw [hfill.moved_second c hc, h.slot_child hl (mem_of_mem_pick hc)]
  other x hf hs hi hc := by rw [hfill.other x hf hs hc, h.other hf hs hi]
  copies q := by
    rw [hfill.copies q, h.pair.copies q]
    exact copies_updateNode h.inUse.lt _ q

end Emptied

section Relisting

variable {t t' : Tree α} {lev : NodeId → Nat} {keepsHistory : Bool} {p : Partition α}
  {id parent first second : NodeId} {history : SplitHistory} {place : Nat}

theorem Halved.slot_parent (h : Halved t t' id parent first second p history)
    (hl : t.Linked lev []) (hm : id ∈ (t.slot parent).children) :
    t'.slot parent = t.slot parent := by
  have hparent := hl.inUse_of_mem_children hm
  exact h.other parent (fun he => h.idle_first (he ▸ hparent))
    (fun he => h.idle_second (he ▸ hparent)) (hl.child_ne hm).symm (hl.owner_unlisted hm)

/-- The two new nodes are listed in the place of the old one, which goes out of use. -/
theorem Halved.relisted
    (h : Halved t t' id parent first second p (p.passOn keepsHistory (t.slot id).history))
    (hl : t.Linked lev []) (hm : id ∈ (t.slot parent).children)
    (hplace : (t.slot parent).children.idxOf? id = some place) :
    Split t
      (((t'.updateNode parent fun n =>
        { n with children := n.children.set place first ++ [second] }).retireNode id).updateStats
          p.record)
      keepsHistory id parent first second p := by
  have hid := (hl.child parent id hm).1
  have hparent := hl.inUse_of_mem_children hm
  have hne : id ≠ parent := hl.child_ne hm
  have hfirst : ∀ {x}, t.InUse x → first ≠ x := fun hx he => h.idle_first (he ▸ hx)
  have hsecond : ∀ {x}, t.InUse x → second ≠ x := fun hx he => h.idle_second (he ▸ hx)
  have hparent' : t'.InUse parent := hparent.congr (h.slot_parent hl hm)
  let t₂ := t'.updateNode parent fun n =>
    { n with children := n.children.set place first ++ [second] }
  have hs₂ : t₂.slot = Function.update t'.slot parent
      { t.slot parent with children := (t.slot parent).children.set place first ++ [second] } := by
    rw [slot_updateNode hparent'.lt, h.slot_parent hl hm]
  have hslot_id : t₂.slot id = { t.slot id with points := [], children := [] } := by
    rw [hs₂, Function.update_of_ne hne, h.slot_id]
  have hid₂ : t₂.InUse id := by
    unfold InUse
    rw [hslot_id]
    exact hid
  have htidy₂ : t₂.Tidy := h.tidy.updateNode hparent' hparent'
  let t₃ := t₂.retireNode id
  have hs₃ : t₃.slot = Function.update t₂.slot id (t₂.slot id).retire := slot_retireNode hid₂
  have hother : ∀ x, x ≠ id → x ≠ parent → t₃.slot x = t'.slot x := fun x hi hp => by
    rw [hs₃, Function.update_of_ne hi, hs₂, Function.update_of_ne hp]
  have hmoved : ∀ c ∈ (t.slot id).children, t₃.slot c = t'.slot c := fun c hc =>
    hother c (hl.child_ne hc) fun he => hl.owner_unlisted hm (he ▸ hc)
  have hsize : t₃.arena.size = t'.arena.size :=
    (t₂.size_arena_updateNode id _).trans (t'.size_arena_updateNode parent _)
  refine
    { frame := (h.frame.trans (nodesOnly_updateNode t' parent _).frame).trans
        ((sameFrame_retireNode t₂ id).trans (sameFrame_updateStats t₃ _))
      stats := congrArg p.record h.stats, tidy := (htidy₂.retireNode hid₂).updateStats _
      free := congrArg (id :: ·) h.free, le_size := h.le_size.trans hsize.symm.le
      idle_first := h.idle_first, idle_second := h.idle_second
      first_ne_second := h.first_ne_second
      slot_first := (hother first (hfirst hid) (hfirst hparent)).trans h.slot_first
      slot_second := (hother second (hsecond hid) (hsecond hparent)).trans h.slot_second
      slot_id := ?_, slot_parent := ⟨place, hplace, ?_⟩
      moved_first := fun c hc => (hmoved c (mem_of_mem_pick hc)).trans (h.moved_first c hc)
      moved_second := fun c hc => (hmoved c (mem_of_mem_pick hc)).trans (h.moved_second c hc)
      other := fun x hf hs hi hp hc => (hother x hi hp).trans (h.other x hf hs hi hc)
      copies := fun q => ?_ }
  · show t₃.slot id = _
    rw [hs₃, Function.update_self, hslot_id]
    rfl
  · show t₃.slot parent = _
    rw [hs₃, Function.update_of_ne hne.symm, hs₂, Function.update_self]
  · have h1 : t₂.copies q = t'.copies q := copies_updateNode_of_eq hparent'.lt rfl q
    have h2 := copies_retireNode hid₂ q
    rw [hslot_id] at h2
    change t₃.copies q = t.copies q
    rw [← h.copies q, ← h1]
    exact h2

end Relisting

end Tree

namespace Partition.Balanced

variable {p : Partition α} {n : Node α} {minimum : Nat}

omit [Scalar α] in
theorem perm_children (h : p.Balanced n.entryCount minimum) (hk : n.OneKind) :
    (pick n.children p.first ++ pick n.children p.second).Perm n.children := by
  cases hl : n.leaf with
  | true => simp [hk.leaf hl]
  | false =>
    have hc : n.entryCount = n.children.length := by simp [Node.entryCount, hl]
    exact (hc ▸ h).pick_perm

omit [Scalar α] in
theorem perm_points (h : p.Balanced n.entryCount minimum) (hk : n.OneKind) :
    (pick n.points p.first ++ pick n.points p.second).Perm n.points := by
  cases hl : n.leaf with
  | true =>
    have hc : n.entryCount = n.points.length := by simp [Node.entryCount, hl]
    exact (hc ▸ h).pick_perm
  | false => simp [hk.directory hl]

end Partition.Balanced

namespace TreeM

open RTree.Tree

variable {t : Tree α} {lev : NodeId → Nat}

theorem recordPartition_ok (p : Partition α) :
    (recordPartition p).run t = .ok () (t.updateStats p.record) := by
  obtain ⟨first, second, kind, axis, overlapRatio⟩ := p
  cases kind <;> cases overlapRatio <;> rfl

theorem fillNode_ok {old : Node α} {target parent : NodeId} {group : List Nat}
    (history : SplitHistory) (hk : old.OneKind) (hl : t.Legible old)
    (ht : target.index < t.arena.size) (hc : target ∉ old.children)
    (hg : ∀ e ∈ group, e < old.entryCount)
    (hs : t.slot target = Node.new old.leaf t.dim (some parent) old.capacity) :
    ∃ t', (fillNode old target group history).run t = .ok () t' ∧
      Portioned t t' old target parent group history := by
  obtain ⟨t₁, hrun, h₁⟩ := moveEntries_ok hk hc hl ht hg
  have ht₁ : target.index < t₁.arena.size := h₁.nodes.size_arena ▸ ht
  have hs₁ := slot_updateNode ht₁ fun n => { n with history }
  refine ⟨t₁.updateNode target fun n => { n with history }, ?_,
    h₁.nodes.trans (nodesOnly_updateNode _ _ _), ?_, fun c hcm => ?_, fun x hx hxm => ?_,
    fun p => ?_⟩
  · unfold fillNode
    rw [bind_ok hrun]
    exact modifyNode_ok ht₁ _
  · rw [hs₁, Function.update_self, h₁.slot_target, hs]
    rfl
  · have hne : c ≠ target := fun he => hc (he ▸ mem_of_mem_pick hcm)
    rw [hs₁, Function.update_of_ne hne, h₁.moved c hcm]
  · rw [hs₁, Function.update_of_ne hx, h₁.other x hx hxm]
  · rw [copies_updateNode_of_eq ht₁ rfl, h₁.copies]

theorem allocatePair_ok (h : t.Tidy) (leaf : Bool) (parent : Option NodeId) (capacity : Nat) :
    ∃ first second t₁ t', (allocate leaf parent capacity).run t = .ok first t₁ ∧
      (allocate leaf parent capacity).run t₁ = .ok second t' ∧
      AllocatedPair t t' first second (Node.new leaf t.dim parent capacity) := by
  obtain ⟨first, t₁, hrun₁, h₁⟩ := allocate_ok h leaf parent capacity
  obtain ⟨second, t', hrun₂, h₂⟩ := allocate_ok h₁.tidy leaf parent capacity
  have hdim := h₁.frame.dim
  have hne : first ≠ second := by
    intro heq
    subst heq
    apply h₂.idle
    unfold InUse
    rw [h₁.slot, Function.update_self]
    rfl
  have hidle : ¬ t.InUse second := fun hu => h₂.idle (by
    apply hu.congr
    rw [h₁.slot, Function.update_of_ne hne.symm])
  refine ⟨first, second, t₁, t', hrun₁, hrun₂, ?_⟩
  exact
    { frame := h₁.frame.trans h₂.frame
      stats := h₂.stats.trans h₁.stats
      tidy := h₂.tidy
      idle_first := h₁.idle
      idle_second := hidle
      first_ne_second := hne
      slot_first := by rw [h₂.slot, Function.update_of_ne hne, h₁.slot, Function.update_self]
      slot_second := by rw [h₂.slot, Function.update_self, hdim]
      other := fun x hf hs => by
        rw [h₂.slot, Function.update_of_ne hs, h₁.slot, Function.update_of_ne hf]
      free := by rw [h₂.free, h₁.free]
      first_lt := lt_of_lt_of_le ((h₁.lt_iff first).mpr (.inr rfl)) h₂.le_size
      second_lt := (h₂.lt_iff second).mpr (.inr rfl)
      le_size := h₁.le_size.trans h₂.le_size
      copies := fun p => (h₂.copies p).trans (h₁.copies p) }

/-- Two new nodes take over the entries of a third. -/
theorem fillPair_ok {old : Node α} {first second parent : NodeId} {p : Partition α} {minimum : Nat}
    (history : SplitHistory) (hk : old.OneKind) (hl : t.Legible old)
    (hb : p.Balanced old.entryCount minimum) (hnd : old.children.Nodup) (hne : first ≠ second)
    (hf : first.index < t.arena.size) (hs : second.index < t.arena.size)
    (hfc : first ∉ old.children) (hsc : second ∉ old.children)
    (hnf : t.slot first = Node.new old.leaf t.dim (some parent) old.capacity)
    (hns : t.slot second = Node.new old.leaf t.dim (some parent) old.capacity) :
    ∃ t₁ t', (fillNode old first p.first history).run t = .ok () t₁ ∧
      (fillNode old second p.second history).run t₁ = .ok () t' ∧
      FilledPair t t' old first second parent p history := by
  obtain ⟨t₁, hrun₁, h₁⟩ := fillNode_ok history hk hl hf hfc hb.lt_of_mem_first hnf
  have hdim := h₁.nodes.frame.dim
  have hl₁ : t₁.Legible old :=
    ⟨h₁.nodes.frame.store ▸ hl.points, h₁.nodes.size_arena ▸ hl.children⟩
  have hns₁ : t₁.slot second = Node.new old.leaf t₁.dim (some parent) old.capacity := by
    rw [h₁.other second hne.symm fun hc => hsc (mem_of_mem_pick hc), hns, hdim]
  obtain ⟨t', hrun₂, h₂⟩ := fillNode_ok history hk hl₁ (h₁.nodes.size_arena ▸ hs) hsc
    hb.lt_of_mem_second hns₁
  have hrects : t₁.rectsOf old = t.rectsOf old := rectsOf_congr h₁.nodes.frame.store fun c hc => by
    by_cases hcm : c ∈ pick old.children p.first
    · rw [h₁.moved c hcm]
      rfl
    · rw [h₁.other c (fun he => hfc (he ▸ hc)) hcm]
  have hperm := hb.perm_children hk
  have hdisj : ∀ c ∈ pick old.children p.first, c ∉ pick old.children p.second := fun c h1 h2 =>
    List.disjoint_of_nodup_append (hperm.nodup_iff.mpr hnd) h1 h2
  refine ⟨t₁, t', hrun₁, hrun₂, ?_⟩
  refine
    { nodes := h₁.nodes.trans h₂.nodes
      slot_first := ?_, slot_second := ?_
      moved_first := fun c hc => ?_, moved_second := fun c hc => ?_
      other := fun x hxf hxs hxc => ?_, retired := fun x => ?_, copies := fun q => ?_ }
  · rw [h₂.other first hne fun hc => hfc (mem_of_mem_pick hc), h₁.slot_target]
  · rw [h₂.slot_target]
    simp only [portion, hrects, hdim]
  · have hcs : c ≠ second := fun he => hsc (he ▸ mem_of_mem_pick hc)
    rw [h₂.other c hcs (hdisj c hc), h₁.moved c hc]
  · have hcf : c ≠ first := fun he => hfc (he ▸ mem_of_mem_pick hc)
    rw [h₂.moved c hc, h₁.other c hcf fun h1 => hdisj c h1 hc]
  · rw [h₂.other x hxs fun hm => hxc (mem_of_mem_pick hm),
      h₁.other x hxf fun hm => hxc (mem_of_mem_pick hm)]
  · rw [h₂.retired (by rw [hns₁]; rfl), h₁.retired (by rw [hnf]; rfl)]
  · have hc := (hb.perm_points hk).count_eq q
    rw [List.count_append] at hc
    rw [h₂.copies, h₁.copies]
    omega

/-- The old node is emptied, and two new ones are filled with its entries. -/
theorem halve_ok {id : NodeId} {p : Partition α} (parent : NodeId) (history : SplitHistory)
    (h : t.Linked lev []) (hl : t.Legible (t.slot id)) (hid : t.InUse id)
    (hb : p.Balanced (t.slot id).entryCount (t.minimumFill (t.slot id))) :
    ∃ first second t', Halved t t' id parent first second p history ∧
      ∀ k : NodeId → NodeId → TreeM α NodeId, (do
        modifyNode id fun n => { n with points := [], children := [] }
        let first ← allocate (t.slot id).leaf (some parent) (t.slot id).capacity
        let second ← allocate (t.slot id).leaf (some parent) (t.slot id).capacity
        fillNode (t.slot id) first p.first history
        fillNode (t.slot id) second p.second history
        k first second).run t = (k first second).run t' := by
  have hchild : ∀ c ∈ (t.slot id).children, t.InUse c := fun c hc => (h.child id c hc).1
  have htidy₁ : (t.updateNode id fun n => { n with points := [], children := [] }).Tidy :=
    h.tidy.updateNode hid hid
  obtain ⟨first, second, t₂, t₃, hrun₂, hrun₃, hpair⟩ :=
    allocatePair_ok htidy₁ (t.slot id).leaf (some parent) (t.slot id).capacity
  have h₃ : Emptied t t₃ id parent first second := ⟨hpair, hid⟩
  obtain ⟨t₄, t₅, hrun₄, hrun₅, h₅⟩ := fillPair_ok history (h.oneKind id hid) (h₃.legible hl) hb
    (h.nodup id) hpair.first_ne_second hpair.first_lt hpair.second_lt
    (fun hc => h₃.ne_first (hchild first hc) rfl) (fun hc => h₃.ne_second (hchild second hc) rfl)
    (h₃.dim ▸ hpair.slot_first) (h₃.dim ▸ hpair.slot_second)
  refine ⟨first, second, t₅, h₃.halved h h₅, fun k => ?_⟩
  rw [bind_ok (modifyNode_ok hid.lt _), bind_ok hrun₂, bind_ok hrun₃]
  exact (bind_ok hrun₄ _).trans (bind_ok hrun₅ _)

/-- The parent lists the two new nodes in the place of the old one, which goes out of use. -/
theorem relist_ok {id parent first second : NodeId} {p : Partition α} {keepsHistory : Bool}
    (h : t.Linked lev []) (hm : id ∈ (t.slot parent).children) {t₁ : Tree α}
    (hh : Halved t t₁ id parent first second p (p.passOn keepsHistory (t.slot id).history)) :
    ∃ t', (do
        let place ← placeAmong id parent
        modifyNode parent fun n => { n with children := n.children.set place first ++ [second] }
        retire id
        recordPartition p
        return parent : TreeM α NodeId).run t₁ = .ok parent t' ∧
      Split t t' keepsHistory id parent first second p := by
  have hslot_parent : t₁.slot parent = t.slot parent := hh.slot_parent h hm
  have hparent₁ : t₁.InUse parent := (h.inUse_of_mem_children hm).congr hslot_parent
  obtain ⟨place, hplace, hrun⟩ := placeAmong_ok hparent₁.lt (hslot_parent ▸ hm)
  refine ⟨_, ?_, hh.relisted h hm (hslot_parent ▸ hplace)⟩
  have hid₁ : t₁.InUse id := by
    unfold InUse
    rw [hh.slot_id]
    exact (h.child parent id hm).1
  have hid₂ : id.index < (t₁.updateNode parent fun n =>
      { n with children := n.children.set place first ++ [second] }).arena.size :=
    (t₁.size_arena_updateNode parent _).symm ▸ hid₁.lt
  rw [bind_ok hrun, bind_ok (modifyNode_ok hparent₁.lt _), bind_ok (retire_ok hid₂),
    bind_ok (recordPartition_ok p)]
  rfl

/-- A balanced partition can be applied to any node that its parent lists. -/
theorem splitNode_ok {id parent : NodeId} {p : Partition α} (keepsHistory : Bool)
    (h : t.Linked lev []) (hl : t.Legible (t.slot id)) (hm : id ∈ (t.slot parent).children)
    (hmin : 0 < t.minimumFill (t.slot id))
    (hb : p.Balanced (t.slot id).entryCount (t.minimumFill (t.slot id))) :
    ∃ first second t', (splitNode keepsHistory id p).run t = .ok parent t' ∧
      Split t t' keepsHistory id parent first second p := by
  obtain ⟨hid, hpar, -⟩ := h.child parent id hm
  obtain ⟨first, second, t₁, hh, hrun⟩ := halve_ok parent
    (p.passOn keepsHistory (t.slot id).history) h hl hid hb
  obtain ⟨t', hrun', hsplit⟩ := relist_ok h hm hh
  refine ⟨first, second, t', ?_, hsplit⟩
  unfold splitNode
  rw [bind_ok (getNode_ok hid.lt)]
  simp only [hpar, get_bind, hb.isValid hmin, if_true]
  exact (hrun _).trans hrun'

end TreeM

end RTree
