import RTree.Proofs.Tree.Views
import RTree.Proofs.Rectangle.Hull
import Mathlib.Algebra.Group.Nat.Defs
import Mathlib.Data.Finset.Card
import Mathlib.Data.Finset.Image
import Mathlib.Data.Finset.Range
import Mathlib.Logic.Relation

namespace RTree

variable {α : Type}

/-- Limits under which an overfull node can be divided. -/
structure Config.Feasible (c : Config α) : Prop where
  dimension_pos : 0 < c.dimension
  minLeafSize_pos : 0 < c.minLeafSize
  two_le_maxLeafSize : 2 ≤ c.maxLeafSize
  leaf_halves : 2 * c.minLeafSize ≤ c.maxLeafSize + 1
  minChildren_pos : 0 < c.minChildren
  two_le_maxChildren : 2 ≤ c.maxChildren
  child_halves : 2 * c.minChildren ≤ c.maxChildren + 1

theorem Config.Feasible.maxChildren_pos {c : Config α} (h : c.Feasible) : 0 < c.maxChildren := by
  have htwo := h.two_le_maxChildren
  omega

/-- Besides the order between them, the limits only have to fit into 64 bits. -/
theorem Fanout.check_eq_ok_iff {what : Fanout} {min max : Nat} :
    what.check min max = .ok () (ε := ConfigError α) ↔
      0 < min ∧ 2 ≤ max ∧ 2 * min ≤ max + 1 ∧ max + 1 < UInt64.size := by
  unfold Fanout.check
  constructor
  · intro h
    split_ifs at h
    omega
  · rintro ⟨hmin, hmax, hhalves, hfits⟩
    rw [if_neg (by omega), if_neg (by omega), if_neg (by omega), if_neg (by omega)]

theorem Config.feasible_of_validate [Scalar α] {c : Config α} (h : c.validate = .ok ()) :
    c.Feasible := by
  unfold validate at h
  by_cases hd : c.dimension = 0
  · simp [hd, bind, Except.bind, throw, throwThe, MonadExceptOf.throw] at h
  · cases hl : Fanout.leafSize.check (α := α) c.minLeafSize c.maxLeafSize with
    | error e => simp [hd, hl, bind, Except.bind] at h
    | ok u =>
      cases hc : Fanout.childCount.check (α := α) c.minChildren c.maxChildren with
      | error e => simp [hd, hl, hc, bind, Except.bind] at h
      | ok u =>
        obtain ⟨hleaf_pos, hleaf_two, hleaf_halves, -⟩ := Fanout.check_eq_ok_iff.mp hl
        obtain ⟨hchild_pos, hchild_two, hchild_halves, -⟩ := Fanout.check_eq_ok_iff.mp hc
        exact ⟨by omega, hleaf_pos, hleaf_two, hleaf_halves, hchild_pos, hchild_two, hchild_halves⟩

theorem Config.portions_of_validate [Scalar α] {c : Config α} (h : c.validate = .ok ()) :
    Scalar.zero < c.reinsertFraction ∧ c.reinsertFraction < Scalar.one ∧
      Scalar.zero < c.maxOverlapRatio ∧ c.maxOverlapRatio ≤ Scalar.one := by
  unfold validate at h
  dsimp only at h
  by_cases hdim : c.dimension = 0
  · rw [if_pos hdim] at h
    cases h
  · rw [if_neg hdim] at h
    obtain ⟨-, -, h⟩ := bind_eq_ok.mp h
    obtain ⟨-, -, h⟩ := bind_eq_ok.mp h
    split at h
    · next hfraction =>
      split at h
      · next hratio =>
        simp only [Bool.and_eq_true, decide_eq_true_eq] at hfraction hratio
        exact ⟨hfraction.1, hfraction.2, hratio.1, hratio.2⟩
      · cases h
    · cases h

namespace Tree

/-- How the nodes hang together: levels rise by one from child to parent, leaves are at level 0, and
every node in use but the root and those adrift is listed by its parent. The levels are not stored,
so they are given as a function. -/
structure Linked (t : Tree α) (lev : NodeId → Nat) (adrift : List NodeId) : Prop where
  tidy : t.Tidy
  root : t.InUse t.root
  root_parent : (t.slot t.root).parent = none
  oneKind : ∀ x, t.InUse x → (t.slot x).OneKind
  leaf_iff : ∀ x, t.InUse x → ((t.slot x).leaf = true ↔ lev x = 0)
  nodup : ∀ x, (t.slot x).children.Nodup
  child : ∀ x, ∀ c ∈ (t.slot x).children,
    t.InUse c ∧ (t.slot c).parent = some x ∧ lev c + 1 = lev x
  owner : ∀ x, t.InUse x → x ≠ t.root → x ∉ adrift → ∃ y, x ∈ (t.slot y).children
  le_root : ∀ x, t.InUse x → lev x ≤ lev t.root
  floating : ∀ x ∈ adrift, t.InUse x ∧ x ≠ t.root ∧ ∀ y, x ∉ (t.slot y).children
  nodup_floating : adrift.Nodup

/-- Listed by a node, which may list others that list others. -/
abbrev Below (t : Tree α) : NodeId → NodeId → Prop :=
  Relation.ReflTransGen fun x c => c ∈ (t.slot x).children

/-- A node, its parent and so on up to the root. -/
inductive Lineage (t : Tree α) : List NodeId → Prop
  | root : Lineage t [t.root]
  | cons {c y : NodeId} {rest : List NodeId} (hc : c ∈ (t.slot y).children)
      (h : Lineage t (y :: rest)) : Lineage t (c :: y :: rest)

def room (t : Tree α) (n : Node α) : Nat :=
  if n.leaf then t.config.maxLeafSize else n.capacity

/-- A node's number of entries is within its limits, but for `extra` too many or `lack` too few. -/
structure FilledAt (t : Tree α) (x : NodeId) (extra lack : Nat) : Prop where
  upper : (t.slot x).entryCount ≤ t.room (t.slot x) + extra
  lower : x ≠ t.root → t.minimumFill (t.slot x) ≤ (t.slot x).entryCount + lack
  root : x = t.root → (t.slot x).leaf = false → 0 < (t.slot x).entryCount + lack
  capacity : ∃ k ≤ t.stats.supernodeGrowths,
    (t.slot x).capacity = t.config.maxChildren * 2 ^ k ∧
      ((t.slot x).leaf = true ∨ t.config.variant ≠ .xTree → k = 0)

def excess (exception : Option NodeId) (x : NodeId) : Nat := if exception = some x then 1 else 0

@[simp] theorem excess_none (x : NodeId) : excess none x = 0 := rfl

@[simp] theorem excess_self (x : NodeId) : excess (some x) x = 1 := by simp [excess]

theorem excess_of_ne {x y : NodeId} (h : x ≠ y) : excess (some y) x = 0 := by
  simp [excess, Ne.symm h]

/-- All nodes are within their limits; `extra` may have one entry too many, `lack` one too few. -/
def Filled (t : Tree α) (extra lack : Option NodeId) : Prop :=
  ∀ x, t.InUse x → t.FilledAt x (excess extra x) (excess lack x)

/-- Points listed are stored, no point is listed twice, and all coordinates are finite. -/
structure Registered [Scalar α] (t : Tree α) : Prop where
  stored : ∀ p, 0 < t.copies p → p.index < t.store.size
  copies_le : ∀ p, t.copies p ≤ 1
  finite : ∀ p : PointId, p.index < t.store.size → Rectangle.FinitePoint t.dim (t.coordsAt p)

/-- All bounds are tight but those of the loose nodes. -/
structure Fitted [Scalar α] (t : Tree α) (loose : List NodeId) : Prop where
  proper : ∀ x, t.InUse x → Rectangle.Proper t.dim (t.slot x).bound
  hull : ∀ x, t.InUse x → x ∉ loose →
    Rectangle.IsHull t.dim (t.rectsOf (t.slot x)) (t.slot x).bound

/-- A tree in the middle of a call: one node may be overfull and one underfull, and some bounds may
be loose. -/
structure Shaped [Scalar α] (t : Tree α) (lev : NodeId → Nat) (extra lack : Option NodeId)
    (loose : List NodeId) : Prop where
  feasible : t.config.Feasible
  linked : t.Linked lev []
  filled : t.Filled extra lack
  fitted : t.Fitted loose
  registered : t.Registered

/-- The node's bound counts as equal to the least one around its entries. -/
def Tight [Scalar α] (t : Tree α) (x : NodeId) : Prop :=
  ∃ r, t.tightBound (t.slot x) = .ok r ∧ (r == (t.slot x).bound) = true

/-- A tree without exceptions. -/
def Sound [Scalar α] (t : Tree α) : Prop := ∃ lev, t.Shaped lev none none []

variable {t t' : Tree α} {lev : NodeId → Nat} {adrift : List NodeId}

namespace Linked

theorem inUse_of_mem_children (h : t.Linked lev adrift) {x c : NodeId}
    (hc : c ∈ (t.slot x).children) : t.InUse x := by
  cases hr : (t.slot x).retired with
  | false => exact hr
  | true =>
    rw [(h.tidy.idle x hr).2] at hc
    cases hc

theorem inUse_of_mem_points (h : t.Linked lev adrift) {x : NodeId} {p : PointId}
    (hp : p ∈ (t.slot x).points) : t.InUse x := by
  cases hr : (t.slot x).retired with
  | false => exact hr
  | true =>
    rw [(h.tidy.idle x hr).1] at hp
    cases hp

theorem child_ne (h : t.Linked lev adrift) {x c : NodeId} (hc : c ∈ (t.slot x).children) :
    c ≠ x := by
  intro heq
  subst heq
  have hlev := (h.child c c hc).2.2
  omega

theorem self_unlisted (h : t.Linked lev adrift) (x : NodeId) : x ∉ (t.slot x).children :=
  fun hc => h.child_ne hc rfl

/-- A child does not list its owner. -/
theorem owner_unlisted (h : t.Linked lev adrift) {x c : NodeId} (hc : c ∈ (t.slot x).children) :
    x ∉ (t.slot c).children := by
  intro hx
  have h1 := (h.child x c hc).2.2
  have h2 := (h.child c x hx).2.2
  omega

theorem owner_unique (h : t.Linked lev adrift) {x y c : NodeId} (hx : c ∈ (t.slot x).children)
    (hy : c ∈ (t.slot y).children) : x = y := by
  have h1 := (h.child x c hx).2.1
  have h2 := (h.child y c hy).2.1
  rw [h1] at h2
  exact Option.some.inj h2

theorem leaf_of_mem_points (h : t.Linked lev adrift) {x : NodeId} {p : PointId}
    (hp : p ∈ (t.slot x).points) : (t.slot x).leaf = true := by
  have hu := h.inUse_of_mem_points hp
  cases hl : (t.slot x).leaf with
  | true => rfl
  | false =>
    rw [(h.oneKind x hu).directory hl] at hp
    cases hp

theorem leaf_false_of_mem_children (h : t.Linked lev adrift) {x c : NodeId}
    (hc : c ∈ (t.slot x).children) : (t.slot x).leaf = false := by
  have hu := h.inUse_of_mem_children hc
  cases hl : (t.slot x).leaf with
  | false => rfl
  | true =>
    rw [(h.oneKind x hu).leaf hl] at hc
    cases hc

theorem root_unlisted (h : t.Linked lev adrift) (x : NodeId) :
    t.root ∉ (t.slot x).children := by
  intro hm
  have hp := (h.child x _ hm).2.1
  rw [h.root_parent] at hp
  cases hp

theorem ne_root (h : t.Linked lev adrift) {x c : NodeId} (hc : c ∈ (t.slot x).children) :
    c ≠ t.root := by
  intro heq
  subst heq
  exact h.root_unlisted x hc

/-- Every node in use hangs below the root. -/
theorem below_root (h : t.Linked lev []) {x : NodeId} (hx : t.InUse x) : t.Below t.root x := by
  induction hk : lev t.root - lev x generalizing x with
  | zero =>
    by_cases hr : x = t.root
    · subst hr
      exact .refl
    · obtain ⟨y, hy⟩ := h.owner x hx hr (by simp)
      have h1 := (h.child y x hy).2.2
      have h2 := h.le_root y (h.inUse_of_mem_children hy)
      omega
  | succ k ih =>
    have hr : x ≠ t.root := by
      intro heq
      subst heq
      omega
    obtain ⟨y, hy⟩ := h.owner x hx hr (by simp)
    have h1 := (h.child y x hy).2.2
    exact (ih (h.inUse_of_mem_children hy) (by omega)).tail hy

theorem inUse_of_below (h : t.Linked lev adrift) {x y : NodeId} (hx : t.InUse x)
    (hb : t.Below x y) : t.InUse y := by
  induction hb with
  | refl => exact hx
  | tail _ hc _ => exact (h.child _ _ hc).1

theorem exists_lineage (h : t.Linked lev []) {x : NodeId} (hx : t.InUse x) :
    ∃ rest, t.Lineage (x :: rest) := by
  induction h.below_root hx with
  | refl => exact ⟨[], .root⟩
  | tail hb hc ih =>
    obtain ⟨rest, hl⟩ := ih (h.inUse_of_mem_children hc)
    exact ⟨_, .cons hc hl⟩

end Linked

theorem Lineage.inUse (h : t.Linked lev adrift) {chain : List NodeId} (hl : t.Lineage chain) :
    ∀ x ∈ chain, t.InUse x := by
  induction hl with
  | root =>
    intro x hx
    obtain rfl := List.mem_singleton.mp hx
    exact h.root
  | cons hc _ ih =>
    intro x hx
    obtain rfl | hx := List.mem_cons.mp hx
    · exact (h.child _ _ hc).1
    · exact ih x hx

/-- The levels along a lineage rise up to that of the root. -/
theorem Lineage.level_add_length (h : t.Linked lev adrift) {x : NodeId} {rest : List NodeId}
    (hl : t.Lineage (x :: rest)) : lev x + rest.length = lev t.root := by
  induction rest generalizing x with
  | nil =>
    cases hl
    rfl
  | cons y rest ih =>
    cases hl with
    | cons hc hl =>
      have h1 := ih hl
      have h2 := (h.child _ _ hc).2.2
      simp only [List.length_cons]
      omega

theorem Lineage.lt_level (h : t.Linked lev adrift) {x : NodeId} {rest : List NodeId}
    (hl : t.Lineage (x :: rest)) : ∀ y ∈ rest, lev x < lev y := by
  induction rest generalizing x with
  | nil => simp
  | cons y rest ih =>
    cases hl with
    | cons hc hl =>
      have h2 := (h.child _ _ hc).2.2
      intro z hz
      obtain rfl | hz := List.mem_cons.mp hz
      · omega
      · have := ih hl z hz
        omega

/-- A lineage stays one while its nodes keep their children. -/
theorem Lineage.congr {chain : List NodeId} (hl : t.Lineage chain) (hr : t'.root = t.root)
    (hs : ∀ x ∈ chain.tail, (t'.slot x).children = (t.slot x).children) : t'.Lineage chain := by
  induction hl with
  | root =>
    rw [← hr]
    exact .root
  | @cons c y rest hc hl ih =>
    refine .cons ?_ (ih fun x hx => hs x (List.mem_of_mem_tail (by simpa using hx)))
    rw [hs y (by simp)]
    exact hc

/-- The trees differ in bounds, capacities and histories, and in the points of leaves. -/
structure SameLinks (t t' : Tree α) : Prop where
  frame : SameFrame t t'
  free : t'.free = t.free
  size_arena : t'.arena.size = t.arena.size
  leaf : ∀ x, (t'.slot x).leaf = (t.slot x).leaf
  children : ∀ x, (t'.slot x).children = (t.slot x).children
  parent : ∀ x, (t'.slot x).parent = (t.slot x).parent
  retired : ∀ x, (t'.slot x).retired = (t.slot x).retired
  points : ∀ x, (t.slot x).leaf = false ∨ (t.slot x).retired = true →
    (t'.slot x).points = (t.slot x).points

theorem SameLinks.refl (t : Tree α) : SameLinks t t :=
  ⟨.refl t, rfl, rfl, fun _ => rfl, fun _ => rfl, fun _ => rfl, fun _ => rfl, fun _ _ => rfl⟩

theorem SameLinks.trans {t'' : Tree α} (h : SameLinks t t') (h' : SameLinks t' t'') :
    SameLinks t t'' where
  frame := h.frame.trans h'.frame
  free := h'.free.trans h.free
  size_arena := h'.size_arena.trans h.size_arena
  leaf := fun x => (h'.leaf x).trans (h.leaf x)
  children := fun x => (h'.children x).trans (h.children x)
  parent := fun x => (h'.parent x).trans (h.parent x)
  retired := fun x => (h'.retired x).trans (h.retired x)
  points := fun x hx => by
    have hx' : (t'.slot x).leaf = false ∨ (t'.slot x).retired = true := by
      rw [h.leaf, h.retired]
      exact hx
    exact (h'.points x hx').trans (h.points x hx)

theorem sameLinks_updateStats (t : Tree α) (f : Counters α → Counters α) :
    SameLinks t (t.updateStats f) :=
  ⟨sameFrame_updateStats t f, rfl, rfl, fun _ => rfl, fun _ => rfl, fun _ => rfl, fun _ => rfl,
    fun _ _ => rfl⟩

theorem sameLinks_updateNode {id : NodeId} (hid : t.InUse id) {f : Node α → Node α}
    (hl : (f (t.slot id)).leaf = (t.slot id).leaf)
    (hc : (f (t.slot id)).children = (t.slot id).children)
    (hp : (f (t.slot id)).parent = (t.slot id).parent)
    (hr : (f (t.slot id)).retired = (t.slot id).retired)
    (hpts : (t.slot id).leaf = false → (f (t.slot id)).points = (t.slot id).points) :
    SameLinks t (t.updateNode id f) := by
  have hs := slot_updateNode hid.lt f
  have hpoints : (t.slot id).leaf = false ∨ (t.slot id).retired = true →
      (f (t.slot id)).points = (t.slot id).points := by
    rintro (h | h)
    · exact hpts h
    · rw [show (t.slot id).retired = false from hid] at h
      cases h
  refine ⟨(nodesOnly_updateNode t id f).frame, rfl, t.size_arena_updateNode id f, fun x => ?_,
    fun x => ?_, fun x => ?_, fun x => ?_, fun x hx => ?_⟩
  all_goals
    rw [hs]
    by_cases hxi : x = id
    · subst hxi
      rw [Function.update_self]
      first | assumption | exact hpoints hx
    · rw [Function.update_of_ne hxi]

theorem SameLinks.inUse (h : SameLinks t t') (x : NodeId) : t'.InUse x ↔ t.InUse x := by
  unfold InUse
  rw [h.retired]

theorem Linked.congr (hl : t.Linked lev adrift) (h : SameLinks t t') : t'.Linked lev adrift where
  tidy :=
    { nodup_free := h.free ▸ hl.tidy.nodup_free
      mem_free := fun x => by
        rw [h.free, h.size_arena, h.retired]
        exact hl.tidy.mem_free x
      idle := fun x hx => by
        rw [h.retired] at hx
        rw [h.points x (.inr hx), h.children]
        exact hl.tidy.idle x hx }
  root := by
    rw [h.frame.root, h.inUse]
    exact hl.root
  root_parent := by
    rw [h.frame.root, h.parent]
    exact hl.root_parent
  oneKind := fun x hx => by
    have hk := hl.oneKind x ((h.inUse x).mp hx)
    refine ⟨fun hf => ?_, fun hf => ?_⟩
    · rw [h.children]
      exact hk.leaf (h.leaf x ▸ hf)
    · have hf' : (t.slot x).leaf = false := h.leaf x ▸ hf
      rw [h.points x (.inl hf')]
      exact hk.directory hf'
  leaf_iff := fun x hx => by
    rw [h.leaf]
    exact hl.leaf_iff x ((h.inUse x).mp hx)
  nodup := fun x => h.children x ▸ hl.nodup x
  child := fun x c hc => by
    rw [h.inUse, h.parent]
    exact hl.child x c (h.children x ▸ hc)
  owner := fun x hx hr ha => by
    simp only [h.children]
    exact hl.owner x ((h.inUse x).mp hx) (h.frame.root ▸ hr) ha
  le_root := fun x hx => by
    rw [h.frame.root]
    exact hl.le_root x ((h.inUse x).mp hx)
  floating := fun x hx => by
    simp only [h.inUse, h.children, h.frame.root]
    exact hl.floating x hx
  nodup_floating := hl.nodup_floating

theorem SameFrame.room (h : SameFrame t t') {n n' : Node α} (hl : n'.leaf = n.leaf)
    (hcap : n'.capacity = n.capacity) : t'.room n' = t.room n := by
  unfold Tree.room
  rw [h.config, hl, hcap]

theorem SameFrame.minimumFill (h : SameFrame t t') {n n' : Node α} (hl : n'.leaf = n.leaf) :
    t'.minimumFill n' = t.minimumFill n := by
  unfold Tree.minimumFill
  rw [h.config, hl]

theorem minimumFill_pos (hc : t.config.Feasible) (n : Node α) : 0 < t.minimumFill n := by
  unfold minimumFill
  split
  · exact hc.minLeafSize_pos
  · exact hc.minChildren_pos

theorem FilledAt.congr {x : NodeId} {extra lack : Nat} (h : t.FilledAt x extra lack)
    (hc : t'.config = t.config) (hg : t.stats.supernodeGrowths ≤ t'.stats.supernodeGrowths)
    (hr : x = t'.root ↔ x = t.root) (hl : (t'.slot x).leaf = (t.slot x).leaf)
    (he : (t'.slot x).entryCount = (t.slot x).entryCount)
    (hcap : (t'.slot x).capacity = (t.slot x).capacity) : t'.FilledAt x extra lack where
  upper := by
    unfold room
    rw [hc, he, hl, hcap]
    exact h.upper
  lower := fun hx => by
    unfold minimumFill
    rw [hc, he, hl]
    exact h.lower fun hx' => hx (hr.mpr hx')
  root := fun hx hf => by
    rw [he]
    exact h.root (hr.mp hx) (hl ▸ hf)
  capacity := by
    obtain ⟨k, hk, h1, h2⟩ := h.capacity
    refine ⟨k, by omega, ?_, ?_⟩
    · rw [hcap, hc]
      exact h1
    · rw [hl, hc]
      exact h2

/-- A node's limits do not depend on its parent. -/
theorem FilledAt.reparented {x : NodeId} {extra lack : Nat} (h : t.FilledAt x extra lack)
    (hframe : SameFrame t t') (hg : t.stats.supernodeGrowths ≤ t'.stats.supernodeGrowths)
    {q : Option NodeId} (hq : t'.slot x = { t.slot x with parent := q }) :
    t'.FilledAt x extra lack := by
  apply h.congr hframe.config hg
  · rw [hframe.root]
  all_goals rw [hq]
  rfl

theorem FilledAt.maxChildren_le {x : NodeId} {extra lack : Nat} (h : t.FilledAt x extra lack) :
    t.config.maxChildren ≤ (t.slot x).capacity := by
  obtain ⟨k, -, h1, -⟩ := h.capacity
  rw [h1]
  exact Nat.le_mul_of_pos_right _ (Nat.two_pow_pos k)

theorem FilledAt.entryCount_pos (hc : t.config.Feasible) {x : NodeId} {extra : Nat}
    (h : t.FilledAt x extra 0) (hl : (t.slot x).leaf = false) : 0 < (t.slot x).entryCount := by
  by_cases hr : x = t.root
  · exact h.root hr hl
  · have h1 := h.lower hr
    have h2 := hc.minChildren_pos
    simp only [minimumFill, hl, Bool.false_eq_true, if_false] at h1
    omega

section

variable [Scalar α] {extra lack : Option NodeId} {loose : List NodeId}

theorem Registered.congr (h : t.Registered) (hf : SameFrame t t')
    (hc : ∀ p, t'.copies p = t.copies p) : t'.Registered where
  stored := fun p hp => by
    rw [hf.store]
    exact h.stored p (hc p ▸ hp)
  copies_le := fun p => hc p ▸ h.copies_le p
  finite := fun p hp => by
    rw [hf.dim, hf.coordsAt]
    exact h.finite p (hf.store ▸ hp)

namespace Shaped

theorem legible (h : t.Shaped lev extra lack loose) (x : NodeId) : t.Legible (t.slot x) where
  points := fun p hp => by
    refine h.registered.stored p (lt_of_lt_of_le ?_ (t.count_points_le_copies x p))
    exact List.count_pos_iff.mpr hp
  children := fun c hc => (h.linked.child x c hc).1.lt

theorem children_ne_nil (h : t.Shaped lev extra none loose) {x : NodeId} (hx : t.InUse x)
    (hl : (t.slot x).leaf = false) : (t.slot x).children ≠ [] := by
  have hf := (h.filled x hx).entryCount_pos h.feasible hl
  unfold Node.entryCount at hf
  rw [if_neg (by simp [hl])] at hf
  exact List.ne_nil_of_length_pos hf

/-- There are nodes on all levels up to the root's. -/
theorem exists_level (h : t.Shaped lev extra none loose) {k : Nat} (hk : k ≤ lev t.root) :
    ∃ x, t.InUse x ∧ lev x = k := by
  induction hd : lev t.root - k generalizing k with
  | zero => exact ⟨t.root, h.linked.root, by omega⟩
  | succ d ih =>
    obtain ⟨x, hx, hlx⟩ := ih (k := k + 1) (by omega) (by omega)
    have hl : (t.slot x).leaf = false := by
      have := h.linked.leaf_iff x hx
      cases hl : (t.slot x).leaf with
      | false => rfl
      | true =>
        have := this.mp hl
        omega
    obtain ⟨c, hc⟩ := List.exists_mem_of_ne_nil _ (h.children_ne_nil hx hl)
    have h1 := h.linked.child x c hc
    exact ⟨c, h1.1, by omega⟩

/-- The tree has fewer levels above the leaves than the arena has slots. -/
theorem level_root_lt (h : t.Shaped lev extra none loose) : lev t.root < t.arena.size := by
  have hsub : Finset.range (lev t.root + 1) ⊆
      (Finset.range t.arena.size).image fun i => lev ⟨i⟩ := by
    intro k hk
    obtain ⟨x, hx, hlx⟩ := h.exists_level (Nat.lt_succ_iff.mp (Finset.mem_range.mp hk))
    exact Finset.mem_image.mpr ⟨x.index, Finset.mem_range.mpr hx.lt, hlx⟩
  have h1 := Finset.card_le_card hsub
  have h2 := Finset.card_image_le (s := Finset.range t.arena.size) (f := fun i => lev ⟨i⟩)
  simp only [Finset.card_range] at h1 h2
  omega

theorem level_root_lt_limit (h : t.Shaped lev extra none loose) : lev t.root < t.walkLimit :=
  Nat.lt_succ_of_lt h.level_root_lt

theorem levelFrom_ok (h : t.Shaped lev extra none loose) {x : NodeId} (hx : t.InUse x)
    {limit : Nat} (hl : lev x < limit) : t.levelFrom limit x = .ok (lev x) := by
  induction limit generalizing x with
  | zero => omega
  | succ limit ih =>
    unfold levelFrom
    rw [bind_of_ok hx.node_eq]
    cases hc : (t.slot x).children with
    | nil =>
      have hlf : (t.slot x).leaf = true := by
        by_contra hf
        exact h.children_ne_nil hx (by simpa using hf) hc
      rw [(h.linked.leaf_iff x hx).mp hlf]
      rfl
    | cons c cs =>
      obtain ⟨hcu, -, hcl⟩ := h.linked.child x c (by simp [hc])
      rw [← hcl]
      exact bind_of_ok (ih hcu (by omega)) _

theorem level_ok (h : t.Shaped lev extra none loose) {x : NodeId} (hx : t.InUse x) :
    t.level x = .ok (lev x) :=
  h.levelFrom_ok hx (lt_of_le_of_lt (h.linked.le_root x hx) h.level_root_lt_limit)

theorem height_ok (h : t.Shaped lev extra none loose) : t.height = .ok (lev t.root) :=
  h.level_ok h.linked.root

theorem rectsOf_proper [OrderedScalar α] (h : t.Shaped lev extra lack loose) (x : NodeId) :
    ∀ r ∈ t.rectsOf (t.slot x), Rectangle.Proper t.dim r := by
  intro r hr
  unfold rectsOf at hr
  split at hr
  · obtain ⟨p, hp, rfl⟩ := List.mem_map.mp hr
    exact (h.registered.finite p ((h.legible x).points p hp)).proper
  · obtain ⟨c, hc, rfl⟩ := List.mem_map.mp hr
    exact h.fitted.proper c (h.linked.child x c hc).1

theorem tight [OrderedScalar α] (h : t.Shaped lev extra lack []) {x : NodeId} (hx : t.InUse x) :
    t.Tight x := by
  have hhull := Rectangle.isHull_foldl (h.rectsOf_proper x) (Rectangle.isHull_nil t.dim)
  refine ⟨t.hullOf (t.slot x), tightBound_ok (h.legible x), ?_⟩
  exact hhull.beq (h.fitted.hull x hx (by simp))

end Shaped

end

end Tree

end RTree
