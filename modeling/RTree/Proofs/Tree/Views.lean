import RTree.Proofs.Split.Balance
import RTree.Proofs.Tree.Arena

namespace RTree

variable {α β γ ε : Type}

theorem bind_of_ok {m : Except ε β} {b : β} (h : m = .ok b) (f : β → Except ε γ) :
    (m >>= f) = f b := by
  rw [h]
  rfl

theorem bind_eq_ok {m : Except ε β} {f : β → Except ε γ} {c : γ} :
    (m >>= f) = .ok c ↔ ∃ b, m = .ok b ∧ f b = .ok c := by
  cases m with
  | error e =>
    constructor
    · intro h
      cases h
    · rintro ⟨b, h, -⟩
      cases h
  | ok a =>
    constructor
    · intro h
      exact ⟨a, rfl, h⟩
    · rintro ⟨b, h, hf⟩
      cases h
      exact hf

theorem mapM_ok {f : β → Except ε γ} {g : β → γ} {xs : List β} (h : ∀ x ∈ xs, f x = .ok (g x)) :
    xs.mapM f = .ok (xs.map g) := by
  induction xs with
  | nil => rfl
  | cons x xs ih =>
    rw [List.mapM_cons, h x (by simp), ih fun y hy => h y (by simp [hy])]
    rfl

/-- A leaf has no children and a directory no points. -/
structure Node.OneKind (n : Node α) : Prop where
  leaf : n.leaf = true → n.children = []
  directory : n.leaf = false → n.points = []

namespace Tree

/-- The coordinates of a stored point, none of one that is not. -/
def coordsAt (t : Tree α) (p : PointId) : List α :=
  (t.store[p.index]?.map StoredPoint.coords).getD []

theorem SameFrame.coordsAt {t t' : Tree α} (h : SameFrame t t') (p : PointId) :
    t'.coordsAt p = t.coordsAt p := by
  unfold Tree.coordsAt
  rw [h.store]

def rectsOf (t : Tree α) (n : Node α) : List (Rectangle α) :=
  if n.leaf then n.points.map fun p => .ofPoint (t.coordsAt p)
  else n.children.map fun c => (t.slot c).bound

/-- All entries of the node can be looked up. -/
structure Legible (t : Tree α) (n : Node α) : Prop where
  points : ∀ p ∈ n.points, p.index < t.store.size
  children : ∀ c ∈ n.children, c.index < t.arena.size

variable {t : Tree α} {n : Node α}

theorem coords_eq {p : PointId} (h : p.index < t.store.size) : t.coords p = .ok (t.coordsAt p) := by
  simp [coords, coordsAt, Array.getElem?_eq_getElem h]

theorem placedPoints_ok (h : ∀ p ∈ n.points, p.index < t.store.size) :
    t.placedPoints n = .ok (n.points.map fun p => (p, t.coordsAt p)) :=
  mapM_ok fun p hp => by rw [coords_eq (h p hp)]; rfl

theorem childBounds_ok (h : ∀ c ∈ n.children, c.index < t.arena.size) :
    t.childBounds n = .ok (n.children.map fun c => (t.slot c).bound) :=
  mapM_ok fun c hc => by rw [node_eq (h c hc)]; rfl

theorem entryRects_leaf (hl : n.leaf = true) (h : ∀ p ∈ n.points, p.index < t.store.size) :
    t.entryRects n = .ok (t.rectsOf n) := by
  unfold entryRects rectsOf
  rw [if_pos hl, if_pos hl, bind_of_ok (placedPoints_ok h), List.map_map]
  rfl

theorem entryRects_directory (hl : n.leaf = false)
    (h : ∀ c ∈ n.children, c.index < t.arena.size) : t.entryRects n = .ok (t.rectsOf n) := by
  unfold entryRects rectsOf
  rw [if_neg (by simp [hl]), if_neg (by simp [hl])]
  exact childBounds_ok h

theorem entryRects_ok (h : t.Legible n) : t.entryRects n = .ok (t.rectsOf n) := by
  cases hl : n.leaf with
  | true => exact entryRects_leaf hl h.points
  | false => exact entryRects_directory hl h.children

theorem length_rectsOf (t : Tree α) (n : Node α) : (t.rectsOf n).length = n.entryCount := by
  unfold rectsOf Node.entryCount
  split <;> simp

theorem rectsOf_congr {t' : Tree α} (hs : t'.store = t.store)
    (hb : ∀ c ∈ n.children, (t'.slot c).bound = (t.slot c).bound) : t'.rectsOf n = t.rectsOf n := by
  unfold rectsOf coordsAt
  rw [hs, List.map_congr_left hb]

variable [Scalar α]

def hullOf (t : Tree α) (n : Node α) : Rectangle α :=
  (t.rectsOf n).foldl Rectangle.union (.empty t.dim)

theorem tightBound_eq (h : t.entryRects n = .ok (t.rectsOf n)) :
    t.tightBound n = .ok (t.hullOf n) := by
  unfold tightBound
  rw [h]
  rfl

theorem tightBound_ok (h : t.Legible n) : t.tightBound n = .ok (t.hullOf n) :=
  tightBound_eq (entryRects_ok h)

/-- The node with those of the entries of `n` that stand in the places of a group. -/
def portion (t : Tree α) (n : Node α) (group : List Nat) (parent : NodeId)
    (history : SplitHistory) : Node α where
  leaf := n.leaf
  points := pick n.points group
  children := pick n.children group
  bound := (pick (t.rectsOf n) group).foldl Rectangle.union (.empty t.dim)
  parent := some parent
  capacity := n.capacity
  history

theorem oneKind_portion {n : Node α} (h : n.OneKind) (group : List Nat) (parent : NodeId)
    (history : SplitHistory) : (t.portion n group parent history).OneKind where
  leaf := fun hl => by simp [portion, h.leaf hl]
  directory := fun hl => by simp [portion, h.directory hl]

end Tree

namespace TreeM

open RTree.Tree

variable {t : Tree α} {id : NodeId}

theorem getCoords_ok {p : PointId} (h : p.index < t.store.size) :
    (getCoords p).run t = .ok (t.coordsAt p) t := query_ok (coords_eq h)

theorem placeAmong_ok {parent : NodeId} (hp : parent.index < t.arena.size)
    (hm : id ∈ (t.slot parent).children) :
    ∃ place, (t.slot parent).children.idxOf? id = some place ∧
      (placeAmong id parent).run t = .ok place t := by
  unfold placeAmong
  rw [bind_ok (getNode_ok hp)]
  cases hi : (t.slot parent).children.idxOf? id with
  | none => exact absurd hm (List.idxOf?_eq_none_iff.mp hi)
  | some place => exact ⟨place, rfl, rfl⟩

theorem tighten_ok [Scalar α] (hid : id.index < t.arena.size) (hl : t.Legible (t.slot id)) :
    (tighten id).run t =
      .ok () (t.updateNode id fun n => { n with bound := t.hullOf (t.slot id) }) := by
  unfold tighten
  rw [bind_ok (getNode_ok hid), bind_ok (query_ok (tightBound_ok hl))]
  exact modifyNode_ok hid _

end TreeM

end RTree
