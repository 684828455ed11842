import RTree.Proofs.Tree.Shape

/-!
Nothing is asked of the links here: a node may be reached along several routes, or along none, and
a route may lead round in a circle.
-/

namespace RTree

variable {α : Type}

namespace Tree

/-- The node at the end of a route from the root, which says for each node whose turn it is among
the children of the node before; the last one stands first. -/
def follow (t : Tree α) : List Nat → Option NodeId
  | [] => some t.root
  | place :: route => (t.follow route).bind fun x => (t.slot x).children[place]?

/-- A node and one of the routes to it. -/
structure Stop (t : Tree α) where
  route : List Nat
  node : NodeId
  leads : t.follow route = some node

def Lists (t : Tree α) (x : NodeId) (p : PointId) : Prop :=
  (t.slot x).leaf = true ∧ p ∈ (t.slot x).points

/-- Child links lead into the arena and leaves list stored points, which are finite. -/
structure Readable [Scalar α] (t : Tree α) : Prop where
  root : t.root.index < t.arena.size
  child : ∀ x, ∀ c ∈ (t.slot x).children, c.index < t.arena.size
  point : ∀ x p, t.Lists x p → p.index < t.store.size
  finite : ∀ p : PointId, p.index < t.store.size → Rectangle.FinitePoint t.dim (t.coordsAt p)

/-- A node in use with no more and no fewer entries than it may have. -/
structure WithinLimits (t : Tree α) (x : NodeId) : Prop where
  inUse : t.InUse x
  upper : (t.slot x).entryCount ≤ t.room (t.slot x)
  lower : x ≠ t.root → t.minimumFill (t.slot x) ≤ (t.slot x).entryCount
  root : x = t.root → (t.slot x).leaf = false → (t.slot x).children ≠ []
  capacity : t.config.variant ≠ .xTree → (t.slot x).leaf = false →
    (t.slot x).capacity = t.config.maxChildren

/-- A node of one kind whose children name it as their parent, or whose points are live and listed
once. -/
structure Fit (t : Tree α) (x : NodeId) : Prop extends t.WithinLimits x where
  oneKind : (t.slot x).OneKind
  parent : ∀ c ∈ (t.slot x).children, (t.slot c).parent = some x
  live : ∀ p, t.Lists x p → t.contains p = true
  nodup : (t.slot x).leaf = true → (t.slot x).points.Nodup

/-- The tree that child links from the root spell out: each node is reached once and is fit, leaves
are all as far from the root, bounds are the least ones, and the live points are those that leaves
list, each once. -/
structure Arranged [Scalar α] (t : Tree α) : Prop where
  root_parent : (t.slot t.root).parent = none
  once : ∀ x y : t.Stop, x.node = y.node → x.route = y.route
  depth : ∃ d, ∀ x : t.Stop, (t.slot x.node).leaf = true → x.route.length = d
  fit : ∀ x : t.Stop, t.Fit x.node
  hull : ∀ x : t.Stop,
    Rectangle.IsHull t.dim (t.rectsOf (t.slot x.node)) (t.slot x.node).bound
  listed : ∀ p, t.contains p = true → ∃ x : t.Stop, t.Lists x.node p
  apart : ∀ (x y : t.Stop) (p : PointId), t.Lists x.node p → t.Lists y.node p → x.node = y.node

structure Consistent [Scalar α] (t : Tree α) : Prop extends t.Arranged where
  size : t.size = t.livePoints.length

variable {t : Tree α}

theorem follow_cons {place : Nat} {route : List Nat} {c : NodeId} :
    t.follow (place :: route) = some c ↔
      ∃ x, t.follow route = some x ∧ (t.slot x).children[place]? = some c :=
  Option.bind_eq_some_iff

/-- A route that leads somewhere does so at each of its turns. -/
theorem exists_follow_of_suffix {route rest : List Nat} {c : NodeId} (h : route <:+ rest)
    (hc : t.follow rest = some c) : ∃ x, t.follow route = some x := by
  induction rest generalizing c with
  | nil =>
    rw [List.suffix_nil.mp h]
    exact ⟨c, hc⟩
  | cons place rest ih =>
    cases List.suffix_cons_iff.mp h with
    | inl he => exact he ▸ ⟨c, hc⟩
    | inr h =>
      obtain ⟨x, hx, -⟩ := follow_cons.mp hc
      exact ih h hx

namespace Stop

theorem ext {x y : t.Stop} (h : x.route = y.route) : x = y := by
  obtain ⟨route, node, hx⟩ := x
  obtain ⟨route', node', hy⟩ := y
  obtain rfl : route = route' := h
  obtain rfl : node = node' := Option.some.inj (hx.symm.trans hy)
  rfl

def root (t : Tree α) : t.Stop := ⟨[], t.root, rfl⟩

def child (x : t.Stop) (place : Nat) (h : place < (t.slot x.node).children.length) : t.Stop where
  route := place :: x.route
  node := (t.slot x.node).children[place]
  leads := follow_cons.mpr ⟨x.node, x.leads, List.getElem?_eq_getElem h⟩

/-- A longer route goes on to one of the children. -/
theorem exists_child_suffix {x y : t.Stop} (h : x.route <:+ y.route) (hne : y ≠ x) :
    ∃ place, place < (t.slot x.node).children.length ∧ (place :: x.route) <:+ y.route := by
  obtain ⟨more, hmore⟩ := h
  rcases List.eq_nil_or_concat more with rfl | ⟨init, place, rfl⟩
  · exact absurd (ext hmore.symm) hne
  · have hsuffix : (place :: x.route) <:+ y.route := ⟨init, by simpa using hmore⟩
    obtain ⟨c, hc⟩ := exists_follow_of_suffix hsuffix y.leads
    obtain ⟨z, hz, hplace⟩ := follow_cons.mp hc
    obtain rfl : x.node = z := Option.some.inj (x.leads.symm.trans hz)
    exact ⟨place, (List.getElem?_eq_some_iff.mp hplace).1, hsuffix⟩

/-- What is listed below a node is where longer routes lead. -/
theorem below_iff {x : t.Stop} {n : NodeId} :
    t.Below x.node n ↔ ∃ y : t.Stop, y.node = n ∧ x.route <:+ y.route := by
  constructor
  · intro h
    induction h with
    | refl => exact ⟨x, rfl, List.suffix_refl _⟩
    | tail _ hc ih =>
      obtain ⟨y, rfl, hsuffix⟩ := ih
      obtain ⟨place, hplace, rfl⟩ := List.getElem_of_mem hc
      exact ⟨y.child place hplace, rfl, hsuffix.trans (List.suffix_cons place _)⟩
  · rintro ⟨⟨route, n, h⟩, rfl, more, hmore⟩
    obtain rfl : more ++ x.route = route := hmore
    induction more generalizing n with
    | nil =>
      obtain rfl : x.node = n := Option.some.inj (x.leads.symm.trans h)
      exact .refl
    | cons place more ih =>
      obtain ⟨y, hy, hplace⟩ := follow_cons.mp h
      exact (ih y hy).tail (List.mem_of_getElem? hplace)

theorem exists_iff_below_root {n : NodeId} : (∃ x : t.Stop, x.node = n) ↔ t.Below t.root n := by
  rw [show t.root = (root t).node from rfl, below_iff]
  simp [root]

/-- Routes that go on to different children part there. -/
theorem place_unique {i j : Nat} {route rest : List Nat} (hi : (i :: route) <:+ rest)
    (hj : (j :: route) <:+ rest) : i = j := by
  have h : (i :: route) <:+ (j :: route) := List.suffix_of_suffix_length_le hi hj (by simp)
  exact (List.cons.inj (h.eq_of_length (by simp))).1

theorem lt [Scalar α] (h : t.Readable) (x : t.Stop) : x.node.index < t.arena.size := by
  obtain ⟨route, node, hx⟩ := x
  cases route with
  | nil =>
    obtain rfl : t.root = node := Option.some.inj hx
    exact h.root
  | cons place route =>
    obtain ⟨y, -, hplace⟩ := follow_cons.mp hx
    exact h.child y node (List.mem_of_getElem? hplace)

end Stop

theorem length_le_of_nodup {nodes : List NodeId} (h : nodes.Nodup)
    (hlt : ∀ x ∈ nodes, x.index < t.arena.size) : nodes.length ≤ t.arena.size := by
  have hinj : ∀ x ∈ nodes, ∀ y ∈ nodes, x.index = y.index → x = y := by
    intro x _ y _ he
    cases x
    cases y
    exact congrArg NodeId.mk he
  have hsub : nodes.map NodeId.index ⊆ List.range t.arena.size := by
    intro i hi
    obtain ⟨x, hx, rfl⟩ := List.mem_map.mp hi
    exact List.mem_range.mpr (hlt x hx)
  have hle := (List.subperm_of_subset (h.map_on hinj) hsub).length_le
  simpa using hle

/-- A route that comes to no node twice is shorter than the arena. -/
theorem Stop.length_lt [Scalar α] (h : t.Readable)
    (honce : ∀ x y : t.Stop, x.node = y.node → x.route = y.route) (x : t.Stop) :
    x.route.length < t.arena.size := by
  have hnodes : ∃ nodes : List NodeId, nodes.length = x.route.length + 1 ∧ nodes.Nodup ∧
      ∀ n ∈ nodes, ∃ y : t.Stop, y.node = n ∧ y.route.length ≤ x.route.length := by
    obtain ⟨route, node, hx⟩ := x
    induction route generalizing node with
    | nil =>
      refine ⟨[node], rfl, List.nodup_singleton node, fun n hn => ?_⟩
      obtain rfl := List.mem_singleton.mp hn
      exact ⟨⟨[], n, hx⟩, rfl, Nat.le_refl 0⟩
    | cons place route ih =>
      obtain ⟨z, hz, -⟩ := follow_cons.mp hx
      obtain ⟨nodes, hlen, hnodup, hmem⟩ := ih z hz
      refine ⟨node :: nodes, by simp [hlen], List.nodup_cons.mpr ⟨fun hn => ?_, hnodup⟩, ?_⟩
      · obtain ⟨y, hy, hle⟩ := hmem node hn
        have heq := honce y ⟨place :: route, node, hx⟩ hy
        simp only [heq, List.length_cons] at hle
        omega
      · intro n hn
        rcases List.mem_cons.mp hn with rfl | hn
        · exact ⟨⟨place :: route, n, hx⟩, rfl, Nat.le_refl _⟩
        · obtain ⟨y, hy, hle⟩ := hmem n hn
          exact ⟨y, hy, Nat.le_succ_of_le hle⟩
  obtain ⟨nodes, hlen, hnodup, hmem⟩ := hnodes
  have hle := length_le_of_nodup (t := t) hnodup fun n hn => by
    obtain ⟨y, rfl, -⟩ := hmem n hn
    exact y.lt h
  omega

end Tree

end RTree
