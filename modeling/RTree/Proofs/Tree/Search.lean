import RTree.Proofs.Tree.Descent

namespace RTree

variable {α β γ ε : Type}

theorem findSomeM?_ok {f : β → Except ε (Option γ)} {g : β → Option γ} {xs : List β}
    (h : ∀ x ∈ xs, f x = .ok (g x)) : xs.findSomeM? f = .ok (xs.findSome? g) := by
  induction xs with
  | nil => rfl
  | cons x xs ih =>
    rw [List.findSomeM?, bind_of_ok (h x (by simp)), List.findSome?_cons]
    cases g x with
    | some y => rfl
    | none => exact ih fun y hy => h y (by simp [hy])

namespace Tree

variable {t : Tree α} {lev : NodeId → Nat} {p : PointId}

/-- A point listed at most once is listed by one node only. -/
theorem eq_of_mem_points (hc : t.copies p ≤ 1) {x y : NodeId} (hx : p ∈ (t.slot x).points)
    (hy : p ∈ (t.slot y).points) : x = y := by
  by_contra hne
  have hlt : x.index < t.arena.size := by
    by_contra hn
    have hv : t.slot x = Node.vacant := by
      unfold slot
      rw [Array.getElem?_eq_none (by omega)]
      rfl
    rw [hv] at hx
    cases hx
  let t₁ := t.updateNode x fun n => { n with points := [] }
  have h1 : t₁.copies p + (t.slot x).points.count p = t.copies p + ([] : List PointId).count p :=
    copies_updateNode hlt _ p
  have h2 := t₁.count_points_le_copies y p
  have hs : t₁.slot y = t.slot y := by
    have : t₁.slot = Function.update t.slot x { t.slot x with points := [] } :=
      slot_updateNode hlt _
    rw [this, Function.update_of_ne (Ne.symm hne)]
  rw [hs] at h2
  have h3 := List.count_pos_iff.mpr hx
  have h4 := List.count_pos_iff.mpr hy
  simp only [List.count_nil, Nat.add_zero] at h1
  omega

theorem nodup_points (hc : ∀ p, t.copies p ≤ 1) (x : NodeId) : (t.slot x).points.Nodup :=
  List.nodup_iff_count_le_one.mpr fun p => le_trans (t.count_points_le_copies x p) (hc p)

/-- A point with a copy is listed somewhere. -/
theorem exists_mem_points (hc : 0 < t.copies p) : ∃ x, p ∈ (t.slot x).points := by
  obtain ⟨n, hn, hp⟩ := List.mem_flatMap.mp (List.count_pos_iff.mp hc)
  obtain ⟨i, hi, rfl⟩ := List.getElem_of_mem hn
  refine ⟨⟨i⟩, ?_⟩
  have hlt : i < t.arena.size := by simpa using hi
  simpa [slot, Array.getElem?_eq_getElem hlt] using hp

theorem below_iff {id x : NodeId} :
    t.Below id x ↔ x = id ∨ ∃ c ∈ (t.slot id).children, t.Below c x :=
  Relation.ReflTransGen.cases_head_iff.trans (or_congr eq_comm Iff.rfl)

/-- A leaf has no more points below it than its own. -/
theorem listed_leaf {id : NodeId} (h : (t.slot id).OneKind) (hl : (t.slot id).leaf = true) :
    (∃ leaf, t.Below id leaf ∧ p ∈ (t.slot leaf).points) ↔ p ∈ (t.slot id).points := by
  constructor
  · intro ⟨leaf, hb, hp⟩
    cases below_iff.mp hb with
    | inl he => exact he ▸ hp
    | inr hc =>
      obtain ⟨c, hc, -⟩ := hc
      rw [h.leaf hl] at hc
      cases hc
  · exact fun hp => ⟨id, .refl, hp⟩

/-- The points below a directory are those below its children. -/
theorem listed_directory {id : NodeId} (h : (t.slot id).OneKind)
    (hl : (t.slot id).leaf = false) :
    (∃ leaf, t.Below id leaf ∧ p ∈ (t.slot leaf).points) ↔
      ∃ c ∈ (t.slot id).children, ∃ leaf, t.Below c leaf ∧ p ∈ (t.slot leaf).points := by
  constructor
  · intro ⟨leaf, hb, hp⟩
    cases below_iff.mp hb with
    | inl he =>
      rw [he, h.directory hl] at hp
      cases hp
    | inr hc =>
      obtain ⟨c, hc, hcb⟩ := hc
      exact ⟨c, hc, leaf, hcb, hp⟩
  · exact fun ⟨c, hc, leaf, hcb, hp⟩ => ⟨leaf, .head hc hcb, hp⟩

namespace Linked

theorem level_le_of_below (h : t.Linked lev []) {x y : NodeId} (hb : t.Below x y) :
    lev y ≤ lev x ∧ (lev y = lev x → x = y) := by
  induction hb with
  | refl => exact ⟨le_refl _, fun _ => rfl⟩
  | tail _ hc ih =>
    have := (h.child _ _ hc).2.2
    exact ⟨by omega, fun he => by omega⟩

/-- Of two nodes at one level only one can be above a third. -/
theorem below_unique (h : t.Linked lev []) {a b y : NodeId} (ha : t.Below a y)
    (hb : t.Below b y) (hl : lev a = lev b) : a = b := by
  induction ha with
  | refl =>
    exact ((h.level_le_of_below hb).2 hl).symm
  | @tail z y haz hzy ih =>
    rcases Relation.ReflTransGen.cases_tail hb with he | ⟨z', hbz', hz'y⟩
    · subst he
      have h1 := (h.level_le_of_below haz).1
      have h2 := (h.child _ _ hzy).2.2
      omega
    · rw [h.owner_unique hz'y hzy] at hbz'
      exact ih hbz'

end Linked

variable [Scalar α]

/-- Nodes with least bounds that child links do not lead out of, and nowhere in a circle. -/
structure Searchable (t : Tree α) (lev : NodeId → Nat) (nodes : NodeId → Prop) : Prop where
  lt : ∀ x, nodes x → x.index < t.arena.size
  child : ∀ x, nodes x → ∀ c ∈ (t.slot x).children, nodes c ∧ lev c < lev x
  oneKind : ∀ x, nodes x → (t.slot x).OneKind
  hull : ∀ x, nodes x → Rectangle.IsHull t.dim (t.rectsOf (t.slot x)) (t.slot x).bound
  stored : ∀ x, nodes x → ∀ p ∈ (t.slot x).points, p.index < t.store.size
  finite : ∀ p : PointId, p.index < t.store.size → Rectangle.FinitePoint t.dim (t.coordsAt p)

variable {extra : Option NodeId} {nodes : NodeId → Prop}

theorem Shaped.searchable (h : t.Shaped lev extra none []) : t.Searchable lev t.InUse where
  lt := fun _ hx => hx.lt
  child := by
    intro x _ c hc
    obtain ⟨hu, -, hlev⟩ := h.linked.child x c hc
    exact ⟨hu, by omega⟩
  oneKind := h.linked.oneKind
  hull := fun x hx => h.fitted.hull x hx (by simp)
  stored := fun x _ => (h.legible x).points
  finite := h.registered.finite

theorem Searchable.below (h : t.Searchable lev nodes) {x y : NodeId} (hx : nodes x)
    (hb : t.Below x y) : nodes y := by
  induction hb with
  | refl => exact hx
  | tail _ hc ih => exact (h.child _ ih _ hc).1

variable [OrderedScalar α]

/-- Every bound above a listed point contains it. -/
theorem Searchable.contains_of_below (h : t.Searchable lev nodes) {x leaf : NodeId}
    (hx : nodes x) (hb : t.Below x leaf) (hp : p ∈ (t.slot leaf).points) :
    (t.slot x).bound.contains (t.coordsAt p) = true := by
  have hleaf := h.below hx hb
  have hfinite := h.finite p (h.stored leaf hleaf p hp)
  induction hb using Relation.ReflTransGen.head_induction_on with
  | refl =>
    have hl : (t.slot leaf).leaf = true := by
      by_contra hn
      rw [(h.oneKind leaf hleaf).directory (by simpa using hn)] at hp
      cases hp
    have hm : Rectangle.ofPoint (t.coordsAt p) ∈ t.rectsOf (t.slot leaf) := by
      unfold rectsOf
      rw [if_pos hl]
      exact List.mem_map.mpr ⟨p, hp, rfl⟩
    exact (h.hull leaf hleaf).contains hm hfinite.proper hfinite hfinite.contains_self
  | @head x c hc _ ih =>
    have hcn := (h.child x hx c hc).1
    have hl : ¬ (t.slot x).leaf = true := by
      intro hl
      rw [(h.oneKind x hx).leaf hl] at hc
      cases hc
    have hm : (t.slot c).bound ∈ t.rectsOf (t.slot x) := by
      unfold rectsOf
      rw [if_neg hl]
      exact List.mem_map.mpr ⟨c, hc, rfl⟩
    exact (h.hull x hx).contains hm (h.hull c hcn).proper hfinite (ih hcn)

/-- The answer of a search below a node: a way to a leaf that lists the point, through bounds that
contain it, or nothing when there is none. -/
structure Traced (t : Tree α) (p : PointId) (id : NodeId) (found : Option (List NodeId)) :
    Prop where
  sound : ∀ way ∈ found, ∃ leaf, t.Way id leaf way ∧ p ∈ (t.slot leaf).points ∧
    ∀ x ∈ way, (t.slot x).bound.contains (t.coordsAt p) = true
  complete : (∃ leaf, t.Below id leaf ∧ p ∈ (t.slot leaf).points) → found.isSome

namespace Traced

variable {id : NodeId}

omit [OrderedScalar α] in
theorem none (h : ¬ ∃ leaf, t.Below id leaf ∧ p ∈ (t.slot leaf).points) : t.Traced p id none where
  sound := by simp
  complete := fun hlisted => absurd hlisted h

omit [OrderedScalar α] in
theorem leaf (hl : (t.slot id).leaf = true) (hp : p ∈ (t.slot id).points)
    (hcon : (t.slot id).bound.contains (t.coordsAt p) = true) :
    t.Traced p id (some [id]) where
  sound := by
    intro way hw
    obtain rfl : [id] = way := by simpa using hw
    exact ⟨id, .leaf hl, hp, by simpa using hcon⟩
  complete := fun _ => rfl

omit [OrderedScalar α] in
theorem directory (hk : (t.slot id).OneKind) (hl : (t.slot id).leaf = false)
    (hcon : (t.slot id).bound.contains (t.coordsAt p) = true)
    {answer : NodeId → Option (List NodeId)}
    (hanswer : ∀ c ∈ (t.slot id).children, t.Traced p c (answer c)) :
    t.Traced p id (((t.slot id).children.findSome? answer).map (id :: ·)) where
  sound := by
    intro way hw
    obtain ⟨below, hbelow, rfl⟩ := Option.mem_map.mp hw
    obtain ⟨c, hc, hans⟩ := List.exists_of_findSome?_eq_some hbelow
    obtain ⟨leaf, hway, hp, hall⟩ := (hanswer c hc).sound below hans
    exact ⟨leaf, .down hc hway, hp, List.forall_mem_cons.mpr ⟨hcon, hall⟩⟩
  complete := by
    intro hlisted
    rw [Option.isSome_map, List.findSome?_isSome_iff]
    obtain ⟨c, hc, hlisted'⟩ := (listed_directory hk hl).mp hlisted
    exact ⟨c, hc, (hanswer c hc).complete hlisted'⟩

end Traced

theorem searchFrom_ok (h : t.Searchable lev nodes) {limit : Nat} {id : NodeId}
    (hid : nodes id) (hlim : lev id < limit) :
    ∃ found, t.searchFrom p (t.coordsAt p) limit id = .ok found ∧ t.Traced p id found := by
  induction limit generalizing id with
  | zero => omega
  | succ limit ih =>
    unfold searchFrom
    rw [bind_of_ok (node_eq (h.lt id hid))]
    cases hcon : (t.slot id).bound.contains (t.coordsAt p) with
    | false =>
      refine ⟨none, rfl, .none ?_⟩
      intro ⟨leaf, hb, hp⟩
      rw [h.contains_of_below hid hb hp] at hcon
      cases hcon
    | true =>
      cases hl : (t.slot id).leaf with
      | true =>
        by_cases hp : p ∈ (t.slot id).points
        · refine ⟨some [id], ?_, .leaf hl hp hcon⟩
          simp only [Bool.not_true, Bool.false_eq_true, if_false, if_true,
            List.contains_iff_mem.mpr hp]
          rfl
        · have hfalse : (t.slot id).points.contains p = false := by simpa using hp
          refine ⟨none, ?_, .none fun hlisted => ?_⟩
          · simp only [Bool.not_true, Bool.false_eq_true, if_false, if_true, hfalse]
            rfl
          · exact hp ((listed_leaf (h.oneKind id hid) hl).mp hlisted)
      | false =>
        have hkids : ∀ c ∈ (t.slot id).children, ∃ found,
            t.searchFrom p (t.coordsAt p) limit c = .ok found ∧ t.Traced p c found := by
          intro c hc
          obtain ⟨hcn, hlev⟩ := h.child id hid c hc
          exact ih hcn (by omega)
        choose! answer hanswer using hkids
        have hfind : (t.slot id).children.findSomeM? (t.searchFrom p (t.coordsAt p) limit) =
            .ok ((t.slot id).children.findSome? answer) :=
          findSomeM?_ok fun c hc => (hanswer c hc).1
        refine ⟨_, ?_, .directory (h.oneKind id hid) hl hcon fun c hc => (hanswer c hc).2⟩
        simp only [Bool.not_true, Bool.false_eq_true, if_false]
        rw [bind_of_ok hfind]
        rfl

/-- A listed point is found, through bounds that contain it. -/
theorem search_ok (h : t.Shaped lev extra none []) {leaf : NodeId}
    (hp : p ∈ (t.slot leaf).points) :
    ∃ way, t.search p (t.coordsAt p) = .ok (some way) ∧ t.Way t.root leaf way ∧
      ∀ x ∈ way, (t.slot x).bound.contains (t.coordsAt p) = true := by
  have hroot := h.linked.root
  obtain ⟨found, hrun, htraced⟩ :=
    searchFrom_ok (p := p) h.searchable hroot h.level_root_lt_limit
  have hb := h.linked.below_root (h.linked.inUse_of_mem_points hp)
  obtain ⟨way, hway⟩ := Option.isSome_iff_exists.mp (htraced.complete ⟨leaf, hb, hp⟩)
  obtain ⟨leaf', hw, hp', hall⟩ := htraced.sound way hway
  rw [eq_of_mem_points (h.registered.copies_le p) hp' hp] at hw
  exact ⟨way, hway ▸ hrun, hw, hall⟩

end Tree

namespace TreeM

open RTree.Tree

variable [Scalar α] [OrderedScalar α] {t : Tree α} {lev : NodeId → Nat} {extra : Option NodeId}

theorem leafOf?_ok (h : t.Shaped lev extra none []) {leaf : NodeId} {p : PointId}
    (hp : p ∈ (t.slot leaf).points) : (leafOf? p).run t = .ok (some leaf) t := by
  obtain ⟨way, hsearch, hway, -⟩ := search_ok h hp
  have hstored := (h.legible leaf).points p hp
  refine query_ok ?_
  have hget : t.store[p.index]? = some t.store[p.index] := Array.getElem?_eq_getElem hstored
  have hcoords : t.store[p.index].coords = t.coordsAt p := by simp [coordsAt, hget]
  simp only [hget, hcoords]
  rw [bind_of_ok hsearch]
  simp only [Option.bind_some, hway.getLast?_eq]
  rfl

end TreeM

end RTree
