import RTree.Proofs.Tree.Calls
import RTree.Proofs.Scalar.Binary64
import RTree.Proofs.Tree.Audit
import RTree.Proofs.Tree.Within

namespace RTree

variable {α : Type} [Scalar α]

namespace Tree

/-- Live points are found, and no others. -/
structure Answers (t : Tree α) : Prop where
  path : ∀ p, t.contains p = true → ∃ leaf way, t.path? p = .ok (some way) ∧
    t.Way t.root leaf way ∧ p ∈ (t.slot leaf).points
  absent : ∀ p, t.contains p = false → t.path? p = .ok none
  within : ∀ q : Rectangle α, q.dim = t.dim →
    t.within q = .ok (t.livePoints.filter fun p => q.contains (t.coordsAt p))

variable {t : Tree α}

theorem path?_of_not_contains {p : PointId} (h : t.contains p = false) : t.path? p = .ok none := by
  have hnone : t.point? p = none := by
    rw [contains_eq_isSome] at h
    exact Option.isSome_eq_false_iff.mp h |> Option.isNone_iff_eq_none.mp
  unfold path?
  rw [hnone]
  rfl

/-- The number that a tree gives for its points has no part in how it is arranged. -/
theorem Arranged.withSize (h : t.Arranged) (n : Nat) :
    ({ t with size := n } : Tree α).Arranged := by
  let t' : Tree α := { t with size := n }
  have hfollow : ∀ route, t'.follow route = t.follow route := by
    intro route
    induction route with
    | nil => rfl
    | cons place route ih =>
      unfold follow
      rw [ih]
      rfl
  let old : t'.Stop → t.Stop := fun x => ⟨x.route, x.node, hfollow x.route ▸ x.leads⟩
  refine
    { root_parent := h.root_parent, once := fun x y => h.once (old x) (old y)
      depth := ?_, fit := ?_, hull := fun x => h.hull (old x), listed := ?_
      apart := fun x y => h.apart (old x) (old y) }
  · obtain ⟨d, hd⟩ := h.depth
    exact ⟨d, fun x => hd (old x)⟩
  · intro x
    obtain ⟨⟨h1, h2, h3, h4, h5⟩, h6, h7, h8, h9⟩ := h.fit (old x)
    exact ⟨⟨h1, h2, h3, h4, h5⟩, h6, h7, h8, h9⟩
  · intro p hp
    obtain ⟨x, hx⟩ := h.listed p hp
    exact ⟨⟨x.route, x.node, (hfollow x.route).trans x.leads⟩, hx⟩

variable [OrderedScalar α]

theorem Consistent.answers (h : t.Readable) (hc : t.Consistent) : t.Answers where
  path := fun _ hp => hc.path_ok h hp
  absent := fun _ => path?_of_not_contains
  within := fun _ hq => hc.within_ok h hq

/-- The audit of any tree comes to an end, and finds nothing broken exactly when nothing is. -/
theorem audit_decides (h : t.Readable) :
    ∃ r, t.audit = .ok r ∧ (r.isValid = true ↔ t.Consistent) ∧ (r.isValid = true → t.Answers) := by
  obtain ⟨r, hrun, hvalid⟩ := exists_audit h
  exact ⟨r, hrun, hvalid, fun hr => (hvalid.mp hr).answers h⟩

/-- A root that is its own child, beside a leaf with one point. -/
def circle : Tree Float :=
  { ofConfig default with
    arena := #[{ Node.new false 2 none 5 with children := [⟨0⟩, ⟨1⟩] },
      { Node.new true 2 (some ⟨0⟩) 5 with points := [⟨0⟩] }]
    store := #[⟨[1.5, -2], true⟩]
    size := 1 }

theorem audit_decides_circle : ∃ r, circle.audit = .ok r ∧
    (r.isValid = true ↔ circle.Consistent) ∧ (r.isValid = true → circle.Answers) := by
  apply audit_decides
  constructor
  · decide
  · rintro ⟨_ | _ | i⟩ c hc
    · have : c = ⟨0⟩ ∨ c = ⟨1⟩ := by simpa [slot, circle] using hc
      rcases this with rfl | rfl <;> decide
    · cases hc
    · cases hc
  · rintro ⟨_ | _ | i⟩ p ⟨hl, hp⟩
    · cases hl
    · obtain rfl : p = ⟨0⟩ := by simpa [slot, circle] using hp
      decide
    · cases hp
  · rintro ⟨i⟩ hi
    obtain rfl : i = 0 := Nat.lt_one_iff.mp hi
    refine ⟨rfl, ?_⟩
    decide +kernel

/-- The empty tree, said to have five points. -/
def miscounted : Tree Float := { ofConfig default with size := 5 }

/-- All is well arranged in a tree that the audit refuses for the number of its points. -/
theorem arranged_miscounted : miscounted.config.validate = .ok () ∧ miscounted.Readable ∧
    (∀ x, x.index < miscounted.arena.size → (miscounted.slot x).bound.dim = miscounted.dim) ∧
    miscounted.Arranged ∧ ∃ r, miscounted.audit = .ok r ∧ r.isValid = false := by
  have hsettled : (ofConfig (default : Config Float)).Settled :=
    settled_new (c := default) rfl
  have hread : miscounted.Readable := by
    obtain ⟨h1, h2, h3, h4⟩ := hsettled.readable
    exact ⟨h1, h2, h3, h4⟩
  have hdim : ∀ x : NodeId, x.index < miscounted.arena.size →
      (miscounted.slot x).bound.dim = miscounted.dim := by
    rintro ⟨i⟩ hi
    obtain rfl : i = 0 := Nat.lt_one_iff.mp hi
    rfl
  refine ⟨rfl, hread, hdim, hsettled.consistent.toArranged.withSize 5, ?_⟩
  obtain ⟨r, hrun, hvalid⟩ := exists_audit hread
  refine ⟨r, hrun, ?_⟩
  by_contra hr
  have hsize : 5 = 0 := (hvalid.mp (by simpa using hr)).size
  cases hsize

end Tree

end RTree
