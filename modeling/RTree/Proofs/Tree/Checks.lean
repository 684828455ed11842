import RTree.Proofs.Tree.Stops
import RTree.Tree.Audit

namespace RTree

variable {α : Type}

namespace Audit

open RTree.Tree

def Clean (a : Audit α) : Prop := a.report.defects = []

/-- A check that writes to the report only, and finds nothing broken where `sound` holds. -/
structure Checked (a a' : Audit α) (sound : Prop) : Prop where
  nodes : a'.nodes = a.nodes
  points : a'.points = a.points
  leafDepth : a'.leafDepth = a.leafDepth
  clean : a'.Clean ↔ a.Clean ∧ sound

/-- A node has been checked, its points have been listed, and if it is a leaf, its depth has been
compared with that of leaves before. -/
structure Examined [Scalar α] (t : Tree α) (x : NodeId) (depth : Nat) (a a' : Audit α) :
    Prop where
  nodes : a'.nodes = a.nodes
  points : ∀ p, p ∈ a'.points ↔ p ∈ a.points ∨ t.contains p = true ∧ t.Lists x p
  nodup : a.points.Nodup → a'.points.Nodup
  leafDepth : a'.leafDepth =
    if (t.slot x).leaf then some (a.leafDepth.getD depth) else a.leafDepth
  clean : a'.Clean ↔ a.Clean ∧ t.Fit x ∧ (t.hullOf (t.slot x) == (t.slot x).bound) = true ∧
    ((t.slot x).leaf = true → ∀ d ∈ a.leafDepth, d = depth) ∧ ∀ p, t.Lists x p → p ∉ a.points

variable {t : Tree α} {a b c : Audit α} {x : NodeId} {sound sound' : Prop}

namespace Checked

theorem refl (a : Audit α) : Checked a a True := ⟨rfl, rfl, rfl, by simp⟩

theorem trans (h : Checked a b sound) (h' : Checked b c sound') : Checked a c (sound ∧ sound') where
  nodes := h'.nodes.trans h.nodes
  points := h'.points.trans h.points
  leafDepth := h'.leafDepth.trans h.leafDepth
  clean := by rw [h'.clean, h.clean, and_assoc]

theorem congr (h : Checked a b sound) (hs : sound ↔ sound') : Checked a b sound' :=
  ⟨h.nodes, h.points, h.leafDepth, h.clean.trans (and_congr_right' hs)⟩

end Checked

@[simp] theorem not_clean_add (a : Audit α) (d : Defect α) (ds : List (Defect α)) :
    ¬ (a.add (d :: ds)).Clean := by simp [Clean, add]

theorem checked_flag (a : Audit α) (broken : Bool) (d : Defect α) :
    Checked a (a.flag broken d) (broken = false) := by
  cases broken with
  | false => exact (Checked.refl a).congr (by simp)
  | true => exact ⟨rfl, rfl, rfl, by simp [flag]⟩

theorem checked_checkFill (a : Audit α) (isRoot : Bool) (x : NodeId)
    (entries minimum maximum : Nat) :
    Checked a (a.checkFill isRoot x entries minimum maximum)
      (entries ≤ maximum ∧ (isRoot = false → minimum ≤ entries)) := by
  have hupper : ∀ a : Audit α, Checked a
      (if maximum < entries then
        { a with report := { a.report with overfull := a.report.overfull ++ [x] } }.add
          [.overfull x entries maximum]
      else a) (entries ≤ maximum) := by
    intro a
    split
    · exact ⟨rfl, rfl, rfl, by simp; omega⟩
    · exact (Checked.refl a).congr (by simp; omega)
  have hlower : ∀ a : Audit α, Checked a
      (if !isRoot && decide (entries < minimum) then
        { a with report := { a.report with underfull := a.report.underfull ++ [x] } }.add
          [.underfull x entries minimum]
      else a) (isRoot = false → minimum ≤ entries) := by
    intro a
    split
    · refine ⟨rfl, rfl, rfl, ?_⟩
      simp_all
    · refine (Checked.refl a).congr ?_
      simp_all
  exact (hupper a).trans (hlower _)

theorem checked_foldlM_checkChild {children : List NodeId}
    (h : ∀ c ∈ children, c.index < t.arena.size) (a : Audit α) :
    ∃ a', children.foldlM (checkChild t x) a = .ok a' ∧
      Checked a a' (∀ c ∈ children, (t.slot c).parent = some x) := by
  induction children generalizing a with
  | nil => exact ⟨a, rfl, (Checked.refl a).congr (by simp)⟩
  | cons c children ih =>
    have hc : checkChild t x a c =
        .ok (a.flag ((t.slot c).parent != some x) (.strayChild c x)) := by
      unfold checkChild
      rw [bind_of_ok (node_eq (h c (by simp)))]
      rfl
    obtain ⟨a', hrun, hrest⟩ := ih (fun d hd => h d (by simp [hd]))
      (a.flag ((t.slot c).parent != some x) (.strayChild c x))
    refine ⟨a', ?_, ((checked_flag a _ _).trans hrest).congr (by simp)⟩
    rw [List.foldlM_cons, bind_of_ok hc]
    exact hrun

structure Leveled (depth : Nat) (a a' : Audit α) : Prop where
  nodes : a'.nodes = a.nodes
  points : a'.points = a.points
  leafDepth : a'.leafDepth = some (a.leafDepth.getD depth)
  clean : a'.Clean ↔ a.Clean ∧ ∀ d ∈ a.leafDepth, d = depth

theorem leveled_checkDepth (a : Audit α) (x : NodeId) (depth : Nat) :
    Leveled depth a (a.checkDepth x depth) := by
  unfold checkDepth
  cases hd : a.leafDepth with
  | none => exact ⟨rfl, rfl, by simp [hd], by simp [hd, Clean]⟩
  | some d =>
    have h := checked_flag a (depth != d) (.unevenLeaf x depth d)
    refine ⟨h.nodes, h.points, by simp [h.leafDepth, hd], h.clean.trans (and_congr_right' ?_)⟩
    rw [hd, bne_eq_false_iff_eq]
    exact ⟨fun he e hm => (Option.some.inj hm).symm.trans he.symm, fun h => (h d rfl).symm⟩

/-- Some points have been listed, but for those that are not live or were listed before. -/
structure Listed (t : Tree α) (ps : List PointId) (a a' : Audit α) : Prop where
  nodes : a'.nodes = a.nodes
  leafDepth : a'.leafDepth = a.leafDepth
  points : ∀ p, p ∈ a'.points ↔ p ∈ a.points ∨ t.contains p = true ∧ p ∈ ps
  nodup : a.points.Nodup → a'.points.Nodup
  clean : a'.Clean ↔ a.Clean ∧ (∀ p ∈ ps, t.contains p = true) ∧ ps.Nodup ∧
    ∀ p ∈ ps, p ∉ a.points

theorem listed_checkPoint (x : NodeId) (a : Audit α) (p : PointId) :
    Listed t [p] a (checkPoint t x a p) := by
  have hiff : ∀ q, t.contains q = true ∧ q ∈ [p] ↔ q = p ∧ t.contains p = true := by
    intro q
    rw [List.mem_singleton, and_comm]
    exact and_congr_right fun he => by rw [he]
  unfold checkPoint
  cases hlive : t.contains p with
  | false =>
    refine ⟨rfl, rfl, fun q => ?_, id, by simp [hlive]⟩
    rw [hiff, hlive]
    simp [add]
  | true =>
    by_cases hp : p ∈ a.points
    · have htrue : a.points.contains p = true := by simpa using hp
      simp only [Bool.not_true, Bool.false_eq_true, if_false, htrue, if_true]
      refine ⟨rfl, rfl, fun q => ?_, id, by simp [hp]⟩
      rw [hiff]
      exact ⟨.inl, fun h => h.elim id fun he => he.1 ▸ hp⟩
    · have hfalse : a.points.contains p = false := by simpa using hp
      simp only [Bool.not_true, Bool.false_eq_true, if_false, hfalse]
      refine ⟨rfl, rfl, fun q => ?_, List.nodup_cons.mpr ∘ .intro hp, by simp [hlive, hp, Clean]⟩
      rw [hiff, hlive, List.mem_cons]
      simp [or_comm]

theorem Listed.cons {p : PointId} {ps : List PointId} (h : Listed t [p] a b)
    (h' : Listed t ps b c) : Listed t (p :: ps) a c where
  nodes := h'.nodes.trans h.nodes
  leafDepth := h'.leafDepth.trans h.leafDepth
  points := by
    intro q
    rw [h'.points, h.points, or_assoc, ← and_or_left, List.mem_singleton, List.mem_cons]
  nodup := fun hn => h'.nodup (h.nodup hn)
  clean := by
    have hnew : (∀ q ∈ ps, q ∉ b.points) ↔
        (∀ q ∈ ps, q ∉ a.points) ∧ (t.contains p = true → p ∉ ps) := by
      constructor
      · intro hb
        refine ⟨fun q hq hqa => hb q hq ((h.points q).mpr (.inl hqa)), fun hp hm => ?_⟩
        exact hb p hm ((h.points p).mpr (.inr ⟨hp, by simp⟩))
      · rintro ⟨ha, hm⟩ q hq hqb
        rcases (h.points q).mp hqb with hqa | ⟨hlive, he⟩
        · exact ha q hq hqa
        · obtain rfl := List.mem_singleton.mp he
          exact hm hlive hq
    rw [h'.clean, h.clean, hnew]
    simp only [List.forall_mem_cons, List.nodup_cons, List.not_mem_nil, not_false_eq_true,
      List.nodup_nil, false_imp_iff, and_true, true_and]
    tauto

/-- Points are listed once they are known to be live and new. -/
theorem listed_foldl_checkPoint (x : NodeId) (ps : List PointId) (a : Audit α) :
    Listed t ps a (ps.foldl (checkPoint t x) a) := by
  induction ps generalizing a with
  | nil => exact ⟨rfl, rfl, by simp, id, by simp⟩
  | cons p ps ih => exact (listed_checkPoint x a p).cons (ih _)

/-- The checks that do not depend on the kind of node. -/
def checkForm (t : Tree α) (x : NodeId) (a : Audit α) : Audit α :=
  let n := t.slot x
  let a := a.flag n.retired (.retiredInUse x)
  let a := a.checkFill (decide (x = t.root)) x n.entryCount (t.minimumFill n) (t.room n)
  let a := a.flag (decide (x = t.root) && !n.leaf && n.children.isEmpty) (.childlessRoot x)
  a.flag (t.config.variant != .xTree && !n.leaf && n.capacity != t.config.maxChildren)
    (.foreignCapacity x n.capacity)

theorem checked_checkForm (t : Tree α) (x : NodeId) (a : Audit α) :
    Checked a (checkForm t x a) (t.WithinLimits x) := by
  unfold checkForm
  refine (((checked_flag _ _ _).trans (checked_checkFill _ _ _ _ _ _)).trans
    (checked_flag _ _ _)).trans (checked_flag _ _ _) |>.congr ?_
  constructor
  · rintro ⟨⟨⟨h1, h2, h3⟩, h4⟩, h5⟩
    exact ⟨h1, h2, by simpa using h3, by simpa using h4, by simpa using h5⟩
  · rintro ⟨h1, h2, h3, h4, h5⟩
    exact ⟨⟨⟨h1, h2, by simpa using h3⟩, by simpa using h4⟩, by simpa using h5⟩

variable [Scalar α]

theorem tightBound_readable (h : t.Readable) (x : NodeId) :
    t.tightBound (t.slot x) = .ok (t.hullOf (t.slot x)) := by
  apply tightBound_eq
  cases hl : (t.slot x).leaf with
  | true => exact entryRects_leaf hl fun p hp => h.point x p ⟨hl, hp⟩
  | false => exact entryRects_directory hl (h.child x)

theorem checkNode_leaf (h : t.Readable) (hl : (t.slot x).leaf = true) (depth : Nat)
    (a : Audit α) :
    checkNode t x (t.slot x) depth a = .ok
      (((t.slot x).points.foldl (checkPoint t x)
        (((checkForm t x a).flag (!(t.slot x).children.isEmpty) (.leafWithChildren x)).checkDepth
          x depth)).flag (!(t.hullOf (t.slot x) == (t.slot x).bound))
            (.looseBound x (t.slot x).bound (t.hullOf (t.slot x)))) := by
  unfold checkNode checkForm minimumFill room
  simp only [hl, if_true, pure_bind]
  rw [bind_of_ok (tightBound_readable h x)]
  rfl

theorem checkNode_directory (h : t.Readable) (hl : (t.slot x).leaf = false) (depth : Nat)
    (a : Audit α) :
    checkNode t x (t.slot x) depth a = (do
      let a ← (t.slot x).children.foldlM (checkChild t x)
        ((checkForm t x a).flag (!(t.slot x).points.isEmpty) (.directoryWithPoints x))
      return a.flag (!(t.hullOf (t.slot x) == (t.slot x).bound))
        (.looseBound x (t.slot x).bound (t.hullOf (t.slot x)))) := by
  unfold checkNode checkForm minimumFill room
  simp only [hl, Bool.false_eq_true, if_false, tightBound_readable h x]
  rfl

theorem examined_leaf (h : t.Readable) (hl : (t.slot x).leaf = true) (depth : Nat)
    (a : Audit α) : ∃ a', checkNode t x (t.slot x) depth a = .ok a' ∧ Examined t x depth a a' := by
  have hform := (checked_checkForm t x a).trans
    (checked_flag _ (!(t.slot x).children.isEmpty) (.leafWithChildren x))
  have hdepth := leveled_checkDepth
    ((checkForm t x a).flag (!(t.slot x).children.isEmpty) (.leafWithChildren x)) x depth
  have hpoints := listed_foldl_checkPoint (t := t) x (t.slot x).points
    (((checkForm t x a).flag (!(t.slot x).children.isEmpty) (.leafWithChildren x)).checkDepth
      x depth)
  refine ⟨_, checkNode_leaf h hl depth a, ?_⟩
  generalize (checkForm t x a).flag _ _ = a₁ at *
  generalize a₁.checkDepth x depth = a₂ at *
  generalize List.foldl _ a₂ _ = a₃ at *
  have hbound := checked_flag a₃ (!(t.hullOf (t.slot x) == (t.slot x).bound))
    (.looseBound x (t.slot x).bound (t.hullOf (t.slot x)))
  have hlists : ∀ p, t.Lists x p ↔ p ∈ (t.slot x).points := fun p => and_iff_right hl
  have hfit : t.Fit x ↔ t.WithinLimits x ∧ (t.slot x).children = [] ∧
      (∀ p ∈ (t.slot x).points, t.contains p = true) ∧ (t.slot x).points.Nodup := by
    constructor
    · intro hf
      exact ⟨hf.toWithinLimits, hf.oneKind.leaf hl, fun p hp => hf.live p ⟨hl, hp⟩, hf.nodup hl⟩
    · rintro ⟨hw, hc, hlive, hnodup⟩
      refine ⟨hw, ⟨fun _ => hc, fun hn => ?_⟩, by simp [hc], fun p hp => hlive p hp.2,
        fun _ => hnodup⟩
      rw [hl] at hn
      cases hn
  constructor
  · rw [hbound.nodes, hpoints.nodes, hdepth.nodes, hform.nodes]
  · intro p
    rw [hbound.points, hpoints.points, hdepth.points, hform.points, hlists]
  · intro hn
    rw [hbound.points]
    exact hpoints.nodup (by rwa [hdepth.points, hform.points])
  · rw [hbound.leafDepth, hpoints.leafDepth, hdepth.leafDepth, hform.leafDepth, if_pos hl]
  · rw [hbound.clean, hpoints.clean, hdepth.clean, hform.clean, hdepth.points, hform.points,
      hform.leafDepth, hfit]
    simp only [hlists, hl, true_imp_iff, Bool.not_eq_false', List.isEmpty_iff]
    tauto

theorem examined_directory (h : t.Readable) (hl : (t.slot x).leaf = false) (depth : Nat)
    (a : Audit α) : ∃ a', checkNode t x (t.slot x) depth a = .ok a' ∧ Examined t x depth a a' := by
  have hform := (checked_checkForm t x a).trans
    (checked_flag _ (!(t.slot x).points.isEmpty) (.directoryWithPoints x))
  obtain ⟨a₂, hrun, hparents⟩ := checked_foldlM_checkChild (x := x) (h.child x)
    ((checkForm t x a).flag (!(t.slot x).points.isEmpty) (.directoryWithPoints x))
  have hall := (hform.trans hparents).trans
    (checked_flag a₂ (!(t.hullOf (t.slot x) == (t.slot x).bound))
      (.looseBound x (t.slot x).bound (t.hullOf (t.slot x))))
  have hlists : ∀ p, ¬ t.Lists x p := by
    rintro p ⟨hleaf, -⟩
    rw [hl] at hleaf
    cases hleaf
  have hfit : t.Fit x ↔ t.WithinLimits x ∧ (t.slot x).points = [] ∧
      ∀ c ∈ (t.slot x).children, (t.slot c).parent = some x := by
    constructor
    · exact fun hf => ⟨hf.toWithinLimits, hf.oneKind.directory hl, hf.parent⟩
    · rintro ⟨hw, hp, hparent⟩
      exact ⟨hw, ⟨by simp [hl], fun _ => hp⟩, hparent, fun p hp => absurd hp (hlists p),
        by simp [hl]⟩
  refine ⟨_, ?_, hall.nodes, ?_, ?_, ?_, ?_⟩
  · rw [checkNode_directory h hl, bind_of_ok hrun]
    rfl
  · intro p
    simp [hall.points, hlists]
  · rw [hall.points]
    exact id
  · rw [hall.leafDepth, hl]
    rfl
  · rw [hall.clean, hfit]
    simp only [hl, hlists, Bool.not_eq_false', List.isEmpty_iff]
    tauto

/-- A node passes the checks when it is fit, its bound is the least one, and it goes together with
the leaves before. -/
theorem examined (h : t.Readable) (x : NodeId) (depth : Nat) (a : Audit α) :
    ∃ a', checkNode t x (t.slot x) depth a = .ok a' ∧ Examined t x depth a a' := by
  cases hl : (t.slot x).leaf with
  | true => exact examined_leaf h hl depth a
  | false => exact examined_directory h hl depth a

end Audit

end RTree
