import RTree.Proofs.Tree.Audit

/-!
In the course of a call the live points are not those that the leaves list: a new point is listed
before it is live, and points to be inserted again are live but not listed. This is all that the
audit finds broken then. The tree is compared with one in which the points listed are live.
-/

namespace RTree

variable {α : Type}

def Defect.concernsLiveSet : Defect α → Bool
  | removedPoint .. | missingPoints .. | wrongSize .. => true
  | _ => false

namespace Audit

/-- One walk has met what the other has, and has found nothing broken besides but live points. -/
structure Covered (a b : Audit α) : Prop where
  nodes : a.nodes = b.nodes
  points : ∀ p ∈ a.points, p ∈ b.points
  leafDepth : a.leafDepth = b.leafDepth
  defects : ∀ d ∈ a.report.defects, d.concernsLiveSet = false → d ∈ b.report.defects

variable {a a' b b' : Audit α} {x : NodeId}

namespace Covered

theorem refl (a : Audit α) : Covered a a := ⟨rfl, fun _ => id, rfl, fun _ hd _ => hd⟩

theorem add (h : Covered a b) (d : Defect α) : Covered (a.add [d]) (b.add [d]) where
  nodes := h.nodes
  points := h.points
  leafDepth := h.leafDepth
  defects := by
    intro d' hd hlive
    rcases List.mem_append.mp hd with hd | hd
    · exact List.mem_append_left _ (h.defects d' hd hlive)
    · exact List.mem_append_right _ hd

theorem add_right (h : Covered a b) (ds : List (Defect α)) : Covered a (b.add ds) where
  nodes := h.nodes
  points := h.points
  leafDepth := h.leafDepth
  defects := fun d hd hlive => List.mem_append_left _ (h.defects d hd hlive)

theorem add_left (h : Covered a b) {d : Defect α} (hd : d.concernsLiveSet = true) :
    Covered (a.add [d]) b where
  nodes := h.nodes
  points := h.points
  leafDepth := h.leafDepth
  defects := by
    intro d' hd' hlive
    rcases List.mem_append.mp hd' with hd' | hd'
    · exact h.defects d' hd' hlive
    · rw [List.mem_singleton.mp hd', hd] at hlive
      cases hlive

theorem flag (h : Covered a b) (broken : Bool) (d : Defect α) :
    Covered (a.flag broken d) (b.flag broken d) := by
  cases broken with
  | true => exact h.add d
  | false => exact h

theorem flag_right (h : Covered a b) (broken : Bool) (d : Defect α) :
    Covered a (b.flag broken d) := by
  cases broken with
  | true => exact h.add_right [d]
  | false => exact h

theorem flag_left (h : Covered a b) (broken : Bool) {d : Defect α}
    (hd : d.concernsLiveSet = true) : Covered (a.flag broken d) b := by
  cases broken with
  | true => exact h.add_left hd
  | false => exact h

/-- Only the defects of the reports are compared. -/
theorem report (h : Covered a b) {r r' : Findings α} (hr : r.defects = a.report.defects)
    (hr' : r'.defects = b.report.defects) :
    Covered { a with report := r } { b with report := r' } where
  nodes := h.nodes
  points := h.points
  leafDepth := h.leafDepth
  defects := by
    rw [hr, hr']
    exact h.defects

theorem checkFill (h : Covered a b) (isRoot : Bool) (x : NodeId)
    (entries minimum maximum : Nat) :
    Covered (a.checkFill isRoot x entries minimum maximum)
      (b.checkFill isRoot x entries minimum maximum) := by
  unfold Audit.checkFill
  split <;> split
  · exact (((h.report (by rfl) (by rfl)).add _).report (by rfl) (by rfl)).add _
  · exact (h.report (by rfl) (by rfl)).add _
  · exact (h.report (by rfl) (by rfl)).add _
  · exact h

theorem checkDepth (h : Covered a b) (x : NodeId) (depth : Nat) :
    Covered (a.checkDepth x depth) (b.checkDepth x depth) := by
  unfold Audit.checkDepth
  rw [← h.leafDepth]
  cases a.leafDepth with
  | none => exact ⟨h.nodes, h.points, rfl, h.defects⟩
  | some expected => exact h.flag _ _

end Covered

variable {t : Tree α} {store : Array (StoredPoint α)} {size : Nat}

/-- A listed point that is live in the other tree may be live in this one. -/
theorem Covered.checkPoint {u : Tree α} (h : Covered a b) (x : NodeId) {p : PointId}
    (hp : u.contains p = true) : Covered (checkPoint t x a p) (checkPoint u x b p) := by
  have hcount : Covered
      { a with report := { a.report with pointsReachable := a.report.pointsReachable + 1 } }
      { b with report := { b.report with pointsReachable := b.report.pointsReachable + 1 } } :=
    h.report (by rfl) (by rfl)
  unfold Audit.checkPoint
  simp only [hp, Bool.not_true, Bool.false_eq_true, if_false]
  by_cases hb : p ∈ b.points
  · rw [if_pos (List.contains_iff_mem.mpr hb)]
    split
    · exact (hcount.add_left rfl).add_right _
    · split
      · exact hcount.add _
      · refine ⟨h.nodes, fun q hq => ?_, h.leafDepth, fun d hd hlive => ?_⟩
        · rcases List.mem_cons.mp hq with rfl | hq
          · exact hb
          · exact h.points q hq
        · exact List.mem_append_left _ (h.defects d hd hlive)
  · rw [if_neg (fun hc => hb (List.contains_iff_mem.mp hc))]
    split
    · have hleft := hcount.add_left (d := .removedPoint p x) rfl
      exact ⟨hleft.nodes, fun q hq => List.mem_cons_of_mem p (hleft.points q hq), hleft.leafDepth,
        hleft.defects⟩
    · rw [if_neg (fun hc => hb (h.points p (List.contains_iff_mem.mp hc)))]
      exact ⟨h.nodes, fun q hq => List.mem_cons.mpr ((List.mem_cons.mp hq).imp_right (h.points q)),
        h.leafDepth, h.defects⟩

theorem Covered.foldl_checkPoint {u : Tree α} (x : NodeId) {points : List PointId}
    (hpoints : ∀ p ∈ points, u.contains p = true) (h : Covered a b) :
    Covered (points.foldl (Audit.checkPoint t x) a) (points.foldl (Audit.checkPoint u x) b) := by
  induction points generalizing a b with
  | nil => exact h
  | cons p points ih =>
    obtain ⟨hp, hrest⟩ := List.forall_mem_cons.mp hpoints
    exact ih hrest (h.checkPoint x hp)

/-- Walks over the same children go side by side when their steps do. -/
theorem Covered.foldlM {f g : Audit α → NodeId → Except (Failure α) (Audit α)}
    {children : List NodeId}
    (hstep : ∀ c ∈ children, ∀ a b b', Covered a b → g b c = .ok b' →
      ∃ a', f a c = .ok a' ∧ Covered a' b') (h : Covered a b)
    (hb : children.foldlM g b = .ok b') :
    ∃ a', children.foldlM f a = .ok a' ∧ Covered a' b' := by
  induction children generalizing a b with
  | nil =>
    cases hb
    exact ⟨a, rfl, h⟩
  | cons c children ih =>
    rw [List.foldlM_cons] at hb
    obtain ⟨b₁, hb₁, hb⟩ := bind_eq_ok.mp hb
    obtain ⟨a₁, ha₁, h₁⟩ := hstep c (by simp) a b b₁ h hb₁
    obtain ⟨a', ha', h'⟩ := ih (fun d hd => hstep d (by simp [hd])) h₁ hb
    exact ⟨a', by rw [List.foldlM_cons, bind_of_ok ha₁]; exact ha', h'⟩

variable [Scalar α]

open RTree.Tree

section Store

variable (ht : t.Readable) (hu : (t.withStore store size).Readable)
  (hcoords : ∀ p, (t.withStore store size).coordsAt p = t.coordsAt p)
  (hlisted : ∀ y, ∀ p ∈ (t.slot y).points, (t.withStore store size).contains p = true)

omit [Scalar α] in
theorem Covered.checkForm (h : Covered a b) (x : NodeId) :
    Covered (checkForm t x a) (Audit.checkForm (t.withStore store size) x b) :=
  (((h.flag _ _).checkFill _ _ _ _ _).flag _ _).flag _ _

include hcoords in
theorem hullOf_withStore (n : Node α) : (t.withStore store size).hullOf n = t.hullOf n := by
  have hrects : (t.withStore store size).rectsOf n = t.rectsOf n := by
    unfold rectsOf
    simp only [hcoords]
    rfl
  unfold hullOf
  rw [hrects]
  rfl

include ht hu hcoords hlisted

theorem Covered.checkNode (h : Covered a b) (x : NodeId) (depth : Nat)
    (hb : checkNode (t.withStore store size) x (t.slot x) depth b = .ok b') :
    ∃ a', Audit.checkNode t x (t.slot x) depth a = .ok a' ∧ Covered a' b' := by
  have hhull := hullOf_withStore hcoords (t.slot x)
  cases hl : (t.slot x).leaf with
  | true =>
    obtain rfl := Except.ok.inj ((checkNode_leaf hu hl depth b).symm.trans hb)
    refine ⟨_, checkNode_leaf ht hl depth a, ?_⟩
    rw [show (t.withStore store size).hullOf ((t.withStore store size).slot x) = _ from hhull]
    exact (Covered.foldl_checkPoint x (hlisted x)
      (((h.checkForm x).flag _ _).checkDepth x depth)).flag _ _
  | false =>
    obtain ⟨b₁, hb₁, hb⟩ := bind_eq_ok.mp ((checkNode_directory hu hl depth b).symm.trans hb)
    have hchild : ∀ c ∈ (t.slot x).children, ∀ a b b', Covered a b →
        checkChild (t.withStore store size) x b c = .ok b' →
          ∃ a', checkChild t x a c = .ok a' ∧ Covered a' b' := by
      intro c hc a b b' h hb
      have hnode : t.node c = .ok (t.slot c) := node_eq (ht.child x c hc)
      have hnode' : (t.withStore store size).node c = .ok (t.slot c) := hnode
      unfold checkChild at hb ⊢
      rw [bind_of_ok hnode'] at hb
      rw [bind_of_ok hnode]
      cases hb
      exact ⟨_, rfl, h.flag _ _⟩
    obtain ⟨a₁, ha₁, h₁⟩ := Covered.foldlM hchild ((h.checkForm x).flag _ _) hb₁
    refine ⟨_, (checkNode_directory ht hl depth a).trans (bind_of_ok ha₁ _), ?_⟩
    obtain rfl := Except.ok.inj hb
    rw [show (t.withStore store size).hullOf ((t.withStore store size).slot x) = _ from hhull]
    exact h₁.flag _ _

theorem Covered.visit {limit depth : Nat} (h : Covered a b) (hx : x.index < t.arena.size)
    (hb : visit (t.withStore store size) limit x depth b = .ok b') :
    ∃ a', Audit.visit t limit x depth a = .ok a' ∧ Covered a' b' := by
  induction limit generalizing x depth a b b' with
  | zero => cases hb
  | succ limit ih =>
    by_cases hmet : x ∈ b.nodes
    · obtain rfl := Except.ok.inj ((visit_met _ limit depth hmet).symm.trans hb)
      exact ⟨_, visit_met t limit depth (h.nodes ▸ hmet), (h.report (by rfl) (by rfl)).add _⟩
    · have hmeet : Covered (a.meet x) (b.meet x) :=
        ⟨congrArg (x :: ·) h.nodes, h.points, h.leafDepth, h.defects⟩
      obtain ⟨b₁, hb₁⟩ := examined hu x depth (b.meet x)
      obtain ⟨a₁, ha₁, h₁⟩ := hmeet.checkNode ht hu hcoords hlisted x depth hb₁.1
      have hb := (visit_first (t := t.withStore store size) hx hmet hb₁.1).symm.trans hb
      rw [visit_first hx (h.nodes ▸ hmet) ha₁]
      cases hl : (t.slot x).leaf with
      | true =>
        rw [show ((t.withStore store size).slot x).leaf = true from hl] at hb
        obtain rfl := Except.ok.inj hb
        exact ⟨a₁, rfl, h₁⟩
      | false =>
        rw [show ((t.withStore store size).slot x).leaf = false from hl] at hb
        refine Covered.foldlM (fun c hc a b b' h hb => ih h ?_ hb) h₁ hb
        exact ht.child x c (List.mem_reverse.mp hc)

end Store

end Audit

namespace Tree

open Audit

variable [Scalar α] {t : Tree α} {store : Array (StoredPoint α)} {size : Nat}

/-- What the audit finds broken, but for live points, it also finds with the other store. -/
theorem audit_withStore (ht : t.Readable) (hu : (t.withStore store size).Readable)
    (hcoords : ∀ p, (t.withStore store size).coordsAt p = t.coordsAt p)
    (hlisted : ∀ y, ∀ p ∈ (t.slot y).points, (t.withStore store size).contains p = true)
    {r : Findings α} (hr : (t.withStore store size).audit = .ok r) :
    ∃ r', t.audit = .ok r' ∧ ∀ d ∈ r'.defects, d.concernsLiveSet = false → d ∈ r.defects := by
  obtain ⟨root, hroot, hr⟩ := bind_eq_ok.mp hr
  obtain ⟨b, hb, hr⟩ := bind_eq_ok.mp hr
  have hroot' : t.node t.root = .ok root := hroot
  obtain ⟨a, ha, h⟩ := (Covered.refl _).visit ht hu hcoords hlisted ht.root hb
  obtain rfl := Except.ok.inj hr
  let missing := t.livePoints.countP fun p => !a.points.contains p
  have hleft := (h.flag_left (missing != 0) (d := .missingPoints missing) rfl)
  refine ⟨_, (bind_of_ok hroot' _).trans (bind_of_ok ha _), fun d hd hlive => ?_⟩
  have hd' := (hleft.flag_left _ rfl).defects d hd hlive
  exact (((Covered.refl b).flag_right _ _).flag_right _ _).defects d hd' hlive

def listedStore (t : Tree α) : Array (StoredPoint α) :=
  t.store.mapIdx fun i s => { s with live := decide (0 < t.copies ⟨i⟩) }

def relisted (t : Tree α) : Tree α :=
  t.withStore t.listedStore (t.listedStore.toList.countP StoredPoint.live)

omit [Scalar α] in
theorem coordsAt_relisted (p : PointId) : t.relisted.coordsAt p = t.coordsAt p := by
  unfold coordsAt relisted withStore listedStore
  simp only [Array.getElem?_mapIdx, Option.map_map]
  rfl

theorem Sound.contains_relisted (h : t.Sound) (p : PointId) :
    t.relisted.contains p = true ↔ 0 < t.copies p := by
  obtain ⟨lev, h⟩ := h
  have hstored := h.registered.stored p
  unfold contains relisted Tree.withStore listedStore
  simp only [Array.getElem?_mapIdx, Option.map_map]
  by_cases hp : p.index < t.store.size
  · simp [Array.getElem?_eq_getElem hp]
  · simp only [Array.getElem?_eq_none (Nat.le_of_not_lt hp), Option.map_none, Option.getD_none,
      Bool.false_eq_true, false_iff]
    exact fun hc => hp (hstored hc)

/-- A tree in order is settled once the points listed are live. -/
theorem Sound.settled_relisted (h : t.Sound) : t.relisted.Settled where
  sound := by
    have hsize : t.listedStore.size = t.store.size := Array.size_mapIdx
    apply h.withStore
    · exact fun p hp => ⟨hsize ▸ hp, coordsAt_relisted p⟩
    · intro p hp
      obtain ⟨lev, h⟩ := h
      have hfinite := h.registered.finite p (hsize ▸ hp)
      rwa [← coordsAt_relisted p] at hfinite
  copies := by
    intro p
    have hiff := h.contains_relisted p
    obtain ⟨lev, h⟩ := h
    have hle := h.registered.copies_le p
    change t.copies p = _
    split <;> rename_i hc <;> rw [hiff] at hc <;> omega
  size := rfl

/-- The audit of a tree in order finds nothing broken but live points. -/
theorem Sound.audit_ok [OrderedScalar α] (h : t.Sound) :
    ∃ r, t.audit = .ok r ∧ ∀ d ∈ r.defects, d.concernsLiveSet = true := by
  have hsettled := h.settled_relisted
  obtain ⟨r, hr, hvalid⟩ := Tree.audit_ok hsettled
  obtain ⟨r', hr', hdefects⟩ := audit_withStore h.readable hsettled.readable coordsAt_relisted
    (fun y p hp => (h.contains_relisted p).mpr
      (Nat.lt_of_lt_of_le (List.count_pos_iff.mpr hp) (t.count_points_le_copies y p))) hr
  refine ⟨r', hr', fun d hd => ?_⟩
  by_contra hlive
  have hmem := hdefects d hd (by simpa using hlive)
  rw [List.isEmpty_iff.mp hvalid] at hmem
  cases hmem

end Tree

end RTree
