import RTree.Proofs.Branching
import RTree.Proofs.Counters
import RTree.Proofs.Tree.LiveSet
import RTree.Proofs.Tree.Midway

namespace RTree

variable {α : Type} [Scalar α]

namespace Tree

structure Holds (t : Tree α) (x : NodeId) (p : PointId) : Prop where
  below : t.Below t.root x
  leaf : (t.slot x).leaf = true
  listed : p ∈ (t.slot x).points

/-- What a forced reinsertion of `count` points makes of a tree: all that is broken afterwards, if
anything is, is that other points are live than are listed. -/
structure Reinserted (t t' : Tree α) (count : Nat) : Prop where
  points : ∀ p, (∃ x, t'.Holds x p) ↔ ∃ x, t.Holds x p
  once : ∀ p x, t'.Holds x p → (t'.slot x).points.count p = 1 ∧ ∀ y, t'.Holds y p → y = x
  frame : SameFrame t t'
  forcedReinsertions : t'.stats.forcedReinsertions = t.stats.forcedReinsertions + 1
  reinsertedPoints : t'.stats.reinsertedPoints = t.stats.reinsertedPoints + count
  audit : ∃ r, t'.audit = .ok r ∧ ∀ d ∈ r.defects, d.concernsLiveSet = true

/-- If the leaf is to give points away, it has one too many, its level has not had its turn before
and has now; and all its points are in the tree again in the end, however many rounds there are for
insertions within the reinsertion. -/
def Recovers (t : Tree α) (leaf : NodeId) : Prop :=
  ∀ flags count flags', t.strategy.onLeaf t leaf flags = .ok (.reinsert count, flags') →
    (t.slot leaf).points.length = t.config.maxLeafSize + 1 ∧ t.level leaf = .ok 0 ∧
      0 ∉ flags.used ∧ 0 ∈ flags'.used ∧
      ∀ rounds, ∃ flags'' t',
        (TreeM.reinsertFarthest (TreeM.insertWithin t.strategy (rounds + 1)) leaf count
          flags').run t = .ok flags'' t' ∧ t.Reinserted t' count

variable {t t' : Tree α} {lev : NodeId → Nat} {leaf : NodeId}

theorem Shaped.exists_holds_iff {extra lack : Option NodeId} (h : t.Shaped lev extra lack [])
    {p : PointId} : (∃ x, t.Holds x p) ↔ 0 < t.copies p := by
  constructor
  · intro ⟨x, hx⟩
    exact Nat.lt_of_lt_of_le (List.count_pos_iff.mpr hx.listed) (t.count_points_le_copies x p)
  · intro hp
    obtain ⟨x, hx⟩ := exists_mem_points hp
    exact ⟨x, h.linked.below_root (h.linked.inUse_of_mem_points hx),
      h.linked.leaf_of_mem_points hx, hx⟩

theorem Shaped.holds_once {extra lack : Option NodeId} (h : t.Shaped lev extra lack [])
    {p : PointId} {x : NodeId} (hx : t.Holds x p) :
    (t.slot x).points.count p = 1 ∧ ∀ y, t.Holds y p → y = x := by
  have hle := h.registered.copies_le p
  have h1 := t.count_points_le_copies x p
  have h2 := List.count_pos_iff.mpr hx.listed
  exact ⟨by omega, fun y hy => eq_of_mem_points hle hy.listed hx.listed⟩

variable [OrderedScalar α]

theorem Overfull.recovers (h : t.Overfull lev leaf) (hl : (t.slot leaf).leaf = true)
    (hsize : t.relief = t.config.reinsertionSize) : t.Recovers leaf := by
  intro flags count flags' hd
  obtain ⟨decision, flags₁, hd', hfair, -⟩ := onLeaf_ok h.shaped h.inUse hl h.full flags
  rw [hd] at hd'
  cases hd'
  have hlevel := h.shaped.level_ok h.inUse
  rw [(h.shaped.linked.leaf_iff leaf h.inUse).mp hl] at hlevel
  have ⟨hcount, _, _, hfresh, hused⟩ := hfair
  refine ⟨h.length_points hl, hlevel, hfresh, hused, fun rounds => ?_⟩
  obtain ⟨es, flags'', t', hrun, ⟨lev', hshaped'⟩, hsteps, hone, -, huniform, hcopies, -⟩ :=
    TreeM.reinsertFarthest_ok (TreeM.insertWithin_reinserts_spent α rounds) h hl hfair
  refine ⟨flags'', t', hrun t.strategy (Strategy.serves_self t), fun p => ?_,
    fun p x => hshaped'.holds_once, hsteps.frame, ?_, ?_, Sound.audit_ok ⟨lev', hshaped'⟩⟩
  · rw [hshaped'.exists_holds_iff, h.shaped.exists_holds_iff, hcopies]
  · rw [hsteps.forcedReinsertions, hone]
  · rw [hsteps.reinsertedPoints huniform, hone, Nat.one_mul, hsize, hcount]

/-- Every leaf that a strategy may be asked about recovers from a forced reinsertion. So a strategy
that would refuse to decide about any other makes every run as the variant's own does. -/
theorem reinsertions_recover {c : Config Float} {t₀ : Tree Float} (h : Tree.new c = .ok t₀) :
    (∀ (t : Tree Float) (leaf : NodeId), t.Asked c leaf → (t.slot leaf).leaf = true →
      t.Recovers leaf) ∧
      ∀ (refusal : Failure Float) (ks : List (Call Float)),
        t₀.callsBy (c.variant.strategy.guarded Recovers (fun _ _ => True) refusal) ks =
          t₀.calls ks := by
  obtain ⟨hvalid, rfl⟩ := new_eq_ok.mp h
  have hrecovers : ∀ (t : Tree Float) (leaf : NodeId), t.Asked c leaf →
      (t.slot leaf).leaf = true → t.Recovers leaf := by
    intro t leaf ht hl
    obtain ⟨lev, hover⟩ := ht.overfull hvalid
    apply hover.recovers hl
    apply relief_eq
    rw [ht.midway.config hvalid]
    exact hvalid
  exact ⟨hrecovers, fun refusal ks =>
    callsBy_guarded hvalid hrecovers (fun _ _ _ _ => trivial) refusal ks⟩

/-- How many points a leaf is to give away, if it is, and the flags left. -/
def given? : Except (Failure α) (LeafDecision α × LevelFlags) → Option (Nat × LevelFlags)
  | .ok (.reinsert count, flags) => some (count, flags)
  | _ => none

omit [Scalar α] [OrderedScalar α] in
theorem eq_of_given? {answer : Except (Failure α) (LeafDecision α × LevelFlags)} {count : Nat}
    {flags : LevelFlags} (h : given? answer = some (count, flags)) :
    answer = .ok (.reinsert count, flags) := by
  obtain cause | ⟨decision, left⟩ := answer
  · cases h
  · cases decision with
    | reinsert => cases h; rfl
    | partition => cases h

def nine : List (Call Float) := [17, 0, 2, 20, 11, 20, 1, 13, 16].map (.insert [·])

/-- Nine points in two leaves, and a tenth that has just come into one of them. -/
def tenth : Tree Float := ((ofConfig thin).calls nine).2.dropped [10]

/-- The leaf has to give away four of its six points and to keep three. It is dissolved. -/
theorem reinsertions_recover_thin :
    ∃ flags t', (TreeM.reinsertFarthest (TreeM.insertWithin tenth.strategy 1) ⟨2⟩ 4
        ⟨[0]⟩).run tenth = .ok flags t' ∧ tenth.Reinserted t' 4 ∧
      (tenth.slot ⟨2⟩).points.length = 6 ∧ (t'.slot ⟨2⟩).retired = true := by
  have hasked : tenth.Asked thin ⟨2⟩ := by
    refine ⟨Midway.dropped rfl nine ⟨rfl, by decide +kernel⟩, .single ?_, ?_, ?_⟩ <;> decide +kernel
  have hleaf : (tenth.slot ⟨2⟩).leaf = true := by decide +kernel
  have hd : tenth.strategy.onLeaf tenth ⟨2⟩ .fresh = .ok (.reinsert 4, ⟨[0]⟩) := by
    apply eq_of_given?
    decide +kernel
  obtain ⟨-, -, -, -, hrun⟩ :=
    (reinsertions_recover (c := thin) rfl).1 tenth ⟨2⟩ hasked hleaf .fresh 4 ⟨[0]⟩ hd
  obtain ⟨flags, t', hrun, hre⟩ := hrun 0
  have hafter : (TreeM.reinsertFarthest (TreeM.insertWithin tenth.strategy 1) ⟨2⟩ 4
      ⟨[0]⟩).after tenth = t' := TreeM.after_ok hrun
  have hretired : (((TreeM.reinsertFarthest (TreeM.insertWithin tenth.strategy 1) ⟨2⟩ 4
      ⟨[0]⟩).after tenth).slot ⟨2⟩).retired = true := by decide +kernel
  rw [hafter] at hretired
  exact ⟨flags, t', hrun, hre, by decide +kernel, hretired⟩

end Tree

end RTree
