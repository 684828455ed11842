import RTree.Proofs.Runs
import RTree.Proofs.Tree.Lockstep

namespace RTree

variable {α : Type}

def Call.raise (k : Nat) : Call α → Call α
  | insert p => insert p
  | remove id => remove (id.raise k)
  | clear => clear

def Answer.raise (k : Nat) : Answer α → Answer α
  | inserted id => inserted (id.raise k)
  | a => a

namespace Tree

variable [Scalar α] {t u : Tree α} {o : Offset α}

theorem run_insert (t : Tree α) (p : List α) :
    (TreeM.insert p).run t = (TreeM.insertBy t.strategy p).run t := by
  unfold TreeM.insert
  rw [TreeM.get_bind]

theorem run_remove (t : Tree α) (id : PointId) :
    (TreeM.remove id).run t = (TreeM.removeBy t.strategy id).run t := by
  unfold TreeM.remove
  rw [TreeM.get_bind]

variable [OrderedScalar α]

/-- One call on a tree does not undo straying, and on an echo of the tree it does the same. -/
theorem call_mirrored {s' : Strategy α} (hs : Strategy.Echo o t.strategy s') (ht : t.Settled)
    (c : Call α) :
    (t.Strayed → (t.call c).2.Strayed) ∧ ∀ u : Tree α, u.strategy = s' → Echo o t u →
      ¬o.alike ∧ (t.call c).2.Strayed ∨
        (u.call (c.raise o.store.size)).1 = (t.call c).1.raise o.store.size ∧
          Echo o (t.call c).2 (u.call (c.raise o.store.size)).2 := by
  cases c with
  | insert p =>
    cases ha : t.acceptPoint p with
    | error cause =>
      rw [call_insert_refused ha]
      refine ⟨id, fun u _ h => .inr ?_⟩
      rw [Call.raise, call_insert_refused ((h.acceptPoint p).trans ha)]
      exact ⟨rfl, h⟩
    | ok _ =>
      obtain ⟨es, t', hrun, -⟩ := TreeM.insert_ok ht (acceptPoint_eq_ok.mp ha)
      have hm := TreeM.mirrors_insertBy hs p
      rw [call_insert_ok hrun]
      rw [run_insert] at hrun
      refine ⟨fun hstrayed => hm.stays hstrayed hrun, fun u hu h => ?_⟩
      refine (hm.agrees h hrun).imp_right fun ⟨u', hrun', h'⟩ => ?_
      rw [← hu, ← run_insert] at hrun'
      rw [Call.raise, call_insert_ok hrun']
      exact ⟨rfl, h'⟩
  | remove id =>
    cases hlive : t.contains id with
    | false =>
      rw [call_remove_absent hlive]
      refine ⟨fun hstrayed => hstrayed, fun u _ h => .inr ?_⟩
      rw [Call.raise, call_remove_absent ((h.contains id).trans hlive)]
      exact ⟨rfl, h⟩
    | true =>
      obtain ⟨es, t', hrun, -⟩ := TreeM.remove_ok ht hlive
      have hm := TreeM.mirrors_removeBy hs id
      rw [call_remove_ok hrun]
      rw [run_remove] at hrun
      refine ⟨fun hstrayed => hm.stays hstrayed hrun, fun u hu h => ?_⟩
      refine (hm.agrees h hrun).imp_right fun ⟨u', hrun', h'⟩ => ?_
      rw [← hu, ← run_remove] at hrun'
      rw [Call.raise, call_remove_ok hrun']
      exact ⟨rfl, h'⟩
  | clear => exact ⟨fun hstrayed => hstrayed, fun u _ h => .inr ⟨rfl, h.clear⟩⟩

theorem strayed_call (ht : t.Settled) (hstrayed : t.Strayed) (c : Call α) :
    (t.call c).2.Strayed := by
  -- Straying is up to the one tree, whatever it is compared with.
  have hs : Strategy.Echo ⟨#[], by simp, t.stats, True⟩ t.strategy t.strategy :=
    t.config.variant.strategy_echo trivial
  exact (call_mirrored hs ht c).1 hstrayed

theorem strayed_calls (ht : t.Settled) (hstrayed : t.Strayed) (cs : List (Call α)) :
    (t.calls cs).2.Strayed :=
  calls_induction (fun _ c h hstrayed => strayed_call h hstrayed c) ht hstrayed cs

/-- As long as the first tree does not stray, the two runs go the same way. -/
theorem calls_echo (hs : Strategy.Echo o t.strategy u.strategy) (ht : t.Settled) (hu : u.Settled)
    (h : Echo o t u) (cs : List (Call α)) (hend : o.alike ∨ ¬(t.calls cs).2.Strayed) :
    (u.calls (cs.map (.raise o.store.size))).1 = (t.calls cs).1.map (.raise o.store.size) ∧
      Echo o (t.calls cs).2 (u.calls (cs.map (.raise o.store.size))).2 := by
  induction cs generalizing t u with
  | nil => exact ⟨rfl, h⟩
  | cons c cs ih =>
    obtain ⟨hcalled, ht'⟩ := ht.call c
    obtain ⟨hcalled', hu'⟩ := hu.call (c.raise o.store.size)
    rcases (call_mirrored hs ht c).2 u rfl h with ⟨ho, hstrayed⟩ | ⟨hanswer, h'⟩
    · exact absurd (strayed_calls ht' hstrayed cs) (hend.resolve_left ho)
    · have hs' : Strategy.Echo o (t.call c).2.strategy
          (u.call (c.raise o.store.size)).2.strategy := by
        -- Neither call changes the configuration of its tree.
        unfold strategy
        rw [hcalled.config, hcalled'.config]
        exact hs
      obtain ⟨hanswers, hlast⟩ := ih hs' ht' hu' h' hend
      refine ⟨?_, hlast⟩
      show _ :: _ = _ :: _
      rw [hanswer, hanswers]

end Tree

end RTree
