import RTree.Proofs.Tree.Calls

namespace RTree

variable {α : Type}

inductive Call (α : Type) where
  | insert (p : List α)
  | remove (id : PointId)
  | clear

inductive Answer (α : Type) where
  | inserted (id : PointId)
  | removed (found : Bool)
  | cleared
  | failed (cause : Failure α)

def Answer.isInserted : Answer α → Bool
  | inserted _ => true
  | _ => false

namespace Tree

variable [Scalar α]

/-- The answer to a call and the tree after it. A failed call leaves what it has changed. -/
def call (t : Tree α) : Call α → Answer α × Tree α
  | .insert p =>
    match (TreeM.insert p).run t with
    | .ok id t => (.inserted id, t)
    | .error cause t => (.failed cause, t)
  | .remove id =>
    match (TreeM.remove id).run t with
    | .ok found t => (.removed found, t)
    | .error cause t => (.failed cause, t)
  | .clear =>
    match TreeM.clear.run t with
    | .ok _ t => (.cleared, t)
    | .error cause t => (.failed cause, t)

def calls (t : Tree α) : List (Call α) → List (Answer α) × Tree α
  | [] => ([], t)
  | c :: cs => ((t.call c).1 :: ((t.call c).2.calls cs).1, ((t.call c).2.calls cs).2)

theorem calls_append (t : Tree α) (past rest : List (Call α)) :
    (t.calls (past ++ rest)).2 = ((t.calls past).2.calls rest).2 := by
  induction past generalizing t with
  | nil => rfl
  | cons c past ih => exact ih (t.call c).2

/-- What comes of a call between two others. -/
inductive Called (t : Tree α) : Call α → Answer α → Tree α → Prop
  | inserted {p : List α} {t' : Tree α} {es : List (Event α)} (h : Inserted t t' p es) :
      Called t (.insert p) (.inserted ⟨t.store.size⟩) t'
  | refused {p : List α} {cause : Failure α} (h : t.acceptPoint p = .error cause) :
      Called t (.insert p) (.failed cause) t
  | removed {id : PointId} {t' : Tree α} {es : List (Event α)} (h : Removed t t' id es) :
      Called t (.remove id) (.removed true) t'
  | absent {id : PointId} (h : t.contains id = false) : Called t (.remove id) (.removed false) t
  | cleared : Called t .clear .cleared t.clear

theorem insert_refused {t : Tree α} {p : List α} {cause : Failure α}
    (h : t.acceptPoint p = .error cause) : (TreeM.insert p).run t = .error cause t := by
  rw [TreeM.run_insert]
  exact TreeM.insertBy_refused t.strategy h

section Call

variable {t t' : Tree α}

theorem call_insert_ok {p : List α} {id : PointId} (h : (TreeM.insert p).run t = .ok id t') :
    t.call (.insert p) = (.inserted id, t') := by simp only [call, h]

theorem call_insert_refused {p : List α} {cause : Failure α} (h : t.acceptPoint p = .error cause) :
    t.call (.insert p) = (.failed cause, t) := by simp only [call, insert_refused h]

theorem call_remove_ok {id : PointId} {found : Bool} (h : (TreeM.remove id).run t = .ok found t') :
    t.call (.remove id) = (.removed found, t') := by simp only [call, h]

theorem call_remove_absent {id : PointId} (h : t.contains id = false) :
    t.call (.remove id) = (.removed false, t) := call_remove_ok (TreeM.remove_absent h)

end Call

variable [OrderedScalar α] {t t' : Tree α}

/-- Each call leads from a settled tree to a settled tree. -/
theorem Settled.call (h : t.Settled) (c : Call α) :
    Called t c (t.call c).1 (t.call c).2 ∧ (t.call c).2.Settled := by
  cases c with
  | insert p =>
    cases ha : t.acceptPoint p with
    | ok u =>
      obtain ⟨es, t', hrun, hsettled, hins, -⟩ := TreeM.insert_ok h (acceptPoint_eq_ok.mp ha)
      rw [call_insert_ok hrun]
      exact ⟨.inserted hins, hsettled⟩
    | error cause =>
      rw [call_insert_refused ha]
      exact ⟨.refused ha, h⟩
  | remove id =>
    cases hlive : t.contains id with
    | true =>
      obtain ⟨es, t', hrun, hsettled, hrem⟩ := TreeM.remove_ok h hlive
      rw [call_remove_ok hrun]
      exact ⟨.removed hrem, hsettled⟩
    | false =>
      rw [call_remove_absent hlive]
      exact ⟨.absent hlive, h⟩
  | clear => exact ⟨.cleared, h.clear⟩

omit [OrderedScalar α] in
theorem Called.config {c : Call α} {answer : Answer α} (h : Called t c answer t') :
    t'.config = t.config := by
  cases h with
  | inserted h => exact h.frame.1
  | refused => rfl
  | removed h => exact h.frame.1
  | absent => rfl
  | cleared => rfl

/-- What holds of a settled tree and is kept by every call holds after all of them. -/
theorem calls_induction {P : Tree α → Prop}
    (hstep : ∀ t c, t.Settled → P t → P (t.call c).2) (h : t.Settled) (ht : P t)
    (cs : List (Call α)) : P (t.calls cs).2 := by
  induction cs generalizing t with
  | nil => exact ht
  | cons c cs ih => exact ih (h.call c).2 (hstep t c h ht)

theorem Settled.calls (h : t.Settled) (cs : List (Call α)) : (t.calls cs).2.Settled :=
  calls_induction (fun _ c h _ => (h.call c).2) h h cs

theorem config_calls (h : t.Settled) (cs : List (Call α)) :
    (t.calls cs).2.config = t.config :=
  calls_induction (P := fun t' => t'.config = t.config)
    (fun _ c h hc => (h.call c).1.config.trans hc) h rfl cs

/-- Leaves for two points, one of which may be inserted again, and directories for three. -/
def scant : Config Float :=
  { (default : Config Float) with
    minLeafSize := 1, maxLeafSize := 2, minChildren := 2, maxChildren := 3
    variant := .rStar, reinsertFraction := 0.5 }

/-- Seven points, two of which are removed, and one that is refused. -/
def errands : List (Call Float) :=
  [.insert [0, 0], .insert [9, 9], .insert [1, 1], .insert [8, 8], .insert [2, 7], .insert [3],
    .insert [7, 2], .insert [4, 4], .remove ⟨0⟩, .remove ⟨4⟩, .remove ⟨4⟩]

end Tree

end RTree
