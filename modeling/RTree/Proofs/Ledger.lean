import RTree.Proofs.Runs
import RTree.Proofs.Scalar.Binary64
import RTree.Proofs.Tree.Within

namespace RTree

variable {α : Type}

/-- All points ever inserted in the order of arrival. -/
abbrev Ledger (α : Type) := List (StoredPoint α)

namespace Ledger

def isLive (l : Ledger α) (id : PointId) : Bool := (l[id.index]?.map StoredPoint.live).getD false

def point? (l : Ledger α) (id : PointId) : Option (List α) :=
  (l[id.index]?.filter StoredPoint.live).map StoredPoint.coords

def livePoints (l : Ledger α) : List PointId :=
  l.zipIdx.filterMap fun (p, i) => if p.live then some ⟨i⟩ else none

variable [Scalar α]

def within (l : Ledger α) (q : Rectangle α) : List PointId :=
  l.livePoints.filter fun id => (l.point? id).any q.contains

def call (d : Nat) (l : Ledger α) : Call α → Answer α × Ledger α
  | .insert p =>
    if p.length ≠ d then (.failed (.dimensionMismatch d p.length), l)
    else
      match p.find? (!Scalar.isFinite ·) with
      | some v => (.failed (.notFinite v), l)
      | none => (.inserted ⟨l.length⟩, l ++ [⟨p, true⟩])
  | .remove id => (.removed (l.isLive id), l.modify id.index fun p => { p with live := false })
  | .clear => (.cleared, l.map fun p => { p with live := false })

def calls (d : Nat) (l : Ledger α) : List (Call α) → List (Answer α) × Ledger α
  | [] => ([], l)
  | c :: cs => ((l.call d c).1 :: (calls d (l.call d c).2 cs).1, (calls d (l.call d c).2 cs).2)

/-- The next number is that of the insertions so far. -/
theorem length_calls (d : Nat) (l : Ledger α) (cs : List (Call α)) :
    (l.calls d cs).2.length = l.length + (l.calls d cs).1.countP Answer.isInserted := by
  induction cs generalizing l with
  | nil => rfl
  | cons c cs ih =>
    have hstep : (l.call d c).2.length = l.length + [(l.call d c).1].countP Answer.isInserted := by
      cases c with
      | insert p =>
        unfold call
        by_cases hl : p.length = d
        · cases hf : p.find? (!Scalar.isFinite ·) <;> simp [hl, hf, Answer.isInserted]
        · simp [hl, Answer.isInserted]
      | remove id => simp [call, Answer.isInserted]
      | clear => simp [call, Answer.isInserted]
    have hcons : (l.calls d (c :: cs)).1.countP Answer.isInserted =
        [(l.call d c).1].countP Answer.isInserted +
          ((l.call d c).2.calls d cs).1.countP Answer.isInserted := by
      rw [← List.countP_append]
      rfl
    show ((l.call d c).2.calls d cs).2.length = _
    rw [ih, hstep, hcons, Nat.add_assoc]

end Ledger

/-- The tree answers every question as the ledger does. -/
structure Agrees [Scalar α] (t : Tree α) (l : Ledger α) : Prop where
  point : ∀ id, t.point? id = l.point? id
  contains : ∀ id, t.contains id = l.isLive id
  livePoints : t.livePoints = l.livePoints
  size : t.size = l.livePoints.length
  isEmpty : t.isEmpty = l.livePoints.isEmpty
  within : ∀ q : Rectangle α, q.dim = t.dim → t.within q = .ok (l.within q)

namespace Tree

variable [Scalar α] [OrderedScalar α] {t : Tree α}

theorem Settled.agrees (h : t.Settled) : Agrees t t.store.toList where
  point := fun id => by simp [Tree.point?, Ledger.point?]
  contains := fun id => by simp [Tree.contains, Ledger.isLive]
  livePoints := rfl
  size := h.size.trans t.length_livePoints.symm
  isEmpty := by
    have hsize : t.size = t.livePoints.length := h.size.trans t.length_livePoints.symm
    unfold Tree.isEmpty
    rw [hsize]
    change _ = t.livePoints.isEmpty
    cases t.livePoints <;> rfl
  within := by
    intro q hq
    rw [h.consistent.within_ok h.readable hq]
    congr 1
    change _ = t.livePoints.filter fun id => (Ledger.point? t.store.toList id).any q.contains
    apply List.filter_congr
    intro id hid
    have hpoint : Ledger.point? t.store.toList id = t.point? id := by
      simp [Tree.point?, Ledger.point?]
    rw [hpoint, point?_of_contains (mem_livePoints.mp hid)]
    rfl

/-- A call changes the store as it changes the ledger. -/
theorem Settled.call_ledger (h : t.Settled) (c : Call α) :
    (t.call c).1 = (Ledger.call t.dim t.store.toList c).1 ∧
      (t.call c).2.store.toList = (Ledger.call t.dim t.store.toList c).2 := by
  obtain ⟨hcalled, -⟩ := h.call c
  generalize (t.call c).1 = answer, (t.call c).2 = t' at hcalled ⊢
  cases hcalled with
  | @inserted p t' es hins =>
    have hfind : p.find? (!Scalar.isFinite ·) = none := by
      rw [List.find?_eq_none]
      intro v hv
      simp [hins.finite.isFinite v hv]
    have hstore := hins.frame.2.2.1
    simp [Ledger.call, hins.finite.length, hfind, hstore]
  | @refused p cause hcause =>
    unfold acceptPoint at hcause
    by_cases hl : p.length = t.dim
    · rw [if_neg (by simp [hl])] at hcause
      cases hf : p.find? (!Scalar.isFinite ·) with
      | none =>
        rw [hf] at hcause
        cases hcause
      | some v =>
        rw [hf] at hcause
        cases hcause
        simp [Ledger.call, hl, hf]
    · rw [if_pos hl] at hcause
      cases hcause
      simp [Ledger.call, hl]
  | @removed id t' es hrem =>
    have hlive : Ledger.isLive t.store.toList id = true := by
      rw [← hrem.live]
      exact (h.agrees.contains id).symm
    have hstore := hrem.frame.2.2.1
    simp [Ledger.call, hlive, hstore, setLive]
  | @absent id hdead =>
    have hlive : Ledger.isLive t.store.toList id = false := by
      rw [← hdead]
      exact (h.agrees.contains id).symm
    refine ⟨by simp [Ledger.call, hlive], ?_⟩
    unfold Ledger.call
    apply List.ext_getElem?
    intro i
    rw [List.getElem?_modify]
    unfold contains at hdead
    by_cases hi : id.index = i
    · subst hi
      cases hs : t.store[id.index]? with
      | none => simp [hs]
      | some s =>
        have hl : s.live = false := by simpa [hs] using hdead
        simp [hs, ← hl]
    · simp [hi]
  | cleared => simp [Ledger.call, Tree.clear]

theorem Settled.calls_ledger (h : t.Settled) (cs : List (Call α)) :
    (t.calls cs).1 = (Ledger.calls t.dim t.store.toList cs).1 ∧
      (t.calls cs).2.store.toList = (Ledger.calls t.dim t.store.toList cs).2 := by
  induction cs generalizing t with
  | nil => exact ⟨rfl, rfl⟩
  | cons c cs ih =>
    obtain ⟨hcalled, hsettled⟩ := h.call c
    obtain ⟨hanswer, hstore⟩ := h.call_ledger c
    have hdim : (t.call c).2.dim = t.dim := by
      unfold dim
      rw [hcalled.config]
    obtain ⟨hanswers, hstores⟩ := ih hsettled
    rw [hdim, hstore] at hanswers hstores
    exact ⟨by simp only [Tree.calls, Ledger.calls, hanswer, hanswers], hstores⟩

/-- For any calls, a tree of any valid configuration answers like a ledger. In particular it numbers
the points in the order of insertion, and answers as any other tree of its dimension does. -/
theorem calls_agree {c : Config Float} {t : Tree Float} (h : Tree.new c = .ok t)
    (cs : List (Call Float)) :
    (t.calls cs).1 = (Ledger.calls c.dimension [] cs).1 ∧
      Agrees (t.calls cs).2 (Ledger.calls c.dimension [] cs).2 ∧
      (∀ p id, ((t.calls cs).2.call (.insert p)).1 = .inserted id →
        id.index = (t.calls cs).1.countP Answer.isInserted) ∧
      (∀ q, ((Ledger.calls c.dimension [] cs).2.within q).Pairwise fun a b => a.index < b.index) ∧
      ∀ c' t', Tree.new c' = .ok t' → c'.dimension = c.dimension →
        (t'.calls cs).1 = (t.calls cs).1 ∧
          Agrees (t'.calls cs).2 (Ledger.calls c.dimension [] cs).2 := by
  have hledger : ∀ (c : Config Float) t, Tree.new c = .ok t →
      (t.calls cs).1 = (Ledger.calls c.dimension [] cs).1 ∧
        (t.calls cs).2.store.toList = (Ledger.calls c.dimension [] cs).2 := by
    intro c t h
    have hcalls := (settled_new h).calls_ledger cs
    obtain ⟨-, rfl⟩ := new_eq_ok.mp h
    exact hcalls
  have hagrees : ∀ (c : Config Float) t, Tree.new c = .ok t →
      Agrees (t.calls cs).2 (Ledger.calls c.dimension [] cs).2 := by
    intro c t h
    rw [← (hledger c t h).2]
    exact ((settled_new h).calls cs).agrees
  obtain ⟨hanswers, hstore⟩ := hledger c t h
  refine ⟨hanswers, hagrees c t h, ?_, ?_, ?_⟩
  · intro p id hins
    obtain ⟨hcalled, -⟩ := ((settled_new h).calls cs).call (.insert p)
    rw [hins] at hcalled
    generalize ((t.calls cs).2.call (.insert p)).2 = t' at hcalled
    cases hcalled with
    | inserted =>
      have hlength := Ledger.length_calls c.dimension [] cs
      rw [← hstore, ← hanswers] at hlength
      simpa using hlength
  · intro q
    rw [← hstore]
    exact (t.calls cs).2.livePoints_pairwise.filter _
  · intro c' t' h' hdim
    refine ⟨?_, ?_⟩
    · rw [(hledger c' t' h').1, hdim, hanswers]
    · rw [← hdim]
      exact hagrees c' t' h'

/-- Leaves and a directory have been split on the way to this. -/
theorem calls_agree_scant :
    ∃ t, ((ofConfig scant).calls errands).2 = t ∧
      ((ofConfig scant).calls errands).1 =
        [.inserted ⟨0⟩, .inserted ⟨1⟩, .inserted ⟨2⟩, .inserted ⟨3⟩, .inserted ⟨4⟩,
          .failed (.dimensionMismatch 2 1), .inserted ⟨5⟩, .inserted ⟨6⟩, .removed true,
          .removed true, .removed false] ∧
      t.livePoints = [⟨1⟩, ⟨2⟩, ⟨3⟩, ⟨5⟩, ⟨6⟩] ∧
      t.within ⟨[⟨0, 8⟩, ⟨2, 8⟩]⟩ = .ok [⟨3⟩, ⟨5⟩, ⟨6⟩] ∧
      t.stats.leafSplits = 3 ∧ t.stats.directorySplits = 1 := by
  obtain ⟨hanswers, hagrees, -⟩ := calls_agree (c := scant) rfl errands
  refine ⟨_, rfl, hanswers.trans rfl, hagrees.livePoints.trans rfl, ?_, ?_⟩
  · rw [hagrees.within ⟨[⟨0, 8⟩, ⟨2, 8⟩]⟩ (by decide +kernel)]
    exact congrArg Except.ok (by decide +kernel)
  · decide +kernel

end Tree

end RTree
