import RTree.Proofs.Runs

/-!
The trees that a call goes through, and what is asked of a strategy on the way. A run is the same by
two strategies that give the same answers about the nodes that get overfull; so one that refuses to
answer anything else, by whatever failure, never has to.
-/

namespace RTree

variable {α : Type} [Scalar α]

/-- The tree that an operation leaves behind, whether it fails or not. -/
def TreeM.after {β : Type} (m : TreeM α β) (t : Tree α) : Tree α :=
  match m.run t with
  | .ok _ t => t
  | .error _ t => t

omit [Scalar α] in
theorem TreeM.after_ok {β : Type} {m : TreeM α β} {b : β} {t t' : Tree α}
    (h : m.run t = .ok b t') : m.after t = t' := by
  unfold after
  rw [h]

namespace Tree

variable {c : Config α} {t t' t₀ : Tree α} {lev : NodeId → Nat} {id : NodeId}

/-- Each step leaves a tree in order but for one node that may be overfull. -/
theorem Step.shaped [OrderedScalar α] {e : Event α} (h : Step t e t')
    (hs : ∃ lev extra, t.Shaped lev extra none []) : ∃ lev extra, t'.Shaped lev extra none [] := by
  rcases h.shaped_or_counts with hshaped | ⟨f, rfl, hf⟩
  · exact hshaped
  · obtain ⟨lev, extra, hs⟩ := hs
    exact ⟨lev, extra, hs.updateStats hf⟩

theorem Steps.shaped [OrderedScalar α] {es : List (Event α)} (h : Steps t es t')
    (hs : ∃ lev extra, t.Shaped lev extra none []) : ∃ lev extra, t'.Shaped lev extra none [] := by
  induction h with
  | nil => exact hs
  | cons hstep _ ih => exact ih (hstep.shaped hs)

/-- The tree with a point that is stored, but in no leaf yet. -/
def booked (t : Tree α) (p : List α) : Tree α :=
  t.withStore (t.store.push ⟨p, false⟩) t.size

/-- A tree on the way of a call: some calls on a new tree are over and some steps of the next one
are taken, which is a removal or the insertion of a point that is stored first. -/
inductive Midway (c : Config α) : Tree α → Prop
  | inserting {t : Tree α} {es : List (Event α)} {p : List α} (ks : List (Call α))
      (hp : Rectangle.FinitePoint c.dimension p)
      (hs : Steps (((ofConfig c).calls ks).2.booked p) es t) : Midway c t
  | removing {t : Tree α} {es : List (Event α)} (ks : List (Call α))
      (hs : Steps ((ofConfig c).calls ks).2 es t) : Midway c t

/-- A node that a strategy may be asked about: it has too many entries and is not the root. -/
structure Asked (c : Config α) (t : Tree α) (id : NodeId) : Prop where
  midway : t.Midway c
  below : t.Below t.root id
  ne_root : id ≠ t.root
  full : t.room (t.slot id) < (t.slot id).entryCount

theorem Midway.steps {es : List (Event α)} (h : t.Midway c) (hs : Steps t es t') :
    t'.Midway c := by
  cases h with
  | inserting ks hp hs' => exact .inserting ks hp (hs'.trans hs)
  | removing ks hs' => exact .removing ks (hs'.trans hs)

/-- The tree after the first half of an insertion: the point is in a leaf. -/
def dropped (t : Tree α) (p : List α) : Tree α :=
  (TreeM.dropPoint t.strategy.descent ⟨t.store.size⟩).after (t.booked p)

/-- The tree after an overfull leaf is split, if that is what comes of it. -/
def halved (t : Tree α) (leaf : NodeId) : Tree α :=
  match t.strategy.onLeaf t leaf .fresh with
  | .ok (.partition p, _) =>
    (TreeM.splitNode t.strategy.keepsHistory leaf p).after t.countLeafSplit
  | _ => t

variable [OrderedScalar α]

theorem config_calls_new (h : c.validate = .ok ()) (ks : List (Call α)) :
    ((ofConfig c).calls ks).2.config = c :=
  config_calls (settled_new (new_eq_ok.mpr ⟨h, rfl⟩)) ks

theorem settled_calls_new (h : c.validate = .ok ()) (ks : List (Call α)) :
    ((ofConfig c).calls ks).2.Settled :=
  (settled_new (new_eq_ok.mpr ⟨h, rfl⟩)).calls ks

theorem sound_booked (h : c.validate = .ok ()) (ks : List (Call α)) {p : List α}
    (hp : Rectangle.FinitePoint c.dimension p) : (((ofConfig c).calls ks).2.booked p).Sound := by
  have hp' : Rectangle.FinitePoint ((ofConfig c).calls ks).2.dim p := by
    rw [dim, config_calls_new h ks]
    exact hp
  exact (settled_calls_new h ks).sound.push hp' false ((ofConfig c).calls ks).2.size

namespace Midway

theorem config (h : t.Midway c) (hc : c.validate = .ok ()) : t.config = c := by
  cases h with
  | inserting ks _ hs => exact hs.frame.config.trans (config_calls_new hc ks)
  | removing ks hs => exact hs.frame.config.trans (config_calls_new hc ks)

theorem shaped (h : t.Midway c) (hc : c.validate = .ok ()) :
    ∃ lev extra, t.Shaped lev extra none [] := by
  cases h with
  | inserting ks hp hs =>
    obtain ⟨lev, hsound⟩ := sound_booked hc ks hp
    exact hs.shaped ⟨lev, none, hsound⟩
  | removing ks hs =>
    obtain ⟨lev, hsound⟩ := (settled_calls_new hc ks).sound
    exact hs.shaped ⟨lev, none, hsound⟩

/-- An insertion goes through the tree in which its point has just been put into a leaf. -/
theorem dropped (hc : c.validate = .ok ()) (ks : List (Call α)) {p : List α}
    (hp : Rectangle.FinitePoint c.dimension p) :
    (((ofConfig c).calls ks).2.dropped p).Midway c := by
  have hsettled := settled_calls_new hc ks
  generalize ht : ((ofConfig c).calls ks).2 = start at hsettled
  obtain ⟨lev, hshaped⟩ : (start.booked p).Sound := ht ▸ sound_booked hc ks hp
  let id : PointId := ⟨start.store.size⟩
  have hstored : id.index < (start.booked p).store.size := by simp [booked, withStore, id]
  have hnew : (start.booked p).copies id = 0 := by
    change start.copies id = 0
    rw [hsettled.copies]
    simp [contains, id]
  obtain ⟨leaf, -, t, -, hrun, hd⟩ := TreeM.dropPoint_ok hshaped start.strategy.descent hstored hnew
  have hdropped : start.dropped p = t := TreeM.after_ok hrun
  have hsteps : Steps (((ofConfig c).calls ks).2.booked p) [.place id leaf] t :=
    ht ▸ hd.step.steps
  exact hdropped ▸ .inserting ks hp hsteps

/-- All but the node with too many entries is in order. -/
theorem overfull (h : t.Midway c) (hc : c.validate = .ok ()) (hbelow : t.Below t.root id)
    (hfull : t.room (t.slot id) < (t.slot id).entryCount) : ∃ lev, t.Overfull lev id := by
  obtain ⟨lev, extra, hs⟩ := h.shaped hc
  have hid : t.InUse id := hs.linked.inUse_of_below hs.linked.root hbelow
  have hupper := (hs.filled id hid).upper
  have hextra : extra = some id := by
    by_contra hne
    have hnone : excess extra id = 0 := if_neg hne
    omega
  exact ⟨lev, hextra ▸ hs, hid, hfull⟩

end Midway

omit [OrderedScalar α] in
theorem Overfull.asked (h : t.Overfull lev id) (ht : t.Midway c) (hroot : id ≠ t.root) :
    t.Asked c id :=
  ⟨ht, h.shaped.linked.below_root h.inUse, hroot, h.full⟩

namespace Asked

theorem overfull (h : t.Asked c id) (hc : c.validate = .ok ()) : ∃ lev, t.Overfull lev id :=
  h.midway.overfull hc h.below h.full

theorem halved (h : t.Asked c id) (hc : c.validate = .ok ()) (hl : (t.slot id).leaf = true) :
    (t.halved id).Midway c := by
  obtain ⟨lev, hover⟩ := h.overfull hc
  obtain ⟨parent, hm⟩ := hover.exists_parent h.ne_root
  obtain ⟨decision, flags, hd, hfair, -⟩ :=
    onLeaf_ok hover.shaped hover.inUse hl hover.full .fresh
  unfold Tree.halved
  rw [hd]
  cases decision with
  | reinsert => exact h.midway
  | partition p =>
    change ((TreeM.splitNode t.strategy.keepsHistory id p).after t.countLeafSplit).Midway c
    obtain ⟨first, second, t', -, hrun, hs, -⟩ :=
      TreeM.splitOverfull_ok hover hm hfair
        (f := fun s => { s with leafSplits := s.leafSplits + 1 }) rfl t.strategy.keepsHistory
    have hstep : Step t (.splitLeaf id p) t' := .splitLeaf hover hl hm hd hfair hs
    have hafter : (TreeM.splitNode t.strategy.keepsHistory id p).after t.countLeafSplit = t' :=
      TreeM.after_ok hrun
    exact hafter ▸ h.midway.steps hstep.steps

end Asked

end Tree

/-- Decides as the strategy does on some questions and refuses the others. -/
noncomputable def Strategy.guarded (s : Strategy α)
    (leafAsked directoryAsked : Tree α → NodeId → Prop) (refusal : Failure α) : Strategy α where
  descent := s.descent
  onLeaf := fun t leaf flags =>
    open Classical in if leafAsked t leaf then s.onLeaf t leaf flags else .error refusal
  onDirectory := fun t id =>
    open Classical in if directoryAsked t id then s.onDirectory t id else .error refusal
  keepsHistory := s.keepsHistory

namespace Tree

def callBy (s : Strategy α) (t : Tree α) : Call α → Answer α × Tree α
  | .insert p =>
    match (TreeM.insertBy s p).run t with
    | .ok id t => (.inserted id, t)
    | .error cause t => (.failed cause, t)
  | .remove id =>
    match (TreeM.removeBy s id).run t with
    | .ok found t => (.removed found, t)
    | .error cause t => (.failed cause, t)
  | .clear => t.call .clear

def callsBy (s : Strategy α) (t : Tree α) : List (Call α) → List (Answer α) × Tree α
  | [] => ([], t)
  | k :: ks =>
    ((t.callBy s k).1 :: ((t.callBy s k).2.callsBy s ks).1, ((t.callBy s k).2.callsBy s ks).2)

variable {c : Config α} {s : Strategy α} {t t₀ : Tree α}

theorem callBy_strategy (t : Tree α) (k : Call α) : t.callBy t.strategy k = t.call k := by
  cases k with
  | insert p =>
    rw [call, TreeM.run_insert]
    rfl
  | remove id =>
    rw [call, TreeM.run_remove]
    rfl
  | clear => rfl

theorem callsBy_eq_calls
    (h : ∀ past k, (t.calls past).2.callBy s k = (t.calls past).2.call k) (ks : List (Call α)) :
    t.callsBy s ks = t.calls ks := by
  induction ks generalizing t with
  | nil => rfl
  | cons k ks ih =>
    have hcall : t.callBy s k = t.call k := h [] k
    have hrest := ih fun past => h (k :: past)
    rw [callsBy, hcall, hrest]
    rfl

variable [OrderedScalar α]

/-- Two strategies that serve a tree make the same call. -/
theorem Settled.callBy_eq (h : t.Settled) (hs : s.Serves t)
    (hbooked : ∀ p, Rectangle.FinitePoint t.dim p → s.Serves (t.booked p)) (k : Call α) :
    t.callBy s k = t.call k := by
  rw [← callBy_strategy]
  cases k with
  | insert p =>
    cases ha : t.acceptPoint p with
    | ok u =>
      have hp := acceptPoint_eq_ok.mp ha
      obtain ⟨es, t', hrun, -⟩ := TreeM.insertBy_ok h hp
      have hown := hrun t.strategy (Strategy.serves_self (t.booked p))
      simp only [callBy, hrun s (hbooked p hp), hown]
    | error cause => simp only [callBy, TreeM.insertBy_refused _ ha]
  | remove id =>
    cases hlive : t.contains id with
    | true =>
      obtain ⟨es, t', hrun, -⟩ := TreeM.removeBy_ok h hlive
      simp only [callBy, hrun s hs, hrun t.strategy (Strategy.serves_self t)]
    | false => simp only [callBy, TreeM.removeBy_absent _ hlive]
  | clear => rfl

/-- A strategy that answers like the variant's own about overfull nodes below the root makes every
call of a run as that does. -/
theorem callsBy_eq (hc : c.validate = .ok ())
    (hdescent : s.descent = (c.variant.strategy : Strategy α).descent)
    (hkeeps : s.keepsHistory = (c.variant.strategy : Strategy α).keepsHistory)
    (hleaf : ∀ t leaf, t.Asked c leaf → (t.slot leaf).leaf = true →
      ∀ flags, s.onLeaf t leaf flags = c.variant.strategy.onLeaf t leaf flags)
    (hdirectory : ∀ t id, t.Asked c id → (t.slot id).leaf = false →
      s.onDirectory t id = c.variant.strategy.onDirectory t id) (ks : List (Call α)) :
    (ofConfig c).callsBy s ks = (ofConfig c).calls ks := by
  have hserves : ∀ {t : Tree α}, t.config = c →
      (∀ {es} {t' : Tree α}, Steps t es t' → t'.Midway c) → s.Serves t := by
    intro t hconfig hmidway
    have hown : t.strategy = c.variant.strategy := by rw [Tree.strategy, hconfig]
    refine ⟨hown ▸ hdescent, hown ▸ hkeeps, ?_, ?_⟩
    · intro es t' lev leaf hs hover hroot hl flags
      rw [hs.frame.strategy, hown]
      exact hleaf t' leaf (hover.asked (hmidway hs) hroot) hl flags
    · intro es t' lev id hs hover hroot hl
      rw [hs.frame.strategy, hown]
      exact hdirectory t' id (hover.asked (hmidway hs) hroot) hl
  apply callsBy_eq_calls
  intro past k
  have hconfig := config_calls_new hc past
  apply (settled_calls_new hc past).callBy_eq (hserves hconfig (.removing past))
  intro p hp
  exact hserves hconfig (.inserting past (hconfig ▸ hp))

/-- Nothing is asked but about overfull nodes below the root, so nothing else need be answered. -/
theorem callsBy_guarded (hc : c.validate = .ok ())
    {leafAsked directoryAsked : Tree α → NodeId → Prop}
    (hleaf : ∀ t leaf, t.Asked c leaf → (t.slot leaf).leaf = true → leafAsked t leaf)
    (hdirectory : ∀ t id, t.Asked c id → (t.slot id).leaf = false → directoryAsked t id)
    (refusal : Failure α) (ks : List (Call α)) :
    (ofConfig c).callsBy (c.variant.strategy.guarded leafAsked directoryAsked refusal) ks =
      (ofConfig c).calls ks := by
  apply callsBy_eq hc
  · rfl
  · rfl
  · exact fun t leaf h hl _ => if_pos (hleaf t leaf h hl)
  · exact fun t id h hl => if_pos (hdirectory t id h hl)

end Tree

end RTree
