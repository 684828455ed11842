import RTree.Proofs.Tree.Settled

namespace RTree

variable {α : Type} [Scalar α]

namespace Tree

variable {t t' : Tree α} {p : List α} {id : PointId} {es : List (Event α)}

/-- The way of an insertion: the point is stored, goes through a cascade and then counts as live.
Unless the point has gone to a leaf with room, there are then more points than a leaf may hold. -/
structure Inserted (t t' : Tree α) (p : List α) (es : List (Event α)) : Prop where
  finite : Rectangle.FinitePoint t.dim p
  cascade : ∃ t₁ flags,
    Extended (t.withStore (t.store.push ⟨p, false⟩) t.size) t₁ .fresh flags es ∧
      (SameLinks (t.withStore (t.store.push ⟨p, false⟩) t.size) t₁ ∨ t₁.Crowded) ∧
      t' = t₁.withStore (t.store.push ⟨p, true⟩) (t.size + 1)

/-- The way of a removal: the point goes out of its leaf in a cascade and no longer counts as live;
then the root may collapse, until it has two children at least or none. -/
structure Removed (t t' : Tree α) (id : PointId) (es : List (Event α)) : Prop where
  live : t.contains id = true
  cascade : ∃ es₁ es₂ t₁, es = es₁ ++ es₂ ∧ Steps t es₁ t₁ ∧
    Steps (t₁.withStore (t.setLive id false).store (t.size - 1)) es₂ t'
  turns : es.countP Event.endsReinsertion ≤ t.turns .fresh
  uniform : Uniform t.relief es
  branched : t'.Branched

omit [Scalar α] in
theorem turns_rTree (h : t.config.variant = .rTree) (flags : LevelFlags) : t.turns flags = 0 := by
  simp [turns, h]

theorem Inserted.turns (h : Inserted t t' p es) :
    es.countP Event.endsReinsertion ≤ t.turns .fresh := by
  obtain ⟨t₁, flags, hext, -, -⟩ := h.cascade
  exact Nat.le_of_add_right_le hext.turns

theorem Inserted.frame (h : Inserted t t' p es) :
    t'.config = t.config ∧ t'.root = t.root ∧ t'.store = t.store.push ⟨p, true⟩ ∧
      t'.size = t.size + 1 ∧ t'.stats.forcedReinsertions =
        t.stats.forcedReinsertions + es.countP Event.endsReinsertion := by
  obtain ⟨t₁, flags, hext, -, rfl⟩ := h.cascade
  have hsteps := hext.steps
  exact ⟨hsteps.frame.config, hsteps.frame.root, rfl, rfl, hsteps.forcedReinsertions⟩

theorem Removed.frame (h : Removed t t' id es) :
    t'.config = t.config ∧ t'.root = t.root ∧ t'.store = (t.setLive id false).store ∧
      t'.size = t.size - 1 ∧ t'.stats.forcedReinsertions =
        t.stats.forcedReinsertions + es.countP Event.endsReinsertion := by
  obtain ⟨es₁, es₂, t₁, rfl, hsteps₁, hsteps₂⟩ := h.cascade
  have h1 := hsteps₁.frame
  have h2 := hsteps₂.frame
  refine ⟨h2.config.trans h1.config, h2.root.trans h1.root, h2.store, h2.size, ?_⟩
  rw [hsteps₂.forcedReinsertions, List.countP_append, ← Nat.add_assoc, ← hsteps₁.forcedReinsertions]
  rfl

/-- Only a point with the tree's number of coordinates, all finite, is accepted. -/
theorem acceptPoint_eq_ok : t.acceptPoint p = .ok () ↔ Rectangle.FinitePoint t.dim p := by
  unfold acceptPoint
  by_cases hl : p.length = t.dim
  · rw [if_neg (by simp [hl])]
    cases hf : p.find? (!Scalar.isFinite ·) with
    | none =>
      rw [List.find?_eq_none] at hf
      have hfin : ∀ v ∈ p, Scalar.isFinite v = true := by simpa using hf
      exact ⟨fun _ => ⟨hl, hfin⟩, fun _ => rfl⟩
    | some v =>
      have hmem := List.mem_of_find?_eq_some hf
      have hbad := List.find?_some hf
      constructor
      · intro h
        cases h
      · intro h
        simp [h.isFinite v hmem] at hbad
  · rw [if_pos hl]
    constructor
    · intro h
      cases h
    · intro h
      exact absurd h.length hl

omit [Scalar α] in
theorem coordsAt_push_of_lt {s : StoredPoint α} {size : Nat} {q : PointId}
    (hq : q.index < t.store.size) :
    (t.withStore (t.store.push s) size).coordsAt q = t.coordsAt q := by
  simp [coordsAt, withStore, Array.getElem?_push, Nat.ne_of_lt hq]

omit [Scalar α] in
theorem coordsAt_push_self {s : StoredPoint α} {size : Nat} :
    (t.withStore (t.store.push s) size).coordsAt ⟨t.store.size⟩ = s.coords := by
  simp [coordsAt, withStore]

omit [Scalar α] in
theorem coordsAt_setLive {live : Bool} {size : Nat} (q : PointId) :
    (t.withStore (t.setLive id live).store size).coordsAt q = t.coordsAt q := by
  unfold coordsAt withStore setLive
  rw [Array.getElem?_modify]
  by_cases hi : id.index = q.index
  · simp [hi, Function.comp_def]
  · simp [hi]

/-- A finite point may be stored. -/
theorem Sound.push (h : t.Sound) (hp : Rectangle.FinitePoint t.dim p) (live : Bool) (size : Nat) :
    (t.withStore (t.store.push ⟨p, live⟩) size).Sound := by
  have hfinite := h.choose_spec.registered.finite
  apply h.withStore
  · intro q hq
    exact ⟨by rw [Array.size_push]; omega, coordsAt_push_of_lt hq⟩
  · intro q hq
    rw [Array.size_push] at hq
    by_cases hlt : q.index < t.store.size
    · rw [coordsAt_push_of_lt hlt]
      exact hfinite q hlt
    · have hlast : q = ⟨t.store.size⟩ := by
        cases q
        simp only [PointId.mk.injEq]
        simp only at hq hlt
        omega
      rw [hlast, coordsAt_push_self]
      exact hp

/-- A point may be marked. -/
theorem Sound.setLive (h : t.Sound) (id : PointId) (live : Bool) (size : Nat) :
    (t.withStore (t.setLive id live).store size).Sound := by
  have hfinite := h.choose_spec.registered.finite
  have hsize : (t.setLive id live).store.size = t.store.size := Array.size_modify ..
  apply h.withStore
  · intro q hq
    exact ⟨by rw [hsize]; exact hq, coordsAt_setLive q⟩
  · intro q hq
    rw [hsize] at hq
    rw [coordsAt_setLive]
    exact hfinite q hq

omit [Scalar α] in
theorem contains_push (q : PointId) :
    (t.withStore (t.store.push ⟨p, true⟩) (t.size + 1)).contains q =
      (t.contains q || decide (q = ⟨t.store.size⟩)) := by
  unfold contains withStore
  rw [Array.getElem?_push]
  by_cases hq : q = ⟨t.store.size⟩
  · simp [hq]
  · have hne : q.index ≠ t.store.size := by
      intro he
      cases q
      exact hq (congrArg PointId.mk he)
    simp [hq, hne]

omit [Scalar α] in
theorem contains_setLive_false (q : PointId) (size : Nat) :
    (t.withStore (t.setLive id false).store size).contains q =
      (t.contains q && !decide (q = id)) := by
  unfold contains withStore setLive
  rw [Array.getElem?_modify]
  by_cases hq : q = id
  · subst hq
    cases t.store[q.index]? <;> simp
  · have hne : id.index ≠ q.index := by
      intro he
      cases q
      cases id
      exact hq (congrArg PointId.mk he.symm)
    simp [hq, hne]

theorem Settled.size_setLive_false (h : t.Settled) (hid : t.contains id = true) :
    t.size - 1 = (t.setLive id false).store.toList.countP StoredPoint.live := by
  obtain ⟨s, hs, hlive⟩ : ∃ s, t.store[id.index]? = some s ∧ s.live = true := by
    unfold contains at hid
    cases hs : t.store[id.index]? with
    | none => simp [hs] at hid
    | some s => exact ⟨s, rfl, by simpa [hs] using hid⟩
  have hget : t.store.toList[id.index]? = some s := by simpa using hs
  have hcount := countP_modify (p := StoredPoint.live)
    (f := fun s => { s with live := false }) hget
  change t.size - 1 = (t.store.modify id.index _).toList.countP StoredPoint.live
  rw [Array.toList_modify]
  simp only [List.countP_singleton, hlive, if_true, Bool.false_eq_true, if_false] at hcount
  have hsize := h.size
  omega

theorem new_eq_ok {c : Config α} : Tree.new c = .ok t ↔ c.validate = .ok () ∧ t = ofConfig c := by
  unfold Tree.new
  cases hv : c.validate with
  | error cause => simp
  | ok u => simp [eq_comm]

/-- A new tree has no points. -/
theorem settled_new [OrderedScalar α] {c : Config α} (h : Tree.new c = .ok t) : t.Settled := by
  obtain ⟨hvalid, rfl⟩ := new_eq_ok.mp h
  exact ⟨sound_ofConfig (Config.feasible_of_validate hvalid) _, fun _ => rfl, rfl⟩

/-- A cleared tree has none that are live. -/
theorem Settled.clear [OrderedScalar α] (h : t.Settled) : t.clear.Settled where
  sound := by
    obtain ⟨lev, hshaped⟩ := h.sound
    change (({ ofConfig t.config with stats := t.stats } : Tree α).withStore
      (t.store.map fun p => { p with live := false }) 0).Sound
    apply (sound_ofConfig hshaped.feasible t.stats).withStore
    · intro q hq
      exact absurd hq (Nat.not_lt_zero _)
    · intro q hq
      rw [Array.size_map] at hq
      have hcoords : t.clear.coordsAt q = t.coordsAt q := by
        simp [coordsAt, Tree.clear, Function.comp_def]
      exact hcoords ▸ hshaped.registered.finite q hq
  copies := by
    intro q
    have hnone : t.clear.contains q = false := by
      unfold contains Tree.clear
      rw [Array.getElem?_map]
      cases t.store[q.index]? <;> rfl
    rw [hnone]
    rfl
  size := by
    change 0 = (t.store.map fun p => { p with live := false }).toList.countP StoredPoint.live
    rw [Array.toList_map, List.countP_map]
    exact (List.countP_eq_zero.mpr (by simp)).symm

end Tree

namespace TreeM

open RTree.Tree

variable {t : Tree α} {lev : NodeId → Nat} {p : List α} {id : PointId}

theorem run_insert (t : Tree α) (p : List α) :
    (insert p).run t = (insertBy t.strategy p).run t := by
  unfold insert
  rw [get_bind]

theorem run_remove (t : Tree α) (id : PointId) :
    (remove id).run t = (removeBy t.strategy id).run t := by
  unfold remove
  rw [get_bind]

theorem insertBy_refused (s : Strategy α) {cause : Failure α}
    (h : t.acceptPoint p = .error cause) : (insertBy s p).run t = .error cause t :=
  bind_error (query_error h) _

theorem removeBy_absent (s : Strategy α) (hid : t.contains id = false) :
    (removeBy s id).run t = .ok false t := by
  unfold removeBy
  rw [get_bind]
  simp only [hid, Bool.false_eq_true, if_false]
  rfl

theorem remove_absent (hid : t.contains id = false) : (remove id).run t = .ok false t := by
  rw [run_remove]
  exact removeBy_absent t.strategy hid

variable [OrderedScalar α]

/-- Each round brings the root down a level, so there are fewer rounds than levels. They end at a
leaf or at a root with two children. -/
theorem collapseRoot_ok {limit : Nat} (h : t.Shaped lev none none []) (hlim : lev t.root < limit) :
    ∃ es t', (collapseRoot limit).run t = .ok () t' ∧ t'.Sound ∧ Steps t es t' ∧
      es.countP Event.endsReinsertion = 0 ∧ (∀ q, t'.copies q = t.copies q) ∧ t'.Branched := by
  induction limit generalizing t lev with
  | zero => omega
  | succ limit ih =>
    have hdone (hb : t.Branched) : ∃ es t', (pure () : TreeM α Unit).run t = .ok () t' ∧
        t'.Sound ∧ Steps t es t' ∧ es.countP Event.endsReinsertion = 0 ∧
          (∀ q, t'.copies q = t.copies q) ∧ t'.Branched :=
      ⟨[], t, rfl, ⟨lev, h⟩, .nil, rfl, fun _ => rfl, hb⟩
    unfold collapseRoot
    rw [get_bind, bind_ok (getNode_ok h.linked.root.lt)]
    cases hl : (t.slot t.root).leaf with
    | true => exact hdone (.inl hl)
    | false =>
      cases hm : (t.slot t.root).children with
      | nil => exact absurd hm (h.children_ne_nil h.linked.root hl)
      | cons only rest =>
        cases rest with
        | cons second rest =>
          refine hdone (.inr ?_)
          rw [hm]
          exact Nat.le_add_left 2 rest.length
        | nil =>
          obtain ⟨honly, -, hlev⟩ := h.linked.child t.root only (by simp [hm])
          obtain ⟨t₁, t₂, t₃, hrun₁, hrun₂, hrun₃, hc⟩ := collapse_ok h.linked hm
          have hshaped := hc.shaped h hm
          have hlim₃ : Inherited.levels lev t.root only t₃.root < limit := by
            rw [hc.frame.root, Inherited.levels_root]
            omega
          obtain ⟨es, t', hrun, hsound, hsteps, hnone, hcopies, hb⟩ := ih hshaped hlim₃
          refine ⟨.collapse only :: es, t', ?_, hsound, .cons (.collapse h hm hc) hsteps, ?_, ?_,
            hb⟩
          · simp only
            rw [bind_ok (getNode_ok honly.lt), bind_ok hrun₁, bind_ok hrun₂, bind_ok hrun₃]
            exact hrun
          · rw [List.countP_cons_of_neg Bool.false_ne_true]
            exact hnone
          · intro q
            exact (hcopies q).trans (hc.copies q)

/-- A finite point of the right dimension gets the next number and is in the tree. -/
theorem insertBy_ok (h : t.Settled) (hp : Rectangle.FinitePoint t.dim p) :
    ∃ es t',
      (∀ s : Strategy α, s.Serves (t.withStore (t.store.push ⟨p, false⟩) t.size) →
        (insertBy s p).run t = .ok ⟨t.store.size⟩ t') ∧
        t'.Settled ∧ Inserted t t' p es ∧
          Entered (t.withStore (t.store.push ⟨p, false⟩) t.size) ⟨t.store.size⟩ es := by
  let t₀ := t.withStore (t.store.push ⟨p, false⟩) t.size
  have hsound₀ : t₀.Sound := h.sound.push hp false t.size
  let id : PointId := ⟨t.store.size⟩
  have hnew : t₀.copies id = 0 := by
    change t.copies id = 0
    rw [h.copies]
    simp [contains, id]
  have hstored : id.index < t₀.store.size := by
    change t.store.size < (t.store.push _).size
    rw [Array.size_push]
    omega
  obtain ⟨es, flags, t₁, hrun, hc, hcopies, hcrowded, hentered⟩ :=
    insertStored_ok hsound₀ hstored hnew .fresh
  have hframe := hc.steps.frame
  have hsize : t₁.size = t.size := hframe.size
  have hstore : (t₁.setLive ⟨t.store.size⟩ true).store = t.store.push ⟨p, true⟩ := by
    unfold setLive
    rw [hframe.store]
    show (t.store.push ⟨p, false⟩).modify t.store.size (fun s => { s with live := true }) = _
    apply Array.ext
    · simp
    · intro i h1 h2
      rw [Array.getElem_modify, Array.getElem_push, Array.getElem_push]
      rw [Array.size_push] at h2
      by_cases hi : t.store.size = i
      · simp [hi]
      · have hlt : i < t.store.size := by omega
        simp [hi, hlt]
  let t' := t₁.withStore (t.store.push ⟨p, true⟩) (t.size + 1)
  refine ⟨es, t', fun s hs => ?_, ⟨?_, ?_, ?_⟩, ⟨hp, ⟨t₁, flags, hc, hcrowded, rfl⟩⟩,
    hentered⟩
  · have hlast : { t₁.setLive ⟨t.store.size⟩ true with size := t₁.size + 1 } = t' := by
      change t₁.withStore _ _ = t'
      rw [hstore, hsize]
    unfold insertBy
    rw [bind_ok (query_ok (acceptPoint_eq_ok.mpr hp)),
      bind_ok (show (storePoint p false).run t = .ok ⟨t.store.size⟩ t₀ from rfl),
      bind_ok (hrun s hs), modify_bind, hlast]
    rfl
  · have hsound := hc.sound.setLive ⟨t.store.size⟩ true (t.size + 1)
    rw [hstore] at hsound
    exact hsound
  · intro q
    have hcontains : t'.contains q = (t.contains q || decide (q = ⟨t.store.size⟩)) :=
      contains_push q
    have hcount : t'.copies q = t.copies q + [(⟨t.store.size⟩ : PointId)].count q := hcopies q
    rw [hcount, hcontains, h.copies]
    by_cases hq : q = ⟨t.store.size⟩
    · subst hq
      simp [contains]
    · have hne : (⟨t.store.size⟩ : PointId) ≠ q := Ne.symm hq
      simp [hq, hne]
  · change t.size + 1 = (t.store.push ⟨p, true⟩).toList.countP StoredPoint.live
    rw [h.size]
    simp

/-- The tree's own strategy serves it. -/
theorem insert_ok (h : t.Settled) (hp : Rectangle.FinitePoint t.dim p) :
    ∃ es t', (insert p).run t = .ok ⟨t.store.size⟩ t' ∧ t'.Settled ∧ Inserted t t' p es ∧
      Entered (t.withStore (t.store.push ⟨p, false⟩) t.size) ⟨t.store.size⟩ es := by
  obtain ⟨es, t', hrun, hrest⟩ := insertBy_ok h hp
  refine ⟨es, t', ?_, hrest⟩
  rw [run_insert]
  exact hrun t.strategy (Strategy.serves_self (t.withStore (t.store.push ⟨p, false⟩) t.size))

/-- A live point is taken out; the root collapses if it has to. -/
theorem removeBy_ok (h : t.Settled) (hid : t.contains id = true) :
    ∃ es t', (∀ s : Strategy α, s.Serves t → (removeBy s id).run t = .ok true t') ∧
      t'.Settled ∧ Removed t t' id es := by
  have hlisted : 0 < t.copies id := by
    rw [h.copies, if_pos hid]
    exact Nat.one_pos
  obtain ⟨es₁, flags, t₁, hrun₁, hc, hcopies₁⟩ := deleteStored_ok h.sound hlisted .fresh
  have hframe := hc.steps.frame
  let t₂ := t₁.withStore (t.setLive id false).store (t.size - 1)
  have hstore : (t₁.setLive id false).store = (t.setLive id false).store := by
    unfold setLive
    rw [hframe.store]
  have hsound₂ : t₂.Sound := by
    have hsound := hc.sound.setLive id false (t.size - 1)
    rw [hstore] at hsound
    exact hsound
  obtain ⟨lev, hshaped⟩ := hsound₂
  have hlim := hshaped.level_root_lt_limit
  obtain ⟨es₂, t', hrun₂, hsound', hsteps₂, hnone, hcopies₂, hb⟩ := collapseRoot_ok hshaped hlim
  have hframe₂ := hsteps₂.frame
  refine ⟨es₁ ++ es₂, t', fun s hs => ?_, ⟨hsound', ?_, ?_⟩, hid,
    ⟨es₁, es₂, t₁, rfl, hc.steps, hsteps₂⟩, ?_, hc.uniform.append (.of_noReinsertion hnone), hb⟩
  · have hmark : { t₁.setLive id false with size := t₁.size - 1 } = t₂ := by
      change t₁.withStore _ _ = t₂
      rw [hstore, hframe.size]
    unfold removeBy
    rw [get_bind]
    simp only [hid, if_true]
    rw [bind_ok (hrun₁ s hs)]
    simp only [if_true]
    rw [modify_bind, hmark, get_bind, bind_ok hrun₂]
    rfl
  · intro q
    have hcontains : t'.contains q = (t.contains q && !decide (q = id)) := by
      have hsame : t'.contains q = t₂.contains q := by
        unfold contains
        rw [hframe₂.store]
      rw [hsame]
      exact contains_setLive_false q (t.size - 1)
    have hcount : t₁.copies q = t₂.copies q := rfl
    have h1 := hcopies₁ q
    have h2 := hcopies₂ q
    rw [h.copies] at h1
    rw [hcontains]
    by_cases hq : q = id
    · subst hq
      simp only [hid, if_true, List.count_singleton_self] at h1
      simp only [decide_true, Bool.not_true, Bool.and_false, Bool.false_eq_true, if_false]
      omega
    · have hne : [id].count q = 0 := by simpa [List.count_singleton] using Ne.symm hq
      simp only [hq, decide_false, Bool.not_false, Bool.and_true]
      omega
  · rw [hframe₂.size, hframe₂.store]
    exact h.size_setLive_false hid
  · have := hc.turns
    rw [List.countP_append]
    omega

theorem remove_ok (h : t.Settled) (hid : t.contains id = true) :
    ∃ es t', (remove id).run t = .ok true t' ∧ t'.Settled ∧ Removed t t' id es := by
  obtain ⟨es, t', hrun, hrest⟩ := removeBy_ok h hid
  refine ⟨es, t', ?_, hrest⟩
  rw [run_remove]
  exact hrun t.strategy (Strategy.serves_self t)

end TreeM

end RTree
