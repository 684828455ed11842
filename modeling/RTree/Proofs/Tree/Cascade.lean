import RTree.Proofs.Tree.Overflow

namespace RTree

variable {α : Type} [Scalar α]

namespace Tree

variable {t t' t'' : Tree α} {flags flags' flags'' : LevelFlags} {es es' : List (Event α)}
  {e : Event α}

/-- How many forced reinsertions the flags still allow. One takes up the turn of the leaves, so the
insertions within it have none left. -/
def turns (t : Tree α) (flags : LevelFlags) : Nat :=
  if t.config.variant = .rTree ∨ 0 ∈ flags.used then 0 else 1

omit [Scalar α] in
theorem turns_le_one (t : Tree α) (flags : LevelFlags) : t.turns flags ≤ 1 := by
  unfold turns
  split <;> omega

omit [Scalar α] in
theorem SameFrame.turns (h : SameFrame t t') (flags : LevelFlags) :
    t'.turns flags = t.turns flags := by
  unfold Tree.turns
  rw [h.config]

omit [Scalar α] in
/-- Flags only allow less when more of them are used. -/
theorem turns_le_of_subset (h : ∀ l ∈ flags.used, l ∈ flags'.used) :
    t.turns flags' ≤ t.turns flags := by
  unfold turns
  by_cases hz : t.config.variant = .rTree ∨ 0 ∈ flags'.used
  · rw [if_pos hz]
    exact Nat.zero_le _
  · rw [if_neg hz, if_neg]
    intro hcon
    apply hz
    exact hcon.imp id (h 0)

/-- How many points of a leaf that has one too many are reinserted. -/
def relief (t : Tree α) : Nat := min t.config.reinsertionSize (t.config.maxLeafSize + 1)

theorem SameFrame.relief (h : SameFrame t t') : t'.relief = t.relief := by
  unfold Tree.relief
  rw [h.config]

/-- A stretch of a call after which the tree is in order. The flags pay for the forced reinsertions
in it. -/
structure Cascaded (t t' : Tree α) (flags flags' : LevelFlags) (es : List (Event α)) : Prop where
  sound : t'.Sound
  steps : Steps t es t'
  turns : es.countP Event.endsReinsertion + t'.turns flags' ≤ t.turns flags
  uniform : Uniform t.relief es

namespace Cascaded

theorem refl (h : t.Sound) (flags : LevelFlags) : Cascaded t t flags flags [] where
  sound := h
  steps := .nil
  turns := by simp
  uniform := .of_noReinsertion rfl

theorem trans (h : Cascaded t t' flags flags' es) (h' : Cascaded t' t'' flags' flags'' es') :
    Cascaded t t'' flags flags'' (es ++ es') where
  sound := h'.sound
  steps := h.steps.trans h'.steps
  turns := by
    have h1 := h.turns
    have h2 := h'.turns
    rw [List.countP_append]
    omega
  uniform := h.uniform.append (h.steps.frame.relief ▸ h'.uniform)

/-- Any step but the end of a forced reinsertion may come before. -/
theorem cons (hs : Step t e t') (he : e.endsReinsertion = false)
    (h : Cascaded t' t'' flags flags' es) : Cascaded t t'' flags flags' (e :: es) where
  sound := h.sound
  steps := .cons hs h.steps
  turns := by
    rw [List.countP_cons_of_neg (by simp [he]), ← hs.frame.turns flags]
    exact h.turns
  uniform := .cons he (hs.frame.relief ▸ h.uniform)

theorem turns_le (h : Cascaded t t' flags flags' es) : t'.turns flags' ≤ t.turns flags := by
  have h1 := h.turns
  omega

end Cascaded

/-- A stretch of insertions. The tree only grows, unless a forced reinsertion may leave a leaf with
too few points. -/
structure Extended (t t' : Tree α) (flags flags' : LevelFlags) (es : List (Event α)) : Prop
    extends Cascaded t t' flags flags' es where
  growth : t.config.Roomy ∨ es.countP Event.endsReinsertion = 0 → Growth t t'

namespace Extended

theorem refl (h : t.Sound) (flags : LevelFlags) : Extended t t flags flags [] where
  toCascaded := .refl h flags
  growth := fun _ => .refl

theorem trans (h : Extended t t' flags flags' es) (h' : Extended t' t'' flags' flags'' es') :
    Extended t t'' flags flags'' (es ++ es') where
  toCascaded := h.toCascaded.trans h'.toCascaded
  growth := by
    intro hg
    rw [List.countP_append, Nat.add_eq_zero_iff] at hg
    have hg' : t'.config.Roomy ∨ es'.countP Event.endsReinsertion = 0 := by
      rw [h.steps.frame.config]
      exact hg.imp_right And.right
    exact (h.growth (hg.imp_right And.left)).trans (h'.growth hg')

theorem cons (hs : Step t e t') (he : e.endsReinsertion = false) (hg : Growth t t')
    (h : Extended t' t'' flags flags' es) : Extended t t'' flags flags' (e :: es) where
  toCascaded := .cons hs he h.toCascaded
  growth := by
    intro hor
    rw [List.countP_cons_of_neg (by simp [he]), ← hs.frame.config] at hor
    exact hg.trans (h.growth hor)

end Extended

/-- Inserts any stored point that the tree does not list, while the flags allow `most` forced
reinsertions at most; with every strategy that serves the tree in the same way. -/
def Reinserts (again : Strategy α → Reinsertion α) (most : Nat) : Prop :=
  ∀ (t : Tree α) (flags : LevelFlags) (id : PointId), t.Sound → t.turns flags ≤ most →
    id.index < t.store.size → t.copies id = 0 →
      ∃ es flags' t', (∀ s : Strategy α, s.Serves t → (again s id flags).run t = .ok flags' t') ∧
        Extended t t' flags flags' es ∧ ∀ q, t'.copies q = t.copies q + [id].count q

end Tree

namespace TreeM

open RTree.Tree

variable {t : Tree α} {lev : NodeId → Nat} {flags : LevelFlags}
  {again : Strategy α → Reinsertion α} {most : Nat} {extra : Option NodeId} {leaf : NodeId}
  {p : PointId}

theorem count_cons_eq (p : PointId) (points : List PointId) (q : PointId) :
    (p :: points).count q = [p].count q + points.count q := by
  rw [← List.count_append]
  rfl

theorem count_singleton_of_mem {points : List PointId} {q : PointId} (hp : p ∉ points)
    (hq : q ∈ points) : [p].count q = 0 := by
  rw [List.count_eq_zero, List.mem_singleton]
  intro heq
  subst heq
  exact hp hq

/-- Points inserted in turn are all in the tree afterwards. -/
theorem all_ok (ha : Reinserts again most) {points : List PointId} (h : t.Sound)
    (hmost : t.turns flags ≤ most) (hnodup : points.Nodup)
    (hstored : ∀ p ∈ points, p.index < t.store.size) (hnew : ∀ p ∈ points, t.copies p = 0) :
    ∃ es flags' t',
      (∀ s : Strategy α, s.Serves t → ((again s).all points flags).run t = .ok flags' t') ∧
        Extended t t' flags flags' es ∧ ∀ q, t'.copies q = t.copies q + points.count q := by
  induction points generalizing t flags with
  | nil => exact ⟨[], flags, t, fun _ _ => rfl, .refl h flags, by simp⟩
  | cons p points ih =>
    obtain ⟨hp, hrest⟩ := List.nodup_cons.mp hnodup
    obtain ⟨es₁, flags₁, t₁, hrun₁, hc₁, hcopies₁⟩ :=
      ha t flags p h hmost (hstored p (by simp)) (hnew p (by simp))
    have hframe := hc₁.steps.frame
    have hmost₁ : t₁.turns flags₁ ≤ most := hc₁.turns_le.trans hmost
    have hstored₁ : ∀ q ∈ points, q.index < t₁.store.size := by
      intro q hq
      rw [hframe.store]
      exact hstored q (by simp [hq])
    have hnew₁ : ∀ q ∈ points, t₁.copies q = 0 := by
      intro q hq
      rw [hcopies₁, hnew q (by simp [hq]), count_singleton_of_mem hp hq]
    obtain ⟨es₂, flags₂, t₂, hrun₂, hc₂, hcopies₂⟩ :=
      ih hc₁.sound hmost₁ hrest hstored₁ hnew₁
    refine ⟨es₁ ++ es₂, flags₂, t₂, fun s hs => ?_, hc₁.trans hc₂, ?_⟩
    · unfold Reinsertion.all
      rw [List.foldlM_cons]
      exact (bind_ok (hrun₁ s hs) _).trans (hrun₂ s (hs.steps hc₁.steps))
    · intro q
      have hcount := count_cons_eq p points q
      rw [hcopies₂, hcopies₁, hcount, Nat.add_assoc]

theorem deleteAll_cons {again : Reinsertion α} {points : List PointId} {flags₁ flags' : LevelFlags}
    {t₁ t' : Tree α} (hp : (takeOut again p flags).run t = .ok (true, flags₁) t₁)
    (hrest : (deleteAll again points flags₁).run t₁ = .ok flags' t') :
    (deleteAll again (p :: points) flags).run t = .ok flags' t' := by
  unfold deleteAll
  rw [List.foldlM_cons, bind_assoc, bind_ok hp]
  exact hrest

variable [OrderedScalar α]

/-- A point listed by a leaf is taken out of it, even if it is the leaf's one point too many. What
falls out with it is in the tree again; nothing does if the leaf had points to spare. -/
theorem takeOut_ok (ha : Reinserts again most) (h : t.Shaped lev extra none [])
    (hmost : t.turns flags ≤ most) (hextra : ∀ x ∈ extra, x = leaf)
    (hp : p ∈ (t.slot leaf).points) :
    ∃ es flags' t',
      (∀ s : Strategy α, s.Serves t → (takeOut (again s) p flags).run t = .ok (true, flags') t') ∧
        Cascaded t t' flags flags' es ∧ (∀ q, t'.copies q + [p].count q = t.copies q) ∧
        (t.config.minLeafSize < (t.slot leaf).points.length → Drained t t' leaf p) := by
  obtain ⟨orphans, t₁, t₂, hstrike, hcondense, hsettle, hsound, hl, hdrained⟩ :=
    lift_ok h hextra hp
  have hle : ∀ q, t₂.copies q + orphans.count q ≤ 1 := by
    intro q
    have h1 := hl.copies q
    have h2 := h.registered.copies_le q
    omega
  have hnodup : orphans.Nodup := by
    rw [List.nodup_iff_count_le_one]
    intro q
    have := hle q
    omega
  have hnew : ∀ q ∈ orphans, t₂.copies q = 0 := by
    intro q hq
    have h1 := hle q
    have h2 := List.count_pos_iff.mpr hq
    omega
  have hstored : ∀ q ∈ orphans, q.index < t₂.store.size := by
    intro q hq
    rw [hl.frame.store]
    apply h.registered.stored
    have h1 := hl.copies q
    have h2 := List.count_pos_iff.mpr hq
    omega
  have hmost₂ : t₂.turns flags ≤ most := hl.frame.turns flags ▸ hmost
  obtain ⟨es, flags', t', hrun, hc, hcopies⟩ :=
    all_ok ha hsound hmost₂ hnodup hstored hnew
  have hstep : Step t (.lift p orphans) t₂ := .lift h hsound hl
  refine ⟨.lift p orphans :: es, flags', t', fun s hs => ?_, .cons hstep rfl hc.toCascaded, ?_, ?_⟩
  · unfold takeOut
    rw [bind_ok (leafOf?_ok h hp)]
    simp only
    rw [bind_ok hstrike]
    have htree : (condenseTree (again s) leaf flags).run (t.strike leaf p) = .ok flags' t' := by
      unfold condenseTree
      rw [get_bind, bind_ok hcondense, bind_ok hsettle]
      exact hrun s (hs.step hstep)
    rw [bind_ok htree]
    rfl
  · intro q
    have h1 := hl.copies q
    have h2 := hcopies q
    omega
  · intro hmany
    obtain ⟨rfl, hd⟩ := hdrained hmany
    cases hrun t₂.strategy (Strategy.serves_self t₂)
    exact hd

/-- Listed points are taken out in turn, the first from the leaf that has one too many if there is
such a leaf. No node goes if they all are in one leaf that can do without them. -/
theorem deleteAll_ok (ha : Reinserts again most) {points : List PointId}
    (h : t.Shaped lev extra none []) (hmost : t.turns flags ≤ most)
    (hnodup : points.Nodup) (hlisted : ∀ p ∈ points, 0 < t.copies p)
    (hextra : ∀ x ∈ extra, ∃ p ∈ points.head?, p ∈ (t.slot x).points) :
    ∃ es flags' t',
      (∀ s : Strategy α, s.Serves t → (deleteAll (again s) points flags).run t = .ok flags' t') ∧
        Cascaded t t' flags flags' es ∧ (∀ q, t'.copies q + points.count q = t.copies q) ∧
        ∀ leaf, t.Spares leaf points → SameLinks t t' ∧ t'.stats = t.stats := by
  induction points generalizing t lev extra flags with
  | nil =>
    have hnone : extra = none := by
      cases extra with
      | none => rfl
      | some x => simpa using hextra x rfl
    have hsound : t.Sound := ⟨lev, hnone ▸ h⟩
    exact ⟨[], flags, t, fun _ _ => rfl, .refl hsound flags, by simp, fun _ _ => ⟨.refl t, rfl⟩⟩
  | cons p points ih =>
    obtain ⟨hp, hrest⟩ := List.nodup_cons.mp hnodup
    have hcopies := h.registered.copies_le
    obtain ⟨leaf, hleaf⟩ := exists_mem_points (hlisted p (by simp))
    have hextra' : ∀ x ∈ extra, x = leaf := by
      intro x hx
      obtain ⟨q, hq, hqx⟩ := hextra x hx
      obtain rfl : p = q := Option.some.inj hq
      exact eq_of_mem_points (hcopies p) hqx hleaf
    obtain ⟨es₁, flags₁, t₁, hrun₁, hc₁, hcopies₁, hdrained⟩ :=
      takeOut_ok ha h hmost hextra' hleaf
    have hlisted₁ : ∀ q ∈ points, 0 < t₁.copies q := by
      intro q hq
      have h1 := hcopies₁ q
      have h2 := hlisted q (by simp [hq])
      have h3 := count_singleton_of_mem hp hq
      omega
    obtain ⟨lev₁, h₁⟩ := hc₁.sound
    obtain ⟨es₂, flags₂, t₂, hrun₂, hc₂, hcopies₂, hsame⟩ :=
      ih h₁ (hc₁.turns_le.trans hmost) hrest hlisted₁ (by simp)
    refine ⟨es₁ ++ es₂, flags₂, t₂,
      fun s hs => deleteAll_cons (hrun₁ s hs) (hrun₂ s (hs.steps hc₁.steps)), hc₁.trans hc₂, ?_, ?_⟩
    · intro q
      have h1 := hcopies₁ q
      have h2 := hcopies₂ q
      have hcount := count_cons_eq p points q
      omega
    · intro leaf' hspares
      obtain rfl := eq_of_mem_points (hcopies p) (hspares.listed p (by simp)) hleaf
      have hd := hdrained hspares.lt_length
      obtain ⟨hlinks, hstats⟩ := hsame leaf' (hd.spares hp (nodup_points hcopies leaf') hspares)
      exact ⟨hd.links.trans hlinks, hstats.trans hd.stats⟩

end TreeM

end RTree
