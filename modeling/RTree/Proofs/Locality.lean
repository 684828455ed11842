import RTree.Proofs.Capacities
import RTree.Proofs.Slots
import RTree.Proofs.Tree.Midway
import RTree.Proofs.Tree.Mending

namespace RTree

namespace Tree

variable {α : Type} [Scalar α]

/-- What an insertion does that stays on the way to the leaf of its point. Nodes beside the way are
kept. Nodes on the way that do not go have their old bound with the point taken in; the root never
goes, and if it takes the place of a child, its bound is found anew and only counts as equal to
that. Each node that goes is counted. -/
structure Local (t t' : Tree α) (p : List α) (way : List NodeId) (es : List (Event α)) : Prop where
  aside : ∀ x, t.Below t.root x → x ∉ way → t'.Below t'.root x ∧ Kept t t' x
  onWay : ∀ x ∈ way, (∀ e ∈ es, e.outgoing? ≠ some x) → t'.Below t'.root x ∧
    ((t'.slot x).bound == (t.slot x).bound.insert p) = true ∧
      ((x = t.root → ∀ e ∈ es, e.absorbs = false) →
        (t'.slot x).bound = (t.slot x).bound.insert p)
  root : t'.root = t.root ∧ t.root ∈ way ∧ ∀ e ∈ es, e.outgoing? ≠ some t.root
  counted : t'.stats.leafSplits + t'.stats.directorySplits + t'.stats.rootAbsorptions =
    t.stats.leafSplits + t.stats.directorySplits + t.stats.rootAbsorptions +
      es.countP (·.outgoing?.isSome)

variable {t t' t₁ : Tree α} {p : List α} {id : PointId} {leaf x : NodeId} {way : List NodeId}
  {lev : NodeId → Nat} {es : List (Event α)}

theorem Steps.outgoing_counted (h : Steps t es t') :
    t'.stats.leafSplits + t'.stats.directorySplits + t'.stats.rootAbsorptions =
      t.stats.leafSplits + t.stats.directorySplits + t.stats.rootAbsorptions +
        es.countP (·.outgoing?.isSome) := by
  induction h with
  | nil => rfl
  | @cons _ _ _ e es hs _ ih =>
    rw [ih, hs.outgoing_counted, Nat.add_assoc, ← List.countP_append]
    rfl

theorem Placed.bound (h : Placed t t' id way leaf) (hx : x ∈ way) :
    (t'.slot x).bound = (t.slot x).bound.insert (t.coordsAt id) := by
  by_cases hl : x = leaf
  · rw [hl, h.slot_leaf]
    exact Rectangle.insert_insert _ _
  · rw [h.slot_way x hx hl]

variable [OrderedScalar α]

/-- A point is put into a leaf, and what is overfull then is dealt with on the spot. -/
theorem Placed.isLocal (h : Placed t t₁ id way leaf) (ht : t.Shaped lev none none [])
    (hid : id.index < t.store.size) (hnew : t.copies id = 0) (hs : Steps t₁ es t')
    (hes : ∀ e ∈ es, e.mends = true) (hsound : t'.Sound) :
    Local t t' (t.coordsAt id) way (.place id leaf :: es) := by
  have hlinks := h.sameLinks ht.linked
  have hshaped := h.shaped hid hnew ht
  have hroot₁ := h.nodes.frame.root
  have hway : t₁.Way t₁.root leaf way := by
    rw [hroot₁]
    exact h.route.congr hlinks.leaf hlinks.children
  have hmended : Mended t₁ t' way es := (Mended.refl hshaped hway).steps hshaped hway hs hes
  obtain ⟨lev', ht'⟩ := hsound
  refine ⟨fun x hx hxw => ?_, fun x hxw hout => ?_, ⟨hmended.frame.root.trans hroot₁, ?_, ?_⟩, ?_⟩
  · have hxu := (ht.linked.inUse_iff_below x).mpr hx
    have hxu₁ := (hlinks.inUse x).mpr hxu
    have hkept := hmended.aside x hxu₁ hxw
    have hplaced : Kept t t₁ x := ⟨_, h.other x hxw⟩
    exact ⟨ht'.linked.below_root (hkept.inUse hxu₁), hplaced.trans hkept⟩
  · obtain ⟨-, hout⟩ := List.forall_mem_cons.mp hout
    have hxu₁ := (hway.inUse hshaped.linked hshaped.linked.root x hxw).1
    have hold := (hshaped.fitted.proper x hxu₁).isHull_singleton
    rw [← h.bound hxw]
    refine ⟨ht'.linked.below_root (hmended.inUse x hxw hout),
      (hmended.bound_hull x hxw hout).beq hold,
      fun hroot => hmended.bound_eq x hxw hout fun hr => ?_⟩
    exact (List.forall_mem_cons.mp (hroot (hr.trans hroot₁))).2
  · exact h.route.head_mem
  · exact List.forall_mem_cons.mpr ⟨nofun, hroot₁ ▸ hmended.root⟩
  · have hcounted := hs.outgoing_counted
    rw [h.nodes.stats] at hcounted
    rw [hcounted, List.countP_cons_of_neg Bool.false_ne_true]

/-- After any calls an insertion of a finite point succeeds, and in the quadratic variant it carries
through no forced reinsertion. If it carries through none, it is local to the way down to the leaf
that the descent chooses. -/
theorem insertion_local {c : Config α} {t₀ : Tree α} (h : Tree.new c = .ok t₀) (ks : List (Call α))
    (ht : (t₀.calls ks).2 = t) (hp : Rectangle.FinitePoint c.dimension p) :
    ∃ t', t.call (.insert p) = (.inserted ⟨t.store.size⟩, t') ∧
      (c.variant = .rTree → t'.stats.forcedReinsertions = t.stats.forcedReinsertions) ∧
      (t'.stats.forcedReinsertions = t.stats.forcedReinsertions →
        ∃ leaf t₁ way es,
          (TreeM.descendFrom t.strategy.descent p t.walkLimit t.root).run (t.booked p) =
            .ok leaf t₁ ∧
          t.Way t.root leaf way ∧ Inserted t t' p es ∧ Local t t' p way es) := by
  have hnew := settled_new h
  obtain ⟨-, rfl⟩ := new_eq_ok.mp h
  have hsettled : t.Settled := ht ▸ hnew.calls ks
  have hconfig : t.config = c := ht ▸ config_calls hnew ks
  have hp' : Rectangle.FinitePoint t.dim p := by
    rw [dim, hconfig]
    exact hp
  obtain ⟨es, t', hrun, hsettled', hins, hentered⟩ := TreeM.insert_ok hsettled hp'
  have hcount := hins.frame.2.2.2.2
  refine ⟨t', call_insert_ok hrun, fun hv => ?_, fun hsame => ?_⟩
  · have hturns := hins.turns
    rw [turns_rTree (hconfig.symm ▸ hv)] at hturns
    omega
  · have hcascade := hins.cascade
    cases hentered with
    | @intro leaf rest hchosen hmending =>
      obtain ⟨t₁, hchosen⟩ := hchosen
      rw [coordsAt_push_self] at hchosen
      obtain ⟨t₂, flags, hext, -, rfl⟩ := hcascade
      have hnone : rest.countP Event.endsReinsertion = 0 := by
        rw [List.countP_cons_of_neg Bool.false_ne_true] at hcount
        omega
      cases hext.steps with
      | cons hplace hrest =>
        cases hplace with
        | place hshaped hid hfree hplaced =>
          have hlocal := hplaced.isLocal hshaped hid hfree hrest (hmending hnone) hext.sound
          rw [coordsAt_push_self] at hlocal
          -- the store plays no part in it
          exact ⟨leaf, t₁, _, _, hchosen, hplaced.route.congr (fun _ => rfl) (fun _ => rfl), hins,
            hlocal.aside, hlocal.onWay, hlocal.root, hlocal.counted⟩

def fivePoints : List (Call Float) :=
  [.insert [6, 2], .insert [6, 3], .insert [6, 4], .insert [1, 4], .insert [2, 1]]

/-- Three leaves below a root that has no room for a fourth. -/
def clump : Tree Float := ((ofConfig narrow).calls fivePoints).2

/-- The next point divides its leaf. The contents of the root go down into the slot of that leaf and
come up again, and the two other leaves stay as they are. -/
theorem insertion_local_clump :
    ∃ t' es, clump.call (.insert [5, 0]) = (.inserted ⟨5⟩, t') ∧
      Local clump t' [5, 0] [clump.root, ⟨2⟩] es ∧ es.countP (·.outgoing?.isSome) = 2 ∧
      ∀ i ∈ [1, 4], t'.Below t'.root ⟨i⟩ ∧ Kept clump t' ⟨i⟩ := by
  obtain ⟨t', hcall, -, hlocal⟩ := insertion_local (c := narrow) (t := clump) rfl fivePoints rfl
    (p := [5, 0]) ⟨rfl, by decide +kernel⟩
  have ht' : t' = (clump.call (.insert [5, 0])).2 := (congrArg Prod.snd hcall).symm
  obtain ⟨⟨hsame, hleaves, hdirectories, habsorptions⟩, hleaf, hsize, hroot, hflat, hbelow⟩ :
      (t'.stats.forcedReinsertions = clump.stats.forcedReinsertions ∧
        t'.stats.leafSplits = clump.stats.leafSplits + 1 ∧
          t'.stats.directorySplits = clump.stats.directorySplits ∧
            t'.stats.rootAbsorptions = clump.stats.rootAbsorptions + 1) ∧
      (TreeM.descendFrom clump.strategy.descent [5, 0] clump.walkLimit clump.root).run'
        (clump.booked [5, 0]) = some ⟨2⟩ ∧
      clump.store.size = 5 ∧ clump.root ≠ ⟨2⟩ ∧
      (∀ c ∈ (clump.slot clump.root).children, (clump.slot c).children = []) ∧
      ∀ i ∈ [1, 4], (⟨i⟩ : NodeId) ∈ (clump.slot clump.root).children ∧
        (⟨i⟩ : NodeId) ∉ [clump.root, ⟨2⟩] := by
    rw [ht']
    decide +kernel
  obtain ⟨leaf, t₁, way, es, hchosen, hway, -, hlocal⟩ := hlocal hsame
  unfold EStateM.run' at hleaf
  rw [hchosen] at hleaf
  obtain rfl : leaf = ⟨2⟩ := Option.some.inj hleaf
  obtain rfl : way = [clump.root, ⟨2⟩] := by
    generalize clump.root = root at hway hflat hroot
    cases hway with
    | leaf => exact absurd rfl hroot
    | down hc hway =>
      cases hway with
      | leaf => rfl
      | down hd =>
        rw [hflat _ hc] at hd
        cases hd
  have hcounted := hlocal.counted
  rw [hsize] at hcall
  refine ⟨t', es, hcall, hlocal, by omega, fun i hi => ?_⟩
  obtain ⟨hlisted, haside⟩ := hbelow i hi
  exact hlocal.aside ⟨i⟩ (.single hlisted) haside

end Tree

end RTree
