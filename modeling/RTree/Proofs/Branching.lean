import RTree.Proofs.Runs
import RTree.Proofs.Scalar.Binary64

namespace RTree

namespace Tree

variable {α : Type} [Scalar α] {t t' : Tree α} {k : Call α} {answer : Answer α}

/-- A new point goes to a leaf that has room, which changes no links, or there are more points than
a leaf may hold. In the second case the growth of the tree and the number of points leave the root
no chance to have a single child. -/
theorem Inserted.branched {p : List α} {es : List (Event α)} (h : Inserted t t' p es)
    (ht : t.Branched)
    (hor : t.config.Roomy ∨ t'.stats.forcedReinsertions = t.stats.forcedReinsertions) :
    t'.Branched := by
  have hcount := h.frame.2.2.2.2
  obtain ⟨t₁, flags, hext, hcrowded, rfl⟩ := h.cascade
  have hor₁ : t.config.Roomy ∨ es.countP Event.endsReinsertion = 0 := by
    refine hor.imp_right fun hsame => ?_
    omega
  -- the store does not matter
  change t₁.Branched
  rcases hcrowded with hlinks | hcrowded
  · exact hlinks.branched ht
  · exact hext.sound.branched ((hext.growth hor₁).nearlyBranched (.inl ht)) hcrowded

/-- Each call leaves a root with two children, if it does not carry through a forced reinsertion
that may dissolve a leaf. -/
theorem Called.branched (h : Called t k answer t') (ht : t.Branched)
    (hor : t.config.Roomy ∨ t'.stats.forcedReinsertions = t.stats.forcedReinsertions) :
    t'.Branched := by
  cases h with
  | inserted hins => exact hins.branched ht hor
  | refused => exact ht
  | removed hrem => exact hrem.branched
  | absent => exact ht
  | cleared => exact .inl rfl

/-- A removal that finds its point leaves one in any case. -/
theorem Called.branched_of_contains {id : PointId} (h : Called t (.remove id) answer t')
    (hid : t.contains id = true) : t'.Branched := by
  cases h with
  | removed hrem => exact hrem.branched
  | absent habsent => simp [habsent] at hid

variable [OrderedScalar α] {c : Config α} {t₀ : Tree α}

/-- After any calls the root is a leaf or has two children, if forced reinsertions leave enough
points behind. Otherwise it is so after each removal that finds its point and after clearing, and
stays so in any call without a forced reinsertion. -/
theorem root_branched (h : Tree.new c = .ok t₀) (ks : List (Call α)) {t : Tree α}
    (ht : (t₀.calls ks).2 = t) :
    (c.Roomy → t.Branched) ∧
      (∀ id, t.contains id = true → (t.call (.remove id)).2.Branched) ∧
      (t.call .clear).2.Branched ∧
      ∀ k, t.Branched →
        (t.call k).2.stats.forcedReinsertions = t.stats.forcedReinsertions →
          (t.call k).2.Branched := by
  have hsettled := settled_new h
  have hcalled : ∀ k, Called t k (t.call k).1 (t.call k).2 := by
    intro k
    rw [← ht]
    exact ((hsettled.calls ks).call k).1
  refine ⟨fun hroomy => ?_, fun id hid => (hcalled (.remove id)).branched_of_contains hid, .inl rfl,
    fun k hb hsame => (hcalled k).branched hb (.inr hsame)⟩
  obtain ⟨-, rfl⟩ := new_eq_ok.mp h
  rw [← ht]
  refine (calls_induction (P := fun t => t.Branched ∧ t.config = c) ?_ hsettled
    ⟨.inl rfl, rfl⟩ ks).1
  rintro t k hs ⟨hb, hc⟩
  obtain ⟨hk, -⟩ := hs.call k
  exact ⟨hk.branched hb (.inl (hc ▸ hroomy)), hk.config.trans hc⟩

def pairs : Config Float :=
  { (default : Config Float) with
    minLeafSize := 1, maxLeafSize := 2, variant := .rStar, reinsertFraction := 0.5 }

/-- Of three points one is inserted again, and then they are in two leaves; taking one out brings
the root back to a leaf. -/
theorem root_branched_pairs :
    ∃ t, ((ofConfig pairs).calls [.insert [0, 0], .insert [1, 1], .insert [5, 5]]).2 = t ∧
      t.Branched ∧ (t.slot t.root).leaf = false ∧ t.stats.forcedReinsertions = 1 ∧
      (t.call (.remove ⟨2⟩)).2.Branched := by
  obtain ⟨hroomy, hremove, -⟩ := root_branched (c := pairs) rfl
    [.insert [0, 0], .insert [1, 1], .insert [5, 5]] rfl
  refine ⟨_, rfl, hroomy ?_, ?_, ?_, hremove ⟨2⟩ ?_⟩ <;> decide +kernel

/-- Leaves for five that give up four points, and so have to be dissolved. -/
def thin : Config Float :=
  { (default : Config Float) with
    dimension := 1, minLeafSize := 3, maxLeafSize := 5, variant := .rStar, reinsertFraction := 0.9 }

/-- An insertion may leave the root a single child. -/
theorem not_root_branched_thin :
    Tree.new thin = .ok (ofConfig thin) ∧
      ¬((ofConfig thin).calls
        ([17, 0, 2, 20, 11, 20, 1, 13, 16, 10, 7, 2, 0, 4, 20, 4, 2, 16].map (.insert [·]) ++
          [.remove ⟨13⟩, .insert [2]])).2.Branched := by
  refine ⟨rfl, ?_⟩
  decide +kernel

end Tree

end RTree
