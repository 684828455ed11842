import RTree.Proofs.Scalar.Binary64
import RTree.Proofs.Slots
import RTree.Proofs.Tree.Trail

namespace RTree

variable {α : Type}

namespace Tree

/-- The capacity of a leaf is the configured one; that of a directory has been doubled, at most once
for each supernode so far, and never but in an X-tree. -/
structure Doubled (t : Tree α) (c : Config α) (x : NodeId) : Prop where
  leaf : (t.slot x).leaf = true → (t.slot x).capacity = c.maxChildren
  doubling : ∃ k ≤ t.stats.supernodeGrowths, (t.slot x).capacity = c.maxChildren * 2 ^ k ∧
    (c.variant ≠ .xTree → k = 0)

variable [Scalar α] {t t' start : Tree α} {c : Config α} {lev : NodeId → Nat}

theorem Shaped.doubled {extra lack : Option NodeId} {loose : List NodeId}
    (h : t.Shaped lev extra lack loose) (hc : t.config = c) : ∀ x, t.InUse x → t.Doubled c x := by
  intro x hx
  obtain ⟨k, hk, hcap, hzero⟩ := (h.filled x hx).capacity
  rw [hc] at hcap hzero
  refine ⟨fun hl => ?_, k, hk, hcap, fun hv => hzero (.inr hv)⟩
  rw [hcap, hzero (.inl hl), Nat.pow_zero, Nat.mul_one]

theorem Settled.doubled (h : t.Settled) (hc : t.config = c) :
    ∀ x, t.Below t.root x → t.Doubled c x := by
  obtain ⟨lev, hs⟩ := h.sound
  exact fun x hx => hs.doubled hc x ((hs.linked.inUse_iff_below x).mpr hx)

variable [OrderedScalar α]

/-- Each step keeps to the capacities that are possible. -/
theorem Step.doubled {e : Event α} (h : Step t e t') (hc : t.config = c)
    (hd : ∀ x, t.InUse x → t.Doubled c x) : ∀ x, t'.InUse x → t'.Doubled c x := by
  have hc' : t'.config = c := h.frame.config.trans hc
  rcases h.shaped_or_counts with ⟨lev, extra, hshaped⟩ | ⟨f, rfl, hf⟩
  · exact hshaped.doubled hc'
  · intro x hx
    obtain ⟨hleaf, k, hk, hcap⟩ := hd x hx
    exact ⟨hleaf, k, hk.trans (Nat.le_of_eq hf.symm), hcap⟩

omit [OrderedScalar α] in
theorem doubled_clear (t : Tree α) : ∀ x, t.clear.InUse x → t.clear.Doubled t.config x := by
  intro ⟨i⟩ hx
  cases i with
  | zero => exact ⟨fun _ => rfl, 0, Nat.zero_le _, (Nat.mul_one _).symm, fun _ => rfl⟩
  | succ i => cases hx

/-- So do all trees on a trail, those in the middle of a call included. -/
theorem Trail.doubled {stages : List (Stage α)} (h : Trail start stages t)
    (hc : start.config = c) (hd : ∀ x, start.InUse x → start.Doubled c x) :
    (∀ x, t.InUse x → t.Doubled c x) ∧ ∀ s ∈ stages, ∀ x,
      (s.before.InUse x → s.before.Doubled c x) ∧ (s.after.InUse x → s.after.Doubled c x) := by
  obtain ⟨hend, hstages⟩ := h.invariant (P := fun t => ∀ x, t.InUse x → t.Doubled c x) hd
    (fun _ _ _ hconfig hs hd => hs.doubled (hconfig.trans hc) hd)
    (fun _ _ _ hd x hx => ⟨(hd x hx).leaf, (hd x hx).doubling⟩)
    (fun t hconfig _ => hconfig.trans hc ▸ doubled_clear t)
  exact ⟨hend, fun s hs x => ⟨(hstages s hs).1 x, (hstages s hs).2 x⟩⟩

/-- After any calls the nodes below the root have capacities that are possible, and so do the nodes
in use before and after every step on the way. -/
theorem capacities_doubled {t₀ : Tree α} (h : Tree.new c = .ok t₀) :
    (∀ ks x, (t₀.calls ks).2.Below (t₀.calls ks).2.root x → (t₀.calls ks).2.Doubled c x) ∧
      ∀ ks, ∃ stages, Trail t₀ stages (t₀.calls ks).2 ∧ ∀ s ∈ stages, ∀ x,
        (s.before.InUse x → s.before.Doubled c x) ∧ (s.after.InUse x → s.after.Doubled c x) := by
  have hsettled := settled_new h
  obtain ⟨-, rfl⟩ := new_eq_ok.mp h
  constructor
  · intro ks
    exact (hsettled.calls ks).doubled (config_calls hsettled ks)
  · intro ks
    obtain ⟨stages, htrail⟩ := exists_trail hsettled ks
    obtain ⟨lev, hs⟩ := hsettled.sound
    exact ⟨stages, htrail, (htrail.doubled rfl (hs.doubled rfl)).2⟩

/-- Leaves for two, directories for three that hardly overlap. -/
def narrow : Config Float :=
  { (default : Config Float) with
    minLeafSize := 1, maxLeafSize := 2, minChildren := 2, maxChildren := 3
    variant := .xTree, maxOverlapRatio := 0.01 }

/-- Six points make a supernode: the root takes over the children of the directory that was to be
split, and has room for six. -/
theorem capacities_doubled_narrow :
    ∃ t, t = ((ofConfig narrow).calls [.insert [6, 2], .insert [6, 3], .insert [6, 4],
        .insert [1, 4], .insert [2, 1], .insert [4, 4]]).2 ∧
      t.Doubled narrow t.root ∧ (t.slot t.root).leaf = false ∧ (t.slot t.root).capacity = 6 ∧
      t.stats.supernodeGrowths = 1 := by
  obtain ⟨hlaw, -⟩ := capacities_doubled (c := narrow) rfl
  refine ⟨_, rfl, hlaw _ _ .refl, ?_, ?_, ?_⟩ <;> decide +kernel

end Tree

end RTree
