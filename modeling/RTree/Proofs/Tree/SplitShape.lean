import RTree.Proofs.Tree.Splits
import Mathlib.Data.List.Nodup
import Mathlib.Data.List.Perm.Basic

namespace RTree

variable {α β : Type}

/-- Replacing a listed item exchanges it for the new one. -/
theorem set_perm_cons_erase [BEq β] [LawfulBEq β] {xs : List β} {x : β} {i : Nat}
    (h : xs.idxOf? x = some i) (y : β) : (xs.set i y).Perm (y :: xs.erase x) := by
  have hi : i < xs.length := by
    rw [List.idxOf?_eq_some_iff] at h
    exact h.1
  have he : xs.erase x = xs.eraseIdx i := by
    rw [List.erase_eq_eraseIdx, h]
  rw [he]
  exact List.set_perm_cons_eraseIdx hi y

variable [Scalar α]

namespace Tree

variable {t t' : Tree α} {lev : NodeId → Nat}

namespace Split

variable {keepsHistory : Bool} {id parent first second : NodeId} {p : Partition α}

def levels (lev : NodeId → Nat) (id first second : NodeId) : NodeId → Nat :=
  fun x => if x = first ∨ x = second then lev id else lev x

theorem levels_of_ne (lev : NodeId → Nat) {id first second x : NodeId} (hf : x ≠ first)
    (hs : x ≠ second) : levels lev id first second x = lev x := by
  simp [levels, hf, hs]

variable (hs : Split t t' keepsHistory id parent first second p)
include hs

theorem ne_first {x : NodeId} (hx : t.InUse x) : x ≠ first := fun he => hs.idle_first (he ▸ hx)

theorem ne_second {x : NodeId} (hx : t.InUse x) : x ≠ second := fun he => hs.idle_second (he ▸ hx)

theorem levels_eq (lev : NodeId → Nat) {x : NodeId} (hx : t.InUse x) :
    levels lev id first second x = lev x := levels_of_ne lev (hs.ne_first hx) (hs.ne_second hx)

/-- Where the node was listed, both new nodes are. -/
theorem children_parent_perm :
    (t'.slot parent).children.Perm (first :: second :: (t.slot parent).children.erase id) := by
  obtain ⟨place, hplace, hp⟩ := hs.slot_parent
  rw [hp]
  have h1 : ((t.slot parent).children.set place first ++ [second]).Perm
      (second :: (t.slot parent).children.set place first) := List.perm_append_comm
  have h2 := (set_perm_cons_erase hplace first).cons second
  exact (h1.trans h2).trans (.swap first second _)

/-- All other nodes keep everything but their parent. -/
theorem other_eq (hb : p.Balanced (t.slot id).entryCount (t.minimumFill (t.slot id)))
    (hk : (t.slot id).OneKind) {x : NodeId} (hf : x ≠ first) (hse : x ≠ second)
    (hi : x ≠ id) (hp : x ≠ parent) : ∃ q, t'.slot x = { t.slot x with parent := q } := by
  by_cases hc : x ∈ (t.slot id).children
  · have hm := (hb.perm_children hk).mem_iff.mpr hc
    rcases List.mem_append.mp hm with h1 | h2
    · exact ⟨some first, hs.moved_first x h1⟩
    · exact ⟨some second, hs.moved_second x h2⟩
  · exact ⟨(t.slot x).parent, hs.other x hf hse hi hp hc⟩

/-- What is in use after a split: the two new nodes, and what was except the node split. -/
theorem inUse_iff (hb : p.Balanced (t.slot id).entryCount (t.minimumFill (t.slot id)))
    (h : t.Linked lev []) (hm : id ∈ (t.slot parent).children) (x : NodeId) :
    t'.InUse x ↔ x = first ∨ x = second ∨ (t.InUse x ∧ x ≠ id) := by
  obtain ⟨hid, -, hlev⟩ := h.child parent id hm
  have hparent := h.inUse_of_mem_children hm
  unfold InUse
  by_cases hf : x = first
  · simp [hf, hs.slot_first, portion]
  by_cases hse : x = second
  · simp [hse, hs.slot_second, portion]
  by_cases hi : x = id
  · rw [hi, hs.slot_id]
    simp [Node.retire, hs.ne_first hid, hs.ne_second hid]
  by_cases hp : x = parent
  · obtain ⟨place, -, hslot⟩ := hs.slot_parent
    rw [hp, hslot]
    simp only [hp ▸ hf, hp ▸ hse, false_or]
    exact ⟨fun hu => ⟨hu, hp ▸ hi⟩, fun hu => hu.1⟩
  · obtain ⟨q, hq⟩ := hs.other_eq hb (h.oneKind id hid) hf hse hi hp
    simp [hq, hf, hse, hi]

theorem mem_children_parent (h : t.Linked lev []) {c : NodeId} :
    c ∈ (t'.slot parent).children ↔
      c = first ∨ c = second ∨ (c ≠ id ∧ c ∈ (t.slot parent).children) := by
  rw [hs.children_parent_perm.mem_iff, List.mem_cons, List.mem_cons,
    (h.nodup parent).mem_erase_iff]

theorem children_first : (t'.slot first).children = pick (t.slot id).children p.first := by
  rw [hs.slot_first]
  rfl

theorem children_second : (t'.slot second).children = pick (t.slot id).children p.second := by
  rw [hs.slot_second]
  rfl

/-- A node that stays keeps its kind and its points, and all but the parent their children. -/
theorem kept (hb : p.Balanced (t.slot id).entryCount (t.minimumFill (t.slot id)))
    (hk : (t.slot id).OneKind) {x : NodeId} (hx : t.InUse x) (hi : x ≠ id) :
    (t'.slot x).leaf = (t.slot x).leaf ∧ (t'.slot x).points = (t.slot x).points ∧
      (x ≠ parent → (t'.slot x).children = (t.slot x).children) := by
  by_cases hp : x = parent
  · obtain ⟨place, -, hslot⟩ := hs.slot_parent
    rw [hp, hslot]
    exact ⟨rfl, rfl, fun hn => absurd rfl hn⟩
  · obtain ⟨q, hq⟩ := hs.other_eq hb hk (hs.ne_first hx) (hs.ne_second hx) hi hp
    rw [hq]
    exact ⟨rfl, rfl, fun _ => rfl⟩

section Links

variable (hb : p.Balanced (t.slot id).entryCount (t.minimumFill (t.slot id)))
  (h : t.Linked lev []) (hm : id ∈ (t.slot parent).children)
include hb h hm

/-- The children of the node split are now one level below the half that lists them. -/
theorem child_half {x c : NodeId} (hx : x = first ∨ x = second) (hc : c ∈ (t.slot id).children)
    (hslot : t'.slot c = (t.slot c).withParent x) :
    t'.InUse c ∧ (t'.slot c).parent = some x ∧
      levels lev id first second c + 1 = levels lev id first second x := by
  obtain ⟨hcu, -, hcl⟩ := h.child id c hc
  refine ⟨(hs.inUse_iff hb h hm c).mpr (.inr (.inr ⟨hcu, h.child_ne hc⟩)), ?_, ?_⟩
  · rw [hslot]
    rfl
  · have hlx : levels lev id first second x = lev id := if_pos hx
    rw [hs.levels_eq lev hcu, hlx]
    exact hcl

/-- A child that no half has taken stays where it was listed. -/
theorem child_kept {x c : NodeId} (hx : t.InUse x) (hi : x ≠ id) (hci : c ≠ id)
    (hc : c ∈ (t.slot x).children) :
    t'.InUse c ∧ (t'.slot c).parent = some x ∧
      levels lev id first second c + 1 = levels lev id first second x := by
  obtain ⟨hcu, hcp, hcl⟩ := h.child x c hc
  have hcn : c ∉ (t.slot id).children := fun hc' => hi (h.owner_unique hc hc')
  refine ⟨(hs.inUse_iff hb h hm c).mpr (.inr (.inr ⟨hcu, hci⟩)), ?_, ?_⟩
  · by_cases hcp' : c = parent
    · obtain ⟨place, -, hslot⟩ := hs.slot_parent
      rw [hcp', hslot, ← hcp']
      exact hcp
    · rw [hs.other c (hs.ne_first hcu) (hs.ne_second hcu) hci hcp' hcn]
      exact hcp
  · rw [hs.levels_eq lev hcu, hs.levels_eq lev hx]
    exact hcl

theorem child {x c : NodeId} (hc : c ∈ (t'.slot x).children) :
    t'.InUse c ∧ (t'.slot c).parent = some x ∧
      levels lev id first second c + 1 = levels lev id first second x := by
  obtain ⟨hid, -, hlev⟩ := h.child parent id hm
  have hparent := h.inUse_of_mem_children hm
  by_cases hf : x = first
  · rw [hf, hs.children_first] at hc
    exact hs.child_half hb h hm (.inl hf) (mem_of_mem_pick hc) (hf ▸ hs.moved_first c hc)
  by_cases hse : x = second
  · rw [hse, hs.children_second] at hc
    exact hs.child_half hb h hm (.inr hse) (mem_of_mem_pick hc) (hse ▸ hs.moved_second c hc)
  by_cases hi : x = id
  · rw [hi, hs.slot_id] at hc
    cases hc
  by_cases hp : x = parent
  · have hlx : levels lev id first second x = lev id + 1 := by
      rw [hp, hs.levels_eq lev hparent, hlev]
    rw [hp] at hc
    rcases (hs.mem_children_parent h).mp hc with hcf | hcs | ⟨hci, hcm⟩
    · refine ⟨(hs.inUse_iff hb h hm c).mpr (.inl hcf), ?_, ?_⟩
      · rw [hcf, hs.slot_first, hp]
        rfl
      · rw [hlx, hcf]
        simp [levels]
    · refine ⟨(hs.inUse_iff hb h hm c).mpr (.inr (.inl hcs)), ?_, ?_⟩
      · rw [hcs, hs.slot_second, hp]
        rfl
      · rw [hlx, hcs]
        simp [levels]
    · exact hs.child_kept hb h hm (hp ▸ hparent) hi hci (hp ▸ hcm)
  · obtain ⟨q, hq⟩ := hs.other_eq hb (h.oneKind id hid) hf hse hi hp
    rw [hq] at hc
    have hci : c ≠ id := fun he => hp (h.owner_unique hc (he ▸ hm))
    exact hs.child_kept hb h hm (h.inUse_of_mem_children hc) hi hci hc

theorem owner {x : NodeId} (hx : t'.InUse x) (hr : x ≠ t.root) :
    ∃ y, x ∈ (t'.slot y).children := by
  have hkind := h.oneKind id (h.child parent id hm).1
  rcases (hs.inUse_iff hb h hm x).mp hx with hxf | hxs | ⟨hxu, hxi⟩
  · exact ⟨parent, (hs.mem_children_parent h).mpr (.inl hxf)⟩
  · exact ⟨parent, (hs.mem_children_parent h).mpr (.inr (.inl hxs))⟩
  obtain ⟨y, hy⟩ := h.owner x hxu hr (by simp)
  by_cases hyi : y = id
  · rw [hyi] at hy
    rcases List.mem_append.mp ((hb.perm_children hkind).mem_iff.mpr hy) with h1 | h2
    · exact ⟨first, hs.children_first ▸ h1⟩
    · exact ⟨second, hs.children_second ▸ h2⟩
  by_cases hyp : y = parent
  · exact ⟨parent, (hs.mem_children_parent h).mpr (.inr (.inr ⟨hxi, hyp ▸ hy⟩))⟩
  · refine ⟨y, ?_⟩
    rw [(hs.kept hb hkind (h.inUse_of_mem_children hy) hyi).2.2 hyp]
    exact hy

theorem nodup_children (x : NodeId) : (t'.slot x).children.Nodup := by
  have hkind := h.oneKind id (h.child parent id hm).1
  have hpick := (hb.perm_children hkind).nodup_iff.mpr (h.nodup id)
  by_cases hf : x = first
  · rw [hf, hs.children_first]
    exact hpick.of_append_left
  by_cases hse : x = second
  · rw [hse, hs.children_second]
    exact hpick.of_append_right
  by_cases hi : x = id
  · rw [hi, hs.slot_id]
    exact List.nodup_nil
  by_cases hp : x = parent
  · have hold : ∀ c ∈ (t.slot parent).children.erase id, t.InUse c := fun c hc =>
      (h.child parent c (List.mem_of_mem_erase hc)).1
    rw [hp, hs.children_parent_perm.nodup_iff, List.nodup_cons, List.nodup_cons, List.mem_cons,
      not_or]
    exact ⟨⟨hs.first_ne_second, fun hc => hs.idle_first (hold first hc)⟩,
      fun hc => hs.idle_second (hold second hc), (h.nodup parent).erase id⟩
  · obtain ⟨q, hq⟩ := hs.other_eq hb hkind hf hse hi hp
    rw [hq]
    exact h.nodup x

theorem oneKind {x : NodeId} (hx : t'.InUse x) : (t'.slot x).OneKind := by
  have hkind := h.oneKind id (h.child parent id hm).1
  rcases (hs.inUse_iff hb h hm x).mp hx with hxf | hxs | ⟨hxu, hxi⟩
  · rw [hxf, hs.slot_first]
    exact oneKind_portion hkind _ _ _
  · rw [hxs, hs.slot_second]
    exact oneKind_portion hkind _ _ _
  obtain ⟨hl, hpts, hch⟩ := hs.kept hb hkind hxu hxi
  have hk := h.oneKind x hxu
  constructor
  · intro hleaf
    have hxp : x ≠ parent := by
      intro heq
      rw [hl, heq, h.leaf_false_of_mem_children hm] at hleaf
      cases hleaf
    rw [hch hxp]
    exact hk.leaf (hl ▸ hleaf)
  · intro hleaf
    rw [hpts]
    exact hk.directory (hl ▸ hleaf)

theorem linked : t'.Linked (levels lev id first second) [] := by
  have hid := (h.child parent id hm).1
  have hkind := h.oneKind id hid
  have huse := hs.inUse_iff hb h hm
  have hroot_ne : t.root ≠ id := (h.ne_root hm).symm
  have hroot : t'.InUse t.root := (huse _).mpr (.inr (.inr ⟨h.root, hroot_ne⟩))
  refine
    { tidy := hs.tidy
      root := hs.frame.root ▸ hroot, root_parent := ?_
      oneKind := fun x hx => hs.oneKind hb h hm hx, leaf_iff := ?_
      nodup := hs.nodup_children hb h hm, child := fun x c hc => hs.child hb h hm hc
      owner := fun x hx hr _ => hs.owner hb h hm hx (hs.frame.root ▸ hr)
      le_root := ?_, floating := by simp, nodup_floating := List.nodup_nil }
  · rw [hs.frame.root]
    by_cases hp : t.root = parent
    · obtain ⟨place, -, hslot⟩ := hs.slot_parent
      rw [hp, hslot, ← hp]
      exact h.root_parent
    · rw [hs.other t.root (hs.ne_first h.root) (hs.ne_second h.root) hroot_ne hp
        (h.root_unlisted id)]
      exact h.root_parent
  · intro x hx
    rcases (huse x).mp hx with hxf | hxs | ⟨hxu, hxi⟩
    · rw [hxf, hs.slot_first]
      simpa [levels, portion] using h.leaf_iff id hid
    · rw [hxs, hs.slot_second]
      simpa [levels, portion] using h.leaf_iff id hid
    · rw [(hs.kept hb hkind hxu hxi).1, hs.levels_eq lev hxu]
      exact h.leaf_iff x hxu
  · intro x hx
    rw [hs.frame.root, hs.levels_eq lev h.root]
    rcases (huse x).mp hx with hxf | hxs | ⟨hxu, -⟩
    · simpa [levels, hxf] using h.le_root id hid
    · simpa [levels, hxs] using h.le_root id hid
    · rw [hs.levels_eq lev hxu]
      exact h.le_root x hxu

end Links

/-- Every node but the one split keeps its bound. -/
theorem bound_eq (hb : p.Balanced (t.slot id).entryCount (t.minimumFill (t.slot id)))
    (hk : (t.slot id).OneKind) {x : NodeId} (hx : t.InUse x) (hi : x ≠ id) :
    (t'.slot x).bound = (t.slot x).bound := by
  by_cases hp : x = parent
  · subst hp
    obtain ⟨place, -, hslot⟩ := hs.slot_parent
    rw [hslot]
  · obtain ⟨q, hq⟩ := hs.other_eq hb hk (hs.ne_first hx) (hs.ne_second hx) hi hp
    rw [hq]

omit hs in
theorem entryCount_portion {n : Node α} {group : List Nat} {q : NodeId} {history : SplitHistory}
    (hg : ∀ e ∈ group, e < n.entryCount) :
    (t.portion n group q history).entryCount = group.length := by
  unfold Node.entryCount portion
  cases hl : n.leaf with
  | true =>
    have hg' : ∀ e ∈ group, e < n.points.length := by simpa [Node.entryCount, hl] using hg
    simp [length_pick hg']
  | false =>
    have hg' : ∀ e ∈ group, e < n.children.length := by simpa [Node.entryCount, hl] using hg
    simp [length_pick hg']

theorem supernodeGrowths : t'.stats.supernodeGrowths = t.stats.supernodeGrowths := by
  rw [hs.stats, Partition.record_eq]

/-- A half has from the minimum up to what the node split had room for. -/
theorem filledAt_half (h : t.FilledAt id 1 0) (hroot : t.InUse t.root) {x : NodeId}
    {group : List Nat} (hx : ¬ t.InUse x) (hlt : group.length < (t.slot id).entryCount)
    (hle : t.minimumFill (t.slot id) ≤ group.length)
    (hg : ∀ e ∈ group, e < (t.slot id).entryCount)
    (hslot : t'.slot x =
      t.portion (t.slot id) group parent (p.passOn keepsHistory (t.slot id).history)) :
    t'.FilledAt x 0 0 := by
  have hcount : (t'.slot x).entryCount = group.length := by
    rw [hslot]
    exact entryCount_portion hg
  have hroom : t'.room (t'.slot x) = t.room (t.slot id) := by
    rw [hslot]
    exact hs.frame.room rfl rfl
  have hfill : t'.minimumFill (t'.slot x) = t.minimumFill (t.slot id) := by
    rw [hslot]
    exact hs.frame.minimumFill rfl
  have hupper := h.upper
  have hroot_ne : x ≠ t'.root := fun he => hx (he ▸ hs.frame.root ▸ hroot)
  refine ⟨by omega, fun _ => by omega, fun he => absurd he hroot_ne, ?_⟩
  rw [hs.supernodeGrowths, hs.frame.config, hslot]
  exact h.capacity

/-- The parent has one entry more, which may be one too many. -/
theorem filledAt_parent (h : t.FilledAt parent 0 0) (hleaf : (t.slot parent).leaf = false) :
    t'.FilledAt parent 1 0 := by
  obtain ⟨place, -, hslot⟩ := hs.slot_parent
  have hcount : (t'.slot parent).entryCount = (t.slot parent).entryCount + 1 := by
    rw [hslot]
    simp [Node.entryCount, hleaf]
  have hroom : t'.room (t'.slot parent) = t.room (t.slot parent) := by
    rw [hslot]
    exact hs.frame.room rfl rfl
  have hfill : t'.minimumFill (t'.slot parent) = t.minimumFill (t.slot parent) := by
    rw [hslot]
    exact hs.frame.minimumFill rfl
  have hupper := h.upper
  refine ⟨by omega, fun hr => ?_, fun _ _ => by omega, ?_⟩
  · have hlower := h.lower (hs.frame.root ▸ hr)
    omega
  · rw [hs.supernodeGrowths, hs.frame.config, hslot]
    exact h.capacity

theorem filled (hb : p.Balanced (t.slot id).entryCount (t.minimumFill (t.slot id)))
    (h : t.Linked lev []) (hc : t.config.Feasible) (hm : id ∈ (t.slot parent).children)
    (hf : t.Filled (some id) none) : t'.Filled (some parent) none := by
  have hid := (h.child parent id hm).1
  have hne : parent ≠ id := (h.child_ne hm).symm
  have hmin := minimumFill_pos hc (t.slot id)
  have hold : t.FilledAt id 1 0 := excess_self id ▸ hf id hid
  have hsum := hb.length_add_length
  have hmin1 := hb.le_first
  have hmin2 := hb.le_second
  have hnew : ∀ {x}, ¬ t.InUse x → x ≠ parent := fun hx he =>
    hx (he ▸ h.inUse_of_mem_children hm)
  intro x hx
  rw [excess_none]
  rcases (hs.inUse_iff hb h hm x).mp hx with rfl | rfl | ⟨hxu, hxi⟩
  · rw [excess_of_ne (hnew hs.idle_first)]
    exact hs.filledAt_half hold h.root hs.idle_first (by omega) hmin1 hb.lt_of_mem_first
      hs.slot_first
  · rw [excess_of_ne (hnew hs.idle_second)]
    exact hs.filledAt_half hold h.root hs.idle_second (by omega) hmin2 hb.lt_of_mem_second
      hs.slot_second
  · have hfx := hf x hxu
    rw [excess_of_ne hxi, excess_none] at hfx
    by_cases hp : x = parent
    · subst hp
      rw [excess_self]
      exact hs.filledAt_parent hfx (h.leaf_false_of_mem_children hm)
    · obtain ⟨q, hq⟩ := hs.other_eq hb (h.oneKind id hid) (hs.ne_first hxu) (hs.ne_second hxu) hxi hp
      rw [excess_of_ne hp]
      exact hfx.reparented hs.frame hs.supernodeGrowths.ge hq

/-- Each half's entries have the rectangles that they had in the node split. -/
theorem rectsOf_half (hb : p.Balanced (t.slot id).entryCount (t.minimumFill (t.slot id)))
    (h : t.Linked lev []) {x : NodeId} {group : List Nat} {history : SplitHistory}
    (hx : t'.slot x = t.portion (t.slot id) group parent history) :
    t'.rectsOf (t'.slot x) = pick (t.rectsOf (t.slot id)) group := by
  have hcoords := fun q => hs.frame.coordsAt q
  rw [hx]
  unfold rectsOf
  cases hl : (t.slot id).leaf with
  | true => simp only [portion, hl, if_true, pick_map, hcoords]
  | false =>
    simp only [portion, hl, Bool.false_eq_true, if_false, pick_map]
    refine List.map_congr_left fun c hc => ?_
    have hm := mem_of_mem_pick hc
    exact hs.bound_eq hb (h.oneKind id (h.inUse_of_mem_children hm)) (h.child id c hm).1
      (h.child_ne hm)

section Bounds

variable [OrderedScalar α] {extra : Option NodeId}
  (hb : p.Balanced (t.slot id).entryCount (t.minimumFill (t.slot id)))
  (h : t.Shaped lev extra none []) (hm : id ∈ (t.slot parent).children)
include h

omit hs in
theorem isHull_half {x : NodeId} {group : List Nat} {history : SplitHistory}
    (hx : t'.slot x = t.portion (t.slot id) group parent history) :
    Rectangle.IsHull t.dim (pick (t.rectsOf (t.slot id)) group) (t'.slot x).bound := by
  rw [hx]
  exact Rectangle.isHull_foldl (fun r hr => h.rectsOf_proper id r (mem_of_mem_pick hr))
    (Rectangle.isHull_nil t.dim)

include hb hm

/-- The halves lie together where the node split lay. -/
theorem within_halves (g : HalfSpace α) (hg : g.Valid t.dim) :
    (t.slot id).bound.Within g ↔
      (t'.slot first).bound.Within g ∧ (t'.slot second).bound.Within g := by
  have hold := h.fitted.hull id (h.linked.child parent id hm).1 (by simp)
  have hperm : (pick (t.rectsOf (t.slot id)) p.first ++ pick (t.rectsOf (t.slot id)) p.second).Perm
      (t.rectsOf (t.slot id)) := by
    rw [← length_rectsOf t (t.slot id)] at hb
    exact hb.pick_perm
  rw [hold.within_iff g hg, (isHull_half h hs.slot_first).within_iff g hg,
    (isHull_half h hs.slot_second).within_iff g hg]
  simp only [← hperm.mem_iff, List.mem_append, or_imp, forall_and]

/-- The parent's bound is still the least one, as the halves need no more room than the node. -/
theorem isHull_parent : Rectangle.IsHull t.dim (t'.rectsOf (t'.slot parent))
    (t.slot parent).bound := by
  have hid := (h.linked.child parent id hm).1
  have hleaf := h.linked.leaf_false_of_mem_children hm
  have hleaf' : (t'.slot parent).leaf = false := by
    obtain ⟨place, -, hslot⟩ := hs.slot_parent
    rw [hslot]
    exact hleaf
  have hsiblings : ∀ c ∈ (t.slot parent).children.erase id,
      (t'.slot c).bound = (t.slot c).bound := by
    intro c hc
    obtain ⟨hci, hcm⟩ := (h.linked.nodup parent).mem_erase_iff.mp hc
    exact hs.bound_eq hb (h.linked.oneKind id hid) (h.linked.child parent c hcm).1 hci
  refine (h.fitted.hull parent (h.linked.inUse_of_mem_children hm) (by simp)).congr fun g hg => ?_
  simp only [rectsOf, hleaf', hleaf, Bool.false_eq_true, if_false, List.forall_mem_map,
    hs.children_parent_perm.mem_iff, (List.perm_cons_erase hm).mem_iff, List.forall_mem_cons,
    hs.within_halves hb h hm g hg, and_assoc]
  refine and_congr_right fun _ => and_congr_right fun _ => forall₂_congr fun c hc => ?_
  rw [hsiblings c hc]

theorem fitted : t'.Fitted [] := by
  have hkind := h.linked.oneKind id (h.linked.child parent id hm).1
  have hbound := fun {x} => hs.bound_eq hb hkind (x := x)
  refine ⟨fun x hx => ?_, fun x hx _ => ?_⟩
  · rw [hs.frame.dim]
    rcases (hs.inUse_iff hb h.linked hm x).mp hx with rfl | rfl | ⟨hxu, hxi⟩
    · exact (isHull_half h hs.slot_first).proper
    · exact (isHull_half h hs.slot_second).proper
    · rw [hbound hxu hxi]
      exact h.fitted.proper x hxu
  · rw [hs.frame.dim]
    rcases (hs.inUse_iff hb h.linked hm x).mp hx with rfl | rfl | ⟨hxu, hxi⟩
    · rw [hs.rectsOf_half hb h.linked hs.slot_first]
      exact isHull_half h hs.slot_first
    · rw [hs.rectsOf_half hb h.linked hs.slot_second]
      exact isHull_half h hs.slot_second
    · rw [hbound hxu hxi]
      by_cases hp : x = parent
      · subst hp
        exact hs.isHull_parent hb h hm
      · obtain ⟨q, hq⟩ := hs.other_eq hb hkind (hs.ne_first hxu) (hs.ne_second hxu) hxi hp
        have hrects : t'.rectsOf (t'.slot x) = t.rectsOf (t.slot x) := by
          rw [hq]
          refine rectsOf_congr hs.frame.store fun c hc => ?_
          have hci : c ≠ id := fun he => hp (h.linked.owner_unique hc (he ▸ hm))
          exact hbound (h.linked.child x c hc).1 hci
        rw [hrects]
        exact h.fitted.hull x hxu (by simp)

end Bounds

/-- A split of an overfull node leaves its parent with at most one entry too many. -/
theorem shaped [OrderedScalar α]
    (hb : p.Balanced (t.slot id).entryCount (t.minimumFill (t.slot id)))
    (h : t.Shaped lev (some id) none []) (hm : id ∈ (t.slot parent).children) :
    t'.Shaped (levels lev id first second) (some parent) none [] where
  feasible := hs.frame.config ▸ h.feasible
  linked := hs.linked hb h.linked hm
  filled := hs.filled hb h.linked h.feasible hm h.filled
  fitted := hs.fitted hb h hm
  registered := h.registered.congr hs.frame hs.copies

end Split

end Tree

end RTree
