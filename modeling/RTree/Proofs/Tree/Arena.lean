import RTree.Tree.Overflow
import Mathlib.Logic.Function.Basic

namespace RTree

variable {α β γ : Type}

/-- What stands in a slot outside the arena: a node out of use. -/
def Node.vacant : Node α where
  leaf := true
  bound := ⟨[]⟩
  parent := none
  capacity := 0
  history := ⟨[], 0⟩
  retired := true

namespace Tree

def slot (t : Tree α) (id : NodeId) : Node α := t.arena[id.index]?.getD Node.vacant

def InUse (t : Tree α) (id : NodeId) : Prop := (t.slot id).retired = false

theorem InUse.congr {t t' : Tree α} {x : NodeId} (hx : t.InUse x) (h : t'.slot x = t.slot x) :
    t'.InUse x := by
  unfold InUse
  rw [h]
  exact hx

/-- How often a point is listed in all nodes together. -/
def copies (t : Tree α) (p : PointId) : Nat := (t.arena.toList.flatMap Node.points).count p

/-- The trees differ in their nodes, free slots and counters at most. -/
structure SameFrame (t t' : Tree α) : Prop where
  config : t'.config = t.config
  store : t'.store = t.store
  root : t'.root = t.root
  size : t'.size = t.size

variable {t t' t'' : Tree α} {id x : NodeId}

theorem SameFrame.refl (t : Tree α) : SameFrame t t := ⟨rfl, rfl, rfl, rfl⟩

theorem SameFrame.trans (h : SameFrame t t') (h' : SameFrame t' t'') : SameFrame t t'' :=
  ⟨h'.config.trans h.config, h'.store.trans h.store, h'.root.trans h.root, h'.size.trans h.size⟩

theorem SameFrame.dim (h : SameFrame t t') : t'.dim = t.dim := by
  unfold Tree.dim
  rw [h.config]

/-- The trees differ in the contents of their slots at most. -/
structure NodesOnly (t t' : Tree α) : Prop where
  frame : SameFrame t t'
  stats : t'.stats = t.stats
  free : t'.free = t.free
  size_arena : t'.arena.size = t.arena.size

theorem NodesOnly.refl (t : Tree α) : NodesOnly t t := ⟨.refl t, rfl, rfl, rfl⟩

theorem NodesOnly.trans (h : NodesOnly t t') (h' : NodesOnly t' t'') : NodesOnly t t'' :=
  ⟨h.frame.trans h'.frame, h'.stats.trans h.stats, h'.free.trans h.free,
    h'.size_arena.trans h.size_arena⟩

theorem nodesOnly_updateNode (t : Tree α) (id : NodeId) (f : Node α → Node α) :
    NodesOnly t (t.updateNode id f) :=
  ⟨⟨rfl, rfl, rfl, rfl⟩, rfl, rfl, by simp [updateNode]⟩

theorem InUse.lt (h : t.InUse id) : id.index < t.arena.size := by
  by_contra hn
  have hs : t.slot id = Node.vacant := by
    unfold slot
    rw [Array.getElem?_eq_none (by omega)]
    rfl
  simp [InUse, hs, Node.vacant] at h

theorem node_eq (h : id.index < t.arena.size) : t.node id = .ok (t.slot id) := by
  rw [node_eq_ok_iff, slot, Array.getElem?_eq_getElem h]
  rfl

theorem InUse.node_eq (h : t.InUse id) : t.node id = .ok (t.slot id) := Tree.node_eq h.lt

theorem slot_updateNode (h : id.index < t.arena.size) (f : Node α → Node α) :
    (t.updateNode id f).slot = Function.update t.slot id (f (t.slot id)) := by
  funext x
  by_cases hx : x = id
  · subst hx
    simp [slot, updateNode, Array.getElem?_modify, Array.getElem?_eq_getElem h]
  · have hi : id.index ≠ x.index := fun he => hx (by cases id; cases x; simp_all)
    simp [slot, updateNode, Array.getElem?_modify, hi, Function.update_of_ne hx]

theorem sameFrame_updateStats (t : Tree α) (f : Counters α → Counters α) :
    SameFrame t (t.updateStats f) := ⟨rfl, rfl, rfl, rfl⟩

theorem count_flatMap_modify {xs : List (Node α)} {i : Nat} {n : Node α} (f : Node α → Node α)
    (h : xs[i]? = some n) (p : PointId) :
    ((xs.modify i f).flatMap Node.points).count p + n.points.count p =
      (xs.flatMap Node.points).count p + (f n).points.count p := by
  induction xs generalizing i with
  | nil => simp at h
  | cons m xs ih =>
    cases i with
    | zero =>
      obtain rfl : m = n := by simpa using h
      simp only [List.modify_zero_cons, List.flatMap_cons, List.count_append]
      omega
    | succ i =>
      have := ih (by simpa using h)
      simp only [List.modify_succ_cons, List.flatMap_cons, List.count_append]
      omega

/-- Changing one node changes the number of copies by those that the node gains and loses. -/
theorem copies_updateNode (h : id.index < t.arena.size) (f : Node α → Node α) (p : PointId) :
    (t.updateNode id f).copies p + (t.slot id).points.count p =
      t.copies p + (f (t.slot id)).points.count p := by
  have hs : t.arena.toList[id.index]? = some (t.slot id) := by
    simp [slot, Array.getElem?_eq_getElem h]
  simpa [copies, updateNode] using count_flatMap_modify f hs p

theorem copies_updateNode_of_eq (h : id.index < t.arena.size) {f : Node α → Node α}
    (hf : (f (t.slot id)).points = (t.slot id).points) (p : PointId) :
    (t.updateNode id f).copies p = t.copies p := by
  have := copies_updateNode h f p
  rw [hf] at this
  omega

theorem count_points_le_copies (t : Tree α) (id : NodeId) (p : PointId) :
    (t.slot id).points.count p ≤ t.copies p := by
  by_cases h : id.index < t.arena.size
  · have := copies_updateNode h (fun n => { n with points := [] }) p
    simp only [List.count_nil] at this
    omega
  · have hs : t.slot id = Node.vacant := by
      unfold slot
      rw [Array.getElem?_eq_none (by omega)]
      rfl
    simp [hs, Node.vacant]

/-- The free list names each retired node once, and retired nodes hold nothing. -/
structure Tidy (t : Tree α) : Prop where
  nodup_free : t.free.Nodup
  mem_free : ∀ id, id ∈ t.free ↔ id.index < t.arena.size ∧ (t.slot id).retired = true
  idle : ∀ id, (t.slot id).retired = true → (t.slot id).points = [] ∧ (t.slot id).children = []

def retireNode [Scalar α] (t : Tree α) (id : NodeId) : Tree α :=
  { t.updateNode id Node.retire with free := id :: t.free }

/-- A node was put into a slot that was not in use. -/
structure Allocated (t t' : Tree α) (id : NodeId) (fresh : Node α) : Prop where
  frame : SameFrame t t'
  stats : t'.stats = t.stats
  tidy : t'.Tidy
  idle : ¬ t.InUse id
  slot : t'.slot = Function.update t.slot id fresh
  free : t'.free = t.free.tail
  lt_iff : ∀ x, x.index < t'.arena.size ↔ x.index < t.arena.size ∨ x = id
  le_size : t.arena.size ≤ t'.arena.size
  copies : ∀ p, t'.copies p = t.copies p

theorem Allocated.ne {fresh : Node α} {x : NodeId} (h : t.Allocated t' id fresh) (hx : t.InUse x) :
    x ≠ id := fun he => h.idle (he ▸ hx)

theorem Allocated.slot_of_inUse {fresh : Node α} {x : NodeId} (h : t.Allocated t' id fresh)
    (hx : t.InUse x) : t'.slot x = t.slot x := by
  rw [h.slot, Function.update_of_ne (h.ne hx)]

theorem Tidy.of_nodesOnly (h : t.Tidy) (hn : NodesOnly t t')
    (hr : ∀ x, (t'.slot x).retired = (t.slot x).retired)
    (hi : ∀ x, (t.slot x).retired = true → t'.slot x = t.slot x) : t'.Tidy where
  nodup_free := hn.free ▸ h.nodup_free
  mem_free := fun x => by rw [hn.free, hn.size_arena, hr, h.mem_free]
  idle := fun x hx => by
    rw [hr] at hx
    rw [hi x hx]
    exact h.idle x hx

theorem Tidy.updateStats (h : t.Tidy) (f : Counters α → Counters α) : (t.updateStats f).Tidy :=
  ⟨h.nodup_free, h.mem_free, h.idle⟩

theorem InUse.not_mem_free (hid : t.InUse id) (h : t.Tidy) : id ∉ t.free := fun hm => by
  have hr := ((h.mem_free id).mp hm).2
  have hu : (t.slot id).retired = false := hid
  rw [hu] at hr
  cases hr

section

variable [Scalar α]

theorem slot_retireNode (hid : t.InUse id) :
    (t.retireNode id).slot = Function.update t.slot id (t.slot id).retire :=
  slot_updateNode hid.lt Node.retire

theorem inUse_retireNode (hid : t.InUse id) (x : NodeId) :
    (t.retireNode id).InUse x ↔ x ≠ id ∧ t.InUse x := by
  unfold InUse
  rw [slot_retireNode hid]
  by_cases hx : x = id
  · subst hx
    simp [Node.retire]
  · simp [hx]

theorem Tidy.retireNode (h : t.Tidy) (hid : t.InUse id) : (t.retireNode id).Tidy where
  nodup_free := List.nodup_cons.mpr ⟨hid.not_mem_free h, h.nodup_free⟩
  mem_free := fun x => by
    have hs : (t.retireNode id).arena.size = t.arena.size := size_arena_updateNode t id _
    have hl := hid.lt
    rw [slot_retireNode hid, hs]
    show x ∈ id :: t.free ↔ _
    rw [List.mem_cons, h.mem_free]
    by_cases hx : x = id
    · subst hx
      simp [Node.retire, hl]
    · simp [hx]
  idle := fun x => by
    rw [slot_retireNode hid]
    by_cases hx : x = id
    · subst hx
      simp [Node.retire]
    · simpa [hx] using h.idle x

omit [Scalar α] in
/-- Changing a node in use disturbs nothing unless the change retires it. -/
theorem Tidy.updateNode (h : t.Tidy) (hid : t.InUse id) {f : Node α → Node α}
    (hf : (f (t.slot id)).retired = false) : (t.updateNode id f).Tidy := by
  have hs := slot_updateNode hid.lt f
  have hu : (t.slot id).retired = false := hid
  refine h.of_nodesOnly (nodesOnly_updateNode t id f) (fun x => ?_) fun x hx => ?_
  · by_cases hxi : x = id
    · rw [hs, hxi, Function.update_self, hf, hu]
    · rw [hs, Function.update_of_ne hxi]
  · have hxi : x ≠ id := by
      intro heq
      subst heq
      rw [hu] at hx
      cases hx
    rw [hs, Function.update_of_ne hxi]

omit [Scalar α] in
theorem inUse_updateNode (hid : t.InUse id) {f : Node α → Node α}
    (hf : (f (t.slot id)).retired = false) (x : NodeId) :
    (t.updateNode id f).InUse x ↔ t.InUse x := by
  unfold InUse
  rw [slot_updateNode hid.lt]
  by_cases hxi : x = id
  · subst hxi
    have hu : (t.slot x).retired = false := hid
    simp [hf, hu]
  · rw [Function.update_of_ne hxi]

/-- What a node held before it was retired leaves no trace. -/
theorem retireNode_updateNode (t : Tree α) (id : NodeId) {f : Node α → Node α}
    (hf : ∀ n, (f n).retire = n.retire) : (t.updateNode id f).retireNode id = t.retireNode id := by
  have h : (t.arena.modify id.index f).modify id.index Node.retire =
      t.arena.modify id.index Node.retire := by
    apply Array.ext
    · simp
    · intro i h1 h2
      simp only [Array.getElem_modify]
      split
      · exact hf _
      · rfl
  unfold Tree.retireNode updateNode
  rw [h]

/-- A retired node takes its points out of the tree. -/
theorem copies_retireNode (hid : t.InUse id) (p : PointId) :
    (t.retireNode id).copies p + (t.slot id).points.count p = t.copies p := by
  have h := copies_updateNode hid.lt Node.retire p
  simp only [Node.retire, List.count_nil] at h
  exact h

theorem sameFrame_retireNode (t : Tree α) (id : NodeId) : SameFrame t (t.retireNode id) :=
  ⟨rfl, rfl, rfl, rfl⟩

end

section Allocation

variable {fresh : Node α}

/-- A slot is added to the arena when none is free. -/
theorem Tidy.allocated_push (h : t.Tidy) (hf : t.free = []) (hfresh : fresh.retired = false)
    (hpoints : fresh.points = []) :
    t.Allocated { t with arena := t.arena.push fresh, free := [] } ⟨t.arena.size⟩ fresh := by
  let id : NodeId := ⟨t.arena.size⟩
  let t' : Tree α := { t with arena := t.arena.push fresh, free := [] }
  have heq : ∀ x : NodeId, x = id ↔ x.index = t.arena.size := by
    intro x
    cases x
    simp [id]
  have hs : t'.slot = Function.update t.slot id fresh := by
    funext x
    by_cases hx : x = id
    · subst hx
      simp [slot, id, t']
    · have hi : x.index ≠ t.arena.size := fun he => hx ((heq x).mpr he)
      simp [slot, hx, Array.getElem?_push, hi, t']
  have hl : ∀ x : NodeId, x.index < t'.arena.size ↔ x.index < t.arena.size ∨ x = id := by
    intro x
    rw [heq]
    simp [t']
    omega
  refine ⟨⟨rfl, rfl, rfl, rfl⟩, rfl, ⟨List.nodup_nil, fun x => ?_, fun x => ?_⟩, ?_, hs,
    by rw [hf, List.tail_nil], hl, by simp, fun p => ?_⟩
  · change x ∈ [] ↔ x.index < t'.arena.size ∧ (t'.slot x).retired = true
    rw [← hf, h.mem_free, hl, hs]
    by_cases hx : x = id
    · subst hx
      simp [id, hfresh]
    · simp [hx]
  · change (t'.slot x).retired = true → (t'.slot x).points = [] ∧ (t'.slot x).children = []
    rw [hs]
    by_cases hx : x = id
    · subst hx
      simp [hfresh]
    · simpa [hx] using h.idle x
  · have hv : t.slot id = Node.vacant := by simp [slot, id]
    change ¬ t.InUse id
    simp [InUse, hv, Node.vacant]
  · simp [copies, hpoints]

/-- The slot freed last is used again. -/
theorem Tidy.allocated_reuse {rest : List NodeId} (h : t.Tidy) (hf : t.free = id :: rest)
    (hfresh : fresh.retired = false) (hpoints : fresh.points = []) :
    t.Allocated (({ t with free := rest } : Tree α).updateNode id fun _ => fresh) id fresh := by
  have hm := (h.mem_free id).mp (by simp [hf])
  have hn := List.nodup_cons.mp (hf ▸ h.nodup_free)
  let t₁ : Tree α := { t with free := rest }
  let t' : Tree α := t₁.updateNode id fun _ => fresh
  have hs : t'.slot = Function.update t.slot id fresh := slot_updateNode (t := t₁) hm.1 _
  have hz : t'.arena.size = t.arena.size := t₁.size_arena_updateNode id _
  refine ⟨⟨rfl, rfl, rfl, rfl⟩, rfl, ⟨hn.2, fun x => ?_, fun x => ?_⟩, ?_, hs,
    (congrArg List.tail hf).symm, fun x => ?_, Nat.le_of_eq hz.symm, fun p => ?_⟩
  · change x ∈ rest ↔ x.index < t'.arena.size ∧ (t'.slot x).retired = true
    rw [hz, hs]
    by_cases hx : x = id
    · subst hx
      simp [hn.1, hfresh]
    · have := h.mem_free x
      simp only [hf, List.mem_cons, hx, false_or] at this
      simpa [hx] using this
  · change (t'.slot x).retired = true → (t'.slot x).points = [] ∧ (t'.slot x).children = []
    rw [hs]
    by_cases hx : x = id
    · subst hx
      simp [hfresh]
    · simpa [hx] using h.idle x
  · simp [InUse, hm.2]
  · change x.index < t'.arena.size ↔ x.index < t.arena.size ∨ x = id
    rw [hz]
    exact ⟨.inl, fun hx => hx.elim (fun h => h) fun he => he ▸ hm.1⟩
  · have hc := copies_updateNode (t := t₁) hm.1 (fun _ => fresh) p
    have hp : (t₁.slot id).points = [] := (h.idle id hm.2).1
    simp only [hp, hpoints, List.count_nil] at hc
    exact hc

end Allocation

end Tree

namespace TreeM

variable {t t' : Tree α} {id : NodeId}

@[simp] theorem get_bind (f : Tree α → TreeM α β) : (get >>= f).run t = (f t).run t := rfl

@[simp] theorem set_bind (s : Tree α) (f : PUnit → TreeM α β) :
    (set s >>= f).run t = (f ⟨⟩).run s := rfl

@[simp] theorem modify_bind (g : Tree α → Tree α) (f : PUnit → TreeM α β) :
    (modify g >>= f).run t = (f ⟨⟩).run (g t) := rfl

theorem bind_ok {m : TreeM α β} {b : β} (h : m.run t = .ok b t') (f : β → TreeM α γ) :
    (m >>= f).run t = (f b).run t' := by
  simp only [EStateM.run_bind, h]

theorem bind_error {m : TreeM α β} {e : Failure α} (h : m.run t = .error e t')
    (f : β → TreeM α γ) : (m >>= f).run t = .error e t' := by
  simp only [EStateM.run_bind, h]

theorem query_ok {ask : Tree α → Except (Failure α) β} {b : β} (h : ask t = .ok b) :
    (query ask).run t = .ok b t := by
  simp only [query, EStateM.run, h]

theorem query_error {ask : Tree α → Except (Failure α) β} {e : Failure α}
    (h : ask t = .error e) : (query ask).run t = .error e t := by
  simp only [query, EStateM.run, h]

theorem getNode_ok (h : id.index < t.arena.size) : (getNode id).run t = .ok (t.slot id) t :=
  query_ok (t.node_eq h)

theorem modifyNode_ok (h : id.index < t.arena.size) (f : Node α → Node α) :
    (modifyNode id f).run t = .ok () (t.updateNode id f) := by
  unfold modifyNode
  rw [bind_ok (getNode_ok h)]
  rfl

@[simp] theorem modifyStats_bind (g : Counters α → Counters α) (f : Unit → TreeM α β) :
    (modifyStats g >>= f).run t = (f ()).run (t.updateStats g) := rfl

variable [Scalar α]

theorem retire_ok (h : id.index < t.arena.size) : (retire id).run t = .ok () (t.retireNode id) := by
  unfold retire
  rw [bind_ok (modifyNode_ok h Node.retire)]
  rfl

theorem allocate_ok (h : t.Tidy) (leaf : Bool) (parent : Option NodeId) (capacity : Nat) :
    ∃ id t', (allocate leaf parent capacity).run t = .ok id t' ∧
      t.Allocated t' id (Node.new leaf t.dim parent capacity) := by
  unfold allocate
  rw [get_bind]
  cases hf : t.free with
  | nil => exact ⟨_, _, rfl, h.allocated_push hf rfl rfl⟩
  | cons id rest =>
    have hm := (h.mem_free id).mp (by simp [hf])
    refine ⟨id, _, ?_, h.allocated_reuse hf rfl rfl⟩
    rw [set_bind, bind_ok (modifyNode_ok (t := { t with free := rest }) hm.1 _)]
    rfl

end TreeM

end RTree
