import RTree.Proofs.Runs
import RTree.Proofs.Scalar.Binary64
import Mathlib.Data.List.Nodup

namespace RTree

variable {α : Type}

namespace Tree

/-- Every slot of the arena is accounted for, by the list of all nodes or by the free list. -/
structure Accounted (t : Tree α) (ids : List NodeId) : Prop where
  nodes : t.nodes = .ok ids
  nodup_nodes : ids.Nodup
  mem_nodes : ∀ x, x ∈ ids ↔ t.Below t.root x
  parent_first : ∀ x ∈ ids, ∀ c ∈ (t.slot x).children, ids.idxOf x < ids.idxOf c
  nodup_free : t.free.Nodup
  mem_free : ∀ x, x ∈ t.free ↔ ∃ n, t.node x = .ok n ∧ n.retired = true
  slot : ∀ x : NodeId, x.index < t.arena.size ↔ t.Below t.root x ∨ x ∈ t.free
  apart : ∀ x, t.Below t.root x → x ∉ t.free
  size_arena : t.arena.size = ids.length + t.free.length
  root : t.root = ⟨0⟩
  root_parent : (t.slot t.root).parent = none

/-- A list of the nodes below a node, each once and none after one of its children. -/
structure Spans (t : Tree α) (id : NodeId) (ids : List NodeId) : Prop where
  nodup : ids.Nodup
  mem : ∀ x, x ∈ ids ↔ t.Below id x
  ordered : ids.Pairwise fun x y => x ∉ (t.slot y).children

variable {t t' : Tree α} {lev : NodeId → Nat}

namespace Linked

/-- Below two children of a node there is no node in common. -/
theorem below_child_unique (h : t.Linked lev []) {x c d y : NodeId} (hc : c ∈ (t.slot x).children)
    (hd : d ∈ (t.slot x).children) (hcy : t.Below c y) (hdy : t.Below d y) : c = d := by
  have h1 := (h.child x c hc).2.2
  have h2 := (h.child x d hd).2.2
  exact h.below_unique hcy hdy (by omega)

/-- A node stands before the lists of what is below its children. -/
theorem spans_cons (h : t.Linked lev []) {id : NodeId} {listed : NodeId → List NodeId}
    (hlisted : ∀ c ∈ (t.slot id).children, t.Spans c (listed c)) :
    t.Spans id (id :: (t.slot id).children.flatMap listed) := by
  have hmem : ∀ x, x ∈ (t.slot id).children.flatMap listed ↔
      ∃ c ∈ (t.slot id).children, t.Below c x := by
    intro x
    rw [List.mem_flatMap]
    exact exists_congr fun c => and_congr_right fun hc => (hlisted c hc).mem x
  have hlow : ∀ x ∈ (t.slot id).children.flatMap listed, lev x < lev id := by
    intro x hx
    obtain ⟨c, hc, hcx⟩ := (hmem x).mp hx
    have h1 := (h.child id c hc).2.2
    have h2 := (h.level_le_of_below hcx).1
    omega
  constructor
  · apply List.nodup_cons.mpr
    refine ⟨fun hx => Nat.lt_irrefl _ (hlow id hx), List.nodup_flatMap.mpr ⟨?_, ?_⟩⟩
    · exact fun c hc => (hlisted c hc).nodup
    · apply (h.nodup id).imp_of_mem
      intro c d hc hd hne x hcx hdx
      apply hne
      exact h.below_child_unique hc hd (((hlisted c hc).mem x).mp hcx)
        (((hlisted d hd).mem x).mp hdx)
  · intro x
    rw [List.mem_cons, hmem, below_iff]
  · apply List.pairwise_cons.mpr
    constructor
    · intro x hx hc
      have h1 := (h.child x id hc).2.2
      have h2 := hlow x hx
      omega
    · refine List.pairwise_flatMap.mpr ⟨fun c hc => (hlisted c hc).ordered, ?_⟩
      apply (h.nodup id).imp_of_mem
      intro c d hc hd hne x hcx y hdy hxy
      apply hne
      have hdx : t.Below d x := (((hlisted d hd).mem y).mp hdy).tail hxy
      exact h.below_child_unique hc hd (((hlisted c hc).mem x).mp hcx) hdx

theorem nodesFrom_ok (h : t.Linked lev []) {limit : Nat} {id : NodeId} (hid : t.InUse id)
    (hlim : lev id < limit) : ∃ ids, t.nodesFrom limit id = .ok ids ∧ t.Spans id ids := by
  induction limit generalizing id with
  | zero => omega
  | succ limit ih =>
    have hkids : ∀ c ∈ (t.slot id).children, ∃ ids, t.nodesFrom limit c = .ok ids ∧
        t.Spans c ids := by
      intro c hc
      obtain ⟨hcu, -, hcl⟩ := h.child id c hc
      exact ih hcu (by omega)
    choose! listed hlisted using hkids
    have hall : (t.slot id).children.mapM (t.nodesFrom limit) =
        .ok ((t.slot id).children.map listed) := mapM_ok fun c hc => (hlisted c hc).1
    refine ⟨_, ?_, h.spans_cons fun c hc => (hlisted c hc).2⟩
    show (t.node id >>= _) = _
    rw [bind_of_ok hid.node_eq, bind_of_ok hall, ← List.flatMap_def]
    rfl

/-- The nodes in use are those of the tree. -/
theorem inUse_iff_below (h : t.Linked lev []) (x : NodeId) : t.InUse x ↔ t.Below t.root x :=
  ⟨fun hx => h.below_root hx, fun hx => h.inUse_of_below h.root hx⟩

theorem mem_free_iff (h : t.Linked lev []) (x : NodeId) :
    x ∈ t.free ↔ ∃ n, t.node x = .ok n ∧ n.retired = true := by
  rw [h.tidy.mem_free]
  constructor
  · intro ⟨hlt, hr⟩
    exact ⟨t.slot x, t.node_eq hlt, hr⟩
  · intro ⟨n, hn, hr⟩
    have hlt : x.index < t.arena.size := exists_node_iff.mp ⟨n, hn⟩
    have hslot : t.slot x = n := by
      rw [t.node_eq hlt] at hn
      exact Except.ok.inj hn
    exact ⟨hlt, hslot ▸ hr⟩

theorem lt_size_iff (h : t.Linked lev []) (x : NodeId) :
    x.index < t.arena.size ↔ t.Below t.root x ∨ x ∈ t.free := by
  rw [← h.inUse_iff_below, h.tidy.mem_free]
  constructor
  · intro hlt
    cases hr : (t.slot x).retired with
    | false => exact .inl hr
    | true => exact .inr ⟨hlt, rfl⟩
  · rintro (hu | ⟨hlt, -⟩)
    · exact hu.lt
    · exact hlt

end Linked

theorem Spans.parent_first {id : NodeId} {ids : List NodeId} (hids : t.Spans id ids)
    (h : t.Linked lev []) : ∀ x ∈ ids, ∀ c ∈ (t.slot x).children, ids.idxOf x < ids.idxOf c := by
  intro x hx c hc
  have hcids : c ∈ ids := (hids.mem c).mpr (((hids.mem x).mp hx).tail hc)
  have hxlt := List.idxOf_lt_length_of_mem hx
  have hclt := List.idxOf_lt_length_of_mem hcids
  by_contra hle
  rcases Nat.lt_or_eq_of_le (Nat.not_lt.mp hle) with hlt | heq
  · have hnot := List.pairwise_iff_getElem.mp hids.ordered _ _ hclt hxlt hlt
    rw [List.getElem_idxOf hclt, List.getElem_idxOf hxlt] at hnot
    exact hnot hc
  · exact h.child_ne hc ((List.idxOf_inj hcids).mp heq)

/-- A list of all nodes and the free list share out the arena. -/
theorem size_arena_eq {ids : List NodeId} (hids : ids.Nodup) (hfree : t.free.Nodup)
    (hapart : ∀ x ∈ ids, x ∉ t.free)
    (hslot : ∀ x : NodeId, x.index < t.arena.size ↔ x ∈ ids ∨ x ∈ t.free) :
    t.arena.size = ids.length + t.free.length := by
  have hall : (ids ++ t.free).Nodup := by
    rw [List.nodup_append]
    refine ⟨hids, hfree, ?_⟩
    intro x hx y hy heq
    exact hapart x hx (heq ▸ hy)
  have hslots : ((List.range t.arena.size).map NodeId.mk).Nodup := by
    apply List.nodup_range.map
    intro i j hij
    exact congrArg NodeId.index hij
  have hperm : (ids ++ t.free).Perm ((List.range t.arena.size).map NodeId.mk) := by
    apply (List.perm_ext_iff_of_nodup hall hslots).mpr
    intro x
    rw [List.mem_append, ← hslot x, List.mem_map]
    constructor
    · exact fun hx => ⟨x.index, List.mem_range.mpr hx, rfl⟩
    · rintro ⟨i, hi, rfl⟩
      exact List.mem_range.mp hi
  have hlength := hperm.length_eq
  rw [List.length_append, List.length_map, List.length_range] at hlength
  exact hlength.symm

variable [Scalar α]

theorem Settled.accounted (h : t.Settled) (hroot : t.root = ⟨0⟩) : ∃ ids, t.Accounted ids := by
  obtain ⟨lev, hs⟩ := h.sound
  have hl := hs.linked
  obtain ⟨ids, hrun, hids⟩ := hl.nodesFrom_ok hl.root hs.level_root_lt_limit
  have hapart : ∀ x, t.Below t.root x → x ∉ t.free := fun x hx =>
    ((hl.inUse_iff_below x).mpr hx).not_mem_free hl.tidy
  have hsize : t.arena.size = ids.length + t.free.length := by
    apply size_arena_eq hids.nodup hl.tidy.nodup_free
    · exact fun x hx => hapart x ((hids.mem x).mp hx)
    · intro x
      rw [hl.lt_size_iff, hids.mem]
  exact
    ⟨ids,
      { nodes := hrun, nodup_nodes := hids.nodup, mem_nodes := hids.mem
        parent_first := hids.parent_first hl, nodup_free := hl.tidy.nodup_free
        mem_free := hl.mem_free_iff, slot := hl.lt_size_iff, apart := hapart
        size_arena := hsize, root := hroot, root_parent := hl.root_parent }⟩

theorem Called.root {k : Call α} {answer : Answer α} (h : Called t k answer t')
    (hroot : t.root = ⟨0⟩) : t'.root = ⟨0⟩ := by
  cases h with
  | inserted h => exact h.frame.2.1.trans hroot
  | refused => exact hroot
  | removed h => exact h.frame.2.1.trans hroot
  | absent => exact hroot
  | cleared => rfl

variable [OrderedScalar α]

/-- After any calls the nodes listed and the free slots share out the arena between them. -/
theorem slots_accounted {c : Config α} (h : Tree.new c = .ok t) (ks : List (Call α)) :
    ∃ ids, (t.calls ks).2.Accounted ids := by
  have hsettled := settled_new h
  have hroot : t.root = ⟨0⟩ := by
    obtain ⟨-, rfl⟩ := new_eq_ok.mp h
    rfl
  apply (hsettled.calls ks).accounted
  exact calls_induction (P := fun t => t.root = ⟨0⟩)
    (fun t k hs ht => (hs.call k).1.root ht) hsettled hroot ks

/-- Three points in leaves for two: the old leaf's slot is free again, the root and two leaves are
in use. -/
theorem slots_accounted_triple :
    ∃ ids, ((ofConfig
        { (default : Config Float) with minLeafSize := 1, maxLeafSize := 2 }).calls
        [.insert [0, 0], .insert [1, 1], .insert [5, 5]]).2.Accounted ids ∧
      ids = [⟨0⟩, ⟨2⟩, ⟨3⟩] := by
  obtain ⟨ids, hids⟩ := slots_accounted
    (c := { (default : Config Float) with minLeafSize := 1, maxLeafSize := 2 }) rfl
    [.insert [0, 0], .insert [1, 1], .insert [5, 5]]
  have hnodes : ((ofConfig
      { (default : Config Float) with minLeafSize := 1, maxLeafSize := 2 }).calls
      [.insert [0, 0], .insert [1, 1], .insert [5, 5]]).2.nodes.toOption =
        some [⟨0⟩, ⟨2⟩, ⟨3⟩] := by decide +kernel
  rw [hids.nodes] at hnodes
  exact ⟨ids, hids, Option.some.inj hnodes⟩

end Tree

end RTree
