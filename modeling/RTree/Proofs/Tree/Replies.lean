import RTree.Proofs.Sorting
import RTree.Proofs.Tree.Checks
import RTree.Proofs.Tree.Echo

namespace RTree

variable {α : Type}

section Queries

variable [Scalar α] {o : Offset α} {t u : Tree α}

namespace Tree.Echo

theorem nodesFrom (h : Echo o t u) (limit : Nat) (id : NodeId) :
    u.nodesFrom limit id = t.nodesFrom limit id := by
  induction limit generalizing id with
  | zero => rfl
  | succ limit ih =>
    have hbelow : u.nodesFrom limit = t.nodesFrom limit := funext ih
    simp only [Tree.nodesFrom, hbelow]
    exact h.node_bind fun _ _ _ => rfl

theorem nodes_eq (h : Echo o t u) : u.nodes = t.nodes := by
  unfold Tree.nodes
  rw [h.walkLimit, h.root, h.nodesFrom]

theorem leaf (h : Echo o t u) (id : PointId) : u.leaf? (o.raise id) = t.leaf? id := by
  unfold Tree.leaf?
  rw [h.path]

theorem collectFrom (h : Echo o t u) {q : Rectangle α} {limit : Nat} {id : NodeId}
    {found : List PointId} (hfound : t.collectFrom q limit id = .ok found) :
    u.collectFrom q limit id = .ok (found.map o.raise) := by
  induction limit generalizing id found with
  | zero => cases hfound
  | succ limit ih =>
    obtain ⟨n, hn, hfound⟩ := bind_eq_ok.mp hfound
    obtain ⟨n', hn', history, -, rfl⟩ := h.node hn
    unfold Tree.collectFrom
    rw [bind_of_ok hn']
    dsimp only
    split
    · rename_i hmiss
      rw [if_pos hmiss] at hfound
      cases hfound
      rfl
    · rename_i hmeet
      rw [if_neg hmeet] at hfound
      split
      · rename_i hl
        rw [if_pos hl] at hfound
        obtain ⟨placed, hplaced, hpure⟩ := bind_eq_ok.mp hfound
        cases hpure
        rw [bind_of_ok (h.placedPoints rfl hplaced), List.filter_map, List.map_map, List.map_map]
        rfl
      · rename_i hl
        rw [if_neg hl] at hfound
        obtain ⟨below, hbelow, hpure⟩ := bind_eq_ok.mp hfound
        cases hpure
        rw [bind_of_ok (mapM_ok_map (fun _ _ hc => ih hc) hbelow), List.map_flatten]
        rfl

theorem within (h : Echo o t u) {q : Rectangle α} {found : List PointId}
    (hfound : t.within q = .ok found) : u.within q = .ok (found.map o.raise) := by
  unfold Tree.within at hfound ⊢
  rw [h.dim, h.walkLimit, h.root]
  split at hfound
  · cases hfound
  · rename_i hdim
    obtain ⟨met, hmet, hpure⟩ := bind_eq_ok.mp hfound
    cases hpure
    rw [if_neg hdim]
    refine bind_eq_ok.mpr ⟨met.map o.raise, h.collectFrom hmet, ?_⟩
    rw [stableSort_map fun a b => decide (a.index < b.index)]
    · rfl
    · intro a b
      simp [PointId.raise]

/-- The points ahead are dead, those after them keep their order. -/
theorem livePoints (h : Echo o t u) : u.livePoints = t.livePoints.map o.raise := by
  have hahead : (o.store.toList.zipIdx.filterMap fun a =>
      if a.1.live then some (⟨a.2⟩ : PointId) else none) = [] := by
    rw [List.filterMap_eq_nil_iff]
    intro a ha
    rw [o.dead a.1 (Array.mem_def.mpr (List.fst_mem_of_mem_zipIdx ha))]
    rfl
  unfold Tree.livePoints
  rw [h.store, Array.toList_append, List.zipIdx_append, List.filterMap_append]
  refine (congrArg (· ++ _) hahead).trans ?_
  have hshift : t.store.toList.zipIdx (0 + o.store.toList.length) =
      t.store.toList.zipIdx.map (Prod.map id (· + o.store.size)) := by
    rw [List.map_snd_add_zipIdx_eq_zipIdx, Nat.add_comm]
    rfl
  rw [List.nil_append, hshift, List.filterMap_map, List.map_filterMap]
  congr 1
  funext ⟨⟨_, live⟩, i⟩
  cases live <;> rfl

theorem slot (h : Echo o t u) (ho : o.alike) (id : NodeId) :
    u.slot id = (t.slot id).raise o.store.size := by
  unfold Tree.slot
  cases hn : t.arena[id.index]? with
  | none =>
    rw [h.vacant hn]
    rfl
  | some n =>
    obtain ⟨n', hn', history, hhistory, rfl⟩ := h.nodes _ _ hn
    rw [hn', hhistory ho]
    rfl

end Tree.Echo

end Queries

def Defect.raise (k : Nat) : Defect α → Defect α
  | removedPoint p leaf => removedPoint (p.raise k) leaf
  | storedAgain p => storedAgain (p.raise k)
  | d => d

def Findings.raise (k : Nat) (r : Findings α) : Findings α :=
  { r with defects := r.defects.map (.raise k) }

/-- Where nothing is broken, no point is named. -/
theorem Findings.raise_of_isValid (k : Nat) {r : Findings α} (h : r.isValid = true) :
    r.raise k = r := by
  have hnil : r.defects = [] := List.isEmpty_iff.mp h
  unfold raise
  rw [hnil, List.map_nil, ← hnil]

def Audit.raise (k : Nat) (a : Audit α) : Audit α :=
  { a with report := a.report.raise k, points := a.points.map (.raise k) }

namespace Audit

section Raise

variable (k : Nat) (a : Audit α)

theorem raise_add (ds : List (Defect α)) :
    (a.add ds).raise k = (a.raise k).add (ds.map (.raise k)) := by
  simp only [raise, Findings.raise, add, List.map_append]

theorem raise_flag (broken : Bool) (d : Defect α) :
    (a.flag broken d).raise k = (a.raise k).flag broken (d.raise k) := by
  cases broken with
  | true => exact raise_add k a [d]
  | false => rfl

theorem raise_checkDepth (leaf : NodeId) (depth : Nat) :
    (a.checkDepth leaf depth).raise k = (a.raise k).checkDepth leaf depth := by
  have hdepth : (a.raise k).leafDepth = a.leafDepth := rfl
  unfold checkDepth
  rw [hdepth]
  cases a.leafDepth with
  | none => rfl
  | some expected => exact raise_flag k a _ _

theorem raise_checkFill (isRoot : Bool) (id : NodeId) (entries minimum maximum : Nat) :
    (a.checkFill isRoot id entries minimum maximum).raise k =
      (a.raise k).checkFill isRoot id entries minimum maximum := by
  unfold checkFill
  split <;> split <;> simp only [raise, Findings.raise, add, List.map_append] <;> rfl

end Raise

variable [Scalar α] {o : Offset α} {t u : Tree α} {a b : Audit α} {id : NodeId} {n n' : Node α}

theorem checkPoint_echo (h : Tree.Echo o t u) (leaf : NodeId) (a : Audit α) (p : PointId) :
    checkPoint u leaf (a.raise o.store.size) (o.raise p) =
      (checkPoint t leaf a p).raise o.store.size := by
  have hmet : (a.raise o.store.size).points.contains (o.raise p) = a.points.contains p :=
    contains_map_raise o.store.size a.points p
  unfold checkPoint
  dsimp only
  rw [h.contains, hmet]
  split
  · rw [raise_add]
    rfl
  · split
    · rw [raise_add]
      rfl
    · rfl

theorem foldl_checkPoint_echo (h : Tree.Echo o t u) (leaf : NodeId) (a : Audit α)
    (points : List PointId) :
    (points.map o.raise).foldl (checkPoint u leaf) (a.raise o.store.size) =
      (points.foldl (checkPoint t leaf) a).raise o.store.size := by
  induction points generalizing a with
  | nil => rfl
  | cons p points ih =>
    rw [List.map_cons, List.foldl_cons, List.foldl_cons, checkPoint_echo h]
    exact ih _

theorem checkChild_echo (h : Tree.Echo o t u) (parent : NodeId) (a : Audit α) (child : NodeId)
    (hb : checkChild t parent a child = .ok b) :
    checkChild u parent (a.raise o.store.size) child = .ok (b.raise o.store.size) := by
  obtain ⟨n, hn, hpure⟩ := bind_eq_ok.mp hb
  obtain ⟨n', hn', history, -, rfl⟩ := h.node hn
  cases hpure
  refine bind_eq_ok.mpr ⟨_, hn', ?_⟩
  rw [raise_flag]
  rfl

omit [Scalar α] in
theorem foldlM_raise {k : Nat} {f f' : Audit α → NodeId → Except (Failure α) (Audit α)}
    (hf : ∀ a c b, f a c = .ok b → f' (a.raise k) c = .ok (b.raise k)) (cs : List NodeId)
    (h : cs.foldlM f a = .ok b) : cs.foldlM f' (a.raise k) = .ok (b.raise k) := by
  induction cs generalizing a with
  | nil =>
    cases h
    rfl
  | cons c cs ih =>
    rw [List.foldlM_cons] at h ⊢
    obtain ⟨a', ha', h⟩ := bind_eq_ok.mp h
    rw [bind_of_ok (hf a c a' ha')]
    exact ih h

theorem checkForm_echo (h : Tree.Echo o t u) (ho : o.alike) (hconfig : u.config = t.config)
    (a : Audit α) :
    checkForm u id (a.raise o.store.size) = (checkForm t id a).raise o.store.size := by
  have hcount : ((t.slot id).raise o.store.size).entryCount = (t.slot id).entryCount := by
    simp only [Node.entryCount, Node.raise, List.length_map]
  unfold checkForm Tree.minimumFill Tree.room
  simp only [raise_flag, raise_checkFill, h.slot ho, h.root, hconfig, hcount]
  rfl

variable (ht : t.Readable) (hu : u.Readable) (h : Tree.Echo o t u) (ho : o.alike)
  (hconfig : u.config = t.config)
include ht hu h ho hconfig

theorem checkNode_echo (depth : Nat) (a b : Audit α)
    (hb : checkNode t id (t.slot id) depth a = .ok b) :
    checkNode u id (u.slot id) depth (a.raise o.store.size) = .ok (b.raise o.store.size) := by
  have hslot := h.slot ho id
  have hhull : u.hullOf (u.slot id) = t.hullOf (t.slot id) := by
    have hecho : Node.Echo o (t.slot id) (u.slot id) := ⟨_, fun _ => rfl, hslot⟩
    have hbound := h.tightBound hecho (tightBound_readable ht id)
    exact Except.ok.inj ((tightBound_readable hu id).symm.trans hbound)
  cases hl : (t.slot id).leaf with
  | true =>
    have hl' : (u.slot id).leaf = true := by rw [hslot]; exact hl
    rw [checkNode_leaf ht hl] at hb
    rw [checkNode_leaf hu hl', hhull, checkForm_echo h ho hconfig]
    cases hb
    rw [raise_flag, ← foldl_checkPoint_echo h, raise_checkDepth, raise_flag, hslot]
    rfl
  | false =>
    have hl' : (u.slot id).leaf = false := by rw [hslot]; exact hl
    rw [checkNode_directory ht hl] at hb
    rw [checkNode_directory hu hl', hhull, checkForm_echo h ho hconfig]
    obtain ⟨a₁, hchildren, hpure⟩ := bind_eq_ok.mp hb
    cases hpure
    have hchildren' := foldlM_raise (fun _ _ _ hc => checkChild_echo h id _ _ hc) _ hchildren
    rw [raise_flag] at hchildren'
    refine bind_eq_ok.mpr ⟨a₁.raise o.store.size, ?_, ?_⟩
    · rw [hslot]
      have hempty : ((t.slot id).raise o.store.size).points.isEmpty =
          (t.slot id).points.isEmpty := List.isEmpty_map
      rw [hempty]
      exact hchildren'
    · rw [raise_flag, hslot]
      rfl

theorem visit_echo (limit : Nat) (id : NodeId) (depth : Nat) (a b : Audit α)
    (hb : visit t limit id depth a = .ok b) :
    visit u limit id depth (a.raise o.store.size) = .ok (b.raise o.store.size) := by
  induction limit generalizing id depth a b with
  | zero => cases hb
  | succ limit ih =>
    unfold visit at hb ⊢
    dsimp only at hb ⊢
    split at hb
    · rename_i hmet
      cases hb
      rw [if_pos (show (a.raise o.store.size).nodes.contains id = true from hmet), raise_add]
      rfl
    · rename_i hmet
      obtain ⟨n, hn, hb⟩ := bind_eq_ok.mp hb
      obtain ⟨a₁, hchecked, hb⟩ := bind_eq_ok.mp hb
      obtain rfl : t.slot id = n := by
        rw [Tree.node_eq_ok_iff] at hn
        simp only [Tree.slot, hn, Option.getD_some]
      have hlt := h.slots ▸ Tree.exists_node_iff.mp ⟨_, hn⟩
      have hchecked' := checkNode_echo ht hu h ho hconfig depth _ a₁ hchecked
      rw [if_neg (show ¬(a.raise o.store.size).nodes.contains id = true from hmet),
        bind_of_ok (Tree.node_eq hlt)]
      refine bind_eq_ok.mpr ⟨a₁.raise o.store.size, hchecked', ?_⟩
      rw [h.slot ho]
      show (if (t.slot id).leaf then _ else (t.slot id).children.reverse.foldlM _ _) = _
      split
      · rename_i hl
        rw [if_pos hl] at hb
        cases hb
        rfl
      · rename_i hl
        rw [if_neg hl] at hb
        exact foldlM_raise (fun a c b hc => ih c (depth + 1) a b hc) _ hb

/-- The audits of the two trees find the same. -/
theorem audit_echo {r : Findings α} (hr : t.audit = .ok r) :
    u.audit = .ok (r.raise o.store.size) := by
  obtain ⟨root, hroot, hr⟩ := bind_eq_ok.mp hr
  obtain ⟨a, hvisit, hpure⟩ := bind_eq_ok.mp hr
  cases hpure
  obtain ⟨root', hroot', history, -, rfl⟩ := h.node hroot
  have hvisit' := visit_echo ht hu h ho hconfig _ _ _ _ _ hvisit
  rw [raise_flag] at hvisit'
  unfold Tree.audit
  rw [h.root, bind_of_ok hroot', h.walkLimit, h.livePoints, h.size]
  refine bind_eq_ok.mpr ⟨a.raise o.store.size, hvisit', ?_⟩
  have hmissing : (t.livePoints.map o.raise).countP
        (fun p => !(a.raise o.store.size).points.contains p) =
      t.livePoints.countP fun p => !a.points.contains p := by
    rw [List.countP_map]
    congr 1
    funext p
    exact congrArg (!·) (contains_map_raise o.store.size a.points p)
  have hlength : ∀ a : Audit α, (a.raise o.store.size).points.length = a.points.length :=
    fun a => List.length_map _
  dsimp only
  rw [hmissing]
  have hflag : ∀ (a : Audit α) (broken : Bool) (d : Defect α), d.raise o.store.size = d →
      (a.raise o.store.size).flag broken d = (a.flag broken d).raise o.store.size := by
    intro a broken d hd
    rw [raise_flag, hd]
  rw [hflag a _ _ rfl, hlength, hflag _ _ _ rfl]
  rfl

end Audit

end RTree
