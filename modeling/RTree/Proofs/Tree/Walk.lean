import RTree.Proofs.Tree.Checks
import Mathlib.Data.List.Pairwise
import Mathlib.Data.List.Nodup

/-!
A walk that child links may lead to a node again, or round in a circle, comes to an end. Unless it
has found something broken, it has come along all routes below the node that it started from.
-/

namespace RTree

variable {α : Type}

namespace Tree

structure Stop.Compatible {t : Tree α} (x y : t.Stop) : Prop where
  node : x.node ≠ y.node
  depth : (t.slot x.node).leaf = true → (t.slot y.node).leaf = true →
    x.route.length = y.route.length
  points : ∀ p, t.Lists x.node p → ¬ t.Lists y.node p

/-- Nothing broken is to be found along some routes. -/
structure Coherent [Scalar α] (t : Tree α) (log : List t.Stop) : Prop where
  root_parent : (t.slot t.root).parent = none
  fit : ∀ x ∈ log, t.Fit x.node
  tight : ∀ x ∈ log, (t.hullOf (t.slot x.node) == (t.slot x.node).bound) = true
  pairwise : log.Pairwise Stop.Compatible

variable {t : Tree α}

theorem Stop.Compatible.symm {x y : t.Stop} (h : x.Compatible y) : y.Compatible x :=
  ⟨h.node.symm, fun hx hy => (h.depth hy hx).symm, fun p hx hy => h.points p hy hx⟩

instance : Std.Symm (Stop.Compatible (t := t)) := ⟨fun _ _ h => h.symm⟩

variable [Scalar α] {x : t.Stop} {log : List t.Stop}

theorem coherent_cons : t.Coherent (x :: log) ↔ t.Coherent log ∧ t.Fit x.node ∧
    (t.hullOf (t.slot x.node) == (t.slot x.node).bound) = true ∧ ∀ y ∈ log, x.Compatible y := by
  constructor
  · intro h
    have hf := List.forall_mem_cons.mp h.fit
    have ht := List.forall_mem_cons.mp h.tight
    have hp := List.pairwise_cons.mp h.pairwise
    exact ⟨⟨h.root_parent, hf.2, ht.2, hp.2⟩, hf.1, ht.1, hp.1⟩
  · rintro ⟨h, hf, ht, hp⟩
    exact ⟨h.root_parent, List.forall_mem_cons.mpr ⟨hf, h.fit⟩,
      List.forall_mem_cons.mpr ⟨ht, h.tight⟩, List.pairwise_cons.mpr ⟨hp, h.pairwise⟩⟩

theorem Coherent.of_append {more : List t.Stop} (h : t.Coherent (more ++ log)) :
    t.Coherent log where
  root_parent := h.root_parent
  fit := fun x hx => h.fit x (by simp [hx])
  tight := fun x hx => h.tight x (by simp [hx])
  pairwise := (List.pairwise_append.mp h.pairwise).2.1

end Tree

namespace Audit

open RTree.Tree

def meet (a : Audit α) (x : NodeId) : Audit α :=
  { a with
    report := { a.report with nodesChecked := a.report.nodesChecked + 1 }
    nodes := x :: a.nodes }

/-- What the walk has written down when it has come along some routes. -/
structure Logged [Scalar α] (t : Tree α) (a : Audit α) (log : List t.Stop) : Prop where
  nodup : log.Nodup
  nodup_nodes : a.nodes.Nodup
  nodup_points : a.points.Nodup
  nodes : ∀ n, n ∈ a.nodes ↔ ∃ x ∈ log, x.node = n
  points : ∀ p, p ∈ a.points ↔ t.contains p = true ∧ ∃ x ∈ log, t.Lists x.node p
  leafDepth : ∀ d ∈ a.leafDepth, ∃ x ∈ log, (t.slot x.node).leaf = true ∧ x.route.length = d
  leafless : a.leafDepth = none → ∀ x ∈ log, (t.slot x.node).leaf = false
  clean : a.Clean ↔ t.Coherent log

variable [Scalar α] {t : Tree α} {a a' : Audit α} {log more : List t.Stop} {x : t.Stop}

namespace Logged

theorem length_le (h : t.Readable) (ha : Logged t a log) : a.nodes.length ≤ t.arena.size := by
  apply length_le_of_nodup ha.nodup_nodes
  intro n hn
  obtain ⟨x, -, rfl⟩ := (ha.nodes n).mp hn
  exact x.lt h

theorem length_mono (ha : Logged t a log) (ha' : Logged t a' (more ++ log)) :
    a.nodes.length ≤ a'.nodes.length := by
  apply (List.subperm_of_subset ha.nodup_nodes _).length_le
  intro n hn
  obtain ⟨x, hx, hxn⟩ := (ha.nodes n).mp hn
  exact (ha'.nodes n).mpr ⟨x, by simp [hx], hxn⟩

/-- A node that was met before is found to be reached again. -/
theorem again (ha : Logged t a log) (hx : x ∉ log) (hmet : x.node ∈ a.nodes)
    (h : Checked a a' False) : Logged t a' (x :: log) := by
  obtain ⟨y, hy, hyx⟩ := (ha.nodes _).mp hmet
  constructor
  · exact List.nodup_cons.mpr ⟨hx, ha.nodup⟩
  · exact h.nodes ▸ ha.nodup_nodes
  · exact h.points ▸ ha.nodup_points
  · intro n
    rw [h.nodes, ha.nodes, List.exists_mem_cons_iff]
    exact ⟨.inr, fun hn => hn.elim (fun he => ⟨y, hy, hyx.trans he⟩) id⟩
  · intro p
    rw [h.points, ha.points, List.exists_mem_cons_iff, ← hyx]
    exact and_congr_right fun _ => ⟨.inr, fun hn => hn.elim (fun hl => ⟨y, hy, hl⟩) id⟩
  · intro d hd
    obtain ⟨z, hz, hzd⟩ := ha.leafDepth d (h.leafDepth ▸ hd)
    exact ⟨z, by simp [hz], hzd⟩
  · intro hd
    have hleafless := ha.leafless (h.leafDepth ▸ hd)
    exact List.forall_mem_cons.mpr ⟨hyx ▸ hleafless y hy, hleafless⟩
  · rw [h.clean, coherent_cons]
    refine ⟨fun hf => hf.2.elim, fun hc => ?_⟩
    exact absurd hyx.symm (hc.2.2.2 y hy).node

/-- A node goes together with those before when its depth and its points do. -/
theorem compatible_iff (ha : Logged t a log) (hc : t.Coherent log) (hf : t.Fit x.node)
    (hnew : x.node ∉ a.nodes) :
    (((t.slot x.node).leaf = true → ∀ d ∈ a.leafDepth, d = x.route.length) ∧
      ∀ p, t.Lists x.node p → p ∉ a.points) ↔ ∀ y ∈ log, x.Compatible y := by
  constructor
  · rintro ⟨hdepth, hpoints⟩ y hy
    refine ⟨?_, ?_, ?_⟩
    · intro he
      exact hnew ((ha.nodes _).mpr ⟨y, hy, he.symm⟩)
    · intro hx hyl
      cases hd : a.leafDepth with
      | none =>
        rw [ha.leafless hd y hy] at hyl
        cases hyl
      | some d =>
        obtain ⟨z, hz, hzl, rfl⟩ := ha.leafDepth d hd
        have hyz : y.route.length = z.route.length := by
          by_cases he : y = z
          · rw [he]
          · exact (hc.pairwise.forall hy hz he).depth hyl hzl
        rw [hyz, hdepth hx _ hd]
    · intro p hxp hyp
      exact hpoints p hxp ((ha.points p).mpr ⟨hf.live p hxp, y, hy, hyp⟩)
  · intro hall
    refine ⟨?_, ?_⟩
    · intro hx d hd
      obtain ⟨z, hz, hzl, rfl⟩ := ha.leafDepth d hd
      exact ((hall z hz).depth hx hzl).symm
    · intro p hxp hp
      obtain ⟨-, y, hy, hyp⟩ := (ha.points p).mp hp
      exact (hall y hy).points p hxp hyp

/-- A node met for the first time is checked. -/
theorem first (ha : Logged t a log) (hnew : x.node ∉ a.nodes)
    (h : Examined t x.node x.route.length (a.meet x.node) a') : Logged t a' (x :: log) := by
  have hnodes : a'.nodes = x.node :: a.nodes := h.nodes
  have hdepth : a'.leafDepth = if (t.slot x.node).leaf then
      some (a.leafDepth.getD x.route.length) else a.leafDepth := h.leafDepth
  constructor
  · refine List.nodup_cons.mpr ⟨fun hx => hnew ?_, ha.nodup⟩
    exact (ha.nodes _).mpr ⟨x, hx, rfl⟩
  · rw [hnodes]
    exact List.nodup_cons.mpr ⟨hnew, ha.nodup_nodes⟩
  · exact h.nodup ha.nodup_points
  · intro n
    rw [hnodes, List.mem_cons, ha.nodes, List.exists_mem_cons_iff, eq_comm]
  · intro p
    rw [h.points, List.exists_mem_cons_iff, and_or_left, or_comm]
    exact or_congr_right (ha.points p)
  · intro d hd
    cases hl : (t.slot x.node).leaf with
    | false =>
      rw [hdepth, hl] at hd
      obtain ⟨z, hz, hzd⟩ := ha.leafDepth d hd
      exact ⟨z, by simp [hz], hzd⟩
    | true =>
      rw [hdepth, hl] at hd
      obtain rfl : a.leafDepth.getD x.route.length = d := Option.some.inj hd
      cases ho : a.leafDepth with
      | none => exact ⟨x, by simp, hl, rfl⟩
      | some d =>
        obtain ⟨z, hz, hzd⟩ := ha.leafDepth d ho
        exact ⟨z, by simp [hz], hzd⟩
  · intro hd
    cases hl : (t.slot x.node).leaf with
    | true =>
      rw [hdepth, hl] at hd
      cases hd
    | false =>
      rw [hdepth, hl] at hd
      exact List.forall_mem_cons.mpr ⟨hl, ha.leafless hd⟩
  · have hclean : (a.meet x.node).Clean ↔ t.Coherent log := ha.clean
    rw [h.clean, hclean, coherent_cons]
    refine and_congr_right fun hc => and_congr_right fun hf => and_congr_right fun _ => ?_
    exact ha.compatible_iff hc hf hnew

end Logged

/-- The walk has gone through a node and all below it, and has come to all of it unless something
is broken. -/
structure Toured (t : Tree α) (x : t.Stop) (log more : List t.Stop) (a' : Audit α) : Prop where
  logged : Logged t a' (more ++ log)
  below : ∀ y ∈ more, x.route <:+ y.route
  all : t.Coherent (more ++ log) → ∀ y : t.Stop, x.route <:+ y.route → y ∈ more

/-- The walk has gone through some of the children of a node. -/
structure ToursBelow (t : Tree α) (x : t.Stop) (k : Nat) (log more : List t.Stop) (a' : Audit α) :
    Prop where
  logged : Logged t a' (more ++ log)
  below : ∀ y ∈ more, ∃ place < k, (place :: x.route) <:+ y.route
  all : t.Coherent (more ++ log) → ∀ place < k, ∀ y : t.Stop,
    (place :: x.route) <:+ y.route → y ∈ more

theorem foldlM_toured (step : Audit α → NodeId → Except (Failure α) (Audit α)) (bound : Nat)
    (hstep : ∀ place (h : place < (t.slot x.node).children.length) (a : Audit α) log,
      Logged t a log → (∀ y ∈ log, ¬ (place :: x.route) <:+ y.route) → bound ≤ a.nodes.length →
      ∃ a' more, step a (x.child place h).node = .ok a' ∧
        Toured t (x.child place h) log more a')
    {k : Nat} (hk : k ≤ (t.slot x.node).children.length) (ha : Logged t a log)
    (hnew : ∀ y ∈ log, ∀ place < k, ¬ (place :: x.route) <:+ y.route)
    (hbound : bound ≤ a.nodes.length) :
    ∃ a' more, ((t.slot x.node).children.take k).reverse.foldlM step a = .ok a' ∧
      ToursBelow t x k log more a' := by
  induction k generalizing a log with
  | zero => exact ⟨a, [], rfl, ha, by simp, by simp⟩
  | succ k ih =>
    obtain ⟨a₁, more₁, hrun₁, h₁⟩ := hstep k hk a log ha
      (fun y hy => hnew y hy k (Nat.lt_succ_self k)) hbound
    -- children before the one just visited are still to come
    have hnew₁ : ∀ y ∈ more₁ ++ log, ∀ place < k, ¬ (place :: x.route) <:+ y.route := by
      intro y hy place hlt hsuffix
      rcases List.mem_append.mp hy with hy | hy
      · have := Stop.place_unique hsuffix (h₁.below y hy)
        omega
      · exact hnew y hy place (by omega) hsuffix
    obtain ⟨a₂, more₂, hrun₂, h₂⟩ := ih (by omega) h₁.logged hnew₁
      (hbound.trans (ha.length_mono h₁.logged))
    refine ⟨a₂, more₂ ++ more₁, ?_, ?_, ?_, ?_⟩
    · rw [List.take_succ_eq_append_getElem hk, List.reverse_append, List.reverse_singleton,
        List.singleton_append, List.foldlM_cons]
      exact (bind_of_ok hrun₁ _).trans hrun₂
    · rw [List.append_assoc]
      exact h₂.logged
    · intro y hy
      rcases List.mem_append.mp hy with hy | hy
      · obtain ⟨place, hlt, hsuffix⟩ := h₂.below y hy
        exact ⟨place, by omega, hsuffix⟩
      · exact ⟨k, Nat.lt_succ_self k, h₁.below y hy⟩
    · intro hc place hlt y hsuffix
      rw [List.append_assoc] at hc
      rw [List.mem_append]
      rcases Nat.lt_succ_iff_lt_or_eq.mp hlt with hlt | rfl
      · exact .inl (h₂.all hc place hlt y hsuffix)
      · exact .inr (h₁.all hc.of_append y hsuffix)

namespace Toured

theorem again (ha : Logged t a log) (hx : x ∉ log) (hmet : x.node ∈ a.nodes)
    (h : Checked a a' False) : Toured t x log [x] a' where
  logged := ha.again hx hmet h
  below := fun y hy => by rw [List.mem_singleton.mp hy]
  all := by
    intro hc
    obtain ⟨y, hy, hyx⟩ := (ha.nodes _).mp hmet
    exact absurd hyx.symm ((coherent_cons.mp hc).2.2.2 y hy).node

theorem leaf (ha : Logged t a (x :: log)) (hl : (t.slot x.node).leaf = true) :
    Toured t x log [x] a where
  logged := ha
  below := fun y hy => by rw [List.mem_singleton.mp hy]
  all := by
    intro hc y hsuffix
    by_contra hne
    obtain ⟨place, hplace, -⟩ := Stop.exists_child_suffix hsuffix (by simpa using hne)
    rw [(hc.fit x (by simp)).oneKind.leaf hl] at hplace
    cases hplace

theorem directory (h : ToursBelow t x (t.slot x.node).children.length (x :: log) more a) :
    Toured t x log (more ++ [x]) a where
  logged := by simpa using h.logged
  below := by
    intro y hy
    rcases List.mem_append.mp hy with hy | hy
    · obtain ⟨place, -, hsuffix⟩ := h.below y hy
      exact (List.suffix_cons place x.route).trans hsuffix
    · rw [List.mem_singleton.mp hy]
  all := by
    intro hc y hsuffix
    rw [List.mem_append, List.mem_singleton]
    by_cases he : y = x
    · exact .inr he
    · obtain ⟨place, hplace, hgo⟩ := Stop.exists_child_suffix hsuffix he
      exact .inl (h.all (by simpa using hc) place hplace y hgo)

end Toured

theorem visit_met (t : Tree α) (limit depth : Nat) {id : NodeId} (hmet : id ∈ a.nodes) :
    visit t (limit + 1) id depth a = .ok
      ({ a with
        report := { a.report with nodesChecked := a.report.nodesChecked + 1 } }.add
          [.reachedAgain id]) := by
  unfold visit
  exact if_pos (List.contains_iff_mem.mpr hmet)

theorem visit_again (t : Tree α) (limit depth : Nat) {id : NodeId} (hmet : id ∈ a.nodes) :
    ∃ a', visit t (limit + 1) id depth a = .ok a' ∧ Checked a a' False :=
  ⟨_, visit_met t limit depth hmet, rfl, rfl, rfl, by simp⟩

theorem visit_first {limit depth : Nat} {id : NodeId} (hid : id.index < t.arena.size)
    (hnew : id ∉ a.nodes) (hrun : checkNode t id (t.slot id) depth (a.meet id) = .ok a') :
    visit t (limit + 1) id depth a =
      if (t.slot id).leaf then .ok a'
      else (t.slot id).children.reverse.foldlM
        (fun a child => visit t limit child (depth + 1) a) a' := by
  conv_lhs => unfold visit
  simp only
  rw [if_neg (by simpa using hnew), bind_of_ok (node_eq hid)]
  exact bind_of_ok hrun _

/-- Each node met for the first time makes the bound on the walk one tighter and the list of nodes
one longer, so that the walk ends before the bound is reached. -/
theorem visit_toured (h : t.Readable) (limit : Nat) (ha : Logged t a log)
    (hnew : ∀ y ∈ log, ¬ x.route <:+ y.route) (hlim : t.arena.size < limit + a.nodes.length) :
    ∃ a' more, visit t limit x.node x.route.length a = .ok a' ∧ Toured t x log more a' := by
  induction limit generalizing a log x with
  | zero =>
    have := ha.length_le h
    omega
  | succ limit ih =>
    have hx : x ∉ log := fun hm => hnew x hm (List.suffix_refl _)
    by_cases hmet : x.node ∈ a.nodes
    · obtain ⟨a', hrun, hagain⟩ := visit_again t limit x.route.length hmet
      exact ⟨a', [x], hrun, .again ha hx hmet hagain⟩
    · obtain ⟨a₁, hrun₁, hex⟩ := examined h x.node x.route.length (a.meet x.node)
      have h₁ := ha.first hmet hex
      rw [visit_first (x.lt h) hmet hrun₁]
      cases hl : (t.slot x.node).leaf with
      | true => exact ⟨a₁, [x], rfl, .leaf h₁ hl⟩
      | false =>
        have hlength : a₁.nodes.length = a.nodes.length + 1 := by
          rw [hex.nodes]
          rfl
        have hnew₁ : ∀ y ∈ x :: log, ∀ place < (t.slot x.node).children.length,
            ¬ (place :: x.route) <:+ y.route := by
          intro y hy place _ hsuffix
          rcases List.mem_cons.mp hy with rfl | hy
          · have := hsuffix.length_le
            simp only [List.length_cons] at this
            omega
          · exact hnew y hy ((List.suffix_cons place x.route).trans hsuffix)
        obtain ⟨a₂, more, hrun₂, h₂⟩ := foldlM_toured
          (fun a child => visit t limit child (x.route.length + 1) a) a₁.nodes.length
          (fun place hplace b log hb hnew hle => ih hb hnew (by omega)) le_rfl h₁ hnew₁ le_rfl
        rw [List.take_length] at hrun₂
        exact ⟨a₂, more ++ [x], hrun₂, .directory h₂⟩

end Audit

namespace Tree

variable [Scalar α] {t : Tree α}

open Audit

theorem logged_nil : Logged t (({} : Audit α).flag (t.slot t.root).parent.isSome
    (.rootHasParent t.root)) [] := by
  have h := checked_flag ({} : Audit α) (t.slot t.root).parent.isSome (.rootHasParent t.root)
  have hclean : ({} : Audit α).Clean := rfl
  constructor
  · exact List.nodup_nil
  · rw [h.nodes]
    exact List.nodup_nil
  · rw [h.points]
    exact List.nodup_nil
  · simp [h.nodes]
  · simp [h.points]
  · simp [h.leafDepth]
  · simp
  · rw [h.clean]
    constructor
    · intro hc
      exact ⟨by simpa using hc.2, by simp, by simp, List.Pairwise.nil⟩
    · intro hc
      exact ⟨hclean, by simp [hc.root_parent]⟩

/-- The audit comes to an end whatever the links are like, and has come along all routes unless it
has found something broken. -/
theorem audit_logged (h : t.Readable) : ∃ a log r, Logged t a log ∧
    (t.Coherent log → ∀ x : t.Stop, x ∈ log) ∧ t.audit = .ok r ∧
    (r.isValid = true ↔ (t.Coherent log ∧ ∀ p, t.contains p = true → p ∈ a.points) ∧
      a.points.length = t.size) := by
  obtain ⟨a, log, hrun, htour⟩ := visit_toured (x := Stop.root t) h t.walkLimit
    logged_nil (by simp) (by unfold walkLimit; omega)
  have hlogged := htour.logged
  have hall := htour.all
  rw [List.append_nil] at hlogged hall
  let missing := t.livePoints.countP fun p => !a.points.contains p
  have hmissing : (missing != 0) = false ↔ ∀ p, t.contains p = true → p ∈ a.points := by
    rw [bne_eq_false_iff_eq, List.countP_eq_zero]
    simp [mem_livePoints]
  let a₁ := a.flag (missing != 0) (.missingPoints missing)
  let a₂ := a₁.flag (a₁.points.length != t.size) (.wrongSize a₁.points.length t.size)
  have h₁ : Checked a a₁ _ := checked_flag a _ _
  have h₂ : Checked a a₂ _ := h₁.trans (checked_flag a₁ _ _)
  have haudit : t.audit = .ok a₂.report := by
    unfold audit
    rw [bind_of_ok (node_eq h.root)]
    exact bind_of_ok hrun _
  refine ⟨a, log, a₂.report, hlogged, fun hc x => hall hc x List.nil_suffix, haudit, ?_⟩
  refine List.isEmpty_iff.trans (h₂.clean.trans ?_)
  rw [hlogged.clean, hmissing, bne_eq_false_iff_eq, h₁.points, and_assoc]

end Tree

end RTree
