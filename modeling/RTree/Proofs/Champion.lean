import RTree.Proofs.Sorting
import Mathlib.Data.List.Induction
import Mathlib.Order.Lattice

namespace RTree

variable {β : Type} {better : β → β → Bool} {x y start : β} {xs ys : List β}

/-- The first of the best: it is better than what comes before it, and nothing after it is better
than it. -/
def Foremost (better : β → β → Bool) (xs : List β) (x : β) : Prop :=
  ∃ before after, xs = before ++ x :: after ∧ (∀ y ∈ before, better x y = true) ∧
    ∀ y ∈ after, better y x = false

/-- A strict order, in which two values need not be comparable. -/
structure StrictOrder (better : β → β → Bool) : Prop where
  irrefl : ∀ x, better x x = false
  trans : ∀ {x y z}, better x y = true → better y z = true → better x z = true

/-- What is better than a value is better than all in the list that are not. -/
def Graded (better : β → β → Bool) (xs : List β) : Prop :=
  ∀ x ∈ xs, ∀ y ∈ xs, ∀ z ∈ xs, better x y = true → better z y = false → better x z = true

theorem Graded.mono (h : Graded better ys) (hs : ∀ x ∈ xs, x ∈ ys) : Graded better xs :=
  fun x hx y hy z hz => h x (hs x hx) y (hs y hy) z (hs z hz)

theorem graded_of_key {γ : Type} [LinearOrder γ] (key : β → γ) (xs : List β) :
    Graded (fun x y => decide (key x < key y)) xs :=
  fun _ _ _ _ _ _ hxy hzy =>
    decide_eq_true (lt_of_lt_of_le (of_decide_eq_true hxy) (not_lt.mp (of_decide_eq_false hzy)))

theorem Graded.comap {γ : Type} {f : γ → β} {zs : List γ} (h : Graded better (zs.map f)) :
    Graded (fun a b => better (f a) (f b)) zs :=
  fun a ha b hb c hc => h (f a) (List.mem_map_of_mem ha) (f b) (List.mem_map_of_mem hb) (f c)
    (List.mem_map_of_mem hc)

theorem Graded.flip (h : Graded better xs) : Graded (fun x y => better y x) xs := by
  intro x hx y hy z hz hyx hyz
  by_contra hzx
  have hlt := h y hy x hx z hz hyx (Bool.eq_false_of_not_eq_true hzx)
  exact Bool.false_ne_true (hyz.symm.trans hlt)

/-- Choosing asks the comparison about the values of the list only. -/
theorem champion_congr {better' : β → β → Bool}
    (h : ∀ x ∈ start :: xs, ∀ y ∈ start :: xs, better x y = better' x y) :
    champion better start xs = champion better' start xs := by
  induction xs generalizing start with
  | nil => rfl
  | cons x xs ih =>
    have hamong : ∀ y ∈ (if better' x start then x else start) :: xs, y ∈ start :: x :: xs := by
      split <;> simp +contextual
    rw [champion_cons, champion_cons, h x (by simp) start (by simp)]
    exact ih fun y hy z hz => h y (hamong y hy) z (hamong z hz)

theorem champion_append (better : β → β → Bool) (start : β) (xs ys : List β) :
    champion better start (xs ++ ys) = champion better (champion better start xs) ys :=
  List.foldl_append

/-- One that nobody beats stays. -/
theorem champion_eq_self (h : ∀ y ∈ xs, better y start = false) :
    champion better start xs = start := by
  induction xs with
  | nil => rfl
  | cons x xs ih =>
    obtain ⟨hx, hxs⟩ := List.forall_mem_cons.mp h
    rw [champion_cons, hx]
    exact ih hxs

namespace StrictOrder

theorem asymm (h : StrictOrder better) (hxy : better x y = true) : better y x = false := by
  rw [Bool.eq_false_iff]
  intro hyx
  have hxx := h.trans hxy hyx
  rw [h.irrefl] at hxx
  cases hxx

/-- The order by a key. -/
theorem of_key {γ : Type} [LinearOrder γ] (key : β → γ) :
    StrictOrder fun x y => decide (key x < key y) where
  irrefl _ := decide_eq_false (lt_irrefl _)
  trans hxy hyz := decide_eq_true (lt_trans (of_decide_eq_true hxy) (of_decide_eq_true hyz))

/-- Another order of what the values are seen by. -/
theorem comap {γ : Type} (h : StrictOrder better) (f : γ → β) :
    StrictOrder fun a b => better (f a) (f b) where
  irrefl a := h.irrefl (f a)
  trans := h.trans

/-- The order that prefers what the other puts last. -/
theorem flip (h : StrictOrder better) : StrictOrder fun x y => better y x where
  irrefl := h.irrefl
  trans hyx hzy := h.trans hzy hyx

theorem champion_eq_or_better (h : StrictOrder better) (start : β) (xs : List β) :
    champion better start xs = start ∨ better (champion better start xs) start = true := by
  induction xs generalizing start with
  | nil => exact .inl rfl
  | cons x xs ih =>
    rw [champion_cons]
    split
    · rename_i hx
      right
      rcases ih x with heq | hlt
      · rw [heq]
        exact hx
      · exact h.trans hlt hx
    · exact ih start

/-- Nothing in the list is better than its champion. -/
theorem not_better_champion (h : StrictOrder better) (start : β) (xs : List β) :
    ∀ y ∈ start :: xs, better y (champion better start xs) = false := by
  induction xs generalizing start with
  | nil =>
    intro y hy
    rw [List.mem_singleton.mp hy]
    exact h.irrefl start
  | cons x xs ih =>
    rw [champion_cons]
    split
    · rename_i hx
      refine List.forall_mem_cons.mpr ⟨?_, ih x⟩
      rw [Bool.eq_false_iff]
      intro hstart
      have hbeaten := ih x x List.mem_cons_self
      rw [h.trans hx hstart] at hbeaten
      cases hbeaten
    · rename_i hx
      obtain ⟨hstart, hxs⟩ := List.forall_mem_cons.mp (ih start)
      refine List.forall_mem_cons.mpr ⟨hstart, List.forall_mem_cons.mpr ⟨?_, hxs⟩⟩
      rcases h.champion_eq_or_better start xs with heq | hlt
      · rw [heq]
        simpa using hx
      · rw [Bool.eq_false_iff]
        intro hbeats
        exact hx (h.trans hbeats hlt)

theorem not_better_champion? (h : StrictOrder better) (hx : champion? better xs = some x) :
    ∀ y ∈ xs, better y x = false := by
  cases xs with
  | nil => cases hx
  | cons z zs =>
    obtain rfl : champion better z zs = x := Option.some.inj hx
    exact h.not_better_champion z zs

end StrictOrder

namespace Foremost

theorem mem (h : Foremost better xs x) : x ∈ xs := by
  obtain ⟨before, after, rfl, -, -⟩ := h
  simp

theorem not_better (h : Foremost better xs x) (hs : StrictOrder better) :
    ∀ y ∈ xs, better y x = false := by
  obtain ⟨before, after, rfl, hbefore, hafter⟩ := h
  intro y hy
  rcases List.mem_append.mp hy with hy | hy
  · exact hs.asymm (hbefore y hy)
  · rcases List.mem_cons.mp hy with rfl | hy
    · exact hs.irrefl y
    · exact hafter y hy

/-- A list has one foremost value, by whatever comparison. -/
theorem unique (hx : Foremost better xs x) (hy : Foremost better xs y) : x = y := by
  have hapart : ∀ {before after before' after' : List β} {x y : β},
      before ++ x :: after = before' ++ y :: after' → before.length < before'.length →
        x ∈ before' ∧ y ∈ after := by
    intro before after before' after' x y heq hlt
    rw [List.append_eq_append_iff] at heq
    rcases heq with ⟨between, rfl, hmid⟩ | ⟨between, rfl, -⟩
    · cases between with
      | nil => simp at hlt
      | cons z between =>
        rw [List.cons_append, List.cons.injEq] at hmid
        simp [hmid.1, hmid.2]
    · rw [List.length_append] at hlt
      omega
  obtain ⟨before, after, rfl, hbefore, hafter⟩ := hx
  obtain ⟨before', after', heq, hbefore', hafter'⟩ := hy
  rcases Nat.lt_trichotomy before.length before'.length with hlt | hlen | hlt
  · obtain ⟨hx, hy⟩ := hapart heq hlt
    exact absurd (hafter y hy) (by simp [hbefore' x hx])
  · exact (List.cons.inj (List.append_inj_right heq hlen)).1
  · obtain ⟨hy, hx⟩ := hapart heq.symm hlt
    exact absurd (hafter' x hx) (by simp [hbefore y hy])

/-- The place of the first of the best among the values that a test lets through. -/
theorem exists_place_filter {p : β → Bool} (h : Foremost better (xs.filter p) x)
    (hs : StrictOrder better) :
    ∃ n, xs[n]? = some x ∧ p x = true ∧ ∀ (m : Nat) y, xs[m]? = some y →
      p y = true → better y x = false ∧ (m < n → better x y = true) := by
  have hbest := h.not_better hs
  obtain ⟨before, after, heq, hbefore, -⟩ := h
  obtain ⟨before', rest, rfl, hfilter, hrest⟩ := List.filter_eq_append_iff.mp heq
  obtain ⟨skipped, after', rfl, hskipped, hpx, -⟩ := List.filter_eq_cons_iff.mp hrest
  refine ⟨(before' ++ skipped).length, by simp [← List.append_assoc], hpx, fun m y hm hpy => ?_⟩
  have hy := List.mem_filter.mpr ⟨List.mem_of_getElem? hm, hpy⟩
  refine ⟨hbest y hy, fun hlt => ?_⟩
  rw [← List.append_assoc, List.getElem?_append_left hlt] at hm
  rcases List.mem_append.mp (List.mem_of_getElem? hm) with hy | hy
  · apply hbefore
    rw [← hfilter]
    exact List.mem_filter.mpr ⟨hy, hpy⟩
  · exact absurd hpy (hskipped y hy)

theorem exists_place (h : Foremost better xs x) (hs : StrictOrder better) :
    ∃ n, xs[n]? = some x ∧ ∀ (m : Nat) y, xs[m]? = some y →
      better y x = false ∧ (m < n → better x y = true) := by
  have hall : xs.filter (fun _ => true) = xs := List.filter_eq_self.mpr fun _ _ => rfl
  rw [← hall] at h
  simpa using h.exists_place_filter hs

/-- Of two lists, one after the other, the second wins by being better only. -/
theorem append (hx : Foremost better xs x) (hy : Foremost better ys y) (hs : StrictOrder better)
    (hg : Graded better (xs ++ ys)) :
    Foremost better (xs ++ ys) (if better y x then y else x) := by
  have hxs : x ∈ xs ++ ys := List.mem_append_left _ hx.mem
  have hys : y ∈ xs ++ ys := List.mem_append_right _ hy.mem
  have hbest := hx.not_better hs
  have hbest' := hy.not_better hs
  split
  · rename_i hyx
    obtain ⟨before, after, hsplit, hbefore, hafter⟩ := hy
    refine ⟨xs ++ before, after, by rw [hsplit, List.append_assoc], ?_, hafter⟩
    intro z hz
    rcases List.mem_append.mp hz with hz | hz
    · exact hg y hys x hxs z (List.mem_append_left _ hz) hyx (hbest z hz)
    · exact hbefore z hz
  · rename_i hyx
    rw [Bool.not_eq_true] at hyx
    obtain ⟨before, after, hsplit, hbefore, hafter⟩ := hx
    refine ⟨before, after ++ ys, by rw [hsplit, List.append_assoc, List.cons_append], hbefore, ?_⟩
    intro z hz
    rcases List.mem_append.mp hz with hz | hz
    · exact hafter z hz
    · rw [Bool.eq_false_iff]
      intro hzx
      have hzy := hg z (List.mem_append_right _ hz) x hxs y hys hzx hyx
      rw [hbest' z hz] at hzy
      cases hzy

end Foremost

theorem foremost_singleton (x : β) : Foremost better [x] x :=
  ⟨[], [], rfl, by simp, by simp⟩

/-- The champion of comparable values is the first of the best. -/
theorem StrictOrder.foremost_champion (hs : StrictOrder better)
    (hg : Graded better (start :: xs)) :
    Foremost better (start :: xs) (champion better start xs) := by
  induction xs using List.reverseRecOn with
  | nil => exact foremost_singleton start
  | append_singleton xs x ih =>
    have hlead := ih (hg.mono (by simp +contextual))
    rw [champion_append]
    exact hlead.append (foremost_singleton x) hs hg

theorem StrictOrder.champion?_eq_some_iff (hs : StrictOrder better) (hg : Graded better xs) :
    champion? better xs = some x ↔ Foremost better xs x := by
  cases xs with
  | nil => exact ⟨nofun, fun h => absurd h.mem List.not_mem_nil⟩
  | cons y ys =>
    have hchosen := hs.foremost_champion hg
    constructor
    · intro h
      obtain rfl : champion better y ys = x := Option.some.inj h
      exact hchosen
    · intro h
      exact congrArg some (hchosen.unique h)

/-- The champion of two lists is that of their champions. -/
theorem StrictOrder.champion?_append (hs : StrictOrder better) (hg : Graded better (xs ++ ys)) :
    champion? better (xs ++ ys) =
      (champion? better xs).merge (fun x y => if better y x then y else x)
        (champion? better ys) := by
  have hgx : Graded better xs := hg.mono (by simp +contextual)
  have hgy : Graded better ys := hg.mono (by simp +contextual)
  cases hx : champion? better xs with
  | none =>
    cases xs with
    | nil => simp
    | cons => cases hx
  | some x =>
    cases hy : champion? better ys with
    | none =>
      cases ys with
      | nil => rw [List.append_nil, hx]; rfl
      | cons => cases hy
    | some y =>
      rw [hs.champion?_eq_some_iff hgx] at hx
      rw [hs.champion?_eq_some_iff hgy] at hy
      exact (hs.champion?_eq_some_iff hg).mpr (hx.append hy hs hg)

end RTree
