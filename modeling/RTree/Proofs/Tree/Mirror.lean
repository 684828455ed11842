import RTree.Proofs.Tree.Arena
import RTree.Proofs.Tree.Echo

namespace RTree

variable {α β γ δ ε : Type}

/-- The tree has done what only an X-tree does. -/
def Tree.Strayed (t : Tree α) : Prop :=
  0 < t.stats.supernodeGrowths ∨ 0 < t.stats.minOverlapSplits

namespace TreeM

open RTree.Tree

theorem run_bind_eq_ok {m : TreeM α β} {f : β → TreeM α γ} {t t' : Tree α} {c : γ} :
    (m >>= f).run t = .ok c t' ↔ ∃ b t₁, m.run t = .ok b t₁ ∧ (f b).run t₁ = .ok c t' := by
  rw [EStateM.run_bind]
  cases hm : m.run t with
  | ok b t₁ =>
    constructor
    · intro h
      exact ⟨b, t₁, rfl, h⟩
    · intro ⟨b', t', h, hf⟩
      cases h
      exact hf
  | error e t₁ => simp

theorem query_eq_ok {ask : Tree α → Except (Failure α) β} {t t' : Tree α} {b : β} :
    (query ask).run t = .ok b t' ↔ ask t = .ok b ∧ t' = t := by
  cases ha : ask t with
  | ok a =>
    rw [query_ok ha]
    simp [eq_comm]
  | error e =>
    rw [query_error ha]
    simp

def Strays (m : TreeM α β) : Prop := ∀ ⦃t t' b⦄, m.run t = .ok b t' → t'.Strayed

def Stays (m : TreeM α β) : Prop := ∀ ⦃t t' b⦄, t.Strayed → m.run t = .ok b t' → t'.Strayed

theorem Strays.stays {m : TreeM α β} (h : Strays m) : Stays m := fun _ _ _ _ hrun => h hrun

theorem Strays.bind {m : TreeM α β} {f : β → TreeM α γ} (h : ∀ b, Strays (f b)) :
    Strays (m >>= f) := by
  intro t t' c hrun
  obtain ⟨b, t₁, -, hrest⟩ := run_bind_eq_ok.mp hrun
  exact h b hrest

theorem Strays.bind_left {m : TreeM α β} {f : β → TreeM α γ} (h : Strays m)
    (hf : ∀ b, Stays (f b)) : Strays (m >>= f) := by
  intro t t' c hrun
  obtain ⟨b, t₁, hrun₁, hrest⟩ := run_bind_eq_ok.mp hrun
  exact hf b (h hrun₁) hrest

theorem strays_throw_bind (e : Failure α) (f : β → TreeM α γ) : Strays (throw e >>= f) := by
  intro t t' c hrun
  cases hrun

theorem strays_throw (e : Failure α) : Strays (throw e : TreeM α β) := by
  intro t t' c hrun
  cases hrun

variable [Scalar α] {o : Offset α}

/-- Where the first computation succeeds without straying, so does the second on an echo of the
tree. Its answer is what `r` makes of the first one's. -/
structure MirrorsBy (o : Offset α) (r : β → γ) (m : TreeM α β) (m' : TreeM α γ) : Prop where
  stays : Stays m
  agrees : ∀ ⦃t u t' b⦄, Echo o t u → m.run t = .ok b t' →
    ¬o.alike ∧ t'.Strayed ∨ ∃ u', m'.run u = .ok (r b) u' ∧ Echo o t' u'

abbrev Mirrors (o : Offset α) (m m' : TreeM α β) : Prop := MirrorsBy o id m m'

namespace Mirrors

variable {r : β → γ} {q : δ → ε}

theorem pure {b : β} {c : γ} (h : r b = c) : MirrorsBy o r (pure b) (pure c) where
  stays := by
    intro t t' b' ht hrun
    cases hrun
    exact ht
  agrees := by
    intro t u t' b' hecho hrun
    cases hrun
    exact .inr ⟨u, by rw [h]; rfl, hecho⟩

theorem throw_bind (e : Failure α) (f : β → TreeM α δ) (m' : TreeM α ε) :
    MirrorsBy o q (throw e >>= f) m' where
  stays := (strays_throw_bind e f).stays
  agrees := by
    intro t u t' b _ hrun
    cases hrun

theorem throw (e : Failure α) (m' : TreeM α γ) : MirrorsBy o r (throw e) m' where
  stays := (strays_throw e).stays
  agrees := by
    intro t u t' b _ hrun
    cases hrun

theorem bind_by {m : TreeM α β} {m' : TreeM α γ} {f : β → TreeM α δ} {f' : γ → TreeM α ε}
    (hm : MirrorsBy o r m m') (hf : ∀ b, MirrorsBy o q (f b) (f' (r b))) :
    MirrorsBy o q (m >>= f) (m' >>= f') where
  stays := by
    intro t t' c ht hrun
    obtain ⟨b, t₁, hrun₁, hrun₂⟩ := run_bind_eq_ok.mp hrun
    exact (hf b).stays (hm.stays ht hrun₁) hrun₂
  agrees := by
    intro t u t' c hecho hrun
    obtain ⟨b, t₁, hrun₁, hrun₂⟩ := run_bind_eq_ok.mp hrun
    rcases hm.agrees hecho hrun₁ with ⟨ho, hstrayed⟩ | ⟨u₁, hrun₁', hecho₁⟩
    · exact .inl ⟨ho, (hf b).stays hstrayed hrun₂⟩
    · rcases (hf b).agrees hecho₁ hrun₂ with hstrayed | ⟨u', hrun₂', hecho'⟩
      · exact .inl hstrayed
      · exact .inr ⟨u', run_bind_eq_ok.mpr ⟨r b, u₁, hrun₁', hrun₂'⟩, hecho'⟩

theorem bind {m m' : TreeM α β} {f : β → TreeM α δ} {f' : β → TreeM α ε} (hm : Mirrors o m m')
    (hf : ∀ b, MirrorsBy o q (f b) (f' b)) : MirrorsBy o q (m >>= f) (m' >>= f') :=
  bind_by hm hf

theorem ite {c : Prop} [Decidable c] {m n : TreeM α β} {m' n' : TreeM α γ}
    (hm : c → MirrorsBy o r m m') (hn : ¬c → MirrorsBy o r n n') :
    MirrorsBy o r (if c then m else n) (if c then m' else n') := by
  by_cases hc : c
  · rw [if_pos hc, if_pos hc]
    exact hm hc
  · rw [if_neg hc, if_neg hc]
    exact hn hc

theorem get_bind {f : Tree α → TreeM α β} {f' : Tree α → TreeM α γ}
    (hf : ∀ t u, Echo o t u → MirrorsBy o r (f t) (f' u)) :
    MirrorsBy o r (get >>= f) (get >>= f') where
  stays := by
    intro t t' b ht hrun
    -- This says nothing about a second tree, so any will do.
    obtain ⟨u, hecho⟩ := exists_echo o t
    exact (hf t u hecho).stays ht hrun
  agrees := by
    intro t u t' b hecho hrun
    exact (hf t u hecho).agrees hecho hrun

/-- What two queries answer may differ as long as the rest makes up for it. -/
theorem query_bind {ask : Tree α → Except (Failure α) β} {ask' : Tree α → Except (Failure α) γ}
    {f : β → TreeM α δ} {f' : γ → TreeM α ε} (hstays : ∀ b, Stays (f b))
    (hf : ∀ t u b, Echo o t u → ask t = .ok b →
      ¬o.alike ∧ Strays (f b) ∨ ∃ c, ask' u = .ok c ∧ MirrorsBy o q (f b) (f' c)) :
    MirrorsBy o q (query ask >>= f) (query ask' >>= f') where
  stays := by
    intro t t' d ht hrun
    obtain ⟨b, t₁, hask, hrest⟩ := run_bind_eq_ok.mp hrun
    obtain ⟨-, rfl⟩ := query_eq_ok.mp hask
    exact hstays b ht hrest
  agrees := by
    intro t u t' d hecho hrun
    obtain ⟨b, t₁, hquery, hrest⟩ := run_bind_eq_ok.mp hrun
    obtain ⟨hask, rfl⟩ := query_eq_ok.mp hquery
    rcases hf _ u b hecho hask with ⟨ho, hstrays⟩ | ⟨c, hask', hmirrors⟩
    · exact .inl ⟨ho, hstrays hrest⟩
    · rcases hmirrors.agrees hecho hrest with hstrayed | ⟨u', hrun', hecho'⟩
      · exact .inl hstrayed
      · exact .inr ⟨u', by rw [bind_ok (query_ok hask')]; exact hrun', hecho'⟩

theorem query {ask : Tree α → Except (Failure α) β} {ask' : Tree α → Except (Failure α) γ}
    (h : ∀ t u b, Echo o t u → ask t = .ok b → ask' u = .ok (r b)) :
    MirrorsBy o r (query ask) (TreeM.query ask') where
  stays := by
    intro t t' b ht hrun
    obtain ⟨-, rfl⟩ := query_eq_ok.mp hrun
    exact ht
  agrees := by
    intro t u t' b hecho hrun
    obtain ⟨hask, rfl⟩ := query_eq_ok.mp hrun
    exact .inr ⟨u, query_ok (h _ u b hecho hask), hecho⟩

/-- A query to which the two trees give the same answer, be it a failure. -/
theorem query_eq {ask ask' : Tree α → Except (Failure α) β}
    (h : ∀ t u, Echo o t u → ask' u = ask t) : Mirrors o (TreeM.query ask) (TreeM.query ask') :=
  query fun t u _ hecho hask => (h t u hecho).trans hask

theorem getCoords (id : PointId) :
    Mirrors o (getCoords id : TreeM α (List α)) (getCoords (o.raise id)) :=
  query fun _ _ _ hecho hask => hecho.coords hask

theorem getNode_bind {id : NodeId} {f : Node α → TreeM α β} {f' : Node α → TreeM α γ}
    (hf : ∀ n history, (o.alike → history = n.history) →
      MirrorsBy o r (f n) (f' { n with points := n.points.map o.raise, history })) :
    MirrorsBy o r (getNode id >>= f) (getNode id >>= f') := by
  apply query_bind
  · intro n
    exact (hf n n.history fun _ => rfl).stays
  · intro t u n hecho hn
    obtain ⟨n', hn', history, hhistory, rfl⟩ := hecho.node hn
    exact .inr ⟨_, hn', hf n history hhistory⟩

theorem modify {f f' : Tree α → Tree α} (hecho : ∀ t u, Echo o t u → Echo o (f t) (f' u))
    (hstays : ∀ t, t.Strayed → (f t).Strayed) :
    Mirrors o (modify f : TreeM α PUnit) (modify f') where
  stays := by
    intro t t' b ht hrun
    cases hrun
    exact hstays t ht
  agrees := by
    intro t u t' b htu hrun
    cases hrun
    exact .inr ⟨f' u, rfl, hecho t u htu⟩

theorem modifyNode (id : NodeId) {f f' : Node α → Node α}
    (hf : ∀ n history, (o.alike → history = n.history) →
      Node.Echo o (f n) (f' { n with points := n.points.map o.raise, history })) :
    Mirrors o (modifyNode id f) (modifyNode id f') := by
  apply getNode_bind
  intro n history _
  exact modify (fun t u hecho => hecho.updateNode id hf) fun _ ht => ht

theorem modifyStats {f f' : Counters α → Counters α} (d : Counters α)
    (hf : ∀ s, (f s).plain = (s.plus d).plain) (hf' : ∀ s, (f' s).plain = (s.plus d).plain) :
    Mirrors o (modifyStats f) (modifyStats f') := by
  apply modify
  · intro t u hecho
    exact hecho.updateStats d hf hf'
  · intro t ht
    have hgrowths : (f t.stats).supernodeGrowths = t.stats.supernodeGrowths + d.supernodeGrowths :=
      congrArg Counters.supernodeGrowths (hf t.stats)
    have hsplits : (f t.stats).minOverlapSplits = t.stats.minOverlapSplits + d.minOverlapSplits :=
      congrArg Counters.minOverlapSplits (hf t.stats)
    show 0 < (f t.stats).supernodeGrowths ∨ 0 < (f t.stats).minOverlapSplits
    rw [hgrowths, hsplits]
    exact ht.imp (Nat.lt_add_right _) (Nat.lt_add_right _)

end Mirrors

/-- What allocating does to the slots and the free list. -/
theorem allocate_eq_ok {leaf : Bool} {parent : Option NodeId} {capacity : Nat} {t t' : Tree α}
    {id : NodeId} : (allocate leaf parent capacity).run t = .ok id t' ↔
      (t.free = [] ∧ id = ⟨t.arena.size⟩ ∧
        t' = { t with arena := t.arena.push (Node.new leaf t.dim parent capacity) }) ∨
      ∃ rest, t.free = id :: rest ∧ (modifyNode id fun _ => Node.new leaf t.dim parent capacity).run
        { t with free := rest } = .ok () t' := by
  unfold allocate
  rw [get_bind]
  cases hfree : t.free with
  | nil =>
    dsimp only
    constructor
    · intro h
      cases h
      exact .inl ⟨rfl, rfl, rfl⟩
    · rintro (⟨-, rfl, rfl⟩ | ⟨rest, hcons, -⟩)
      · rfl
      · cases hcons
  | cons slot rest =>
    dsimp only
    rw [set_bind, run_bind_eq_ok]
    constructor
    · intro ⟨_, t₁, hrun, hpure⟩
      cases hpure
      exact .inr ⟨rest, rfl, hrun⟩
    · rintro (⟨hnil, -⟩ | ⟨rest', hcons, hrun⟩)
      · cases hnil
      · cases hcons
        exact ⟨(), t', hrun, rfl⟩

theorem mirrors_allocate (leaf : Bool) (parent : Option NodeId) (capacity : Nat) :
    Mirrors o (allocate leaf parent capacity : TreeM α NodeId)
      (allocate leaf parent capacity) where
  stays := by
    intro t t' id ht hrun
    rcases allocate_eq_ok.mp hrun with ⟨-, -, rfl⟩ | ⟨rest, -, hrun⟩
    · exact ht
    · obtain ⟨n, t₁, hnode, hrun⟩ := run_bind_eq_ok.mp hrun
      obtain ⟨-, rfl⟩ := query_eq_ok.mp hnode
      cases hrun
      exact ht
  agrees := by
    intro t u t' id hecho hrun
    rcases allocate_eq_ok.mp hrun with ⟨hnil, rfl, rfl⟩ | ⟨rest, hcons, hrun⟩
    · exact .inr ⟨_, allocate_eq_ok.mpr (.inl ⟨hecho.free ▸ hnil,
        congrArg NodeId.mk hecho.slots.symm, rfl⟩), hecho.push leaf parent capacity⟩
    · have hrest : Echo o { t with free := rest } { u with free := rest } :=
        { hecho with free := rfl }
      have hmirrors : Mirrors o (modifyNode id fun _ => Node.new leaf t.dim parent capacity)
          (modifyNode id fun _ => Node.new leaf u.dim parent capacity) := by
        rw [hecho.dim]
        exact Mirrors.modifyNode id fun _ _ _ => ⟨_, fun _ => rfl, rfl⟩
      rcases hmirrors.agrees hrest hrun with hstrayed | ⟨u', hrun', hecho'⟩
      · exact .inl hstrayed
      · exact .inr ⟨u', allocate_eq_ok.mpr (.inr ⟨rest, hecho.free ▸ hcons, hrun'⟩), hecho'⟩

theorem mirrors_retire (id : NodeId) : Mirrors o (retire id : TreeM α Unit) (retire id) := by
  refine Mirrors.bind (Mirrors.modifyNode id fun _ _ h => ⟨_, h, rfl⟩) ?_
  intro _
  apply Mirrors.modify
  · intro t u hecho
    exact { hecho with free := congrArg (id :: ·) hecho.free }
  · exact fun _ ht => ht

theorem mirrors_storePoint (p : List α) (live : Bool) :
    MirrorsBy o o.raise (storePoint p live : TreeM α PointId) (storePoint p live) where
  stays := by
    intro t t' id ht hrun
    cases hrun
    exact ht
  agrees := by
    intro t u t' id hecho hrun
    cases hrun
    have hid : o.raise ⟨t.store.size⟩ = ⟨u.store.size⟩ := by
      rw [hecho.store, Array.size_append, Nat.add_comm]
      rfl
    refine .inr ⟨{ u with
      store := u.store.push ⟨p, live⟩, size := if live then u.size + 1 else u.size }, ?_, ?_⟩
    · rw [hid]
      rfl
    · exact { hecho.storePoint ⟨p, live⟩ with size := by rw [hecho.size] }

theorem mirrors_forM {f f' : β → TreeM α Unit} (hf : ∀ x, Mirrors o (f x) (f' x)) (xs : List β) :
    Mirrors o (xs.forM f) (xs.forM f') := by
  induction xs with
  | nil => exact Mirrors.pure rfl
  | cons x xs ih => exact Mirrors.bind (hf x) fun _ => ih

theorem mirrors_foldlM {f : γ → β → TreeM α γ} {f' : γ → δ → TreeM α γ} {r : β → δ}
    (hf : ∀ c x, Mirrors o (f c x) (f' c (r x))) (xs : List β) (c : γ) :
    Mirrors o (xs.foldlM f c) ((xs.map r).foldlM f' c) := by
  induction xs generalizing c with
  | nil => exact Mirrors.pure rfl
  | cons x xs ih =>
    rw [List.map_cons, List.foldlM_cons, List.foldlM_cons]
    exact Mirrors.bind (hf c x) ih

theorem mirrors_mapM {r : γ → δ} {f : β → TreeM α γ} {f' : β → TreeM α δ}
    (hf : ∀ x, MirrorsBy o r (f x) (f' x)) (xs : List β) :
    MirrorsBy o (List.map r) (xs.mapM f) (xs.mapM f') := by
  induction xs with
  | nil => exact Mirrors.pure rfl
  | cons x xs ih =>
    rw [List.mapM_cons, List.mapM_cons]
    apply Mirrors.bind_by (hf x)
    intro y
    exact Mirrors.bind_by ih fun ys => Mirrors.pure rfl

end TreeM

end RTree
