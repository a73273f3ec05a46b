import Ctadl.Flowgraph.ImmediateDominators
import Ctadl.Graph.Dfs

/-! # Every entry of the dominator tree is a dominator

While the node numbered `k` is processed, the nodes numbered from `k + 1` on are linked into the
forest. `Forest` says what path compression keeps: the recorded ancestor of a node is an ancestor in
the tree, and its best node has the least semidominator on the way there. A candidate found through
the forest is therefore the least of all linked ancestors (`findCandidateAncestor_spec`), however much
of the way has been compressed.

The semidominator computed for a node is an ancestor from which a semipath may start and below which
none does, and by `DfsTree.dominates_of_semi` both the dominators decided at once and those taken
from another node are dominators. Deferred entries that were themselves deferred keep the initial
value, the start, which dominates everything: the loop that fills them in reads them before they are
filled. Hence a table of dominators, not always of the immediate ones.
-/

namespace Ctadl.Graph

open Function Flowgraph

namespace DomImpl

variable {graph : ControlFlowGraph} {impl : DomImpl} {k v : ℕ}

/-- The forest of the nodes numbered from `k` on, under path compression. -/
structure Forest (graph : ControlFlowGraph) (k : ℕ) (impl : DomImpl) : Prop where
  linked : ∀ v < graph.numNodes, (∃ a, impl.ancestor v = some a) ↔ k ≤ impl.dfnum v
  anc : ∀ v < graph.numNodes, ∀ a, impl.ancestor v = some a → Anc impl.parent a v ∧ a ≠ v
  between : ∀ v < graph.numNodes, ∀ a, impl.ancestor v = some a → ∀ u, Between impl.parent a v u →
    k ≤ impl.dfnum u
  best_anc : ∀ v < graph.numNodes, Anc impl.parent (impl.best v) v
  best_linked : ∀ v < graph.numNodes, k ≤ impl.dfnum v → k ≤ impl.dfnum (impl.best v)
  best_least : ∀ v < graph.numNodes, ∀ a, impl.ancestor v = some a → ∀ u, Between impl.parent a v u →
    impl.dfnum (impl.semi (impl.best v)) ≤ impl.dfnum (impl.semi u)

/-- `y` is the linked ancestor of `v` with the least semidominator. -/
structure Least (k : ℕ) (dfnum : ℕ → ℕ) (parent : ℕ → Option ℕ) (semi : ℕ → ℕ) (v y : ℕ) : Prop where
  anc : Anc parent y v
  linked : k ≤ dfnum y
  least : ∀ u, Anc parent u v → k ≤ dfnum u → dfnum (semi y) ≤ dfnum (semi u)

/-- Skipping the recorded ancestor `a` of `v` for one further up, with the better of two best nodes. -/
private theorem Forest.compress (numbered : Numbered graph impl.dfnum impl.vertex impl.parent) (forest : Forest graph k impl)
    (node : v < graph.numNodes) (linked : k ≤ impl.dfnum v) {a up b w : ℕ} (here : impl.ancestor v = some a)
    (higher : Anc impl.parent up a) (between : ∀ u, Between impl.parent up a u → k ≤ impl.dfnum u)
    (least : Least k impl.dfnum impl.parent impl.semi a b) (choice : w = impl.best v ∨ w = b)
    (better : impl.dfnum (impl.semi w) ≤ impl.dfnum (impl.semi (impl.best v)) ∧
      impl.dfnum (impl.semi w) ≤ impl.dfnum (impl.semi b)) :
    Forest graph k { impl with ancestor := update impl.ancestor v (some up), best := update impl.best v w } ∧
      Least k impl.dfnum impl.parent impl.semi v w := by
  obtain ⟨aAnc, aOther⟩ := forest.anc v node a here
  have wAnc : Anc impl.parent w v := by
    rcases choice with rfl | rfl
    exacts [forest.best_anc v node, least.anc.trans aAnc]
  have wLinked : k ≤ impl.dfnum w := by
    rcases choice with rfl | rfl
    exacts [forest.best_linked v node linked, least.linked]
  have wLeast : ∀ u, Anc impl.parent u v → k ≤ impl.dfnum u →
      impl.dfnum (impl.semi w) ≤ impl.dfnum (impl.semi u) := by
    intro u upper uLinked
    rcases numbered.tree.anc_total upper aAnc node with above | below
    · exact better.2.trans (least.least u above uLinked)
    · by_cases same : u = a
      · exact better.2.trans (least.least u (same ▸ .refl _) uLinked)
      · exact better.1.trans (forest.best_least v node a here u ⟨below, same, upper⟩)
  have onTheWay : ∀ u, Between impl.parent up v u → k ≤ impl.dfnum u := by
    rintro u ⟨below, other, upper⟩
    rcases numbered.tree.anc_total upper aAnc node with above | beyond
    · exact between u ⟨below, other, above⟩
    · by_cases same : u = a
      · exact between u ⟨below, other, same ▸ .refl _⟩
      · exact forest.between v node a here u ⟨beyond, same, upper⟩
  refine ⟨?_, wAnc, wLinked, wLeast⟩
  constructor
  case linked =>
    intro z zNode
    by_cases same : z = v
    · subst same
      simp [linked]
    · simpa [update_of_ne same] using forest.linked z zNode
  case anc =>
    intro z zNode c some
    by_cases same : z = v
    · subst same
      obtain rfl : up = c := by simpa using some
      refine ⟨higher.trans aAnc, ?_⟩
      rintro rfl
      exact aOther (numbered.tree.anc_antisymm aAnc higher)
    · exact forest.anc z zNode c (by simpa [update_of_ne same] using some)
  case between =>
    intro z zNode c some u between
    by_cases same : z = v
    · subst same
      obtain rfl : up = c := by simpa using some
      exact onTheWay u between
    · exact forest.between z zNode c (by simpa [update_of_ne same] using some) u between
  case best_anc =>
    intro z zNode
    by_cases same : z = v
    · subst same
      simpa using wAnc
    · simpa [update_of_ne same] using forest.best_anc z zNode
  case best_linked =>
    intro z zNode zLinked
    by_cases same : z = v
    · subst same
      simpa using wLinked
    · simpa [update_of_ne same] using forest.best_linked z zNode zLinked
  case best_least =>
    intro z zNode c some u between
    by_cases same : z = v
    · subst same
      obtain rfl : up = c := by simpa using some
      simpa using wLeast u between.2.2 (onTheWay u between)
    · simpa [update_of_ne same] using
        forest.best_least z zNode c (by simpa [update_of_ne same] using some) u between

/-- A linked node has a best candidate, and finding it only compresses the way above the node. -/
theorem findCandidateAncestor_spec (numbered : Numbered graph impl.dfnum impl.vertex impl.parent) (forest : Forest graph k impl)
    (node : v < graph.numNodes) (linked : k ≤ impl.dfnum v) {fuel : ℕ} (enough : impl.dfnum v < fuel) :
    ∃ y ancestor best, findCandidateAncestor fuel impl v = some (y, { impl with ancestor, best }) ∧
      Forest graph k { impl with ancestor, best } ∧ Least k impl.dfnum impl.parent impl.semi v y ∧
      ∀ w, ¬ Anc impl.parent w v → ancestor w = impl.ancestor w ∧ best w = impl.best w := by
  induction fuel generalizing v with
  | zero => exact absurd enough (Nat.not_lt_zero _)
  | succ fuel ih =>
    obtain ⟨a, up⟩ := (forest.linked v node).mpr linked
    obtain ⟨aAnc, aOther⟩ := forest.anc v node a up
    have aNode := numbered.tree.anc_node aAnc node
    have aLt := numbered.tree.num_lt aAnc aOther
    cases further : impl.ancestor a with
    | none =>
      have unlinked : ¬ k ≤ impl.dfnum a := fun le => by
        obtain ⟨b, some⟩ := (forest.linked a aNode).mpr le
        simp [further] at some
      refine ⟨impl.best v, impl.ancestor, impl.best, ?_, forest, ?_, fun w _ => ⟨rfl, rfl⟩⟩
      · simp [findCandidateAncestor, up, further]
      · refine ⟨forest.best_anc v node, forest.best_linked v node linked, fun u upper uLinked => ?_⟩
        rcases numbered.tree.anc_total upper aAnc node with higher | lower
        · exact absurd (uLinked.trans (numbered.tree.num_le higher)) unlinked
        · exact forest.best_least v node a up u ⟨lower, fun same => unlinked (same ▸ uLinked), upper⟩
    | some ancestorA =>
      have aLinked : k ≤ impl.dfnum a := (forest.linked a aNode).mp ⟨_, further⟩
      obtain ⟨b, ancestor, best, found, forestA, least, frame⟩ := ih aNode aLinked (by omega)
      have notUp : ¬ Anc impl.parent v a := fun above => aOther (numbered.tree.anc_antisymm aAnc above)
      obtain ⟨ancestorSame, -⟩ := frame v notUp
      obtain ⟨higher, -⟩ := forest.anc a aNode ancestorA further
      have outside : ∀ w, ¬ Anc impl.parent w v → ∀ c x,
          update ancestor v c w = impl.ancestor w ∧ update best v x w = impl.best w := by
        intro w off c x
        have other : w ≠ v := by
          rintro rfl
          exact off (.refl _)
        rw [update_of_ne other, update_of_ne other]
        exact frame w fun above => off (above.trans aAnc)
      -- whichever of the two best nodes is kept, it is the better one
      obtain ⟨x, choice, better, kept⟩ : ∃ x, (x = best v ∨ x = b) ∧
          (impl.dfnum (impl.semi x) ≤ impl.dfnum (impl.semi (best v)) ∧
            impl.dfnum (impl.semi x) ≤ impl.dfnum (impl.semi b)) ∧
          findCandidateAncestor (fuel + 1) impl v =
            some (x, { impl with ancestor := update ancestor v (some ancestorA), best := update best v x }) := by
        by_cases lower : impl.dfnum (impl.semi b) < impl.dfnum (impl.semi (best v))
        · exact ⟨b, .inr rfl, ⟨lower.le, le_rfl⟩, by simp [findCandidateAncestor, up, further, found, lower]⟩
        · exact ⟨best v, .inl rfl, ⟨le_rfl, not_lt.mp lower⟩,
            by simp [findCandidateAncestor, up, further, found, lower]⟩
      obtain ⟨forestV, leastV⟩ := @Forest.compress graph { impl with ancestor, best } k v numbered forestA
        node linked a ancestorA b x (ancestorSame.trans up) higher (forest.between a aNode ancestorA further)
        least choice better
      exact ⟨x, _, _, kept, forestV, leastV, fun w off => outside w off _ _⟩

/-- `s` is a proper ancestor of `v` below which no semipath to `v` starts. -/
structure IsSemi (graph : ControlFlowGraph) (dfnum : ℕ → ℕ) (parent : ℕ → Option ℕ) (v s : ℕ) : Prop where
  anc : Anc parent s v
  other : s ≠ v
  least : ∀ x, SemiPath graph.Edge dfnum x v → dfnum s ≤ dfnum x

/-- `s` is as low as what the predecessor `v` of the node numbered `k` offers. -/
private def Lowered (k : ℕ) (dfnum : ℕ → ℕ) (parent : ℕ → Option ℕ) (semi : ℕ → ℕ) (v s : ℕ) : Prop :=
  (dfnum v ≤ k → dfnum s ≤ dfnum v) ∧
    (k < dfnum v → ∀ u, Anc parent u v → k < dfnum u → dfnum s ≤ dfnum (semi u))

/-- `s` is what the predecessor `v` of the node numbered `k` offers, itself or through the forest. -/
private def Offered (k : ℕ) (dfnum : ℕ → ℕ) (parent : ℕ → Option ℕ) (semi : ℕ → ℕ) (v s : ℕ) : Prop :=
  s = v ∨ ∃ u, Anc parent u v ∧ k < dfnum u ∧ s = semi u

section LowerSemi

variable {n s : ℕ} (numbered : Numbered graph impl.dfnum impl.vertex impl.parent) (node : n < graph.numNodes)
  (semis : ∀ v < graph.numNodes, impl.dfnum n + 1 ≤ impl.dfnum v →
    IsSemi graph impl.dfnum impl.parent v (impl.semi v))
include numbered node semis

private theorem lowerSemi_spec (forest : Forest graph (impl.dfnum n + 1) impl) (out : graph.Edge v n)
    (upper : Anc impl.parent s n) (other : s ≠ n) :
    ∃ ancestor best s', lowerSemi graph.numNodes n (impl, s) v = some ({ impl with ancestor, best }, s') ∧
      Forest graph (impl.dfnum n + 1) { impl with ancestor, best } ∧ Anc impl.parent s' n ∧ s' ≠ n ∧
      impl.dfnum s' ≤ impl.dfnum s ∧ Lowered (impl.dfnum n) impl.dfnum impl.parent impl.semi v s' ∧
      (s' = s ∨ Offered (impl.dfnum n) impl.dfnum impl.parent impl.semi v s') := by
  have lower := numbered.tree.num_lt upper other
  have vNode := (numbered.tree.edge_node out).1
  by_cases first : impl.dfnum v ≤ impl.dfnum n
  · by_cases lowers : impl.dfnum v < impl.dfnum s
    · refine ⟨impl.ancestor, impl.best, v, ?_, forest, numbered.tree.forward out (by omega), ?_, lowers.le,
        ⟨fun _ => le_rfl, fun later => absurd first (by omega)⟩, .inr (.inl rfl)⟩
      · simp [lowerSemi, first, lowers]
      · rintro rfl
        omega
    · exact ⟨impl.ancestor, impl.best, s, by simp [lowerSemi, first, lowers], forest, upper, other, le_rfl,
        ⟨fun _ => not_lt.mp lowers, fun later => absurd first (by omega)⟩, .inl rfl⟩
  · obtain ⟨u, ancestor, best, found, forestV, least, -⟩ := findCandidateAncestor_spec numbered forest vNode
      (by omega) (numbered.num_lt v vNode)
    have offers : ∀ {t}, impl.dfnum t ≤ impl.dfnum (impl.semi u) →
        Lowered (impl.dfnum n) impl.dfnum impl.parent impl.semi v t := fun le =>
      ⟨fun earlier => absurd earlier first, fun _ w wAnc wLinked => le.trans (least.least w wAnc wLinked)⟩
    by_cases lowers : impl.dfnum (impl.semi u) < impl.dfnum s
    · -- the semidominator of a node below `n` that is numbered before `n` is above `n`
      have uNode := numbered.tree.anc_node least.anc vNode
      have toV := (semis u uNode least.linked).anc.trans least.anc
      have above : Anc impl.parent (impl.semi u) n :=
        numbered.tree.interval toV vNode node (by omega) (by omega)
      refine ⟨ancestor, best, impl.semi u, ?_, forestV, above, ?_, lowers.le, offers le_rfl,
        .inr (.inr ⟨u, least.anc, least.linked, rfl⟩)⟩
      · simp [lowerSemi, first, found, lowers]
      · intro same
        rw [same] at lowers
        omega
    · exact ⟨ancestor, best, s, by simp [lowerSemi, first, found, lowers], forestV, upper, other, le_rfl,
        offers (not_lt.mp lowers), .inl rfl⟩

private theorem lowerSemi_fold (forest : Forest graph (impl.dfnum n + 1) impl) (upper : Anc impl.parent s n)
    (other : s ≠ n) (preds : List ℕ) (edges : ∀ v ∈ preds, graph.Edge v n) :
    ∃ ancestor best s', preds.foldlM (lowerSemi graph.numNodes n) (impl, s) =
        some ({ impl with ancestor, best }, s') ∧
      Forest graph (impl.dfnum n + 1) { impl with ancestor, best } ∧ Anc impl.parent s' n ∧ s' ≠ n ∧
      impl.dfnum s' ≤ impl.dfnum s ∧
      (∀ v ∈ preds, Lowered (impl.dfnum n) impl.dfnum impl.parent impl.semi v s') ∧
      (s' = s ∨ ∃ v ∈ preds, Offered (impl.dfnum n) impl.dfnum impl.parent impl.semi v s') := by
  induction preds generalizing impl s with
  | nil => exact ⟨impl.ancestor, impl.best, s, rfl, forest, upper, other, le_rfl, by simp, .inl rfl⟩
  | cons v preds ih =>
    obtain ⟨a1, b1, s1, ran, forest1, upper1, other1, le1, lowered1, source1⟩ :=
      lowerSemi_spec numbered node semis forest (edges v (.head _)) upper other
    obtain ⟨a2, b2, s2, rest, forest2, upper2, other2, le2, lowered2, source2⟩ :=
      @ih { impl with ancestor := a1, best := b1 } s1 numbered semis forest1 upper1 other1
        fun w kept => edges w (.tail _ kept)
    refine ⟨a2, b2, s2, ?_, forest2, upper2, other2, le2.trans le1, ?_, ?_⟩
    · rw [List.foldlM_cons, ran]
      exact rest
    · intro w mem
      rcases List.mem_cons.mp mem with rfl | kept
      · exact ⟨fun earlier => le2.trans (lowered1.1 earlier),
          fun later u uAnc uLinked => le2.trans (lowered1.2 later u uAnc uLinked)⟩
      · exact lowered2 w kept
    · rcases source2 with rfl | ⟨w, kept, offered⟩
      · exact source1.imp_right fun offered => ⟨v, .head _, offered⟩
      · exact .inr ⟨w, .tail _ kept, offered⟩

omit node in
/-- The lowest offer of all predecessors is the semidominator. -/
private theorem isSemi_of_lowered (upper : Anc impl.parent s n) (other : s ≠ n)
    (lowered : ∀ v, graph.Edge v n → Lowered (impl.dfnum n) impl.dfnum impl.parent impl.semi v s) :
    IsSemi graph impl.dfnum impl.parent n s := by
  refine ⟨upper, other, fun x path => ?_⟩
  rcases path with out | ⟨u, climb, out⟩
  · rcases le_or_gt (impl.dfnum x) (impl.dfnum n) with earlier | later
    · exact (lowered x out).1 earlier
    · have xNode := (numbered.tree.edge_node out).1
      have semi := semis x xNode later
      have bound := (lowered x out).2 later x (.refl x) later
      exact bound.trans (numbered.tree.num_lt semi.anc semi.other).le
  · obtain ⟨m, le, mAnc, path, -⟩ := numbered.tree.exists_semiPath climb
    have uNode := (numbered.tree.edge_node out).1
    have mNode := numbered.tree.anc_node mAnc uNode
    have bound := (lowered u out).2 climb.target_le m mAnc le
    exact bound.trans ((semis m mNode le).least x path)

end LowerSemi

/-- Linking the node numbered `k` below its parent, with its semidominator recorded. -/
private theorem Forest.link {n p s : ℕ} {bucket : ℕ → List ℕ}
    (numbered : Numbered graph impl.dfnum impl.vertex impl.parent)
    (forest : Forest graph (impl.dfnum n + 1) impl) (node : n < graph.numNodes)
    (child : impl.parent n = some p) :
    Forest graph (impl.dfnum n)
      { impl with
        semi := update impl.semi n s
        bucket
        ancestor := update impl.ancestor n (some p)
        best := update impl.best n n } := by
  have ne : ∀ {u}, impl.dfnum n + 1 ≤ impl.dfnum u → u ≠ n := by
    rintro u le rfl
    omega
  have old : ∀ {u}, u < graph.numNodes → u ≠ n → impl.dfnum n ≤ impl.dfnum u → impl.dfnum n + 1 ≤ impl.dfnum u := by
    intro u uNode other le
    have different : impl.dfnum u ≠ impl.dfnum n := fun same => other (numbered.tree.num_inj uNode node same)
    omega
  constructor
  case linked =>
    intro v vNode
    by_cases same : v = n
    · subst same
      simp
    · simp only [update_of_ne same]
      exact (forest.linked v vNode).trans ⟨fun le => by omega, old vNode same⟩
  case anc =>
    intro v vNode a some
    by_cases same : v = n
    · subst same
      obtain rfl : p = a := by simpa using some
      refine ⟨.of_parent child, ?_⟩
      rintro rfl
      exact absurd (numbered.tree.parent_lt child) (lt_irrefl _)
    · exact forest.anc v vNode a (by simpa [update_of_ne same] using some)
  case between =>
    intro v vNode a some u between
    by_cases same : v = n
    · subst same
      obtain rfl : p = a := by simpa using some
      exact (numbered.tree.between_child child between).symm ▸ le_rfl
    · have later := forest.between v vNode a (by simpa [update_of_ne same] using some) u between
      exact (Nat.le_succ _).trans later
  case best_anc =>
    intro v vNode
    by_cases same : v = n
    · subst same
      simpa using Anc.refl v
    · simpa [update_of_ne same] using forest.best_anc v vNode
  case best_linked =>
    intro v vNode linked
    by_cases same : v = n
    · subst same
      simp
    · have later := forest.best_linked v vNode (old vNode same linked)
      simpa [update_of_ne same] using (Nat.le_succ _).trans later
  case best_least =>
    intro v vNode a some u between
    by_cases same : v = n
    · subst same
      obtain rfl : p = a := by simpa using some
      simp [numbered.tree.between_child child between]
    · have up : impl.ancestor v = Option.some a := by simpa [update_of_ne same] using some
      have uOther := ne (forest.between v vNode a up u between)
      have bestOther := ne (forest.best_linked v vNode ((forest.linked v vNode).mp ⟨a, up⟩))
      simpa [update_of_ne same, update_of_ne uOther, update_of_ne bestOther] using
        forest.best_least v vNode a up u between

/-- The dominator of `v` is its semidominator, or deferred to a node on the way down to `v` with the
least semidominator there, another one than that of `v`. -/
private def Decided (k : ℕ) (dfnum : ℕ → ℕ) (parent : ℕ → Option ℕ) (semi : ℕ → ℕ) (samedom : Option ℕ)
    (dom v : ℕ) : Prop :=
  (samedom = none ∧ dom = semi v ∧
    ∀ u, Between parent (semi v) v u → k ≤ dfnum u ∧ dfnum (semi v) ≤ dfnum (semi u)) ∨
  ∃ y, samedom = some y ∧ dom = 0 ∧ Between parent (semi v) v y ∧ semi y ≠ semi v ∧
    ∀ u, Between parent (semi v) v u → k ≤ dfnum u ∧ dfnum (semi y) ≤ dfnum (semi u)

/-- A node of the bucket of `p` whose way up to `p` is linked. -/
private structure Ready (graph : ControlFlowGraph) (k p : ℕ) (impl : DomImpl) (v : ℕ) : Prop where
  node : v < graph.numNodes
  linked : k ≤ impl.dfnum v
  semi : impl.semi v = p
  below : Between impl.parent p v v
  way : ∀ u, Between impl.parent p v u → k ≤ impl.dfnum u
  samedom : impl.samedom v = none
  dom : impl.dom v = 0

private theorem emptyBucket_spec {p : ℕ} (numbered : Numbered graph impl.dfnum impl.vertex impl.parent)
    (forest : Forest graph k impl) (early : impl.dfnum p < k) (ready : Ready graph k p impl v) :
    ∃ ancestor best samedomV domV, emptyBucket graph.numNodes p impl v =
        some { impl with
          ancestor
          best
          samedom := update impl.samedom v samedomV
          dom := update impl.dom v domV } ∧
      (∀ samedom dom, Forest graph k { impl with ancestor, best, samedom, dom }) ∧
      Decided k impl.dfnum impl.parent impl.semi samedomV domV v := by
  obtain ⟨y, ancestor, best, found, forestV, least, -⟩ :=
    findCandidateAncestor_spec numbered forest ready.node ready.linked (numbered.num_lt v ready.node)
  have kept : ∀ samedom dom, Forest graph k { impl with ancestor, best, samedom, dom } :=
    fun _ _ => ⟨forestV.linked, forestV.anc, forestV.between, forestV.best_anc, forestV.best_linked,
      forestV.best_least⟩
  have onWay : Between impl.parent p v y := by
    refine ⟨?_, ?_, least.anc⟩
    · rcases numbered.tree.anc_total least.anc ready.below.1 ready.node with above | below
      · have earlier := numbered.tree.num_le above
        have linked := least.linked
        omega
      · exact below
    · rintro rfl
      exact absurd least.linked (by omega)
  have lowest : ∀ u, Between impl.parent p v u →
      k ≤ impl.dfnum u ∧ impl.dfnum (impl.semi y) ≤ impl.dfnum (impl.semi u) :=
    fun u between => ⟨ready.way u between, least.least u between.2.2 (ready.way u between)⟩
  by_cases same : impl.semi y = impl.semi v
  · refine ⟨ancestor, best, none, p, ?_, kept, .inl ⟨rfl, ready.semi.symm, ?_⟩⟩
    · simp only [emptyBucket, found, Option.bind_eq_bind, Option.bind_some, same, if_true, ← ready.samedom,
        update_eq_self]
    · rw [ready.semi]
      rwa [same, ready.semi] at lowest
  · refine ⟨ancestor, best, some y, 0, ?_, kept, .inr ⟨y, rfl, rfl, ?_, ?_, ?_⟩⟩
    · simp only [emptyBucket, found, Option.bind_eq_bind, Option.bind_some, same, if_false, ← ready.dom,
        update_eq_self]
    · rwa [ready.semi]
    · exact same
    · rwa [ready.semi]

/-- Emptying a bucket decides every node in it. -/
private theorem emptyBucket_fold {p : ℕ} (numbered : Numbered graph impl.dfnum impl.vertex impl.parent)
    (forest : Forest graph k impl) (early : impl.dfnum p < k) (nodes : List ℕ) (nodup : nodes.Nodup)
    (ready : ∀ v ∈ nodes, Ready graph k p impl v) :
    ∃ ancestor best samedom dom, nodes.foldlM (emptyBucket graph.numNodes p) impl =
        some { impl with ancestor, best, samedom, dom } ∧
      Forest graph k { impl with ancestor, best, samedom, dom } ∧
      (∀ v ∈ nodes, Decided k impl.dfnum impl.parent impl.semi (samedom v) (dom v) v) ∧
      ∀ v ∉ nodes, samedom v = impl.samedom v ∧ dom v = impl.dom v := by
  induction nodes generalizing impl with
  | nil => exact ⟨_, _, _, _, rfl, forest, by simp, fun _ _ => ⟨rfl, rfl⟩⟩
  | cons v nodes ih =>
    obtain ⟨fresh, nodup⟩ := List.nodup_cons.mp nodup
    obtain ⟨a1, b1, samedomV, domV, ran, forest1, decided⟩ :=
      emptyBucket_spec numbered forest early (ready v (.head _))
    obtain ⟨a2, b2, samedom, dom, rest, forest2, all, frame⟩ :=
      @ih { impl with
          ancestor := a1
          best := b1
          samedom := update impl.samedom v samedomV
          dom := update impl.dom v domV } numbered (forest1 _ _) early nodup (by
        intro w mem
        have other : w ≠ v := by
          rintro rfl
          exact fresh mem
        have before := ready w (.tail _ mem)
        exact ⟨before.node, before.linked, before.semi, before.below, before.way,
          (update_of_ne other _ _).trans before.samedom, (update_of_ne other _ _).trans before.dom⟩)
    refine ⟨a2, b2, samedom, dom, ?_, forest2, ?_, ?_⟩
    · rw [List.foldlM_cons, ran]
      exact rest
    · intro w mem
      rcases List.mem_cons.mp mem with rfl | kept
      · obtain ⟨samedomSame, domSame⟩ := frame w fresh
        rw [samedomSame, domSame]
        simpa using decided
      · exact all w kept
    · intro w out
      obtain ⟨other, off⟩ := not_or.mp (fun mem => out (List.mem_cons.mpr mem))
      obtain ⟨samedomSame, domSame⟩ := frame w off
      exact ⟨samedomSame.trans (update_of_ne other _ _), domSame.trans (update_of_ne other _ _)⟩

/-- What holds once the nodes numbered from `k` on are processed. -/
structure SemiInv (graph : ControlFlowGraph) (k : ℕ) (impl : DomImpl) : Prop where
  numbered : Numbered graph impl.dfnum impl.vertex impl.parent
  forest : Forest graph k impl
  semis : ∀ v < graph.numNodes, k ≤ impl.dfnum v → IsSemi graph impl.dfnum impl.parent v (impl.semi v)
  nodup : ∀ q, (impl.bucket q).Nodup
  /-- A node waits in the bucket of its semidominator for the child of it on the way down. -/
  bucket : ∀ q, ∀ v ∈ impl.bucket q, v < graph.numNodes ∧ k ≤ impl.dfnum v ∧ impl.semi v = q ∧
    ∃ c, impl.parent c = some q ∧ Anc impl.parent c v ∧ impl.dfnum c < k
  initial : ∀ v < graph.numNodes, impl.dfnum v < k ∨ v ∈ impl.bucket (impl.semi v) →
    impl.samedom v = none ∧ impl.dom v = 0
  decided : ∀ v < graph.numNodes, k ≤ impl.dfnum v → v ∉ impl.bucket (impl.semi v) →
    Decided k impl.dfnum impl.parent impl.semi (impl.samedom v) (impl.dom v) v

/-- A decision about a node of the processed part is not affected by processing one more. -/
private theorem Decided.step {dfnum : ℕ → ℕ} {parent : ℕ → Option ℕ} {semi : ℕ → ℕ} {samedom : Option ℕ}
    {dom n s : ℕ} (decided : Decided (dfnum n + 1) dfnum parent semi samedom dom v)
    (other : v ≠ n) : Decided (dfnum n) dfnum parent (update semi n s) samedom dom v := by
  have ne : ∀ {u}, dfnum n + 1 ≤ dfnum u → u ≠ n := by
    rintro u le rfl
    omega
  rcases decided with ⟨isNone, same, way⟩ | ⟨y, isSome, same, onWay, ahead, way⟩
  · refine .inl ⟨isNone, by rw [update_of_ne other, same], ?_⟩
    rw [update_of_ne other]
    intro u between
    have later := way u between
    rw [update_of_ne (ne later.1)]
    exact ⟨by omega, later.2⟩
  · have yOther := ne (way y onWay).1
    refine .inr ⟨y, isSome, same, by rwa [update_of_ne other],
      by rwa [update_of_ne other, update_of_ne yOther], ?_⟩
    rw [update_of_ne other, update_of_ne yOther]
    intro u between
    have later := way u between
    rw [update_of_ne (ne later.1)]
    exact ⟨by omega, later.2⟩

section SemidomNode

variable {n p s : ℕ} {ancestor : ℕ → Option ℕ} {best : ℕ → ℕ} (inv : SemiInv graph (impl.dfnum n + 1) impl)
  (node : n < graph.numNodes) (child : impl.parent n = some p)
  (semi : IsSemi graph impl.dfnum impl.parent n s)

/-- The tables once `n` has its semidominator, its place in a bucket and its link. -/
private abbrev linkedAt (impl : DomImpl) (n p s : ℕ) (ancestor : ℕ → Option ℕ) (best : ℕ → ℕ) : DomImpl :=
  { impl with
    semi := update impl.semi n s
    bucket := update impl.bucket s ((impl.bucket s).insert n)
    ancestor := update ancestor n (some p)
    best := update best n n }

private theorem mem_bucket_linkedAt {q v : ℕ} :
    v ∈ (linkedAt impl n p s ancestor best).bucket q ↔ v ∈ impl.bucket q ∨ (v = n ∧ q = s) := by
  by_cases same : q = s
  · subst same
    simp [or_comm]
  · simp [same]

include inv

private theorem bucket_ne (v q : ℕ) (waits : v ∈ impl.bucket q) : v ≠ n := by
  rintro rfl
  exact absurd (inv.bucket q v waits).2.1 (by omega)

include node

/-- The child that a node waits for is the one being processed or comes later. -/
private theorem waits_for {q c : ℕ} (up : impl.parent c = some q) (early : impl.dfnum c < impl.dfnum n + 1) :
    c = n ∨ impl.dfnum c < impl.dfnum n := by
  rcases Nat.lt_succ_iff_lt_or_eq.mp early with earlier | same
  · exact .inr earlier
  · exact .inl (inv.numbered.tree.num_inj (inv.numbered.tree.parent_node up).2 node same)

include child

/-- A node in the bucket of the parent has been waiting for this very child. -/
private theorem waits_below (v : ℕ) (waits : v ∈ impl.bucket p) : Anc impl.parent n v := by
  obtain ⟨vNode, later, -, c, up, below, early⟩ := inv.bucket p v waits
  rcases waits_for inv node up early with rfl | earlier
  · exact below
  · have toN := inv.numbered.tree.interval below vNode node earlier.le (by omega)
    rcases toN.eq_or_parent with rfl | ⟨q, again, higher⟩
    · exact absurd earlier (lt_irrefl _)
    · obtain rfl : p = q := Option.some.inj (child.symm.trans again)
      exact absurd (inv.numbered.tree.parent_lt up) (inv.numbered.tree.num_le higher).not_gt

include semi

private theorem ready_linkedAt (v : ℕ) (waits : v ∈ (linkedAt impl n p s ancestor best).bucket p) :
    Ready graph (impl.dfnum n) p (linkedAt impl n p s ancestor best) v := by
  rcases mem_bucket_linkedAt.mp waits with old | ⟨rfl, rfl⟩
  · obtain ⟨vNode, later, isSemi, -⟩ := inv.bucket p v old
    have other := bucket_ne inv v p old
    have proper := inv.semis v vNode later
    have untouched := inv.initial v vNode (.inr (isSemi ▸ old))
    rw [isSemi] at proper
    refine ⟨vNode, by simp; omega, (update_of_ne other _ _).trans isSemi,
      ⟨proper.anc, Ne.symm proper.other, .refl v⟩, ?_, untouched.1, untouched.2⟩
    rintro u ⟨below, uOther, upper⟩
    rcases inv.numbered.tree.anc_total (waits_below inv node child v old) upper vNode with lower | higher
    · exact inv.numbered.tree.num_le lower
    · rcases higher.eq_or_parent with rfl | ⟨q, again, higher⟩
      · exact le_rfl
      · obtain rfl : p = q := Option.some.inj (child.symm.trans again)
        exact absurd (inv.numbered.tree.anc_antisymm higher below) uOther
  · have untouched := inv.initial v node (.inl (Nat.lt_succ_self _))
    exact ⟨node, le_rfl, update_self .., ⟨semi.anc, Ne.symm semi.other, .refl v⟩,
      fun u between => (inv.numbered.tree.between_child child between).symm ▸ le_rfl, untouched.1, untouched.2⟩

/-- One node processed: its bucket's nodes are decided, the others still wait. -/
private theorem SemiInv.step {samedom : ℕ → Option ℕ} {dom : ℕ → ℕ} {ancestor' : ℕ → Option ℕ} {best' : ℕ → ℕ}
    (forest : Forest graph (impl.dfnum n)
      { linkedAt impl n p s ancestor best with ancestor := ancestor', best := best', samedom, dom })
    (all : ∀ v ∈ (linkedAt impl n p s ancestor best).bucket p,
      Decided (impl.dfnum n) impl.dfnum impl.parent (update impl.semi n s) (samedom v) (dom v) v)
    (frame : ∀ v ∉ (linkedAt impl n p s ancestor best).bucket p,
      samedom v = impl.samedom v ∧ dom v = impl.dom v) :
    SemiInv graph (impl.dfnum n)
      { linkedAt impl n p s ancestor best with
        ancestor := ancestor'
        best := best'
        samedom
        dom
        bucket := update (linkedAt impl n p s ancestor best).bucket p [] } := by
  have later : ∀ {v}, v < graph.numNodes → v ≠ n → impl.dfnum n ≤ impl.dfnum v →
      impl.dfnum n + 1 ≤ impl.dfnum v := by
    intro v vNode other le
    have different : impl.dfnum v ≠ impl.dfnum n := fun same => other (inv.numbered.tree.num_inj vNode node same)
    omega
  have emptied : ∀ {q v}, v ∈ update (linkedAt impl n p s ancestor best).bucket p [] q ↔
      q ≠ p ∧ (v ∈ impl.bucket q ∨ (v = n ∧ q = s)) := by
    intro q v
    by_cases same : q = p
    · subst same
      simp
    · rw [update_of_ne same, mem_bucket_linkedAt]
      simp [same]
  have inBucket : ∀ {v}, v ∈ (linkedAt impl n p s ancestor best).bucket p →
      impl.dfnum n ≤ impl.dfnum v ∧ update impl.semi n s v = p := fun waits =>
    ⟨(ready_linkedAt inv node child semi _ waits).linked, (ready_linkedAt inv node child semi _ waits).semi⟩
  constructor
  case numbered => exact inv.numbered
  case forest =>
    exact ⟨forest.linked, forest.anc, forest.between, forest.best_anc, forest.best_linked, forest.best_least⟩
  case semis =>
    intro v vNode linked
    by_cases same : v = n
    · subst same
      simpa using semi
    · simpa [update_of_ne same] using inv.semis v vNode (later vNode same linked)
  case nodup =>
    intro q
    by_cases same : q = p
    · subst same
      simp
    · simp only [update_of_ne same]
      by_cases again : q = s
      · subst again
        simpa using (inv.nodup q).insert
      · simpa [update_of_ne again] using inv.nodup q
  case bucket =>
    intro q v waits
    obtain ⟨other, old | ⟨rfl, rfl⟩⟩ := emptied.mp waits
    · obtain ⟨vNode, linked, isSemi, c, up, below, early⟩ := inv.bucket q v old
      refine ⟨vNode, Nat.le_of_succ_le linked, (update_of_ne (bucket_ne inv v q old) _ _).trans isSemi, c, up,
        below, ?_⟩
      rcases waits_for inv node up early with rfl | earlier
      · exact absurd (Option.some.inj (up.symm.trans child)) other
      · exact earlier
    · refine ⟨node, le_rfl, update_self .., ?_⟩
      rcases Relation.ReflTransGen.cases_head semi.anc with same | ⟨c, up, below⟩
      · exact absurd same semi.other
      · refine ⟨c, up, below, inv.numbered.tree.num_lt below ?_⟩
        rintro rfl
        exact other (Option.some.inj (up.symm.trans child))
  case initial =>
    rintro v vNode (early | waits)
    · have off : v ∉ (linkedAt impl n p s ancestor best).bucket p := fun waits =>
        absurd (inBucket waits).1 (not_le.mpr early)
      obtain ⟨samedomSame, domSame⟩ := frame v off
      have untouched := inv.initial v vNode (.inl (early.trans (Nat.lt_succ_self _)))
      exact ⟨samedomSame.trans untouched.1, domSame.trans untouched.2⟩
    · obtain ⟨other, source⟩ : update impl.semi n s v ≠ p ∧
          (v ∈ impl.bucket (update impl.semi n s v) ∨ (v = n ∧ update impl.semi n s v = s)) := emptied.mp waits
      have off : v ∉ (linkedAt impl n p s ancestor best).bucket p := fun again => other (inBucket again).2
      obtain ⟨samedomSame, domSame⟩ := frame v off
      have untouched : impl.samedom v = none ∧ impl.dom v = 0 := by
        rcases source with old | ⟨rfl, -⟩
        · rw [update_of_ne (bucket_ne inv v _ old)] at old
          exact inv.initial v vNode (.inr old)
        · exact inv.initial v node (.inl (Nat.lt_succ_self _))
      exact ⟨samedomSame.trans untouched.1, domSame.trans untouched.2⟩
  case decided =>
    intro v vNode linked done
    by_cases waits : v ∈ (linkedAt impl n p s ancestor best).bucket p
    · exact all v waits
    · have notEmptied : ¬ (v ∈ impl.bucket (update impl.semi n s v) ∨ (v = n ∧ update impl.semi n s v = s)) := by
        intro source
        by_cases same : update impl.semi n s v = p
        · exact waits (mem_bucket_linkedAt.mpr (same ▸ source))
        · exact done (emptied.mpr ⟨same, source⟩)
      have other : v ≠ n := by
        rintro rfl
        exact notEmptied (.inr ⟨rfl, update_self ..⟩)
      rw [update_of_ne other] at notEmptied
      obtain ⟨samedomSame, domSame⟩ := frame v waits
      have kept := inv.decided v vNode (later vNode other linked) fun old => notEmptied (.inl old)
      rw [← samedomSame, ← domSame] at kept
      exact kept.step other

end SemidomNode

/-- From the semidominator of each node numbered from `k` on a semipath leads to it. -/
def Pathed (graph : ControlFlowGraph) (k : ℕ) (impl : DomImpl) : Prop :=
  ∀ v < graph.numNodes, k ≤ impl.dfnum v → SemiPath graph.Edge impl.dfnum (impl.semi v) v

/-- A semipath to an ancestor of `v` goes on down the tree, as seen from a node before that ancestor. -/
private theorem climb_of_semiPath (numbered : Numbered graph impl.dfnum impl.vertex impl.parent)
    (edges : ∀ {n p}, impl.parent n = some p → graph.Edge p n) {s u : ℕ}
    (path : SemiPath graph.Edge impl.dfnum s u) (upper : Anc impl.parent u v) (late : k ≤ impl.dfnum u) :
    Climb graph.Edge impl.dfnum k s v := by
  have toU : Climb graph.Edge impl.dfnum k s u := by
    rcases path with out | ⟨w, climb, out⟩
    · exact .single ⟨out, late⟩
    · exact .tail (climb.mono (late.trans (Nat.le_succ _))) ⟨out, late⟩
  induction upper with
  | refl => exact toU
  | @tail p c below child ih =>
    have first := numbered.tree.num_le below
    have last := numbered.tree.parent_lt child
    exact .tail ih ⟨edges child, by omega⟩

/-- Whatever a predecessor offers starts a semipath. -/
private theorem Pathed.of_offered (numbered : Numbered graph impl.dfnum impl.vertex impl.parent)
    (edges : ∀ {n p}, impl.parent n = some p → graph.Edge p n) {n s : ℕ}
    (pathed : Pathed graph (impl.dfnum n + 1) impl) (out : graph.Edge v n)
    (offered : Offered (impl.dfnum n) impl.dfnum impl.parent impl.semi v s) :
    SemiPath graph.Edge impl.dfnum s n := by
  rcases offered with rfl | ⟨u, upper, later, rfl⟩
  · exact .inl out
  · have uNode := numbered.tree.anc_node upper (numbered.tree.edge_node out).1
    exact .inr ⟨v, climb_of_semiPath numbered edges (pathed u uNode later) upper later, out⟩

/-- Processing a node other than the start succeeds and extends the processed part by it. -/
theorem semidomNode_spec (wellFormed : graph.WellFormed) (hash : HashOrder) (atZero : graph.startNode = 0)
    (inv : SemiInv graph (k + 1) impl) (positive : 0 < k) (lt : k < graph.numNodes)
    (edges : ∀ {n p}, impl.parent n = some p → graph.Edge p n) (pathed : Pathed graph (k + 1) impl) :
    ∃ impl', semidomNode graph hash impl k = some impl' ∧ SemiInv graph k impl' ∧ Pathed graph k impl' ∧
      impl'.dfnum = impl.dfnum ∧ impl'.parent = impl.parent := by
  obtain ⟨node, num⟩ := inv.numbered.num_vertex k lt
  obtain ⟨n, isN⟩ : ∃ n, impl.vertex k = n := ⟨_, rfl⟩
  rw [isN] at node num
  subst num
  have inner : n ≠ graph.startNode := by
    rintro rfl
    exact absurd inv.numbered.start_num (by omega)
  obtain ⟨p, child⟩ := inv.numbered.has_parent n node inner
  have earlier := inv.numbered.tree.parent_lt child
  have parentOther : p ≠ n := by
    rintro rfl
    exact lt_irrefl _ earlier
  have preds : ∀ v, v ∈ graph.predecessors n ↔ graph.Edge v n := fun v => wellFormed.mem_predecessors
  obtain ⟨ancestor, best, s, folded, forest, upper, other, -, lowered, source⟩ :=
    lowerSemi_fold inv.numbered node inv.semis inv.forest (.of_parent child) parentOther
      (graph.predecessors n) fun v mem => (preds v).mp mem
  have semi := isSemi_of_lowered inv.numbered inv.semis upper other
    fun v out => lowered v ((preds v).mpr out)
  have linked : Forest graph (impl.dfnum n) (linkedAt impl n p s ancestor best) :=
    @Forest.link graph { impl with ancestor, best } n p s _ inv.numbered forest node child
  have perm := hash.perm ((linkedAt impl n p s ancestor best).bucket p)
  have nodup : ((linkedAt impl n p s ancestor best).bucket p).Nodup := by
    by_cases same : p = s
    · subst same
      simpa using (inv.nodup p).insert
    · simpa [update_of_ne same] using inv.nodup p
  obtain ⟨ancestor', best', samedom, dom, emptied, forest', all, frame⟩ :=
    @emptyBucket_fold graph (linkedAt impl n p s ancestor best) (impl.dfnum n) p inv.numbered linked earlier
      (hash.order ((linkedAt impl n p s ancestor best).bucket p)) (perm.nodup_iff.mpr nodup)
      fun v mem => ready_linkedAt inv node child semi v (perm.mem_iff.mp mem)
  refine ⟨_, ?_, SemiInv.step inv node child semi forest' (fun v mem => all v (perm.mem_iff.mpr mem))
    (fun v off => frame v fun mem => off (perm.mem_iff.mp mem)), ?_, rfl, rfl⟩
  · have notStart : impl.dfnum n ≠ graph.startNode := by omega
    rw [semidomNode, if_neg notStart, isN]
    simp only [child, folded, Option.bind_eq_bind, Option.bind_some, DomImpl.link]
    rw [emptied]
    rfl
  · intro v vNode late
    by_cases same : v = n
    · subst same
      have path : SemiPath graph.Edge impl.dfnum s v := by
        rcases source with rfl | ⟨w, mem, offered⟩
        · exact .inl (edges child)
        · exact pathed.of_offered inv.numbered edges ((preds w).mp mem) offered
      simpa using path
    · have different : impl.dfnum v ≠ impl.dfnum n := fun eq => same (inv.numbered.tree.num_inj vNode node eq)
      have later : impl.dfnum n ≤ impl.dfnum v := late
      simpa [update_of_ne same] using pathed v vNode (by omega)

/-- A loop over `0 .. n` from the end keeps an invariant indexed by what is left. -/
private theorem foldlM_range_reverse {σ : Type} (f : σ → ℕ → Option σ) (keeps : ℕ → σ → Prop)
    (step : ∀ k s, keeps (k + 1) s → ∃ s', f s k = some s' ∧ keeps k s') (n : ℕ) (s : σ) (before : keeps n s) :
    ∃ s', (List.range n).reverse.foldlM f s = some s' ∧ keeps 0 s' := by
  induction n generalizing s with
  | zero => exact ⟨s, rfl, before⟩
  | succ n ih =>
    obtain ⟨mid, ran, kept⟩ := step n s before
    obtain ⟨last, rest, done⟩ := ih mid kept
    refine ⟨last, ?_, done⟩
    rw [List.range_succ, List.reverse_append, List.reverse_singleton, List.singleton_append, List.foldlM_cons, ran]
    exact rest

private theorem foldl_range_reverse {σ : Type} (f : σ → ℕ → σ) (keeps : ℕ → σ → Prop)
    (step : ∀ k s, keeps (k + 1) s → keeps k (f s k)) (n : ℕ) (s : σ) (before : keeps n s) :
    keeps 0 ((List.range n).reverse.foldl f s) := by
  induction n generalizing s with
  | zero => exact before
  | succ n ih =>
    rw [List.range_succ, List.reverse_append, List.reverse_singleton, List.singleton_append, List.foldl_cons]
    exact ih _ (step n s before)

/-- Before the first node is processed. -/
theorem SemiInv.initially {dfnum vertex : ℕ → ℕ} {parent : ℕ → Option ℕ}
    (numbered : Numbered graph dfnum vertex parent) :
    SemiInv graph graph.numNodes { DomImpl.new with dfnum, vertex, parent } := by
  have none : ∀ {v}, v < graph.numNodes → ¬ graph.numNodes ≤ dfnum v := fun node =>
    not_le.mpr (numbered.num_lt _ node)
  constructor
  case numbered => exact numbered
  case forest =>
    constructor
    case linked =>
      intro v node
      simpa [DomImpl.new] using numbered.num_lt v node
    case anc => simp [DomImpl.new]
    case between => simp [DomImpl.new]
    case best_anc => exact fun v _ => .refl v
    case best_linked => exact fun v node le => absurd le (none node)
    case best_least => simp [DomImpl.new]
  case semis => exact fun v node le => absurd le (none node)
  case nodup => simp [DomImpl.new]
  case bucket => simp [DomImpl.new]
  case initial => exact fun v _ _ => ⟨rfl, rfl⟩
  case decided => exact fun v node le => absurd le (none node)

/-- The loop over all nodes succeeds and processes all but the start. -/
theorem semidom_spec (wellFormed : graph.WellFormed) (hash : HashOrder) (atZero : graph.startNode = 0)
    (before : SemiInv graph graph.numNodes impl)
    (edges : ∀ {n p}, impl.parent n = some p → graph.Edge p n) :
    ∃ impl', semidom graph hash impl = some impl' ∧ SemiInv graph 1 impl' ∧ Pathed graph 1 impl' ∧
      impl'.dfnum = impl.dfnum ∧ impl'.parent = impl.parent := by
  have start := wellFormed.start_lt
  have none : Pathed graph graph.numNodes impl := fun v node late =>
    absurd late (not_le.mpr (before.numbered.num_lt v node))
  obtain ⟨impl', ran, -, done, pathed, frame⟩ := foldlM_range_reverse (semidomNode graph hash)
    (fun k s => k ≤ graph.numNodes ∧ SemiInv graph (max k 1) s ∧ Pathed graph (max k 1) s ∧
      s.dfnum = impl.dfnum ∧ s.parent = impl.parent)
    (by
      rintro k s ⟨le, inv, pathed, dfnum, parent⟩
      by_cases first : k = 0
      · subst first
        exact ⟨s, by simp [semidomNode, atZero], by omega, inv, pathed, dfnum, parent⟩
      · have next : max (k + 1) 1 = k + 1 := by omega
        rw [next] at inv pathed
        obtain ⟨s', ran, inv', pathed', dfnum', parent'⟩ :=
          semidomNode_spec wellFormed hash atZero inv (by omega) le (by rwa [parent]) pathed
        have here : max k 1 = k := by omega
        rw [here]
        exact ⟨s', ran, by omega, inv', pathed', dfnum'.trans dfnum, parent'.trans parent⟩)
    graph.numNodes impl ⟨le_rfl, by rwa [max_eq_left (by omega)], by rwa [max_eq_left (by omega)], rfl, rfl⟩
  exact ⟨impl', ran, done, pathed, frame⟩

section Finish

variable (inv : SemiInv graph 1 impl) (atZero : graph.startNode = 0)
include inv

/-- Once all nodes are processed the buckets are empty. -/
private theorem SemiInv.decided_all (node : v < graph.numNodes) (inner : v ≠ graph.startNode) :
    1 ≤ impl.dfnum v ∧ IsSemi graph impl.dfnum impl.parent v (impl.semi v) ∧
      Decided 1 impl.dfnum impl.parent impl.semi (impl.samedom v) (impl.dom v) v := by
  have positive : 1 ≤ impl.dfnum v := by
    by_contra zero
    have start := inv.numbered.start_num
    exact inner (inv.numbered.tree.num_inj node inv.numbered.tree.start_node (by omega))
  refine ⟨positive, inv.semis v node positive, inv.decided v node positive fun waits => ?_⟩
  obtain ⟨-, -, -, c, up, -, early⟩ := inv.bucket _ v waits
  have later := inv.numbered.tree.parent_lt up
  omega

/-- A node to which a dominator is deferred is numbered before the deferring one. -/
private theorem SemiInv.samedom_lt (node : v < graph.numNodes) (inner : v ≠ graph.startNode) {y : ℕ}
    (deferred : impl.samedom v = some y) :
    y < graph.numNodes ∧ y ≠ graph.startNode ∧ impl.dfnum y < impl.dfnum v := by
  obtain ⟨-, -, decided⟩ := inv.decided_all node inner
  rcases decided with ⟨isNone, -⟩ | ⟨z, isSome, -, between, smaller, -⟩
  · simp [deferred] at isNone
  · obtain rfl : y = z := Option.some.inj (deferred.symm.trans isSome)
    have other : y ≠ v := by
      rintro rfl
      exact smaller rfl
    refine ⟨inv.numbered.tree.anc_node between.2.2 node, ?_, inv.numbered.tree.num_lt between.2.2 other⟩
    rintro rfl
    have start := inv.numbered.start_num
    have above := inv.numbered.tree.num_lt between.1 (Ne.symm between.2.1)
    omega

include atZero

omit inv atZero in
private theorem domNode_eq (i : ℕ) : domNode graph impl i =
    { impl with
      dom := if i = graph.startNode then impl.dom
        else update impl.dom (impl.vertex i)
          ((impl.samedom (impl.vertex i)).elim (impl.dom (impl.vertex i)) impl.dom) } := by
  unfold domNode
  split_ifs
  · rfl
  · cases deferred : impl.samedom (impl.vertex i) with
    | none => simp only [deferred, Option.elim_none, update_eq_self]
    | some y => simp only [deferred, Option.elim_some]

/-- The tables while the deferred entries of the nodes numbered from `k` on are filled in. -/
private structure Filled (graph : ControlFlowGraph) (impl : DomImpl) (k : ℕ) (s : DomImpl) : Prop where
  le : k ≤ graph.numNodes
  same : s = { impl with dom := s.dom }
  before : ∀ w < graph.numNodes, w = graph.startNode ∨ impl.dfnum w < k → s.dom w = impl.dom w
  after : ∀ w < graph.numNodes, w ≠ graph.startNode → k ≤ impl.dfnum w →
    s.dom w = (impl.samedom w).elim (impl.dom w) impl.dom

private theorem Filled.step {s : DomImpl} (filled : Filled graph impl (k + 1) s) :
    Filled graph impl k (domNode graph s k) := by
  obtain ⟨dom, rfl⟩ : ∃ dom, s = { impl with dom } := ⟨s.dom, filled.same⟩
  obtain ⟨node, num⟩ := inv.numbered.num_vertex k filled.le
  have isStart : k = graph.startNode ↔ impl.vertex k = graph.startNode := by
    constructor
    · intro same
      exact inv.numbered.tree.num_inj node inv.numbered.tree.start_node
        (num.trans (same.trans (atZero.trans inv.numbered.start_num.symm)))
    · intro same
      rw [same, inv.numbered.start_num] at num
      rw [← num, atZero]
  rw [domNode_eq]
  refine ⟨Nat.le_of_succ_le filled.le, rfl, ?_, ?_⟩
  · intro w wNode early
    have untouched := filled.before w wNode (early.imp_right fun lt => by omega)
    dsimp only at untouched ⊢
    split_ifs with first
    · exact untouched
    · rw [update_of_ne, untouched]
      rintro rfl
      rcases early with same | lt
      · exact first (isStart.mpr same)
      · omega
  · intro w wNode inner late
    dsimp only
    by_cases here : w = impl.vertex k
    · subst here
      rw [if_neg (fun first => inner (isStart.mp first)), update_self,
        show dom (impl.vertex k) = impl.dom (impl.vertex k) from filled.before _ node (.inr (by omega))]
      cases deferred : impl.samedom (impl.vertex k) with
      | none => rfl
      | some y =>
        obtain ⟨yNode, -, earlier⟩ := inv.samedom_lt node inner deferred
        exact filled.before y yNode (.inr (by omega))
    · have different : impl.dfnum w ≠ impl.dfnum (impl.vertex k) := fun same =>
        here (inv.numbered.tree.num_inj wNode node same)
      have done := filled.after w wNode inner (by omega)
      split_ifs
      · exact done
      · rwa [update_of_ne here]

/-- The loop that fills in deferred entries copies what the first loop left. -/
theorem finish_eq (node : v < graph.numNodes) :
    impl.finish graph v =
      if v = graph.startNode then impl.dom v else (impl.samedom v).elim (impl.dom v) impl.dom := by
  have done := foldl_range_reverse (domNode graph) (Filled graph impl) (fun _ _ => Filled.step inv atZero)
    graph.numNodes impl ⟨le_rfl, rfl, fun _ _ _ => rfl,
      fun w wNode _ late => absurd late (not_le.mpr (inv.numbered.num_lt w wNode))⟩
  split_ifs with atStart
  · exact done.before v node (.inl atStart)
  · exact done.after v node atStart (Nat.zero_le _)

/-- Every node but the start gets a proper ancestor that dominates it. -/
theorem finish_dominates (node : v < graph.numNodes) (inner : v ≠ graph.startNode) :
    impl.dfnum (impl.finish graph v) < impl.dfnum v ∧ impl.finish graph v < graph.numNodes ∧
      Dominates graph.Edge graph.startNode (impl.finish graph v) v := by
  have tree := inv.numbered.tree
  have bound : ∀ {t w}, w < graph.numNodes →
      (∀ u, Between impl.parent t w u → 1 ≤ impl.dfnum u ∧ impl.dfnum t ≤ impl.dfnum (impl.semi u)) →
      ∀ u x, Between impl.parent t w u → SemiPath graph.Edge impl.dfnum x u → impl.dfnum t ≤ impl.dfnum x := by
    intro t w wNode low u x between path
    obtain ⟨positive, le⟩ := low u between
    exact le.trans ((inv.semis u (tree.anc_node between.2.2 wNode) positive).least x path)
  rw [finish_eq inv atZero node, if_neg inner]
  obtain ⟨positive, semi, decided⟩ := inv.decided_all node inner
  rcases decided with ⟨isNone, isSemi, low⟩ | ⟨y, isSome, -, between, other, low⟩
  · rw [isNone, Option.elim_none, isSemi]
    exact ⟨tree.num_lt semi.anc semi.other, tree.anc_node semi.anc node,
      tree.dominates_of_semi semi.anc (bound node low)⟩
  · rw [isSome, Option.elim_some]
    obtain ⟨yNode, yInner, yEarlier⟩ := inv.samedom_lt node inner isSome
    obtain ⟨-, ySemi, yDecided⟩ := inv.decided_all yNode yInner
    rcases yDecided with ⟨-, isSemi, yLow⟩ | ⟨z, -, isStart, -⟩
    · rw [isSemi]
      have upper := ySemi.anc.trans between.2.2
      refine ⟨(tree.num_lt ySemi.anc ySemi.other).trans yEarlier, tree.anc_node upper node,
        tree.dominates_of_semi upper (bound node ?_)⟩
      rintro u ⟨below, uOther, toV⟩
      rcases tree.anc_total toV between.2.2 node with above | beyond
      · exact yLow u ⟨below, uOther, above⟩
      · by_cases same : u = y
        · exact low u (same ▸ between)
        · refine low u ⟨between.1.trans beyond, ?_, toV⟩
          rintro rfl
          exact between.2.1 (tree.anc_antisymm beyond between.1)
    · rw [isStart, ← atZero, inv.numbered.start_num]
      exact ⟨positive, tree.start_node, .of_start v⟩

/-- What the loops leave in the tree: a semidominator with nothing smaller below it, that of the node
deferred to, or the start where that node was deferred itself. -/
theorem finish_cases (pathed : Pathed graph 1 impl) (node : v < graph.numNodes) (inner : v ≠ graph.startNode) :
    Undeferred graph.Edge impl.dfnum impl.parent v (impl.finish graph v) ∨
      ∃ y, y < graph.numNodes ∧ Defers graph.Edge impl.dfnum impl.parent v y ∧
        (Undeferred graph.Edge impl.dfnum impl.parent y (impl.finish graph v) ∨
          ∃ z, Defers graph.Edge impl.dfnum impl.parent y z ∧ impl.finish graph v = graph.startNode) := by
  have tree := inv.numbered.tree
  have bound : ∀ {s t w}, w < graph.numNodes →
      (∀ u, Between impl.parent s w u → 1 ≤ impl.dfnum u ∧ impl.dfnum t ≤ impl.dfnum (impl.semi u)) →
      ∀ u x, Between impl.parent s w u → SemiPath graph.Edge impl.dfnum x u → impl.dfnum t ≤ impl.dfnum x := by
    intro s t w wNode low u x between path
    obtain ⟨positive, le⟩ := low u between
    exact le.trans ((inv.semis u (tree.anc_node between.2.2 wNode) positive).least x path)
  have defers : ∀ {w y}, w < graph.numNodes → 1 ≤ impl.dfnum w → Between impl.parent (impl.semi w) w y →
      impl.semi y ≠ impl.semi w →
      (∀ u, Between impl.parent (impl.semi w) w u →
        1 ≤ impl.dfnum u ∧ impl.dfnum (impl.semi y) ≤ impl.dfnum (impl.semi u)) →
      Defers graph.Edge impl.dfnum impl.parent w y := by
    intro w y wNode linked between smaller low
    have yNode := tree.anc_node between.2.2 wNode
    have yLinked := (low y between).1
    have wSemi := inv.semis w wNode linked
    have self := (low w ⟨wSemi.anc, Ne.symm wSemi.other, .refl w⟩).2
    have different : impl.dfnum (impl.semi y) ≠ impl.dfnum (impl.semi w) := fun same =>
      smaller (tree.num_inj (tree.semiPath_node (pathed y yNode yLinked))
        (tree.semiPath_node (pathed w wNode linked)) same)
    exact ⟨_, _, ⟨pathed w wNode linked, wSemi.least⟩, ⟨pathed y yNode yLinked, (inv.semis y yNode yLinked).least⟩,
      between, by omega, bound wNode low⟩
  rw [finish_eq inv atZero node, if_neg inner]
  obtain ⟨positive, semi, decided⟩ := inv.decided_all node inner
  rcases decided with ⟨isNone, isSemi, low⟩ | ⟨y, isSome, -, between, smaller, low⟩
  · rw [isNone, Option.elim_none, isSemi]
    exact .inl ⟨pathed v node positive, semi.anc, semi.other, bound node low⟩
  · rw [isSome, Option.elim_some]
    obtain ⟨yNode, yInner, -⟩ := inv.samedom_lt node inner isSome
    obtain ⟨yPositive, ySemi, yDecided⟩ := inv.decided_all yNode yInner
    refine .inr ⟨y, yNode, defers node positive between smaller low, ?_⟩
    rcases yDecided with ⟨-, isSemi, yLow⟩ | ⟨z, -, isStart, zBetween, zSmaller, zLow⟩
    · rw [isSemi]
      exact .inl ⟨pathed y yNode yPositive, ySemi.anc, ySemi.other, bound yNode yLow⟩
    · exact .inr ⟨z, defers yNode yPositive zBetween zSmaller zLow, by rw [isStart, atZero]⟩

end Finish

end DomImpl

theorem ControlFlowGraph.WellFormed.lt_of_reachable {graph : ControlFlowGraph} (wellFormed : graph.WellFormed)
    {n : ℕ} (reached : Reachable graph.Edge graph.startNode n) : n < graph.numNodes := by
  induction reached with
  | refl => exact wellFormed.start_lt
  | tail _ out _ => exact (wellFormed.successors_lt out).2

/-- The tree a computation of dominators returns for a graph. -/
structure DominatorTree.Of (graph : ControlFlowGraph) (tree : DominatorTree) : Prop where
  numNodes : tree.numNodes = graph.numNodes
  startNode : tree.startNode = graph.startNode
  table : ParentTable graph.Edge graph.startNode tree.idom tree.dfnum
  num_inj : ∀ a < graph.numNodes, ∀ b < graph.numNodes, tree.dfnum a = tree.dfnum b → a = b
  num_lt : ∀ n < graph.numNodes, tree.dfnum n < graph.numNodes

/-- On a graph that starts at node 0 and whose nodes are all reachable, the computation returns a
table of dominators. -/
theorem DominatorTree.new_spec {graph : ControlFlowGraph} (wellFormed : graph.WellFormed)
    (reachable : graph.AllReachable) (atZero : graph.startNode = 0) (hash : HashOrder) :
    ∃ tree, DominatorTree.new graph hash = some tree ∧ DominatorTree.Of graph tree := by
  obtain ⟨dfnum, vertex, parent, searched, numbered⟩ := DomImpl.dfs_numbered wellFormed reachable
  obtain ⟨impl, processed, inv, -⟩ := DomImpl.semidom_spec wellFormed hash atZero (.initially numbered)
    (DomImpl.dfs_edge wellFormed searched)
  have root : impl.finish graph graph.startNode = graph.startNode := by
    have start := wellFormed.start_lt
    have initial := inv.initial graph.startNode start (.inl (by rw [inv.numbered.start_num]; omega))
    rw [DomImpl.finish_eq inv atZero start, if_pos rfl, initial.2, atZero]
  refine ⟨_, by simp [DominatorTree.new, searched, processed]; rfl, rfl, rfl, ⟨root, ?_, ?_, ?_⟩, ?_,
    inv.numbered.num_lt⟩
  · intro n reached inner
    exact (DomImpl.finish_dominates inv atZero (wellFormed.lt_of_reachable reached) inner).1
  · intro n reached
    by_cases inner : n = graph.startNode
    · subst inner
      exact reachable _ (root.trans_lt wellFormed.start_lt)
    · exact reachable _ (DomImpl.finish_dominates inv atZero (wellFormed.lt_of_reachable reached) inner).2.1
  · intro n reached inner
    exact (DomImpl.finish_dominates inv atZero (wellFormed.lt_of_reachable reached) inner).2.2
  · exact fun a aNode b bNode => inv.numbered.tree.num_inj aNode bNode

end Ctadl.Graph
