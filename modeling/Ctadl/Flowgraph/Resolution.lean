import Ctadl.Flowgraph.Dominance

/-! # Reaching definitions and the names that resolve to them

One variable of a control-flow graph. `site u` is the last definition in block `u`, and
`ReachesEntry` says which definitions reach the entry of a block, `none` being the value the function
starts with.

Pruned static single assignment form names these values by tokens: the entry value, the last
definition of a block, or the phi at the head of a block. `TopEntry` and `TopExit` say which token
the renaming walk has on top at a block, from the phis placed and the table of parents it walks
down, and `Resolves` expands a token through phi operands. `Placement` holds what the two agree on:
the parents are dominators (not necessarily immediate ones), phis stand on the live part of the
iterated frontier of the definitions.

A resolved definition always reaches (`Placement.reaches_of_resolves`). Every reaching definition is
resolved exactly as long as no definition reaches the start of the function while the variable is
live there (`Placement.resolves_iff_reaches`, `Placement.live_start_unresolved`): the phi at the start has no
operand for the entry value, and nothing makes the start a frontier of itself.
-/

namespace Ctadl.Flowgraph

open Relation

variable {N D : Type*}

section Definitions

variable (edge : N → N → Prop) (start : N) (parent : N → N) (site : N → Option D) (phi : N → Prop)

/-- The definitions, or the entry value `none`, that reach the end of a block. -/
inductive ReachesExit : N → Option D → Prop
  | entry (clear : site start = none) : ReachesExit start none
  | last {u : N} {d : D} (defines : site u = some d) : ReachesExit u (some d)
  | pass {u w : N} {d : Option D} (out : edge u w) (clear : site w = none) (reaches : ReachesExit u d) :
      ReachesExit w d

/-- The definitions, or the entry value, that reach the start of a block. -/
def ReachesEntry (w : N) (d : Option D) : Prop :=
  (w = start ∧ d = none) ∨ ∃ u, edge u w ∧ ReachesExit edge start site u d

/-- What a version names: the entry value, the phi of a block, or the last definition of one. -/
inductive Token (N : Type*)
  | entry
  | phi (block : N)
  | last (block : N)

/-- The token on top at the end of a block. -/
inductive TopExit : N → Token N → Prop
  | last {u : N} (defines : site u ≠ none) : TopExit u (.last u)
  | phi {u : N} (clear : site u = none) (placed : phi u) : TopExit u (.phi u)
  | entry (clear : site start = none) (bare : ¬ phi start) : TopExit start .entry
  | up {u : N} {t : Token N} (clear : site u = none) (bare : ¬ phi u) (inner : u ≠ start)
      (above : TopExit (parent u) t) : TopExit u t

/-- The token on top at the start of a block, below its phi if it has one. -/
def TopEntry (w : N) (t : Token N) : Prop :=
  (phi w ∧ t = .phi w) ∨ (¬ phi w ∧ w = start ∧ t = .entry) ∨
    (¬ phi w ∧ w ≠ start ∧ TopExit start parent site phi (parent w) t)

/-- The definitions a token stands for, through the operands of the phis. -/
inductive Resolves : Token N → Option D → Prop
  | entry : Resolves .entry none
  | last {u : N} {d : D} (defines : site u = some d) : Resolves (.last u) (some d)
  | phi {u w : N} {t : Token N} {d : Option D} (out : edge u w)
      (top : TopExit start parent site phi u t) (resolves : Resolves t d) : Resolves (.phi w) d

/-- What phi placement and the table of parents guarantee about each other. -/
structure Placement (rank : N → ℕ) (frontier : N → N → Prop) (iterated live : N → Prop) : Prop where
  table : ParentTable edge start parent rank
  source_reachable : ∀ {u w}, edge u w → Reachable edge start u
  /-- An edge leaves the region below `z` only into the frontier of `z`. -/
  frontier_or_above : ∀ {z u w}, edge u w → Above parent start z u →
    frontier z w ∨ Above parent start z (parent w)
  iterated_closed : ∀ {z w}, site z ≠ none ∨ iterated z → frontier z w → iterated w
  /-- Every block of the iterated frontier is downstream of a definition. -/
  iterated_source : ∀ {w}, iterated w → ∃ z, site z ≠ none ∧ TransGen edge z w
  phi_iff : ∀ {w}, phi w ↔ iterated w ∧ live w
  live_back : ∀ {u w}, edge u w → live w → site u = none → live u

end Definitions

variable {edge : N → N → Prop} {start : N} {parent : N → N} {site : N → Option D} {phi : N → Prop}
  {rank : N → ℕ} {frontier : N → N → Prop} {iterated live : N → Prop}
  {b u w z : N} {t : Token N} {d : Option D}

theorem ReachesEntry.of_exit (out : edge u w) (reaches : ReachesExit edge start site u d) :
    ReachesEntry edge start site w d := .inr ⟨u, out, reaches⟩

/-- A block without a definition passes on whatever reaches it. -/
theorem ReachesEntry.exit (reaches : ReachesEntry edge start site w d) (clear : site w = none) :
    ReachesExit edge start site w d := by
  rcases reaches with ⟨rfl, rfl⟩ | ⟨u, out, reaches⟩
  · exact .entry clear
  · exact .pass out clear reaches

theorem topExit_of_clear (clear : site u = none) :
    TopExit start parent site phi u t ↔ TopEntry start parent site phi u t := by
  constructor
  · intro top
    cases top with
    | last defines => exact absurd clear defines
    | phi _ placed => exact .inl ⟨placed, rfl⟩
    | entry _ bare => exact .inr (.inl ⟨bare, rfl, rfl⟩)
    | up _ bare inner above => exact .inr (.inr ⟨bare, inner, above⟩)
  · rintro (⟨placed, rfl⟩ | ⟨bare, rfl, rfl⟩ | ⟨bare, inner, above⟩)
    · exact .phi clear placed
    · exact .entry clear bare
    · exact .up clear bare inner above

theorem topExit_of_site (defines : site u ≠ none) :
    TopExit start parent site phi u t ↔ t = .last u := by
  constructor
  · intro top
    cases top with
    | last _ => rfl
    | phi clear _ => exact absurd clear defines
    | entry clear _ => exact absurd clear defines
    | up clear _ _ _ => exact absurd clear defines
  · rintro rfl
    exact .last defines

theorem topEntry_of_bare (bare : ¬ phi w) (inner : w ≠ start) :
    TopEntry start parent site phi w t ↔ TopExit start parent site phi (parent w) t := by
  simp [TopEntry, bare, inner]

theorem topEntry_start_of_bare (bare : ¬ phi start) :
    TopEntry start parent site phi start t ↔ t = .entry := by
  simp [TopEntry, bare]

namespace Placement

variable (placement : Placement edge start parent site phi rank frontier iterated live)
include placement

theorem target_reachable (out : edge u w) : Reachable edge start w :=
  ReflTransGen.tail (placement.source_reachable out) out

/-- A block on which the top of the stack may change: it defines the variable, is on the iterated
frontier of the definitions, or is the start. -/
private def Marked (start : N) (site : N → Option D) (iterated : N → Prop) (z : N) : Prop :=
  site z ≠ none ∨ iterated z ∨ z = start

/-- Every token seen at the end of a block is the one at the end of the nearest marked block. -/
private theorem topExit_nearest (reached : Reachable edge start u) (above : Above parent start z u)
    (nearest : ∀ y, Above parent start y u → Marked start site iterated y → Above parent start y z) :
    TopExit start parent site phi u t ↔ TopExit start parent site phi z t := by
  induction above with
  | refl => rfl
  | @up u inner above ih =>
    have unmarked : ¬ Marked start site iterated u := fun marked =>
      Above.not_parent placement.table inner reached (above.trans (nearest u .refl marked))
    simp only [Marked, not_or, not_not] at unmarked
    have bare : ¬ phi u := fun placed => unmarked.2.1 (placement.phi_iff.mp placed).1
    rw [topExit_of_clear unmarked.1, topEntry_of_bare bare inner]
    exact ih (placement.table.reachable reached) fun y higher marked => nearest y (.up inner higher) marked

/-- An edge into an unmarked block keeps every marked block above it. -/
private theorem marked_above (out : edge u w) (above : Above parent start z u)
    (marked : Marked start site iterated z) (outside : ¬ iterated w) : Above parent start z (parent w) := by
  rcases placement.frontier_or_above out above with inFrontier | stays
  · rcases marked with defines | inIterated | rfl
    · exact absurd (placement.iterated_closed (.inl defines) inFrontier) outside
    · exact absurd (placement.iterated_closed (.inr inIterated) inFrontier) outside
    · exact Above.of_reachable placement.table (placement.table.reachable (placement.target_reachable out))
  · exact stays

/-- On the way from a marked dominator of `u` to `u`, the walk can only lose it to another marked
block, one that is not above it. -/
private theorem exists_marked_above (reached : Reachable edge start u) (zReached : Reachable edge start z)
    (marked : Marked start site iterated z) (dominates : Dominates edge start z u) :
    ∃ y, Above parent start y u ∧ Marked start site iterated y ∧ (Above parent start y z → y = z) := by
  have along : ∀ n, Reachable edge start n → Avoids edge start z n ∨
      ∃ y, Above parent start y n ∧ Marked start site iterated y ∧ (Above parent start y z → y = z) := by
    intro n walk
    induction walk with
    | refl =>
      by_cases atStart : start = z
      · exact .inr ⟨start, .refl, .inr (.inr rfl), fun _ => atStart⟩
      · exact .inl (.root atStart)
    | @tail n w _ out ih =>
      by_cases atZ : w = z
      · exact .inr ⟨w, .refl, atZ ▸ marked, fun _ => atZ⟩
      rcases ih with avoids | ⟨y, above, yMarked, yAbove⟩
      · exact .inl (avoids.step out atZ)
      by_cases higher : Above parent start w z
      · exact .inl ((higher.dominates placement.table zReached).avoids_of_ne atZ zReached)
      right
      by_cases wMarked : Marked start site iterated w
      · exact ⟨w, .refl, wMarked, fun again => absurd again higher⟩
      · simp only [Marked, not_or, not_not] at wMarked
        exact ⟨y, .up wMarked.2.2 (placement.marked_above out above yMarked wMarked.2.1), yMarked, yAbove⟩
  rcases along u reached with avoids | found
  · exact absurd avoids dominates
  · exact found

/-- Into a block outside the iterated frontier, every predecessor carries the token of the parent. -/
theorem topExit_edge (out : edge u w) (outside : ¬ iterated w) (inner : w ≠ start) :
    TopExit start parent site phi u t ↔ TopExit start parent site phi (parent w) t := by
  have uReached := placement.source_reachable out
  have wReached := placement.target_reachable out
  have upReached := placement.table.reachable wReached
  have root : Marked start site iterated start := .inr (.inr rfl)
  obtain ⟨x, xAbove, xMarked, xNearest⟩ :=
    Above.exists_nearest placement.table (Marked start site iterated) root uReached
  obtain ⟨z, zAbove, zMarked, zNearest⟩ :=
    Above.exists_nearest placement.table (Marked start site iterated) root upReached
  have zReached := zAbove.reachable placement.table upReached
  have other : w ≠ z := by
    rintro rfl
    exact Above.not_parent placement.table inner wReached zAbove
  have dominates : Dominates edge start z u :=
    (Above.dominates placement.table (.up inner zAbove) wReached).of_edge out other
  obtain ⟨y, yAbove, yMarked, notHigher⟩ :=
    placement.exists_marked_above uReached zReached zMarked dominates
  -- the nearest marked block above `u` is above the parent of `w`, and conversely
  obtain rfl : y = z := notHigher (zNearest y (placement.marked_above out yAbove yMarked outside) yMarked)
  have below := xNearest y yAbove yMarked
  have higher := zNearest x (placement.marked_above out xAbove xMarked outside) xMarked
  obtain rfl : x = y := higher.antisymm placement.table below (xAbove.reachable placement.table uReached)
  rw [placement.topExit_nearest uReached xAbove xNearest, placement.topExit_nearest upReached zAbove zNearest]

theorem exists_topExit (reached : Reachable edge start u) : ∃ t, TopExit start parent site phi u t := by
  have toStart := Above.of_reachable placement.table reached
  induction toStart with
  | refl =>
    by_cases clear : site start = none
    · by_cases placed : phi start
      · exact ⟨_, .phi clear placed⟩
      · exact ⟨_, .entry clear placed⟩
    · exact ⟨_, .last clear⟩
  | @up u inner _ ih =>
    by_cases clear : site u = none
    · by_cases placed : phi u
      · exact ⟨_, .phi clear placed⟩
      · obtain ⟨t, above⟩ := ih (placement.table.reachable reached)
        exact ⟨t, .up clear placed inner above⟩
    · exact ⟨_, .last clear⟩

/-- What a token stands for also reaches the block. -/
private def Supplies (edge : N → N → Prop) (start : N) (site : N → Option D) (phi : N → Prop)
    (b : N) : Token N → Prop
  | .entry => ReachesEntry edge start site b none
  | .last z => ∀ d, site z = some d → ReachesEntry edge start site b (some d)
  | .phi z => phi z ∧ ∀ d, ReachesEntry edge start site z d → ReachesEntry edge start site b d

omit placement in
private theorem Supplies.follow (out : edge u w) (clear : site u = none)
    (supplies : Supplies edge start site phi u t) : Supplies edge start site phi w t := by
  have pass : ∀ d, ReachesEntry edge start site u d → ReachesEntry edge start site w d :=
    fun d reaches => .of_exit out (reaches.exit clear)
  cases t with
  | entry => exact pass none supplies
  | last z => exact fun d defines => pass _ (supplies d defines)
  | phi z => exact ⟨supplies.1, fun d reaches => pass d (supplies.2 d reaches)⟩

/-- At a live block the token on top is supplied by a walk free of other definitions. -/
private theorem supplies (reached : Reachable edge start b) (isLive : live b)
    (top : TopEntry start parent site phi b t) : Supplies edge start site phi b t := by
  induction reached generalizing t with
  | refl =>
    rcases top with ⟨placed, rfl⟩ | ⟨-, -, rfl⟩ | ⟨-, inner, -⟩
    · exact ⟨placed, fun _ reaches => reaches⟩
    · exact .inl ⟨rfl, rfl⟩
    · exact absurd rfl inner
  | @tail u w _ out ih =>
    rcases top with ⟨placed, rfl⟩ | ⟨-, rfl, rfl⟩ | ⟨bare, inner, above⟩
    · exact ⟨placed, fun _ reaches => reaches⟩
    · exact .inl ⟨rfl, rfl⟩
    · have outside : ¬ iterated w := fun inIterated => bare (placement.phi_iff.mpr ⟨inIterated, isLive⟩)
      have before := (placement.topExit_edge out outside inner).mpr above
      by_cases clear : site u = none
      · exact (ih (placement.live_back out isLive clear) ((topExit_of_clear clear).mp before)).follow out clear
      · obtain rfl := (topExit_of_site clear).mp before
        exact fun d defines => .of_exit out (.last defines)

/-- Every definition a version resolves to reaches the block that reads it. -/
theorem reaches_of_resolves (reached : Reachable edge start b) (isLive : live b)
    (top : TopEntry start parent site phi b t) (resolves : Resolves edge start parent site phi t d) :
    ReachesEntry edge start site b d := by
  induction resolves generalizing b with
  | entry => exact placement.supplies reached isLive top
  | last defines => exact placement.supplies reached isLive top _ defines
  | @phi u w t d out topU resolves ih =>
    obtain ⟨placed, passes⟩ := placement.supplies reached isLive top
    refine passes d (.of_exit out ?_)
    by_cases clear : site u = none
    · have liveU := placement.live_back out (placement.phi_iff.mp placed).2 clear
      have reaches := ih (placement.source_reachable out) liveU ((topExit_of_clear clear).mp topU)
      exact reaches.exit clear
    · obtain rfl := (topExit_of_site clear).mp topU
      cases resolves with
      | last defines => exact .last defines

omit placement in
/-- Downstream of a block that defines the variable, some definition reaches. -/
theorem exists_reachesEntry (defines : site z ≠ none) (downstream : TransGen edge z w) :
    ∃ s, ReachesEntry edge start site w (some s) := by
  have step : ∀ {u v : N} {s : D}, edge u v → (site u = none → ReachesEntry edge start site u (some s)) →
      ∃ s, ReachesEntry edge start site v (some s) := by
    intro u v s out before
    cases defined : site u with
    | none => exact ⟨s, .of_exit out ((before defined).exit defined)⟩
    | some last => exact ⟨last, .of_exit out (.last defined)⟩
  induction downstream with
  | single out =>
    obtain ⟨s, -⟩ := Option.ne_none_iff_exists.mp defines
    exact step (s := s) out fun clear => absurd clear defines
  | tail _ out ih =>
    obtain ⟨s, reaches⟩ := ih
    exact step out fun _ => reaches

/-- The phi at the start stands for definitions that come back to it. -/
theorem not_phi_start (noReturn : ∀ d, ReachesEntry edge start site start d → d = none) : ¬ phi start := by
  intro placed
  obtain ⟨z, defines, downstream⟩ := placement.iterated_source (placement.phi_iff.mp placed).1
  obtain ⟨s, reaches⟩ : ∃ s, ReachesEntry edge start site start (some s) :=
    exists_reachesEntry defines downstream
  exact Option.some_ne_none s (noReturn _ reaches)

/-- One edge of completeness: what the predecessor's token resolves to, the block's token does. -/
private theorem resolves_edge (noReturn : live start → ∀ d, ReachesEntry edge start site start d → d = none)
    (out : edge u w) (isLive : live w) (reaches : ReachesExit edge start site u d)
    (before : ∀ t, TopExit start parent site phi u t → Resolves edge start parent site phi t d)
    (top : TopEntry start parent site phi w t) : Resolves edge start parent site phi t d := by
  rcases top with ⟨-, rfl⟩ | ⟨-, rfl, rfl⟩ | ⟨bare, inner, above⟩
  · obtain ⟨t, topU⟩ := placement.exists_topExit (placement.source_reachable out)
    exact .phi out topU (before t topU)
  · obtain rfl := noReturn isLive d (.of_exit out reaches)
    exact .entry
  · have outside : ¬ iterated w := fun inIterated => bare (placement.phi_iff.mpr ⟨inIterated, isLive⟩)
    exact before t ((placement.topExit_edge out outside inner).mpr above)

private theorem resolves_of_reachesExit
    (noReturn : live start → ∀ d, ReachesEntry edge start site start d → d = none)
    (reaches : ReachesExit edge start site u d) (isLive : site u = none → live u)
    (top : TopExit start parent site phi u t) : Resolves edge start parent site phi t d := by
  induction reaches generalizing t with
  | entry clear =>
    have bare := placement.not_phi_start (noReturn (isLive clear))
    obtain rfl := (topEntry_start_of_bare bare).mp ((topExit_of_clear clear).mp top)
    exact .entry
  | last defines =>
    obtain rfl := (topExit_of_site (by simp [defines])).mp top
    exact .last defines
  | @pass u w d out clear reaches ih =>
    exact placement.resolves_edge noReturn out (isLive clear) reaches
      (fun t topU => ih (fun clearU => placement.live_back out (isLive clear) clearU) topU)
      ((topExit_of_clear clear).mp top)

/-- At a live block the token on top resolves to exactly the reaching definitions, unless a
definition comes back to the start while the variable is live there. -/
theorem resolves_iff_reaches
    (noReturn : live start → ∀ d, ReachesEntry edge start site start d → d = none)
    (reached : Reachable edge start b) (isLive : live b) (top : TopEntry start parent site phi b t) :
    Resolves edge start parent site phi t d ↔ ReachesEntry edge start site b d := by
  refine ⟨placement.reaches_of_resolves reached isLive top, ?_⟩
  rintro (⟨rfl, rfl⟩ | ⟨u, out, reaches⟩)
  · obtain rfl := (topEntry_start_of_bare (placement.not_phi_start (noReturn isLive))).mp top
    exact .entry
  · exact placement.resolves_edge noReturn out isLive reaches
      (fun t topU => placement.resolves_of_reachesExit noReturn reaches
        (fun clear => placement.live_back out isLive clear) topU) top

omit placement in
/-- A phi at the start hides the entry value from every block. -/
private theorem topExit_ne_entry (placed : phi start) (top : TopExit start parent site phi u t) :
    t ≠ .entry := by
  induction top with
  | last _ => simp
  | phi _ _ => simp
  | entry _ bare => exact absurd placed bare
  | up _ _ _ _ ih => exact ih

omit placement in
private theorem topEntry_ne_entry (placed : phi start) (top : TopEntry start parent site phi w t) :
    t ≠ .entry := by
  rcases top with ⟨-, rfl⟩ | ⟨bare, rfl, -⟩ | ⟨-, -, above⟩
  · simp
  · exact absurd placed bare
  · exact topExit_ne_entry placed above

omit placement in
private theorem not_resolves_none (placed : phi start) (notEntry : t ≠ .entry) :
    ¬ Resolves edge start parent site phi t none := by
  intro resolves
  generalize same : (none : Option D) = d at resolves
  induction resolves with
  | entry => exact notEntry rfl
  | last _ => simp at same
  | phi _ top _ ih => exact ih (topExit_ne_entry placed top) same

/-- Off the iterated frontier, the start is reached only by its own definitions. -/
private theorem site_start_ne_none (outside : ¬ iterated start) {s : D}
    (reaches : ReachesEntry edge start site start (some s)) : site start ≠ none := by
  intro clear
  have other : ∀ {y}, site y ≠ none ∨ iterated y → y ≠ start := by
    rintro y (defines | inIterated) rfl
    · exact defines clear
    · exact outside inIterated
  have next : ∀ {u w y}, edge u w → Above parent start y u → site y ≠ none ∨ iterated y →
      iterated w ∨ (w ≠ start ∧ Above parent start y w) := by
    intro u w y out above marked
    rcases placement.frontier_or_above out above with inFrontier | stays
    · exact .inl (placement.iterated_closed marked inFrontier)
    · by_cases atStart : w = start
      · subst atStart
        rw [placement.table.root] at stays
        exact absurd stays.at_start (other marked)
      · exact .inr ⟨atStart, .up atStart stays⟩
  have carried : ∀ {u d}, ReachesExit edge start site u d → d ≠ none →
      ∃ y, Above parent start y u ∧ (site y ≠ none ∨ iterated y) := by
    intro u d reaches isDef
    induction reaches with
    | entry _ => exact absurd rfl isDef
    | @last u d defines => exact ⟨u, .refl, .inl (by simp [defines])⟩
    | @pass u w d out _ _ ih =>
      obtain ⟨y, above, marked⟩ := ih isDef
      rcases next out above marked with inIterated | ⟨-, stays⟩
      · exact ⟨w, .refl, .inr inIterated⟩
      · exact ⟨y, stays, marked⟩
  rcases reaches with ⟨-, isEntry⟩ | ⟨u, out, reaches⟩
  · simp at isEntry
  · obtain ⟨y, above, marked⟩ := carried reaches (by simp)
    rcases next out above marked with inIterated | ⟨notStart, -⟩
    · exact outside inIterated
    · exact notStart rfl

/-- A definition that comes back to a live start is missed, or hides the entry value, at every use
that makes the start live. -/
theorem live_start_unresolved (isLive : live start) {s : D}
    (reaches : ReachesEntry edge start site start (some s))
    (walk : ReflTransGen (fun a c => edge a c ∧ site a = none) start w)
    (top : TopEntry start parent site phi w t) :
    ∃ d, ReachesEntry edge start site w d ∧ ¬ Resolves edge start parent site phi t d := by
  by_cases placed : phi start
  · refine ⟨none, ?_, not_resolves_none placed (topEntry_ne_entry placed top)⟩
    clear top
    induction walk with
    | refl => exact .inl ⟨rfl, rfl⟩
    | tail _ out ih => exact .of_exit out.1 (ih.exit out.2)
  · have outside : ¬ iterated start := fun inIterated => placed (placement.phi_iff.mpr ⟨inIterated, isLive⟩)
    have defines := placement.site_start_ne_none outside reaches
    -- the start defines the variable, so a walk free of definitions has not left it
    rcases ReflTransGen.cases_head walk with rfl | ⟨_, out, -⟩
    · obtain rfl := (topEntry_start_of_bare placed).mp top
      refine ⟨some s, reaches, fun resolves => ?_⟩
      cases resolves
    · exact absurd out.2 defines

end Placement

end Ctadl.Flowgraph
