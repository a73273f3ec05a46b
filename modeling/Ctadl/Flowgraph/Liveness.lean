import Ctadl.Flowgraph.Resolution

/-! # Phis where a variable is live

Two placements of phis for one variable: on the whole iterated frontier of its definitions, and on the
part of it where the variable is live. Wherever the variable is live the renaming walk has the same token
on top under both (`Placement.topEntry_of_live`), so leaving out the other phis changes what no use reads. A
phi on the live part is read by a use: every walk from it to the use carries its token along, and where
another phi stands in the way that phi has it as an operand (`Placement.exists_leads`).
-/

namespace Ctadl.Flowgraph

open Relation

variable {N D : Type*} {edge : N → N → Prop} {start : N} {parent parent' : N → N} {site : N → Option D}
  {phi phi' iterated iterated' live live' : N → Prop} {rank rank' : N → ℕ} {frontier frontier' : N → N → Prop}
  {b u w y : N} {s t : Token N}

/-- A phi has the token on top at the end of a predecessor as an operand. -/
def Operand (edge : N → N → Prop) (start : N) (parent : N → N) (site : N → Option D) (phi : N → Prop)
    (s t : Token N) : Prop :=
  ∃ u w, s = .phi w ∧ edge u w ∧ TopExit start parent site phi u t

namespace Placement

/-- An iterated frontier from which the start can be reached holds the start. -/
theorem iterated_start (placement : Placement edge start parent site phi rank frontier iterated live)
    (isIterated : iterated y) (walk : ReflTransGen edge y start) : iterated start := by
  have carried : ∀ n, ReflTransGen edge y n → ∃ z, Above parent start z n ∧ iterated z := by
    intro n walk
    induction walk with
    | refl => exact ⟨y, .refl, isIterated⟩
    | @tail n m _ out ih =>
      obtain ⟨z, above, inIterated⟩ := ih
      rcases placement.frontier_or_above out above with inFrontier | stays
      · exact ⟨m, .refl, placement.iterated_closed (.inr inIterated) inFrontier⟩
      · by_cases atStart : m = start
        · subst atStart
          rw [placement.table.root] at stays
          exact ⟨z, stays, inIterated⟩
        · exact ⟨z, .up atStart stays, inIterated⟩
  obtain ⟨z, above, inIterated⟩ := carried start walk
  exact above.at_start ▸ inIterated

/-- Where the variable is live, a placement with more phis on the same iterated frontier has the same
token on top. -/
theorem topEntry_of_live (placement : Placement edge start parent site phi rank frontier iterated live)
    (wider : Placement edge start parent' site phi' rank' frontier' iterated' live')
    (same : ∀ w, iterated' w → iterated w) (covers : ∀ w, phi w → phi' w) (reached : Reachable edge start b)
    (isLive : live b) (top : TopEntry start parent site phi b t) : TopEntry start parent' site phi' b t := by
  have bareOf : ∀ {w}, live w → ¬ phi w → ¬ iterated' w := fun isLive bare inIterated =>
    bare (placement.phi_iff.mpr ⟨same _ inIterated, isLive⟩)
  induction reached generalizing t with
  | refl =>
    rcases top with ⟨placed, rfl⟩ | ⟨bare, -, rfl⟩ | ⟨-, inner, -⟩
    · exact .inl ⟨covers _ placed, rfl⟩
    · exact .inr (.inl ⟨fun placed => bareOf isLive bare (wider.phi_iff.mp placed).1, rfl, rfl⟩)
    · exact absurd rfl inner
  | @tail u w _ out ih =>
    rcases top with ⟨placed, rfl⟩ | ⟨bare, rfl, rfl⟩ | ⟨bare, inner, above⟩
    · exact .inl ⟨covers _ placed, rfl⟩
    · exact .inr (.inl ⟨fun placed => bareOf isLive bare (wider.phi_iff.mp placed).1, rfl, rfl⟩)
    · have outside := bareOf isLive bare
      have notIterated : ¬ iterated w := fun inIterated => bare (placement.phi_iff.mpr ⟨inIterated, isLive⟩)
      have before := (placement.topExit_edge out notIterated inner).mpr above
      have there : TopExit start parent' site phi' u t := by
        by_cases clear : site u = none
        · rw [topExit_of_clear clear] at before ⊢
          exact ih (placement.live_back out isLive clear) before
        · rw [topExit_of_site clear] at before ⊢
          exact before
      exact .inr (.inr ⟨fun placed => outside (wider.phi_iff.mp placed).1, inner, (wider.topExit_edge out outside inner).mp there⟩)

theorem exists_topEntry (placement : Placement edge start parent site phi rank frontier iterated live)
    (reached : Reachable edge start b) : ∃ t, TopEntry start parent site phi b t := by
  by_cases placed : phi b
  · exact ⟨_, .inl ⟨placed, rfl⟩⟩
  by_cases atStart : b = start
  · exact ⟨_, .inr (.inl ⟨placed, atStart, rfl⟩)⟩
  · obtain ⟨t, above⟩ := placement.exists_topExit (placement.table.reachable reached)
    exact ⟨t, .inr (.inr ⟨placed, atStart, above⟩)⟩

/-- What is on top at a live block that a phi reaches without passing a definition leads to the phi. -/
theorem exists_leads (placement : Placement edge start parent site phi rank frontier iterated live) (placed : phi y)
    (walk : ReflTransGen (fun a c => edge a c ∧ site a = none) y b) (isLive : live b) :
    ∃ t, TopEntry start parent site phi b t ∧ ReflTransGen (Operand edge start parent site phi) t (.phi y) := by
  induction walk with
  | refl => exact ⟨_, .inl ⟨placed, rfl⟩, .refl⟩
  | @tail n m walk step ih =>
    obtain ⟨out, clear⟩ := step
    obtain ⟨t, top, leads⟩ := ih (placement.live_back out isLive clear)
    have atEnd := (topExit_of_clear clear).mpr top
    by_cases here : phi m
    · exact ⟨_, .inl ⟨here, rfl⟩, .head ⟨n, m, rfl, out, atEnd⟩ leads⟩
    have outside : ¬ iterated m := fun inIterated => here (placement.phi_iff.mpr ⟨inIterated, isLive⟩)
    have inner : m ≠ start := by
      rintro rfl
      have onward := (ReflTransGen.mono (fun _ _ step => step.1) _ _ walk).tail out
      exact outside (placement.iterated_start (placement.phi_iff.mp placed).1 onward)
    exact ⟨t, .inr (.inr ⟨here, inner, (placement.topExit_edge out outside inner).mp atEnd⟩), leads⟩

end Placement

end Ctadl.Flowgraph
