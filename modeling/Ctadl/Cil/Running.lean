import Ctadl.Cil.Effects

/-! # Running effects

What an effect does with the values it reads is a parameter, the same over positions and over variables. Locals and
arguments lie where pointers reach them, so they are a part of the world; every other slot is a cell of its own.

A renaming of the slots keeps every run, as long as no slot whose value is still wanted shares its name with one that is
written.
-/

namespace Ctadl.Cil

/-- A variable that an address can be taken of. -/
inductive FrameVar
  | arg (n : ℕ)
  | loc (n : ℕ)
deriving DecidableEq, Repr

/-- Slots, some of which are variables of the frame. -/
class FrameSlot (S : Type) where
  home : S → Option FrameVar

instance : FrameSlot Slot where
  home
    | .arg n => some (.arg n)
    | .loc n => some (.loc n)
    | _ => none

instance : FrameSlot Var where
  home
    | .arg n => some (.arg n)
    | .loc n => some (.loc n)
    | _ => none

/-- What effects do: from the values read and the world, a value for every slot written, and the world after. -/
structure Semantics (Value World : Type) where
  get : FrameVar → World → Value
  set : FrameVar → Value → World → World
  exec : Effect Unit → List Value → World → List Value × World
  exec_length : ∀ e values world, (exec e values world).1.length = e.writes.length
  copies : ∀ value world, exec (.assign () [()] .copy) [value] world = ([value], world)

/-- The cells and the world. -/
structure State (S Value World : Type) where
  cells : S → Value
  world : World

variable {S T Value World : Type}

namespace Semantics

variable [DecidableEq S] [FrameSlot S] (sem : Semantics Value World)

def read (st : State S Value World) (s : S) : Value :=
  match FrameSlot.home s with
  | some v => sem.get v st.world
  | none => st.cells s

def write (st : State S Value World) (s : S) (value : Value) : State S Value World :=
  match FrameSlot.home s with
  | some v => { st with world := sem.set v value st.world }
  | none => { st with cells := Function.update st.cells s value }

def writeAll (st : State S Value World) (written : List (S × Value)) : State S Value World :=
  written.foldl (fun st w => sem.write st w.1 w.2) st

/-- Runs one effect: it reads everything before it writes anything. -/
def step (st : State S Value World) (e : Effect S) : State S Value World :=
  let result := sem.exec e.shape (e.reads.map (sem.read st)) st.world
  sem.writeAll { st with world := result.2 } (e.writes.zip result.1)

def run (st : State S Value World) (effects : List (Effect S)) : State S Value World := effects.foldl sem.step st

end Semantics

namespace Semantics

variable [DecidableEq S] [FrameSlot S] {sem : Semantics Value World} {st : State S Value World}

/-- A copy of one cell to another. -/
theorem step_copy {dst src : S} (target : FrameSlot.home dst = none) (source : FrameSlot.home src = none) :
    sem.step st (.assign dst [src] .copy) = ⟨Function.update st.cells dst (st.cells src), st.world⟩ := by
  have read : sem.read st src = st.cells src := by
    unfold read
    rw [source]
  have copied : sem.exec (Effect.shape (.assign dst [src] .copy)) ((Effect.reads (.assign dst [src] .copy)).map (sem.read st))
      st.world = ([st.cells src], st.world) := by
    rw [← read]
    exact sem.copies _ _
  unfold step
  rw [copied]
  change sem.write st dst (st.cells src) = _
  unfold write
  rw [target]

/-- An effect changes no cell it does not write. -/
theorem step_cells {e : Effect S} {s : S}
    (unwritten : s ∉ e.writes) : (sem.step st e).cells s = st.cells s := by
  have kept : ∀ (written : List (S × Value)) (st : State S Value World), (∀ w ∈ written, w.1 ≠ s) →
      (sem.writeAll st written).cells s = st.cells s := by
    intro written
    induction written with
    | nil => exact fun _ _ => rfl
    | cons w written ih =>
      intro st others
      have rest := ih (sem.write st w.1 w.2) fun w' later => others w' (List.mem_cons_of_mem _ later)
      refine rest.trans ?_
      unfold write
      split
      · rfl
      · exact Function.update_of_ne (others w List.mem_cons_self).symm _ _
  unfold step
  refine (kept _ _ fun w inside same => unwritten ?_).trans rfl
  rw [← same]
  exact (List.of_mem_zip inside).1

theorem run_cells {effects : List (Effect S)} {s : S}
    (unwritten : ∀ e ∈ effects, s ∉ e.writes) : (sem.run st effects).cells s = st.cells s := by
  induction effects generalizing st with
  | nil => rfl
  | cons e effects ih =>
    rw [run, List.foldl_cons]
    exact (ih fun e' later => unwritten e' (List.mem_cons_of_mem _ later)).trans (step_cells (unwritten e List.mem_cons_self))

end Semantics

section Renaming

variable {f : S → T} {live live' : S → Prop} {st : State S Value World} {st' : State T Value World}

/-- The world is the same, and so is every live cell under its other name. -/
structure Renamed (f : S → T) (live : S → Prop) (st : State S Value World) (st' : State T Value World) : Prop where
  world : st'.world = st.world
  cells : ∀ s, live s → st'.cells (f s) = st.cells s

variable [FrameSlot S] [FrameSlot T] {sem : Semantics Value World}

theorem Renamed.read (renamed : Renamed f live st st') {s : S} (home : FrameSlot.home (f s) = FrameSlot.home s)
    (wanted : live s) : sem.read st' (f s) = sem.read st s := by
  unfold Semantics.read
  rw [home]
  cases FrameSlot.home s with
  | some v => exact congrArg (sem.get v) renamed.world
  | none => exact renamed.cells s wanted

variable [DecidableEq S] [DecidableEq T]

/-- A slot that is written is live from then on, and what shares its name is not. -/
theorem Renamed.write (renamed : Renamed f live st st') {s : S} (home : FrameSlot.home (f s) = FrameSlot.home s)
    (kept : ∀ s', live' s' → s' ≠ s → live s') (framed : ∀ v, FrameSlot.home s = some v → live' s → live s)
    (apart : ∀ s', live' s' → s' ≠ s → f s' ≠ f s) (value : Value) :
    Renamed f live' (sem.write st s value) (sem.write st' (f s) value) := by
  unfold Semantics.write
  rw [home]
  cases place : FrameSlot.home s with
  | some v =>
    refine ⟨congrArg (sem.set v value) renamed.world, fun s' wanted => renamed.cells s' ?_⟩
    rcases eq_or_ne s' s with rfl | other
    · exact framed v place wanted
    · exact kept s' wanted other
  | none =>
    refine ⟨renamed.world, fun s' wanted => ?_⟩
    dsimp only
    rcases eq_or_ne s' s with rfl | other
    · rw [Function.update_self, Function.update_self]
    · rw [Function.update_of_ne other, Function.update_of_ne (apart s' wanted other)]
      exact renamed.cells s' (kept s' wanted other)

theorem Renamed.writeAll {slots : List S} {values : List Value} (enough : values.length = slots.length)
    (renamed : Renamed f live st st') (home : ∀ s ∈ slots, FrameSlot.home (f s) = FrameSlot.home s)
    (kept : ∀ s', live' s' → s' ∉ slots → live s') (framed : ∀ s v, FrameSlot.home s = some v → live' s → live s)
    (apart : ∀ s', live' s' → ∀ s ∈ slots, s' ≠ s → f s' ≠ f s) :
    Renamed f live' (sem.writeAll st (slots.zip values)) (sem.writeAll st' ((slots.map f).zip values)) := by
  induction slots generalizing values live st st' with
  | nil => exact ⟨renamed.world, fun s' wanted => renamed.cells s' (kept s' wanted (List.not_mem_nil))⟩
  | cons s slots ih =>
    cases values with
    | nil => exact nomatch enough
    | cons value values =>
      have first : Renamed f (fun s' => live' s' ∧ s' ∉ slots ∨ live s' ∧ live' s') (sem.write st s value)
          (sem.write st' (f s) value) := by
        apply renamed.write (home s List.mem_cons_self)
        · rintro s' (⟨wanted, later⟩ | ⟨wanted, -⟩) other
          · exact kept s' wanted (by simp [other, later])
          · exact wanted
        · rintro v place (⟨wanted, -⟩ | ⟨wanted, -⟩)
          · exact framed s v place wanted
          · exact wanted
        · rintro s' (⟨wanted, -⟩ | ⟨-, wanted⟩) other
          · exact apart s' wanted s List.mem_cons_self other
          · exact apart s' wanted s List.mem_cons_self other
      apply ih (Nat.succ.inj enough) first
      · exact fun s' inside => home s' (List.mem_cons_of_mem _ inside)
      · exact fun s' wanted later => .inl ⟨wanted, later⟩
      · exact fun s' v place wanted => .inr ⟨framed s' v place wanted, wanted⟩
      · exact fun s' wanted s'' inside => apart s' wanted s'' (List.mem_cons_of_mem _ inside)

/-- One effect, and its other name. -/
theorem Renamed.step (renamed : Renamed f live st st') {e : Effect S}
    (home : ∀ s, FrameSlot.home (f s) = FrameSlot.home s) (reads : ∀ s ∈ e.reads, live s)
    (kept : ∀ s', live' s' → s' ∉ e.writes → live s') (framed : ∀ s v, FrameSlot.home s = some v → live' s → live s)
    (apart : ∀ s', live' s' → ∀ s ∈ e.writes, s' ≠ s → f s' ≠ f s) :
    Renamed f live' (sem.step st e) (sem.step st' (e.map f)) := by
  have values : (e.map f).reads.map (sem.read st') = e.reads.map (sem.read st) := by
    rw [Effect.reads_map, List.map_map]
    exact List.map_congr_left fun s inside => renamed.read (home s) (reads s inside)
  unfold Semantics.step
  rw [Effect.shape_map, values, renamed.world, Effect.writes_map]
  have enough : (sem.exec e.shape (e.reads.map (sem.read st)) st.world).1.length = e.writes.length := by
    rw [sem.exec_length, Effect.shape, Effect.writes_map, List.length_map]
  have ran : Renamed f live { st with world := (sem.exec e.shape (e.reads.map (sem.read st)) st.world).2 }
      { st' with world := (sem.exec e.shape (e.reads.map (sem.read st)) st.world).2 } := ⟨rfl, renamed.cells⟩
  apply ran.writeAll enough
  · exact fun s _ => home s
  · exact kept
  · exact framed
  · exact apart

end Renaming

end Ctadl.Cil
