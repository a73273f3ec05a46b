import Mathlib.Data.List.Nodup
import Mathlib.Data.Set.Lattice

/-! # Moves in order and moves at once

A machine has variables that hold labels, and objects with fields on a heap. A move reads its sources and writes
one place. `run` executes moves one behind the other; `parallel` reads everything before it writes anything. The
two agree when no move changes what a later one reads (`run_eq_parallel`), and values that an earlier move would
overwrite may be read from copies instead (`run_saved`). What an object is stays open: `Objects` says how its fields
are read and written.
-/

namespace Ctadl.Moves

variable {V F O L H : Type}

/-- The labels behind a field of an object, what a store leaves behind, and the labels of a named object. -/
structure Objects (L F O H : Type) where
  load : H → Set L → F → Set L
  store : H → Set L → F → Set L → H
  object : O → Set L

@[ext]
structure State (V L H : Type) where
  env : V → Set L
  heap : H

inductive Source (V F O : Type) where
  | var (v : V)
  | field (v : V) (f : F)
  | object (o : O)
deriving DecidableEq, Repr

/-- A variable, a field of the object in a variable, or a field of a named object. -/
inductive Place (V F O : Type) where
  | var (v : V)
  | field (v : V) (f : F)
  | objectField (o : O) (f : F)
deriving DecidableEq, Repr

structure Move (V F O : Type) where
  dest : Place V F O
  sources : List (Source V F O)
deriving DecidableEq, Repr

/-- A move whose sources have been read. -/
inductive Write (V F L : Type) where
  | var (v : V) (labels : Set L)
  | field (object : Set L) (f : F) (labels : Set L)

namespace Objects

variable (m : Objects L F O H)

def read (s : State V L H) : Source V F O → Set L
  | .var v => s.env v
  | .field v f => m.load s.heap (s.env v) f
  | .object o => m.object o

/-- The labels of several sources. -/
def readAll (s : State V L H) (sources : List (Source V F O)) : Set L :=
  {label | ∃ source ∈ sources, label ∈ m.read s source}

@[simp] theorem readAll_nil (s : State V L H) : m.readAll s ([] : List (Source V F O)) = ∅ := by
  apply Set.eq_empty_of_forall_notMem
  rintro label ⟨source, member, -⟩
  exact List.not_mem_nil member

@[simp] theorem readAll_singleton (s : State V L H) (source : Source V F O) :
    m.readAll s [source] = m.read s source := by
  apply Set.ext
  intro label
  constructor
  · rintro ⟨other, member, inside⟩
    exact List.mem_singleton.mp member ▸ inside
  · intro inside
    exact ⟨source, List.mem_singleton_self source, inside⟩

def resolve (s : State V L H) (move : Move V F O) : Write V F L :=
  match move.dest with
  | .var v => .var v (m.readAll s move.sources)
  | .field v f => .field (s.env v) f (m.readAll s move.sources)
  | .objectField o f => .field (m.object o) f (m.readAll s move.sources)

end Objects

section Run

variable [DecidableEq V] (m : Objects L F O H)

def State.set (s : State V L H) (v : V) (labels : Set L) : State V L H :=
  { s with env := Function.update s.env v labels }

@[simp] theorem State.set_heap (s : State V L H) (v : V) (labels : Set L) : (s.set v labels).heap = s.heap := rfl

@[simp] theorem State.set_env_same (s : State V L H) (v : V) (labels : Set L) : (s.set v labels).env v = labels :=
  Function.update_self ..

theorem State.set_env_ne (s : State V L H) {v w : V} (labels : Set L) (ne : w ≠ v) :
    (s.set v labels).env w = s.env w :=
  Function.update_of_ne ne ..

namespace Objects

def put (s : State V L H) : Write V F L → State V L H
  | .var v labels => s.set v labels
  | .field object f labels => { s with heap := m.store s.heap object f labels }

def step (s : State V L H) (move : Move V F O) : State V L H := m.put s (m.resolve s move)

/-- The moves one behind the other. -/
def run (s : State V L H) (moves : List (Move V F O)) : State V L H := moves.foldl m.step s

/-- The moves at once: everything is read in the first state. -/
def parallel (s : State V L H) (moves : List (Move V F O)) : State V L H := (moves.map (m.resolve s)).foldl m.put s

@[simp] theorem run_nil (s : State V L H) : m.run s ([] : List (Move V F O)) = s := rfl

theorem run_cons (s : State V L H) (move : Move V F O) (moves : List (Move V F O)) :
    m.run s (move :: moves) = m.run (m.step s move) moves := rfl

theorem run_append (s : State V L H) (first second : List (Move V F O)) :
    m.run s (first ++ second) = m.run (m.run s first) second :=
  List.foldl_append ..

/-- One move alone reads before it writes. -/
theorem parallel_singleton (s : State V L H) (move : Move V F O) : m.parallel s [move] = m.run s [move] := rfl

theorem step_var (s : State V L H) (v : V) (sources : List (Source V F O)) :
    m.step s ⟨.var v, sources⟩ = s.set v (m.readAll s sources) := rfl

/-! ## Moves that leave each other alone -/

/-- The first move does not change what the second reads. -/
def Keeps (first second : Move V F O) : Prop :=
  ∀ s : State V L H, m.resolve (m.step s first) second = m.resolve s second

theorem run_eq_parallel (s : State V L H) {moves : List (Move V F O)} (keeps : moves.Pairwise m.Keeps) :
    m.run s moves = m.parallel s moves := by
  induction moves generalizing s with
  | nil => rfl
  | cons first moves ih =>
    have unchanged : moves.map (m.resolve (m.step s first)) = moves.map (m.resolve s) := by
      apply List.map_congr_left
      intro second member
      exact (List.pairwise_cons.mp keeps).1 second member s
    rw [run_cons, ih _ (List.pairwise_cons.mp keeps).2, parallel, unchanged]
    rfl

end Objects

/-- A source that does not change when `v` does. -/
def Source.spares (v : V) : Source V F O → Prop
  | .var w | .field w _ => w ≠ v
  | .object _ => True

namespace Objects

theorem read_set_of_spares (s : State V L H) {v : V} (labels : Set L) {source : Source V F O}
    (spared : source.spares v) : m.read (s.set v labels) source = m.read s source := by
  cases source with
  | var w => exact s.set_env_ne labels spared
  | field w f => exact congrArg (m.load s.heap · f) (s.set_env_ne labels spared)
  | object o => rfl

omit [DecidableEq V] in
theorem readAll_congr (s t : State V L H) {sources : List (Source V F O)}
    (same : ∀ source ∈ sources, m.read s source = m.read t source) : m.readAll s sources = m.readAll t sources := by
  apply Set.ext
  intro label
  constructor
  · rintro ⟨source, member, inside⟩
    exact ⟨source, member, same source member ▸ inside⟩
  · rintro ⟨source, member, inside⟩
    exact ⟨source, member, same source member ▸ inside⟩

theorem keeps_of_spares {v w : V} {first second : List (Source V F O)}
    (spared : ∀ source ∈ second, source.spares v) :
    m.Keeps (⟨.var v, first⟩ : Move V F O) ⟨.var w, second⟩ := by
  intro s
  have same : m.readAll (m.step s ⟨.var v, first⟩) second = m.readAll s second :=
    m.readAll_congr _ _ fun source member => m.read_set_of_spares s _ (spared source member)
  exact congrArg (Write.var w) same

/-- A variable that gets the labels of all its sources may be one of them: a second move from these sources
reads the same labels. Only the object behind a field may not change. -/
theorem keeps_of_same {v w : V} {sources : List (Source V F O)} (spared : ∀ f : F, .field v f ∉ sources) :
    m.Keeps (⟨.var v, sources⟩ : Move V F O) ⟨.var w, sources⟩ := by
  intro s
  have others : ∀ source ∈ sources, source ≠ .var v →
      m.read (m.step s ⟨.var v, sources⟩) source = m.read s source := by
    intro source member other
    apply m.read_set_of_spares
    cases source with
    | var u => exact fun same => other (congrArg Source.var same)
    | field u f => exact fun same => spared f (same ▸ member)
    | object o => trivial
  have same : m.readAll (m.step s ⟨.var v, sources⟩) sources = m.readAll s sources := by
    apply Set.ext
    intro label
    constructor
    · rintro ⟨source, member, inside⟩
      by_cases own : source = .var v
      · subst own
        rw [step_var] at inside
        simpa only [read, State.set_env_same] using inside
      · exact ⟨source, member, others source member own ▸ inside⟩
    · rintro ⟨source, member, inside⟩
      refine ⟨source, member, ?_⟩
      by_cases own : source = .var v
      · subst own
        rw [step_var]
        simpa only [read, State.set_env_same] using ⟨.var v, member, inside⟩
      · exact (others source member own).symm ▸ inside
  exact congrArg (Write.var w) same

/-- Several variables get the labels of the same sources. -/
theorem run_same (s : State V L H) {dests : List V} {sources : List (Source V F O)}
    (spared : ∀ v ∈ dests.dropLast, ∀ f : F, .field v f ∉ sources) :
    m.run s (dests.map fun v => ⟨.var v, sources⟩) = m.parallel s (dests.map fun v => ⟨.var v, sources⟩) := by
  apply m.run_eq_parallel
  induction dests with
  | nil => exact List.Pairwise.nil
  | cons v dests ih =>
    cases dests with
    | nil => exact List.pairwise_singleton _ _
    | cons w dests =>
      rw [List.dropLast_cons_cons] at spared
      rw [List.map_cons]
      apply List.Pairwise.cons
      · intro later member
        obtain ⟨u, -, rfl⟩ := List.mem_map.mp member
        exact m.keeps_of_same (spared v List.mem_cons_self)
      · exact ih fun u inside => spared u (List.mem_cons_of_mem _ inside)

/-- Several variables that get the labels of the same sources hold them. -/
theorem parallel_same_env (s : State V L H) {dests : List V} (sources : List (Source V F O)) {v : V}
    (member : v ∈ dests) :
    (m.parallel s (dests.map fun w => ⟨.var w, sources⟩)).env v = m.readAll s sources := by
  have all : ∀ t : State V L H, t.env v = m.readAll s sources ∨ v ∈ dests →
      ((dests.map fun w => (Write.var w (m.readAll s sources) : Write V F L)).foldl m.put t).env v =
        m.readAll s sources := by
    clear member
    induction dests with
    | nil =>
      intro t known
      exact known.resolve_right List.not_mem_nil
    | cons w dests ih =>
      intro t known
      rw [List.map_cons, List.foldl_cons]
      apply ih
      rcases known with known | inside
      · refine .inl ?_
        by_cases same : v = w
        · subst same
          exact t.set_env_same v _
        · exact (t.set_env_ne _ same).trans known
      · rcases List.mem_cons.mp inside with rfl | later
        · exact .inl (t.set_env_same v _)
        · exact .inr later
  rw [parallel, List.map_map]
  exact all s (.inr member)

/-- The first variable is the object whose field the second move reads: with an open meaning of fields the
second move may read anything. -/
theorem run_clobbered {v w : V} {f : F} (s : State V L H) :
    (m.run s [⟨.var v, [.field v f]⟩, (⟨.var w, [.field v f]⟩ : Move V F O)]).env w =
      m.load s.heap (m.load s.heap (s.env v) f) f := by
  rw [run_cons, run_cons, step_var, step_var]
  simp only [run_nil, readAll_singleton, read, State.set_env_same, State.set_heap]

end Objects

/-! ## Temporaries -/

/-- Two states that differ at temporaries only. -/
structure Agrees (temps : Set V) (s t : State V L H) : Prop where
  env : ∀ v ∉ temps, s.env v = t.env v
  heap : s.heap = t.heap

namespace Agrees

variable {temps : Set V} {s t u : State V L H}

omit [DecidableEq V] in
theorem refl (s : State V L H) : Agrees temps s s := ⟨fun _ _ => rfl, rfl⟩

omit [DecidableEq V] in
theorem trans (first : Agrees temps s t) (second : Agrees temps t u) : Agrees temps s u :=
  ⟨fun v outside => (first.env v outside).trans (second.env v outside), first.heap.trans second.heap⟩

theorem put (agrees : Agrees temps s t) (write : Write V F L) : Agrees temps (m.put s write) (m.put t write) := by
  cases write with
  | var v labels =>
    refine ⟨fun w outside => ?_, agrees.heap⟩
    simp only [Objects.put, State.set, Function.update_apply, agrees.env w outside]
  | field object f labels =>
    refine ⟨agrees.env, ?_⟩
    simp only [Objects.put, agrees.heap]

theorem foldl_put (agrees : Agrees temps s t) (writes : List (Write V F L)) :
    Agrees temps (writes.foldl m.put s) (writes.foldl m.put t) := by
  induction writes generalizing s t with
  | nil => exact agrees
  | cons write writes ih => exact ih (agrees.put m write)

/-- Setting a temporary shows nowhere else. -/
theorem set (v : V) (labels : Set L) (inside : v ∈ temps) : Agrees temps (s.set v labels) s := by
  refine ⟨fun w outside => s.set_env_ne labels ?_, rfl⟩
  rintro rfl
  exact outside inside

end Agrees

namespace Objects

/-- A variable that no move writes keeps its labels. -/
theorem run_env_of_untouched (s : State V L H) {moves : List (Move V F O)} {w : V}
    (untouched : ∀ move ∈ moves, move.dest ≠ .var w) : (m.run s moves).env w = s.env w := by
  induction moves generalizing s with
  | nil => rfl
  | cons move moves ih =>
    rw [run_cons, ih _ fun later member => untouched later (List.mem_cons_of_mem _ member)]
    obtain ⟨dest, sources⟩ := move
    cases dest with
    | field v f => rfl
    | objectField o f => rfl
    | var v =>
      have ne : w ≠ v := fun same => untouched _ List.mem_cons_self (congrArg Place.var same.symm)
      exact s.set_env_ne _ ne

variable {ι : Type} (var temp : ι → V)

/-- Copies among a family of variables: each pair is a destination and its source. -/
def copies (pairs : List (ι × ι)) : List (Move V F O) := pairs.map fun pair => ⟨.var (var pair.1), [.var (var pair.2)]⟩

/-- The copies of some variables in their temporaries. -/
def saves (saved : List ι) : List (Move V F O) := saved.map fun i => ⟨.var (temp i), [.var (var i)]⟩

/-- The copies again, from the temporaries of the saved variables. -/
def copiesFrom [DecidableEq ι] (saved : List ι) (pairs : List (ι × ι)) : List (Move V F O) :=
  pairs.map fun pair => ⟨.var (var pair.1), [.var (if pair.2 ∈ saved then temp pair.2 else var pair.2)]⟩

variable {var temp} {temps : Set V} {saved : List ι} {pairs : List (ι × ι)}

theorem run_saves_agrees (s : State V L H) (temporary : ∀ i, temp i ∈ temps) :
    Agrees temps (m.run s (saves var temp saved : List (Move V F O))) s := by
  induction saved generalizing s with
  | nil => exact .refl s
  | cons i saved ih => exact (ih (m.step s ⟨.var (temp i), [.var (var i)]⟩)).trans (.set (temp i) _ (temporary i))

theorem run_saves_env (s : State V L H) (temporary : ∀ i, temp i ∈ temps) (apart : ∀ i, var i ∉ temps)
    (injective : Function.Injective temp) {i : ι} (member : i ∈ saved) :
    (m.run s (saves var temp saved : List (Move V F O))).env (temp i) = s.env (var i) := by
  induction saved generalizing s with
  | nil => exact absurd member List.not_mem_nil
  | cons j saved ih =>
    have first : Agrees temps (m.step s (⟨.var (temp j), [.var (var j)]⟩ : Move V F O)) s :=
      .set (temp j) _ (temporary j)
    by_cases later : i ∈ saved
    · exact (ih (m.step s ⟨.var (temp j), [.var (var j)]⟩) later).trans (first.env (var i) (apart i))
    · obtain rfl : i = j := (List.mem_cons.mp member).resolve_right later
      have untouched : ∀ move ∈ (saves var temp saved : List (Move V F O)), move.dest ≠ .var (temp i) := by
        intro move inside same
        obtain ⟨k, saves_k, rfl⟩ := List.mem_map.mp inside
        exact later (injective (Place.var.inj same) ▸ saves_k)
      have kept := m.run_env_of_untouched (m.step s ⟨.var (temp i), [.var (var i)]⟩) untouched
      refine kept.trans ?_
      rw [step_var, State.set_env_same, readAll_singleton]
      rfl

/-- Copies at once, to different variables. -/
theorem foldl_put_copies (s t : State V L H) (injective : Function.Injective var)
    (apart : (pairs.map Prod.fst).Nodup) :
    let u := ((copies var pairs : List (Move V F O)).map (m.resolve s)).foldl m.put t
    u.heap = t.heap ∧ (∀ pair ∈ pairs, u.env (var pair.1) = s.env (var pair.2)) ∧
      ∀ v, (∀ pair ∈ pairs, v ≠ var pair.1) → u.env v = t.env v := by
  induction pairs generalizing t with
  | nil => exact ⟨rfl, fun _ member => absurd member List.not_mem_nil, fun _ _ => rfl⟩
  | cons pair pairs ih =>
    obtain ⟨fresh, apart⟩ := List.nodup_cons.mp apart
    have first : m.put t (m.resolve s (⟨.var (var pair.1), [.var (var pair.2)]⟩ : Move V F O)) =
        t.set (var pair.1) (s.env (var pair.2)) := by
      simp only [resolve, put, readAll_singleton, read]
    obtain ⟨heap, listed, others⟩ := ih (t.set (var pair.1) (s.env (var pair.2))) apart
    simp only [copies, List.map_cons, List.foldl_cons, first] at heap listed others ⊢
    refine ⟨heap, ?_, ?_⟩
    · intro other member
      rcases List.mem_cons.mp member with rfl | later
      · refine (others _ fun later inside same => ?_).trans (t.set_env_same ..)
        exact fresh (injective same ▸ List.mem_map_of_mem inside)
      · exact listed other later
    · intro v outside
      refine (others v fun later inside => outside later (List.mem_cons_of_mem pair inside)).trans ?_
      exact t.set_env_ne _ (outside pair List.mem_cons_self)

/-- Copies of a variable to itself may be left out. -/
theorem parallel_copies_filter [DecidableEq ι] (s : State V L H) (injective : Function.Injective var)
    (apart : (pairs.map Prod.fst).Nodup) :
    m.parallel s (copies var (pairs.filter fun pair => pair.2 ≠ pair.1) : List (Move V F O)) =
      m.parallel s (copies var pairs : List (Move V F O)) := by
  have kept : ((pairs.filter fun pair => pair.2 ≠ pair.1).map Prod.fst).Nodup :=
    apart.sublist (List.filter_sublist.map _)
  obtain ⟨heap, listed, others⟩ := m.foldl_put_copies (F := F) (O := O) s s injective apart
  obtain ⟨heap', listed', others'⟩ := m.foldl_put_copies (F := F) (O := O) s s injective kept
  refine State.ext ?_ (heap'.trans heap.symm)
  funext v
  by_cases written : ∃ pair ∈ pairs, v = var pair.1
  · obtain ⟨pair, member, rfl⟩ := written
    by_cases same : pair.2 = pair.1
    · refine (others' _ fun other inside clash => ?_).trans ?_
      · -- no other copy has this destination
        have twice : other = pair :=
          List.inj_on_of_nodup_map apart (List.mem_filter.mp inside).1 member (injective clash).symm
        subst twice
        have differ := (List.mem_filter.mp inside).2
        simp only [ne_eq, same, not_true_eq_false, decide_false, Bool.false_eq_true] at differ
      · exact ((listed pair member).trans (congrArg (fun i => s.env (var i)) same)).symm
    · have inside : pair ∈ pairs.filter fun pair => pair.2 ≠ pair.1 :=
        List.mem_filter.mpr ⟨member, decide_eq_true same⟩
      exact (listed' pair inside).trans (listed pair member).symm
  · rw [not_exists] at written
    have untouched := fun pair inside same => written pair ⟨inside, same⟩
    refine (others' v fun pair inside => untouched pair (List.mem_filter.mp inside).1).trans ?_
    exact (others v untouched).symm

/-- Copies whose overwritten sources are saved first are the copies at once. -/
theorem run_saved [DecidableEq ι] (s : State V L H) (temporary : ∀ i, temp i ∈ temps) (apart : ∀ i, var i ∉ temps)
    (injective : Function.Injective temp) (distinct : Function.Injective var)
    (covers : ∀ pair ∈ pairs, ∀ other ∈ pairs, pair.2 = other.1 → pair.2 ∈ saved) :
    Agrees temps (m.run s (saves var temp saved ++ copiesFrom var temp saved pairs : List (Move V F O)))
      (m.parallel s (copies var pairs : List (Move V F O))) := by
  rw [run_append]
  have saving : Agrees temps (m.run s (saves var temp saved : List (Move V F O))) s := m.run_saves_agrees s temporary
  have saved_env : ∀ i ∈ saved, (m.run s (saves var temp saved : List (Move V F O))).env (temp i) = s.env (var i) :=
    fun _ => m.run_saves_env s temporary apart injective
  generalize m.run s (saves var temp saved : List (Move V F O)) = t at saving saved_env
  rw [m.run_eq_parallel t]
  · have read_same : ((copiesFrom var temp saved pairs : List (Move V F O)).map (m.resolve t)) =
        (copies var pairs : List (Move V F O)).map (m.resolve s) := by
      simp only [copies, copiesFrom, List.map_map]
      apply List.map_congr_left
      intro pair member
      have same : t.env (if pair.2 ∈ saved then temp pair.2 else var pair.2) = s.env (var pair.2) := by
        split_ifs with inside
        · exact saved_env pair.2 inside
        · exact saving.env (var pair.2) (apart pair.2)
      simp only [Function.comp_apply, resolve, readAll_singleton, read, same]
    rw [parallel, parallel, read_same]
    exact saving.foldl_put m _
  · rw [copiesFrom, List.pairwise_map]
    apply List.pairwise_of_forall_mem_list
    intro first first_mem second second_mem
    apply m.keeps_of_spares
    intro source member
    obtain rfl := List.mem_singleton.mp member
    show (if second.2 ∈ saved then temp second.2 else var second.2) ≠ var first.1
    split_ifs with inside
    · intro same
      exact apart first.1 (same ▸ temporary second.2)
    · intro same
      exact inside (covers second second_mem first first_mem (distinct same))

/-- A store whose value goes through a temporary. -/
theorem run_through (s : State V L H) {v w : V} {f : F} {sources : List (Source V F O)} (temporary : v ∈ temps)
    (ne : w ≠ v) :
    Agrees temps (m.run s [⟨.var v, sources⟩, ⟨.field w f, [.var v]⟩]) (m.parallel s [⟨.field w f, sources⟩]) := by
  have first : Agrees temps (m.step s ⟨.var v, sources⟩) s := .set v _ temporary
  have value : m.resolve (m.step s ⟨.var v, sources⟩) (⟨.field w f, [.var v]⟩ : Move V F O) =
      m.resolve s ⟨.field w f, sources⟩ := by
    simp only [resolve, step_var, State.set_env_ne s _ ne, readAll_singleton, read, State.set_env_same]
  rw [run_cons, run_cons, run_nil, step, value]
  exact first.put m _

end Objects

/-! ## Realizing an effect -/

/-- In order, the moves have the effect, up to temporaries, whatever the objects are. The variables of `clean`
hold no labels. -/
def Realizes (clean temps : Set V) (moves effect : List (Move V F O)) : Prop :=
  ∀ (L H : Type) (m : Objects L F O H) (s : State V L H), (∀ v ∈ clean, s.env v = ∅) →
    Agrees temps (m.run s moves) (m.parallel s effect)

variable {clean temps : Set V}

theorem realizes_nil : Realizes clean temps ([] : List (Move V F O)) [] := fun _ _ _ s _ => .refl s

theorem realizes_singleton (move : Move V F O) : Realizes clean temps [move] [move] := fun _ _ _ _ _ => .refl _

/-- Several variables get the labels of the same sources, whose objects stay. -/
theorem realizes_same {dests : List V} {sources : List (Source V F O)}
    (spared : ∀ v ∈ dests.dropLast, ∀ f : F, .field v f ∉ sources) :
    Realizes clean temps (dests.map fun v => ⟨.var v, sources⟩) (dests.map fun v => ⟨.var v, sources⟩) := by
  intro L H m s _
  rw [m.run_same s spared]
  exact .refl _

/-- A variable without labels is as good as no source. -/
theorem realizes_clean {dests : List V} {v : V} (inside : v ∈ clean) (apart : v ∉ dests) :
    Realizes clean temps (dests.map fun w => (⟨.var w, [.var v]⟩ : Move V F O))
      (dests.map fun w => ⟨.var w, []⟩) := by
  intro L H m s empty
  rw [← m.run_same s (by simp)]
  have labels : s.env v = ∅ := empty v inside
  clear empty
  induction dests generalizing s with
  | nil => exact .refl s
  | cons w dests ih =>
    have ne : v ≠ w := fun same => apart (same ▸ List.mem_cons_self)
    have one : m.step s (⟨.var w, [.var v]⟩ : Move V F O) = m.step s ⟨.var w, []⟩ := by
      simp only [Objects.step_var, Objects.readAll_singleton, Objects.readAll_nil, Objects.read, labels]
    rw [List.map_cons, List.map_cons, Objects.run_cons, Objects.run_cons, one]
    apply ih fun later => apart (List.mem_cons_of_mem w later)
    rw [Objects.step_var, State.set_env_ne _ _ ne, labels]

/-- Objects without labels. -/
def Objects.blank : Objects Unit F O Unit where
  load _ _ _ := ∅
  store heap _ _ _ := heap
  object _ := ∅

/-- Variables with the label where `p` holds. -/
def State.labelled (p : V → Prop) : State V Unit Unit where
  env v := {_label | p v}
  heap := ()

omit [DecidableEq V] in
@[simp] theorem Objects.blank_readAll_objects (s : State V Unit Unit) (objects : List O) :
    (Objects.blank (F := F)).readAll s (objects.map .object) = ∅ := by
  apply Set.eq_empty_of_forall_notMem
  rintro label ⟨source, member, inside⟩
  obtain ⟨object, -, rfl⟩ := List.mem_map.mp member
  exact inside

/-- Among labelled variables and objects without labels, moves that realize an effect leave its labels. -/
theorem Realizes.env_labelled {moves effect : List (Move V F O)} (realizes : Realizes clean temps moves effect)
    {p : V → Prop} (dirty : ∀ v ∈ clean, ¬ p v) {v : V} (visible : v ∉ temps) :
    (Objects.blank.run (.labelled p) moves).env v = (Objects.blank.parallel (.labelled p) effect).env v := by
  have empty : ∀ u ∈ clean, (State.labelled p).env u = ∅ := by
    intro u inside
    apply Set.eq_empty_of_forall_notMem
    exact fun _ labelled => dirty u inside labelled
  exact (realizes Unit Unit _ _ empty).env v visible

/-- The same variables get the labels of another variable. -/
theorem not_realizes_other {dests : List V} {v w d : V} (other : v ≠ w) (listed : d ∈ dests) (visible : d ∉ temps)
    (dirty : w ∉ clean) :
    ¬ Realizes clean temps (dests.map fun u => (⟨.var u, [.var v]⟩ : Move V F O))
      (dests.map fun u => ⟨.var u, [.var w]⟩) := by
  intro realizes
  have labels := realizes.env_labelled (p := fun u => u = w) (fun u inside same => dirty (same ▸ inside)) visible
  rw [Objects.run_same _ _ (by simp), Objects.parallel_same_env _ _ _ listed, Objects.parallel_same_env _ _ _ listed,
    Objects.readAll_singleton, Objects.readAll_singleton] at labels
  have inside : () ∈ (Objects.blank (F := F) (O := O)).read (State.labelled fun u => u = w) (.var w) := rfl
  rw [← labels] at inside
  exact other inside

/-- A store that leaves out a source. -/
theorem not_realizes_store {u v w : V} {f : F} {sources : List (Source V F O)} (other : v ≠ u)
    (listed : .var u ∈ sources) (dirty : u ∉ clean) :
    ¬ Realizes clean temps [⟨.field w f, [.var v]⟩] [⟨.field w f, sources⟩] := by
  intro realizes
  -- the heap is what was stored last
  let m : Objects Unit F O (Set Unit) := ⟨fun _ _ _ => ∅, fun _ _ _ labels => labels, fun _ => ∅⟩
  let s : State V Unit (Set Unit) := ⟨(State.labelled (· = u)).env, ∅⟩
  have empty : ∀ x ∈ clean, s.env x = ∅ := by
    intro x inside
    apply Set.eq_empty_of_forall_notMem
    intro label same
    exact dirty ((show x = u from same) ▸ inside)
  have heaps : m.readAll s [.var v] = m.readAll s sources := (realizes Unit (Set Unit) m s empty).heap
  have inside : () ∈ m.readAll s sources := ⟨.var u, listed, rfl⟩
  rw [← heaps, Objects.readAll_singleton] at inside
  exact other inside

/-- A two-part load whose first part lands on the object. -/
theorem not_realizes_clobbered {v w : V} {f : F} (visible : w ∉ temps) :
    ¬ Realizes clean temps [⟨.var v, [.field v f]⟩, (⟨.var w, [.field v f]⟩ : Move V F O)]
      [⟨.var v, [.field v f]⟩, ⟨.var w, [.field v f]⟩] := by
  intro realizes
  -- a load gives the other labels
  let m : Objects Unit F O Unit := ⟨fun _ object _ => objectᶜ, fun heap _ _ _ => heap, fun _ => ∅⟩
  let s : State V Unit Unit := ⟨fun _ => ∅, ()⟩
  have agrees := (realizes Unit Unit m s fun _ _ => rfl).env w visible
  rw [m.run_clobbered] at agrees
  have right : (m.parallel s [⟨.var v, [.field v f]⟩, (⟨.var w, [.field v f]⟩ : Move V F O)]).env w = Set.univ := by
    simp only [Objects.parallel, List.map_cons, List.map_nil, List.foldl_cons, List.foldl_nil, Objects.resolve,
      Objects.put, State.set_env_same, Objects.readAll_singleton, Objects.read]
    exact Set.compl_empty
  rw [right] at agrees
  have left : m.load s.heap (m.load s.heap (s.env v) f) f = ∅ := compl_compl ∅
  rw [left] at agrees
  exact Set.empty_ne_univ agrees

end Run

end Ctadl.Moves
