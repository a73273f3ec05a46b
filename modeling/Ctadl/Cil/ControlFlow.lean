import Ctadl.Cil.Leaves

/-! # CIL control flow is complete

Where the records follow each other, branches and clauses start at records, and the regions of the clauses
nest, every transfer of the body is an edge of the flow graph, through the finallys a leave exits and to the
clauses around a try range; and an endfinally goes nowhere else.
-/

namespace Ctadl.Cil

open Graph Method

variable {m : Method} {bs : List Block} {b c : ℕ} {r : InsFlow} {offset : ℕ}

/-- The block with index `b` starts at `offset`. -/
def Starts (bs : List Block) (b offset : ℕ) : Prop := bs[b]?.map Block.start = some offset

/-- It holds the record. -/
def Holds (bs : List Block) (b : ℕ) (r : InsFlow) : Prop :=
  ∃ block, bs[b]? = some block ∧ block.start ≤ r.offset ∧ r.endOffset ≤ block.stop

/-- The record is its last one. -/
def Ends (bs : List Block) (b : ℕ) (r : InsFlow) : Prop :=
  ∃ block, bs[b]? = some block ∧ block.start ≤ r.offset ∧ r.endOffset = block.stop

def Edge (bs : List Block) (b c : ℕ) : Prop := ∃ block, bs[b]? = some block ∧ c ∈ block.succs

def ExcEdge (bs : List Block) (b c : ℕ) : Prop := ∃ block, bs[b]? = some block ∧ c ∈ block.excSuccs

/-- Control goes from the end of the record's block to the block that starts at `offset`. -/
def Goes (bs : List Block) (r : InsFlow) (offset : ℕ) : Prop := ∃ b c, Ends bs b r ∧ Edge bs b c ∧ Starts bs c offset

/-- The clause an endfinally at `offset` ends: the innermost finally or fault handler around it. -/
def Method.Closes (m : Method) (offset : ℕ) (f : Handler × ℕ) : Prop :=
  f ∈ m.handlers.zipIdx ∧ (f.1.kind = .onFinally ∨ f.1.kind = .onFault) ∧ Contains f.1.handlerRange offset ∧
  ∀ g ∈ m.handlers, (g.kind = .onFinally ∨ g.kind = .onFault) → Contains g.handlerRange offset →
    Inside f.1.handlerRange g.handlerRange

/-- The clause of an endfilter at `offset`: the one with the innermost filter around it. -/
def Method.Filters (m : Method) (offset : ℕ) (f : Handler) : Prop :=
  f ∈ m.handlers ∧ ∃ s, f.filterStart = some s ∧ Contains (f.filterRange s) offset ∧
  ∀ g ∈ m.handlers, ∀ t, g.filterStart = some t → Contains (g.filterRange t) offset →
    Inside (f.filterRange s) (g.filterRange t)

/-- Every transfer of the body is in the graph. -/
structure Complete (m : Method) (bs : List Block) : Prop where
  /-- A fall-through, branch, switch or leave, from `r` to the record `r'`. -/
  transfers : ∀ (i j : ℕ) (r r' : InsFlow), m.records[i]? = some r → m.records[j]? = some r' →
    r'.offset ∈ r.control.targets ∨ r.control.fallsThrough ∧ j = i + 1 →
    (j = i + 1 ∧ ∃ b, Holds bs b r ∧ Holds bs b r') ∨ Goes bs r r'.offset
  /-- A leave goes to the finallys it exits, the innermost among them. -/
  leaves : ∀ r ∈ m.records, ∀ target, r.control = .leave target → ∀ f, m.Exits r.offset target f →
    Goes bs r f.1.handlerStart
  /-- From there control goes on to the next one, and from the last to the target. -/
  goesOn : ∀ r ∈ m.records, ∀ target, r.control = .leave target →
    ∀ e ∈ m.records, e.control = .endFinally → ∀ f, m.Closes e.offset f →
    (∀ g, m.ExitsNext r.offset target f g → Goes bs e g.1.handlerStart) ∧
    (m.ExitsLast r.offset target f → Goes bs e target)
  /-- An endfinally goes nowhere else. -/
  nowhere : ∀ e ∈ m.records, e.control = .endFinally → ∀ b c, Ends bs b e → Edge bs b c →
    ∃ f, m.Closes e.offset f ∧ ∃ r ∈ m.records, ∃ target, r.control = .leave target ∧
      ((∃ g, m.ExitsNext r.offset target f g ∧ Starts bs c g.1.handlerStart) ∨
        (m.ExitsLast r.offset target f ∧ Starts bs c target))
  /-- An endfilter goes to its handler. -/
  filters : ∀ e ∈ m.records, e.control = .endFilter → ∀ f, m.Filters e.offset f → Goes bs e f.handlerStart
  /-- A record of a try range is in a block with an edge to the clause. -/
  protects : ∀ r ∈ m.records, ∀ h ∈ m.handlers, Contains h.tryRange r.offset →
    ∃ b c, Holds bs b r ∧ ExcEdge bs b c ∧ Starts bs c h.entryOffset

namespace Method

variable {s e i j : ℕ} {r' : InsFlow}

/-- A record of a block is held by the finished one. -/
theorem Piece.holds (decoded : m.Decoded) (piece : m.Piece b s e) (found : m.records[i]? = some r)
    (inside : s ≤ i ∧ i < e) : Holds m.flow.2 b r := by
  obtain ⟨block, at', start, stop, -⟩ := piece.flow decoded
  obtain ⟨lt, le⟩ := piece.bounds
  have span := piece.span decoded found
  have last : m.records[e - 1]? = some m.records[e - 1] := List.getElem?_eq_getElem (by omega)
  refine ⟨block, at', start ▸ span.1.mpr inside.1, ?_⟩
  rw [stop, endOf_eq last]
  rcases Nat.lt_or_eq_of_le (Nat.le_sub_one_of_lt inside.2) with before | rfl
  · exact (decoded.endOffset_le found last before).trans (decoded.offset_lt_endOffset last).le
  · obtain rfl := Option.some.inj (found.symm.trans last)
    exact le_rfl

theorem Piece.ends (decoded : m.Decoded) (piece : m.Piece b s (i + 1)) (found : m.records[i]? = some r) :
    Ends m.flow.2 b r := by
  obtain ⟨block, at', start, stop, -⟩ := piece.flow decoded
  have span := piece.span decoded found
  have le := piece.bounds.1
  refine ⟨block, at', start ▸ span.1.mpr (by omega), ?_⟩
  rw [stop, Nat.add_sub_cancel, endOf_eq found]

theorem Piece.starts (decoded : m.Decoded) (piece : m.Piece b i e) (found : m.records[i]? = some r) :
    Starts m.flow.2 b r.offset := by
  obtain ⟨block, at', start, -⟩ := piece.flow decoded
  rw [Starts, at', Option.map_some, start, offsetOf_eq found]

/-- What the last record asks for is an edge. -/
theorem Piece.goes (decoded : m.Decoded) (piece : m.Piece b s (i + 1)) (found : m.records[i]? = some r)
    (target : m.Piece c j e) (found' : m.records[j]? = some r')
    (out : c ∈ m.successors m.clauses m.blocks r ++ resumptions m.clauses m.exits r) : Goes m.flow.2 r r'.offset := by
  obtain ⟨block, at', -, -, succs, -⟩ := piece.flow decoded
  refine ⟨b, c, piece.ends decoded found, ⟨block, at', (succs c).mpr ?_⟩, target.starts decoded found'⟩
  rw [outs, Nat.add_sub_cancel, found]
  simpa using out

/-- The block of a record that does not only go on ends with it. -/
theorem piece_of_control (found : m.records[i]? = some r) (control : r.control ≠ .next) :
    ∃ b s, m.Piece b s (i + 1) := by
  obtain ⟨b, s, e, piece, inside⟩ := exists_piece (List.getElem?_eq_some_iff.mp found).1
  obtain rfl := piece.last_of_control found inside control
  exact ⟨b, s, piece⟩

/-- The block looked up for a branch target. -/
theorem Piece.blockOf (decoded : m.Decoded) (piece : m.Piece c j e) (found : m.records[j]? = some r) :
    ((m.recordAt r.offset).bind fun k => Cil.blockOfRecord m.blocks (m.offsetOf k)) = some c := by
  rw [decoded.recordAt found, Option.bind_some, offsetOf_eq found]
  exact piece.blockOfRecord decoded found ⟨le_rfl, piece.bounds.1⟩

/-- A branch target starts a block. -/
theorem Decoded.piece_of_target (decoded : m.Decoded) (found : m.records[i]? = some r) {t : ℕ}
    (target : t ∈ r.control.targets) :
    ∃ (j : ℕ) (r' : InsFlow) (c e : ℕ), m.records[j]? = some r' ∧ r'.offset = t ∧ m.Piece c j e := by
  obtain ⟨j, r', found', rfl⟩ := (decoded.targets r (List.mem_of_getElem? found) t target).index
  obtain ⟨c, e, piece⟩ := exists_piece_of_leader (decoded.leader_of_target found found' target)
  exact ⟨j, r', c, e, found', rfl, piece⟩

/-- So does the start of a clause. -/
theorem Decoded.piece_of_clause (decoded : m.Decoded) {h : Handler} (member : h ∈ m.handlers) {t : ℕ}
    (start : t ∈ h.handlerStart :: h.filterStart.toList) :
    ∃ (j : ℕ) (r' : InsFlow) (c e : ℕ), m.records[j]? = some r' ∧ r'.offset = t ∧ m.Piece c j e ∧
      Cil.blockAt m.blocks t = some c := by
  obtain ⟨j, r', found', rfl⟩ := (decoded.starts h member t (List.mem_cons_of_mem _ start)).index
  have bound : r'.offset ∈ h.bounds := by
    rcases List.mem_cons.mp start with same | filter
    · simp [Handler.bounds, same]
    · exact List.mem_append_right _ filter
  obtain ⟨c, e, piece⟩ := exists_piece_of_leader (decoded.leader_of_bound member found' bound)
  exact ⟨j, r', c, e, found', rfl, piece, piece.blockAt decoded found'⟩

theorem transfers (decoded : m.Decoded) (found : m.records[i]? = some r) (found' : m.records[j]? = some r')
    (step : r'.offset ∈ r.control.targets ∨ r.control.fallsThrough ∧ j = i + 1) :
    (j = i + 1 ∧ ∃ b, Holds m.flow.2 b r ∧ Holds m.flow.2 b r') ∨ Goes m.flow.2 r r'.offset := by
  rcases step with target | ⟨falls, rfl⟩
  · have control : r.control ≠ .next := by
      intro next
      simp [next, Control.targets] at target
    obtain ⟨b, s, piece⟩ := piece_of_control found control
    obtain ⟨c, e, piece'⟩ := exists_piece_of_leader (decoded.leader_of_target found found' target)
    refine .inr (piece.goes decoded found piece' found' ?_)
    simp only [successors, List.mem_append, List.mem_filterMap, or_assoc]
    exact .inl ⟨r'.offset, target, piece'.blockOf decoded found'⟩
  · obtain ⟨b, s, e, piece, inside⟩ := exists_piece (List.getElem?_eq_some_iff.mp found).1
    have short := (List.getElem?_eq_some_iff.mp found').1
    by_cases last : e = i + 1
    · subst last
      have leader : i + 1 ∈ m.leaders := by
        rcases (mem_pieces leaders_sorted (List.mem_of_getElem? piece)).2 with ⟨-, leader⟩ | ⟨stop, -⟩
        · exact leader
        · omega
      obtain ⟨c, e, piece'⟩ := exists_piece_of_leader leader
      refine .inr (piece.goes decoded found piece' found' ?_)
      have next := piece'.blockOfRecord decoded found' ⟨le_rfl, piece'.bounds.1⟩
      rw [decoded.next found found'] at next
      simp [successors, falls, next]
    · refine .inl ⟨rfl, b, piece.holds decoded found inside, piece.holds decoded found' ?_⟩
      omega

theorem leaves (decoded : m.Decoded) {target : ℕ} (found : m.records[i]? = some r) (control : r.control = .leave target)
    {f : Handler × ℕ} (exits : m.Exits r.offset target f) : Goes m.flow.2 r f.1.handlerStart := by
  obtain ⟨b, s, piece⟩ := piece_of_control found (by simp [control])
  have member := List.fst_mem_of_mem_zipIdx exits.1
  obtain ⟨j, r', c, e, found', start, piece', at'⟩ := decoded.piece_of_clause member List.mem_cons_self
  rw [← start]
  refine piece.goes decoded found piece' found' (List.mem_append_left _ (List.mem_append_right _ ?_))
  rw [control]
  exact List.mem_filterMap.mpr ⟨m.resolved f, mem_exited.mpr ⟨f, exits, rfl⟩, at'⟩

theorem protects (decoded : m.Decoded) (found : m.records[i]? = some r) {h : Handler} (member : h ∈ m.handlers)
    (inside : Contains h.tryRange r.offset) : ∃ b c, Holds m.flow.2 b r ∧ ExcEdge m.flow.2 b c ∧ Starts m.flow.2 c h.entryOffset := by
  obtain ⟨b, s, e, piece, within⟩ := exists_piece (List.getElem?_eq_some_iff.mp found).1
  have start : h.entryOffset ∈ h.handlerStart :: h.filterStart.toList := by
    unfold Handler.entryOffset
    cases h.filterStart <;> simp
  obtain ⟨j, r', c, e', found', offset, piece', at'⟩ := decoded.piece_of_clause member start
  obtain ⟨block, final, -, -, -, exc⟩ := piece.flow decoded
  refine ⟨b, c, piece.holds decoded found within, ⟨block, final, (exc c).mpr ?_⟩, offset ▸ piece'.starts decoded found'⟩
  refine ⟨h.resolve m.blocks, List.mem_map_of_mem member, at', ?_⟩
  change h.tryContains _ = true
  rw [piece.tryContains_iff decoded member found within, Handler.tryContains_iff]
  exact inside

/-- Two handlers of the table around one offset are of different size. -/
theorem Nested.handlerRange_inside (nested : m.Nested) {f g : Handler × ℕ} (member : f ∈ m.handlers.zipIdx)
    (member' : g ∈ m.handlers.zipIdx) (other : f.2 ≠ g.2) (inside : Contains f.1.handlerRange offset)
    (inside' : Contains g.1.handlerRange offset) : f.1.handlerRange ≠ g.1.handlerRange ∧
      (Inside f.1.handlerRange g.1.handlerRange ∨ Inside g.1.handlerRange f.1.handlerRange) := by
  rw [List.mem_zipIdx_iff_getElem?] at member member'
  obtain ⟨short, at'⟩ := List.getElem?_eq_some_iff.mp member
  obtain ⟨short', at''⟩ := List.getElem?_eq_some_iff.mp member'
  have pairs := List.pairwise_iff_getElem.mp nested.handlers
  simp only [Contains] at inside inside'
  rcases Nat.lt_or_gt_of_ne other with before | after
  · have nest := pairs f.2 g.2 short short' before
    rw [at', at''] at nest
    exact nest.resolve_left (by unfold Apart; omega)
  · have nest := pairs g.2 f.2 short' short after
    rw [at', at''] at nest
    exact (nest.resolve_left (by unfold Apart; omega)).imp Ne.symm Or.symm

/-- The clause picked for an endfinally is the one it ends. -/
theorem Nested.innermost_iff (nested : m.Nested) {f : Handler × ℕ} (member : f ∈ m.handlers.zipIdx) :
    innermost m.clauses offset = some (m.resolved f) ↔ m.Closes offset f := by
  let around := m.clauses.zipIdx.filter fun h =>
    decide (h.1.kind = .onFinally ∨ h.1.kind = .onFault) && h.1.handlerContains offset
  have listed : ∀ g ∈ m.handlers.zipIdx, m.resolved g ∈ around ↔
      (g.1.kind = .onFinally ∨ g.1.kind = .onFault) ∧ Contains g.1.handlerRange offset := fun g inside => by
    simp only [around, List.mem_filter, Bool.and_eq_true, decide_eq_true_eq, ← Handler.handlerContains_iff]
    exact and_iff_right (mem_clauses_zipIdx.mpr ⟨g, inside, rfl⟩)
  have picked : innermost m.clauses offset = around.argmin fun h => h.1.handlerEnd - h.1.handlerStart := rfl
  rw [picked]
  constructor
  · intro min
    obtain ⟨kind, contains⟩ := (listed f member).mp (List.argmin_mem min)
    refine ⟨member, kind, contains, fun g inside kind' contains' => ?_⟩
    obtain ⟨k, found⟩ := List.getElem?_of_mem inside
    have member' : (g, k) ∈ m.handlers.zipIdx := List.mem_zipIdx_iff_getElem?.mpr found
    by_cases same : f.2 = k
    · have eq : f.1 = g := Option.some.inj ((List.mem_zipIdx_iff_getElem?.mp member).symm.trans (same ▸ found))
      exact eq ▸ ⟨le_rfl, le_rfl⟩
    · obtain ⟨ne, nest⟩ := nested.handlerRange_inside member member' same contains contains'
      have smaller : f.1.handlerEnd - f.1.handlerStart ≤ g.handlerEnd - g.handlerStart :=
        List.le_of_mem_argmin ((listed (g, k) member').mpr ⟨kind', contains'⟩) min
      simp only [Inside, Contains, Handler.handlerRange, ne_eq, Prod.mk.injEq] at *
      omega
  · rintro ⟨-, kind, contains, least⟩
    have inside := (listed f member).mpr ⟨kind, contains⟩
    cases min : around.argmin fun h => h.1.handlerEnd - h.1.handlerStart with
    | none => exact absurd (List.argmin_eq_none.mp min ▸ inside) List.not_mem_nil
    | some a =>
      obtain ⟨g, member', rfl⟩ := mem_clauses_zipIdx.mp (List.mem_of_mem_filter (List.argmin_mem min))
      obtain ⟨kind', contains'⟩ := (listed g member').mp (List.argmin_mem min)
      have le := least g.1 (List.fst_mem_of_mem_zipIdx member') kind' contains'
      have smaller : g.1.handlerEnd - g.1.handlerStart ≤ f.1.handlerEnd - f.1.handlerStart :=
        List.le_of_mem_argmin inside min
      by_cases same : f.2 = g.2
      · have eq : f = g := by
          rw [List.mem_zipIdx_iff_getElem?] at member member'
          exact Prod.ext (Option.some.inj (member.symm.trans (same ▸ member'))) same
        rw [eq]
      · obtain ⟨ne, -⟩ := nested.handlerRange_inside member member' same contains contains'
        simp only [Inside, Contains, Handler.handlerRange, ne_eq, Prod.mk.injEq] at *
        omega

/-- The clause found for an endfilter is its own. -/
theorem Nested.find_filter (nested : m.Nested) {f : Handler} (filters : m.Filters offset f) :
    m.clauses.find? (·.filterContains offset) = some (f.resolve m.blocks) := by
  obtain ⟨member, s, start, contains, least⟩ := filters
  have holds : f.filterContains offset = true := Handler.filterContains_iff.mpr ⟨s, start, contains⟩
  obtain ⟨k, found⟩ := List.getElem?_of_mem member
  obtain ⟨short, rfl⟩ := List.getElem?_eq_some_iff.mp found
  have first : m.handlers.find? (·.filterContains offset) = some m.handlers[k] := by
    refine List.find?_eq_some_iff_getElem.mpr ⟨holds, k, short, rfl, fun j before => ?_⟩
    -- an earlier filter around the offset would be inside this one, and this one is the innermost
    rw [Bool.not_eq_true', ← Bool.not_eq_true]
    intro earlier
    obtain ⟨t, start', contains'⟩ := Handler.filterContains_iff.mp earlier
    have nest := List.pairwise_iff_getElem.mp nested.filters j k (by omega) short before t s start' start
    have inside := least _ (List.getElem_mem (by omega)) t start' contains'
    simp only [Apart, Inside, Contains, ne_eq, Prod.ext_iff] at nest inside contains contains'
    omega
  rw [clauses, List.find?_map]
  exact congrArg (Option.map (Handler.resolve m.blocks)) first

theorem goesOn (decoded : m.Decoded) (nested : m.Nested) {target k : ℕ} {x : InsFlow} {f : Handler × ℕ}
    (found : m.records[i]? = some r) (control : r.control = .leave target)
    (found' : m.records[k]? = some x) (control' : x.control = .endFinally) (closes : m.Closes x.offset f) :
    (∀ g, m.ExitsNext r.offset target f g → Goes m.flow.2 x g.1.handlerStart) ∧
    (m.ExitsLast r.offset target f → Goes m.flow.2 x target) := by
  obtain ⟨b, s, piece⟩ := piece_of_control found (by simp [control])
  obtain ⟨b', s', piece'⟩ := piece_of_control found' (by simp [control'])
  have resumes : ∀ c, m.Exits r.offset target f → (f.2, c) ∈ m.finallyExits m.clauses m.blocks r →
      c ∈ m.successors m.clauses m.blocks x ++ resumptions m.clauses m.exits x := fun c exits way => by
    have picked := (nested.innermost_iff closes.1).mpr closes
    have kind : (m.resolved f).1.kind = .onFinally := exits.2.1
    have all : (f.2, c) ∈ m.exits := (mem_exits decoded).mpr ⟨b, s, i + 1, r, piece, found, way⟩
    refine List.mem_append_right _ ?_
    rw [resumptions, if_pos control', picked]
    dsimp only
    rw [if_pos kind]
    exact List.mem_map.mpr ⟨(f.2, c), List.mem_filter.mpr ⟨all, by simp [resolved]⟩, rfl⟩
  constructor
  · intro g next
    have member := List.fst_mem_of_mem_zipIdx next.2.1.1
    obtain ⟨j, r', c, e, found'', start, piece'', at'⟩ := decoded.piece_of_clause member List.mem_cons_self
    rw [← start]
    refine piece'.goes decoded found' piece'' found'' (resumes c next.1 ?_)
    obtain ⟨before, after, eq⟩ := (nested.neighbours_iff next.1 next.2.1).mpr next
    rw [finallyExits, control]
    exact mem_continuations.mpr (.inl ⟨before, m.resolved f, m.resolved g, after, eq, rfl, at'⟩)
  · intro last
    obtain ⟨j, r', c, e, found'', rfl, piece''⟩ := decoded.piece_of_target found (t := target) (by simp [control, Control.targets])
    refine piece'.goes decoded found' piece'' found'' (resumes c last.1 ?_)
    obtain ⟨before, eq⟩ := (nested.last_iff last.1).mpr last
    rw [finallyExits, control]
    exact mem_continuations.mpr (.inr ⟨before, m.resolved f, eq, rfl, piece''.blockOf decoded found''⟩)

theorem nowhere (decoded : m.Decoded) (nested : m.Nested) {k : ℕ} {x : InsFlow} (found : m.records[k]? = some x)
    (control : x.control = .endFinally) (ends : Ends m.flow.2 b x) (edge : Edge m.flow.2 b c) :
    ∃ f, m.Closes x.offset f ∧ ∃ r ∈ m.records, ∃ target, r.control = .leave target ∧
      ((∃ g, m.ExitsNext r.offset target f g ∧ Starts m.flow.2 c g.1.handlerStart) ∨
        (m.ExitsLast r.offset target f ∧ Starts m.flow.2 c target)) := by
  obtain ⟨block, at', start, stop⟩ := ends
  obtain ⟨s, e, piece⟩ := exists_piece_of_flow at'
  obtain ⟨block', at'', start', stop', succs, -⟩ := piece.flow decoded
  obtain rfl := Option.some.inj (at'.symm.trans at'')
  have span := piece.span decoded found
  have inside : s ≤ k ∧ k < e := by
    have lt := decoded.offset_lt_endOffset found
    exact ⟨span.1.mp (start' ▸ start), span.2.mp (stop' ▸ stop ▸ lt)⟩
  obtain rfl := piece.last_of_control found inside (by simp [control])
  obtain ⟨block', same, out⟩ := edge
  obtain rfl := Option.some.inj (at'.symm.trans same)
  -- an endfinally has no successor of its own
  have resumed : c ∈ resumptions m.clauses m.exits x := by
    have all := (succs c).mp out
    rw [Nat.add_sub_cancel, found] at all
    simpa [outs, successors, control, Control.targets, Control.fallsThrough] using all
  rw [resumptions, if_pos control] at resumed
  cases picked : innermost m.clauses x.offset with
  | none => simp [picked] at resumed
  | some h =>
    obtain ⟨f, member, rfl⟩ := mem_clauses_zipIdx.mp (List.mem_of_mem_filter (List.argmin_mem picked))
    have closes := (nested.innermost_iff member).mp picked
    rw [picked] at resumed
    dsimp only at resumed
    split_ifs at resumed with kind
    · obtain ⟨⟨i, c⟩, way, rfl⟩ := List.mem_map.mp resumed
      obtain ⟨way, place⟩ := List.mem_filter.mp way
      obtain rfl : i = f.2 := of_decide_eq_true place
      obtain ⟨b', s', e', r, piece', found', exit⟩ := (mem_exits decoded).mp way
      refine ⟨f, closes, r, List.mem_of_getElem? found', ?_⟩
      unfold finallyExits at exit
      cases control' : r.control with
      | leave target =>
        rw [control'] at exit
        have same : ∀ f', m.Exits r.offset target f' → f'.2 = f.2 → f' = f := fun f' exits place => by
          have listed := List.mem_zipIdx_iff_getElem?.mp exits.1
          have listed' := List.mem_zipIdx_iff_getElem?.mp member
          exact Prod.ext (Option.some.inj (listed.symm.trans (place ▸ listed'))) place
        refine ⟨target, rfl, ?_⟩
        rcases mem_continuations.mp exit with ⟨before, f', g', after, eq, place, block⟩ | ⟨before, f', eq, place, block⟩
        · obtain ⟨f', exits, rfl⟩ := mem_exited.mp (eq ▸ by simp : f' ∈ exited m.clauses r.offset target)
          obtain ⟨g, exits', rfl⟩ := mem_exited.mp (eq ▸ by simp : g' ∈ exited m.clauses r.offset target)
          obtain rfl := same f' exits place
          refine .inl ⟨g, (nested.neighbours_iff exits exits').mp ⟨before, after, eq⟩, ?_⟩
          obtain ⟨j, r', c', e', found', start, piece', at'⟩ :=
            decoded.piece_of_clause (List.fst_mem_of_mem_zipIdx exits'.1) List.mem_cons_self
          obtain rfl : c' = c := Option.some.inj (at'.symm.trans block)
          exact start ▸ piece'.starts decoded found'
        · obtain ⟨f', exits, rfl⟩ := mem_exited.mp (eq ▸ by simp : f' ∈ exited m.clauses r.offset target)
          obtain rfl := same f' exits place
          refine .inr ⟨(nested.last_iff exits).mp ⟨before, eq⟩, ?_⟩
          obtain ⟨j, r', c', e', found', rfl, piece'⟩ := decoded.piece_of_target found' (t := target)
            (by simp [control', Control.targets])
          obtain rfl : c' = c := Option.some.inj ((piece'.blockOf decoded found').symm.trans block)
          exact piece'.starts decoded found'
      | _ => simp [control'] at exit
    · simp at resumed

end Method

/-- A leave out of two nested finallys, and a return behind them. -/
def twoFinallys : Method where
  records := [⟨0, 2, false, .leave 4⟩, ⟨2, 1, false, .endFinally⟩, ⟨3, 1, false, .endFinally⟩, ⟨4, 1, false, .ret⟩]
  handlers := [{ kind := .onFinally, tryStart := 0, tryEnd := 2, handlerStart := 2, handlerEnd := 3 },
    { kind := .onFinally, tryStart := 0, tryEnd := 3, handlerStart := 3, handlerEnd := 4 }]

end Ctadl.Cil
