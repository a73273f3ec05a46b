import Ctadl.Portcullis.Build
import Ctadl.Portcullis.Machine

/-! # Looking rows up by index

What a plan tries, by the indexes that were built beside the tables: row numbers from the maps, a caller's
and a function's rows from their ranges, one site's by binary search within its caller's. `Indexed` says
what each index answers; it holds of what is built (`build_indexed`), and the rows an atom tries are then
those that `Machine.candidates` reads off the tables (`mem_candidates`).
-/

namespace Ctadl.Portcullis

open Collections Facts

namespace BuiltFacts

variable (b : BuiltFacts)

/-! ## The lookups -/

def funIndex (fq : Str) : Option ℕ := b.byFq fq

/-- The numbers of the rows whose attribute `key` is `value`. -/
def funsBy (key : FunKey) (value : Str) : List ℕ :=
  match key with
  | .name => b.byName value
  | .parent => b.byParent value
  | .signature => b.bySignature value
  | .qualifiedId => []

def funsNamed (name : Str) : List ℕ := b.byNameOf name

def callsigIndex (id : Str) : Option ℕ := b.callsigsById id

def callsigsBy (key : FunKey) (value : Str) : List ℕ :=
  match key with
  | .name => b.callsigsByName value
  | .parent => b.callsigsByParent value
  | .signature => b.callsigsBySignature value
  | .qualifiedId => (b.callsigsById value).toList

/-- The rows of one caller, as a range. -/
def callsitesOfCaller (caller : Str) : ℕ × ℕ := (b.callsitesByCaller caller).getD (0, 0)

def callsitesOfCallee (callee : Str) : List ℕ := b.callsitesByCallee callee

/-- The rows of one site, by binary search within its caller's. -/
def callsitesWithId (site : SiteId) : ℕ × ℕ :=
  let rows := b.callsitesOfCaller site.caller
  let inCaller := slice b.tables.callsites rows.1 rows.2
  let start := partitionPoint (fun r : CallSiteRow => decide (r.site.position < site.position)) inCaller
  let stop := start + partitionPoint (fun r : CallSiteRow => decide (r.site.position = site.position))
    (inCaller.drop start)
  (rows.1 + start, rows.1 + stop)

def usesFieldOf (f : Str) : List ℕ := b.usesFieldByFun f

def allocatorOf (f : Str) : Option ℕ := b.allocatorsByFun f

def globalOf (name : Str) : Option ℕ := b.globalsByName name

def localsOf (f : Str) : ℕ × ℕ := (b.localsByFun f).getD (0, 0)

def supers (cls : Str) (reflexive deep : Bool) : List Str :=
  closure b.supersOf (b.tables.subclass.length + 1) cls reflexive deep

def subs (cls : Str) (reflexive deep : Bool) : List Str :=
  closure b.subsOf (b.tables.subclass.length + 1) cls reflexive deep

/-! ## The rows an atom tries -/

/-- The rows a scan visits. -/
def scan : Relation → List Row
  | .subclass reflexive deep =>
    if !reflexive && !deep then b.tables.subclass.map fun edge => .class edge.1 edge.2
    else b.tables.classes.flatMap fun sub => (b.supers sub reflexive deep).map (.class sub)
  | rel => b.tables.rows rel

/-- The rows of a table with the given numbers. -/
def rowsAt {α : Type} (table : List α) (numbers : List ℕ) : List α := numbers.filterMap (table[·]?)

section

variable (e : Env) (plan : AtomPlan)

open Machine

/-- The rows of `fun` a column's key names. -/
def keyedFun (i : ℕ) : List FunRow := rowsAt b.tables.funs ((columnKey e plan i).bind b.funIndex).toList

def generateParam : List Row :=
  let funs := match plan.access with
    | .column i => b.keyedFun e plan i
    | _ => b.tables.funs
  funs.flatMap fun f => match f.arity, (tested e plan 1).bind Value.asInt with
    | none, _ => []
    | some arity, some w => if 0 ≤ w ∧ w < arity then [.param f w] else []
    | some _, none => ProgramFacts.params f

def generateCallsite : List Row :=
  match plan.access with
  | .column 1 => match siteKey e plan with
    | some site =>
      (slice b.tables.callsites (b.callsitesWithId site).1 (b.callsitesWithId site).2).map .callSite
    | none => []
  | .column i => match columnKey e plan i with
    | some caller =>
      (slice b.tables.callsites (b.callsitesOfCaller caller).1 (b.callsitesOfCaller caller).2).map .callSite
    | none => []
  | .attr _ key => (rowsAt b.tables.callsites (keyed e key b.callsitesOfCallee)).map .callSite
  | .scan => b.scan .callSite

/-- The rows `match_atom` tries. -/
def candidates : List Row :=
  match plan.rel with
  | .fun => match plan.access with
    | .column i => (b.keyedFun e plan i).map .fun
    | .attr a key => (rowsAt b.tables.funs (keyed e key (b.funsBy (funKey a)))).map .fun
    | .scan => b.scan .fun
  | .nameOf => match plan.access with
    | .column 0 => (b.keyedFun e plan 0).flatMap fun r => r.names.map (.nameOf r)
    | .column _ => match columnKey e plan 1 with
      | some name => (rowsAt b.tables.funs (b.funsNamed name)).map (.nameOf · name)
      | none => []
    | _ => b.scan .nameOf
  | .callSig => match plan.access with
    | .column i => (rowsAt b.tables.callsigs ((columnKey e plan i).bind b.callsigIndex).toList).map .callSig
    | .attr a key => (rowsAt b.tables.callsigs (keyed e key (b.callsigsBy (funKey a)))).map .callSig
    | .scan => b.scan .callSig
  | .param => b.generateParam e plan
  | .local => match plan.access with
    | .column i => match columnKey e plan i with
      | some f => (slice b.tables.locals (b.localsOf f).1 (b.localsOf f).2).map .local
      | none => []
    | _ => b.scan .local
  | .global => match plan.access with
    | .column i => (rowsAt b.tables.globals ((columnKey e plan i).bind b.globalOf).toList).map .global
    | _ => b.scan .global
  | .callSite => b.generateCallsite e plan
  | .subclass reflexive deep => match plan.access with
    | .column 0 => match columnKey e plan 0 with
      | some sub => (b.supers sub reflexive deep).map (.class sub)
      | none => []
    | .column _ => match columnKey e plan 1 with
      | some sup => (b.subs sup reflexive deep).map (.class · sup)
      | none => []
    | _ => b.scan (.subclass reflexive deep)
  | .usesField => match plan.access with
    | .column i => match columnKey e plan i with
      | some f => (rowsAt b.tables.usesField (b.usesFieldOf f)).map fun row => .usesField row.1 row.2
      | none => []
    | _ => b.scan .usesField
  | .allocator => match plan.access with
    | .column i => (rowsAt b.tables.allocators ((columnKey e plan i).bind b.allocatorOf).toList).map .allocator
    | _ => b.scan .allocator

end

/-! ## What an index answers -/

variable {b}

/-- A list of row numbers for each key reaches the rows that have the key. -/
def Lists {α : Type} (table : List α) (index : Str → List ℕ) (has : α → Str → Prop) : Prop :=
  ∀ k r, r ∈ rowsAt table (index k) ↔ r ∈ table ∧ has r k

/-- A row number for each key reaches the row that has the key. -/
def Finds {α : Type} (table : List α) (index : Str → Option ℕ) (key : α → Str) : Prop :=
  ∀ k r, (index k).bind (table[·]?) = some r ↔ r ∈ table ∧ key r = k

/-- A range for each key covers the rows that have the key. -/
def Covers {α : Type} (table : List α) (index : Str → Option (ℕ × ℕ)) (key : α → Str) : Prop :=
  ∀ k r, (∃ s t, index k = some (s, t) ∧ r ∈ slice table s t) ↔ r ∈ table ∧ key r = k

/-- Every index answers with the rows of its table that have the key. -/
structure Indexed (b : BuiltFacts) : Prop where
  fq : Finds b.tables.funs b.byFq FunRow.fq
  name : Lists b.tables.funs b.byName fun r k => r.name = some k
  parent : Lists b.tables.funs b.byParent fun r k => r.parent = some k
  signature : Lists b.tables.funs b.bySignature fun r k => r.signature = some k
  nameOf : Lists b.tables.funs b.byNameOf fun r k => k ∈ r.names
  caller : Covers b.tables.callsites b.callsitesByCaller CallSiteRow.caller
  callee : Lists b.tables.callsites b.callsitesByCallee fun r k => r.callee = k
  usesField : Lists b.tables.usesField b.usesFieldByFun fun r k => r.1 = k
  locals : Covers b.tables.locals b.localsByFun LocalRow.function
  globals : Finds b.tables.globals b.globalsByName GlobalRow.name
  allocators : Finds b.tables.allocators b.allocatorsByFun AllocatorRow.function
  supers : b.supersOf = b.tables.supersOf
  subs : b.subsOf = b.tables.subsOf
  callsigId : Finds b.tables.callsigs b.callsigsById CallSigRow.id
  callsigName : Lists b.tables.callsigs b.callsigsByName fun r k => r.name = k
  callsigParent : Lists b.tables.callsigs b.callsigsByParent fun r k => r.parent = k
  callsigSignature : Lists b.tables.callsigs b.callsigsBySignature fun r k => r.signature = k

theorem lists_numbered {α : Type} {table : List α} {keys : α → List Str} {has : α → Str → Prop}
    (same : ∀ r k, k ∈ keys r ↔ has r k) : Lists table (numbered keys table) has := fun k r =>
  mem_rows_grouped.trans (and_congr_right fun _ => same r k)

theorem eq_of_key {α : Type} {table : List α} {key : α → Str} (nodup : (table.map key).Nodup) :
    ∀ r ∈ table, ∀ r' ∈ table, key r = key r' → r = r' := fun _ listed _ listed' =>
  List.inj_on_of_nodup_map nodup listed listed'

theorem finds_lastOf {α : Type} {table : List α} {key : α → Str} (nodup : (table.map key).Nodup) :
    Finds table (lastOf key table) key := fun _ _ => row_lastOf (eq_of_key nodup)

theorem covers_spans {α : Type} {table : List α} {key : α → Str} (together : Together key table) :
    Covers table (spans key table) key := fun _ _ => mem_slice_spans together

/-! ### The ranges of the locals -/

/-- What the functions seen so far leave in the table of locals. -/
structure LocalsKept (seen : List Str) (acc : List LocalRow × (Str → Option (ℕ × ℕ))) : Prop where
  functions : ∀ r ∈ acc.1, r.function ∈ seen
  inside : ∀ f s t, acc.2 f = some (s, t) → t ≤ acc.1.length
  covers : Covers acc.1 acc.2 LocalRow.function

theorem LocalsKept.add {seen : List Str} {acc : List LocalRow × (Str → Option (ℕ × ℕ))} {data : Cir.FunctionData}
    (kept : LocalsKept seen acc) (new : data.name ∉ seen) : LocalsKept (data.name :: seen) (addLocals acc data) := by
  obtain ⟨rows, index⟩ := acc
  unfold addLocals
  generalize declared : (data.locals.zipIdx.map fun decl =>
    (⟨data.name, asU32 decl.2, decl.1⟩ : LocalRow)) = own
  have named : ∀ r ∈ own, r.function = data.name := by
    rw [← declared]
    intro r listed
    obtain ⟨decl, -, rfl⟩ := List.mem_map.mp listed
    rfl
  refine ⟨fun r listed => ?_, fun f s t range => ?_, fun f r => ?_⟩
  · obtain old | here := List.mem_append.mp listed
    · exact .tail _ (kept.functions r old)
    · exact named r here ▸ .head _
  · by_cases same : f = data.name
    · subst same
      simp only [Function.update_self, Option.some.injEq, Prod.mk.injEq] at range
      exact range.2.symm.le
    · simp only [Function.update_of_ne same] at range
      exact (kept.inside f s t range).trans (by simp)
  · by_cases same : f = data.name
    · subst same
      simp only [Function.update_self, Option.some.injEq, Prod.mk.injEq]
      have new : ∀ r ∈ rows, r.function ≠ data.name := fun r old eq => new (eq ▸ kept.functions r old)
      have range : slice (rows ++ own) rows.length (rows ++ own).length = own := by simp [slice]
      constructor
      · rintro ⟨s, t, ⟨rfl, rfl⟩, listed⟩
        rw [range] at listed
        exact ⟨List.mem_append_right _ listed, named r listed⟩
      · rintro ⟨listed, eq⟩
        refine ⟨_, _, ⟨rfl, rfl⟩, ?_⟩
        rw [range]
        exact (List.mem_append.mp listed).resolve_left fun old => new r old eq
    · simp only [Function.update_of_ne same]
      rw [List.mem_append, or_and_right, ← kept.covers f r,
        or_iff_left fun mine : r ∈ own ∧ r.function = f => same (mine.2 ▸ named r mine.1)]
      constructor
      · rintro ⟨s, t, range, listed⟩
        exact ⟨s, t, range, slice_append (kept.inside f s t range) own ▸ listed⟩
      · rintro ⟨s, t, range, listed⟩
        exact ⟨s, t, range, (slice_append (kept.inside f s t range) own).symm ▸ listed⟩

theorem localsKept_foldl {functions : List Cir.FunctionData} {seen : List Str}
    {acc : List LocalRow × (Str → Option (ℕ × ℕ))} (kept : LocalsKept seen acc)
    (nodup : (functions.map (·.name)).Nodup) (new : ∀ data ∈ functions, data.name ∉ seen) :
    ∃ seen', LocalsKept seen' (functions.foldl addLocals acc) := by
  induction functions generalizing seen acc with
  | nil => exact ⟨seen, kept⟩
  | cons data functions ih =>
    rw [List.map_cons, List.nodup_cons] at nodup
    refine ih (kept.add (new data (.head _))) nodup.2 fun data' later member => ?_
    rcases List.mem_cons.mp member with same | old
    · exact nodup.1 (List.mem_map.mpr ⟨data', later, same⟩)
    · exact new data' (.tail _ later) old

theorem covers_buildLocals {functions : List Cir.FunctionData} (nodup : (functions.map (·.name)).Nodup) :
    Covers (buildLocals functions).1 (buildLocals functions).2 LocalRow.function := by
  have nothing : LocalsKept [] ([], fun _ => none) := ⟨by simp, by simp, fun f r => by simp⟩
  obtain ⟨seen, kept⟩ := localsKept_foldl nothing nodup (by simp)
  exact kept.covers

/-- What is built is indexed. -/
theorem build_indexed (shape : ShapeMeasure) (index : ProgramMatchIndex) (needs : Needs) :
    (build shape index needs).Indexed where
  fq k r := by
    change ((funTable index).byFq k).bind ((funTable index).rows[·]?) = some r ↔ r ∈ (funTable index).rows ∧ r.fq = k
    constructor
    · intro found
      obtain ⟨i, number, here⟩ := Option.bind_eq_some_iff.mp found
      have same := ((funTable index).lawful k i).mp number
      rw [here] at same
      exact ⟨List.mem_of_getElem? here, Option.some.inj same⟩
    · rintro ⟨listed, rfl⟩
      obtain ⟨i, here⟩ := List.mem_iff_getElem?.mp listed
      rw [((funTable index).lawful r.fq i).mpr (by rw [here, Option.map_some]), Option.bind_some, here]
  name := lists_numbered fun r k => Option.mem_toList
  parent := lists_numbered fun r k => Option.mem_toList
  signature := lists_numbered fun r k => Option.mem_toList
  nameOf := lists_numbered fun r k => Iff.rfl
  caller := by
    refine covers_spans ?_
    change Together CallSiteRow.caller (if needs.callsite then scanCallsites index else [])
    split_ifs
    · exact together_flatMap (fun data r => functionSites_caller) index.functions_nodup
    · intro i j l k _ _ first
      simp at first
  callee := lists_numbered fun r k => by rw [List.mem_singleton, eq_comm]
  usesField := lists_numbered fun r k => by rw [List.mem_singleton, eq_comm]
  locals := by
    change Covers (if needs.local' then (buildLocals index.functions).1 else [])
      (if needs.local' then (buildLocals index.functions).2 else fun _ => none) LocalRow.function
    split_ifs
    · exact covers_buildLocals index.functions_nodup
    · intro f r
      simp
  globals k r := row_lastOf fun r _ r' _ same => by cases r; cases r'; exact congrArg GlobalRow.mk same
  allocators := finds_lastOf (buildTables shape index needs).allocators_nodup
  supers := by
    funext cls
    exact grouped_singleton
  subs := by
    funext cls
    exact grouped_singleton
  callsigId := finds_lastOf (buildTables shape index needs).callsigs_nodup
  callsigName := lists_numbered fun r k => by rw [List.mem_singleton, eq_comm]
  callsigParent := lists_numbered fun r k => by rw [List.mem_singleton, eq_comm]
  callsigSignature := lists_numbered fun r k => by rw [List.mem_singleton, eq_comm]

/-! ## The rows tried are those of the tables -/

section Refinement

variable {α : Type} {e : Env} {plan : AtomPlan} {table : List α} {r : α}

theorem mem_map_congr {β : Type} {l l' : List α} {f : α → β} {y : β} (same : ∀ x, x ∈ l ↔ x ∈ l') :
    y ∈ l.map f ↔ y ∈ l'.map f := by
  simp only [List.mem_map, same]

theorem mem_flatMap_congr {β : Type} {l l' : List α} {f : α → List β} {y : β} (same : ∀ x, x ∈ l ↔ x ∈ l') :
    y ∈ l.flatMap f ↔ y ∈ l'.flatMap f := by
  simp only [List.mem_flatMap, same]

theorem find?_key {key : α → Str} {k : Str} (only : ∀ r ∈ table, ∀ r' ∈ table, key r = key r' → r = r') :
    table.find? (key · = k) = some r ↔ r ∈ table ∧ key r = k := by
  constructor
  · intro found
    exact ⟨List.mem_of_find?_eq_some found, by simpa using List.find?_some found⟩
  · rintro ⟨listed, rfl⟩
    cases found : table.find? (key · = key r) with
    | none => simpa using List.find?_eq_none.mp found r listed
    | some r' =>
      rw [only r' (List.mem_of_find?_eq_some found) r listed (by simpa using List.find?_some found)]

theorem mem_rowsAt_finds {index : Str → Option ℕ} {key : α → Str} {o : Option Str}
    (finds : Finds table index key) (only : ∀ r ∈ table, ∀ r' ∈ table, key r = key r' → r = r') :
    r ∈ rowsAt table (o.bind index).toList ↔ r ∈ (o.bind fun k => table.find? (key · = k)).toList := by
  have toBind : r ∈ rowsAt table (o.bind index).toList ↔ (o.bind index).bind (table[·]?) = some r := by
    unfold rowsAt
    cases o.bind index with
    | none => simp
    | some i => simp [List.mem_filterMap]
  rw [toBind, Option.mem_toList]
  cases o with
  | none => simp
  | some k => exact (finds k r).trans (find?_key only).symm

/-- A lookup by one key or by a set of keys reaches alike what the lookups of each key reach alike. -/
theorem mem_rowsAt_keyed [DecidableEq α] {key : Key} {index : Str → List ℕ} {lookup : Str → List α}
    (same : ∀ k, r ∈ rowsAt table (index k) ↔ r ∈ lookup k) :
    r ∈ rowsAt table (Machine.keyed e key index) ↔ r ∈ Machine.keyed e key lookup := by
  cases key with
  | one op =>
    simp only [Machine.keyed]
    cases (Machine.value e op).bind Value.asStr with
    | none => simp [rowsAt]
    | some k => exact same k
  | set members =>
    simp only [Machine.keyed, List.mem_dedup, List.mem_flatMap, ← same, rowsAt, List.mem_filterMap]
    constructor
    · rintro ⟨i, ⟨k, member, listed⟩, here⟩
      exact ⟨k, member, i, listed, here⟩
    · rintro ⟨k, member, i, listed, here⟩
      exact ⟨i, ⟨k, member, listed⟩, here⟩

theorem mem_slice_covers {index : Str → Option (ℕ × ℕ)} {key : α → Str} {k : Str} (covers : Covers table index key) :
    r ∈ slice table ((index k).getD (0, 0)).1 ((index k).getD (0, 0)).2 ↔ r ∈ table ∧ key r = k := by
  rw [← covers k r]
  cases index k with
  | none => simp [slice]
  | some range =>
    constructor
    · exact fun listed => ⟨range.1, range.2, rfl, listed⟩
    · rintro ⟨s, t, ⟨⟩, listed⟩
      exact listed

variable {b : BuiltFacts} {row : Row}

theorem Indexed.mem_callsitesOfCaller (indexed : b.Indexed) {caller : Str} {r : CallSiteRow} :
    r ∈ slice b.tables.callsites (b.callsitesOfCaller caller).1 (b.callsitesOfCaller caller).2 ↔
      r ∈ b.tables.callsites ∧ r.caller = caller := mem_slice_covers indexed.caller

theorem site_eq_iff {r : CallSiteRow} {site : SiteId} :
    r.site = site ↔ r.caller = site.caller ∧ r.site.position = site.position := by
  obtain ⟨caller, block, stmt⟩ := site
  simp [CallSiteRow.site, SiteId.position]

/-- Both binary searches end at the site's rows. -/
theorem Indexed.mem_callsitesWithId (indexed : b.Indexed) {site : SiteId} {r : CallSiteRow} :
    r ∈ slice b.tables.callsites (b.callsitesWithId site).1 (b.callsitesWithId site).2 ↔
      r ∈ b.tables.callsites ∧ r.site = site := by
  have own : ∀ r ∈ slice b.tables.callsites (b.callsitesOfCaller site.caller).1 (b.callsitesOfCaller site.caller).2,
      r.caller = site.caller := fun r listed => (indexed.mem_callsitesOfCaller.mp listed).2
  have sorted : (slice b.tables.callsites (b.callsitesOfCaller site.caller).1
      (b.callsitesOfCaller site.caller).2).Pairwise fun r r' => r.site.position ≤ r'.site.position :=
    List.Pairwise.imp_of_mem (fun left right le => le ((own _ left).trans (own _ right).symm))
      (b.tables.callsites_sorted.sublist slice_sublist)
  have inside : ∀ {n m : ℕ} {rows : List CallSiteRow}, n ≤ rows.length → m ≤ (rows.drop n).length →
      n + m ≤ rows.length := fun {n m rows} le le' => by
    rw [List.length_drop] at le'
    omega
  rw [callsitesWithId, ← slice_slice ((inside partitionPoint_le partitionPoint_le).trans length_slice_le),
    mem_equal_range sorted rfl, indexed.mem_callsitesOfCaller, and_assoc, ← site_eq_iff]

theorem mem_takeWhile_least {rows : List CallSiteRow} {site : SiteId} {r : CallSiteRow}
    (sorted : rows.Pairwise fun r r' => r.site.position ≤ r'.site.position)
    (least : ∀ r ∈ rows, site.position ≤ r.site.position) :
    r ∈ rows.takeWhile (fun r => decide (r.site.position = site.position)) ↔
      r ∈ rows ∧ r.site.position = site.position := by
  induction rows with
  | nil => simp
  | cons first rows ih =>
    obtain ⟨first_least, sorted⟩ := List.pairwise_cons.mp sorted
    rw [List.takeWhile_cons]
    split_ifs with here
    · rw [List.mem_cons, List.mem_cons, ih sorted fun r later => least r (.tail _ later)]
      have same : r = first → r.site.position = site.position := fun eq => eq ▸ of_decide_eq_true here
      tauto
    · have beyond := lt_of_le_of_ne (least first (.head _)) (Ne.symm (by simpa using here))
      refine iff_of_false (by simp) fun both => ?_
      rcases List.mem_cons.mp both.1 with rfl | later
      · exact beyond.ne' both.2
      · exact (beyond.trans_le (first_least r later)).ne' both.2

theorem mem_dropWhile_takeWhile {rows : List CallSiteRow} {site : SiteId} {r : CallSiteRow}
    (sorted : rows.Pairwise fun r r' => r.site.position ≤ r'.site.position) :
    r ∈ (rows.dropWhile fun r => decide (r.site.position < site.position)).takeWhile (fun r =>
      decide (r.site.position = site.position)) ↔ r ∈ rows ∧ r.site.position = site.position := by
  induction rows with
  | nil => simp
  | cons first rows ih =>
    rw [List.dropWhile_cons]
    split_ifs with before
    · rw [ih (List.pairwise_cons.mp sorted).2, List.mem_cons]
      have other : r = first → r.site.position ≠ site.position := fun eq => eq ▸ (of_decide_eq_true before).ne
      tauto
    · have after : site.position ≤ first.site.position := not_lt.mp (by simpa using before)
      refine mem_takeWhile_least sorted fun r' member => ?_
      rcases List.mem_cons.mp member with rfl | later
      · exact after
      · exact after.trans ((List.pairwise_cons.mp sorted).1 r' later)

theorem mem_table_callsitesWithId {facts : ProgramFacts} {site : SiteId} {r : CallSiteRow} :
    r ∈ facts.callsitesWithId site ↔ r ∈ facts.callsites ∧ r.site = site := by
  unfold ProgramFacts.callsitesWithId ProgramFacts.callsitesOfCaller
  rw [mem_dropWhile_takeWhile, List.mem_filter, decide_eq_true_eq, and_assoc, ← site_eq_iff]
  refine List.Pairwise.imp_of_mem (fun left right le => le ?_) (facts.callsites_sorted.sublist List.filter_sublist)
  rw [of_decide_eq_true (List.mem_filter.mp left).2, of_decide_eq_true (List.mem_filter.mp right).2]

theorem Indexed.mem_keyedFun (indexed : b.Indexed) {i : ℕ} {r : FunRow} :
    r ∈ b.keyedFun e plan i ↔ r ∈ ((Machine.columnKey e plan i).bind b.tables.funRow).toList :=
  mem_rowsAt_finds indexed.fq (eq_of_key b.tables.funs_nodup)

theorem Indexed.mem_funsBy (indexed : b.Indexed) {key : FunKey} {value : Str} {r : FunRow} :
    r ∈ rowsAt b.tables.funs (b.funsBy key value) ↔ r ∈ b.tables.funsBy key value := by
  unfold ProgramFacts.funsBy
  rw [List.mem_filter, decide_eq_true_eq]
  cases key with
  | name => exact indexed.name value r
  | parent => exact indexed.parent value r
  | signature => exact indexed.signature value r
  | qualifiedId => simp [funsBy, rowsAt, FunRow.attr]

theorem Indexed.mem_funsNamed (indexed : b.Indexed) {name : Str} {r : FunRow} :
    r ∈ rowsAt b.tables.funs (b.funsNamed name) ↔ r ∈ b.tables.funsNamed name := by
  rw [funsNamed, indexed.nameOf name r]
  simp only [ProgramFacts.funsNamed, List.mem_flatMap, List.mem_map, List.mem_filter, decide_eq_true_eq]
  constructor
  · rintro ⟨listed, named⟩
    exact ⟨r, listed, name, ⟨named, rfl⟩, rfl⟩
  · rintro ⟨r', listed, _, ⟨named, rfl⟩, rfl⟩
    exact ⟨listed, named⟩

theorem Indexed.mem_callsigsBy (indexed : b.Indexed) {key : FunKey} {value : Str} {r : CallSigRow} :
    r ∈ rowsAt b.tables.callsigs (b.callsigsBy key value) ↔ r ∈ b.tables.callsigsBy key value := by
  cases key with
  | name =>
    rw [ProgramFacts.callsigsBy, List.mem_filter, decide_eq_true_eq]
    exact indexed.callsigName value r
  | parent =>
    rw [ProgramFacts.callsigsBy, List.mem_filter, decide_eq_true_eq]
    exact indexed.callsigParent value r
  | signature =>
    rw [ProgramFacts.callsigsBy, List.mem_filter, decide_eq_true_eq]
    exact indexed.callsigSignature value r
  | qualifiedId =>
    exact mem_rowsAt_finds (o := some value) indexed.callsigId (eq_of_key b.tables.callsigs_nodup)

theorem Indexed.supers_eq (indexed : b.Indexed) : b.supers = b.tables.supers := by
  funext cls reflexive deep
  rw [BuiltFacts.supers, ProgramFacts.supers, indexed.supers]

theorem Indexed.subs_eq (indexed : b.Indexed) : b.subs = b.tables.subs := by
  funext cls reflexive deep
  rw [BuiltFacts.subs, ProgramFacts.subs, indexed.subs]

theorem Indexed.scan_eq (indexed : b.Indexed) (rel : Relation) : b.scan rel = b.tables.rows rel := by
  cases rel with
  | subclass reflexive deep => rw [scan, ProgramFacts.rows, indexed.supers_eq]
  | _ => rfl

theorem Indexed.mem_generateParam (indexed : b.Indexed) :
    row ∈ b.generateParam e plan ↔ row ∈ Machine.paramRows b.tables e plan := by
  unfold generateParam Machine.paramRows
  refine mem_flatMap_congr fun r => ?_
  cases plan.access with
  | column i => exact indexed.mem_keyedFun
  | scan | attr => rfl

theorem Indexed.mem_generateCallsite (indexed : b.Indexed) :
    row ∈ b.generateCallsite e plan ↔ row ∈ Machine.callsiteRows b.tables e plan := by
  have caller : ∀ {o : Option Str}, row ∈ (match o with
      | some caller =>
        (slice b.tables.callsites (b.callsitesOfCaller caller).1 (b.callsitesOfCaller caller).2).map Row.callSite
      | none => []) ↔ row ∈ (match o with
      | some caller => (b.tables.callsitesOfCaller caller).map Row.callSite
      | none => []) := fun {o} => by
    cases o with
    | none => rfl
    | some caller =>
      refine mem_map_congr fun r => indexed.mem_callsitesOfCaller.trans ?_
      rw [ProgramFacts.callsitesOfCaller, List.mem_filter, decide_eq_true_eq]
  unfold generateCallsite Machine.callsiteRows
  cases plan.access with
  | scan => rfl
  | attr a key =>
    refine mem_map_congr fun r => mem_rowsAt_keyed fun k => (indexed.callee k r).trans ?_
    rw [ProgramFacts.callsitesOfCallee, List.mem_filter, decide_eq_true_eq]
  | column i =>
    match i with
    | 0 => exact caller
    | 1 =>
      cases Machine.siteKey e plan with
      | none => rfl
      | some site =>
        exact mem_map_congr fun r => indexed.mem_callsitesWithId.trans mem_table_callsitesWithId.symm
    | i + 2 => exact caller

/-- The rows tried by index are those the tables have. -/
theorem Indexed.mem_candidates (indexed : b.Indexed) :
    row ∈ b.candidates e plan ↔ row ∈ Machine.candidates b.tables e plan := by
  unfold candidates Machine.candidates
  cases plan.rel with
  | «fun» =>
    cases plan.access with
    | scan => rfl
    | column i => exact mem_map_congr fun r => indexed.mem_keyedFun
    | attr a key => exact mem_map_congr fun r => mem_rowsAt_keyed fun k => indexed.mem_funsBy
  | nameOf =>
    cases plan.access with
    | scan | attr => rfl
    | column i =>
      match i with
      | 0 => exact mem_flatMap_congr fun r => indexed.mem_keyedFun
      | i + 1 =>
        cases Machine.columnKey e plan 1 with
        | none => rfl
        | some name => exact mem_map_congr fun r => indexed.mem_funsNamed
  | callSig =>
    cases plan.access with
    | scan => rfl
    | column i =>
      exact mem_map_congr fun r => mem_rowsAt_finds indexed.callsigId (eq_of_key b.tables.callsigs_nodup)
    | attr a key => exact mem_map_congr fun r => mem_rowsAt_keyed fun k => indexed.mem_callsigsBy
  | param => exact indexed.mem_generateParam
  | «local» =>
    cases plan.access with
    | scan | attr => rfl
    | column i =>
      simp only
      cases Machine.columnKey e plan i with
      | none => rfl
      | some f =>
        rw [Option.toList_some, List.flatMap_singleton]
        refine mem_map_congr fun r => (mem_slice_covers indexed.locals).trans ?_
        rw [ProgramFacts.localsOf, List.mem_filter, decide_eq_true_eq]
  | global =>
    cases plan.access with
    | scan | attr => rfl
    | column i =>
      refine mem_map_congr fun r => mem_rowsAt_finds indexed.globals fun r _ r' _ same => ?_
      cases r
      cases r'
      exact congrArg GlobalRow.mk same
  | callSite => exact indexed.mem_generateCallsite
  | subclass reflexive deep =>
    cases plan.access with
    | scan | attr =>
      change row ∈ b.scan _ ↔ row ∈ b.tables.rows _
      rw [indexed.scan_eq]
    | column i =>
      match i with
      | 0 =>
        simp only
        cases Machine.columnKey e plan 0 with
        | none => rfl
        | some sub => rw [Option.toList_some, List.flatMap_singleton, indexed.supers_eq]
      | i + 1 =>
        simp only
        cases Machine.columnKey e plan 1 with
        | none => rfl
        | some sup => rw [Option.toList_some, List.flatMap_singleton, indexed.subs_eq]
  | usesField =>
    cases plan.access with
    | scan | attr => rfl
    | column i =>
      simp only
      cases Machine.columnKey e plan i with
      | none => rfl
      | some f =>
        rw [Option.toList_some, List.flatMap_singleton]
        refine mem_map_congr fun r => (indexed.usesField f r).trans ?_
        rw [ProgramFacts.usesFieldOf, List.mem_filter, decide_eq_true_eq]
  | allocator =>
    cases plan.access with
    | scan | attr => rfl
    | column i =>
      exact mem_map_congr fun r => mem_rowsAt_finds indexed.allocators (eq_of_key b.tables.allocators_nodup)

end Refinement

end BuiltFacts

end Ctadl.Portcullis
