import Ctadl.Portcullis.Indexes

/-! # A lookup and a scan

Whether the rows an atom reaches through an index and then accepts are those a scan of the relation visits
and accepts. The test of a column or an attribute goes by the text of a value and a lookup by its name; a
call site has a text and no name, a signature or a global has a name that may spell a site. Apart from
these, and from `subclass*` looked up by what is no class of the program, the two agree
(`indexIsScan_iff`).
-/

open Relation (TransGen)

namespace Ctadl.Portcullis

open Facts Flowgraph

/-! ## The closures of the class hierarchy -/

section Hierarchy

variable {facts : ProgramFacts} {sub sup : Str} {reflexive deep : Bool}

def ProgramFacts.Edge (facts : ProgramFacts) (sub sup : Str) : Prop := (sub, sup) ∈ facts.subclass

/-- A direct superclass, or one at any depth. -/
def ProgramFacts.Above (facts : ProgramFacts) (deep : Bool) (sub sup : Str) : Prop :=
  if deep then TransGen facts.Edge sub sup else facts.Edge sub sup

/-- `subclass`, `subclass+` and `subclass*` of the program's classes. -/
def ProgramFacts.Subclass (facts : ProgramFacts) (reflexive deep : Bool) (sub sup : Str) : Prop :=
  (reflexive = true ∧ sub ∈ facts.classes ∧ sup = sub) ∨ facts.Above deep sub sup

theorem mem_closure {edges : Str → List Str} {bound : Finset Str} {fuel : ℕ} {x y : Str}
    (inside : ∀ x, ∀ y ∈ edges x, y ∈ bound) (enough : bound.card ≤ fuel) :
    y ∈ closure edges (fuel + 1) x reflexive deep ↔
      (reflexive = true ∧ y = x) ∨ if deep then TransGen (fun a b => b ∈ edges a) x y else y ∈ edges x := by
  unfold closure
  rw [List.mem_dedup, List.mem_append]
  refine or_congr (by cases reflexive <;> simp) ?_
  cases deep with
  | false => rfl
  | true => exact Worklist.mem_drain_downstream inside enough

theorem card_le_edges {f : Str × Str → Str} : (facts.subclass.map f).toFinset.card ≤ facts.subclass.length :=
  (List.toFinset_card_le _).trans (List.length_map ..).le

theorem mem_supersOf : sup ∈ facts.supersOf sub ↔ facts.Edge sub sup := by
  simp [ProgramFacts.supersOf, ProgramFacts.Edge]

theorem mem_subsOf : sub ∈ facts.subsOf sup ↔ facts.Edge sub sup := by
  simp [ProgramFacts.subsOf, ProgramFacts.Edge]

/-- The superclasses of a name, a class or not. -/
theorem mem_supers : sup ∈ facts.supers sub reflexive deep ↔
    (reflexive = true ∧ sup = sub) ∨ facts.Above deep sub sup := by
  have inside : ∀ x, ∀ y ∈ facts.supersOf x, y ∈ (facts.subclass.map Prod.snd).toFinset := fun x y up => by
    rw [List.mem_toFinset, List.mem_map]
    exact ⟨(x, y), mem_supersOf.mp up, rfl⟩
  rw [ProgramFacts.supers, mem_closure inside card_le_edges, ProgramFacts.Above]
  simp only [mem_supersOf]

theorem mem_subs : sub ∈ facts.subs sup reflexive deep ↔
    (reflexive = true ∧ sub = sup) ∨ facts.Above deep sub sup := by
  have inside : ∀ x, ∀ y ∈ facts.subsOf x, y ∈ (facts.subclass.map Prod.fst).toFinset := fun x y down => by
    rw [List.mem_toFinset, List.mem_map]
    exact ⟨(y, x), mem_subsOf.mp down, rfl⟩
  rw [ProgramFacts.subs, mem_closure inside card_le_edges, ProgramFacts.Above]
  simp only [mem_subsOf]
  rw [show (fun a b => facts.Edge b a) = Function.swap facts.Edge from rfl, Relation.transGen_swap]

theorem above_classes (above : facts.Above deep sub sup) :
    sub ∈ facts.classes ∧ sup ∈ facts.classes := by
  have one : ∀ {sub sup}, facts.Edge sub sup → sub ∈ facts.classes ∧ sup ∈ facts.classes := fun edge =>
    facts.subclass_classes _ edge
  cases deep with
  | false => exact one above
  | true =>
    obtain ⟨_, first, -⟩ := Relation.TransGen.head'_iff.mp above
    obtain ⟨_, -, last⟩ := Relation.TransGen.tail'_iff.mp above
    exact ⟨(one first).1, (one last).2⟩

/-- The scan of a subclass relation visits the pairs of the relation, cycles or no cycles. -/
theorem class_mem_rows : .class sub sup ∈ facts.rows (.subclass reflexive deep) ↔
    facts.Subclass reflexive deep sub sup := by
  unfold ProgramFacts.rows ProgramFacts.Subclass
  simp only
  split_ifs with direct
  · obtain ⟨rfl, rfl⟩ : reflexive = false ∧ deep = false := by simpa using direct
    simp [ProgramFacts.Above, ProgramFacts.Edge]
  · simp only [List.mem_flatMap, List.mem_map, Row.class.injEq, mem_supers]
    constructor
    · rintro ⟨_, listed, _, given | up, rfl, rfl⟩
      · exact .inl ⟨given.1, listed, given.2⟩
      · exact .inr up
    · rintro (⟨given, listed, same⟩ | up)
      · exact ⟨sub, listed, sup, .inl ⟨given, same⟩, rfl, rfl⟩
      · exact ⟨sub, (above_classes up).1, sup, .inr up, rfl, rfl⟩

end Hierarchy

/-! ## What a lookup asks of a row -/

section Lookups

open Machine
open BuiltFacts (find?_key eq_of_key mem_table_callsitesWithId)

variable {facts : ProgramFacts} {e : Env} {plan : AtomPlan} {row : Row}

/-- A key of an attribute lookup is `s`, or a set with `s` in it. -/
def Names (e : Env) : Key → Str → Prop
  | .one op, s => (value e op).bind Value.asStr = some s
  | .set members, s => s ∈ members

theorem mem_keyed {α : Type} [DecidableEq α] {key : Key} {lookup : Str → List α} {r : α} :
    r ∈ keyed e key lookup ↔ ∃ s, Names e key s ∧ r ∈ lookup s := by
  cases key with
  | one op =>
    simp only [keyed, Names]
    cases (value e op).bind Value.asStr with
    | none => simp
    | some s => simp
  | set members => simp [keyed, Names]

/-- The row has what a lookup goes by: the name in the column, the site in it, or the attribute. -/
def Asked (facts : ProgramFacts) (e : Env) (plan : AtomPlan) (row : Row) : Prop :=
  match plan.rel, plan.access with
  | _, .scan => True
  | .callSite, .column 1 => ∃ site, siteKey e plan = some site ∧ (row.columnValue 1).asSite = some site
  | _, .column i => ∃ s, columnKey e plan i = some s ∧ (row.columnValue i).asStr = some s
  | _, .attr a key => ∃ s, Names e key s ∧ facts.attrValue row a = some (.str s)

theorem asked_column {i : ℕ} (access : plan.access = .column i) (other : ¬ (plan.rel = .callSite ∧ i = 1)) :
    Asked facts e plan row ↔ ∃ s, columnKey e plan i = some s ∧ (row.columnValue i).asStr = some s := by
  unfold Asked
  rw [access]
  split
  · next eq => cases eq
  · next rel eq => exact absurd ⟨rel, Access.column.inj eq⟩ other
  · next eq _ =>
    obtain rfl := Access.column.inj eq
    rfl
  · next eq => cases eq

theorem asked_attr {a : Attr} {key : Key} (access : plan.access = .attr a key) :
    Asked facts e plan row ↔ ∃ s, Names e key s ∧ facts.attrValue row a = some (.str s) := by
  unfold Asked
  rw [access]

/-- The access goes by an index of the relation. -/
def Served (plan : AtomPlan) : Prop :=
  match plan.access with
  | .scan => True
  | .column i => i ∈ plan.rel.indexedColumns
  | .attr a _ => a ∈ plan.rel.indexedAttrs

/-- A parameter of another index than the one asked for is not tried. -/
def Wanted (e : Env) (plan : AtomPlan) (row : Row) : Prop :=
  plan.rel = .param → ∀ w, (tested e plan 1).bind Value.asInt = some w → row.columnValue 1 = .int w

/-- The reflexive pair of what is no class, which a lookup by it reaches. -/
def Stray (facts : ProgramFacts) (e : Env) (plan : AtomPlan) (row : Row) : Prop :=
  ∃ deep i s, plan.rel = .subclass true deep ∧ plan.access = .column i ∧ columnKey e plan i = some s ∧
    s ∉ facts.classes ∧ row = .class s s

theorem mem_params {r : FunRow} : row ∈ ProgramFacts.params r ↔
    ∃ i, row = .param r i ∧ ∃ arity, r.arity = some arity ∧ 0 ≤ i ∧ i < arity := by
  unfold ProgramFacts.params
  cases r.arity with
  | none => simp
  | some n =>
    simp only [List.mem_map, List.bind_eq_flatMap, List.pure_def, List.mem_flatMap, List.mem_range, List.mem_singleton]
    constructor
    · rintro ⟨_, ⟨j, less, rfl⟩, rfl⟩
      exact ⟨j, rfl, n, rfl, by omega, by omega⟩
    · rintro ⟨i, rfl, _, ⟨rfl⟩, least, less⟩
      exact ⟨i, ⟨i.toNat, by omega, by omega⟩, rfl⟩

/-- The parameters tried of one function. -/
theorem mem_triedParams {r : FunRow} {w : Option ℤ} :
    row ∈ (match r.arity, w with
      | none, _ => []
      | some arity, some w => if 0 ≤ w ∧ w < arity then [Row.param r w] else []
      | some _, none => ProgramFacts.params r) ↔
    row ∈ ProgramFacts.params r ∧ ∀ w', w = some w' → row.columnValue 1 = .int w' := by
  rw [mem_params]
  cases arity : r.arity with
  | none => simp
  | some n =>
    cases w with
    | none => simp [mem_params, arity]
    | some w =>
      simp only [Option.some.injEq]
      split_ifs with inside
      · constructor
        · intro listed
          obtain rfl := List.mem_singleton.mp listed
          exact ⟨⟨w, rfl, n, rfl, inside⟩, fun _ eq => congrArg Value.int eq⟩
        · rintro ⟨⟨i, rfl, -⟩, only⟩
          obtain rfl := Value.int.inj (only w rfl)
          exact .head _
      · refine iff_of_false (by simp) ?_
        rintro ⟨⟨i, rfl, _, rfl, range⟩, only⟩
        exact inside (Value.int.inj (only w rfl) ▸ range)

theorem mem_funRow {o : Option Str} {r : FunRow} :
    r ∈ (o.bind facts.funRow).toList ↔ r ∈ facts.funs ∧ o = some r.fq := by
  rw [Option.mem_toList]
  cases o with
  | none => simp
  | some fq =>
    rw [Option.bind_some, ProgramFacts.funRow, find?_key (eq_of_key facts.funs_nodup), Option.some.injEq,
      @eq_comm _ fq]

theorem exists_triedFuns (served : Served plan) (rel : plan.rel = .param) :
    (∃ r ∈ (match plan.access with
      | .column i => ((columnKey e plan i).bind facts.funRow).toList
      | _ => facts.funs), row ∈ ProgramFacts.params r) ↔
      (∃ r ∈ facts.funs, row ∈ ProgramFacts.params r) ∧ Asked facts e plan row := by
  unfold Asked
  unfold Served at served
  cases access : plan.access with
  | scan => simp
  | attr a key => simp [access, rel, Relation.indexedAttrs] at served
  | column i =>
    obtain rfl : i = 0 := by simpa [access, rel, Relation.indexedColumns] using served
    simp only [mem_funRow, rel]
    constructor
    · rintro ⟨r, ⟨listed, key⟩, inside⟩
      obtain ⟨i, rfl, -⟩ := mem_params.mp inside
      exact ⟨⟨r, listed, inside⟩, r.fq, key, rfl⟩
    · rintro ⟨⟨r, listed, inside⟩, s, key, name⟩
      obtain ⟨i, rfl, -⟩ := mem_params.mp inside
      obtain rfl := Option.some.inj name
      exact ⟨r, ⟨listed, key⟩, inside⟩

theorem mem_paramRows (served : Served plan) (rel : plan.rel = .param) :
    row ∈ paramRows facts e plan ↔ row ∈ facts.rows .param ∧ Asked facts e plan row ∧ Wanted e plan row := by
  unfold paramRows
  rw [List.mem_flatMap]
  refine (exists_congr fun r => and_congr_right fun _ => mem_triedParams).trans ?_
  simp only [ProgramFacts.rows, List.mem_flatMap, Wanted, rel, forall_const]
  rw [← and_assoc, ← exists_triedFuns served rel]
  constructor
  · rintro ⟨r, found, inside, wanted⟩
    exact ⟨⟨r, found, inside⟩, wanted⟩
  · rintro ⟨⟨r, found, inside⟩, wanted⟩
    exact ⟨r, found, inside, wanted⟩

/-- A row of one table that is found by its key alone. -/
theorem mem_find_map {α : Type} {table : List α} {key : α → Str} {into : α → Row} {o : Option Str}
    {n : Row → Option Str} (named : ∀ r, n (into r) = some (key r))
    (only : ∀ r ∈ table, ∀ r' ∈ table, key r = key r' → r = r') :
    row ∈ (o.bind fun k => table.find? (key · = k)).toList.map into ↔
      row ∈ table.map into ∧ ∃ s, o = some s ∧ n row = some s := by
  simp only [List.mem_map, Option.mem_toList]
  cases o with
  | none => simp
  | some k =>
    simp only [Option.bind_some, find?_key only, Option.some.injEq]
    constructor
    · rintro ⟨r, ⟨listed, rfl⟩, rfl⟩
      exact ⟨⟨r, listed, rfl⟩, key r, rfl, named r⟩
    · rintro ⟨⟨r, listed, rfl⟩, s, rfl, same⟩
      rw [named] at same
      exact ⟨r, ⟨listed, Option.some.inj same⟩, rfl⟩

/-- The rows of one table with a key in a column. -/
theorem mem_filter_map {α : Type} {table : List α} {key : α → Str} {into : α → Row} {o : Option Str}
    {n : Row → Option Str} (named : ∀ r, n (into r) = some (key r)) :
    row ∈ o.toList.flatMap (fun k => (table.filter (key · = k)).map into) ↔
      row ∈ table.map into ∧ ∃ s, o = some s ∧ n row = some s := by
  simp only [List.mem_flatMap, List.mem_map, List.mem_filter, Option.mem_toList, decide_eq_true_eq]
  constructor
  · rintro ⟨k, rfl, r, ⟨listed, rfl⟩, rfl⟩
    exact ⟨⟨r, listed, rfl⟩, key r, rfl, named r⟩
  · rintro ⟨⟨r, listed, rfl⟩, s, rfl, same⟩
    rw [named] at same
    exact ⟨s, rfl, r, ⟨listed, Option.some.inj same⟩, rfl⟩

/-- The rows of one table with an attribute the key names. -/
theorem mem_keyed_map {α : Type} [DecidableEq α] {table : List α} {lookup : Str → List α} {into : α → Row}
    {key : Key} {a : Attr} (reached : ∀ s r, r ∈ lookup s ↔ r ∈ table ∧ facts.attrValue (into r) a = some (.str s)) :
    row ∈ (keyed e key lookup).map into ↔
      row ∈ table.map into ∧ ∃ s, Names e key s ∧ facts.attrValue row a = some (.str s) := by
  simp only [List.mem_map, mem_keyed, reached]
  constructor
  · rintro ⟨r, ⟨s, named, listed, value⟩, rfl⟩
    exact ⟨⟨r, listed, rfl⟩, s, named, value⟩
  · rintro ⟨⟨r, listed, rfl⟩, s, named, value⟩
    exact ⟨r, ⟨s, named, listed, value⟩, rfl⟩

theorem mem_fun_candidates (served : Served plan) (rel : plan.rel = .fun) :
    row ∈ candidates facts e plan ↔ row ∈ facts.rows .fun ∧ Asked facts e plan row := by
  unfold candidates Asked
  unfold Served at served
  rw [rel]
  cases access : plan.access with
  | scan => simp
  | column i => 
    obtain rfl : i = 0 := by simpa [access, rel, Relation.indexedColumns] using served
    exact mem_find_map (n := fun row => (row.columnValue 0).asStr) (fun r => rfl) (eq_of_key facts.funs_nodup)
  | attr a key =>
    have indexed : a = .name ∨ a = .parent ∨ a = .signature := by
      simpa [access, rel, Relation.indexedAttrs] using served
    refine mem_keyed_map fun s r => ?_
    rw [ProgramFacts.funsBy, List.mem_filter, decide_eq_true_eq]
    rcases indexed with rfl | rfl | rfl <;> simp [funKey, FunRow.attr, ProgramFacts.attrValue]

theorem mem_callSig_candidates (served : Served plan) (rel : plan.rel = .callSig) :
    row ∈ candidates facts e plan ↔ row ∈ facts.rows .callSig ∧ Asked facts e plan row := by
  unfold candidates Asked
  unfold Served at served
  rw [rel]
  cases access : plan.access with
  | scan => simp
  | column i =>
    obtain rfl : i = 0 := by simpa [access, rel, Relation.indexedColumns] using served
    exact mem_find_map (n := fun row => (row.columnValue 0).asStr) (fun r => rfl) (eq_of_key facts.callsigs_nodup)
  | attr a key =>
    have indexed : a = .name ∨ a = .parent ∨ a = .signature ∨ a = .qualifiedId := by
      simpa [access, rel, Relation.indexedAttrs] using served
    refine mem_keyed_map fun s r => ?_
    rcases indexed with rfl | rfl | rfl | rfl
    · simp [funKey, ProgramFacts.callsigsBy, ProgramFacts.attrValue]
    · simp [funKey, ProgramFacts.callsigsBy, ProgramFacts.attrValue]
    · simp [funKey, ProgramFacts.callsigsBy, ProgramFacts.attrValue]
    · simp [funKey, ProgramFacts.callsigsBy, ProgramFacts.attrValue, ProgramFacts.callsigRow,
        find?_key (eq_of_key facts.callsigs_nodup)]

theorem mem_nameOf_candidates (served : Served plan) (rel : plan.rel = .nameOf) :
    row ∈ candidates facts e plan ↔ row ∈ facts.rows .nameOf ∧ Asked facts e plan row := by
  unfold candidates Asked
  unfold Served at served
  rw [rel]
  cases access : plan.access with
  | scan => simp
  | attr a key => simp [access, rel, Relation.indexedAttrs] at served
  | column i =>
    have indexed : i = 0 ∨ i = 1 := by simpa [access, rel, Relation.indexedColumns] using served
    simp only [ProgramFacts.rows, List.mem_flatMap, List.mem_map]
    rcases indexed with rfl | rfl
    · simp only [List.mem_flatMap, mem_funRow, List.mem_map]
      constructor
      · rintro ⟨r, ⟨listed, key⟩, name, named, rfl⟩
        exact ⟨⟨r, listed, name, named, rfl⟩, r.fq, key, rfl⟩
      · rintro ⟨⟨r, listed, name, named, rfl⟩, s, key, same⟩
        obtain rfl := Option.some.inj same
        exact ⟨r, ⟨listed, key⟩, name, named, rfl⟩
    · cases columnKey e plan 1 with
      | none => simp
      | some name =>
        simp only [ProgramFacts.funsNamed, List.mem_map, List.mem_flatMap, List.mem_filter, decide_eq_true_eq,
          Option.some.injEq]
        constructor
        · rintro ⟨_, ⟨r, listed, _, ⟨named, rfl⟩, rfl⟩, rfl⟩
          exact ⟨⟨r, listed, _, named, rfl⟩, _, rfl, rfl⟩
        · rintro ⟨⟨r, listed, name', named, rfl⟩, _, rfl, same⟩
          obtain rfl : name' = _ := Option.some.inj same
          exact ⟨r, ⟨r, listed, _, ⟨named, rfl⟩, rfl⟩, rfl⟩

theorem mem_callsite_candidates (served : Served plan) (rel : plan.rel = .callSite) :
    row ∈ candidates facts e plan ↔ row ∈ facts.rows .callSite ∧ Asked facts e plan row := by
  unfold candidates Asked callsiteRows
  unfold Served at served
  rw [rel]
  cases access : plan.access with
  | scan => simp
  | attr a key =>
    obtain rfl : a = .calleeString := by simpa [access, rel, Relation.indexedAttrs] using served
    refine mem_keyed_map fun s r => ?_
    simp [ProgramFacts.callsitesOfCallee, ProgramFacts.attrValue]
  | column i =>
    have indexed : i = 1 ∨ i = 0 := by simpa [access, rel, Relation.indexedColumns] using served
    simp only [ProgramFacts.rows]
    rcases indexed with rfl | rfl
    · simp only
      cases siteKey e plan with
      | none => simp
      | some site =>
        simp only [List.mem_map, mem_table_callsitesWithId, Option.some.injEq]
        constructor
        · rintro ⟨r, ⟨listed, rfl⟩, rfl⟩
          exact ⟨⟨r, listed, rfl⟩, r.site, rfl, rfl⟩
        · rintro ⟨⟨r, listed, rfl⟩, _, rfl, same⟩
          exact ⟨r, ⟨listed, Option.some.inj same⟩, rfl⟩
    · simp only
      cases columnKey e plan 0 with
      | none => simp
      | some caller =>
        simp only [ProgramFacts.callsitesOfCaller, List.mem_map, List.mem_filter, decide_eq_true_eq,
          Option.some.injEq]
        constructor
        · rintro ⟨r, ⟨listed, rfl⟩, rfl⟩
          exact ⟨⟨r, listed, rfl⟩, r.caller, rfl, rfl⟩
        · rintro ⟨⟨r, listed, rfl⟩, _, rfl, same⟩
          exact ⟨r, ⟨listed, Option.some.inj same⟩, rfl⟩

theorem exists_class {reflexive deep : Bool} (listed : row ∈ facts.rows (.subclass reflexive deep)) :
    ∃ sub sup, row = .class sub sup := by
  unfold ProgramFacts.rows at listed
  simp only at listed
  split_ifs at listed
  · obtain ⟨edge, -, rfl⟩ := List.mem_map.mp listed
    exact ⟨_, _, rfl⟩
  · obtain ⟨sub, -, inner⟩ := List.mem_flatMap.mp listed
    obtain ⟨sup, -, rfl⟩ := List.mem_map.mp inner
    exact ⟨_, _, rfl⟩

theorem mem_subclass_candidates {reflexive deep : Bool} (served : Served plan)
    (rel : plan.rel = .subclass reflexive deep) :
    row ∈ candidates facts e plan ↔
      row ∈ facts.rows (.subclass reflexive deep) ∧ Asked facts e plan row ∨ Stray facts e plan row := by
  have tried : ∀ i, plan.access = .column i → i = 0 ∨ i = 1 := fun i access => by
    simpa [Served, access, rel, Relation.indexedColumns] using served
  unfold candidates Asked Stray
  rw [rel]
  cases access : plan.access with
  | scan => simp
  | attr a key => simp [Served, access, rel, Relation.indexedAttrs] at served
  | column i =>
    simp only [Relation.subclass.injEq, Access.column.injEq]
    rcases tried i access with rfl | rfl
    · simp only [List.mem_flatMap, List.mem_map, Option.mem_toList, mem_supers]
      constructor
      · rintro ⟨s, key, sup, ⟨rfl, rfl⟩ | above, rfl⟩
        · by_cases known : sup ∈ facts.classes
          · exact .inl ⟨class_mem_rows.mpr (.inl ⟨rfl, known, rfl⟩), sup, key, rfl⟩
          · exact .inr ⟨deep, 0, sup, ⟨rfl, rfl⟩, rfl, key, known, rfl⟩
        · exact .inl ⟨class_mem_rows.mpr (.inr above), s, key, rfl⟩
      · rintro (⟨listed, s, key, same⟩ | ⟨_, _, s, ⟨rfl, rfl⟩, rfl, key, -, rfl⟩)
        · obtain ⟨sub, sup, rfl⟩ := exists_class listed
          obtain rfl := Option.some.inj same
          exact ⟨sub, key, sup, (class_mem_rows.mp listed).imp_left fun given => ⟨given.1, given.2.2⟩, rfl⟩
        · exact ⟨s, key, s, .inl ⟨rfl, rfl⟩, rfl⟩
    · simp only [List.mem_flatMap, List.mem_map, Option.mem_toList, mem_subs]
      constructor
      · rintro ⟨s, key, sub, ⟨rfl, rfl⟩ | above, rfl⟩
        · by_cases known : sub ∈ facts.classes
          · exact .inl ⟨class_mem_rows.mpr (.inl ⟨rfl, known, rfl⟩), sub, key, rfl⟩
          · exact .inr ⟨deep, 1, sub, ⟨rfl, rfl⟩, rfl, key, known, rfl⟩
        · exact .inl ⟨class_mem_rows.mpr (.inr above), s, key, rfl⟩
      · rintro (⟨listed, s, key, same⟩ | ⟨_, _, s, ⟨rfl, rfl⟩, rfl, key, -, rfl⟩)
        · obtain ⟨sub, sup, rfl⟩ := exists_class listed
          obtain rfl := Option.some.inj same
          exact ⟨sup, key, sub, (class_mem_rows.mp listed).imp_left fun given => ⟨given.1, given.2.2.symm⟩, rfl⟩
        · exact ⟨s, key, s, .inl ⟨rfl, rfl⟩, rfl⟩

theorem mem_local_candidates (served : Served plan) (rel : plan.rel = .local) :
    row ∈ candidates facts e plan ↔ row ∈ facts.rows .local ∧ Asked facts e plan row := by
  unfold candidates Asked
  unfold Served at served
  rw [rel]
  cases access : plan.access with
  | scan => simp
  | attr a key => simp [access, rel, Relation.indexedAttrs] at served
  | column i =>
    obtain rfl : i = 0 := by simpa [access, rel, Relation.indexedColumns] using served
    exact mem_filter_map (n := fun row => (row.columnValue 0).asStr) (fun r => rfl)

theorem mem_global_candidates (served : Served plan) (rel : plan.rel = .global) :
    row ∈ candidates facts e plan ↔ row ∈ facts.rows .global ∧ Asked facts e plan row := by
  unfold candidates Asked
  unfold Served at served
  rw [rel]
  cases access : plan.access with
  | scan => simp
  | attr a key => simp [access, rel, Relation.indexedAttrs] at served
  | column i =>
    obtain rfl : i = 0 := by simpa [access, rel, Relation.indexedColumns] using served
    refine mem_find_map (n := fun row => (row.columnValue 0).asStr) (fun r => rfl) fun r _ r' _ same => ?_
    cases r
    cases r'
    exact congrArg GlobalRow.mk same

theorem mem_usesField_candidates (served : Served plan) (rel : plan.rel = .usesField) :
    row ∈ candidates facts e plan ↔ row ∈ facts.rows .usesField ∧ Asked facts e plan row := by
  unfold candidates Asked
  unfold Served at served
  rw [rel]
  cases access : plan.access with
  | scan => simp
  | attr a key => simp [access, rel, Relation.indexedAttrs] at served
  | column i =>
    obtain rfl : i = 0 := by simpa [access, rel, Relation.indexedColumns] using served
    exact mem_filter_map (n := fun row => (row.columnValue 0).asStr) (fun r => rfl)

theorem mem_allocator_candidates (served : Served plan) (rel : plan.rel = .allocator) :
    row ∈ candidates facts e plan ↔ row ∈ facts.rows .allocator ∧ Asked facts e plan row := by
  unfold candidates Asked
  unfold Served at served
  rw [rel]
  cases access : plan.access with
  | scan => simp
  | attr a key => simp [access, rel, Relation.indexedAttrs] at served
  | column i =>
    obtain rfl : i = 0 := by simpa [access, rel, Relation.indexedColumns] using served
    exact mem_find_map (n := fun row => (row.columnValue 0).asStr) (fun r => rfl) (eq_of_key facts.allocators_nodup)

/-- What an atom tries: the rows of its relation that its lookup asks for, and the stray pair. -/
theorem mem_candidates_iff (served : Served plan) :
    row ∈ candidates facts e plan ↔
      row ∈ facts.rows plan.rel ∧ Asked facts e plan row ∧ Wanted e plan row ∨ Stray facts e plan row := by
  have plain : ∀ {rel}, plan.rel = rel → rel ≠ .param → (∀ deep, rel ≠ .subclass true deep) →
      (row ∈ candidates facts e plan ↔ row ∈ facts.rows rel ∧ Asked facts e plan row) →
      (row ∈ candidates facts e plan ↔
        row ∈ facts.rows rel ∧ Asked facts e plan row ∧ Wanted e plan row ∨ Stray facts e plan row) := by
    intro rel eq unwanted direct tried
    have wanted : Wanted e plan row := fun param => absurd (eq.symm.trans param) unwanted
    have none : ¬ Stray facts e plan row := fun ⟨deep, _, _, stray, _⟩ => direct deep (eq.symm.trans stray)
    rw [tried]
    tauto
  cases rel : plan.rel with
  | «fun» => exact plain rel (by simp) (by simp) (mem_fun_candidates served rel)
  | nameOf => exact plain rel (by simp) (by simp) (mem_nameOf_candidates served rel)
  | callSig => exact plain rel (by simp) (by simp) (mem_callSig_candidates served rel)
  | callSite => exact plain rel (by simp) (by simp) (mem_callsite_candidates served rel)
  | «local» => exact plain rel (by simp) (by simp) (mem_local_candidates served rel)
  | global => exact plain rel (by simp) (by simp) (mem_global_candidates served rel)
  | usesField => exact plain rel (by simp) (by simp) (mem_usesField_candidates served rel)
  | allocator => exact plain rel (by simp) (by simp) (mem_allocator_candidates served rel)
  | param =>
    have none : ¬ Stray facts e plan row := fun ⟨deep, _, _, stray, _⟩ => by simp [rel] at stray
    rw [or_iff_left none, ← mem_paramRows served rel, candidates, rel]
  | subclass reflexive deep =>
    have wanted : Wanted e plan row := fun param => by simp [rel] at param
    rw [mem_subclass_candidates served rel, iff_true_intro wanted, and_true]

end Lookups

/-! ## What an accepted row has -/

section Accepted

open Machine

variable {facts : ProgramFacts} {a : Atom} {bound bound' : List String} {e e' : Env} {row : Row}

theorem known_mono {t : Term} (grows : bound ⊆ bound') (known : Compiler.known bound t) :
    Compiler.known bound' t := by
  cases t with
  | lit l => rfl
  | var x => simpa [Compiler.known] using grows (by simpa [Compiler.known] using known)
  | wildcard => cases known

/-- Compiled columns bind what is not bound, and test what is known where it stands. -/
theorem columns_compiled {columns : List Term} :
    (bound ⊆ (Compiler.columns columns bound).2) ∧
    (∀ x, .bind x ∈ (Compiler.columns columns bound).1 → x ∉ bound) ∧
    ∀ (i : ℕ) (t : Term), columns[i]? = some t → Compiler.known bound t →
      (Compiler.columns columns bound).1[i]? = some (.test (Compiler.operand t)) := by
  induction columns generalizing bound with
  | nil => simp [Compiler.columns]
  | cons t columns ih =>
    have tested : ∀ {p}, p = ColumnPat.test (Compiler.operand t) →
        (bound ⊆ (Compiler.columns columns bound).2) ∧
        (∀ x, .bind x ∈ p :: (Compiler.columns columns bound).1 → x ∉ bound) ∧
        ∀ (i : ℕ) (t' : Term), (t :: columns)[i]? = some t' → Compiler.known bound t' →
          (p :: (Compiler.columns columns bound).1)[i]? = some (.test (Compiler.operand t')) := by
      rintro p rfl
      refine ⟨ih.1, fun x member => ih.2.1 x ((List.mem_cons.mp member).resolve_left (by simp)), fun i t' here known => ?_⟩
      cases i with
      | zero =>
        obtain rfl := Option.some.inj here
        rfl
      | succ i => exact ih.2.2 i t' here known
    cases t with
    | lit l => exact tested rfl
    | wildcard => exact tested rfl
    | var x =>
      by_cases old : x ∈ bound
      · simp only [Compiler.columns, old, if_true]
        exact tested rfl
      · simp only [Compiler.columns, old, if_false]
        obtain ⟨grows, fresh, later⟩ := @ih (x :: bound)
        refine ⟨fun y inside => grows (.tail _ inside), fun y member inside => ?_, fun i t' here known => ?_⟩
        · rcases List.mem_cons.mp member with same | binds
          · exact old (ColumnPat.bind.inj same ▸ inside)
          · exact fresh y binds (.tail _ inside)
        · cases i with
          | zero =>
            obtain rfl := Option.some.inj here
            exact absurd (by simpa [Compiler.known] using known) old
          | succ i => exact later i t' here (known_mono (List.subset_cons_self _ _) known)

theorem value_congr {op : Operand} {w : Value} (kept : ∀ x ∈ bound, e' x = e x) (dom : ∀ x ∈ e.dom, x ∈ bound)
    (value : Machine.value e op = some w) : Machine.value e' op = some w := by
  cases op with
  | const v => exact value
  | any => cases value
  | var x => exact (kept x (dom x (Datalog.Env.mem_dom.mpr ⟨w, value⟩))).trans value

/-- Columns that pass keep what was bound, and each one that tests a value compares equal to it. -/
theorem tryColumns_passed {pats : List ColumnPat} {i : ℕ} {m : Env} (fresh : ∀ x, .bind x ∈ pats → x ∉ bound)
    (dom : ∀ x ∈ e.dom, x ∈ bound) (kept : ∀ x ∈ bound, m x = e x)
    (passed : tryColumns row pats i m = some e') : (∀ x ∈ bound, e' x = e x) ∧
      ∀ j op w, pats[j]? = some (.test op) → value e op = some w → (row.columnValue (i + j)).compare .eq w := by
  induction pats generalizing i m with
  | nil =>
    obtain rfl := Option.some.inj passed
    exact ⟨kept, by simp⟩
  | cons p pats ih =>
    have fresh' : ∀ x, .bind x ∈ pats → x ∉ bound := fun x member => fresh x (.tail _ member)
    have shift : ∀ {m : Env}, tryColumns row pats (i + 1) m = some e' → (∀ x ∈ bound, m x = e x) →
        (∀ x ∈ bound, e' x = e x) ∧ ∀ j op w, pats[j]? = some (.test op) → value e op = some w →
          (row.columnValue (i + (j + 1))).compare .eq w := fun rest kept => by
      obtain ⟨same, equal⟩ := ih fresh' kept rest
      exact ⟨same, fun j op w here value => by rw [← Nat.add_assoc, Nat.add_right_comm]; exact equal j op w here value⟩
    cases p with
    | bind x =>
      have apart : ∀ y ∈ bound, Function.update m x (some (row.columnValue i)) y = e y := fun y inside => by
        rw [Function.update_of_ne fun eq : y = x => fresh x (.head _) (eq ▸ inside)]
        exact kept y inside
      obtain ⟨same, equal⟩ := shift passed apart
      refine ⟨same, fun j op w here value => ?_⟩
      cases j with
      | zero => cases here
      | succ j => exact equal j op w here value
    | test op =>
      have head : (∀ w, value m op = some w → (row.columnValue i).compare .eq w) ∧
          tryColumns row pats (i + 1) m = some e' := by
        simp only [tryColumns] at passed
        cases known : value m op with
        | none => exact ⟨by simp, by simpa [known] using passed⟩
        | some want =>
          rw [known] at passed
          simp only at passed
          split_ifs at passed with equal
          exact ⟨fun w eq => Option.some.inj eq ▸ equal, passed⟩
      obtain ⟨same, equal⟩ := shift head.2 kept
      refine ⟨same, fun j op' w here value => ?_⟩
      cases j with
      | zero =>
        obtain rfl := ColumnPat.test.inj (Option.some.inj here)
        exact head.1 w (value_congr kept dom value)
      | succ j => exact equal j op' w here value

/-- What an attribute that passed says of the row: equal to a known value, or in a set. -/
def Passed (facts : ProgramFacts) (bound : List String) (e : Env) (row : Row) (attr : AttrConstraint) : Prop :=
  ∀ key, Attr.of attr.name = some key → ∃ v, facts.attrValue row key = some v ∧
    (∀ t w, attr.op = .eq → attr.rhs = .term t → Compiler.known bound t →
      value e (Compiler.operand t) = some w → v.compare .eq w) ∧
    ∀ items, attr.op = .in → attr.rhs = .set items → v.inSet (items.map .ofLiteral)

theorem attrPat_compiled {attr : AttrConstraint} : bound ⊆ (Compiler.attrPat attr bound).2 ∧
    (∀ x, (Compiler.attrPat attr bound).1 = .bind x → x ∉ bound) ∧
    (∀ t, attr.op = .eq → attr.rhs = .term t → Compiler.known bound t →
      (Compiler.attrPat attr bound).1 = .cmp .eq (Compiler.operand t)) ∧
    ∀ items, attr.op = .in → attr.rhs = .set items →
      (Compiler.attrPat attr bound).1 = .in (items.map .ofLiteral) := by
  obtain ⟨name, op, rhs⟩ := attr
  cases rhs with
  | set items => cases op <;> simp [Compiler.attrPat]
  | term t =>
    cases t with
    | lit l => cases op <;> simp [Compiler.attrPat, Compiler.operand]
    | wildcard => cases op <;> simp [Compiler.attrPat, Compiler.known]
    | var x =>
      by_cases old : x ∈ bound
      · cases op <;> simp [Compiler.attrPat, Compiler.operand, old]
      · cases op <;> simp [Compiler.attrPat, Compiler.known, old]

/-- Attributes that pass hold of the row. -/
theorem tryAttrs_passed {attrs : List AttrConstraint} {m : Env} (grows : bound ⊆ bound')
    (dom : ∀ x ∈ e.dom, x ∈ bound) (kept : ∀ x ∈ bound, m x = e x)
    (passed : tryAttrs facts row (Compiler.attrs attrs bound').1 m = some e') :
    ∀ attr ∈ attrs, Passed facts bound e row attr := by
  induction attrs generalizing m bound' with
  | nil => simp
  | cons attr attrs ih =>
    obtain ⟨more, fresh, equal, member⟩ := @attrPat_compiled bound' attr
    simp only [Compiler.attrs, tryAttrs] at passed
    generalize (Compiler.attrPat attr bound').1 = pat at passed fresh equal member
    cases found : facts.attrValue row ((Attr.of attr.name).getD .name) with
    | none => simp [found] at passed
    | some v =>
      rw [found] at passed
      have here : ∀ key, Attr.of attr.name = some key → facts.attrValue row key = some v := fun key name => by
        rwa [name, Option.getD_some] at found
      have step : ∃ m', (∀ x ∈ bound, m' x = e x) ∧
          tryAttrs facts row (Compiler.attrs attrs (Compiler.attrPat attr bound').2).1 m' = some e' ∧
          ((∃ x, pat = .bind x) ∨ attrHolds m pat v) := by
        cases pat with
        | bind x =>
          refine ⟨_, fun y inside => ?_, passed, .inl ⟨x, rfl⟩⟩
          rw [Function.update_of_ne fun eq : y = x => fresh x rfl (eq ▸ grows inside)]
          exact kept y inside
        | cmp | «in» | present | never =>
          simp only at passed
          split_ifs at passed with holds
          exact ⟨m, kept, passed, .inr holds⟩
      obtain ⟨m', kept', rest, holds⟩ := step
      refine List.forall_mem_cons.mpr ⟨fun key name => ⟨v, here key name, ?_, ?_⟩,
        ih (fun x inside => more (grows inside)) kept' rest⟩
      · intro t w eq rhs known value
        obtain ⟨x, binds⟩ | holds := holds
        · exact absurd ((equal t eq rhs (known_mono grows known)).symm.trans binds) (by simp)
        · rw [equal t eq rhs (known_mono grows known)] at holds
          simpa [attrHolds, value_congr kept dom value] using holds
      · intro items «in» rhs
        obtain ⟨x, binds⟩ | holds := holds
        · exact absurd ((member items «in» rhs).symm.trans binds) (by simp)
        · rw [member items «in» rhs] at holds
          simpa [attrHolds] using holds

/-- What an accepted row has: every column tested with a value equals it, every attribute holds. -/
theorem tryRow_passed (dom : ∀ x ∈ e.dom, x ∈ bound)
    (passed : tryRow facts (Compiler.atom a bound).1 e row = some e') :
    (∀ i w, tested e (Compiler.atom a bound).1 i = some w → (row.columnValue i).compare .eq w) ∧
      ∀ attr ∈ a.attrs, Passed facts bound e row attr := by
  obtain ⟨m, columns, attrs⟩ := Option.bind_eq_some_iff.mp passed
  obtain ⟨grows, fresh, -⟩ := @columns_compiled bound a.columns
  obtain ⟨kept, equal⟩ := tryColumns_passed fresh dom (fun _ _ => rfl) columns
  refine ⟨fun i w test => ?_, tryAttrs_passed grows dom kept attrs⟩
  unfold tested at test
  split at test
  · next op here => simpa using equal i op w here test
  · cases test

/-! ## When the two agree -/

/-- What the chosen access goes by. -/
def Chosen (a : Atom) (bound : List String) : Access → Prop
  | .scan => True
  | .column i => i ∈ (Compiler.relation a).indexedColumns ∧
      ∃ t, a.columns[i]? = some t ∧ Compiler.known bound t
  | .attr key (.one op) => key ∈ (Compiler.relation a).indexedAttrs ∧ ∃ attr ∈ a.attrs, ∃ t,
      attr.op = .eq ∧ attr.rhs = .term t ∧ Compiler.known bound t ∧ Attr.of attr.name = some key ∧
        op = Compiler.operand t
  | .attr key (.set members) => key ∈ (Compiler.relation a).indexedAttrs ∧ ∃ attr ∈ a.attrs, ∃ items,
      attr.op = .in ∧ attr.rhs = .set items ∧ Attr.of attr.name = some key ∧
        members = items.filterMap fun
          | .str s => some s
          | _ => none

theorem keyed_eq_some {rel : Relation} {attr : AttrConstraint} {key : Attr}
    (found : Compiler.keyed rel attr = some key) : Attr.of attr.name = some key ∧ key ∈ rel.indexedAttrs := by
  obtain ⟨name, indexed⟩ := Option.filter_eq_some_iff.mp found
  exact ⟨name, of_decide_eq_true indexed⟩

theorem access_chosen (a : Atom) (bound : List String) : Chosen a bound (Compiler.access a bound) := by
  unfold Compiler.access
  split
  · next i found =>
    refine ⟨List.mem_of_find?_eq_some found, ?_⟩
    have any : (a.columns[i]?).any (Compiler.known bound) := by simpa using List.find?_some found
    cases here : a.columns[i]? with
    | none => simp [here] at any
    | some t => exact ⟨t, rfl, by simpa [here] using any⟩
  · cases one : a.attrs.findSome? (Compiler.keyOne (Compiler.relation a) bound) with
    | some access =>
      rw [Option.some_or, Option.getD_some]
      obtain ⟨attr, present, found⟩ := List.exists_of_findSome?_eq_some one
      unfold Compiler.keyOne at found
      split at found
      · next t rhs op =>
        split_ifs at found with known
        obtain ⟨key, keyed, rfl⟩ := Option.map_eq_some_iff.mp found
        obtain ⟨name, indexed⟩ := keyed_eq_some keyed
        exact ⟨indexed, attr, present, t, op, rhs, known, name, rfl⟩
      · cases found
    | none =>
      rw [Option.none_or]
      cases set : a.attrs.findSome? (Compiler.keySet (Compiler.relation a)) with
      | none => trivial
      | some access =>
        rw [Option.getD_some]
        obtain ⟨attr, present, found⟩ := List.exists_of_findSome?_eq_some set
        unfold Compiler.keySet at found
        split at found
        · next items rhs op =>
          obtain ⟨key, keyed, rfl⟩ := Option.map_eq_some_iff.mp found
          obtain ⟨name, indexed⟩ := keyed_eq_some keyed
          exact ⟨indexed, attr, present, items, op, rhs, name, rfl⟩
        · cases found

theorem atom_served (a : Atom) (bound : List String) : Served (Compiler.atom a bound).1 := by
  have chosen := access_chosen a bound
  unfold Served
  change match Compiler.access a bound with
    | .scan => True
    | .column i => i ∈ (Compiler.relation a).indexedColumns
    | .attr key _ => key ∈ (Compiler.relation a).indexedAttrs
  cases access : Compiler.access a bound with
  | scan => trivial
  | column i =>
    rw [access] at chosen
    exact chosen.1
  | attr key k =>
    rw [access] at chosen
    cases k with
    | one op => exact chosen.1
    | set members => exact chosen.1

/-- The value a lookup goes by. -/
def lookedUp (e : Env) (plan : AtomPlan) : Option Value :=
  match plan.access with
  | .column i => tested e plan i
  | .attr _ (.one op) => value e op
  | .attr _ (.set _) | .scan => none

/-- A value with a text that the lookup does not go by: a call site where a name is looked up, a signature
or a global where a call site is. -/
def Misread (plan : AtomPlan) (v : Value) : Prop :=
  match plan.rel, plan.access with
  | .callSite, .column 1 => ∃ s, v.asStr = some s ∧ v ≠ .str s
  | _, _ => v.asSite.isSome

theorem misread_name {plan : AtomPlan} {v : Value} (other : ¬ (plan.rel = .callSite ∧ plan.access = .column 1)) :
    Misread plan v ↔ v.asSite.isSome := by
  unfold Misread
  split
  · next rel access => exact absurd ⟨rel, access⟩ other
  · rfl

theorem compare_name {cell w : Value} {s : Str} (name : cell.asStr = some s) :
    cell.compare .eq w = true ↔ w.text = some s := by
  unfold Value.compare
  rw [Value.order_of_asStr name]
  cases w.text with
  | none => simp
  | some t =>
    simp only [Option.map_some, Value.accepts, decide_eq_true_eq, compare_eq_iff_eq, Option.some.injEq]
    exact eq_comm

theorem compare_site {site : SiteId} {callee : Str} {w : Value} :
    (Value.site site callee).compare .eq w = true ↔ w.text = some site.display := by
  have spelled : Value.order (.site site callee) w = w.text.map (Ord.compare site.display) := by
    cases w <;> rfl
  unfold Value.compare
  rw [spelled]
  cases w.text with
  | none => simp
  | some t =>
    simp only [Option.map_some, Value.accepts, decide_eq_true_eq, compare_eq_iff_eq, Option.some.injEq]
    exact eq_comm

theorem asStr_of_text {w : Value} {s : Str} (text : w.text = some s) (other : ¬ w.asSite.isSome) :
    w.asStr = some s := by
  cases w with
  | site => exact absurd rfl other
  | _ => exact text

/-- A cell a lookup by name goes by has a name. -/
theorem cell_name {rel : Relation} {i : ℕ} (listed : row ∈ facts.rows rel) (indexed : i ∈ rel.indexedColumns)
    (other : ¬ (rel = .callSite ∧ i = 1)) : ∃ s, (row.columnValue i).asStr = some s := by
  cases rel with
  | «fun» | callSig | «local» | global | usesField | allocator =>
    obtain rfl : i = 0 := by simpa [Relation.indexedColumns] using indexed
    obtain ⟨r, -, rfl⟩ := List.mem_map.mp listed
    exact ⟨_, rfl⟩
  | nameOf =>
    obtain ⟨r, -, inner⟩ := List.mem_flatMap.mp listed
    obtain ⟨name, -, rfl⟩ := List.mem_map.mp inner
    cases i with
    | zero => exact ⟨_, rfl⟩
    | succ i => exact ⟨_, rfl⟩
  | param =>
    obtain rfl : i = 0 := by simpa [Relation.indexedColumns] using indexed
    obtain ⟨r, -, inner⟩ := List.mem_flatMap.mp listed
    obtain ⟨i, rfl, -⟩ := mem_params.mp inner
    exact ⟨_, rfl⟩
  | callSite =>
    obtain rfl | rfl : i = 1 ∨ i = 0 := by simpa [Relation.indexedColumns] using indexed
    · exact absurd ⟨rfl, rfl⟩ other
    · obtain ⟨r, -, rfl⟩ := List.mem_map.mp listed
      exact ⟨_, rfl⟩
  | subclass reflexive deep =>
    obtain ⟨sub, sup, rfl⟩ := exists_class listed
    cases i with
    | zero => exact ⟨_, rfl⟩
    | succ i => exact ⟨_, rfl⟩

/-- An attribute with an index is a string. -/
theorem attr_name {rel : Relation} {key : Attr} {v : Value} (listed : row ∈ facts.rows rel)
    (indexed : key ∈ rel.indexedAttrs) (value : facts.attrValue row key = some v) : ∃ s, v = .str s := by
  cases rel with
  | «fun» =>
    obtain ⟨r, -, rfl⟩ := List.mem_map.mp listed
    have keys : key = .name ∨ key = .parent ∨ key = .signature := by simpa [Relation.indexedAttrs] using indexed
    rcases keys with rfl | rfl | rfl
    all_goals
      obtain ⟨s, -, rfl⟩ := Option.map_eq_some_iff.mp value
      exact ⟨s, rfl⟩
  | callSig =>
    obtain ⟨r, -, rfl⟩ := List.mem_map.mp listed
    have keys : key = .name ∨ key = .parent ∨ key = .signature ∨ key = .qualifiedId := by
      simpa [Relation.indexedAttrs] using indexed
    rcases keys with rfl | rfl | rfl | rfl
    all_goals exact ⟨_, (Option.some.inj value).symm⟩
  | callSite =>
    obtain ⟨r, -, rfl⟩ := List.mem_map.mp listed
    obtain rfl : key = .calleeString := by simpa [Relation.indexedAttrs] using indexed
    exact ⟨_, (Option.some.inj value).symm⟩
  | nameOf | param | «local» | global | subclass | usesField | allocator => cases indexed

theorem siteKey_of_text {plan : AtomPlan} {site : SiteId} {w : Value} (test : tested e plan 1 = some w)
    (text : w.text = some site.display) (read : ¬ ∃ s, w.asStr = some s ∧ w ≠ .str s) :
    siteKey e plan = some site := by
  unfold siteKey
  rw [test]
  cases w with
  | site id callee => exact congrArg some (SiteId.display_injective (Option.some.inj text))
  | str s =>
    obtain rfl : s = site.display := Option.some.inj text
    exact SiteId.parse_display site
  | callSig => exact absurd ⟨_, rfl, by simp⟩ read
  | global => exact absurd ⟨_, rfl, by simp⟩ read
  | int | bool | «local» => cases text

/-- A known operand has a value. -/
theorem exists_value {t : Term} (inside : ∀ x ∈ bound, x ∈ e.dom) (known : Compiler.known bound t) :
    ∃ w, value e (Compiler.operand t) = some w := by
  cases t with
  | lit l => exact ⟨_, rfl⟩
  | var x => exact Datalog.Env.mem_dom.mp (inside x (by simpa [Compiler.known] using known))
  | wildcard => cases known

/-- The lookup asks for what it accepts, unless it misreads its value. -/
theorem asked_of_passed (inside : ∀ x, x ∈ bound ↔ x ∈ e.dom)
    (passed : tryRow facts (Compiler.atom a bound).1 e row = some e')
    (listed : row ∈ facts.rows (Compiler.relation a))
    (read : ∀ v, lookedUp e (Compiler.atom a bound).1 = some v → ¬ Misread (Compiler.atom a bound).1 v) :
    Asked facts e (Compiler.atom a bound).1 row := by
  obtain ⟨columns, attrs⟩ := tryRow_passed (fun x => (inside x).mpr) passed
  have chosen := access_chosen a bound
  generalize planned : (Compiler.atom a bound).1 = plan at columns read ⊢
  have rel : plan.rel = Compiler.relation a := planned ▸ rfl
  have access : plan.access = Compiler.access a bound := planned ▸ rfl
  have pats : plan.columns = (Compiler.columns a.columns bound).1 := planned ▸ rfl
  cases chose : Compiler.access a bound with
  | scan => simp [Asked, access, chose]
  | column i =>
    rw [chose] at chosen access
    obtain ⟨indexed, t, here, known⟩ := chosen
    obtain ⟨w, value⟩ := exists_value (fun x => (inside x).mp) known
    have test : tested e plan i = some w := by
      rw [tested, pats, columns_compiled.2.2 i t here known]
      exact value
    have equal := columns i w test
    have read := read w (by rw [lookedUp, access]; exact test)
    by_cases site : Compiler.relation a = .callSite ∧ i = 1
    · obtain ⟨callSite, rfl⟩ := site
      rw [callSite] at rel listed
      obtain ⟨r, -, rfl⟩ := List.mem_map.mp listed
      rw [Misread, rel, access] at read
      rw [Asked, rel, access]
      exact ⟨r.site, siteKey_of_text test (compare_site.mp equal) read, rfl⟩
    · obtain ⟨s, name⟩ := cell_name listed indexed site
      rw [← rel] at site
      have read : ¬ w.asSite.isSome := by
        rwa [misread_name fun both => site ⟨both.1, Access.column.inj (access.symm.trans both.2)⟩] at read
      rw [asked_column access site]
      refine ⟨s, ?_, name⟩
      rw [columnKey, test, Option.bind_some]
      exact asStr_of_text ((compare_name name).mp equal) read
  | attr key k =>
    rw [chose] at chosen access
    have apart : ¬ (plan.rel = .callSite ∧ plan.access = .column 1) := fun both => by simp [access] at both
    rw [asked_attr access]
    cases k with
    | one op =>
      obtain ⟨indexed, attr, present, t, eq, rhs, known, name, rfl⟩ := chosen
      obtain ⟨v, has, equal, -⟩ := attrs attr present key name
      obtain ⟨s, rfl⟩ := attr_name listed indexed has
      obtain ⟨w, value⟩ := exists_value (fun x => (inside x).mp) known
      have read := read w (by rw [lookedUp, access]; exact value)
      rw [misread_name apart] at read
      refine ⟨s, ?_, has⟩
      rw [Names, value, Option.bind_some]
      exact asStr_of_text ((compare_name rfl).mp (equal t w eq rhs known value)) read
    | set members =>
      obtain ⟨indexed, attr, present, items, eq, rhs, name, rfl⟩ := chosen
      obtain ⟨v, has, -, member⟩ := attrs attr present key name
      obtain ⟨s, rfl⟩ := attr_name listed indexed has
      have spelled : Value.str s ∈ items.map .ofLiteral := by
        simpa [Value.inSet] using member items eq rhs
      obtain ⟨l, listed, same⟩ := List.mem_map.mp spelled
      refine ⟨s, List.mem_filterMap.mpr ⟨l, listed, ?_⟩, has⟩
      cases l with
      | str => exact congrArg some (Value.str.inj same)
      | int | bool => cases same

/-- A lookup that misreads its value reaches nothing. -/
theorem not_asked_of_misread {plan : AtomPlan} {v : Value} (looked : lookedUp e plan = some v)
    (misread : Misread plan v) : ¬ Asked facts e plan row ∧ ¬ Stray facts e plan row := by
  have nameless : v.asSite.isSome → v.asStr = none := fun site => by
    cases v with
    | site => rfl
    | _ => cases site
  unfold lookedUp at looked
  cases access : plan.access with
  | scan => simp [access] at looked
  | column i =>
    rw [access] at looked
    by_cases site : plan.rel = .callSite ∧ i = 1
    · obtain ⟨rel, rfl⟩ := site
      rw [Misread, rel, access] at misread
      obtain ⟨s, name, other⟩ := misread
      refine ⟨?_, fun ⟨deep, _, _, eq, _⟩ => by simp [rel] at eq⟩
      rw [Asked, rel, access]
      rintro ⟨site, key, -⟩
      simp only [siteKey, looked] at key
      cases v with
      | str => exact other (congrArg Value.str (Option.some.inj name))
      | site => cases name
      | _ => cases key
    · rw [misread_name fun both => site ⟨both.1, Access.column.inj (access.symm.trans both.2)⟩] at misread
      have key : columnKey e plan i = none := by
        rw [columnKey, show tested e plan i = some v from looked, Option.bind_some, nameless misread]
      rw [asked_column access site, key]
      refine ⟨by simp, fun ⟨deep, j, s, _, eq, given, _⟩ => ?_⟩
      obtain rfl := Access.column.inj (access.symm.trans eq)
      simp [key] at given
  | attr a k =>
    rw [access] at looked
    have apart : ¬ (plan.rel = .callSite ∧ plan.access = .column 1) := fun both => by simp [access] at both
    rw [misread_name apart] at misread
    refine ⟨?_, fun ⟨_, _, _, _, eq, _⟩ => by simp [access] at eq⟩
    rw [asked_attr access]
    cases k with
    | one op =>
      rintro ⟨s, named, -⟩
      simp only [Names, show value e op = some v from looked, Option.bind_some, nameless misread] at named
      cases named
    | set members => cases looked

theorem wanted_of_passed (inside : ∀ x, x ∈ bound ↔ x ∈ e.dom)
    (passed : tryRow facts (Compiler.atom a bound).1 e row = some e')
    (listed : row ∈ facts.rows (Compiler.relation a)) : Wanted e (Compiler.atom a bound).1 row := by
  intro rel w want
  obtain ⟨v, test, int⟩ := Option.bind_eq_some_iff.mp want
  have equal := (tryRow_passed (fun x => (inside x).mpr) passed).1 1 v test
  have rel : Compiler.relation a = .param := rel
  rw [rel] at listed
  obtain ⟨r, -, inner⟩ := List.mem_flatMap.mp listed
  obtain ⟨i, rfl, -⟩ := mem_params.mp inner
  cases v with
  | int n =>
    obtain rfl := Option.some.inj int
    have same : Ord.compare i n = .eq := by simpa [Value.compare, Value.order, Value.accepts, Row.columnValue] using equal
    rw [compare_eq_iff_eq.mp same]
    rfl
  | _ => cases int

/-- What of a row the lookup by `v` loses: `v` is misread, and a row of the relation is accepted. -/
def Loses (facts : ProgramFacts) (plan : AtomPlan) (e : Env) : Prop :=
  ∃ v, lookedUp e plan = some v ∧ Misread plan v ∧ ∃ row ∈ facts.rows plan.rel, (tryRow facts plan e row).isSome

/-- A lookup of `subclass*` by what is no class accepts the reflexive pair. -/
def Invents (facts : ProgramFacts) (plan : AtomPlan) (e : Env) : Prop :=
  ∃ row, Stray facts e plan row ∧ (tryRow facts plan e row).isSome

/-- On one atom and one binding, the rows reached through the plan's access and accepted are those a scan
visits and accepts; and the scan of each subclass relation visits the closure over the program's classes. -/
structure IndexIsScan (b : BuiltFacts) (plan : AtomPlan) (e : Env) : Prop where
  rows : ∀ row e', (row ∈ b.candidates e plan ∧ tryRow b.tables plan e row = some e') ↔
    (row ∈ b.candidates e { plan with access := .scan } ∧ tryRow b.tables plan e row = some e')
  closure : ∀ reflexive deep sub sup, .class sub sup ∈ b.scan (.subclass reflexive deep) ↔
    b.tables.Subclass reflexive deep sub sup

theorem mem_scan_candidates {plan : AtomPlan} :
    row ∈ candidates facts e { plan with access := .scan } ↔ row ∈ facts.rows plan.rel ∧ Wanted e plan row := by
  have served : Served { plan with access := Access.scan } := trivial
  have none : ¬ Stray facts e { plan with access := Access.scan } row := fun ⟨_, _, _, _, access, _⟩ => by
    cases access
  have asked : Asked facts e { plan with access := Access.scan } row := trivial
  rw [mem_candidates_iff served, or_iff_left none, iff_true_intro asked, true_and]
  rfl

/-- What the lookup reaches and the atom accepts is what a scan visits and the atom accepts, unless the
lookup loses a row or invents one. -/
theorem lookup_iff_scan (inside : ∀ x, x ∈ bound ↔ x ∈ e.dom) :
    (∀ row e', (row ∈ candidates facts e (Compiler.atom a bound).1 ∧
        tryRow facts (Compiler.atom a bound).1 e row = some e') ↔
      (row ∈ candidates facts e { (Compiler.atom a bound).1 with access := .scan } ∧
        tryRow facts (Compiler.atom a bound).1 e row = some e')) ↔
      ¬ Loses facts (Compiler.atom a bound).1 e ∧ ¬ Invents facts (Compiler.atom a bound).1 e := by
  have served := atom_served a bound
  simp only [mem_scan_candidates, mem_candidates_iff served]
  constructor
  · intro agree
    refine ⟨?_, ?_⟩
    · rintro ⟨v, looked, misread, row, listed, accepted⟩
      obtain ⟨e', accepted⟩ := Option.isSome_iff_exists.mp accepted
      obtain ⟨apart, stray⟩ : ¬ Asked facts e _ row ∧ ¬ Stray facts e _ row :=
        not_asked_of_misread looked misread
      have reached := ((agree row e').mpr ⟨⟨listed, wanted_of_passed inside accepted listed⟩, accepted⟩).1
      exact reached.elim (fun own => apart own.2.1) stray
    · rintro ⟨row, stray, accepted⟩
      obtain ⟨e', accepted⟩ := Option.isSome_iff_exists.mp accepted
      have listed := ((agree row e').mp ⟨.inr stray, accepted⟩).1.1
      obtain ⟨deep, i, s, rel, -, -, unknown, rfl⟩ := stray
      rw [rel] at listed
      rcases class_mem_rows.mp listed with own | above
      · exact unknown own.2.1
      · exact unknown (above_classes above).1
  · rintro ⟨kept, nothing⟩ row e'
    refine and_congr_left fun accepted => ?_
    constructor
    · rintro (⟨listed, -, wanted⟩ | stray)
      · exact ⟨listed, wanted⟩
      · exact absurd ⟨row, stray, by simp [accepted]⟩ nothing
    · rintro ⟨listed, wanted⟩
      refine .inl ⟨listed, asked_of_passed inside accepted listed fun v looked misread => kept ?_, wanted⟩
      exact ⟨v, looked, misread, row, listed, by simp [accepted]⟩

/-- For the tables and indexes of any import, any atom and any binding of its bound variables: a lookup by
index amounts to a scan exactly when it does not go by a value it misreads although a row matches it, and
not by what is no class where the reflexive pair is accepted. -/
theorem indexIsScan_iff (shape : ShapeMeasure) (index : ProgramMatchIndex) (needs : Needs) (a : Atom)
    (bound : List String) (e : Env) (inside : ∀ x, x ∈ bound ↔ x ∈ e.dom) :
    IndexIsScan (build shape index needs) (Compiler.atom a bound).1 e ↔
      ¬ Loses (build shape index needs).tables (Compiler.atom a bound).1 e ∧
        ¬ Invents (build shape index needs).tables (Compiler.atom a bound).1 e := by
  have indexed := BuiltFacts.build_indexed shape index needs
  rw [← lookup_iff_scan inside]
  constructor
  · intro agree row e'
    rw [← indexed.mem_candidates, ← indexed.mem_candidates]
    exact agree.rows row e'
  · intro agree
    refine ⟨fun row e' => ?_, fun reflexive deep sub sup => ?_⟩
    · rw [indexed.mem_candidates, indexed.mem_candidates]
      exact agree row e'
    · rw [indexed.scan_eq]
      exact class_mem_rows

/-- An import of one method, of a class without a superclass. -/
def oneMethod : ProgramMatchIndex where
  names := [{ fq := "LMain;->run()V", simple := "run", parent := some "LMain;", signature := some "()V" }]
  vmtDispatch := .java [("LMain;", "run", "()V", "LMain;->run()V")] [] []

/-- `subclass*("LBase;", X)`. -/
def aboveBase : Atom := { name := "subclass*", columns := [.lit (.str "LBase;"), .var "X"] }

/-- `subclass*(X, "LMain;")`. -/
def belowMain : Atom := { name := "subclass*", columns := [.var "X", .lit (.str "LMain;")] }

/-- Looked up by a class of the import, the two agree. -/
theorem indexIsScan_of_known_class :
    IndexIsScan (build (fun _ _ => none) oneMethod {}) (Compiler.atom belowMain []).1 fun _ => none := by
  refine (indexIsScan_iff (fun _ _ => none) oneMethod {} belowMain [] (fun _ => none) (by simp [Datalog.Env.dom])).mpr
    ⟨?_, ?_⟩
  · rintro ⟨v, looked, misread, -⟩
    obtain rfl : Value.str "LMain;" = v := Option.some.inj looked
    cases misread
  · rintro ⟨row, ⟨deep, i, s, -, access, key, unknown, -⟩, -⟩
    obtain rfl : 1 = i := Access.column.inj access
    obtain rfl : "LMain;" = s := Option.some.inj key
    exact unknown (by decide)

/-- The import has no class of the name, which a lookup still finds to be its own superclass. -/
theorem not_indexIsScan_of_unknown_class :
    ¬ IndexIsScan (build (fun _ _ => none) oneMethod {}) (Compiler.atom aboveBase []).1 fun _ => none := by
  intro agree
  have reached : Row.class "LBase;" "LBase;" ∈ (build (fun _ _ => none) oneMethod {}).candidates (fun _ => none)
      (Compiler.atom aboveBase []).1 := by decide
  have accepted : (tryRow (build (fun _ _ => none) oneMethod {}).tables (Compiler.atom aboveBase []).1
      (fun _ => none) (.class "LBase;" "LBase;")).isSome := by decide
  have unlisted : Row.class "LBase;" "LBase;" ∉ (build (fun _ _ => none) oneMethod {}).candidates (fun _ => none)
      { (Compiler.atom aboveBase []).1 with access := .scan } := by decide
  obtain ⟨e', accepted⟩ := Option.isSome_iff_exists.mp accepted
  exact unlisted ((agree.rows _ e').mp ⟨reached, accepted⟩).1

end Accepted

end Ctadl.Portcullis
