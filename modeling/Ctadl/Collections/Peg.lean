import Mathlib.Data.List.Basic
import Mathlib.Data.List.Infix

/-! # Parsing expression grammars

A rule reads a value at the start of a text and leaves the text after it, or fails and reads nothing. A
choice takes the first alternative that reads, and a repetition reads as often as it can, whatever comes
after it: so a text is read as intended only if what follows lets each repetition stop where it should,
and every lemma here is about a text together with what follows it.
-/

namespace Ctadl.Collections.Peg

variable {σ α β : Type}

/-- A rule of a grammar over the tokens `σ`: what it reads, and the text after it. -/
abbrev Reader (σ : Type) := StateT (List σ) Option

section Rules

/-- One token with a property. -/
def satisfy (p : σ → Bool) : Reader σ σ
  | c :: rest => if p c then some (c, rest) else none
  | [] => none

/-- Any token. -/
def any : Reader σ σ := satisfy fun _ => true

/-- The tokens of a word. -/
def token [DecidableEq σ] (word : List σ) : Reader σ Unit := fun text =>
  if word.isPrefixOf text then some ((), text.drop word.length) else none

/-- Reads nothing, where the rule does not read. -/
def notAhead (rule : Reader σ α) : Reader σ Unit := fun text => if (rule text).isSome then none else some ((), text)

/-- What the rule reads, or nothing. -/
def maybe (rule : Reader σ α) : Reader σ (Option α) := fun text =>
  match rule text with
  | some (a, rest) => some (some a, rest)
  | none => some (none, text)

/-- The repetition, for at most `fuel` turns. -/
def manyFrom (rule : Reader σ α) : ℕ → Reader σ (List α)
  | 0 => fun text => some ([], text)
  | fuel + 1 => fun text =>
    match rule text with
    | some (a, rest) => (manyFrom rule fuel rest).map fun (as, final) => (a :: as, final)
    | none => some ([], text)

/-- The rule as often as it reads. The rules repeated read at least one token. -/
def many (rule : Reader σ α) : Reader σ (List α) := fun text => manyFrom rule text.length text

def many1 (rule : Reader σ α) : Reader σ (List α) := do return (← rule) :: (← many rule)

/-- The tokens a rule reads. -/
def consumed (rule : Reader σ α) : Reader σ (List σ) := fun text =>
  (rule text).map fun (_, rest) => (text.take (text.length - rest.length), rest)

end Rules

section Reading

variable {rule other : Reader σ α} {text rest final : List σ} {a : α} {as : List α} {b : β} {p : σ → Bool} {c : σ}

theorem bind_of_some {next : α → Reader σ β} (read : rule text = some (a, rest)) :
    (rule >>= next) text = next a rest := by
  change (rule text).bind _ = _
  rw [read]
  rfl

theorem bind_of_none {next : α → Reader σ β} (fails : rule text = none) : (rule >>= next) text = none := by
  change (rule text).bind _ = _
  rw [fails]
  rfl

theorem bind_eq_some {next : α → Reader σ β} : (rule >>= next) text = some (b, final) ↔
    ∃ a rest, rule text = some (a, rest) ∧ next a rest = some (b, final) := by
  change (rule text).bind _ = _ ↔ _
  rw [Option.bind_eq_some_iff]
  constructor
  · rintro ⟨⟨a, rest⟩, read, onward⟩
    exact ⟨a, rest, read, onward⟩
  · rintro ⟨a, rest, read, onward⟩
    exact ⟨(a, rest), read, onward⟩

theorem orElse_of_some (read : rule text = some (a, rest)) : (rule <|> other) text = some (a, rest) := by
  change (rule text <|> other text) = _
  rw [read]
  rfl

theorem orElse_of_none (fails : rule text = none) : (rule <|> other) text = other text := by
  change (rule text <|> other text) = _
  rw [fails]
  rfl

theorem orElse_eq_some : (rule <|> other) text = some (a, rest) ↔
    rule text = some (a, rest) ∨ rule text = none ∧ other text = some (a, rest) := by
  change (rule text <|> other text) = _ ↔ _
  cases rule text <;> simp

theorem token_append [DecidableEq σ] (word rest : List σ) : token word (word ++ rest) = some ((), rest) := by
  simp [token]

theorem token_eq_some [DecidableEq σ] {word : List σ} : token word text = some ((), rest) ↔ text = word ++ rest := by
  unfold token
  split_ifs with here
  · obtain ⟨tail, rfl⟩ := List.isPrefixOf_iff_prefix.mp here
    simp
  · simp only [false_iff]
    rintro rfl
    exact here (by simp)

theorem token_cons_none [DecidableEq σ] {word : List σ} {c d : σ} (differ : d ≠ c) :
    token (d :: word) (c :: rest) = none := by
  simp [token, differ]

theorem satisfy_cons (holds : p c) : satisfy p (c :: rest) = some (c, rest) := by
  simp [satisfy, holds]

theorem satisfy_eq_some : satisfy p text = some (c, rest) ↔ text = c :: rest ∧ p c := by
  cases text with
  | nil => simp [satisfy]
  | cons d tail =>
    rw [satisfy]
    split_ifs with holds
    · simp only [Option.some.injEq, Prod.mk.injEq, List.cons.injEq]
      exact ⟨fun ⟨head, tail⟩ => ⟨⟨head, tail⟩, head ▸ holds⟩, fun ⟨⟨head, tail⟩, _⟩ => ⟨head, tail⟩⟩
    · simp only [List.cons.injEq, false_iff]
      rintro ⟨⟨rfl, -⟩, there⟩
      exact holds there

theorem satisfy_eq_none : satisfy p text = none ↔ ∀ c ∈ text.head?, p c = false := by
  cases text with
  | nil => simp [satisfy]
  | cons c rest =>
    rw [satisfy]
    split_ifs with holds <;> simp [holds]

theorem notAhead_of_none (fails : rule text = none) : notAhead rule text = some ((), text) := by
  simp [notAhead, fails]

theorem notAhead_eq_some : notAhead rule text = some ((), rest) ↔ rule text = none ∧ text = rest := by
  unfold notAhead
  cases rule text <;> simp

theorem maybe_of_some (read : rule text = some (a, rest)) : maybe rule text = some (some a, rest) := by
  simp [maybe, read]

theorem maybe_of_none (fails : rule text = none) : maybe rule text = some (none, text) := by
  simp [maybe, fails]

/-- The tokens read, where they are known. -/
theorem consumed_append {word : List σ} (read : rule (word ++ rest) = some (a, rest)) :
    consumed rule (word ++ rest) = some (word, rest) := by
  simp [consumed, read]

theorem exists_of_consumed {word : List σ} (read : consumed rule text = some (word, rest)) :
    ∃ a, rule text = some (a, rest) := by
  obtain ⟨⟨a, tail⟩, inside, same⟩ := Option.map_eq_some_iff.mp read
  cases same
  exact ⟨a, inside⟩

theorem maybe_eq_some {x : Option α} (read : maybe rule text = some (x, rest)) :
    (∃ a, rule text = some (a, rest) ∧ x = some a) ∨ rule text = none ∧ rest = text ∧ x = none := by
  unfold maybe at read
  cases inside : rule text with
  | some y =>
    rw [inside] at read
    cases read
    exact .inl ⟨_, rfl, rfl⟩
  | none =>
    rw [inside] at read
    cases read
    exact .inr ⟨rfl, rfl, rfl⟩

theorem consumed_of_none (fails : rule text = none) : consumed rule text = none := by
  simp [consumed, fails]

/-- The rule reads these values, one after the other, and then fails. -/
inductive Reads (rule : Reader σ α) : List σ → List α → List σ → Prop
  | done {text : List σ} (fails : rule text = none) : Reads rule text [] text
  | item {text rest final : List σ} {a : α} {as : List α} (read : rule text = some (a, rest))
      (shorter : rest.length < text.length) (onward : Reads rule rest as final) : Reads rule text (a :: as) final

theorem manyFrom_of_reads (reads : Reads rule text as final) {fuel : ℕ} (enough : text.length ≤ fuel) :
    manyFrom rule fuel text = some (as, final) := by
  induction reads generalizing fuel with
  | done fails =>
    cases fuel with
    | zero => rfl
    | succ fuel => simp [manyFrom, fails]
  | @item text rest _ _ as read shorter _ ih =>
    obtain ⟨fuel, rfl⟩ : ∃ n, fuel = n + 1 := ⟨fuel - 1, by omega⟩
    have enough : rest.length ≤ fuel := by omega
    simp [manyFrom, read, ih enough]

/-- A repetition reads what the rule reads one after the other. -/
theorem many_of_reads (reads : Reads rule text as final) : many rule text = some (as, final) :=
  manyFrom_of_reads reads le_rfl

theorem many_of_none (fails : rule text = none) : many rule text = some ([], text) := many_of_reads (.done fails)

theorem many1_of_reads (reads : Reads rule text (a :: as) final) : many1 rule text = some (a :: as, final) := by
  cases reads with
  | item read _ onward =>
    rw [many1, bind_of_some read, bind_of_some (many_of_reads onward)]
    rfl

/-- A run of tokens with a property is read up to the first without it. -/
theorem reads_satisfy {word : List σ} (holds : ∀ c ∈ word, p c) (stops : ∀ c ∈ rest.head?, p c = false) :
    Reads (satisfy p) (word ++ rest) word rest := by
  induction word with
  | nil => exact .done (satisfy_eq_none.mpr stops)
  | cons c word ih =>
    refine .item (satisfy_cons (holds c List.mem_cons_self)) (by simp) (ih fun d mem => ?_)
    exact holds d (List.mem_cons_of_mem c mem)

end Reading

end Ctadl.Collections.Peg
