-- SUMMARY: Cached indexes: an index that remembers its answers to the most recently used queries.
import RuleIndex.Index
import RuleIndex.Recency

/-!
# Cached indexes

Answers are remembered by coded query, so two spellings of one query share an answer.
A query that cannot be coded is refused and leaves no trace. Every answer carries the
number of the step that computed it.
-/

namespace RuleIndex

variable {α : Type} [DecidableEq α]

/-- An answer, and the number of the step that computed it. -/
structure Answer (α : Type) where
  payloads : List α
  step : Nat
  deriving DecidableEq, Repr

/-- An index with the answers to the most recently used queries. -/
structure CachedIndex (α : Type) where
  index : Index α
  answers : Recency CodedQuery (Answer α)
  /-- The number of steps taken. -/
  steps : Nat := 0

/-- What can be asked of a cached index. -/
inductive Step where
  | find (query : List QueryValue)
  /-- Forget all answers. -/
  | clear
  /-- Ask for the number of answers held. -/
  | size
  /-- Ask the index itself, past the cache. -/
  | inspect
  deriving DecidableEq, Repr

/-- What comes back from a step. -/
inductive Reply (α : Type) where
  | computed (answer : Answer α)
  /-- An answer that an earlier step computed. -/
  | shared (answer : Answer α)
  | refused (error : Error)
  | done
  deriving DecidableEq, Repr

namespace CachedIndex

/-- The number of answers held unless the caller chooses another. -/
def defaultSize : Nat := 1024

/-- A cache for up to `size` answers, but for one at least. -/
def new (index : Index α) (size : Nat) : CachedIndex α :=
  { index, answers := { capacity := max 1 size } }

/-- The number of answers held. -/
def size (cached : CachedIndex α) : Nat :=
  cached.answers.size

/-- The answer to a coded query: a remembered one, or a new one that is remembered. -/
def lookup (cached : CachedIndex α) (key : CodedQuery) : Logged (Reply α × CachedIndex α) :=
  match cached.answers.use? key with
  | some (answer, answers) => ⟨(.shared answer, { cached with answers }), [.cacheHit]⟩
  | none =>
    let answer := ⟨cached.index.findCoded key, cached.steps⟩
    ⟨(.computed answer, { cached with answers := cached.answers.put key answer }), [.cacheMiss]⟩

/-- Take one step; only the steps that find or clear touch the answers. -/
def step (cached : CachedIndex α) (request : Step) : Logged (Reply α × CachedIndex α) :=
  let outcome : Logged (Reply α × CachedIndex α) :=
    match request with
    | .find query =>
      match cached.index.encode query with
      | .ok key => cached.lookup key
      | .error error => ⟨(.refused error, cached), []⟩
    | .clear => ⟨(.done, { cached with answers := cached.answers.clear }), []⟩
    | .size | .inspect => ⟨(.done, cached), []⟩
  let (reply, after) := outcome.value
  ⟨(reply, { after with steps := cached.steps + 1 }), outcome.log⟩

end CachedIndex
end RuleIndex
