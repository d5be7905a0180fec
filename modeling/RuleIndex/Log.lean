-- SUMMARY: Log events of an index and its cache, and computations that log, and that may fail.
import RuleIndex.Error

/-!
# Log

Building an index and looking up a cached query log events. Logging is part of a
result: `Logged` pairs a value with the events that led to it, in order. An `Attempt`
logs as it goes and may fail on the way.
-/

namespace RuleIndex

inductive Level where
  | trace
  | debug
  deriving DecidableEq, Repr

def Level.text : Level → String
  | .trace => "TRACE"
  | .debug => "DEBUG"

inductive Event where
  /-- A node splits a dimension by a code; `rules` entries reach the node. -/
  | scalarSplit (dimension split : String) (rules : Nat)
  /-- A node splits a dimension by sets. -/
  | setSplit (dimension : String) (branches : Nat)
  /-- An index is complete. -/
  | built (rules dimensions maxDepth : Nat)
  /-- A cached answer is returned. -/
  | cacheHit
  /-- An answer is computed and cached. -/
  | cacheMiss
  deriving DecidableEq, Repr

namespace Event

def level : Event → Level
  | .built .. => .debug
  | _ => .trace

def message : Event → String
  | .scalarSplit .. => "scalar split"
  | .setSplit .. => "set split"
  | .built .. => "rule tree built"
  | .cacheHit => "rule tree cache hit"
  | .cacheMiss => "rule tree cache miss"

end Event

/-- A value and the events logged while it was computed. -/
structure Logged (β : Type) where
  value : β
  log : List Event

namespace Logged

variable {β γ : Type}

/-- What is computed first is logged first. -/
instance : Monad Logged where
  pure b := ⟨b, []⟩
  bind x f := ⟨(f x.value).value, x.log ++ (f x.value).log⟩

/-- Log one event. -/
def tell (event : Event) : Logged Unit :=
  ⟨(), [event]⟩

@[simp] theorem value_pure (b : β) : (pure b : Logged β).value = b := rfl

@[simp] theorem log_pure (b : β) : (pure b : Logged β).log = [] := rfl

@[simp] theorem value_bind (x : Logged β) (f : β → Logged γ) :
    (x >>= f).value = (f x.value).value := rfl

@[simp] theorem log_bind (x : Logged β) (f : β → Logged γ) :
    (x >>= f).log = x.log ++ (f x.value).log := rfl

@[simp] theorem value_map (f : β → γ) (x : Logged β) : (f <$> x).value = f x.value := rfl

@[simp] theorem log_map (f : β → γ) (x : Logged β) : (f <$> x).log = x.log :=
  List.append_nil x.log

@[simp] theorem log_tell (event : Event) : (tell event).log = [event] := rfl

instance : LawfulMonad Logged := LawfulMonad.mk' Logged
  (fun x => congrArg (Logged.mk x.value) (List.append_nil x.log))
  (fun _ _ => rfl)
  (fun x f g => congrArg (Logged.mk _) (List.append_assoc x.log _ _))

@[simp] theorem value_mapM (f : β → Logged γ) (l : List β) :
    (l.mapM f).value = l.map fun b => (f b).value := by
  induction l with
  | nil => rfl
  | cons b l ih => simp [ih]

@[simp] theorem log_mapM (f : β → Logged γ) (l : List β) :
    (l.mapM f).log = l.flatMap fun b => (f b).log := by
  induction l with
  | nil => rfl
  | cons b l ih => simp [ih]

end Logged

/-- Computations that log as they go and may fail. What is logged before a failure stays logged. -/
abbrev Attempt (β : Type) := ExceptT Error Logged β

/-- What an attempt comes to. A failure keeps no log. -/
def Attempt.result {β : Type} (x : Attempt β) : Except Error (Logged β) :=
  match x.run with
  | ⟨.ok b, log⟩ => .ok ⟨b, log⟩
  | ⟨.error e, _⟩ => .error e

end RuleIndex
