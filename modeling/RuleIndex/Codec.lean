-- SUMMARY: Codecs: the numbering of a dimension's values by codes, for texts, integers, booleans and declared variants.
import RuleIndex.Ascending
import RuleIndex.Value

/-!
# Codecs

A codec numbers the values of one dimension so that the order of codes is the
order of values. Texts and integers are numbered by a dictionary of the values
that the rules mention. A text outside it has no code. An integer outside it has
the even code of the gap it falls into, between the odd codes of its neighbours.
-/

namespace RuleIndex

/-- The code of an absent constraint: the least integer of 64 bits. -/
def anyCode : Int := -9223372036854775808

theorem ne_anyCode_of_nonneg {code : Int} (h : 0 ≤ code) : code ≠ anyCode := by
  unfold anyCode
  omega

/-- A numbering of values. -/
structure Codec where
  /-- The code of a value, if it has one. -/
  encode : Value → Option Int
  /-- The size of a bitset that holds every code handed out. -/
  capacity : Nat
  /-- The written form of a code. -/
  render : Int → String

namespace Codec

/-- The written form of a code that stands for no value. -/
def unnamed (code : Int) : String := "#" ++ toString code

/-- The written form of a code that is a place in a table of names. -/
def nameIn (names : List String) (code : Int) : String :=
  if code = anyCode then "ANY"
  else match code.toNat? with
    | some i => names.getD i (unnamed code)
    | none => unnamed code


/-! ## Texts -/

/-- Texts numbered by their rank in an ascending dictionary. -/
def ofTexts (dictionary : List String) : Codec where
  encode
    | .text s => if s ∈ dictionary then some (Ascending.below s dictionary) else none
    | _ => none
  capacity := dictionary.length
  render := nameIn dictionary

/-- The numbering of the texts among `values`. -/
def text (values : List Value) : Codec :=
  ofTexts (Ascending.ofList (values.filterMap Value.text?))


/-! ## Integers -/

/-- The code of an integer: twice the number of entries below it, and one more for an entry. -/
def integerCode (dictionary : List Int) (n : Int) : Int :=
  2 * Ascending.below n dictionary + if n ∈ dictionary then 1 else 0

/-- The gap before the entry at place `rank`, by the entries on its two sides. -/
def renderGap (dictionary : List Int) (rank : Nat) : String :=
  let entry (i : Nat) := (dictionary[i]?).elim "" toString
  let lower := match rank with
    | 0 => ""
    | i + 1 => entry i
  "(" ++ lower ++ ".." ++ entry rank ++ ")"

/-- An odd code is written as its entry, an even one as its gap. -/
def renderInteger (dictionary : List Int) (code : Int) : String :=
  if code = anyCode then "ANY"
  else match code.toNat? with
    | some c =>
      if c % 2 = 1 then (dictionary[c / 2]?).elim (unnamed code) toString
      else renderGap dictionary (c / 2)
    | none => unnamed code

/-- Integers numbered by an ascending dictionary: its entries and the gaps between them. -/
def ofIntegers (dictionary : List Int) : Codec where
  encode
    | .integer n => some (integerCode dictionary n.toInt)
    | _ => none
  capacity := 2 * dictionary.length + 1
  render := renderInteger dictionary

/-- The numbering of all integers by those among `values`. -/
def integer (values : List Value) : Codec :=
  ofIntegers (Ascending.ofList (values.filterMap Value.integer?))


/-! ## Booleans and declared variants -/

/-- `false` is 0 and `true` is 1. -/
def bool : Codec where
  encode
    | .bool b => some (if b then 1 else 0)
    | _ => none
  capacity := 2
  render := nameIn ["false", "true"]

/-- Equality of texts up to the case of the letters `A` to `Z`. -/
def sameLetters (s t : String) : Bool :=
  s.toList.map Char.toLower == t.toList.map Char.toLower

/-- Declared names numbered in the order of declaration. A text stands for the first
    name that has the same letters. -/
def variants (names : List String) : Codec where
  encode
    | .text s => (names.findIdx? (sameLetters s)).map Int.ofNat
    | _ => none
  capacity := names.length
  render := nameIn names

end Codec
end RuleIndex
