import Precedence.Operator

/-!
Operator tables. A table gives every token both bindings; it is built from a
list of registrations, each of which names tokens for one of the two positions.
-/

namespace Precedence

structure TableEntry where
  null : Binding NullRule
  left : Binding LeftRule
  deriving DecidableEq

/-- The registered tokens, in the order they were first named. -/
structure OperatorTable where
  entries : List (TokenKey × TableEntry)
  deriving DecidableEq

namespace OperatorTable

def empty : OperatorTable := ⟨[]⟩

def find? (table : OperatorTable) (key : TokenKey) : Option TableEntry :=
  table.entries.lookup key

/-- How a token acts where an operand is expected. -/
def null (table : OperatorTable) (token : Token) : Binding NullRule :=
  ((table.find? token.key).map TableEntry.null).getD (.inert .unregistered)

def leftOfKey (table : OperatorTable) (key : TokenKey) : Binding LeftRule :=
  ((table.find? key).map TableEntry.left).getD (.inert .unregistered)

/-- How a token acts behind an operand. -/
def left (table : OperatorTable) (token : Token) : Binding LeftRule :=
  table.leftOfKey token.key

def leftOfSymbol (table : OperatorTable) (symbol : String) : Binding LeftRule :=
  table.leftOfKey (.symbol symbol)

/-- Replaces the entry of a key, or adds one behind all others. -/
def alterEntries (key : TokenKey) (change : Option TableEntry → TableEntry) :
    List (TokenKey × TableEntry) → List (TokenKey × TableEntry)
  | [] => [(key, change none)]
  | (other, entry) :: rest =>
      if key = other then (other, change (some entry)) :: rest
      else (other, entry) :: alterEntries key change rest

def alter (table : OperatorTable) (key : TokenKey)
    (change : Option TableEntry → TableEntry) : OperatorTable :=
  ⟨alterEntries key change table.entries⟩

/-- Changing one entry leaves all others alone. -/
theorem find?_alter (table : OperatorTable) (key other : TokenKey)
    (change : Option TableEntry → TableEntry) :
    (table.alter key change).find? other =
      if other = key then some (change (table.find? key)) else table.find? other := by
  obtain ⟨entries⟩ := table
  simp only [alter, find?]
  induction entries with
  | nil =>
      by_cases h : other = key
      · simp [alterEntries, h]
      · simp [alterEntries, List.lookup_cons, h, beq_eq_false_iff_ne.mpr h]
  | cons first rest ih =>
      obtain ⟨name, entry⟩ := first
      by_cases hname : key = name
      · subst hname
        by_cases h : other = key
        · simp [alterEntries, h]
        · simp [alterEntries, List.lookup_cons, h, beq_eq_false_iff_ne.mpr h]
      · rw [alterEntries, if_neg hname]
        by_cases hother : other = name
        · subst hother
          have hne : ¬other = key := fun h => hname h.symm
          simp [hne]
        · simp only [List.lookup_cons, beq_eq_false_iff_ne.mpr hother, beq_eq_false_iff_ne.mpr hname]
          exact ih

/-- Sets the null binding of a key. A new key cannot follow an operand. -/
def setNull (binding : Binding NullRule) (table : OperatorTable) (key : TokenKey) :
    OperatorTable :=
  table.alter key fun
    | none => ⟨binding, .inert .error⟩
    | some entry => { entry with null := binding }

/-- Sets the left binding of a key. A new key cannot begin an operand. -/
def setLeft (binding : Binding LeftRule) (table : OperatorTable) (key : TokenKey) :
    OperatorTable :=
  table.alter key fun
    | none => ⟨.inert .error, binding⟩
    | some entry => { entry with left := binding }

end OperatorTable

/-- How an operator that follows its left operand groups with its neighbours. -/
inductive Fixity where
  | suffix
  | leftAssoc
  | rightAssoc
  | nonAssoc
  deriving DecidableEq

def Fixity.binding (fixity : Fixity) (power : Int) (rule : LeftRule) :
    Binding LeftRule :=
  match fixity with
  | .suffix => ⟨power, minPower, maxPower, rule⟩
  | .leftAssoc => ⟨power, power, power + 1, rule⟩
  | .rightAssoc => ⟨power, power - 1, power + 1, rule⟩
  | .nonAssoc => ⟨power, power, power, rule⟩

/-- A role given to some tokens. -/
inductive Registration where
  /-- Tokens that stand where an operand is expected and take nothing. -/
  | nilfix (rule : NullRule) (keys : List TokenKey)
  | leading (power : Int) (rule : NullRule) (symbols : List String)
  | following (fixity : Fixity) (power : Int) (rule : LeftRule) (symbols : List String)
  deriving DecidableEq

namespace Registration

def literal : Registration := .nilfix .literal [.identifier, .number]

def grouping (symbol : String) : Registration := .leading minPower .grouping [symbol]

inductive Fault where
  /-- An operator behind an operand would never bind. -/
  | powerTooLow (power : Int)
  /-- The power above the operator's own is no 32-bit number. -/
  | powerTooHigh
  deriving DecidableEq

def Fault.message? : Fault → Option String
  | .powerTooLow power =>
      some ("binding power " ++ power.repr ++
        " of an infix or suffix operator must be above " ++ minPower.repr)
  | .powerTooHigh => none

/-- What is wrong with a registration, also if it names no token. -/
def fault? : Registration → Option Fault
  | .nilfix _ _ => none
  | .leading _ _ _ => none
  | .following fixity power _ _ =>
      if power ≤ minPower then some (.powerTooLow power)
      else if (fixity = .leftAssoc ∨ fixity = .rightAssoc) ∧ 0x80000000 ≤ power + 1 then
        some .powerTooHigh
      else none

def install (table : OperatorTable) : Registration → OperatorTable
  | .nilfix rule keys => keys.foldl (.setNull ⟨minPower, minPower, maxPower, rule⟩) table
  | .leading power rule symbols =>
      (symbols.map .symbol).foldl (.setNull ⟨minPower, power, maxPower, rule⟩) table
  | .following fixity power rule symbols =>
      (symbols.map .symbol).foldl (.setLeft (fixity.binding power rule)) table

end Registration

/-- Installs registrations in order, unless one of them is faulty. -/
def OperatorTable.build (registrations : List Registration) :
    Except Registration.Fault OperatorTable :=
  match registrations.findSome? Registration.fault? with
  | some fault => .error fault
  | none => .ok (registrations.foldl Registration.install .empty)

end Precedence
