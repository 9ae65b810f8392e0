import Precedence.Operator.Table

/-!
The expression grammar of C, with an exponent and a factorial operator added.
-/

namespace Precedence

/-- The levels of the grammar, loosest first. -/
inductive Level where
  | base
  | comma
  | assignment
  | ternary
  | logicalOr
  | logicalAnd
  | bitwiseOr
  | bitwiseXor
  | bitwiseAnd
  | equality
  | relational
  | shift
  | additive
  | multiplicative
  | exponent
  | unary
  | factorial
  | suffix
  deriving DecidableEq

def Level.power : Level → Int
  | .base => 0
  | .comma => 10
  | .assignment => 30
  | .ternary => 50
  | .logicalOr => 70
  | .logicalAnd => 90
  | .bitwiseOr => 110
  | .bitwiseXor => 130
  | .bitwiseAnd => 150
  | .equality => 170
  | .relational => 190
  | .shift => 210
  | .additive => 230
  | .multiplicative => 250
  | .exponent => 270
  | .unary => 290
  | .factorial => 300
  | .suffix => 310

def Level.following (level : Level) (fixity : Fixity) (rule : LeftRule)
    (symbols : List String) : Registration :=
  .following fixity level.power rule symbols

def Level.leading (level : Level) (rule : NullRule) (symbols : List String) : Registration :=
  .leading level.power rule symbols

def cRegistrations : List Registration := [
  Level.suffix.following .suffix .suffixed ["++", "--"],
  Level.suffix.following .leftAssoc .call ["("],
  Level.suffix.following .leftAssoc .index ["["],
  Level.suffix.following .leftAssoc .binary [".", "->"],
  Level.factorial.following .suffix .suffixed ["!"],
  Level.unary.leading .prefixUpdate ["++", "--"],
  Level.unary.leading .prefixed ["+", "!", "~", "-"],
  Level.exponent.following .rightAssoc .binary ["**"],
  Level.multiplicative.following .leftAssoc .binary ["*", "/", "%"],
  Level.additive.following .leftAssoc .binary ["+", "-"],
  Level.shift.following .leftAssoc .binary ["<<", ">>"],
  Level.relational.following .leftAssoc .binary ["<", ">", "<=", ">="],
  Level.equality.following .leftAssoc .binary ["!=", "=="],
  Level.bitwiseAnd.following .leftAssoc .binary ["&"],
  Level.bitwiseXor.following .leftAssoc .binary ["^"],
  Level.bitwiseOr.following .leftAssoc .binary ["|"],
  Level.logicalAnd.following .leftAssoc .binary ["&&"],
  Level.logicalOr.following .leftAssoc .binary ["||"],
  Level.ternary.following .rightAssoc .ternary ["?"],
  Level.assignment.following .rightAssoc .assignment
    ["=", "+=", "-=", "*=", "/=", "%=", "<<=", ">>=", "&=", "^=", "|="],
  Level.comma.following .leftAssoc .comma [","],
  .grouping "(",
  .literal,
  .nilfix .closing [.symbol ")", .symbol "]"],
  .nilfix .error [.symbol ":"]]

def cTable : OperatorTable := cRegistrations.foldl Registration.install .empty

/-- None of the registrations is faulty. -/
theorem build_cRegistrations : OperatorTable.build cRegistrations = .ok cTable := rfl

end Precedence
