import Mathlib.Data.List.Induction
import Precedence.Proofs.Adequacy
import Precedence.Proofs.CTable

/-!
What a table that was built from registrations says about a token: in each of the
two positions the last registration that names the token decides, and a token
that none names binds nothing there. For tables of operators before an operand
and between two, this gives every symbol the shape it was registered with last.
-/

namespace Precedence

namespace Registration

def null? (key : TokenKey) : Registration → Option (Binding NullRule)
  | .nilfix rule keys => if key ∈ keys then some ⟨minPower, minPower, maxPower, rule⟩ else none
  | .leading power rule symbols =>
      if key ∈ symbols.map .symbol then some ⟨minPower, power, maxPower, rule⟩ else none
  | .following _ _ _ _ => none

def left? (key : TokenKey) : Registration → Option (Binding LeftRule)
  | .nilfix _ _ => none
  | .leading _ _ _ => none
  | .following fixity power rule symbols =>
      if key ∈ symbols.map .symbol then some (fixity.binding power rule) else none

def lastNull? (registrations : List Registration) (key : TokenKey) : Option (Binding NullRule) :=
  registrations.reverse.findSome? (null? key)

def lastLeft? (registrations : List Registration) (key : TokenKey) : Option (Binding LeftRule) :=
  registrations.reverse.findSome? (left? key)

end Registration

namespace OperatorTable

/-- Changing several entries alike, where a second change of the same entry does
nothing. -/
theorem find?_foldl_alter {change : Option TableEntry → TableEntry}
    (hchange : ∀ entry?, change (some (change entry?)) = change entry?) (keys : List TokenKey)
    (table : OperatorTable) (key : TokenKey) :
    (keys.foldl (fun table key => table.alter key change) table).find? key =
      if key ∈ keys then some (change (table.find? key)) else table.find? key := by
  induction keys generalizing table with
  | nil => simp
  | cons first rest ih =>
      rw [List.foldl_cons, ih, find?_alter]
      by_cases hfirst : key = first
      · simp [hfirst, hchange]
      · simp [hfirst]

theorem find?_foldl_setNull (binding : Binding NullRule) (keys : List TokenKey)
    (table : OperatorTable) (key : TokenKey) :
    (keys.foldl (setNull binding) table).find? key =
      if key ∈ keys then
        some ⟨binding, ((table.find? key).map TableEntry.left).getD (.inert .error)⟩
      else table.find? key := by
  refine (find?_foldl_alter ?_ keys table key).trans ?_
  · intro entry?
    cases entry? <;> rfl
  · cases table.find? key <;> rfl

theorem find?_foldl_setLeft (binding : Binding LeftRule) (keys : List TokenKey)
    (table : OperatorTable) (key : TokenKey) :
    (keys.foldl (setLeft binding) table).find? key =
      if key ∈ keys then
        some ⟨((table.find? key).map TableEntry.null).getD (.inert .error), binding⟩
      else table.find? key := by
  refine (find?_foldl_alter ?_ keys table key).trans ?_
  · intro entry?
    cases entry? <;> rfl
  · cases table.find? key <;> rfl

/-- The entry of a token from its last bindings in both positions. A token that is
named in one position only has no role in the other. -/
def entryOf : Option (Binding NullRule) → Option (Binding LeftRule) → Option TableEntry
  | none, none => none
  | null?, left? => some ⟨null?.getD (.inert .error), left?.getD (.inert .error)⟩

theorem entryOf_some_null (binding : Binding NullRule) (null? : Option (Binding NullRule))
    (left? : Option (Binding LeftRule)) :
    some ⟨binding, ((entryOf null? left?).map TableEntry.left).getD (.inert .error)⟩ =
      entryOf (some binding) left? := by
  cases null? <;> cases left? <;> rfl

theorem entryOf_some_left (binding : Binding LeftRule) (null? : Option (Binding NullRule))
    (left? : Option (Binding LeftRule)) :
    some ⟨((entryOf null? left?).map TableEntry.null).getD (.inert .error), binding⟩ =
      entryOf null? (some binding) := by
  cases null? <;> cases left? <;> rfl

/-- A registration replaces the binding of the tokens it names, in its position. -/
theorem find?_install {table : OperatorTable} {key : TokenKey}
    {null? : Option (Binding NullRule)} {left? : Option (Binding LeftRule)}
    (h : table.find? key = entryOf null? left?) (registration : Registration) :
    (registration.install table).find? key =
      entryOf ((registration.null? key).or null?) ((registration.left? key).or left?) := by
  cases registration with
  | nilfix rule keys =>
      simp only [Registration.install, find?_foldl_setNull, h, Registration.null?,
        Registration.left?, Option.none_or]
      split
      · exact entryOf_some_null _ null? left?
      · rfl
  | leading power rule symbols =>
      simp only [Registration.install, find?_foldl_setNull, h, Registration.null?,
        Registration.left?, Option.none_or]
      split
      · exact entryOf_some_null _ null? left?
      · rfl
  | following fixity power rule symbols =>
      simp only [Registration.install, find?_foldl_setLeft, h, Registration.null?,
        Registration.left?, Option.none_or]
      split
      · exact entryOf_some_left _ null? left?
      · rfl

/-- In each position the last registration that names a token decides. -/
theorem find?_installed (registrations : List Registration) (key : TokenKey) :
    (registrations.foldl Registration.install .empty).find? key =
      entryOf (Registration.lastNull? registrations key)
        (Registration.lastLeft? registrations key) := by
  induction registrations using List.reverseRecOn with
  | nil => rfl
  | append_singleton registrations last ih =>
      rw [List.foldl_append, List.foldl_cons, List.foldl_nil, find?_install ih]
      simp only [Registration.lastNull?, Registration.lastLeft?, List.reverse_append,
        List.reverse_singleton, List.singleton_append, List.findSome?_cons]
      cases last.null? key <;> cases last.left? key <;> rfl

theorem build_eq_ok {registrations : List Registration} {table : OperatorTable}
    (h : build registrations = .ok table) :
    (∀ registration ∈ registrations, registration.fault? = none) ∧
      table = registrations.foldl Registration.install .empty := by
  unfold build at h
  split at h
  · cases h
  · rename_i hfault
    cases h
    exact ⟨by simpa using hfault, rfl⟩

section Built

variable {registrations : List Registration} {table : OperatorTable}
  (hbuild : build registrations = .ok table)

include hbuild

theorem find?_build (key : TokenKey) :
    table.find? key = entryOf (Registration.lastNull? registrations key)
      (Registration.lastLeft? registrations key) := by
  rw [(build_eq_ok hbuild).2, find?_installed]

theorem left_build (token : Token) :
    (∃ binding, Registration.lastLeft? registrations token.key = some binding ∧
      table.left token = binding) ∨
    Registration.lastLeft? registrations token.key = none ∧
      (table.left token = .inert .unregistered ∨ table.left token = .inert .error) := by
  rw [left, leftOfKey, find?_build hbuild]
  cases Registration.lastNull? registrations token.key <;>
    cases Registration.lastLeft? registrations token.key <;> simp [entryOf]

theorem null_build (token : Token) :
    (∃ binding, Registration.lastNull? registrations token.key = some binding ∧
      table.null token = binding) ∨
    Registration.lastNull? registrations token.key = none ∧
      (table.null token = .inert .unregistered ∨ table.null token = .inert .error) := by
  rw [null, find?_build hbuild]
  cases Registration.lastNull? registrations token.key <;>
    cases Registration.lastLeft? registrations token.key <;> simp [entryOf]

/-- The last registration of a token behind an operand is what it does there. -/
theorem left_of_last {token : Token} {binding : Binding LeftRule}
    (hlast : Registration.lastLeft? registrations token.key = some binding) :
    table.left token = binding := by
  rcases left_build hbuild token with ⟨other, hother, hleft⟩ | ⟨hnone, _⟩
  · rw [hleft]
    exact Option.some.inj (hother.symm.trans hlast)
  · cases hnone.symm.trans hlast

/-- The last registration of a token before an operand is what it does there. -/
theorem null_of_last {token : Token} {binding : Binding NullRule}
    (hlast : Registration.lastNull? registrations token.key = some binding) :
    table.null token = binding := by
  rcases null_build hbuild token with ⟨other, hother, hnull⟩ | ⟨hnone, _⟩
  · rw [hnull]
    exact Option.some.inj (hother.symm.trans hlast)
  · cases hnone.symm.trans hlast

/-- Registrations behind an operand name operator symbols, so the end of the input never
has a role there. -/
theorem left_end_build {token : Token} (hend : token.isEnd) :
    table.left token = .inert .unregistered ∨ table.left token = .inert .error := by
  rcases left_build hbuild token with ⟨binding, hlast, _⟩ | ⟨_, hinert⟩
  · obtain ⟨registration, _, hbinding⟩ := List.exists_of_findSome?_eq_some hlast
    have hkind : token.kind = .endOfInput := by simpa [Token.isEnd] using hend
    cases registration <;> simp [Registration.left?, Token.key, hkind] at hbinding
  · exact hinert

theorem endIsInert_build : table.EndIsInert := by
  intro token hend
  rcases left_end_build hbuild hend with hleft | hleft
  · exact .inl (by rw [hleft]; rfl)
  · exact .inr (by rw [hleft]; rfl)

end Built

end OperatorTable

@[simp] theorem Fixity.binding_leftPower (fixity : Fixity) (power : Int) (rule : LeftRule) :
    (fixity.binding power rule).leftPower = power := by
  cases fixity <;> rfl

@[simp] theorem Fixity.binding_rule (fixity : Fixity) (power : Int) (rule : LeftRule) :
    (fixity.binding power rule).rule = rule := by
  cases fixity <;> rfl

structure Shape where
  fixity : Fixity
  power : Int
  deriving DecidableEq

def Shape.binding (shape : Shape) : Binding LeftRule := shape.fixity.binding shape.power .binary

@[simp] theorem Shape.binding_leftPower (shape : Shape) :
    shape.binding.leftPower = shape.power :=
  shape.fixity.binding_leftPower shape.power .binary

@[simp] theorem Shape.binding_rule (shape : Shape) : shape.binding.rule = .binary :=
  shape.fixity.binding_rule shape.power .binary

/-- An operator between two operands reads the right one at its own level or just
below, and lets operators of its own level follow or none. -/
theorem Shape.binding_bounds {shape : Shape} (h : shape.fixity ≠ .suffix) :
    shape.power - 1 ≤ shape.binding.rightPower ∧ shape.binding.rightPower ≤ shape.power ∧
      shape.power ≤ shape.binding.nextPower ∧ shape.binding.nextPower ≤ shape.power + 1 := by
  obtain ⟨fixity, power⟩ := shape
  cases fixity with
  | suffix => exact absurd rfl h
  | _ =>
      simp only [binding, Fixity.binding]
      omega

def Binding.operand : Binding NullRule := ⟨minPower, minPower, maxPower, .literal⟩

/-- The loop starts with a token that is an operand by itself, and lets any operator below
the greatest power follow. -/
theorem Parse.reaches_operand {table : OperatorTable} {token next : Token}
    (hnull : table.null token = .operand) (hend : ¬token.isEnd) {reading : Reading} {bound : Int}
    {rest : List Token} :
    Reaches table reading bound (token :: next :: rest) maxPower (.leaf token) (next :: rest) := by
  have hreaches : Reaches table reading bound (token :: next :: rest) (table.null token).nextPower
      (.leaf token) (next :: rest) :=
    .of_null (by simp) hend (.literal (by rw [hnull]; rfl))
  rwa [hnull] at hreaches

theorem Token.not_isEnd_of_kind {token : Token}
    (h : token.kind = .identifier ∨ token.kind = .number) : ¬token.isEnd := by
  rcases h with h | h <;> simp [isEnd, h]

namespace Registration

/-- Registrations of operands, of parentheses, and of operators before an operand
or between two. -/
inductive Plain : Registration → Prop
  | literal : Plain .literal
  | grouping (symbol : String) : Plain (.grouping symbol)
  | leading (power : Int) (symbols : List String) : Plain (.leading power .prefixed symbols)
  | between {fixity : Fixity} (hfixity : fixity ≠ .suffix) (power : Int) (symbols : List String) :
      Plain (.following fixity power .binary symbols)

def shape? (symbol : String) : Registration → Option Shape
  | .following fixity power _ symbols => if symbol ∈ symbols then some ⟨fixity, power⟩ else none
  | _ => none

def finalShape? (registrations : List Registration) (symbol : String) : Option Shape :=
  registrations.reverse.findSome? (shape? symbol)

/-- Operators that bind equally tightly group alike. -/
def Uniform (registrations : List Registration) : Prop :=
  ∀ symbol symbol' shape shape', finalShape? registrations symbol = some shape →
    finalShape? registrations symbol' = some shape' → shape.power = shape'.power → shape = shape'

theorem Plain.left?_eq {registration : Registration} (h : registration.Plain) (key : TokenKey) :
    registration.left? key =
      match key with
      | .symbol text => (registration.shape? text).map Shape.binding
      | _ => none := by
  cases h with
  | between hfixity power symbols =>
      cases key with
      | symbol text =>
          by_cases htext : text ∈ symbols <;> simp [left?, shape?, htext, Shape.binding]
      | _ => simp [left?]
  | _ => cases key <;> rfl

/-- Behind an operand the last registration gives a symbol its shape, and other
tokens nothing. -/
theorem lastLeft?_eq {registrations : List Registration}
    (hplain : ∀ registration ∈ registrations, registration.Plain) (key : TokenKey) :
    lastLeft? registrations key =
      match key with
      | .symbol text => (finalShape? registrations text).map Shape.binding
      | _ => none := by
  replace hplain : ∀ registration ∈ registrations.reverse, registration.Plain := by
    simpa using hplain
  unfold lastLeft? finalShape?
  generalize registrations.reverse = latest at hplain ⊢
  induction latest with
  | nil => cases key <;> rfl
  | cons registration earlier ih =>
      rw [List.findSome?_cons, (hplain registration (by simp)).left?_eq,
        ih fun other hother => hplain other (by simp [hother])]
      cases key with
      | symbol text =>
          simp only [List.findSome?_cons]
          cases registration.shape? text <;> rfl
      | _ => rfl

/-- The last shape of a symbol comes from one of the registrations. -/
theorem mem_of_finalShape? {registrations : List Registration} {symbol : String} {shape : Shape}
    (h : finalShape? registrations symbol = some shape) :
    ∃ rule symbols, .following shape.fixity shape.power rule symbols ∈ registrations := by
  obtain ⟨registration, hmem, hshape⟩ := List.exists_of_findSome?_eq_some h
  rw [List.mem_reverse] at hmem
  cases registration with
  | following fixity power rule symbols =>
      by_cases hsymbol : symbol ∈ symbols
      · obtain rfl : ⟨fixity, power⟩ = shape := by simpa [shape?, hsymbol] using hshape
        exact ⟨rule, symbols, hmem⟩
      · simp [shape?, hsymbol] at hshape
  | nilfix => cases hshape
  | leading => cases hshape

theorem symbol_of_null? {rule : NullRule} {power : Int} {symbols : List String} {key : TokenKey}
    {binding : Binding NullRule}
    (h : (Registration.leading power rule symbols).null? key = some binding) :
    ∃ symbol, key = .symbol symbol ∧ binding.rule = rule := by
  simp only [null?] at h
  split at h
  · rename_i hmem
    obtain ⟨symbol, _, rfl⟩ := List.mem_map.mp hmem
    cases h
    exact ⟨symbol, rfl, rfl⟩
  · cases h

def groupsLike : Registration → Registration → Bool
  | .following fixity power _ _, .following fixity' power' _ _ => power = power' → fixity = fixity'
  | _, _ => true

theorem uniform_of_groupsLike {registrations : List Registration}
    (h : ∀ registration ∈ registrations, ∀ other ∈ registrations, registration.groupsLike other) :
    Uniform registrations := by
  intro symbol symbol' shape shape' hshape hshape' hpower
  obtain ⟨rule, symbols, hmem⟩ := mem_of_finalShape? hshape
  obtain ⟨rule', symbols', hmem'⟩ := mem_of_finalShape? hshape'
  have hfixity := of_decide_eq_true (h _ hmem _ hmem') hpower
  obtain ⟨fixity, power⟩ := shape
  obtain ⟨fixity', power'⟩ := shape'
  simp_all

/-- What plain registrations give a token where an operand is expected. -/
theorem Plain.null?_sound {registration : Registration} (h : registration.Plain) {key : TokenKey}
    {binding : Binding NullRule} (hnull : registration.null? key = some binding) :
    binding = .operand ∨
      ∃ symbol, key = .symbol symbol ∧ (binding.rule = .grouping ∨ binding.rule = .prefixed) := by
  cases h with
  | literal =>
      simp only [Registration.literal, null?] at hnull
      split at hnull
      · exact .inl (Option.some.inj hnull).symm
      · cases hnull
  | grouping =>
      obtain ⟨symbol, hkey, hrule⟩ := symbol_of_null? hnull
      exact .inr ⟨symbol, hkey, .inl hrule⟩
  | leading =>
      obtain ⟨symbol, hkey, hrule⟩ := symbol_of_null? hnull
      exact .inr ⟨symbol, hkey, .inr hrule⟩
  | between => cases hnull

end Registration

/-! The bindings of a table that was built from plain registrations. -/

namespace OperatorTable

open Registration

variable {registrations : List Registration} {table : OperatorTable}
  (hbuild : build registrations = .ok table)
  (hplain : ∀ registration ∈ registrations, registration.Plain)

include hbuild hplain

/-- Behind an operand a token either has the last shape of its symbol, or binds
nothing. -/
theorem left_of_plain (token : Token) :
    (∃ shape, token.kind = .operator ∧ finalShape? registrations token.value = some shape ∧
      table.left token = shape.binding) ∨
    table.left token = .inert .unregistered ∨ table.left token = .inert .error := by
  rcases left_build hbuild token with ⟨binding, hlast, hleft⟩ | ⟨_, hinert⟩
  · rw [lastLeft?_eq hplain] at hlast
    obtain ⟨kind, value, span⟩ := token
    cases kind with
    | operator =>
        obtain ⟨shape, hshape, hbinding⟩ := Option.map_eq_some_iff.mp hlast
        exact .inl ⟨shape, rfl, hshape, hleft.trans hbinding.symm⟩
    | _ => cases hlast
  · exact .inr hinert

theorem left_of_shape {token : Token} (hkind : token.kind = .operator) {shape : Shape}
    (hshape : finalShape? registrations token.value = some shape) :
    table.left token = shape.binding := by
  apply left_of_last hbuild
  simp only [lastLeft?_eq hplain, Token.key, hkind, hshape, Option.map_some]

theorem leftOfSymbol_of_shape {symbol : String} {shape : Shape}
    (hshape : finalShape? registrations symbol = some shape) :
    table.leftOfSymbol symbol = shape.binding := by
  let token : Token := ⟨.operator, symbol, .origin⟩
  have hleft : table.left token = shape.binding := left_of_shape hbuild hplain rfl hshape
  rwa [left_of_operator rfl] at hleft

/-- An operator that was registered between two operands groups in one of the three
ways, and binds something. -/
theorem shape_sound {symbol : String} {shape : Shape}
    (hshape : finalShape? registrations symbol = some shape) :
    shape.fixity ≠ .suffix ∧ 0 < shape.power := by
  obtain ⟨rule, symbols, hmem⟩ := mem_of_finalShape? hshape
  constructor
  · generalize hregistration :
      Registration.following shape.fixity shape.power rule symbols = registration at hmem
    cases hplain registration hmem with
    | between hfixity =>
        cases hregistration
        exact hfixity
    | _ => cases hregistration
  · have hfault := (build_eq_ok hbuild).1 _ hmem
    by_contra hpower
    have hlow : shape.power ≤ minPower := Int.not_lt.mp hpower
    simp [fault?, hlow] at hfault

/-- Where an operand is expected only operators read another one. -/
theorem null_of_plain (token : Token) :
    (table.null token).rule ∈ [.unregistered, .error, .literal] ∨
      token.kind = .operator ∧
        ((table.null token).rule = .grouping ∨ (table.null token).rule = .prefixed) := by
  rcases null_build hbuild token with ⟨binding, hlast, hnull⟩ | ⟨_, hinert | hinert⟩
  · obtain ⟨registration, hmem, hbinding⟩ := List.exists_of_findSome?_eq_some hlast
    have hsound := (hplain registration (List.mem_reverse.mp hmem)).null?_sound hbinding
    rw [hnull]
    rcases hsound with rfl | ⟨symbol, hkey, hrule⟩
    · exact .inl (by simp [Binding.operand])
    · refine .inr ⟨?_, hrule⟩
      obtain ⟨kind, value, span⟩ := token
      cases kind with
      | operator => rfl
      | _ => cases hkey
  · exact .inl (by simp [hinert, Binding.inert])
  · exact .inl (by simp [hinert, Binding.inert])

/-- Identifiers and numbers are operands if they were ever registered as such. -/
theorem null_literal (hliteral : .literal ∈ registrations) {token : Token}
    (hkind : token.kind = .identifier ∨ token.kind = .number) : table.null token = .operand := by
  have hkey : token.key ∈ [TokenKey.identifier, .number] := by
    rcases hkind with hkind | hkind <;> simp [Token.key, hkind]
  rcases null_build hbuild token with ⟨binding, hlast, hnull⟩ | ⟨hnone, _⟩
  · obtain ⟨registration, hmem, hbinding⟩ := List.exists_of_findSome?_eq_some hlast
    rw [hnull]
    rcases (hplain registration (List.mem_reverse.mp hmem)).null?_sound hbinding with
      hoperand | ⟨symbol, hsymbol, _⟩
    · exact hoperand
    · simp [hsymbol] at hkey
  · have hfound := List.findSome?_eq_none_iff.mp hnone .literal (List.mem_reverse.mpr hliteral)
    simp [Registration.literal, null?, hkey] at hfound

end OperatorTable

namespace Registration

/-- Comparisons that do not associate, below operators that do, with a sign that
binds tightly and a negation that binds loosely. -/
def comparisons : List Registration :=
  [.literal, .grouping "(", .following .nonAssoc 10 .binary ["<", "=="],
    .following .leftAssoc 20 .binary ["+"], .following .rightAssoc 30 .binary ["^"],
    .leading 40 .prefixed ["-"], .leading 0 .prefixed ["!"]]

theorem plain_comparisons : ∀ registration ∈ comparisons, registration.Plain := by
  simp only [comparisons, List.forall_mem_cons]
  exact ⟨.literal, .grouping _, .between (by decide) _ _, .between (by decide) _ _,
    .between (by decide) _ _, .leading _ _, .leading _ _, by simp⟩

theorem uniform_comparisons : Uniform comparisons :=
  uniform_of_groupsLike (by decide)

end Registration

end Precedence
