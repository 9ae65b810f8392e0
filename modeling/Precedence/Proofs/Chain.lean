import Precedence.Proofs.NonAssociative

/-!
Chains of operands with operators between them, and nothing else. A chain is
resolved by splitting it at the operator that binds loosest: at the last one of its
level if the level associates to the left, at the first one if it associates to the
right, and at the only one if it does not associate. The parser comes to the same
expression from left to right, for any table; and where a level that does not
associate comes twice, it stops at the first operator that has no place.
-/

namespace Precedence

open Registration

def splitFirst? {α : Type} (test : α → Bool) : List α → Option (List α × α × List α)
  | [] => none
  | first :: rest =>
      if test first then some ([], first, rest)
      else
        (splitFirst? test rest).map fun (before, found, behind) => (first :: before, found, behind)

def splitLast? {α : Type} (test : α → Bool) (list : List α) : Option (List α × α × List α) :=
  (splitFirst? test list.reverse).map fun (behind, found, before) =>
    (before.reverse, found, behind.reverse)

theorem splitFirst?_eq_some {α : Type} {test : α → Bool} {list before behind : List α} {found : α}
    (h : splitFirst? test list = some (before, found, behind)) :
    list = before ++ found :: behind ∧ test found ∧ ∀ other ∈ before, ¬test other := by
  induction list generalizing before with
  | nil => cases h
  | cons first rest ih =>
      rw [splitFirst?] at h
      split at h
      · rename_i htest
        cases h
        exact ⟨rfl, htest, by simp⟩
      · rename_i htest
        obtain ⟨⟨before', found', behind'⟩, hrest, hsplit⟩ := Option.map_eq_some_iff.mp h
        cases hsplit
        obtain ⟨rfl, hfound, hbefore⟩ := ih hrest
        exact ⟨rfl, hfound, by simpa [htest] using hbefore⟩

theorem splitFirst?_eq_none {α : Type} {test : α → Bool} {list : List α}
    (h : splitFirst? test list = none) : ∀ other ∈ list, ¬test other := by
  induction list with
  | nil => simp
  | cons first rest ih =>
      rw [splitFirst?] at h
      split at h
      · cases h
      · rename_i htest
        simpa [htest] using ih (Option.map_eq_none_iff.mp h)

theorem splitLast?_eq_some {α : Type} {test : α → Bool} {list before behind : List α} {found : α}
    (h : splitLast? test list = some (before, found, behind)) :
    list = before ++ found :: behind ∧ test found ∧ ∀ other ∈ behind, ¬test other := by
  obtain ⟨⟨behind', found', before'⟩, hsplit, hsome⟩ := Option.map_eq_some_iff.mp h
  cases hsome
  obtain ⟨hlist, hfound, hbehind⟩ := splitFirst?_eq_some hsplit
  refine ⟨?_, hfound, by simpa using hbehind⟩
  rw [List.reverse_eq_iff] at hlist
  simpa using hlist

theorem splitLast?_eq_none {α : Type} {test : α → Bool} {list : List α}
    (h : splitLast? test list = none) : ∀ other ∈ list, ¬test other := by
  simpa using splitFirst?_eq_none (Option.map_eq_none_iff.mp h)

def Token.isAtom (token : Token) : Bool := token.kind = .identifier || token.kind = .number

/-- An operator of a chain with the operand behind it. The operator was registered
between two operands, at a level that can bind. -/
structure Link (registrations : List Registration) where
  operator : Token
  operand : Token
  shape : Shape
  isOperator : operator.kind = .operator
  isOpen : ¬operator.isClosing
  isAtom : operand.isAtom
  hasShape : finalShape? registrations operator.value = some shape
  isBelow : shape.power < maxPower

variable {registrations : List Registration}

namespace Link

def level (link : Link registrations) : Int := link.shape.power

/-- The operator leaves an operator of this power that follows its right operand to
whoever goes on with its result. -/
def Admits (link : Link registrations) (power : Int) : Prop :=
  power ≤ link.shape.binding.rightPower ∧ power < link.shape.binding.nextPower

end Link

namespace Chain

def tokens (first : Token) (links : List (Link registrations)) : List Token :=
  first :: links.flatMap fun link => [link.operator, link.operand]

/-- A chain before, at and behind one of its operators. -/
abbrev Split (registrations : List Registration) :=
  List (Link registrations) × Link registrations × List (Link registrations)

/-- Where a chain is split at a level. A level that does not associate cannot be split
if it comes twice. -/
def splitLevel? (level : Int) (links : List (Link registrations)) : Option (Split registrations) :=
  match splitFirst? (·.level = level) links with
  | none => none
  | some (before, pivot, behind) =>
      match pivot.shape.fixity with
      | .leftAssoc => splitLast? (·.level = level) links
      | .rightAssoc => some (before, pivot, behind)
      | _ => if behind.any (·.level = level) then none else some (before, pivot, behind)

/-- Where a chain is split: at the level that binds loosest. -/
def pivot? (links : List (Link registrations)) : Option (Split registrations) :=
  (links.map Link.level).min?.bind (splitLevel? · links)

/-- A place where a chain can be split. Other operators of its level stand before it
only if the level associates to the left, and behind it only if it associates to the
right. -/
structure IsPivot (links before : List (Link registrations)) (pivot : Link registrations)
    (behind : List (Link registrations)) : Prop where
  eq : links = before ++ pivot :: behind
  le : ∀ link ∈ links, pivot.level ≤ link.level
  ne_before : pivot.shape.fixity ≠ .leftAssoc → ∀ link ∈ before, link.level ≠ pivot.level
  ne_behind : pivot.shape.fixity ≠ .rightAssoc → ∀ link ∈ behind, link.level ≠ pivot.level

theorem IsPivot.mem {links before behind : List (Link registrations)} {pivot : Link registrations}
    (h : IsPivot links before pivot behind) : pivot ∈ links := by
  simp [h.eq]

theorem IsPivot.length {links before behind : List (Link registrations)}
    {pivot : Link registrations} (h : IsPivot links before pivot behind) :
    before.length + behind.length + 1 = links.length := by
  simp only [h.eq, List.length_append, List.length_cons]
  omega

/-- An operator that has no place where it stands: one of its level that does not
associate comes before it, with none that binds looser in between. -/
def Blocked (before : List (Link registrations)) (link : Link registrations) : Prop :=
  link.shape.fixity = .nonAssoc ∧
    ∃ earlier other between, before = earlier ++ other :: between ∧ other.level = link.level ∧
      ∀ inner ∈ between, link.level ≤ inner.level

theorem shape_eq_of_level (huniform : Uniform registrations) {link other : Link registrations}
    (h : link.level = other.level) : link.shape = other.shape :=
  huniform _ _ _ _ link.hasShape other.hasShape h

theorem min?_level {links : List (Link registrations)} {level : Int}
    (h : (links.map Link.level).min? = some level) :
    (∃ link ∈ links, link.level = level) ∧ ∀ link ∈ links, level ≤ link.level := by
  obtain ⟨hmem, hle⟩ := List.min?_eq_some_iff.mp h
  exact ⟨by simpa using hmem, by simpa using hle⟩

theorem eq_of_splitLevel? {level : Int} {links before behind : List (Link registrations)}
    {pivot : Link registrations} (h : splitLevel? level links = some (before, pivot, behind)) :
    links = before ++ pivot :: behind := by
  unfold splitLevel? at h
  split at h
  · cases h
  · rename_i hfirst
    have hlinks := (splitFirst?_eq_some hfirst).1
    split at h
    · exact (splitLast?_eq_some h).1
    · cases h
      exact hlinks
    · split at h
      · cases h
      · cases h
        exact hlinks

theorem isPivot_of_splitLevel? (huniform : Uniform registrations) {level : Int}
    {links before behind : List (Link registrations)} {pivot : Link registrations}
    (hle : ∀ link ∈ links, level ≤ link.level)
    (h : splitLevel? level links = some (before, pivot, behind)) :
    IsPivot links before pivot behind := by
  have hlinks := eq_of_splitLevel? h
  unfold splitLevel? at h
  split at h
  · cases h
  · rename_i hfirst
    obtain ⟨_, hlevel, hbefore⟩ := splitFirst?_eq_some hfirst
    obtain rfl := of_decide_eq_true hlevel
    split at h
    · rename_i hfixity
      obtain ⟨_, hlevel', hbehind'⟩ := splitLast?_eq_some h
      have hlevel' := of_decide_eq_true hlevel'
      refine ⟨hlinks, hlevel' ▸ hle, ?_, fun _ => by simpa [hlevel'] using hbehind'⟩
      rw [shape_eq_of_level huniform hlevel']
      exact fun hne => absurd hfixity hne
    · rename_i hfixity
      cases h
      exact ⟨hlinks, hle, fun _ => by simpa using hbefore, fun hne => absurd hfixity hne⟩
    · split at h
      · cases h
      · rename_i hany
        cases h
        exact ⟨hlinks, hle, fun _ => by simpa using hbefore, fun _ => by simpa using hany⟩

/-- A chain that cannot be split has an operator without a place. -/
theorem blocked_of_splitLevel? (huniform : Uniform registrations)
    (hfixity : ∀ link : Link registrations, link.shape.fixity ≠ .suffix) {level : Int}
    {links : List (Link registrations)} (hlevel : ∃ link ∈ links, link.level = level)
    (hle : ∀ link ∈ links, level ≤ link.level) (h : splitLevel? level links = none) :
    ∃ before link behind, links = before ++ link :: behind ∧ Blocked before link := by
  obtain ⟨least, hleast, hlevel⟩ := hlevel
  unfold splitLevel? at h
  split at h
  · rename_i hfirst
    exact absurd (splitFirst?_eq_none hfirst least hleast) (by simp [hlevel])
  · rename_i before pivot behind hfirst
    obtain ⟨hlinks, hpivot, _⟩ := splitFirst?_eq_some hfirst
    obtain rfl := of_decide_eq_true hpivot
    split at h
    · exact absurd (splitLast?_eq_none h least hleast) (by simp [hlevel])
    · cases h
    · rename_i hleft hright
      have hnon : pivot.shape.fixity = .nonAssoc := by
        have := hfixity pivot
        cases hshape : pivot.shape.fixity <;> simp_all
      split at h
      · rename_i hany
        obtain ⟨link, hmem, hsame⟩ := List.any_eq_true.mp hany
        have hsame := of_decide_eq_true hsame
        obtain ⟨between, rest, rfl⟩ := List.append_of_mem hmem
        refine ⟨before ++ pivot :: between, link, rest, by simp [hlinks], ?_, before, pivot,
          between, rfl, hsame.symm, ?_⟩
        · rw [shape_eq_of_level huniform hsame, hnon]
        · intro inner hinner
          rw [hsame]
          exact hle inner (by simp [hlinks, hinner])
      · cases h

theorem isPivot_of_pivot? (huniform : Uniform registrations)
    {links before behind : List (Link registrations)} {pivot : Link registrations}
    (h : pivot? links = some (before, pivot, behind)) : IsPivot links before pivot behind := by
  obtain ⟨level, hmin, hsplit⟩ := Option.bind_eq_some_iff.mp h
  exact isPivot_of_splitLevel? huniform (min?_level hmin).2 hsplit

theorem eq_of_pivot? {links before behind : List (Link registrations)}
    {pivot : Link registrations} (h : pivot? links = some (before, pivot, behind)) :
    links = before ++ pivot :: behind := by
  obtain ⟨level, _, hsplit⟩ := Option.bind_eq_some_iff.mp h
  exact eq_of_splitLevel? hsplit

/-- The expression that a chain stands for, if every split is possible. -/
def resolve (first : Token) (links : List (Link registrations)) : Option Expr :=
  match _hsplit : pivot? links with
  | none => if links.isEmpty then some (.leaf first) else none
  | some (before, pivot, behind) => do
      let left ← resolve first before
      let right ← resolve pivot.operand behind
      return .ofOperands pivot.operator.value [left, right]
termination_by links.length
decreasing_by
  all_goals
    rw [eq_of_pivot? ‹pivot? links = some _›]
    simp only [List.length_append, List.length_cons]
    omega

theorem resolve_eq_some {first : Token} {links : List (Link registrations)} {expr : Expr}
    (h : resolve first links = some expr) :
    (links = [] ∧ expr = .leaf first) ∨
    ∃ before pivot behind left right, pivot? links = some (before, pivot, behind) ∧
      resolve first before = some left ∧ resolve pivot.operand behind = some right ∧
      expr = .ofOperands pivot.operator.value [left, right] := by
  rw [resolve] at h
  split at h
  · split at h
    · rename_i hempty
      exact .inl ⟨List.isEmpty_iff.mp hempty, (Option.some.inj h).symm⟩
    · cases h
  · rename_i before pivot behind hsplit
    obtain ⟨left, hleft, h⟩ := Option.bind_eq_some_iff.mp h
    obtain ⟨right, hright, h⟩ := Option.bind_eq_some_iff.mp h
    exact .inr ⟨before, pivot, behind, left, right, hsplit, hleft, hright, (Option.some.inj h).symm⟩

theorem resolve_eq_none {first : Token} {links : List (Link registrations)}
    (h : resolve first links = none) :
    (links ≠ [] ∧ pivot? links = none) ∨
    ∃ before pivot behind, pivot? links = some (before, pivot, behind) ∧
      (resolve first before = none ∨ resolve pivot.operand behind = none) := by
  rw [resolve] at h
  split at h
  · rename_i hsplit
    split at h
    · cases h
    · rename_i hempty
      exact .inl ⟨by simpa using hempty, hsplit⟩
  · rename_i before pivot behind hsplit
    refine .inr ⟨before, pivot, behind, hsplit, ?_⟩
    cases hleft : resolve first before with
    | none => exact .inl rfl
    | some left =>
        cases hright : resolve pivot.operand behind with
        | none => exact .inr rfl
        | some right => simp [hleft, hright] at h

/-- Further operators before a chain change nothing about those without a place. -/
theorem Blocked.append_left {before : List (Link registrations)} {link : Link registrations}
    (h : Blocked before link) (front : List (Link registrations)) :
    Blocked (front ++ before) link := by
  obtain ⟨hfixity, earlier, other, between, rfl, hlevel, hbetween⟩ := h
  exact ⟨hfixity, front ++ earlier, other, between, by simp, hlevel, hbetween⟩

/-- A chain that does not resolve has an operator without a place. -/
theorem blocked_of_resolve (huniform : Uniform registrations)
    (hfixity : ∀ link : Link registrations, link.shape.fixity ≠ .suffix) {first : Token}
    {links : List (Link registrations)} (h : resolve first links = none) :
    ∃ before link behind, links = before ++ link :: behind ∧ Blocked before link := by
  rcases resolve_eq_none h with ⟨hne, hnone⟩ | ⟨before, pivot, behind, hsplit, hpart⟩
  · cases hmin : (links.map Link.level).min? with
    | none => exact absurd (List.map_eq_nil_iff.mp (List.min?_eq_none_iff.mp hmin)) hne
    | some level =>
        obtain ⟨hlevel, hle⟩ := min?_level hmin
        rw [pivot?, hmin] at hnone
        exact blocked_of_splitLevel? huniform hfixity hlevel hle hnone
  · have hlinks := eq_of_pivot? hsplit
    rcases hpart with hleft | hright
    · obtain ⟨front, link, rest, hbefore, hblocked⟩ := blocked_of_resolve huniform hfixity hleft
      exact ⟨front, link, rest ++ pivot :: behind, by simp [hlinks, hbefore], hblocked⟩
    · obtain ⟨front, link, rest, hbehind, hblocked⟩ := blocked_of_resolve huniform hfixity hright
      refine ⟨before ++ pivot :: front, link, rest, by simp [hlinks, hbehind], ?_⟩
      simpa using hblocked.append_left (before ++ [pivot])
termination_by links.length
decreasing_by
  all_goals
    rw [hlinks]
    simp only [List.length_append, List.length_cons]
    omega

theorem Blocked.least_le {links : List (Link registrations)} {link : Link registrations}
    (h : Blocked links link) {level : Int} (hle : ∀ link ∈ links, level ≤ link.level) :
    level ≤ link.level := by
  obtain ⟨_, earlier, other, between, hlinks, hother, _⟩ := h
  rw [← hother]
  exact hle other (by simp [hlinks])

/-- If a chain is split at an operator that binds looser, an operator without a place
behind it has none behind the split either. -/
theorem Blocked.of_split {links before behind : List (Link registrations)}
    {pivot link : Link registrations} (h : Blocked links link)
    (hlinks : links = before ++ pivot :: behind) (hlt : pivot.level < link.level) :
    Blocked behind link := by
  obtain ⟨hfixity, earlier, other, between, hother, hlevel, hbetween⟩ := h
  refine ⟨hfixity, ?_⟩
  rw [hlinks, List.append_eq_append_iff] at hother
  rcases hother with ⟨part, rfl, hpivot⟩ | ⟨part, rfl, hpivot⟩
  · rcases List.cons_eq_append_iff.mp hpivot with ⟨_, hcons⟩ | ⟨part', _, hbehind⟩
    · -- The earlier operator would be the split itself.
      cases hcons
      omega
    · exact ⟨part', other, between, hbehind, hlevel, hbetween⟩
  · rcases List.cons_eq_append_iff.mp hpivot with ⟨_, hcons⟩ | ⟨part', _, hbehind⟩
    · cases hcons
      omega
    · -- The split would lie between the two operators.
      have := hbetween pivot (by simp [hbehind])
      omega

structure FirstBlocked (links before : List (Link registrations)) (link : Link registrations)
    (behind : List (Link registrations)) : Prop where
  eq : links = before ++ link :: behind
  blocked : Blocked before link
  first : ∀ front other rest, before = front ++ other :: rest → ¬Blocked front other

theorem exists_firstBlocked {links before behind : List (Link registrations)}
    {link : Link registrations} (hlinks : links = before ++ link :: behind)
    (hblocked : Blocked before link) :
    ∃ before link behind, FirstBlocked links before link behind := by
  by_cases hfirst : ∃ front other rest, before = front ++ other :: rest ∧ Blocked front other
  · obtain ⟨front, other, rest, hbefore, hother⟩ := hfirst
    have hlinks' : links = front ++ other :: (rest ++ link :: behind) := by simp [hlinks, hbefore]
    exact exists_firstBlocked hlinks' hother
  · refine ⟨before, link, behind, hlinks, hblocked, ?_⟩
    intro front other rest hbefore hother
    exact hfirst ⟨front, other, rest, hbefore, hother⟩
termination_by before.length
decreasing_by
  rw [hbefore]
  simp only [List.length_append, List.length_cons]
  omega

/-- The part of a chain before its first operator without a place resolves. -/
theorem FirstBlocked.resolves (huniform : Uniform registrations)
    (hfixity : ∀ link : Link registrations, link.shape.fixity ≠ .suffix) {first : Token}
    {links before behind : List (Link registrations)} {link : Link registrations}
    (h : FirstBlocked links before link behind) : ∃ expr, resolve first before = some expr := by
  cases hresolve : resolve first before with
  | some expr => exact ⟨expr, rfl⟩
  | none =>
      obtain ⟨front, other, rest, hbefore, hblocked⟩ :=
        blocked_of_resolve huniform hfixity hresolve
      exact absurd hblocked (h.first front other rest hbefore)

theorem tokens_split (first : Token) (before : List (Link registrations))
    (pivot : Link registrations) (behind : List (Link registrations)) (rest : List Token) :
    tokens first (before ++ pivot :: behind) ++ rest =
      tokens first before ++ pivot.operator :: (tokens pivot.operand behind ++ rest) := by
  simp [tokens]

section Parsing

open Parse

theorem reads_of_reaches {table : OperatorTable} {depth : Nat} {bound power : Int}
    {all rest : List Token} {next : Token} {expr : Expr}
    (h : Reaches table (Reads table depth) bound all power expr (next :: rest))
    (hstop : ¬(bound < (table.left next).leftPower ∧ (table.left next).leftPower < power)) :
    Reads table (depth + 1) bound all expr (next :: rest) := by
  refine ⟨power, h, ?_⟩
  intro token htoken
  obtain rfl : next = token := by simpa using htoken
  exact hstop

variable {table : OperatorTable} (hbuild : OperatorTable.build registrations = .ok table)
  (hplain : ∀ registration ∈ registrations, registration.Plain)

include hbuild hplain

theorem left_link (link : Link registrations) : table.left link.operator = link.shape.binding :=
  OperatorTable.left_of_shape hbuild hplain link.isOperator link.hasShape

theorem leftPower_link (link : Link registrations) :
    (table.left link.operator).leftPower = link.level := by
  rw [left_link hbuild hplain, Shape.binding_leftPower, Link.level]

/-- An operator of a chain is trailing input where the reading of an expression stops
at it. -/
theorem leftover_link (link : Link registrations) :
    table.leftover? link.operator =
      some ⟨.trailingInput link.operator.value, link.operator.span.start⟩ := by
  have hend : ¬link.operator.isEnd := by simp [Token.isEnd, link.isOperator]
  have hrule : (table.left link.operator).rule = .binary := by
    rw [left_link hbuild hplain, Shape.binding_rule]
  simp [OperatorTable.leftover?, OperatorTable.misplaced?, hend, link.isOpen, hrule]

theorem fixity_link (link : Link registrations) : link.shape.fixity ≠ .suffix :=
  (OperatorTable.shape_sound hbuild hplain link.hasShape).1

theorem admits_of_lt {link : Link registrations} {power : Int} (h : power < link.level) :
    link.Admits power := by
  have hbounds := Shape.binding_bounds (fixity_link hbuild hplain link)
  unfold Link.level at h
  exact ⟨by omega, by omega⟩

/-- The operators before a split leave it to whoever goes on with their result. -/
theorem IsPivot.admits (huniform : Uniform registrations)
    {links before behind : List (Link registrations)} {pivot : Link registrations}
    (h : IsPivot links before pivot behind) : ∀ link ∈ before, link.Admits pivot.level := by
  intro link hmem
  have hle := h.le link (by simp [h.eq, hmem])
  by_cases hlevel : pivot.level = link.level
  · have hshape := shape_eq_of_level huniform hlevel
    have hfixity : pivot.shape.fixity = .leftAssoc := by
      by_contra hne
      exact h.ne_before hne link hmem hlevel.symm
    simp only [Link.Admits, ← hshape, Link.level, Shape.binding, hfixity, Fixity.binding]
    omega
  · exact admits_of_lt hbuild hplain (by omega)

/-- The operators behind a split go to its right operand. -/
theorem IsPivot.lt_behind {links before behind : List (Link registrations)}
    {pivot : Link registrations} (h : IsPivot links before pivot behind) :
    ∀ link ∈ behind, pivot.shape.binding.rightPower < link.level := by
  intro link hmem
  have hle := h.le link (by simp [h.eq, hmem])
  have hbounds := Shape.binding_bounds (fixity_link hbuild hplain pivot)
  by_cases hfixity : pivot.shape.fixity = .rightAssoc
  · unfold Link.level at hle ⊢
    simp only [Shape.binding, hfixity, Fixity.binding]
    omega
  · have hne := h.ne_behind hfixity link hmem
    unfold Link.level at hle hne ⊢
    omega

theorem reaches_atom (hliteral : .literal ∈ registrations) {token next : Token}
    (htoken : token.isAtom) {reading : Reading} {bound : Int} {rest : List Token} :
    Reaches table reading bound (token :: next :: rest) maxPower (.leaf token) (next :: rest) := by
  have hkind : token.kind = .identifier ∨ token.kind = .number := by
    simpa [Token.isAtom] using htoken
  exact Parse.reaches_operand (OperatorTable.null_literal hbuild hplain hliteral hkind)
    (Token.not_isEnd_of_kind hkind)

/-- The loop goes on at the split of a chain, once it has come there and the right
operand can be read. -/
theorem reaches_split {links before behind : List (Link registrations)} {pivot : Link registrations}
    (hpivot : IsPivot links before pivot behind) {first next : Token} {rest : List Token}
    {depth : Nat} {bound power : Int} {left right : Expr} (hbound : bound < pivot.level)
    (hpower : pivot.level < power)
    (hleft : Reaches table (Reads table depth) bound
      (tokens first before ++ pivot.operator :: (tokens pivot.operand behind ++ next :: rest)) power
      left (pivot.operator :: (tokens pivot.operand behind ++ next :: rest)))
    (hright : Reads table depth pivot.shape.binding.rightPower
      (tokens pivot.operand behind ++ next :: rest) right (next :: rest)) :
    Reaches table (Reads table depth) bound (tokens first links ++ next :: rest)
      pivot.shape.binding.nextPower (.ofOperands pivot.operator.value [left, right])
      (next :: rest) := by
  have hlink := left_link hbuild hplain pivot
  have hlevel := leftPower_link hbuild hplain pivot
  rw [hpivot.eq, tokens_split, ← hlink]
  refine hleft.of_left (by simp) (hlevel ▸ hbound) (hlevel ▸ hpower) (.binary ?_ ?_)
  · rw [hlink, Shape.binding_rule]
  · rwa [hlink]

variable (hliteral : .literal ∈ registrations) (huniform : Uniform registrations)

include hliteral huniform

/-- A chain that resolves is read whole, if all its operators bind tighter than the
bound and leave the next token to whoever goes on. -/
theorem reaches_resolve {first : Token} (hfirst : first.isAtom) (next : Token) (rest : List Token)
    {links : List (Link registrations)} {expr : Expr} {depth : Nat} {bound : Int}
    (hresolve : resolve first links = some expr) (hdepth : links.length ≤ depth)
    (hbound : ∀ link ∈ links, bound < link.level)
    (hadmits : ∀ link ∈ links, link.Admits (table.left next).leftPower)
    (hnext : (table.left next).leftPower < maxPower) :
    ∃ power, (table.left next).leftPower < power ∧
      Reaches table (Reads table depth) bound (tokens first links ++ next :: rest) power expr
        (next :: rest) := by
  rcases resolve_eq_some hresolve with
    ⟨rfl, rfl⟩ | ⟨before, pivot, behind, left, right, hsplit, hleft, hright, rfl⟩
  · exact ⟨maxPower, hnext, reaches_atom hbuild hplain hliteral hfirst⟩
  · have hpivot := isPivot_of_pivot? huniform hsplit
    have hlength := hpivot.length
    have hlevel := leftPower_link hbuild hplain pivot
    obtain ⟨inner, rfl⟩ : ∃ inner, depth = inner + 1 := ⟨depth - 1, by omega⟩
    obtain ⟨power, hpower, hreachesLeft⟩ := reaches_resolve hfirst pivot.operator
      (tokens pivot.operand behind ++ next :: rest) hleft (by omega : before.length ≤ inner + 1)
      (fun link hlink => hbound link (by simp [hpivot.eq, hlink]))
      (hlevel ▸ hpivot.admits hbuild hplain huniform) (hlevel ▸ pivot.isBelow)
    obtain ⟨_, _, hreachesRight⟩ := reaches_resolve pivot.isAtom next rest
      hright (by omega : behind.length ≤ inner) (hpivot.lt_behind hbuild hplain)
      (fun link hlink => hadmits link (by simp [hpivot.eq, hlink])) hnext
    obtain ⟨hright, hfollow⟩ := hadmits pivot hpivot.mem
    refine ⟨pivot.shape.binding.nextPower, hfollow, ?_⟩
    exact reaches_split hbuild hplain hpivot (hbound pivot hpivot.mem) (hlevel ▸ hpower)
      hreachesLeft (reads_of_reaches hreachesRight (by omega))
termination_by links.length
decreasing_by
  all_goals omega

/-- Behind a split at an operator that does not associate, the next one of its level
ends the reading. -/
theorem reads_behind_blocker {links before behind : List (Link registrations)}
    {pivot link : Link registrations} (hpivot : IsPivot links before pivot behind)
    (hfixity : link.shape.fixity = .nonAssoc) (hlevel : link.level = pivot.level)
    (rest : List Token) {right : Expr} {depth : Nat}
    (hright : resolve pivot.operand behind = some right) (hdepth : behind.length ≤ depth) :
    pivot.shape.binding.nextPower ≤ link.level ∧
      Reads table (depth + 1) pivot.shape.binding.rightPower
        (tokens pivot.operand behind ++ link.operator :: rest) right (link.operator :: rest) := by
  rw [shape_eq_of_level huniform hlevel] at hfixity
  have hstrict : pivot.shape.binding.rightPower = pivot.level ∧
      pivot.shape.binding.nextPower = pivot.level := by
    simp [Shape.binding, hfixity, Fixity.binding, Link.level]
  have hlt : ∀ inner ∈ behind, link.level < inner.level := by
    intro inner hinner
    have hle := hpivot.le inner (by simp [hpivot.eq, hinner])
    have hne := hpivot.ne_behind (by simp [hfixity]) inner hinner
    omega
  have hlink := leftPower_link hbuild hplain link
  obtain ⟨power, _, hreaches⟩ := reaches_resolve hbuild hplain hliteral huniform pivot.isAtom
    link.operator rest hright hdepth (hpivot.lt_behind hbuild hplain)
    (fun inner hinner => hlink ▸ admits_of_lt hbuild hplain (hlt inner hinner))
    (hlink ▸ link.isBelow)
  exact ⟨by omega, reads_of_reaches hreaches (by omega)⟩

/-- An operator without a place ends the reading of the chain before it. -/
theorem reaches_blocked {first : Token} (hfirst : first.isAtom) (rest : List Token)
    {links : List (Link registrations)} {link : Link registrations} {expr : Expr} {depth : Nat}
    {bound : Int} (hresolve : resolve first links = some expr) (hdepth : links.length ≤ depth)
    (hbound : ∀ link ∈ links, bound < link.level) (hblocked : Blocked links link) :
    ∃ power ≤ link.level,
      Reaches table (Reads table depth) bound (tokens first links ++ link.operator :: rest) power
        expr (link.operator :: rest) := by
  rcases resolve_eq_some hresolve with
    ⟨rfl, rfl⟩ | ⟨before, pivot, behind, left, right, hsplit, hleft, hright, rfl⟩
  · obtain ⟨_, earlier, other, between, hnil, _⟩ := hblocked
    simp at hnil
  · have hpivot := isPivot_of_pivot? huniform hsplit
    have hlength := hpivot.length
    have hlevel := leftPower_link hbuild hplain pivot
    obtain ⟨inner, rfl⟩ : ∃ inner, depth = inner + 1 := ⟨depth - 1, by omega⟩
    obtain ⟨power, hpower, hreachesLeft⟩ := reaches_resolve hbuild hplain hliteral huniform hfirst
      pivot.operator (tokens pivot.operand behind ++ link.operator :: rest) hleft
      (by omega : before.length ≤ inner + 1)
      (fun link hlink => hbound link (by simp [hpivot.eq, hlink]))
      (hlevel ▸ hpivot.admits hbuild hplain huniform) (hlevel ▸ pivot.isBelow)
    suffices hread : pivot.shape.binding.nextPower ≤ link.level ∧
        Reads table (inner + 1) pivot.shape.binding.rightPower
          (tokens pivot.operand behind ++ link.operator :: rest) right (link.operator :: rest) from
      ⟨_, hread.1, reaches_split hbuild hplain hpivot (hbound pivot hpivot.mem) (hlevel ▸ hpower)
        hreachesLeft hread.2⟩
    rcases Int.lt_or_eq_of_le (hblocked.least_le hpivot.le) with hlt | hsame
    · -- A looser split leaves both operators to its right operand.
      obtain ⟨power', hpower', hreachesRight⟩ := reaches_blocked pivot.isAtom rest hright
        (by omega : behind.length ≤ inner) (hpivot.lt_behind hbuild hplain)
        (hblocked.of_split hpivot.eq hlt)
      have hlink := leftPower_link hbuild hplain link
      have hbounds := Shape.binding_bounds (fixity_link hbuild hplain pivot)
      refine ⟨?_, reads_of_reaches hreachesRight (by omega)⟩
      unfold Link.level at hlt ⊢
      omega
    · -- The split is the operator that blocks.
      exact reads_behind_blocker hbuild hplain hliteral huniform hpivot hblocked.1 hsame.symm rest
        hright (by omega)
termination_by links.length
decreasing_by omega

end Parsing

end Chain

namespace Parser

/-- A source that is a chain of operands and operators parses to what the chain
resolves to. If it does not resolve, the first operator that has no place is left
over, and named where it stands. -/
theorem parse_chain {table : OperatorTable} (hbuild : OperatorTable.build registrations = .ok table)
    (hplain : ∀ registration ∈ registrations, registration.Plain)
    (hliteral : .literal ∈ registrations) (huniform : Uniform registrations) {first last : Token}
    (hfirst : first.isAtom) {links : List (Link registrations)} {source : String}
    (htokens : tokenize source = .ok (Chain.tokens first links ++ [last])) {limit : Nat}
    (hlimit : links.length < limit) :
    (∀ expr, Chain.resolve first links = some expr →
      Parser.parse ⟨table, limit⟩ source = .ok expr) ∧
    (Chain.resolve first links = none →
      ∃ before link behind, Chain.FirstBlocked links before link behind ∧
        Parser.parse ⟨table, limit⟩ source =
          .error ⟨.trailingInput link.operator.value, link.operator.span.start⟩) := by
  have hinert := OperatorTable.endIsInert_build hbuild
  have hpos (link : Link registrations) : minPower < link.level :=
    (OperatorTable.shape_sound hbuild hplain link.hasShape).2
  obtain ⟨depth, rfl⟩ : ∃ depth, limit = depth + 1 := ⟨limit - 1, by omega⟩
  constructor
  · intro expr hresolve
    obtain ⟨_, final, hall, _, hend, _⟩ :=
      (TokenStream.ofSource_sealed source).split_of_collect htokens
    obtain rfl : last = final := by simpa using (List.append_inj' hall rfl).2
    have hlast : (table.left last).leftPower = minPower := by
      rcases OperatorTable.left_end_build hbuild hend with hleft | hleft <;>
        rw [hleft] <;> rfl
    obtain ⟨power, _, hreaches⟩ := Chain.reaches_resolve hbuild hplain hliteral huniform hfirst last
      [] hresolve (by omega : links.length ≤ depth) (fun link _ => hpos link)
      (fun link _ => hlast ▸ Chain.admits_of_lt hbuild hplain (hpos link)) (by rw [hlast]; decide)
    have hreads := Chain.reads_of_reaches hreaches (by omega)
    exact (parse_eq_ok_iff hinert).mpr ⟨_, last, htokens, hend, hreads⟩
  · intro hresolve
    have hfixity := Chain.fixity_link hbuild hplain
    obtain ⟨_, _, _, hlinks, hblocked⟩ := Chain.blocked_of_resolve huniform hfixity hresolve
    obtain ⟨before, link, behind, hfirstBlocked⟩ := Chain.exists_firstBlocked hlinks hblocked
    refine ⟨before, link, behind, hfirstBlocked, ?_⟩
    obtain ⟨expr, hbefore⟩ : ∃ expr, Chain.resolve first before = some expr :=
      hfirstBlocked.resolves huniform hfixity
    rw [hfirstBlocked.eq, Chain.tokens_split] at htokens
    have hlength : before.length ≤ depth := by
      rw [hfirstBlocked.eq, List.length_append] at hlimit
      omega
    obtain ⟨power, hpower, hreaches⟩ := Chain.reaches_blocked hbuild hplain hliteral huniform hfirst
      (Chain.tokens link.operand behind ++ [last]) hbefore hlength (fun link _ => hpos link)
      hfirstBlocked.blocked
    have hlevel := Chain.leftPower_link hbuild hplain link
    have hreads := Chain.reads_of_reaches hreaches (by omega)
    exact parse_of_leftover hinert htokens hreads (Chain.leftover_link hbuild hplain link)

/-- The operators of `a ^ b ^ c < d + e == f`. -/
def comparisonLinks : List (Link comparisons) :=
  [⟨⟨.operator, "^", ⟨2, 3⟩⟩, ⟨.identifier, "b", ⟨4, 5⟩⟩, ⟨.rightAssoc, 30⟩, rfl, by decide,
      rfl, rfl, by decide⟩,
    ⟨⟨.operator, "^", ⟨6, 7⟩⟩, ⟨.identifier, "c", ⟨8, 9⟩⟩, ⟨.rightAssoc, 30⟩, rfl, by decide,
      rfl, rfl, by decide⟩,
    ⟨⟨.operator, "<", ⟨10, 11⟩⟩, ⟨.identifier, "d", ⟨12, 13⟩⟩, ⟨.nonAssoc, 10⟩, rfl, by decide,
      rfl, rfl, by decide⟩,
    ⟨⟨.operator, "+", ⟨14, 15⟩⟩, ⟨.identifier, "e", ⟨16, 17⟩⟩, ⟨.leftAssoc, 20⟩, rfl, by decide,
      rfl, rfl, by decide⟩,
    ⟨⟨.operator, "==", ⟨18, 20⟩⟩, ⟨.identifier, "f", ⟨21, 22⟩⟩, ⟨.nonAssoc, 10⟩, rfl, by decide,
      rfl, rfl, by decide⟩]

theorem parse_chain_comparisons :
    ∃ table, OperatorTable.build comparisons = .ok table ∧
      (∃ expr, Parser.parse ⟨table, 8⟩ "a ^ b ^ c < d + e" = .ok expr ∧
        expr.sexp = "(< (^ a (^ b c)) (+ d e))") ∧
      ∃ before link behind, Chain.FirstBlocked comparisonLinks before link behind ∧
        Parser.parse ⟨table, 8⟩ "a ^ b ^ c < d + e == f" =
          .error ⟨.trailingInput link.operator.value, link.operator.span.start⟩ := by
  have hbuild : OperatorTable.build comparisons = .ok (comparisons.foldl install .empty) := rfl
  let first : Token := ⟨.identifier, "a", ⟨0, 1⟩⟩
  refine ⟨_, hbuild, ?_, ?_⟩
  · have htokens : tokenize "a ^ b ^ c < d + e" =
        .ok (Chain.tokens first (comparisonLinks.take 4) ++ [.endAt 17]) := by decide +kernel
    have hresolve : (Chain.resolve first (comparisonLinks.take 4)).map Expr.sexp =
        some "(< (^ a (^ b c)) (+ d e))" := by decide +kernel
    obtain ⟨expr, hresolve, hsexp⟩ := Option.map_eq_some_iff.mp hresolve
    have hparse := parse_chain hbuild plain_comparisons (by decide) uniform_comparisons rfl htokens
      (by decide : 4 < 8)
    exact ⟨expr, hparse.1 expr hresolve, hsexp⟩
  · have htokens : tokenize "a ^ b ^ c < d + e == f" =
        .ok (Chain.tokens first comparisonLinks ++ [.endAt 22]) := by decide +kernel
    have hparse := parse_chain hbuild plain_comparisons (by decide) uniform_comparisons rfl htokens
      (by decide : 5 < 8)
    exact hparse.2 (by decide +kernel)

end Parser

end Precedence
