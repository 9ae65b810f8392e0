import Precedence.Proofs.Correspondence

/-!
What of an operator table a parse depends on: the bindings of the tokens of its
source, and how tightly the comma is held, which bounds the arguments of calls even
where the source has no comma. Whatever else a table registers shows neither in the
outcome nor in the log.
-/

namespace Precedence

namespace OperatorTable

/-- The two tables give the tokens of the stream the same bindings, and hold the comma
equally tight. -/
structure AgreesOn (table table' : OperatorTable) (stream : TokenStream) : Prop where
  null : ∀ token ∈ stream.tokens, table.null token = table'.null token
  left : ∀ token ∈ stream.tokens, table.left token = table'.left token
  comma : (table.leftOfSymbol ",").leftPower = (table'.leftOfSymbol ",").leftPower

instance (table table' : OperatorTable) (stream : TokenStream) :
    Decidable (table.AgreesOn table' stream) :=
  decidable_of_iff
    ((∀ token ∈ stream.tokens, table.null token = table'.null token) ∧
      (∀ token ∈ stream.tokens, table.left token = table'.left token) ∧
      (table.leftOfSymbol ",").leftPower = (table'.leftOfSymbol ",").leftPower)
    ⟨fun h => ⟨h.1, h.2.1, h.2.2⟩, fun h => ⟨h.null, h.left, h.comma⟩⟩

def AgreesOn.correspondence {table table' : OperatorTable} {stream : TokenStream}
    (h : table.AgreesOn table' stream) : Correspondence table table' where
  token t t' := t = t' ∧ t ∈ stream.tokens
  span := Eq
  broken := Eq
  lexeme ht := congrArg Token.lexeme ht.1
  null ht := ht.1 ▸ h.null _ ht.2
  left ht := ht.1 ▸ h.left _ ht.2
  comma := h.comma
  single ht _ := congrArg Token.span ht.1
  join hr hs := congrArg₂ Span.join hr hs
  joinToken hs ht := congrArg₂ Span.join hs (congrArg Token.span ht.1)

end OperatorTable

namespace Correspondence

variable {table table' : OperatorTable}

structure Exact (corr : Correspondence table table') : Prop where
  token : ∀ {t t'}, corr.token t t' → t = t'
  span : ∀ {s s'}, corr.span s s' → s = s'
  broken : ∀ {d d'}, corr.broken d d' → d = d'

namespace Exact

variable {corr : Correspondence table table'} (hexact : corr.Exact) {limit : Nat}

include hexact

theorem expr_eq {e e' : Expr} (h : corr.Exprs e e') : e = e' := by
  induction e generalizing e' with
  | leaf token =>
      cases h with
      | leaf htoken _ => rw [hexact.token htoken]
  | node tag children grouped span ih =>
      cases h with
      | @node _ _ children' _ _ _ hchildren hspan =>
          have hall : children = children' := by
            rw [← List.forall₂_eq_eq_eq]
            exact List.forall₂_iff_get.mpr ⟨hchildren.length_eq, fun i hi hi' =>
              ih _ (List.get_mem _ _) (hchildren.get hi hi')⟩
          rw [hall, hexact.span hspan]

theorem diagnostic_eq {d d' : Diagnostic} (h : corr.Diagnostics limit d d') : d = d' := by
  cases h with
  | named htoken _ => rw [hexact.token htoken]
  | target hexpr => rw [hexact.expr_eq hexpr]
  | broken hbroken => exact hexact.broken hbroken

theorem event_eq {event event' : Event} (h : corr.Events event event') : event = event' := by
  cases h with
  | lexed htoken => rw [hexact.token htoken]
  | null htoken binding => rw [hexact.token htoken]
  | left htoken binding => rw [hexact.token htoken]

theorem run_eq {run run' : Parser.Run} (h : corr.Runs limit run run') : run = run' := by
  have hevents : ∀ {events events' : List Event}, List.Forall₂ corr.Events events events' →
      events = events' := by
    intro events events' h
    rw [← List.forall₂_eq_eq_eq]
    exact h.imp fun _ _ => hexact.event_eq
  cases h with
  | accepted hexpr h => rw [hexact.expr_eq hexpr, hevents h]
  | refused hd h => rw [hexact.diagnostic_eq hd, hevents h]

end Exact

end Correspondence

namespace OperatorTable.AgreesOn

variable {table table' : OperatorTable} {source : String}

/-- The run of a parse is the same under both tables, step by step. -/
theorem run_eq (h : table.AgreesOn table' (TokenStream.ofSource source)) (limit : Nat) :
    Parser.run ⟨table, limit⟩ source = Parser.run ⟨table', limit⟩ source := by
  have hsealed := TokenStream.ofSource_sealed source
  have hitems : List.Forall₂ h.correspondence.Items (TokenStream.ofSource source)
      (TokenStream.ofSource source) :=
    Correspondence.items_refl (fun ht => ⟨rfl, hsealed.mem_tokens ht⟩) fun _ => rfl
  have hexact : h.correspondence.Exact := ⟨fun ht => ht.1, fun hs => hs, fun hd => hd⟩
  exact hexact.run_eq (h.correspondence.runs limit hitems)

end OperatorTable.AgreesOn

/-- Operands, parentheses, calls and sums, with further registrations behind them. -/
def Registration.calling (more : List Registration) : List Registration :=
  [.literal, .grouping "(", .nilfix .closing [.symbol ")"],
    .following .leftAssoc 50 .call ["("], .following .leftAssoc 10 .binary ["+"]] ++ more

def OperatorTable.calling (more : List Registration) : OperatorTable :=
  (Registration.calling more).foldl Registration.install .empty

/-- What a table registers apart from the tokens of a source does not influence how the
source is parsed, the power of the comma excepted: two tables that agree on these parse it
to the same expression, or refuse it with the same diagnostic, and log the same lines. -/
theorem Parser.parse_of_agreesOn {table table' : OperatorTable} {source : String}
    (h : table.AgreesOn table' (TokenStream.ofSource source)) (limit : Nat) :
    Parser.parse ⟨table, limit⟩ source = Parser.parse ⟨table', limit⟩ source ∧
      Parser.log ⟨table, limit⟩ source = Parser.log ⟨table', limit⟩ source := by
  have hrun := h.run_eq limit
  constructor
  · rw [parse, parse, hrun]
  · simp only [log, hrun]

/-- Neither further operators nor symbols that are spelled like an identifier matter. -/
theorem Parser.parse_of_agreesOn_call :
    (OperatorTable.calling []).AgreesOn
        (.calling [.following .rightAssoc 5 .binary ["*", "a"], .leading 3 .prefixed ["b", "-"]])
        (TokenStream.ofSource "f(a+b) c") ∧
      Parser.parse ⟨.calling [], 8⟩ "f(a+b) c" = .error ⟨.trailingInput "c", 7⟩ ∧
      Parser.parse
        ⟨.calling [.following .rightAssoc 5 .binary ["*", "a"], .leading 3 .prefixed ["b", "-"]], 8⟩
        "f(a+b) c" = .error ⟨.trailingInput "c", 7⟩ := by
  have h : (OperatorTable.calling []).AgreesOn
      (.calling [.following .rightAssoc 5 .binary ["*", "a"], .leading 3 .prefixed ["b", "-"]])
      (TokenStream.ofSource "f(a+b) c") := by
    decide +kernel
  have hparse : Parser.parse ⟨.calling [], 8⟩ "f(a+b) c" = .error ⟨.trailingInput "c", 7⟩ := by
    decide +kernel
  exact ⟨h, hparse, (parse_of_agreesOn h 8).1.symm.trans hparse⟩

/-- The comma does matter where the source has none: an argument is read up to operators
that are held no tighter than it. -/
example :
    (∀ token ∈ (TokenStream.ofSource "f(a+b)").tokens,
      (OperatorTable.calling []).null token =
        (OperatorTable.calling [.following .leftAssoc 20 .comma [","]]).null token ∧
      (OperatorTable.calling []).left token =
        (OperatorTable.calling [.following .leftAssoc 20 .comma [","]]).left token) ∧
    (Parser.parse ⟨.calling [], 8⟩ "f(a+b)").map Expr.sexp = .ok "(call f (+ a b))" ∧
    Parser.parse ⟨.calling [.following .leftAssoc 20 .comma [","]], 8⟩ "f(a+b)" =
      .error ⟨.unmatchedDelimiter (some ")") "+", 3⟩ := by
  decide +kernel

end Precedence
