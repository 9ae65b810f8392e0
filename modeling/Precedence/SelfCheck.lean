import Precedence.Parse

/-!
A built-in check of a parser against expressions of the C grammar whose trees
are known.
-/

namespace Precedence

def selfCheckCases : List (String × String) := [
  -- arithmetic
  ("1+2+3", "(+ (+ 1 2) 3)"),
  ("1+2*3", "(+ 1 (* 2 3))"),
  ("4*(2+3)", "(* 4 (+ 2 3))"),
  ("(2+3)*4", "(* (+ 2 3) 4)"),
  ("1<2", "(< 1 2)"),
  ("x=3", "(= x 3)"),
  ("x = 2*3", "(= x (* 2 3))"),
  ("x*y - y*z", "(- (* x y) (* y z))"),
  ("x/y - y%z", "(- (/ x y) (% y z))"),
  ("2 ** 3 ** 2", "(** 2 (** 3 2))"),
  ("a = b = 10", "(= a (= b 10))"),
  ("x = ((y*4)-2)", "(= x (- (* y 4) 2))"),
  ("x - -y", "(- x (- y))"),
  ("-1 * -2", "(* (- 1) (- 2))"),
  ("x += y += 3", "(+= x (+= y 3))"),
  ("x[1,2]", "(get x (, 1 2))"),
  ("+1 - +2", "(- (+ 1) (+ 2))"),
  ("f[x] += 1", "(+= (get f x) 1)"),
  -- bitwise
  ("~1 | ~2", "(| (~ 1) (~ 2))"),
  ("x & y | a & b", "(| (& x y) (& a b))"),
  ("~x ^ y", "(^ (~ x) y)"),
  ("x << y | y << z", "(| (<< x y) (<< y z))"),
  ("a ^= b-1", "(^= a (- b 1))"),
  -- logical and conditional
  ("a && b || c && d", "(|| (&& a b) (&& c d))"),
  ("!a && !b", "(&& (! a) (! b))"),
  ("a != b && c == d", "(&& (!= a b) (== c d))"),
  ("a > b ? x+1 : y+1", "(? (> a b) (+ x 1) (+ y 1))"),
  ("1 ? true1 : 2 ? true2 : false", "(? 1 true1 (? 2 true2 false))"),
  ("1 ? 2 ? true : false1 : false2", "(? 1 (? 2 true false1) false2)"),
  ("x ? 1 : 2, y ? 3 : 4", "(, (? x 1 2) (? y 3 4))"),
  ("a , b ? c, d : e, f", "(, a (? b (, c d) e) f)"),
  -- unary
  ("!x", "(! x)"),
  ("x--", "(post-- x)"),
  ("x[1]--", "(post-- (get x 1))"),
  ("--x", "(-- x)"),
  ("++x[1]", "(++ (get x 1))"),
  ("!x--", "(! (post-- x))"),
  ("~x++", "(~ (post++ x))"),
  ("x++ - y++", "(- (post++ x) (post++ y))"),
  ("++x - ++y", "(- (++ x) (++ y))"),
  ("3!", "(post! 3)"),
  -- calls, indexing, members
  ("x = y(2)*3 + y(4)*5", "(= x (+ (* (call y 2) 3) (* (call y 4) 5)))"),
  ("x(1,2)+y(3,4)", "(+ (call x 1 2) (call y 3 4))"),
  ("x(a,b,c[d])", "(call x a b (get c d))"),
  ("print(test(2,3))", "(call print (call test 2 3))"),
  ("min(255,n*2)", "(call min 255 (* n 2))"),
  ("c = pal[i*8]", "(= c (get pal (* i 8)))"),
  ("f(x)[1]++", "(post++ (get (call f x) 1))"),
  ("a.b->c", "(-> (. a b) c)"),
  -- commas and grouping
  ("x=1,y=2,z=3", "(, (= x 1) (= y 2) (= z 3))"),
  ("a()", "(call a)"),
  ("a(+1)", "(call a (+ 1))"),
  ("a()+1", "(+ (call a) 1)"),
  ("a, b, c", "(, a b c)"),
  ("(a, b, c)", "(, a b c)"),
  ("f(a, b, c)", "(call f a b c)"),
  ("f(a, b, c), d", "(, (call f a b c) d)"),
  ("(a, b, c), d", "(, (, a b c) d)")]

/-- A case with an unexpected outcome: an s-expression, or the message of the
diagnostic. -/
structure Mismatch where
  input : String
  expected : String
  actual : String
  deriving DecidableEq

namespace Parser

def outcome (parser : Parser) (source : String) : String :=
  match parser.parse source with
  | .ok expr => expr.sexp
  | .error diagnostic => "error: " ++ diagnostic.cause.message

def mismatches (parser : Parser) : List Mismatch :=
  selfCheckCases.filterMap fun (input, expected) =>
    let actual := parser.outcome input
    if actual = expected then none else some ⟨input, expected, actual⟩

def selfCheckSummary (parser : Parser) : String :=
  "INFO self-test: " ++ selfCheckCases.length.repr ++ " cases, " ++
    parser.mismatches.length.repr ++ " mismatches"

end Parser

end Precedence
