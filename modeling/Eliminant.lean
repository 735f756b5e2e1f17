import Eliminant.Coefficient.Basic
import Eliminant.Coefficient.Exact
import Eliminant.Coefficient.Numeral
import Eliminant.Expr.Order
import Eliminant.Expr.Printer
import Eliminant.Expr.Normal
import Eliminant.Text.Letter
import Eliminant.Expr.Parser
import Eliminant.Variable
import Eliminant.Polynomial.Arithmetic
import Eliminant.Polynomial.OfExpr
import Eliminant.Polynomial.Nested
import Eliminant.Order.Lexicographic
import Eliminant.Order.Dickson
import Eliminant.Division
import Eliminant.Groebner.Basis
import Eliminant.Fraction.Basic
import Eliminant.Proofs.Polynomial.Arithmetic
import Eliminant.Proofs.Polynomial.Reachable
import Eliminant.Proofs.Groebner
import Eliminant.Proofs.Effort
import Eliminant.Proofs.Polynomial.Evaluation
import Eliminant.Proofs.Gcd
import Eliminant.Proofs.Fraction.Reachable
import Eliminant.Proofs.Fraction.Value
import Eliminant.Proofs.Fraction.Arithmetic
import Eliminant.Proofs.Text.Scan
import Eliminant.Proofs.Expr.Forms
import Eliminant.Proofs.Expr.Roundtrip
import Eliminant.Proofs.Expr.Reparse
import Eliminant.Proofs.Expr.Sentence
import Eliminant.Proofs.Expr.Acceptance
import Eliminant.Proofs.Expr.Visiting
import Eliminant.Proofs.Expr.Idempotent
import Eliminant.Proofs.Expr.Termination
import Eliminant.Proofs.Polynomial.RoundTrip
import Eliminant.Proofs.Polynomial.Conversion
import Eliminant.Proofs.Fraction.History
import Eliminant.Proofs.Nested.Bijection
import Eliminant.Proofs.Coefficient.Field
import Eliminant.Proofs.Polynomial.Division
import Eliminant.Proofs.Polynomial.Reduction
import Eliminant.Proofs.Statistics
import Eliminant.Proofs.Polynomial.Criterion
import Eliminant.Proofs.Polynomial.Append
import Eliminant.Proofs.Polynomial.Listing
import Eliminant.Proofs.Polynomial.Power
import Eliminant.Proofs.Polynomial.Product
import Eliminant.Proofs.Expr.Folding
import Eliminant.Proofs.Nested.Leading
import Eliminant.Proofs.Nested.Exact
import Eliminant.Proofs.Nested.Text
