import HybridAutomata.Decimal.Double
import HybridAutomata.Estimation.Estimator
import HybridAutomata.Model.Printer
import HybridAutomata.Model.Validity
import HybridAutomata.Text.Quoted

/-!
# Contexts

What a run of transformations shares: the tolerance of comparisons, whether models are checked, how
formulas are spelled, and the estimator.
-/

namespace HybridAutomata

structure Context (α : Type) where
  /-- Numbers at most this far apart count as equal. -/
  tolerance : α
  /-- Whether models are checked; if not, every model passes. -/
  validation : Bool := true
  /-- The spelling of formulas, where it is not the standard one. -/
  printer : Option Spelling := none
  estimator : Estimator α

namespace Context

variable {α : Type} [Scalar α]

/-- The context of a run unless something else is asked for. -/
def standard : Context α :=
  { tolerance := 1e-9, estimator := .simulation Estimator.defaultStep }

def spelling (c : Context α) : Spelling := c.printer.getD .standard

/-- Checks a model, if models are checked. -/
def validate (c : Context α) (m : Model α) : Except (Failure α) Unit :=
  if c.validation then m.validate else .ok ()

/-- Both bounds agree up to the tolerance. -/
def intervalsEqual (c : Context α) (i j : Interval α) : Bool := i.approxEq j c.tolerance

def renderExpr [DecimalText α] (c : Context α) (e : Expr α) : String := e.render c.spelling

def renderModel [DecimalText α] (c : Context α) (m : Model α) : String := m.render c.spelling

end Context

/-- The fields of a record in a report. -/
def reportFields (fields : List (String × String)) : String :=
  " \x7b " ++ ", ".intercalate (fields.map fun (name, value) => name ++ ": " ++ value) ++ " \x7d"

/-- The spelling in a report. -/
def Spelling.report (s : Spelling) : String :=
  "PrinterConfig" ++ reportFields
    [("and", Text.quoted s.and), ("or", Text.quoted s.or), ("not", Text.quoted s.not),
      ("eq", Text.quoted s.eq), ("ne", Text.quoted s.ne), ("pow", Text.quoted s.pow)]

/-- The context in a report. -/
def Context.report (c : Context Float) : String :=
  "Context" ++ reportFields
    [("tolerance", Double.reportText c.tolerance),
      ("validation", if c.validation then "true" else "false"),
      ("printer", match c.printer with
        | some s => "Some(" ++ s.report ++ ")"
        | none => "None"),
      ("estimator", Text.quoted c.estimator.name)]

end HybridAutomata
