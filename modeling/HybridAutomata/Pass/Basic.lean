import HybridAutomata.Context

/-!
# Passes

A pass rewrites a model in place and is asked for by a flag and a text of parameters. A pass that
fails may have rewritten half of the model. It is therefore run on a copy: only when the pass and
the check of what it made both succeed does the copy take the place of the model.
-/

namespace HybridAutomata

/-- A transformation of models in a context. -/
abbrev Transformation (α : Type) := Context α → Model α → Except (Failure α) (Model α)

/-- A change of a model in place: what is left of the model, and whether the change succeeded. -/
abbrev Rewriting (α : Type) := Context α → Model α → Model α × Except (Failure α) Unit

structure Pass (α : Type) where
  flag : String
  title : String
  /-- The lines that explain the parameters. -/
  help : List String
  /-- The change for a text of parameters. -/
  rewrite : String → Rewriting α

namespace Pass

variable {α : Type} [Scalar α]

/-- The transformation for a text of options. -/
def readOptions (flag : String) (grammar : OptionGrammar)
    (decode : Matches → Option (Transformation α)) (parameters : String) :
    Except (Failure α) (Transformation α) :=
  Failure.ofPass flag ((grammar.decode decode (Text.words parameters)).mapError .options)

/-- The pass that makes the transformation for some options, in which every needed option is
present. Where the options are refused or the transformation fails, the model is left alone. -/
def ofOptions (flag title : String) (grammar : OptionGrammar)
    (decode : Matches → Option (Transformation α)) : Pass α where
  flag
  title
  help := grammar.helpLines flag
  rewrite parameters ctx m :=
    match readOptions flag grammar decode parameters >>= fun transform => transform ctx m with
    | .ok m' => (m', .ok ())
    | .error failure => (m, .error failure)

/-- Rewrites a copy of a model, without a check. -/
def apply (p : Pass α) (parameters : String) : Transformation α := fun ctx m => do
  let (copy, outcome) := p.rewrite parameters ctx m
  outcome
  return copy

/-- Rewrites a copy of a model and checks it. -/
def run (p : Pass α) (parameters : String) : Transformation α := fun ctx m => do
  let m' ← p.apply parameters ctx m
  ctx.validate m'
  return m'

end Pass

end HybridAutomata
