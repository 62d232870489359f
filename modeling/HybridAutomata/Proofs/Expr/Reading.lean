import HybridAutomata.Proofs.Expr.Grammar
import HybridAutomata.Proofs.Success

/-!
# What the parser reads

Every function of the parser answers with a tree and the tokens it leaves, or refuses the tokens
from one on. The functions below keep these and forget the bound on the number of tokens, which only
the recursion needs. One equation for each of them says what it does on the tokens it can meet in
front; nothing after this module unfolds a function of the parser.

What is read is also kept as a relation, which the grammar is compared with.
-/

namespace HybridAutomata

namespace Grammar

open HybridAutomata.Parser Success

variable {α : Type} {p : Phrase} {level : Level} {s : Symbol} {name : String} {e l : Expr α}
  {es : List (Expr α)} {ts more rest : List (Token α)}

/-! ## Answers without bounds -/

theorem map_bind {ε β γ δ : Type} (x : Except ε β) (f : β → Except ε γ) (g : γ → δ) :
    (x >>= f).map g = x >>= fun b => (f b).map g := by
  cases x <;> rfl

theorem bind_map {ε β γ δ : Type} (x : Except ε β) (f : β → γ) (g : γ → Except ε δ) :
    x.map f >>= g = x >>= fun b => g (f b) := by
  cases x <;> rfl

/-- The tokens behind a closing parenthesis. -/
def close (ts : List (Token α)) : Result α (Unit × List (Token α)) :=
  (closing ts).map fun a => ((), a.val)

theorem close_rparen : close (.rparen :: more) = .ok ((), more) := rfl

theorem close_other (noClose : ts.head? ≠ some .rparen) : close ts = .error ⟨ts, .rparen⟩ := by
  rw [close, closing.eq_def]
  split
  · exact absurd rfl noClose
  · rfl

variable [Scalar α]

/-- The function of the parser for a kind of phrase. -/
def parser : Phrase → (ts : List (Token α)) → Result α (Parsed ts)
  | .atom => Parser.atom
  | .power => Parser.power
  | .unary => signed
  | .chain level => Parser.chain level
  | .comparison => Parser.comparison
  | .negation => Parser.negation

/-- The phrase in front of `ts`, and what is left. -/
def read (p : Phrase) (ts : List (Token α)) : Result α (Expr α × List (Token α)) :=
  (parser p ts).map fun a => (a.expr, a.rest)

/-- The chain whose first part is `lhs` and which `ts` carries on, and what is left. -/
def extend (level : Level) (lhs : Expr α) (ts : List (Token α)) :
    Result α (Expr α × List (Token α)) :=
  (chainTail level lhs ts).map fun a => (a.expr, a.rest)

/-- The comparisons with `lhs` and what follows it in front of `ts`, and what is left. -/
def compare (lhs : Expr α) (ts : List (Token α)) : Result α (List (Expr α) × List (Token α)) :=
  (comparisonTail lhs ts).map fun a => (a.exprs, a.rest)

/-- A base, raised to the exponent in front of `ts` if there is one, and what is left. -/
def raise (base : Expr α) (ts : List (Token α)) : Result α (Expr α × List (Token α)) :=
  (powerTail base ts).map fun a => (a.expr, a.rest)

/-- The arguments in front of `ts`, and what is left. -/
def readArguments (ts : List (Token α)) : Result α (List (Expr α) × List (Token α)) :=
  (arguments ts).map fun a => (a.args, a.rest)

/-- The further arguments in front of `ts`, each behind a comma, and what is left. -/
def readFurther (ts : List (Token α)) : Result α (List (Expr α) × List (Token α)) :=
  (argumentsTail ts).map fun a => (a.exprs, a.rest)

/-! ### Chains -/

theorem operand_eq : Parser.operand level ts = parser (operand level) ts := by
  rw [Parser.operand.eq_def]
  cases level <;> rfl

theorem read_chain : read (.chain level) ts =
    read (operand level) ts >>= fun a => extend level a.1 a.2 := by
  rw [read, parser, Parser.chain, operand_eq, read, map_bind, bind_map]
  congr 1
  funext ⟨l, mid, _⟩
  rw [map_bind, extend]
  cases chainTail level l mid <;> rfl

theorem extend_join {op : BinaryOp} (sign : Joins level s op) :
    extend level l (.symbol s :: more) =
      read (operand level) more >>= fun a => extend level (.binary op l a.1) a.2 := by
  have found := operator?_eq_some_iff.mpr sign
  simp only [extend, chainTail, found, operand_eq, read, map_bind, bind_map]
  congr 1

/-- Without a sign of its level in front a chain ends. -/
theorem extend_end (noSign : ∀ s op, Joins level s op → ts.head? ≠ some (.symbol s)) :
    extend level l ts = .ok (l, ts) := by
  rw [extend, chainTail.eq_def]
  split
  · next s more =>
      split
      · next op found => exact absurd rfl (noSign s op (operator?_eq_some_iff.mp found))
      · rfl
  · rfl

/-! ### Conditions -/

theorem read_not : read .negation (.symbol .not :: more) =
    read .negation more >>= fun a => .ok (.not a.1, a.2) := by
  simp only [read, parser, Parser.negation, map_bind, bind_map]
  rfl

theorem read_negation (noNot : ts.head? ≠ some (.symbol .not)) :
    read .negation ts = read .comparison ts := by
  have same : parser .negation ts = parser .comparison ts := by
    change Parser.negation ts = Parser.comparison ts
    rw [Parser.negation.eq_def]
    split
    · exact absurd rfl noNot
    · rfl
  rw [read, same, read]

theorem read_comparison : read .comparison ts =
    read (.chain .sum) ts >>= fun a => compare a.1 a.2 >>= fun links =>
      .ok (if links.1.isEmpty then a.1 else Expr.andAll links.1, links.2) := by
  simp only [read, parser, Parser.comparison, compare, map_bind, bind_map]
  rfl

theorem compare_link {op : Comparison} (sign : Compares s op) :
    compare l (.symbol s :: more) =
      read (.chain .sum) more >>= fun a => compare a.1 a.2 >>= fun links =>
        .ok (.binary (.compare op) l a.1 :: links.1, links.2) := by
  have found := comparison?_eq_some_iff.mpr sign
  simp only [compare, comparisonTail, found, read, parser, map_bind, bind_map]
  rfl

/-- Without a comparison sign in front there are no further links. -/
theorem compare_end (noSign : ∀ s op, Compares s op → ts.head? ≠ some (.symbol s)) :
    compare l ts = .ok ([], ts) := by
  rw [compare, comparisonTail.eq_def]
  split
  · next s more =>
      split
      · next op found => exact absurd rfl (noSign s op (comparison?_eq_some_iff.mp found))
      · rfl
  · rfl

/-! ### Signs in front of terms -/

theorem read_double (double : more.head? = some (.symbol .minus)) :
    read .unary (.symbol .minus :: more) = .error ⟨more, .singleMinus⟩ := by
  obtain ⟨tail, rfl⟩ := List.head?_eq_some_iff.mp double
  rw [read, parser, signed]
  rfl

theorem read_minus (single : more.head? ≠ some (.symbol .minus)) :
    read .unary (.symbol .minus :: more) =
      read .unary more >>= fun a => .ok (negated a.1, a.2) := by
  rw [read, parser, signed, read, map_bind, bind_map]
  · rfl
  · rintro tail rfl
    exact single rfl

theorem read_plus : read .unary (.symbol .plus :: more) = read .unary more := by
  rw [read, parser, signed, read, parser, map_bind]
  cases signed more <;> rfl

theorem read_unsigned (noMinus : ts.head? ≠ some (.symbol .minus))
    (noPlus : ts.head? ≠ some (.symbol .plus)) : read .unary ts = read .power ts := by
  have same : parser .unary ts = parser .power ts := by
    change signed ts = Parser.power ts
    rw [signed.eq_def]
    split
    · exact absurd rfl noMinus
    · exact absurd rfl noMinus
    · exact absurd rfl noPlus
    · rfl
  rw [read, same, read]

/-! ### Powers -/

theorem read_power : read .power ts = read .atom ts >>= fun a => raise a.1 a.2 := by
  simp only [read, parser, Parser.power, raise, map_bind, bind_map]
  congr 1

theorem raise_caret : raise l (.symbol .caret :: more) =
    read .unary more >>= fun a => .ok (.pow l a.1, a.2) := by
  simp only [raise, powerTail, read, parser, map_bind, bind_map]
  rfl

theorem raise_end (noCaret : ts.head? ≠ some (.symbol .caret)) : raise l ts = .ok (l, ts) := by
  rw [raise, powerTail.eq_def]
  split
  · exact absurd rfl noCaret
  · rfl

/-! ### Atoms -/

theorem read_number {value : α} : read .atom (.number value :: more) = .ok (.num value, more) := by
  rw [read, parser, Parser.atom]
  rfl

theorem read_true : read .atom (.ident "true" :: more) =
    .ok (α := Expr α × List (Token α)) (.bool true, more) := by
  rw [read, parser, Parser.atom]
  rfl

theorem read_false : read .atom (.ident "false" :: more) =
    .ok (α := Expr α × List (Token α)) (.bool false, more) := by
  rw [read, parser, Parser.atom]
  rfl

theorem read_name (notTrue : name ≠ "true") (notFalse : name ≠ "false")
    (noCall : more.head? ≠ some .lparen) :
    read .atom (.ident name :: more) = .ok (.var name, more) := by
  rw [read, parser, Parser.atom]
  · rfl
  · exact notTrue
  · exact notFalse
  · rintro tail rfl
    exact noCall rfl
  · rintro tail rfl
    exact noCall rfl

theorem read_emptyCall (notTrue : name ≠ "true") (notFalse : name ≠ "false") :
    read .atom (.ident name :: .lparen :: .rparen :: more) = .ok (.call name [], more) := by
  rw [read, parser, Parser.atom]
  · rfl
  · exact notTrue
  · exact notFalse

theorem read_call (notTrue : name ≠ "true") (notFalse : name ≠ "false")
    (notEmpty : more.head? ≠ some .rparen) :
    read .atom (.ident name :: .lparen :: more) =
      readArguments more >>= fun args => close args.2 >>= fun behind =>
        .ok (.call name args.1, behind.2) := by
  rw [read, parser, Parser.atom]
  · simp only [readArguments, close, map_bind, bind_map]
    rfl
  · exact notTrue
  · exact notFalse
  · rintro tail rfl
    exact notEmpty rfl

theorem read_parentheses : read .atom (.lparen :: more) =
    read (.chain .or) more >>= fun a => close a.2 >>= fun behind => .ok (a.1, behind.2) := by
  simp only [read, parser, Parser.atom, close, map_bind, bind_map]
  rfl

/-- An atom begins with a number, a name or an opening parenthesis. -/
theorem read_noAtom (noNumber : ∀ value, ts.head? ≠ some (.number value))
    (noName : ∀ name, ts.head? ≠ some (.ident name)) (noOpen : ts.head? ≠ some .lparen) :
    read .atom ts = .error ⟨ts, .atom⟩ := by
  rw [read, parser, Parser.atom.eq_def]
  split
  · exact absurd rfl (noNumber _)
  · exact absurd rfl (noName _)
  · exact absurd rfl (noName _)
  · exact absurd rfl (noName _)
  · exact absurd rfl (noName _)
  · exact absurd rfl (noName _)
  · exact absurd rfl noOpen
  · rfl

/-! ### Arguments -/

theorem readArguments_eq : readArguments ts =
    read (.chain .or) ts >>= fun a => readFurther a.2 >>= fun others =>
      .ok (a.1 :: others.1, others.2) := by
  simp only [readArguments, arguments, read, parser, readFurther, map_bind, bind_map]
  rfl

theorem readFurther_comma : readFurther (.comma :: more) = readArguments more := by
  simp only [readFurther, argumentsTail, readArguments, map_bind]
  cases arguments more <;> rfl

theorem readFurther_end (noComma : ts.head? ≠ some .comma) : readFurther ts = .ok ([], ts) := by
  rw [readFurther, argumentsTail.eq_def]
  split
  · exact absurd rfl noComma
  · rfl

/-! ### Whole token sequences -/

theorem formula_eq : formula ts = read (.chain .or) ts >>= fun a =>
    if a.2.isEmpty then .ok a.1 else .error ⟨a.2, .endOfInput⟩ := by
  rw [formula, read, parser, bind_map]
  rfl

/-! ## What is read -/

/-- A phrase is read in front of `ts`, and `rest` is left. -/
def Reads (p : Phrase) (ts : List (Token α)) (e : Expr α) (rest : List (Token α)) : Prop :=
  ∃ shorter, parser p ts = .ok ⟨e, rest, shorter⟩

/-- A chain whose first part is `lhs` is carried on by `ts`, and `rest` is left. -/
def Extends (level : Level) (lhs : Expr α) (ts : List (Token α)) (e : Expr α)
    (rest : List (Token α)) : Prop :=
  ∃ noLonger, chainTail level lhs ts = .ok ⟨e, rest, noLonger⟩

/-- Comparisons with `lhs` and what follows it are read in front of `ts`, and `rest` is left. -/
def Compared (lhs : Expr α) (ts : List (Token α)) (links : List (Expr α))
    (rest : List (Token α)) : Prop :=
  ∃ noLonger, comparisonTail lhs ts = .ok ⟨links, rest, noLonger⟩

/-- A base is raised to the exponent in front of `ts`, if there is one, and `rest` is left. -/
def Raised (base : Expr α) (ts : List (Token α)) (e : Expr α) (rest : List (Token α)) : Prop :=
  ∃ noLonger, powerTail base ts = .ok ⟨e, rest, noLonger⟩

/-- Arguments are read in front of `ts`, and `rest` is left. -/
def ReadsArguments (ts : List (Token α)) (es : List (Expr α)) (rest : List (Token α)) : Prop :=
  ∃ shorter, arguments ts = .ok ⟨es, rest, shorter⟩

/-- Further arguments, each behind a comma, are read in front of `ts`, and `rest` is left. -/
def ReadsFurther (ts : List (Token α)) (es : List (Expr α)) (rest : List (Token α)) : Prop :=
  ∃ noLonger, argumentsTail ts = .ok ⟨es, rest, noLonger⟩

theorem Reads.shorter (h : Reads p ts e rest) : rest.length < ts.length := h.1

theorem ReadsArguments.shorter (h : ReadsArguments ts es rest) : rest.length < ts.length := h.1

/-! ### Relations and answers -/

omit [Scalar α] in
theorem parsed_iff {x : Result α (Parsed ts)} : (∃ shorter, x = .ok ⟨e, rest, shorter⟩) ↔
    x.map (fun a => (a.expr, a.rest)) = .ok (e, rest) := by
  rcases x with _ | ⟨l, more, shorter⟩ <;> simp [Except.map]
  rintro rfl rfl
  exact shorter

omit [Scalar α] in
theorem extended_iff {x : Result α (Parser.Extended ts)} :
    (∃ noLonger, x = .ok ⟨e, rest, noLonger⟩) ↔
      x.map (fun a => (a.expr, a.rest)) = .ok (e, rest) := by
  rcases x with _ | ⟨l, more, noLonger⟩ <;> simp [Except.map]
  rintro rfl rfl
  exact noLonger

omit [Scalar α] in
theorem continued_iff {x : Result α (Continued ts)} :
    (∃ noLonger, x = .ok ⟨es, rest, noLonger⟩) ↔
      x.map (fun a => (a.exprs, a.rest)) = .ok (es, rest) := by
  rcases x with _ | ⟨ls, more, noLonger⟩ <;> simp [Except.map]
  rintro rfl rfl
  exact noLonger

theorem reads_iff : Reads p ts e rest ↔ read p ts = .ok (e, rest) := parsed_iff

theorem extends_iff : Extends level l ts e rest ↔ extend level l ts = .ok (e, rest) :=
  extended_iff

theorem compared_iff : Compared l ts es rest ↔ compare l ts = .ok (es, rest) := continued_iff

theorem raised_iff : Raised l ts e rest ↔ raise l ts = .ok (e, rest) := extended_iff

theorem readsArguments_iff_ok :
    ReadsArguments ts es rest ↔ readArguments ts = .ok (es, rest) := by
  rw [ReadsArguments, readArguments]
  rcases arguments ts with _ | ⟨ls, more, shorter⟩ <;> simp [Except.map]
  rintro rfl rfl
  exact shorter

theorem readsFurther_iff : ReadsFurther ts es rest ↔ readFurther ts = .ok (es, rest) :=
  continued_iff

omit [Scalar α] in
theorem close_eq_ok {u : Unit} : close ts = .ok (u, rest) ↔ ts = .rparen :: rest := by
  by_cases isClose : ts.head? = some .rparen
  · obtain ⟨more, rfl⟩ := List.head?_eq_some_iff.mp isClose
    simp [close_rparen]
  · rw [close_other isClose]
    refine iff_of_false (by simp) ?_
    rintro rfl
    exact isClose rfl

/-! ### Phrases -/

attribute [local simp] reads_iff extends_iff compared_iff raised_iff readsArguments_iff_ok
  readsFurther_iff close_eq_ok

theorem reads_chain : Reads (.chain level) ts e rest ↔
    ∃ l mid, Reads (operand level) ts l mid ∧ Extends level l mid e rest := by
  simp [read_chain]

theorem extends_join {op : BinaryOp} (sign : Joins level s op) :
    Extends level l (.symbol s :: more) e rest ↔
      ∃ r mid, Reads (operand level) more r mid ∧
        Extends level (.binary op l r) mid e rest := by
  simp [extend_join sign]

/-- Without a sign of its level in front a chain ends. -/
theorem extends_end (noSign : ∀ s op, Joins level s op → ts.head? ≠ some (.symbol s)) :
    Extends level l ts e rest ↔ e = l ∧ rest = ts := by
  simp [extend_end noSign, eq_comm (a := e), eq_comm (a := rest)]

theorem reads_not : Reads .negation (.symbol .not :: more) e rest ↔
    ∃ condition, Reads .negation more condition rest ∧ e = .not condition := by
  simp [read_not, eq_comm (a := e)]

theorem reads_negation (noNot : ts.head? ≠ some (.symbol .not)) :
    Reads .negation ts e rest ↔ Reads .comparison ts e rest := by
  simp [read_negation noNot]

theorem reads_comparison : Reads .comparison ts e rest ↔
    ∃ first mid links, Reads (.chain .sum) ts first mid ∧ Compared first mid links rest ∧
      e = if links.isEmpty then first else Expr.andAll links := by
  simp [read_comparison, eq_comm (a := e)]

theorem compared_link {op : Comparison} (sign : Compares s op) :
    Compared l (.symbol s :: more) es rest ↔
      ∃ r mid others, Reads (.chain .sum) more r mid ∧ Compared r mid others rest ∧
        es = .binary (.compare op) l r :: others := by
  simp [compare_link sign, eq_comm (a := es)]

/-- Without a comparison sign in front there are no further links. -/
theorem compared_end (noSign : ∀ s op, Compares s op → ts.head? ≠ some (.symbol s)) :
    Compared l ts es rest ↔ es = [] ∧ rest = ts := by
  simp [compare_end noSign, eq_comm (a := rest)]

theorem reads_minus : Reads .unary (.symbol .minus :: more) e rest ↔
    more.head? ≠ some (.symbol .minus) ∧
      ∃ term, Reads .unary more term rest ∧ e = negated term := by
  by_cases double : more.head? = some (.symbol .minus)
  · simp [read_double double, double]
  · simp [read_minus double, double, eq_comm (a := e)]

theorem reads_plus :
    Reads .unary (.symbol .plus :: more) e rest ↔ Reads .unary more e rest := by
  simp [read_plus]

theorem reads_unsigned (noMinus : ts.head? ≠ some (.symbol .minus))
    (noPlus : ts.head? ≠ some (.symbol .plus)) :
    Reads .unary ts e rest ↔ Reads .power ts e rest := by
  simp [read_unsigned noMinus noPlus]

theorem reads_power : Reads .power ts e rest ↔
    ∃ base mid, Reads .atom ts base mid ∧ Raised base mid e rest := by
  simp [read_power]

theorem raised_caret : Raised l (.symbol .caret :: more) e rest ↔
    ∃ exponent, Reads .unary more exponent rest ∧ e = .pow l exponent := by
  simp [raise_caret, eq_comm (a := e)]

theorem raised_end (noCaret : ts.head? ≠ some (.symbol .caret)) :
    Raised l ts e rest ↔ e = l ∧ rest = ts := by
  simp [raise_end noCaret, eq_comm (a := e), eq_comm (a := rest)]

theorem reads_number {value : α} :
    Reads .atom (.number value :: more) e rest ↔ e = .num value ∧ rest = more := by
  simp [read_number, eq_comm (a := e), eq_comm (a := rest)]

theorem reads_true : Reads .atom (.ident "true" :: more) e rest ↔
    e = .bool true ∧ rest = more := by
  simp [read_true, eq_comm (a := e), eq_comm (a := rest)]

theorem reads_false : Reads .atom (.ident "false" :: more) e rest ↔
    e = .bool false ∧ rest = more := by
  simp [read_false, eq_comm (a := e), eq_comm (a := rest)]

theorem reads_name (notTrue : name ≠ "true") (notFalse : name ≠ "false")
    (noCall : more.head? ≠ some .lparen) :
    Reads .atom (.ident name :: more) e rest ↔ e = .var name ∧ rest = more := by
  simp [read_name notTrue notFalse noCall, eq_comm (a := e), eq_comm (a := rest)]

theorem reads_emptyCall (notTrue : name ≠ "true") (notFalse : name ≠ "false") :
    Reads .atom (.ident name :: .lparen :: .rparen :: more) e rest ↔
      e = .call name [] ∧ rest = more := by
  simp [read_emptyCall notTrue notFalse, eq_comm (a := e), eq_comm (a := rest)]

theorem reads_call (notTrue : name ≠ "true") (notFalse : name ≠ "false")
    (notEmpty : more.head? ≠ some .rparen) :
    Reads .atom (.ident name :: .lparen :: more) e rest ↔
      ∃ args, ReadsArguments more args (.rparen :: rest) ∧ e = .call name args := by
  simp [read_call notTrue notFalse notEmpty, eq_comm (a := e)]

theorem reads_parentheses : Reads .atom (.lparen :: more) e rest ↔
    Reads (.chain .or) more e (.rparen :: rest) := by
  simp [read_parentheses]

/-- An atom begins with a number, a name or an opening parenthesis. -/
theorem Reads.head_of_atom (h : Reads .atom ts e rest) :
    (∃ value more, ts = .number value :: more) ∨ (∃ name more, ts = .ident name :: more) ∨
      ∃ more, ts = .lparen :: more := by
  simp only [← List.head?_eq_some_iff]
  by_contra! other
  rw [reads_iff, read_noAtom other.1 other.2.1 other.2.2] at h
  cases h

/-! ### Arguments and whole sequences -/

theorem readsArguments_iff : ReadsArguments ts es rest ↔
    ∃ e mid others, Reads (.chain .or) ts e mid ∧ ReadsFurther mid others rest ∧
      es = e :: others := by
  simp [readArguments_eq, eq_comm (a := es)]

theorem readsFurther_comma :
    ReadsFurther (.comma :: more) es rest ↔ ReadsArguments more es rest := by
  simp [readFurther_comma]

theorem readsFurther_end (noComma : ts.head? ≠ some .comma) :
    ReadsFurther ts es rest ↔ es = [] ∧ rest = ts := by
  simp [readFurther_end noComma, eq_comm (a := rest)]

theorem formula_eq_ok : formula ts = .ok e ↔ Reads (.chain .or) ts e [] := by
  rw [formula_eq, reads_iff]
  constructor
  · intro h
    obtain ⟨⟨e', rest⟩, whole, h⟩ := bind_eq_ok_iff.mp h
    cases rest with
    | nil =>
        cases h
        exact whole
    | cons t rest => cases h
  · intro whole
    rw [whole]
    rfl

end Grammar

end HybridAutomata
