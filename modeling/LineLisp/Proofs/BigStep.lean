/-
  LineLisp.Proofs.BigStep — evaluation by rules. There is one rule for each way in which the
  evaluation of a tree ends, and likewise for operands, evaluated from the first to the last,
  for the rounds of `repeat`, and for applications. A rule says in which scope and machine each
  part is evaluated, what the whole comes to and which machine it leaves; what a rule does not
  mention is not evaluated, and there is no rule for what runs on for ever.
  - `Malformed`: the errors in the shape of a form, which come before any evaluation.
  - `BigStep`: a form is told by its first symbol, whatever that is bound to. In an application
    the callee is what the symbol is bound to before the operands are evaluated.
  - `BigStepApply`: the number of arguments is checked before the limit on active calls, and the
    body of a closure is evaluated in a new scope inside the one that it was made in.
-/

import LineLisp.Proofs.Nesting

namespace LineLisp

/-! ## Rules -/

/-- The integer that a value is, of whatever width. -/
def Value.whole? : Value → Option Int
  | .number n => n.whole?
  | _ => none

/-- Errors in the shape of a form. -/
inductive Malformed : Keyword → List Value → EvalError → Prop
  | empty {keyword : Keyword} : Malformed keyword [] (.missingOperand keyword 1)
  | notASymbol {keyword : Keyword} {t : Value} {surplus : List Value} : keyword = .define ∨ keyword = .assign →
      t.symbol? = none → Malformed keyword (t :: surplus) (.notASymbol keyword t.text)
  | noExpression {keyword : Keyword} {name : String} : keyword = .define ∨ keyword = .assign →
      Malformed keyword [.symbol name] (.missingOperand keyword 2)
  | noParameterList {t : Value} {surplus : List Value} : (∀ trees, t ≠ .list trees) →
      Malformed .lambda (t :: surplus) (.typeMismatch .parameterList t.kind)
  | parameter {names : List String} {t : Value} {after surplus : List Value} : t.symbol? = none →
      Malformed .lambda (.list (names.map .symbol ++ t :: after) :: surplus) (.notASymbol .lambda t.text)
  | noBody {names : List String} : Malformed .lambda [.list (names.map .symbol)] (.missingOperand .lambda 2)

/-- What `set!` does about a name before it evaluates its expression. -/
inductive Warned (scope : ScopeId) (name : String) : Machine → Machine → Prop
  | bound {m : Machine} : m.heap.contains scope name = true → Warned scope name m m
  | unbound {m : Machine} : m.heap.contains scope name = false → m.sink.isFull = false →
      Warned scope name m { m with
        log := m.log.push (.undefinedVariable name)
        sink := m.sink.write ("WARNING: setting undefined variable '" ++ name ++ "'") }

mutual

/-- The evaluation of a tree in a scope ends with a value or an error. -/
inductive BigStep (settings : Settings) :
    Value → ScopeId → Machine → Except EvalError Value → Machine → Prop
  | symbol {name : String} {scope : ScopeId} {m : Machine} :
      BigStep settings (.symbol name) scope m (.ok ((m.heap.get? scope name).getD .nil)) m
  | number {n : Number} {scope : ScopeId} {m : Machine} : BigStep settings (.number n) scope m (.ok (.number n)) m
  | primitive {p : Primitive} {scope : ScopeId} {m : Machine} :
      BigStep settings (.primitive p) scope m (.ok (.primitive p)) m
  | closure {id : ClosureId} {params : List String} {body : Value} {outer scope : ScopeId} {m : Machine} :
      BigStep settings (.closure id params body outer) scope m (.ok (.closure id params body outer)) m
  | nil {scope : ScopeId} {m : Machine} : BigStep settings .nil scope m (.ok .nil) m
  | emptyForm {scope : ScopeId} {m : Machine} : BigStep settings (.list []) scope m (.error .emptyForm) m
  | inert {head : Value} {operands : List Value} {scope : ScopeId} {m : Machine} : head.symbol? = none →
      BigStep settings (.list (head :: operands)) scope m (.ok .nil)
        { m with log := m.log.push (.inertForm head.text) }
  | malformed {keyword : Keyword} {operands : List Value} {e : EvalError} {scope : ScopeId} {m : Machine} :
      Malformed keyword operands e → BigStep settings (.form keyword operands) scope m (.error e) m
  | conditionFails {c : Value} {branches : List Value} {e : EvalError} {scope : ScopeId} {m m' : Machine} :
      BigStep settings c scope m (.error e) m' →
        BigStep settings (.form .conditional (c :: branches)) scope m (.error e) m'
  | ifTrue {c v t : Value} {surplus : List Value} {r : Except EvalError Value} {scope : ScopeId}
      {m m₁ m' : Machine} :
      BigStep settings c scope m (.ok v) m₁ → v.isTrue = true → BigStep settings t scope m₁ r m' →
        BigStep settings (.form .conditional (c :: t :: surplus)) scope m r m'
  | ifFalse {c v t e : Value} {surplus : List Value} {r : Except EvalError Value} {scope : ScopeId}
      {m m₁ m' : Machine} :
      BigStep settings c scope m (.ok v) m₁ → v.isTrue = false → BigStep settings e scope m₁ r m' →
        BigStep settings (.form .conditional (c :: t :: e :: surplus)) scope m r m'
  | noThen {c v : Value} {scope : ScopeId} {m m' : Machine} :
      BigStep settings c scope m (.ok v) m' → v.isTrue = true →
        BigStep settings (.form .conditional [c]) scope m (.error (.missingOperand .conditional 2)) m'
  | noElse {c v : Value} {branches : List Value} {scope : ScopeId} {m m' : Machine} :
      BigStep settings c scope m (.ok v) m' → v.isTrue = false → branches.length < 2 →
        BigStep settings (.form .conditional (c :: branches)) scope m (.error (.missingOperand .conditional 3)) m'
  | defineFails {name : String} {e : Value} {surplus : List Value} {err : EvalError} {scope : ScopeId}
      {m m' : Machine} :
      BigStep settings e scope m (.error err) m' →
        BigStep settings (.form .define (.symbol name :: e :: surplus)) scope m (.error err) m'
  | define {name : String} {e v : Value} {surplus : List Value} {scope : ScopeId} {m m₁ : Machine} :
      BigStep settings e scope m (.ok v) m₁ →
        BigStep settings (.form .define (.symbol name :: e :: surplus)) scope m (.ok v)
          { m₁ with heap := m₁.heap.define scope name v }
  | warningLost {name : String} {e : Value} {surplus : List Value} {scope : ScopeId} {m : Machine} :
      m.heap.contains scope name = false → m.sink.isFull = true →
        BigStep settings (.form .assign (.symbol name :: e :: surplus)) scope m (.error .sinkFull)
          { m with log := m.log.push (.undefinedVariable name) }
  | assignFails {name : String} {e : Value} {surplus : List Value} {err : EvalError} {scope : ScopeId}
      {m m₁ m' : Machine} :
      Warned scope name m m₁ →
        BigStep settings e (if settings.setReadsGlobal then Heap.globalScope else scope) m₁ (.error err) m' →
          BigStep settings (.form .assign (.symbol name :: e :: surplus)) scope m (.error err) m'
  | assign {name : String} {e v : Value} {surplus : List Value} {scope : ScopeId} {m m₁ m₂ : Machine} :
      Warned scope name m m₁ →
        BigStep settings e (if settings.setReadsGlobal then Heap.globalScope else scope) m₁ (.ok v) m₂ →
          BigStep settings (.form .assign (.symbol name :: e :: surplus)) scope m (.ok v)
            { m₂ with heap := m₂.heap.define scope name v }
  | lambda {names : List String} {body : Value} {surplus : List Value} {scope : ScopeId} {m : Machine} :
      BigStep settings (.form .lambda (.list (names.map .symbol) :: body :: surplus)) scope m
        (.ok (.closure m.heap.closures names body scope))
        { m with heap := { m.heap with closures := m.heap.closures + 1 } }
  | quote {t : Value} {surplus : List Value} {scope : ScopeId} {m : Machine} :
      BigStep settings (.form .quote (t :: surplus)) scope m (.ok t) m
  | countFails {c : Value} {operands : List Value} {e : EvalError} {scope : ScopeId} {m m' : Machine} :
      BigStep settings c scope m (.error e) m' →
        BigStep settings (.form .iterate (c :: operands)) scope m (.error e) m'
  | notACount {c v : Value} {operands : List Value} {scope : ScopeId} {m m' : Machine} :
      BigStep settings c scope m (.ok v) m' → v.whole? = none →
        BigStep settings (.form .iterate (c :: operands)) scope m (.error (.typeMismatch .repeatCount v.kind)) m'
  | nothingRepeated {c v : Value} {n : Int} {scope : ScopeId} {m m' : Machine} :
      BigStep settings c scope m (.ok v) m' → v.whole? = some n →
        BigStep settings (.form .iterate [c]) scope m (.error (.missingOperand .iterate 2)) m'
  | iterate {c v body : Value} {n : Int} {surplus : List Value} {r : Except EvalError Unit} {scope : ScopeId}
      {m m₁ m' : Machine} :
      BigStep settings c scope m (.ok v) m₁ → v.whole? = some n →
        BigStepRounds settings body scope n.toNat m₁ r m' →
          BigStep settings (.form .iterate (c :: body :: surplus)) scope m (r.map fun _ => .nil) m'
  | operandFails {name : String} {operands : List Value} {e : EvalError} {scope : ScopeId} {m m' : Machine} :
      Keyword.ofName? name = none → BigStepAll settings operands scope m (.error e) m' →
        BigStep settings (.list (.symbol name :: operands)) scope m (.error e) m'
  | notAProcedure {name : String} {operands args : List Value} {scope : ScopeId} {m m' : Machine} :
      Keyword.ofName? name = none → BigStepAll settings operands scope m (.ok args) m' →
        (m.heap.get? scope name).bind Value.procedure? = none →
          BigStep settings (.list (.symbol name :: operands)) scope m (.ok .nil)
            { m' with log := m'.log.push (.notAProcedure name) }
  | application {name : String} {operands args : List Value} {p : Procedure} {r : Except EvalError Value}
      {scope : ScopeId} {m m₁ m' : Machine} :
      Keyword.ofName? name = none → BigStepAll settings operands scope m (.ok args) m₁ →
        (m.heap.get? scope name).bind Value.procedure? = some p → BigStepApply settings p name args m₁ r m' →
          BigStep settings (.list (.symbol name :: operands)) scope m r m'

/-- The evaluation of trees one after the other ends with their values, or with the first error. -/
inductive BigStepAll (settings : Settings) :
    List Value → ScopeId → Machine → Except EvalError (List Value) → Machine → Prop
  | nil {scope : ScopeId} {m : Machine} : BigStepAll settings [] scope m (.ok []) m
  | fails {t : Value} {ts : List Value} {e : EvalError} {scope : ScopeId} {m m' : Machine} :
      BigStep settings t scope m (.error e) m' → BigStepAll settings (t :: ts) scope m (.error e) m'
  | cons {t v : Value} {ts : List Value} {r : Except EvalError (List Value)} {scope : ScopeId}
      {m m₁ m' : Machine} :
      BigStep settings t scope m (.ok v) m₁ → BigStepAll settings ts scope m₁ r m' →
        BigStepAll settings (t :: ts) scope m (r.map (v :: ·)) m'

/-- So many rounds of evaluating a tree and writing its value end, or the first of them that fails
    does. -/
inductive BigStepRounds (settings : Settings) :
    Value → ScopeId → Nat → Machine → Except EvalError Unit → Machine → Prop
  | zero {body : Value} {scope : ScopeId} {m : Machine} : BigStepRounds settings body scope .zero m (.ok ()) m
  | fails {body : Value} {n : Nat} {e : EvalError} {scope : ScopeId} {m m' : Machine} :
      BigStep settings body scope m (.error e) m' → BigStepRounds settings body scope (.succ n) m (.error e) m'
  | lineLost {body v : Value} {n : Nat} {scope : ScopeId} {m m' : Machine} :
      BigStep settings body scope m (.ok v) m' → m'.sink.isFull = true →
        BigStepRounds settings body scope (.succ n) m (.error .sinkFull) m'
  | succ {body v : Value} {n : Nat} {r : Except EvalError Unit} {scope : ScopeId} {m m₁ m' : Machine} :
      BigStep settings body scope m (.ok v) m₁ → m₁.sink.isFull = false →
        BigStepRounds settings body scope n { m₁ with sink := m₁.sink.write v.text } r m' →
          BigStepRounds settings body scope (.succ n) m r m'

/-- The application of a procedure, called by a name, to arguments ends. -/
inductive BigStepApply (settings : Settings) :
    Procedure → String → List Value → Machine → Except EvalError Value → Machine → Prop
  | primitive {p : Primitive} {name : String} {args : List Value} {r : Except EvalError Value} {m : Machine} :
      p.result? args = some r → BigStepApply settings (.primitive p) name args m r m
  | primitiveArity {p : Primitive} {name : String} {args : List Value} {m : Machine} : args.length ≠ p.arity →
      BigStepApply settings (.primitive p) name args m (.error (.arityMismatch name p.arity args.length)) m
  | closureArity {params : List String} {body : Value} {outer : ScopeId} {name : String} {args : List Value}
      {m : Machine} : args.length ≠ params.length →
      BigStepApply settings (.closure params body outer) name args m
        (.error (.arityMismatch name params.length args.length)) m
  | tooDeep {params : List String} {body : Value} {outer : ScopeId} {name : String} {args : List Value}
      {limit : Nat} {m : Machine} : args.length = params.length → settings.maxDepth = some limit →
      limit ≤ m.depth →
        BigStepApply settings (.closure params body outer) name args m (.error (.stackLimitExceeded limit)) m
  | call {params : List String} {body : Value} {outer : ScopeId} {name : String} {args : List Value}
      {r : Except EvalError Value} {m m' : Machine} : args.length = params.length → Procedure.MayEnter settings m →
      BigStep settings body m.heap.frames.size (Procedure.entered m name params args outer) r m' →
        BigStepApply settings (.closure params body outer) name args m r m'.left

end

end LineLisp
