import K8sSched.Cel.Cache

/-! # Evaluation of CEL conditions

`Evaluate` and `runProgram` of `internal/cel/cache.go` over a given compiler and
a given evaluation of programs. Programs evaluate over variables of a type `ν`
and may fail or return something else than a truth value. -/

namespace K8sSched.Cel.Evaluate

open K8sSched.Cel.Cache

/-- The Go value a program returns: a truth value, or one of another type. -/
inductive Value
  | bool (b : Bool)
  | other (type : String)

/-- `compile %q: %w`, `eval: %w` and `expression must return bool, got %T`. -/
inductive EvalError (ε : Type)
  | compile (err : CompileError ε)
  | eval (err : ε)
  | notBool (type : String)

variable {P ε ν : Type}

def runProgram (eval : P → ν → Except ε Value) (prog : P) (vars : ν) :
    Except (EvalError ε) Bool :=
  match eval prog vars with
  | .error err => .error (.eval err)
  | .ok (.bool b) => .ok b
  | .ok (.other type) => .error (.notBool type)

/-- `Evaluate` without the cache: compile, then run. -/
def evaluate (compile : String → Except ε P) (eval : P → ν → Except ε Value) (expr : String)
    (vars : ν) : Except (EvalError ε) Bool :=
  match compile expr with
  | .error err => .error (.compile ⟨expr, err⟩)
  | .ok prog => runProgram eval prog vars

/-- An expression evaluates to a truth value when it compiles, its program runs
and returns that value. -/
theorem evaluate_eq_ok {compile : String → Except ε P} {eval : P → ν → Except ε Value}
    {expr : String} {vars : ν} {b : Bool} :
    evaluate compile eval expr vars = .ok b ↔
      ∃ prog, compile expr = .ok prog ∧ eval prog vars = .ok (.bool b) := by
  unfold evaluate
  cases compile expr with
  | error err => simp
  | ok prog =>
    simp only [runProgram]
    cases heval : eval prog vars with
    | error err => simp [heval]
    | ok v =>
      cases v with
      | bool c => simp [heval]
      | other type => simp [heval]

end K8sSched.Cel.Evaluate
