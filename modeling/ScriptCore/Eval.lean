import ScriptCore.Machine

/-!
# Evaluation

Plain data evaluates to itself and a symbol to its binding. A cell of kind `block` evaluates its elements in
order and gives the last result; any other cell evaluates its first slot to an operator and applies that to
the forms behind it. Only native functions can be applied.

Chains of forms are followed while they are evaluated, so a change made by an earlier form to a later cell is
seen: both slots of a cell are read just before its form is evaluated.

Programs need not end, so every function takes fuel, of which each call inside it gets one less. A run that is
out of fuel is `exhausted`, which is no answer; any other outcome stays the same with more fuel.
-/
namespace ScriptCore

open Machine

/-- The sum of integers, refused at the first value that is none or at which the sum does not fit. -/
def sumIntegers (s : Store) (total : Int64) : List Value → Except Error Int64
  | [] => .ok total
  | v :: rest =>
    match s.integer v with
    | .error e => .error e
    | .ok n =>
      match checkedInt64 (total.toInt + n.toInt) with
      | none => .error (.type (.overflow "+"))
      | some total => sumIntegers s total rest

/-- The name that a form to be bound holds. -/
def symbolName (s : Store) (form : Value) : Except Error String :=
  match s.datum? form with
  | some (.symbol name) => .ok name
  | _ => .error (.type .bindsNoSymbol)

mutual

/-- Evaluates a form. Nil gives nil, anything else takes a level of depth. -/
def eval : Nat → SpaceId → Value → RunM Value
  | 0, _, _ => throw .exhausted
  | _ + 1, _, none => return none
  | n + 1, space, some form => framed (evalObject n space form)

/-- Evaluates an object without taking a level of depth. -/
def evalObject : Nat → SpaceId → Ref → RunM Value
  | 0, _, _ => throw .exhausted
  | n + 1, space, .cell c => do
    let cell ← ask (·.cell c)
    match cell.kind with
    | .block =>
      checkCycle c
      evalBlock n space (some c) none
    | .list =>
      match ← eval n space cell.car with
      | none => return none
      | some operator => apply n space operator (← ask (·.next c))
  | _ + 1, space, .atom a => do
    match ← ask (·.atom a) with
    | .datum (.symbol name) => Fault.ofExcept ((← get).spaces.lookup space name)
    | _ => return some (.atom a)

/-- Evaluates the forms of a chain, and gives the last result. -/
def evalBlock : Nat → SpaceId → Option CellId → Value → RunM Value
  | 0, _, _, _ => throw .exhausted
  | _ + 1, _, none, last => return last
  | n + 1, space, some c, _ => do
    let cell ← ask (·.cell c)
    let result ← eval n space cell.car
    evalBlock n space cell.cdr result

/-- Evaluates the forms of a chain behind the results so far. -/
def evalForms : Nat → SpaceId → Option CellId → Array Value → RunM (List Value)
  | 0, _, _, _ => throw .exhausted
  | _ + 1, _, none, results => return results.toList
  | n + 1, space, some c, results => do
    let cell ← ask (·.cell c)
    let result ← eval n space cell.car
    evalForms n space cell.cdr (results.push result)

/-- Evaluates arguments. -/
def evalArguments : Nat → SpaceId → Option CellId → RunM (List Value)
  | 0, _, _ => throw .exhausted
  | _ + 1, _, none => return []
  | n + 1, space, some c => do
    checkCycle c
    evalForms n space (some c) #[]

/-- Applies an object to a chain of argument forms. -/
def apply : Nat → SpaceId → Ref → Option CellId → RunM Value
  | 0, _, _, _ => throw .exhausted
  | _ + 1, _, .cell c, _ => do
    fail (.notCallable (← ask (·.typeName (.cell c))))
  | n + 1, space, .atom a, forms => do
    match ← ask (·.atom a) with
    | .builtin b =>
      match b.body with
      | .core f => applyCore n space f forms
      | .strict run => runProgram n space (run (← evalArguments n space forms))
      | .special run => runProgram n space (run forms)
    | other => fail (.notCallable other.typeName)

/-- Applies a core form. -/
def applyCore : Nat → SpaceId → CoreForm → Option CellId → RunM Value
  | 0, _, _, _ => throw .exhausted
  | n + 1, space, f, forms => do
    match f with
    | .quote =>
      match ← ask (·.elementsOf forms) with
      | [form] => return form
      | other => fail (.arity "quote" (.exact 1) other.length)
    | .cond =>
      match ← ask (·.elementsOf forms) with
      | [test, yes] =>
        let v ← eval n space test
        if ← ask (·.truthy v) then eval n space yes else return none
      | [test, yes, no] =>
        let v ← eval n space test
        if ← ask (·.truthy v) then eval n space yes else eval n space no
      | other => fail (.arity "if" (.between 2 3) other.length)
    | .define =>
      match ← ask (·.elementsOf forms) with
      | [symbol, form] =>
        let name ← Fault.ofExcept (← ask (symbolName · symbol))
        let v ← eval n space form
        let _ ← Machine.bind space name v
        return v
      | other => fail (.arity "const" (.exact 2) other.length)
    | .list => newList (← evalArguments n space forms)
    | .sum =>
      let arguments ← evalArguments n space forms
      let total ← Fault.ofExcept (← ask (sumIntegers · 0 arguments))
      onStore (ActM.datum (.integer total))

/-- Calls a method. -/
def send : Nat → SpaceId → Ref → Selector → List Value → RunM Value
  | 0, _, _, _, _ => throw .exhausted
  | n + 1, space, receiver, selector, arguments => do
    match (← ask (·.table receiver)).find? selector with
    | none => fail (.unboundMethod selector.display (← ask (·.typeName receiver)))
    | some (_, method) =>
      if method.arity.accepts arguments.length then
        match method.body with
        | .core m => onStore (m.run receiver arguments)
        | .native run => runProgram n space (run receiver arguments)
      else
        fail (.arity method.name method.arity arguments.length)

/-- Runs native code. -/
def runProgram : Nat → SpaceId → Program → RunM Value
  | 0, _, _ => throw .exhausted
  | _ + 1, _, .done v => return v
  | _ + 1, _, .fail e => fail e
  | _ + 1, _, .crash message => throw (.crash message)
  | n + 1, space, .depth k => do
    runProgram n space (k (← get).depth)
  | n + 1, space, .view v k => do
    runProgram n space (k (← ask (·.view v)))
  | n + 1, space, .datum d k => do
    runProgram n space (k (← onStore (ActM.datum d)))
  | n + 1, space, .list items k => do
    runProgram n space (k (← newList items))
  | n + 1, space, .find name k => do
    runProgram n space (k ((← get).spaces.find? space name))
  | n + 1, space, .bind name v k => do
    runProgram n space (k (← Machine.bind space name v))
  | n + 1, space, .eval form k => do
    runProgram n space (k (← Fault.catching (eval n space form)))
  | n + 1, space, .evalObject object k => do
    runProgram n space (k (← Fault.catching (evalObject n space object)))
  | n + 1, space, .evalArguments forms k => do
    runProgram n space (k (← Fault.catching (evalArguments n space forms)))
  | n + 1, space, .evalList forms k => do
    runProgram n space (k (← Fault.catching do newList (← evalArguments n space forms)))
  | n + 1, space, .apply operator forms k => do
    runProgram n space (k (← Fault.catching (apply n space operator forms)))
  | n + 1, space, .send receiver selector arguments k => do
    runProgram n space (k (← Fault.catching (send n space receiver selector arguments)))

end

/-- Evaluates the forms of a chain into a new list. -/
def evalList (n : Nat) (space : SpaceId) (forms : Option CellId) : RunM Value := do
  newList (← evalArguments n space forms)

/-! ## Core forms -/

/-- The native function of a core form. -/
def CoreForm.builtin : CoreForm → Builtin
  | .quote => ⟨"quote", .core .quote⟩
  | .cond => ⟨"if", .core .cond⟩
  | .define => ⟨"const", .core .define⟩
  | .list => ⟨"list", .core .list⟩
  | .sum => ⟨"+", .core .sum⟩

/-- Binds new native functions under their names. -/
def Machine.install (m : Machine) (space : SpaceId) (builtins : List Builtin) : Machine :=
  builtins.foldl
    (fun m b =>
      let (a, store) := m.store.newAtom (.builtin b)
      { m with store, spaces := (m.spaces.bind space b.name (some (.atom a))).2 })
    m

/-- Binds the core forms. -/
def Machine.installCore (m : Machine) (space : SpaceId) : Machine :=
  m.install space ([.quote, .cond, .define, .list, .sum].map CoreForm.builtin)

end ScriptCore
