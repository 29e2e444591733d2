import ScriptCore.Eval

/-!
# How the evaluator is composed

Each function of the evaluator looks at the state, works on the store and binds names, one step after the other; it
evaluates forms in frames, each of which takes a level of depth; and it hands errors back to native code. There is
nothing else that it does, whatever native functions and methods it meets (`composes`).

`Composed space x` says that of a run `x`. A property that holds of the single steps and goes through the three ways
of putting runs together is thereby known of the whole evaluator, by induction on `Composed`.
-/
namespace ScriptCore

open Machine

/-- A look at the state. The record of the greatest depth is there for statements about runs, and no run sees it. -/
def Machine.observe {α : Type} (f : Store → Spaces → Config → Nat → α) : RunM α := do
  let m ← get
  return f m.store m.spaces m.config m.depth

/-- What a run in a space does at once. No depth is taken, and no native code runs. -/
inductive Step (space : SpaceId) : {α : Type} → RunM α → Prop
  | pure {α : Type} (a : α) : Step space (pure a : RunM α)
  | throw {α : Type} (e : Fault) : Step space (throw e : RunM α)
  | observe {α : Type} (f : Store → Spaces → Config → Nat → α) : Step space (observe f)
  | onStore {α : Type} (x : ActM α) : Step space (onStore x)
  | bindName (name : String) (v : Value) : Step space (Machine.bind space name v)

/-- Runs in a space as they are put together from steps. -/
inductive Composed (space : SpaceId) : {α : Type} → RunM α → Prop
  | step {α : Type} {x : RunM α} (hx : Step space x) : Composed space x
  | bind {α β : Type} {x : RunM α} {f : α → RunM β} (hx : Composed space x) (hf : ∀ a, Composed space (f a)) :
      Composed space (x >>= f)
  | framed {α : Type} {x : RunM α} (hx : Composed space x) : Composed space (framed x)
  | catching {α : Type} {x : RunM α} (hx : Composed space x) : Composed space (Fault.catching x)

/-! ## Steps in other words -/

variable {α : Type} {space : SpaceId}

theorem composed_pure (a : α) : Composed space (pure a) := .step (.pure a)

theorem composed_throw (e : Fault) : Composed space (throw e : RunM α) := .step (.throw e)

theorem composed_observe (f : Store → Spaces → Config → Nat → α) : Composed space (observe f) := .step (.observe f)

theorem composed_onStore (x : ActM α) : Composed space (onStore x) := .step (.onStore x)

theorem composed_ask (f : Store → α) : Composed space (ask f) :=
  composed_observe fun store _ _ _ => f store

theorem composed_ofExcept (x : Except Error α) : Composed space (Fault.ofExcept x : RunM α) := by
  cases x with
  | ok a => exact composed_pure a
  | error e => exact composed_throw _

theorem composed_lookup (name : String) :
    Composed space (do Fault.ofExcept ((← get).spaces.lookup space name) : RunM Value) :=
  .bind (f := Fault.ofExcept) (composed_observe fun _ spaces _ _ => spaces.lookup space name) composed_ofExcept

theorem composed_checkCycle (c : CellId) : Composed space (checkCycle c) := by
  refine .bind (f := fun refused => if refused = true then fail .cyclicList else pure ())
    (composed_observe fun store _ config _ => config.detectCycles && store.cyclic c) fun refused => ?_
  split
  · exact composed_throw _
  · exact composed_pure _

theorem composed_newList (items : List Value) : Composed space (newList items) := composed_onStore _

/-! ## The evaluator -/

/-- All functions of the evaluator. -/
structure Composes (space : SpaceId) (n : Nat) : Prop where
  eval : ∀ form, Composed space (eval n space form)
  evalObject : ∀ r, Composed space (evalObject n space r)
  evalBlock : ∀ link last, Composed space (evalBlock n space link last)
  evalForms : ∀ link results, Composed space (evalForms n space link results)
  evalArguments : ∀ link, Composed space (evalArguments n space link)
  apply : ∀ r link, Composed space (apply n space r link)
  applyCore : ∀ f link, Composed space (applyCore n space f link)
  send : ∀ r selector arguments, Composed space (send n space r selector arguments)
  runProgram : ∀ program, Composed space (runProgram n space program)

section Step

variable {n : Nat} (ih : Composes space n)

include ih

theorem Composes.eval_succ (form : Value) : Composed space (ScriptCore.eval (n + 1) space form) := by
  cases form with
  | none => exact composed_pure _
  | some r => exact .framed (ih.evalObject r)

theorem Composes.evalObject_succ (r : Ref) : Composed space (ScriptCore.evalObject (n + 1) space r) := by
  cases r with
  | atom a =>
    refine .bind (composed_ask _) fun atom => ?_
    split
    · exact composed_lookup _
    · exact composed_pure _
  | cell c =>
    refine .bind (composed_ask _) fun cell => ?_
    cases cell.kind with
    | block => exact .bind (composed_checkCycle c) fun _ => ih.evalBlock _ _
    | list =>
      refine .bind (ih.eval _) fun operator => ?_
      cases operator with
      | none => exact composed_pure _
      | some r => exact .bind (composed_ask _) fun _ => ih.apply _ _

theorem Composes.evalBlock_succ (link : Option CellId) (last : Value) :
    Composed space (ScriptCore.evalBlock (n + 1) space link last) := by
  cases link with
  | none => exact composed_pure _
  | some c => exact .bind (composed_ask _) fun _ => .bind (ih.eval _) fun _ => ih.evalBlock _ _

theorem Composes.evalForms_succ (link : Option CellId) (results : Array Value) :
    Composed space (ScriptCore.evalForms (n + 1) space link results) := by
  cases link with
  | none => exact composed_pure _
  | some c => exact .bind (composed_ask _) fun _ => .bind (ih.eval _) fun _ => ih.evalForms _ _

theorem Composes.evalArguments_succ (link : Option CellId) :
    Composed space (ScriptCore.evalArguments (n + 1) space link) := by
  cases link with
  | none => exact composed_pure _
  | some c => exact .bind (composed_checkCycle c) fun _ => ih.evalForms _ _

theorem Composes.apply_succ (r : Ref) (link : Option CellId) :
    Composed space (ScriptCore.apply (n + 1) space r link) := by
  cases r with
  | cell c => exact .bind (composed_ask _) fun _ => composed_throw _
  | atom a =>
    refine .bind (composed_ask _) fun atom => ?_
    cases atom with
    | datum | host => exact composed_throw _
    | builtin b =>
      rcases b with ⟨name, _ | _ | _⟩
      · exact ih.applyCore _ _
      · exact .bind (ih.evalArguments _) fun _ => ih.runProgram _
      · exact ih.runProgram _

theorem Composes.applyCore_succ (f : CoreForm) (link : Option CellId) :
    Composed space (ScriptCore.applyCore (n + 1) space f link) := by
  cases f with
  | quote =>
    refine .bind (composed_ask _) fun forms => ?_
    split
    · exact composed_pure _
    · exact composed_throw _
  | cond =>
    refine .bind (composed_ask _) fun forms => ?_
    split
    · refine .bind (ih.eval _) fun _ => .bind (composed_ask _) fun test => ?_
      split
      · exact ih.eval _
      · exact composed_pure _
    · refine .bind (ih.eval _) fun _ => .bind (composed_ask _) fun test => ?_
      split
      · exact ih.eval _
      · exact ih.eval _
    · exact composed_throw _
  | define =>
    refine .bind (composed_ask _) fun forms => ?_
    split
    · exact .bind (composed_ask _) fun _ => .bind (composed_ofExcept _) fun name =>
        .bind (ih.eval _) fun v => .bind (.step (.bindName name v)) fun _ => composed_pure _
    · exact composed_throw _
  | list => exact .bind (ih.evalArguments _) fun _ => composed_newList _
  | sum =>
    exact .bind (ih.evalArguments _) fun _ => .bind (composed_ask _) fun _ =>
      .bind (composed_ofExcept _) fun _ => composed_onStore _

theorem Composes.send_succ (r : Ref) (selector : Selector) (arguments : List Value) :
    Composed space (ScriptCore.send (n + 1) space r selector arguments) := by
  refine .bind (composed_ask _) fun table => ?_
  split
  · exact .bind (composed_ask _) fun _ => composed_throw _
  · split
    · split
      · exact composed_onStore _
      · exact ih.runProgram _
    · exact composed_throw _

theorem Composes.runProgram_succ (program : Program) :
    Composed space (ScriptCore.runProgram (n + 1) space program) := by
  cases program with
  | done => exact composed_pure _
  | fail | crash => exact composed_throw _
  | depth k =>
    exact .bind (f := fun d => ScriptCore.runProgram n space (k d)) (composed_observe fun _ _ _ d => d)
      fun _ => ih.runProgram _
  | view => exact .bind (composed_ask _) fun _ => ih.runProgram _
  | datum => exact .bind (composed_onStore _) fun _ => ih.runProgram _
  | list => exact .bind (composed_newList _) fun _ => ih.runProgram _
  | find name k =>
    exact .bind (f := fun v => ScriptCore.runProgram n space (k v))
      (composed_observe fun _ spaces _ _ => spaces.find? space name) fun _ => ih.runProgram _
  | bind name v => exact .bind (.step (.bindName name v)) fun _ => ih.runProgram _
  | eval => exact .bind (.catching (ih.eval _)) fun _ => ih.runProgram _
  | evalObject => exact .bind (.catching (ih.evalObject _)) fun _ => ih.runProgram _
  | evalArguments => exact .bind (.catching (ih.evalArguments _)) fun _ => ih.runProgram _
  | evalList =>
    refine .bind (.catching ?_) fun _ => ih.runProgram _
    exact .bind (ih.evalArguments _) fun _ => composed_newList _
  | apply => exact .bind (.catching (ih.apply _ _)) fun _ => ih.runProgram _
  | send => exact .bind (.catching (ih.send _ _ _)) fun _ => ih.runProgram _

end Step

theorem composes (space : SpaceId) (n : Nat) : Composes space n := by
  induction n with
  | zero => constructor <;> intros <;> exact composed_throw _
  | succ n ih =>
    exact ⟨ih.eval_succ, ih.evalObject_succ, ih.evalBlock_succ, ih.evalForms_succ, ih.evalArguments_succ,
      ih.apply_succ, ih.applyCore_succ, ih.send_succ, ih.runProgram_succ⟩

end ScriptCore
