import ScriptCore.Object

/-!
# Native functions for looking into the engine

Small native functions that show their arguments, the depth of evaluation, and how calls back into the engine
behave.
-/
namespace ScriptCore.Host

/-- The list of its arguments. -/
def args : Builtin :=
  ⟨"args", .strict fun vs => .list vs .done⟩

/-- The number of its arguments. -/
def argc : Builtin :=
  ⟨"argc", .strict fun vs => .integer (Int64.ofNat vs.length)⟩

/-- The depth of evaluation. -/
def depth : Builtin :=
  ⟨"depth", .strict fun _ => .depth fun n => .integer (Int64.ofNat n)⟩

/-- Evaluates the value of its first argument once more. -/
def evalq : Builtin :=
  ⟨"evalq", .strict fun
    | [] => .done none
    | v :: _ => .eval v .finish⟩

/-- Calls the method named by its second argument on its first one, with the others as arguments. -/
def call : Builtin :=
  ⟨"call", .strict fun
    | some receiver :: name :: arguments =>
      .withText name fun method => .send receiver (.named method) arguments .finish
    | _ => .done none⟩

/-- Fails. -/
def fail : Builtin :=
  ⟨"fail", .strict fun _ => .fail (.type (.native "builtin failed"))⟩

/-- Crashes. -/
def boom : Builtin :=
  ⟨"boom", .strict fun _ => .crash "boom"⟩

/-- The chain of its argument forms itself. -/
def forms : Builtin :=
  ⟨"forms", .special fun link => .done (.ofLink link)⟩

/-- The list of the values of its argument forms. -/
def evlist : Builtin :=
  ⟨"evlist", .special fun link => .evalList link .finish⟩

/-- All of them. -/
def builtins : List Builtin :=
  [args, argc, depth, evalq, call, fail, boom, forms, evlist]

end ScriptCore.Host
