import ScriptCore.Proofs.Confinement

/-!
# Two runs on the same objects

Two evaluations of the same form, in states that have the same objects but may differ in spaces and limits, go on in
step as long as no difference shows: whatever is looked up gives the same value, and whatever is refused to the second
run is refused to the first. Then both make the same objects in the same order and end with the very same value or
fault (`together`), unless the first one is cut off by a limit that the second one does not have.

`Lockstep I cut` says of a relation `I` between states that no single step of the evaluator tells related states apart,
save that the first run may end with one of the faults in `cut`. `Twin` compares outcomes in that sense. The native
functions in the store have to be core forms (`Store.CoreOnly`), since others could handle the fault of a run that was
cut off.
-/
namespace ScriptCore

open Machine

namespace Store

/-- All native functions in the store are core forms. -/
def CoreOnly (s : Store) : Prop :=
  ∀ a b, s.atom a = .builtin b → ∃ f, b.body = .core f

variable {s : Store}

theorem CoreOnly.newDatum (h : s.CoreOnly) (x : Datum) : (s.newDatum x).2.CoreOnly := by
  intro a b hb
  have hatom : (s.newDatum x).2.atom a = _ := atom_newAtom a
  rw [hatom] at hb
  split at hb
  · cases hb
  · exact h a b hb

theorem CoreOnly.newChain (h : s.CoreOnly) (kind : CellKind) (items : List Value) :
    (s.newChain kind items).2.CoreOnly := by
  induction items with
  | nil => exact h
  | cons v items ih => exact ih

end Store

section Twin

variable {α β : Type} {I : Machine → Machine → Prop} {cut : Fault → Prop}

/-- The same result or the same fault, in states that are related; or the first run was cut off. -/
inductive Twin (I : Machine → Machine → Prop) (cut : Fault → Prop) :
    EStateM.Result Fault Machine α → EStateM.Result Fault Machine α → Prop
  | ok {v : α} {a b : Machine} (h : I a b) : Twin I cut (.ok v a) (.ok v b)
  | error {e : Fault} {a b : Machine} (h : I a b) : Twin I cut (.error e a) (.error e b)
  | cut {e : Fault} {a : Machine} {result : EStateM.Result Fault Machine α} (h : cut e) : Twin I cut (.error e a) result

/-- Related states cannot be told apart by a step of runs in `space` and in `space'`. -/
structure Lockstep (I : Machine → Machine → Prop) (cut : Fault → Prop) (space space' : SpaceId) : Prop where
  store : ∀ {a b}, I a b → b.store = a.store
  core : ∀ {a b}, I a b → a.store.CoreOnly
  withStore : ∀ {a b}, I a b → ∀ s : Store, s.CoreOnly → I { a with store := s } { b with store := s }
  enter : ∀ {a b}, I a b → Twin I cut (enter a) (enter b)
  leave : ∀ {a b}, I a b → I a.leave b.leave
  checkCycle : ∀ {a b}, I a b → ∀ c, Twin I cut (checkCycle c a) (checkCycle c b)
  lookup : ∀ {a b}, I a b → ∀ name, b.spaces.lookup space' name = a.spaces.lookup space name
  bind : ∀ {a b}, I a b → ∀ name v, I { a with spaces := (a.spaces.bind space name v).2 }
    { b with spaces := (b.spaces.bind space' name v).2 }

theorem twin_bind {x y : RunM α} {f g : α → RunM β} {a b : Machine} (h : Twin I cut (x a) (y b))
    (hf : ∀ v a' b', I a' b' → Twin I cut (f v a') (g v b')) : Twin I cut ((x >>= f) a) ((y >>= g) b) := by
  rw [run_bind, run_bind]
  generalize x a = rx at h
  generalize y b = ry at h
  cases h with
  | ok h => exact hf _ _ _ h
  | error h => exact .error h
  | cut h => exact .cut h

theorem twin_framed {x y : RunM α} {a b : Machine} (henter : Twin I cut (enter a) (enter b))
    (hleave : ∀ {a' b'}, I a' b' → I a'.leave b'.leave) (hx : ∀ a' b', I a' b' → Twin I cut (x a') (y b')) :
    Twin I cut (framed x a) (framed y b) := by
  refine twin_bind henter ?_
  intro _ a' b' h'
  have hinner := hx a' b' h'
  generalize x a' = rx at hinner ⊢
  generalize y b' = ry at hinner ⊢
  cases hinner with
  | ok h => exact .ok (hleave h)
  | error h => exact .error (hleave h)
  | cut h => exact .cut h

theorem Twin.ofExcept {a b : Machine} (h : I a b) (x : Except Error α) :
    Twin I cut (Fault.ofExcept x a) (Fault.ofExcept x b) := by
  cases x with
  | ok v => exact .ok h
  | error e => exact .error h

namespace Lockstep

variable {space space' : SpaceId} {a b : Machine} (L : Lockstep I cut space space')

include L

theorem ask {f : Store → α} {k k' : α → RunM β} (h : I a b)
    (hk : Twin I cut (k (f a.store) a) (k' (f a.store) b)) :
    Twin I cut ((Machine.ask f >>= k) a) ((Machine.ask f >>= k') b) := by
  show Twin I cut (k (f a.store) a) (k' (f b.store) b)
  rwa [L.store h]

theorem framed {x y : RunM α} (h : I a b) (hx : ∀ a' b', I a' b' → Twin I cut (x a') (y b')) :
    Twin I cut (Machine.framed x a) (Machine.framed y b) :=
  twin_framed (L.enter h) L.leave hx

theorem newList (h : I a b) (items : List Value) : Twin I cut (Machine.newList items a) (Machine.newList items b) := by
  have hnew := L.withStore h _ ((L.core h).newChain .list items)
  show Twin I cut (.ok (Value.ofLink (a.store.newChain .list items).1) _)
    (.ok (Value.ofLink (b.store.newChain .list items).1) _)
  rw [L.store h]
  exact .ok hnew

theorem newDatum (h : I a b) (x : Datum) :
    Twin I cut (onStore (ActM.datum x) a) (onStore (ActM.datum x) b) := by
  have hnew := L.withStore h _ ((L.core h).newDatum x)
  show Twin I cut (.ok (a.store.newDatum x).1 _) (.ok (b.store.newDatum x).1 _)
  rw [L.store h]
  exact .ok hnew

end Lockstep

end Twin

/-! ## The evaluator -/

/-- All functions of the evaluator, run with the same fuel on both sides. -/
structure Together (I : Machine → Machine → Prop) (cut : Fault → Prop) (space space' : SpaceId) (n : Nat) : Prop where
  eval : ∀ {a b}, I a b → ∀ form, Twin I cut (eval n space form a) (eval n space' form b)
  evalObject : ∀ {a b}, I a b → ∀ r, Twin I cut (evalObject n space r a) (evalObject n space' r b)
  evalBlock : ∀ {a b}, I a b → ∀ link last,
    Twin I cut (evalBlock n space link last a) (evalBlock n space' link last b)
  evalForms : ∀ {a b}, I a b → ∀ link results,
    Twin I cut (evalForms n space link results a) (evalForms n space' link results b)
  evalArguments : ∀ {a b}, I a b → ∀ link, Twin I cut (evalArguments n space link a) (evalArguments n space' link b)
  apply : ∀ {a b}, I a b → ∀ r link, Twin I cut (apply n space r link a) (apply n space' r link b)
  applyCore : ∀ {a b}, I a b → ∀ f link, Twin I cut (applyCore n space f link a) (applyCore n space' f link b)

section Step

variable {I : Machine → Machine → Prop} {cut : Fault → Prop} {space space' : SpaceId} {n : Nat} {a b : Machine}
variable (L : Lockstep I cut space space') (ih : Together I cut space space' n) (h : I a b)

include L ih h

theorem Together.eval_succ (form : Value) :
    Twin I cut (ScriptCore.eval (n + 1) space form a) (ScriptCore.eval (n + 1) space' form b) := by
  cases form with
  | none => exact .ok h
  | some r => exact L.framed h fun a' b' h' => ih.evalObject h' r

theorem Together.evalObject_succ (r : Ref) :
    Twin I cut (ScriptCore.evalObject (n + 1) space r a) (ScriptCore.evalObject (n + 1) space' r b) := by
  cases r with
  | cell c =>
    refine L.ask h ?_
    cases (a.store.cell c).kind with
    | block => exact twin_bind (L.checkCycle h c) fun _ a' b' h' => ih.evalBlock h' _ _
    | list =>
      refine twin_bind (ih.eval h _) ?_
      intro operator a' b' h'
      cases operator with
      | none => exact .ok h'
      | some r => exact L.ask h' (ih.apply h' _ _)
  | atom i =>
    refine L.ask h ?_
    cases a.store.atom i with
    | builtin | host => exact .ok h
    | datum x =>
      cases x with
      | integer | text | boolean => exact .ok h
      | symbol name =>
        show Twin I cut (Fault.ofExcept (a.spaces.lookup space name) a) (Fault.ofExcept (b.spaces.lookup space' name) b)
        rw [L.lookup h]
        exact .ofExcept h _

theorem Together.evalBlock_succ (link : Option CellId) (last : Value) :
    Twin I cut (ScriptCore.evalBlock (n + 1) space link last a) (ScriptCore.evalBlock (n + 1) space' link last b) := by
  cases link with
  | none => exact .ok h
  | some c => exact L.ask h (twin_bind (ih.eval h _) fun _ a' b' h' => ih.evalBlock h' _ _)

theorem Together.evalForms_succ (link : Option CellId) (results : Array Value) :
    Twin I cut (ScriptCore.evalForms (n + 1) space link results a)
      (ScriptCore.evalForms (n + 1) space' link results b) := by
  cases link with
  | none => exact .ok h
  | some c => exact L.ask h (twin_bind (ih.eval h _) fun _ a' b' h' => ih.evalForms h' _ _)

theorem Together.evalArguments_succ (link : Option CellId) :
    Twin I cut (ScriptCore.evalArguments (n + 1) space link a) (ScriptCore.evalArguments (n + 1) space' link b) := by
  cases link with
  | none => exact .ok h
  | some c => exact twin_bind (L.checkCycle h c) fun _ a' b' h' => ih.evalForms h' _ _

theorem Together.apply_succ (r : Ref) (link : Option CellId) :
    Twin I cut (ScriptCore.apply (n + 1) space r link a) (ScriptCore.apply (n + 1) space' r link b) := by
  cases r with
  | cell c => exact L.ask h (.error h)
  | atom i =>
    refine L.ask h ?_
    cases hi : a.store.atom i with
    | datum | host => exact .error h
    | builtin native =>
      obtain ⟨f, hf⟩ := L.core h i native hi
      simp only [hf]
      exact ih.applyCore h f link

theorem Together.applyCore_succ (f : CoreForm) (link : Option CellId) :
    Twin I cut (ScriptCore.applyCore (n + 1) space f link a) (ScriptCore.applyCore (n + 1) space' f link b) := by
  cases f with
  | quote =>
    refine L.ask h ?_
    generalize a.store.elementsOf link = forms
    rcases forms with _ | ⟨form, _ | _⟩
    · exact .error h
    · exact .ok h
    · exact .error h
  | cond =>
    refine L.ask h ?_
    generalize a.store.elementsOf link = forms
    rcases forms with _ | ⟨test, _ | ⟨yes, _ | ⟨no, _ | _⟩⟩⟩
    · exact .error h
    · exact .error h
    · refine twin_bind (ih.eval h test) fun v a' b' h' => L.ask h' ?_
      cases a'.store.truthy v with
      | true => exact ih.eval h' yes
      | false => exact .ok h'
    · refine twin_bind (ih.eval h test) fun v a' b' h' => L.ask h' ?_
      cases a'.store.truthy v with
      | true => exact ih.eval h' yes
      | false => exact ih.eval h' no
    · exact .error h
  | define =>
    refine L.ask h ?_
    generalize a.store.elementsOf link = forms
    rcases forms with _ | ⟨symbol, _ | ⟨form, _ | _⟩⟩
    · exact .error h
    · exact .error h
    · refine L.ask h (twin_bind (.ofExcept h _) fun name a₁ b₁ h₁ => ?_)
      refine twin_bind (ih.eval h₁ form) fun v a₂ b₂ h₂ => ?_
      exact .ok (L.bind h₂ name v)
    · exact .error h
  | list => exact twin_bind (ih.evalArguments h _) fun vs a' b' h' => L.newList h' vs
  | sum =>
    refine twin_bind (ih.evalArguments h _) fun vs a₁ b₁ h₁ => L.ask h₁ ?_
    exact twin_bind (.ofExcept h₁ _) fun total a₂ b₂ h₂ => L.newDatum h₂ _

end Step

/-- Runs from related states stay together. -/
theorem together {I : Machine → Machine → Prop} {cut : Fault → Prop} {space space' : SpaceId}
    (L : Lockstep I cut space space') (n : Nat) : Together I cut space space' n := by
  induction n with
  | zero => constructor <;> intros <;> exact .error ‹I _ _›
  | succ n ih =>
    exact ⟨ih.eval_succ L, ih.evalObject_succ L, ih.evalBlock_succ L, ih.evalForms_succ L, ih.evalArguments_succ L,
      ih.apply_succ L, ih.applyCore_succ L⟩

end ScriptCore
