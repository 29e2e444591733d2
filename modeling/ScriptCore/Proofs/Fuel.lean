import ScriptCore.Eval
import ScriptCore.Proofs.Wire

/-!
# Fuel

With more fuel a run gives the same answer, if it gave one at all (`eval_more`). So it can be said without fuel
how an evaluation ends: `Finishes m space form result`, where running out of fuel is no result. There is at most
one (`Finishes.unique`). `Settles` says the same of any run, and goes through the constructs of the evaluator.

`More x y` says that `y` does what `x` does wherever `x` has an answer. It goes through every construct that the
evaluator is written with, and the evaluator is then `More` from one number to the next, all its functions at once
(`Grows`).
-/
namespace ScriptCore

open Machine

variable {α β : Type}

/-- `y` does what `x` does wherever `x` does not run out of fuel. -/
def More (x y : RunM α) : Prop :=
  ∀ m, (∀ m', x m ≠ .error .exhausted m') → y m = x m

theorem more_refl (x : RunM α) : More x x := fun _ _ => rfl

theorem more_exhausted (y : RunM α) : More (throw .exhausted) y := fun m h => absurd rfl (h m)

theorem More.trans {x y z : RunM α} (h : More x y) (k : More y z) : More x z := by
  intro m hm
  have hy := h m hm
  rw [← hy]
  exact k m (by rw [hy]; exact hm)

theorem more_bind {x y : RunM α} {f g : α → RunM β} (hx : More x y) (hf : ∀ a, More (f a) (g a)) :
    More (x >>= f) (y >>= g) := by
  intro m h
  rw [run_bind] at h
  rw [run_bind, run_bind]
  cases hm : x m with
  | error e m' =>
    simp only [hm] at h
    have hy := hx m (by rw [hm]; intro _ he; cases he; exact h _ rfl)
    rw [hy, hm]
  | ok a m' =>
    simp only [hm] at h
    have hy := hx m (by rw [hm]; intro m' e; cases e)
    rw [hy, hm]
    exact hf a m' h

theorem more_framed {x y : RunM α} (h : More x y) : More (framed x) (framed y) := by
  refine more_bind (more_refl _) ?_
  intro _ m hm
  have hx : ∀ m', x m ≠ .error .exhausted m' := by
    intro m' e
    refine hm m'.leave ?_
    simp only [e]
  simp only [h m hx]

theorem more_catching {x y : RunM α} (h : More x y) : More (Fault.catching x) (Fault.catching y) := by
  intro m hm
  have hx : ∀ m', x m ≠ .error .exhausted m' := by
    intro m' e
    exact hm m' (by rw [Fault.catching, e])
  simp only [Fault.catching, h m hx]

/-- All functions of the evaluator with one more unit of fuel. -/
structure Grows (n : Nat) : Prop where
  eval : ∀ space form, More (eval n space form) (eval (n + 1) space form)
  evalObject : ∀ space r, More (evalObject n space r) (evalObject (n + 1) space r)
  evalBlock : ∀ space link last, More (evalBlock n space link last) (evalBlock (n + 1) space link last)
  evalForms : ∀ space link results, More (evalForms n space link results) (evalForms (n + 1) space link results)
  evalArguments : ∀ space link, More (evalArguments n space link) (evalArguments (n + 1) space link)
  apply : ∀ space r link, More (apply n space r link) (apply (n + 1) space r link)
  applyCore : ∀ space f link, More (applyCore n space f link) (applyCore (n + 1) space f link)
  send : ∀ space r selector arguments,
    More (send n space r selector arguments) (send (n + 1) space r selector arguments)
  runProgram : ∀ space program, More (runProgram n space program) (runProgram (n + 1) space program)

section Step

variable {n : Nat} (ih : Grows n)

include ih

theorem Grows.eval_succ (space : SpaceId) (form : Value) :
    More (ScriptCore.eval (n + 1) space form) (ScriptCore.eval (n + 2) space form) := by
  cases form with
  | none => exact more_refl _
  | some r => exact more_framed (ih.evalObject space r)

theorem Grows.evalObject_succ (space : SpaceId) (r : Ref) :
    More (ScriptCore.evalObject (n + 1) space r) (ScriptCore.evalObject (n + 2) space r) := by
  cases r with
  | atom a => exact more_refl _
  | cell c =>
    refine more_bind (more_refl _) fun cell => ?_
    cases cell.kind with
    | block => exact more_bind (more_refl _) fun _ => ih.evalBlock _ _ _
    | list =>
      refine more_bind (ih.eval _ _) fun operator => ?_
      cases operator with
      | none => exact more_refl _
      | some r => exact more_bind (more_refl _) fun _ => ih.apply _ _ _

theorem Grows.evalBlock_succ (space : SpaceId) (link : Option CellId) (last : Value) :
    More (ScriptCore.evalBlock (n + 1) space link last) (ScriptCore.evalBlock (n + 2) space link last) := by
  cases link with
  | none => exact more_refl _
  | some c => exact more_bind (more_refl _) fun _ => more_bind (ih.eval _ _) fun _ => ih.evalBlock _ _ _

theorem Grows.evalForms_succ (space : SpaceId) (link : Option CellId) (results : Array Value) :
    More (ScriptCore.evalForms (n + 1) space link results) (ScriptCore.evalForms (n + 2) space link results) := by
  cases link with
  | none => exact more_refl _
  | some c => exact more_bind (more_refl _) fun _ => more_bind (ih.eval _ _) fun _ => ih.evalForms _ _ _

theorem Grows.evalArguments_succ (space : SpaceId) (link : Option CellId) :
    More (ScriptCore.evalArguments (n + 1) space link) (ScriptCore.evalArguments (n + 2) space link) := by
  cases link with
  | none => exact more_refl _
  | some c => exact more_bind (more_refl _) fun _ => ih.evalForms _ _ _

theorem Grows.apply_succ (space : SpaceId) (r : Ref) (link : Option CellId) :
    More (ScriptCore.apply (n + 1) space r link) (ScriptCore.apply (n + 2) space r link) := by
  cases r with
  | cell c => exact more_refl _
  | atom a =>
    refine more_bind (more_refl _) fun atom => ?_
    cases atom with
    | datum | host => exact more_refl _
    | builtin b =>
      rcases b with ⟨name, _ | _ | _⟩
      · exact ih.applyCore _ _ _
      · exact more_bind (ih.evalArguments _ _) fun _ => ih.runProgram _ _
      · exact ih.runProgram _ _

theorem Grows.applyCore_succ (space : SpaceId) (f : CoreForm) (link : Option CellId) :
    More (ScriptCore.applyCore (n + 1) space f link) (ScriptCore.applyCore (n + 2) space f link) := by
  cases f with
  | quote => exact more_refl _
  | cond =>
    refine more_bind (more_refl _) fun forms => ?_
    split
    · refine more_bind (ih.eval _ _) fun _ => more_bind (more_refl _) fun test => ?_
      split
      · exact ih.eval _ _
      · exact more_refl _
    · refine more_bind (ih.eval _ _) fun _ => more_bind (more_refl _) fun test => ?_
      split
      · exact ih.eval _ _
      · exact ih.eval _ _
    · exact more_refl _
  | define =>
    refine more_bind (more_refl _) fun forms => ?_
    split
    · exact more_bind (more_refl _) fun _ => more_bind (more_refl _) fun _ =>
        more_bind (ih.eval _ _) fun _ => more_refl _
    · exact more_refl _
  | list => exact more_bind (ih.evalArguments _ _) fun _ => more_refl _
  | sum => exact more_bind (ih.evalArguments _ _) fun _ => more_refl _

theorem Grows.send_succ (space : SpaceId) (r : Ref) (selector : Selector) (arguments : List Value) :
    More (ScriptCore.send (n + 1) space r selector arguments) (ScriptCore.send (n + 2) space r selector arguments) := by
  refine more_bind (more_refl _) fun table => ?_
  split
  · exact more_refl _
  · split
    · split
      · exact more_refl _
      · exact ih.runProgram _ _
    · exact more_refl _

theorem Grows.runProgram_succ (space : SpaceId) (program : Program) :
    More (ScriptCore.runProgram (n + 1) space program) (ScriptCore.runProgram (n + 2) space program) := by
  cases program with
  | done | fail | crash => exact more_refl _
  | depth | view | datum | list | find | bind => exact more_bind (more_refl _) fun _ => ih.runProgram _ _
  | eval form k => exact more_bind (more_catching (ih.eval _ _)) fun _ => ih.runProgram _ _
  | evalObject object k => exact more_bind (more_catching (ih.evalObject _ _)) fun _ => ih.runProgram _ _
  | evalArguments forms k => exact more_bind (more_catching (ih.evalArguments _ _)) fun _ => ih.runProgram _ _
  | evalList forms k =>
    exact more_bind (more_catching (more_bind (ih.evalArguments _ _) fun _ => more_refl _)) fun _ => ih.runProgram _ _
  | apply operator forms k => exact more_bind (more_catching (ih.apply _ _ _)) fun _ => ih.runProgram _ _
  | send receiver selector arguments k =>
    exact more_bind (more_catching (ih.send _ _ _ _)) fun _ => ih.runProgram _ _

end Step

theorem grows (n : Nat) : Grows n := by
  induction n with
  | zero => constructor <;> intros <;> exact more_exhausted _
  | succ n ih =>
    exact ⟨ih.eval_succ, ih.evalObject_succ, ih.evalBlock_succ, ih.evalForms_succ, ih.evalArguments_succ,
      ih.apply_succ, ih.applyCore_succ, ih.send_succ, ih.runProgram_succ⟩

theorem more_of_le {x : Nat → RunM α} (hx : ∀ n, More (x n) (x (n + 1))) {n k : Nat} (h : n ≤ k) :
    More (x n) (x k) := by
  induction h with
  | refl => exact more_refl _
  | step _ ih => exact ih.trans (hx _)

theorem eval_more {n k : Nat} (h : n ≤ k) (space : SpaceId) (form : Value) :
    More (eval n space form) (eval k space form) :=
  more_of_le (fun n => (grows n).eval space form) h

/-- How the evaluation of a form ends, given enough fuel. -/
def Finishes (m : Machine) (space : SpaceId) (form : Value) (result : EStateM.Result Fault Machine Value) : Prop :=
  (∃ n, eval n space form m = result) ∧ ∀ m', result ≠ .error .exhausted m'

theorem Finishes.unique {m : Machine} {space : SpaceId} {form : Value}
    {result result' : EStateM.Result Fault Machine Value} (h : Finishes m space form result)
    (k : Finishes m space form result') : result = result' := by
  obtain ⟨⟨n, rfl⟩, hn⟩ := h
  obtain ⟨⟨n', rfl⟩, hn'⟩ := k
  rw [← eval_more (Nat.le_max_left n n') space form m hn, eval_more (Nat.le_max_right n n') space form m hn']

/-! ## Enough fuel -/

section Settling

variable {m m' : Machine} {x : Nat → RunM α}

/-- Given enough fuel, the run ends like this. -/
def Settles (x : Nat → RunM α) (m : Machine) (result : EStateM.Result Fault Machine α) : Prop :=
  ∃ n, ∀ k, n ≤ k → x k m = result

theorem settles_of_run (hx : ∀ n, More (x n) (x (n + 1))) {n : Nat} (h : ∀ m', x n m ≠ .error .exhausted m') :
    Settles x m (x n m) :=
  ⟨n, fun _ hk => more_of_le hx hk m h⟩

theorem Finishes.settles {space : SpaceId} {form : Value} {result : EStateM.Result Fault Machine Value}
    (h : Finishes m space form result) : Settles (eval · space form) m result := by
  obtain ⟨⟨n, rfl⟩, hn⟩ := h
  exact settles_of_run (fun n => (grows n).eval space form) hn

/-- The first unit of fuel is used up by the call itself. -/
theorem settles_succ {result : EStateM.Result Fault Machine α} (h : Settles (fun n => x (n + 1)) m result) :
    Settles x m result := by
  obtain ⟨n, hn⟩ := h
  refine ⟨n + 1, fun k hk => ?_⟩
  obtain ⟨j, rfl⟩ : ∃ j, k = j + 1 := ⟨k - 1, by omega⟩
  exact hn j (by omega)

theorem settles_bind {f : Nat → α → RunM β} {a : α} {result : EStateM.Result Fault Machine β}
    (h : Settles x m (.ok a m')) (hf : Settles (f · a) m' result) : Settles (fun n => x n >>= f n) m result := by
  obtain ⟨n, hn⟩ := h
  obtain ⟨n', hn'⟩ := hf
  refine ⟨max n n', fun k hk => ?_⟩
  show (x k >>= f k) m = result
  rw [run_bind, hn k (by omega)]
  exact hn' k (by omega)

theorem settles_bind_error {f : Nat → α → RunM β} {e : Fault} (h : Settles x m (.error e m')) :
    Settles (fun n => x n >>= f n) m (.error e m') := by
  obtain ⟨n, hn⟩ := h
  refine ⟨n, fun k hk => ?_⟩
  show (x k >>= f k) m = .error e m'
  rw [run_bind, hn k hk]

end Settling

end ScriptCore
