import ScriptCore.Proofs.Composition
import ScriptCore.Proofs.Fuel
import ScriptCore.Proofs.Simulation

/-!
# What runs leave alone

However a run in a space ends, with a value or a fault, also one that no code handles, it has left the configuration
as it was, has closed every evaluation that it began, and has bound names in its own space only, where none of those
bound before is unbound (`Machine.Confined`). That holds with any native functions: they touch spaces only through
the evaluator.

`Confining space x` says this of a run `x` from every state. It holds of single steps and goes through the ways in which
runs are put together (`Composed.confining`), and so holds of all functions of the evaluator at once (`Confines`).
-/
namespace ScriptCore

open Machine

namespace Machine

/-- From `m` to `m'`, runs in a space may have changed objects and bound names in that space, and nothing else. -/
structure Confined (space : SpaceId) (m m' : Machine) : Prop where
  config : m'.config = m.config
  depth : m'.depth = m.depth
  /-- The limit holds at every moment in between. -/
  deepest : m'.deepest ≤ max m.deepest (max m.depth m.config.maxDepth.toNat)
  size : m'.spaces.spaces.size = m.spaces.spaces.size
  enclosing : (m'.spaces.space space).enclosing = (m.spaces.space space).enclosing
  others : ∀ i, i ≠ space → m'.spaces.space i = m.spaces.space i
  bound : ∀ name, (m.spaces.findHere? space name).isSome → (m'.spaces.findHere? space name).isSome

namespace Confined

variable {space : SpaceId} {m m' m'' : Machine}

theorem refl (space : SpaceId) (m : Machine) : Confined space m m :=
  ⟨rfl, rfl, Nat.le_max_left _ _, rfl, rfl, fun _ _ => rfl, fun _ h => h⟩

theorem trans (h : Confined space m m') (k : Confined space m' m'') : Confined space m m'' where
  config := k.config.trans h.config
  depth := k.depth.trans h.depth
  deepest := by
    have hm := h.deepest
    have hk := k.deepest
    rw [h.config, h.depth] at hk
    omega
  size := k.size.trans h.size
  enclosing := k.enclosing.trans h.enclosing
  others i hi := (k.others i hi).trans (h.others i hi)
  bound name hn := k.bound name (h.bound name hn)

theorem withStore (space : SpaceId) (m : Machine) (s : Store) : Confined space m { m with store := s } :=
  ⟨rfl, rfl, Nat.le_max_left _ _, rfl, rfl, fun _ _ => rfl, fun _ h => h⟩

theorem withBinding (space : SpaceId) (m : Machine) (name : String) (v : Value) :
    Confined space m { m with spaces := (m.spaces.bind space name v).2 } where
  config := rfl
  depth := rfl
  deepest := Nat.le_max_left _ _
  size := Spaces.size_bind ..
  enclosing := Spaces.enclosing_bind ..
  others i hi := by rw [Spaces.space_bind, if_neg (fun h => hi h.1)]
  bound other ho := by
    rw [Spaces.findHere?_bind]
    split
    · rfl
    · exact ho

/-- What is bound anywhere stays bound there. -/
theorem isSome_findHere? (h : Confined space m m') {i : SpaceId} {name : String}
    (hb : (m.spaces.findHere? i name).isSome) : (m'.spaces.findHere? i name).isSome := by
  by_cases hi : i = space
  · subst hi
    exact h.bound name hb
  · rw [Spaces.findHere?, h.others i hi]
    exact hb

end Confined

/-- The state in which a further evaluation is under way. -/
def deeper (m : Machine) : Machine :=
  { m with depth := m.depth + 1, deepest := max m.deepest (m.depth + 1) }

section Framed

variable {α : Type} {m : Machine} (x : RunM α)

theorem framed_refused (h : m.config.maxDepth.toNat ≤ m.depth) :
    framed x m = .error (.error (.stackOverflow m.config.maxDepth.toNat)) m := by
  have henter : enter m = .error (.error (.stackOverflow m.config.maxDepth.toNat)) m := if_pos h
  unfold framed
  refine (run_bind _ _ _).trans ?_
  rw [henter]

theorem framed_entered (h : ¬ m.config.maxDepth.toNat ≤ m.depth) :
    framed x m = match x m.deeper with
      | .ok a m' => .ok a m'.leave
      | .error e m' => .error e m'.leave := by
  have henter : enter m = .ok () m.deeper := if_neg h
  unfold framed
  refine (run_bind _ _ _).trans ?_
  rewrite [henter]
  cases hx : x m.deeper <;> simp only [hx]

end Framed

end Machine

/-! ## Rules -/

variable {α β : Type} {space : SpaceId}

/-- A run stays within what runs in the space may change, whatever it starts from and however it ends. -/
def Confining (space : SpaceId) (x : RunM α) : Prop :=
  ∀ m, Confined space m (after (x m))

theorem confining_bind {x : RunM α} {f : α → RunM β} (hx : Confining space x) (hf : ∀ a, Confining space (f a)) :
    Confining space (x >>= f) := by
  intro m
  have h := hx m
  rw [run_bind]
  cases hm : x m with
  | error e m' => rw [hm] at h; exact h
  | ok a m' => rw [hm] at h; exact h.trans (hf a m')

theorem Step.confining {x : RunM α} (h : Step space x) : Confining space x := by
  intro m
  cases h with
  | pure | throw | observe => exact .refl space m
  | bindName name v => exact .withBinding space m name v
  | onStore x =>
    unfold Machine.onStore
    cases x m.store with
    | ok a s => exact .withStore space m s
    | error e s => exact .withStore space m s

theorem confining_framed {x : RunM α} (hx : Confining space x) : Confining space (framed x) := by
  intro m
  by_cases hlimit : m.config.maxDepth.toNat ≤ m.depth
  · rw [framed_refused x hlimit]
    exact .refl space m
  · have hrun : after (framed x m) = (after (x m.deeper)).leave := by
      rw [framed_entered x hlimit]
      cases x m.deeper <;> rfl
    have h := hx m.deeper
    rw [hrun]
    generalize after (x m.deeper) = m' at h
    refine ⟨h.config, ?_, ?_, h.size, h.enclosing, h.others, h.bound⟩
    · have hd := h.depth
      simp only [leave, deeper] at hd ⊢
      omega
    · have hd := h.deepest
      simp only [leave, deeper] at hd ⊢
      omega

theorem confining_catching {x : RunM α} (hx : Confining space x) : Confining space (Fault.catching x) := by
  intro m
  have h := hx m
  unfold Fault.catching
  cases hm : x m with
  | ok a m' => rw [hm] at h; exact h
  | error e m' => rw [hm] at h; cases e <;> exact h

theorem Composed.confining {x : RunM α} (h : Composed space x) : Confining space x := by
  induction h with
  | step hx => exact hx.confining
  | bind _ _ hx hf => exact confining_bind hx hf
  | framed _ hx => exact confining_framed hx
  | catching _ hx => exact confining_catching hx

/-! ## The evaluator -/

/-- All functions of the evaluator. -/
structure Confines (space : SpaceId) (n : Nat) : Prop where
  eval : ∀ form, Confining space (eval n space form)
  evalObject : ∀ r, Confining space (evalObject n space r)
  evalBlock : ∀ link last, Confining space (evalBlock n space link last)
  evalForms : ∀ link results, Confining space (evalForms n space link results)
  evalArguments : ∀ link, Confining space (evalArguments n space link)
  apply : ∀ r link, Confining space (apply n space r link)
  applyCore : ∀ f link, Confining space (applyCore n space f link)
  send : ∀ r selector arguments, Confining space (send n space r selector arguments)
  runProgram : ∀ program, Confining space (runProgram n space program)

theorem confines (space : SpaceId) (n : Nat) : Confines space n := by
  have h := composes space n
  constructor <;> intros
  · exact (h.eval _).confining
  · exact (h.evalObject _).confining
  · exact (h.evalBlock _ _).confining
  · exact (h.evalForms _ _).confining
  · exact (h.evalArguments _).confining
  · exact (h.apply _ _).confining
  · exact (h.applyCore _ _).confining
  · exact (h.send _ _ _).confining
  · exact (h.runProgram _).confining

end ScriptCore
