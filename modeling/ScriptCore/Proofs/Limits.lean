import ScriptCore.Proofs.Lockstep

/-!
# Limits only cut off

Evaluation is limited in depth and may refuse cyclic chains. Where it ends with neither of the two errors that say so,
the limits have had no part in it: with a greater depth, or without the check for cycles, it ends in the same way
(`eval_unlimited`). The two runs go in lockstep, and a limit that stops the second one stops the first one too.
-/
namespace ScriptCore

open Machine

/-- The errors that limits cause. -/
def Fault.IsLimit : Fault → Prop
  | .error (.stackOverflow _) => True
  | .error .cyclicList => True
  | _ => False

/-- The same state under limits `c` and `d`. -/
structure Loosened (c d : Config) (a b : Machine) : Prop where
  same : b = { a with config := d }
  config : a.config = c
  core : a.store.CoreOnly

section Limits

variable {c d : Config} {a b : Machine}

theorem Loosened.enter (hdepth : c.maxDepth ≤ d.maxDepth) (h : Loosened c d a b) :
    Twin (Loosened c d) Fault.IsLimit (enter a) (enter b) := by
  obtain ⟨rfl, hconfig, hcore⟩ := h
  have hle : a.config.maxDepth.toNat ≤ d.maxDepth.toNat := by
    rw [hconfig]
    exact UInt64.le_iff_toNat_le.mp hdepth
  unfold Machine.enter
  by_cases hlimit : a.config.maxDepth.toNat ≤ a.depth
  · simp only [hlimit, if_true]
    exact .cut trivial
  · have hlimit' : ¬ d.maxDepth.toNat ≤ a.depth := by omega
    simp only [hlimit, hlimit', if_false]
    exact .ok ⟨rfl, hconfig, hcore⟩

theorem Loosened.checkCycle (hdetect : d.detectCycles = true → c.detectCycles = true) (h : Loosened c d a b)
    (i : CellId) : Twin (Loosened c d) Fault.IsLimit (checkCycle i a) (checkCycle i b) := by
  rw [checkCycle_run, checkCycle_run]
  by_cases hcyclic : (a.config.detectCycles && a.store.cyclic i) = true
  · rw [if_pos hcyclic]
    exact .cut trivial
  · have hcyclic' : ¬ (b.config.detectCycles && b.store.cyclic i) = true := by
      obtain ⟨rfl, hconfig, -⟩ := h
      simp only [Bool.and_eq_true, not_and] at hcyclic ⊢
      exact fun hd => hcyclic (by rw [hconfig]; exact hdetect hd)
    rw [if_neg hcyclic, if_neg hcyclic']
    exact .ok h

theorem lockstep_limits (hdepth : c.maxDepth ≤ d.maxDepth) (hdetect : d.detectCycles = true → c.detectCycles = true)
    (space : SpaceId) : Lockstep (Loosened c d) Fault.IsLimit space space where
  store h := by rw [h.same]
  core h := h.core
  withStore h s hs := ⟨by rw [h.same], h.config, hs⟩
  enter h := h.enter hdepth
  leave h := ⟨by rw [h.same]; rfl, h.config, h.core⟩
  checkCycle h i := h.checkCycle hdetect i
  lookup h name := by rw [h.same]
  bind h name v := ⟨by rw [h.same], h.config, h.core⟩

end Limits

/-- An evaluation that no limit stops ends with the same value or error, the same objects and the same bindings under
all looser limits. -/
theorem eval_unlimited {m : Machine} {space : SpaceId} {form : Value} {c : Config} (hcore : m.store.CoreOnly)
    (hdepth : m.config.maxDepth ≤ c.maxDepth) (hdetect : c.detectCycles = true → m.config.detectCycles = true) :
    (∀ v m', Finishes m space form (.ok v m') →
      Finishes { m with config := c } space form (.ok v { m' with config := c })) ∧
    ∀ e m', ¬ e.IsLimit → Finishes m space form (.error e m') →
      Finishes { m with config := c } space form (.error e { m' with config := c }) := by
  have hstart : Loosened m.config c m { m with config := c } := ⟨rfl, rfl, hcore⟩
  have htwin := fun n => (together (lockstep_limits hdepth hdetect space) n).eval hstart form
  constructor
  · rintro v m' ⟨⟨n, hn⟩, -⟩
    have ht := htwin n
    rw [hn] at ht
    generalize hrun : eval n space form { m with config := c } = result at ht
    cases ht with
    | ok h => exact ⟨⟨n, by rw [hrun, h.same]⟩, by simp⟩
  · rintro e m' he ⟨⟨n, hn⟩, hne⟩
    have ht := htwin n
    rw [hn] at ht
    generalize hrun : eval n space form { m with config := c } = result at ht
    cases ht with
    | error h =>
      refine ⟨⟨n, by rw [hrun, h.same]⟩, ?_⟩
      intro m'' heq
      cases heq
      exact hne m' rfl
    | cut h => exact absurd h he

/-- A machine for the form `(list (list))`, which takes three levels of depth. -/
def nestedMachine : Machine where
  store :=
    { cells := #[{ car := some (.atom ⟨0⟩), cdr := some ⟨1⟩ }, { car := some (.cell ⟨2⟩) }, { car := some (.atom ⟨0⟩) }]
      atoms := #[.datum (.symbol "list"), .builtin CoreForm.list.builtin] }
  spaces := ⟨#[{ bindings := ⟨[("list", some (.atom ⟨1⟩))]⟩ }]⟩
  config := { maxDepth := 3 }

/-- Three levels are enough, so more of them and no check make no difference; two are not. -/
theorem eval_unlimited_nested :
    (∃ v m', Finishes nestedMachine ⟨0⟩ (some (.cell ⟨0⟩)) (.ok v m') ∧
      Finishes { nestedMachine with config := ⟨9, false⟩ } ⟨0⟩ (some (.cell ⟨0⟩))
        (.ok v { m' with config := ⟨9, false⟩ })) ∧
    ∃ m', Finishes { nestedMachine with config := { maxDepth := 2 } } ⟨0⟩ (some (.cell ⟨0⟩))
      (.error (.error (.stackOverflow 2)) m') := by
  have hcore : nestedMachine.store.CoreOnly := by
    intro a b hb
    rcases a with ⟨_ | _ | a⟩ <;> simp [nestedMachine, Store.atom] at hb
    exact ⟨.list, by rw [← hb]; rfl⟩
  have hrun : Finishes nestedMachine ⟨0⟩ (some (.cell ⟨0⟩)) (.ok _ _) := ⟨⟨20, rfl⟩, by simp⟩
  refine ⟨⟨_, _, hrun, ?_⟩, ⟨_, ⟨20, rfl⟩, by simp⟩⟩
  exact (eval_unlimited (c := ⟨9, false⟩) hcore (by decide) (by decide)).1 _ _ hrun

end ScriptCore
