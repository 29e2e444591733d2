import ScriptCore.Proofs.Lockstep
import ScriptCore.Proofs.Meaning

/-!
# A child space as an overlay

Evaluating a form in a new child of a space gives what evaluating it in the space itself gives, but the bindings that
are made on the way land in the child, where they hide those of the spaces around it. So nothing outside of the child
changes, and what is seen through the child afterwards is what would be seen in the space (`eval_in_child`).

The two runs go in lockstep: at every moment each name is found with the same value from the child as it is from the
space in the other run.
-/
namespace ScriptCore

open Machine

/-! ## Lookup -/

namespace Spaces

variable {s : Spaces} {id : SpaceId}

theorem findSome?_congr {t : Spaces} {name : String} {ids : List SpaceId}
    (h : ∀ i ∈ ids, t.findHere? i name = s.findHere? i name) :
    (ids.findSome? fun i => t.findHere? i name) = ids.findSome? fun i => s.findHere? i name := by
  induction ids with
  | nil => rfl
  | cons i ids ih =>
    rw [List.findSome?_cons, List.findSome?_cons, h i (by simp), ih fun j hj => h j (by simp [hj])]

theorem find?_bind (h : id.index < s.spaces.size) (name : String) (v : Value) (other : String) :
    (s.bind id name v).2.find? id other = if other = name then some v else s.find? id other := by
  rw [find?, find?, enclosing_bind]
  by_cases ho : other = name
  · rw [List.findSome?_cons, findHere?_bind, if_pos ⟨⟨rfl, h⟩, ho⟩, if_pos ho]
  · rw [if_neg ho]
    refine findSome?_congr fun i _ => ?_
    rw [findHere?_bind, if_neg (fun k => ho k.2)]

theorem lookup_congr {t : Spaces} {id' : SpaceId} {name : String} (h : t.find? id' name = s.find? id name) :
    t.lookup id' name = s.lookup id name := by
  rw [lookup, lookup, h]

/-- A new child changes no other space. -/
theorem space_newChild (s : Spaces) (parent : SpaceId) {i : SpaceId} (hi : i ≠ (s.newChild parent).1) :
    (s.newChild parent).2.space i = s.space i := by
  rw [newChild, space_add]
  exact if_neg hi

theorem space_newChild_self (s : Spaces) (parent : SpaceId) :
    (s.newChild parent).2.space (s.newChild parent).1 = { enclosing := s.visible parent } := by
  rw [newChild, space_add]
  exact if_pos rfl

/-- Through a new child everything is seen that is seen in its parent. -/
theorem find?_newChild {parent : SpaceId} (h : ∀ i ∈ s.visible parent, i.index < s.spaces.size) (name : String) :
    (s.newChild parent).2.find? (s.newChild parent).1 name = s.find? parent name := by
  have hempty : (s.newChild parent).2.findHere? (s.newChild parent).1 name = none := by
    rw [findHere?, space_newChild_self]
    rfl
  rw [find?, List.findSome?_cons, hempty, space_newChild_self]
  refine findSome?_congr fun i hi => ?_
  have hne : i ≠ (s.newChild parent).1 := fun e => Nat.lt_irrefl _ (e ▸ h i hi)
  rw [findHere?, findHere?, space_newChild s parent hne]

end Spaces

/-! ## Two runs -/

/-- The state of a run in `space` and that of a run in `child`: the same but for spaces, and every name is found alike. -/
structure Overlaid (space child : SpaceId) (a b : Machine) : Prop where
  store : b.store = a.store
  core : a.store.CoreOnly
  config : b.config = a.config
  depth : b.depth = a.depth
  hasSpace : space.index < a.spaces.spaces.size
  hasChild : child.index < b.spaces.spaces.size
  find : ∀ name, b.spaces.find? child name = a.spaces.find? space name

section Overlay

variable {space child : SpaceId} {a b : Machine}

theorem Overlaid.withDepth (h : Overlaid space child a b) (d m n : Nat) :
    Overlaid space child { a with depth := d, deepest := m } { b with depth := d, deepest := n } :=
  ⟨h.store, h.core, h.config, rfl, h.hasSpace, h.hasChild, h.find⟩

theorem Overlaid.enter (h : Overlaid space child a b) :
    Twin (Overlaid space child) (fun _ => False) (enter a) (enter b) := by
  unfold Machine.enter
  simp only [h.config, h.depth]
  split
  · exact .error h
  · have hdeeper := h.withDepth (a.depth + 1) (max a.deepest (a.depth + 1)) (max b.deepest (a.depth + 1))
    rw [h.config] at hdeeper
    exact .ok hdeeper

theorem Overlaid.leave (h : Overlaid space child a b) : Overlaid space child a.leave b.leave := by
  have hdepth := h.withDepth (a.depth - 1) a.deepest b.deepest
  unfold Machine.leave
  rw [h.depth]
  exact hdepth

theorem Overlaid.checkCycle (h : Overlaid space child a b) (c : CellId) :
    Twin (Overlaid space child) (fun _ => False) (checkCycle c a) (checkCycle c b) := by
  rw [checkCycle_run, checkCycle_run, h.config, h.store]
  split
  · exact .error h
  · exact .ok h

theorem Overlaid.bind (h : Overlaid space child a b) (name : String) (v : Value) :
    Overlaid space child { a with spaces := (a.spaces.bind space name v).2 }
      { b with spaces := (b.spaces.bind child name v).2 } := by
  refine ⟨h.store, h.core, h.config, h.depth, ?_, ?_, ?_⟩
  · rw [Spaces.size_bind]
    exact h.hasSpace
  · rw [Spaces.size_bind]
    exact h.hasChild
  · intro other
    rw [Spaces.find?_bind h.hasSpace, Spaces.find?_bind h.hasChild, h.find]

theorem lockstep_overlay (space child : SpaceId) : Lockstep (Overlaid space child) (fun _ => False) space child where
  store h := h.store
  core h := h.core
  withStore h _ hs := ⟨rfl, hs, h.config, h.depth, h.hasSpace, h.hasChild, h.find⟩
  enter h := h.enter
  leave h := h.leave
  checkCycle h c := h.checkCycle c
  lookup h name := Spaces.lookup_congr (h.find name)
  bind h name v := h.bind name v

end Overlay

/-- How a run ended, without the state. -/
def outcome {α : Type} : EStateM.Result Fault Machine α → Except Fault α
  | .ok a _ => .ok a
  | .error e _ => .error e

/-- Runs of which none is cut off end alike, in states that are related. -/
theorem Twin.uncut {α : Type} {I : Machine → Machine → Prop} {result result' : EStateM.Result Fault Machine α}
    (h : Twin I (fun _ => False) result result') : outcome result' = outcome result ∧ I (after result) (after result') := by
  cases h with
  | ok h => exact ⟨rfl, h⟩
  | error h => exact ⟨rfl, h⟩
  | cut h => exact h.elim

theorem exhausted_iff {α : Type} {result : EStateM.Result Fault Machine α} :
    outcome result = .error .exhausted ↔ ∃ m, result = .error .exhausted m := by
  cases result <;> simp [outcome]

/-- A state with a new child of a space. -/
def Machine.withChild (m : Machine) (space : SpaceId) : Machine :=
  { m with spaces := (m.spaces.newChild space).2 }

theorem overlaid_withChild {m : Machine} {space : SpaceId} (hcore : m.store.CoreOnly)
    (hspace : ∀ i ∈ m.spaces.visible space, i.index < m.spaces.spaces.size) :
    Overlaid space (m.spaces.newChild space).1 m (m.withChild space) := by
  refine ⟨rfl, hcore, rfl, rfl, hspace space (List.mem_cons_self ..), ?_, Spaces.find?_newChild hspace⟩
  simp [withChild, Spaces.newChild, Spaces.add]

/-- In a new child of a space, a form evaluates to what it evaluates to in the space itself. No other space changes,
every name is found with the same value, and no name is unbound by either run. -/
theorem eval_in_child {m : Machine} {space : SpaceId} {form : Value} (hcore : m.store.CoreOnly)
    (hspace : ∀ i ∈ m.spaces.visible space, i.index < m.spaces.spaces.size)
    {result : EStateM.Result Fault Machine Value} (h : Finishes m space form result) :
    ∃ result', Finishes (m.withChild space) (m.spaces.newChild space).1 form result' ∧
      outcome result' = outcome result ∧ (after result').store = (after result).store ∧
      (∀ i, i ≠ (m.spaces.newChild space).1 → (after result').spaces.space i = m.spaces.space i) ∧
      (∀ name, (after result').spaces.find? (m.spaces.newChild space).1 name =
        (after result).spaces.find? space name) ∧
      (∀ i name, (m.spaces.findHere? i name).isSome → ((after result).spaces.findHere? i name).isSome) ∧
      ∀ i name, ((m.withChild space).spaces.findHere? i name).isSome →
        ((after result').spaces.findHere? i name).isSome := by
  obtain ⟨⟨n, rfl⟩, hne⟩ := h
  have hstart := overlaid_withChild hcore hspace
  have hdirect := (confines space n).eval form m
  have hother : ∀ i, i ≠ (m.spaces.newChild space).1 → (m.withChild space).spaces.space i = m.spaces.space i :=
    fun i hi => Spaces.space_newChild m.spaces space hi
  generalize (m.spaces.newChild space).1 = child at hstart hother ⊢
  have hoverlay := (confines child n).eval form (m.withChild space)
  obtain ⟨houtcome, hend⟩ := ((together (lockstep_overlay space child) n).eval hstart form).uncut
  refine ⟨_, ⟨⟨n, rfl⟩, ?_⟩, houtcome, hend.store, ?_, hend.find, ?_, ?_⟩
  · intro m' hm'
    obtain ⟨m'', hm''⟩ := exhausted_iff.mp (houtcome.symm.trans (exhausted_iff.mpr ⟨m', hm'⟩))
    exact hne m'' hm''
  · exact fun i hi => (hoverlay.others i hi).trans (hother i hi)
  · exact fun i name hb => hdirect.isSome_findHere? hb
  · exact fun i name hb => hoverlay.isSome_findHere? hb

/-- A machine for the form `(const const 7)`. -/
def rebindingMachine : Machine where
  store :=
    { cells := #[{ car := some (.atom ⟨0⟩), cdr := some ⟨1⟩ }, { car := some (.atom ⟨0⟩), cdr := some ⟨2⟩ },
        { car := some (.atom ⟨1⟩) }]
      atoms := #[.datum (.symbol "const"), .datum (.integer 7), .builtin CoreForm.define.builtin] }
  spaces := ⟨#[{ bindings := ⟨[("const", some (.atom ⟨2⟩))]⟩ }]⟩

/-- Evaluated in a child, the form hides the core form `const` there and leaves it as it is outside. -/
theorem eval_in_child_rebinding :
    ∃ m', Finishes (rebindingMachine.withChild ⟨0⟩) ⟨1⟩ (some (.cell ⟨0⟩)) (.ok (some (.atom ⟨1⟩)) m') ∧
      m'.spaces.find? ⟨1⟩ "const" = some (some (.atom ⟨1⟩)) ∧
      m'.spaces.find? ⟨0⟩ "const" = some (some (.atom ⟨2⟩)) := by
  have hcore : rebindingMachine.store.CoreOnly := by
    intro a b hb
    rcases a with ⟨_ | _ | _ | a⟩ <;> simp [rebindingMachine, Store.atom] at hb
    exact ⟨.define, by rw [← hb]; rfl⟩
  have hspace : ∀ i ∈ rebindingMachine.spaces.visible ⟨0⟩, i.index < rebindingMachine.spaces.spaces.size := by
    intro i hi
    obtain rfl := List.mem_singleton.mp hi
    decide
  have hrun : Finishes rebindingMachine ⟨0⟩ (some (.cell ⟨0⟩)) (.ok (some (.atom ⟨1⟩)) _) := ⟨⟨20, rfl⟩, by simp⟩
  obtain ⟨result, hchild, houtcome, -, hothers, hfind, -⟩ := eval_in_child hcore hspace hrun
  cases result with
  | error e m' => cases houtcome
  | ok v m' =>
    cases houtcome
    refine ⟨m', hchild, hfind "const", ?_⟩
    have hzero : m'.spaces.space ⟨0⟩ = rebindingMachine.spaces.space ⟨0⟩ := hothers ⟨0⟩ (by decide)
    rw [Spaces.find?, List.findSome?_cons, Spaces.findHere?, hzero]
    rfl

end ScriptCore
