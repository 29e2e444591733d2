import ScriptCore.Proofs.Fuel
import ScriptCore.Proofs.RoundTrip
import ScriptCore.Proofs.Simulation

/-!
# The meaning of programs that were written

A form that was written and read back means what it meant (`eval_read_written`): its evaluation ends if and only if
that of the original does, and then with the same fault or with an equal result, and with equal bindings. The
spaces may bind anything, as long as the native functions in it are the core forms.

Values are compared in one store, while two evaluations that begin in the same state end in different ones. So each
of them may begin with further objects in its store: both with those that reading has made, which is one state, or
the second with those that the first has made. Results and bindings are built alike in either case, and in the latter
they are found equal.
-/
namespace ScriptCore

open Machine Store

/-- A space and those around it, nearest first. -/
def Spaces.visible (s : Spaces) (space : SpaceId) : List SpaceId :=
  space :: (s.space space).enclosing

namespace Machine

/-- The object is bound in a visible space, or can be reached from one that is. -/
def InScope (m : Machine) (space : SpaceId) (r : Ref) : Prop :=
  ∃ i ∈ m.spaces.visible space, ∃ name v, m.spaces.findHere? i name = some v ∧ m.store.Reaches v r

/-- What is in scope exists, and the native functions in scope are core forms. -/
structure CoreScope (m : Machine) (space : SpaceId) : Prop where
  has : ∀ r, m.InScope space r → m.store.Has r
  core : ∀ a b, m.InScope space (.atom a) → m.store.atom a = .builtin b → ∃ f, b.body = .core f

/-- Values of two states are built alike, down to the same data and the same objects of `K`. They are equal, where
they can be compared: if what is in the store of the first state is in that of the second too. -/
structure SameValue (K : Ref → Prop) (a b : Machine) (v w : Value) : Prop where
  alike : Alike a.store b.store K .first v w
  equal : a.store.Extends b.store → b.store.equal v w = true

/-- Two states bind the same names to the same values. -/
def SameBindings (K : Ref → Prop) (ids : List SpaceId) (a b : Machine) : Prop :=
  ∀ i ∈ ids, ∀ name, Option.Rel (SameValue K a b) (a.spaces.findHere? i name) (b.spaces.findHere? i name)

/-- Two runs, from `a` and from `b`, end with the same fault or with the same result, and with the same bindings.
Neither has changed an object that was there before. -/
inductive EndAlike (K : Ref → Prop) (ids : List SpaceId) (a b : Machine) :
    EStateM.Result Fault Machine Value → EStateM.Result Fault Machine Value → Prop
  | ok {v w : Value} {a' b' : Machine} (left : a.store.Extends a'.store) (right : b.store.Extends b'.store)
      (result : SameValue K a' b' v w) (bindings : SameBindings K ids a' b') : EndAlike K ids a b (.ok v a') (.ok w b')
  | error {e : Fault} {a' b' : Machine} (left : a.store.Extends a'.store) (right : b.store.Extends b'.store)
      (bindings : SameBindings K ids a' b') : EndAlike K ids a b (.error e a') (.error e b')

end Machine

section Outcomes

variable {base : Store} {K : Ref → Prop} {space : SpaceId} {around : List SpaceId} {a b : Machine} {v w : Value}

theorem sameValue_of_alike (h : Alike a.store b.store K .first v w) : SameValue K a b v w :=
  ⟨h, fun hab => equal_of_alike (h.extend hab (.refl _))⟩

theorem Sync.sameBindings (h : Sync base K space around a b) : SameBindings K (space :: around) a b :=
  fun i hi name => rel_imp (h.bound i hi name) fun _ _ => sameValue_of_alike

theorem Agree.endAlike {result result' : EStateM.Result Fault Machine Value}
    (h : Agree base K space around (Alike · · K .first) a b result result') :
    EndAlike K (space :: around) a b result result' := by
  cases h with
  | ok sync left right hv => exact .ok left right (sameValue_of_alike hv) sync.sameBindings
  | error sync left right => exact .error left right sync.sameBindings

theorem Agree.exhausted_iff {α : Type} {R : Store → Store → α → α → Prop}
    {result result' : EStateM.Result Fault Machine α} (h : Agree base K space around R a b result result') :
    (∀ m, result ≠ .error .exhausted m) ↔ ∀ m, result' ≠ .error .exhausted m := by
  cases h with
  | ok => simp
  | error => simp

/-- Runs that agree whatever the fuel end both or neither, and agree in how they end. -/
theorem finishes_of_agree {R : Store → Store → Value → Value → Prop}
    (h : ∀ n, Agree base K space around R a b (eval n space v a) (eval n space w b)) :
    ((∃ result, Finishes a space v result) ↔ ∃ result, Finishes b space w result) ∧
    ∀ result result', Finishes a space v result → Finishes b space w result' →
      Agree base K space around R a b result result' := by
  refine ⟨⟨?_, ?_⟩, ?_⟩
  · rintro ⟨_, ⟨n, rfl⟩, hn⟩
    exact ⟨_, ⟨n, rfl⟩, (h n).exhausted_iff.mp hn⟩
  · rintro ⟨_, ⟨n, rfl⟩, hn⟩
    exact ⟨_, ⟨n, rfl⟩, (h n).exhausted_iff.mpr hn⟩
  · rintro _ result' ⟨⟨n, rfl⟩, hn⟩ hb
    -- The second run ends with the fuel of the first too, and there is only one way in which it ends.
    have hb' : Finishes b space w (eval n space w b) := ⟨⟨n, rfl⟩, (h n).exhausted_iff.mp hn⟩
    rw [hb.unique hb']
    exact h n

end Outcomes

section Scope

variable {m : Machine} {space : SpaceId}

theorem Machine.CoreScope.shared (h : m.CoreScope space) : Shared m.store (m.InScope space) := by
  refine ⟨h.has, ?_, h.core⟩
  rintro q r ⟨i, hi, name, v, hv, hq⟩ hqr
  exact ⟨i, hi, name, v, hv, hq.tail hqr⟩

/-- The same state twice, with further objects, where what is in scope is shared. -/
theorem sync_of_inScope (m : Machine) (space : SpaceId) {K : Ref → Prop} (hK : ∀ r, m.InScope space r → K r)
    {s t : Store} (hs : m.store.Extends s) (ht : m.store.Extends t) :
    Sync m.store K space (m.spaces.space space).enclosing { m with store := s } { m with store := t } := by
  refine ⟨hs, ht, rfl, rfl, rfl, rfl, rfl, ?_⟩
  intro i hi name
  show Option.Rel _ (m.spaces.findHere? i name) (m.spaces.findHere? i name)
  cases hv : m.spaces.findHere? i name with
  | none => exact .none
  | some v =>
    cases v with
    | none => exact .some .nil
    | some r => exact .some (.same (hK r ⟨i, hi, name, some r, hv, .refl _ _⟩))

theorem sync_self (m : Machine) (space : SpaceId) {s t : Store} (hs : m.store.Extends s) (ht : m.store.Extends t) :
    Sync m.store (m.InScope space) space (m.spaces.space space).enclosing { m with store := s }
      { m with store := t } :=
  sync_of_inScope m space (fun _ h => h) hs ht

/-- Binding a new native function adds nothing else to the scope. -/
theorem inScope_bind_newAtom (h : m.CoreScope space) {b : Builtin} {r : Ref}
    (hr : InScope { m with
      store := (m.store.newAtom (.builtin b)).2
      spaces := (m.spaces.bind space b.name (some (.atom (m.store.newAtom (.builtin b)).1))).2 } space r) :
    m.InScope space r ∨ r = .atom (m.store.newAtom (.builtin b)).1 := by
  obtain ⟨i, hi, name, v, hv, hr⟩ := hr
  rw [Spaces.visible, Spaces.enclosing_bind] at hi
  rw [Spaces.findHere?_bind] at hv
  split at hv
  · cases hv
    refine .inr (hr.induction (fun q hq => (Option.some.inj hq).symm) ?_)
    -- A native function refers to nothing.
    rintro _ q rfl hq
    cases hq with
    | field ha => rw [atom_newAtom, if_pos rfl] at ha; cases ha
  · have hcovers : m.store.Covers v := fun q hq => h.has q ⟨i, hi, name, v, hv, hq⟩
    exact .inl ⟨i, hi, name, v, hv, ((extends_newAtom _ _).reaches_iff hcovers).mp hr⟩

/-- Core forms may be bound. -/
theorem Machine.CoreScope.install (h : m.CoreScope space) {builtins : List Builtin}
    (hb : ∀ b ∈ builtins, ∃ f, b.body = .core f) : (m.install space builtins).CoreScope space := by
  induction builtins generalizing m with
  | nil => exact h
  | cons b builtins ih =>
    have hext := extends_newAtom m.store (.builtin b)
    refine ih ⟨?_, ?_⟩ fun b' hb' => hb b' (by simp [hb'])
    · intro r hr
      rcases inScope_bind_newAtom h hr with hr | rfl
      · exact hext.has (h.has r hr)
      · exact has_newAtom.mpr (.inr rfl)
    · intro a b' ha hb'
      rcases inScope_bind_newAtom h ha with hr | hr
      · exact h.core a b' hr ((hext.atom (h.has _ hr)).symm.trans hb')
      · cases hr
        rw [atom_newAtom, if_pos rfl] at hb'
        cases hb'
        exact hb b (by simp)

theorem Machine.CoreScope.installCore (h : m.CoreScope space) : (m.installCore space).CoreScope space := by
  refine h.install ?_
  intro b hb
  obtain ⟨f, -, rfl⟩ := List.mem_map.mp hb
  cases f <;> exact ⟨_, rfl⟩

end Scope

/-- A form that was written is read back as one with the same meaning. -/
theorem eval_read_written {r : Registry} (hr : r.HasCore) {m : Machine} {space : SpaceId} {p : Value}
    {bytes : List UInt8} (hscope : m.CoreScope space) (hp : m.store.Covers p) (hplain : m.store.Plain p)
    (hb : m.store.toBytes p = .ok bytes) :
    ∃ p' t, r.ofBytes bytes m.store = .ok p' t ∧ m.store.Extends t ∧
      ∀ s₁ s₂, m.store.Extends s₁ → t.Extends s₂ →
        ((∃ result, Finishes { m with store := s₁ } space p result) ↔
          ∃ result, Finishes { m with store := s₂ } space p' result) ∧
        ∀ result result', Finishes { m with store := s₁ } space p result →
          Finishes { m with store := s₂ } space p' result' →
          EndAlike (m.InScope space) (m.spaces.visible space) { m with store := s₁ } { m with store := s₂ } result
            result' := by
  obtain ⟨x, rs, hx, hfit, hd, rfl⟩ := (toBytes_iff hplain).mp hb
  obtain ⟨p', t, hread, hmt, hbuilt⟩ := ofBytes_encode hr hfit hd m.store
  refine ⟨p', t, hread, hmt, ?_⟩
  intro s₁ s₂ hs₁ hs₂
  obtain ⟨qs, hx', -, hnew⟩ := hbuilt.mono (.refl _) hs₂
  have halike : Alike s₁ s₂ (m.InScope space) .first p p' := by
    refine .of_unfolds (hx.extend hp hs₁) hx' ?_ fun r hr => (hnew r hr).2
    exact fun r hr => hs₁.has (hp r (hx.reaches hr))
  have hsync := sync_self m space hs₁ (hmt.trans hs₂)
  obtain ⟨hends, hagree⟩ := finishes_of_agree fun n => (simulates hscope.shared space _ n).eval hsync halike
  exact ⟨hends, fun result result' h h' => (hagree result result' h h').endAlike⟩

/-- A machine with the core forms and the program `(const x (list 1 1))`, in which both numbers are one object. -/
def definingMachine : Machine :=
  { store :=
      { cells := #[{ car := some (.atom ⟨0⟩), cdr := some ⟨1⟩ }, { car := some (.atom ⟨1⟩), cdr := some ⟨2⟩ },
          { car := some (.cell ⟨3⟩) }, { car := some (.atom ⟨2⟩), cdr := some ⟨4⟩ },
          { car := some (.atom ⟨3⟩), cdr := some ⟨5⟩ }, { car := some (.atom ⟨3⟩) }]
        atoms := #[.datum (.symbol "const"), .datum (.symbol "x"), .datum (.symbol "list"), .datum (.integer 1)] }
    spaces := ⟨#[{}]⟩ : Machine }.installCore ⟨0⟩

/-- The program means the same when it has been read back: both define a list of two numbers. -/
theorem eval_read_written_define :
    ∃ bytes p' t v a w b, definingMachine.store.toBytes (some (.cell ⟨0⟩)) = .ok bytes ∧
      Registry.core.ofBytes bytes definingMachine.store = .ok p' t ∧
      Finishes { definingMachine with store := t } ⟨0⟩ (some (.cell ⟨0⟩)) (.ok v a) ∧
      Finishes { definingMachine with store := a.store } ⟨0⟩ p' (.ok w b) ∧
      a.store.Extends b.store ∧ b.store.equal v w = true ∧
      SameBindings (definingMachine.InScope ⟨0⟩) [⟨0⟩] a b := by
  have hscope : definingMachine.CoreScope ⟨0⟩ := by
    refine CoreScope.installCore ⟨?_, ?_⟩
    · rintro r ⟨i, hi, name, v, hv, -⟩
      obtain rfl := List.mem_singleton.mp hi
      cases hv
    · rintro a b ⟨i, hi, name, v, hv, -⟩
      obtain rfl := List.mem_singleton.mp hi
      cases hv
  have hconst : definingMachine.store.atom ⟨0⟩ = .datum (.symbol "const") := rfl
  have hx : definingMachine.store.atom ⟨1⟩ = .datum (.symbol "x") := rfl
  have hlist : definingMachine.store.atom ⟨2⟩ = .datum (.symbol "list") := rfl
  have hone : definingMachine.store.atom ⟨3⟩ = .datum (.integer 1) := rfl
  have hform : definingMachine.store.Unfolds (p := .first) (some (.cell ⟨0⟩)) _ _ :=
    .cell (.leaf hconst) (.cell (.leaf hx) (.cell (.cell (.leaf hlist) (.cell (.leaf hone) (.cell (.leaf hone) .nil)))
      .nil))
  have hcovers : definingMachine.store.Covers (some (.cell ⟨0⟩)) := hform.covers (by decide)
  have hcore : definingMachine.store.Core (some (.cell ⟨0⟩)) := fun _ ha => hform.data ha
  have hb := (toBytes_iff hcore.plain).mpr
    ⟨_, _, hform, by simp only [Tree.Fits, Datum.item, Wire.Item.Fits]; decide, by decide, rfl⟩
  obtain ⟨v, a, hrun⟩ : ∃ v a, eval 20 ⟨0⟩ (some (.cell ⟨0⟩)) definingMachine = .ok v a := ⟨_, _, rfl⟩
  have hends : Finishes definingMachine ⟨0⟩ (some (.cell ⟨0⟩)) (.ok v a) := ⟨⟨20, hrun⟩, by simp⟩
  obtain ⟨p', t, hread, hmt, hmeaning⟩ := eval_read_written Registry.hasCore_core hscope hcovers hcore.plain hb
  obtain ⟨result, hresult⟩ := (hmeaning _ t (.refl _) (.refl t)).1.mp ⟨_, hends⟩
  cases (hmeaning _ t (.refl _) (.refl t)).2 _ _ hends hresult
  obtain ⟨result, hleft⟩ := (hmeaning t t hmt (.refl t)).1.mpr ⟨_, hresult⟩
  cases (hmeaning t t hmt (.refl t)).2 _ _ hleft hresult with
  | ok left =>
    obtain ⟨result, hright⟩ := (hmeaning t _ hmt left).1.mp ⟨_, hleft⟩
    cases (hmeaning t _ hmt left).2 _ _ hleft hright with
    | ok _ right result bindings =>
      exact ⟨_, p', t, _, _, _, _, hb, hread, hleft, hright, right, result.equal right, bindings⟩

end ScriptCore
