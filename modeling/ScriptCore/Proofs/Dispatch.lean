import ScriptCore.Eval
import ScriptCore.Proofs.Interning

/-!
# Dispatch

A layer keeps what it declares twice: as a list of names, from which it says whether it declares a selector, and as
a map, in which a call looks for the method. Both are filled by one declaration after the other, and a name may come
again.

Results:
* `MethodLayer.Holds.declare`, `MethodLayer.holds_ofMethods`: the list and the keys of the map stay the declared
  names, each once, in order of first declaration, and the map has the last method of each name.
* `MethodTable.find?_build`: along a chain of types, the nearest layer with the name has the method.
* `send_eq`: a call fails for want of a method if and only if this search does; otherwise it invokes what was found.
* `views_agree`: all of these for every table that declarations can build.
-/
namespace ScriptCore

/-! ## One layer -/

/-- What a type declares, in order. -/
structure Declaration where
  typeName : String
  methods : List Method

namespace Declaration

/-- The layer that comes of a declaration. -/
def layer (d : Declaration) : MethodLayer :=
  .ofMethods d.typeName d.methods

/-- Whether a method of this name is among the declared ones. -/
def Names (d : Declaration) (name : String) : Prop :=
  ∃ method ∈ d.methods, method.name = name

/-- A method is the last one that is declared under the name. -/
def Defines (d : Declaration) (name : String) (method : Method) : Prop :=
  ∃ before later, d.methods = before ++ method :: later ∧ method.name = name ∧ ∀ x ∈ later, x.name ≠ name

end Declaration

namespace MethodLayer

/-- The list and the map of a layer hold what was declared: each name once, in order of first declaration, and under a
name the last method. -/
structure Holds (l : MethodLayer) (methods : List Method) : Prop where
  zone_eq : l.zone = (methods.map Method.name).eraseDups
  keys_eq : l.methods.keys = l.zone
  find?_eq : ∀ name, l.methods.find? name = methods.reverse.find? fun m => m.name = name

theorem Holds.declare {l : MethodLayer} {methods : List Method} (h : l.Holds methods) (m : Method) :
    (l.declare m).Holds (methods ++ [m]) where
  zone_eq := by
    rw [List.map_append, List.map_singleton, eraseDups_concat, MethodLayer.declare, h.zone_eq]
    simp only [List.mem_eraseDups]
  keys_eq := by
    have hkeys := h.keys_eq
    simp only [MethodLayer.declare, Dict.insert, Dict.keys] at hkeys ⊢
    rw [Dict.keys_put, hkeys]
  find?_eq name := by
    rw [List.reverse_concat, List.find?_cons, MethodLayer.declare, Dict.find?_insert, h.find?_eq]
    by_cases hname : m.name = name
    · simp [hname]
    · simp [hname, Ne.symm hname]

theorem holds_ofMethods (typeName : String) (methods : List Method) : (ofMethods typeName methods).Holds methods := by
  -- From the end, since a later declaration is made in the layer that the earlier ones have filled.
  induction methods using List.reverseRecOn with
  | nil => exact ⟨rfl, rfl, fun _ => rfl⟩
  | append_singleton methods m ih =>
    rw [ofMethods, List.foldl_append]
    exact ih.declare m

end MethodLayer

namespace Declaration

theorem holds_layer (d : Declaration) : d.layer.Holds d.methods :=
  MethodLayer.holds_ofMethods d.typeName d.methods

theorem find?_layer (d : Declaration) (name : String) (method : Method) :
    d.layer.find? (.named name) = some method ↔ d.Defines name method := by
  rw [MethodLayer.find?, d.holds_layer.find?_eq, List.find?_eq_some_iff_append]
  constructor
  · rintro ⟨hname, later, before, hsplit, hlater⟩
    refine ⟨before.reverse, later.reverse, ?_, by simpa using hname, fun x hx => ?_⟩
    · simpa using congrArg List.reverse hsplit
    · simpa using hlater x (List.mem_reverse.mp hx)
  · rintro ⟨before, later, hsplit, hname, hlater⟩
    refine ⟨by simpa using hname, later.reverse, before.reverse, by simp [hsplit], fun x hx => ?_⟩
    simpa using hlater x (List.mem_reverse.mp hx)

theorem find?_layer_eq_none (d : Declaration) (name : String) : d.layer.find? (.named name) = none ↔ ¬ d.Names name := by
  rw [MethodLayer.find?, d.holds_layer.find?_eq, List.find?_eq_none]
  simp [Names]

theorem declares_layer (d : Declaration) (q : Selector) : d.layer.declares q = (d.layer.find? q).isSome := by
  cases q with
  | unnamed => rfl
  | named name =>
    rw [Bool.eq_iff_iff, Option.isSome_iff_ne_none, Ne, find?_layer_eq_none, not_not, MethodLayer.declares,
      d.holds_layer.zone_eq, List.contains_iff_mem, List.mem_eraseDups, List.mem_map]
    rfl

end Declaration

/-! ## A chain of layers -/

namespace MethodTable

/-- The table of a type whose ancestors are declared as given, nearest first. -/
def build (d : Declaration) : List Declaration → MethodTable
  | [] => .extending none d.typeName d.methods
  | parent :: rest => .extending (some (build parent rest)) d.typeName d.methods

theorem layer_build (d : Declaration) (ancestors : List Declaration) : (build d ancestors).layer = d.layer := by
  cases ancestors <;> rfl

theorem ancestors_build (d : Declaration) (ancestors : List Declaration) :
    (build d ancestors).ancestors = ancestors.map Declaration.layer := by
  induction ancestors generalizing d with
  | nil => rfl
  | cons parent rest ih => simp only [build, extending, layer_build, ih, List.map_cons]

theorem find?_build_unnamed (d : Declaration) (ancestors : List Declaration) (id : UInt32) :
    (build d ancestors).find? (.unnamed id) = none := by
  simp [find?, MethodLayer.find?]

theorem find?_build (d : Declaration) (ancestors : List Declaration) (name : String) (l : MethodLayer)
    (method : Method) : (build d ancestors).find? (.named name) = some (l, method) ↔
      ∃ nearer owner farther, d :: ancestors = nearer ++ owner :: farther ∧ (∀ x ∈ nearer, ¬ x.Names name) ∧
        l = owner.layer ∧ owner.Defines name method := by
  rw [find?, chain, layer_build, ancestors_build, ← List.map_cons, List.findSome?_map, List.findSome?_eq_some_iff]
  constructor
  · rintro ⟨nearer, owner, farther, hsplit, hfound, hnearer⟩
    obtain ⟨m, hm, heq⟩ := Option.map_eq_some_iff.mp hfound
    obtain ⟨rfl, rfl⟩ := Prod.mk.inj heq
    refine ⟨nearer, owner, farther, hsplit, fun x hx => ?_, rfl, (owner.find?_layer name m).mp hm⟩
    exact (x.find?_layer_eq_none name).mp (Option.map_eq_none_iff.mp (hnearer x hx))
  · rintro ⟨nearer, owner, farther, hsplit, hnearer, rfl, hdefines⟩
    refine ⟨nearer, owner, farther, hsplit, ?_, fun x hx => ?_⟩
    · exact Option.map_eq_some_iff.mpr ⟨method, (owner.find?_layer name method).mpr hdefines, rfl⟩
    · exact Option.map_eq_none_iff.mpr ((x.find?_layer_eq_none name).mpr (hnearer x hx))

theorem declares_build (d : Declaration) (ancestors : List Declaration) (q : Selector) :
    (build d ancestors).declares q true = ((build d ancestors).find? q).isSome := by
  rw [Bool.eq_iff_iff, find?, chain, List.findSome?_isSome_iff, declares, layer_build, ancestors_build]
  simp [Declaration.declares_layer]

end MethodTable

/-! ## Calls -/

/-- Calls a method that was found: its body runs if the number of arguments is right. -/
def Method.invoke (n : Nat) (space : SpaceId) (receiver : Ref) (method : Method) (arguments : List Value) :
    RunM Value :=
  if method.arity.accepts arguments.length then
    match method.body with
    | .core m => Machine.onStore (m.run receiver arguments)
    | .native run => runProgram n space (run receiver arguments)
  else Machine.fail (.arity method.name method.arity arguments.length)

theorem send_eq (n : Nat) (space : SpaceId) (receiver : Ref) (q : Selector) (arguments : List Value) (m : Machine) :
    send (n + 1) space receiver q arguments m =
      match (m.store.table receiver).find? q with
      | none => .error (.error (.unboundMethod q.display (m.store.typeName receiver))) m
      | some (_, method) => method.invoke n space receiver arguments m := by
  have hask : Machine.ask (·.table receiver) m = .ok (m.store.table receiver) m := rfl
  rw [send, run_bind, hask]
  dsimp only
  cases (m.store.table receiver).find? q with
  | none => rfl
  | some found => rfl

/-- However a chain of types was declared, the list of names and the map of methods agree. A type declares a
selector itself if and only if its own map has it, and a type or an ancestor declares it if and only if the search
finds a method, which is the last one that the nearest declaring type gives under the name. A call fails for want of
a method exactly when the search does, and invokes what is found otherwise. The list has each declared name once, in
order of first declaration. -/
theorem views_agree (d : Declaration) (ancestors : List Declaration) (q : Selector) :
    let t := MethodTable.build d ancestors
    (t.declares q false = true ↔ (t.layer.find? q).isSome) ∧
    (t.declares q true = true ↔ (t.find? q).isSome) ∧
    (∀ (n : Nat) (space : SpaceId) (receiver : Ref) (arguments : List Value) (m : Machine),
      m.store.table receiver = t →
        send (n + 1) space receiver q arguments m =
          match t.find? q with
          | none => .error (.error (.unboundMethod q.display (m.store.typeName receiver))) m
          | some (_, method) => method.invoke n space receiver arguments m) ∧
    (∀ l method, t.find? q = some (l, method) ↔
      ∃ name nearer owner farther, q = .named name ∧ d :: ancestors = nearer ++ owner :: farther ∧
        (∀ x ∈ nearer, ¬ x.Names name) ∧ l = owner.layer ∧ owner.Defines name method) ∧
    t.layer.zone = (d.methods.map Method.name).eraseDups ∧
    t.layer.zone.length = t.layer.methods.size := by
  intro t
  have hlayer : t.layer = d.layer := MethodTable.layer_build d ancestors
  refine ⟨?_, ?_, fun n space receiver arguments m htable => ?_, fun l method => ?_, ?_, ?_⟩
  · simp [MethodTable.declares, hlayer, Declaration.declares_layer]
  · rw [MethodTable.declares_build]
  · rw [send_eq, htable]
  · cases q with
    | unnamed id => simp [t, MethodTable.find?_build_unnamed]
    | named name => simp [t, MethodTable.find?_build]
  · rw [hlayer]
    exact d.holds_layer.zone_eq
  · rw [hlayer, ← d.holds_layer.keys_eq, Dict.keys, List.length_map, Dict.size]

/-- A type that declares `area` twice, with other numbers of arguments, and `sides` in between. -/
def squareMethods : Declaration :=
  ⟨"Square",
    [⟨"area", .exact 1, .core .eql⟩, ⟨"sides", .exact 0, .core .typeName⟩, ⟨"area", .exact 0, .core .typeName⟩]⟩

/-- A type that declares `area` too. -/
def shapeMethods : Declaration :=
  ⟨"Shape", [⟨"area", .exact 0, .core .clone⟩, ⟨"outline", .exact 0, .core .clone⟩]⟩

/-- A machine with one square, which is a shape. -/
def squareMachine : Machine where
  store := { atoms := #[.host { type := { name := "Square", table := .build squareMethods [shapeMethods] } }] }

/-- The second `area` of the nearer type answers; the `outline` of the farther one is found and refuses to copy a
square; and nobody declares `radius`. -/
theorem views_agree_square :
    squareMachine.store.table (.atom ⟨0⟩) = .build squareMethods [shapeMethods] ∧
      (MethodTable.build squareMethods [shapeMethods]).layer.zone = ["area", "sides"] ∧
      (∃ m, send 1 ⟨0⟩ (.atom ⟨0⟩) (.named "area") [] squareMachine = .ok (some (.atom ⟨1⟩)) m) ∧
      send 1 ⟨0⟩ (.atom ⟨0⟩) (.named "outline") [] squareMachine =
        .error (.error (.cloneUnsupported "Square")) squareMachine ∧
      send 1 ⟨0⟩ (.atom ⟨0⟩) (.named "radius") [] squareMachine =
        .error (.error (.unboundMethod "radius" "Square")) squareMachine := by
  have htable : squareMachine.store.table (.atom ⟨0⟩) = .build squareMethods [shapeMethods] := rfl
  obtain ⟨-, -, harea, -, hzone, -⟩ := views_agree squareMethods [shapeMethods] (.named "area")
  obtain ⟨-, -, houtline, -⟩ := views_agree squareMethods [shapeMethods] (.named "outline")
  obtain ⟨-, -, hradius, -⟩ := views_agree squareMethods [shapeMethods] (.named "radius")
  exact ⟨htable, hzone, ⟨_, harea 0 ⟨0⟩ (.atom ⟨0⟩) [] squareMachine htable⟩,
    houtline 0 ⟨0⟩ (.atom ⟨0⟩) [] squareMachine htable, hradius 0 ⟨0⟩ (.atom ⟨0⟩) [] squareMachine htable⟩

end ScriptCore
