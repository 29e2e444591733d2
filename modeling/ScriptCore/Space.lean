import ScriptCore.Dict
import ScriptCore.Store.Describe

/-!
# Name spaces

A space binds names to values and may lie inside another one. A name is looked up in the space itself and then
in the enclosing ones, nearest first; bindings are always made in the space itself. A binding to nil is a
binding. Names may be of any type that can be compared; those of an engine are texts.
-/
namespace ScriptCore

/-- Identity of a space. -/
structure SpaceId where
  index : Nat
  deriving DecidableEq, Repr

/-- A space: the spaces around it, nearest first, and its own bindings. -/
structure Space (κ : Type := String) where
  enclosing : List SpaceId := []
  bindings : Dict κ Value := {}

/-- All spaces of an engine. -/
structure Spaces (κ : Type := String) where
  spaces : Array (Space κ) := #[]

namespace Spaces

variable {κ : Type}

/-- The space with the given identity; an empty one for an identity that was never given out. -/
def space (s : Spaces κ) (id : SpaceId) : Space κ :=
  s.spaces.getD id.index {}

/-- Makes a space. -/
def add (s : Spaces κ) (space : Space κ) : SpaceId × Spaces κ :=
  (⟨s.spaces.size⟩, ⟨s.spaces.push space⟩)

/-- Makes a space that lies in no other. -/
def newRoot (s : Spaces κ) : SpaceId × Spaces κ :=
  s.add {}

/-- Makes a space inside another one. -/
def newChild (s : Spaces κ) (parent : SpaceId) : SpaceId × Spaces κ :=
  s.add { enclosing := parent :: (s.space parent).enclosing }

/-- Changes the bindings of the space itself. -/
def modify (s : Spaces κ) (id : SpaceId) (f : Dict κ Value → Dict κ Value) : Spaces κ :=
  ⟨s.spaces.modify id.index fun space => { space with bindings := f space.bindings }⟩

theorem space_add (s : Spaces κ) (x : Space κ) (i : SpaceId) :
    (s.add x).2.space i = if i = ⟨s.spaces.size⟩ then x else s.space i := by
  rcases i with ⟨i⟩
  simp only [add, space, Array.getD_eq_getD_getElem?, Array.getElem?_push, SpaceId.mk.injEq]
  split <;> rfl

/-- A new space binds nothing, as before it was made. -/
theorem bindings_add (s : Spaces κ) (l : List SpaceId) (i : SpaceId) :
    ((s.add { enclosing := l }).2.space i).bindings = (s.space i).bindings := by
  rw [space_add]
  split
  · next hi => simp [hi, space]
  · rfl

theorem space_modify (s : Spaces κ) (id : SpaceId) (f : Dict κ Value → Dict κ Value) (i : SpaceId) :
    (s.modify id f).space i = if i = id ∧ id.index < s.spaces.size then
      { s.space i with bindings := f (s.space i).bindings } else s.space i := by
  rcases id with ⟨k⟩; rcases i with ⟨j⟩
  simp only [modify, space, Array.getD_eq_getD_getElem?, Array.getElem?_modify, SpaceId.mk.injEq]
  by_cases hjk : k = j
  · subst hjk
    by_cases hk : k < s.spaces.size <;> simp [hk]
  · simp [hjk, Ne.symm hjk]

theorem enclosing_modify (s : Spaces κ) (id : SpaceId) (f : Dict κ Value → Dict κ Value) (i : SpaceId) :
    ((s.modify id f).space i).enclosing = (s.space i).enclosing := by
  rw [space_modify]
  split <;> rfl

theorem size_modify (s : Spaces κ) (id : SpaceId) (f : Dict κ Value → Dict κ Value) :
    (s.modify id f).spaces.size = s.spaces.size := by
  simp [modify]

variable [DecidableEq κ]

/-- The value bound to a name in the space itself. -/
def findHere? (s : Spaces κ) (id : SpaceId) (name : κ) : Option Value :=
  (s.space id).bindings.find? name

/-- The value bound to a name in the nearest space that binds it. -/
def find? (s : Spaces κ) (id : SpaceId) (name : κ) : Option Value :=
  (id :: (s.space id).enclosing).findSome? fun i => s.findHere? i name

/-- The value bound to a name that must be bound. -/
def lookup [ToString κ] (s : Spaces κ) (id : SpaceId) (name : κ) : Except Error Value :=
  match s.find? id name with
  | some v => .ok v
  | none => .error (.unboundSymbol (toString name))

/-- Whether a name is bound in the space or in one around it. -/
def binds (s : Spaces κ) (id : SpaceId) (name : κ) : Bool :=
  (s.find? id name).isSome

/-- Whether a name is bound in the space itself. -/
def bindsHere (s : Spaces κ) (id : SpaceId) (name : κ) : Bool :=
  (s.space id).bindings.contains name

/-- Binds a name in the space itself. Gives the value that was bound to it there. -/
def bind (s : Spaces κ) (id : SpaceId) (name : κ) (v : Value) : Option Value × Spaces κ :=
  (s.findHere? id name, s.modify id (·.insert name v))

/-- Removes the space's own binding of a name. Gives the value that was bound to it there. -/
def unbind (s : Spaces κ) (id : SpaceId) (name : κ) : Option Value × Spaces κ :=
  (s.findHere? id name, s.modify id (·.erase name))

/-- The number of bindings of the space itself. -/
def size (s : Spaces κ) (id : SpaceId) : Nat :=
  (s.space id).bindings.size

/-- The space directly around a space. -/
def parent? (s : Spaces κ) (id : SpaceId) : Option SpaceId :=
  (s.space id).enclosing.head?

/-- A space as shown in dumps. -/
def describe (s : Spaces κ) (id : SpaceId) : String :=
  describeStruct "Nameset"
    [("bindings", toString (s.size id)), ("has_parent", describeBool (s.parent? id).isSome)]

/-! ## What a binding leaves as it was -/

theorem findHere?_modify (s : Spaces κ) (id : SpaceId) (f : Dict κ Value → Dict κ Value) (i : SpaceId) (name : κ) :
    (s.modify id f).findHere? i name =
      if i = id ∧ id.index < s.spaces.size then (f (s.space i).bindings).find? name else s.findHere? i name := by
  rw [findHere?, space_modify]
  split <;> rfl

theorem space_bind (s : Spaces κ) (id : SpaceId) (name : κ) (v : Value) (i : SpaceId) :
    (s.bind id name v).2.space i = if i = id ∧ id.index < s.spaces.size then
      { s.space i with bindings := (s.space i).bindings.insert name v } else s.space i :=
  space_modify ..

theorem enclosing_bind (s : Spaces κ) (id : SpaceId) (name : κ) (v : Value) (i : SpaceId) :
    ((s.bind id name v).2.space i).enclosing = (s.space i).enclosing :=
  enclosing_modify ..

theorem size_bind (s : Spaces κ) (id : SpaceId) (name : κ) (v : Value) :
    (s.bind id name v).2.spaces.size = s.spaces.size :=
  size_modify ..

theorem findHere?_bind (s : Spaces κ) (id : SpaceId) (name : κ) (v : Value) (i : SpaceId) (other : κ) :
    (s.bind id name v).2.findHere? i other =
      if (i = id ∧ id.index < s.spaces.size) ∧ other = name then some v else s.findHere? i other := by
  rw [bind, findHere?_modify]
  by_cases h : i = id ∧ id.index < s.spaces.size
  · rw [if_pos h, Dict.find?_insert]
    simp only [h, and_self, true_and]
    rfl
  · rw [if_neg h, if_neg (fun k => h k.1)]

end Spaces

end ScriptCore
