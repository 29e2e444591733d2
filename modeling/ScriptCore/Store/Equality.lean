import ScriptCore.Store.List

/-!
# Equality of values

Two values are equal when they are the same object or show the same content. Lists have the same content when
their first cells have the same kind, their chains have the same shape, and their elements are equal one by
one. A pair of cells that is met again while it is being compared counts as equal there, so comparing ends on
every structure. The pairs that are being compared are the state of the comparison.
-/
namespace ScriptCore

/-- Comparing, with the pairs of cells that are being compared. -/
abbrev CompareM := StateM (List (CellId × CellId))

/-- Whether two host types are the same type of records. -/
def HostType.sameRecord (t u : HostType) : Bool :=
  t.record.isSome && t.record = u.record && t.name = u.name

namespace Store

/-- Whether two values are equal. Each level of nesting takes one of the first argument. -/
def compare (s : Store) : Nat → Value → Value → CompareM Bool
  | _, none, none => return true
  | _, none, some _ => return false
  | _, some _, none => return false
  | 0, some r, some q => return r = q
  | n + 1, some r, some q => do
    if r = q then
      return true
    match r, q with
    | .cell c, .cell d =>
      if (s.cell c).kind ≠ (s.cell d).kind then
        return false
      if (c, d) ∈ (← get) then
        return true
      modify ((c, d) :: ·)
      let same ←
        if s.extent c = s.extent d then
          ((s.elements c).zip (s.elements d)).allM fun p => s.compare n p.1 p.2
        else
          pure false
      modify (·.erase (c, d))
      return same
    | .atom a, .atom b =>
      match s.atom a, s.atom b with
      | .datum x, .datum y => return x = y
      | .host g, .host h =>
        if g.type.sameRecord h.type && g.fields.length = h.fields.length then
          (g.fields.zip h.fields).allM fun
            | (.item i, .item j) => return i = j
            | (.value v, .value w) => s.compare n v w
            | _ => return false
        else
          return false
      | _, _ => return false
    | _, _ => return false

/-- More levels of nesting than comparing can reach: no pair of cells is open twice, and between two pairs of
cells no pair of atoms comes twice. -/
def compareDepth (s : Store) : Nat :=
  (s.cells.size * s.cells.size + 1) * (s.atoms.size * s.atoms.size + 1) + 1

/-- Whether two values are equal. -/
def equal (s : Store) (v w : Value) : Bool :=
  ((s.compare s.compareDepth v w).run []).1

end Store

end ScriptCore
