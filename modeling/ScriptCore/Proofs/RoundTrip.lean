import ScriptCore.Proofs.Equality
import ScriptCore.Proofs.Reader

/-!
# Values read back

A value of the core types that has been written is read back, whatever follows its bytes, as a copy of its own:
equal to the value, of the same shape and kinds, and made of new objects none of which is shared. With the core
family alone nothing is accepted but the bytes of such values.

* `deserialize_written`: one value, and any sequence of values, out of a stream.
* `ofBytes_accepts_canonical`: what bytes are accepted, and that each value has one spelling.
-/
namespace ScriptCore

open Wire Wire.Source

namespace Store

variable {s t u : Store} {v w : Value}

/-- `w` is a copy of `v` that was made between `s` and `t`: both unfold to one tree, so they have the same shape
and the same kinds cell by cell, `w` does so through new and different objects, and the two are equal. -/
structure Copied (s t : Store) (v w : Value) : Prop where
  tree : ∃ (x : Tree .first) (rs : List Ref), s.Unfolds v x rs ∧ s.Built t w x
  equal : t.equal v w = true

theorem copied_of_built {x : Tree .first} {rs : List Ref} (hst : s.Extends t) (hv : s.Covers v)
    (hx : s.Unfolds v x rs) (hw : s.Built t w x) : Copied s t v w := by
  refine ⟨⟨x, rs, hx, hw⟩, ?_⟩
  obtain ⟨qs, hq, -, hnew⟩ := hw
  refine equal_of_unfolds (hx.extend hv hst) hq ?_ ?_
  · exact fun r hr => hst.has (hv r (hx.reaches hr))
  · exact fun r hr => (hnew r hr).2

/-- What was built between two stores was built between an earlier and a later one. -/
theorem Built.mono {s' t' : Store} {x : Tree .first} (hs : s'.Extends s) (h : s.Built t w x) (ht : t.Extends t') :
    s'.Built t' w x := by
  obtain ⟨rs, hx, hn, hnew⟩ := h
  refine ⟨rs, hx.congr fun r hr => (ht r (hnew r hr).2).2, hn, fun r hr => ⟨?_, ht.has (hnew r hr).2⟩⟩
  exact fun hr' => (hnew r hr).1 (hs.has hr')

theorem Built.toBytes {x : Tree .first} (h : s.Built t v x) (hfit : x.Fits) (hd : x.depth ≤ maxNesting) :
    t.toBytes v = .ok x.encode := by
  obtain ⟨rs, hx, -, -⟩ := h
  have hcore : t.Core v := fun a ha => hx.data ha
  exact (toBytes_iff hcore.plain).mpr ⟨x, rs, hx, hfit, hd, rfl⟩

end Store

open Store

/-- Reads values one after another. -/
def Registry.deserializeMany (r : Registry) : Nat → LoadM (List Value)
  | 0 => return []
  | n + 1 => do
    let v ← r.deserialize
    return v :: (← r.deserializeMany n)

/-- A value that was written is read back, also when other objects have been made in the meantime. -/
theorem deserialize_of_toBytes {r : Registry} (hr : r.HasCore) {s u : Store} (hsu : s.Extends u) {v : Value}
    {bytes : List UInt8} (hv : s.Covers v) (hc : s.Core v) (hb : s.toBytes v = .ok bytes) {source source' : Source}
    (hs : source.Reads bytes source') :
    ∃ w t, r.deserialize ⟨⟨u, source⟩, 0⟩ = .ok w ⟨⟨t, source'⟩, 0⟩ ∧ u.Extends t ∧ Copied s t v w ∧
      t.toBytes w = .ok bytes := by
  obtain ⟨x, rs, hx, hfit, hd, rfl⟩ := (toBytes_iff hc.plain).mp hb
  obtain ⟨w, t, hrun, hut, hw⟩ := builds_readValue hr (n := maxNesting) (d := 0) hfit hd (Nat.le_refl _) u _ _ hs
  exact ⟨w, t, hrun, hut, copied_of_built (hsu.trans hut) hv hx (Built.mono hsu hw (.refl t)), hw.toBytes hfit hd⟩

theorem deserializeMany_of_toBytes {r : Registry} (hr : r.HasCore) {s u : Store} (hsu : s.Extends u)
    {items : List (Value × List UInt8)}
    (hitems : ∀ i ∈ items, s.Covers i.1 ∧ s.Core i.1 ∧ s.toBytes i.1 = .ok i.2) {source source' : Source}
    (hs : source.Reads (items.map Prod.snd).flatten source') :
    ∃ ws t, r.deserializeMany items.length ⟨⟨u, source⟩, 0⟩ = .ok ws ⟨⟨t, source'⟩, 0⟩ ∧ u.Extends t ∧
      List.Forall₂ (fun i w => Copied s t i.1 w) items ws := by
  induction items generalizing u source with
  | nil =>
    obtain rfl := reads_nil.mp hs
    exact ⟨[], u, rfl, .refl u, .nil⟩
  | cons i items ih =>
    rw [List.map_cons, List.flatten_cons] at hs
    obtain ⟨source₁, hfirst, hrest⟩ := reads_append.mp hs
    obtain ⟨hv, hc, hb⟩ := hitems i (by simp)
    obtain ⟨w, u₁, hrun, hu₁, hw, -⟩ := deserialize_of_toBytes hr hsu hv hc hb hfirst
    obtain ⟨ws, t, hruns, ht, hws⟩ := ih (hsu.trans hu₁) (fun j hj => hitems j (by simp [hj])) hrest
    obtain ⟨x, rs, hx, hbuilt⟩ := hw.tree
    have hcopied := copied_of_built (hsu.trans (hu₁.trans ht)) hv hx (Built.mono (.refl s) hbuilt ht)
    refine ⟨w :: ws, t, ?_, hu₁.trans ht, .cons hcopied hws⟩
    simp only [List.length_cons, Registry.deserializeMany, run_bind, hrun, hruns]
    rfl

/-- A written value is read back out of a stream, and what stands behind it is left there. So are several
values that were written one after another. -/
theorem deserialize_written {s : Store} {r : Registry} (hr : r.HasCore) (source : Source) (rest : List UInt8) :
    (∀ v bytes, s.Covers v → s.Core v → s.toBytes v = .ok bytes → source.rest = bytes ++ rest →
      ∃ w t source', r.deserialize ⟨⟨s, source⟩, 0⟩ = .ok w ⟨⟨t, source'⟩, 0⟩ ∧
        source' = source.advance bytes.length ∧ source'.rest = rest ∧
        s.Extends t ∧ Copied s t v w ∧ t.toBytes w = .ok bytes) ∧
    (∀ items : List (Value × List UInt8), (∀ i ∈ items, s.Covers i.1 ∧ s.Core i.1 ∧ s.toBytes i.1 = .ok i.2) →
      source.rest = (items.map Prod.snd).flatten ++ rest →
      ∃ ws t source', r.deserializeMany items.length ⟨⟨s, source⟩, 0⟩ = .ok ws ⟨⟨t, source'⟩, 0⟩ ∧
        source'.rest = rest ∧ s.Extends t ∧ List.Forall₂ (fun i w => Copied s t i.1 w) items ws) := by
  have hadvance : ∀ bytes : List UInt8, source.rest = bytes ++ rest →
      (source.advance bytes.length).rest = rest := by
    intro bytes h
    rw [advance, h, List.drop_left]
  constructor
  · intro v bytes hv hc hb hrest
    obtain ⟨w, t, hrun, hst, hw, hbytes⟩ := deserialize_of_toBytes hr (.refl s) hv hc hb (reads_of_rest hrest)
    exact ⟨w, t, _, hrun, rfl, hadvance bytes hrest, hst, hw, hbytes⟩
  · intro items hitems hrest
    obtain ⟨ws, t, hrun, hst, hws⟩ := deserializeMany_of_toBytes hr (.refl s) hitems (reads_of_rest hrest)
    exact ⟨ws, t, _, hrun, hadvance _ hrest, hst, hws⟩

/-- A block of two cells that share an atom. -/
def sharingBlock : Store where
  cells := #[{ kind := .block, car := some (.atom ⟨0⟩), cdr := some ⟨1⟩ }, { car := some (.atom ⟨0⟩) }]
  atoms := #[.datum (.boolean true)]

/-- The block is read back from a stream that holds it and its tail in front of another byte. -/
theorem deserialize_written_block :
    let bytes : List UInt8 := [0, 1, 0, 0, 1, 0, 1, 0, 2, 1, 0, 1, 0, 0, 0, 0, 1, 0, 2, 1, 0, 0, 255, 255]
    let tail : List UInt8 := [0, 1, 0, 0, 0, 0, 1, 0, 2, 1, 0, 0, 255, 255]
    sharingBlock.toBytes (some (.cell ⟨0⟩)) = .ok bytes ∧ sharingBlock.toBytes (some (.cell ⟨1⟩)) = .ok tail ∧
    (∃ w t source', Registry.core.deserialize ⟨⟨sharingBlock, .ofBytes .cursor (bytes ++ (tail ++ [7]))⟩, 0⟩ =
        .ok w ⟨⟨t, source'⟩, 0⟩ ∧ source'.rest = tail ++ [7] ∧ Copied sharingBlock t (some (.cell ⟨0⟩)) w) ∧
    ∃ ws t source', Registry.core.deserializeMany 2 ⟨⟨sharingBlock, .ofBytes .cursor (bytes ++ (tail ++ [7]))⟩, 0⟩ =
        .ok ws ⟨⟨t, source'⟩, 0⟩ ∧ source'.rest = [7] ∧ ws.length = 2 := by
  intro bytes tail
  have hatom : sharingBlock.atom ⟨0⟩ = .datum (.boolean true) := rfl
  have htail : sharingBlock.Unfolds (p := .first) (some (.cell ⟨1⟩)) _ _ := .cell (.leaf hatom) .nil
  have hblock : sharingBlock.Unfolds (p := .first) (some (.cell ⟨0⟩)) _ _ :=
    .cell (.leaf hatom) (.cell (.leaf hatom) .nil)
  have hb : sharingBlock.toBytes (some (.cell ⟨0⟩)) = .ok bytes := by decide +kernel
  have ht : sharingBlock.toBytes (some (.cell ⟨1⟩)) = .ok tail := by decide +kernel
  have hcover : sharingBlock.Covers (some (.cell ⟨0⟩)) := hblock.covers (by simp [Has, sharingBlock])
  have htcover : sharingBlock.Covers (some (.cell ⟨1⟩)) := htail.covers (by simp [Has, sharingBlock])
  have hcore : sharingBlock.Core (some (.cell ⟨0⟩)) := fun _ ha => hblock.data ha
  have htcore : sharingBlock.Core (some (.cell ⟨1⟩)) := fun _ ha => htail.data ha
  refine ⟨hb, ht, ?_, ?_⟩
  · obtain ⟨w, t, source', hrun, -, hrest, -, hw, -⟩ :=
      (deserialize_written Registry.hasCore_core (.ofBytes .cursor (bytes ++ (tail ++ [7]))) (tail ++ [7])).1
        _ _ hcover hcore hb rfl
    exact ⟨w, t, source', hrun, hrest, hw⟩
  · obtain ⟨ws, t, source', hrun, hrest, -, hws⟩ :=
      (deserialize_written Registry.hasCore_core (.ofBytes .cursor (bytes ++ (tail ++ [7]))) [7]).2
        [(_, bytes), (_, tail)] (by simpa using ⟨⟨hcover, hcore, hb⟩, htcover, htcore, ht⟩) rfl
    exact ⟨ws, t, source', hrun, hrest, hws.length_eq.symm⟩

/-- Whatever the core family accepts as a whole is written as the same bytes again. -/
theorem toBytes_of_ofBytes {s t : Store} {bytes : List UInt8} {v : Value}
    (h : Registry.core.ofBytes bytes s = .ok v t) : t.Covers v ∧ t.Core v ∧ t.toBytes v = .ok bytes := by
  obtain ⟨x, rfl, hfit, hd, -, hbuilt⟩ := ofBytes_core_ok h
  have hbytes := hbuilt.toBytes hfit hd
  obtain ⟨rs, hx, -, hnew⟩ := hbuilt
  exact ⟨hx.covers fun r hr => (hnew r hr).2, fun a ha => hx.data ha, hbytes⟩

/-- With the core family alone, bytes are accepted if and only if some value is written as them. Whatever is
accepted is written as the same bytes again, so no two spellings stand for the same value. -/
theorem ofBytes_accepts_canonical (s : Store) (bytes : List UInt8) :
    (∀ v t, Registry.core.ofBytes bytes s = .ok v t → t.Covers v ∧ t.Core v ∧ t.toBytes v = .ok bytes) ∧
    ((∃ v t, Registry.core.ofBytes bytes s = .ok v t) ↔ ∃ (u : Store) (v : Value), u.Core v ∧ u.toBytes v = .ok bytes) ∧
    (∀ v t s' bytes' v' t', Registry.core.ofBytes bytes s = .ok v t → Registry.core.ofBytes bytes' s' = .ok v' t' →
      t.toBytes v = t'.toBytes v' → bytes = bytes') := by
  refine ⟨fun v t => toBytes_of_ofBytes, ⟨?_, ?_⟩, ?_⟩
  · rintro ⟨v, t, h⟩
    exact ⟨t, v, (toBytes_of_ofBytes h).2⟩
  · rintro ⟨u, v, hc, hb⟩
    obtain ⟨x, rs, hx, hfit, hd, rfl⟩ := (toBytes_iff hc.plain).mp hb
    obtain ⟨w, t, hrun, -⟩ := ofBytes_encode Registry.hasCore_core hfit hd s
    exact ⟨w, t, hrun⟩
  · intro v t s' bytes' v' t' h h' heq
    rw [(toBytes_of_ofBytes h).2.2, (toBytes_of_ofBytes h').2.2] at heq
    cases heq
    rfl

/-- The bytes of a block are accepted, and a boolean has no third spelling. -/
theorem ofBytes_accepts_block :
    let bytes : List UInt8 := [0, 1, 0, 0, 1, 0, 1, 0, 2, 1, 0, 1, 0, 0, 0, 0, 1, 0, 2, 1, 0, 0, 255, 255]
    (∃ v t, Registry.core.ofBytes bytes {} = .ok v t ∧ t.toBytes v = .ok bytes) ∧
    ¬ ∃ (u : Store) (v : Value), u.Core v ∧ u.toBytes v = .ok [0, 1, 0, 2, 2] := by
  intro bytes
  have hatom : sharingBlock.atom ⟨0⟩ = .datum (.boolean true) := rfl
  have hblock : sharingBlock.Unfolds (p := .first) (some (.cell ⟨0⟩)) _ _ :=
    .cell (.leaf hatom) (.cell (.leaf hatom) .nil)
  refine ⟨?_, ?_⟩
  · obtain ⟨v, t, h⟩ := (ofBytes_accepts_canonical {} bytes).2.1.mpr
      ⟨sharingBlock, some (.cell ⟨0⟩), fun _ ha => hblock.data ha, by decide +kernel⟩
    exact ⟨v, t, h, ((ofBytes_accepts_canonical {} bytes).1 v t h).2.2⟩
  · rw [← (ofBytes_accepts_canonical {} [0, 1, 0, 2, 2]).2.1]
    rintro ⟨v, t, h⟩
    have hrefused : (match Registry.core.ofBytes [0, 1, 0, 2, 2] {} with
      | .ok _ _ => true
      | .error _ _ => false) = false := by decide
    rw [h] at hrefused
    cases hrefused

end ScriptCore
