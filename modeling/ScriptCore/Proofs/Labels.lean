import ScriptCore.Proofs.Reader
import ScriptCore.Proofs.Relocation

/-!
# What the headers in the input say of the objects read

`Labelled r s t v bytes` says that the value `v` was made of `bytes` when the store went from `s` to `t`: every object
in it is new, its header is the one in front of its state, and the family in that header is registered. It covers
the cells of a chain, what stands in their first slots, and the values that objects of the host have read (`Ran`).

A decoder gives a new object, which may be of another family than the one it is registered for, or of none. Whatever
families are registered, `deserialize` gives values that are labelled (`deserialize_labelled`). No sequence of
registrations gives the family of the nil marker a decoder, or a registered family another one.
-/
namespace ScriptCore

open Wire Wire.Source NestedM LoadM Store

/-! ## Registrations -/

namespace Registry

variable {r r' : Registry} {family : UInt16} {decoder : Decoder}

theorem isRegistered_iff : r.isRegistered family = true ↔ r.decoder? family ≠ none := by
  rw [isRegistered, Dict.contains, decoder?, Option.isSome_iff_ne_none]

theorem offer_of_ok (h : r.register family decoder = .ok r') : r.offer (family, decoder) = r' := by
  simp only [offer, h]

theorem offer_of_error {e : SerialError} (h : r.register family decoder = .error e) :
    r.offer (family, decoder) = r := by
  simp only [offer, h]

/-- A registration is refused for the family of the nil marker and for a family that has a decoder, and then changes
nothing. Otherwise it adds the decoder. -/
theorem register_cases (r : Registry) (family : UInt16) (decoder : Decoder) :
    (family = 0 ∧ r.register family decoder = .error (.reserved family) ∧ r.offer (family, decoder) = r) ∨
    (family ≠ 0 ∧ r.isRegistered family = true ∧ r.register family decoder = .error (.alreadyRegistered family) ∧
      r.offer (family, decoder) = r) ∨
    (family ≠ 0 ∧ r.isRegistered family = false ∧ r.register family decoder = .ok (r.offer (family, decoder)) ∧
      ∀ g, (r.offer (family, decoder)).decoder? g = if g = family then some decoder else r.decoder? g) := by
  by_cases hnil : family = 0
  · have h : r.register family decoder = .error (.reserved family) := if_pos hnil
    exact .inl ⟨hnil, h, offer_of_error h⟩
  have hregister : r.register family decoder = if r.isRegistered family = true
      then .error (.alreadyRegistered family) else .ok ⟨r.families.insert family decoder⟩ := if_neg hnil
  cases hr : r.isRegistered family with
  | true =>
    rw [if_pos hr] at hregister
    exact .inr (.inl ⟨hnil, rfl, hregister, offer_of_error hregister⟩)
  | false =>
    rw [if_neg (by rw [hr]; decide)] at hregister
    rw [offer_of_ok hregister]
    exact .inr (.inr ⟨hnil, rfl, hregister, fun g => Dict.find?_insert _ _ _ _⟩)

/-- Registrations keep the decoders that are there, and give the family of the nil marker none. -/
structure Keeps (r r' : Registry) : Prop where
  decoder : ∀ g d, r.decoder? g = some d → r'.decoder? g = some d
  nil : r.decoder? 0 = none → r'.decoder? 0 = none

theorem keeps_offer (r : Registry) (call : UInt16 × Decoder) : r.Keeps (r.offer call) := by
  obtain ⟨family, decoder⟩ := call
  rcases register_cases r family decoder with ⟨-, -, h⟩ | ⟨-, -, -, h⟩ | ⟨hnil, hnew, -, h⟩
  · rw [h]
    exact ⟨fun _ _ hd => hd, id⟩
  · rw [h]
    exact ⟨fun _ _ hd => hd, id⟩
  · refine ⟨fun g d hd => ?_, fun h₀ => ?_⟩
    · rw [h, if_neg, hd]
      rintro rfl
      rw [isRegistered_iff.mpr (by rw [hd]; simp)] at hnew
      cases hnew
    · rw [h, if_neg (Ne.symm hnil), h₀]

theorem keeps_offerAll (r : Registry) (calls : List (UInt16 × Decoder)) : r.Keeps (r.offerAll calls) := by
  induction calls generalizing r with
  | nil => exact ⟨fun _ _ hd => hd, id⟩
  | cons call calls ih =>
    have hstep := keeps_offer r call
    have hrest := ih (r.offer call)
    exact ⟨fun g d h => hrest.decoder g d (hstep.decoder g d h), fun h => hrest.nil (hstep.nil h)⟩

theorem prototype_ok {h : Header} {start : Option Nat} {p : Prototype} (hp : r.prototype h start = .ok p) :
    p.header? = some h ∧ r.isRegistered h.family = true := by
  unfold prototype at hp
  split at hp
  · cases hp
  next decoder hdecoder =>
  have hregistered : r.isRegistered h.family = true := isRegistered_iff.mpr (by rw [hdecoder]; simp)
  split at hp
  · cases hp
  split at hp
  · cases hp
  next found hfound =>
  split at hp
  · next heq =>
    cases hp
    exact ⟨heq ▸ hfound, hregistered⟩
  · cases hp

end Registry

/-! ## Labels -/

/-- The object is one of those made from `s` to `t`, reports the header, and is of a family that is registered. -/
structure Made (r : Registry) (s t : Store) (q : Ref) (h : Header) : Prop where
  new : ¬ s.Has q
  has : t.Has q
  header : t.header? q = some h
  registered : r.isRegistered h.family = true

mutual

/-- From `s` to `t` the value was made of the bytes: the nil marker, or for each object its header in front of its
state. -/
inductive Labelled (r : Registry) (s t : Store) : Value → List UInt8 → Prop
  | nil : Labelled r s t none (Item.header .nil).bytes
  | datum {a : AtomId} {h : Header} {x : Datum} (made : Made r s t (.atom a) h) (holds : t.atom a = .datum x) :
      Labelled r s t (some (.atom a)) ((Item.header h).bytes ++ x.item.bytes)
  | host {a : AtomId} {h : Header} {o : HostObject} {record : Record} {state : List UInt8}
      (made : Made r s t (.atom a) h) (holds : t.atom a = .host o) (serializable : o.type.record = some record)
      (ran : Ran r s t (o.type.recipe record) state o.fields) :
      Labelled r s t (some (.atom a)) ((Item.header h).bytes ++ state)
  | cell {c : CellId} {h : Header} {car cdr : List UInt8} (made : Made r s t (.cell c) h)
      (first : Labelled r s t (t.cell c).car car) (rest : Labelled r s t (.ofLink (t.cell c).cdr) cdr) :
      Labelled r s t (some (.cell c))
        ((Item.header h).bytes ++ ((Item.u8 (t.cell c).kind.byte).bytes ++ (car ++ cdr)))

/-- From `s` to `t` the recipe made the fields of the bytes. A failed attempt loses the bytes it has read. -/
inductive Ran (r : Registry) (s t : Store) : Recipe → List UInt8 → List Field → Prop
  | done {fields : List Field} : Ran r s t (.done fields) [] fields
  | item {i : Item} {next : Item → Recipe} {bytes : List UInt8} {fields : List Field}
      (more : Ran r s t (next i) bytes fields) : Ran r s t (.item i.shape next) (i.bytes ++ bytes) fields
  | value {v : Value} {next : Value → Recipe} {first bytes : List UInt8} {fields : List Field}
      (labelled : Labelled r s t v first) (more : Ran r s t (next v) bytes fields) :
      Ran r s t (.value next) (first ++ bytes) fields
  | view {v : Value} {u : Store} {next : View → Recipe} {bytes : List UInt8} {fields : List Field}
      (more : Ran r s t (next (u.view v)) bytes fields) : Ran r s t (.view v next) bytes fields
  | attempt {tried : Recipe} {next : Option (List Field) → Recipe} {first bytes : List UInt8}
      {found fields : List Field} (ran : Ran r s t tried first found)
      (more : Ran r s t (next (some found)) bytes fields) : Ran r s t (.attempt tried next) (first ++ bytes) fields
  | failed {tried : Recipe} {next : Option (List Field) → Recipe} {lost bytes : List UInt8} {fields : List Field}
      (more : Ran r s t (next none) bytes fields) : Ran r s t (.attempt tried next) (lost ++ bytes) fields

end

section Mono

variable {r : Registry} {s s' t u : Store}

theorem Made.mono {q : Ref} {h : Header} (old : ∀ q, s'.Has q → s.Has q)
    (kept : ∀ q, ¬ s.Has q → t.Has q → u.Has q ∧ t.SameAt u q) (made : Made r s t q h) : Made r s' u q h := by
  obtain ⟨has, same⟩ := kept q made.new made.has
  refine ⟨fun hq => made.new (old q hq), has, ?_, made.registered⟩
  cases q with
  | cell c => exact made.header
  | atom a => rw [← made.header, header?, header?, show u.atom a = t.atom a from same]

mutual

/-- What counts is what the new objects hold. -/
theorem Labelled.mono (old : ∀ q, s'.Has q → s.Has q) (kept : ∀ q, ¬ s.Has q → t.Has q → u.Has q ∧ t.SameAt u q) :
    ∀ {v : Value} {bytes : List UInt8}, Labelled r s t v bytes → Labelled r s' u v bytes
  | _, _, .nil => .nil
  | _, _, .datum made holds => .datum (made.mono old kept) ((kept _ made.new made.has).2.trans holds)
  | _, _, .host made holds serializable ran =>
    .host (made.mono old kept) ((kept _ made.new made.has).2.trans holds) serializable (ran.mono old kept)
  | _, _, .cell (c := c) made first rest => by
    have hsame : u.cell c = t.cell c := (kept _ made.new made.has).2
    have first' := first.mono old kept
    have rest' := rest.mono old kept
    rw [← hsame] at first' rest' ⊢
    exact .cell (made.mono old kept) first' rest'

theorem Ran.mono (old : ∀ q, s'.Has q → s.Has q) (kept : ∀ q, ¬ s.Has q → t.Has q → u.Has q ∧ t.SameAt u q) :
    ∀ {recipe : Recipe} {bytes : List UInt8} {fields : List Field}, Ran r s t recipe bytes fields →
      Ran r s' u recipe bytes fields
  | _, _, _, .done => .done
  | _, _, _, .item more => .item (more.mono old kept)
  | _, _, _, .value labelled more => .value (labelled.mono old kept) (more.mono old kept)
  | _, _, _, .view more => .view (more.mono old kept)
  | _, _, _, .attempt ran more => .attempt (ran.mono old kept) (more.mono old kept)
  | _, _, _, .failed more => .failed (more.mono old kept)

end

/-- New objects are also new for an older store. -/
theorem Labelled.older {v : Value} {bytes : List UInt8} (h : Labelled r s t v bytes) (old : ∀ q, s'.Has q → s.Has q) :
    Labelled r s' t v bytes :=
  h.mono old fun q _ hq => Extends.refl t q hq

/-- A change of an older cell does not matter. -/
theorem Labelled.changes {v : Value} {bytes : List UInt8} {c : CellId} {f : Cell → Cell} (h : Labelled r s t v bytes)
    (hc : s.Has (.cell c)) (k : Changes t u c f) : Labelled r s u v bytes :=
  h.mono (fun _ => id) fun q hnew hq => ⟨k.has q hq, k.other q hq fun e => hnew (e ▸ hc)⟩

/-- A new cell whose slots were filled one after the other. -/
theorem labelled_cell {s₁ s₂ s₃ : Store} {c : CellId} {kind : CellKind} {v : Value} {link : Option CellId}
    {car cdr : List UInt8} (hr : r.HasCore) (hs : ∀ q, s.Has q → s₁.Has q) (hnew : ¬ s.Has (.cell c))
    (hc : s₁.Has (.cell c)) (hs₁ : ∀ q, s₁.Has q → s₂.Has q) (hcell : s₂.cell c = { kind, car := v })
    (hcar : Labelled r s₁ s₂ v car) (k : Changes s₂ s₃ c fun cell => { cell with cdr := link })
    (hcdr : Labelled r s₂ s₃ (.ofLink link) cdr) :
    Labelled r s s₃ (some (.cell c))
      ((Item.header .cell).bytes ++ ((Item.u8 kind.byte).bytes ++ (car ++ cdr))) := by
  have hcell' : s₃.cell c = { kind, car := v, cdr := link } := k.cell.trans (by rw [hcell])
  have hregistered : r.isRegistered coreFamily = true := by
    rw [Registry.isRegistered_iff, show r.decoder? coreFamily = some coreDecoder from hr]
    simp
  have hmade : Made r s s₃ (.cell c) .cell := ⟨hnew, k.has _ (hs₁ _ hc), rfl, hregistered⟩
  have hfirst : Labelled r s s₃ (s₃.cell c).car car := by
    rw [hcell']
    exact (hcar.changes hc k).older hs
  have hrest : Labelled r s s₃ (.ofLink (s₃.cell c).cdr) cdr := by
    rw [hcell']
    exact hcdr.older fun q hq => hs₁ q (hs q hq)
  have hlabelled := Labelled.cell hmade hfirst hrest
  rwa [hcell'] at hlabelled

end Mono

/-! ## Bytes that are used up -/

/-- Some of the bytes of the first source have been read. -/
def From (s₀ s s' : Source) : Prop :=
  s' = s ∧ ∃ bytes, s₀.Reads bytes s

theorem From.advance {s₀ s : Source} {n : Nat} (h : From s₀ s s) (hn : n ≤ s.rest.length) :
    From s₀ (s.advance n) (s.advance n) := by
  obtain ⟨-, bytes, hbytes⟩ := h
  exact ⟨rfl, _, reads_append.mpr ⟨s, hbytes, reads_take hn⟩⟩

theorem tracks_from (s₀ : Source) : Tracks id (From s₀) := by
  refine ⟨rfl, fun h => by rw [h.1]; rfl, fun h => by rw [h.1], fun n s s' h => ?_⟩
  obtain rfl := h.1
  rw [upTo_eq]
  split
  · exact .error (e := .stream .broken) (h.advance (Nat.le_refl _))
  · exact .ok (h.advance (Nat.min_le_right _ _))

/-! ## Values are labelled -/

/-- What `value` reads is labelled. It leaves alone what was there before, and uses up bytes also when it fails. -/
structure Labels (r : Registry) (value : LoadM Value) : Prop where
  labelled : ∀ {m v m'}, value m = .ok v m' →
    ∃ bytes, m.state.source.Reads bytes m'.state.source ∧ Labelled r m.state.store m'.state.store v bytes
  frames : ∀ s, Frames s value
  follows : ∀ s, Follows id (Abreast (From s)) value value

section Values

variable {r : Registry} {value : LoadM Value} {s : Store} {m m' : Nested Loading}

theorem Labels.extends {v : Value} (hv : Labels r value) (h : value m = .ok v m') :
    m.state.store.Extends m'.state.store := by
  have hframe := (hv.frames _ m (.refl _)).1
  rwa [h] at hframe

/-- The kind and the first slot of a cell. -/
theorem labelled_of_readCell (hv : Labels r value) {c : CellId} (hc : m.state.store.Has (.cell c))
    (h : readCell value c m = .ok () m') :
    ∃ (kind : CellKind) (v : Value) (bytes : List UInt8),
      m.state.source.Reads ((Item.u8 kind.byte).bytes ++ bytes) m'.state.source ∧
      Changes m.state.store m'.state.store c (fun cell => { cell with kind, car := v }) ∧
      Labelled r m.state.store m'.state.store v bytes := by
  obtain ⟨kind, v, m₁, m₂, hkind, hstore, -, hvalue, rfl⟩ := readCell_ok h
  obtain ⟨bytes, hbytes, hlabelled⟩ := hv.labelled hvalue
  have hext := hv.extends hvalue
  rw [← hstore] at hc ⊢
  have hchange := changes_modifyCell (hext.has hc) fun cell => { cell with kind, car := v }
  exact ⟨kind, v, bytes, reads_append.mpr ⟨_, hkind, hbytes⟩, hext.changes hc hchange, hlabelled.changes hc hchange⟩

/-- The further cells of a chain, behind the cell `last.getD c`, which gets linked to them. -/
theorem labelled_of_readTail (hr : r.HasCore) (hv : Labels r value) {c : CellId} {rounds : Nat} {last : Option CellId}
    (hc : m.state.store.Has (.cell (last.getD c))) (hlast : ∀ q, last = some q → (m.state.store.cell q).cdr = none)
    (h : readTail value c rounds last m = .ok () m') :
    ∃ (link : Option CellId) (bytes : List UInt8), m.state.source.Reads bytes m'.state.source ∧
      Changes m.state.store m'.state.store (last.getD c) (fun cell => { cell with cdr := link }) ∧
      Labelled r m.state.store m'.state.store (.ofLink link) bytes := by
  induction rounds generalizing last m with
  | zero => cases h
  | succ rounds ih =>
    obtain ⟨start, header, m₁, hheader, hstore, -, h⟩ := header_ok h
    rw [← hstore] at hc hlast ⊢
    by_cases hnil : header = .nil
    · subst hnil
      cases last with
      | none =>
        cases h
        exact ⟨none, _, hheader, changes_modifyCell hc _, .nil⟩
      | some q =>
        -- nothing is written to the last cell, which has no successor yet
        cases h
        have hq : { m'.state.store.cell q with cdr := none } = m'.state.store.cell q := by rw [← hlast q rfl]
        exact ⟨none, _, hheader, ⟨fun _ => id, hq.symm, fun r hr _ => (Extends.refl _ r hr).2⟩, .nil⟩
    by_cases hcell : header = .cell
    · subst hcell
      simp only [hnil, if_false, if_true] at h
      obtain ⟨new, m₂, h₂, h⟩ := bind_ok_iff.mp h
      obtain ⟨_, m₃, h₃, h⟩ := bind_ok_iff.mp h
      obtain ⟨_, m₄, h₄, h⟩ := bind_ok_iff.mp h
      obtain ⟨hmade, hsource₂⟩ := onStore_ok h₂
      obtain ⟨_, _, hmake, hs₂, hfresh, hhas, hempty⟩ := exists_newCell m₁.state.store
      obtain ⟨rfl, rfl⟩ := Prod.mk.inj (hmade.symm.trans hmake)
      obtain ⟨kind, v, car, hcar, k₃, hfirst⟩ := labelled_of_readCell hv hhas h₃
      obtain ⟨hlinked, hsource₄⟩ := onStore_ok h₄
      have k₄ := changes_modifyCell (k₃.has _ (hs₂.has hc)) fun cell => { cell with cdr := some new }
      rw [show m₃.state.store.modifyCell _ _ = m₄.state.store from (Prod.mk.inj hlinked).2] at k₄
      have hne : Ref.cell new ≠ .cell (last.getD c) := fun e => hfresh (e ▸ hc)
      have hcell₄ : m₄.state.store.cell new = { kind, car := v } := by
        rw [k₄.other (.cell new) (k₃.has _ hhas) hne, k₃.cell, hempty]
      have hkept : ∀ q, m₂.state.store.Has q → m₄.state.store.Has q := fun q hq => k₄.has q (k₃.has q hq)
      have hhas₄ : m₄.state.store.Has (.cell ((some new).getD c)) := hkept _ hhas
      obtain ⟨link, cdr, hcdr, k₅, hrest⟩ := ih hhas₄ (by rintro q ⟨⟩; rw [hcell₄]) h
      refine ⟨some new, _, ?_, ((k₃.extends hfresh hs₂).changes hc k₄).skip hc k₅ hfresh,
        labelled_cell hr (fun q => hs₂.has) hfresh hhas hkept hcell₄ (hfirst.changes (hs₂.has hc) k₄) k₅ hrest⟩
      rw [← List.append_assoc _ car]
      rw [hsource₂] at hcar
      rw [hsource₄] at hcdr
      exact reads_append.mpr ⟨_, hheader, reads_append.mpr ⟨_, hcar, hcdr⟩⟩
    · simp only [hnil, hcell, if_false] at h
      cases h

/-- What a failed attempt has read is lost. -/
theorem exists_reads_of_error {α : Type} {x : LoadM α} {e : SerialError}
    (hx : ∀ s, Follows id (Abreast (From s)) x x) (h : x m = .error e m') :
    ∃ lost, m.state.source.Reads lost m'.state.source := by
  have hmatch := hx m.state.source m m ⟨rfl, ⟨rfl, [], reads_nil.mpr rfl⟩, rfl⟩
  rw [h] at hmatch
  exact hmatch.after.source.2

theorem Labels.extends_recipe (hv : Labels r value) {recipe : Recipe}
    {result : EStateM.Result SerialError (Nested Loading) (List Field)} (h : recipe.run value m = result) :
    m.state.store.Extends (after result).state.store :=
  h ▸ (frames_recipe (hv.frames _) recipe m (.refl _)).1

theorem ran_of_recipe (hv : Labels r value) {recipe : Recipe} {fields : List Field}
    (h : recipe.run value m = .ok fields m') :
    ∃ bytes, m.state.source.Reads bytes m'.state.source ∧
      Ran r m.state.store m'.state.store recipe bytes fields := by
  induction recipe generalizing m m' fields with
  | done found =>
    cases h
    exact ⟨[], reads_nil.mpr rfl, .done⟩
  | refuse message => cases h
  | item shape next ih =>
    obtain ⟨i, m₁, h₁, h₂⟩ := bind_ok_iff.mp h
    obtain ⟨hitem, hstore, -⟩ := onSource_ok_iff.mp h₁
    obtain ⟨rfl, -, hitem⟩ := read_iff.mp hitem
    obtain ⟨bytes, hbytes, hran⟩ := ih i h₂
    rw [hstore] at hran
    exact ⟨_, reads_append.mpr ⟨_, hitem, hbytes⟩, .item hran⟩
  | value next ih =>
    obtain ⟨v, m₁, h₁, h⟩ := bind_ok_iff.mp h
    obtain ⟨first, hfirst, hlabelled⟩ := hv.labelled h₁
    obtain ⟨bytes, hbytes, hran⟩ := ih v h
    have hext := hv.extends h₁
    have hext' := hv.extends_recipe h
    exact ⟨_, reads_append.mpr ⟨_, hfirst, hbytes⟩, .value (hlabelled.mono (fun _ => id) fun q _ hq => hext' q hq)
      (hran.mono (fun q => hext.has) fun q _ hq => Extends.refl _ q hq)⟩
  | view v next ih =>
    obtain ⟨bytes, hbytes, hran⟩ := ih (m.state.store.view v) h
    exact ⟨bytes, hbytes, .view hran⟩
  | attempt tried next ih ih' =>
    obtain ⟨found, m₁, h₁, h⟩ := bind_ok_iff.mp h
    have hext' := hv.extends_recipe h
    obtain ⟨bytes, hbytes, hran⟩ := ih' found h
    unfold attempt at h₁
    split at h₁
    · next a m₂ hrun =>
      cases h₁
      obtain ⟨first, hfirst, hran₁⟩ := ih hrun
      have hext := hv.extends_recipe hrun
      exact ⟨_, reads_append.mpr ⟨_, hfirst, hbytes⟩, .attempt (hran₁.mono (fun _ => id) fun q _ hq => hext' q hq)
        (hran.mono (fun q => hext.has) fun q _ hq => Extends.refl _ q hq)⟩
    · next e m₂ hrun =>
      cases h₁
      obtain ⟨lost, hlost⟩ := exists_reads_of_error (fun s => follows_recipe (tracks_from s) (hv.follows s) tried) hrun
      have hext := hv.extends_recipe hrun
      exact ⟨_, reads_append.mpr ⟨_, hlost, hbytes⟩,
        .failed (hran.mono (fun q => hext.has) fun q _ hq => Extends.refl _ q hq)⟩

/-- A new cell reads its kind, its first slot and the rest of its chain. -/
theorem labelled_of_readCells (hr : r.HasCore) (hv : Labels r value) {c : CellId}
    (hs : ∀ q, s.Has q → m.state.store.Has q) (hnew : ¬ s.Has (.cell c)) (hc : m.state.store.Has (.cell c))
    (hempty : m.state.store.cell c = {}) (h : readStateWith value (.cell c) m = .ok () m') :
    ∃ state, m.state.source.Reads state m'.state.source ∧
      Labelled r s m'.state.store (some (.cell c)) ((Item.header .cell).bytes ++ state) := by
  obtain ⟨_, m₁, h₁, h⟩ := bind_ok_iff.mp h
  obtain ⟨_, _, hget, h⟩ := bind_ok_iff.mp h
  cases hget
  obtain ⟨kind, v, car, hcar, k₁, hfirst⟩ := labelled_of_readCell hv hc h₁
  have hc₁ : m₁.state.store.Has (.cell ((none : Option CellId).getD c)) := k₁.has _ hc
  obtain ⟨link, cdr, hcdr, k₂, hrest⟩ := labelled_of_readTail hr hv hc₁ (by rintro q ⟨⟩) h
  have hcell : m₁.state.store.cell c = { kind, car := v } := k₁.cell.trans (by rw [hempty])
  refine ⟨_, ?_, labelled_cell hr hs hnew hc (fun q => k₁.has q) hcell hfirst k₂ hrest⟩
  rw [← List.append_assoc _ car]
  exact reads_append.mpr ⟨_, hcar, hcdr⟩

/-- New plain data reads its content. -/
theorem labelled_of_readDatum {a : AtomId} {e : Datum} (hnew : ¬ s.Has (.atom a))
    (ha : m.state.store.Has (.atom a)) (hatom : m.state.store.atom a = .datum e)
    (hregistered : r.isRegistered e.header.family = true) (h : readStateWith value (.atom a) m = .ok () m') :
    ∃ state, m.state.source.Reads state m'.state.source ∧
      Labelled r s m'.state.store (some (.atom a)) ((Item.header e.header).bytes ++ state) := by
  obtain ⟨_, _, hget, h⟩ := bind_ok_iff.mp h
  cases hget
  simp only [hatom] at h
  obtain ⟨x, m₁, h₁, h⟩ := bind_ok_iff.mp h
  obtain ⟨hx, hstore, -⟩ := onSource_ok_iff.mp h₁
  obtain ⟨hheader, -, hreads⟩ := readLike_ok_iff.mp hx
  cases h
  rw [← hstore] at ha
  have hholds := atom_setAtom ha (.datum x)
  refine ⟨_, hreads, .datum ⟨hnew, has_setAtom.mpr ha, ?_, hregistered⟩ hholds⟩
  rw [header?, hholds, Atom.header?, hheader]

/-- A new object of the host reads its fields. -/
theorem labelled_of_readHost (hv : Labels r value) {a : AtomId} {o : HostObject} {record : Record}
    (hs : ∀ q, s.Has q → m.state.store.Has q) (hnew : ¬ s.Has (.atom a)) (ha : m.state.store.Has (.atom a))
    (hatom : m.state.store.atom a = .host o) (hrecord : o.type.record = some record)
    (hregistered : r.isRegistered record.header.family = true) (h : readStateWith value (.atom a) m = .ok () m') :
    ∃ state, m.state.source.Reads state m'.state.source ∧
      Labelled r s m'.state.store (some (.atom a)) ((Item.header record.header).bytes ++ state) := by
  obtain ⟨_, _, hget, h⟩ := bind_ok_iff.mp h
  cases hget
  simp only [hatom, hrecord] at h
  obtain ⟨fields, m₁, h₁, h⟩ := bind_ok_iff.mp h
  have hext : m.state.store.Extends m₁.state.store := hv.extends_recipe h₁
  obtain ⟨state, hstate, hran⟩ := ran_of_recipe hv h₁
  cases h
  have hholds := atom_setAtom (hext.has ha) (.host { o with fields })
  have hkept : ∀ q, ¬ m.state.store.Has q → m₁.state.store.Has q →
      (m₁.state.store.setAtom a (.host { o with fields })).Has q ∧
        m₁.state.store.SameAt (m₁.state.store.setAtom a (.host { o with fields })) q :=
    fun q hq hq' => ⟨has_setAtom.mpr hq', sameAt_setAtom (by rintro rfl; exact hq ha) _⟩
  refine ⟨state, hstate, .host ⟨hnew, has_setAtom.mpr (hext.has ha), ?_, hregistered⟩ hholds hrecord
    (hran.mono hs hkept)⟩
  rw [header?, hholds, Atom.header?, hrecord, Option.map_some]

/-- A new object reads its state. -/
theorem labelled_of_readState (hr : r.HasCore) (hv : Labels r value) {h : Header} {p : Prototype} {q : Ref}
    (hp : p.header? = some h) (hregistered : r.isRegistered h.family = true) (hmake : p.make s = (q, m.state.store))
    (hrun : readStateWith value q m = .ok () m') :
    ∃ state, m.state.source.Reads state m'.state.source ∧
      Labelled r s m'.state.store (some q) ((Item.header h).bytes ++ state) := by
  obtain rfl : (p.make s).1 = q := congrArg Prod.fst hmake
  have hm : (p.make s).2 = m.state.store := congrArg Prod.snd hmake
  have hs : ∀ q, s.Has q → m.state.store.Has q := fun q hq => hm ▸ (make_new p (.refl s)).2.has hq
  have hnew : ¬ s.Has (p.make s).1 := (make_new p (.refl s)).1
  cases p with
  | cell =>
    cases hp
    have hc : m.state.store.Has (.cell (s.newCell {}).1) := hm ▸ has_newCell.mpr (.inr rfl)
    have hempty : m.state.store.cell (s.newCell {}).1 = {} := hm ▸ (cell_newCell _).trans (if_pos rfl)
    exact labelled_of_readCells hr hv hs hnew hc hempty hrun
  | atom x =>
    have ha : m.state.store.Has (.atom (s.newAtom x).1) := hm ▸ has_newAtom.mpr (.inr rfl)
    have hatom : m.state.store.atom (s.newAtom x).1 = x := hm ▸ (atom_newAtom _).trans (if_pos rfl)
    cases x with
    | datum e =>
      cases hp
      exact labelled_of_readDatum hnew ha hatom hregistered hrun
    | builtin f => cases hp
    | host o =>
      obtain ⟨record, hrecord, rfl⟩ := Option.map_eq_some_iff.mp hp
      exact labelled_of_readHost hv hs hnew ha hatom hrecord hregistered hrun

theorem labels_readValue (hr : r.HasCore) (n : Nat) : Labels r (r.readValue n) := by
  induction n with
  | zero =>
    exact ⟨fun h => (by cases h), fun s => frames_readValue s r 0, fun s => follows_readValue (tracks_from s) r 0⟩
  | succ n ih =>
    refine ⟨fun {m v m'} h => ?_, fun s => frames_readValue s r (n + 1),
      fun s => follows_readValue (tracks_from s) r (n + 1)⟩
    obtain ⟨-, m₀, hrun, rfl⟩ := level_ok h
    obtain ⟨start, header, m₁, hheader, hstore, -, h⟩ := header_ok hrun
    by_cases hnil : header = .nil
    · subst hnil
      cases h
      exact ⟨_, hheader, .nil⟩
    simp only [hnil, if_false] at h
    obtain ⟨ref, m₂, h₂, h⟩ := bind_ok_iff.mp h
    obtain ⟨_, m₃, h₃, h⟩ := bind_ok_iff.mp h
    cases h
    unfold Registry.instantiate at h₂
    cases hp : r.prototype header start with
    | error e => rw [hp] at h₂; cases h₂
    | ok p =>
      obtain ⟨hreports, hregistered⟩ := Registry.prototype_ok hp
      rw [hp] at h₂
      obtain ⟨hmake, hsource⟩ := onStore_ok h₂
      obtain ⟨state, hstate, hlabelled⟩ := labelled_of_readState hr ih hreports hregistered hmake h₃
      rw [hstore] at hlabelled
      rw [hsource] at hstate
      exact ⟨_, reads_append.mpr ⟨_, hheader, hstate⟩, hlabelled⟩

end Values

/-! ## Devices -/

namespace Thread

theorem labelled_of_deserialize {r : Registry} (hr : r.HasCore) {d d' : Device} {t t' : Thread} {v : Value}
    (h : deserialize r d t = (.ok v d', t')) :
    ∃ bytes, d.rest = bytes ++ d'.rest ∧ Labelled r t.store t'.store v bytes := by
  obtain ⟨hmatch, hthread⟩ :=
    load_matches (follows_readValue (tracks_besides movesAlong_id _) r maxNesting) (besides_toSource d) t
  have hload : load (r.readValue maxNesting) d t = (.ok v d', t') := h
  rw [hload] at hmatch hthread
  simp only at hthread
  subst hthread
  simp only [load] at hmatch ⊢
  cases hrun : r.readValue maxNesting ⟨⟨t.store, d.toSource⟩, t.reading⟩ with
  | error e m => rw [hrun] at hmatch; cases hmatch
  | ok w m =>
    rw [hrun] at hmatch
    obtain ⟨bytes, hbytes, hlabelled⟩ := (labels_readValue hr maxNesting).labelled hrun
    cases hmatch with
    | ok states =>
      have hrest : d.rest = bytes ++ m.state.source.rest := hbytes.1
      rw [← states.rest] at hrest
      exact ⟨bytes, hrest, hlabelled⟩

/-- Whatever families have been registered, and whatever new objects their decoders give, the objects that `deserialize`
makes are labelled with the headers that were read for them, and those are of registered families. The family of the nil
marker has no decoder, the core family has its own, further registrations keep every decoder, and a refused one changes
nothing. -/
theorem deserialize_labelled (calls : List (UInt16 × Decoder)) :
    let r := Registry.core.offerAll calls
    (∀ (d d' : Device) (t t' : Thread) (v : Value), deserialize r d t = (.ok v d', t') →
      ∃ bytes, d.rest = bytes ++ d'.rest ∧ Labelled r t.store t'.store v bytes) ∧
    r.decoder? 0 = none ∧ r.decoder? coreFamily = some coreDecoder ∧
    (∀ more family decoder, r.decoder? family = some decoder → (r.offerAll more).decoder? family = some decoder) ∧
    ∀ family decoder,
      (family = 0 ∧ r.register family decoder = .error (.reserved family) ∧ r.offer (family, decoder) = r) ∨
      (family ≠ 0 ∧ r.isRegistered family = true ∧ r.register family decoder = .error (.alreadyRegistered family) ∧
        r.offer (family, decoder) = r) ∨
      (family ≠ 0 ∧ r.isRegistered family = false ∧ r.register family decoder = .ok (r.offer (family, decoder)) ∧
        ∀ g, (r.offer (family, decoder)).decoder? g = if g = family then some decoder else r.decoder? g) := by
  have hkeeps := Registry.keeps_offerAll .core calls
  have hcore : (Registry.core.offerAll calls).HasCore := hkeeps.decoder coreFamily coreDecoder rfl
  intro r
  exact ⟨fun d d' t t' v => labelled_of_deserialize hcore, hkeeps.nil rfl, hcore,
    fun more => (r.keeps_offerAll more).decoder, r.register_cases⟩

/-- A list with a truth value in it, where another family gives numbers for all its members and the core family was
to be replaced. -/
theorem deserialize_labelled_list :
    let r := Registry.core.offerAll [(2, fun _ => some (.atom (.datum (.integer 0)))), (coreFamily, fun _ => none)]
    let d := Device.cursor [0, 1, 0, 0, 0, 0, 1, 0, 2, 1, 0, 0, 255, 255, 9] 0
    ∃ v d' t', deserialize r d {} = (.ok v d', t') ∧
      ∃ bytes, d.rest = bytes ++ d'.rest ∧ Labelled r {} t'.store v bytes := by
  intro r d
  have hok : (match (deserialize r d {}).1 with
      | .ok _ _ => true
      | .error _ _ => false) = true := by decide +kernel
  have hlabelled := (deserialize_labelled
    [(2, fun _ => some (.atom (.datum (.integer 0)))), (coreFamily, fun _ => none)]).1 d
  generalize hrun : deserialize r d {} = run at hok
  obtain ⟨outcome, t'⟩ := run
  cases outcome with
  | error e d' => cases hok
  | ok v d' => exact ⟨v, d', t', rfl, hlabelled d' {} t' v hrun⟩

end Thread

end ScriptCore
