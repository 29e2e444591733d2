import ScriptCore.Proofs.Writer

/-!
# What reading a value does

If the wire form of a tree is next in the source and the tree is not nested too deeply, the reader builds the
tree from new objects and stops behind the wire form (`builds_readValue`). With the core family alone it
accepts nothing else (`accepts_readValue`). Whatever it does and however it ends, it changes no object that
was there and closes the levels it opened (`frames_readValue`).

Cells are built in place: a new cell first gets its kind and first slot, and its second slot when the next
cell is complete. `Changes s t c f` says what such a step does: from `s` to `t` objects were added, and of the
old ones only `c` has changed, by `f`.
-/
namespace ScriptCore

open Wire Wire.Source NestedM LoadM

/-! ## Steps -/

section Steps

variable {s : Store} {source source' : Source} {d : Nat}

theorem onSource_ok {α : Type} {x : ReadM α} {a : α} (h : x source = .ok a source') :
    onSource x ⟨⟨s, source⟩, d⟩ = .ok a ⟨⟨s, source'⟩, d⟩ := by
  simp [onSource, lift, h]

theorem onSource_ok_iff {α : Type} {x : ReadM α} {a : α} {m m' : Nested Loading} :
    onSource x m = .ok a m' ↔ x m.state.source = .ok a m'.state.source ∧
      m'.state.store = m.state.store ∧ m'.depth = m.depth := by
  obtain ⟨⟨s, src⟩, d⟩ := m
  obtain ⟨⟨s', src'⟩, d'⟩ := m'
  simp only [onSource, lift]
  cases x src with
  | error e t => simp
  | ok b t => simp [eq_comm, and_assoc, and_left_comm]

theorem onStore_run {α : Type} (f : Store → α × Store) :
    onStore f ⟨⟨s, source⟩, d⟩ = .ok (f s).1 ⟨⟨(f s).2, source⟩, d⟩ := rfl

theorem onStore_ok {α : Type} {f : Store → α × Store} {a : α} {m m' : Nested Loading} (h : onStore f m = .ok a m') :
    f m.state.store = (a, m'.state.store) ∧ m'.state.source = m.state.source := by
  cases h
  exact ⟨rfl, rfl⟩

theorem change_run (f : Store → Store) : change f ⟨⟨s, source⟩, d⟩ = .ok () ⟨⟨f s, source⟩, d⟩ := rfl

theorem level_run {σ α : Type} {x : NestedM σ α} {st st' : σ} {a : α} (hd : d < maxNesting)
    (h : x ⟨st, d + 1⟩ = .ok a ⟨st', d + 1⟩) : level x ⟨st, d⟩ = .ok a ⟨st', d⟩ := by
  simp only [level, if_neg (Nat.not_le.mpr hd), h, Nat.add_sub_cancel]

theorem ofByte?_byte (k : CellKind) : CellKind.ofByte? k.byte = some k := by
  cases k <;> rfl

theorem byte_of_ofByte? {b : UInt8} {k : CellKind} (h : CellKind.ofByte? b = some k) : b = k.byte := by
  unfold CellKind.ofByte? at h
  split at h <;> cases h <;> rfl

/-- Plain data before its state has been read. -/
def Datum.blank : Datum → Datum
  | .integer _ => .integer 0
  | .boolean _ => .boolean false
  | .text _ => .text ""
  | .symbol _ => .symbol ""

theorem readLike_ok_iff {e x : Datum} :
    e.readLike source = .ok x source' ↔ x.header = e.header ∧ x.item.Fits ∧ source.Reads x.item.bytes source' := by
  cases e <;> rw [Datum.readLike, bind_ok_iff] <;> cases x <;>
    simp [pure_ok_iff, Datum.header, Datum.item, Item.Fits, readI64_ok_iff, readBool_ok_iff, readText_ok_iff]

end Steps

/-! ## The core family -/

/-- The core family has its own decoder. No registration changes that. -/
def Registry.HasCore (r : Registry) : Prop :=
  r.decoder? coreFamily = some coreDecoder

theorem Registry.hasCore_core : Registry.core.HasCore := rfl

theorem Registry.HasCore.register {r r' : Registry} {family : UInt16} {decoder : Decoder} (h : r.HasCore)
    (hr : r.register family decoder = .ok r') : r'.HasCore := by
  unfold Registry.register at hr
  split at hr
  · cases hr
  split at hr
  · cases hr
  next hnew =>
  cases hr
  have hne : coreFamily ≠ family := by
    rintro rfl
    exact hnew (by rw [Registry.isRegistered, Dict.contains, show r.families.find? coreFamily = _ from h]; rfl)
  exact (Dict.find?_insert _ _ _ _).trans ((if_neg hne).trans h)

theorem Registry.HasCore.prototype_cell {r : Registry} (h : r.HasCore) (start : Option Nat) :
    r.prototype .cell start = .ok .cell := by
  simp only [Registry.prototype, Header.cell, show r.decoder? coreFamily = some coreDecoder from h]
  rfl

theorem Registry.HasCore.prototype_datum {r : Registry} (h : r.HasCore) (x : Datum) (start : Option Nat) :
    r.prototype x.header start = .ok (.atom (.datum x.blank)) := by
  have hd : r.decoder? coreFamily = some coreDecoder := h
  cases x <;> simp only [Registry.prototype, Datum.header, hd] <;> rfl

/-- With the core family alone, a header stands for a cell or for plain data. -/
theorem prototype_core {h : Header} {start : Option Nat} {p : Prototype}
    (hp : Registry.core.prototype h start = .ok p) :
    (h = .cell ∧ p = .cell) ∨ ∃ x : Datum, h = x.header ∧ p = .atom (.datum x.blank) := by
  obtain ⟨family, member⟩ := h
  by_cases hf : family = coreFamily
  · subst hf
    simp only [Registry.prototype, show Registry.core.decoder? coreFamily = some coreDecoder from rfl] at hp
    unfold coreDecoder at hp
    split at hp
    · cases hp
    next q hq =>
    split at hq <;> cases hq
    · cases hp; exact .inl ⟨rfl, rfl⟩
    · cases hp; exact .inr ⟨.integer 0, rfl, rfl⟩
    · cases hp; exact .inr ⟨.boolean false, rfl, rfl⟩
    · cases hp; exact .inr ⟨.text "", rfl, rfl⟩
    · cases hp; exact .inr ⟨.symbol "", rfl, rfl⟩
  · have hn : Registry.core.decoder? family = none := (Dict.find?_insert _ _ _ _).trans (if_neg hf)
    rw [Registry.prototype, hn] at hp
    cases hp

/-! ## One changed cell -/

namespace Store

variable {s t u w : Store} {c : CellId} {f : Cell → Cell}

/-- `t` has all objects of `s` with the same content, but for the cell `c`, which was changed by `f`. -/
structure Changes (s t : Store) (c : CellId) (f : Cell → Cell) : Prop where
  has : ∀ r, s.Has r → t.Has r
  cell : t.cell c = f (s.cell c)
  other : ∀ r, s.Has r → r ≠ .cell c → s.SameAt t r

theorem changes_modifyCell (h : s.Has (.cell c)) (f : Cell → Cell) : Changes s (s.modifyCell c f) c f := by
  refine ⟨fun r => has_modifyCell.mpr, ?_, ?_⟩
  · exact cell_modifyCell h f
  · intro r _ hne
    cases r with
    | cell d => exact cell_modifyCell_ne (fun e => hne (congrArg Ref.cell e)) f
    | atom a => rfl

/-- Objects may be added before a change. -/
theorem Extends.changes (h : s.Extends t) (hc : s.Has (.cell c)) (k : Changes t u c f) : Changes s u c f := by
  refine ⟨fun r hr => k.has r (h.has hr), ?_, ?_⟩
  · rw [k.cell, h.cell hc]
  · intro r hr hne
    exact sameAt_trans (h r hr).2 (k.other r (h.has hr) hne)

/-- A change of a cell that an older store does not have keeps the older store. -/
theorem Changes.extends (k : Changes t u c f) (hc : ¬ s.Has (.cell c)) (h : s.Extends t) : s.Extends u := by
  intro r hr
  obtain ⟨ht, h₁⟩ := h r hr
  have h₂ := k.other r ht (fun e => hc (e ▸ hr))
  exact ⟨k.has r ht, sameAt_trans h₁ h₂⟩

/-- A change of a newer cell does not matter for a change of an older one. -/
theorem Changes.skip {b : CellId} {g : Cell → Cell} (h : Changes s t c f) (hc : s.Has (.cell c))
    (k : Changes t u b g) (hb : ¬ s.Has (.cell b)) : Changes s u c f := by
  have hne : ∀ r, s.Has r → r ≠ .cell b := fun r hr e => hb (e ▸ hr)
  refine ⟨fun r hr => k.has r (h.has r hr), ?_, ?_⟩
  · exact (k.other _ (h.has _ hc) (hne _ hc)).trans h.cell
  · intro r hr hrc
    exact sameAt_trans (h.other r hr hrc) (k.other r (h.has r hr) (hne r hr))

/-- Two changes of one cell. -/
theorem Changes.trans {g : Cell → Cell} (h : Changes s t c f) (k : Changes t u c g) : Changes s u c (g ∘ f) := by
  refine ⟨fun r hr => k.has r (h.has r hr), ?_, ?_⟩
  · rw [k.cell, h.cell, Function.comp]
  · intro r hr hrc
    exact sameAt_trans (h.other r hr hrc) (k.other r (h.has r hr) hrc)

theorem Changes.unfolds {p : Place} {v : Value} {x : Tree p} {rs : List Ref} (k : Changes s t c f)
    (h : s.Unfolds v x rs) (hrs : ∀ r ∈ rs, s.Has r ∧ r ≠ .cell c) : t.Unfolds v x rs :=
  h.congr fun r hr => k.other r (hrs r hr).1 (hrs r hr).2

theorem exists_newCell (s : Store) :
    ∃ c t, s.newCell {} = (c, t) ∧ s.Extends t ∧ ¬ s.Has (.cell c) ∧ t.Has (.cell c) ∧ t.cell c = {} :=
  ⟨_, _, rfl, extends_newCell s {}, newCell_fresh s {}, has_newCell.mpr (.inr rfl),
    (cell_newCell _).trans (if_pos rfl)⟩

/-- A new cell whose slots were filled one after the other. -/
theorem built_cell {p : Place} {x : Tree .first} {y : Tree .second} {xs : List Ref}
    (hst : ∀ r, s.Has r → t.Has r) (htu : ∀ r, t.Has r → u.Has r) (huw : ∀ r, u.Has r → w.Has r)
    (hs : ¬ s.Has (.cell c)) (ht : t.Has (.cell c))
    (hx : w.Unfolds (w.cell c).car x xs) (hn : xs.Nodup) (hxs : ∀ r ∈ xs, ¬ t.Has r ∧ u.Has r)
    (hy : u.Built w (.ofLink (w.cell c).cdr) y) :
    s.Built w (some (.cell c)) (.cell (p := p) (w.cell c).kind x y) := by
  obtain ⟨ys, hy, hm, hys⟩ := hy
  have hdisjoint : ∀ r ∈ xs, ∀ q ∈ ys, r ≠ q := fun r hr q hq e => (hys q hq).1 (e ▸ (hxs r hr).2)
  have hcx : Ref.cell c ∉ xs := fun h => (hxs _ h).1 ht
  have hcy : Ref.cell c ∉ ys := fun h => (hys _ h).1 (htu _ ht)
  refine ⟨_, .cell hx hy, ?_, ?_⟩
  · rw [List.nodup_cons, List.nodup_append, List.mem_append, not_or]
    exact ⟨⟨hcx, hcy⟩, hn, hm, hdisjoint⟩
  · intro r hr
    rw [List.mem_cons, List.mem_append] at hr
    rcases hr with rfl | hr | hr
    · exact ⟨hs, huw _ (htu _ ht)⟩
    · exact ⟨fun h => (hxs r hr).1 (hst r h), huw r (hxs r hr).2⟩
    · exact ⟨fun h => (hys r hr).1 (htu r (hst r h)), (hys r hr).2⟩

end Store

/-! ## Trees are read -/

open Store

/-- With `d` levels open and the wire form of `x` next in the source, `value` builds `x`. -/
def Builds (value : LoadM Value) (d : Nat) (x : Tree .first) : Prop :=
  ∀ s source source', source.Reads x.encode source' →
    ∃ v t, value ⟨⟨s, source⟩, d⟩ = .ok v ⟨⟨t, source'⟩, d⟩ ∧ s.Extends t ∧ s.Built t v x

section Build

variable {value : LoadM Value} {s : Store} {source source' : Source} {d : Nat}

theorem offset_run (s : Store) (source : Source) (d : Nat) :
    ∃ start, onSource offset ⟨⟨s, source⟩, d⟩ = .ok start ⟨⟨s, source⟩, d⟩ :=
  ⟨_, onSource_ok (offset_ok_iff.mpr ⟨rfl, rfl⟩)⟩

/-- The kind and the first slot of a cell. -/
theorem readCell_of_reads {c : CellId} {kind : CellKind} {x : Tree .first} (hv : Builds value d x)
    (hc : s.Has (.cell c)) (h : source.Reads ((Item.u8 kind.byte).bytes ++ x.encode) source') :
    ∃ v t, readCell value c ⟨⟨s, source⟩, d⟩ = .ok () ⟨⟨t, source'⟩, d⟩ ∧
      Changes s t c (fun cell => { cell with kind, car := v }) ∧ s.Built t v x := by
  obtain ⟨source₁, hkind, hx⟩ := reads_append.mp h
  obtain ⟨v, t, hrun, hst, xs, hxs, hn, hnew⟩ := hv s source₁ source' hx
  obtain ⟨start, hstart⟩ := offset_run s source d
  have hbyte := onSource_ok (s := s) (d := d) (readU8_ok_iff.mpr hkind)
  have hchange := changes_modifyCell (hst.has hc) fun cell => { cell with kind, car := v }
  refine ⟨v, _, ?_, hst.changes hc hchange, xs, hchange.unfolds hxs ?_, hn, ?_⟩
  · simp only [readCell, run_bind, hstart, hbyte, ofByte?_byte, hrun, change_run]
  · exact fun r hr => ⟨(hnew r hr).2, fun e => (hnew r hr).1 (e ▸ hc)⟩
  · exact fun r hr => ⟨(hnew r hr).1, hchange.has r (hnew r hr).2⟩

/-- The end of a chain, behind the cell `last.getD c`. -/
theorem readTail_nil_of_reads (c : CellId) (last : Option CellId) {rounds : Nat}
    (h : source.Reads (Item.header .nil).bytes source') (hc : s.Has (.cell (last.getD c)))
    (hlast : ∀ q, last = some q → (s.cell q).cdr = none) :
    ∃ t, readTail value c (rounds + 1) last ⟨⟨s, source⟩, d⟩ = .ok () ⟨⟨t, source'⟩, d⟩ ∧
      Changes s t (last.getD c) (fun cell => { cell with cdr := none }) := by
  obtain ⟨start, hstart⟩ := offset_run s source d
  have hheader := onSource_ok (s := s) (d := d) (readHeader_ok_iff.mpr h)
  cases last with
  | none =>
    refine ⟨s.setCdr c none, ?_, changes_modifyCell hc _⟩
    simp only [readTail, run_bind, hstart, hheader]
    rfl
  | some q =>
    -- nothing is written to the last cell, which is new and has no successor yet
    have hq : { s.cell q with cdr := none } = s.cell q := by rw [← hlast q rfl]
    refine ⟨s, ?_, ⟨fun _ => id, hq.symm, fun r hr _ => ((Extends.refl s) r hr).2⟩⟩
    simp only [readTail, run_bind, hstart, hheader]
    rfl

/-- The further cells of a chain, behind the cell `last.getD c`, which gets linked to them. The first slots
are less deep than the chain, so the reader for them only has to be good for that. -/
theorem readTail_of_reads {y : Tree .second} {s : Store} {source : Source} (c : CellId) (last : Option CellId)
    {rounds : Nat} (hv : ∀ x : Tree .first, x.Fits → x.depth < y.depth → Builds value d x) (hfit : y.Fits)
    (h : source.Reads y.encode source') (hr : source.rest.length < rounds) (hc : s.Has (.cell (last.getD c)))
    (hlast : ∀ q, last = some q → (s.cell q).cdr = none) :
    ∃ link t, readTail value c rounds last ⟨⟨s, source⟩, d⟩ = .ok () ⟨⟨t, source'⟩, d⟩ ∧
      Changes s t (last.getD c) (fun cell => { cell with cdr := link }) ∧ s.Built t (.ofLink link) y := by
  obtain ⟨rounds, rfl⟩ : ∃ n, rounds = n + 1 := ⟨rounds - 1, by omega⟩
  cases y with
  | nil =>
    obtain ⟨t, hrun, ht⟩ := readTail_nil_of_reads c last h hc hlast
    exact ⟨none, t, hrun, ht, [], .nil, .nil, fun r hr => by cases hr⟩
  | cell kind x y =>
    obtain ⟨start, hstart⟩ := offset_run s source d
    obtain ⟨source₁, hheader, h⟩ := reads_append.mp h
    rw [← List.append_assoc] at h
    obtain ⟨source₂, hcell, htail⟩ := reads_append.mp h
    have hheader' := onSource_ok (s := s) (d := d) (readHeader_ok_iff.mpr hheader)
    obtain ⟨new, s₁, hnew, hs₁, hfresh, hhas, hempty⟩ := exists_newCell s
    have hne : Ref.cell (last.getD c) ≠ .cell new := fun e => hfresh (e ▸ hc)
    obtain ⟨v, s₂, hrun, h₂, xs, hx, hxn, hxs⟩ :=
      readCell_of_reads (hv x hfit.1 (by simp only [Tree.depth]; omega)) hhas hcell
    have h₃ := changes_modifyCell (h₂.has _ (hs₁.has hc)) fun cell => { cell with cdr := some new }
    set s₃ := s₂.modifyCell (last.getD c) fun cell => { cell with cdr := some new } with hs₃
    have hhas₃ : ∀ r, s₁.Has r → s₃.Has r := fun r hr => h₃.has r (h₂.has r hr)
    have hnew₃ : s₃.cell new = { kind, car := v } := by
      rw [h₃.other (.cell new) (h₂.has _ hhas) hne.symm, h₂.cell, hempty]
    have hrest : source₂.rest.length < rounds := by
      have hlen := congrArg List.length hheader.1
      rw [hcell.1] at hlen
      have hpos : 0 < (Item.header .cell).bytes.length := by decide
      simp only [List.length_append] at hlen
      omega
    obtain ⟨link, s₄, htail, h₄, hy⟩ := readTail_of_reads c (some new)
      (fun z hz hd => hv z hz (by simp only [Tree.depth]; omega)) hfit.2 htail hrest (hhas₃ _ hhas)
      (by rintro q ⟨⟩; rw [hnew₃])
    have hnew₄ : s₄.cell new = { kind, car := v, cdr := link } := h₄.cell.trans (by rw [Option.getD_some, hnew₃])
    have hs₂ : s.Extends s₂ := h₂.extends hfresh hs₁
    refine ⟨some new, s₄, ?_, (hs₂.changes hc h₃).skip hc h₄ hfresh, ?_⟩
    · simp only [readTail, run_bind, hstart, hheader', show Header.cell ≠ .nil by decide, if_false, if_true,
        onStore_run, hnew, hrun, change_run]
      exact htail
    · have hx₄ : s₄.Unfolds (s₄.cell new).car x xs := by
        rw [hnew₄]
        refine h₄.unfolds (h₃.unfolds hx fun r hr => ⟨(hxs r hr).2, ?_⟩) fun r hr => ⟨h₃.has r (hxs r hr).2, ?_⟩
        · exact fun e => (hxs r hr).1 (e ▸ hs₁.has hc)
        · exact fun e => (hxs r hr).1 (e ▸ hhas)
      have hcell := built_cell (p := .second) (fun r => hs₁.has) hhas₃ (fun r => h₄.has r) hfresh hhas hx₄ hxn
        (fun r hr => ⟨(hxs r hr).1, h₃.has r (hxs r hr).2⟩) (by rw [hnew₄]; exact hy)
      rwa [hnew₄] at hcell

theorem datum_header_ne_nil (x : Datum) : x.header ≠ .nil := by
  cases x <;> simp [Datum.header, Header.nil, coreFamily]

/-- A new datum gets its content. -/
theorem readLeaf_of_reads (value : LoadM Value) {x : Datum} (hfit : x.item.Fits)
    (h : source.Reads x.item.bytes source') :
    ∃ a t, readStateWith value (.atom (s.newAtom (.datum x.blank)).1) ⟨⟨(s.newAtom (.datum x.blank)).2, source⟩, d⟩ =
      .ok () ⟨⟨t, source'⟩, d⟩ ∧ a = (s.newAtom (.datum x.blank)).1 ∧ s.Extends t ∧
      s.Built t (some (.atom a)) (.leaf x) := by
  have hfresh := newAtom_fresh s (.datum x.blank)
  have hhas := (has_newAtom (s := s) (x := .datum x.blank)).mpr (.inr rfl)
  have hnew := (atom_newAtom (s := s) (x := .datum x.blank) _).trans (if_pos rfl)
  have hset := atom_setAtom hhas (.datum x)
  have hx : x.header = x.blank.header := by cases x <;> rfl
  have hrun := onSource_ok (s := (s.newAtom (.datum x.blank)).2) (d := d) (readLike_ok_iff.mpr ⟨hx, hfit, h⟩)
  refine ⟨_, _, ?_, rfl, (extends_newAtom s _).setAtom hfresh (.datum x), [_], .leaf hset,
    List.nodup_singleton _, ?_⟩
  · simp only [readStateWith, run_bind, run_get, hnew, hrun, change_run]
  · intro r hr
    rw [List.mem_singleton] at hr
    subst hr
    exact ⟨hfresh, has_setAtom.mpr hhas⟩

/-- A new cell gets its kind, its first slot and the rest of its chain. -/
theorem readCells_of_reads {kind : CellKind} {x : Tree .first} {y : Tree .second} (hx : Builds value d x)
    (hv : ∀ z : Tree .first, z.Fits → z.depth < y.depth → Builds value d z) (hfit : y.Fits)
    (h : source.Reads ((Item.u8 kind.byte).bytes ++ (x.encode ++ y.encode)) source') :
    ∃ c t, readStateWith value (.cell (s.newCell {}).1) ⟨⟨(s.newCell {}).2, source⟩, d⟩ =
      .ok () ⟨⟨t, source'⟩, d⟩ ∧ c = (s.newCell {}).1 ∧ s.Extends t ∧
      s.Built t (some (.cell c)) (.cell (p := .first) kind x y) := by
  rw [← List.append_assoc] at h
  obtain ⟨source₁, hcell, htail⟩ := reads_append.mp h
  obtain ⟨c, s₁, hnew, hs₁, hfresh, hhas, hempty⟩ := exists_newCell s
  obtain ⟨v, s₂, hrun, h₂, xs, hxs, hxn, hnews⟩ := readCell_of_reads hx hhas hcell
  obtain ⟨link, s₃, hrest, h₃, hy⟩ := readTail_of_reads c none hv hfit htail (Nat.lt_succ_self _)
    (h₂.has _ hhas) (by rintro q ⟨⟩)
  have hcell₃ : s₃.cell c = { kind, car := v, cdr := link } := by
    rw [show s₃.cell c = _ from h₃.cell, Option.getD_none, h₂.cell, hempty]
  have hx₃ : s₃.Unfolds (s₃.cell c).car x xs := by
    rw [hcell₃]
    exact h₃.unfolds hxs fun r hr => ⟨(hnews r hr).2, fun e => (hnews r hr).1 (e ▸ hhas)⟩
  have hbuilt := built_cell (p := .first) (fun r => hs₁.has) (fun r => h₂.has r) (fun r => h₃.has r) hfresh hhas
    hx₃ hxn hnews (by rw [hcell₃]; exact hy)
  rw [hcell₃] at hbuilt
  rw [hnew]
  refine ⟨c, s₃, ?_, rfl, h₃.extends hfresh (h₂.extends hfresh hs₁), hbuilt⟩
  simp only [readStateWith, run_bind, hrun, run_get]
  exact hrest

/-- An object is read as its header says. -/
theorem readValue_object {r : Registry} {n : Nat} {h : Header} {p : Prototype} {t : Store} {source₁ : Source}
    (hd : d < maxNesting) (hh : source.Reads (Item.header h).bytes source₁) (hnil : h ≠ .nil)
    (hp : ∀ start, r.prototype h start = .ok p)
    (hrun : readStateWith (r.readValue n) (p.make s).1 ⟨⟨(p.make s).2, source₁⟩, d + 1⟩ =
      .ok () ⟨⟨t, source'⟩, d + 1⟩) :
    r.readValue (n + 1) ⟨⟨s, source⟩, d⟩ = .ok (some (p.make s).1) ⟨⟨t, source'⟩, d⟩ := by
  obtain ⟨start, hstart⟩ := offset_run s source (d + 1)
  have hheader := onSource_ok (s := s) (d := d + 1) (readHeader_ok_iff.mpr hh)
  refine level_run hd ?_
  simp only [run_bind, hstart, hheader, hnil, if_false, Registry.instantiate, hp, onStore_run, hrun]
  rfl

/-- A tree whose wire form is next is built, if it is not nested too deeply. -/
theorem builds_readValue {r : Registry} (hr : r.HasCore) {n d : Nat} {x : Tree .first} (hfit : x.Fits)
    (hdepth : x.depth + d ≤ maxNesting) (hn : maxNesting ≤ n + d) : Builds (r.readValue n) d x := by
  induction n generalizing d x with
  | zero => have := x.depth_pos; omega
  | succ n ih =>
    have hd : d < maxNesting := by have := x.depth_pos; omega
    intro s source source' h
    cases x with
    | nil =>
      obtain ⟨start, hstart⟩ := offset_run s source (d + 1)
      have hheader := onSource_ok (s := s) (d := d + 1) (readHeader_ok_iff.mpr h)
      refine ⟨none, s, level_run hd ?_, .refl s, [], .nil, .nil, fun r hr => by cases hr⟩
      simp only [run_bind, hstart, hheader, if_true]
      rfl
    | leaf x =>
      obtain ⟨source₁, hheader, hstate⟩ := reads_append.mp h
      obtain ⟨a, t, hrun, rfl, hext, hbuilt⟩ :=
        readLeaf_of_reads (r.readValue n) (s := s) (d := d + 1) hfit hstate
      exact ⟨_, t, readValue_object (p := .atom (.datum x.blank)) hd hheader (datum_header_ne_nil x)
        (hr.prototype_datum x) hrun, hext, hbuilt⟩
    | cell kind x y =>
      simp only [Tree.depth] at hdepth
      obtain ⟨source₁, hheader, hstate⟩ := reads_append.mp h
      obtain ⟨c, t, hrun, rfl, hext, hbuilt⟩ := readCells_of_reads (s := s)
        (ih hfit.1 (d := d + 1) (by omega) (by omega)) (fun z hz hzd => ih hz (by omega) (by omega)) hfit.2 hstate
      exact ⟨_, t, readValue_object (p := .cell) hd hheader (by decide) hr.prototype_cell hrun, hext, hbuilt⟩

end Build

/-! ## Nothing but trees is read -/

/-- From wherever it starts, `value` only takes the wire form of a tree that is not nested too deeply. -/
def Accepts (value : LoadM Value) : Prop :=
  ∀ m v m', value m = .ok v m' → ∃ x : Tree .first, m.state.source.Reads x.encode m'.state.source ∧ x.Fits ∧
    x.depth + m.depth ≤ maxNesting ∧ m'.depth = m.depth

section Accept

variable {value : LoadM Value} {m m' : Nested Loading}

/-- The header that a reader starts with. -/
theorem header_ok {α : Type} {f : Option Nat → Header → LoadM α} {a : α}
    (h : (do let start ← onSource offset; let h ← onSource readHeader; f start h : LoadM α) m = .ok a m') :
    ∃ start header m₁, m.state.source.Reads (Item.header header).bytes m₁.state.source ∧
      m₁.state.store = m.state.store ∧ m₁.depth = m.depth ∧ f start header m₁ = .ok a m' := by
  obtain ⟨start, m₁, h₁, h⟩ := bind_ok_iff.mp h
  obtain ⟨header, m₂, h₂, h⟩ := bind_ok_iff.mp h
  obtain ⟨ho, s₁, d₁⟩ := onSource_ok_iff.mp h₁
  obtain ⟨hh, s₂, d₂⟩ := onSource_ok_iff.mp h₂
  rw [(offset_ok_iff.mp ho).2] at hh
  exact ⟨start, header, m₂, readHeader_ok_iff.mp hh, s₂.trans s₁, d₂.trans d₁, h⟩

/-- The kind of a cell is read, and then a value for the first slot. -/
theorem readCell_ok {c : CellId} (h : readCell value c m = .ok () m') :
    ∃ (kind : CellKind) (v : Value) (m₁ m₂ : Nested Loading),
      m.state.source.Reads (Item.u8 kind.byte).bytes m₁.state.source ∧ m₁.state.store = m.state.store ∧
      m₁.depth = m.depth ∧ value m₁ = .ok v m₂ ∧
      m' = ⟨⟨m₂.state.store.modifyCell c fun cell => { cell with kind, car := v }, m₂.state.source⟩, m₂.depth⟩ := by
  obtain ⟨start, m₁, h₁, h⟩ := bind_ok_iff.mp h
  obtain ⟨byte, m₂, h₂, h⟩ := bind_ok_iff.mp h
  obtain ⟨ho, s₁, d₁⟩ := onSource_ok_iff.mp h₁
  obtain ⟨hb, s₂, d₂⟩ := onSource_ok_iff.mp h₂
  rw [(offset_ok_iff.mp ho).2] at hb
  cases hk : CellKind.ofByte? byte with
  | none => rw [hk] at h; cases h
  | some kind =>
    rw [hk] at h
    obtain ⟨v, m₃, h₃, h⟩ := bind_ok_iff.mp h
    have hkind := readU8_ok_iff.mp hb
    rw [byte_of_ofByte? hk] at hkind
    cases h
    exact ⟨kind, v, m₂, m₃, hkind, s₂.trans s₁, d₂.trans d₁, h₃, rfl⟩

theorem reads_of_readCell (hv : Accepts value) {c : CellId} (h : readCell value c m = .ok () m') :
    ∃ (kind : CellKind) (x : Tree .first),
      m.state.source.Reads ((Item.u8 kind.byte).bytes ++ x.encode) m'.state.source ∧ x.Fits ∧
      x.depth + m.depth ≤ maxNesting ∧ m'.depth = m.depth := by
  obtain ⟨kind, v, m₁, m₂, hkind, -, d₁, hvalue, rfl⟩ := readCell_ok h
  obtain ⟨x, hx, hfit, hd, d₂⟩ := hv _ _ _ hvalue
  exact ⟨kind, x, reads_append.mpr ⟨_, hkind, hx⟩, hfit, by omega, d₂.trans d₁⟩

theorem reads_of_readTail (hv : Accepts value) {c : CellId} {rounds : Nat} {last : Option CellId} {d : Nat}
    (hd : m.depth = d + 1) (hmax : d < maxNesting) (h : readTail value c rounds last m = .ok () m') :
    ∃ y : Tree .second, m.state.source.Reads y.encode m'.state.source ∧ y.Fits ∧ y.depth + d ≤ maxNesting ∧
      m'.depth = m.depth := by
  induction rounds generalizing last m with
  | zero => cases h
  | succ rounds ih =>
    obtain ⟨start, header, m₂, hheader, -, d₂, h⟩ := header_ok h
    by_cases hnil : header = .nil
    · subst hnil
      have hm : m'.state.source = m₂.state.source ∧ m'.depth = m₂.depth := by
        cases last <;> cases h <;> exact ⟨rfl, rfl⟩
      rw [hm.1]
      exact ⟨.nil, hheader, trivial, by simp only [Tree.depth]; omega, by omega⟩
    by_cases hcell : header = .cell
    · subst hcell
      simp only [hnil, if_false, if_true] at h
      obtain ⟨new, m₃, h₃, h⟩ := bind_ok_iff.mp h
      obtain ⟨_, m₄, h₄, h⟩ := bind_ok_iff.mp h
      obtain ⟨_, m₅, h₅, h⟩ := bind_ok_iff.mp h
      cases h₃
      obtain ⟨kind, x, hx, hxfit, hxd, d₄⟩ := reads_of_readCell hv h₄
      cases h₅
      simp only at hx d₄ hxd
      obtain ⟨y, hy, hyfit, hyd, d₅⟩ := ih (by simp only; omega) h
      refine ⟨.cell kind x y, ?_, ⟨hxfit, hyfit⟩, by simp only [Tree.depth]; omega, by simp only at d₅; omega⟩
      rw [Tree.encode, ← List.append_assoc _ x.encode]
      exact reads_append.mpr ⟨_, hheader, reads_append.mpr ⟨_, hx, hy⟩⟩
    · simp only [hnil, hcell, if_false] at h
      cases h

theorem reads_of_readLeaf {s : Store} {source : Source} {d : Nat} {e : Datum}
    (h : readStateWith value (.atom (s.newAtom (.datum e.blank)).1)
      ⟨⟨(s.newAtom (.datum e.blank)).2, source⟩, d⟩ = .ok () m') :
    ∃ x : Datum, x.header = e.header ∧ x.item.Fits ∧ source.Reads x.item.bytes m'.state.source ∧ m'.depth = d := by
  have hnew := (atom_newAtom (s := s) (x := .datum e.blank) _).trans (if_pos rfl)
  obtain ⟨_, m₁, h₁, h⟩ := bind_ok_iff.mp h
  cases h₁
  simp only [hnew] at h
  obtain ⟨x, m₂, h₂, h⟩ := bind_ok_iff.mp h
  cases h
  obtain ⟨hx, -, d₂⟩ := onSource_ok_iff.mp h₂
  obtain ⟨hheader, hfit, hreads⟩ := readLike_ok_iff.mp hx
  have he : e.blank.header = e.header := by cases e <;> rfl
  exact ⟨x, hheader.trans he, hfit, hreads, d₂⟩

/-- With the core family alone, only the wire forms of trees that are not nested too deeply are accepted. -/
theorem accepts_readValue (n : Nat) : Accepts (Registry.core.readValue n) := by
  induction n with
  | zero => intro m v m' h; cases h
  | succ n ih =>
    intro m v m' h
    obtain ⟨hd, m₀, hrun, rfl⟩ := level_ok h
    obtain ⟨start, header, m₂, hheader, -, d₂, h⟩ := header_ok hrun
    simp only at d₂ hheader
    by_cases hnil : header = .nil
    · subst hnil
      cases h
      exact ⟨.nil, hheader, trivial, by simp only [Tree.depth]; omega, by simp only; omega⟩
    simp only [hnil, if_false] at h
    obtain ⟨ref, m₃, h₃, h⟩ := bind_ok_iff.mp h
    obtain ⟨_, m₄, h₄, h⟩ := bind_ok_iff.mp h
    cases h
    unfold Registry.instantiate at h₃
    cases hp : Registry.core.prototype header start with
    | error e => rw [hp] at h₃; cases h₃
    | ok p =>
      rw [hp] at h₃
      cases h₃
      obtain ⟨rfl, rfl⟩ | ⟨e, rfl, rfl⟩ := prototype_core hp
      · obtain ⟨_, m₅, h₅, h⟩ := bind_ok_iff.mp h₄
        obtain ⟨kind, x, hx, hxfit, hxd, d₅⟩ := reads_of_readCell ih h₅
        simp only at hx hxd d₅
        obtain ⟨_, m₆, h₆, h⟩ := bind_ok_iff.mp h
        cases h₆
        obtain ⟨y, hy, hyfit, hyd, d₆⟩ := reads_of_readTail ih (d := m.depth) (by omega) hd h
        refine ⟨.cell kind x y, ?_, ⟨hxfit, hyfit⟩, by simp only [Tree.depth]; omega, by simp only; omega⟩
        rw [Tree.encode, ← List.append_assoc _ x.encode]
        exact reads_append.mpr ⟨_, hheader, reads_append.mpr ⟨_, hx, hy⟩⟩
      · obtain ⟨x, hx, hfit, hreads, d₄⟩ := reads_of_readLeaf h₄
        refine ⟨.leaf x, ?_, hfit, by simp only [Tree.depth]; omega, by simp only; omega⟩
        rw [Tree.encode, hx]
        exact reads_append.mpr ⟨_, hheader, hreads⟩

end Accept

/-! ## However reading ends -/

/-- Whatever the outcome, the objects of `s₀` are as before and all levels that were opened are closed. -/
def Frames {α : Type} (s₀ : Store) (x : LoadM α) : Prop :=
  ∀ m, s₀.Extends m.state.store → s₀.Extends (after (x m)).state.store ∧ (after (x m)).depth = m.depth

section Frame

variable {α β : Type} {s₀ : Store}

theorem frames_pure (a : α) : Frames s₀ (pure a : LoadM α) := fun _ h => ⟨h, rfl⟩

theorem frames_throw (e : SerialError) : Frames s₀ (throw e : LoadM α) := fun _ h => ⟨h, rfl⟩

theorem frames_get : Frames s₀ (get : LoadM (Nested Loading)) := fun _ h => ⟨h, rfl⟩

theorem frames_onSource (x : ReadM α) : Frames s₀ (onSource x) := by
  intro m h
  simp only [onSource, lift]
  cases x m.state.source <;> exact ⟨h, rfl⟩

theorem frames_change {f : Store → Store} (hf : ∀ t, s₀.Extends t → s₀.Extends (f t)) : Frames s₀ (change f) :=
  fun _ h => ⟨hf _ h, rfl⟩

theorem frames_bind {x : LoadM α} {f : α → LoadM β} (hx : Frames s₀ x) (hf : ∀ a, Frames s₀ (f a)) :
    Frames s₀ (x >>= f) := by
  intro m h
  obtain ⟨hs, hd⟩ := hx m h
  rw [run_bind]
  cases hm : x m with
  | error e m' => rw [hm] at hs hd; exact ⟨hs, hd⟩
  | ok a m' =>
    rw [hm] at hs hd
    obtain ⟨hs', hd'⟩ := hf a m' hs
    exact ⟨hs', hd'.trans hd⟩

/-- What follows the making of an object may use what is known of it, such as that it is new. -/
theorem frames_make (new : α → Prop) {f : Store → α × Store} {g : α → LoadM β}
    (hf : ∀ s, s₀.Extends s → new (f s).1 ∧ s.Extends (f s).2) (hg : ∀ a, new a → Frames s₀ (g a)) :
    Frames s₀ (onStore f >>= g) := by
  rintro ⟨⟨s, source⟩, d⟩ h
  obtain ⟨hnew, hext⟩ := hf s h
  exact hg _ hnew ⟨⟨(f s).2, source⟩, d⟩ (h.trans hext)

theorem newCell_new {s : Store} (h : s₀.Extends s) :
    ¬ s₀.Has (.cell (s.newCell {}).1) ∧ s.Extends (s.newCell {}).2 :=
  ⟨fun hr => newCell_fresh s {} (h.has hr), extends_newCell s {}⟩

theorem make_new (p : Prototype) {s : Store} (h : s₀.Extends s) :
    ¬ s₀.Has (p.make s).1 ∧ s.Extends (p.make s).2 := by
  cases p with
  | cell => exact newCell_new h
  | atom a => exact ⟨fun hr => newAtom_fresh s a (h.has hr), extends_newAtom s a⟩

theorem frames_level {x : LoadM α} (hx : Frames s₀ x) : Frames s₀ (level x) := by
  intro m h
  unfold level
  split
  · exact ⟨h, rfl⟩
  · obtain ⟨hs, hd⟩ := hx { m with depth := m.depth + 1 } h
    split
    all_goals
      next hn =>
      rw [hn] at hs hd
      simp only [after] at hs hd ⊢
      exact ⟨hs, by omega⟩

variable {value : LoadM Value}

theorem frames_readCell (hv : Frames s₀ value) {c : CellId} (hc : ¬ s₀.Has (.cell c)) :
    Frames s₀ (readCell value c) := by
  refine frames_bind (frames_onSource _) fun start => frames_bind (frames_onSource _) fun byte => ?_
  cases CellKind.ofByte? byte with
  | none => exact frames_throw _
  | some kind => exact frames_bind hv fun v => frames_change fun t ht => ht.modifyCell hc _

theorem frames_readTail (hv : Frames s₀ value) {c : CellId} {last : Option CellId} (hc : ¬ s₀.Has (.cell c))
    (hlast : ∀ q, last = some q → ¬ s₀.Has (.cell q)) (rounds : Nat) :
    Frames s₀ (readTail value c rounds last) := by
  induction rounds generalizing last with
  | zero => exact frames_throw _
  | succ rounds ih =>
    refine frames_bind (frames_onSource _) fun start => frames_bind (frames_onSource _) fun h => ?_
    split
    · split
      · exact frames_change fun t ht => ht.modifyCell hc _
      · exact frames_pure _
    split
    · refine frames_make (fun c => ¬ s₀.Has (.cell c)) (fun _ => newCell_new) fun new hnew => ?_
      refine frames_bind (frames_readCell hv hnew) fun _ => ?_
      refine frames_bind (frames_change fun t ht => ?_) fun _ => ih (by rintro q ⟨⟩; exact hnew)
      cases last with
      | none => exact ht.modifyCell hc _
      | some q => exact ht.modifyCell (hlast q rfl) _
    · exact frames_throw _

theorem frames_attempt {x : LoadM α} (hx : Frames s₀ x) : Frames s₀ (attempt x) := by
  intro m h
  have hm := hx m h
  unfold attempt
  split
  all_goals
    next hn =>
    rw [hn] at hm
    exact hm

theorem frames_recipe (hv : Frames s₀ value) (recipe : Recipe) : Frames s₀ (recipe.run value) := by
  induction recipe with
  | done fields => exact frames_pure _
  | refuse message => exact frames_throw _
  | item shape next ih => exact frames_bind (frames_onSource _) ih
  | value next ih => exact frames_bind hv ih
  | view v next ih => exact frames_bind frames_get fun _ => ih _
  | attempt first next ih ih' => exact frames_bind (frames_attempt ih) ih'

theorem frames_readStateWith (hv : Frames s₀ value) {r : Ref} (hr : ¬ s₀.Has r) :
    Frames s₀ (readStateWith value r) := by
  cases r with
  | cell c =>
    refine frames_bind (frames_readCell hv hr) fun _ => frames_bind frames_get fun _ => ?_
    exact frames_readTail hv hr (by rintro q ⟨⟩) _
  | atom a =>
    refine frames_bind frames_get fun m => ?_
    split
    · exact frames_bind (frames_onSource _) fun _ => frames_change fun t ht => ht.setAtom hr _
    · exact frames_throw _
    · split
      · exact frames_throw _
      · exact frames_bind (frames_recipe hv _) fun _ => frames_change fun t ht => ht.setAtom hr _

/-- Reading a value leaves alone what is there, with whatever families and however it ends. -/
theorem frames_readValue (s₀ : Store) (r : Registry) (n : Nat) : Frames s₀ (r.readValue n) := by
  induction n with
  | zero => exact frames_throw _
  | succ n ih =>
    refine frames_level (frames_bind (frames_onSource _) fun start => frames_bind (frames_onSource _) fun h => ?_)
    split
    · exact frames_pure _
    unfold Registry.instantiate
    split
    · exact frames_throw _
    · next p _ =>
      exact frames_make (fun r => ¬ s₀.Has r) (fun _ => make_new p) fun ref href =>
        frames_bind (frames_readStateWith ih href) fun _ => frames_pure _

end Frame

/-! ## Bytes as a whole -/

theorem ofBytes_eq (r : Registry) (bytes : List UInt8) (s : Store) :
    r.ofBytes bytes s = match r.deserialize ⟨⟨s, .ofBytes .cursor bytes⟩, 0⟩ with
      | .error e m => .error e m.state.store
      | .ok v m =>
        match m.state.source.rest with
        | [] => .ok v m.state.store
        | rest => .error (.invalid (.trailing rest.length) (some m.state.source.position)) m.state.store := by
  simp only [Registry.ofBytes, Thread.ofBytes, Thread.deserialize, Thread.load, bind, StateT.bind]
  cases r.deserialize ⟨⟨s, .ofBytes .cursor bytes⟩, 0⟩ with
  | error e m => rfl
  | ok v m => dsimp only; cases m.state.source.rest <;> rfl

theorem ofBytes_encode {r : Registry} (hr : r.HasCore) {x : Tree .first} (hfit : x.Fits)
    (hd : x.depth ≤ maxNesting) (s : Store) :
    ∃ v t, r.ofBytes x.encode s = .ok v t ∧ s.Extends t ∧ s.Built t v x := by
  have hreads : (Source.ofBytes .cursor x.encode).Reads x.encode _ := reads_of_rest (List.append_nil _).symm
  obtain ⟨v, t, hrun, hext, hbuilt⟩ :=
    builds_readValue hr (n := maxNesting) (d := 0) hfit hd (Nat.le_refl _) s _ _ hreads
  refine ⟨v, t, ?_, hext, hbuilt⟩
  rw [ofBytes_eq, Registry.deserialize, hrun]
  simp [Source.advance, Source.ofBytes]

/-- What the core family accepts as a whole is the wire form of a tree, which is then built. -/
theorem ofBytes_core_ok {bytes : List UInt8} {s t : Store} {v : Value} (h : Registry.core.ofBytes bytes s = .ok v t) :
    ∃ x : Tree .first, x.encode = bytes ∧ x.Fits ∧ x.depth ≤ maxNesting ∧ s.Extends t ∧ s.Built t v x := by
  have hrun := h
  rw [ofBytes_eq] at hrun
  split at hrun
  · cases hrun
  next w m hm =>
  split at hrun
  · next hrest =>
    obtain ⟨x, hx, hfit, hd, -⟩ := accepts_readValue maxNesting _ _ _ hm
    have hbytes : x.encode = bytes := by
      have hr := hx.1
      rw [hrest, List.append_nil] at hr
      exact hr.symm
    obtain ⟨v', t', hrun', hext, hbuilt⟩ := ofBytes_encode Registry.hasCore_core hfit hd s
    rw [hbytes, h] at hrun'
    cases hrun'
    exact ⟨x, hbytes, hfit, hd, hext, hbuilt⟩
  · cases hrun

end ScriptCore
