import ScriptCore.Proofs.Reader

/-!
# What stands in the way of the reader

The wire form of a tree is read up to the first obstacle: a level that may not be opened, or a place where the input
ends. `Blocked d x source e` says where in the wire form of `x` that is, if `d` levels are open around `x`, and what
error it is; what stands in front of the obstacle is complete and can be read.

The reader comes to the obstacle and fails with its error (`meets_readValue`), at whatever depth and behind however
many cells it lies.
-/
namespace ScriptCore

open Wire Wire.Source NestedM LoadM Store

/-! ## Input that ends too early -/

namespace Wire

variable {source : Source} {n : Nat}

theorem exactly_short (hb : source.breaks = false) (hn : source.rest.length < n) :
    InputStream.exactly n source = .error (.stream .endOfInput) (source.advance source.rest.length) := by
  have hrun := upTo_eq n source
  rw [if_neg (by simp [hb]), Nat.min_eq_right (by omega), List.take_of_length_le (by omega)] at hrun
  rw [InputStream.exactly, run_bind, hrun]
  simp only [hn, if_true]
  rfl

/-- A number of fixed width is not there as a whole. -/
theorem number_short {β : Type} (ofNat : Nat → β) (hb : source.breaks = false) (hn : source.rest.length < n) :
    ∃ source', (do return ofNat (ofBigEndian (← InputStream.exactly n)) : ReadM β) source =
      .error (.stream .endOfInput) source' :=
  ⟨_, by rw [run_bind, exactly_short hb hn]⟩

theorem readHeader_short (hb : source.breaks = false) (hn : source.rest.length < 4) :
    ∃ source', readHeader source = .error (.stream .endOfInput) source' := by
  by_cases hfamily : source.rest.length < 2
  · obtain ⟨source', h⟩ := number_short UInt16.ofNat hb hfamily
    exact ⟨source', by rw [readHeader, run_bind, readU16, h]⟩
  · -- the family is there, the member is not
    have hbytes := reads_take (s := source) (n := 2) (by omega)
    have hlen : (source.rest.take 2).length = 2 := by rw [List.length_take]; omega
    have hfirst : readU16 source = .ok (UInt16.ofNat (ofBigEndian (source.rest.take 2))) (source.advance 2) := by
      rw [readU16, run_bind, exactly_iff.mpr ⟨hlen, hbytes⟩]
      rfl
    have hrest : (source.advance 2).rest.length < 2 := by
      simp only [advance, List.length_drop]
      omega
    have hb' : (source.advance 2).breaks = false := hb
    obtain ⟨source', h⟩ := number_short UInt16.ofNat hb' hrest
    rw [← readU16] at h
    exact ⟨source', by simp only [readHeader, run_bind, hfirst, h]⟩

theorem readU8_empty (hb : source.breaks = false) (hn : source.rest = []) :
    ∃ source', readU8 source = .error (.stream .endOfInput) source' :=
  number_short UInt8.ofNat hb (by simp [hn])

end Wire

/-! ## Obstacles -/

/-- With `d` levels open around the tree, its wire form is next in the source as far as the obstacle. In a chain the
levels around all cells are the same, and each first slot takes one more. -/
inductive Blocked : {p : Place} → Nat → Tree p → Source → SerialError → Prop
  /-- The input ends inside the header. -/
  | header {p : Place} {d : Nat} {x : Tree p} {source : Source} (lasts : source.breaks = false)
      (short : source.rest.length < 4) : Blocked d x source (.stream .endOfInput)
  /-- The state of plain data cannot be read. -/
  | state {d : Nat} {x : Datum} {source source₁ source₂ : Source} {e : SerialError}
      (header : source.Reads (Item.header x.header).bytes source₁)
      (fails : x.blank.readLike source₁ = .error e source₂) :
      Blocked d (.leaf x) source e
  /-- The input ends in front of the kind of a cell. -/
  | kind {p : Place} {d : Nat} {kind : CellKind} {car : Tree .first} {cdr : Tree .second} {source source₁ : Source}
      (header : source.Reads (Item.header .cell).bytes source₁) (lasts : source₁.breaks = false)
      (ends : source₁.rest = []) : Blocked (p := p) d (.cell kind car cdr) source (.stream .endOfInput)
  /-- No level is left for a first slot. -/
  | level {p : Place} {d : Nat} {kind : CellKind} {car : Tree .first} {cdr : Tree .second} {source source₁ : Source}
      (front : source.Reads ((Item.header .cell).bytes ++ (Item.u8 kind.byte).bytes) source₁)
      (full : maxNesting ≤ d + 1) : Blocked (p := p) d (.cell kind car cdr) source (.tooDeep maxNesting)
  /-- The obstacle is in a first slot. -/
  | car {p : Place} {d : Nat} {kind : CellKind} {car : Tree .first} {cdr : Tree .second} {source source₁ : Source}
      {e : SerialError} (front : source.Reads ((Item.header .cell).bytes ++ (Item.u8 kind.byte).bytes) source₁)
      (room : d + 1 < maxNesting) (blocked : Blocked (d + 1) car source₁ e) :
      Blocked (p := p) d (.cell kind car cdr) source e
  /-- The obstacle is behind a first slot that can be read. -/
  | cdr {p : Place} {d : Nat} {kind : CellKind} {car : Tree .first} {cdr : Tree .second} {source source₁ : Source}
      {e : SerialError}
      (front : source.Reads ((Item.header .cell).bytes ++ ((Item.u8 kind.byte).bytes ++ car.encode)) source₁)
      (fits : car.Fits) (depth : car.depth + (d + 1) ≤ maxNesting) (blocked : Blocked d cdr source₁ e) :
      Blocked (p := p) d (.cell kind car cdr) source e

/-- The action fails with the error. -/
def Fails {α : Type} (x : LoadM α) (s : Store) (source : Source) (d : Nat) (e : SerialError) : Prop :=
  ∃ m, x ⟨⟨s, source⟩, d⟩ = .error e m

/-- With `d` levels open, `value` builds the trees that are complete and fails at obstacles. -/
structure Meets (value : LoadM Value) (d : Nat) : Prop where
  builds : ∀ x : Tree .first, x.Fits → x.depth + d ≤ maxNesting → Builds value d x
  full : maxNesting ≤ d → ∀ s source, Fails value s source d (.tooDeep maxNesting)
  blocked : d < maxNesting → ∀ (x : Tree .first) source e, Blocked d x source e → ∀ s, Fails value s source d e

section Failures

variable {s : Store} {source source₁ : Source} {d : Nat} {e : SerialError} {value : LoadM Value}

theorem fails_onSource {α : Type} {x : ReadM α} (h : x source = .error e source₁) :
    Fails (onSource x) s source d e :=
  ⟨⟨⟨s, source₁⟩, d⟩, by simp [onSource, lift, h]⟩

theorem fails_bind {α β : Type} {x : LoadM α} {f : α → LoadM β} (h : Fails x s source d e) :
    Fails (x >>= f) s source d e := by
  obtain ⟨m, h⟩ := h
  exact ⟨m, by rw [run_bind, h]⟩

/-- What follows a step that succeeds fails. -/
theorem fails_after {α β : Type} {x : LoadM α} {f : α → LoadM β} {a : α} {s' : Store}
    (hx : x ⟨⟨s, source⟩, d⟩ = .ok a ⟨⟨s', source₁⟩, d⟩) (hf : Fails (f a) s' source₁ d e) :
    Fails (x >>= f) s source d e := by
  obtain ⟨m, hf⟩ := hf
  exact ⟨m, by rw [run_bind, hx]; exact hf⟩

theorem fails_level {α : Type} {x : LoadM α} (hd : d < maxNesting) (h : Fails x s source (d + 1) e) :
    Fails (level x) s source d e := by
  obtain ⟨m, h⟩ := h
  exact ⟨{ m with depth := m.depth - 1 }, by simp only [level, if_neg (Nat.not_le.mpr hd), h]⟩

/-- The position is asked for in front of a header. -/
theorem fails_header {α : Type} {f : Option Nat → Header → LoadM α} (lasts : source.breaks = false)
    (short : source.rest.length < 4) :
    Fails (do let start ← onSource offset; let h ← onSource readHeader; f start h) s source d
      (.stream .endOfInput) := by
  obtain ⟨start, hstart⟩ := offset_run s source d
  obtain ⟨source', hshort⟩ := readHeader_short lasts short
  exact fails_after hstart (fails_bind (fails_onSource hshort))

/-- A first slot cannot be read. -/
theorem readCell_fails {kind : CellKind} (h : source.Reads (Item.u8 kind.byte).bytes source₁)
    (hv : Fails value s source₁ d e) (c : CellId) : Fails (readCell value c) s source d e := by
  obtain ⟨start, hstart⟩ := offset_run s source d
  have hbyte := onSource_ok (s := s) (d := d) (readU8_ok_iff.mpr h)
  refine fails_after hstart (fails_after hbyte ?_)
  simp only [ofByte?_byte]
  exact fails_bind hv

/-- The state of plain data cannot be read. -/
theorem readLeaf_fails {x : Datum} (h : x.blank.readLike source = .error e source₁) :
    Fails (readStateWith value (.atom (s.newAtom (.datum x.blank)).1)) (s.newAtom (.datum x.blank)).2 source d e := by
  have hnew := (atom_newAtom (s := s) (x := .datum x.blank) _).trans (if_pos rfl)
  refine fails_after (run_get _) ?_
  simp only [hnew]
  exact fails_bind (fails_onSource h)

/-- There is no kind. -/
theorem readCell_empty (lasts : source.breaks = false) (ends : source.rest = []) (c : CellId) :
    Fails (readCell value c) s source d (.stream .endOfInput) := by
  obtain ⟨start, hstart⟩ := offset_run s source d
  obtain ⟨source', hempty⟩ := readU8_empty lasts ends
  exact fails_after hstart (fails_bind (fails_onSource hempty))

/-- In a cell whose header can be read, the obstacle is in what the cell holds or behind it. -/
theorem Blocked.cell {p : Place} {kind : CellKind} {car : Tree .first} {cdr : Tree .second} (hv : Meets value (d + 1))
    (h : Blocked d (.cell (p := p) kind car cdr) source e) :
    (source.breaks = false ∧ source.rest.length < 4 ∧ e = .stream .endOfInput) ∨
    ∃ source₁, source.Reads (Item.header .cell).bytes source₁ ∧
      ((∀ s c, Fails (readCell value c) s source₁ (d + 1) e) ∨
      ∃ source₂, source₁.Reads ((Item.u8 kind.byte).bytes ++ car.encode) source₂ ∧ Builds value (d + 1) car ∧
        Blocked d cdr source₂ e) := by
  cases h with
  | header lasts short => exact .inl ⟨lasts, short, rfl⟩
  | kind header lasts ends => exact .inr ⟨_, header, .inl fun s c => readCell_empty lasts ends c⟩
  | level front full =>
    obtain ⟨source₁, hheader, hkind⟩ := reads_append.mp front
    exact .inr ⟨source₁, hheader, .inl fun s c => readCell_fails hkind (hv.full full s _) c⟩
  | car front room blocked =>
    obtain ⟨source₁, hheader, hkind⟩ := reads_append.mp front
    exact .inr ⟨source₁, hheader, .inl fun s c => readCell_fails hkind (hv.blocked room _ _ _ blocked s) c⟩
  | cdr front fits depth blocked =>
    obtain ⟨source₁, hheader, hcell⟩ := reads_append.mp front
    exact .inr ⟨source₁, hheader, .inr ⟨_, hcell, hv.builds car fits depth, blocked⟩⟩

/-- The obstacle is in the further cells of a chain. -/
theorem readTail_of_blocked (hv : Meets value (d + 1)) {y : Tree .second} {s : Store} {source : Source}
    (h : Blocked d y source e) (c : CellId) (last : Option CellId) {rounds : Nat}
    (hr : source.rest.length < rounds) : Fails (readTail value c rounds last) s source (d + 1) e := by
  obtain ⟨rounds, rfl⟩ : ∃ n, rounds = n + 1 := ⟨rounds - 1, by omega⟩
  cases y with
  | nil => cases h with | header lasts short => exact fails_header lasts short
  | cell kind x y =>
    rcases h.cell hv with ⟨lasts, short, rfl⟩ | ⟨source₁, hheader, hcell⟩
    · exact fails_header lasts short
    obtain ⟨start, hstart⟩ := offset_run s source (d + 1)
    have hheader' := onSource_ok (s := s) (d := d + 1) (readHeader_ok_iff.mpr hheader)
    obtain ⟨new, s₁, hnew, -, -, hhas, -⟩ := exists_newCell s
    have hmake : onStore (·.newCell {}) ⟨⟨s, source₁⟩, d + 1⟩ = .ok new ⟨⟨s₁, source₁⟩, d + 1⟩ := by
      rw [onStore_run, hnew]
    refine fails_after hstart (fails_after hheader' ?_)
    simp only [show Header.cell ≠ .nil by decide, if_false, if_true]
    refine fails_after hmake ?_
    rcases hcell with hcar | ⟨source₂, hreads, hbuilds, hblocked⟩
    · exact fails_bind (hcar s₁ new)
    · obtain ⟨v, s₂, hrun, -, -⟩ := readCell_of_reads hbuilds hhas hreads
      have hrest : source₂.rest.length < rounds := by
        have hlen := congrArg List.length hheader.1
        rw [hreads.1] at hlen
        have hpos : 0 < (Item.header .cell).bytes.length := by decide
        simp only [List.length_append] at hlen
        omega
      exact fails_after hrun (fails_after (change_run _) (readTail_of_blocked hv hblocked c (some new) hrest))

/-- The object that a header stands for cannot read its state. -/
theorem readValue_object_fails {r : Registry} {n : Nat} {h : Header} {p : Prototype} (hd : d < maxNesting)
    (hh : source.Reads (Item.header h).bytes source₁) (hnil : h ≠ .nil) (hp : ∀ start, r.prototype h start = .ok p)
    (hrun : Fails (readStateWith (r.readValue n) (p.make s).1) (p.make s).2 source₁ (d + 1) e) :
    Fails (r.readValue (n + 1)) s source d e := by
  obtain ⟨start, hstart⟩ := offset_run s source (d + 1)
  have hheader := onSource_ok (s := s) (d := d + 1) (readHeader_ok_iff.mpr hh)
  refine fails_level hd (fails_after hstart (fails_after hheader ?_))
  simp only [hnil, if_false, Registry.instantiate, hp]
  exact fails_after (onStore_run _) (fails_bind hrun)

theorem readValue_refused (r : Registry) (n : Nat) (hd : maxNesting ≤ d) :
    Fails (r.readValue n) s source d (.tooDeep maxNesting) := by
  cases n with
  | zero => exact ⟨_, rfl⟩
  | succ n => exact ⟨_, if_pos hd⟩

/-- A tree with an obstacle in it, if the reader for the values inside comes to obstacles. -/
theorem readValue_succ_of_blocked {r : Registry} (hr : r.HasCore) {n : Nat} (hv : Meets (r.readValue n) (d + 1))
    (hd : d < maxNesting) {x : Tree .first} (h : Blocked d x source e) (s : Store) :
    Fails (r.readValue (n + 1)) s source d e := by
  have hshort : source.breaks = false → source.rest.length < 4 →
      Fails (r.readValue (n + 1)) s source d (.stream .endOfInput) := by
    intro lasts short
    exact fails_level hd (fails_header lasts short)
  cases x with
  | nil => cases h with | header lasts short => exact hshort lasts short
  | leaf x =>
    cases h with
    | header lasts short => exact hshort lasts short
    | state header fails =>
      refine readValue_object_fails (p := .atom (.datum x.blank)) hd header (datum_header_ne_nil x)
        (hr.prototype_datum x) ?_
      exact readLeaf_fails fails
  | cell kind x y =>
    rcases h.cell hv with ⟨lasts, short, rfl⟩ | ⟨source₁, hheader, hcell⟩
    · exact hshort lasts short
    refine readValue_object_fails (p := .cell) hd hheader (by decide) hr.prototype_cell ?_
    obtain ⟨c, s₁, hnew, -, -, hhas, -⟩ := exists_newCell s
    simp only [Prototype.make, hnew]
    rcases hcell with hcar | ⟨source₂, hreads, hbuilds, hblocked⟩
    · exact fails_bind (hcar s₁ c)
    · obtain ⟨v, s₂, hrun, -, -⟩ := readCell_of_reads hbuilds hhas hreads
      exact fails_after hrun (fails_after (run_get _) (readTail_of_blocked hv hblocked c none (Nat.lt_succ_self _)))

/-- The reader comes to obstacles, if its bound leaves room for all levels that may be opened. -/
theorem meets_readValue {r : Registry} (hr : r.HasCore) {n d : Nat} (hn : maxNesting ≤ n + d) :
    Meets (r.readValue n) d := by
  induction n generalizing d with
  | zero =>
    refine ⟨fun x hfit hx => builds_readValue hr hfit hx hn, fun hd s source => readValue_refused r 0 hd, fun hd => ?_⟩
    omega
  | succ n ih =>
    refine ⟨fun x hfit hx => builds_readValue hr hfit hx hn, fun hd s source => readValue_refused r _ hd, ?_⟩
    intro hd x source e h s
    exact readValue_succ_of_blocked hr (ih (by omega)) hd h s

end Failures

/-- Bytes that are read as a whole are refused at the first obstacle. -/
theorem ofBytes_of_blocked {r : Registry} (hr : r.HasCore) {x : Tree .first} {bytes : List UInt8} {e : SerialError}
    (h : Blocked 0 x (.ofBytes .cursor bytes) e) (s : Store) : ∃ t, r.ofBytes bytes s = .error e t := by
  obtain ⟨m, hm⟩ := (meets_readValue hr (n := maxNesting) (Nat.le_refl _)).blocked (by decide) x _ e h s
  exact ⟨m.state.store, by rw [ofBytes_eq, Registry.deserialize, hm]⟩

end ScriptCore
