import ScriptCore.Proofs.Copies
import ScriptCore.Proofs.Labels

/-!
# How a chain is read

The cells of a chain are read one by one, and each is linked to the one in front of it when its kind and its first slot
are complete. `readLink` is what is done for one of them. However reading the further cells ends, it has read some cells
as a whole, and then found the end of the chain or failed in the next link (`readTail_runs`). The same goes for a cell
that reads its state (`readStateWith_runs`).

`Decoded P s t l bytes` says that the cells `l` were made of the bytes, each new and with a first slot of which `P`
holds, and `Replaced P s t c l cdr bytes` that a cell `c` of `s` was given the state in the bytes, with `l` behind it.
`Parsed` is what holds of every value that is read: its objects are labelled, the tree that it unfolds to can be written
where it was read, and with the core family alone there is such a tree (`parses_readValue`).
-/
namespace ScriptCore

open Wire Wire.Source NestedM LoadM Store Chain

/-! ## One link -/

section Link

variable {σ : Type} [InputStream σ]

/-- Reads the next cell of a chain, or its end. -/
def readLink (value : LoadingM σ Value) : LoadingM σ (Option CellId) := do
  let start ← onSource offset
  let h ← onSource readHeader
  if h = .nil then
    return none
  else if h = .cell then
    let new ← onStore (·.newCell {})
    readCell value new
    return some new
  else
    throw (.invalid (.cdrHeader h) start)

/-- The further cells are read link by link. -/
theorem readTail_succ (value : LoadingM σ Value) (c : CellId) (rounds : Nat) (last : Option CellId) :
    readTail value c (rounds + 1) last = (do
      match ← readLink value with
      | none => if last.isNone then change (·.setCdr c none)
      | some new =>
        change (·.setCdr (last.getD c) (some new))
        readTail value c rounds (some new)) := by
  simp only [readTail, readLink, bind_assoc]
  congr; funext start
  congr; funext h
  split
  · rfl
  split
  · simp only [bind_assoc, pure_bind]
  · rfl

end Link

/-! ## Labelled values and trees -/

section Trees

variable {r : Registry} {s t u : Store}

/-- A tree that a labelled value unfolds to is made of the same bytes, through new objects. -/
theorem Labelled.unfolds {v : Value} {bytes : List UInt8} (h : Labelled r s t v bytes) {p : Place} {x : Tree p}
    {rs : List Ref} (hx : t.Unfolds v x rs) : x.encode = bytes ∧ ∀ q ∈ rs, ¬ s.Has q ∧ t.Has q := by
  cases h with
  | nil =>
    cases hx
    exact ⟨rfl, fun q hq => by cases hq⟩
  | datum made holds =>
    cases hx with
    | leaf ha =>
      rw [holds] at ha
      cases ha
      have hheader := made.header
      rw [header?, holds, Atom.header?, Option.some.injEq] at hheader
      exact ⟨by rw [Tree.encode, hheader], fun q hq => List.mem_singleton.mp hq ▸ ⟨made.new, made.has⟩⟩
  | host made holds _ _ =>
    cases hx with
    | leaf ha => rw [holds] at ha; cases ha
  | cell made first rest =>
    cases hx with
    | cell hx hy =>
      obtain ⟨hfirst, hxs⟩ := first.unfolds hx
      obtain ⟨hrest, hys⟩ := rest.unfolds hy
      have hheader := made.header
      rw [header?, Option.some.injEq] at hheader
      refine ⟨by rw [Tree.encode, hfirst, hrest, hheader], fun q hq => ?_⟩
      rw [List.mem_cons, List.mem_append] at hq
      rcases hq with rfl | hq | hq
      · exact ⟨made.new, made.has⟩
      · exact hxs q hq
      · exact hys q hq

/-- Where the new objects are kept, a labelled value unfolds to no other tree than before. -/
theorem Labelled.unfolds_of_kept (kept : ∀ q, ¬ s.Has q → t.Has q → u.Has q ∧ t.SameAt u q) {v : Value}
    {bytes : List UInt8} (h : Labelled r s t v bytes) {p : Place} {x : Tree p} {rs : List Ref}
    (hx : u.Unfolds v x rs) : t.Unfolds v x rs := by
  cases h with
  | nil =>
    cases hx
    exact .nil
  | datum made holds =>
    cases hx with
    | leaf ha =>
      have hsame := (kept _ made.new made.has).2
      exact .leaf (hsame.symm.trans ha)
  | host made holds _ _ =>
    cases hx with
    | leaf ha =>
      have hsame := (kept _ made.new made.has).2
      rw [show u.atom _ = t.atom _ from hsame, holds] at ha
      cases ha
  | @cell c _ _ _ made first rest =>
    cases hx with
    | cell hx hy =>
      have hsame : u.cell c = t.cell c := (kept _ made.new made.has).2
      rw [hsame] at hx hy ⊢
      exact .cell (first.unfolds_of_kept kept hx) (rest.unfolds_of_kept kept hy)

/-- A labelled value from which only cells and data can be reached unfolds to a tree. -/
theorem Labelled.exists_unfolds : ∀ {v : Value} {bytes : List UInt8}, Labelled r s t v bytes → t.Core v →
    ∀ p : Place, (p = .second → ∃ link, v = .ofLink link) → ∃ (x : Tree p) (rs : List Ref), t.Unfolds v x rs
  | _, _, .nil, _, _, _ => ⟨_, _, .nil⟩
  | _, _, .datum made holds, _, .first, _ => ⟨_, _, .leaf holds⟩
  | _, _, .datum made holds, _, .second, hp => by
    obtain ⟨link, hlink⟩ := hp rfl
    cases link <;> cases hlink
  | _, _, .host made holds _ _, hcore, _, _ => by
    obtain ⟨x, hx⟩ := hcore _ (Reaches.refl t _)
    rw [holds] at hx
    cases hx
  | _, _, .cell made first rest, hcore, _, _ => by
    obtain ⟨x, xs, hx⟩ := first.exists_unfolds (fun a ha => hcore a ha.of_car) .first (fun h => by cases h)
    obtain ⟨y, ys, hy⟩ := rest.exists_unfolds (fun a ha => hcore a ha.of_cdr) .second fun _ => ⟨_, rfl⟩
    exact ⟨_, _, .cell hx hy⟩

end Trees

/-! ## What is read -/

/-- If the value unfolds to a tree, the tree can be written with `d` levels open. With the core family alone it does. -/
structure Writable (r : Registry) (d : Nat) (t : Store) (v : Value) : Prop where
  sized : ∀ (x : Tree .first) (rs : List Ref), t.Unfolds v x rs → x.Fits ∧ x.depth + d ≤ maxNesting
  core : r = .core → ∃ (x : Tree .first) (rs : List Ref), t.Unfolds v x rs

/-- From `s` to `t` the value was made of the bytes, and it can be written where it was read, with `d` levels open. -/
structure Parsed (r : Registry) (d : Nat) (s t : Store) (v : Value) (bytes : List UInt8) : Prop
    extends Writable r d t v where
  labelled : Labelled r s t v bytes

/-- From `s` to `t` the cells were made of the bytes: for each its header, its kind, and a first slot of which `P`
holds. -/
inductive Decoded (P : Value → List UInt8 → Prop) (s t : Store) : List CellId → List UInt8 → Prop
  | nil : Decoded P s t [] []
  | cons {c : CellId} {l : List CellId} {first rest : List UInt8} (new : ¬ s.Has (.cell c)) (has : t.Has (.cell c))
      (car : P (t.cell c).car first) (more : Decoded P s t l rest) :
      Decoded P s t (c :: l)
        ((Item.header .cell).bytes ++ ((Item.u8 (t.cell c).kind.byte).bytes ++ (first ++ rest)))

/-- Values read by `value` are parsed. -/
structure Parses (r : Registry) (value : LoadM Value) : Prop extends Labels r value where
  writable : ∀ {m v m'}, value m = .ok v m' → Writable r m.depth m'.state.store v

section Read

variable {r : Registry} {value : LoadM Value} {s s' t u : Store} {m m' : Nested Loading} {d : Nat} {v : Value}
  {bytes : List UInt8} {l : List CellId}

theorem Parsed.mono (h : Parsed r d s t v bytes) (old : ∀ q, s'.Has q → s.Has q)
    (kept : ∀ q, ¬ s.Has q → t.Has q → u.Has q ∧ t.SameAt u q) : Parsed r d s' u v bytes := by
  refine ⟨⟨fun x rs hx => h.sized x rs (h.labelled.unfolds_of_kept kept hx), fun hr => ?_⟩, h.labelled.mono old kept⟩
  obtain ⟨x, rs, hx⟩ := h.core hr
  have hnew := (h.labelled.unfolds hx).2
  exact ⟨x, rs, hx.congr fun q hq => (kept q (hnew q hq).1 (hnew q hq).2).2⟩

theorem Decoded.mono {P Q : Value → List UInt8 → Prop} (h : Decoded P s t l bytes) (old : ∀ q, s'.Has q → s.Has q)
    (kept : t.Extends u) (imp : ∀ v bytes, P v bytes → Q v bytes) : Decoded Q s' u l bytes := by
  induction h with
  | nil => exact .nil
  | @cons c l first rest new has car _ ih =>
    have hcell := Decoded.cons (fun h => new (old _ h)) (kept.has has) (imp _ _ (kept.cell has ▸ car)) ih
    rwa [kept.cell has] at hcell

theorem Parses.parsed (hv : Parses r value) (h : value m = .ok v m') :
    ∃ bytes, m.state.source.Reads bytes m'.state.source ∧
      Parsed r m.depth m.state.store m'.state.store v bytes ∧ m.state.store.Extends m'.state.store ∧
      m'.depth = m.depth := by
  obtain ⟨bytes, hbytes, hlabelled⟩ := hv.labelled h
  obtain ⟨hext, hdepth⟩ := hv.frames _ m (.refl _)
  rw [h] at hext hdepth
  exact ⟨bytes, hbytes, ⟨hv.writable h, hlabelled⟩, hext, hdepth⟩

/-- The kind and the first slot of a cell. -/
theorem parsed_of_readCell (hv : Parses r value) {c : CellId} (hc : m.state.store.Has (.cell c))
    (h : readCell value c m = .ok () m') :
    ∃ (kind : CellKind) (v : Value) (bytes : List UInt8),
      m.state.source.Reads ((Item.u8 kind.byte).bytes ++ bytes) m'.state.source ∧ m'.depth = m.depth ∧
      Changes m.state.store m'.state.store c (fun cell => { cell with kind, car := v }) ∧
      Parsed r m.depth m.state.store m'.state.store v bytes := by
  obtain ⟨kind, v, m₁, m₂, hkind, hstore, hdepth, hvalue, rfl⟩ := readCell_ok h
  obtain ⟨bytes, hbytes, hparsed, hext, hdepth'⟩ := hv.parsed hvalue
  rw [hstore] at hext hparsed
  rw [hdepth] at hparsed
  have hchange := changes_modifyCell (hext.has hc) fun cell => { cell with kind, car := v }
  refine ⟨kind, v, bytes, reads_append.mpr ⟨_, hkind, hbytes⟩, hdepth'.trans hdepth, hext.changes hc hchange, ?_⟩
  exact hparsed.mono (fun _ => id) fun q hnew hq => ⟨hchange.has q hq, hchange.other q hq fun e => hnew (e ▸ hc)⟩

/-- One more link: the end of the chain, or a new cell with its kind and its first slot. -/
theorem readLink_ok (hv : Parses r value) {link : Option CellId} (h : readLink value m = .ok link m') :
    m'.depth = m.depth ∧
    ((link = none ∧ m.state.source.Reads (Item.header .nil).bytes m'.state.source ∧
        m'.state.store = m.state.store) ∨
      ∃ new kind v bytes s₁, link = some new ∧
        m.state.source.Reads ((Item.header .cell).bytes ++ ((Item.u8 kind.byte).bytes ++ bytes)) m'.state.source ∧
        m.state.store.Extends s₁ ∧ ¬ m.state.store.Has (.cell new) ∧ s₁.Has (.cell new) ∧
        Changes s₁ m'.state.store new (fun _ => { kind, car := v }) ∧
        Parsed r m.depth s₁ m'.state.store v bytes) := by
  obtain ⟨start, header, m₁, hheader, hstore, hdepth, h⟩ := header_ok h
  by_cases hnil : header = .nil
  · subst hnil
    cases h
    exact ⟨hdepth, .inl ⟨rfl, hheader, hstore⟩⟩
  by_cases hcell : header = .cell
  · subst hcell
    simp only [hnil, if_false, if_true] at h
    obtain ⟨new, m₂, h₂, h⟩ := bind_ok_iff.mp h
    obtain ⟨_, m₃, h₃, h⟩ := bind_ok_iff.mp h
    cases h
    obtain ⟨⟨s₀, source₁⟩, d₁⟩ := m₁
    obtain ⟨c, s₁, hmake, hs₁, hfresh, hhas, hempty⟩ := exists_newCell s₀
    rw [onStore_run, hmake] at h₂
    cases h₂
    obtain ⟨kind, v, bytes, hbytes, hdepth', hchange, hparsed⟩ := parsed_of_readCell hv hhas h₃
    subst hstore hdepth
    refine ⟨hdepth', .inr ⟨c, kind, v, bytes, s₁, rfl, reads_append.mpr ⟨_, hheader, hbytes⟩, hs₁, hfresh, hhas, ?_,
      hparsed⟩⟩
    exact ⟨hchange.has, hchange.cell.trans (by rw [hempty]), hchange.other⟩
  · simp only [hnil, hcell, if_false] at h
    cases h

/-- The state behind the end of a chain. If no further cell was read, what `c` had behind it is cut off. -/
def endChain (c : CellId) (none : Bool) (m : Nested Loading) : Nested Loading :=
  if none then ⟨⟨m.state.store.setCdr c Option.none, m.state.source⟩, m.depth⟩ else m

/-- The second slot of a cell in front of the given cells. It stays as it is if there are none. -/
def linkTo (l : List CellId) (cell : Cell) : Cell :=
  if l.isEmpty then cell else { cell with cdr := l.head? }

/-- However it ends, reading the further cells of a chain has read some cells `l` behind `last.getD c` as a whole. Then
it has found the end of the chain, or failed in one more link. -/
theorem readTail_runs (hv : Parses r value) {c : CellId} {rounds : Nat} {last : Option CellId}
    (hc : m.state.store.Has (.cell (last.getD c))) (hr : m.state.source.rest.length < rounds) :
    ∃ l bytes m₁, m.state.source.Reads bytes m₁.state.source ∧ m₁.depth = m.depth ∧
      Changes m.state.store m₁.state.store (last.getD c) (linkTo l) ∧ EndsBehind m₁.state.store.next l.head? l ∧
      Decoded (Parsed r m.depth m.state.store m₁.state.store) m.state.store m₁.state.store l bytes ∧
      ((∃ m', readLink value m₁ = .ok none m' ∧
          readTail value c rounds last m = .ok () (endChain c (last.isNone && l.isEmpty) m')) ∨
        ∃ e m', readLink value m₁ = .error e m' ∧ readTail value c rounds last m = .error e m') := by
  induction rounds generalizing last m with
  | zero => omega
  | succ rounds ih =>
    have hsame : Changes m.state.store m.state.store (last.getD c) (linkTo []) :=
      ⟨fun _ => id, rfl, fun q hq _ => (Extends.refl _ q hq).2⟩
    rw [readTail_succ, run_bind]
    cases hlink : readLink value m with
    | error e m' => exact ⟨[], [], m, reads_nil.mpr rfl, rfl, hsame, rfl, .nil, .inr ⟨e, m', hlink, rfl⟩⟩
    | ok link m₂ =>
      obtain ⟨hdepth, ⟨rfl, -, -⟩ | ⟨new, kind, v, first, s₁, rfl, hfirst, hs₁, hfresh, hhas, k₂, hparsed⟩⟩ :=
        readLink_ok hv hlink
      · refine ⟨[], [], m, reads_nil.mpr rfl, rfl, hsame, rfl, .nil, .inl ⟨m₂, hlink, ?_⟩⟩
        cases last <;> rfl
      · have hext : m.state.store.Extends m₂.state.store := k₂.extends hfresh hs₁
        have k₃ := changes_modifyCell (hext.has hc) fun cell => { cell with cdr := some new }
        set s₃ := m₂.state.store.modifyCell (last.getD c) fun cell => { cell with cdr := some new }
        have hne : Ref.cell new ≠ .cell (last.getD c) := fun e => hfresh (e ▸ hc)
        have hcell₃ : s₃.cell new = { kind, car := v } := (k₃.other _ (k₂.has _ hhas) hne).trans k₂.cell
        have hrest : m₂.state.source.rest.length < rounds := by
          have hlen := congrArg List.length hfirst.1
          have hpos : 0 < (Item.header .cell).bytes.length := by decide
          simp only [List.length_append] at hlen
          omega
        have hhas₃ : s₃.Has (.cell ((some new).getD c)) := k₃.has _ (k₂.has _ hhas)
        obtain ⟨l, bytes, m₁, hbytes, hdepth₁, k₁, hends, hdecoded, houtcome⟩ :=
          ih (m := ⟨⟨s₃, m₂.state.source⟩, m₂.depth⟩) hhas₃ hrest
        have hcell₁ : m₁.state.store.cell new = { kind, car := v, cdr := l.head? } := by
          refine k₁.cell.trans ?_
          rw [Option.getD_some, hcell₃]
          cases l <;> rfl
        have hold : ∀ q, m.state.store.Has q → s₃.Has q := fun q hq => k₃.has q (hext.has hq)
        -- the objects in the first slot are newer than both cells that are changed after it was read
        have hparsed₁ : Parsed r m.depth m.state.store m₁.state.store v first := by
          refine hparsed.mono (fun q => hs₁.has) fun q hnew hq => ?_
          have h₃ := k₃.other q hq fun e => hnew (e ▸ hs₁.has hc)
          have h₁ := k₁.other q (k₃.has q hq) fun e => hnew (e ▸ hhas)
          exact ⟨k₁.has q (k₃.has q hq), sameAt_trans h₃ h₁⟩
        have hcons : Decoded (Parsed r m.depth m.state.store m₁.state.store) m.state.store m₁.state.store (new :: l)
            ((Item.header .cell).bytes ++ ((Item.u8 kind.byte).bytes ++ (first ++ bytes))) := by
          have hmore := hdecoded.mono hold (.refl _) fun w more hw =>
            hdepth ▸ hw.mono hold fun q _ hq => Extends.refl _ q hq
          have hcons := Decoded.cons hfresh (k₁.has _ hhas₃) (by rw [hcell₁]; exact hparsed₁) hmore
          rwa [hcell₁] at hcons
        have hreads : m.state.source.Reads
            ((Item.header .cell).bytes ++ ((Item.u8 kind.byte).bytes ++ (first ++ bytes))) m₁.state.source := by
          rw [← List.append_assoc (Item.u8 kind.byte).bytes, ← List.append_assoc]
          exact reads_append.mpr ⟨_, hfirst, hbytes⟩
        refine ⟨new :: l, _, m₁, hreads, hdepth₁.trans hdepth, (hext.changes hc k₃).skip hc k₁ hfresh,
          ends_cons_iff.mpr ⟨rfl, ?_⟩, hcons, ?_⟩
        · rw [next, hcell₁]
          exact hends
        · rw [List.isEmpty_cons, Bool.and_false]
          exact houtcome

/-- From `s` to `t` the kind and the first slot of `c` and the cells `l` behind it were made of the bytes. Of the other
objects of `s` none has changed; what the second slot of `c` holds is said apart. -/
structure Replaced (P : Value → List UInt8 → Prop) (s t : Store) (c : CellId) (l : List CellId) (cdr : Option CellId)
    (bytes : List UInt8) : Prop where
  changes : Changes s t c fun cell => { cell with kind := (t.cell c).kind, car := (t.cell c).car, cdr }
  chain : EndsBehind t.next l.head? l
  decoded : ∃ first rest, bytes = (Item.u8 (t.cell c).kind.byte).bytes ++ (first ++ rest) ∧
    P (t.cell c).car first ∧ Decoded P s t l rest

/-- However it ends, a cell that reads its state has failed in its kind or first slot, or it has read these and some
further cells as a whole, and then found the end of the chain or failed in one more link. -/
theorem readStateWith_runs (hv : Parses r value) {c : CellId} (hc : m.state.store.Has (.cell c)) :
    (∃ e m', readCell value c m = .error e m' ∧ readStateWith value (.cell c) m = .error e m') ∨
    ∃ l bytes m₁, m.state.source.Reads bytes m₁.state.source ∧ m₁.depth = m.depth ∧
      Replaced (Parsed r m.depth m.state.store m₁.state.store) m.state.store m₁.state.store c l
        (if l.isEmpty then (m.state.store.cell c).cdr else l.head?) bytes ∧
      ((∃ m', readLink value m₁ = .ok none m' ∧
          readStateWith value (.cell c) m = .ok () (endChain c l.isEmpty m')) ∨
        ∃ e m', readLink value m₁ = .error e m' ∧ readStateWith value (.cell c) m = .error e m') := by
  rw [readStateWith, run_bind]
  cases hcell : readCell value c m with
  | error e m' => exact .inl ⟨e, m', rfl, rfl⟩
  | ok _ m₂ =>
    obtain ⟨kind, v, first, hfirst, hdepth, k₂, hparsed⟩ := parsed_of_readCell hv hc hcell
    have hc₂ : m₂.state.store.Has (.cell ((none : Option CellId).getD c)) := k₂.has _ hc
    obtain ⟨l, rest, m₁, hrest, hdepth₁, k₁, hends, hdecoded, houtcome⟩ :=
      readTail_runs hv hc₂ (Nat.lt_succ_self _)
    have k := k₂.trans k₁
    have hcell₁ : m₁.state.store.cell c = linkTo l { m.state.store.cell c with kind, car := v } := k.cell
    have hslots : (m₁.state.store.cell c).kind = kind ∧ (m₁.state.store.cell c).car = v := by
      rw [hcell₁]
      cases l <;> exact ⟨rfl, rfl⟩
    have hparsed₁ : Parsed r m.depth m.state.store m₁.state.store v first := hparsed.mono (fun _ => id) fun q hnew hq =>
      ⟨k₁.has q hq, k₁.other q hq fun e => hnew (e ▸ hc)⟩
    have hdecoded₁ := hdecoded.mono k₂.has (.refl _) fun w more hw =>
      hdepth ▸ hw.mono k₂.has fun q _ hq => Extends.refl _ q hq
    refine .inr ⟨l, _, m₁, ?_, hdepth₁.trans hdepth, ⟨⟨k.has, ?_, k.other⟩, hends, first, rest, rfl, ?_,
      hdecoded₁⟩, houtcome⟩
    · rw [hslots.1, ← List.append_assoc]
      exact reads_append.mpr ⟨_, hfirst, hrest⟩
    · rw [hslots.1, hslots.2, hcell₁]
      cases l <;> rfl
    · rw [hslots.2]
      exact hparsed₁

end Read

/-! ## The trees of what is read -/

section Decode

variable {r : Registry} {value : LoadM Value} {s t : Store} {m m' : Nested Loading} {d : Nat} {bytes : List UInt8}
  {l : List CellId} {link : Option CellId}

/-- A chain unfolds to a tree if the first slots of its cells do. -/
theorem exists_unfolds_chain (hl : EndsBehind t.next link l)
    (cars : ∀ c ∈ l, ∃ (x : Tree .first) (xs : List Ref), t.Unfolds (t.cell c).car x xs) :
    ∃ (y : Tree .second) (ys : List Ref), t.Unfolds (.ofLink link) y ys := by
  induction l generalizing link with
  | nil =>
    cases link with
    | none => exact ⟨.nil, [], .nil⟩
    | some c => cases hl
  | cons c l ih =>
    cases link with
    | none => cases hl
    | some b =>
      obtain ⟨rfl, hmore⟩ := ends_cons_iff.mp hl
      obtain ⟨x, xs, hx⟩ := cars c List.mem_cons_self
      obtain ⟨y, ys, hy⟩ := ih hmore fun q hq => cars q (List.mem_cons_of_mem _ hq)
      exact ⟨_, _, .cell hx hy⟩

theorem Decoded.mem {P : Value → List UInt8 → Prop} (h : Decoded P s t l bytes) :
    ∀ c ∈ l, ¬ s.Has (.cell c) ∧ t.Has (.cell c) ∧ ∃ first, P (t.cell c).car first := by
  induction h with
  | nil => intro c hc; cases hc
  | cons new has car _ ih =>
    intro c hc
    rcases List.mem_cons.mp hc with rfl | hc
    · exact ⟨new, has, _, car⟩
    · exact ih c hc

/-- The tree that a decoded chain unfolds to is made of the bytes and of the end behind them, through new objects. The
chain itself opens no level, so its tree may be one level deeper than a value. -/
theorem Decoded.unfolds (h : Decoded (Parsed r d s t) s t l bytes) (hd : d ≤ maxNesting)
    (hl : EndsBehind t.next link l) {y : Tree .second} {ys : List Ref} (hy : t.Unfolds (.ofLink link) y ys) :
    y.encode = bytes ++ (Item.header .nil).bytes ∧ (∀ q ∈ ys, ¬ s.Has q ∧ t.Has q) ∧ y.Fits ∧
      y.depth + d ≤ maxNesting + 1 := by
  induction h generalizing link y ys with
  | nil =>
    cases link with
    | some c => cases hl
    | none =>
      cases hy
      exact ⟨rfl, fun q hq => (by cases hq), trivial, by simp only [Tree.depth]; omega⟩
  | @cons c l first rest new has car _ ih =>
    cases link with
    | none => cases hl
    | some b =>
      obtain ⟨rfl, hmore⟩ := ends_cons_iff.mp hl
      cases hy with
      | cell hx hy =>
        obtain ⟨hfirst, hxs⟩ := car.labelled.unfolds hx
        obtain ⟨hxfit, hxd⟩ := car.sized _ _ hx
        obtain ⟨hrest, hys, hyfit, hyd⟩ := ih hmore hy
        refine ⟨?_, fun q hq => ?_, ⟨hxfit, hyfit⟩, by simp only [Tree.depth]; omega⟩
        · simp only [Tree.encode, hfirst, hrest, List.append_assoc]
        · rw [List.mem_cons, List.mem_append] at hq
          rcases hq with rfl | hq | hq
          · exact ⟨new, has⟩
          · exact hxs q hq
          · exact hys q hq

variable {c : CellId}

theorem Replaced.ends {P : Value → List UInt8 → Prop} (h : Replaced P s t c l l.head? bytes) :
    Ends t.next c (c :: l) := by
  refine ends_cons_iff.mpr ⟨rfl, ?_⟩
  rw [next, h.changes.cell]
  exact h.chain

theorem Replaced.mem {P : Value → List UInt8 → Prop} {cdr : Option CellId} (h : Replaced P s t c l cdr bytes) :
    ∀ q ∈ c :: l, ∃ first, P (t.cell q).car first := by
  obtain ⟨first, rest, -, hcar, hmore⟩ := h.decoded
  intro q hq
  rcases List.mem_cons.mp hq with rfl | hq
  · exact ⟨first, hcar⟩
  · exact (hmore.mem q hq).2.2

/-- The tree that a replaced cell unfolds to is made of the bytes, through new objects. -/
theorem Replaced.unfolds (h : Replaced (Parsed r d s t) s t c l l.head? bytes) {x : Tree .first} {rs : List Ref}
    (hx : t.Unfolds (some (.cell c)) x rs) :
    x.encode = (Item.header .cell).bytes ++ (bytes ++ (Item.header .nil).bytes) ∧
      (∀ q ∈ rs, q = .cell c ∨ (¬ s.Has q ∧ t.Has q)) ∧ x.Fits ∧ x.depth + d ≤ maxNesting + 1 := by
  obtain ⟨first, rest, rfl, hcar, hmore⟩ := h.decoded
  cases hx with
  | @cell _ _ x y xs ys hx hy =>
    obtain ⟨hfirst, hxs⟩ := hcar.labelled.unfolds hx
    obtain ⟨hxfit, hxd⟩ := hcar.sized _ _ hx
    have hcdr : (t.cell c).cdr = l.head? := by rw [h.changes.cell]
    obtain ⟨hrest, hys, hyfit, hyd⟩ := hmore.unfolds (by omega) h.chain (hcdr ▸ hy)
    refine ⟨?_, fun q hq => ?_, ⟨hxfit, hyfit⟩, by simp only [Tree.depth]; omega⟩
    · simp only [Tree.encode, hfirst, hrest, List.append_assoc]
    · rw [List.mem_cons, List.mem_append] at hq
      rcases hq with rfl | hq | hq
      · exact .inl rfl
      · exact .inr (hxs q hq)
      · exact .inr (hys q hq)

theorem Replaced.exists_unfolds {P : Value → List UInt8 → Prop} (h : Replaced P s t c l l.head? bytes)
    (cars : ∀ q ∈ c :: l, ∃ (x : Tree .first) (xs : List Ref), t.Unfolds (t.cell q).car x xs) :
    ∃ (x : Tree .first) (rs : List Ref), t.Unfolds (some (.cell c)) x rs := by
  have hends : EndsBehind t.next (some c) (c :: l) := h.ends
  obtain ⟨y, ys, hy⟩ := exists_unfolds_chain hends cars
  cases hy with
  | cell hx hy => exact ⟨_, _, .cell hx hy⟩

/-- What stood behind the cell is cut off. -/
theorem Replaced.cut {cdr : Option CellId} (h : Replaced (Parsed r d s t) s t c [] cdr bytes) (hc : s.Has (.cell c)) :
    Replaced (Parsed r d s (t.setCdr c none)) s (t.setCdr c none) c [] none bytes := by
  obtain ⟨first, _, hbytes, hcar, ⟨⟩⟩ := h.decoded
  have k : Changes t (t.setCdr c none) c fun cell => { cell with cdr := none } :=
    changes_modifyCell (h.changes.has _ hc) _
  have hcar' : Parsed r d s (t.setCdr c none) (t.cell c).car first := hcar.mono (fun _ => id) fun q hnew hq =>
    ⟨k.has q hq, k.other q hq fun e => hnew (e ▸ hc)⟩
  have hk := h.changes.trans k
  refine ⟨⟨hk.has, ?_, hk.other⟩, rfl, first, [], ?_, ?_, .nil⟩
  · rw [k.cell, h.changes.cell]
  · rw [k.cell]
    exact hbytes
  · rw [k.cell]
    exact hcar'

/-- A cell that has read its state leads to the cells that were read and to no other one, also if there are none. -/
theorem readStateWith_ok (hv : Parses r value) (hc : m.state.store.Has (.cell c))
    (h : readStateWith value (.cell c) m = .ok () m') :
    ∃ l bytes, m.state.source.Reads (bytes ++ (Item.header .nil).bytes) m'.state.source ∧ m'.depth = m.depth ∧
      Replaced (Parsed r m.depth m.state.store m'.state.store) m.state.store m'.state.store c l l.head? bytes := by
  obtain ⟨e, m₁, -, hrun⟩ | ⟨l, bytes, m₁, hbytes, hdepth, hreplaced, ⟨m₂, hlink, hrun⟩ | ⟨e, m₂, -, hrun⟩⟩ :=
    readStateWith_runs hv hc
  · rw [hrun] at h; cases h
  · rw [hrun] at h
    cases h
    obtain ⟨hdepth₂, ⟨-, hend, hstore⟩ | ⟨_, _, _, _, _, h, -⟩⟩ := readLink_ok hv hlink
    · refine ⟨l, bytes, ?_⟩
      cases l with
      | cons b l =>
        simp only [endChain, List.isEmpty_cons, Bool.false_eq_true, if_false, hstore] at hreplaced ⊢
        exact ⟨reads_append.mpr ⟨_, hbytes, hend⟩, hdepth₂.trans hdepth, hreplaced⟩
      | nil =>
        simp only [endChain, List.isEmpty_nil, if_true, hstore] at hreplaced ⊢
        exact ⟨reads_append.mpr ⟨_, hbytes, hend⟩, hdepth₂.trans hdepth, hreplaced.cut hc⟩
    · cases h
  · rw [hrun] at h; cases h

theorem writable_of_readCells (hv : Parses r value) (hc : m.state.store.Has (.cell c)) (hm : m.depth = d + 1)
    (h : readStateWith value (.cell c) m = .ok () m') :
    Writable r d m'.state.store (some (.cell c)) := by
  obtain ⟨l, bytes, -, -, hreplaced⟩ := readStateWith_ok hv hc h
  rw [hm] at hreplaced
  refine ⟨fun x rs hx => ?_, fun hr => ?_⟩
  · obtain ⟨-, -, hfit, hdepth⟩ := hreplaced.unfolds hx
    exact ⟨hfit, by omega⟩
  · refine hreplaced.exists_unfolds fun q hq => ?_
    obtain ⟨first, hfirst⟩ := hreplaced.mem q hq
    exact hfirst.core hr

theorem writable_of_readDatum {a : AtomId} {e : Datum} (ha : m.state.store.Has (.atom a))
    (hatom : m.state.store.atom a = .datum e) (hd : d < maxNesting)
    (h : readStateWith value (.atom a) m = .ok () m') : Writable r d m'.state.store (some (.atom a)) := by
  obtain ⟨_, _, hget, h⟩ := bind_ok_iff.mp h
  cases hget
  simp only [hatom] at h
  obtain ⟨x, m₁, h₁, h⟩ := bind_ok_iff.mp h
  obtain ⟨hx, hstore, -⟩ := onSource_ok_iff.mp h₁
  obtain ⟨-, hfit, -⟩ := readLike_ok_iff.mp hx
  cases h
  rw [← hstore] at ha
  have hholds := atom_setAtom ha (.datum x)
  refine ⟨fun y rs hy => ?_, fun _ => ⟨.leaf x, _, .leaf hholds⟩⟩
  cases hy with
  | leaf hb =>
    rw [hholds] at hb
    cases hb
    exact ⟨hfit, by simp only [Tree.depth]; omega⟩

/-- An object of the host unfolds to no tree. -/
theorem writable_of_readHost (hv : Parses r value) (hr : r ≠ .core) {a : AtomId} {o : HostObject}
    (ha : m.state.store.Has (.atom a)) (hatom : m.state.store.atom a = .host o)
    (h : readStateWith value (.atom a) m = .ok () m') : Writable r d m'.state.store (some (.atom a)) := by
  obtain ⟨_, _, hget, h⟩ := bind_ok_iff.mp h
  cases hget
  simp only [hatom] at h
  cases hrecord : o.type.record with
  | none => rw [hrecord] at h; cases h
  | some record =>
    simp only [hrecord] at h
    obtain ⟨fields, m₁, h₁, h⟩ := bind_ok_iff.mp h
    have hext : m.state.store.Extends m₁.state.store := hv.extends_recipe h₁
    cases h
    have hholds := atom_setAtom (hext.has ha) (.host { o with fields })
    refine ⟨fun y rs hy => ?_, fun h => absurd h hr⟩
    cases hy with
    | leaf hb => rw [hholds] at hb; cases hb

/-- A new object reads its state. -/
theorem writable_of_readState (hv : Parses r value) {h : Header} {start : Option Nat} {p : Prototype} {q : Ref}
    (hp : r.prototype h start = .ok p) (hmake : p.make s = (q, m.state.store)) (hm : m.depth = d + 1)
    (hd : d < maxNesting) (hrun : readStateWith value q m = .ok () m') : Writable r d m'.state.store (some q) := by
  obtain rfl : (p.make s).1 = q := congrArg Prod.fst hmake
  have hs : (p.make s).2 = m.state.store := congrArg Prod.snd hmake
  cases p with
  | cell => exact writable_of_readCells hv (hs ▸ has_newCell.mpr (.inr rfl)) hm hrun
  | atom x =>
    have ha : m.state.store.Has (.atom (s.newAtom x).1) := hs ▸ has_newAtom.mpr (.inr rfl)
    have hatom : m.state.store.atom (s.newAtom x).1 = x := hs ▸ (atom_newAtom _).trans (if_pos rfl)
    cases x with
    | datum e => exact writable_of_readDatum ha hatom hd hrun
    | builtin f =>
      have hreports := (Registry.prototype_ok hp).1
      cases hreports
    | host o =>
      refine writable_of_readHost hv ?_ ha hatom hrun
      rintro rfl
      obtain ⟨-, ⟨⟩⟩ | ⟨e, -, ⟨⟩⟩ := prototype_core hp

/-- Every value that is read has a label for each of its bytes and can be written where it was read. -/
theorem parses_readValue (hr : r.HasCore) (n : Nat) : Parses r (r.readValue n) := by
  induction n with
  | zero => exact ⟨labels_readValue hr 0, fun h => by cases h⟩
  | succ n ih =>
    refine ⟨labels_readValue hr (n + 1), fun {m v m'} h => ?_⟩
    obtain ⟨hd, m₀, hrun, rfl⟩ := level_ok h
    obtain ⟨start, header, m₁, -, -, hdepth, h⟩ := header_ok hrun
    by_cases hnil : header = .nil
    · subst hnil
      cases h
      refine ⟨fun x rs hx => ?_, fun _ => ⟨.nil, [], .nil⟩⟩
      cases hx
      exact ⟨trivial, by simp only [Tree.depth]; omega⟩
    simp only [hnil, if_false] at h
    obtain ⟨ref, m₂, h₂, h⟩ := bind_ok_iff.mp h
    obtain ⟨_, m₃, h₃, h⟩ := bind_ok_iff.mp h
    cases h
    unfold Registry.instantiate at h₂
    cases hp : r.prototype header start with
    | error e => rw [hp] at h₂; cases h₂
    | ok p =>
      rw [hp] at h₂
      have hdepth₂ : m₂.depth = m.depth + 1 := by
        cases h₂
        exact hdepth
      have hwritable := writable_of_readState ih hp (onStore_ok h₂).1 hdepth₂ hd h₃
      exact hwritable

end Decode

end ScriptCore
