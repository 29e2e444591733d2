import ScriptCore.Proofs.Capacity
import ScriptCore.Proofs.NestingLimit

/-!
# Copies of lists

A copy of a list has new cells with the same elements, in the same order. All its cells are of the kind of the first
cell, whatever the kinds of the others were. So the copy is written as the same bytes as the list if and only if the
list has cells of one kind (`clone_list`), and a list that goes on with a block is not (`clone_mixedLists`).

The two have no cell in common, so that changing one leaves the other as it is (`Edit.cell_run`).

What is written of an element is the same in the list and in the copy. It may hold records, which trees do not cover;
so writing is described by its outcome: without a limit on room, the writer emits bytes that do not depend on what was
written before, or refuses for a reason that does not (`settled_writeValue`).
-/
namespace ScriptCore

open Wire NestedM

namespace Store

open Chain SaveM

variable {s t : Store}

/-! ## The outcome of writing -/

/-- With `d` levels open and no limit on room, the outcome of writing does not depend on what was written before. -/
def Settled (x : SaveM Unit) (d : Nat) : Prop :=
  (∃ bytes, Emits x d bytes) ∨ ∃ e, Refuses x d e

theorem Determined.settled {x : SaveM Unit} {d : Nat} (h : Determined x d) : Settled x d := by
  obtain ⟨p, r, hp⟩ := h
  have hrun : ∀ sink : Sink, sink.capacity = none → x ⟨sink, d⟩ = ended r ⟨sink.push p, d⟩ := by
    intro sink hs
    rw [hp sink]
    simp [Sink.verdict, Sink.front, Sink.room, hs]
  cases r with
  | ok => exact .inl ⟨p, hrun⟩
  | error e => exact .inr ⟨e, fun sink hs => ⟨_, hrun sink hs⟩⟩

theorem settled_writeValue (s : Store) (n : Nat) (v : Value) (d : Nat) : Settled (s.writeValue n v) d :=
  (determined_writeValue s n v d).settled

/-! ## The bytes of a list -/

/-- The wire form of a chain of cells with the given kinds and wire forms of the elements. -/
def chainBytes : List (CellKind × List UInt8) → List UInt8
  | [] => (Item.header .nil).bytes
  | (kind, element) :: rest =>
    (Item.header .cell).bytes ++ ((Item.u8 kind.byte).bytes ++ element ++ chainBytes rest)

/-- With one level open, the elements of the cells are written as the given bytes. -/
def Elements (s : Store) (l : List CellId) (elements : List (List UInt8)) : Prop :=
  List.Forall₂ (fun c bytes => Emits (s.writeValue (maxNesting - 1) (s.cell c).car) 1 bytes) l elements

theorem emits_chainBytes {l : List CellId} {elements : List (List UInt8)} (h : s.Elements l elements) :
    Emits (s.writeTail (s.writeValue (maxNesting - 1)) l) 1
      (chainBytes ((l.map fun c => (s.cell c).kind).zip elements)) := by
  induction h with
  | nil => exact emits_header .nil _
  | cons hc _ ih => exact emits_bind (emits_header .cell _) (emits_bind (emits_bind (emits_kind _ _) hc) ih)

/-- The first element that is refused decides. -/
theorem elements_or_refuses (s : Store) (l : List CellId) :
    (∃ elements, s.Elements l elements) ∨ ∃ e, Refuses (s.writeTail (s.writeValue (maxNesting - 1)) l) 1 e := by
  induction l with
  | nil => exact .inl ⟨[], .nil⟩
  | cons c l ih =>
    rcases settled_writeValue s (maxNesting - 1) (s.cell c).car 1 with ⟨bytes, hc⟩ | ⟨e, hc⟩
    · rcases ih with ⟨elements, hl⟩ | ⟨e, hl⟩
      · exact .inl ⟨bytes :: elements, .cons hc hl⟩
      · exact .inr ⟨e, refuses_behind (emits_header .cell _) (refuses_behind (emits_bind (emits_kind _ _) hc) hl)⟩
    · exact .inr ⟨e, refuses_behind (emits_header .cell _) (refuses_first (refuses_behind (emits_kind _ _) hc))⟩

/-- A list has bytes if its elements have, and then they are those of the elements and the kinds of the cells. -/
theorem toBytes_list {c : CellId} {l : List CellId} (h : Ends s.next c l) {bytes : List UInt8} :
    s.toBytes (some (.cell c)) = .ok bytes ↔
      ∃ elements, s.Elements l elements ∧ bytes = chainBytes ((l.map fun c => (s.cell c).kind).zip elements) := by
  have hrun : s.serialize (some (.cell c)) = level (s.writeTail (s.writeValue (maxNesting - 1)) l) :=
    writeValue_list h _
  have hemits : ∀ elements, s.Elements l elements →
      s.toBytes (some (.cell c)) = .ok (chainBytes ((l.map fun c => (s.cell c).kind).zip elements)) := by
    intro elements hl
    have he := emits_level (by decide) (emits_chainBytes hl) {} rfl
    rw [toBytes, Thread.toBytes_fst, hrun, he]
    simp [Sink.push]
  constructor
  · intro hb
    rcases elements_or_refuses s l with ⟨elements, hl⟩ | ⟨e, hl⟩
    · rw [hemits elements hl] at hb
      exact ⟨elements, hl, (Except.ok.inj hb).symm⟩
    · obtain ⟨m, hm⟩ := refuses_level (by decide) hl {} rfl
      rw [toBytes, Thread.toBytes_fst, hrun, hm] at hb
      cases hb
  · rintro ⟨elements, hl, rfl⟩
    exact hemits elements hl

/-- Chains with the same elements have the same bytes if and only if they have the same kinds. -/
theorem chainBytes_zip_inj {kinds kinds' : List CellKind} {elements : List (List UInt8)}
    (hk : kinds.length = elements.length) (hk' : kinds'.length = elements.length) :
    chainBytes (kinds.zip elements) = chainBytes (kinds'.zip elements) ↔ kinds = kinds' := by
  induction elements generalizing kinds kinds' with
  | nil =>
    rw [List.eq_nil_of_length_eq_zero hk, List.eq_nil_of_length_eq_zero hk']
    simp
  | cons element elements ih =>
    obtain ⟨kind, kinds, rfl⟩ := List.exists_cons_of_length_eq_add_one hk
    obtain ⟨kind', kinds', rfl⟩ := List.exists_cons_of_length_eq_add_one hk'
    have hrest := ih (Nat.succ.inj hk) (Nat.succ.inj hk')
    have hbyte : kind.byte = kind'.byte ↔ kind = kind' := by cases kind <;> cases kind' <;> decide
    simp only [List.zip_cons_cons, chainBytes, List.append_cancel_left_eq, Item.bytes, List.cons_append,
      List.nil_append, List.cons.injEq, hbyte, hrest]

/-! ## Copies -/

/-- In `t` the cell `d` has the element that `c` has in `s`. It is new and of the given kind. -/
structure CopyOf (s t : Store) (kind : CellKind) (c d : CellId) : Prop where
  fresh : ¬ s.Has (.cell d)
  has : t.Has (.cell d)
  car : (t.cell d).car = (s.cell c).car
  kind : (t.cell d).kind = kind

theorem exists_copyOf {kind : CellKind} {l copies : List CellId} (h : List.Forall₂ (s.CopyOf t kind) l copies)
    {d : CellId} (hd : d ∈ copies) : ∃ c, s.CopyOf t kind c d := by
  obtain ⟨i, hi, rfl⟩ := List.getElem_of_mem hd
  exact ⟨_, h.get (h.length_eq ▸ hi) hi⟩

theorem newChain_cons (s : Store) (kind : CellKind) (v : Value) (items : List Value) :
    s.newChain kind (v :: items) =
      (some ((s.newChain kind items).2.newCell { kind, car := v, cdr := (s.newChain kind items).1 }).1,
        ((s.newChain kind items).2.newCell { kind, car := v, cdr := (s.newChain kind items).1 }).2) := rfl

/-- A new chain of the elements of some cells is made of copies of the cells, of one kind. -/
theorem ends_newChain (s : Store) (kind : CellKind) (l : List CellId) :
    ∃ link t copies, s.newChain kind (l.map fun c => (s.cell c).car) = (link, t) ∧ s.Extends t ∧
      EndsBehind t.next link copies ∧ List.Forall₂ (s.CopyOf t kind) l copies := by
  induction l with
  | nil => exact ⟨none, s, [], rfl, .refl s, rfl, .nil⟩
  | cons c l ih =>
    obtain ⟨link, t, copies, hrun, hext, hends, hall⟩ := ih
    set cell : Cell := { kind, car := (s.cell c).car, cdr := link }
    have hnew := extends_newCell t cell
    have hfresh := newCell_fresh t cell
    have hcell : (t.newCell cell).2.cell (t.newCell cell).1 = cell := (cell_newCell _).trans (if_pos rfl)
    have hhas : (t.newCell cell).2.Has (.cell (t.newCell cell).1) := has_newCell.mpr (.inr rfl)
    have hkeep : ∀ b ∈ copies, t.Has (.cell b) := fun b hb => (exists_copyOf hall hb).elim fun _ h => h.has
    refine ⟨some (t.newCell cell).1, (t.newCell cell).2, (t.newCell cell).1 :: copies, ?_, hext.trans hnew, ?_, ?_⟩
    · rw [List.map_cons, newChain_cons, hrun]
    · refine ends_cons_iff.mpr ⟨rfl, ?_⟩
      rw [next, hcell]
      exact hends.congr fun b hb => by rw [next, next, hnew.cell (hkeep b hb)]
    · refine .cons ⟨fun h => hfresh (hext.has h), hhas, by rw [hcell], by rw [hcell]⟩ (hall.imp fun b d hd => ?_)
      exact ⟨hd.fresh, hnew.has hd.has, by rw [hnew.cell hd.has, hd.car], by rw [hnew.cell hd.has, hd.kind]⟩

/-- The copy of a chain that ends. -/
theorem clone_of_ends {c : CellId} {l : List CellId} (h : Ends s.next c l) :
    ∃ copy t copies, clone (.cell c) s = .ok (.cell copy) t ∧ s.Extends t ∧ Ends t.next copy copies ∧
      List.Forall₂ (s.CopyOf t (s.cell c).kind) l copies := by
  obtain ⟨link, t, copies, hrun, hext, hends, hall⟩ := ends_newChain s (s.cell c).kind l
  have helements : s.elements c = l.map fun c => (s.cell c).car := by rw [elements, spine_of_ends h]
  obtain ⟨rest, rfl⟩ := h.head
  cases link with
  | none =>
    cases hends
    cases hall
  | some copy =>
    refine ⟨copy, t, copies, ?_, hext, hends, hall⟩
    simp only [clone, cloneChain, run_bind, run_get, cyclic_of_ends h, helements, hrun]
    rfl

theorem clone_of_not_ends {c : CellId} (h : ¬ ∃ l, Ends s.next c l) : clone (.cell c) s = .error .cyclicList s := by
  simp only [clone, cloneChain, run_bind, run_get, (cyclic_iff s c).mpr h]
  rfl

/-- The elements of copies are written as those of the cells. -/
theorem Elements.copies {kind : CellKind} {l copies : List CellId} {elements : List (List UInt8)} (hst : s.Extends t)
    (hl : ∀ c ∈ l, s.Covers (s.cell c).car) (hall : List.Forall₂ (s.CopyOf t kind) l copies)
    (h : s.Elements l elements) : t.Elements copies elements := by
  induction hall generalizing elements with
  | nil => cases h; exact .nil
  | @cons c d l copies hd _ ih =>
    cases h with
    | cons hc hrest =>
      refine .cons (fun sink hs => ?_) (ih (fun b hb => hl b (by simp [hb])) hrest)
      rw [hd.car, writeValue_congr hst (hl c (by simp)) (Nat.le_refl _) (Nat.le_refl _)]
      exact hc sink hs

/-! ## Changes of one of two lists -/

/-- What can be changed at a cell of a list. -/
inductive Edit where
  | car (v : Value)
  | cdr (link : Option CellId)
  | cdrValue (v : Value)
  | append (v : Value)

/-- Makes the change. -/
def Edit.run (c : CellId) : Edit → StoreM Unit
  | .car v => modify (·.setCar c v)
  | .cdr link => modify (·.setCdr c link)
  | .cdrValue v => setCdrValue c v
  | .append v => Store.append c v

/-- A change at a cell of a chain leaves alone all cells that are not in the chain. -/
theorem Edit.cell_run (edit : Edit) {a b d : CellId} {l : List CellId} (hl : Ends s.next a l)
    (hin : ∀ c ∈ l, s.Has (.cell c)) (hb : b ∈ l) (hd : s.Has (.cell d)) (hdl : d ∉ l) :
    (after (edit.run b s)).cell d = s.cell d := by
  have hne : ∀ c ∈ l, d ≠ c := fun c hc e => hdl (e ▸ hc)
  cases edit with
  | car v => exact cell_modifyCell_ne (hne b hb) _
  | cdr link => exact cell_modifyCell_ne (hne b hb) _
  | cdrValue v =>
    simp only [run, setCdrValue, run_bind, run_get]
    cases s.link v with
    | ok link => exact cell_modifyCell_ne (hne b hb) _
    | error e => rfl
  | append v =>
    simp only [run, Store.append, run_bind, run_get]
    split
    · rfl
    · -- the cell that gets a successor is the last one behind `b`
      have hnew := extends_newCell s { kind := (s.cell b).kind, car := v }
      have hclosed : ∀ c ∈ l, ∀ c', (s.newCell { kind := (s.cell b).kind, car := v }).2.next c = some c' → c' ∈ l := by
        intro c hc c' hnext
        rw [next, hnew.cell (hin c hc)] at hnext
        exact hl.next_mem hc hnext
      have hlast := last_mem hclosed (s.newCell { kind := (s.cell b).kind, car := v }).2.cells.size hb
      exact (cell_modifyCell_ne (hne _ hlast) _).trans (hnew.cell hd)

/-- The chain has the cells of the list, and they are as before. -/
def KeepsChain (s t : Store) (c : CellId) (l : List CellId) : Prop :=
  Ends t.next c l ∧ ∀ d ∈ l, t.cell d = s.cell d

/-- Of two chains without a cell in common, the second one is kept by every change at a cell of the first one. -/
theorem Edit.keepsChain (edit : Edit) {a b c : CellId} {l m : List CellId} (hl : Ends s.next a l)
    (hin : ∀ c ∈ l, s.Has (.cell c)) (hm : Ends s.next c m) (hin' : ∀ c ∈ m, s.Has (.cell c)) (hlm : l.Disjoint m)
    (hb : b ∈ l) : s.KeepsChain (after (edit.run b s)) c m := by
  have hcell : ∀ d ∈ m, (after (edit.run b s)).cell d = s.cell d := fun d hd =>
    edit.cell_run hl hin hb (hin' d hd) fun h => hlm h hd
  exact ⟨hm.congr fun d hd => by rw [next, next, hcell d hd], hcell⟩

/-! ## Lists and their copies -/

/-- A list that does not end is not copied. One that ends is copied to new cells, all of the kind of its first cell,
with the same elements in the same order, and the cells that were there stay as they are. If the list can be
written, then so can the copy, with the same elements; the bytes are the same exactly if all cells of the list are of
one kind. What is then changed at a cell of one of the two is not seen in the other. -/
theorem clone_list {c : CellId} (hc : s.Covers (some (.cell c))) :
    ((¬ ∃ l, Ends s.next c l) → clone (.cell c) s = .error .cyclicList s) ∧
    ∀ l, Ends s.next c l → ∃ copy t copies, clone (.cell c) s = .ok (.cell copy) t ∧ s.Extends t ∧
      Ends t.next copy copies ∧ List.Forall₂ (s.CopyOf t (s.cell c).kind) l copies ∧
      (∀ bytes, s.toBytes (some (.cell c)) = .ok bytes → ∃ elements, elements.length = l.length ∧
        bytes = chainBytes ((l.map fun d => (s.cell d).kind).zip elements) ∧
        t.toBytes (some (.cell copy)) = .ok (chainBytes ((List.replicate l.length (s.cell c).kind).zip elements)) ∧
        (t.toBytes (some (.cell copy)) = .ok bytes ↔ ∀ d ∈ l, (s.cell d).kind = (s.cell c).kind)) ∧
      ∀ edit : Edit, (∀ b ∈ l, t.KeepsChain (after (edit.run b t)) copy copies) ∧
        ∀ b ∈ copies, t.KeepsChain (after (edit.run b t)) c l := by
  refine ⟨clone_of_not_ends, fun l hl => ?_⟩
  obtain ⟨copy, t, copies, hrun, hext, hends, hall⟩ := clone_of_ends hl
  have hold : ∀ d ∈ l, s.Covers (some (.cell d)) := fun d hd =>
    hc.of_reaches (reaches_spine (by rwa [spine_of_ends hl]))
  have hnew : ∀ d ∈ copies, ¬ s.Has (.cell d) ∧ t.Has (.cell d) := fun d hd =>
    (exists_copyOf hall hd).elim fun _ h => ⟨h.fresh, h.has⟩
  have hends' : Ends t.next c l := hl.congr fun d hd => by rw [next, next, hext.cell (hold d hd).self]
  have hdisjoint : l.Disjoint copies := fun d hd hd' => (hnew d hd').1 (hold d hd).self
  refine ⟨copy, t, copies, hrun, hext, hends, hall, fun bytes hbytes => ?_,
    fun edit => ⟨fun b hb => ?_, fun b hb => ?_⟩⟩
  · obtain ⟨elements, hel, rfl⟩ := (toBytes_list hl).mp hbytes
    have hlen : elements.length = l.length := hel.length_eq.symm
    have hkinds : (copies.map fun d => (t.cell d).kind) = List.replicate l.length (s.cell c).kind := by
      refine List.eq_replicate_iff.mpr ⟨by rw [List.length_map, hall.length_eq], fun k hk => ?_⟩
      obtain ⟨d, hd, rfl⟩ := List.mem_map.mp hk
      exact (exists_copyOf hall hd).elim fun _ h => h.kind
    have hcopy : t.toBytes (some (.cell copy)) =
        .ok (chainBytes ((List.replicate l.length (s.cell c).kind).zip elements)) :=
      (toBytes_list hends).mpr ⟨elements, hel.copies hext (fun d hd => (hold d hd).car) hall, by rw [hkinds]⟩
    refine ⟨elements, hlen, rfl, hcopy, ?_⟩
    rw [hcopy, Except.ok.injEq, chainBytes_zip_inj (by simp [hlen]) (by simp [hlen]), eq_comm, List.eq_replicate_iff]
    simp
  · exact edit.keepsChain hends' (fun d hd => hext.has (hold d hd).self) hends (fun d hd => (hnew d hd).2) hdisjoint hb
  · exact edit.keepsChain hends (fun d hd => (hnew d hd).2) hends' (fun d hd => hext.has (hold d hd).self)
      hdisjoint.symm hb

/-- The list of true and false has cells of one kind, so its copy has the same bytes. The list stays the same if
something is appended to the copy. -/
theorem clone_list_mixedLists :
    ∃ copy t l, clone (.cell ⟨0⟩) mixedLists = .ok (.cell copy) t ∧ Ends mixedLists.next ⟨0⟩ l ∧
      mixedLists.toBytes (some (.cell ⟨0⟩)) = .ok (mixedBytes .list) ∧
      t.toBytes (some (.cell copy)) = .ok (mixedBytes .list) ∧
      t.KeepsChain (after ((Edit.append none).run copy t)) ⟨0⟩ l := by
  obtain ⟨x, rs, hx, hrs⟩ := unfolds_mixedLists ⟨0⟩ (by simp)
  have hl : Ends mixedLists.next ⟨0⟩ [⟨0⟩, ⟨1⟩] := .cons rfl (.last rfl)
  have hbytes : mixedLists.toBytes (some (.cell ⟨0⟩)) = .ok (mixedBytes .list) := by decide +kernel
  obtain ⟨copy, t, copies, hrun, -, hends, -, hsame, hkept⟩ := (clone_list (hx.covers hrs)).2 _ hl
  obtain ⟨elements, -, -, -, hiff⟩ := hsame _ hbytes
  obtain ⟨rest, rfl⟩ := hends.head
  exact ⟨copy, t, _, hrun, hl, hbytes, hiff.mpr (by decide), (hkept _).2 copy (by simp)⟩

/-- The list that goes on with a block ends, and its copy has no block: the two are written as different bytes. -/
theorem clone_mixedLists :
    Ends mixedLists.next ⟨4⟩ [⟨4⟩, ⟨5⟩] ∧ (mixedLists.cell ⟨5⟩).kind = .block ∧
    mixedLists.toBytes (some (.cell ⟨4⟩)) = .ok (mixedBytes .block) ∧
    ∃ t, clone (.cell ⟨4⟩) mixedLists = .ok (.cell ⟨7⟩) t ∧ Ends t.next ⟨7⟩ [⟨7⟩, ⟨6⟩] ∧ (t.cell ⟨6⟩).kind = .list ∧
      t.toBytes (some (.cell ⟨7⟩)) = .ok (mixedBytes .list) ∧ mixedBytes .list ≠ mixedBytes .block :=
  ⟨.cons rfl (.last rfl), rfl, by decide +kernel, _, rfl, .cons rfl (.last rfl), rfl, by decide +kernel, by decide⟩

end Store

end ScriptCore
