import ScriptCore.Proofs.Encoding
import ScriptCore.Proofs.Obstacles
import ScriptCore.Proofs.WriterDomain

/-!
# One limit on nesting for both directions

The wire form of a tree is said without a limit. The writer and the reader stop at the same depth: up to the limit a
value is written as the wire form of its tree and the wire form is read back, and beyond it both fail with the same
error (`nesting_limit`), wherever in the tree the deep part lies and whatever stands in front of it.

* `sorts_writeValue`: the writer gets through all that stands in front of the first deep part, and stops there.
* `blocked_of_deep`: for the reader the first deep part is an obstacle.
* `exists_built`: every tree is the tree of a value, so that there is something to write at any depth.
-/
namespace ScriptCore

open Wire Wire.Source NestedM

namespace Store

variable {s : Store}

/-! ## Every tree is the tree of a value -/

theorem Unfolds.exists_link {v : Value} {y : Tree .second} {ys : List Ref} (h : s.Unfolds v y ys) :
    ∃ link, v = .ofLink link := by
  cases h with
  | nil => exact ⟨none, rfl⟩
  | @cell _ c => exact ⟨some c, rfl⟩

/-- A value for the tree can be made of new objects, the parts first. -/
theorem exists_built {p : Place} (x : Tree p) (s : Store) : ∃ v t, s.Extends t ∧ s.Built t v x := by
  induction x generalizing s with
  | nil => exact ⟨none, s, .refl s, [], .nil, .nil, fun r hr => by cases hr⟩
  | leaf d =>
    refine ⟨_, _, extends_newAtom s (.datum d), [_], .leaf ((atom_newAtom _).trans (if_pos rfl)),
      List.nodup_singleton _, ?_⟩
    intro r hr
    rw [List.mem_singleton.mp hr]
    exact ⟨newAtom_fresh s _, has_newAtom.mpr (.inr rfl)⟩
  | @cell p kind x y ihx ihy =>
    obtain ⟨v, t, hst, xs, hx, hxn, hxs⟩ := ihx s
    obtain ⟨w, u, htu, ys, hy, hyn, hys⟩ := ihy t
    obtain ⟨link, rfl⟩ := hy.exists_link
    set cell : Cell := { kind, car := v, cdr := link }
    have hnew := extends_newCell u cell
    have hfresh := newCell_fresh u cell
    have hcell : (u.newCell cell).2.cell (u.newCell cell).1 = cell := (cell_newCell _).trans (if_pos rfl)
    have hhas : (u.newCell cell).2.Has (.cell (u.newCell cell).1) := has_newCell.mpr (.inr rfl)
    set c := (u.newCell cell).1
    set w := (u.newCell cell).2
    have hx' : w.Unfolds (w.cell c).car x xs := by
      rw [hcell]
      exact hx.congr fun r hr => ((htu.trans hnew) r (hxs r hr).2).2
    have hy' : w.Unfolds (.ofLink (w.cell c).cdr) y ys := by
      rw [hcell]
      exact hy.congr fun r hr => (hnew r (hys r hr).2).2
    have hall := Unfolds.cell (p := p) hx' hy'
    rw [hcell] at hall
    refine ⟨_, w, hst.trans (htu.trans hnew), _, hall, ?_, ?_⟩
    · rw [List.nodup_cons, List.nodup_append, List.mem_append, not_or]
      exact ⟨⟨fun h => hfresh (htu.has (hxs _ h).2), fun h => hfresh (hys _ h).2⟩, hxn, hyn,
        fun r hr q hq e => (hys q hq).1 (e ▸ (hxs r hr).2)⟩
    · intro r hr
      rw [List.mem_cons, List.mem_append] at hr
      rcases hr with rfl | hr | hr
      · exact ⟨fun h => hfresh (htu.has (hst.has h)), hhas⟩
      · exact ⟨(hxs r hr).1, hnew.has (htu.has (hxs r hr).2)⟩
      · exact ⟨fun h => (hys r hr).1 (hst.has h), hnew.has (hys r hr).2⟩

/-! ## The writer -/

/-- With `d` levels open and no limit on room, writing fails with the error. -/
def Refuses (x : SaveM Unit) (d : Nat) (e : SerialError) : Prop :=
  ∀ sink : Sink, sink.capacity = none → ∃ m, x ⟨sink, d⟩ = .error e m

/-- With `d` levels open, `value` writes what is not nested too deeply and refuses what is. -/
structure Sorts (s : Store) (value : Value → SaveM Unit) (d : Nat) : Prop where
  emits : ∀ v (x : Tree .first) xs, s.Unfolds v x xs → x.Fits → x.depth + d ≤ maxNesting → Emits (value v) d x.encode
  refuses : ∀ v (x : Tree .first) xs, s.Unfolds v x xs → x.Fits → maxNesting < x.depth + d →
    Refuses (value v) d (.tooDeep maxNesting)

section Refusing

variable {x y : SaveM Unit} {d : Nat} {e : SerialError} {value : Value → SaveM Unit}

theorem refuses_first (hx : Refuses x d e) : Refuses (do x; y) d e := by
  intro sink hs
  obtain ⟨m, hm⟩ := hx sink hs
  exact ⟨m, by rw [run_bind, hm]⟩

theorem refuses_behind {bytes : List UInt8} (hx : Emits x d bytes) (hy : Refuses y d e) : Refuses (do x; y) d e := by
  intro sink hs
  obtain ⟨m, hm⟩ := hy (sink.push bytes) hs
  exact ⟨m, by rw [run_bind, hx sink hs]; exact hm⟩

theorem refuses_level (hd : d < maxNesting) (hx : Refuses x (d + 1) e) : Refuses (NestedM.level x) d e := by
  intro sink hs
  obtain ⟨m, hm⟩ := hx sink hs
  exact ⟨{ m with depth := m.depth - 1 }, by simp only [level, if_neg (Nat.not_le.mpr hd), hm]⟩

/-- A list is written at one level. In front of its first cell stands a header as in front of the others. -/
theorem writeValue_list {c : CellId} {l : List CellId} (h : Chain.Ends s.next c l) (n : Nat) :
    s.writeValue (n + 1) (some (.cell c)) = level (s.writeTail (s.writeValue n) l) := by
  obtain ⟨rest, rfl⟩ := h.head
  simp only [writeValue, writeObject, header?, writeStateWith, cyclic_of_ends h, Bool.false_eq_true, if_false,
    spine_of_ends h, List.tail_cons, writeTail]

/-- The deep part is in one of the cells of a chain. -/
theorem refuses_writeTail (hv : s.Sorts value (d + 1)) (hd : d < maxNesting) {l : List CellId} {link : Option CellId}
    {y : Tree .second} {ys : List Ref} (hl : Chain.EndsBehind s.next link l) (h : s.Unfolds (.ofLink link) y ys)
    (hfit : y.Fits) (hdeep : maxNesting < y.depth + d) :
    Refuses (s.writeTail value l) (d + 1) (.tooDeep maxNesting) := by
  induction l generalizing link y ys with
  | nil =>
    cases link with
    | none => cases h; simp only [Tree.depth] at hdeep; omega
    | some c => cases hl
  | cons c l ih =>
    cases link with
    | none => cases hl
    | some b =>
      obtain ⟨rfl, hl⟩ := Chain.ends_cons_iff.mp hl
      cases h with
      | @cell _ _ x y xs ys hx hy =>
        simp only [Tree.depth] at hdeep
        refine refuses_behind (emits_header .cell _) ?_
        by_cases hxd : x.depth + (d + 1) ≤ maxNesting
        · exact refuses_behind (emits_bind (emits_kind _ _) (hv.emits _ x xs hx hfit.1 hxd))
            (ih hl hy hfit.2 (by omega))
        · exact refuses_first (refuses_behind (emits_kind _ _) (hv.refuses _ x xs hx hfit.1 (by omega)))

/-- The writer sorts values by their depth, if its bound leaves room for all levels that may be opened. -/
theorem sorts_writeValue (s : Store) {n d : Nat} (hn : maxNesting ≤ n + d) : s.Sorts (s.writeValue n) d := by
  induction n generalizing d with
  | zero =>
    refine ⟨fun v x xs hx hfit hd => emits_writeValue hx hfit hd hn, ?_⟩
    exact fun v x xs hx hfit hd sink hs => ⟨_, rfl⟩
  | succ n ih =>
    refine ⟨fun v x xs hx hfit hd => emits_writeValue hx hfit hd hn, ?_⟩
    intro v x xs hx hfit hdeep
    by_cases hd : maxNesting ≤ d
    · exact fun sink hs => ⟨_, writeValue_refused s (n + 1) v hd⟩
    · cases hx with
      | nil | leaf => simp only [Tree.depth] at hdeep; omega
      | @cell _ c x y xs ys hx hy =>
        -- the same cells as a chain in a second slot
        have htail : s.Unfolds (p := .second) (.ofLink (some c)) _ _ := .cell hx hy
        obtain ⟨l, hl⟩ := ends_of_unfolds htail
        rw [writeValue_list hl]
        have hroom : d < maxNesting := by omega
        exact refuses_level hroom (refuses_writeTail (ih (by omega)) hroom hl htail hfit hdeep)

end Refusing

end Store

/-! ## The reader -/

/-- In a tree that is nested too deeply the first deep part is in the way. -/
theorem blocked_of_deep {p : Place} {x : Tree p} {d : Nat} {source source' : Source} (hfit : x.Fits)
    (hd : d < maxNesting) (hdeep : maxNesting < x.depth + d) (h : source.Reads x.encode source') :
    Blocked d x source (.tooDeep maxNesting) := by
  induction x generalizing d source source' with
  | nil | leaf => simp only [Tree.depth] at hdeep; omega
  | cell kind car cdr ihcar ihcdr =>
    simp only [Tree.depth] at hdeep
    rw [Tree.encode, ← List.append_assoc, ← List.append_assoc] at h
    obtain ⟨source₂, hcar, hcdr⟩ := reads_append.mp h
    obtain ⟨source₁, hfront, hcar'⟩ := reads_append.mp hcar
    by_cases hroom : car.depth + (d + 1) ≤ maxNesting
    · rw [List.append_assoc] at hcar
      exact .cdr hcar hfit.1 hroom (ihcdr hfit.2 hd (by omega) hcdr)
    by_cases hfull : maxNesting ≤ d + 1
    · exact .level hfront hfull
    · exact .car hfront (by omega) (ihcar hfit.1 (by omega) (by omega) hcar')

/-! ## Both directions -/

open Store

/-- A tree whose texts fit is the tree of a value. Up to 256 levels every such value is written as the wire form of the
tree, and the wire form is read as the tree, whatever families are registered besides the core. With more levels
both fail. -/
theorem nesting_limit {x : Tree .first} (hfit : x.Fits) :
    (∃ s v rs, Store.Unfolds s v x rs) ∧
    (x.depth ≤ 256 →
      (∀ s v rs, Store.Unfolds s v x rs → s.toBytes v = .ok x.encode) ∧
      ∀ r : Registry, r.HasCore → ∀ s, ∃ v t, r.ofBytes x.encode s = .ok v t ∧ s.Extends t ∧ s.Built t v x) ∧
    (256 < x.depth →
      (∀ s v rs, Store.Unfolds s v x rs → s.toBytes v = .error (.tooDeep 256)) ∧
      ∀ r : Registry, r.HasCore → ∀ s, ∃ t, r.ofBytes x.encode s = .error (.tooDeep 256) t) := by
  refine ⟨?_, fun hd => ⟨?_, ?_⟩, fun hd => ⟨?_, ?_⟩⟩
  · obtain ⟨v, t, -, rs, hx, -⟩ := exists_built x {}
    exact ⟨t, v, rs, hx⟩
  · intro s v rs hx
    exact (toBytes_iff (Core.plain fun _ => hx.data)).mpr ⟨x, rs, hx, hfit, hd, rfl⟩
  · exact fun r hr s => ofBytes_encode hr hfit hd s
  · intro s v rs hx
    obtain ⟨m, hm⟩ := (sorts_writeValue s (n := maxNesting) (d := 0) (by omega)).refuses v x rs hx hfit hd {} rfl
    rw [toBytes, Thread.toBytes_fst, serialize, hm]
    rfl
  · intro r hr s
    have hreads : (Source.ofBytes .cursor x.encode).Reads x.encode _ := reads_of_rest (List.append_nil _).symm
    exact ofBytes_of_blocked hr (blocked_of_deep hfit (by decide) hd hreads) s

/-- `n` lists one inside the other, each as the second element of a list that goes on with a block. -/
def Tree.tower : Nat → Tree .first
  | 0 => .leaf (.text "top")
  | n + 1 => .cell .list .nil (.cell .block (tower n) .nil)

theorem Tree.depth_tower (n : Nat) : (Tree.tower n).depth = n + 1 := by
  induction n with
  | zero => rfl
  | succ n ih => simp only [tower, depth, ih]; omega

theorem Tree.fits_tower (n : Nat) : (Tree.tower n).Fits := by
  induction n with
  | zero => exact (by decide : (utf8 "top").length ≤ maxTextBytes)
  | succ n ih => exact ⟨trivial, ih, trivial⟩

/-- The text has room inside 255 lists and not inside 256. -/
theorem nesting_limit_tower :
    (∃ s v rs, Store.Unfolds s v (Tree.tower 255) rs ∧ s.toBytes v = .ok (Tree.tower 255).encode) ∧
    (∃ v t, Registry.core.ofBytes (Tree.tower 255).encode {} = .ok v t) ∧
    (∃ s v rs, Store.Unfolds s v (Tree.tower 256) rs ∧ s.toBytes v = .error (.tooDeep 256)) ∧
    ∃ t, Registry.core.ofBytes (Tree.tower 256).encode {} = .error (.tooDeep 256) t := by
  obtain ⟨⟨s, v, rs, hx⟩, hgood, -⟩ := nesting_limit (Tree.fits_tower 255)
  obtain ⟨⟨s', v', rs', hx'⟩, -, hbad⟩ := nesting_limit (Tree.fits_tower 256)
  obtain ⟨hwrite, hread⟩ := hgood (Tree.depth_tower 255).le
  obtain ⟨hwrite', hread'⟩ := hbad (by rw [Tree.depth_tower]; decide)
  obtain ⟨w, t, hw, -⟩ := hread .core Registry.hasCore_core {}
  exact ⟨⟨s, v, rs, hx, hwrite s v rs hx⟩, ⟨w, t, hw⟩, ⟨s', v', rs', hx', hwrite' s' v' rs' hx'⟩,
    hread' .core Registry.hasCore_core {}⟩

end ScriptCore
