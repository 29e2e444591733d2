import ScriptCore.Proofs.Tree
import ScriptCore.Serial.Thread

/-!
# What writing a value does

The writer succeeds on the values that unfold to a tree whose texts fit and that is nested at most as deeply
as there are levels left, and it writes the wire form of the tree (`toBytes_iff`). It closes every level it
opens, however it ends (`keeps_writeValue`).

A `Plain` value is one from which no record can be reached; records have wire forms that trees do not cover.
-/
namespace ScriptCore

open Wire

/-! ## Levels -/

namespace NestedM

variable {σ α β : Type}

/-- Whatever is opened is closed again. -/
def Keeps (x : NestedM σ α) : Prop :=
  ∀ n, (after (x n)).depth = n.depth

theorem Keeps.ok {x : NestedM σ α} (hx : Keeps x) {m m' : Nested σ} {a : α} (h : x m = .ok a m') :
    m'.depth = m.depth := by
  have hk := hx m
  rwa [h] at hk

theorem keeps_pure (a : α) : Keeps (pure a : NestedM σ α) := fun _ => rfl

theorem keeps_throw (e : SerialError) : Keeps (throw e : NestedM σ α) := fun _ => rfl

theorem keeps_lift (x : EStateM SerialError σ α) : Keeps (lift x) := by
  intro n
  unfold lift
  cases x n.state <;> rfl

theorem keeps_bind {x : NestedM σ α} {f : α → NestedM σ β} (hx : Keeps x) (hf : ∀ a, Keeps (f a)) :
    Keeps (x >>= f) := by
  intro n
  have h := hx n
  rw [run_bind]
  cases hn : x n with
  | error e m => rw [hn] at h; exact h
  | ok a m => rw [hn] at h; exact (hf a m).trans h

theorem keeps_level {x : NestedM σ α} (hx : Keeps x) : Keeps (level x) := by
  intro n
  unfold level
  split
  · rfl
  · have h := hx { n with depth := n.depth + 1 }
    split
    all_goals
      next hn =>
      rw [hn] at h
      simp only [after] at h ⊢
      omega

theorem level_ok {x : NestedM σ α} {m m' : Nested σ} {a : α} (h : level x m = .ok a m') :
    m.depth < maxNesting ∧ ∃ m'', x { m with depth := m.depth + 1 } = .ok a m'' ∧
      m' = { m'' with depth := m''.depth - 1 } := by
  unfold level at h
  split at h
  · cases h
  · next hd =>
    refine ⟨Nat.not_le.mp hd, ?_⟩
    split at h
    · next hx => cases h; exact ⟨_, hx, rfl⟩
    · cases h

end NestedM

theorem Thread.toBytes_fst (v : Value) (t : Thread) :
    (Thread.toBytes v t).1 = match t.store.serialize v ⟨{}, t.writing⟩ with
      | .ok _ m => .ok m.state.bytes.toList
      | .error e _ => .error e := by
  simp only [Thread.toBytes, Thread.serialize, Thread.save, bind, StateT.bind]
  cases t.store.serialize v ⟨{}, t.writing⟩ <;> rfl

namespace Store

open NestedM SaveM

variable {s : Store}

theorem keeps_item (i : Item) : Keeps (item i) := keeps_lift _

theorem keeps_writeCell {value : Value → SaveM Unit} (hv : ∀ v, Keeps (value v)) (c : CellId) :
    Keeps (s.writeCell value c) :=
  keeps_bind (keeps_item _) fun _ => hv _

theorem keeps_writeTail {value : Value → SaveM Unit} (hv : ∀ v, Keeps (value v)) (l : List CellId) :
    Keeps (s.writeTail value l) := by
  induction l with
  | nil => exact keeps_item _
  | cons c l ih => exact keeps_bind (keeps_item _) fun _ => keeps_bind (keeps_writeCell hv c) fun _ => ih

theorem keeps_writeFields {value : Value → SaveM Unit} (hv : ∀ v, Keeps (value v)) (l : List Field) :
    Keeps (writeFields value l) := by
  induction l with
  | nil => exact keeps_pure _
  | cons f l ih =>
    cases f with
    | item i => exact keeps_bind (keeps_item i) fun _ => ih
    | value v => exact keeps_bind (hv v) fun _ => ih

theorem keeps_writeStateWith {value : Value → SaveM Unit} (hv : ∀ v, Keeps (value v)) (r : Ref) :
    Keeps (s.writeStateWith value r) := by
  unfold writeStateWith
  split
  · split
    · exact keeps_throw _
    · exact keeps_bind (keeps_writeCell hv _) fun _ => keeps_writeTail hv _
  · split
    · exact keeps_item _
    · exact keeps_throw _
    · split
      · exact keeps_writeFields hv _
      · exact keeps_throw _

theorem keeps_writeValue (s : Store) (n : Nat) (v : Value) : Keeps (s.writeValue n v) := by
  induction n generalizing v with
  | zero => exact keeps_throw _
  | succ n ih =>
    cases v with
    | none => exact keeps_level (keeps_item _)
    | some r =>
      refine keeps_level ?_
      unfold writeObject
      split
      · exact keeps_throw _
      · exact keeps_bind (keeps_item _) fun _ => keeps_writeStateWith ih r

/-! ## What is written -/

/-- With `d` levels open and no limit on room, the bytes are written and the levels are as before. -/
def Emits (x : SaveM Unit) (d : Nat) (bytes : List UInt8) : Prop :=
  ∀ sink : Sink, sink.capacity = none → x ⟨sink, d⟩ = .ok () ⟨sink.push bytes, d⟩

theorem emits_item {i : Item} (h : i.Fits) (d : Nat) : Emits (item i) d i.bytes := by
  intro sink hs
  rw [item, lift, (write_ok_iff hs).mpr ⟨h, rfl⟩]

theorem emits_header (h : Header) (d : Nat) : Emits (item (.header h)) d (Item.header h).bytes :=
  emits_item (i := .header h) trivial d

theorem emits_kind (k : CellKind) (d : Nat) : Emits (item (.u8 k.byte)) d (Item.u8 k.byte).bytes :=
  emits_item (i := .u8 k.byte) trivial d

theorem emits_bind {x y : SaveM Unit} {d : Nat} {b c : List UInt8} (hx : Emits x d b) (hy : Emits y d c) :
    Emits (do x; y) d (b ++ c) := by
  intro sink hs
  have hy' := hy (sink.push b) hs
  rw [push_push] at hy'
  rw [run_bind, hx sink hs]
  exact hy'

theorem emits_level {x : SaveM Unit} {d : Nat} {b : List UInt8} (hd : d < maxNesting)
    (hx : Emits x (d + 1) b) : Emits (level x) d b := by
  intro sink hs
  simp only [level, if_neg (Nat.not_le.mpr hd), hx sink hs, Nat.add_sub_cancel]

/-- The further cells of a chain are written as the tree they unfold to. -/
theorem emits_writeTail (value : Value → SaveM Unit) (d : Nat) {link : Option CellId} {y : Tree .second}
    {ys : List Ref} (h : s.Unfolds (.ofLink link) y ys) (hfit : y.Fits)
    (hv : ∀ v (x : Tree .first) xs, s.Unfolds v x xs → x.Fits → x.depth < y.depth → Emits (value v) d x.encode) :
    ∃ l, Chain.EndsBehind s.next link l ∧ Emits (s.writeTail value l) d y.encode := by
  cases y with
  | nil =>
    cases link with
    | none => exact ⟨[], rfl, emits_header .nil d⟩
    | some c => cases h
  | cell kind x y =>
    cases link with
    | none => cases h
    | some c =>
      cases h with
      | @cell _ _ _ _ xs ys hx hy =>
        obtain ⟨l, hends, hl⟩ := emits_writeTail value d hy hfit.2 fun v z zs hz hzf hzd =>
          hv v z zs hz hzf (by simp only [Tree.depth]; omega)
        have hcar := hv _ x xs hx hfit.1 (by simp only [Tree.depth]; omega)
        have hrest := emits_bind (emits_bind (emits_kind (s.cell c).kind d) hcar) hl
        rw [List.append_assoc] at hrest
        exact ⟨c :: l, Chain.ends_cons_iff.mpr ⟨rfl, hends⟩, emits_bind (emits_header .cell d) hrest⟩

/-- A value is written as the tree it unfolds to, if the tree fits and is not nested too deeply. -/
theorem emits_writeValue {n d : Nat} {p : Place} {v : Value} {x : Tree p} {rs : List Ref}
    (h : s.Unfolds v x rs) (hfit : x.Fits) (hdepth : x.depth + d ≤ maxNesting) (hn : maxNesting ≤ n + d) :
    Emits (s.writeValue n v) d x.encode := by
  induction n generalizing d p v rs with
  | zero => have := x.depth_pos; omega
  | succ n ih =>
    have hd : d < maxNesting := by have := x.depth_pos; omega
    cases h with
    | nil => exact emits_level hd (emits_header .nil _)
    | leaf ha =>
      refine emits_level hd ?_
      simp only [writeObject, header?, ha, Atom.header?, writeStateWith]
      exact emits_bind (emits_header _ _) (emits_item hfit _)
    | @cell _ c x y xs ys hx hy =>
      simp only [Tree.depth] at hdepth
      have hcar := ih hx hfit.1 (d := d + 1) (by omega) (by omega)
      obtain ⟨l, hends, hl⟩ := emits_writeTail (s.writeValue n) (d + 1) hy hfit.2
        fun v z zs hz hzf hzd => ih hz hzf (by omega) (by omega)
      have hc : Chain.Ends s.next c (c :: l) := Chain.ends_cons_iff.mpr ⟨rfl, hends⟩
      refine emits_level hd ?_
      simp only [writeObject, header?, writeStateWith, cyclic_of_ends hc, Bool.false_eq_true, if_false,
        spine_of_ends hc, List.tail_cons]
      have hrest := emits_bind (emits_bind (emits_kind (s.cell c).kind _) hcar) hl
      rw [List.append_assoc] at hrest
      exact emits_bind (emits_header .cell _) hrest

/-! ## Only trees are written -/

/-- No record can be reached from the value. -/
def Plain (s : Store) (v : Value) : Prop :=
  ∀ a h, s.Reaches v (.atom a) → s.atom a = .host h → h.type.record = none

theorem Plain.car {c : CellId} (h : s.Plain (some (.cell c))) : s.Plain (s.cell c).car :=
  fun a o hr => h a o hr.of_car

theorem Plain.cdr {c : CellId} (h : s.Plain (some (.cell c))) : s.Plain (.ofLink (s.cell c).cdr) :=
  fun a o hr => h a o hr.of_cdr

/-- Only cells and plain data can be reached from the value. -/
def Core (s : Store) (v : Value) : Prop :=
  ∀ a, s.Reaches v (.atom a) → ∃ x, s.atom a = .datum x

theorem Core.plain {v : Value} (h : s.Core v) : s.Plain v := by
  intro a o ha ho
  obtain ⟨x, hx⟩ := h a ha
  rw [hx] at ho
  cases ho

theorem fits_of_item {i : Item} {m m' : Nested Sink} (h : item i m = .ok () m') : i.Fits := by
  cases i with
  | text x =>
    by_contra hx
    have he : (Item.text x).write = throw (.invalid .textTooLong none) := if_neg hx
    rw [item, lift, he] at h
    cases h
  | _ => trivial

/-- A tail that is written unfolds to a tree. Its depth counts from the level at which the first slots are
written, since each of them closes what it opens. -/
theorem unfolds_of_writeTail {value : Value → SaveM Unit} (hk : ∀ v, Keeps (value v))
    (hv : ∀ v m m', s.Plain v → value v m = .ok () m' →
      ∃ (x : Tree .first) (xs : List Ref), s.Unfolds v x xs ∧ x.Fits ∧ x.depth + m.depth ≤ maxNesting)
    {l : List CellId} {link : Option CellId} (hl : Chain.EndsBehind s.next link l)
    (hp : s.Plain (.ofLink link)) {m m' : Nested Sink} {d : Nat} (hd : m.depth = d + 1) (hmax : d < maxNesting)
    (h : s.writeTail value l m = .ok () m') :
    ∃ (y : Tree .second) (ys : List Ref), s.Unfolds (.ofLink link) y ys ∧ y.Fits ∧ y.depth + d ≤ maxNesting := by
  induction l generalizing link m with
  | nil =>
    cases link with
    | none => exact ⟨.nil, [], .nil, trivial, by simp only [Tree.depth]; omega⟩
    | some c => cases hl
  | cons c l ih =>
    cases link with
    | none => cases hl
    | some b =>
      obtain ⟨rfl, hl⟩ := Chain.ends_cons_iff.mp hl
      obtain ⟨_, m₁, h₁, h⟩ := bind_ok_iff.mp h
      obtain ⟨_, m₂, h₂, h⟩ := bind_ok_iff.mp h
      obtain ⟨_, m₃, h₃, h₄⟩ := bind_ok_iff.mp h₂
      have e₃ : m₃.depth = m.depth := ((keeps_item _).ok h₃).trans ((keeps_item _).ok h₁)
      have e₂ : m₂.depth = m.depth := ((hk _).ok h₄).trans e₃
      obtain ⟨x, xs, hx, hxf, hxd⟩ := hv _ _ _ (Plain.car hp) h₄
      obtain ⟨y, ys, hy, hyf, hyd⟩ := ih hl (Plain.cdr hp) (e₂.trans hd) h
      exact ⟨_, _, .cell hx hy, ⟨hxf, hyf⟩, by simp only [Tree.depth]; omega⟩

/-- An object whose state is written unfolds to a tree. -/
theorem unfolds_of_writeStateWith {value : Value → SaveM Unit} (hk : ∀ v, Keeps (value v))
    (hv : ∀ v m m', s.Plain v → value v m = .ok () m' →
      ∃ (x : Tree .first) (xs : List Ref), s.Unfolds v x xs ∧ x.Fits ∧ x.depth + m.depth ≤ maxNesting)
    {r : Ref} (hp : s.Plain (some r)) {m m' : Nested Sink} {d : Nat} (hd : m.depth = d + 1) (hmax : d < maxNesting)
    (h : s.writeStateWith value r m = .ok () m') :
    ∃ (x : Tree .first) (rs : List Ref), s.Unfolds (some r) x rs ∧ x.Fits ∧ x.depth + d ≤ maxNesting := by
  cases r with
  | atom a =>
    simp only [writeStateWith] at h
    cases ha : s.atom a with
    | datum x =>
      rw [ha] at h
      exact ⟨.leaf x, _, .leaf ha, fits_of_item h, by simp only [Tree.depth]; omega⟩
    | builtin b => rw [ha] at h; cases h
    | host o =>
      rw [ha] at h
      simp only [hp a o (Reaches.refl s _) ha, Option.isSome_none, Bool.false_eq_true, if_false] at h
      cases h
  | cell c =>
    simp only [writeStateWith] at h
    split at h
    · cases h
    next hc =>
    obtain ⟨l, hl⟩ := exists_ends (Bool.not_eq_true _ ▸ hc)
    rw [spine_of_ends hl] at h
    obtain ⟨l, rfl⟩ := hl.head
    obtain ⟨-, hl⟩ := Chain.ends_cons_iff.mp hl
    obtain ⟨_, m₁, h₁, htail⟩ := bind_ok_iff.mp h
    obtain ⟨_, m₂, hkind, hcar⟩ := bind_ok_iff.mp h₁
    have e₂ : m₂.depth = d + 1 := ((keeps_item _).ok hkind).trans hd
    have e₁ : m₁.depth = d + 1 := ((hk _).ok hcar).trans e₂
    obtain ⟨x, xs, hx, hxf, hxd⟩ := hv _ _ _ hp.car hcar
    obtain ⟨y, ys, hy, hyf, hyd⟩ := unfolds_of_writeTail hk hv hl hp.cdr e₁ hmax htail
    exact ⟨_, _, .cell hx hy, ⟨hxf, hyf⟩, by simp only [Tree.depth]; omega⟩

/-- A value that is written unfolds to a tree, into whatever sink it is written. -/
theorem unfolds_of_writeValue {n : Nat} {v : Value} {m m' : Nested Sink} (hp : s.Plain v)
    (h : s.writeValue n v m = .ok () m') :
    ∃ (x : Tree .first) (rs : List Ref), s.Unfolds v x rs ∧ x.Fits ∧ x.depth + m.depth ≤ maxNesting := by
  induction n generalizing v m m' with
  | zero => cases h
  | succ n ih =>
    cases v with
    | none =>
      obtain ⟨hd, -⟩ := level_ok h
      exact ⟨.nil, [], .nil, trivial, by simp only [Tree.depth]; omega⟩
    | some r =>
      obtain ⟨hd, m₁, h, -⟩ := level_ok h
      cases hh : s.header? r with
      | none => rw [writeObject, hh] at h; cases h
      | some header =>
        rw [writeObject, hh] at h
        obtain ⟨_, m₂, hheader, hstate⟩ := bind_ok_iff.mp h
        have e₂ : m₂.depth = m.depth + 1 := (keeps_item _).ok hheader
        exact unfolds_of_writeStateWith (keeps_writeValue s n) (fun _ _ _ => ih) hp e₂ hd hstate

/-! ## The bytes of a value -/

/-- A plain value has bytes if it unfolds to a tree that fits and is not nested too deeply, and then they are
the wire form of the tree. -/
theorem toBytes_iff {v : Value} (hp : s.Plain v) {bytes : List UInt8} :
    s.toBytes v = .ok bytes ↔ ∃ (x : Tree .first) (rs : List Ref),
      s.Unfolds v x rs ∧ x.Fits ∧ x.depth ≤ maxNesting ∧ x.encode = bytes := by
  have hw : ∀ (x : Tree .first) (rs : List Ref), s.Unfolds v x rs → x.Fits → x.depth ≤ maxNesting →
      s.toBytes v = .ok x.encode := by
    intro x rs hx hfit hd
    have he := emits_writeValue (n := maxNesting) (d := 0) hx hfit hd (Nat.le_refl _) {} rfl
    rw [toBytes, Thread.toBytes_fst, serialize, he]
    simp [Sink.push]
  constructor
  · intro h
    cases hs : s.serialize v ⟨{}, 0⟩ with
    | error e m => rw [toBytes, Thread.toBytes_fst, hs] at h; cases h
    | ok u m =>
      obtain ⟨x, rs, hx, hfit, hd⟩ := unfolds_of_writeValue hp hs
      have hb := hw x rs hx hfit hd
      rw [h] at hb
      exact ⟨x, rs, hx, hfit, hd, by cases hb; rfl⟩
  · rintro ⟨x, rs, hx, hfit, hd, rfl⟩
    exact hw x rs hx hfit hd

end Store

end ScriptCore
