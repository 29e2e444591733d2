import ScriptCore.Eval
import ScriptCore.Proofs.Equality
import ScriptCore.Proofs.Wire

/-!
# Two runs side by side

Two evaluations of forms that look alike, from states that agree, take the same course: with the same fuel both end
with the same fault, or both with values that look alike, and then the states agree again (`simulates`). Some objects
are the same for both runs, such as what the spaces bind at the start. These `Shared` objects may be anything, also
cyclic, but the native functions among them are core forms.

* `Shared`: what is said of the objects that both runs use.
* `Links`: chains of forms are followed on both sides, along shared cells or along cells that look alike.
* `Sync`: when two states agree.
* `Agree`: when two outcomes do.
-/
namespace ScriptCore

open Machine

/-! ## Objects of both runs -/

namespace Store

/-- Objects of `base` that both runs use: with an object also what it refers to, and of native functions only the
core forms. -/
structure Shared (base : Store) (K : Ref → Prop) : Prop where
  has : ∀ r, K r → base.Has r
  link : ∀ q r, K q → base.Link q r → K r
  core : ∀ a b, K (.atom a) → base.atom a = .builtin b → ∃ f, b.body = .core f

/-- Two chains that look alike, or one that is shared. -/
def Links (s t : Store) (K : Ref → Prop) (l l' : Option CellId) : Prop :=
  Alike s t K .second (.ofLink l) (.ofLink l') ∨ ∃ c, l = some c ∧ l' = some c ∧ K (.cell c)

variable {base s t : Store} {K : Ref → Prop} {v w : Value} {l l' : Option CellId}

theorem Links.extend {s' t' : Store} (h : Links s t K l l') (hs : s.Extends s') (ht : t.Extends t') :
    Links s' t' K l l' := by
  rcases h with h | h
  · exact .inl (h.extend hs ht)
  · exact .inr h

/-- Both chains end, or neither. -/
theorem Links.heads (h : Links s t K l l') : (l = none ∧ l' = none) ∨ ∃ c d, l = some c ∧ l' = some d := by
  rcases h with h | ⟨c, rfl, rfl, -⟩
  · cases l <;> cases l' <;> cases h <;> simp
  · exact .inr ⟨c, c, rfl, rfl⟩

theorem Shared.covers (hK : Shared base K) {r : Ref} (hr : K r) : base.Covers (some r) := by
  intro q hq
  refine hK.has q (hq.induction ?_ hK.link)
  intro _ e
  cases e
  exact hr

section Observe

variable (hK : Shared base K) (hs : base.Extends s) (ht : base.Extends t)

include hK hs ht

/-- What both runs see in cells at the same place of two chains. -/
theorem Links.cell {c d : CellId} (h : Links s t K (some c) (some d)) :
    (s.Has (.cell c) ∧ t.Has (.cell d)) ∧ (s.cell c).kind = (t.cell d).kind ∧
      Alike s t K .first (s.cell c).car (t.cell d).car ∧ Links s t K (s.cell c).cdr (t.cell d).cdr ∧
      s.cyclic c = t.cyclic d ∧ List.Forall₂ (Alike s t K .first) (s.elements c) (t.elements d) := by
  have hshared : ∀ v, (∀ r, v = some r → K r) → Alike s t K .first v v := by
    intro v hv
    cases v with
    | none => exact .nil
    | some r => exact .same (hv r rfl)
  rcases h with h | ⟨_, ⟨⟩, ⟨⟩, hc⟩
  · cases h with
    | cell hc hd kind car cdr =>
      obtain ⟨hextent, helements⟩ := Alike.elements car cdr
      exact ⟨⟨hc, hd⟩, kind, car, .inl cdr, by rw [cyclic, cyclic, hextent], helements⟩
  · have hcover := hK.covers hc
    have hsc := hs.cell hcover.self
    have htc := ht.cell hcover.self
    refine ⟨⟨hs.has hcover.self, ht.has hcover.self⟩, ?_, ?_, ?_, ?_, ?_⟩
    · rw [hsc, htc]
    · rw [hsc, htc]
      exact hshared _ fun r hr => hK.link _ _ hc (.car hr)
    · rw [hsc, htc]
      cases hl : (base.cell c).cdr with
      | none => exact .inl .nil
      | some d => exact .inr ⟨d, rfl, rfl, hK.link _ _ hc (.cdr hl)⟩
    · rw [cyclic, cyclic, extent_extends hs hcover, extent_extends ht hcover]
    · rw [elements, elements, spine_extends hs hcover, spine_extends ht hcover, List.forall₂_map_left_iff,
        List.forall₂_map_right_iff, List.forall₂_same]
      intro d hd
      have hreach := reaches_spine hd
      have hKd : K (.cell d) := hreach.induction (fun _ e => by cases e; exact hc) hK.link
      rw [hs.cell (hK.has _ hKd), ht.cell (hK.has _ hKd)]
      exact hshared _ fun r hr => hK.link _ _ hKd (.car hr)

theorem Links.elementsOf (h : Links s t K l l') :
    List.Forall₂ (Alike s t K .first) (s.elementsOf l) (t.elementsOf l') := by
  obtain ⟨rfl, rfl⟩ | ⟨c, d, rfl, rfl⟩ := h.heads
  · exact .nil
  · exact (h.cell hK hs ht).2.2.2.2.2

/-- Objects that look alike are cells at the head of such chains, or atoms with the same content. -/
theorem Alike.object {r q : Ref} (h : Alike s t K .first (some r) (some q)) :
    (∃ c d, r = .cell c ∧ q = .cell d ∧ Links s t K (some c) (some d)) ∨
    (∃ a b x, r = .atom a ∧ q = .atom b ∧ s.atom a = x ∧ t.atom b = x ∧
      ∀ n, x = .builtin n → ∃ f, n.body = .core f) := by
  cases h with
  | same hr =>
    cases r with
    | cell c => exact .inl ⟨c, c, rfl, rfl, .inr ⟨c, rfl, rfl, hr⟩⟩
    | atom a =>
      have ha := hK.has _ hr
      exact .inr ⟨a, a, base.atom a, rfl, rfl, hs.atom ha, ht.atom ha, fun n hn => hK.core a n hr hn⟩
  | datum _ _ hx hy => exact .inr ⟨_, _, _, rfl, rfl, hx, hy, by rintro n ⟨⟩⟩
  | cell hc hd kind car cdr => exact .inl ⟨_, _, rfl, rfl, .inl (.cell hc hd kind car cdr)⟩

theorem Alike.datum?_eq (h : Alike s t K .first v w) : t.datum? w = s.datum? v := by
  cases v with
  | none => cases h; rfl
  | some r =>
    cases w with
    | none => cases h
    | some q =>
      obtain ⟨c, d, rfl, rfl, -⟩ | ⟨a, b, x, rfl, rfl, hx, hy, -⟩ := h.object hK hs ht
      · rfl
      · simp only [datum?, hx, hy]

theorem Alike.valueTypeName_eq (h : Alike s t K .first v w) : t.valueTypeName w = s.valueTypeName v := by
  cases v with
  | none => cases h; rfl
  | some r =>
    cases w with
    | none => cases h
    | some q =>
      obtain ⟨c, d, rfl, rfl, -⟩ | ⟨a, b, x, rfl, rfl, hx, hy, -⟩ := h.object hK hs ht
      · rfl
      · simp only [valueTypeName, typeName, hx, hy]

theorem Alike.truthy_eq (h : Alike s t K .first v w) : t.truthy w = s.truthy v := by
  have hd := h.datum?_eq hK hs ht
  cases v with
  | none => cases h; rfl
  | some r =>
    cases w with
    | none => cases h
    | some q => rw [truthy, truthy, hd] <;> simp

theorem Alike.integer_eq (h : Alike s t K .first v w) : t.integer w = s.integer v := by
  rw [integer, integer, h.datum?_eq hK hs ht, h.valueTypeName_eq hK hs ht]

theorem Alike.symbolName_eq (h : Alike s t K .first v w) : symbolName t w = symbolName s v := by
  rw [symbolName, symbolName, h.datum?_eq hK hs ht]

theorem sumIntegers_eq {vs ws : List Value} (h : List.Forall₂ (Alike s t K .first) vs ws) (total : Int64) :
    sumIntegers t total ws = sumIntegers s total vs := by
  induction h generalizing total with
  | nil => rfl
  | cons hv _ ih =>
    rw [sumIntegers, sumIntegers, hv.integer_eq hK hs ht]
    split
    · rfl
    · split
      · rfl
      · exact ih _

end Observe

/-! ## New objects -/

theorem Alike.newDatum (x : Datum) :
    Alike (s.newDatum x).2 (t.newDatum x).2 K .first (s.newDatum x).1 (t.newDatum x).1 := by
  refine .datum ?_ ?_ ?_ ?_ (x := x)
  · exact has_newAtom.mpr (.inr rfl)
  · exact has_newAtom.mpr (.inr rfl)
  · exact (atom_newAtom _).trans (if_pos rfl)
  · exact (atom_newAtom _).trans (if_pos rfl)

theorem Alike.newCell {p : Place} {kind : CellKind} (hv : Alike s t K .first v w)
    (hl : Alike s t K .second (.ofLink l) (.ofLink l')) :
    Alike (s.newCell { kind, car := v, cdr := l }).2 (t.newCell { kind, car := w, cdr := l' }).2 K p
      (some (.cell (s.newCell { kind, car := v, cdr := l }).1))
      (some (.cell (t.newCell { kind, car := w, cdr := l' }).1)) := by
  have hs := extends_newCell s { kind, car := v, cdr := l }
  have ht := extends_newCell t { kind, car := w, cdr := l' }
  have hcell := fun s x => (cell_newCell (s := s) (x := x) (s.newCell x).1).trans (if_pos rfl)
  refine .cell (has_newCell.mpr (.inr rfl)) (has_newCell.mpr (.inr rfl)) ?_ ?_ ?_
  · rw [hcell, hcell]
  · rw [hcell, hcell]; exact hv.extend hs ht
  · rw [hcell, hcell]; exact hl.extend hs ht

/-- Lists of values that look alike look alike. -/
theorem Alike.newChain {vs ws : List Value} (h : List.Forall₂ (Alike s t K .first) vs ws) (kind : CellKind) :
    s.Extends (s.newChain kind vs).2 ∧ t.Extends (t.newChain kind ws).2 ∧
      ∀ p, Alike (s.newChain kind vs).2 (t.newChain kind ws).2 K p (.ofLink (s.newChain kind vs).1)
        (.ofLink (t.newChain kind ws).1) := by
  induction h with
  | nil => exact ⟨.refl s, .refl t, fun _ => .nil⟩
  | cons hv _ ih =>
    obtain ⟨hs, ht, htail⟩ := ih
    exact ⟨hs.trans (extends_newCell _ _), ht.trans (extends_newCell _ _),
      fun _ => .newCell (hv.extend hs ht) (htail .second)⟩

end Store

/-! ## States and outcomes that agree -/

theorem rel_imp {α : Type} {R S : α → α → Prop} {x y : Option α} (h : Option.Rel R x y)
    (hRS : ∀ v w, R v w → S v w) : Option.Rel S x y := by
  cases h with
  | none => exact .none
  | some hv => exact .some (hRS _ _ hv)

section Agreement

open Store

variable (base : Store) (K : Ref → Prop) (space : SpaceId) (around : List SpaceId)

/-- Two states with the same limits, in which the space and the spaces around it bind the same names to values
that look alike. -/
structure Sync (a b : Machine) : Prop where
  left : base.Extends a.store
  right : base.Extends b.store
  config : b.config = a.config
  depth : b.depth = a.depth
  size : b.spaces.spaces.size = a.spaces.spaces.size
  aroundLeft : (a.spaces.space space).enclosing = around
  aroundRight : (b.spaces.space space).enclosing = around
  bound : ∀ i ∈ space :: around, ∀ name,
    Option.Rel (Alike a.store b.store K .first) (a.spaces.findHere? i name) (b.spaces.findHere? i name)

/-- Two outcomes of runs that began in `a` and `b`: the same fault, or results related by `R`. Afterwards the
states agree, and no object has changed. -/
inductive Agree {α : Type} (R : Store → Store → α → α → Prop) (a b : Machine) :
    EStateM.Result Fault Machine α → EStateM.Result Fault Machine α → Prop
  | ok {v w : α} {a' b' : Machine} (sync : Sync base K space around a' b') (left : a.store.Extends a'.store)
      (right : b.store.Extends b'.store) (related : R a'.store b'.store v w) : Agree R a b (.ok v a') (.ok w b')
  | error {e : Fault} {a' b' : Machine} (sync : Sync base K space around a' b') (left : a.store.Extends a'.store)
      (right : b.store.Extends b'.store) : Agree R a b (.error e a') (.error e b')

end Agreement

theorem Machine.checkCycle_run (c : CellId) (m : Machine) :
    checkCycle c m = if (m.config.detectCycles && m.store.cyclic c) = true then .error (.error .cyclicList) m
      else .ok () m := by
  unfold checkCycle
  refine (run_bind _ _ _).trans ?_
  rw [run_get]
  dsimp only
  split <;> rfl

section Rules

open Store

variable {base : Store} {K : Ref → Prop} {space : SpaceId} {around : List SpaceId}
variable {α β : Type} {R : Store → Store → α → α → Prop} {a b : Machine}

theorem Agree.pure (h : Sync base K space around a b) {v w : α} (hv : R a.store b.store v w) :
    Agree base K space around R a b (.ok v a) (.ok w b) :=
  .ok h (.refl _) (.refl _) hv

theorem Agree.fail (h : Sync base K space around a b) (e : Fault) :
    Agree base K space around R a b (.error e a) (.error e b) :=
  .error h (.refl _) (.refl _)

theorem Agree.bind {S : Store → Store → β → β → Prop} {x y : RunM α} {f g : α → RunM β}
    (h : Agree base K space around R a b (x a) (y b))
    (hk : ∀ v w a' b', Sync base K space around a' b' → a.store.Extends a'.store → b.store.Extends b'.store →
      R a'.store b'.store v w → Agree base K space around S a' b' (f v a') (g w b')) :
    Agree base K space around S a b ((x >>= f) a) ((y >>= g) b) := by
  rw [run_bind, run_bind]
  generalize x a = rx at h
  generalize y b = ry at h
  cases h with
  | error sync left right => exact .error sync left right
  | @ok v w a' b' sync left right hv =>
    have hrest := hk v w a' b' sync left right hv
    generalize hx : f v a' = rx at hrest
    generalize hy : g w b' = ry at hrest
    simp only [hx, hy]
    cases hrest with
    | error sync' left' right' => exact .error sync' (left.trans left') (right.trans right')
    | ok sync' left' right' hv' => exact .ok sync' (left.trans left') (right.trans right') hv'

theorem Agree.ask {f g : Store → α} {k k' : α → RunM β} {S : Store → Store → β → β → Prop}
    (h : Agree base K space around S a b (k (f a.store) a) (k' (g b.store) b)) :
    Agree base K space around S a b ((Machine.ask f >>= k) a) ((Machine.ask g >>= k') b) := h

/-- How deep evaluation is does not matter, if it is the same for both. -/
theorem Sync.withDepth (h : Sync base K space around a b) (d m n : Nat) :
    Sync base K space around { a with depth := d, deepest := m } { b with depth := d, deepest := n } :=
  ⟨h.left, h.right, h.config, rfl, h.size, h.aroundLeft, h.aroundRight, h.bound⟩

theorem Sync.withStores (h : Sync base K space around a b) {s t : Store} (hs : a.store.Extends s)
    (ht : b.store.Extends t) : Sync base K space around { a with store := s } { b with store := t } := by
  refine ⟨h.left.trans hs, h.right.trans ht, h.config, h.depth, h.size, h.aroundLeft, h.aroundRight, ?_⟩
  intro i hi name
  exact rel_imp (h.bound i hi name) fun _ _ hv => hv.extend hs ht

theorem Sync.enter (h : Sync base K space around a b) :
    Agree base K space around (fun _ _ _ _ => True) a b (Machine.enter a) (Machine.enter b) := by
  unfold Machine.enter
  simp only [h.config, h.depth]
  split
  · exact .fail h _
  · have hdeeper := h.withDepth (a.depth + 1) (max a.deepest (a.depth + 1)) (max b.deepest (a.depth + 1))
    rw [h.config] at hdeeper
    exact .ok hdeeper (.refl _) (.refl _) trivial

theorem Sync.leave (h : Sync base K space around a b) : Sync base K space around a.leave b.leave := by
  have hdepth := h.withDepth (a.depth - 1) a.deepest b.deepest
  unfold Machine.leave
  rw [h.depth]
  exact hdepth

theorem Agree.framed {x y : RunM α} (h : Sync base K space around a b)
    (hxy : ∀ a' b', Sync base K space around a' b' → a.store.Extends a'.store → b.store.Extends b'.store →
      Agree base K space around R a' b' (x a') (y b')) :
    Agree base K space around R a b (Machine.framed x a) (Machine.framed y b) := by
  refine Agree.bind h.enter ?_
  intro _ _ a' b' hsync hs ht _
  have hinner := hxy a' b' hsync hs ht
  generalize x a' = rx at hinner ⊢
  generalize y b' = ry at hinner ⊢
  cases hinner with
  | error sync left right => exact .error sync.leave left right
  | ok sync left right hv => exact .ok sync.leave left right hv

/-- The same answer to a question about the store. -/
theorem Agree.ofExcept (h : Sync base K space around a b) {x y : Except Error α} (hxy : y = x) :
    Agree base K space around (fun _ _ v w => v = w) a b (Fault.ofExcept x a) (Fault.ofExcept y b) := by
  subst hxy
  cases y with
  | error e => exact .fail h (.error e)
  | ok v => exact .pure h rfl

theorem Sync.find (h : Sync base K space around a b) (name : String) {ids : List SpaceId}
    (hids : ∀ i ∈ ids, i ∈ space :: around) :
    Option.Rel (Alike a.store b.store K .first) (ids.findSome? fun i => a.spaces.findHere? i name)
      (ids.findSome? fun i => b.spaces.findHere? i name) := by
  induction ids with
  | nil => exact .none
  | cons i ids ih =>
    have hrel := h.bound i (hids i (by simp)) name
    rw [List.findSome?_cons, List.findSome?_cons]
    generalize a.spaces.findHere? i name = v at hrel
    generalize b.spaces.findHere? i name = w at hrel
    cases hrel with
    | none => exact ih fun j hj => hids j (by simp [hj])
    | some hv => exact .some hv

theorem Sync.lookup (h : Sync base K space around a b) (name : String) :
    Agree base K space around (Alike · · K .first) a b (Fault.ofExcept (a.spaces.lookup space name) a)
      (Fault.ofExcept (b.spaces.lookup space name) b) := by
  have hrel := h.find name fun (i : SpaceId) (hi : i ∈ space :: around) => hi
  simp only [Spaces.lookup, Spaces.find?, h.aroundLeft, h.aroundRight]
  generalize (space :: around).findSome? _ = v at hrel ⊢
  generalize (space :: around).findSome? _ = w at hrel ⊢
  cases hrel with
  | none => exact .fail h _
  | some hv => exact .pure h hv

theorem Sync.withBinding (h : Sync base K space around a b) (name : String) {v w : Value}
    (hv : Alike a.store b.store K .first v w) :
    Sync base K space around { a with spaces := (a.spaces.bind space name v).2 }
      { b with spaces := (b.spaces.bind space name w).2 } := by
  refine ⟨h.left, h.right, h.config, h.depth, ?_, ?_, ?_, ?_⟩
  · rw [Spaces.size_bind, Spaces.size_bind, h.size]
  · rw [Spaces.enclosing_bind, h.aroundLeft]
  · rw [Spaces.enclosing_bind, h.aroundRight]
  · intro i hi other
    rw [Spaces.findHere?_bind, Spaces.findHere?_bind, h.size]
    split
    · exact .some hv
    · exact h.bound i hi other

theorem Sync.bind (h : Sync base K space around a b) (name : String) {v w : Value}
    (hv : Alike a.store b.store K .first v w) :
    Agree base K space around (fun _ _ _ _ => True) a b (Machine.bind space name v a) (Machine.bind space name w b) :=
  .ok (h.withBinding name hv) (.refl _) (.refl _) trivial

theorem Sync.newList (h : Sync base K space around a b) {vs ws : List Value}
    (hv : List.Forall₂ (Alike a.store b.store K .first) vs ws) :
    Agree base K space around (Alike · · K .first) a b (Machine.newList vs a) (Machine.newList ws b) := by
  obtain ⟨hs, ht, hlist⟩ := Alike.newChain hv .list
  exact .ok (h.withStores hs ht) hs ht (hlist .first)

theorem Sync.newDatum (h : Sync base K space around a b) (x : Datum) :
    Agree base K space around (Alike · · K .first) a b (Machine.onStore (ActM.datum x) a)
      (Machine.onStore (ActM.datum x) b) := by
  have hs := extends_newAtom a.store (.datum x)
  have ht := extends_newAtom b.store (.datum x)
  exact .ok (h.withStores hs ht) hs ht (.newDatum x)

theorem Sync.checkCycle (h : Sync base K space around a b) {c d : CellId} (hc : a.store.cyclic c = b.store.cyclic d) :
    Agree base K space around (fun _ _ _ _ => True) a b (Machine.checkCycle c a) (Machine.checkCycle d b) := by
  rw [checkCycle_run, checkCycle_run, hc, h.config]
  by_cases hcyclic : (a.config.detectCycles && b.store.cyclic d) = true
  · rw [if_pos hcyclic, if_pos hcyclic]
    exact .fail h _
  · rw [if_neg hcyclic, if_neg hcyclic]
    exact .pure h trivial

theorem Agree.arity (h : Sync base K space around a b) (name : String) (arity : Arity) {k k' : Nat} (hk : k = k') :
    Agree base K space around R a b (Machine.fail (.arity name arity k) a) (Machine.fail (.arity name arity k') b) := by
  subst hk
  exact .fail h _

end Rules

/-! ## The evaluator -/

section Evaluator

open Store

/-- All functions of the evaluator, run with the same fuel on both sides. -/
structure Simulates (base : Store) (K : Ref → Prop) (space : SpaceId) (around : List SpaceId) (n : Nat) : Prop where
  eval : ∀ {a b : Machine} {v w : Value}, Sync base K space around a b → Alike a.store b.store K .first v w →
    Agree base K space around (Alike · · K .first) a b (eval n space v a) (eval n space w b)
  evalObject : ∀ {a b : Machine} {r q : Ref}, Sync base K space around a b →
    Alike a.store b.store K .first (some r) (some q) →
    Agree base K space around (Alike · · K .first) a b (evalObject n space r a) (evalObject n space q b)
  evalBlock : ∀ {a b : Machine} {l l' : Option CellId} {v w : Value}, Sync base K space around a b →
    Links a.store b.store K l l' → Alike a.store b.store K .first v w →
    Agree base K space around (Alike · · K .first) a b (evalBlock n space l v a) (evalBlock n space l' w b)
  evalForms : ∀ {a b : Machine} {l l' : Option CellId} {vs ws : Array Value}, Sync base K space around a b →
    Links a.store b.store K l l' → List.Forall₂ (Alike a.store b.store K .first) vs.toList ws.toList →
    Agree base K space around (fun s t => List.Forall₂ (Alike s t K .first)) a b (evalForms n space l vs a)
      (evalForms n space l' ws b)
  evalArguments : ∀ {a b : Machine} {l l' : Option CellId}, Sync base K space around a b →
    Links a.store b.store K l l' →
    Agree base K space around (fun s t => List.Forall₂ (Alike s t K .first)) a b (evalArguments n space l a)
      (evalArguments n space l' b)
  apply : ∀ {a b : Machine} {r q : Ref} {l l' : Option CellId}, Sync base K space around a b →
    Alike a.store b.store K .first (some r) (some q) → Links a.store b.store K l l' →
    Agree base K space around (Alike · · K .first) a b (apply n space r l a) (apply n space q l' b)
  applyCore : ∀ {a b : Machine} (f : CoreForm) {l l' : Option CellId}, Sync base K space around a b →
    Links a.store b.store K l l' →
    Agree base K space around (Alike · · K .first) a b (applyCore n space f l a) (applyCore n space f l' b)

variable {base : Store} {K : Ref → Prop} {space : SpaceId} {around : List SpaceId} {n : Nat}
variable {a b : Machine} {v w : Value} {r q : Ref} {l l' : Option CellId}

section Step

variable (hK : Shared base K) (ih : Simulates base K space around n) (h : Sync base K space around a b)

include ih h

theorem Simulates.eval_succ (hv : Alike a.store b.store K .first v w) :
    Agree base K space around (Alike · · K .first) a b (ScriptCore.eval (n + 1) space v a)
      (ScriptCore.eval (n + 1) space w b) := by
  cases v with
  | none => cases hv; exact .pure h .nil
  | some r =>
    cases w with
    | none => cases hv
    | some q => exact .framed h fun a' b' hsync hs ht => ih.evalObject hsync (hv.extend hs ht)

include hK

theorem Simulates.evalObject_succ (hr : Alike a.store b.store K .first (some r) (some q)) :
    Agree base K space around (Alike · · K .first) a b (ScriptCore.evalObject (n + 1) space r a)
      (ScriptCore.evalObject (n + 1) space q b) := by
  obtain ⟨c, d, rfl, rfl, hl⟩ | ⟨i, j, x, rfl, rfl, hx, hy, -⟩ := hr.object hK h.left h.right
  · obtain ⟨-, hkind, hcar, -, hcyclic, -⟩ := hl.cell hK h.left h.right
    rw [ScriptCore.evalObject, ScriptCore.evalObject]
    refine .ask ?_
    rw [hkind]
    cases (b.store.cell d).kind with
    | block =>
      refine .bind (h.checkCycle hcyclic) ?_
      intro _ _ a' b' hsync hs ht _
      exact ih.evalBlock hsync (hl.extend hs ht) .nil
    | list =>
      refine .bind (ih.eval h hcar) ?_
      intro v w a' b' hsync hs ht hv
      cases v with
      | none => cases hv; exact .pure hsync .nil
      | some r =>
        cases w with
        | none => cases hv
        | some q =>
          -- The operator may have been evaluated to anything, but the chain behind it is as it was.
          have hrest := ((hl.extend hs ht).cell hK hsync.left hsync.right).2.2.2.1
          exact ih.apply hsync hv hrest
  · rw [ScriptCore.evalObject, ScriptCore.evalObject]
    refine .ask ?_
    rw [hx, hy]
    cases x with
    | builtin | host => exact .pure h hr
    | datum x =>
      cases x with
      | symbol name => exact h.lookup name
      | integer | text | boolean => exact .pure h hr

theorem Simulates.evalBlock_succ (hl : Links a.store b.store K l l') (hv : Alike a.store b.store K .first v w) :
    Agree base K space around (Alike · · K .first) a b (ScriptCore.evalBlock (n + 1) space l v a)
      (ScriptCore.evalBlock (n + 1) space l' w b) := by
  obtain ⟨rfl, rfl⟩ | ⟨c, d, rfl, rfl⟩ := hl.heads
  · exact .pure h hv
  · obtain ⟨-, -, hcar, hcdr, -⟩ := hl.cell hK h.left h.right
    refine .ask (.bind (ih.eval h hcar) ?_)
    intro _ _ a' b' hsync hs ht hresult
    exact ih.evalBlock hsync (hcdr.extend hs ht) hresult

theorem Simulates.evalForms_succ {vs ws : Array Value} (hl : Links a.store b.store K l l')
    (hv : List.Forall₂ (Alike a.store b.store K .first) vs.toList ws.toList) :
    Agree base K space around (fun s t => List.Forall₂ (Alike s t K .first)) a b
      (ScriptCore.evalForms (n + 1) space l vs a) (ScriptCore.evalForms (n + 1) space l' ws b) := by
  obtain ⟨rfl, rfl⟩ | ⟨c, d, rfl, rfl⟩ := hl.heads
  · exact .pure h hv
  · obtain ⟨-, -, hcar, hcdr, -⟩ := hl.cell hK h.left h.right
    refine .ask (.bind (ih.eval h hcar) ?_)
    intro _ _ a' b' hsync hs ht hresult
    refine ih.evalForms hsync (hcdr.extend hs ht) ?_
    rw [Array.toList_push, Array.toList_push]
    exact List.rel_append (hv.imp fun _ _ hv => hv.extend hs ht) (.cons hresult .nil)

theorem Simulates.evalArguments_succ (hl : Links a.store b.store K l l') :
    Agree base K space around (fun s t => List.Forall₂ (Alike s t K .first)) a b
      (ScriptCore.evalArguments (n + 1) space l a) (ScriptCore.evalArguments (n + 1) space l' b) := by
  obtain ⟨rfl, rfl⟩ | ⟨c, d, rfl, rfl⟩ := hl.heads
  · exact .pure h .nil
  · obtain ⟨-, -, -, -, hcyclic, -⟩ := hl.cell hK h.left h.right
    refine .bind (h.checkCycle hcyclic) ?_
    intro _ _ a' b' hsync hs ht _
    exact ih.evalForms hsync (hl.extend hs ht) .nil

theorem Simulates.apply_succ (hr : Alike a.store b.store K .first (some r) (some q))
    (hl : Links a.store b.store K l l') :
    Agree base K space around (Alike · · K .first) a b (ScriptCore.apply (n + 1) space r l a)
      (ScriptCore.apply (n + 1) space q l' b) := by
  obtain ⟨c, d, rfl, rfl, -⟩ | ⟨i, j, x, rfl, rfl, hx, hy, hcore⟩ := hr.object hK h.left h.right
  · exact .fail h _
  · rw [ScriptCore.apply, ScriptCore.apply]
    refine .ask ?_
    rw [hx, hy]
    cases x with
    | datum | host => exact .fail h _
    | builtin native =>
      obtain ⟨f, hf⟩ := hcore native rfl
      simp only [hf]
      exact ih.applyCore f h hl

omit ih in
theorem Sync.quote (hl : Links a.store b.store K l l') :
    Agree base K space around (Alike · · K .first) a b (ScriptCore.applyCore (n + 1) space .quote l a)
      (ScriptCore.applyCore (n + 1) space .quote l' b) := by
  have hforms := hl.elementsOf hK h.left h.right
  rw [ScriptCore.applyCore, ScriptCore.applyCore]
  refine .ask ?_
  generalize a.store.elementsOf l = forms at hforms ⊢
  generalize b.store.elementsOf l' = forms' at hforms ⊢
  cases hforms with
  | nil => exact .arity h _ _ rfl
  | cons hv hforms =>
    cases hforms with
    | nil => exact .pure h hv
    | cons _ hforms => exact .arity h _ _ (by simp only [List.length_cons, hforms.length_eq])

theorem Simulates.cond_succ (hl : Links a.store b.store K l l') :
    Agree base K space around (Alike · · K .first) a b (ScriptCore.applyCore (n + 1) space .cond l a)
      (ScriptCore.applyCore (n + 1) space .cond l' b) := by
  have hforms := hl.elementsOf hK h.left h.right
  rw [ScriptCore.applyCore, ScriptCore.applyCore]
  refine .ask ?_
  generalize a.store.elementsOf l = forms at hforms ⊢
  generalize b.store.elementsOf l' = forms' at hforms ⊢
  rcases hforms with _ | ⟨htest, _ | ⟨hyes, _ | ⟨hno, _ | ⟨_, hforms⟩⟩⟩⟩
  · exact .arity h _ _ rfl
  · exact .arity h _ _ rfl
  · refine .bind (ih.eval h htest) ?_
    intro v w a' b' hsync hs ht hv
    refine .ask ?_
    rw [hv.truthy_eq hK hsync.left hsync.right]
    cases a'.store.truthy v with
    | true => exact ih.eval hsync (hyes.extend hs ht)
    | false => exact .pure hsync .nil
  · refine .bind (ih.eval h htest) ?_
    intro v w a' b' hsync hs ht hv
    refine .ask ?_
    rw [hv.truthy_eq hK hsync.left hsync.right]
    cases a'.store.truthy v with
    | true => exact ih.eval hsync (hyes.extend hs ht)
    | false => exact ih.eval hsync (hno.extend hs ht)
  · exact .arity h _ _ (by simp only [List.length_cons, hforms.length_eq])

theorem Simulates.define_succ (hl : Links a.store b.store K l l') :
    Agree base K space around (Alike · · K .first) a b (ScriptCore.applyCore (n + 1) space .define l a)
      (ScriptCore.applyCore (n + 1) space .define l' b) := by
  have hforms := hl.elementsOf hK h.left h.right
  rw [ScriptCore.applyCore, ScriptCore.applyCore]
  refine .ask ?_
  generalize a.store.elementsOf l = forms at hforms ⊢
  generalize b.store.elementsOf l' = forms' at hforms ⊢
  rcases hforms with _ | ⟨hsymbol, _ | ⟨hform, _ | ⟨_, hforms⟩⟩⟩
  · exact .arity h _ _ rfl
  · exact .arity h _ _ rfl
  · refine .ask (.bind (.ofExcept h (hsymbol.symbolName_eq hK h.left h.right)) ?_)
    intro name _ a₁ b₁ hsync₁ hs₁ ht₁ hname
    subst hname
    refine .bind (ih.eval hsync₁ (hform.extend hs₁ ht₁)) ?_
    intro v w a₂ b₂ hsync₂ _ _ hv
    refine .bind (hsync₂.bind name hv) ?_
    intro _ _ a₃ b₃ hsync₃ hs₃ ht₃ _
    exact .pure hsync₃ (hv.extend hs₃ ht₃)
  · exact .arity h _ _ (by simp only [List.length_cons, hforms.length_eq])

theorem Simulates.applyCore_succ (f : CoreForm) (hl : Links a.store b.store K l l') :
    Agree base K space around (Alike · · K .first) a b (ScriptCore.applyCore (n + 1) space f l a)
      (ScriptCore.applyCore (n + 1) space f l' b) := by
  cases f with
  | quote => exact h.quote hK hl
  | cond => exact ih.cond_succ hK h hl
  | define => exact ih.define_succ hK h hl
  | list =>
    refine .bind (ih.evalArguments h hl) ?_
    intro vs ws a' b' hsync _ _ hv
    exact hsync.newList hv
  | sum =>
    refine .bind (ih.evalArguments h hl) ?_
    intro vs ws a₁ b₁ hsync₁ _ _ hv
    refine .ask (.bind (.ofExcept hsync₁ (sumIntegers_eq hK hsync₁.left hsync₁.right hv 0)) ?_)
    intro total _ a₂ b₂ hsync₂ _ _ htotal
    subst htotal
    exact hsync₂.newDatum _

end Step

/-- Forms that look alike are evaluated alike. -/
theorem simulates (hK : Shared base K) (space : SpaceId) (around : List SpaceId) (n : Nat) :
    Simulates base K space around n := by
  induction n with
  | zero => constructor <;> intros <;> exact .fail ‹Sync base K space around _ _› .exhausted
  | succ n ih =>
    exact ⟨ih.eval_succ, ih.evalObject_succ hK, ih.evalBlock_succ hK, fun h => ih.evalForms_succ hK h,
      ih.evalArguments_succ hK, ih.apply_succ hK, fun f _ _ h => ih.applyCore_succ hK h f⟩

end Evaluator

end ScriptCore
