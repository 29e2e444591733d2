import ScriptCore.Proofs.Dispatch

/-!
# Calls of core methods

A core method may meet a receiver of a foreign type, arguments of any type and lists of any shape. It looks at all
of them before it changes anything, so that a call that fails has done nothing; and it reads no argument but those
that its declared arity asks for.

Results:
* `Guarded.bind`: work that begins with reading is guarded if what follows is.
* `CoreMethod.run_guarded`: a core method that gets the arguments it reads ends with a value, or with an error and
  the store as it was.
* `core_covered`: every method of the core tables has an arity that covers what its body reads.
* `send_core_settled`: so a call that finds no method, or one in a core table, never crashes, and changes nothing
  when it fails.
-/
namespace ScriptCore

/-- The errors of method calls: no method, a wrong number of arguments, or what a core method refuses. -/
def Error.ofCall : Error → Bool
  | .unboundMethod .. | .arity .. | .type _ | .cdrType _ | .indexOutOfRange .. | .cyclicList | .cloneUnsupported _ => true
  | .unknownSymbol _ | .unboundSymbol _ | .notCallable _ | .stackOverflow _ | .serial _ => false

/-! ## Guarded work -/

/-- From a store, work ended with a value and a change that `P` allows, or with an error and the store as it was. -/
inductive Settled {α : Type} (P : Store → Store → Prop) (s : Store) : EStateM.Result Fault Store α → Prop
  | done {a : α} {s' : Store} (h : P s s') : Settled P s (.ok a s')
  | refused {e : Error} (h : e.ofCall) : Settled P s (.error (.error e) s)

/-- Work that settles whatever the store is. -/
def Guarded {α : Type} (P : Store → Store → Prop) (x : ActM α) : Prop :=
  ∀ s, Settled P s (x s)

/-- Work that only looks at the store. -/
abbrev Reading {α : Type} (x : ActM α) : Prop :=
  Guarded Eq x

/-- Work that may change the store if it ends with a value. -/
abbrev Acting {α : Type} (x : ActM α) : Prop :=
  Guarded (fun _ _ => True) x

section Guarded

variable {α β : Type} {P : Store → Store → Prop}

theorem Guarded.bind {x : ActM α} {f : α → ActM β} (hx : Reading x) (hf : ∀ a, Guarded P (f a)) :
    Guarded P (x >>= f) := by
  intro s
  rw [run_bind]
  have h := hx s
  generalize x s = r at h
  cases h with
  | done h => subst h; exact hf _ s
  | refused h => exact .refused h

/-- What comes last and cannot fail does not undo a guard. -/
theorem Guarded.map {x : ActM α} (hx : Guarded P x) (g : α → β) : Guarded P (x >>= fun a => pure (g a)) := by
  intro s
  rw [run_bind]
  have h := hx s
  generalize x s = r at h
  cases h with
  | done h => exact .done h
  | refused h => exact .refused h

theorem Reading.acting {x : ActM α} (hx : Reading x) : Acting x := by
  intro s
  have h := hx s
  generalize x s = r at h
  cases h with
  | done h => exact .done trivial
  | refused h => exact .refused h

theorem reading_pure (a : α) : Reading (pure a : ActM α) :=
  fun _ => .done rfl

theorem reading_get : Reading (get : ActM Store) :=
  fun _ => .done rfl

theorem reading_throw {e : Error} (h : e.ofCall) : Reading (throw (.error e) : ActM α) :=
  fun _ => .refused h

theorem reading_ofExcept {r : Except Error α} (h : ∀ e, r = .error e → e.ofCall) :
    Reading (Fault.ofExcept r : ActM α) := by
  cases r with
  | ok a => exact reading_pure a
  | error e => exact reading_throw (h e rfl)

theorem acting_datum (d : Datum) : Acting (ActM.datum d) :=
  fun _ => .done trivial

theorem acting_modify (f : Store → Store) : Acting (modify f : ActM Unit) :=
  fun _ => .done trivial

end Guarded

/-! ## Reading receivers and arguments -/

theorem reading_argument {args : List Value} {i : Nat} (h : i < args.length) : Reading (argument args i) := by
  unfold argument
  rw [List.getElem?_eq_getElem h]
  exact reading_pure _

theorem reading_integer (v : Value) : Reading (ActM.integer v) := by
  refine .bind reading_get fun s => reading_ofExcept fun e he => ?_
  unfold Store.integer at he
  split at he <;> cases he
  rfl

theorem reading_text (v : Value) : Reading (ActM.text v) := by
  refine .bind reading_get fun s => reading_ofExcept fun e he => ?_
  unfold Store.text at he
  split at he <;> cases he
  rfl

theorem reading_cell (this : Ref) : Reading (ActM.cell this) := by
  cases this with
  | cell c => exact reading_pure c
  | atom a => exact .bind reading_get fun s => reading_throw rfl

theorem reading_builtin (this : Ref) : Reading (ActM.builtin this) := by
  refine .bind reading_get fun s => ?_
  cases this with
  | cell c => exact reading_throw rfl
  | atom a =>
    dsimp only
    cases s.atom a with
    | builtin b => exact reading_pure b
    | datum | host => exact reading_throw rfl

theorem reading_index (v : Value) : Reading (ActM.index v) := by
  refine .bind (reading_integer v) fun n => ?_
  split
  · exact .bind (reading_throw rfl) fun _ => reading_pure _
  · exact reading_pure _

theorem reading_joinTexts (head : String) (args : List Value) : Reading (ActM.joinTexts head args) := by
  induction args generalizing head with
  | nil => exact reading_pure head
  | cons v rest ih => exact .bind (reading_text v) fun t => ih (head ++ t)

theorem acting_arithmetic (this : Ref) {args : List Value} (h : 0 < args.length) (name : String)
    (op : Int → Int → Int) : Acting (ActM.arithmetic this args name op) := by
  refine .bind (reading_integer _) fun m => .bind (reading_argument h) fun v => .bind (reading_integer v) fun n => ?_
  cases checkedInt64 (op m.toInt n.toInt) with
  | some r => exact acting_datum _
  | none => exact (reading_throw rfl).acting

/-! ## Changing lists -/

theorem acting_setCdrValue (c : CellId) (v : Value) : Acting (Fault.lift (Store.setCdrValue c v)) := by
  intro s
  match v with
  | none | some (.cell _) => exact .done trivial
  | some (.atom _) => exact .refused rfl

theorem acting_append (c : CellId) (v : Value) : Acting (Fault.lift (Store.append c v)) := by
  intro s
  unfold Fault.lift Store.append
  simp only [run_bind, run_get]
  -- The one check comes before the new cell is made.
  cases s.cyclic c with
  | true => exact .refused rfl
  | false => exact .done trivial

theorem acting_clone (r : Ref) : Acting (Fault.lift (Store.clone r)) := by
  intro s
  cases r with
  | cell c =>
    unfold Fault.lift Store.clone Store.cloneChain
    simp only [run_bind, run_get]
    cases s.cyclic c with
    | true => exact .refused rfl
    | false =>
      rw [if_neg Bool.false_ne_true]
      obtain ⟨_ | copy, s'⟩ := s.newChain (s.cell c).kind (s.elements c)
      · exact .done trivial
      · exact .done trivial
  | atom a =>
    unfold Fault.lift Store.clone
    simp only [run_bind, run_get]
    cases s.atom a with
    | host h => exact .refused rfl
    | datum | builtin => exact .done trivial

/-! ## Core methods -/

/-- How many arguments a core method reads, whatever the number of arguments is. -/
def CoreMethod.reads : CoreMethod → Nat
  | .eql | .add | .sub | .mul | .setCar | .setCdr | .append | .fetch | .nth => 1
  | .repr | .typeName | .clone | .toText | .isZero | .negate | .textLength | .concat | .symbolName | .car | .cdr | .cadr
  | .caddr | .length | .isNil | .isBlock | .builtinName | .isSpecial => 0

theorem CoreMethod.run_guarded (b : CoreMethod) (this : Ref) {args : List Value} (h : b.reads ≤ args.length) :
    Acting (b.run this args) := by
  cases b with
  | repr | typeName | symbolName => exact .bind reading_get fun s => acting_datum _
  | clone => exact (acting_clone this).map some
  | eql => exact .bind (reading_argument h) fun other => .bind reading_get fun s => acting_datum _
  | toText =>
    refine .bind reading_get fun s => ?_
    split <;> exact acting_datum _
  | add | sub | mul => exact acting_arithmetic this h _ _
  | isZero => exact .bind (reading_integer _) fun n => acting_datum _
  | negate =>
    refine .bind reading_get fun s => .bind (reading_ofExcept fun e he => ?_) fun b => acting_datum _
    unfold Store.boolean at he
    split at he <;> cases he
    rfl
  | textLength => exact .bind (reading_text _) fun t => acting_datum _
  | concat => exact .bind (reading_text _) fun t => .bind (reading_joinTexts t args) fun t => acting_datum _
  | car | cdr | cadr | caddr =>
    exact .bind (reading_cell this) fun c => .bind reading_get fun s => (reading_pure _).acting
  | setCar =>
    exact .bind (reading_cell this) fun c => .bind (reading_argument h) fun v =>
      (acting_modify _).map fun _ => some this
  | setCdr =>
    exact .bind (reading_cell this) fun c => .bind (reading_argument h) fun v =>
      (acting_setCdrValue c v).map fun _ => some this
  | append =>
    exact .bind (reading_cell this) fun c => .bind (reading_argument h) fun v =>
      (acting_append c v).map fun _ => some this
  | length | isNil | isBlock => exact .bind (reading_cell this) fun c => .bind reading_get fun s => acting_datum _
  | fetch =>
    refine .bind (reading_cell this) fun c => .bind (reading_argument h) fun v => .bind (reading_index v) fun i =>
      .bind reading_get fun s => (reading_ofExcept fun e he => ?_).acting
    unfold Store.fetch at he
    split at he <;> cases he
    rfl
  | nth =>
    exact .bind (reading_cell this) fun c => .bind (reading_argument h) fun v => .bind (reading_index v) fun i =>
      .bind reading_get fun s => (reading_pure _).acting
  | builtinName | isSpecial => exact .bind (reading_builtin this) fun b => acting_datum _

/-! ## Calls -/

/-- The smallest number of arguments that is accepted. -/
def Arity.least : Arity → Nat
  | .exact n | .atLeast n | .between n _ => n

theorem Arity.least_le {a : Arity} {count : Nat} (h : a.accepts count) : a.least ≤ count := by
  cases a <;> simp_all [accepts, least]

/-- Whether a method is a core method whose arity makes sure of the arguments it reads. -/
def Method.covered (method : Method) : Bool :=
  match method.body with
  | .core b => b.reads ≤ method.arity.least
  | .native _ => false

theorem core_covered : MethodTable.core.all (fun t => t.layer.methods.values.all Method.covered) = true := by
  decide

theorem MethodTable.mem_values_of_find? {t : MethodTable} {q : Selector} {l : MethodLayer} {method : Method}
    (h : t.find? q = some (l, method)) : method ∈ l.methods.values := by
  obtain ⟨-, l', -, -, hfound, -⟩ := List.findSome?_eq_some_iff.mp h
  obtain ⟨m, hm, heq⟩ := Option.map_eq_some_iff.mp hfound
  obtain ⟨rfl, rfl⟩ := Prod.mk.inj heq
  cases q with
  | unnamed => exact nomatch hm
  | named name => exact Dict.mem_values_of_find? hm

theorem Guarded.onStore {x : ActM Value} (hx : Acting x) (m : Machine) :
    (∃ v s, Machine.onStore x m = .ok v { m with store := s }) ∨
      ∃ e, Machine.onStore x m = .error (.error e) m ∧ e.ofCall := by
  unfold Machine.onStore
  have h := hx m.store
  generalize x m.store = r at h
  cases h with
  | done => exact .inl ⟨_, _, rfl⟩
  | refused h => exact .inr ⟨_, rfl, h⟩

theorem Method.invoke_covered (n : Nat) (space : SpaceId) (receiver : Ref) {method : Method} (arguments : List Value)
    (m : Machine) (h : method.covered) :
    (∃ v s, method.invoke n space receiver arguments m = .ok v { m with store := s }) ∨
      ∃ e, method.invoke n space receiver arguments m = .error (.error e) m ∧ e.ofCall := by
  obtain ⟨name, arity, body⟩ := method
  cases body with
  | native => exact nomatch h
  | core b =>
    have hreads : b.reads ≤ arity.least := of_decide_eq_true h
    unfold invoke
    split
    · next haccepts => exact (b.run_guarded receiver (Nat.le_trans hreads (Arity.least_le haccepts))).onStore m
    · exact .inr ⟨_, rfl, rfl⟩

/-- A call that finds no method, or finds one in a core table, ends with a value or with an error, whatever the
receiver and the arguments are. If it ends with an error, then nothing has changed: no object, no name and nothing
else of the engine. -/
theorem send_core_settled (n : Nat) (space : SpaceId) (receiver : Ref) (q : Selector) (arguments : List Value)
    (m : Machine) (hcore : ∀ l method, (m.store.table receiver).find? q = some (l, method) →
      l ∈ MethodTable.core.map MethodTable.layer) :
    (∃ v s, send (n + 1) space receiver q arguments m = .ok v { m with store := s }) ∨
      ∃ e, send (n + 1) space receiver q arguments m = .error (.error e) m ∧ e.ofCall := by
  rw [send_eq]
  cases hfound : (m.store.table receiver).find? q with
  | none => exact .inr ⟨_, rfl, rfl⟩
  | some found =>
    obtain ⟨l, method⟩ := found
    obtain ⟨t, ht, rfl⟩ := List.mem_map.mp (hcore l method hfound)
    have hmethods := List.all_eq_true.mp core_covered t ht
    exact Method.invoke_covered n space receiver arguments m
      (List.all_eq_true.mp hmethods method (MethodTable.mem_values_of_find? hfound))

/-- A host type that inherits the methods of cells, and adds one that would crash. -/
def dequeType : HostType where
  name := "Deque"
  table := .extending (some .cell) "Deque" [⟨"size", .exact 0, .native fun _ _ => .crash "no size"⟩]

/-- A machine with a cell that is its own successor and an object of the host type. -/
def foreignMachine : Machine where
  store := { cells := #[{ cdr := some ⟨0⟩ }], atoms := #[.host { type := dequeType }] }

/-- Appending to the endless list fails, and so does setting a slot of an object that is no cell. -/
theorem send_core_settled_foreign :
    (foreignMachine.store.table (.atom ⟨0⟩)).find? (.named "set-car") =
        some (MethodTable.cell.layer, ⟨"set-car", .exact 1, .core .setCar⟩) ∧
      (∃ e, send 1 ⟨0⟩ (.cell ⟨0⟩) (.named "add") [none] foreignMachine = .error (.error e) foreignMachine ∧
        e.ofCall) ∧
      (∃ e, send 1 ⟨0⟩ (.atom ⟨0⟩) (.named "set-car") [none] foreignMachine = .error (.error e) foreignMachine ∧
        e.ofCall) := by
  have hcell {x : Method} (l : MethodLayer) (method : Method) (h : some (MethodTable.cell.layer, x) = some (l, method)) :
      l ∈ MethodTable.core.map MethodTable.layer := by
    obtain ⟨rfl, -⟩ := Prod.mk.inj (Option.some.inj h)
    exact List.mem_map_of_mem (by simp [MethodTable.core])
  have hadd : send 1 ⟨0⟩ (.cell ⟨0⟩) (.named "add") [none] foreignMachine =
      .error (.error .cyclicList) foreignMachine := rfl
  have hset : send 1 ⟨0⟩ (.atom ⟨0⟩) (.named "set-car") [none] foreignMachine =
      .error (.error (.type (.expected "Cons" "Deque"))) foreignMachine := rfl
  refine ⟨rfl, (send_core_settled 0 ⟨0⟩ (.cell ⟨0⟩) (.named "add") [none] foreignMachine hcell).resolve_left ?_,
    (send_core_settled 0 ⟨0⟩ (.atom ⟨0⟩) (.named "set-car") [none] foreignMachine hcell).resolve_left ?_⟩
  · rintro ⟨v, s, h⟩
    exact nomatch hadd.symm.trans h
  · rintro ⟨v, s, h⟩
    exact nomatch hset.symm.trans h

end ScriptCore
