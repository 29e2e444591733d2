import ScriptCore.Proofs.Confinement
import ScriptCore.Proofs.Meaning

/-!
# Evaluation ends

With cycles refused, every evaluation ends with a value or an error, also of forms that hold themselves and of names
bound to such forms, and it changes no object (`eval_ends`). Each evaluation inside another one takes a level of depth,
of which only finitely many are left. On a level, forms are followed along chains that have been found to end; nothing
that is done on the way changes a cell, so they still end where they did. Where chains are not checked, only their
different cells are looked at.

A state is `Steady` when it agrees with itself, as two states agree that runs go through side by side, and has its
depth and its configuration as given. What runs keep is then known from how two runs agree, taken for the same run
twice.
-/
namespace ScriptCore

open Machine Store

/-! ## Ending -/

section Halting

variable {α β : Type} {m : Machine}

/-- A run ended with a value or an error. -/
def Ended (result : EStateM.Result Fault Machine α) : Prop :=
  (∃ a m, result = .ok a m) ∨ ∃ e m, result = .error (.error e) m

/-- The run ends, with the same result whenever there is fuel enough. -/
def Halts (x : Nat → RunM α) (m : Machine) : Prop :=
  ∃ result, Ended result ∧ ∃ n, ∀ k, n ≤ k → x k m = result

theorem halts_of_ended {x : RunM α} (h : Ended (x m)) : Halts (fun _ => x) m :=
  ⟨x m, h, 0, fun _ _ => rfl⟩

theorem halts_pure (a : α) : Halts (fun _ => pure a) m := halts_of_ended (.inl ⟨a, m, rfl⟩)

theorem halts_fail (e : Error) : Halts (fun _ => (fail e : RunM α)) m := halts_of_ended (.inr ⟨e, m, rfl⟩)

/-- The first unit of fuel is used up by the call itself. -/
theorem halts_succ {x : Nat → RunM α} (h : Halts (fun n => x (n + 1)) m) : Halts x m := by
  obtain ⟨result, hresult, hsettles⟩ := h
  exact ⟨result, hresult, settles_succ hsettles⟩

theorem halts_bind {x : Nat → RunM α} {f : Nat → α → RunM β} (hx : Halts x m)
    (hf : ∀ n a m', x n m = .ok a m' → Halts (f · a) m') : Halts (fun n => x n >>= f n) m := by
  obtain ⟨result, hresult, n, hn⟩ := hx
  have hsettles : Settles x m result := ⟨n, hn⟩
  rcases hresult with ⟨a, m', rfl⟩ | ⟨e, m', rfl⟩
  · obtain ⟨result, hresult, hrest⟩ := hf n a m' (hn n (Nat.le_refl n))
    exact ⟨result, hresult, settles_bind hsettles hrest⟩
  · exact ⟨.error (.error e) m', .inr ⟨e, m', rfl⟩, settles_bind_error hsettles⟩

theorem halts_ask {g : Store → α} {f : Nat → α → RunM β} (h : Halts (f · (g m.store)) m) :
    Halts (fun n => ask g >>= f n) m := h

theorem halts_ofExcept {x : Except Error α} {f : Nat → α → RunM β} (hf : ∀ a, Halts (f · a) m) :
    Halts (fun n => Fault.ofExcept x >>= f n) m := by
  cases x with
  | ok a => exact hf a
  | error e => exact halts_fail e

theorem halts_framed {x : Nat → RunM α} (h : ¬ m.config.maxDepth.toNat ≤ m.depth → Halts x m.deeper) :
    Halts (fun n => framed (x n)) m := by
  by_cases hlimit : m.config.maxDepth.toNat ≤ m.depth
  · exact ⟨_, .inr ⟨_, m, rfl⟩, 0, fun k _ => framed_refused (x k) hlimit⟩
  · obtain ⟨result, hresult, n, hn⟩ := h hlimit
    rcases hresult with ⟨a, m', rfl⟩ | ⟨e, m', rfl⟩
    · refine ⟨.ok a m'.leave, .inl ⟨_, _, rfl⟩, n, fun k hk => ?_⟩
      refine (framed_entered (x k) hlimit).trans ?_
      rw [hn k hk]
    · refine ⟨.error (.error e) m'.leave, .inr ⟨_, _, rfl⟩, n, fun k hk => ?_⟩
      refine (framed_entered (x k) hlimit).trans ?_
      rw [hn k hk]

/-- Behind the check, a chain is known to end. -/
theorem halts_checkCycle {x : Nat → RunM α} {c : CellId} (hd : m.config.detectCycles = true)
    (h : (∃ l, Chain.Ends m.store.next c l) → Halts x m) : Halts (fun n => checkCycle c >>= fun _ => x n) m := by
  have hrun := checkCycle_run c m
  rw [hd, Bool.true_and] at hrun
  cases hc : m.store.cyclic c with
  | true =>
    rw [if_pos hc] at hrun
    refine halts_bind (halts_of_ended (.inr ⟨_, m, hrun⟩)) ?_
    intro _ _ _ hok
    rw [hrun] at hok
    cases hok
  | false =>
    rw [if_neg (by rw [hc]; exact Bool.false_ne_true)] at hrun
    refine halts_bind (halts_of_ended (.inl ⟨_, m, hrun⟩)) ?_
    intro _ _ _ hok
    rw [hrun] at hok
    cases hok
    exact h (exists_ends hc)

end Halting

/-! ## States that stay steady -/

/-- A state with the given limits and depth, in which everything in use exists and is plain data, a cell or a core
form. -/
structure Steady (base : Store) (K : Ref → Prop) (space : SpaceId) (around : List SpaceId) (limits : Config)
    (depth : Nat) (m : Machine) : Prop where
  sync : Sync base K space around m m
  config : m.config = limits
  depth : m.depth = depth

section Level

variable {base : Store} {K : Ref → Prop} {space : SpaceId} {around : List SpaceId} {limits : Config} {d : Nat}
variable {α : Type} {m m' : Machine} {v : Value} {link : Option CellId}

theorem Steady.after_run {R : Store → Store → α → α → Prop} {x : RunM α} {a : α}
    (h : Steady base K space around limits d m) (hagree : Agree base K space around R m m (x m) (x m))
    (hconfined : Confining space x) (hx : x m = .ok a m') :
    Steady base K space around limits d m' ∧ m.store.Extends m'.store ∧ R m'.store m'.store a a := by
  have hm := hconfined m
  rw [hx] at hagree hm
  cases hagree with
  | ok sync left _ hv => exact ⟨⟨sync, hm.config.trans h.config, hm.depth.trans h.depth⟩, left, hv⟩

theorem Steady.deeper (h : Steady base K space around limits d m) :
    Steady base K space around limits (d + 1) m.deeper :=
  ⟨h.sync.withDepth _ _ _, h.config, by rw [Machine.deeper, h.depth]⟩

/-- A chain of forms ends in a later state as it did. -/
theorem endsBehind_extends {s t : Store} (hK : Shared base K) (hs : base.Extends s) {l : List CellId}
    (hl : Links s s K link link) (h : Chain.EndsBehind s.next link l) (hst : s.Extends t) :
    Chain.EndsBehind t.next link l := by
  induction l generalizing link with
  | nil =>
    cases link with
    | none => rfl
    | some c => cases h
  | cons b l ih =>
    cases link with
    | none => cases h
    | some c =>
      obtain ⟨rfl, hrest⟩ := Chain.ends_cons_iff.mp h
      obtain ⟨⟨hc, -⟩, -, -, hcdr, -⟩ := hl.cell hK hs hs
      have hnext : t.next b = s.next b := by rw [next, next, hst.cell hc]
      refine Chain.ends_cons_iff.mpr ⟨rfl, ?_⟩
      rw [hnext]
      exact ih hcdr hrest

section Forms

variable (hK : Shared base K) (hd : limits.detectCycles = true)
variable (heval : ∀ {m v}, Steady base K space around limits d m → Alike m.store m.store K .first v v →
  Halts (eval · space v) m)
variable (h : Steady base K space around limits d m)

include hK heval h

/-- A form is evaluated, and what follows can rely on what is known before. -/
theorem halts_eval_bind {f : Nat → Value → RunM α} (hv : Alike m.store m.store K .first v v)
    (hf : ∀ w m', Steady base K space around limits d m' → m.store.Extends m'.store →
      Alike m'.store m'.store K .first w w → Halts (f · w) m') :
    Halts (fun n => eval n space v >>= f n) m := by
  refine halts_bind (heval h hv) ?_
  intro n w m' hrun
  obtain ⟨h', hext, hw⟩ := h.after_run ((simulates hK space around n).eval h.sync hv) ((confines space n).eval v) hrun
  exact hf w m' h' hext hw

/-- A loop that evaluates the forms of a chain, one at each turn, ends with the chain. -/
theorem halts_loop {σ : Type} (loop : Nat → Option CellId → σ → RunM α) (step : σ → Value → σ) (out : σ → α)
    (hnil : ∀ n st, loop (n + 1) none st = pure (out st))
    (hcons : ∀ n c st, loop (n + 1) (some c) st =
      ask (·.cell c) >>= fun cell => eval n space cell.car >>= fun v => loop n cell.cdr (step st v))
    {l : List CellId} (hl : Links m.store m.store K link link) (hends : Chain.EndsBehind m.store.next link l) (st : σ) :
    Halts (loop · link st) m := by
  induction l generalizing link st m with
  | nil =>
    cases link with
    | some c => cases hends
    | none =>
      refine halts_succ ?_
      simp only [hnil]
      exact halts_pure _
  | cons b l ih =>
    cases link with
    | none => cases hends
    | some c =>
      obtain ⟨rfl, hrest⟩ := Chain.ends_cons_iff.mp hends
      obtain ⟨-, -, hcar, hcdr, -⟩ := hl.cell hK h.sync.left h.sync.left
      refine halts_succ ?_
      simp only [hcons]
      refine halts_eval_bind hK heval h hcar ?_
      intro w m' h' hext _
      exact ih h' (hcdr.extend hext hext) (endsBehind_extends hK h.sync.left hcdr hrest hext) _

theorem halts_evalBlock {l : List CellId} (hl : Links m.store m.store K link link)
    (hends : Chain.EndsBehind m.store.next link l) (last : Value) : Halts (evalBlock · space link last) m :=
  halts_loop hK heval h (evalBlock · space · ·) (fun _ v => v) id (fun _ _ => rfl) (fun _ _ _ => rfl) hl hends last

theorem halts_evalForms {l : List CellId} (hl : Links m.store m.store K link link)
    (hends : Chain.EndsBehind m.store.next link l) (results : Array Value) : Halts (evalForms · space link results) m :=
  halts_loop hK heval h (evalForms · space · ·) Array.push Array.toList (fun _ _ => rfl) (fun _ _ _ => rfl) hl hends
    results

include hd

theorem halts_evalArguments (hl : Links m.store m.store K link link) : Halts (evalArguments · space link) m := by
  refine halts_succ ?_
  cases link with
  | none => exact halts_pure _
  | some c =>
    refine halts_checkCycle (by rw [h.config, hd]) ?_
    rintro ⟨l, hends⟩
    have hbehind : Chain.EndsBehind m.store.next (some c) l := hends
    exact halts_evalForms hK heval h hl hbehind #[]

theorem halts_evalArguments_bind {f : Nat → List Value → RunM α} (hl : Links m.store m.store K link link)
    (hf : ∀ vs m', Halts (f · vs) m') : Halts (fun n => evalArguments n space link >>= f n) m :=
  halts_bind (halts_evalArguments hK hd heval h hl) fun _ vs m' _ => hf vs m'

theorem halts_applyCore (f : CoreForm) (hl : Links m.store m.store K link link) :
    Halts (applyCore · space f link) m := by
  have hforms := hl.elementsOf hK h.sync.left h.sync.left
  refine halts_succ ?_
  cases f with
  | quote =>
    refine halts_ask ?_
    generalize m.store.elementsOf link = forms
    rcases forms with _ | ⟨form, _ | _⟩
    · exact halts_fail _
    · exact halts_pure _
    · exact halts_fail _
  | cond =>
    refine halts_ask ?_
    generalize m.store.elementsOf link = forms at hforms ⊢
    rcases hforms with _ | ⟨htest, _ | ⟨hyes, _ | ⟨hno, _ | _⟩⟩⟩
    · exact halts_fail _
    · exact halts_fail _
    · refine halts_eval_bind hK heval h htest fun w m' h' hext _ => halts_ask ?_
      cases m'.store.truthy w with
      | true => exact heval h' (hyes.extend hext hext)
      | false => exact halts_pure _
    · refine halts_eval_bind hK heval h htest fun w m' h' hext _ => halts_ask ?_
      cases m'.store.truthy w with
      | true => exact heval h' (hyes.extend hext hext)
      | false => exact heval h' (hno.extend hext hext)
    · exact halts_fail _
  | define =>
    refine halts_ask ?_
    generalize m.store.elementsOf link = forms at hforms ⊢
    rcases hforms with _ | ⟨_, _ | ⟨hform, _ | _⟩⟩
    · exact halts_fail _
    · exact halts_fail _
    · refine halts_ask (halts_ofExcept fun name => ?_)
      exact halts_eval_bind hK heval h hform fun w m' _ _ _ => halts_of_ended (.inl ⟨_, _, rfl⟩)
    · exact halts_fail _
  | list => exact halts_evalArguments_bind hK hd heval h hl fun vs m' => halts_of_ended (.inl ⟨_, _, rfl⟩)
  | sum =>
    refine halts_evalArguments_bind hK hd heval h hl fun vs m' => halts_ask ?_
    exact halts_ofExcept fun total => halts_of_ended (.inl ⟨_, _, rfl⟩)

theorem halts_apply {r : Ref} (hr : Alike m.store m.store K .first (some r) (some r))
    (hl : Links m.store m.store K link link) : Halts (apply · space r link) m := by
  refine halts_succ ?_
  obtain ⟨c, -, rfl, -, -⟩ | ⟨a, -, x, rfl, -, hx, -, hcore⟩ := hr.object hK h.sync.left h.sync.left
  · exact halts_ask (halts_fail _)
  · refine halts_ask ?_
    rw [hx]
    cases x with
    | datum | host => exact halts_fail _
    | builtin native =>
      obtain ⟨f, hf⟩ := hcore native rfl
      simp only [hf]
      exact halts_applyCore hK hd heval h f hl

theorem halts_evalObject {r : Ref} (hr : Alike m.store m.store K .first (some r) (some r)) :
    Halts (evalObject · space r) m := by
  refine halts_succ ?_
  obtain ⟨c, d, rfl, hcd, hl⟩ | ⟨a, -, x, rfl, -, hx, -, -⟩ := hr.object hK h.sync.left h.sync.left
  · cases hcd
    obtain ⟨-, -, hcar, -, -⟩ := hl.cell hK h.sync.left h.sync.left
    refine halts_ask ?_
    cases (m.store.cell c).kind with
    | block =>
      refine halts_checkCycle (by rw [h.config, hd]) ?_
      rintro ⟨l, hends⟩
      have hbehind : Chain.EndsBehind m.store.next (some c) l := hends
      exact halts_evalBlock hK heval h hl hbehind none
    | list =>
      refine halts_eval_bind hK heval h hcar ?_
      intro w m' h' hext hw
      cases w with
      | none => exact halts_pure _
      | some operator =>
        have hrest := ((hl.extend hext hext).cell hK h'.sync.left h'.sync.left).2.2.2.1
        exact halts_ask (halts_apply hK hd heval h' hw hrest)
  · refine halts_ask ?_
    rw [hx]
    cases x with
    | builtin | host => exact halts_pure _
    | datum x =>
      cases x with
      | integer | text | boolean => exact halts_pure _
      | symbol name =>
        refine halts_of_ended ?_
        show Ended ((Fault.ofExcept (m.spaces.lookup space name) : RunM Value) m)
        cases m.spaces.lookup space name with
        | ok v => exact .inl ⟨v, m, rfl⟩
        | error e => exact .inr ⟨e, m, rfl⟩

end Forms

/-- With `k` levels left, by induction on `k`: what is evaluated inside has one less. -/
theorem halts_eval (hK : Shared base K) (hd : limits.detectCycles = true) {k : Nat}
    (hk : limits.maxDepth.toNat ≤ d + k) (h : Steady base K space around limits d m)
    (hv : Alike m.store m.store K .first v v) : Halts (eval · space v) m := by
  induction k generalizing d m v with
  | zero =>
    refine halts_succ ?_
    cases v with
    | none => exact halts_pure _
    | some r =>
      refine halts_framed fun hlimit => absurd ?_ hlimit
      rw [h.config, h.depth]
      exact hk
  | succ k ih =>
    refine halts_succ ?_
    cases v with
    | none => exact halts_pure _
    | some r =>
      refine halts_framed fun _ => ?_
      exact halts_evalObject hK hd (fun h' hv' => ih (by omega) h' hv') h.deeper hv

end Level

/-! ## Programs -/

namespace Machine

/-- The object is in scope, or can be reached from the form. -/
def InUse (m : Machine) (space : SpaceId) (form : Value) (r : Ref) : Prop :=
  m.InScope space r ∨ m.store.Reaches form r

/-- What the evaluation of a form can come across exists, and the native functions in it are core forms. -/
structure CoreProgram (m : Machine) (space : SpaceId) (form : Value) : Prop where
  has : ∀ r, m.InUse space form r → m.store.Has r
  core : ∀ a b, m.InUse space form (.atom a) → m.store.atom a = .builtin b → ∃ f, b.body = .core f

variable {m : Machine} {space : SpaceId} {form : Value}

theorem CoreProgram.shared (h : m.CoreProgram space form) : Shared m.store (m.InUse space form) := by
  refine ⟨h.has, ?_, h.core⟩
  rintro q r (⟨i, hi, name, v, hv, hq⟩ | hq) hqr
  · exact .inl ⟨i, hi, name, v, hv, hq.tail hqr⟩
  · exact .inr (hq.tail hqr)

theorem alike_inUse (m : Machine) (space : SpaceId) (form : Value) :
    Alike m.store m.store (m.InUse space form) .first form form := by
  cases form with
  | none => exact .nil
  | some r => exact .same (.inr (Reaches.refl _ r))

theorem steady_inUse (m : Machine) (space : SpaceId) (form : Value) :
    Steady m.store (m.InUse space form) space (m.spaces.space space).enclosing m.config m.depth m :=
  ⟨sync_of_inScope m space (fun _ hr => .inl hr) (.refl _) (.refl _), rfl, rfl⟩

end Machine

/-- Where cycles are refused, evaluation ends with a value or an error, and leaves all objects as they were. -/
theorem eval_ends {m : Machine} {space : SpaceId} {form : Value} (h : m.CoreProgram space form)
    (hd : m.config.detectCycles = true) :
    ∃ m', m.store.Extends m'.store ∧
      ((∃ v, Finishes m space form (.ok v m')) ∨ ∃ e, Finishes m space form (.error (.error e) m')) := by
  have hlimit : m.config.maxDepth.toNat ≤ m.depth + m.config.maxDepth.toNat := by omega
  have hsteady := steady_inUse m space form
  have halike := alike_inUse m space form
  obtain ⟨result, hended, n, hn⟩ := halts_eval h.shared hd hlimit hsteady halike
  have hrun : eval n space form m = result := hn n (Nat.le_refl n)
  have hagree := (simulates h.shared space (m.spaces.space space).enclosing n).eval hsteady.sync halike
  rw [hrun] at hagree
  rcases hended with ⟨v, m', rfl⟩ | ⟨e, m', rfl⟩
  · cases hagree with
    | ok _ left => exact ⟨m', left, .inl ⟨v, ⟨n, hrun⟩, by simp⟩⟩
  · cases hagree with
    | error _ left => exact ⟨m', left, .inr ⟨e, ⟨n, hrun⟩, by simp⟩⟩

/-- A machine whose first cell is the call `(list ...)` with itself as the rest of its arguments, and whose second
cell is a block that consists of itself. -/
def loopingMachine : Machine where
  store :=
    { cells := #[{ car := some (.atom ⟨0⟩), cdr := some ⟨0⟩ }, { kind := .block, car := some (.cell ⟨1⟩) }]
      atoms := #[.datum (.symbol "list"), .builtin CoreForm.list.builtin] }
  spaces := ⟨#[{ bindings := ⟨[("list", some (.atom ⟨1⟩))]⟩ }]⟩
  config := { maxDepth := 3 }

/-- Both are evaluated to an error: the one is found to be cyclic, the other runs out of depth. -/
theorem eval_ends_looping :
    (∃ m', loopingMachine.store.Extends m'.store ∧
      Finishes loopingMachine ⟨0⟩ (some (.cell ⟨0⟩)) (.error (.error .cyclicList) m')) ∧
    ∃ m', loopingMachine.store.Extends m'.store ∧
      Finishes loopingMachine ⟨0⟩ (some (.cell ⟨1⟩)) (.error (.error (.stackOverflow 3)) m') := by
  have hlink : ∀ q r, loopingMachine.store.Link q r → loopingMachine.store.Has r := by
    intro q r hl
    cases hl with
    | @car c _ h => rcases c with ⟨_ | _ | i⟩ <;> simp [loopingMachine, Store.cell] at h <;> subst h <;> decide
    | @cdr c _ h =>
      rcases c with ⟨_ | _ | i⟩ <;> simp [loopingMachine, Store.cell] at h
      subst h
      decide
    | @field a o _ ha => rcases a with ⟨_ | _ | i⟩ <;> simp [loopingMachine, Store.atom] at ha
  have hreach : ∀ v r, (∀ q, v = some q → loopingMachine.store.Has q) → loopingMachine.store.Reaches v r →
      loopingMachine.store.Has r := fun v r hv hr => hr.induction hv fun q r _ hl => hlink q r hl
  have hbound : ∀ i ∈ loopingMachine.spaces.visible ⟨0⟩, ∀ name v,
      loopingMachine.spaces.findHere? i name = some v → v = some (.atom ⟨1⟩) := by
    intro i hi name v hv
    obtain rfl := List.mem_singleton.mp hi
    have hfind : loopingMachine.spaces.findHere? ⟨0⟩ name = if name = "list" then some (some (.atom ⟨1⟩)) else none :=
      Dict.lookup_cons_if name ("list", _) []
    rw [hfind] at hv
    split at hv
    · exact (Option.some.inj hv).symm
    · cases hv
  have hprogram : ∀ i, i < 2 → loopingMachine.CoreProgram ⟨0⟩ (some (.cell ⟨i⟩)) := by
    intro i hi
    refine ⟨?_, ?_⟩
    · rintro r (⟨j, hj, name, v, hv, hr⟩ | hr)
      · obtain rfl := hbound j hj name v hv
        exact hreach _ r (by rintro _ ⟨⟩; decide) hr
      · exact hreach _ r (by rintro _ ⟨⟩; exact hi) hr
    · intro a b _ hb
      rcases a with ⟨_ | _ | a⟩ <;> simp [loopingMachine, Store.atom] at hb
      exact ⟨.list, by rw [← hb]; rfl⟩
  have hends : ∀ i e m', i < 2 → Finishes loopingMachine ⟨0⟩ (some (.cell ⟨i⟩)) (.error (.error e) m') →
      loopingMachine.store.Extends m'.store := by
    intro i e m' hi hrun
    obtain ⟨m'', hext, ⟨v, hv⟩ | ⟨e', he⟩⟩ := eval_ends (hprogram i hi) rfl
    · cases hv.unique hrun
    · cases he.unique hrun
      exact hext
  have hfirst : Finishes loopingMachine ⟨0⟩ (some (.cell ⟨0⟩)) (.error (.error .cyclicList) _) :=
    ⟨⟨10, rfl⟩, by simp⟩
  have hsecond : Finishes loopingMachine ⟨0⟩ (some (.cell ⟨1⟩)) (.error (.error (.stackOverflow 3)) _) :=
    ⟨⟨20, rfl⟩, by simp⟩
  exact ⟨⟨_, hends 0 _ _ (by decide) hfirst, hfirst⟩, ⟨_, hends 1 _ _ (by decide) hsecond, hsecond⟩⟩

end ScriptCore
