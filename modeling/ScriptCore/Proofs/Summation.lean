import Mathlib
import ScriptCore.Proofs.Confinement
import ScriptCore.Proofs.Fuel
import ScriptCore.Proofs.Simulation

/-!
# Sums

The core form `+` evaluates its arguments from left to right and adds them up in the same order. Every partial sum must
fit into 64 bits, so a sum is either the exact one or it is refused at the first argument that is no integer or at which
the partial sum does not fit (`sum_exact`), even if it would fit again further on.

* `Evaluates`: how the forms of a chain are evaluated one after the other, up to the first that fails.
* `Sums`: what values add up to.
* `added`: what becomes of evaluated arguments.
-/
namespace ScriptCore

open Machine

/-! ## Partial sums -/

/-- The number is one of 64 bits. -/
def FitsInt64 (n : Int) : Prop :=
  -2 ^ 63 ≤ n ∧ n < 2 ^ 63

instance (n : Int) : Decidable (FitsInt64 n) :=
  inferInstanceAs (Decidable (_ ∧ _))

theorem checkedInt64_eq_some {n : Int} (h : FitsInt64 n) : ∃ total, checkedInt64 n = some total ∧ total.toInt = n := by
  refine ⟨Int64.ofInt n, if_pos ?_, Int64.toInt_ofInt_of_le h.1 h.2⟩
  rw [Int64.toInt_minValue, Int64.toInt_maxValue]
  exact ⟨h.1, Int.le_sub_one_of_lt h.2⟩

theorem checkedInt64_eq_none {n : Int} (h : ¬ FitsInt64 n) : checkedInt64 n = none := by
  refine if_neg fun hn => h ?_
  rw [Int64.toInt_minValue, Int64.toInt_maxValue] at hn
  exact ⟨hn.1, Int.lt_of_le_sub_one hn.2⟩

theorem fitsInt64_toInt (n : Int64) : FitsInt64 n.toInt :=
  ⟨n.le_toInt, n.toInt_lt⟩

/-- The exact sum. -/
def exactSum (ns : List Int64) : Int :=
  (ns.map Int64.toInt).sum

/-- All partial sums fit. -/
def PartialSumsFit (ns : List Int64) : Prop :=
  ∀ k, FitsInt64 (exactSum (ns.take k))

theorem exactSum_concat (ns : List Int64) (n : Int64) : exactSum (ns ++ [n]) = exactSum ns + n.toInt := by
  simp [exactSum]

theorem PartialSumsFit.all {ns : List Int64} (h : PartialSumsFit ns) : FitsInt64 (exactSum ns) := by
  have hall := h ns.length
  rwa [List.take_length] at hall

theorem partialSumsFit_nil : PartialSumsFit [] := by
  intro k
  rw [List.take_nil]
  exact fitsInt64_toInt 0

theorem partialSumsFit_concat {ns : List Int64} {n : Int64} :
    PartialSumsFit (ns ++ [n]) ↔ PartialSumsFit ns ∧ FitsInt64 (exactSum ns + n.toInt) := by
  constructor
  · intro h
    refine ⟨fun k => ?_, exactSum_concat ns n ▸ h.all⟩
    rcases Nat.le_total k ns.length with hk | hk
    · have hfit := h k
      rwa [List.take_append_of_le_length hk] at hfit
    · have hfit := h ns.length
      rw [List.take_left] at hfit
      rwa [List.take_of_length_le hk]
  · rintro ⟨h, hn⟩ k
    rcases Nat.lt_or_ge ns.length k with hk | hk
    · rw [List.take_of_length_le (by simp; omega), exactSum_concat]
      exact hn
    · rw [List.take_append_of_le_length hk]
      exact h k

/-! ## What values add up to -/

section Adding

variable {s : Store} {vs good : List Value} {ns : List Int64} {v : Value}

/-- The values are these integers. -/
def Integers (s : Store) : List Value → List Int64 → Prop :=
  List.Forall₂ fun v n => s.datum? v = some (.integer n)

/-- What values add up to. The sum is refused at the first position where something is wrong: the values in front of it
are integers and their partial sums fit. -/
inductive Sums (s : Store) (vs : List Value) : Except Error Int → Prop
  | exact {ns : List Int64} (integers : Integers s vs ns) (fit : PartialSumsFit ns) : Sums s vs (.ok (exactSum ns))
  | noInteger {good rest : List Value} {v : Value} {ns : List Int64} (split : vs = good ++ v :: rest)
      (integers : Integers s good ns) (fit : PartialSumsFit ns) (other : ∀ n, s.datum? v ≠ some (.integer n)) :
      Sums s vs (.error (.type (.expected "Integer" (s.valueTypeName v))))
  | overflow {good rest : List Value} {v : Value} {ns : List Int64} {n : Int64} (split : vs = good ++ v :: rest)
      (integers : Integers s good ns) (fit : PartialSumsFit ns) (integer : s.datum? v = some (.integer n))
      (leaves : ¬ FitsInt64 (exactSum ns + n.toInt)) : Sums s vs (.error (.type (.overflow "+")))

theorem integers_concat (h : Integers s good ns) {n : Int64} (hv : s.datum? v = some (.integer n)) :
    Integers s (good ++ [v]) (ns ++ [n]) :=
  List.rel_append h (.cons hv .nil)

theorem integer_eq {n : Int64} (h : s.datum? v = some (.integer n)) : s.integer v = .ok n := by
  rw [Store.integer, h]

theorem integer_eq_error (h : ∀ n, s.datum? v ≠ some (.integer n)) :
    s.integer v = .error (.type (.expected "Integer" (s.valueTypeName v))) := by
  unfold Store.integer
  split
  · next n hn => exact absurd hn (h n)
  · rfl

/-- Adding goes through integers whose partial sums fit. -/
theorem sumIntegers_append (h : Integers s good ns) (hfit : PartialSumsFit ns) :
    ∃ total : Int64, total.toInt = exactSum ns ∧
      ∀ rest, sumIntegers s 0 (good ++ rest) = sumIntegers s total rest := by
  induction ns using List.reverseRecOn generalizing good with
  | nil =>
    cases h
    exact ⟨0, rfl, fun rest => rfl⟩
  | append_singleton ns n ih =>
    obtain ⟨good, last, rfl, hgood, hlast⟩ : ∃ good' last, good = good' ++ last ∧ Integers s good' ns ∧
        Integers s last [n] :=
      ⟨_, _, (List.take_append_drop ns.length good).symm, List.forall₂_take_append _ _ _ h,
        List.forall₂_drop_append _ _ _ h⟩
    obtain ⟨hfit, hn⟩ := partialSumsFit_concat.mp hfit
    obtain ⟨total, htotal, hrun⟩ := ih hgood hfit
    cases hlast with
    | @cons v _ _ _ hv hnil =>
      cases hnil
      obtain ⟨next, hnext, hexact⟩ := checkedInt64_eq_some hn
      refine ⟨next, by rw [hexact, exactSum_concat], fun rest => ?_⟩
      rw [List.append_assoc, hrun, List.singleton_append, sumIntegers, integer_eq hv, htotal]
      simp only [hnext]

/-- Behind integers whose partial sums fit, what is added further decides. -/
theorem sums_sumIntegers (h : Integers s good ns) (hfit : PartialSumsFit ns) {total : Int64}
    (htotal : total.toInt = exactSum ns) (vs : List Value) :
    Sums s (good ++ vs) ((sumIntegers s total vs).map Int64.toInt) := by
  induction vs generalizing good ns total with
  | nil =>
    rw [List.append_nil, sumIntegers, Except.map, htotal]
    exact .exact h hfit
  | cons v vs ih =>
    rw [sumIntegers]
    by_cases hv : ∃ n, s.datum? v = some (.integer n)
    · obtain ⟨n, hv⟩ := hv
      rw [integer_eq hv, htotal]
      by_cases hn : FitsInt64 (exactSum ns + n.toInt)
      · obtain ⟨next, hnext, hexact⟩ := checkedInt64_eq_some hn
        have hsums := ih (integers_concat h hv) (partialSumsFit_concat.mpr ⟨hfit, hn⟩)
          (hexact.trans (exactSum_concat ns n).symm)
        rw [List.append_assoc, List.singleton_append] at hsums
        simpa only [hnext] using hsums
      · simp only [checkedInt64_eq_none hn]
        exact .overflow rfl h hfit hv hn
    · have hother : ∀ n, s.datum? v ≠ some (.integer n) := not_exists.mp hv
      rw [integer_eq_error hother]
      exact .noInteger rfl h hfit hother

theorem sums_iff {outcome : Except Error Int} :
    Sums s vs outcome ↔ (sumIntegers s 0 vs).map Int64.toInt = outcome := by
  constructor
  · intro h
    cases h with
    | exact integers fit =>
      obtain ⟨total, htotal, hrun⟩ := sumIntegers_append integers fit
      have hrun := hrun []
      rw [List.append_nil] at hrun
      rw [hrun, sumIntegers, Except.map, htotal]
    | noInteger split integers fit other =>
      obtain ⟨total, -, hrun⟩ := sumIntegers_append integers fit
      rw [split, hrun, sumIntegers, integer_eq_error other]
      rfl
    | overflow split integers fit integer leaves =>
      obtain ⟨total, htotal, hrun⟩ := sumIntegers_append integers fit
      rw [split, hrun, sumIntegers, integer_eq integer, htotal]
      simp only [checkedInt64_eq_none leaves]
      rfl
  · rintro rfl
    exact sums_sumIntegers (.nil : Integers s [] []) partialSumsFit_nil rfl vs

end Adding

/-! ## Arguments -/

section Arguments

variable {space : SpaceId} {m : Machine} {link : Option CellId} {r : EStateM.Result Fault Machine (List Value)}

/-- An outcome with values in front of those that it brings. -/
def prepend (front : List Value) :
    EStateM.Result Fault Machine (List Value) → EStateM.Result Fault Machine (List Value)
  | .ok vs m => .ok (front ++ vs) m
  | .error e m => .error e m

/-- How the forms of a chain are evaluated, each in the state that the one before it has left. Both slots of a cell are
read before its form is evaluated. The first form that fails ends it. -/
inductive Evaluates (space : SpaceId) :
    Machine → Option CellId → EStateM.Result Fault Machine (List Value) → Prop
  | done (m : Machine) : Evaluates space m none (.ok [] m)
  | failed {m m' : Machine} {c : CellId} {e : Fault} (form : Finishes m space (m.store.cell c).car (.error e m')) :
      Evaluates space m (some c) (.error e m')
  | next {m m' : Machine} {c : CellId} {v : Value} {r : EStateM.Result Fault Machine (List Value)}
      (form : Finishes m space (m.store.cell c).car (.ok v m')) (rest : Evaluates space m' (m.store.cell c).cdr r) :
      Evaluates space m (some c) (prepend [v] r)

theorem Evaluates.ne_exhausted (h : Evaluates space m link r) (m' : Machine) : r ≠ .error .exhausted m' := by
  induction h with
  | done => nofun
  | failed form =>
    intro he
    cases he
    exact form.2 m' rfl
  | @next _ _ _ v r form _ ih =>
    cases r with
    | ok => nofun
    | error e m'' => exact ih

theorem prepend_push (results : Array Value) (v : Value) (r : EStateM.Result Fault Machine (List Value)) :
    prepend (results.push v).toList r = prepend results.toList (prepend [v] r) := by
  cases r <;> simp [prepend]

theorem evalForms_succ (n : Nat) (space : SpaceId) (c : CellId) (results : Array Value) (m : Machine) :
    evalForms (n + 1) space (some c) results m =
      (eval n space (m.store.cell c).car >>= fun v => evalForms n space (m.store.cell c).cdr (results.push v)) m := rfl

theorem Evaluates.settles (h : Evaluates space m link r) (results : Array Value) :
    Settles (evalForms · space link results) m (prepend results.toList r) := by
  induction h generalizing results with
  | done m =>
    refine settles_succ ⟨0, fun k _ => ?_⟩
    rw [prepend, List.append_nil]
    rfl
  | @failed m m' c e form =>
    refine settles_succ ?_
    simp only [Settles, evalForms_succ]
    exact settles_bind_error form.settles
  | @next m m' c v r form _ ih =>
    refine settles_succ ?_
    simp only [Settles, evalForms_succ, ← prepend_push] at ih ⊢
    exact settles_bind form.settles (ih (results.push v))

theorem evaluates_of_evalForms (n : Nat) {results : Array Value}
    (h : ∀ m', evalForms n space link results m ≠ .error .exhausted m') :
    ∃ r, Evaluates space m link r ∧ evalForms n space link results m = prepend results.toList r := by
  induction n generalizing m link results with
  | zero => exact absurd rfl (h m)
  | succ n ih =>
    cases link with
    | none => exact ⟨_, .done m, by rw [prepend, List.append_nil]; rfl⟩
    | some c =>
      rw [evalForms_succ, run_bind] at h ⊢
      cases hv : eval n space (m.store.cell c).car m with
      | error e m' =>
        have hne : ∀ m'', (.error e m' : EStateM.Result Fault Machine Value) ≠ .error .exhausted m'' := by
          intro m'' he
          cases he
          exact h m' (by rw [hv])
        exact ⟨_, .failed ⟨⟨n, hv⟩, hne⟩, rfl⟩
      | ok v m' =>
        rw [hv] at h
        obtain ⟨r, hr, hrun⟩ := ih h
        exact ⟨_, .next ⟨⟨n, hv⟩, nofun⟩ hr, by rw [← prepend_push]; exact hrun⟩

end Arguments

/-! ## Applications -/

section Application

variable {m : Machine} {space : SpaceId} {forms : Option CellId} {a : AtomId} {name : String}

/-- How an application ends, given enough fuel. -/
def Applies (m : Machine) (space : SpaceId) (operator : Ref) (forms : Option CellId)
    (result : EStateM.Result Fault Machine Value) : Prop :=
  (∃ n, apply n space operator forms m = result) ∧ ∀ m', result ≠ .error .exhausted m'

/-- The outcome at the end of an evaluation. -/
def leaving : EStateM.Result Fault Machine Value → EStateM.Result Fault Machine Value
  | .ok v m => .ok v m.leave
  | .error e m => .error e m.leave

/-- What becomes of evaluated arguments: their sum as a new integer, or what is wrong with them. -/
def added : EStateM.Result Fault Machine (List Value) → EStateM.Result Fault Machine Value
  | .error e m => .error e m
  | .ok vs m =>
    match sumIntegers m.store 0 vs with
    | .error e => .error (.error e) m
    | .ok total => .ok (m.store.newDatum (.integer total)).1
        { m with store := (m.store.newDatum (.integer total)).2 }

theorem added_eq_exhausted {r : EStateM.Result Fault Machine (List Value)} {m' : Machine}
    (h : added r = .error .exhausted m') : r = .error .exhausted m' := by
  unfold added at h
  split at h
  · cases h
    rfl
  · split at h <;> cases h

theorem leaving_eq_exhausted {r : EStateM.Result Fault Machine Value} {m' : Machine}
    (h : leaving r = .error .exhausted m') : ∃ m'', r = .error .exhausted m'' := by
  cases r with
  | ok => cases h
  | error e m'' =>
    cases h
    exact ⟨m'', rfl⟩

theorem ask_bind {α β : Type} (f : Store → α) (g : α → RunM β) (m : Machine) : (ask f >>= g) m = g (f m.store) m := rfl

theorem applyCore_sum (n : Nat) (space : SpaceId) (forms : Option CellId) (m : Machine) :
    applyCore (n + 1) space .sum forms m = added (evalArguments n space forms m) := by
  rw [applyCore, run_bind]
  cases evalArguments n space forms m with
  | error e m' => rfl
  | ok vs m' =>
    dsimp only
    rw [ask_bind, run_bind, added]
    cases sumIntegers m'.store 0 vs <;> rfl

theorem apply_sum (hsum : m.store.atom a = .builtin ⟨name, .core .sum⟩) (n : Nat) :
    apply (n + 2) space (.atom a) forms m = added (evalArguments n space forms m) := by
  have happly : apply (n + 2) space (.atom a) forms m = applyCore (n + 1) space .sum forms m := by
    rw [apply, ask_bind, hsum]
  rw [happly, applyCore_sum]

/-- Behind the check, arguments are evaluated as their chain is. -/
theorem evalArguments_succ (hcheck : ∀ c, forms = some c → (m.config.detectCycles && m.store.cyclic c) = false)
    (n : Nat) : evalArguments (n + 2) space forms m = evalForms (n + 1) space forms #[] m := by
  cases forms with
  | none => rfl
  | some c =>
    rw [evalArguments, run_bind, checkCycle_run, hcheck c rfl]
    rfl

theorem applies_iff (hsum : m.store.atom a = .builtin ⟨name, .core .sum⟩)
    (hcheck : ∀ c, forms = some c → (m.config.detectCycles && m.store.cyclic c) = false)
    {result : EStateM.Result Fault Machine Value} :
    Applies m space (.atom a) forms result ↔ ∃ r, Evaluates space m forms r ∧ result = added r := by
  have hrun : ∀ n, apply (n + 4) space (.atom a) forms m = added (evalForms (n + 1) space forms #[] m) := by
    intro n
    rw [apply_sum hsum, evalArguments_succ hcheck]
  have hempty : ∀ r, prepend (#[] : Array Value).toList r = r := by
    intro r
    cases r <;> rfl
  constructor
  · rintro ⟨⟨n, rfl⟩, hn⟩
    obtain ⟨k, hk⟩ := settles_of_run (fun n => (grows n).apply space (.atom a) forms) hn
    have hresult : apply n space (.atom a) forms m = added (evalForms (k + 1) space forms #[] m) :=
      (hk (k + 4) (by omega)).symm.trans (hrun k)
    have hends : ∀ m', evalForms (k + 1) space forms #[] m ≠ .error .exhausted m' := by
      intro m' he
      exact hn m' (by rw [hresult, he]; rfl)
    obtain ⟨r, hr, hforms⟩ := evaluates_of_evalForms (k + 1) hends
    exact ⟨r, hr, by rw [hresult, hforms, hempty]⟩
  · rintro ⟨r, hr, rfl⟩
    obtain ⟨n, hn⟩ := hr.settles #[]
    beta_reduce at hn
    refine ⟨⟨n + 4, ?_⟩, fun m' he => hr.ne_exhausted m' (added_eq_exhausted he)⟩
    rw [hrun, hn (n + 1) (by omega), hempty]

/-- A list whose first form evaluates to an object ends as the application of the object to the rest of it. -/
theorem finishes_iff {m₀ : Machine} {c : CellId} (hkind : (m₀.store.cell c).kind = .list)
    (hdepth : m₀.depth < m₀.config.maxDepth.toNat) {operator : Ref}
    (hoperator : Finishes m₀.deeper space (m₀.store.cell c).car (.ok (some operator) m))
    {result : EStateM.Result Fault Machine Value} :
    Finishes m₀ space (some (.cell c)) result ↔
      ∃ r, Applies m space operator (m.store.next c) r ∧ result = leaving r := by
  obtain ⟨n₀, hn₀⟩ := hoperator.settles
  beta_reduce at hn₀
  have hrun : ∀ n, n₀ ≤ n → eval (n + 2) space (some (.cell c)) m₀ =
      leaving (apply n space operator (m.store.next c) m) := by
    intro n hn
    have hobject : evalObject (n + 1) space (.cell c) m₀.deeper = apply n space operator (m.store.next c) m := by
      have hcell : (m₀.deeper.store.cell c).kind = .list := hkind
      rw [evalObject, ask_bind, hcell]
      refine (run_bind _ _ _).trans ?_
      rw [show m₀.deeper.store = m₀.store from rfl, hn₀ n hn]
      exact ask_bind _ _ _
    rw [eval, framed_entered _ (Nat.not_le.mpr hdepth), hobject]
    cases apply n space operator (m.store.next c) m <;> rfl
  constructor
  · intro h
    obtain ⟨n, hn⟩ := h.settles
    have hresult : result = leaving (apply (max n n₀) space operator (m.store.next c) m) :=
      (hn (max n n₀ + 2) (by omega)).symm.trans (hrun _ (by omega))
    refine ⟨_, ⟨⟨_, rfl⟩, fun m' he => h.2 m'.leave ?_⟩, hresult⟩
    rw [hresult, he]
    rfl
  · rintro ⟨r, ⟨⟨n, rfl⟩, hne⟩, rfl⟩
    obtain ⟨k, hk⟩ := settles_of_run (fun n => (grows n).apply space operator (m.store.next c)) hne
    beta_reduce at hk
    refine ⟨⟨max k n₀ + 2, ?_⟩, fun m' he => ?_⟩
    · rw [hrun _ (by omega), hk _ (by omega)]
    · obtain ⟨m'', he⟩ := leaving_eq_exhausted he
      exact hne m'' he

/-- The sum of evaluated arguments is known from what they add up to. -/
theorem added_of_sums {vs : List Value} {n : Int} (h : Sums m.store vs (.ok n)) :
    ∃ total : Int64, total.toInt = n ∧ added (.ok vs m) =
      .ok (m.store.newDatum (.integer total)).1 { m with store := (m.store.newDatum (.integer total)).2 } := by
  rw [sums_iff] at h
  rw [added]
  cases hsum : sumIntegers m.store 0 vs with
  | error e =>
    rw [hsum] at h
    cases h
  | ok total =>
    rw [hsum] at h
    cases h
    exact ⟨total, rfl, rfl⟩

theorem added_of_sums_error {vs : List Value} {e : Error} (h : Sums m.store vs (.error e)) :
    added (.ok vs m) = .error (.error e) m := by
  rw [sums_iff] at h
  rw [added]
  cases hsum : sumIntegers m.store 0 vs with
  | error e' =>
    rw [hsum] at h
    cases h
    rfl
  | ok total =>
    rw [hsum] at h
    cases h

theorem sums_of_added {r : EStateM.Result Fault Machine (List Value)} {v : Value} {m' : Machine}
    (h : added r = .ok v m') : ∃ vs m₁ total, r = .ok vs m₁ ∧ Sums m₁.store vs (.ok total.toInt) ∧
      m'.store.datum? v = some (.integer total) := by
  cases r with
  | error e m₁ => cases h
  | ok vs m₁ =>
    rw [added] at h
    cases hsum : sumIntegers m₁.store 0 vs with
    | error e =>
      rw [hsum] at h
      cases h
    | ok total =>
      rw [hsum] at h
      cases h
      refine ⟨vs, m₁, total, rfl, sums_iff.mpr (by rw [hsum]; rfl), ?_⟩
      simp [Store.newDatum, Store.datum?, Store.newAtom, Store.atom]

theorem message_expected (found : String) :
    (Error.type (.expected "Integer" found)).message = "type-error: expected Integer, got " ++ found :=
  calc (Error.type (.expected "Integer" found)).message
    _ = "type-error: " ++ ("expected " ++ "Integer" ++ ", got " ++ found) := rfl
    _ = "type-error: " ++ ("expected " ++ "Integer" ++ ", got ") ++ found := (String.append_assoc ..).symm
    _ = "type-error: expected Integer, got " ++ found := congrArg (· ++ found) (by decide)

/-- Sums are exact or refused. The arguments of an application of `+` are evaluated from left to right, and the first
failure among them is that of the application; it ends only if their evaluation does. Once they are evaluated, it is
determined what they add up to: the application gives a new integer that is the exact sum, or it fails for the first
argument that is no integer or at which the partial sum does not fit. So an integer that is given is always the exact
sum. A list that is evaluated with levels left ends as the application that it stands for. -/
theorem sum_exact {forms : Option CellId} (hsum : m.store.atom a = .builtin ⟨name, .core .sum⟩)
    (hcheck : ∀ c, forms = some c → (m.config.detectCycles && m.store.cyclic c) = false) :
    (∀ e m', Evaluates space m forms (.error e m') → Applies m space (.atom a) forms (.error e m')) ∧
    (∀ vs m', Evaluates space m forms (.ok vs m') →
      (∃! outcome, Sums m'.store vs outcome) ∧
      (∀ n, Sums m'.store vs (.ok n) → ∃ total : Int64, total.toInt = n ∧ Applies m space (.atom a) forms
        (.ok (m'.store.newDatum (.integer total)).1 { m' with store := (m'.store.newDatum (.integer total)).2 })) ∧
      ∀ e, Sums m'.store vs (.error e) → Applies m space (.atom a) forms (.error (.error e) m')) ∧
    (∀ result, Applies m space (.atom a) forms result → ∃ r, Evaluates space m forms r) ∧
    (∀ v m', Applies m space (.atom a) forms (.ok v m') →
      ∃ vs m₁ ns total, Evaluates space m forms (.ok vs m₁) ∧ Integers m₁.store vs ns ∧
        m'.store.datum? v = some (.integer total) ∧ total.toInt = exactSum ns) ∧
    (∀ m₀ c, (m₀.store.cell c).kind = .list → m₀.depth < m₀.config.maxDepth.toNat →
      Finishes m₀.deeper space (m₀.store.cell c).car (.ok (some (.atom a)) m) → m.store.next c = forms →
      ∀ result, Finishes m₀ space (some (.cell c)) result ↔
        ∃ r, Applies m space (.atom a) forms r ∧ result = leaving r) ∧
    (∀ found, (Error.type (.expected "Integer" found)).message = "type-error: expected Integer, got " ++ found) ∧
    (Error.type (.overflow "+")).message = "type-error: integer overflow in +" := by
  have happlies := @applies_iff m space forms a name hsum hcheck
  refine ⟨fun e m' h => happlies.mpr ⟨_, h, rfl⟩, fun vs m' h => ⟨?_, fun n hn => ?_, fun e he => ?_⟩,
    fun result h => ?_, fun v m' h => ?_, fun m₀ c hkind hdepth hoperator hforms result => ?_, fun found => ?_, rfl⟩
  · exact ⟨_, sums_iff.mpr rfl, fun other hother => (sums_iff.mp hother).symm⟩
  · obtain ⟨total, htotal, hadded⟩ := added_of_sums hn
    exact ⟨total, htotal, happlies.mpr ⟨_, h, hadded.symm⟩⟩
  · exact happlies.mpr ⟨_, h, (added_of_sums_error he).symm⟩
  · obtain ⟨r, hr, -⟩ := happlies.mp h
    exact ⟨r, hr⟩
  · obtain ⟨r, hr, hadded⟩ := happlies.mp h
    obtain ⟨vs, m₁, total, rfl, hsums, hdatum⟩ := sums_of_added hadded.symm
    generalize hn : total.toInt = n at hsums
    cases hsums with
    | exact integers fit => exact ⟨vs, m₁, _, total, hr, integers, hdatum, hn⟩
  · subst hforms
    exact finishes_iff hkind hdepth hoperator
  · exact message_expected found

/-- A machine whose first cell is the application of `+` to the greatest integer, to one and to minus one. -/
def overfullSum : Machine where
  store :=
    { cells := #[{ car := some (.atom ⟨0⟩), cdr := some ⟨1⟩ }, { car := some (.atom ⟨1⟩), cdr := some ⟨2⟩ },
        { car := some (.atom ⟨2⟩), cdr := some ⟨3⟩ }, { car := some (.atom ⟨3⟩) }]
      atoms := #[.builtin CoreForm.sum.builtin, .datum (.integer Int64.maxValue), .datum (.integer 1),
        .datum (.integer (-1))] }

/-- The machine while its sum is under way. -/
def overfullRun : Machine :=
  { overfullSum with depth := 1, deepest := 2 }

/-- The sum of all three would fit, but that of the first two does not. -/
theorem sum_exact_overfull :
    Sums overfullSum.store [some (.atom ⟨1⟩), some (.atom ⟨2⟩), some (.atom ⟨3⟩)] (.error (.type (.overflow "+"))) ∧
    Finishes overfullSum ⟨0⟩ (some (.cell ⟨0⟩)) (.error (.error (.type (.overflow "+"))) overfullRun.leave) := by
  have hfit : PartialSumsFit ([] ++ [Int64.maxValue]) := partialSumsFit_concat.mpr ⟨partialSumsFit_nil, by decide⟩
  have hsums : Sums overfullRun.store ([some (.atom ⟨1⟩)] ++ some (.atom ⟨2⟩) :: [some (.atom ⟨3⟩)])
      (.error (.type (.overflow "+"))) :=
    .overflow (n := 1) rfl (.cons rfl .nil) hfit rfl (by decide)
  have hargument : ∀ i, i = 1 ∨ i = 2 ∨ i = 3 →
      Finishes overfullRun ⟨0⟩ (some (.atom ⟨i⟩)) (.ok (some (.atom ⟨i⟩)) overfullRun) := by
    rintro i (rfl | rfl | rfl) <;> exact ⟨⟨2, rfl⟩, nofun⟩
  have harguments : Evaluates ⟨0⟩ overfullRun (some ⟨1⟩)
      (prepend [some (.atom ⟨1⟩)] (prepend [some (.atom ⟨2⟩)] (prepend [some (.atom ⟨3⟩)] (.ok [] overfullRun)))) :=
    .next (hargument 1 (by decide)) (.next (hargument 2 (by decide)) (.next (hargument 3 (by decide)) (.done _)))
  have hcheck : ∀ c, some ⟨1⟩ = some c → (overfullRun.config.detectCycles && overfullRun.store.cyclic c) = false := by
    intro c hc
    cases hc
    decide
  obtain ⟨-, hall, -, -, hform, -⟩ := @sum_exact overfullRun ⟨0⟩ ⟨0⟩ "+" (some ⟨1⟩) rfl hcheck
  have happlied := (hall _ _ harguments).2.2 _ hsums
  exact ⟨hsums, (hform overfullSum ⟨0⟩ rfl (by decide) ⟨⟨2, rfl⟩, nofun⟩ rfl _).mpr ⟨_, happlied, rfl⟩⟩

end Application

end ScriptCore
