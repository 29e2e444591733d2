import ScriptCore.Host.Types
import ScriptCore.Proofs.Equality
import ScriptCore.Proofs.Extent
import ScriptCore.Proofs.Writer

/-!
# Equality as the greatest bisimulation

Two values are equal if and only if some relation holds between them whose pairs all correspond: they are both nil,
the same object, the same plain data, cells whose chains have the same shape and related elements, or records of one
type with related fields. Comparing assumes a pair of cells to be equal while the pair is open. That this is sound is
the argument for `coherent_of_compare`: what holds up to the open pairs holds up to fewer of them, as each pair that is
closed has been shown to correspond.

* `Calls`: what comparing two values asks to compare next, with `need` as the measure that falls at each call.
* `equal_iff_correspondence`: comparing ends, finds exactly the values that correspond, and is an equivalence.
* `equal_points`: cells and plain data alone do not account for equality, since records are compared by content.
-/
namespace ScriptCore.Store

variable {s : Store} {R S : Value → Value → Prop} {v w u : Value} {pairs : List (CellId × CellId)}

/-! ## The shape of a chain -/

/-- The cells that the second slots lead through. -/
def chain (s : Store) (c : CellId) : Set CellId :=
  { d | ∃ i, s.nthCell c i = some d }

theorem extent_cells (s : Store) (c : CellId) : (s.extent c).cells = (s.chain c).ncard := by
  have hset : s.chain c = ((s.spine c).toFinset : Set CellId) := by
    ext d
    simp [chain, nthCell, spine, Chain.mem_points_iff s.bounded]
  have hnodup : (s.spine c).Nodup := Chain.nodup_points s.bounded c
  rw [hset, Set.ncard_coe_finset, List.toFinset_card_of_nodup hnodup]
  exact (Chain.length_points s.bounded c).symm

theorem extent_cyclic (s : Store) (c : CellId) : (s.extent c).cyclic = true ↔ ∀ i, s.nthCell c i ≠ none := by
  rw [← cyclic, cyclic_iff]
  constructor
  · intro h i hi
    exact h (Chain.ends_of_follow_none hi)
  · rintro h ⟨l, hl⟩
    exact h l.length (by rw [nthCell, hl.follow_eq, List.getElem?_eq_none (Nat.le_refl _)])

theorem extent_eq_iff {c d : CellId} : s.extent c = s.extent d ↔
    (s.chain c).ncard = (s.chain d).ncard ∧ ((∀ i, s.nthCell c i ≠ none) ↔ ∀ i, s.nthCell d i ≠ none) := by
  rw [← extent_cells, ← extent_cells, ← extent_cyclic, ← extent_cyclic, ← Bool.eq_iff_iff]
  cases s.extent c
  cases s.extent d
  simp

theorem elements_eq (s : Store) (c : CellId) :
    s.elements c = (List.range (s.chain c).ncard).map (s.nth c) := by
  rw [← extent_cells]
  refine List.ext_getElem? fun i => ?_
  rw [elements, spine, Chain.points, List.getElem?_map, Chain.getElem?_walk, List.getElem?_map]
  by_cases hi : i < (s.extent c).cells
  · obtain ⟨d, hd⟩ := Chain.follow_of_lt s.bounded hi
    rw [extent] at hi
    simp [extent, nth, nthCell, hi, hd]
  · rw [extent] at hi
    simp [extent, hi]

theorem forall_zip_elements {c d : CellId} (h : (s.chain c).ncard = (s.chain d).ncard) :
    (∀ p ∈ (s.elements c).zip (s.elements d), R p.1 p.2) ↔ ∀ i, i < (s.chain c).ncard → R (s.nth c i) (s.nth d i) := by
  rw [elements_eq, elements_eq, ← h, List.zip_map']
  simp

/-! ## Relations whose pairs correspond -/

/-- Two values are the same or show the same content as cells and plain data, with `R` for the elements of lists. -/
inductive Resembles (s : Store) (R : Value → Value → Prop) : Value → Value → Prop
  | nil : Resembles s R none none
  | same (r : Ref) : Resembles s R (some r) (some r)
  | datum {a b : AtomId} {x : Datum} (ha : s.atom a = .datum x) (hb : s.atom b = .datum x) :
      Resembles s R (some (.atom a)) (some (.atom b))
  | cell {c d : CellId} (kind : (s.cell c).kind = (s.cell d).kind) (count : (s.chain c).ncard = (s.chain d).ncard)
      (endless : (∀ i, s.nthCell c i ≠ none) ↔ ∀ i, s.nthCell d i ≠ none)
      (cars : ∀ i, i < (s.chain c).ncard → R (s.nth c i) (s.nth d i)) :
      Resembles s R (some (.cell c)) (some (.cell d))

/-- Two fields hold the same item or related values. -/
inductive SameField (R : Value → Value → Prop) : Field → Field → Prop
  | item (i : Wire.Item) : SameField R (.item i) (.item i)
  | value {v w : Value} (h : R v w) : SameField R (.value v) (.value w)

/-- Two values resemble each other, or are records of one type whose fields agree. -/
inductive Corresponds (s : Store) (R : Value → Value → Prop) : Value → Value → Prop
  | core {v w : Value} (h : s.Resembles R v w) : Corresponds s R v w
  | record {a b : AtomId} {g h : HostObject} (ha : s.atom a = .host g) (hb : s.atom b = .host h)
      (type : g.type.sameRecord h.type = true) (fields : List.Forall₂ (SameField R) g.fields h.fields) :
      Corresponds s R (some (.atom a)) (some (.atom b))

/-- All pairs of the relation correspond. -/
def Correspondence (s : Store) (R : Value → Value → Prop) : Prop :=
  ∀ v w, R v w → s.Corresponds R v w

theorem SameField.mono (hRS : ∀ v w, R v w → S v w) {x y : Field} (h : SameField R x y) : SameField S x y := by
  cases h with
  | item i => exact .item i
  | value h => exact .value (hRS _ _ h)

theorem Resembles.mono (hRS : ∀ v w, R v w → S v w) (h : s.Resembles R v w) : s.Resembles S v w := by
  cases h with
  | nil => exact .nil
  | same r => exact .same r
  | datum ha hb => exact .datum ha hb
  | cell kind count endless cars => exact .cell kind count endless fun i hi => hRS _ _ (cars i hi)

theorem Corresponds.mono (hRS : ∀ v w, R v w → S v w) (h : s.Corresponds R v w) : s.Corresponds S v w := by
  cases h with
  | core h => exact .core (h.mono hRS)
  | record ha hb type fields => exact .record ha hb type (fields.imp fun _ _ => SameField.mono hRS)

theorem Corresponds.refl (v : Value) : s.Corresponds R v v := by
  cases v with
  | none => exact .core .nil
  | some r => exact .core (.same r)

theorem sameRecord_symm {t t' : HostType} (h : t.sameRecord t' = true) : t'.sameRecord t = true := by
  simp only [HostType.sameRecord, Bool.and_eq_true, decide_eq_true_eq] at h ⊢
  obtain ⟨⟨hsome, hrecord⟩, hname⟩ := h
  exact ⟨⟨hrecord ▸ hsome, hrecord.symm⟩, hname.symm⟩

theorem sameRecord_trans {t t' t'' : HostType} (h : t.sameRecord t' = true) (k : t'.sameRecord t'' = true) :
    t.sameRecord t'' = true := by
  simp only [HostType.sameRecord, Bool.and_eq_true, decide_eq_true_eq] at h k ⊢
  exact ⟨⟨h.1.1, h.1.2.trans k.1.2⟩, h.2.trans k.2⟩

theorem Corresponds.symm (h : s.Corresponds R v w) : s.Corresponds (fun x y => R y x) w v := by
  cases h with
  | core h =>
    cases h with
    | nil => exact .core .nil
    | same r => exact .core (.same r)
    | datum ha hb => exact .core (.datum hb ha)
    | cell kind count endless cars =>
      exact .core (.cell kind.symm count.symm endless.symm fun i hi => cars i (count ▸ hi))
  | record ha hb type fields =>
    refine .record hb ha (sameRecord_symm type) (fields.flip.imp ?_)
    rintro x y (i | h)
    · exact .item i
    · exact .value h

/-- Two steps through a value in the middle. -/
def Through (R S : Value → Value → Prop) (v u : Value) : Prop :=
  ∃ w, R v w ∧ S w u

theorem forall₂_through {l m k : List Field} (h : List.Forall₂ (SameField R) l m)
    (h' : List.Forall₂ (SameField S) m k) : List.Forall₂ (SameField (Through R S)) l k := by
  induction h generalizing k with
  | nil => cases h'; exact .nil
  | cons hx _ ih =>
    cases h' with
    | cons hy hl =>
      refine .cons ?_ (ih hl)
      cases hx with
      | item i => cases hy; exact .item i
      | value hx => cases hy with | value hy => exact .value ⟨_, hx, hy⟩

/-- Correspondence composes. The sides are kept too, for a step that only says that two values are the same. -/
theorem Corresponds.trans (h : s.Corresponds R v w) (k : s.Corresponds S w u) :
    s.Corresponds (fun x y => Through R S x y ∨ R x y ∨ S x y) v u := by
  have hleft : ∀ x y, R x y → Through R S x y ∨ R x y ∨ S x y := fun _ _ hxy => .inr (.inl hxy)
  have hright : ∀ x y, S x y → Through R S x y ∨ R x y ∨ S x y := fun _ _ hxy => .inr (.inr hxy)
  have hboth : ∀ x y, Through R S x y → Through R S x y ∨ R x y ∨ S x y := fun _ _ hxy => .inl hxy
  cases h with
  | core h =>
    cases h with
    | nil => exact k.mono hright
    | same r => exact k.mono hright
    | datum ha hb =>
      cases k with
      | core k =>
        cases k with
        | same => exact .core (.datum ha hb)
        | datum hb' hc => rw [hb] at hb'; cases hb'; exact .core (.datum ha hc)
      | record hb' => rw [hb] at hb'; cases hb'
    | cell kind count endless cars =>
      cases k with
      | core k =>
        cases k with
        | same => exact .core (.cell kind count endless fun i hi => hleft _ _ (cars i hi))
        | cell kind' count' endless' cars' =>
          refine .core (.cell (kind.trans kind') (count.trans count') (endless.trans endless') fun i hi => ?_)
          exact hboth _ _ ⟨_, cars i hi, cars' i (count ▸ hi)⟩
  | record ha hb type fields =>
    cases k with
    | core k =>
      cases k with
      | same => exact .record ha hb type (fields.imp fun _ _ => SameField.mono hleft)
      | datum hb' => rw [hb] at hb'; cases hb'
    | record hb' hc type' fields' =>
      rw [hb] at hb'
      cases hb'
      exact .record ha hc (sameRecord_trans type type')
        ((forall₂_through fields fields').imp fun _ _ => SameField.mono hboth)

theorem Correspondence.converse (h : s.Correspondence R) : s.Correspondence fun x y => R y x :=
  fun v w hvw => (h w v hvw).symm

theorem Correspondence.comp (h : s.Correspondence R) (k : s.Correspondence S) :
    s.Correspondence fun x y => Through R S x y ∨ R x y ∨ S x y := by
  rintro v u (⟨w, hvw, hwu⟩ | hvu | hvu)
  · exact (h v w hvw).trans (k w u hwu)
  · exact (h v u hvu).mono fun _ _ hxy => .inr (.inl hxy)
  · exact (k v u hvu).mono fun _ _ hxy => .inr (.inr hxy)

/-! ## One step of comparing -/

theorem allM_run {α σ : Type} {f : α → StateM σ Bool} {l : List α} {st : σ} (h : ∀ x ∈ l, (f x st).2 = st) :
    l.allM f st = (l.all fun x => (f x st).1, st) := by
  induction l with
  | nil => rfl
  | cons x l ih =>
    have hx : f x st = ((f x st).1, st) := Prod.ext rfl (h x (by simp))
    have hl := ih fun y hy => h y (by simp [hy])
    simp only [List.allM, bind, StateT.bind]
    rw [hx]
    cases hb : (f x st).1 with
    | false => simp [hb]; rfl
    | true => simp [hb, hl]

/-- Compares two fields of records. -/
def compareField (s : Store) (n : Nat) : Field × Field → CompareM Bool
  | (.item i, .item j) => return i = j
  | (.value v, .value w) => s.compare n v w
  | _ => return false

theorem compare_cells_eq {n : Nat} {c d : CellId} (hcd : c ≠ d) (pairs : List (CellId × CellId)) :
    s.compare (n + 1) (some (.cell c)) (some (.cell d)) pairs =
      if (s.cell c).kind ≠ (s.cell d).kind then (false, pairs)
      else if (c, d) ∈ pairs then (true, pairs)
      else if s.extent c = s.extent d then
        let r := ((s.elements c).zip (s.elements d)).allM (fun p => s.compare n p.1 p.2) ((c, d) :: pairs)
        (r.1, r.2.erase (c, d))
      else (false, pairs) := by
  by_cases hk : (s.cell c).kind = (s.cell d).kind
  · by_cases hmem : (c, d) ∈ pairs
    · simp [compare, hcd, hk, hmem]
      change (if (c, d) ∈ pairs then _ else _ : CompareM Bool) pairs = _
      rw [if_pos hmem]
      rfl
    · by_cases he : s.extent c = s.extent d
      · simp [compare, hcd, hk, hmem, he]
        change (if (c, d) ∈ pairs then _ else _ : CompareM Bool) pairs = _
        rw [if_neg hmem]
        rfl
      · simp [compare, hcd, hk, hmem, he]
        change (if (c, d) ∈ pairs then _ else _ : CompareM Bool) pairs = _
        rw [if_neg hmem]
        change (false, ((c, d) :: pairs).erase (c, d)) = _
        rw [List.erase_cons_head]
  · simp [compare, hcd, hk]
    rfl

theorem compare_hosts_eq {n : Nat} {a b : AtomId} {g h : HostObject} (hab : a ≠ b) (ha : s.atom a = .host g)
    (hb : s.atom b = .host h) (pairs : List (CellId × CellId)) :
    s.compare (n + 1) (some (.atom a)) (some (.atom b)) pairs =
      if g.type.sameRecord h.type && g.fields.length = h.fields.length then
        (g.fields.zip h.fields).allM (s.compareField n) pairs
      else (false, pairs) := by
  simp only [compare, Ref.atom.injEq, hab, if_false, ha, hb]
  split <;> rfl

theorem compareField_snd {n : Nat} (h : ∀ v w, (s.compare n v w pairs).2 = pairs) (p : Field × Field) :
    (s.compareField n p pairs).2 = pairs := by
  rcases p with ⟨_ | v, _ | w⟩
  · rfl
  · rfl
  · rfl
  · exact h v w

/-- Comparing leaves the open pairs as they were. -/
theorem compare_snd (s : Store) (n : Nat) (v w : Value) (pairs : List (CellId × CellId)) :
    (s.compare n v w pairs).2 = pairs := by
  induction n generalizing v w pairs with
  | zero => cases v <;> cases w <;> rfl
  | succ n ih =>
    rcases v with _ | r <;> rcases w with _ | q
    · rfl
    · rfl
    · rfl
    by_cases hrq : r = q
    · subst hrq; rw [compare_self]
    rcases r with c | a <;> rcases q with d | b
    · rw [compare_cells_eq (fun e => hrq (by rw [e]))]
      split
      · rfl
      split
      · rfl
      split
      · rw [allM_run fun p _ => ih p.1 p.2 _]
        exact List.erase_cons_head ..
      · rfl
    · simp [compare]; rfl
    · simp [compare]; rfl
    · have hab : a ≠ b := fun e => hrq (by rw [e])
      cases ha : s.atom a with
      | host g =>
        cases hb : s.atom b with
        | host h =>
          rw [compare_hosts_eq hab ha hb]
          split
          · rw [allM_run fun p _ => compareField_snd (fun v w => ih v w pairs) p]
          · rfl
        | _ => simp [compare, hab, ha, hb]; rfl
      | _ => cases hb : s.atom b <;> simp [compare, hab, ha, hb] <;> rfl

/-! ## What is found equal corresponds -/

/-- The open pairs, as a relation. -/
def Assumed (pairs : List (CellId × CellId)) (v w : Value) : Prop :=
  ∃ c d, (c, d) ∈ pairs ∧ v = some (.cell c) ∧ w = some (.cell d)

/-- Some relation holds between the values whose pairs all correspond if those of `A` are taken for granted. -/
def Coherent (s : Store) (A : Value → Value → Prop) (v w : Value) : Prop :=
  ∃ R : Value → Value → Prop, R v w ∧ ∀ x y, R x y → s.Corresponds (fun x y => R x y ∨ A x y) x y

theorem Coherent.of_eq {A : Value → Value → Prop} (h : v = w) : s.Coherent A v w :=
  ⟨Eq, h, fun x _ hxy => hxy ▸ .refl x⟩

theorem Coherent.corresponds {A : Value → Value → Prop} (h : s.Coherent A v w) :
    s.Corresponds (fun x y => s.Coherent A x y ∨ A x y) v w := by
  obtain ⟨R, hR, hclosed⟩ := h
  exact (hclosed v w hR).mono fun x y hxy => hxy.imp_left fun hx => ⟨R, hx, hclosed⟩

/-- A pair need not be taken for granted once it has been shown to correspond: it joins the relation instead. -/
theorem Coherent.discharge {A B : Value → Value → Prop} (hB : ∀ x y, B x y → A x y ∨ x = v ∧ y = w)
    (h : s.Corresponds (fun x y => s.Coherent B x y ∨ B x y) v w) : s.Coherent A v w := by
  refine ⟨fun x y => s.Coherent B x y ∨ x = v ∧ y = w, .inr ⟨rfl, rfl⟩, ?_⟩
  have hweaken : ∀ x y, s.Coherent B x y ∨ B x y → (s.Coherent B x y ∨ x = v ∧ y = w) ∨ A x y := by
    rintro x y (hxy | hxy)
    · exact .inl (.inl hxy)
    · exact (hB x y hxy).elim .inr fun e => .inl (.inr e)
  rintro x y (hxy | ⟨rfl, rfl⟩)
  · exact hxy.corresponds.mono hweaken
  · exact h.mono hweaken

theorem assumed_cons {c d : CellId} {x y : Value} (h : Assumed ((c, d) :: pairs) x y) :
    Assumed pairs x y ∨ x = some (.cell c) ∧ y = some (.cell d) := by
  obtain ⟨c', d', hmem, rfl, rfl⟩ := h
  rcases List.mem_cons.mp hmem with he | hmem
  · cases he; exact .inr ⟨rfl, rfl⟩
  · exact .inl ⟨c', d', hmem, rfl, rfl⟩

theorem sameField_of_compareField {n : Nat} {x y : Field}
    (ih : ∀ v w, (s.compare n v w pairs).1 = true → R v w) (h : (s.compareField n (x, y) pairs).1 = true) :
    SameField R x y := by
  cases x with
  | item i =>
    cases y with
    | item j =>
      have hij : i = j := of_decide_eq_true h
      exact hij ▸ .item i
    | value w => cases h
  | value v =>
    cases y with
    | item j => cases h
    | value w => exact .value (ih v w h)

/-- Atoms that are found equal correspond, if the values of their fields that are found equal are related. -/
theorem corresponds_of_compare_atoms {n : Nat} {a b : AtomId}
    (ih : ∀ v w, (s.compare n v w pairs).1 = true → R v w)
    (h : (s.compare (n + 1) (some (.atom a)) (some (.atom b)) pairs).1 = true) :
    s.Corresponds R (some (.atom a)) (some (.atom b)) := by
  by_cases hab : a = b
  · exact hab ▸ .refl _
  cases ha : s.atom a with
  | datum x =>
    cases hb : s.atom b with
    | datum y =>
      have hrun : s.compare (n + 1) (some (.atom a)) (some (.atom b)) pairs = (decide (x = y), pairs) := by
        simp [compare, hab, ha, hb]; rfl
      rw [hrun] at h
      have hxy : x = y := of_decide_eq_true h
      exact .core (.datum ha (hxy ▸ hb))
    | _ =>
      have hrun : s.compare (n + 1) (some (.atom a)) (some (.atom b)) pairs = (false, pairs) := by
        simp [compare, hab, ha, hb]; rfl
      rw [hrun] at h; cases h
  | builtin f =>
    have hrun : s.compare (n + 1) (some (.atom a)) (some (.atom b)) pairs = (false, pairs) := by
      cases hb : s.atom b <;> simp [compare, hab, ha, hb] <;> rfl
    rw [hrun] at h; cases h
  | host g =>
    cases hb : s.atom b with
    | host o =>
      rw [compare_hosts_eq hab ha hb] at h
      split at h
      · rename_i hsame
        obtain ⟨htype, hlength⟩ := Bool.and_eq_true_iff.mp hsame
        rw [allM_run fun p _ => compareField_snd (fun v w => compare_snd s n v w pairs) p] at h
        have hfields := List.all_eq_true.mp h
        refine .record ha hb htype (List.forall₂_iff_zip.mpr ⟨of_decide_eq_true hlength, ?_⟩)
        intro x y hxy
        exact sameField_of_compareField ih (hfields (x, y) hxy)
      · cases h
    | _ =>
      have hrun : s.compare (n + 1) (some (.atom a)) (some (.atom b)) pairs = (false, pairs) := by
        simp [compare, hab, ha, hb]; rfl
      rw [hrun] at h; cases h

/-- Cells that are found equal are an open pair, or correspond if the elements that are found equal are related. -/
theorem corresponds_of_compare_cells {n : Nat} {c d : CellId}
    (ih : ∀ v w, (s.compare n v w ((c, d) :: pairs)).1 = true → R v w)
    (h : (s.compare (n + 1) (some (.cell c)) (some (.cell d)) pairs).1 = true) :
    (c, d) ∈ pairs ∨ s.Corresponds R (some (.cell c)) (some (.cell d)) := by
  by_cases hcd : c = d
  · exact .inr (hcd ▸ .refl _)
  rw [compare_cells_eq hcd] at h
  split at h
  · cases h
  rename_i hkind
  split at h
  · rename_i hmem
    exact .inl hmem
  split at h
  · rename_i hextent
    rw [allM_run fun p _ => compare_snd ..] at h
    have hall := List.all_eq_true.mp h
    obtain ⟨hcount, hendless⟩ := extent_eq_iff.mp hextent
    have hcars := (forall_zip_elements (R := R) hcount).mp fun p hp => ih p.1 p.2 (hall p hp)
    exact .inr (.core (.cell (not_not.mp hkind) hcount hendless hcars))
  · cases h

/-- Values that are found equal cohere up to the open pairs, however many levels there are. -/
theorem coherent_of_compare {n : Nat} (h : (s.compare n v w pairs).1 = true) :
    s.Coherent (Assumed pairs) v w ∨ Assumed pairs v w := by
  induction n generalizing v w pairs with
  | zero =>
    rcases v with _ | r <;> rcases w with _ | q
    · exact .inl (.of_eq rfl)
    · cases h
    · cases h
    · have hrq : r = q := of_decide_eq_true h
      exact .inl (.of_eq (by rw [hrq]))
  | succ n ih =>
    rcases v with _ | r <;> rcases w with _ | q
    · exact .inl (.of_eq rfl)
    · cases h
    · cases h
    rcases r with c | a <;> rcases q with d | b
    · rcases corresponds_of_compare_cells (fun x y => ih) h with hmem | hcd
      · exact .inr ⟨c, d, hmem, rfl, rfl⟩
      · exact .inl (.discharge (fun x y => assumed_cons) hcd)
    · simp [compare] at h; cases h
    · simp [compare] at h; cases h
    · exact .inl (.discharge (fun x y => .inl) (corresponds_of_compare_atoms (fun x y => ih) h))

/-! ## Comparing ends -/

/-- A record has an atom as one of its fields. -/
def Nests (s : Store) (a b : AtomId) : Prop :=
  ∃ g, s.atom a = .host g ∧ g.type.record.isSome ∧ .value (some (.atom b)) ∈ g.fields

theorem Nests.link {a b : AtomId} (h : s.Nests a b) : s.Link (.atom a) (.atom b) := by
  obtain ⟨g, ha, -, hb⟩ := h
  exact .field ha hb

theorem isSome_record {t t' : HostType} (h : t.sameRecord t' = true) : t.record.isSome := by
  simp only [HostType.sameRecord, Bool.and_eq_true] at h
  exact h.1.1

/-- What can be reached from the value exists, and no record there is nested in itself without a cell between. -/
structure Regular (s : Store) (v : Value) : Prop where
  covers : s.Covers v
  grounded : ∀ a, s.Reaches v (.atom a) → ¬ Relation.TransGen s.Nests a a

theorem Regular.of_reaches {r : Ref} (h : s.Regular v) (hr : s.Reaches v r) : s.Regular (some r) :=
  ⟨h.covers.of_reaches hr, fun a ha => h.grounded a (hr.trans ha)⟩

theorem regular_none (s : Store) : s.Regular none :=
  ⟨covers_none s, by rintro a ⟨q, hq, -⟩; cases hq⟩

theorem Regular.element {c : CellId} (h : s.Regular (some (.cell c))) (hv : v ∈ s.elements c) : s.Regular v := by
  obtain ⟨d, hd, rfl⟩ := List.mem_map.mp hv
  cases hcar : (s.cell d).car with
  | none => exact regular_none s
  | some r => exact h.of_reaches ((reaches_spine hd).tail (.car hcar))

theorem Regular.field {a : AtomId} {g : HostObject} (h : s.Regular (some (.atom a))) (ha : s.atom a = .host g)
    (hv : .value v ∈ g.fields) : s.Regular v := by
  cases v with
  | none => exact regular_none s
  | some r => exact h.of_reaches ((Reaches.refl s _).tail (.field ha hv))

/-- Without records nothing is nested. -/
theorem Plain.regular (hp : s.Plain v) (hv : s.Covers v) : s.Regular v := by
  refine ⟨hv, fun a ha hloop => ?_⟩
  obtain ⟨b, ⟨g, hg, hrecord, -⟩, -⟩ := Relation.TransGen.head'_iff.mp hloop
  rw [hp a g ha hg] at hrecord
  cases hrecord

/-- The atoms that are nested in an atom, itself included. -/
def nested (s : Store) (a : AtomId) : Set AtomId :=
  { b | Relation.ReflTransGen s.Nests a b }

/-- How many atoms can be nested below a value before a cell comes. -/
noncomputable def rank (s : Store) : Value → Nat
  | some (.atom a) => (s.nested a).ncard
  | _ => 0

theorem ncard_nested {a : AtomId} (h : s.Covers (some (.atom a))) :
    (s.nested a).Finite ∧ (s.nested a).ncard ≤ s.atoms.size :=
  ncard_atoms_le fun _ hb => h _ ⟨_, rfl, hb.lift Ref.atom fun _ _ => Nests.link⟩

theorem rank_le (h : s.Covers v) : s.rank v ≤ s.atoms.size := by
  rcases v with _ | _ | a
  · exact Nat.zero_le _
  · exact Nat.zero_le _
  · exact (ncard_nested h).2

theorem rank_field {a : AtomId} {g : HostObject} (h : s.Regular (some (.atom a))) (ha : s.atom a = .host g)
    (hrecord : g.type.record.isSome) (hv : .value v ∈ g.fields) : s.rank v < s.rank (some (.atom a)) := by
  have hfinite := (ncard_nested h.covers).1
  have hpos : 0 < (s.nested a).ncard := (Set.ncard_pos hfinite).mpr ⟨a, .refl⟩
  rcases v with _ | _ | b
  · exact hpos
  · exact hpos
  · have hab : s.Nests a b := ⟨g, ha, hrecord, hv⟩
    -- the outer record is not among those nested in the inner one
    refine Set.ncard_lt_ncard ⟨fun x hx => hx.head hab, fun hsub => ?_⟩ hfinite
    have hba : Relation.ReflTransGen s.Nests b a := hsub .refl
    exact h.grounded a (Reaches.refl s _) (Relation.TransGen.head' hab hba)

/-- Comparing the second two values, with some pairs open, asks to compare the first two. -/
inductive Calls (s : Store) : List (CellId × CellId) × Value × Value → List (CellId × CellId) × Value × Value → Prop
  | element {pairs : List (CellId × CellId)} {c d : CellId} {v w : Value} (hcd : c ≠ d)
      (kind : (s.cell c).kind = (s.cell d).kind) (hmem : (c, d) ∉ pairs) (extent : s.extent c = s.extent d)
      (h : (v, w) ∈ (s.elements c).zip (s.elements d)) :
      Calls s ((c, d) :: pairs, v, w) (pairs, some (.cell c), some (.cell d))
  | field {pairs : List (CellId × CellId)} {a b : AtomId} {g o : HostObject} {v w : Value} (hab : a ≠ b)
      (ha : s.atom a = .host g) (hb : s.atom b = .host o) (type : g.type.sameRecord o.type = true)
      (length : g.fields.length = o.fields.length) (h : (.value v, .value w) ∈ g.fields.zip o.fields) :
      Calls s (pairs, v, w) (pairs, some (.atom a), some (.atom b))

/-- The values are regular, and the open pairs are different pairs of cells. -/
structure Ready (s : Store) (x : List (CellId × CellId) × Value × Value) : Prop where
  pairs : s.Pairs x.1
  left : s.Regular x.2.1
  right : s.Regular x.2.2

/-- A bound on the calls that can still be nested: each new pair of cells allows for one run of nested records. -/
noncomputable def need (s : Store) (x : List (CellId × CellId) × Value × Value) : Nat :=
  (s.cells.size * s.cells.size - x.1.length) * (s.atoms.size + 1) + s.rank x.2.1

theorem Calls.need_lt {x y : List (CellId × CellId) × Value × Value} (h : s.Calls x y) (hy : s.Ready y) :
    s.Ready x ∧ s.need x < s.need y := by
  cases h with
  | @element pairs c d v w hcd kind hmem extent h =>
    obtain ⟨hv, hw⟩ := List.of_mem_zip h
    have hpairs : s.Pairs ((c, d) :: pairs) := hy.pairs.cons hmem hy.left.covers.self hy.right.covers.self
    have hv' := hy.left.element hv
    refine ⟨⟨hpairs, hv', hy.right.element hw⟩, ?_⟩
    have hroom : pairs.length + 1 ≤ s.cells.size * s.cells.size := hpairs.length_le
    have hrank := rank_le hv'.covers
    have hstep : s.cells.size * s.cells.size - pairs.length =
        s.cells.size * s.cells.size - (pairs.length + 1) + 1 := by omega
    change (s.cells.size * s.cells.size - (pairs.length + 1)) * (s.atoms.size + 1) + s.rank v <
      (s.cells.size * s.cells.size - pairs.length) * (s.atoms.size + 1) + 0
    rw [hstep, Nat.succ_mul]
    omega
  | field hab ha hb type length h =>
    obtain ⟨hv, hw⟩ := List.of_mem_zip h
    refine ⟨⟨hy.pairs, hy.left.field ha hv, hy.right.field hb hw⟩, ?_⟩
    exact Nat.add_lt_add_left (rank_field hy.left ha (isSome_record type) hv) _

theorem Ready.acc {x : List (CellId × CellId) × Value × Value} (h : s.Ready x) : Acc s.Calls x := by
  generalize hn : s.need x = n
  induction n using Nat.strongRecOn generalizing x with
  | _ n ih =>
    refine ⟨_, fun y hyx => ?_⟩
    obtain ⟨hy, hlt⟩ := hyx.need_lt h
    exact ih _ (hn ▸ hlt) hy rfl

/-! ## What corresponds is found equal -/

/-- Each call takes a level, so there are enough levels where there are more than can be needed. -/
theorem compare_of_correspondence (hR : s.Correspondence R) {n : Nat} (hready : s.Ready (pairs, v, w))
    (hn : s.need (pairs, v, w) < n) (h : R v w) : s.compare n v w pairs = (true, pairs) := by
  induction n generalizing v w pairs with
  | zero => omega
  | succ n ih =>
    have hcall : ∀ {ps x y}, s.Calls (ps, x, y) (pairs, v, w) → R x y → s.compare n x y ps = (true, ps) := by
      intro ps x y hc hxy
      obtain ⟨hready', hlt⟩ := hc.need_lt hready
      exact ih hready' (by omega) hxy
    cases hR v w h with
    | core hvw =>
      cases hvw with
      | nil => exact compare_self _ _ _
      | same r => exact compare_self _ _ _
      | datum ha hb => exact compare_datum ha hb _
      | cell kind count endless cars =>
        have hextent := extent_eq_iff.mpr ⟨count, endless⟩
        refine compare_of_elements kind hextent fun hcd hmem p hp => ?_
        exact hcall (.element hcd kind hmem hextent hp) ((forall_zip_elements count).mpr cars p hp)
    | @record a b g o ha hb type fields =>
      by_cases hab : a = b
      · subst hab; exact compare_self _ _ _
      have hsame : (g.type.sameRecord o.type && decide (g.fields.length = o.fields.length)) = true := by
        simp [type, fields.length_eq]
      rw [compare_hosts_eq hab ha hb, if_pos hsame]
      refine allM_eq_true fun p hp => ?_
      obtain ⟨x, y⟩ := p
      cases List.forall₂_zip fields hp with
      | item i =>
        change (decide (i = i), pairs) = _
        rw [decide_eq_true rfl]
      | value hvw => exact hcall (.field hab ha hb type fields.length_eq hp) hvw

theorem need_lt_compareDepth (hv : s.Covers v) : s.need ([], v, w) < s.compareDepth := by
  have hrank := rank_le hv
  have hatoms : s.atoms.size ≤ s.atoms.size * s.atoms.size := Nat.le_mul_self _
  have hmul := Nat.mul_le_mul_left (s.cells.size * s.cells.size) (Nat.succ_le_succ hatoms)
  simp only [need, compareDepth, List.length_nil, Nat.sub_zero, Nat.succ_mul, Nat.succ_eq_add_one] at hmul ⊢
  omega

theorem ready_nil (hv : s.Regular v) (hw : s.Regular w) : s.Ready ([], v, w) :=
  ⟨⟨.nil, by simp⟩, hv, hw⟩

theorem compare_eq_true_iff {n : Nat} (hn : s.compareDepth ≤ n) (hv : s.Regular v) (hw : s.Regular w) :
    (s.compare n v w []).1 = true ↔ ∃ R, s.Correspondence R ∧ R v w := by
  constructor
  · intro h
    have hnone : ∀ x y, ¬ Assumed [] x y := by
      rintro x y ⟨c, d, hmem, -⟩
      cases hmem
    rcases coherent_of_compare h with ⟨R, hvw, hclosed⟩ | hvw
    · exact ⟨R, fun x y hxy => (hclosed x y hxy).mono fun x y h => h.resolve_right (hnone x y), hvw⟩
    · exact absurd hvw (hnone v w)
  · rintro ⟨R, hR, hvw⟩
    have hneed := need_lt_compareDepth (w := w) hv.covers
    rw [compare_of_correspondence hR (ready_nil hv hw) (by omega) hvw]

theorem equal_eq_true_iff (hv : s.Regular v) (hw : s.Regular w) :
    s.equal v w = true ↔ ∃ R, s.Correspondence R ∧ R v w :=
  compare_eq_true_iff (Nat.le_refl _) hv hw

theorem Plain.element {c : CellId} (h : s.Plain (some (.cell c))) (hv : v ∈ s.elements c) : s.Plain v := by
  obtain ⟨d, hd, rfl⟩ := List.mem_map.mp hv
  rintro a o ⟨q, hq, ha⟩ ho
  exact h a o (((reaches_spine hd).tail (.car hq)).trans ⟨q, rfl, ha⟩) ho

end ScriptCore.Store
