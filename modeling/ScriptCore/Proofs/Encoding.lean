import ScriptCore.Proofs.Bisimilarity
import ScriptCore.Proofs.Reader

/-!
# Equality against the wire form

The wire form of a list has a kind for each cell; comparing two lists looks at the kinds of their first cells only. So
values that are written as the same bytes are equal, and equal values are written as the same bytes if and only if
the cells at the same places have the same kinds (`toBytes_eq_iff_equal`).

What comparing sees of a tree is `heads`, which forgets the kinds of all cells that stand in second slots.

* `encode_injective`: a tree is determined by its wire form.
* `heads_of_correspondence`: equal values unfold to trees with the same `heads`.
* `eq_of_heads_eq`, `eq_of_uniform`: when the trees are the same then.
-/
namespace ScriptCore

open Chain

/-- What comparing sees of the kind of a cell at a place. -/
def Place.seen : Place → CellKind → CellKind
  | .first, kind => kind
  | .second, _ => .list

namespace Tree

variable {p : Place}

/-- The tree with all cells in second slots of one kind. -/
def heads {p : Place} : Tree p → Tree p
  | .nil => .nil
  | .leaf d => .leaf d
  | .cell kind car cdr => .cell (p.seen kind) car.heads cdr.heads

/-- The kind of the cell at the end of a path of slots. -/
def kindAt {p : Place} : Tree p → List Place → Option CellKind
  | .cell kind _ _, [] => some kind
  | .cell _ car _, .first :: path => car.kindAt path
  | .cell _ _ cdr, .second :: path => cdr.kindAt path
  | _, _ => none

/-- In every chain all cells are of one kind. -/
def Uniform {p : Place} : Tree p → Prop
  | .cell kind car cdr => car.Uniform ∧ cdr.Uniform ∧ ∀ k, cdr.kindAt [] = some k → k = kind
  | _ => True

/-- What `heads` forgets is found again in the kinds along all paths. -/
theorem eq_of_heads_eq {x y : Tree p} (h : x.heads = y.heads) (hk : ∀ path, x.kindAt path = y.kindAt path) :
    x = y := by
  induction x with
  | nil | leaf => cases y <;> simp_all [heads]
  | @cell p kind car cdr ihcar ihcdr =>
    cases y with
    | nil | leaf => simp [heads] at h
    | cell kind' car' cdr' =>
      have hkind := hk []
      have hcar := fun path => hk (.first :: path)
      have hcdr := fun path => hk (.second :: path)
      simp only [kindAt, Option.some.injEq] at hkind hcar hcdr
      simp only [heads, cell.injEq] at h
      rw [hkind, ihcar h.2.1 hcar, ihcdr h.2.2 hcdr]

theorem kindAt_nil_of_heads_eq {x y : Tree .first} (h : x.heads = y.heads) : x.kindAt [] = y.kindAt [] := by
  cases x <;> cases y <;> simp_all [heads, kindAt, Place.seen]

/-- Where chains are of one kind, the kinds of their first cells are all there is. -/
theorem eq_of_uniform {x y : Tree p} (h : x.heads = y.heads) (hx : x.Uniform) (hy : y.Uniform)
    (hk : x.kindAt [] = y.kindAt []) : x = y := by
  induction x with
  | nil | leaf => cases y <;> simp_all [heads]
  | @cell p kind car cdr ihcar ihcdr =>
    cases y with
    | nil | leaf => simp [heads] at h
    | cell kind' car' cdr' =>
      simp only [heads, cell.injEq] at h
      simp only [kindAt, Option.some.injEq] at hk
      obtain ⟨hcar, hcdr, hkind⟩ := hx
      obtain ⟨hcar', hcdr', hkind'⟩ := hy
      have htail : cdr.kindAt [] = cdr'.kindAt [] := by
        cases cdr with
        | nil =>
          cases cdr' with
          | nil => rfl
          | cell => simp [heads] at h
        | cell k _ _ =>
          cases cdr' with
          | nil => simp [heads] at h
          | cell k' _ _ => rw [kindAt, kindAt, hkind k rfl, hkind' k' rfl, hk]
      rw [hk, ihcar h.2.1 hcar hcar' (kindAt_nil_of_heads_eq h.2.1), ihcdr h.2.2 hcdr hcdr' htail]

/-- A tree that can be written is determined by its wire form: reading it gives one value only. -/
theorem encode_injective {x y : Tree .first} (hx : x.Fits) (hdx : x.depth ≤ maxNesting) (hy : y.Fits)
    (hdy : y.depth ≤ maxNesting) (h : x.encode = y.encode) : x = y := by
  obtain ⟨v, t, hv, -, rs, hrs, -⟩ := ofBytes_encode Registry.hasCore_core hx hdx {}
  obtain ⟨w, u, hw, -, qs, hqs, -⟩ := ofBytes_encode Registry.hasCore_core hy hdy {}
  rw [h, hw] at hv
  cases hv
  exact (hrs.unique hqs).1

end Tree

namespace Store

variable {s : Store} {R : Value → Value → Prop} {p : Place} {v w : Value}

/-! ## Places inside a value -/

/-- What stands at the end of a path of slots; nil where the path leads nowhere. -/
def descend (s : Store) : Value → List Place → Value
  | v, [] => v
  | some (.cell c), .first :: path => s.descend (s.cell c).car path
  | some (.cell c), .second :: path => s.descend (.ofLink (s.cell c).cdr) path
  | _, _ :: _ => none

/-- The kind of the cell at the end of a path of slots. -/
def kindAt (s : Store) (v : Value) (path : List Place) : Option CellKind :=
  match s.descend v path with
  | some (.cell c) => some (s.cell c).kind
  | _ => none

/-- At each place both values have a cell of the same kind, or no cell. -/
def SameKinds (s : Store) (v w : Value) : Prop :=
  ∀ path, s.kindAt v path = s.kindAt w path

/-- In every chain that can be reached all cells are of one kind. -/
def Uniform (s : Store) (v : Value) : Prop :=
  ∀ c d, s.Reaches v (.cell c) → (s.cell c).cdr = some d → (s.cell d).kind = (s.cell c).kind

theorem kindAt_of_unfolds {x : Tree p} {rs : List Ref} (h : s.Unfolds v x rs) (path : List Place) :
    s.kindAt v path = x.kindAt path := by
  induction h generalizing path with
  | nil | leaf => rcases path with _ | ⟨_ | _, path⟩ <;> rfl
  | cell _ _ ihx ihy =>
    rcases path with _ | ⟨_ | _, path⟩
    · rfl
    · exact ihx path
    · exact ihy path

theorem uniform_of_unfolds {x : Tree p} {rs : List Ref} (h : s.Unfolds v x rs) (hu : s.Uniform v) : x.Uniform := by
  induction h with
  | nil | leaf => trivial
  | @cell _ c x y _ _ _ hy ihx ihy =>
    refine ⟨ihx fun a b ha => hu a b ha.of_car, ihy fun a b ha => hu a b ha.of_cdr, fun k hk => ?_⟩
    rw [← kindAt_of_unfolds hy] at hk
    cases hd : (s.cell c).cdr with
    | none => rw [hd] at hk; cases hk
    | some d =>
      rw [hd] at hk
      have hkd : some (s.cell d).kind = some k := hk
      rw [← Option.some.inj hkd]
      exact hu c d (Reaches.refl s _) hd

/-! ## Equal values have the same heads -/

/-- In a first slot related values stand; in second slots chains with related elements. -/
def Paired (s : Store) (R : Value → Value → Prop) : Place → Value → Value → Prop
  | .first, v, w => R v w
  | .second, v, w => ∃ link link' cs ds, v = .ofLink link ∧ w = .ofLink link' ∧ EndsBehind s.next link cs ∧
      EndsBehind s.next link' ds ∧ List.Forall₂ (fun c d => R (s.cell c).car (s.cell d).car) cs ds

/-- The chain of a list that unfolds ends. -/
theorem ends_of_unfolds {link : Option CellId} {y : Tree .second} {ys : List Ref}
    (h : s.Unfolds (.ofLink link) y ys) : ∃ l, EndsBehind s.next link l := by
  cases y with
  | nil =>
    cases link with
    | none => exact ⟨[], rfl⟩
    | some c => cases h
  | cell kind x y =>
    cases link with
    | none => cases h
    | some c =>
      cases h with
      | cell _ hy =>
        obtain ⟨l, hl⟩ := ends_of_unfolds hy
        exact ⟨c :: l, ends_cons_iff.mpr ⟨rfl, hl⟩⟩

/-- The elements of corresponding cells whose chains end are related one by one. -/
theorem forall₂_cars {c d : CellId} {cs ds : List CellId} (hc : Ends s.next c cs) (hd : Ends s.next d ds)
    (count : (s.chain c).ncard = (s.chain d).ncard)
    (cars : ∀ i, i < (s.chain c).ncard → R (s.nth c i) (s.nth d i)) :
    List.Forall₂ (fun c d => R (s.cell c).car (s.cell d).car) cs ds := by
  have hncard : ∀ {e : CellId} {es : List CellId}, Ends s.next e es → (s.chain e).ncard = es.length := by
    intro e es he
    rw [← extent_cells, extent, extent_of_ends s.bounded he]
  rw [hncard hc, hncard hd] at count
  rw [hncard hc] at cars
  rw [List.forall₂_iff_get]
  refine ⟨count, fun i hi hi' => ?_⟩
  have hR := cars i hi
  rw [nth, nth, nthCell, nthCell, hc.follow_eq, hd.follow_eq, List.getElem?_eq_getElem hi,
    List.getElem?_eq_getElem hi'] at hR
  exact hR

/-- What is paired with a cell whose chain ends: the cell itself, or a cell with a paired element and a paired rest. -/
theorem Paired.cell (hR : s.Correspondence R) {c : CellId} {cs : List CellId} (hc : Ends s.next c cs)
    (hw : ∀ d, w = some (.cell d) → ∃ ds, Ends s.next d ds) (h : s.Paired R p (some (.cell c)) w) :
    w = some (.cell c) ∨ ∃ d, w = some (.cell d) ∧ p.seen (s.cell c).kind = p.seen (s.cell d).kind ∧
      R (s.cell c).car (s.cell d).car ∧ s.Paired R .second (.ofLink (s.cell c).cdr) (.ofLink (s.cell d).cdr) := by
  cases p with
  | first =>
    cases hR _ _ h with
    | core h =>
      cases h with
      | same => exact .inl rfl
      | @cell _ d kind count endless cars =>
        obtain ⟨ds, hd⟩ := hw d rfl
        have hall := forall₂_cars hc hd count cars
        obtain ⟨cs, rfl⟩ := hc.head
        obtain ⟨ds, rfl⟩ := hd.head
        obtain ⟨hcar, hrest⟩ := List.forall₂_cons.mp hall
        refine .inr ⟨d, rfl, kind, hcar, _, _, cs, ds, rfl, rfl, ?_, ?_, hrest⟩
        · exact (ends_cons_iff.mp hc).2
        · exact (ends_cons_iff.mp hd).2
  | second =>
    obtain ⟨link, link', cs', ds, hv, rfl, hcs, hds, hall⟩ := h
    cases link <;> cases hv
    obtain ⟨cs', rfl⟩ := Ends.head hcs
    cases hall with
    | @cons _ d _ ds hcar hrest =>
      cases link' with
      | none => cases hds
      | some d' =>
        obtain ⟨rfl, hds⟩ := ends_cons_iff.mp hds
        exact .inr ⟨d, rfl, rfl, hcar, _, _, cs', ds, rfl, rfl, (ends_cons_iff.mp hcs).2, hds, hrest⟩

/-- Equal values unfold to trees with the same heads. The induction goes along the first of them; the chain of the
second one is as long, since equality asks for it. -/
theorem heads_of_correspondence (hR : s.Correspondence R) {x y : Tree p} {rs qs : List Ref} (h : s.Paired R p v w)
    (hx : s.Unfolds v x rs) (hy : s.Unfolds w y qs) : x.heads = y.heads := by
  induction hx generalizing w qs with
  | @nil p =>
    cases p with
    | first =>
      cases hR _ _ h with
      | core h => cases h; cases hy; rfl
    | second =>
      obtain ⟨link, link', cs, ds, hv, rfl, hcs, hds, hall⟩ := h
      cases link <;> cases hv
      cases hcs
      cases hall
      cases link' with
      | none => cases hy; rfl
      | some d => cases hds
  | @leaf a d ha =>
    cases hR _ _ h with
    | core h =>
      cases h with
      | same => cases hy with | leaf hb => rw [ha] at hb; cases hb; rfl
      | datum ha' hb =>
        rw [ha] at ha'
        cases ha'
        cases hy with
        | leaf hb' => rw [hb] at hb'; cases hb'; rfl
    | record ha' => rw [ha] at ha'; cases ha'
  | @cell p c x' y' xs ys hx hy' ihx ihy =>
    obtain ⟨cs, hcs⟩ := ends_of_unfolds hy'
    have hends : ∀ d, w = some (.cell d) → ∃ ds, Ends s.next d ds := by
      rintro d rfl
      cases hy with
      | cell _ ky =>
        obtain ⟨ds, hds⟩ := ends_of_unfolds ky
        exact ⟨d :: ds, ends_cons_iff.mpr ⟨rfl, hds⟩⟩
    rcases h.cell hR (ends_cons_iff.mpr ⟨rfl, hcs⟩) hends with rfl | ⟨d, rfl, hkind, hcar, hcdr⟩
    · rw [((Unfolds.cell hx hy').unique hy).1]
    · cases hy with
      | cell kx ky => rw [Tree.heads, Tree.heads, hkind, ihx hcar kx, ihy hcdr ky]

end Store

open Store

/-- Values of the core types that can be written are written as the same bytes if and only if they are equal and have
cells of the same kinds at the same places. Where all cells of a chain are of one kind, equality alone decides. -/
theorem toBytes_eq_iff_equal {s : Store} {v w : Value} {bytes bytes' : List UInt8} (hv : s.Covers v) (hw : s.Covers w)
    (hcv : s.Core v) (hcw : s.Core w) (hb : s.toBytes v = .ok bytes) (hb' : s.toBytes w = .ok bytes') :
    (bytes = bytes' ↔ s.equal v w = true ∧ s.SameKinds v w) ∧
    (s.Uniform v → s.Uniform w → (bytes = bytes' ↔ s.equal v w = true)) := by
  obtain ⟨x, rs, hx, hfit, hd, rfl⟩ := (toBytes_iff hcv.plain).mp hb
  obtain ⟨y, qs, hy, hfit', hd', rfl⟩ := (toBytes_iff hcw.plain).mp hb'
  have hsame : x.encode = y.encode → s.equal v w = true ∧ s.SameKinds v w := by
    intro h
    obtain rfl := Tree.encode_injective hfit hd hfit' hd' h
    refine ⟨?_, fun path => by rw [kindAt_of_unfolds hx, kindAt_of_unfolds hy]⟩
    exact equal_of_unfolds hx hy (fun r hr => hv r (hx.reaches hr)) fun r hr => hw r (hy.reaches hr)
  have hheads : s.equal v w = true → x.heads = y.heads := by
    intro h
    obtain ⟨R, hR, hvw⟩ := (equal_eq_true_iff (hcv.plain.regular hv) (hcw.plain.regular hw)).mp h
    exact heads_of_correspondence (p := .first) hR hvw hx hy
  refine ⟨⟨hsame, fun ⟨he, hk⟩ => ?_⟩, fun hu hu' => ⟨fun h => (hsame h).1, fun he => ?_⟩⟩
  · have hkinds : ∀ path, x.kindAt path = y.kindAt path := fun path => by
      rw [← kindAt_of_unfolds hx, ← kindAt_of_unfolds hy, hk path]
    rw [Tree.eq_of_heads_eq (hheads he) hkinds]
  · have hkind := Tree.kindAt_nil_of_heads_eq (hheads he)
    rw [Tree.eq_of_uniform (hheads he) (uniform_of_unfolds hx hu) (uniform_of_unfolds hy hu') hkind]

/-- Two lists of the elements true and false, and a third one that goes on with a block behind the first cell. -/
def mixedLists : Store where
  cells := #[
    { car := some (.atom ⟨0⟩), cdr := some ⟨1⟩ }, { car := some (.atom ⟨1⟩) },
    { car := some (.atom ⟨0⟩), cdr := some ⟨3⟩ }, { car := some (.atom ⟨1⟩) },
    { car := some (.atom ⟨0⟩), cdr := some ⟨5⟩ }, { kind := .block, car := some (.atom ⟨1⟩) }]
  atoms := #[.datum (.boolean true), .datum (.boolean false)]

/-- The wire form of a list of true and false whose second cell is of the given kind. -/
def mixedBytes (kind : CellKind) : List UInt8 :=
  [0, 1, 0, 0, 0, 0, 1, 0, 2, 1, 0, 1, 0, 0, kind.byte, 0, 1, 0, 2, 0, 0, 0, 255, 255]

theorem unfolds_mixedLists : ∀ c ∈ [⟨0⟩, ⟨2⟩, ⟨4⟩], ∃ (x : Tree .first) (rs : List Ref),
    mixedLists.Unfolds (some (.cell c)) x rs ∧ ∀ r ∈ rs, mixedLists.Has r := by
  have htrue : mixedLists.atom ⟨0⟩ = .datum (.boolean true) := rfl
  have hfalse : mixedLists.atom ⟨1⟩ = .datum (.boolean false) := rfl
  intro c hc
  simp only [List.mem_cons, List.not_mem_nil, or_false] at hc
  rcases hc with rfl | rfl | rfl
  all_goals exact ⟨_, _, .cell (.leaf htrue) (.cell (.leaf hfalse) .nil), by decide⟩

/-- The first two lists have the same bytes, and so they are equal. The third one has a cell of another kind. -/
theorem toBytes_eq_iff_equal_mixedLists :
    mixedLists.toBytes (some (.cell ⟨0⟩)) = .ok (mixedBytes .list) ∧
    mixedLists.toBytes (some (.cell ⟨2⟩)) = .ok (mixedBytes .list) ∧
    mixedLists.toBytes (some (.cell ⟨4⟩)) = .ok (mixedBytes .block) ∧
    mixedLists.equal (some (.cell ⟨0⟩)) (some (.cell ⟨2⟩)) = true ∧
    ¬ mixedLists.SameKinds (some (.cell ⟨0⟩)) (some (.cell ⟨4⟩)) := by
  obtain ⟨x, rs, hx, hrs⟩ := unfolds_mixedLists ⟨0⟩ (by simp)
  obtain ⟨y, qs, hy, hqs⟩ := unfolds_mixedLists ⟨2⟩ (by simp)
  obtain ⟨z, ps, hz, hps⟩ := unfolds_mixedLists ⟨4⟩ (by simp)
  have hb : mixedLists.toBytes (some (.cell ⟨0⟩)) = .ok (mixedBytes .list) := by decide +kernel
  have hb' : mixedLists.toBytes (some (.cell ⟨2⟩)) = .ok (mixedBytes .list) := by decide +kernel
  have hb'' : mixedLists.toBytes (some (.cell ⟨4⟩)) = .ok (mixedBytes .block) := by decide +kernel
  have hsame := toBytes_eq_iff_equal (hx.covers hrs) (hy.covers hqs) (fun _ => hx.data) (fun _ => hy.data) hb hb'
  have hmixed := toBytes_eq_iff_equal (hx.covers hrs) (hz.covers hps) (fun _ => hx.data) (fun _ => hz.data) hb hb''
  refine ⟨hb, hb', hb'', (hsame.1.mp rfl).1, fun hk => ?_⟩
  have hbytes : mixedBytes .list = mixedBytes .block := hmixed.1.mpr ⟨by decide +kernel, hk⟩
  cases hbytes

/-- A list and the list that goes on with a block are equal, though they are written as different bytes. -/
theorem equal_mixedLists :
    mixedLists.Core (some (.cell ⟨0⟩)) ∧ mixedLists.Core (some (.cell ⟨4⟩)) ∧
    mixedLists.toBytes (some (.cell ⟨0⟩)) = .ok (mixedBytes .list) ∧
    mixedLists.toBytes (some (.cell ⟨4⟩)) = .ok (mixedBytes .block) ∧
    ¬ (mixedLists.equal (some (.cell ⟨0⟩)) (some (.cell ⟨4⟩)) = true ↔ mixedBytes .list = mixedBytes .block) := by
  obtain ⟨x, rs, hx, -⟩ := unfolds_mixedLists ⟨0⟩ (by simp)
  obtain ⟨z, ps, hz, -⟩ := unfolds_mixedLists ⟨4⟩ (by simp)
  refine ⟨fun _ => hx.data, fun _ => hz.data, by decide +kernel, by decide +kernel, fun h => ?_⟩
  have hbytes := h.mp (by decide +kernel)
  cases hbytes

end ScriptCore
