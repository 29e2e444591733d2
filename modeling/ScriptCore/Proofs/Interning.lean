import ScriptCore.Symbol
import ScriptCore.Proofs.Wire

/-!
# Interning

A symbol table keeps names and numbers in both directions: a map from names to numbers and an array of names. A run
is a sequence of requests to one table that starts empty. Numbers have 32 bits, so all that is said here needs room
for the different names of the run.

Results:
* `serve_table`, `serve_id?`: what one request does to the table, and the number it gives.
* `Orders.intern`: interning keeps map and array inverse to each other and appends at most the one name.
* `orders_reached`: after any run the array has the interned names, each once, in order of first interning.
* `table_bijective`: so names and numbers determine each other at all times, and nothing that was given out ever
  changes.
-/
namespace ScriptCore

theorem eraseDups_concat {α : Type} [DecidableEq α] (l : List α) (a : α) :
    (l ++ [a]).eraseDups = if a ∈ l then l.eraseDups else l.eraseDups ++ [a] := by
  rw [List.eraseDups_append]
  by_cases h : a ∈ l
  · simp [List.removeAll, h]
  · simp [List.removeAll, h, List.eraseDups_cons]

theorem getElem?_concat_eq_some {α : Type} {l : List α} {a b : α} {i : Nat} :
    (l ++ [a])[i]? = some b ↔ l[i]? = some b ∨ i = l.length ∧ b = a := by
  rw [List.getElem?_append]
  split
  · next hi => simp [Nat.ne_of_lt hi]
  · next hi => grind

/-! ## Requests -/

/-- What can be asked of a symbol table. -/
inductive SymbolRequest where
  | intern (name : String)
  | lookup (name : String)
  | nameOf (id : UInt32)
  /-- Interns a name and adds its number to a zone. -/
  | internIn (zone : Zone) (name : String)

/-- The name that a request interns. -/
def SymbolRequest.name? : SymbolRequest → Option String
  | .intern name | .internIn _ name => some name
  | .lookup _ | .nameOf _ => none

/-- What a symbol table answers. -/
inductive SymbolAnswer where
  | interned (id : UInt32)
  | found (id : Option UInt32)
  | named (name : Except Error String)
  | zoned (id : UInt32) (zone : Zone)

/-- The number that an answer gives to an interned name. -/
def SymbolAnswer.id? : SymbolAnswer → Option UInt32
  | .interned id | .zoned id _ => some id
  | .found _ | .named _ => none

namespace SymbolTable

/-- Answers a request. -/
def serve (t : SymbolTable) : SymbolRequest → SymbolAnswer × SymbolTable
  | .intern name =>
    let (id, t) := t.intern name
    (.interned id, t)
  | .lookup name => (.found (t.lookup? name), t)
  | .nameOf id => (.named (t.nameOf id), t)
  | .internIn zone name =>
    let (id, zone, t) := zone.intern t name
    (.zoned id zone, t)

/-- The table after a run. -/
def reached (requests : List SymbolRequest) : SymbolTable :=
  requests.foldl (fun t r => (t.serve r).2) {}

/-- The names that a run interns, in order. -/
def internedNames (requests : List SymbolRequest) : List String :=
  requests.filterMap SymbolRequest.name?

/-- In a run, the number was the answer to a request that interned the name. -/
def Gives (requests : List SymbolRequest) (name : String) (id : UInt32) : Prop :=
  ∃ before r later, requests = before ++ r :: later ∧ r.name? = some name ∧ ((reached before).serve r).1.id? = some id

theorem serve_table (t : SymbolTable) (r : SymbolRequest) :
    (t.serve r).2 = (r.name?.map fun name => (t.intern name).2).getD t := by
  cases r <;> rfl

theorem serve_id? (t : SymbolTable) (r : SymbolRequest) :
    (t.serve r).1.id? = r.name?.map fun name => (t.intern name).1 := by
  cases r <;> rfl

theorem lookup?_intern (t : SymbolTable) (name : String) : (t.intern name).2.lookup? name = some (t.intern name).1 := by
  unfold intern
  cases hlookup : t.lookup? name with
  | some id => exact hlookup
  | none => rw [lookup?, Dict.find?_insert, if_pos rfl]

theorem reached_concat (requests : List SymbolRequest) (r : SymbolRequest) :
    reached (requests ++ [r]) = ((reached requests).serve r).2 := by
  simp only [reached, List.foldl_append, List.foldl_cons, List.foldl_nil]

/-! ## The invariant -/

/-- The array has the given names, and the map has each of them under its place. -/
structure Orders (t : SymbolTable) (names : List String) : Prop where
  names_eq : t.names.toList = names
  fits : names.length ≤ UInt32.size
  find?_ids : ∀ name id, t.ids.find? name = some id ↔ names[id.toNat]? = some name

section Orders

variable {t : SymbolTable} {names : List String}

theorem Orders.lookup?_iff (h : t.Orders names) {name : String} {id : UInt32} :
    t.lookup? name = some id ↔ names[id.toNat]? = some name :=
  h.find?_ids name id

theorem Orders.nameOf_iff (h : t.Orders names) {name : String} {id : UInt32} :
    t.nameOf id = .ok name ↔ names[id.toNat]? = some name := by
  rw [nameOf, name?, ← h.names_eq, Array.getElem?_toList]
  cases t.names[id.toNat]? <;> simp

theorem Orders.lookup?_iff_nameOf (h : t.Orders names) {name : String} {id : UInt32} :
    t.lookup? name = some id ↔ t.nameOf id = .ok name :=
  h.lookup?_iff.trans h.nameOf_iff.symm

theorem Orders.size_eq (h : t.Orders names) : t.size = names.length := by
  rw [← h.names_eq, Array.length_toList, size]

/-- The numbers in use are those below the number of names. -/
theorem Orders.exists_lookup?_iff (h : t.Orders names) (id : UInt32) :
    (∃ name, t.lookup? name = some id) ↔ id.toNat < t.size := by
  rw [h.size_eq]
  constructor
  · rintro ⟨name, hname⟩
    exact (List.getElem?_eq_some_iff.mp (h.lookup?_iff.mp hname)).1
  · intro hid
    exact ⟨names[id.toNat], h.lookup?_iff.mpr (List.getElem?_eq_getElem hid)⟩

/-- A place in the order is a number. -/
theorem Orders.toNat_ofNat (h : t.Orders names) {i : Nat} (hi : i < names.length) : (UInt32.ofNat i).toNat = i :=
  UInt32.toNat_ofNat_of_lt (Nat.lt_of_lt_of_le hi h.fits)

theorem Orders.lookup?_eq_none (h : t.Orders names) {name : String} : t.lookup? name = none ↔ name ∉ names := by
  constructor
  · intro hnone hmem
    obtain ⟨i, hi, hname⟩ := List.getElem_of_mem hmem
    have hsome : t.lookup? name = some (UInt32.ofNat i) := by
      rw [h.lookup?_iff, h.toNat_ofNat hi, List.getElem?_eq_getElem hi, hname]
    rw [hnone] at hsome
    exact nomatch hsome
  · intro hnot
    refine Option.eq_none_iff_forall_ne_some.mpr fun id hid => hnot ?_
    exact List.mem_of_getElem? (h.lookup?_iff.mp hid)

/-- A name that is not there yet gets the next number. -/
theorem Orders.push (h : t.Orders names) {name : String} (hnew : name ∉ names) (hfits : names.length < UInt32.size) :
    Orders ⟨t.ids.insert name (UInt32.ofNat t.names.size), t.names.push name⟩ (names ++ [name]) := by
  have hid : (UInt32.ofNat t.names.size).toNat = names.length := by
    rw [show t.names.size = names.length from h.size_eq]
    exact UInt32.toNat_ofNat_of_lt hfits
  refine ⟨by rw [Array.toList_push, h.names_eq], by rw [List.length_append]; exact hfits, fun other id => ?_⟩
  rw [Dict.find?_insert, getElem?_concat_eq_some, ← h.find?_ids]
  by_cases hsame : other = name
  · have hnone : t.ids.find? name = none := h.lookup?_eq_none.mpr hnew
    rw [hsame, if_pos rfl, hnone, ← hid, UInt32.toNat_inj]
    simp [eq_comm]
  · simp [hsame]

theorem Orders.intern (h : t.Orders names) (name : String)
    (hfits : (if name ∈ names then names else names ++ [name]).length ≤ UInt32.size) :
    (t.intern name).2.Orders (if name ∈ names then names else names ++ [name]) := by
  unfold SymbolTable.intern
  cases hlookup : t.lookup? name with
  | some id =>
    have hmem : name ∈ names := List.mem_of_getElem? (h.lookup?_iff.mp hlookup)
    rwa [if_pos hmem]
  | none =>
    have hnew : name ∉ names := h.lookup?_eq_none.mp hlookup
    rw [if_neg hnew] at hfits ⊢
    rw [List.length_append] at hfits
    exact h.push hnew hfits

end Orders

/-! ## Runs -/

theorem internedNames_append (before later : List SymbolRequest) :
    internedNames (before ++ later) = internedNames before ++ internedNames later :=
  List.filterMap_append

/-- The names of a run stay the first ones of every longer run. -/
theorem eraseDups_internedNames_append (before later : List SymbolRequest) :
    ∃ more, (internedNames (before ++ later)).eraseDups = (internedNames before).eraseDups ++ more :=
  ⟨_, by rw [internedNames_append, List.eraseDups_append]⟩

theorem fits_of_append {before later : List SymbolRequest}
    (h : (internedNames (before ++ later)).eraseDups.length ≤ UInt32.size) :
    (internedNames before).eraseDups.length ≤ UInt32.size := by
  obtain ⟨more, hmore⟩ := eraseDups_internedNames_append before later
  rw [hmore, List.length_append] at h
  exact Nat.le_trans (Nat.le_add_right _ _) h

theorem orders_reached (requests : List SymbolRequest) (h : (internedNames requests).eraseDups.length ≤ UInt32.size) :
    (reached requests).Orders (internedNames requests).eraseDups := by
  induction requests using List.reverseRecOn with
  | nil => exact ⟨rfl, h, fun name id => by simp [reached, internedNames, Dict.find?]⟩
  | append_singleton requests r ih =>
    have ih := ih (fits_of_append h)
    rw [reached_concat, serve_table]
    rw [internedNames_append] at h ⊢
    cases hname : r.name? with
    | none => simpa [internedNames, hname] using ih
    | some name =>
      have hr : internedNames [r] = [name] := by simp [internedNames, hname]
      have hintern := ih.intern name
      simp only [List.mem_eraseDups] at hintern
      rw [hr, eraseDups_concat] at h ⊢
      exact hintern h

/-- What a longer run finds is what the shorter run found. -/
theorem lookup?_reached_append {before later : List SymbolRequest}
    (h : (internedNames (before ++ later)).eraseDups.length ≤ UInt32.size) {name : String} {id : UInt32}
    (hid : (reached before).lookup? name = some id) : (reached (before ++ later)).lookup? name = some id := by
  have hshort := orders_reached before (fits_of_append h)
  have hlong := orders_reached (before ++ later) h
  have hplace := hshort.lookup?_iff.mp hid
  obtain ⟨more, hmore⟩ := eraseDups_internedNames_append before later
  obtain ⟨hbound, -⟩ := List.getElem?_eq_some_iff.mp hplace
  rw [hlong.lookup?_iff, hmore, List.getElem?_append_left hbound, hplace]

theorem nameOf_reached_append {before later : List SymbolRequest}
    (h : (internedNames (before ++ later)).eraseDups.length ≤ UInt32.size) {name : String} {id : UInt32}
    (hid : (reached before).nameOf id = .ok name) : (reached (before ++ later)).nameOf id = .ok name := by
  rw [← (orders_reached _ (fits_of_append h)).lookup?_iff_nameOf] at hid
  rw [← (orders_reached _ h).lookup?_iff_nameOf]
  exact lookup?_reached_append h hid

theorem lookup?_of_gives {requests : List SymbolRequest} {name : String} {id : UInt32}
    (h : (internedNames requests).eraseDups.length ≤ UInt32.size) (hgives : Gives requests name id) :
    (reached requests).lookup? name = some id := by
  obtain ⟨before, r, later, rfl, hname, hanswer⟩ := hgives
  rw [serve_id?, hname] at hanswer
  have hgiven : (reached (before ++ [r])).lookup? name = some id := by
    rw [reached_concat, serve_table, hname, ← hanswer]
    exact lookup?_intern (reached before) name
  rw [List.append_cons] at h ⊢
  exact lookup?_reached_append h hgiven

theorem exists_gives {requests : List SymbolRequest} {name : String} (h : name ∈ internedNames requests) :
    ∃ id, Gives requests name id := by
  obtain ⟨r, hr, hname⟩ := List.mem_filterMap.mp h
  obtain ⟨before, later, hsplit⟩ := List.append_of_mem hr
  exact ⟨_, before, r, later, hsplit, hname, by rw [serve_id?, hname]; rfl⟩

theorem gives_id_eq_iff {requests : List SymbolRequest} {name name' : String} {id id' : UInt32}
    (h : (internedNames requests).eraseDups.length ≤ UInt32.size) (hgives : Gives requests name id)
    (hgives' : Gives requests name' id') : id = id' ↔ name = name' := by
  have hid := lookup?_of_gives h hgives
  have hid' := lookup?_of_gives h hgives'
  constructor
  · rintro rfl
    rw [(orders_reached _ h).lookup?_iff_nameOf] at hid hid'
    exact Except.ok.inj (hid.symm.trans hid')
  · rintro rfl
    exact Option.some.inj (hid.symm.trans hid')

/-- What is found at some time of a run are the names that were interned until then, under the numbers that stand for
them at the end. -/
theorem lookup?_reached_iff {before later : List SymbolRequest} {name : String} {id : UInt32}
    (h : (internedNames (before ++ later)).eraseDups.length ≤ UInt32.size) :
    (reached before).lookup? name = some id ↔
      name ∈ internedNames before ∧ (reached (before ++ later)).nameOf id = .ok name := by
  rw [← (orders_reached _ h).lookup?_iff_nameOf]
  constructor
  · intro hid
    have hmem := List.mem_of_getElem? ((orders_reached before (fits_of_append h)).lookup?_iff.mp hid)
    exact ⟨List.mem_eraseDups.mp hmem, lookup?_reached_append h hid⟩
  · rintro ⟨hmem, hid⟩
    obtain ⟨id', hgives⟩ := exists_gives hmem
    have hid' := lookup?_of_gives (fits_of_append h) hgives
    rw [hid', ← hid, lookup?_reached_append h hid']

/-- After every run in which at most 2^32 different names are interned, the map and the array of the table are
inverse to each other, and the numbers are the places of the names in order of first interning. Each interning gives
the one number that stands for the name, different names get different numbers, and at any time a name is found if
and only if it was interned before. Only interning changes the table, and what the table says of a name or a number
at any time holds for the rest of the run. -/
theorem table_bijective (requests : List SymbolRequest)
    (h : (internedNames requests).eraseDups.length ≤ UInt32.size) :
    let t := reached requests
    (∀ name id, t.ids.find? name = some id ↔ t.names[id.toNat]? = some name) ∧
    t.names.toList = (internedNames requests).eraseDups ∧
    (∀ id, (∃ name, t.lookup? name = some id) ↔ id.toNat < t.size) ∧
    (∀ name ∈ internedNames requests, ∃ id, Gives requests name id) ∧
    (∀ name id, Gives requests name id → t.nameOf id = .ok name ∧ t.lookup? name = some id) ∧
    (∀ name id name' id', Gives requests name id → Gives requests name' id' → (id = id' ↔ name = name')) ∧
    (∀ before later, requests = before ++ later → ∀ name id,
      (reached before).lookup? name = some id ↔ name ∈ internedNames before ∧ t.nameOf id = .ok name) ∧
    (∀ before r later, requests = before ++ r :: later → r.name? = none → reached (before ++ [r]) = reached before) ∧
    (∀ before later, requests = before ++ later → ∀ name id,
      ((reached before).lookup? name = some id → t.lookup? name = some id) ∧
        ((reached before).nameOf id = .ok name → t.nameOf id = .ok name)) := by
  intro t
  have ht : t.Orders (internedNames requests).eraseDups := orders_reached requests h
  refine ⟨fun name id => ?_, ht.names_eq, ht.exists_lookup?_iff, fun name => exists_gives, fun name id hgives => ?_,
    fun name id name' id' => gives_id_eq_iff h, fun before later hsplit name id => ?_, fun before r later _ hr => ?_,
    fun before later hsplit name id => ?_⟩
  · rw [ht.find?_ids, ← ht.names_eq, Array.getElem?_toList]
  · have hid := lookup?_of_gives h hgives
    exact ⟨ht.lookup?_iff_nameOf.mp hid, hid⟩
  · subst hsplit
    exact lookup?_reached_iff h
  · rw [reached_concat, serve_table, hr]
    rfl
  · subst hsplit
    exact ⟨lookup?_reached_append h, nameOf_reached_append h⟩

/-- A run in which a name is looked up before it is interned for a zone, another one is interned twice, and a number
is asked for that was not given out. -/
def mixedRequests : List SymbolRequest :=
  [.lookup "b", .intern "a", .internIn ⟨[0]⟩ "b", .nameOf 7, .intern "a"]

theorem table_bijective_mixed :
    (internedNames mixedRequests).eraseDups.length ≤ UInt32.size ∧
      (reached mixedRequests).names.toList = ["a", "b"] ∧
      Gives mixedRequests "b" 1 ∧ (reached mixedRequests).nameOf 1 = .ok "b" ∧
      (reached mixedRequests).lookup? "b" = some 1 := by
  have hfits : (internedNames mixedRequests).eraseDups.length ≤ UInt32.size := by decide
  have hgives : Gives mixedRequests "b" 1 :=
    ⟨[.lookup "b", .intern "a"], .internIn ⟨[0]⟩ "b", [.nameOf 7, .intern "a"], rfl, rfl, rfl⟩
  obtain ⟨-, hnames, -, -, hgiven, -⟩ := table_bijective mixedRequests hfits
  exact ⟨hfits, hnames, hgives, hgiven "b" 1 hgives⟩

end SymbolTable

end ScriptCore
