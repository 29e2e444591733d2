import ScriptCore.Serial.Registry

/-!
# Types of a host

Record types for points, labels and wrappers, a type without any abilities of its own, types that are
declared with methods of a few fixed behaviours, and the families under which records are registered.
-/
namespace ScriptCore.Host

/-! ## Records -/

/-- The family of the records below. -/
def geometryFamily : UInt16 := 0x0010

/-- Two coordinates. -/
def pointType : HostType where
  name := "Point"
  record := some ⟨⟨geometryFamily, 0⟩, [.item .i64, .item .i64]⟩

/-- A text. -/
def labelType : HostType where
  name := "Label"
  record := some ⟨⟨geometryFamily, 1⟩, [.item .text]⟩

/-- Any value. -/
def wrapType : HostType where
  name := "Wrap"
  record := some ⟨⟨geometryFamily, 2⟩, [.value]⟩

/-- A new point. -/
def point (x y : Int64) : Atom :=
  .host ⟨pointType, [.item (.i64 x), .item (.i64 y)]⟩

/-- A new label. -/
def label (s : String) : Atom :=
  .host ⟨labelType, [.item (.text s)]⟩

/-- A new wrapper around a value. -/
def wrap (v : Value) : Atom :=
  .host ⟨wrapType, [.value v]⟩

/-- An object with no abilities of its own. -/
def inert : Atom :=
  .host ⟨{ name := "Inert" }, []⟩

/-! ## Declared types -/

/-- What a method of a declared type does. -/
inductive Behaviour where
  /-- Gives nil. -/
  | nil
  /-- Gives the receiver. -/
  | self
  /-- Gives the number of arguments. -/
  | argc
  /-- Gives the name of the receiver's type. -/
  | type
  /-- Gives the list of the arguments. -/
  | list
  /-- Fails. -/
  | fail
  /-- Evaluates the first argument. -/
  | eval
  deriving DecidableEq, Repr

/-- The native code of a behaviour. -/
def Behaviour.run (b : Behaviour) (receiver : Ref) (arguments : List Value) : Program :=
  match b with
  | .nil => .done none
  | .self => .done (some receiver)
  | .argc => .integer (Int64.ofNat arguments.length)
  | .type => .view (some receiver) fun v => .text v.typeName
  | .list => .list arguments .done
  | .fail => .fail (.type (.native "method failed"))
  | .eval =>
    match arguments with
    | [] => .done none
    | form :: _ => .eval form .finish

/-- A method of a declared type. -/
def Behaviour.method (b : Behaviour) (name : String) (arity : Arity) : Method :=
  ⟨name, arity, .native b.run⟩

/-- An object of a declared type. -/
def declared (table : MethodTable) : Atom :=
  .host ⟨{ name := table.layer.typeName, table }, []⟩

/-! ## Families -/

/-- The members of the geometry family. -/
def geometryDecoder : Decoder
  | 0 => some (.atom (point 0 0))
  | 1 => some (.atom (label ""))
  | 2 => some (.atom (wrap none))
  | _ => none

/-- The geometry family, and families whose decoders know no member, give objects of another family, and give
objects that are not serializable. -/
def families : List (UInt16 × Decoder) :=
  [(geometryFamily, geometryDecoder),
   (0x7e01, fun _ => none),
   (0x7e02, fun _ => some (.atom (.datum (.integer 0)))),
   (0x7e03, fun _ => some (.atom inert))]

/-- The core family and the families of the host. -/
def registry : Registry :=
  Registry.core.offerAll families

end ScriptCore.Host
