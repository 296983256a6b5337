import HiveNative.Lib.JsonText

/-!
# Records in JSON

How the values of a type are written as JSON and read back.  A `Codec` writes a value, a
`Record` the members of an object; both carry the proof that what they write they read.  A
record is put together field by field (`Record.field`), under names that differ.

Of two members with one name the last one counts, so a record is read from an object
whatever members stand before its own.
-/

namespace JsonText

universe u v

variable {α : Type u} {β : Type v}

/-! ## Looking up a member -/

/-- What is read under a name. -/
def lookup (name : Text) : List Member → Option Value
  | [] => none
  | (key, v) :: ms => (lookup name ms).or (if key = name then some v else none)

theorem lookup_append (name : Text) (ms more : List Member) :
    lookup name (ms ++ more) = (lookup name more).or (lookup name ms) := by
  induction ms with
  | nil => exact Option.or_none.symm
  | cons m ms ih => rw [List.cons_append, lookup, lookup, ih, Option.or_assoc]

theorem lookup_absent {name : Text} {ms : List Member} (h : name ∉ ms.map Prod.fst) :
    lookup name ms = none := by
  induction ms with
  | nil => rfl
  | cons m ms ih =>
      rw [List.map_cons, List.mem_cons, not_or] at h
      rw [lookup, ih h.2, if_neg (Ne.symm h.1)]
      rfl

/-! ## Codecs -/

structure Codec (α : Type u) where
  encode : α → Value
  decode : Value → Option α
  decode_encode (a : α) : decode (encode a) = some a

namespace Codec

def string : Codec Text where
  encode s := .atom (.string s)
  decode
    | .atom (.string s) => some s
    | _ => none
  decode_encode _ := rfl

def bool : Codec Bool where
  encode b := .atom (.bool b)
  decode
    | .atom (.bool b) => some b
    | _ => none
  decode_encode _ := rfl

def number : Codec ℤ where
  encode n := .atom (.number n)
  decode
    | .atom (.number n) => some n
    | _ => none
  decode_encode _ := rfl

/-- The values with a property. -/
def guarded (c : Codec α) (p : α → Prop) [DecidablePred p] : Codec { a // p a } where
  encode a := c.encode a.val
  decode v := (c.decode v).bind fun a => if h : p a then some ⟨a, h⟩ else none
  decode_encode a := by
    rw [c.decode_encode, Option.bind_some, dif_pos a.property]

theorem mapM_decode (c : Codec α) (xs : List α) : (xs.map c.encode).mapM c.decode = some xs := by
  induction xs with
  | nil => rfl
  | cons x xs ih =>
      rw [List.map_cons, List.mapM_cons, c.decode_encode, ih]
      rfl

def array (c : Codec α) : Codec (List α) where
  encode xs := .array (xs.map c.encode)
  decode
    | .array vs => vs.mapM c.decode
    | _ => none
  decode_encode xs := c.mapM_decode xs

/-- An array of two. -/
def pair (c : Codec α) (d : Codec β) : Codec (α × β) where
  encode p := .array [c.encode p.1, d.encode p.2]
  decode
    | .array [v, w] => (c.decode v).bind fun a => (d.decode w).map fun b => (a, b)
    | _ => none
  decode_encode p := by
    simp only [c.decode_encode, d.decode_encode, Option.bind_some, Option.map_some]

def map (c : Codec β) (build : β → α) (parts : α → β) (h : ∀ a, build (parts a) = a) :
    Codec α where
  encode a := c.encode (parts a)
  decode v := (c.decode v).map build
  decode_encode a := by rw [c.decode_encode, Option.map_some, h]

variable (c : Codec α)

def write (a : α) : Text := stringify (c.encode a)

def read (t : Text) : Option α := (parse t).bind c.decode

/-- What is written as a text is read from it. -/
theorem read_write (a : α) : c.read (c.write a) = some a := by
  rw [read, write, parse_stringify, Option.bind_some, c.decode_encode]

end Codec

/-! ## Records -/

structure Record (α : Type u) where
  names : List Text
  write : α → List Member
  read : List Member → Option α
  names_write (a : α) : (write a).map Prod.fst = names
  read_write (a : α) (before : List Member) : read (before ++ write a) = some a

namespace Record

def empty : Record Unit where
  names := []
  write _ := []
  read _ := some ()
  names_write _ := rfl
  read_write _ _ := rfl

theorem lookup_field (name : Text) (v : Value) (r : Record β) (h : name ∉ r.names) (b : β)
    (before : List Member) : lookup name (before ++ (name, v) :: r.write b) = some v := by
  rw [lookup_append, lookup, lookup_absent (r.names_write b ▸ h), if_pos rfl]
  rfl

/-- One more member in front. -/
def field (name : Text) (c : Codec α) (r : Record β) (h : name ∉ r.names := by decide) :
    Record (α × β) where
  names := name :: r.names
  write p := (name, c.encode p.1) :: r.write p.2
  read ms := (lookup name ms).bind fun v => (c.decode v).bind fun a => (r.read ms).map fun b =>
    (a, b)
  names_write p := by rw [List.map_cons, r.names_write]
  read_write p before := by
    have hrest : r.read (before ++ (name, c.encode p.1) :: r.write p.2) = some p.2 := by
      have h := r.read_write p.2 (before ++ [(name, c.encode p.1)])
      rwa [List.append_assoc, List.singleton_append] at h
    rw [lookup_field name (c.encode p.1) r h p.2 before, Option.bind_some, c.decode_encode,
      Option.bind_some, hrest, Option.map_some]

def map (r : Record β) (build : β → α) (parts : α → β) (h : ∀ a, build (parts a) = a) :
    Record α where
  names := r.names
  write a := r.write (parts a)
  read ms := (r.read ms).map build
  names_write a := r.names_write (parts a)
  read_write a before := by rw [r.read_write, Option.map_some, h]

def codec (r : Record α) : Codec α where
  encode a := .object (r.write a)
  decode
    | .object ms => r.read ms
    | _ => none
  decode_encode a := r.read_write a []

end Record

end JsonText
