import Mathlib

/-!
# Flat JSON objects

Texts of a JSON object whose members are numbers, strings or truth values, as
lists of bytes.

`render` writes such an object without blanks and without escapes.  `parse` reads
one: a string ends at the next quotation mark, and a backslash or a control
character in it is refused.  What is rendered from strings without these
characters is parsed back (`parse_render`).
-/

namespace FlatJson

abbrev Text := List UInt8

inductive Value where
  | number (n : ℕ)
  | string (s : Text)
  | bool (b : Bool)
deriving Repr, DecidableEq

abbrev Member := Text × Value

/-! ## Writing -/

def digits (n : ℕ) : Text := (Nat.toDigits 10 n).map fun c => UInt8.ofNat c.toNat

/-- `true` and `false`. -/
def boolText (b : Bool) : Text := if b then [116, 114, 117, 101] else [102, 97, 108, 115, 101]

def renderValue : Value → Text
  | .number n => digits n
  | .string s => 34 :: s ++ [34]
  | .bool b => boolText b

def renderMember (m : Member) : Text := 34 :: m.1 ++ [34, 58] ++ renderValue m.2

/-- The members with commas between them, and the closing brace. -/
def renderTail (members : List Member) : Text :=
  ((members.map renderMember).intersperse [44]).flatten ++ [125]

def render (members : List Member) : Text := 123 :: renderTail members

/-! ## Reading -/

/-- The rest of the text after a literal. -/
def expect (literal input : Text) : Option Text :=
  if literal <+: input then some (input.drop literal.length) else none

/-- The characters a string may hold: no quotation mark, no backslash, no control
character. -/
def plainChar (c : UInt8) : Bool := c != 34 && c != 92 && 32 ≤ c

/-- A string up to its closing quotation mark. -/
def readString : Text → Option (Text × Text)
  | [] => none
  | c :: rest =>
      if c = 34 then some ([], rest)
      else if plainChar c then (readString rest).map fun p => (c :: p.1, p.2)
      else none

def digitChar (c : UInt8) : Bool := 48 ≤ c && c ≤ 57

def readNumber (input : Text) : Option (ℕ × Text) :=
  let ds := input.takeWhile digitChar
  if ds.isEmpty then none
  else some (ds.foldl (fun n c => 10 * n + (c.toNat - 48)) 0, input.dropWhile digitChar)

def readValue (input : Text) : Option (Value × Text) :=
  match expect [34] input, expect (boolText true) input, expect (boolText false) input with
  | some rest, _, _ => (readString rest).map fun p => (.string p.1, p.2)
  | none, some rest, _ => some (.bool true, rest)
  | none, none, some rest => some (.bool false, rest)
  | none, none, none => (readNumber input).map fun p => (.number p.1, p.2)

def readMember (input : Text) : Option (Member × Text) := do
  let rest ← expect [34] input
  let (key, rest) ← readString rest
  let rest ← expect [58] rest
  let (value, rest) ← readValue rest
  return ((key, value), rest)

/-- One member and those after it.  The fuel bounds their number. -/
def readMembers : ℕ → Text → Option (List Member)
  | 0, _ => none
  | fuel + 1, input => do
      let (m, rest) ← readMember input
      if rest = [125] then return [m]
      let rest ← expect [44] rest
      let members ← readMembers fuel rest
      return m :: members

def parse (input : Text) : Option (List Member) := do
  let rest ← expect [123] input
  if rest = [125] then return []
  readMembers rest.length rest

/-! ## What is written is read back -/

/-- The string can stand between quotation marks as it is. -/
def Plain (s : Text) : Prop := ∀ c ∈ s, plainChar c = true

instance : DecidablePred Plain := fun s => inferInstanceAs (Decidable (∀ c ∈ s, _))

/-- The key and the value of a member are plain. -/
structure PlainMember (m : Member) : Prop where
  key : Plain m.1
  value : ∀ s, m.2 = .string s → Plain s

@[simp] theorem expect_append (literal rest : Text) :
    expect literal (literal ++ rest) = some rest := by
  unfold expect
  rw [if_pos (List.prefix_append literal rest), List.drop_left]

theorem expect_ne {c d : UInt8} {literal rest : Text} (h : c ≠ d) :
    expect (c :: literal) (d :: rest) = none := by
  unfold expect
  rw [if_neg]
  intro hpre
  exact h (List.cons_prefix_cons.mp hpre).1

theorem readString_append {s : Text} (h : Plain s) (rest : Text) :
    readString (s ++ 34 :: rest) = some (s, rest) := by
  induction s with
  | nil => rfl
  | cons c s ih =>
      obtain ⟨hc, hs⟩ := List.forall_mem_cons.mp h
      have hne : c ≠ 34 := by
        intro heq
        subst heq
        exact absurd hc (by decide)
      rw [List.cons_append, readString, if_neg hne, if_pos hc, ih hs]
      rfl

/-! ### Numbers -/

theorem digit_toNat {n : ℕ} {c : Char} (h : c ∈ Nat.toDigits 10 n) :
    (UInt8.ofNat c.toNat).toNat = c.toNat ∧ 48 ≤ c.toNat ∧ c.toNat ≤ 57 := by
  have hdigit := Nat.isDigit_of_mem_toDigits (by decide) (by decide) h
  have hrange : 48 ≤ c.toNat ∧ c.toNat ≤ 57 := Char.isDigit_iff_toNat.mp hdigit
  refine ⟨?_, hrange⟩
  rw [UInt8.toNat_ofNat', Nat.mod_eq_of_lt (by omega)]

theorem digitChar_digits {n : ℕ} {d : UInt8} (h : d ∈ digits n) : digitChar d = true := by
  obtain ⟨c, hc, rfl⟩ := List.mem_map.mp h
  obtain ⟨hval, hrange⟩ := digit_toNat hc
  simp only [digitChar, Bool.and_eq_true, decide_eq_true_eq, UInt8.le_iff_toNat_le, hval]
  exact hrange

theorem digits_ne_nil (n : ℕ) : digits n ≠ [] := by
  unfold digits
  rw [Ne, List.map_eq_nil_iff]
  exact Nat.toDigits_ne_nil

theorem digits_value (n : ℕ) :
    (digits n).foldl (fun n c => 10 * n + (c.toNat - 48)) 0 = n := by
  have hfold : (digits n).foldl (fun n c => 10 * n + (c.toNat - 48)) 0 =
      (Nat.toDigits 10 n).foldl (fun sofar c => 10 * sofar + (c.toNat - '0'.toNat)) 0 := by
    unfold digits
    rw [List.foldl_map]
    refine List.foldl_ext _ _ 0 fun sofar c hc => ?_
    rw [(digit_toNat hc).1]
    rfl
  rw [hfold, ← Nat.ofDigitChars_eq_foldl, Nat.ofDigitChars_ten_toDigits]

/-- The text does not go on with a digit. -/
def EndsNumber (rest : Text) : Prop := ∀ c ∈ rest.head?, digitChar c = false

theorem endsNumber_cons {c : UInt8} (h : digitChar c = false) (rest : Text) :
    EndsNumber (c :: rest) := by
  intro d hd
  cases hd
  exact h

theorem readNumber_append (n : ℕ) {rest : Text} (h : EndsNumber rest) :
    readNumber (digits n ++ rest) = some (n, rest) := by
  have hdigits : ∀ d ∈ digits n, digitChar d = true := fun d hd => digitChar_digits hd
  have hstop : rest.takeWhile digitChar = [] ∧ rest.dropWhile digitChar = rest := by
    cases rest with
    | nil => exact ⟨rfl, rfl⟩
    | cons c rest =>
        have hc := h c rfl
        rw [List.takeWhile_cons, List.dropWhile_cons, hc]
        exact ⟨rfl, rfl⟩
  unfold readNumber
  rw [List.takeWhile_append_of_pos hdigits, List.dropWhile_append_of_pos hdigits, hstop.1, hstop.2,
    List.append_nil]
  simp only [List.isEmpty_iff, digits_ne_nil, if_false, digits_value]

/-! ### Members -/

/-- A text that starts with a digit starts no string and no truth value. -/
theorem readValue_digits (n : ℕ) {rest : Text} (h : EndsNumber rest) :
    readValue (digits n ++ rest) = some (.number n, rest) := by
  obtain ⟨d, ds, hd⟩ := List.exists_cons_of_ne_nil (digits_ne_nil n)
  have hdigit : digitChar d = true := digitChar_digits (hd ▸ List.mem_cons_self)
  have hnone : ∀ {c : UInt8} {literal : Text}, digitChar c = false →
      expect (c :: literal) (digits n ++ rest) = none := by
    intro c literal hc
    rw [hd, List.cons_append]
    refine expect_ne fun heq => ?_
    rw [heq, hdigit] at hc
    cases hc
  unfold readValue
  rw [hnone (by decide), boolText, boolText, if_pos rfl, if_neg (by decide), hnone (by decide),
    hnone (by decide), readNumber_append n h]
  rfl

theorem readValue_append {v : Value} (hv : ∀ s, v = .string s → Plain s) {rest : Text}
    (h : EndsNumber rest) : readValue (renderValue v ++ rest) = some (v, rest) := by
  cases v with
  | number n => exact readValue_digits n h
  | string s =>
      have htext : renderValue (.string s) ++ rest = [34] ++ (s ++ 34 :: rest) := by
        simp [renderValue]
      unfold readValue
      rw [htext, expect_append]
      simp only [readString_append (hv s rfl), Option.map_some]
  | bool b =>
      cases b with
      | true =>
          unfold readValue
          rw [renderValue, expect_append, boolText, if_pos rfl, List.cons_append,
            expect_ne (by decide)]
      | false =>
          unfold readValue
          rw [renderValue, expect_append, boolText, boolText, if_pos rfl, if_neg (by decide),
            List.cons_append, expect_ne (by decide), expect_ne (by decide)]

theorem readMember_append {m : Member} (hm : PlainMember m) {rest : Text} (h : EndsNumber rest) :
    readMember (renderMember m ++ rest) = some (m, rest) := by
  have htext : renderMember m ++ rest =
      [34] ++ (m.1 ++ 34 :: ([58] ++ (renderValue m.2 ++ rest))) := by
    simp [renderMember]
  unfold readMember
  rw [htext, expect_append]
  simp only [Option.bind_eq_bind, Option.bind_some, readString_append hm.key, expect_append,
    readValue_append hm.value h]
  rfl

theorem renderTail_singleton (m : Member) : renderTail [m] = renderMember m ++ [125] := by
  simp [renderTail]

theorem renderTail_cons (m n : Member) (members : List Member) :
    renderTail (m :: n :: members) = renderMember m ++ ([44] ++ renderTail (n :: members)) := by
  simp [renderTail]

theorem length_renderTail (members : List Member) :
    members.length ≤ (renderTail members).length := by
  induction members with
  | nil => exact Nat.zero_le _
  | cons m members ih =>
      cases members with
      | nil =>
          rw [renderTail_singleton]
          simp
      | cons n members =>
          rw [renderTail_cons]
          simp only [List.length_cons, List.length_append, List.length_nil] at ih ⊢
          omega

theorem readMembers_renderTail {members : List Member} (hne : members ≠ [])
    (h : ∀ m ∈ members, PlainMember m) {fuel : ℕ} (hfuel : members.length ≤ fuel) :
    readMembers fuel (renderTail members) = some members := by
  induction members generalizing fuel with
  | nil => exact absurd rfl hne
  | cons m members ih =>
      obtain ⟨hm, hmembers⟩ := List.forall_mem_cons.mp h
      cases fuel with
      | zero => simp at hfuel
      | succ fuel =>
          cases members with
          | nil =>
              rw [renderTail_singleton, readMembers,
                readMember_append hm (endsNumber_cons (by decide) [])]
              rfl
          | cons n members =>
              have hfuel' : (n :: members).length ≤ fuel := Nat.le_of_succ_le_succ hfuel
              have hcomma : [44] ++ renderTail (n :: members) ≠ [125] := by simp
              have hends : EndsNumber ([44] ++ renderTail (n :: members)) :=
                endsNumber_cons (by decide) _
              rw [renderTail_cons, readMembers, readMember_append hm hends]
              simp only [Option.bind_eq_bind, Option.bind_some, if_neg hcomma, expect_append,
                ih (List.cons_ne_nil n members) hmembers hfuel']
              rfl

theorem renderTail_ne {m : Member} {members : List Member} : renderTail (m :: members) ≠ [125] := by
  cases members with
  | nil =>
      rw [renderTail_singleton]
      simp [renderMember]
  | cons n members =>
      rw [renderTail_cons]
      simp [renderMember]

/-- A rendered object is parsed back. -/
theorem parse_render {members : List Member} (h : ∀ m ∈ members, PlainMember m) :
    parse (render members) = some members := by
  have hopen : render members = [123] ++ renderTail members := rfl
  unfold parse
  rw [hopen, expect_append]
  cases members with
  | nil => rfl
  | cons m members =>
      simp only [Option.bind_eq_bind, Option.bind_some, if_neg renderTail_ne]
      exact readMembers_renderTail (List.cons_ne_nil m members) h (length_renderTail _)

end FlatJson
