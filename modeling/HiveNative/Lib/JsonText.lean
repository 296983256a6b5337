import Mathlib

/-!
# JSON texts

Values whose numbers are integers, the text that `JSON.stringify` writes for them, and the
reader of `JSON.parse`.  Texts are sequences of UTF-16 code units, and so are strings.

A text is read in one pass by two machines.  The lexer takes one code unit at a time and
gives out tokens.  The reader takes one token at a time; its state is what it waits for and
the stack of the arrays and objects that are still open.

In any state that waits for a value, the tokens of a value are read as that value
(`feed_tokens`), and the lexer gives out the tokens that were written (`lex_tokens`).  So a
text that was written is read as the value it was written for (`parse_stringify`).  It is
well-formed UTF-16 also where a string holds half of a surrogate pair
(`wellFormed_stringify`).
-/

namespace JsonText

/-- UTF-16 code units. -/
abbrev Text := List UInt16

/-- The code units of an ASCII literal. -/
def units (s : String) : Text := s.toList.map fun c => UInt16.ofNat c.toNat

/-! ## Values and tokens -/

inductive Atom where
  | null
  | bool (b : Bool)
  | number (n : ℤ)
  | string (s : Text)
deriving Repr, DecidableEq

inductive Value where
  | atom (a : Atom)
  | array (elements : List Value)
  /-- The members in the order of the text. -/
  | object (members : List (Text × Value))

abbrev Member := Text × Value

inductive Mark where
  | openArray
  | closeArray
  | openObject
  | closeObject
  | comma
  | colon
deriving Repr, DecidableEq

inductive Token where
  | mark (m : Mark)
  | atom (a : Atom)
deriving Repr, DecidableEq

mutual

/-- The tokens of a value. -/
def Value.tokens : Value → List Token
  | .atom a => [.atom a]
  | .array elements => .mark .openArray :: elementTokens elements
  | .object members => .mark .openObject :: memberTokens members

/-- The tokens of the elements, with the closing bracket. -/
def elementTokens : List Value → List Token
  | [] => [.mark .closeArray]
  | v :: vs => v.tokens ++ moreElementTokens vs

def moreElementTokens : List Value → List Token
  | [] => [.mark .closeArray]
  | v :: vs => .mark .comma :: (v.tokens ++ moreElementTokens vs)

/-- The tokens of the members, with the closing brace. -/
def memberTokens : List (Text × Value) → List Token
  | [] => [.mark .closeObject]
  | (key, v) :: ms =>
      .atom (.string key) :: .mark .colon :: (v.tokens ++ moreMemberTokens ms)

def moreMemberTokens : List (Text × Value) → List Token
  | [] => [.mark .closeObject]
  | (key, v) :: ms =>
      .mark .comma :: .atom (.string key) :: .mark .colon :: (v.tokens ++ moreMemberTokens ms)

end

/-! ## Writing -/

def leads (c : UInt16) : Bool := 0xD800 ≤ c && c ≤ 0xDBFF

def trails (c : UInt16) : Bool := 0xDC00 ≤ c && c ≤ 0xDFFF

/-- The units that have an escape of one letter, with the letter. -/
def shortEscapes : List (UInt16 × UInt16) :=
  [(8, 98), (9, 116), (10, 110), (12, 102), (13, 114), (34, 34), (92, 92)]

def hexDigit (n : ℕ) : UInt16 := UInt16.ofNat (if n < 10 then 48 + n else 87 + n)

/-- `\uXXXX`. -/
def unicodeEscape (c : UInt16) : Text :=
  [92, 117, hexDigit (c.toNat / 16 / 16 / 16), hexDigit (c.toNat / 16 / 16 % 16),
    hexDigit (c.toNat / 16 % 16), hexDigit (c.toNat % 16)]

/-- A unit of a string, given whether it is the half of a surrogate pair. -/
def quoteUnit (paired : Bool) (c : UInt16) : Text :=
  match shortEscapes.find? fun p => p.1 = c with
  | some (_, letter) => [92, letter]
  | none => if c < 32 ∨ (leads c || trails c) ∧ ¬ paired then unicodeEscape c else [c]

/-- The units of a string after one that leads a pair or does not. -/
def quoteUnits (afterLead : Bool) : Text → Text
  | [] => []
  | c :: rest =>
      quoteUnit (if trails c then afterLead else rest.head?.any trails) c ++
        quoteUnits (leads c) rest

/-- `QuoteJSONString`. -/
def quote (s : Text) : Text := 34 :: (quoteUnits false s ++ [34])

def decimal (n : ℕ) : Text :=
  if n = 0 then [48] else (Nat.digits 10 n).reverse.map fun d => UInt16.ofNat (48 + d)

def Atom.text : Atom → Text
  | null => units "null"
  | bool b => units (if b then "true" else "false")
  | number n => if n < 0 then 45 :: decimal n.natAbs else decimal n.natAbs
  | string s => quote s

def Mark.unit : Mark → UInt16
  | openArray => 91
  | closeArray => 93
  | openObject => 123
  | closeObject => 125
  | comma => 44
  | colon => 58

def Token.text : Token → Text
  | mark m => [m.unit]
  | atom a => a.text

/-- `JSON.stringify`, without blanks. -/
def stringify (v : Value) : Text := v.tokens.flatMap Token.text

/-! ## The lexer -/

inductive LexState where
  | idle
  /-- In a string, of which `s` has been read. -/
  | inString (s : Text)
  /-- After a backslash. -/
  | escape (s : Text)
  /-- In a `\uXXXX`, with one digit and `left` more to come. -/
  | hex (s : Text) (left n : ℕ)
  | minus
  | number (negative : Bool) (n : ℕ)
  /-- In a word that stands for an atom. -/
  | word (next : UInt16) (rest : Text) (a : Atom)
deriving Repr, DecidableEq

def blank (c : UInt16) : Bool := c = 32 || c = 9 || c = 10 || c = 13

def isDigit (c : UInt16) : Bool := 48 ≤ c && c ≤ 57

def digitValue (c : UInt16) : ℕ := c.toNat - 48

def hexValue? (c : UInt16) : Option ℕ :=
  if isDigit c then some (c.toNat - 48)
  else if 97 ≤ c ∧ c ≤ 102 then some (c.toNat - 87)
  else if 65 ≤ c ∧ c ≤ 70 then some (c.toNat - 55)
  else none

/-- The unit that a letter after a backslash stands for.  A slash may be escaped too. -/
def unescape? (letter : UInt16) : Option UInt16 :=
  (((47, 47) :: shortEscapes).find? fun p => p.2 = letter).map Prod.fst

def Mark.ofUnit? (c : UInt16) : Option Mark :=
  [openArray, closeArray, openObject, closeObject, comma, colon].find? fun m => m.unit = c

def signed (negative : Bool) (n : ℕ) : ℤ := if negative then -n else n

namespace LexState

/-- The step between two tokens. -/
def start (c : UInt16) : Option (List Token × LexState) :=
  match Mark.ofUnit? c with
  | some m => some ([.mark m], idle)
  | none =>
      if blank c then some ([], idle)
      else if c = 34 then some ([], inString [])
      else if c = 45 then some ([], minus)
      else if isDigit c then some ([], number false (digitValue c))
      else if c = 110 then some ([], word 117 (units "ll") .null)
      else if c = 116 then some ([], word 114 (units "ue") (.bool true))
      else if c = 102 then some ([], word 97 (units "lse") (.bool false))
      else none

/-- One unit: the tokens that it completes, and the state after it.  A number ends where it
does not go on, and no digit comes after a leading zero. -/
def step : LexState → UInt16 → Option (List Token × LexState)
  | idle, c => start c
  | inString s, c =>
      if c = 34 then some ([.atom (.string s)], idle)
      else if c = 92 then some ([], escape s)
      else if c < 32 then none
      else some ([], inString (s ++ [c]))
  | escape s, c =>
      if c = 117 then some ([], hex s 3 0)
      else (unescape? c).map fun d => ([], inString (s ++ [d]))
  | hex s left n, c =>
      (hexValue? c).map fun d =>
        match left with
        | 0 => ([], inString (s ++ [UInt16.ofNat (16 * n + d)]))
        | left + 1 => ([], hex s left (16 * n + d))
  | minus, c => if isDigit c then some ([], number true (digitValue c)) else none
  | number negative n, c =>
      if isDigit c then
        if n = 0 then none else some ([], number negative (10 * n + digitValue c))
      else (start c).map fun r => (.atom (.number (signed negative n)) :: r.1, r.2)
  | word next rest a, c =>
      if c = next then
        match rest with
        | [] => some ([.atom a], idle)
        | next :: rest => some ([], word next rest a)
      else none

/-- What the end of the text completes. -/
def finish : LexState → Option (List Token)
  | idle => some []
  | number negative n => some [.atom (.number (signed negative n))]
  | _ => none

end LexState

def lex : LexState → Text → Option (List Token)
  | st, [] => st.finish
  | st, c :: rest => do
      let (read, st) ← st.step c
      let more ← lex st rest
      return read ++ more

/-! ## The reader -/

/-- An array or an object that waits for a value. -/
inductive Frame where
  | element (before : List Value)
  | member (before : List Member) (key : Text)

/-- What the reader waits for. -/
inductive ReadState where
  | value (stack : List Frame)
  | firstElement (stack : List Frame)
  | afterElement (elements : List Value) (stack : List Frame)
  | firstKey (stack : List Frame)
  | key (members : List Member) (stack : List Frame)
  | colon (members : List Member) (key : Text) (stack : List Frame)
  | afterMember (members : List Member) (stack : List Frame)
  /-- Nothing any more. -/
  | finished (v : Value)

namespace ReadState

/-- A value is complete. -/
def shift (v : Value) : List Frame → ReadState
  | [] => finished v
  | .element before :: stack => afterElement (before ++ [v]) stack
  | .member before name :: stack => afterMember (before ++ [(name, v)]) stack

def stepValue (stack : List Frame) : Token → Option ReadState
  | .atom a => some (shift (.atom a) stack)
  | .mark .openArray => some (firstElement stack)
  | .mark .openObject => some (firstKey stack)
  | _ => none

def step : ReadState → Token → Option ReadState
  | value stack, t => stepValue stack t
  | firstElement stack, .mark .closeArray => some (shift (.array []) stack)
  | firstElement stack, t => stepValue (.element [] :: stack) t
  | afterElement elements stack, .mark .comma => some (value (.element elements :: stack))
  | afterElement elements stack, .mark .closeArray => some (shift (.array elements) stack)
  | firstKey stack, .mark .closeObject => some (shift (.object []) stack)
  | firstKey stack, .atom (.string s) => some (colon [] s stack)
  | key members stack, .atom (.string s) => some (colon members s stack)
  | colon members s stack, .mark .colon => some (value (.member members s :: stack))
  | afterMember members stack, .mark .comma => some (key members stack)
  | afterMember members stack, .mark .closeObject => some (shift (.object members) stack)
  | _, _ => none

def result? : ReadState → Option Value
  | finished v => some v
  | _ => none

end ReadState

def feed (st : ReadState) (tokens : List Token) : Option ReadState :=
  tokens.foldlM ReadState.step st

/-- `JSON.parse`. -/
def parse (text : Text) : Option Value := do
  let tokens ← lex .idle text
  let st ← feed (.value []) tokens
  st.result?

/-! ## The reader reads the tokens of a value -/

section Reader

open ReadState (shift)

/-- Where the first element of an array may stand, the tokens of a value begin one. -/
theorem feed_firstElement (v : Value) (stack : List Frame) (rest : List Token) :
    feed (.firstElement stack) (v.tokens ++ rest) =
      feed (.value (.element [] :: stack)) (v.tokens ++ rest) := by
  cases v with
  | atom a => rfl
  | array elements => rfl
  | object members => rfl

mutual

theorem feed_tokens (v : Value) (stack : List Frame) (rest : List Token) :
    feed (.value stack) (v.tokens ++ rest) = feed (shift v stack) rest := by
  cases v with
  | atom a => rfl
  | array elements => exact feed_elementTokens elements stack rest
  | object members => exact feed_memberTokens members stack rest

theorem feed_elementTokens (vs : List Value) (stack : List Frame) (rest : List Token) :
    feed (.firstElement stack) (elementTokens vs ++ rest) =
      feed (shift (.array vs) stack) rest := by
  cases vs with
  | nil => rfl
  | cons v vs =>
      rw [elementTokens, List.append_assoc, feed_firstElement, feed_tokens v]
      exact feed_moreElementTokens vs [v] stack rest

theorem feed_moreElementTokens (vs before : List Value) (stack : List Frame)
    (rest : List Token) :
    feed (.afterElement before stack) (moreElementTokens vs ++ rest) =
      feed (shift (.array (before ++ vs)) stack) rest := by
  cases vs with
  | nil =>
      rw [List.append_nil]
      rfl
  | cons v vs =>
      have hnext : feed (.afterElement before stack) (moreElementTokens (v :: vs) ++ rest) =
          feed (.value (.element before :: stack))
            (v.tokens ++ (moreElementTokens vs ++ rest)) := by
        rw [moreElementTokens, List.cons_append, List.append_assoc]
        rfl
      rw [hnext, feed_tokens v]
      refine (feed_moreElementTokens vs (before ++ [v]) stack rest).trans ?_
      rw [List.append_assoc, List.singleton_append]

theorem feed_memberTokens (ms : List Member) (stack : List Frame) (rest : List Token) :
    feed (.firstKey stack) (memberTokens ms ++ rest) = feed (shift (.object ms) stack) rest := by
  cases ms with
  | nil => rfl
  | cons m ms =>
      obtain ⟨name, v⟩ := m
      have hnext : feed (.firstKey stack) (memberTokens ((name, v) :: ms) ++ rest) =
          feed (.value (.member [] name :: stack))
            (v.tokens ++ (moreMemberTokens ms ++ rest)) := by
        rw [memberTokens, List.cons_append, List.cons_append, List.append_assoc]
        rfl
      rw [hnext, feed_tokens v]
      exact feed_moreMemberTokens ms [(name, v)] stack rest

theorem feed_moreMemberTokens (ms before : List Member) (stack : List Frame)
    (rest : List Token) :
    feed (.afterMember before stack) (moreMemberTokens ms ++ rest) =
      feed (shift (.object (before ++ ms)) stack) rest := by
  cases ms with
  | nil =>
      rw [List.append_nil]
      rfl
  | cons m ms =>
      obtain ⟨name, v⟩ := m
      have hnext : feed (.afterMember before stack) (moreMemberTokens ((name, v) :: ms) ++ rest) =
          feed (.value (.member before name :: stack))
            (v.tokens ++ (moreMemberTokens ms ++ rest)) := by
        rw [moreMemberTokens, List.cons_append, List.cons_append, List.cons_append,
          List.append_assoc]
        rfl
      rw [hnext, feed_tokens v]
      refine (feed_moreMemberTokens ms (before ++ [(name, v)]) stack rest).trans ?_
      rw [List.append_assoc, List.singleton_append]

end

end Reader

/-! ## The lexer gives out the tokens that were written -/

section Lexer

variable {st st' : LexState} {c : UInt16} {rest : Text} {read ts us : List Token}

theorem lex_cons (h : st.step c = some (read, st')) (rest : Text) :
    lex st (c :: rest) = (lex st' rest).map (read ++ ·) := by
  rw [lex, h, Option.map_eq_bind]
  rfl

/-- A unit that completes no token. -/
theorem lex_within (h : st.step c = some ([], st')) (rest : Text) :
    lex st (c :: rest) = lex st' rest := by
  rw [lex_cons h]
  exact Option.map_id'

/-! ### Strings -/

theorem hexValue_hexDigit : ∀ n < 16, hexValue? (hexDigit n) = some n := by decide +kernel

theorem unescape_short : ∀ p ∈ shortEscapes, unescape? p.2 = some p.1 ∧ p.2 ≠ 117 := by
  simp [shortEscapes, unescape?]

/-- The units without a short escape are neither quotation mark nor backslash. -/
theorem not_special (h : shortEscapes.find? (fun p => p.1 = c) = none) : c ≠ 34 ∧ c ≠ 92 := by
  have hall : ∀ p ∈ shortEscapes, p.1 ≠ c := by simpa using List.find?_eq_none.mp h
  exact ⟨(hall (34, 34) (by decide)).symm, (hall (92, 92) (by decide)).symm⟩

theorem step_hex {n left : ℕ} (s : Text) (d : ℕ) (h : d < 16) :
    (LexState.hex s (left + 1) n).step (hexDigit d) =
      some ([], .hex s left (16 * n + d)) := by
  rw [LexState.step, hexValue_hexDigit d h]
  rfl

theorem lex_unicodeEscape (s : Text) (c : UInt16) (rest : Text) :
    lex (.inString s) (unicodeEscape c ++ rest) = lex (.inString (s ++ [c])) rest := by
  have hc : c.toNat < 65536 := c.toNat_lt
  have hlast : (LexState.hex s 0 (16 * (16 * (16 * 0 + c.toNat / 16 / 16 / 16) +
      c.toNat / 16 / 16 % 16) + c.toNat / 16 % 16)).step (hexDigit (c.toNat % 16)) =
      some ([], .inString (s ++ [c])) := by
    have hsum : 16 * (16 * (16 * (16 * 0 + c.toNat / 16 / 16 / 16) + c.toNat / 16 / 16 % 16) +
        c.toNat / 16 % 16) + c.toNat % 16 = c.toNat := by omega
    rw [LexState.step, hexValue_hexDigit _ (by omega)]
    simp only [Option.map_some, hsum, UInt16.ofNat_toNat]
  have hbackslash : (LexState.inString s).step 92 = some ([], .escape s) := rfl
  have hu : (LexState.escape s).step 117 = some ([], .hex s 3 0) := rfl
  rw [unicodeEscape, List.cons_append, List.cons_append, List.cons_append, List.cons_append,
    List.cons_append, List.cons_append, List.nil_append, lex_within hbackslash, lex_within hu,
    lex_within (step_hex s _ (by omega)), lex_within (step_hex s _ (by omega)),
    lex_within (step_hex s _ (by omega)), lex_within hlast]

/-- A unit is read back however it was written. -/
theorem lex_quoteUnit (s : Text) (paired : Bool) (c : UInt16) (rest : Text) :
    lex (.inString s) (quoteUnit paired c ++ rest) = lex (.inString (s ++ [c])) rest := by
  unfold quoteUnit
  split
  · next u letter h =>
      have hu : u = c := by simpa using List.find?_some h
      obtain ⟨hletter, hne⟩ := unescape_short _ (List.mem_of_find?_eq_some h)
      have hbackslash : (LexState.inString s).step 92 = some ([], .escape s) := rfl
      have hstep : (LexState.escape s).step letter = some ([], .inString (s ++ [c])) := by
        rw [LexState.step, if_neg hne, hletter, ← hu]
        rfl
      rw [List.cons_append, List.cons_append, List.nil_append, lex_within hbackslash,
        lex_within hstep]
  · next h =>
      split
      · exact lex_unicodeEscape s c rest
      · next hplain =>
          obtain ⟨hquote, hbackslash⟩ := not_special h
          have hstep : (LexState.inString s).step c = some ([], .inString (s ++ [c])) := by
            rw [LexState.step, if_neg hquote, if_neg hbackslash,
              if_neg fun hlt => hplain (.inl hlt)]
          rw [List.singleton_append, lex_within hstep]

theorem lex_quoteUnits (s t : Text) (afterLead : Bool) (rest : Text) :
    lex (.inString s) (quoteUnits afterLead t ++ 34 :: rest) =
      (lex .idle rest).map (.atom (.string (s ++ t)) :: ·) := by
  induction t generalizing s afterLead with
  | nil =>
      have hstep : (LexState.inString s).step 34 = some ([.atom (.string s)], .idle) := rfl
      rw [List.append_nil]
      exact lex_cons hstep rest
  | cons c t ih =>
      rw [quoteUnits, List.append_assoc, lex_quoteUnit, ih, List.append_assoc,
        List.singleton_append]

/-! ### Numbers -/

/-- The text ends, or goes on with a mark. -/
def Closed (rest : Text) : Prop := ∀ c ∈ rest.head?, ∃ m : Mark, c = m.unit

theorem closed_mark (m : Mark) (rest : Text) : Closed (m.unit :: rest) := by
  intro c hc
  cases hc
  exact ⟨m, rfl⟩

theorem start_mark (m : Mark) : LexState.start m.unit = some ([.mark m], .idle) := by
  cases m <;> rfl

theorem isDigit_mark (m : Mark) : isDigit m.unit = false := by
  cases m <;> rfl

theorem lex_number (negative : Bool) (n : ℕ) (h : Closed rest) :
    lex (.number negative n) rest =
      (lex .idle rest).map (.atom (.number (signed negative n)) :: ·) := by
  cases rest with
  | nil => rfl
  | cons c rest =>
      obtain ⟨m, rfl⟩ := h c rfl
      have hstep : (LexState.number negative n).step m.unit =
          some ([.atom (.number (signed negative n)), .mark m], .idle) := by
        rw [LexState.step, isDigit_mark, if_neg Bool.false_ne_true, start_mark]
        rfl
      have hidle : LexState.idle.step m.unit = some ([.mark m], .idle) := start_mark m
      rw [lex_cons hstep, lex_cons hidle, Option.map_map]
      rfl

theorem digit_unit : ∀ d < 10, isDigit (UInt16.ofNat (48 + d)) = true ∧
    digitValue (UInt16.ofNat (48 + d)) = d := by decide

theorem lex_moreDigits {negative : Bool} {n : ℕ} (ds : List ℕ) (hds : ∀ d ∈ ds, d < 10)
    (hn : n ≠ 0) (rest : Text) :
    lex (.number negative n) (ds.map (fun d => UInt16.ofNat (48 + d)) ++ rest) =
      lex (.number negative (ds.foldl (fun n d => 10 * n + d) n)) rest := by
  induction ds generalizing n with
  | nil => rfl
  | cons d ds ih =>
      obtain ⟨hd, hds⟩ := List.forall_mem_cons.mp hds
      obtain ⟨hdigit, hvalue⟩ := digit_unit d hd
      have hstep : (LexState.number negative n).step (UInt16.ofNat (48 + d)) =
          some ([], .number negative (10 * n + d)) := by
        rw [LexState.step, if_pos hdigit, if_neg hn, hvalue]
      rw [List.map_cons, List.cons_append, lex_within hstep, ih hds (by omega), List.foldl_cons]

theorem foldl_reverse_digits (n : ℕ) :
    (Nat.digits 10 n).reverse.foldl (fun n d => 10 * n + d) 0 = n := by
  rw [List.foldl_reverse]
  calc (Nat.digits 10 n).foldr (fun d n => 10 * n + d) 0
      = Nat.ofDigits 10 (Nat.digits 10 n) := by
        rw [Nat.ofDigits_eq_foldr]
        exact congrArg (fun f => (Nat.digits 10 n).foldr f 0)
          (funext fun d => funext fun n => Nat.add_comm (10 * n) d)
    _ = n := Nat.ofDigits_digits 10 n

/-- Where a number may begin, its digits are read as it. -/
theorem lex_decimal {negative : Bool}
    (hfirst : ∀ d < 10, st.step (UInt16.ofNat (48 + d)) = some ([], .number negative d))
    (n : ℕ) (rest : Text) : lex st (decimal n ++ rest) = lex (.number negative n) rest := by
  unfold decimal
  split
  · next h =>
      subst h
      exact lex_within (hfirst 0 (by decide)) rest
  · next h =>
      have hvalue := foldl_reverse_digits n
      have hlt : ∀ d ∈ (Nat.digits 10 n).reverse, d < 10 := fun d hd =>
        Nat.digits_lt_base (by decide) (List.mem_reverse.mp hd)
      have hhead : ∀ d ∈ (Nat.digits 10 n).reverse.head?, d ≠ 0 := by
        intro d hd
        rw [List.head?_reverse] at hd
        rw [← List.getLast_of_mem_getLast? hd]
        exact Nat.getLast_digit_ne_zero 10 h
      cases hds : (Nat.digits 10 n).reverse with
      | nil => exact absurd (List.reverse_eq_nil_iff.mp hds) (Nat.digits_ne_nil_iff_ne_zero.mpr h)
      | cons d ds =>
          rw [hds] at hvalue hlt hhead
          obtain ⟨hd, hds⟩ := List.forall_mem_cons.mp hlt
          rw [List.map_cons, List.cons_append, lex_within (hfirst d hd),
            lex_moreDigits ds hds (hhead d rfl)]
          rw [List.foldl_cons, Nat.mul_zero, Nat.zero_add] at hvalue
          rw [hvalue]

/-! ### Tokens -/

theorem lex_word (next : UInt16) (word : Text) (a : Atom) (rest : Text) :
    lex (.word next word a) (next :: (word ++ rest)) = (lex .idle rest).map (.atom a :: ·) := by
  induction word generalizing next with
  | nil =>
      have hstep : (LexState.word next [] a).step next = some ([.atom a], .idle) := if_pos rfl
      exact lex_cons hstep rest
  | cons c word ih =>
      have hstep : (LexState.word next (c :: word) a).step next = some ([], .word c word a) :=
        if_pos rfl
      rw [lex_within hstep]
      exact ih c

theorem idle_digit : ∀ d < 10,
    LexState.idle.step (UInt16.ofNat (48 + d)) = some ([], .number false d) := by decide +kernel

theorem minus_digit : ∀ d < 10,
    LexState.minus.step (UInt16.ofNat (48 + d)) = some ([], .number true d) := by decide +kernel

theorem lex_atom (a : Atom) (h : Closed rest) :
    lex .idle (a.text ++ rest) = (lex .idle rest).map (.atom a :: ·) := by
  cases a with
  | null =>
      have hstep : LexState.idle.step 110 = some ([], .word 117 (units "ll") .null) := rfl
      exact (lex_within hstep _).trans (lex_word 117 (units "ll") .null rest)
  | bool b =>
      cases b with
      | true =>
          have hstep : LexState.idle.step 116 = some ([], .word 114 (units "ue") (.bool true)) :=
            rfl
          exact (lex_within hstep _).trans (lex_word 114 (units "ue") (.bool true) rest)
      | false =>
          have hstep :
              LexState.idle.step 102 = some ([], .word 97 (units "lse") (.bool false)) := rfl
          exact (lex_within hstep _).trans (lex_word 97 (units "lse") (.bool false) rest)
  | number n =>
      rw [Atom.text]
      split
      · next hneg =>
          have hstep : LexState.idle.step 45 = some ([], .minus) := rfl
          have hvalue : signed true n.natAbs = n := by
            rw [signed, if_pos rfl]
            omega
          rw [List.cons_append, lex_within hstep, lex_decimal minus_digit, lex_number _ _ h, hvalue]
      · next hnonneg =>
          have hvalue : signed false n.natAbs = n := by
            rw [signed, if_neg Bool.false_ne_true]
            omega
          rw [lex_decimal idle_digit, lex_number _ _ h, hvalue]
  | string s =>
      have hstep : LexState.idle.step 34 = some ([], .inString []) := rfl
      rw [Atom.text, quote, List.cons_append, lex_within hstep, List.append_assoc,
        List.singleton_append, lex_quoteUnits, List.nil_append]

/-- Where the text ends or goes on with a mark, the lexer gives out the tokens whose texts
it was given. -/
def Lexes (ts : List Token) : Prop :=
  ∀ rest, Closed rest →
    lex .idle (ts.flatMap Token.text ++ rest) = (lex .idle rest).map (ts ++ ·)

theorem lexes_atom (a : Atom) : Lexes [.atom a] := by
  intro rest h
  rw [List.flatMap_singleton]
  exact lex_atom a h

theorem Lexes.mark (h : Lexes ts) (m : Mark) : Lexes (.mark m :: ts) := by
  intro rest hrest
  have hstep : LexState.idle.step m.unit = some ([.mark m], .idle) := start_mark m
  show lex .idle (m.unit :: (ts.flatMap Token.text ++ rest)) = _
  rw [lex_cons hstep, h rest hrest, Option.map_map]
  rfl

/-- Nothing but a mark comes after an atom. -/
theorem Lexes.append (h : Lexes ts) (h' : Lexes us) (hus : ∃ m more, us = .mark m :: more) :
    Lexes (ts ++ us) := by
  intro rest hrest
  obtain ⟨m, more, rfl⟩ := hus
  have hclosed : Closed ((Token.mark m :: more).flatMap Token.text ++ rest) := closed_mark m _
  rw [List.flatMap_append, List.append_assoc, h _ hclosed, h' rest hrest, Option.map_map]
  congr 1
  funext after
  exact (List.append_assoc ts (.mark m :: more) after).symm

theorem Lexes.atom {m : Mark} (h : Lexes (.mark m :: ts)) (a : Atom) :
    Lexes (.atom a :: .mark m :: ts) := (lexes_atom a).append h ⟨m, ts, rfl⟩

theorem lexes_mark (m : Mark) : Lexes [.mark m] := by
  have hnil : Lexes [] := by
    intro rest hrest
    exact Option.map_id'.symm
  exact hnil.mark m

theorem moreElementTokens_head (vs : List Value) :
    ∃ m more, moreElementTokens vs = .mark m :: more := by
  cases vs with
  | nil => exact ⟨_, _, rfl⟩
  | cons v vs => exact ⟨_, _, rfl⟩

theorem moreMemberTokens_head (ms : List Member) :
    ∃ m more, moreMemberTokens ms = .mark m :: more := by
  cases ms with
  | nil => exact ⟨_, _, rfl⟩
  | cons m ms => exact ⟨_, _, rfl⟩

mutual

theorem lex_tokens (v : Value) : Lexes v.tokens := by
  cases v with
  | atom a => exact lexes_atom a
  | array elements => exact (lex_elementTokens elements).mark .openArray
  | object members => exact (lex_memberTokens members).mark .openObject

theorem lex_elementTokens (vs : List Value) : Lexes (elementTokens vs) := by
  cases vs with
  | nil => exact lexes_mark .closeArray
  | cons v vs =>
      exact (lex_tokens v).append (lex_moreElementTokens vs) (moreElementTokens_head vs)

theorem lex_moreElementTokens (vs : List Value) : Lexes (moreElementTokens vs) := by
  cases vs with
  | nil => exact lexes_mark .closeArray
  | cons v vs =>
      exact ((lex_tokens v).append (lex_moreElementTokens vs)
        (moreElementTokens_head vs)).mark .comma

theorem lex_memberTokens (ms : List Member) : Lexes (memberTokens ms) := by
  cases ms with
  | nil => exact lexes_mark .closeObject
  | cons m ms =>
      obtain ⟨name, v⟩ := m
      have hvalue := (lex_tokens v).append (lex_moreMemberTokens ms) (moreMemberTokens_head ms)
      exact (hvalue.mark .colon).atom (.string name)

theorem lex_moreMemberTokens (ms : List Member) : Lexes (moreMemberTokens ms) := by
  cases ms with
  | nil => exact lexes_mark .closeObject
  | cons m ms =>
      obtain ⟨name, v⟩ := m
      have hvalue := (lex_tokens v).append (lex_moreMemberTokens ms) (moreMemberTokens_head ms)
      exact ((hvalue.mark .colon).atom (.string name)).mark .comma

end

end Lexer

/-! ## What is written is well-formed UTF-16 -/

section WellFormed

variable {c : UInt16} {rest : Text}

/-- Each lead is followed by a trail, and each trail follows a lead. -/
def wellFormedAfter (lead : Bool) : Text → Bool
  | [] => !lead
  | c :: rest => if trails c then lead && wellFormedAfter false rest
      else !lead && wellFormedAfter (leads c) rest

def WellFormed (t : Text) : Prop := wellFormedAfter false t = true

/-- A unit that is no half of a pair. -/
def Lone (c : UInt16) : Prop := leads c = false ∧ trails c = false

theorem wellFormed_lone (h : Lone c) (rest : Text) :
    wellFormedAfter false (c :: rest) = wellFormedAfter false rest := by
  rw [wellFormedAfter, h.1, h.2]
  rfl

theorem lone_of_lt (h : c < 0xD800) : Lone c := by
  unfold Lone leads trails
  simp only [Bool.and_eq_false_iff, decide_eq_false_iff_not, UInt16.not_le]
  exact ⟨.inl h, .inl (UInt16.lt_trans h (by decide))⟩

/-- All units are below the surrogates. -/
def Below (t : Text) : Prop := ∀ c ∈ t, c < 0xD800

instance : DecidablePred Below := fun t => List.decidableBAll (· < 0xD800) t

theorem wellFormed_below {t : Text} (h : Below t) (rest : Text) :
    wellFormedAfter false (t ++ rest) = wellFormedAfter false rest := by
  induction t with
  | nil => rfl
  | cons c t ih =>
      obtain ⟨hc, ht⟩ := List.forall_mem_cons.mp h
      rw [List.cons_append, wellFormed_lone (lone_of_lt hc), ih ht]

theorem hexDigit_lt : ∀ n < 16, hexDigit n < 0xD800 := by decide +kernel

theorem below_unicodeEscape (c : UInt16) : Below (unicodeEscape c) := by
  have hc : c.toNat < 65536 := c.toNat_lt
  intro d hd
  simp only [unicodeEscape, List.mem_cons, List.not_mem_nil, or_false] at hd
  obtain rfl | rfl | rfl | rfl | rfl | rfl := hd
  · exact UInt16.lt_iff_toNat_lt.mpr (by decide)
  · exact UInt16.lt_iff_toNat_lt.mpr (by decide)
  · exact hexDigit_lt _ (by omega)
  · exact hexDigit_lt _ (by omega)
  · exact hexDigit_lt _ (by omega)
  · exact hexDigit_lt _ (by omega)

theorem below_decimal (n : ℕ) : Below (decimal n) := by
  have hdigit : ∀ d < 10, UInt16.ofNat (48 + d) < 0xD800 := by decide +kernel
  unfold decimal
  split
  · decide +kernel
  · intro c hc
    obtain ⟨d, hd, rfl⟩ := List.mem_map.mp hc
    exact hdigit d (Nat.digits_lt_base (by decide) (List.mem_reverse.mp hd))

/-! ### Units of a string -/

theorem below_shortEscapes : ∀ p ∈ shortEscapes, p.1 < 0xD800 ∧ p.2 < 0xD800 := by
  simp [shortEscapes]

theorem leads_of_trails (h : trails c = true) : leads c = false := by
  unfold trails at h
  unfold leads
  simp only [Bool.and_eq_true, decide_eq_true_eq] at h
  simp only [Bool.and_eq_false_iff, decide_eq_false_iff_not, UInt16.not_le]
  exact .inr (UInt16.lt_of_lt_of_le (by decide) h.1)

/-- A surrogate has no short escape and is no control character. -/
theorem quoteUnit_surrogate (paired : Bool) (h : ¬ c < 0xD800) (hpair : ¬ Lone c) :
    quoteUnit paired c = if paired then [c] else unicodeEscape c := by
  have hfind : shortEscapes.find? (fun p => p.1 = c) = none := by
    rw [List.find?_eq_none]
    intro p hp
    rw [decide_eq_true_eq]
    intro heq
    exact h (heq ▸ (below_shortEscapes p hp).1)
  have hcontrol : ¬ c < 32 := fun hlt => h (UInt16.lt_trans hlt (by decide))
  have hsurrogate : (leads c || trails c) = true := by
    rw [← Bool.not_eq_false, Bool.or_eq_false_iff]
    exact hpair
  rw [quoteUnit, hfind]
  cases paired with
  | true => rw [if_neg (by simp [hcontrol]), if_pos rfl]
  | false => rw [if_pos (.inr ⟨hsurrogate, Bool.false_ne_true⟩), if_neg Bool.false_ne_true]

theorem wellFormed_quoteUnit_lone (paired : Bool) (h : Lone c) (rest : Text) :
    wellFormedAfter false (quoteUnit paired c ++ rest) = wellFormedAfter false rest := by
  unfold quoteUnit
  split
  · next u letter hfind =>
      have hletter := (below_shortEscapes _ (List.mem_of_find?_eq_some hfind)).2
      refine wellFormed_below (t := [92, letter]) ?_ rest
      intro d hd
      simp only [List.mem_cons, List.not_mem_nil, or_false] at hd
      obtain rfl | rfl := hd
      · decide
      · exact hletter
  · split
    · exact wellFormed_below (below_unicodeEscape c) rest
    · exact wellFormed_lone h rest

theorem not_lt_of_not_lone (h : ¬ Lone c) : ¬ c < 0xD800 := fun hlt => h (lone_of_lt hlt)

/-- A lead is left as it is only before a trail, a trail only after a lead. -/
theorem wellFormed_quoteUnits (afterLead : Bool) (s rest : Text) :
    wellFormedAfter (afterLead && s.head?.any trails) (quoteUnits afterLead s ++ 34 :: rest) =
      wellFormedAfter false rest := by
  induction s generalizing afterLead with
  | nil =>
      rw [List.head?_nil, Option.any_none, Bool.and_false]
      exact wellFormed_lone (lone_of_lt (by decide)) rest
  | cons c s ih =>
      rw [List.head?_cons, Option.any_some, quoteUnits, List.append_assoc]
      by_cases hlone : Lone c
      · have hnext := ih false
        rw [Bool.false_and] at hnext
        rw [hlone.1, hlone.2, Bool.and_false, wellFormed_quoteUnit_lone _ hlone, hnext]
      · rw [quoteUnit_surrogate _ (not_lt_of_not_lone hlone) hlone]
        have hescape : ∀ text, wellFormedAfter false (unicodeEscape c ++ text) =
            wellFormedAfter false text := fun text => wellFormed_below (below_unicodeEscape c) text
        cases htrail : trails c with
        | true =>
            have hnext := ih false
            rw [Bool.false_and] at hnext
            rw [leads_of_trails htrail, if_pos rfl, Bool.and_true]
            cases afterLead with
            | true =>
                rw [if_pos rfl, List.singleton_append, wellFormedAfter, htrail, if_pos rfl, hnext,
                  Bool.true_and]
            | false => rw [if_neg Bool.false_ne_true, hescape, hnext]
        | false =>
            have hlead : leads c = true := by
              rw [← Bool.not_eq_false]
              exact fun hlead => hlone ⟨hlead, htrail⟩
            have hnext := ih true
            rw [Bool.true_and] at hnext
            rw [hlead, if_neg Bool.false_ne_true, Bool.and_false]
            cases hpair : s.head?.any trails with
            | true =>
                rw [hpair] at hnext
                rw [if_pos rfl, List.singleton_append, wellFormedAfter, htrail, hlead,
                  if_neg Bool.false_ne_true, hnext]
                rfl
            | false =>
                rw [hpair] at hnext
                rw [if_neg Bool.false_ne_true, hescape, hnext]

theorem wellFormed_atom (a : Atom) (rest : Text) :
    wellFormedAfter false (a.text ++ rest) = wellFormedAfter false rest := by
  cases a with
  | null => exact wellFormed_below (by decide +kernel) rest
  | bool b =>
      cases b with
      | true => exact wellFormed_below (t := units "true") (by decide +kernel) rest
      | false => exact wellFormed_below (t := units "false") (by decide +kernel) rest
  | number n =>
      rw [Atom.text]
      split
      · exact (wellFormed_lone (lone_of_lt (by decide)) _).trans
          (wellFormed_below (below_decimal n.natAbs) rest)
      · exact wellFormed_below (below_decimal n.natAbs) rest
  | string s =>
      have hquote := wellFormed_quoteUnits false s rest
      rw [Bool.false_and] at hquote
      rw [Atom.text, quote, List.cons_append, List.append_assoc, List.singleton_append,
        wellFormed_lone (lone_of_lt (by decide)), hquote]

/-- Whatever its strings hold, a written text can be sent in any Unicode encoding. -/
theorem wellFormed_stringify (v : Value) : WellFormed (stringify v) := by
  have hall : ∀ (ts : List Token) (rest : Text),
      wellFormedAfter false (ts.flatMap Token.text ++ rest) = wellFormedAfter false rest := by
    intro ts rest
    induction ts with
    | nil => rfl
    | cons t ts ih =>
        rw [List.flatMap_cons, List.append_assoc]
        cases t with
        | mark m =>
            have hm : Lone m.unit := by cases m <;> exact lone_of_lt (by decide)
            exact (wellFormed_lone hm _).trans ih
        | atom a => exact (wellFormed_atom a _).trans ih
  have h := hall v.tokens []
  rw [List.append_nil] at h
  exact h

end WellFormed

/-! ## What is written is read -/

theorem parse_stringify (v : Value) : parse (stringify v) = some v := by
  have hend : Closed [] := by
    intro c hc
    cases hc
  have hlex : lex .idle (stringify v) = some v.tokens := by
    have h := lex_tokens v [] hend
    rw [List.append_nil] at h
    rw [stringify, h]
    exact congrArg some (List.append_nil v.tokens)
  have hfeed : feed (.value []) v.tokens = some (.finished v) := by
    have h := feed_tokens v [] []
    rw [List.append_nil] at h
    exact h
  rw [parse, hlex]
  simp only [Option.bind_eq_bind, Option.bind_some, hfeed]
  rfl

end JsonText
