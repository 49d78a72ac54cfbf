/-
JSON values, the text `json.dumps(v, indent=2)` writes for them and the reading
of it by `json.loads`.

Text is a list of characters.  The writer escapes every character outside
printable ASCII, so its output does not depend on an encoding; the reader is the
whole grammar Python's decoder accepts, with `none` for a decode error.

* `Json.scanString_escape` — a written string literal is read back;
* `Json.parseValue_render` — a rendered value is read back whatever follows it,
  provided that cannot be mistaken for more digits;
* `Json.loads_render` — reading undoes writing, for values whose objects have no
  key twice and whose fractional numbers are spelled as the grammar spells them.

A lone surrogate escape, which Python keeps as it is, is read as `U+FFFD`: a Lean
character is a Unicode scalar value.
-/
import Mathlib.Tactic.Common
import Mathlib.Tactic.IntervalCases
import Mathlib.Data.List.Basic
import Mathlib.Data.List.Nodup

/-- A JSON value.  A number with a fraction or an exponent, and the constants
`NaN`, `Infinity` and `-Infinity`, are kept as the text they were read from. -/
inductive Json
  | null
  | bool (b : Bool)
  | int (n : Int)
  | float (text : String)
  | str (s : String)
  | arr (xs : List Json)
  | obj (kvs : List (String × Json))

namespace Json

/-! ### String literals -/

/-- The four hexadecimal digits of a 16-bit code unit, lower case. -/
def hex4 (n : ℕ) : List Char :=
  [Nat.digitChar (n / 4096 % 16), Nat.digitChar (n / 256 % 16), Nat.digitChar (n / 16 % 16),
    Nat.digitChar (n % 16)]

/-- `\uXXXX` for a 16-bit code unit. -/
def uEscape (n : ℕ) : List Char := '\\' :: 'u' :: hex4 n

/-- How the writer spells one character (`ensure_ascii`): short escapes first, then
printable ASCII as it is, then `\uXXXX`, as a surrogate pair beyond `U+FFFF`. -/
def escapeChar (c : Char) : List Char :=
  if c = '"' then ['\\', '"']
  else if c = '\\' then ['\\', '\\']
  else if c = '\n' then ['\\', 'n']
  else if c = '\r' then ['\\', 'r']
  else if c = '\t' then ['\\', 't']
  else if c.toNat = 12 then ['\\', 'f']
  else if c.toNat = 8 then ['\\', 'b']
  else if 32 ≤ c.toNat ∧ c.toNat ≤ 126 then [c]
  else if c.toNat < 0x10000 then uEscape c.toNat
  else uEscape (0xd800 + (c.toNat - 0x10000) / 1024) ++
    uEscape (0xdc00 + (c.toNat - 0x10000) % 1024)

/-- A string literal with its quotes. -/
def renderStr (s : String) : List Char :=
  '"' :: s.toList.flatMap escapeChar ++ ['"']

/-- The value of a hexadecimal digit of either case. -/
def hexVal (c : Char) : Option ℕ :=
  if '0' ≤ c ∧ c ≤ '9' then some (c.toNat - 48)
  else if 'a' ≤ c ∧ c ≤ 'f' then some (c.toNat - 87)
  else if 'A' ≤ c ∧ c ≤ 'F' then some (c.toNat - 55)
  else none

/-- The code unit spelled by four hexadecimal digits. -/
def hexVal4 (a b c d : Char) : Option ℕ := do
  let a ← hexVal a
  let b ← hexVal b
  let c ← hexVal c
  let d ← hexVal d
  return a * 4096 + b * 256 + c * 16 + d

/-- The character of a code point; a surrogate has none. -/
def charOf (n : ℕ) : Char :=
  if h : n.isValidChar then Char.ofNatAux n h else Char.ofNat 0xfffd

/-- Four hexadecimal digits at the head of the text, as a code unit. -/
def scanHex4 : List Char → Option (ℕ × List Char)
  | a :: b :: c :: d :: rest => (hexVal4 a b c d).map fun n => (n, rest)
  | _ => none

/-- The character of a `\u` escape, read after the `u`: a high surrogate takes the
escape that follows with it when that is a low one. -/
def scanUnicode (cs : List Char) : Option (Char × List Char) := do
  let (hi, rest) ← scanHex4 cs
  if 0xd800 ≤ hi ∧ hi ≤ 0xdbff then
    match rest with
    | '\\' :: 'u' :: rest₁ =>
      let (lo, rest₂) ← scanHex4 rest₁
      if 0xdc00 ≤ lo ∧ lo ≤ 0xdfff then
        some (charOf (0x10000 + (hi - 0xd800) * 1024 + (lo - 0xdc00)), rest₂)
      else some (charOf hi, rest)
    | _ => some (charOf hi, rest)
  else some (charOf hi, rest)

/-- The one-letter escapes. -/
def shortEscape : Char → Option Char
  | '"' => some '"'
  | '\\' => some '\\'
  | '/' => some '/'
  | 'b' => some (Char.ofNat 8)
  | 'f' => some (Char.ofNat 12)
  | 'n' => some '\n'
  | 'r' => some '\r'
  | 't' => some '\t'
  | _ => none

/-- Read one character of a string literal.  Control characters must be escaped
(`strict=True`). -/
def scanChar : List Char → Option (Char × List Char)
  | '\\' :: 'u' :: rest => scanUnicode rest
  | '\\' :: c :: rest => (shortEscape c).map fun c => (c, rest)
  | '\\' :: [] => none
  | c :: rest => if c.toNat < 32 then none else some (c, rest)
  | [] => none

/-- Read a string literal after its opening quote: its characters and the text
after the closing quote. -/
def scanString : ℕ → List Char → Option (List Char × List Char)
  | 0, _ => none
  | _ + 1, '"' :: rest => some ([], rest)
  | fuel + 1, cs => do
    let (c, rest) ← scanChar cs
    let (s, rest) ← scanString fuel rest
    some (c :: s, rest)

theorem hexVal_digitChar {n : ℕ} (h : n < 16) : hexVal (Nat.digitChar n) = some n := by
  interval_cases n <;> rfl

theorem scanHex4_hex4 {n : ℕ} (h : n < 0x10000) (rest : List Char) :
    scanHex4 (hex4 n ++ rest) = some (n, rest) := by
  have hd : ∀ m, hexVal (Nat.digitChar (m % 16)) = some (m % 16) := fun m =>
    hexVal_digitChar (Nat.mod_lt m (by decide))
  have hsum : n / 4096 % 16 * 4096 + n / 256 % 16 * 256 + n / 16 % 16 * 16 + n % 16 = n := by
    omega
  simp [hex4, scanHex4, hexVal4, hd, hsum]

theorem charOf_toNat (c : Char) : charOf c.toNat = c := by
  have h : c.toNat.isValidChar := c.valid
  rw [charOf, dif_pos h]
  exact Char.ext rfl

/-- A high and a low surrogate together spell one character. -/
theorem scanUnicode_surrogates {hi lo : ℕ} (h₁ : 0xd800 ≤ hi ∧ hi ≤ 0xdbff)
    (h₂ : 0xdc00 ≤ lo ∧ lo ≤ 0xdfff) (rest : List Char) :
    scanUnicode (hex4 hi ++ (uEscape lo ++ rest)) =
      some (charOf (0x10000 + (hi - 0xd800) * 1024 + (lo - 0xdc00)), rest) := by
  have hhi : hi < 0x10000 := by omega
  have hlo : lo < 0x10000 := by omega
  rw [scanUnicode, scanHex4_hex4 hhi]
  simp only [Option.bind_eq_bind, Option.bind_some, uEscape, List.cons_append, if_pos h₁,
    scanHex4_hex4 hlo, if_pos h₂]

/-- A character beyond the basic plane comes back from its surrogate pair. -/
theorem scanUnicode_pair {c : Char} (h : 0x10000 ≤ c.toNat) (rest : List Char) :
    scanUnicode (hex4 (0xd800 + (c.toNat - 0x10000) / 1024) ++
      (uEscape (0xdc00 + (c.toNat - 0x10000) % 1024) ++ rest)) = some (c, rest) := by
  have hc : c.toNat < 0xd800 ∨ 0xdfff < c.toNat ∧ c.toNat < 0x110000 := c.valid
  have hval : 0x10000 + (0xd800 + (c.toNat - 0x10000) / 1024 - 0xd800) * 1024 +
      (0xdc00 + (c.toNat - 0x10000) % 1024 - 0xdc00) = c.toNat := by omega
  rw [scanUnicode_surrogates (by omega) (by omega), hval, charOf_toNat]

/-- A character of the basic plane comes back from its escape. -/
theorem scanUnicode_single {c : Char} (h : c.toNat < 0x10000) (rest : List Char) :
    scanUnicode (hex4 c.toNat ++ rest) = some (c, rest) := by
  have hns : ¬(0xd800 ≤ c.toNat ∧ c.toNat ≤ 0xdbff) := by
    have hv : c.toNat < 0xd800 ∨ 0xdfff < c.toNat ∧ c.toNat < 0x110000 := c.valid
    omega
  rw [scanUnicode, scanHex4_hex4 h]
  simp [hns, charOf_toNat]

/-- Reading a character undoes writing it. -/
theorem scanChar_escapeChar (c : Char) (rest : List Char) :
    scanChar (escapeChar c ++ rest) = some (c, rest) := by
  have eq_of_toNat : ∀ n, c.toNat = n → c = charOf n := fun n h => by
    rw [← h, charOf_toNat]
  unfold escapeChar
  split_ifs with h₁ h₂ h₃ h₄ h₅ h₆ h₇ h₈ h₉
  · subst h₁; rfl
  · subst h₂; rfl
  · subst h₃; rfl
  · subst h₄; rfl
  · subst h₅; rfl
  · rw [eq_of_toNat _ h₆]; rfl
  · rw [eq_of_toNat _ h₇]; rfl
  · simp [scanChar, h₂, Nat.not_lt.mpr h₈.1]
  · exact scanUnicode_single h₉ rest
  · rw [List.append_assoc]
    exact scanUnicode_pair (Nat.le_of_not_lt h₉) rest

theorem escapeChar_ne_nil (c : Char) : escapeChar c ≠ [] := by
  unfold escapeChar
  split_ifs <;> simp [uEscape]

theorem escapeChar_head (c : Char) (rest : List Char) :
    ∀ cs, escapeChar c ++ rest ≠ '"' :: cs := by
  intro cs
  unfold escapeChar
  split_ifs with h₁ <;> simp_all [uEscape]

/-- Reading a string literal undoes writing it. -/
theorem scanString_escape (cs rest : List Char) {fuel : ℕ} (h : cs.length < fuel) :
    scanString fuel (cs.flatMap escapeChar ++ '"' :: rest) = some (cs, rest) := by
  induction cs generalizing fuel with
  | nil =>
    obtain ⟨fuel, rfl⟩ : ∃ f, fuel = f + 1 := ⟨fuel - 1, by simp at h; omega⟩
    rfl
  | cons c cs ih =>
    obtain ⟨fuel, rfl⟩ : ∃ f, fuel = f + 1 := ⟨fuel - 1, by simp at h; omega⟩
    have hlen : cs.length < fuel := by simp at h; omega
    rw [List.flatMap_cons, List.append_assoc, scanString.eq_3 _ _ (escapeChar_head c _),
      scanChar_escapeChar]
    simp [ih hlen]


/-! ### Numbers -/

/-- The decimal digits at the head of the text, and what follows them. -/
def scanDigits (cs : List Char) : List Char × List Char :=
  (cs.takeWhile Char.isDigit, cs.dropWhile Char.isDigit)

/-- `0|[1-9][0-9]*`: the digits of an unsigned integer without leading zeros. -/
def scanNat (cs : List Char) : Option (List Char × List Char) :=
  match cs with
  | '0' :: rest => some (['0'], rest)
  | _ => match scanDigits cs with
    | ([], _) => none
    | (ds, rest) => some (ds, rest)

/-- `\.[0-9]+`, if it stands at the head of the text. -/
def scanFrac (cs : List Char) : List Char × List Char :=
  match cs with
  | '.' :: rest => match scanDigits rest with
    | ([], _) => ([], cs)
    | (ds, rest) => ('.' :: ds, rest)
  | _ => ([], cs)

/-- `[eE][-+]?[0-9]+`, if it stands at the head of the text. -/
def scanExp (cs : List Char) : List Char × List Char :=
  match cs with
  | e :: rest =>
    if e = 'e' ∨ e = 'E' then
      let (sign, rest) := match rest with
        | '-' :: rest => (['-'], rest)
        | '+' :: rest => (['+'], rest)
        | _ => ([], rest)
      match scanDigits rest with
      | ([], _) => ([], cs)
      | (ds, rest) => (e :: sign ++ ds, rest)
    else ([], cs)
  | [] => ([], [])

/-- An optional minus sign. -/
def scanSign : List Char → Bool × List Char
  | '-' :: rest => (true, rest)
  | cs => (false, cs)

/-- Read a number, or one of the constants `NaN`, `Infinity`, `-Infinity`. -/
def scanNumber (cs : List Char) : Option (Json × List Char) :=
  let (neg, body) := scanSign cs
  match scanNat body with
  | some (ds, rest) =>
    let (frac, rest) := scanFrac rest
    let (exp, rest) := scanExp rest
    if frac = [] ∧ exp = [] then
      let n : Int := Nat.ofDigitChars 10 ds 0
      some (.int (if neg then -n else n), rest)
    else
      let sign := if neg then ['-'] else []
      some (.float (String.ofList (sign ++ ds ++ frac ++ exp)), rest)
  | none =>
    match cs with
    | 'N' :: 'a' :: 'N' :: rest => some (.float "NaN", rest)
    | 'I' :: 'n' :: 'f' :: 'i' :: 'n' :: 'i' :: 't' :: 'y' :: rest => some (.float "Infinity", rest)
    | '-' :: 'I' :: 'n' :: 'f' :: 'i' :: 'n' :: 'i' :: 't' :: 'y' :: rest =>
      some (.float "-Infinity", rest)
    | _ => none

/-- An integer in decimal. -/
def renderInt : Int → List Char
  | .ofNat n => Nat.toDigits 10 n
  | .negSucc n => '-' :: Nat.toDigits 10 (n + 1)

/-- What the writer puts after a value: a comma or the end of the line. -/
def Stops (rest : List Char) : Prop := ∃ c cs, rest = c :: cs ∧ (c = ',' ∨ c = '\n')

theorem stops_comma (cs : List Char) : Stops (',' :: cs) := ⟨_, cs, rfl, .inl rfl⟩

theorem stops_newline (cs : List Char) : Stops ('\n' :: cs) := ⟨_, cs, rfl, .inr rfl⟩

theorem Stops.not_digit {c : Char} {cs : List Char} (h : Stops (c :: cs)) :
    c.isDigit = false := by
  obtain ⟨c', cs', heq, rfl | rfl⟩ := h <;> cases heq <;> rfl

theorem scanDigits_append {ds rest : List Char} (hd : ∀ c ∈ ds, c.isDigit) (h : Stops rest) :
    scanDigits (ds ++ rest) = (ds, rest) := by
  obtain ⟨c, cs, rfl, -⟩ := id h
  have hc := h.not_digit
  rw [scanDigits, List.takeWhile_append_of_pos hd, List.dropWhile_append_of_pos hd]
  simp [hc]

/-- Only zero is written with a leading zero. -/
theorem toDigits_head_ne_zero {n : ℕ} (h : 0 < n) : (Nat.toDigits 10 n).head? ≠ some '0' := by
  induction n using Nat.strong_induction_on with
  | _ n ih =>
    rcases lt_or_ge n 10 with hlt | hge
    · rw [Nat.toDigits_of_lt_base hlt]
      simp
      omega
    · rw [Nat.toDigits_of_base_le (by decide) hge, List.head?_append_of_ne_nil _ Nat.toDigits_ne_nil]
      exact ih (n / 10) (by omega) (by omega)

theorem scanNat_toDigits (n : ℕ) {rest : List Char} (h : Stops rest) :
    scanNat (Nat.toDigits 10 n ++ rest) = some (Nat.toDigits 10 n, rest) := by
  rcases Nat.eq_zero_or_pos n with rfl | hpos
  · rfl
  · have hd : ∀ c ∈ Nat.toDigits 10 n, c.isDigit := fun c hc =>
      Nat.isDigit_of_mem_toDigits (by decide) (by decide) hc
    have hscan := scanDigits_append hd h
    have hhead := toDigits_head_ne_zero hpos
    cases hds : Nat.toDigits 10 n with
    | nil => exact absurd hds Nat.toDigits_ne_nil
    | cons d ds =>
      rw [hds] at hscan hhead
      have hd0 : d ≠ '0' := by simpa using hhead
      simp only [List.cons_append] at hscan ⊢
      rw [scanNat.eq_2 _ (fun _ heq => hd0 (List.cons.inj heq).1), hscan]

theorem Stops.scanFrac {rest : List Char} (h : Stops rest) : Json.scanFrac rest = ([], rest) := by
  obtain ⟨c, cs, rfl, rfl | rfl⟩ := h <;> rfl

theorem Stops.scanExp {rest : List Char} (h : Stops rest) : Json.scanExp rest = ([], rest) := by
  obtain ⟨c, cs, rfl, rfl | rfl⟩ := h <;> rfl

theorem scanSign_toDigits (n : ℕ) (rest : List Char) :
    scanSign (Nat.toDigits 10 n ++ rest) = (false, Nat.toDigits 10 n ++ rest) := by
  cases hds : Nat.toDigits 10 n with
  | nil => exact absurd hds Nat.toDigits_ne_nil
  | cons d ds =>
    have hdig : d.isDigit := Nat.isDigit_of_mem_toDigits (b := 10) (n := n)
      (by decide) (by decide) (by simp [hds])
    refine scanSign.eq_2 _ fun rest' heq => ?_
    rw [(List.cons.inj heq).1] at hdig
    exact absurd hdig (by decide)

/-- Reading an integer undoes writing it. -/
theorem scanNumber_renderInt (n : Int) {rest : List Char} (h : Stops rest) :
    scanNumber (renderInt n ++ rest) = some (.int n, rest) := by
  cases n with
  | ofNat n =>
    simp [renderInt, scanNumber, scanSign_toDigits, scanNat_toDigits n h, h.scanFrac, h.scanExp,
      Nat.ofDigitChars_ten_toDigits]
  | negSucc n =>
    simp [renderInt, scanNumber, scanSign, scanNat_toDigits _ h, h.scanFrac, h.scanExp,
      Nat.ofDigitChars_ten_toDigits, Int.negSucc_eq]

/-! ### Values -/

/-- The whitespace of the grammar: space, tab, line feed, carriage return. -/
def isWs (c : Char) : Bool := c = ' ' || c = '\t' || c = '\n' || c = '\r'

def skipWs (cs : List Char) : List Char := cs.dropWhile isWs

/-- Python's `dict` of a list of pairs: a key keeps its first place and takes its
last value. -/
def dictOf (kvs : List (String × Json)) : List (String × Json) :=
  kvs.foldl (fun d kv =>
    if d.any (·.1 == kv.1) then d.map fun kv' => if kv'.1 = kv.1 then kv else kv'
    else d ++ [kv]) []

mutual

/-- Read one value at the head of the text. -/
def parseValue : ℕ → List Char → Option (Json × List Char)
  | 0, _ => none
  | _ + 1, '"' :: cs => (scanString (cs.length + 1) cs).map fun (s, rest) =>
      (.str (String.ofList s), rest)
  | fuel + 1, '{' :: cs => match skipWs cs with
    | '}' :: rest => some (.obj [], rest)
    | cs => (parseMembers fuel cs).map fun (kvs, rest) => (.obj (dictOf kvs), rest)
  | fuel + 1, '[' :: cs => match skipWs cs with
    | ']' :: rest => some (.arr [], rest)
    | cs => (parseItems fuel cs).map fun (vs, rest) => (.arr vs, rest)
  | _ + 1, 'n' :: 'u' :: 'l' :: 'l' :: rest => some (.null, rest)
  | _ + 1, 't' :: 'r' :: 'u' :: 'e' :: rest => some (.bool true, rest)
  | _ + 1, 'f' :: 'a' :: 'l' :: 's' :: 'e' :: rest => some (.bool false, rest)
  | _ + 1, cs => scanNumber cs

/-- Read the items of an array from its first item on, up to the closing bracket. -/
def parseItems : ℕ → List Char → Option (List Json × List Char)
  | 0, _ => none
  | fuel + 1, cs => do
    let (v, rest) ← parseValue fuel cs
    match skipWs rest with
    | ']' :: rest => some ([v], rest)
    | ',' :: rest =>
      let (vs, rest) ← parseItems fuel (skipWs rest)
      some (v :: vs, rest)
    | _ => none

/-- Read the members of an object from its first key on, up to the closing brace. -/
def parseMembers : ℕ → List Char → Option (List (String × Json) × List Char)
  | 0, _ => none
  | fuel + 1, '"' :: cs => do
    let (k, rest) ← scanString (cs.length + 1) cs
    match skipWs rest with
    | ':' :: rest =>
      let (v, rest) ← parseValue fuel (skipWs rest)
      match skipWs rest with
      | '}' :: rest => some ([(String.ofList k, v)], rest)
      | ',' :: rest =>
        let (kvs, rest) ← parseMembers fuel (skipWs rest)
        some ((String.ofList k, v) :: kvs, rest)
      | _ => none
    | _ => none
  | _ + 1, _ => none

end

/-- `json.loads`: the whole text is one value, with whitespace around it. -/
def loads (text : List Char) : Option Json :=
  match parseValue (text.length + 1) (skipWs text) with
  | some (v, rest) => if skipWs rest = [] then some v else none
  | none => none

/-- The end of the line and the indentation of a nesting level (`indent=2`). -/
def newline (level : ℕ) : List Char := '\n' :: List.replicate (2 * level) ' '

mutual

/-- A value at a nesting level, as `json.dumps(v, indent=2)` lays it out. -/
def render (level : ℕ) : Json → List Char
  | .null => "null".toList
  | .bool true => "true".toList
  | .bool false => "false".toList
  | .int n => renderInt n
  | .float text => text.toList
  | .str s => renderStr s
  | .arr [] => ['[', ']']
  | .arr (x :: xs) => '[' :: newline (level + 1) ++ (render (level + 1) x ++
      (renderItems (level + 1) xs ++ (newline level ++ [']'])))
  | .obj [] => ['{', '}']
  | .obj ((k, v) :: kvs) => '{' :: newline (level + 1) ++ (renderStr k ++ (':' :: ' ' ::
      (render (level + 1) v ++ (renderMembers (level + 1) kvs ++ (newline level ++ ['}'])))))

/-- The items of an array after its first. -/
def renderItems (level : ℕ) : List Json → List Char
  | [] => []
  | x :: xs => ',' :: newline level ++ (render level x ++ renderItems level xs)

/-- The members of an object after its first. -/
def renderMembers (level : ℕ) : List (String × Json) → List Char
  | [] => []
  | (k, v) :: kvs => ',' :: newline level ++ (renderStr k ++ (':' :: ' ' ::
      (render level v ++ renderMembers level kvs)))

end

/-- How a number starts, the constants included. -/
def NumberHead (c : Char) : Prop := c.isDigit ∨ c = '-' ∨ c = 'N' ∨ c = 'I'

/-- A spelling of a fractional number that the reader takes as it stands. -/
def FloatText (text : String) : Prop :=
  (∃ c cs, text.toList = c :: cs ∧ NumberHead c) ∧
    ∀ rest, Stops rest → scanNumber (text.toList ++ rest) = some (.float text, rest)

mutual

/-- Values whose text is read back exactly: no key twice in an object, and numbers
spelled properly. -/
def Plain : Json → Prop
  | .null => True
  | .bool _ => True
  | .int _ => True
  | .float text => FloatText text
  | .str _ => True
  | .arr xs => PlainItems xs
  | .obj kvs => PlainMembers kvs ∧ (kvs.map Prod.fst).Nodup

def PlainItems : List Json → Prop
  | [] => True
  | x :: xs => x.Plain ∧ PlainItems xs

def PlainMembers : List (String × Json) → Prop
  | [] => True
  | (_, v) :: kvs => v.Plain ∧ PlainMembers kvs

end

/-! ### Reading undoes writing -/

theorem skipWs_newline (level : ℕ) (cs : List Char) : skipWs (newline level ++ cs) = skipWs cs := by
  have hsp : ∀ n : ℕ, skipWs (List.replicate n ' ' ++ cs) = skipWs cs := by
    intro n
    induction n with
    | zero => rfl
    | succ n ih => rw [List.replicate_succ]; exact ih
  exact hsp (2 * level)

theorem skipWs_of_not_ws {c : Char} {cs : List Char} (h : isWs c = false) :
    skipWs (c :: cs) = c :: cs := by
  simp [skipWs, h]

theorem renderInt_head (n : Int) : ∃ c cs, renderInt n = c :: cs ∧ NumberHead c := by
  cases n with
  | ofNat n =>
    cases hds : Nat.toDigits 10 n with
    | nil => exact absurd hds Nat.toDigits_ne_nil
    | cons d ds =>
      refine ⟨d, ds, hds, .inl (Nat.isDigit_of_mem_toDigits (b := 10) (n := n) ?_ ?_ ?_)⟩
      · decide
      · decide
      · simp [hds]
  | negSucc n => exact ⟨'-', _, rfl, .inr (.inl rfl)⟩

theorem not_ws_of_number {c : Char} (h : NumberHead c) : isWs c = false ∧ c ≠ ']' := by
  rcases h with h | rfl | rfl | rfl
  · refine ⟨?_, fun hc => by subst hc; exact absurd h (by decide)⟩
    have : c ≠ ' ' ∧ c ≠ '\t' ∧ c ≠ '\n' ∧ c ≠ '\r' := by
      refine ⟨?_, ?_, ?_, ?_⟩ <;> (intro hc; subst hc; exact absurd h (by decide))
    simp [isWs, this]
  · decide
  · decide
  · decide

/-- A rendered value starts with a character that is neither whitespace nor a
closing bracket. -/
theorem render_head (level : ℕ) {v : Json} (hv : v.Plain) :
    ∃ c cs, render level v = c :: cs ∧ isWs c = false ∧ c ≠ ']' := by
  cases v with
  | null => exact ⟨'n', ['u', 'l', 'l'], rfl, by decide, by decide⟩
  | bool b =>
    cases b
    · exact ⟨'f', ['a', 'l', 's', 'e'], rfl, by decide, by decide⟩
    · exact ⟨'t', ['r', 'u', 'e'], rfl, by decide, by decide⟩
  | int n =>
    obtain ⟨c, cs, hcs, hc⟩ := renderInt_head n
    exact ⟨c, cs, by rw [render, hcs], not_ws_of_number hc⟩
  | float t =>
    obtain ⟨⟨c, cs, hcs, hc⟩, -⟩ := hv
    exact ⟨c, cs, by rw [render, hcs], not_ws_of_number hc⟩
  | str s => exact ⟨'"', _, by rw [render, renderStr]; rfl, by decide, by decide⟩
  | arr xs =>
    cases xs
    · exact ⟨'[', _, by rw [render], by decide, by decide⟩
    · exact ⟨'[', _, by rw [render]; rfl, by decide, by decide⟩
  | obj kvs =>
    rcases kvs with _ | ⟨⟨k, v⟩, kvs⟩
    · exact ⟨'{', _, by rw [render], by decide, by decide⟩
    · exact ⟨'{', _, by rw [render]; rfl, by decide, by decide⟩

theorem skipWs_render (level : ℕ) {v : Json} (hv : v.Plain) (rest : List Char) :
    skipWs (render level v ++ rest) = render level v ++ rest := by
  obtain ⟨c, cs, hcs, hc, -⟩ := render_head level hv
  rw [hcs, List.cons_append, skipWs_of_not_ws hc]

theorem length_le_flatMap_escapeChar (cs : List Char) :
    cs.length ≤ (cs.flatMap escapeChar).length := by
  induction cs with
  | nil => simp
  | cons c cs ih =>
    have := List.length_pos_iff.mpr (escapeChar_ne_nil c)
    simp only [List.flatMap_cons, List.length_append, List.length_cons]
    omega

/-- A string literal is read back after its opening quote. -/
theorem scanString_renderStr (s : String) (rest : List Char) :
    ∃ cs, renderStr s ++ rest = '"' :: cs ∧
      scanString (cs.length + 1) cs = some (s.toList, rest) := by
  refine ⟨s.toList.flatMap escapeChar ++ '"' :: rest, by simp [renderStr], ?_⟩
  refine scanString_escape _ _ ?_
  have := length_le_flatMap_escapeChar s.toList
  simp only [List.length_append]
  omega

theorem parseValue_number {c : Char} {cs : List Char} (fuel : ℕ) (hc : NumberHead c) :
    parseValue (fuel + 1) (c :: cs) = scanNumber (c :: cs) := by
  have hne : ∀ d : Char, d.isDigit = false ∧ d ≠ '-' ∧ d ≠ 'N' ∧ d ≠ 'I' → c ≠ d := by
    rintro d ⟨hd, hm, hn, hi⟩ rfl
    rcases hc with hc | hc | hc | hc
    · rw [hd] at hc; exact absurd hc (by decide)
    · exact hm hc
    · exact hn hc
    · exact hi hc
  refine parseValue.eq_8 _ fuel ?_ ?_ ?_ ?_ ?_ ?_ <;> intro rest heq
  · exact hne '"' (by decide) (List.cons.inj heq).1
  · exact hne '{' (by decide) (List.cons.inj heq).1
  · exact hne '[' (by decide) (List.cons.inj heq).1
  · exact hne 'n' (by decide) (List.cons.inj heq).1
  · exact hne 't' (by decide) (List.cons.inj heq).1
  · exact hne 'f' (by decide) (List.cons.inj heq).1

/-- On distinct keys `dict` keeps the pairs as they are. -/
theorem dictOf_of_nodup {kvs : List (String × Json)} (h : (kvs.map Prod.fst).Nodup) :
    dictOf kvs = kvs := by
  suffices H : ∀ rest done : List (String × Json), ((done ++ rest).map Prod.fst).Nodup →
      rest.foldl (fun d kv =>
        if d.any (·.1 == kv.1) then d.map fun kv' => if kv'.1 = kv.1 then kv else kv'
        else d ++ [kv]) done = done ++ rest from H kvs [] h
  intro rest
  induction rest with
  | nil => intro done _; simp
  | cons kv rest ih =>
    intro done hnd
    have hnew : done.any (·.1 == kv.1) = false := by
      rw [List.any_eq_false]
      intro kv' hkv'
      rw [List.map_append, List.nodup_append] at hnd
      simpa using hnd.2.2 kv'.1 (List.mem_map_of_mem hkv') kv.1 (by simp)
    rw [List.foldl_cons, hnew, if_neg (by decide), ih _ (by simpa using hnd)]
    simp

theorem parseItems_last {fuel : ℕ} {cs rest : List Char} {v : Json} {level : ℕ}
    (h : parseValue fuel cs = some (v, newline level ++ ']' :: rest)) :
    parseItems (fuel + 1) cs = some ([v], rest) := by
  rw [parseItems, h]
  simp [skipWs_newline, skipWs_of_not_ws (show isWs ']' = false by decide)]

theorem parseItems_more {fuel : ℕ} {cs cs' rest : List Char} {v : Json} {vs : List Json}
    {level : ℕ} (h : parseValue fuel cs = some (v, ',' :: newline level ++ cs'))
    (hs : parseItems fuel (skipWs cs') = some (vs, rest)) :
    parseItems (fuel + 1) cs = some (v :: vs, rest) := by
  rw [parseItems, h]
  simp [skipWs_newline, skipWs_of_not_ws (show isWs ',' = false by decide), hs]

theorem parseMembers_last {fuel : ℕ} {k : String} {cs rest : List Char} {v : Json} {level : ℕ}
    (h : parseValue fuel cs = some (v, newline level ++ '}' :: rest))
    (hcs : skipWs cs = cs) :
    parseMembers (fuel + 1) (renderStr k ++ ':' :: ' ' :: cs) = some ([(k, v)], rest) := by
  obtain ⟨ds, hds, hscan⟩ := scanString_renderStr k (':' :: ' ' :: cs)
  have hsp : skipWs (' ' :: cs) = cs := hcs
  rw [hds, parseMembers, hscan]
  simp [skipWs_newline, skipWs_of_not_ws (show isWs ':' = false by decide),
    skipWs_of_not_ws (show isWs '}' = false by decide), hsp, h]

theorem parseMembers_more {fuel : ℕ} {k : String} {cs cs' rest : List Char} {v : Json}
    {kvs : List (String × Json)} {level : ℕ}
    (h : parseValue fuel cs = some (v, ',' :: newline level ++ cs'))
    (hcs : skipWs cs = cs) (hs : parseMembers fuel (skipWs cs') = some (kvs, rest)) :
    parseMembers (fuel + 1) (renderStr k ++ ':' :: ' ' :: cs) = some ((k, v) :: kvs, rest) := by
  obtain ⟨ds, hds, hscan⟩ := scanString_renderStr k (':' :: ' ' :: cs)
  have hsp : skipWs (' ' :: cs) = cs := hcs
  rw [hds, parseMembers, hscan]
  simp [skipWs_newline, skipWs_of_not_ws (show isWs ':' = false by decide),
    skipWs_of_not_ws (show isWs ',' = false by decide), hsp, h, hs]

theorem plainItems_iff {xs : List Json} : PlainItems xs ↔ ∀ x ∈ xs, x.Plain := by
  induction xs with
  | nil => simp [PlainItems]
  | cons x xs ih => simp [PlainItems, ih]

theorem plainMembers_iff {kvs : List (String × Json)} :
    PlainMembers kvs ↔ ∀ kv ∈ kvs, kv.2.Plain := by
  induction kvs with
  | nil => simp [PlainMembers]
  | cons kv kvs ih => simp [PlainMembers, ih]

/-- The text of `v` is read back wherever it stands. -/
def ReadsBack (v : Json) : Prop :=
  ∀ level fuel rest, Stops rest → (render level v).length ≤ fuel →
    parseValue fuel (render level v ++ rest) = some (v, rest)

/-- The items of an array are read back when each of them is. -/
theorem parseItems_render {level level' : ℕ} {rest : List Char} {xs : List Json}
    (hxs : ∀ x ∈ xs, x.Plain ∧ ReadsBack x) {x : Json} (hx : ReadsBack x) {fuel : ℕ}
    (h : (render level x ++ renderItems level xs).length < fuel) :
    parseItems fuel (render level x ++ (renderItems level xs ++ (newline level' ++ ']' :: rest))) =
      some (x :: xs, rest) := by
  induction xs generalizing x fuel with
  | nil =>
    obtain ⟨fuel, rfl⟩ : ∃ f, fuel = f + 1 := ⟨fuel - 1, by omega⟩
    rw [renderItems, List.append_nil] at h
    rw [renderItems, List.nil_append]
    exact parseItems_last (hx level fuel _ (stops_newline _) (by omega))
  | cons y ys ih =>
    obtain ⟨fuel, rfl⟩ : ∃ f, fuel = f + 1 := ⟨fuel - 1, by omega⟩
    have hy := hxs y List.mem_cons_self
    rw [renderItems] at h ⊢
    simp only [List.length_append, List.cons_append, List.length_cons] at h
    simp only [List.cons_append, List.append_assoc]
    refine parseItems_more (hx level fuel _ (stops_comma _) (by omega)) ?_
    rw [skipWs_render level hy.1]
    refine ih (fun z hz => hxs z (List.mem_cons_of_mem y hz)) hy.2 ?_
    simp only [List.length_append]
    omega

/-- The members of an object are read back when each value is. -/
theorem parseMembers_render {level level' : ℕ} {rest : List Char} {kvs : List (String × Json)}
    (hkvs : ∀ kv ∈ kvs, kv.2.Plain ∧ ReadsBack kv.2) {k : String} {v : Json} (hp : v.Plain)
    (hv : ReadsBack v) {fuel : ℕ} (h : (render level v ++ renderMembers level kvs).length < fuel) :
    parseMembers fuel (renderStr k ++ ':' :: ' ' :: (render level v ++
      (renderMembers level kvs ++ (newline level' ++ '}' :: rest)))) = some ((k, v) :: kvs, rest) := by
  induction kvs generalizing k v fuel with
  | nil =>
    obtain ⟨fuel, rfl⟩ : ∃ f, fuel = f + 1 := ⟨fuel - 1, by omega⟩
    rw [renderMembers, List.append_nil] at h
    rw [renderMembers, List.nil_append]
    exact parseMembers_last (hv level fuel _ (stops_newline _) (by omega))
      (skipWs_render level hp _)
  | cons kv kvs ih =>
    obtain ⟨k', v'⟩ := kv
    obtain ⟨fuel, rfl⟩ : ∃ f, fuel = f + 1 := ⟨fuel - 1, by omega⟩
    have hv' := hkvs (k', v') List.mem_cons_self
    rw [renderMembers] at h ⊢
    simp only [List.length_append, List.cons_append, List.length_cons] at h
    simp only [List.cons_append, List.append_assoc]
    refine parseMembers_more (hv level fuel _ (stops_comma _) (by omega))
      (skipWs_render level hp _) ?_
    have hskip : ∀ cs, skipWs (renderStr k' ++ cs) = renderStr k' ++ cs := fun cs =>
      skipWs_of_not_ws (by decide)
    rw [hskip]
    refine ih (fun kv hkv => hkvs kv (List.mem_cons_of_mem _ hkv)) hv'.1 hv'.2 ?_
    simp only [List.length_append]
    omega

theorem parseValue_arr {fuel : ℕ} {x : Json} (hx : x.Plain) {level : ℕ} {cs rest : List Char}
    {vs : List Json} (h : parseItems fuel (render level x ++ cs) = some (vs, rest)) :
    parseValue (fuel + 1) ('[' :: newline level ++ (render level x ++ cs)) =
      some (.arr vs, rest) := by
  obtain ⟨c, cs', hcs, hc, hne⟩ := render_head level hx
  rw [List.cons_append, parseValue, skipWs_newline, skipWs_render level hx]
  rw [hcs] at h ⊢
  split
  · rename_i heq
    exact absurd (List.cons.inj heq).1 hne
  · rw [h]; rfl

theorem parseValue_obj {fuel : ℕ} {k : String} {level : ℕ} {cs rest : List Char}
    {kvs : List (String × Json)} (hnd : (kvs.map Prod.fst).Nodup)
    (h : parseMembers fuel (renderStr k ++ cs) = some (kvs, rest)) :
    parseValue (fuel + 1) ('{' :: newline level ++ (renderStr k ++ cs)) =
      some (.obj kvs, rest) := by
  have hskip : skipWs (renderStr k ++ cs) = renderStr k ++ cs := skipWs_of_not_ws (by decide)
  rw [List.cons_append, parseValue, skipWs_newline, hskip]
  split
  · rename_i heq
    exact absurd (List.cons.inj heq).1 (by decide)
  · rw [h]
    simp only [Option.map_some, dictOf_of_nodup hnd]

theorem length_pos_render (level : ℕ) {v : Json} (hv : v.Plain) :
    0 < (render level v).length := by
  obtain ⟨c, cs, hcs, -⟩ := render_head level hv
  simp [hcs]

mutual

/-- **The text of a plain value is read back wherever it stands.** -/
theorem parseValue_render : ∀ v : Json, v.Plain → ReadsBack v
  | .null, _, _, fuel + 1, _, _, _ => rfl
  | .bool true, _, _, fuel + 1, _, _, _ => rfl
  | .bool false, _, _, fuel + 1, _, _, _ => rfl
  | .int n, _, level, fuel + 1, rest, hrest, _ => by
    obtain ⟨c, cs, hcs, hc⟩ := renderInt_head n
    have hscan := scanNumber_renderInt n hrest
    rw [render, hcs, List.cons_append, parseValue_number fuel hc]
    rwa [hcs] at hscan
  | .str s, _, level, fuel + 1, rest, _, _ => by
    obtain ⟨cs, hcs, hscan⟩ := scanString_renderStr s rest
    rw [render, hcs, parseValue, hscan]
    simp [String.ofList_toList]
  | .arr [], _, _, fuel + 1, _, _, _ => rfl
  | .arr (x :: xs), hv, level, fuel + 1, rest, _, hlen => by
    rw [Plain, PlainItems] at hv
    rw [render] at hlen ⊢
    simp only [List.length_cons, List.length_append, List.cons_append] at hlen
    simp only [List.cons_append, List.append_assoc, List.nil_append]
    refine parseValue_arr hv.1 (parseItems_render ?_ (parseValue_render x hv.1) ?_)
    · exact fun y hy => ⟨plainItems_iff.mp hv.2 y hy, readsBack_items xs hv.2 y hy⟩
    · simp only [List.length_append]
      omega
  | .obj [], _, _, fuel + 1, _, _, _ => rfl
  | .obj ((k, v) :: kvs), hv, level, fuel + 1, rest, _, hlen => by
    rw [Plain, PlainMembers] at hv
    rw [render] at hlen ⊢
    simp only [List.length_cons, List.length_append, List.cons_append] at hlen
    simp only [List.cons_append, List.append_assoc, List.nil_append]
    refine parseValue_obj hv.2 (parseMembers_render ?_ hv.1.1 (parseValue_render v hv.1.1) ?_)
    · exact fun kv hkv => ⟨plainMembers_iff.mp hv.1.2 kv hkv, readsBack_members kvs hv.1.2 kv hkv⟩
    · simp only [List.length_append]
      omega
  | .float text, hv, level, fuel + 1, rest, hrest, _ => by
    obtain ⟨⟨c, cs, hcs, hc⟩, hscan⟩ := hv
    have hread := hscan rest hrest
    rw [render, hcs, List.cons_append, parseValue_number fuel hc]
    rwa [hcs] at hread
  | v, hv, level, 0, _, _, hlen => absurd (length_pos_render level hv) (by omega)

theorem readsBack_items : ∀ xs : List Json, PlainItems xs → ∀ x ∈ xs, ReadsBack x
  | x :: xs, h, y, hy => by
    rw [PlainItems] at h
    rcases List.mem_cons.mp hy with hxy | hy
    · rw [hxy]
      exact parseValue_render x h.1
    · exact readsBack_items xs h.2 y hy

theorem readsBack_members :
    ∀ kvs : List (String × Json), PlainMembers kvs → ∀ kv ∈ kvs, ReadsBack kv.2
  | (_, v) :: kvs, h, kv, hkv => by
    rw [PlainMembers] at h
    rcases List.mem_cons.mp hkv with rfl | hkv
    · exact parseValue_render v h.1
    · exact readsBack_members kvs h.2 kv hkv

end

/-- **Reading undoes writing.** -/
theorem loads_render {v : Json} (hv : v.Plain) : loads (render 0 v ++ ['\n']) = some v := by
  have hread := parseValue_render v hv 0 ((render 0 v ++ ['\n']).length + 1) ['\n']
    (stops_newline _) (by simp only [List.length_append]; omega)
  rw [loads, skipWs_render 0 hv, hread]
  rfl

end Json
