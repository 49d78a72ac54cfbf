/-
Basic strings of TOML, and the lines of a document that has only such values.

A reader of a string is between characters, behind a backslash or within the digits of a code
point. A document is read line by line: a line is blank, the header of a table, or a key with
a string or with an array of strings; keys are bare, and dotted.

* `Toml.basic` — the value of a basic string, and what stands behind its closing quote;
* `Toml.Spells`, `Toml.basic_flatMap` — a string is read back when each of its characters is
  spelled by a piece that stands for it;
* `Toml.readLine`, `Toml.readLines` — the lines of a document;
* `Toml.readLines_join` — lines that are read alone are read in the document.
-/
import Mathlib.Data.List.Forall2
import TestRange.Lib.Json

namespace Toml

/-! ### Basic strings -/

/-- Where the reader of a string is: between characters, behind a backslash, or with `left` digits
of a code point to come. -/
inductive Place
  | plain
  | escape
  | unicode (value left : ℕ)

/-- What TOML allows as it is: tabs, and what is no control character. -/
def isRaw (c : Char) : Bool := c.toNat = 9 || (0x20 ≤ c.toNat && c.toNat ≠ 0x7f)

/-- The one-letter escapes. -/
def shortEscape (c : Char) : Option Char :=
  if c = 'b' then some (Char.ofNat 8)
  else if c = 't' then some '\t'
  else if c = 'n' then some '\n'
  else if c = 'f' then some (Char.ofNat 12)
  else if c = 'r' then some '\r'
  else if c = '"' then some '"'
  else if c = '\\' then some '\\'
  else none

/-- The character of a code point; a surrogate has none. -/
def scalar (n : ℕ) : Option Char := if n.isValidChar then some (Char.ofNat n) else none

/-- A character in front of what was read. -/
def push (c : Char) (read : List Char × List Char) : List Char × List Char := (c :: read.1, read.2)

/-- The value of a basic string, read behind its opening quote, and what follows the closing
one. -/
def basic : Place → List Char → Option (List Char × List Char)
  | _, [] => none
  | .plain, c :: cs =>
    if c = '"' then some ([], cs)
    else if c = '\\' then basic .escape cs
    else if isRaw c then (basic .plain cs).map (push c)
    else none
  | .escape, c :: cs =>
    match shortEscape c with
    | some d => (basic .plain cs).map (push d)
    | none =>
      if c = 'u' then basic (.unicode 0 4) cs
      else if c = 'U' then basic (.unicode 0 8) cs
      else none
  | .unicode value left, c :: cs =>
    match Json.hexVal c with
    | none => none
    | some d =>
      if left = 1 then (scalar (value * 16 + d)).bind fun c => (basic .plain cs).map (push c)
      else basic (.unicode (value * 16 + d) (left - 1)) cs

/-- Whether a quote stands in a text that no backslash takes; `taken` says that the first
character follows one. -/
def unescapedQuote : Bool → List Char → Bool
  | _, [] => false
  | true, _ :: cs => unescapedQuote false cs
  | false, c :: cs => c = '"' || unescapedQuote (c = '\\') cs

/-- A piece of a string that stands for one character. -/
structure Spells (piece : List Char) (c : Char) : Prop where
  read : ∀ rest, basic .plain (piece ++ rest) = (basic .plain rest).map (push c)
  quoted : ∀ rest, unescapedQuote false (piece ++ rest) = unescapedQuote false rest

/-- What is allowed as it is stands for itself. -/
theorem spells_raw {c : Char} (hraw : isRaw c = true) (hquote : c ≠ '"') (hslash : c ≠ '\\') :
    Spells [c] c where
  read rest := by rw [List.singleton_append, basic, if_neg hquote, if_neg hslash, if_pos hraw]
  quoted rest := by simp [unescapedQuote, hquote, hslash]

theorem spells_short {e c : Char} (h : shortEscape e = some c) : Spells ['\\', e] c where
  read rest := by
    rw [List.cons_append, List.singleton_append, basic, if_neg (by decide), if_pos rfl, basic, h]
  quoted rest := by simp [unescapedQuote]

theorem basic_unicode {value left n : ℕ} (hn : n < 16) (rest : List Char) :
    basic (.unicode value left) (Nat.digitChar n :: rest) =
      if left = 1 then (scalar (value * 16 + n)).bind fun c => (basic .plain rest).map (push c)
      else basic (.unicode (value * 16 + n) (left - 1)) rest := by
  rw [basic, Json.hexVal_digitChar hn]

theorem scalar_toNat (c : Char) : scalar c.toNat = some c := by
  have hvalid : c.toNat.isValidChar := c.valid
  rw [scalar, if_pos hvalid, Char.ofNat_toNat]

/-- A character by its code point, in four digits. -/
theorem spells_unicode {c : Char} (h : c.toNat < 0x10000) : Spells (Json.uEscape c.toNat) c where
  read rest := by
    have hd : ∀ m, m % 16 < 16 := fun m => Nat.mod_lt m (by decide)
    have hsum : (((0 * 16 + c.toNat / 4096 % 16) * 16 + c.toNat / 256 % 16) * 16 +
        c.toNat / 16 % 16) * 16 + c.toNat % 16 = c.toNat := by omega
    have hshort : shortEscape 'u' = none := by decide
    simp only [Json.uEscape, Json.hex4, List.cons_append, List.nil_append]
    rw [basic, if_neg (by decide), if_pos rfl, basic, hshort]
    simp only [if_true]
    rw [basic_unicode (hd _), if_neg (by decide), basic_unicode (hd _), if_neg (by decide),
      basic_unicode (hd _), if_neg (by decide), basic_unicode (hd _), if_pos rfl, hsum, scalar_toNat]
    rfl
  quoted rest := by
    have hd : ∀ m, Nat.digitChar (m % 16) ≠ '"' ∧ Nat.digitChar (m % 16) ≠ '\\' := by
      intro m
      have hlt := Nat.mod_lt m (show 0 < 16 by decide)
      generalize m % 16 = d at hlt
      interval_cases d <;> decide
    simp [Json.uEscape, Json.hex4, unescapedQuote, hd]

/-- **A string is read back from the pieces of its characters**, whatever follows. -/
theorem basic_flatMap {f : Char → List Char} (h : ∀ c, Spells (f c) c) (value rest : List Char) :
    basic .plain (value.flatMap f ++ '"' :: rest) = some (value, rest) := by
  induction value with
  | nil => rw [List.flatMap_nil, List.nil_append, basic, if_pos rfl]
  | cons c value ih => rw [List.flatMap_cons, List.append_assoc, (h c).read, ih]; rfl

theorem unescapedQuote_flatMap {f : Char → List Char} (h : ∀ c, Spells (f c) c) (value : List Char) :
    unescapedQuote false (value.flatMap f) = false := by
  induction value with
  | nil => rfl
  | cons c value ih => rw [List.flatMap_cons, (h c).quoted, ih]

/-! ### Lines -/

inductive Value
  | str (s : List Char)
  | strs (ss : List (List Char))
  deriving DecidableEq

/-- A line; keys and names of tables by their parts. -/
inductive Line
  | blank
  | table (name : List (List Char))
  | entry (key : List (List Char)) (value : Value)
  deriving DecidableEq

/-- Behind the blanks. -/
def skip (cs : List Char) : List Char := cs.dropWhile fun c => c = ' ' || c = '\t'

/-- What may follow at the end of a line: blanks and a comment. -/
def ended (cs : List Char) : Bool :=
  match skip cs with
  | [] => true
  | c :: cs => c = '#' && cs.all isRaw

/-- The characters of bare keys, and the dots between them. -/
def isKeyChar (c : Char) : Bool := c.isAlphanum || c = '-' || c = '_' || c = '.'

/-- A dotted key of bare keys. -/
def IsKey (key : List Char) : Prop := key.all isKeyChar = true ∧ [] ∉ key.splitOn '.'

instance (key : List Char) : Decidable (IsKey key) := inferInstanceAs (Decidable (_ ∧ _))

/-- The key at the beginning, and what follows it. -/
def readKey (cs : List Char) : Option (List (List Char) × List Char) :=
  let key := cs.takeWhile isKeyChar
  if IsKey key then some (key.splitOn '.', cs.dropWhile isKeyChar) else none

/-- The strings of an array, read behind its bracket. -/
def items : ℕ → List Char → Option (List (List Char) × List Char)
  | 0, _ => none
  | _ + 1, [] => none
  | fuel + 1, c :: cs =>
    if c = ']' then some ([], cs)
    else if c = '"' then
      (basic .plain cs).bind fun read =>
        match skip read.2 with
        | [] => none
        | d :: rest =>
          if d = ',' then (items fuel (skip rest)).map fun more => (read.1 :: more.1, more.2)
          else if d = ']' then some ([read.1], rest)
          else none
    else none

def readValue : List Char → Option (Value × List Char)
  | [] => none
  | c :: cs =>
    if c = '"' then (basic .plain cs).map fun read => (.str read.1, read.2)
    else if c = '[' then (items (cs.length + 1) (skip cs)).map fun read => (.strs read.1, read.2)
    else none

/-- The header of a table, behind its bracket. -/
def readTable (cs : List Char) : Option Line :=
  (readKey (skip cs)).bind fun name =>
    match skip name.2 with
    | [] => none
    | c :: rest => if c = ']' && ended rest then some (.table name.1) else none

/-- A key and its value. -/
def readEntry (cs : List Char) : Option Line :=
  (readKey cs).bind fun key =>
    match skip key.2 with
    | [] => none
    | c :: rest =>
      if c = '=' then
        (readValue (skip rest)).bind fun value =>
          if ended value.2 then some (.entry key.1 value.1) else none
      else none

def readLine (line : List Char) : Option Line :=
  if ended line then some .blank
  else
    match skip line with
    | [] => none
    | c :: cs => if c = '[' then readTable cs else readEntry (c :: cs)

/-- The lines of a document, each read alone. -/
def readLines (text : List Char) : List (Option Line) := (text.splitOn '\n').map readLine

/-! ### Lines that are read -/

/-- A line that is read, and is one line. -/
structure Reads (line : List Char) (answer : Line) : Prop where
  read : readLine line = some answer
  single : '\n' ∉ line

theorem skip_cons {c : Char} (h : ¬(c = ' ' ∨ c = '\t')) (cs : List Char) : skip (c :: cs) = c :: cs :=
  List.dropWhile_cons_of_neg (by simpa using h)

theorem skip_space (cs : List Char) : skip (' ' :: cs) = skip cs :=
  List.dropWhile_cons_of_pos (by decide)

theorem isKeyChar_start {c : Char} (h : isKeyChar c = true) :
    ¬(c = ' ' ∨ c = '\t') ∧ c ≠ '#' ∧ c ≠ '[' ∧ c ≠ '\n' := by
  refine ⟨?_, ?_, ?_, ?_⟩
  · rintro (rfl | rfl) <;> exact absurd h (by decide)
  all_goals
    rintro rfl
    exact absurd h (by decide)

theorem IsKey.ne_nil {key : List Char} (h : IsKey key) : key ≠ [] := by
  rintro rfl
  exact h.2 (by simp)

theorem IsKey.newline_notMem {key : List Char} (h : IsKey key) : '\n' ∉ key := by
  intro hmem
  exact (isKeyChar_start (List.all_eq_true.mp h.1 _ hmem)).2.2.2 rfl

/-- A key is read up to what is no character of one. -/
theorem readKey_append {key : List Char} (h : IsKey key) {c : Char} (hc : isKeyChar c = false)
    (rest : List Char) : readKey (key ++ c :: rest) = some (key.splitOn '.', c :: rest) := by
  have hkey : ∀ d ∈ key, isKeyChar d = true := List.all_eq_true.mp h.1
  have htake : (key ++ c :: rest).takeWhile isKeyChar = key := by
    rw [List.takeWhile_append_of_pos hkey, List.takeWhile_cons_of_neg (by simp [hc]), List.append_nil]
  have hdrop : (key ++ c :: rest).dropWhile isKeyChar = c :: rest := by
    rw [List.dropWhile_append_of_pos hkey, List.dropWhile_cons_of_neg (by simp [hc])]
  rw [readKey, htake, hdrop, if_pos h]

theorem reads_blank : Reads [] .blank where
  read := rfl
  single := List.not_mem_nil

/-- The header of a table. -/
theorem reads_table {name : List Char} (h : IsKey name) :
    Reads ('[' :: name ++ [']']) (.table (name.splitOn '.')) where
  read := by
    obtain ⟨c, cs, rfl⟩ := List.exists_cons_of_ne_nil h.ne_nil
    have hc := isKeyChar_start (List.all_eq_true.mp h.1 c List.mem_cons_self)
    have hskip : skip ('[' :: (c :: cs) ++ [']']) = '[' :: (c :: cs ++ [']']) :=
      skip_cons (by decide) _
    have hended : ended ('[' :: (c :: cs) ++ [']']) = false := by
      rw [ended, hskip]
      rfl
    have hkey : readKey (c :: cs ++ [']']) = some ((c :: cs).splitOn '.', [']']) :=
      readKey_append h (by decide) []
    have hname : skip (c :: cs ++ [']']) = c :: cs ++ [']'] := skip_cons hc.1 _
    rw [readLine, hended, if_neg (by decide), hskip]
    simp only [if_true]
    rw [readTable, hname, hkey]
    rfl
  single := by
    simp only [List.cons_append, List.mem_cons, List.mem_append, List.not_mem_nil, or_false]
    rintro (h' | h' | h')
    · exact absurd h' (by decide)
    · exact h.newline_notMem h'
    · exact absurd h' (by decide)

/-- A key and a value. -/
theorem reads_entry {key text : List Char} {value : Value} (h : IsKey key)
    (hread : readValue text = some (value, [])) (hsingle : '\n' ∉ text) :
    Reads (key ++ " = ".toList ++ text) (.entry (key.splitOn '.') value) where
  read := by
    obtain ⟨c, cs, rfl⟩ := List.exists_cons_of_ne_nil h.ne_nil
    have hc := isKeyChar_start (List.all_eq_true.mp h.1 c List.mem_cons_self)
    have hline : c :: cs ++ " = ".toList ++ text = c :: cs ++ ' ' :: '=' :: ' ' :: text := by
      rw [List.append_assoc]
      rfl
    have hskip : skip (c :: cs ++ ' ' :: '=' :: ' ' :: text) = c :: cs ++ ' ' :: '=' :: ' ' :: text :=
      skip_cons hc.1 _
    have hended : ended (c :: cs ++ ' ' :: '=' :: ' ' :: text) = false := by
      rw [ended, hskip]
      simp [hc.2.1]
    have hkey := readKey_append h (show isKeyChar ' ' = false by decide) ('=' :: ' ' :: text)
    -- The value starts at its quote or bracket.
    have htext : skip text = text := by
      cases text with
      | nil => rfl
      | cons d ds =>
        refine skip_cons ?_ ds
        rintro (rfl | rfl) <;> exact absurd hread (by simp [readValue])
    rw [hline, readLine, hended, if_neg (by decide), hskip, List.cons_append]
    simp only [if_neg hc.2.2.1]
    rw [← List.cons_append, readEntry, hkey, Option.bind_some, skip_space, skip_cons (by decide)]
    simp only [if_true]
    rw [skip_space, htext, hread]
    rfl
  single := by
    have hmid : '\n' ∉ " = ".toList := by decide
    rw [List.mem_append, List.mem_append, not_or, not_or]
    exact ⟨⟨h.newline_notMem, hmid⟩, hsingle⟩

/-! ### Values that are read -/

/-- A string between its quotes, each character spelled by `f`. -/
def quoted (f : Char → List Char) (value : List Char) : List Char := '"' :: (value.flatMap f ++ ['"'])

section Quoted

variable {f : Char → List Char} (hf : ∀ c, Spells (f c) c)

include hf

theorem readValue_quoted (value : List Char) : readValue (quoted f value) = some (.str value, []) := by
  rw [quoted, readValue, if_pos rfl, basic_flatMap hf]
  rfl

/-- One string of an array, and what its end says. -/
theorem items_quoted (fuel : ℕ) (value : List Char) {d : Char} (hd : ¬(d = ' ' ∨ d = '\t'))
    (rest : List Char) : items (fuel + 1) (quoted f value ++ d :: rest) =
      if d = ',' then (items fuel (skip rest)).map fun more => (value :: more.1, more.2)
      else if d = ']' then some ([value], rest)
      else none := by
  rw [quoted, List.cons_append, items, if_neg (by decide), if_pos rfl, List.append_assoc,
    List.singleton_append, basic_flatMap hf, Option.bind_some, skip_cons hd]

/-- The strings of an array, behind its bracket. -/
theorem items_join (value : List Char) (values : List (List Char)) {fuel : ℕ}
    (hfuel : values.length < fuel) (rest : List Char) :
    items fuel (", ".toList.intercalate ((value :: values).map (quoted f)) ++ ']' :: rest) =
      some (value :: values, rest) := by
  induction values generalizing value fuel with
  | nil =>
    obtain ⟨fuel, rfl⟩ : ∃ n, fuel = n + 1 := ⟨fuel - 1, by simp only [List.length_nil] at hfuel; omega⟩
    rw [List.map_singleton, List.intercalate_singleton, items_quoted hf fuel value (by decide),
      if_neg (by decide), if_pos rfl]
  | cons next values ih =>
    rw [List.length_cons] at hfuel
    obtain ⟨fuel, rfl⟩ : ∃ n, fuel = n + 1 := ⟨fuel - 1, by omega⟩
    have hfuel : values.length < fuel := by omega
    have hnext := ih next hfuel
    have hstart : skip (", ".toList.intercalate ((next :: values).map (quoted f)) ++ ']' :: rest) =
        ", ".toList.intercalate ((next :: values).map (quoted f)) ++ ']' :: rest := by
      cases values with
      | nil => exact skip_cons (by decide) _
      | cons _ _ => exact skip_cons (by decide) _
    have hjoin : ", ".toList.intercalate ((value :: next :: values).map (quoted f)) ++ ']' :: rest =
        quoted f value ++ ',' :: ' ' ::
          (", ".toList.intercalate ((next :: values).map (quoted f)) ++ ']' :: rest) := by
      rw [List.map_cons, List.map_cons, List.intercalate_cons_cons, List.append_assoc,
        List.append_assoc]
      rfl
    rw [hjoin, items_quoted hf fuel value (by decide), if_pos rfl, skip_space, hstart, hnext]
    rfl

/-- An array of strings on one line. -/
theorem readValue_array (values : List (List Char)) :
    readValue ('[' :: (", ".toList.intercalate (values.map (quoted f)) ++ [']'])) =
      some (.strs values, []) := by
  rw [readValue, if_neg (by decide), if_pos rfl]
  cases values with
  | nil => rfl
  | cons value values =>
    have hstart : skip (", ".toList.intercalate ((value :: values).map (quoted f)) ++ [']']) =
        ", ".toList.intercalate ((value :: values).map (quoted f)) ++ [']'] := by
      cases values with
      | nil => exact skip_cons (by decide) _
      | cons _ _ => exact skip_cons (by decide) _
    -- Every string has its quotes, so the text is long enough.
    have hlen : ∀ values : List (List Char),
        values.length ≤ (", ".toList.intercalate (values.map (quoted f))).length := by
      intro values
      induction values with
      | nil => exact Nat.zero_le _
      | cons value values ih =>
        cases values with
        | nil => simp [quoted]
        | cons next values =>
          rw [List.map_cons, List.map_cons, List.intercalate_cons_cons, List.length_append,
            List.length_append, List.length_cons, ← List.map_cons]
          have : 1 ≤ (quoted f value).length := by simp [quoted]
          omega
    rw [hstart, items_join hf value values]
    · rfl
    · have := hlen (value :: values)
      rw [List.length_cons] at this
      rw [List.length_append]
      omega

omit hf in
theorem notMem_quoted {c : Char} (hc : c ≠ '"') (h : ∀ d, c ∉ f d) (value : List Char) :
    c ∉ quoted f value := by
  simp only [quoted, List.mem_cons, List.mem_append, List.mem_flatMap, List.not_mem_nil, or_false]
  rintro (hq | ⟨d, -, hd⟩ | hq)
  · exact hc hq
  · exact h d hd
  · exact hc hq

end Quoted

theorem notMem_intercalate {c : Char} {sep : List Char} (hsep : c ∉ sep) {texts : List (List Char)}
    (h : ∀ text ∈ texts, c ∉ text) : c ∉ sep.intercalate texts := by
  induction texts with
  | nil => exact List.not_mem_nil
  | cons text texts ih =>
    obtain ⟨htext, hrest⟩ := List.forall_mem_cons.mp h
    cases texts with
    | nil => rwa [List.intercalate_singleton]
    | cons next texts =>
      rw [List.intercalate_cons_cons, List.mem_append, List.mem_append, not_or, not_or]
      exact ⟨⟨htext, hsep⟩, ih hrest⟩

/-! ### Documents that are read -/

theorem map_readLine {lines : List (List Char)} {answers : List Line}
    (h : List.Forall₂ Reads lines answers) : lines.map readLine = answers.map some := by
  induction h with
  | nil => rfl
  | cons hline _ ih => rw [List.map_cons, List.map_cons, hline.read, ih]

theorem newline_notMem {lines : List (List Char)} {answers : List Line}
    (h : List.Forall₂ Reads lines answers) : ∀ line ∈ lines, '\n' ∉ line := by
  induction h with
  | nil => simp
  | cons hline _ ih => exact List.forall_mem_cons.mpr ⟨hline.single, ih⟩

/-- **Lines that are read alone are read in their document.** -/
theorem readLines_join {lines : List (List Char)} {answers : List Line} (hne : lines ≠ [])
    (h : List.Forall₂ Reads lines answers) :
    readLines (['\n'].intercalate lines ++ ['\n']) = (answers ++ [Line.blank]).map some := by
  have hsplit : (['\n'].intercalate lines ++ ['\n']).splitOn '\n' = lines ++ [[]] := by
    rw [List.splitOn_append_cons_self, List.splitOn_intercalate '\n' (newline_notMem h) hne]
    rfl
  rw [readLines, hsplit, List.map_append, List.map_append, map_readLine h]
  rfl

end Toml
