/-
Base64, as `base64` writes it and as a lenient decoder reads it.

* `Base64.encode`, `Base64.wrap` — the encoding, in lines of 76 characters;
* `Base64.decodeBare` — the bytes of characters, four by four;
* `Base64.decodeBare_bare`, `Base64.decodeBare_take_bare` — the characters of some bytes decode to
  them, and the first characters to the first bytes;
* `Base64.a2b` — the decoder, character by character, with its errors;
* `Base64.a2b_pads` — on padded characters of the alphabet it makes none;
* `Base64.a2b_encode`, `Base64.length_encode` — what is encoded is decoded, and how long it is;
* `Base64.Noise` — a text with foreign characters in it.
-/
import Mathlib.Data.List.Basic
import Mathlib.Tactic.Common

namespace Base64

/-! ### Characters -/

/-- The character of six bits. -/
def char (n : ℕ) : UInt8 :=
  if n < 26 then UInt8.ofNat (65 + n)
  else if n < 52 then UInt8.ofNat (97 + (n - 26))
  else if n < 62 then UInt8.ofNat (48 + (n - 52))
  else if n = 62 then 43
  else 47

/-- The six bits of a character of the alphabet. -/
def value (c : UInt8) : Option ℕ :=
  if 65 ≤ c ∧ c ≤ 90 then some (c.toNat - 65)
  else if 97 ≤ c ∧ c ≤ 122 then some (c.toNat - 97 + 26)
  else if 48 ≤ c ∧ c ≤ 57 then some (c.toNat - 48 + 52)
  else if c = 43 then some 62
  else if c = 47 then some 63
  else none

def isAlphabet (c : UInt8) : Bool := (value c).isSome

/-- `=` -/
def pad : UInt8 := 61

/-- The line break. -/
def newline : UInt8 := 10

theorem value_char {n : ℕ} (h : n < 64) : value (char n) = some n := by
  have hall : ∀ n : Fin 64, value (char n) = some n.val := by decide
  exact hall ⟨n, h⟩

theorem isAlphabet_char {n : ℕ} (h : n < 64) : isAlphabet (char n) = true := by
  rw [isAlphabet, value_char h]
  rfl

/-! ### Encoding -/

/-- The characters of some bytes, without padding. -/
def bare : List UInt8 → List UInt8
  | [] => []
  | [a] => [char (a.toNat / 4), char (a.toNat % 4 * 16)]
  | [a, b] => [char (a.toNat / 4), char (a.toNat % 4 * 16 + b.toNat / 16), char (b.toNat % 16 * 4)]
  | a :: b :: c :: rest =>
    char (a.toNat / 4) :: char (a.toNat % 4 * 16 + b.toNat / 16) ::
      char (b.toNat % 16 * 4 + c.toNat / 64) :: char (c.toNat % 64) :: bare rest

/-- The padding that makes the length a multiple of four. -/
def padding (n : ℕ) : List UInt8 := if n % 4 = 0 then [] else List.replicate (4 - n % 4) pad

def encode (bytes : List UInt8) : List UInt8 := bare bytes ++ padding (bare bytes).length

/-- Lines of 76 characters, the last one ended too; `col` characters are in the line already. -/
def wrapFrom : ℕ → List UInt8 → List UInt8
  | col, [] => if col = 0 then [] else [newline]
  | col, c :: cs => if col = 75 then c :: newline :: wrapFrom 0 cs else c :: wrapFrom (col + 1) cs

/-- What `base64` writes. -/
def wrap (bytes : List UInt8) : List UInt8 := wrapFrom 0 (encode bytes)

/-! ### Decoding -/

/-- The bytes of characters without padding; a character too many is dropped. -/
def decodeBare : List ℕ → List UInt8
  | w :: x :: y :: z :: rest =>
    UInt8.ofNat (w * 4 + x / 16) :: UInt8.ofNat (x % 16 * 16 + y / 4) :: UInt8.ofNat (y % 4 * 64 + z) ::
      decodeBare rest
  | [w, x, y] => [UInt8.ofNat (w * 4 + x / 16), UInt8.ofNat (x % 16 * 16 + y / 4)]
  | [w, x] => [UInt8.ofNat (w * 4 + x / 16)]
  | _ => []

/-- `base64.b64decode` of characters of the alphabet, padded at the end. -/
def b64decode (cs : List UInt8) : Option (List UInt8) :=
  if cs.length % 4 = 0 then some (decodeBare (cs.filterMap value)) else none

/-! ### Reading back -/

theorem filter_wrapFrom (col : ℕ) (cs : List UInt8) :
    (wrapFrom col cs).filter isAlphabet = cs.filter isAlphabet := by
  have hbreak : isAlphabet newline = false := by decide
  induction cs generalizing col with
  | nil =>
    unfold wrapFrom
    split_ifs <;> simp [hbreak]
  | cons c cs ih =>
    unfold wrapFrom
    split_ifs
    · simp [List.filter_cons, hbreak, ih]
    · simp [List.filter_cons, ih]

theorem mem_wrapFrom {b : UInt8} {col : ℕ} {cs : List UInt8} (h : b ∈ wrapFrom col cs) :
    b ∈ cs ∨ b = newline := by
  induction cs generalizing col with
  | nil =>
    unfold wrapFrom at h
    split_ifs at h
    · cases h
    · exact .inr (List.mem_singleton.mp h)
  | cons c cs ih =>
    unfold wrapFrom at h
    split_ifs at h
    · rcases List.mem_cons.mp h with rfl | h
      · exact .inl List.mem_cons_self
      · rcases List.mem_cons.mp h with rfl | h
        · exact .inr rfl
        · exact (ih h).imp_left (List.mem_cons_of_mem _)
    · rcases List.mem_cons.mp h with rfl | h
      · exact .inl List.mem_cons_self
      · exact (ih h).imp_left (List.mem_cons_of_mem _)

/-- Every line is ended. -/
theorem wrapFrom_ends (col : ℕ) (cs : List UInt8) (h : wrapFrom col cs ≠ []) :
    ∃ lines, wrapFrom col cs = lines ++ [newline] := by
  induction cs generalizing col with
  | nil =>
    unfold wrapFrom at h ⊢
    split_ifs with hcol
    · rw [if_pos hcol] at h
      exact absurd rfl h
    · exact ⟨[], rfl⟩
  | cons c cs ih =>
    unfold wrapFrom
    split_ifs with hcol
    · by_cases hrest : wrapFrom 0 cs = []
      · exact ⟨[c], by rw [hrest]; rfl⟩
      · obtain ⟨lines, hlines⟩ := ih 0 hrest
        exact ⟨c :: newline :: lines, by rw [hlines]; rfl⟩
    · -- The line has a character, so something follows.
      have hrest : wrapFrom (col + 1) cs ≠ [] := by
        cases cs with
        | nil => simp [wrapFrom]
        | cons d cs =>
          unfold wrapFrom
          split_ifs <;> simp
      obtain ⟨lines, hlines⟩ := ih (col + 1) hrest
      exact ⟨c :: lines, by rw [hlines]; rfl⟩

/-- The characters of some bytes are of the alphabet. -/
theorem isAlphabet_of_mem_bare {c : UInt8} {bytes : List UInt8} (h : c ∈ bare bytes) :
    isAlphabet c = true := by
  induction bytes using bare.induct with
  | case1 => cases h
  | case2 a =>
    have ha := a.toNat_lt
    simp only [bare, List.mem_cons, List.not_mem_nil, or_false] at h
    rcases h with rfl | rfl <;> exact isAlphabet_char (by omega)
  | case3 a b =>
    have ha := a.toNat_lt
    have hb := b.toNat_lt
    simp only [bare, List.mem_cons, List.not_mem_nil, or_false] at h
    rcases h with rfl | rfl | rfl <;> exact isAlphabet_char (by omega)
  | case4 a b c' rest ih =>
    have ha := a.toNat_lt
    have hb := b.toNat_lt
    have hc := c'.toNat_lt
    simp only [bare, List.mem_cons] at h
    rcases h with rfl | rfl | rfl | rfl | h
    · exact isAlphabet_char (by omega)
    · exact isAlphabet_char (by omega)
    · exact isAlphabet_char (by omega)
    · exact isAlphabet_char (by omega)
    · exact ih h

theorem ofNat_eq {a : UInt8} {n : ℕ} (h : n = a.toNat) : UInt8.ofNat n = a := by
  rw [h, UInt8.ofNat_toNat]

/-- The characters decode to the bytes. -/
theorem decodeBare_bare (bytes : List UInt8) : decodeBare ((bare bytes).filterMap value) = bytes := by
  induction bytes using bare.induct with
  | case1 => rfl
  | case2 a =>
    have ha := a.toNat_lt
    rw [bare]
    simp only [List.filterMap_cons, List.filterMap_nil, value_char (show a.toNat / 4 < 64 by omega),
      value_char (show a.toNat % 4 * 16 < 64 by omega), decodeBare]
    rw [ofNat_eq (a := a) (by omega)]
  | case3 a b =>
    have ha := a.toNat_lt
    have hb := b.toNat_lt
    rw [bare]
    simp only [List.filterMap_cons, List.filterMap_nil, value_char (show a.toNat / 4 < 64 by omega),
      value_char (show a.toNat % 4 * 16 + b.toNat / 16 < 64 by omega),
      value_char (show b.toNat % 16 * 4 < 64 by omega), decodeBare]
    rw [ofNat_eq (a := a) (by omega), ofNat_eq (a := b) (by omega)]
  | case4 a b c rest ih =>
    have ha := a.toNat_lt
    have hb := b.toNat_lt
    have hc := c.toNat_lt
    rw [bare]
    simp only [List.filterMap_cons, value_char (show a.toNat / 4 < 64 by omega),
      value_char (show a.toNat % 4 * 16 + b.toNat / 16 < 64 by omega),
      value_char (show b.toNat % 16 * 4 + c.toNat / 64 < 64 by omega),
      value_char (show c.toNat % 64 < 64 by omega), decodeBare, ih]
    rw [ofNat_eq (a := a) (by omega), ofNat_eq (a := b) (by omega), ofNat_eq (a := c) (by omega)]

/-- What is left of the lines when everything but the alphabet is dropped. -/
theorem filter_wrap (bytes : List UInt8) : (wrap bytes).filter isAlphabet = bare bytes := by
  have hpadding : ∀ n, (padding n).filter isAlphabet = [] := by
    intro n
    unfold padding
    split_ifs
    · rfl
    · rw [List.filter_replicate, if_neg (by decide)]
  rw [wrap, filter_wrapFrom, encode, List.filter_append, hpadding, List.append_nil, List.filter_eq_self]
  exact fun c hc => isAlphabet_of_mem_bare hc

/-- What the lines are made of. -/
theorem mem_wrap {b : UInt8} {bytes : List UInt8} (h : b ∈ wrap bytes) :
    isAlphabet b = true ∨ b = pad ∨ b = newline := by
  rcases mem_wrapFrom h with h | h
  · rcases List.mem_append.mp h with h | h
    · exact .inl (isAlphabet_of_mem_bare h)
    · unfold padding at h
      split_ifs at h
      · cases h
      · exact .inr (.inl (List.eq_of_mem_replicate h))
  · exact .inr (.inr h)

/-- A single character at the end makes no byte. -/
theorem decodeBare_append {ns : List ℕ} (h : ns.length % 4 = 0) (n : ℕ) :
    decodeBare (ns ++ [n]) = decodeBare ns := by
  induction ns using decodeBare.induct with
  | case1 w x y z rest ih =>
    have hrest : rest.length % 4 = 0 := by
      simp only [List.length_cons] at h
      omega
    simp only [List.cons_append, decodeBare, ih hrest]
  | case2 w x y => simp at h
  | case3 w x => simp at h
  | case4 ns h₄ h₃ h₂ =>
    match ns, h with
    | [], _ => rfl
    | w :: x :: y :: z :: rest, _ => exact absurd rfl (h₄ w x y z rest)

theorem length_filterMap_value {cs : List UInt8} (h : ∀ c ∈ cs, isAlphabet c = true) :
    (cs.filterMap value).length = cs.length := by
  induction cs with
  | nil => rfl
  | cons c cs ih =>
    obtain ⟨n, hn⟩ := Option.isSome_iff_exists.mp (h c List.mem_cons_self)
    rw [List.filterMap_cons_some hn, List.length_cons, List.length_cons,
      ih fun c hc => h c (List.mem_cons_of_mem _ hc)]

/-- Two characters make a byte. -/
theorem decodeBare_ne_nil {ns : List ℕ} (h : 2 ≤ ns.length) : decodeBare ns ≠ [] := by
  match ns, h with
  | [w, x], _ => simp [decodeBare]
  | [w, x, y], _ => simp [decodeBare]
  | w :: x :: y :: z :: rest, _ => simp [decodeBare]

/-- **The first characters decode to the first bytes**, as many as they have the bits of. -/
theorem decodeBare_take_bare (bytes : List UInt8) (n : ℕ) :
    decodeBare (((bare bytes).take n).filterMap value) = bytes.take (n * 6 / 8) := by
  induction bytes using bare.induct generalizing n with
  | case1 => simp [bare, decodeBare]
  | case2 a =>
    have ha := a.toNat_lt
    match n with
    | 0 => rfl
    | 1 => simp [bare, decodeBare, value_char (show a.toNat / 4 < 64 by omega)]
    | n + 2 =>
      have hwhole : (bare [a]).take (n + 2) = bare [a] := List.take_of_length_le (by simp [bare])
      rw [hwhole, decodeBare_bare, List.take_of_length_le]
      rw [List.length_singleton]
      omega
  | case3 a b =>
    have ha := a.toNat_lt
    have hb := b.toNat_lt
    match n with
    | 0 => rfl
    | 1 => simp [bare, decodeBare, value_char (show a.toNat / 4 < 64 by omega)]
    | 2 =>
      simp only [bare, List.take_succ_cons, List.take_zero, List.filterMap_cons, List.filterMap_nil,
        value_char (show a.toNat / 4 < 64 by omega),
        value_char (show a.toNat % 4 * 16 + b.toNat / 16 < 64 by omega), decodeBare]
      rw [ofNat_eq (a := a) (by omega)]
    | n + 3 =>
      have hwhole : (bare [a, b]).take (n + 3) = bare [a, b] := List.take_of_length_le (by simp [bare])
      rw [hwhole, decodeBare_bare, List.take_of_length_le]
      rw [List.length_cons, List.length_singleton]
      omega
  | case4 a b c rest ih =>
    have ha := a.toNat_lt
    have hb := b.toNat_lt
    have hc := c.toNat_lt
    match n with
    | 0 => rfl
    | 1 => simp [bare, decodeBare, value_char (show a.toNat / 4 < 64 by omega)]
    | 2 =>
      simp only [bare, List.take_succ_cons, List.take_zero, List.filterMap_cons, List.filterMap_nil,
        value_char (show a.toNat / 4 < 64 by omega),
        value_char (show a.toNat % 4 * 16 + b.toNat / 16 < 64 by omega), decodeBare]
      rw [ofNat_eq (a := a) (by omega)]
    | 3 =>
      simp only [bare, List.take_succ_cons, List.take_zero, List.filterMap_cons, List.filterMap_nil,
        value_char (show a.toNat / 4 < 64 by omega),
        value_char (show a.toNat % 4 * 16 + b.toNat / 16 < 64 by omega),
        value_char (show b.toNat % 16 * 4 + c.toNat / 64 < 64 by omega), decodeBare]
      rw [ofNat_eq (a := a) (by omega), ofNat_eq (a := b) (by omega)]
    | n + 4 =>
      -- A whole quantum, and the first characters of the rest.
      have hbytes : (n + 4) * 6 / 8 = n * 6 / 8 + 3 := by omega
      simp only [bare, List.take_succ_cons, List.filterMap_cons,
        value_char (show a.toNat / 4 < 64 by omega),
        value_char (show a.toNat % 4 * 16 + b.toNat / 16 < 64 by omega),
        value_char (show b.toNat % 16 * 4 + c.toNat / 64 < 64 by omega),
        value_char (show c.toNat % 64 < 64 by omega), decodeBare, ih, hbytes]
      rw [ofNat_eq (a := a) (by omega), ofNat_eq (a := b) (by omega), ofNat_eq (a := c) (by omega)]

/-! ### The decoder -/

/-- `binascii.Error`, by the number of characters of the last quantum. -/
inductive DecodeError
  /-- One more than a multiple of four. -/
  | loneCharacter
  | incorrectPadding
  deriving DecidableEq

/-- `binascii.a2b_base64`, not strict: characters that are not of the alphabet are skipped, and
enough padding ends the input.  `quadPos` characters of a quantum are read, `leftchar` has the bits
not yet used, and `pads` counts the padding. -/
def a2bFrom (quadPos leftchar pads : ℕ) : List UInt8 → Except DecodeError (List UInt8)
  | [] =>
    if quadPos = 0 then .ok []
    else if quadPos = 1 then .error .loneCharacter
    else .error .incorrectPadding
  | c :: cs =>
    if c = pad then
      if 2 ≤ quadPos then
        if 4 ≤ quadPos + (pads + 1) then .ok [] else a2bFrom quadPos leftchar (pads + 1) cs
      else a2bFrom quadPos leftchar pads cs
    else
      match value c with
      | none => a2bFrom quadPos leftchar pads cs
      | some v =>
        match quadPos with
        | 0 => a2bFrom 1 v 0 cs
        | 1 => (a2bFrom 2 (v % 16) 0 cs).map (UInt8.ofNat (leftchar * 4 + v / 16) :: ·)
        | 2 => (a2bFrom 3 (v % 4) 0 cs).map (UInt8.ofNat (leftchar * 16 + v / 4) :: ·)
        | _ => (a2bFrom 0 0 0 cs).map (UInt8.ofNat (leftchar * 64 + v) :: ·)

def a2b (cs : List UInt8) : Except DecodeError (List UInt8) := a2bFrom 0 0 0 cs

/-- One character of the alphabet. -/
theorem a2bFrom_value {q l p v : ℕ} {c : UInt8} {cs : List UInt8} (h : value c = some v) :
    a2bFrom q l p (c :: cs) =
      match q with
      | 0 => a2bFrom 1 v 0 cs
      | 1 => (a2bFrom 2 (v % 16) 0 cs).map (UInt8.ofNat (l * 4 + v / 16) :: ·)
      | 2 => (a2bFrom 3 (v % 4) 0 cs).map (UInt8.ofNat (l * 16 + v / 4) :: ·)
      | _ => (a2bFrom 0 0 0 cs).map (UInt8.ofNat (l * 64 + v) :: ·) := by
  have hne : c ≠ pad := by
    rintro rfl
    cases h
  rw [a2bFrom, if_neg hne, h]

/-- **The decoder makes no error on characters of the alphabet that are padded**, unless the last
quantum has one of them. -/
theorem a2b_pads (cs : List UInt8) (hcs : ∀ c ∈ cs, isAlphabet c = true) (hlen : cs.length % 4 ≠ 1) :
    a2b (cs ++ padding cs.length) = .ok (decodeBare (cs.filterMap value)) := by
  match cs with
  | [] => rfl
  | [w] => exact absurd rfl hlen
  | [w, x] =>
    obtain ⟨vw, hw⟩ := Option.isSome_iff_exists.mp (hcs w (by simp))
    obtain ⟨vx, hx⟩ := Option.isSome_iff_exists.mp (hcs x (by simp))
    show a2bFrom 0 0 0 [w, x, pad, pad] = _
    simp only [a2bFrom_value hw, a2bFrom_value hx, List.filterMap_cons, List.filterMap_nil, hw, hx, decodeBare]
    rfl
  | [w, x, y] =>
    obtain ⟨vw, hw⟩ := Option.isSome_iff_exists.mp (hcs w (by simp))
    obtain ⟨vx, hx⟩ := Option.isSome_iff_exists.mp (hcs x (by simp))
    obtain ⟨vy, hy⟩ := Option.isSome_iff_exists.mp (hcs y (by simp))
    show a2bFrom 0 0 0 [w, x, y, pad] = _
    simp only [a2bFrom_value hw, a2bFrom_value hx, a2bFrom_value hy,
      List.filterMap_cons, List.filterMap_nil, hw, hx, hy, decodeBare]
    rfl
  | w :: x :: y :: z :: rest =>
    obtain ⟨vw, hw⟩ := Option.isSome_iff_exists.mp (hcs w (by simp))
    obtain ⟨vx, hx⟩ := Option.isSome_iff_exists.mp (hcs x (by simp))
    obtain ⟨vy, hy⟩ := Option.isSome_iff_exists.mp (hcs y (by simp))
    obtain ⟨vz, hz⟩ := Option.isSome_iff_exists.mp (hcs z (by simp))
    have hmod : (w :: x :: y :: z :: rest).length % 4 = rest.length % 4 := by
      simp only [List.length_cons]
      omega
    rw [hmod] at hlen
    have hrest := a2b_pads rest (fun c hc => hcs c (by simp [hc])) hlen
    have hpadding : padding (w :: x :: y :: z :: rest).length = padding rest.length := by
      rw [padding, padding, hmod]
    rw [hpadding]
    show a2bFrom 0 0 0 (w :: x :: y :: z :: (rest ++ padding rest.length)) = _
    rw [a2b] at hrest
    simp only [a2bFrom_value hw, a2bFrom_value hx, a2bFrom_value hy, a2bFrom_value hz, hrest,
      List.filterMap_cons, hw, hx, hy, hz, decodeBare]
    rfl

/-- Four characters for three bytes, and no more than are needed for the rest. -/
theorem length_bare (bytes : List UInt8) : (bare bytes).length = (4 * bytes.length + 2) / 3 := by
  induction bytes using bare.induct with
  | case1 => rfl
  | case2 a => simp [bare]
  | case3 a b => simp [bare]
  | case4 a b c rest ih =>
    rw [bare]
    simp only [List.length_cons, ih]
    omega

theorem length_encode (bytes : List UInt8) :
    (encode bytes).length = 4 * ((bytes.length + 2) / 3) := by
  have hbare := length_bare bytes
  rw [encode, List.length_append, padding]
  split_ifs with hmod
  · rw [List.length_nil]
    omega
  · rw [List.length_replicate]
    omega

/-- **What is encoded is decoded.** -/
theorem a2b_encode (bytes : List UInt8) : a2b (encode bytes) = .ok bytes := by
  have hdecode := a2b_pads (bare bytes) (fun _ hc => isAlphabet_of_mem_bare hc)
    (by have := length_bare bytes; omega)
  rw [decodeBare_bare] at hdecode
  exact hdecode

theorem encode_injective : Function.Injective encode := by
  intro x y h
  exact Except.ok.inj ((a2b_encode x).symm.trans ((congrArg a2b h).trans (a2b_encode y)))

/-! ### Foreign characters -/

/-- A text with characters in it that are not of the alphabet; its padding may be lost. -/
inductive Noise : List UInt8 → List UInt8 → Prop
  | nil : Noise [] []
  | keep {cs raw : List UInt8} (c : UInt8) (h : Noise cs raw) : Noise (c :: cs) (c :: raw)
  | insert {cs raw : List UInt8} (c : UInt8) (hc : isAlphabet c = false) (h : Noise cs raw) :
      Noise cs (c :: raw)
  | unpad {cs raw : List UInt8} (h : Noise cs raw) : Noise (pad :: cs) raw

/-- What is of the alphabet is left as it is. -/
theorem Noise.filter_eq {cs raw : List UInt8} (h : Noise cs raw) :
    raw.filter isAlphabet = cs.filter isAlphabet := by
  induction h with
  | nil => rfl
  | keep c _ ih => rw [List.filter_cons, List.filter_cons, ih]
  | insert c hc _ ih => rw [List.filter_cons_of_neg (by simp [hc]), ih]
  | unpad _ ih => rw [ih, List.filter_cons_of_neg (by decide)]

/-- The beginning of a text has the first characters. -/
theorem filter_take_encode (bytes : List UInt8) (n : ℕ) :
    ((encode bytes).take n).filter isAlphabet = (bare bytes).take n := by
  rw [encode, List.take_append, List.filter_append]
  have hbare : ((bare bytes).take n).filter isAlphabet = (bare bytes).take n :=
    List.filter_eq_self.mpr fun c hc => isAlphabet_of_mem_bare (List.mem_of_mem_take hc)
  have hpadding : ∀ m k, ((padding m).take k).filter isAlphabet = [] := by
    intro m k
    refine List.filter_eq_nil_iff.mpr fun c hc => ?_
    have hmem := List.mem_of_mem_take hc
    unfold padding at hmem
    split_ifs at hmem
    · cases hmem
    · rw [List.eq_of_mem_replicate hmem]
      decide
  rw [hbare, hpadding, List.append_nil]

end Base64
