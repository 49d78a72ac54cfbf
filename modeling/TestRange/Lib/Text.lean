/-
Texts as lists of characters: whitespace, and the text of some bytes.

* `Text.strip` — a text without the whitespace at its ends;
* `Text.firstWord` — what stands before the first whitespace of a stripped text;
* `Text.decode` — UTF-8 with replacement of what is not;
* `Text.append_cons_inj`, `Text.append_cons_inj_right` — a separator that does not occur on
  one side of it tells the sides apart;
* `Text.append_toString_inj` — a word and a number are told apart from another number;
* `Text.quoted_intercalate` — the members of a list read back from their quotes.
-/
import Mathlib.Data.List.TakeWhile
import Mathlib.Tactic.Common

namespace Text

/-- What `str.isspace` counts as whitespace. -/
def isSpace (c : Char) : Bool :=
  let n := c.toNat
  (9 ≤ n && n ≤ 13) || (28 ≤ n && n ≤ 32) || n = 0x85 || n = 0xa0 || n = 0x1680 ||
    (0x2000 ≤ n && n ≤ 0x200a) || n = 0x2028 || n = 0x2029 || n = 0x202f || n = 0x205f || n = 0x3000

/-- `text.strip()` -/
def strip (cs : List Char) : List Char := ((cs.dropWhile isSpace).reverse.dropWhile isSpace).reverse

theorem dropWhile_eq_self {p : Char → Bool} {cs : List Char} (h : ∀ c, cs.head? = some c → p c = false) :
    cs.dropWhile p = cs := by
  cases cs with
  | nil => rfl
  | cons c cs => rw [List.dropWhile_cons_of_neg (by simp [h c rfl])]

/-- A text without whitespace is stripped already. -/
theorem strip_of_forall {cs : List Char} (h : ∀ c ∈ cs, isSpace c = false) : strip cs = cs := by
  have hfront : cs.dropWhile isSpace = cs :=
    dropWhile_eq_self fun c hc => h c (List.mem_of_mem_head? hc)
  have hback : cs.reverse.dropWhile isSpace = cs.reverse :=
    dropWhile_eq_self fun c hc => h c (List.mem_reverse.mp (List.mem_of_mem_head? hc))
  rw [strip, hfront, hback, List.reverse_reverse]

/-- `text.split(maxsplit=1)[0]` of a stripped text that is not empty. -/
def firstWord (cs : List Char) : List Char := cs.takeWhile fun c => !isSpace c

/-- The first word is not touched by stripping the end. -/
theorem firstWord_strip (cs : List Char) : firstWord (strip cs) = firstWord (cs.dropWhile isSpace) := by
  rw [strip, firstWord, firstWord]
  generalize cs.dropWhile isSpace = ds
  -- What is stripped is whitespace, so the word ends before it.
  obtain ⟨tail, hds, htail⟩ : ∃ tail, ds = (ds.reverse.dropWhile isSpace).reverse ++ tail ∧
      ∀ c ∈ tail, isSpace c = true := by
    refine ⟨(ds.reverse.takeWhile isSpace).reverse, ?_, fun c hc => ?_⟩
    · rw [← List.reverse_append, List.takeWhile_append_dropWhile, List.reverse_reverse]
    · exact List.mem_takeWhile_imp (List.mem_reverse.mp hc)
  conv_rhs => rw [hds]
  rw [List.takeWhile_append]
  split_ifs with hall
  · cases tail with
    | nil =>
      rw [List.takeWhile_nil, List.append_nil]
      exact (List.takeWhile_prefix _).eq_of_length hall
    | cons c tail =>
      have hc : isSpace c = true := htail c List.mem_cons_self
      rw [List.takeWhile_cons_of_neg (by simp [hc]), List.append_nil]
      exact (List.takeWhile_prefix _).eq_of_length hall
  · rfl

/-- Stripping a text that starts with spaces and then a part with no whitespace at its ends leaves
that part and what is left of the rest. -/
theorem strip_append {spaces a b : List Char} (hspaces : ∀ c ∈ spaces, isSpace c = true)
    (hhead : ∀ c, a.head? = some c → isSpace c = false) (hlast : ∀ c, a.getLast? = some c → isSpace c = false)
    (ha : a ≠ []) : strip (spaces ++ (a ++ b)) = a ++ (b.reverse.dropWhile isSpace).reverse := by
  have hfront : (spaces ++ (a ++ b)).dropWhile isSpace = a ++ b := by
    rw [List.dropWhile_append_of_pos hspaces]
    refine dropWhile_eq_self fun c hc => hhead c ?_
    obtain ⟨d, a, rfl⟩ := List.exists_cons_of_ne_nil ha
    exact hc
  have hback : a.reverse.dropWhile isSpace = a.reverse := by
    refine dropWhile_eq_self fun c hc => hlast c ?_
    rwa [List.head?_reverse] at hc
  rw [strip, hfront, List.reverse_append, List.dropWhile_append]
  split_ifs with hall
  · rw [hback, List.reverse_reverse]
    rw [List.isEmpty_iff.mp hall]
    simp
  · simp

/-- A piece does not have the separator. -/
theorem notMem_of_mem_splitOn {sep : Char} {cs piece : List Char} (h : piece ∈ cs.splitOn sep) :
    sep ∉ piece := by
  induction cs generalizing piece with
  | nil =>
    rw [List.splitOn_nil, List.mem_singleton] at h
    rw [h]
    exact List.not_mem_nil
  | cons c cs ih =>
    rw [List.splitOn_cons_eq_if_modifyHead] at h
    split_ifs at h with hc
    · rcases List.mem_cons.mp h with rfl | h
      · exact List.not_mem_nil
      · exact ih h
    · obtain ⟨first, rest, hsplit⟩ := List.exists_cons_of_ne_nil (List.splitOn_ne_nil sep cs)
      rw [hsplit, List.modifyHead_cons] at h
      rw [hsplit] at ih
      rcases List.mem_cons.mp h with rfl | h
      · have hne : sep ≠ c := fun heq => hc (by simp [heq])
        exact List.not_mem_cons_of_ne_of_not_mem hne (ih List.mem_cons_self)
      · exact ih (List.mem_cons_of_mem _ h)

/-- A character outside a class does not occur in a text of the class. -/
theorem notMem_of_forall {p : Char → Bool} {cs : List Char} (h : ∀ c ∈ cs, p c = true) {c : Char}
    (hc : p c = false) : c ∉ cs := by
  intro hm
  rw [h c hm] at hc
  cases hc

/-! ### UTF-8 -/

/-- Where the decoder is: between characters, or after `acc` with `more` bytes to come beside the
next, which must lie between `lo` and `hi`. -/
inductive Utf8
  | start
  | inside (acc more : ℕ) (lo hi : UInt8)

/-- U+FFFD -/
def replacement : Char := Char.ofNat 0xfffd

/-- What the first byte of a character yields, and what must follow it. -/
def lead (b : UInt8) : List Char × Utf8 :=
  if b < 0x80 then ([Char.ofNat b.toNat], .start)
  else if b < 0xc2 then ([replacement], .start)
  else if b < 0xe0 then ([], .inside (b.toNat - 0xc0) 0 0x80 0xbf)
  else if b = 0xe0 then ([], .inside 0 1 0xa0 0xbf)
  else if b = 0xed then ([], .inside 0xd 1 0x80 0x9f)
  else if b < 0xf0 then ([], .inside (b.toNat - 0xe0) 1 0x80 0xbf)
  else if b = 0xf0 then ([], .inside 0 2 0x90 0xbf)
  else if b < 0xf4 then ([], .inside (b.toNat - 0xf0) 2 0x80 0xbf)
  else if b = 0xf4 then ([], .inside 4 2 0x80 0x8f)
  else ([replacement], .start)

/-- A sequence that breaks off is replaced as a whole, and the byte that breaks it off is read
again. -/
def decodeFrom : Utf8 → List UInt8 → List Char
  | .start, [] => []
  | .inside _ _ _ _, [] => [replacement]
  | .start, b :: bs => (lead b).1 ++ decodeFrom (lead b).2 bs
  | .inside acc more lo hi, b :: bs =>
    if lo ≤ b ∧ b ≤ hi then
      if more = 0 then Char.ofNat (acc * 64 + (b.toNat - 0x80)) :: decodeFrom .start bs
      else decodeFrom (.inside (acc * 64 + (b.toNat - 0x80)) (more - 1) 0x80 0xbf) bs
    else replacement :: ((lead b).1 ++ decodeFrom (lead b).2 bs)

/-- `data.decode("utf-8", "replace")` -/
def decode (bs : List UInt8) : List Char := decodeFrom .start bs

theorem decode_cons {b : UInt8} (h : b < 0x80) (bs : List UInt8) :
    decode (b :: bs) = Char.ofNat b.toNat :: decode bs := by
  rw [decode, decodeFrom, lead, if_pos h]
  rfl

/-- What is ASCII is decoded byte by byte. -/
theorem decode_append {bs : List UInt8} (h : ∀ b ∈ bs, b < 0x80) (rest : List UInt8) :
    decode (bs ++ rest) = bs.map (fun b => Char.ofNat b.toNat) ++ decode rest := by
  induction bs with
  | nil => rfl
  | cons b bs ih =>
    rw [List.cons_append, decode_cons (h b List.mem_cons_self),
      ih fun b hb => h b (List.mem_cons_of_mem _ hb)]
    rfl

/-- A sequence that is being read stands for a character beyond ASCII. -/
def Utf8.Wide : Utf8 → Prop
  | .start => True
  | .inside acc more lo _ =>
    (more = 0 → 0x80 ≤ acc * 64 + (lo.toNat - 0x80)) ∧ 2 ≤ acc * 64 + (lo.toNat - 0x80)

theorem lead_wide (b : UInt8) : (lead b).2.Wide := by
  unfold lead
  split_ifs <;> simp only [UInt8.lt_iff_toNat_lt, ← UInt8.toNat_inj, UInt8.reduceToNat] at * <;>
    first
    | exact trivial
    | constructor <;> simp only [UInt8.reduceToNat] <;> omega

/-- The line feed has one code point. -/
theorem ofNat_eq_newline {n : ℕ} (h : '\n' = Char.ofNat n) : n = 10 := by
  by_cases hv : n.isValidChar
  · have hnat : (Char.ofNat n).toNat = n := by
      rw [Char.ofNat, dif_pos hv]
      rfl
    rw [← hnat, ← h]
    rfl
  · have hzero : Char.ofNat n = Char.ofNat 0 := by
      rw [Char.ofNat, dif_neg hv]
      rfl
    rw [hzero] at h
    exact absurd h (by decide)

theorem lead_newline {b : UInt8} (h : '\n' ∈ (lead b).1) : b = 10 := by
  unfold lead at h
  split_ifs at h <;> simp only [List.mem_singleton, List.not_mem_nil] at h
  · exact UInt8.toNat_inj.mp (ofNat_eq_newline h)
  all_goals exact absurd h (by decide)

theorem decodeFrom_newline {st : Utf8} (hst : st.Wide) {bs : List UInt8}
    (h : '\n' ∈ decodeFrom st bs) : (10 : UInt8) ∈ bs := by
  have hstart : Utf8.start.Wide := trivial
  induction bs generalizing st with
  | nil =>
    cases st with
    | start => exact absurd h List.not_mem_nil
    | inside acc more lo hi => exact absurd (List.mem_singleton.mp h) (by decide)
  | cons b bs ih =>
    -- What a first byte yields, and what follows it.
    have hlead : '\n' ∈ (lead b).1 ++ decodeFrom (lead b).2 bs → (10 : UInt8) ∈ b :: bs := by
      intro hmem
      rcases List.mem_append.mp hmem with hb | hbs
      · rw [lead_newline hb]
        exact List.mem_cons_self
      · exact List.mem_cons_of_mem b (ih (lead_wide b) hbs)
    cases st with
    | start => exact hlead h
    | inside acc more lo hi =>
      rw [decodeFrom] at h
      split_ifs at h with hin hmore
      · rcases List.mem_cons.mp h with hc | hbs
        · have hle : lo.toNat ≤ b.toNat := UInt8.le_iff_toNat_le.mp hin.1
          have hwide := hst.1 hmore
          have hten := ofNat_eq_newline hc
          omega
        · exact List.mem_cons_of_mem b (ih hstart hbs)
      · have hle : lo.toNat ≤ b.toNat := UInt8.le_iff_toNat_le.mp hin.1
        have hwide := hst.2
        have hnext : (Utf8.inside (acc * 64 + (b.toNat - 0x80)) (more - 1) 0x80 0xbf).Wide := by
          refine ⟨fun _ => ?_, ?_⟩ <;> simp only [UInt8.reduceToNat] <;> omega
        exact List.mem_cons_of_mem b (ih hnext h)
      · rcases List.mem_cons.mp h with hc | hrest
        · exact absurd hc (by decide)
        · exact hlead hrest

/-- A line feed is decoded from the byte 10 alone. -/
theorem decode_newline {bs : List UInt8} (h : '\n' ∈ decode bs) : (10 : UInt8) ∈ bs :=
  decodeFrom_newline (show Utf8.start.Wide from trivial) h

/-! ### Separators -/

/-- The text before the first separator and the text after it. -/
theorem append_cons_inj {c : Char} {a a' b b' : List Char} (ha : c ∉ a) (ha' : c ∉ a')
    (h : a ++ c :: b = a' ++ c :: b') : a = a' ∧ b = b' := by
  induction a generalizing a' with
  | nil =>
    cases a' with
    | nil => exact ⟨rfl, (List.cons.inj h).2⟩
    | cons x a' =>
      have hx := (List.cons.inj h).1
      exact absurd (hx ▸ List.mem_cons_self) ha'
  | cons x a ih =>
    cases a' with
    | nil =>
      have hx := (List.cons.inj h).1
      exact absurd (hx ▸ List.mem_cons_self) ha
    | cons y a' =>
      rw [List.cons_append, List.cons_append] at h
      obtain ⟨hx, htail⟩ := List.cons.inj h
      obtain ⟨rfl, rfl⟩ := ih (fun hm => ha (List.mem_cons_of_mem _ hm))
        (fun hm => ha' (List.mem_cons_of_mem _ hm)) htail
      exact ⟨by rw [hx], rfl⟩

/-- The text before the last separator and the text after it. -/
theorem append_cons_inj_right {c : Char} {a a' b b' : List Char} (hb : c ∉ b) (hb' : c ∉ b')
    (h : a ++ c :: b = a' ++ c :: b') : a = a' ∧ b = b' := by
  have hrev : b.reverse ++ c :: a.reverse = b'.reverse ++ c :: a'.reverse := by
    simpa using congrArg List.reverse h
  obtain ⟨h₁, h₂⟩ := append_cons_inj (by simpa using hb) (by simpa using hb') hrev
  exact ⟨List.reverse_inj.mp h₂, List.reverse_inj.mp h₁⟩

/-! ### Quotes -/

/-- The second, the fourth and so on. -/
def everyOther : List (List Char) → List (List Char)
  | _ :: piece :: rest => piece :: everyOther rest
  | _ => []

/-- What stands in quotes. -/
def quoted (q : Char) (cs : List Char) : List (List Char) := everyOther (cs.splitOn q)

theorem quoted_append {q : Char} {pre a : List Char} (hpre : q ∉ pre) (ha : q ∉ a)
    (rest : List Char) : quoted q (pre ++ q :: (a ++ q :: rest)) = a :: quoted q rest := by
  rw [quoted, List.splitOn_append_cons_self_of_not_mem hpre,
    List.splitOn_append_cons_self_of_not_mem ha]
  rfl

/-- The members of a list read back from the quotes they stand in. -/
theorem quoted_intercalate {q : Char} {sep pre post : List Char} (hsep : q ∉ sep) (hpre : q ∉ pre)
    (hpost : q ∉ post) {texts : List (List Char)} (htexts : ∀ t ∈ texts, q ∉ t) :
    quoted q (pre ++ (sep.intercalate (texts.map fun t => q :: (t ++ [q])) ++ post)) = texts := by
  induction texts generalizing pre with
  | nil =>
    rw [List.map_nil, List.intercalate_nil, List.nil_append, quoted,
      List.splitOn_eq_singleton (by simp [hpre, hpost])]
    rfl
  | cons a texts ih =>
    have ha : q ∉ a := htexts a List.mem_cons_self
    cases texts with
    | nil =>
      rw [List.map_cons, List.map_nil, List.intercalate_singleton]
      have hshape : pre ++ (q :: (a ++ [q]) ++ post) = pre ++ q :: (a ++ q :: post) := by simp
      rw [hshape, quoted_append hpre ha, quoted, List.splitOn_eq_singleton hpost]
      rfl
    | cons b texts =>
      have hshape : pre ++ (sep.intercalate ((a :: b :: texts).map fun t => q :: (t ++ [q])) ++ post) =
          pre ++ q :: (a ++ q ::
            (sep ++ (sep.intercalate ((b :: texts).map fun t => q :: (t ++ [q])) ++ post))) := by
        simp [List.intercalate_cons_cons]
      rw [hshape, quoted_append hpre ha, ih hsep fun t ht => htexts t (List.mem_cons_of_mem _ ht)]

theorem toDigits_inj {m n : ℕ} (h : Nat.toDigits 10 m = Nat.toDigits 10 n) : m = n := by
  rw [← Nat.ofDigitChars_ten_toDigits (n := m), h, Nat.ofDigitChars_ten_toDigits]

theorem append_toString_inj {word : String} {m n : ℕ} (h : word ++ toString m = word ++ toString n) :
    m = n := by
  have hlist := congrArg String.toList h
  rw [String.toList_append, String.toList_append] at hlist
  have hdigits : (toString m).toList = (toString n).toList := List.append_cancel_left hlist
  exact toDigits_inj (Nat.toList_repr.symm.trans (hdigits.trans Nat.toList_repr))

end Text
